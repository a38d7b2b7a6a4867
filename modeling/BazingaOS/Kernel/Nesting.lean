import BazingaOS.Kernel.ContextSwitch

/-!
# Interrupts of interrupts

The stub of a line of the first controller masks the line while its handler runs, so no handler is
interrupted by its own line. For a line of the second controller the bit that the stub wants to set
is not one of the eight of the mask register, and its handler can be.
-/

namespace BazingaOS

open Prog

section Lines

variable {k : KernelPlaces} {s t : System} {v : View} {e : Event}

/-- The lines of the first controller whose stubs are active. -/
def Activation.masterLine (a : Activation) : Option (Fin 16) :=
  match a.origin with
  | .line irq => if chipOf irq = .master then some irq else none
  | .call _ => none

def masterLines (l : List Activation) : List (Fin 16) := l.filterMap Activation.masterLine

/-- An active line of the first controller is masked. -/
structure LinesMasked (s : System) : Prop where
  once : (masterLines s.stubs).Nodup
  masked : ∀ irq ∈ masterLines s.stubs, (s.board.imr .master).getLsbD irq = true

theorem lineBit_getLsbD : ∀ irq : Fin 16, chipOf irq = .master →
    ∀ i : Fin 16, chipOf i = .master → (lineBit irq).getLsbD i = decide (i = irq) := by decide

theorem lineBit_slave : ∀ irq : Fin 16, chipOf irq = .slave → lineBit irq = 0#8 := by decide

theorem master_mod : ∀ irq : Fin 16, chipOf irq = .master → irq.val % 8 = irq.val := by decide

theorem mem_masterLines {l : List Activation} {irq : Fin 16} (h : irq ∈ masterLines l) :
    chipOf irq = .master := by
  obtain ⟨a, -, ha⟩ := List.mem_filterMap.mp h
  obtain ⟨origin, top⟩ := a
  rcases origin with i | stage
  · simp only [Activation.masterLine] at ha
    split at ha
    · cases ha
      assumption
    · cases ha
  · cases ha

theorem masterLines_line {irq : Fin 16} {top : Word} {l : List Activation}
    (h : chipOf irq = .master) : masterLines (⟨.line irq, top⟩ :: l) = irq :: masterLines l := by
  simp [masterLines, Activation.masterLine, h]

theorem masterLines_slave {irq : Fin 16} {top : Word} {l : List Activation}
    (h : chipOf irq ≠ .master) : masterLines (⟨.line irq, top⟩ :: l) = masterLines l := by
  simp [masterLines, Activation.masterLine, h]

theorem hwint_imr {b b' : Board} {irq : Fin 16} (h : Trap.hwint k irq b = .ok () b') :
    b'.imr = Function.update b.imr (chipOf irq) (b.imr (chipOf irq) ||| lineBit irq) := by
  have hwp : wp (Trap.hwint k irq) (fun _ b' => b'.imr =
      Function.update b.imr (chipOf irq) (b.imr (chipOf irq) ||| lineBit irq))
      (fun _ _ => True) b := by
    rw [Trap.wp_hwint]
    exact wp_mono (wp_true _) (fun _ _ _ => rfl) fun _ _ _ => trivial
  rw [wp, h] at hwp
  exact hwp

theorem LinesMasked.empty (b : Board) : LinesMasked ⟨b, []⟩ :=
  ⟨List.nodup_nil, fun _ h => absurd h (List.not_mem_nil)⟩

theorem LinesMasked.interrupt {b b' : Board} {irq : Fin 16} {top : Word} {l : List Activation}
    (h : LinesMasked ⟨b, l⟩) (hline : b.Unmasked irq)
    (himr : b'.imr = Function.update b.imr (chipOf irq) (b.imr (chipOf irq) ||| lineBit irq)) :
    LinesMasked ⟨b', ⟨.line irq, top⟩ :: l⟩ := by
  by_cases hchip : chipOf irq = .master
  · have hfree := hline.1
    rw [hchip, master_mod irq hchip] at hfree
    have hnew : irq ∉ masterLines l := fun hmem => by
      rw [h.masked irq hmem] at hfree
      cases hfree
    refine ⟨?_, fun i hi => ?_⟩
    · rw [masterLines_line hchip]
      exact List.nodup_cons.mpr ⟨hnew, h.once⟩
    · change i ∈ masterLines _ at hi
      rw [masterLines_line hchip] at hi
      change (b'.imr .master).getLsbD i = true
      rw [himr, hchip, Function.update_self, BitVec.getLsbD_or, Bool.or_eq_true]
      rcases List.mem_cons.mp hi with rfl | hi
      · exact .inr (by rw [lineBit_getLsbD i hchip i hchip, decide_eq_true rfl])
      · exact .inl (h.masked i hi)
  · refine ⟨?_, fun i hi => ?_⟩
    · rw [masterLines_slave hchip]
      exact h.once
    · change i ∈ masterLines _ at hi
      rw [masterLines_slave hchip] at hi
      change (b'.imr .master).getLsbD i = true
      rw [himr, Function.update_of_ne (Ne.symm hchip)]
      exact h.masked i hi

theorem LinesMasked.resume {b b' : Board} {irq : Fin 16} {top : Word} {l : List Activation}
    (h : LinesMasked ⟨b, ⟨.line irq, top⟩ :: l⟩)
    (himr : b'.imr = Function.update b.imr (chipOf irq) (b.imr (chipOf irq) &&& ~~~lineBit irq)) :
    LinesMasked ⟨b', l⟩ := by
  have honce := h.once
  have hmasked := h.masked
  by_cases hchip : chipOf irq = .master
  · change (masterLines (_ :: l)).Nodup at honce
    rw [masterLines_line hchip] at honce
    obtain ⟨hnot, honce⟩ := List.nodup_cons.mp honce
    refine ⟨honce, fun i hi => ?_⟩
    have hne : i ≠ irq := fun he => hnot (he ▸ hi)
    have hi' := hmasked i (by rw [masterLines_line hchip]; exact List.mem_cons_of_mem _ hi)
    have hmaster := mem_masterLines hi
    have hlt : i.val < 8 := by
      rw [← master_mod i hmaster]
      exact Nat.mod_lt _ (by decide)
    change (b'.imr .master).getLsbD i = true
    rw [himr, hchip, Function.update_self, BitVec.getLsbD_and, BitVec.getLsbD_not,
      lineBit_getLsbD irq hchip i hmaster, decide_eq_false hne, hi', decide_eq_true hlt]
    rfl
  · change (masterLines (_ :: l)).Nodup at honce
    rw [masterLines_slave hchip] at honce
    refine ⟨honce, fun i hi => ?_⟩
    change (b'.imr .master).getLsbD i = true
    rw [himr, Function.update_of_ne (Ne.symm hchip)]
    exact hmasked i (by rw [masterLines_slave hchip]; exact hi)

theorem LinesMasked.of_eq {b b' : Board} {l l' : List Activation} (h : LinesMasked ⟨b, l⟩)
    (himr : b'.imr = b.imr) (hl : masterLines l' = masterLines l) : LinesMasked ⟨b', l'⟩ := by
  refine ⟨?_, fun i hi => ?_⟩
  · rw [hl]
    exact h.once
  · change i ∈ masterLines l' at hi
    rw [hl] at hi
    rw [himr]
    exact h.masked i hi

theorem LinesMasked.step (h : LinesMasked s) (hs : Shown k s v) (hstep : SystemStep k s e t) :
    LinesMasked t := by
  cases hstep with
  | run => exact .empty _
  | install => exact .empty _
  | interrupt hflag hline hroom hrun => exact h.interrupt hline (hwint_imr hrun)
  | trap hrun => exact ⟨List.nodup_nil, fun _ h => absurd h List.not_mem_nil⟩
  | work ha hwork => exact h.of_eq hwork.imr rfl
  | pushEsi hrun =>
    cases hrun
    exact h.of_eq rfl rfl
  | @popEsi b b' top l hesp hrun =>
    have hwp : wp Trap.popEsi (fun _ b' => b'.imr = b.imr) (fun _ _ => True) b := by
      simp only [Trap.popEsi, Trap.wp_onCpu, wp_bind, Trap.wp_pop, wp_modify]
    rw [wp, hrun] at hwp
    exact h.of_eq hwp rfl
  | answer hrun =>
    cases hrun
    exact h.of_eq rfl rfl
  | @resume b b' irq top a l hesp hrun =>
    cases hs with
    | @kernel _ _ ctx p ys hs =>
      obtain ⟨y, ys, rfl⟩ := hs.stacked.exists_cons
      obtain ⟨b'', hret, -, himr, -, -⟩ := hs.resume hesp (stubEnds_unmasked b irq)
      rw [hwintEnd_of_ret hret] at hrun
      cases hrun
      exact h.resume himr
  | switch => exact .empty _
  | sysExit => exact .empty _

/-- Where a stub that ends gets back to: the code of the kernel that it interrupted, or else the
process that is ready. -/
def View.Returns (k : KernelPlaces) (w : View) (ready : Word) (x : Context) : Prop :=
  match w.handlers with
  | none => False
  | some [] => ∃ q, ready = k.frame q ∧ x = w.ctx q
  | some (y :: _) => x = y

theorem Shown.exists_hwintEnd {b : Board} {irq : Fin 16} {top : Word} {l : List Activation}
    (h : Shown k ⟨b, ⟨.line irq, top⟩ :: l⟩ v) (hesp : b.cpu.esp = top) :
    ∃ b', Trap.hwintEnd k irq b = .ok () b' ∧ v.Returns k b.cpu.pProcReady b'.context := by
  cases h with
  | @kernel _ _ ctx p ys h =>
    cases l with
    | nil =>
      obtain rfl := h.stacked.eq_nil
      obtain ⟨q, hq, -⟩ := h.ready
      obtain ⟨b', hret, hcontext, -⟩ := h.switch hesp hq (stubEnds_unmasked b irq)
      exact ⟨b', hwintEnd_of_ret hret, q, hq, hcontext⟩
    | cons a l =>
      obtain ⟨y, ys, rfl⟩ := h.stacked.exists_cons
      obtain ⟨b', hret, hcontext, -⟩ := h.resume hesp (stubEnds_unmasked b irq)
      exact ⟨b', hwintEnd_of_ret hret, hcontext⟩

theorem Shown.kReenter (h : Shown k s v) : s.board.cpu.kReenter + 1 = s.stubs.length := by
  cases h with
  | process h =>
    change _ + 1 = ((0 : Nat) : Int)
    rw [h.kReenter]
    rfl
  | kernel h => exact h.kReenter

theorem Shown.linesMasked {l : List Event} (h : Shown k s v) (hm : LinesMasked s)
    (hrun : Run (SystemStep k) s l t) : LinesMasked t := by
  induction hrun with
  | nil => exact hm
  | snoc hrun hstep ih =>
    obtain ⟨w, -, hu⟩ := h.run hrun
    exact ih.step hu hstep

/-- `k_reenter` counts the stubs that are active, no handler of the first controller's lines is
interrupted by its own line, and a handler that is done always gets back to where it came from or to
the process that is ready. -/
theorem stubs_of_run {b₀ b : Board} {p : Pid} {l : List Event} (hboot : KernelStarted k b₀ p)
    (hrestart : Trap.restart k b₀ = .ok () b) (hrun : Run (SystemStep k) ⟨b, []⟩ l t) :
    t.board.cpu.kReenter + 1 = t.stubs.length ∧ (masterLines t.stubs).Nodup ∧
      (∀ irq ∈ masterLines t.stubs, (t.board.imr .master).getLsbD irq = true) ∧
      ∃ w, Run ViewStep (b₀.bootView k p) l w ∧
        ∀ irq top l', t.stubs = ⟨.line irq, top⟩ :: l' → t.board.cpu.esp = top →
          ∃ b', Trap.hwintEnd k irq t.board = .ok () b' ∧
            w.Returns k t.board.cpu.pProcReady b'.context := by
  have hstart := hboot.shows hrestart
  obtain ⟨w, hw, ht⟩ := hstart.run hrun
  have hm := hstart.linesMasked (.empty b) hrun
  refine ⟨ht.kReenter, hm.once, hm.masked, w, hw, ?_⟩
  rintro irq top l' hstubs hesp
  obtain ⟨b', l⟩ := t
  cases hstubs
  exact ht.exists_hwintEnd hesp

/-- The handler of the keyboard, which has interrupted that of the clock, is done. -/
theorem stubs_of_run_nested : ∃ (b : Board) (t : System) (x y : Context) (b' : Board),
    Run (SystemStep samplePlaces) ⟨b, []⟩ [.interrupt 0 x, .work, .interrupt 1 y] t ∧
    t.board.cpu.kReenter = 1 ∧ masterLines t.stubs = [1, 0] ∧
    Trap.hwintEnd samplePlaces 1 t.board = .ok () b' ∧ ∃ w, Run ViewStep
      (sampleBoard.bootView samplePlaces taskSys) [.interrupt 0 x, .work, .interrupt 1 y] w ∧
      w.Returns samplePlaces t.board.cpu.pProcReady b'.context := by
  obtain ⟨b, b₂, c, c₂, hrestart, hrun, -⟩ := exists_nested
  obtain ⟨hre, -, -, w, hw, hback⟩ := stubs_of_run sampleBoard_started hrestart hrun
  obtain ⟨b', hend, hreturns⟩ := hback 1 c₂.esp _ rfl rfl
  exact ⟨b, _, b.context, b₂.context, b', hrun, add_right_cancel hre, rfl, hend, w, hw,
    hreturns⟩

/-- The stub of a line of the second controller masks nothing. -/
theorem hwint_slave_again {b b' : Board} {irq : Fin 16} (hirq : chipOf irq = .slave)
    (hline : b.Unmasked irq) (h : Trap.hwint k irq b = .ok () b') :
    b'.Unmasked irq ∧ b'.cpu.eflags &&& interruptFlag ≠ 0 := by
  have himr := hwint_imr h
  rw [hirq, lineBit_slave irq hirq, BitVec.or_zero, Function.update_eq_self] at himr
  refine ⟨?_, ?_⟩
  · rw [Board.Unmasked, himr]
    exact hline
  · have hwp : wp (Trap.hwint k irq) (fun _ b' => b'.cpu.eflags &&& interruptFlag ≠ 0)
        (fun _ _ => True) b := by
      rw [Trap.wp_hwint]
      refine wp_mono (wp_true _) (fun _ c _ => ?_) fun _ _ _ => trivial
      exact flag_of_sti c.eflags
    rw [wp, h] at hwp
    exact hwp

theorem AtKernel.again {b : Board} {l : List Activation} {ctx : Pid → Context} {p : Pid}
    {ys : List Context} {irq : Fin 16} (h : AtKernel k b l ctx p ys) (hirq : chipOf irq = .slave)
    (hline : b.Unmasked irq) (hflag : b.cpu.eflags &&& interruptFlag ≠ 0) (n : Nat)
    (hroom : k.stackTop.toNat + 68 * n ≤ b.cpu.esp.toNat + kernelStackSize) :
    ∃ es b' l', Run (SystemStep k) ⟨b, l⟩ es ⟨b', l'⟩ ∧ (∃ ys', AtKernel k b' l' ctx p ys') ∧
      b'.Unmasked irq ∧ b'.cpu.eflags &&& interruptFlag ≠ 0 ∧
      b'.cpu.esp.toNat + 68 * n = b.cpu.esp.toNat ∧
      l'.map (·.origin) = List.replicate n (.line irq) ++ l.map (·.origin) := by
  induction n with
  | zero => exact ⟨[], b, l, .nil, ⟨ys, h⟩, hline, hflag, rfl, rfl⟩
  | succ n ih =>
    obtain ⟨es, b₁, l₁, hrun, ⟨ys₁, h₁⟩, hline₁, hflag₁, hesp₁, horigin₁⟩ := ih (by omega)
    have hroom₁ : k.stackTop.toNat + 68 ≤ b₁.cpu.esp.toNat + kernelStackSize := by omega
    obtain ⟨c, henter, -, hat⟩ := h₁.enter hroom₁ irq
    have hhwint : Trap.hwint k irq b₁ = .ok () (b₁.masked irq c) := hwint_of_enter henter
    obtain ⟨hline₂, hflag₂⟩ := hwint_slave_again hirq hline₁ hhwint
    have h₂ : AtKernel k (b₁.masked irq c) (⟨.line irq, c.esp⟩ :: l₁) ctx p (b₁.context :: ys₁) :=
      hat _ _ _
    have hesp₂ : c.esp.toNat + 68 = b₁.cpu.esp.toNat := by
      cases h₂.stacked with
      | above _ _ _ _ htop _ => exact htop
    refine ⟨_, b₁.masked irq c, ⟨.line irq, c.esp⟩ :: l₁,
      .snoc hrun (.interrupt hflag₁ hline₁ (fun _ => hroom₁) hhwint), ⟨_, h₂⟩, hline₂, hflag₂, ?_,
      ?_⟩
    · change c.esp.toNat + 68 * (n + 1) = _
      omega
    · rw [List.map_cons, horigin₁, List.replicate_succ]
      rfl

/-- A handler of the second controller's lines can be interrupted by its own line, as often as there
is room for on the stack. -/
theorem slave_reenters_of_run {b₀ b : Board} {p : Pid} {l : List Event} {irq : Fin 16}
    (hboot : KernelStarted k b₀ p) (hrestart : Trap.restart k b₀ = .ok () b)
    (hrun : Run (SystemStep k) ⟨b, []⟩ l t) (hirq : chipOf irq = .slave) (hin : t.stubs ≠ [])
    (hline : t.board.Unmasked irq) (hflag : t.board.cpu.eflags &&& interruptFlag ≠ 0) (n : Nat)
    (hroom : k.stackTop.toNat + 68 * n ≤ t.board.cpu.esp.toNat + kernelStackSize) :
    ∃ l' u, Run (SystemStep k) t l' u ∧
      u.stubs.map (·.origin) = List.replicate n (.line irq) ++ t.stubs.map (·.origin) := by
  obtain ⟨w, -, ht⟩ := (hboot.shows hrestart).run hrun
  cases ht with
  | process h => exact absurd rfl hin
  | kernel h =>
    obtain ⟨es, b', l', hrun', -, -, -, -, horigin⟩ := h.again hirq hline hflag n hroom
    exact ⟨es, ⟨b', l'⟩, hrun', horigin⟩

/-- Line 14 interrupts the handler of the clock, and twice its own. -/
theorem slave_reenters_of_run_disk : ∃ (b : Board) (c : Cpu) (l' : List Event) (u : System),
    Run (SystemStep samplePlaces) ⟨b.masked 0 c, [⟨.line 0, c.esp⟩]⟩ l' u ∧
      u.stubs.map (·.origin) = [.line 14, .line 14, .line 14, .line 0] := by
  obtain ⟨b, c, hrestart, himr, hclock, h₁, hesp⟩ :=
    sampleBoard_started.clock sampleBoard_flag sampleBoard_unmasked
  have hbit : ∀ i : Chip → BitVec 8, i = sampleBoard.imr → (Function.update i (chipOf 0)
      (i (chipOf 0) ||| lineBit 0) (chipOf 14)).getLsbD ((14 : Fin 16) % 8 : Nat) = false ∧
      (chipOf 14 = .slave → (Function.update i (chipOf 0)
        (i (chipOf 0) ||| lineBit 0) .master).getLsbD 2 = false) := by
    rintro _ rfl
    decide
  have hroom : samplePlaces.stackTop.toNat + 68 * 3 ≤ c.esp.toNat + kernelStackSize := by
    rw [hesp]
    decide
  have hslave : chipOf 14 = .slave := by decide
  obtain ⟨l', u, hrun, horigin⟩ := slave_reenters_of_run sampleBoard_started hrestart
    (.snoc .nil hclock) hslave (List.cons_ne_nil _ _) (hbit b.imr himr) (flag_of_sti c.eflags) 3
    hroom
  exact ⟨b, c, l', u, hrun, horigin⟩

end Lines

end BazingaOS
