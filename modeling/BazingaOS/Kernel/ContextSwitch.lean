import BazingaOS.Kernel.KernelStack

/-!
# One register file for each process

There is one set of registers, and `save`, `restart` and `restart_reenter` share it out. A `View`
has registers of its own for every process, and for every piece of code of the kernel that an
interrupt has put off. Whatever the order of interrupts, system calls and switches, the machine
shows such a view: a process goes on with the registers that it had when it was interrupted, but for
the result of a system call, and code of the kernel with all of its registers.
-/

namespace BazingaOS

open Prog

/-- Registers for every process. While code of the kernel runs, `handlers` has the registers of
those of its pieces that were interrupted, the last one first. -/
structure View where
  ctx : Pid → Context
  running : Pid
  handlers : Option (List Context)

inductive ViewStep : View → Event → View → Prop
  | run {ctx : Pid → Context} {p : Pid} (x : Context) :
      ViewStep ⟨ctx, p, none⟩ (.run x) ⟨Function.update ctx p x, p, none⟩
  | install {ctx : Pid → Context} {p q : Pid} (hq : q ≠ p) (x y : Context) :
      ViewStep ⟨ctx, p, none⟩ (.install q x y)
        ⟨Function.update (Function.update ctx p y) q x, p, none⟩
  | interrupt {ctx : Pid → Context} {p : Pid} (irq : Fin 16) :
      ViewStep ⟨ctx, p, none⟩ (.interrupt irq (ctx p)) ⟨ctx, p, some []⟩
  | nested {ctx : Pid → Context} {p : Pid} {ys : List Context} (irq : Fin 16) (x : Context) :
      ViewStep ⟨ctx, p, some ys⟩ (.interrupt irq x) ⟨ctx, p, some (x :: ys)⟩
  | trap {ctx : Pid → Context} {p : Pid} : ViewStep ⟨ctx, p, none⟩ (.trap (ctx p)) ⟨ctx, p, some []⟩
  | work {ctx : Pid → Context} {p : Pid} {ys : List Context} :
      ViewStep ⟨ctx, p, some ys⟩ .work ⟨ctx, p, some ys⟩
  | answer {ctx : Pid → Context} {p : Pid} (v : Word) :
      ViewStep ⟨ctx, p, some []⟩ (.answer v)
        ⟨Function.update ctx p { ctx p with eax := v }, p, some []⟩
  | resume {ctx : Pid → Context} {p : Pid} {y : Context} {ys : List Context} :
      ViewStep ⟨ctx, p, some (y :: ys)⟩ (.resume y) ⟨ctx, p, some ys⟩
  | switch {ctx : Pid → Context} {p : Pid} (q : Pid) :
      ViewStep ⟨ctx, p, some []⟩ (.switch q (ctx q)) ⟨ctx, q, none⟩

/-- A process runs. -/
structure AtProcess (k : KernelPlaces) (b : Board) (ctx : Pid → Context) (p : Pid) : Prop where
  saved : ∀ q, q ≠ p → Context.saved b.cpu.mem (k.frame q) = ctx q
  context : b.context = ctx p
  ldt : load16 b.cpu.mem (k.frame p + 72) = b.ldtr
  ring : selectorRing b.cpu.cs = b.cpu.ring
  outside : b.cpu.ring ≠ 0
  kReenter : b.cpu.kReenter = -1
  sp0 : b.cpu.sp0 = k.frame p + 72
  ready : b.cpu.pProcReady = k.frame p

/-- Code of the kernel runs, and `p` was interrupted. -/
structure AtKernel (k : KernelPlaces) (b : Board) (l : List Activation) (ctx : Pid → Context)
    (p : Pid) (ys : List Context) : Prop where
  saved : ∀ q, Context.saved b.cpu.mem (k.frame q) = ctx q
  kernel : b.InKernel k
  kReenter : b.cpu.kReenter + 1 = l.length
  ready : ∃ q, b.cpu.pProcReady = k.frame q ∧ selectorRing (ctx q).cs ≠ 0
  low : k.stackTop.toNat ≤ b.cpu.esp.toNat + kernelStackSize
  stacked : Stacked k p b.ldtr b.cpu.mem b.context l ys

/-- The machine shows a view. -/
inductive Shown (k : KernelPlaces) : System → View → Prop
  | process {b : Board} {ctx : Pid → Context} {p : Pid} (h : AtProcess k b ctx p) :
      Shown k ⟨b, []⟩ ⟨ctx, p, none⟩
  | kernel {b : Board} {l : List Activation} {ctx : Pid → Context} {p : Pid} {ys : List Context}
      (h : AtKernel k b l ctx p ys) : Shown k ⟨b, l⟩ ⟨ctx, p, some ys⟩

section Steps

variable {k : KernelPlaces} {b b' : Board} {ctx : Pid → Context} {p q : Pid}
  {l : List Activation} {ys : List Context} {irq : Fin 16}

theorem stack_word_apart {w x : Word} (hlow : k.stackTop.toNat ≤ w.toNat + 2048)
    (hhigh : w.toNat + 4 ≤ k.stackTop.toNat) (h : k.InFrame q x) : 4 ≤ (x - w).toNat := by
  by_contra hlt
  have hx : w.toNat ≤ x.toNat ∧ x.toNat < w.toNat + 4 := by bv_omega
  have hoff := h.off_stack (by omega)
  omega

theorem not_stack_word {x : Word} (h : k.InFrame q x) : 4 ≤ (x - (k.stackTop - 4)).toNat := by
  have hlayout := k.layout.2.1
  have hsub := toNat_sub_four (show 4 ≤ k.stackTop.toNat by omega)
  exact stack_word_apart (by omega) (by omega) h

theorem AtProcess.runs (h : AtProcess k b ctx p) {o : Option Pid} (ho : o ≠ some p)
    (hrun : Runs k o b b') {ctx' : Pid → Context} (hp : b'.context = ctx' p)
    (hctx : ∀ q, q ≠ p → o ≠ some q → ctx' q = ctx q)
    (hq : ∀ q, o = some q → Context.saved b'.cpu.mem (k.frame q) = ctx' q) :
    AtProcess k b' ctx' p where
  saved := by
    intro q hne
    by_cases hoq : o = some q
    · exact hq q hoq
    · rw [hctx q hne hoq, ← h.saved q hne]
      exact KernelPlaces.saved_congr fun x hx => hrun.frames q x (Ne.symm hoq) hx
  context := hp
  ldt := by
    rw [hrun.ldtr, ← h.ldt]
    have hsame := KernelPlaces.saved_congr fun x hx => hrun.frames p x (Ne.symm ho) hx
    exact congrArg Context.ldt hsame
  ring := hrun.cs.trans hrun.ring.symm
  outside := by
    rw [hrun.ring]
    exact h.outside
  kReenter := hrun.kReenter.trans h.kReenter
  sp0 := hrun.sp0.trans h.sp0
  ready := hrun.ready.trans h.ready

theorem AtProcess.enter (h : AtProcess k b ctx p) : ∃ c, Trap.enter k b.cpu = .ok () c ∧
    ∀ o, o = .call .entered ∨ (∃ irq, o = .line irq) → ∀ e f i,
      AtKernel k { b with cpu := { c with eax := e, eflags := f }, imr := i } [⟨o, c.esp⟩] ctx p
        [] := by
  have hlayout := k.layout.2.1
  have hfar : ∀ x, (x - k.frame p).toNat < 72 → 4 ≤ (x - (k.stackTop - 4)).toNat :=
    fun x hx => not_stack_word (KernelPlaces.inFrame_iff.mpr (Nat.lt_of_lt_of_le hx (by decide)))
  obtain ⟨m, hok, hm, hret, hsaved⟩ :=
    Trap.enter_user h.outside h.kReenter h.sp0 hfar
  refine ⟨_, hok, fun o ho e f i => ?_⟩
  have hkept : ∀ q x, k.InFrame q x → 72 ≤ (x - k.frame p).toNat → m x = b.cpu.mem x :=
    fun q x hx hfar => hm x hfar (not_stack_word hx)
  have hldt : load16 m (k.frame p + 72) = b.ldtr := by
    rw [← h.ldt]
    apply load16_congr
    intro i hi
    have hplace : k.frame p + 72 + BitVec.ofNat 32 i = k.frame p + BitVec.ofNat 32 (72 + i) := by
      rw [BitVec.ofNat_add, ← BitVec.add_assoc]
      rfl
    rw [hplace]
    exact hkept p _ (KernelPlaces.inFrame_add (by omega)) (by bv_omega)
  rw [hldt] at hsaved
  have hctx : ∀ q, Context.saved m (k.frame q) = ctx q := by
    intro q
    by_cases hq : q = p
    · rw [hq, hsaved, ← h.context]
      rfl
    · rw [← h.saved q hq]
      apply KernelPlaces.saved_congr
      intro x hx
      refine hkept q x hx ?_
      by_contra hlt
      have hin : k.InFrame p x := KernelPlaces.inFrame_iff.mpr
        (Nat.lt_of_lt_of_le (Nat.lt_of_not_le hlt) (by decide))
      exact hq (hx.unique hin)
  have hstacked : ∀ x : Context, x.esp = k.stackTop - 4 → x.esi = k.frame p →
      Stacked k p b.ldtr m x [⟨o, k.stackTop - 4⟩] [] := by
    intro x hesp hesi
    refine .bottom ?_ rfl hret
    rcases ho with rfl | ⟨irq, rfl⟩
    · exact ⟨hesp, hesi⟩
    · exact Nat.le_of_eq (congrArg BitVec.toNat hesp)
  refine ⟨hctx, ⟨rfl, rfl, ⟨rfl, rfl, rfl⟩⟩, rfl, ⟨p, h.ready, ?_⟩, ?_, hstacked _ rfl rfl⟩
  · rw [← h.context]
    exact fun hring => h.outside (h.ring.symm.trans hring)
  · change k.stackTop.toNat ≤ (k.stackTop - 4).toNat + 2048
    rw [toNat_sub_four (by omega)]
    omega


theorem AtKernel.enter (h : AtKernel k b l ctx p ys)
    (hroom : k.stackTop.toNat + 68 ≤ b.cpu.esp.toNat + kernelStackSize) (irq : Fin 16) :
    ∃ c, Trap.enter k b.cpu = .ok () c ∧ c.pProcReady = b.cpu.pProcReady ∧ ∀ e f i,
      AtKernel k { b with cpu := { c with eax := e, eflags := f }, imr := i }
        (⟨.line irq, c.esp⟩ :: l) ctx p (b.context :: ys) := by
  have hlayout := k.layout.2.1
  have hsize : kernelStackSize = 2048 := rfl
  have hlen := h.stacked.length_eq
  have hre := h.kReenter
  have hend := h.stacked.esp_le
  change b.cpu.esp.toNat + 4 ≤ _ at hend
  obtain ⟨m, hok, hm, hret, hsaved⟩ := Trap.enter_kernel h.kernel.ring h.kernel.ssBase
    (show 0 ≤ b.cpu.kReenter by omega)
  refine ⟨_, hok, rfl, fun e f i => ?_⟩
  have hesp : (b.cpu.esp - 68).toNat = b.cpu.esp.toNat - 68 := by bv_omega
  have hframe : ∀ q x, k.InFrame q x → m x = b.cpu.mem x := by
    intro q x hx
    refine hm x ?_
    by_contra hlt
    have hin : b.cpu.esp.toNat ≤ x.toNat + 68 ∧ x.toNat < b.cpu.esp.toNat := by bv_omega
    have hoff := hx.off_stack (by omega)
    omega
  have hctx : ∀ q, Context.saved m (k.frame q) = ctx q := fun q =>
    (KernelPlaces.saved_congr (hframe q)).trans (h.saved q)
  have hplace : b.cpu.esp - 68 + 4 = b.cpu.esp - 64 := by bv_omega
  refine ⟨hctx, ⟨h.kernel.ring, h.kernel.ssBase, ⟨rfl, h.kernel.context.ss, h.kernel.context.ss⟩⟩,
    ?_, h.ready, ?_, .above (y := b.context) ?_ hret ?_ h.kernel.context ?_ ?_⟩
  · change b.cpu.kReenter + 1 + 1 = ((l.length + 1 : Nat) : Int)
    omega
  · change k.stackTop.toNat ≤ (b.cpu.esp - 68).toNat + kernelStackSize
    omega
  · exact Nat.le_refl _
  · rw [hplace, ← h.kernel.context.ss]
    exact hsaved b.ldtr
  · change (b.cpu.esp - 68).toNat + 68 = b.cpu.esp.toNat
    omega
  · refine h.stacked.congr (n := b.cpu.esp.toNat) (fun a ha => ?_) fun z hz hz' =>
      hm z (by bv_omega)
    obtain ⟨l', rfl⟩ : ∃ l', l = a :: l' := by
      cases l with
      | nil => cases ha
      | cons a' l' =>
        cases ha
        exact ⟨l', rfl⟩
    exact h.stacked.esp_le_base

theorem AtKernel.works {a : Activation} (h : AtKernel k b (a :: l) ctx p ys) (ha : a.Working)
    (hwork : Works k a.base b b') : AtKernel k b' (a :: l) ctx p ys where
  saved q := (KernelPlaces.saved_congr (hwork.frames q)).trans (h.saved q)
  kernel := hwork.kernel
  kReenter := hwork.kReenter ▸ h.kReenter
  ready := by
    obtain ⟨q, hq, hring⟩ := hwork.ready
    rw [KernelPlaces.saved_congr (hwork.frames q), h.saved q] at hring
    exact ⟨q, hq, hring⟩
  low := hwork.low
  stacked := hwork.ldtr ▸ h.stacked.work ha hwork.high hwork.stack

theorem Board.InKernel.of_eq (h : b.InKernel k) (hring : b'.cpu.ring = b.cpu.ring)
    (hbase : b'.cpu.ssBase = b.cpu.ssBase) (hcs : b'.cpu.cs = b.cpu.cs) (hss : b'.cpu.ss = b.cpu.ss)
    (hds : b'.cpu.ds = b.cpu.ds) : b'.InKernel k :=
  ⟨hring.trans h.ring, hbase.trans h.ssBase, hcs.trans h.context.cs, hss.trans h.context.ss,
    hds.trans h.context.ds⟩

theorem Stacked.of_call {t : BitVec 16} {m : Mem32} {x : Context} {stage : CallStage} {top : Word}
    (h : Stacked k p t m x (⟨.call stage, top⟩ :: l) ys) : l = [] ∧ ys = [] ∧
      top = k.stackTop - 4 ∧ load32 m top = k.restart ∧
      (Activation.mk (.call stage) top).Ok k p m x := by
  cases h with
  | bottom hok htop hret => exact ⟨rfl, rfl, htop, hret, hok⟩

theorem AtKernel.pushEsi {top : Word} (h : AtKernel k b (⟨.call .entered, top⟩ :: l) ctx p ys)
    (hrun : Trap.pushEsi b = .ok () b') : AtKernel k b' (⟨.call .calling, top⟩ :: l) ctx p ys := by
  have hlayout := k.layout.2.1
  obtain ⟨rfl, rfl, htop, hret, hesp, hesi⟩ := h.stacked.of_call
  change b.cpu.esp = top at hesp
  change b.cpu.esi = k.frame p at hesi
  have hplace : b.cpu.ssBase + (b.cpu.esp - 4) = top - 4 := by
    rw [h.kernel.ssBase, hesp, zero_add]
  have hb' : b' = { b with cpu := { b.cpu with
      esp := top - 4, mem := store32 b.cpu.mem (top - 4) (k.frame p) } } := by
    have hok : Trap.pushEsi b = .ok () { b with cpu := { b.cpu with
        esp := b.cpu.esp - 4
        mem := store32 b.cpu.mem (b.cpu.ssBase + (b.cpu.esp - 4)) b.cpu.esi } } := rfl
    rw [hok, hplace, hesp, hesi] at hrun
    cases hrun
    rfl
  subst hb'
  have htopNat : top.toNat = k.stackTop.toNat - 4 := by
    rw [htop, toNat_sub_four (by omega)]
  have hsub : (top - 4).toNat = top.toNat - 4 := toNat_sub_four (by omega)
  refine ⟨fun q => ?_, h.kernel.of_eq rfl rfl rfl rfl rfl, h.kReenter, h.ready, ?_,
    .bottom ⟨?_, load32_store32⟩ htop ?_⟩
  · rw [← h.saved q]
    exact KernelPlaces.saved_congr fun x hx =>
      store32_of_apart (stack_word_apart (by omega) (by omega) hx)
  · change k.stackTop.toNat ≤ (top - 4).toNat + 2048
    omega
  · change (top - 4).toNat + 4 ≤ top.toNat
    omega
  · change load32 (store32 b.cpu.mem (top - 4) (k.frame p)) top = _
    rw [load32_store32_of_apart (by bv_omega) (by bv_omega), hret]

theorem AtKernel.popEsi {top : Word} (h : AtKernel k b (⟨.call .calling, top⟩ :: l) ctx p ys)
    (hesp : b.cpu.esp = top - 4) (hrun : Trap.popEsi b = .ok () b') :
    AtKernel k b' (⟨.call .popped, top⟩ :: l) ctx p ys := by
  have hlayout := k.layout.2.1
  obtain ⟨rfl, rfl, htop, hret, -, hload⟩ := h.stacked.of_call
  have hplace : b.cpu.ssBase + b.cpu.esp = top - 4 := by
    rw [h.kernel.ssBase, hesp, zero_add]
  have hback : top - 4 + 4 = top := by bv_omega
  have hb' : b' = { b with cpu := { b.cpu with esp := top, esi := k.frame p } } := by
    have hwp : wp Trap.popEsi (fun _ b'' => b'' = { b with cpu := { b.cpu with
        esp := top, esi := k.frame p } }) (fun _ _ => False) b := by
      simp only [Trap.popEsi, Trap.wp_onCpu, wp_bind, Trap.wp_pop, wp_modify]
      rw [hplace, hload, hesp, hback]
    rw [wp, hrun] at hwp
    exact hwp
  subst hb'
  refine ⟨h.saved, h.kernel.of_eq rfl rfl rfl rfl rfl, h.kReenter, h.ready, ?_,
    .bottom ⟨rfl, rfl⟩ htop hret⟩
  change k.stackTop.toNat ≤ top.toNat + 2048
  rw [htop, toNat_sub_four (by omega)]
  omega

theorem load32_storeEax {m : Mem32} {a v : Word} {i : Nat} (hi : i + 4 ≤ 44 ∨ 48 ≤ i ∧ i < 74) :
    load32 (store32 m (a + 44) v) (a + BitVec.ofNat 32 i) = load32 m (a + BitVec.ofNat 32 i) :=
  load32_store32_of_apart (by bv_omega) (by bv_omega)

theorem saved_storeEax (m : Mem32) (a v : Word) :
    Context.saved (store32 m (a + 44) v) a = { Context.saved m a with eax := v } := by
  have hfirst : load32 (store32 m (a + 44) v) a = load32 m a := by
    have h0 := @load32_storeEax m a v 0 (by decide)
    rwa [BitVec.add_zero] at h0
  have hhalf : load16 (store32 m (a + 44) v) (a + 72) = load16 m (a + 72) :=
    load16_congr fun i hi => store32_of_apart (by bv_omega)
  have hself : load32 (store32 m (a + 44) v) (a + 44) = v := load32_store32
  simp only [BitVec.ofNat_eq_ofNat] at hfirst hhalf hself
  have hother := @load32_storeEax m a v
  simp only [BitVec.ofNat_eq_ofNat] at hother
  simp (disch := decide) only [Context.saved, BitVec.ofNat_eq_ofNat, hfirst, hhalf, hself, hother]

/-- The result of a system call gets into the entry of its caller, whoever is ready by then. -/
theorem AtKernel.answer {top : Word} (h : AtKernel k b (⟨.call .popped, top⟩ :: l) ctx p ys)
    (hrun : Trap.storeEax k b = .ok () b') :
    l = [] ∧ ys = [] ∧ AtKernel k b' (⟨.call .stored, top⟩ :: l)
      (Function.update ctx p { ctx p with eax := b.cpu.eax }) p ys := by
  have hlayout := k.layout.2.1
  obtain ⟨rfl, rfl, htop, hret, hesp, hesi⟩ := h.stacked.of_call
  change b.cpu.esp = top at hesp
  change b.cpu.esi = k.frame p at hesi
  have hds : b.cpu.ds = k.ss0 := h.kernel.context.ds
  have hplace : k.segBase b.ldtr b.cpu.ds + (b.cpu.esi + 44) = k.frame p + 44 := by
    rw [hds, k.flat, hesi, zero_add]
  have hb' : b' = { b with cpu := { b.cpu with
      mem := store32 b.cpu.mem (k.frame p + 44) b.cpu.eax } } := by
    have hok : Trap.storeEax k b = .ok () { b with cpu := { b.cpu with
        mem := store32 b.cpu.mem (k.segBase b.ldtr b.cpu.ds + (b.cpu.esi + 44)) b.cpu.eax } } := rfl
    rw [hok, hplace] at hrun
    cases hrun
    rfl
  subst hb'
  have htopNat : top.toNat = k.stackTop.toNat - 4 := by
    rw [htop, toNat_sub_four (by omega)]
  have hword : ∀ x : Word, (x - (k.frame p + 44)).toNat < 4 → k.InFrame p x := by
    intro x hx
    rw [KernelPlaces.inFrame_iff]
    have hsize : frameSize = 74 := rfl
    bv_omega
  have hctx : ∀ q, Context.saved (store32 b.cpu.mem (k.frame p + 44) b.cpu.eax) (k.frame q) =
      Function.update ctx p { ctx p with eax := b.cpu.eax } q := by
    intro q
    by_cases hq : q = p
    · rw [hq, Function.update_self, saved_storeEax, h.saved p]
    · rw [Function.update_of_ne hq, ← h.saved q]
      apply KernelPlaces.saved_congr
      intro x hx
      apply store32_of_apart
      by_contra hlt
      exact hq (hx.unique (hword x (Nat.lt_of_not_le hlt)))
  refine ⟨rfl, rfl, hctx, h.kernel.of_eq rfl rfl rfl rfl rfl, h.kReenter, ?_, h.low,
    .bottom hesp htop ?_⟩
  · obtain ⟨q, hq, hring⟩ := h.ready
    refine ⟨q, hq, ?_⟩
    by_cases hqp : q = p
    · rw [hqp, Function.update_self]
      exact hqp ▸ hring
    · rwa [Function.update_of_ne hqp]
  · change load32 _ top = k.restart
    rw [← hret]
    apply load32_congr
    intro i hi
    apply store32_of_apart
    by_contra hlt
    have hoff := (hword _ (Nat.lt_of_not_le hlt)).off_stack
    have hadd : (top + BitVec.ofNat 32 i).toNat = top.toNat + i := by bv_omega
    omega

/-- What the end of a stub does in front of its `ret`: `al`, the flags and the mask. -/
structure StubEnds (b b₁ : Board) : Prop where
  control : b₁.cpu.ring = b.cpu.ring ∧ b₁.cpu.ssBase = b.cpu.ssBase ∧ b₁.cpu.cs = b.cpu.cs ∧
    b₁.cpu.ss = b.cpu.ss ∧ b₁.cpu.ds = b.cpu.ds
  stack : b₁.cpu.mem = b.cpu.mem ∧ b₁.cpu.esp = b.cpu.esp
  kernel : b₁.cpu.kReenter = b.cpu.kReenter ∧ b₁.cpu.pProcReady = b.cpu.pProcReady ∧
    b₁.ldtr = b.ldtr

theorem stubEnds_unmasked (b : Board) (irq : Fin 16) : StubEnds b (b.unmasked irq) :=
  ⟨⟨rfl, rfl, rfl, rfl, rfl⟩, ⟨rfl, rfl⟩, rfl, rfl, rfl⟩

theorem StubEnds.inKernel {b₁ : Board} (h : StubEnds b b₁) (hb : b.InKernel k) : b₁.InKernel k := by
  obtain ⟨hring, hbase, hcs, hss, hds⟩ := h.control
  exact hb.of_eq hring hbase hcs hss hds

theorem AtKernel.resume {top : Word} {a : Activation} {y : Context} {b₁ : Board}
    (h : AtKernel k b (⟨.line irq, top⟩ :: a :: l) ctx p (y :: ys)) (hesp : b.cpu.esp = top)
    (hends : StubEnds b b₁) : ∃ b', Trap.ret k b₁ = .ok () b' ∧ b'.context = y ∧ b'.imr = b₁.imr ∧
      b'.cpu.pProcReady = b.cpu.pProcReady ∧ AtKernel k b' (a :: l) ctx p ys := by
  have hkernel := hends.inKernel h.kernel
  obtain ⟨hmem, hesp₁⟩ := hends.stack
  obtain ⟨hre₁, hready₁, hldtr₁⟩ := hends.kernel
  have hstacked := h.stacked
  cases hstacked with
  | above hle hret hsaved hy htop hrest =>
    have hword : load32 b₁.cpu.mem b₁.cpu.esp = k.restartReenter := by
      rw [hmem, hesp₁, hesp, hret]
    have hback : Context.stacked b₁.cpu.mem (b₁.cpu.esp + 4) b₁.cpu.ss b₁.ldtr = y := by
      have hss : b₁.cpu.ss = k.ss0 := hkernel.context.ss
      rw [hmem, hesp₁, hesp, hss, hldtr₁, hsaved]
    have hring : selectorRing (Context.saved b₁.cpu.mem (b₁.cpu.esp + 4)).cs = b₁.cpu.ring := by
      have hcs := congrArg Context.cs hback
      change (Context.saved b₁.cpu.mem (b₁.cpu.esp + 4)).cs = y.cs at hcs
      rw [hcs, hy.cs, k.cs0_ring, hkernel.ring]
    have hrun := Trap.ret_kernel hkernel.ssBase hword hring
    rw [hback] at hrun
    have hldt : y.ldt = b₁.ldtr := (congrArg Context.ldt hback).symm
    have hcontext : ({ b₁ with cpu := b₁.cpu.resumed y } : Board).context = y := by
      rw [Board.context, ← hldt]
      rfl
    have hlen := hrest.length_eq
    have hre := h.kReenter
    have hbound := h.stacked.esp_le_base
    have hlow := h.low
    change k.stackTop.toNat ≤ b.cpu.esp.toNat + 2048 at hlow
    refine ⟨_, hrun, hcontext, rfl, hready₁, fun q => ?_,
      ⟨hkernel.ring, hkernel.ssBase, hcontext ▸ hy⟩, ?_, ?_, ?_, ?_⟩
    · change Context.saved b₁.cpu.mem (k.frame q) = ctx q
      rw [hmem]
      exact h.saved q
    · change b₁.cpu.kReenter - 1 + 1 = (((a :: l).length : Nat) : Int)
      rw [hre₁]
      change b.cpu.kReenter + 1 = (((a :: l).length + 1 : Nat) : Int) at hre
      omega
    · change ∃ q, b₁.cpu.pProcReady = k.frame q ∧ selectorRing (ctx q).cs ≠ 0
      rw [hready₁]
      exact h.ready
    · change k.stackTop.toNat ≤ y.esp.toNat + 2048
      rw [hesp] at hlow
      omega
    · rw [hcontext]
      change Stacked k p b₁.ldtr b₁.cpu.mem y (a :: l) ys
      rw [hldtr₁, hmem]
      exact hrest

theorem AtKernel.switch {a : Activation} {b₁ : Board} (h : AtKernel k b [a] ctx p ys)
    (hesp : b.cpu.esp = a.top) (hq : b.cpu.pProcReady = k.frame q) (hends : StubEnds b b₁) :
    ∃ b', Trap.ret k b₁ = .ok () b' ∧ b'.context = ctx q ∧ b'.imr = b₁.imr ∧
      AtProcess k b' ctx q := by
  have hkernel := hends.inKernel h.kernel
  obtain ⟨hmem, hesp₁⟩ := hends.stack
  obtain ⟨hre₁, hready₁, -⟩ := hends.kernel
  have hre := h.kReenter
  have hstacked := h.stacked
  cases hstacked with
  | bottom hok htop hret =>
    have hword : load32 b₁.cpu.mem b₁.cpu.esp = k.toLinkage.restart := by
      rw [hmem, hesp₁, hesp, hret]
    have hsaved : Context.saved b₁.cpu.mem b₁.cpu.pProcReady = ctx q := by
      rw [hmem, hready₁, hq, h.saved q]
    have hring : selectorRing (ctx q).cs ≠ b₁.cpu.ring := by
      obtain ⟨q', hq', hring⟩ := h.ready
      obtain rfl := KernelPlaces.frame_injective (hq.symm.trans hq')
      rwa [hkernel.ring]
    refine ⟨_, Trap.ret_user hkernel.ssBase hword hsaved hring, rfl, rfl, fun q' _ => ?_, rfl, ?_,
      rfl, ?_, ?_, ?_, ?_⟩
    · change Context.saved b₁.cpu.mem (k.frame q') = ctx q'
      rw [hmem, h.saved]
    · change load16 b₁.cpu.mem (k.frame q + 72) = (ctx q).ldt
      rw [hmem, ← h.saved q]
      rfl
    · change selectorRing (ctx q).cs ≠ 0
      rwa [← hkernel.ring]
    · change b₁.cpu.kReenter - 1 = -1
      rw [hre₁]
      change b.cpu.kReenter + 1 = 1 at hre
      omega
    · change b₁.cpu.pProcReady + 72 = k.frame q + 72
      rw [hready₁, hq]
    · change b₁.cpu.pProcReady = k.frame q
      rw [hready₁, hq]
  | above _ _ _ _ _ hrest => cases hrest

theorem hwint_of_enter {c : Cpu} (h : Trap.enter k b.cpu = .ok () c) :
    Trap.hwint k irq b = .ok () (b.masked irq c) := by
  have hwp : wp (Trap.hwint k irq) (fun _ b' => b' = b.masked irq c) (fun _ _ => False) b := by
    rw [Trap.wp_hwint, wp, h]
  obtain ⟨_, b', hok, rfl⟩ := exists_ok_of_wp hwp
  exact hok

theorem sysEnter_of_enter {c : Cpu} (h : Trap.enter k b.cpu = .ok () c) :
    Trap.sysEnter k b = .ok ()
      { b with cpu := { c with eflags := c.eflags ||| interruptFlag } } := by
  have hwp : wp (Trap.sysEnter k) (fun _ b' => b' =
      { b with cpu := { c with eflags := c.eflags ||| interruptFlag } }) (fun _ _ => False) b := by
    rw [Trap.wp_sysEnter, wp, h]
  obtain ⟨_, b', hok, rfl⟩ := exists_ok_of_wp hwp
  exact hok

theorem hwintEnd_of_ret (h : Trap.ret k (b.unmasked irq) = .ok () b') :
    Trap.hwintEnd k irq b = .ok () b' := by
  have hwp : wp (Trap.hwintEnd k irq) (fun _ b'' => b'' = b') (fun _ _ => False) b := by
    rw [Trap.wp_hwintEnd, wp, h]
  obtain ⟨_, b'', hok, rfl⟩ := exists_ok_of_wp hwp
  exact hok

theorem stubEnds_closed (b : Board) : StubEnds b b.closed :=
  ⟨⟨rfl, rfl, rfl, rfl, rfl⟩, ⟨rfl, rfl⟩, rfl, rfl, rfl⟩

theorem sysEnd_of_ret (h : Trap.ret k b.closed = .ok () b') : Trap.sysEnd k b = .ok () b' := by
  have hwp : wp (Trap.sysEnd k) (fun _ b'' => b'' = b') (fun _ _ => False) b := by
    rw [Trap.wp_sysEnd, wp, h]
  obtain ⟨_, b'', hok, rfl⟩ := exists_ok_of_wp hwp
  exact hok

end Steps

section Runs

variable {k : KernelPlaces} {s t : System} {v : View} {e : Event}

/-- One step of the machine is one step of its view. -/
theorem Shown.step (h : Shown k s v) (hstep : SystemStep k s e t) :
    ∃ w, ViewStep v e w ∧ Shown k t w := by
  cases hstep with
  | @run b b' hrun =>
    cases h with
    | @process _ ctx p h =>
      refine ⟨_, .run b'.context, .process (h.runs (Option.some_ne_none p).symm hrun ?_ ?_ ?_)⟩
      · rw [Function.update_self]
      · intro q hq _
        rw [Function.update_of_ne hq]
      · intro q hq
        cases hq
    | kernel h => exact absurd h.stacked.length_eq (by simp)
  | @install b b' q hq hrun =>
    cases h with
    | @process _ ctx p h =>
      have hne : q ≠ p := fun he => hq (he ▸ h.ready)
      refine ⟨_, .install hne _ b'.context, .process (h.runs ?_ hrun ?_ ?_ ?_)⟩
      · exact fun he => hne (Option.some.inj he)
      · rw [Function.update_of_ne hne.symm, Function.update_self]
      · intro q' hp hq'
        rw [Function.update_of_ne (fun he => hq' (congrArg some he.symm)), Function.update_of_ne hp]
      · intro q' hq'
        cases hq'
        rw [Function.update_self]
    | kernel h => exact absurd h.stacked.length_eq (by simp)
  | @interrupt b b' irq l hflag hline hroom hrun =>
    cases h with
    | @process _ ctx p h =>
      obtain ⟨c, henter, hat⟩ := h.enter
      rw [hwint_of_enter henter] at hrun
      cases hrun
      refine ⟨_, ?_, .kernel (hat (.line irq) (.inr ⟨irq, rfl⟩) _ _ _)⟩
      rw [h.context]
      exact .interrupt irq
    | @kernel _ _ ctx p ys h =>
      obtain ⟨c, henter, -, hat⟩ := h.enter (hroom h.kernel.ring) irq
      rw [hwint_of_enter henter] at hrun
      cases hrun
      exact ⟨_, .nested irq b.context, .kernel (hat _ _ _)⟩
  | @trap b b' hrun =>
    cases h with
    | @process _ ctx p h =>
      obtain ⟨c, henter, hat⟩ := h.enter
      rw [sysEnter_of_enter henter] at hrun
      cases hrun
      refine ⟨_, ?_, .kernel (hat (.call .entered) (.inl rfl) c.eax _ _)⟩
      rw [h.context]
      exact .trap
    | kernel h => exact absurd h.stacked.length_eq (by simp)
  | work ha hwork =>
    cases h with
    | kernel h => exact ⟨_, .work, .kernel (h.works ha hwork)⟩
  | pushEsi hrun =>
    cases h with
    | kernel h => exact ⟨_, .work, .kernel (h.pushEsi hrun)⟩
  | popEsi hesp hrun =>
    cases h with
    | kernel h => exact ⟨_, .work, .kernel (h.popEsi hesp hrun)⟩
  | answer hrun =>
    cases h with
    | kernel h =>
      obtain ⟨rfl, rfl, h'⟩ := h.answer hrun
      exact ⟨_, .answer _, .kernel h'⟩
  | @resume b b' irq top a l hesp hrun =>
    cases h with
    | @kernel _ _ ctx p ys h =>
      obtain ⟨y, ys, rfl⟩ := h.stacked.exists_cons
      obtain ⟨b'', hret, hcontext, -, -, hat⟩ := h.resume hesp (stubEnds_unmasked b irq)
      rw [hwintEnd_of_ret hret] at hrun
      cases hrun
      exact ⟨_, hcontext ▸ .resume, .kernel hat⟩
  | @switch b b' irq top q hq hesp hrun =>
    cases h with
    | @kernel _ _ ctx p ys h =>
      obtain rfl := h.stacked.eq_nil
      obtain ⟨b'', hret, hcontext, -, hat⟩ := h.switch hesp hq (stubEnds_unmasked b irq)
      rw [hwintEnd_of_ret hret] at hrun
      cases hrun
      exact ⟨_, hcontext ▸ .switch q, .process hat⟩
  | @sysExit b b' top q hq hrun =>
    cases h with
    | @kernel _ _ ctx p ys h =>
      obtain ⟨-, rfl, -, -, hesp⟩ := h.stacked.of_call
      obtain ⟨b'', hret, hcontext, -, hat⟩ := h.switch hesp hq (stubEnds_closed b)
      rw [sysEnd_of_ret hret] at hrun
      cases hrun
      exact ⟨_, hcontext ▸ .switch q, .process hat⟩

/-- `kernel_main` calls `restart` for the process `p`. -/
structure KernelStarted (k : KernelPlaces) (b : Board) (p : Pid) : Prop where
  ring : b.cpu.ring = 0
  ssBase : b.cpu.ssBase = 0
  kReenter : b.cpu.kReenter = 0
  ready : b.cpu.pProcReady = k.frame p
  outside : selectorRing (Context.saved b.cpu.mem (k.frame p)).cs ≠ 0

/-- The view at the start: what `kernel_main` has put into the entries. -/
def Board.bootView (k : KernelPlaces) (b : Board) (p : Pid) : View :=
  ⟨fun q => Context.saved b.cpu.mem (k.frame q), p, none⟩

theorem KernelStarted.atProcess {b₀ : Board} {p : Pid} (h : KernelStarted k b₀ p) :
    ∃ b, Trap.restart k b₀ = .ok () b ∧ b.imr = b₀.imr ∧
      AtProcess k b (fun q => Context.saved b₀.cpu.mem (k.frame q)) p := by
  have hsaved : Context.saved b₀.cpu.mem b₀.cpu.pProcReady =
      Context.saved b₀.cpu.mem (k.frame p) := by rw [h.ready]
  have hring := h.outside
  rw [← h.ring] at hring
  refine ⟨_, Trap.restart_user h.ssBase hsaved hring, rfl, fun q _ => rfl, rfl, rfl, rfl, h.outside,
    ?_, ?_, h.ready⟩
  · change b₀.cpu.kReenter - 1 = -1
    rw [h.kReenter]
    rfl
  · change b₀.cpu.pProcReady + 72 = k.frame p + 72
    rw [h.ready]

theorem KernelStarted.shows {b₀ b : Board} {p : Pid} (h : KernelStarted k b₀ p)
    (hrun : Trap.restart k b₀ = .ok () b) : Shown k ⟨b, []⟩ (b₀.bootView k p) := by
  obtain ⟨b', hok, -, hat⟩ := h.atProcess
  rw [hok] at hrun
  cases hrun
  exact .process hat

theorem Shown.run {l : List Event} (h : Shown k s v) (hrun : Run (SystemStep k) s l t) :
    ∃ w, Run ViewStep v l w ∧ Shown k t w := by
  induction hrun with
  | nil => exact ⟨v, .nil, h⟩
  | snoc _ hstep ih =>
    obtain ⟨w, hw, hu⟩ := ih
    obtain ⟨w', hstep', ht⟩ := hu.step hstep
    exact ⟨w', .snoc hw hstep', ht⟩

end Runs

theorem flag_of_sti (f : Word) : (f ||| interruptFlag) &&& interruptFlag ≠ 0 := by
  intro h
  have hbit := congrArg (fun w : Word => w.getLsbD 9) h
  simp [interruptFlag] at hbit

section Samples

theorem sample_cs0_ring : selectorRing 8 = 0 := by decide

theorem sample_returns : (1 : Word) ≠ 2 := by decide

theorem sample_stack_fits : kernelStackSize ≤ (0x50000 : Word).toNat := by decide

theorem sample_table_fits : (0x30000 : Word).toNat + nrSlots * procSize ≤ 2 ^ 32 := by decide

theorem sample_apart : (0x30000 : Word).toNat + nrSlots * procSize + kernelStackSize ≤
    (0x50000 : Word).toNat ∨ (0x50000 : Word).toNat ≤ (0x30000 : Word).toNat := by decide

/-- A kernel whose process table ends in front of its stack. -/
def samplePlaces : KernelPlaces where
  ss0 := 16
  stackTop := 0x50000
  restart := 1
  restartReenter := 2
  cs0 := 8
  procTable := 0x30000
  segBase := fun _ _ => 0
  cs0_ring := sample_cs0_ring
  flat := fun _ => rfl
  returns := sample_returns
  stack_fits := sample_stack_fits
  table_fits := sample_table_fits
  apart := sample_apart

/-- Every word of the table is `0x03030303`: processes of ring 3, with interrupts on. -/
def sampleBoard : Board where
  cpu := { clearCpu with
    ring := kernelRing
    mem := fun _ => 3
    kReenter := 0
    pProcReady := samplePlaces.frame taskSys }
  ldtr := 0
  imr := fun _ => 0

theorem sampleBoard_word (a : Word) : load32 sampleBoard.cpu.mem a = 0x03030303 := by
  change (3#8 ++ 3#8 ++ 3#8 ++ 3#8 : Word) = 0x03030303
  decide

theorem sampleBoard_outside (q : Pid) :
    selectorRing (Context.saved sampleBoard.cpu.mem (samplePlaces.frame q)).cs ≠ 0 := by
  change selectorRing ((load32 sampleBoard.cpu.mem (samplePlaces.frame q + 56)).setWidth 16) ≠ 0
  rw [sampleBoard_word]
  decide

theorem sampleBoard_started : KernelStarted samplePlaces sampleBoard taskSys :=
  ⟨rfl, rfl, rfl, rfl, sampleBoard_outside taskSys⟩

theorem KernelStarted.clock {k : KernelPlaces} {b₀ : Board} {p : Pid} (h : KernelStarted k b₀ p)
    (hflag : load32 b₀.cpu.mem (k.frame p + 60) &&& interruptFlag ≠ 0)
    (hline : b₀.Unmasked 0) :
    ∃ (b : Board) (c : Cpu), Trap.restart k b₀ = .ok () b ∧ b.imr = b₀.imr ∧
      SystemStep k ⟨b, []⟩ (.interrupt 0 b.context) ⟨b.masked 0 c, [⟨.line 0, c.esp⟩]⟩ ∧
      AtKernel k (b.masked 0 c) [⟨.line 0, c.esp⟩]
        (fun q => Context.saved b₀.cpu.mem (k.frame q)) p [] ∧
      c.esp = k.stackTop - 4 := by
  obtain ⟨b, hrestart, himr, h₀⟩ := h.atProcess
  have heflags : b.cpu.eflags = load32 b₀.cpu.mem (k.frame p + 60) :=
    congrArg Context.eflags h₀.context
  rw [← heflags] at hflag
  have hopen : b.Unmasked 0 := by
    rw [Board.Unmasked, himr]
    exact hline
  obtain ⟨c, henter, hat⟩ := h₀.enter
  have h₁ : AtKernel k (b.masked 0 c) [⟨.line 0, c.esp⟩] _ p [] :=
    hat (.line 0) (.inr ⟨0, rfl⟩) _ _ _
  refine ⟨b, c, hrestart, himr, .interrupt hflag hopen (fun h => absurd h h₀.outside)
    (hwint_of_enter henter), h₁, ?_⟩
  cases h₁.stacked with
  | bottom _ htop _ => exact htop

theorem AtKernel.makes_ready {k : KernelPlaces} {b : Board} {e : Word} {ctx : Pid → Context}
    {p q : Pid} (h : AtKernel k b [⟨.line 0, e⟩] ctx p []) (hesp : b.cpu.esp = e)
    (hq : selectorRing (ctx q).cs ≠ 0) :
    SystemStep k ⟨b, [⟨.line 0, e⟩]⟩ .work
      ⟨{ b with cpu := { b.cpu with pProcReady := k.frame q } }, [⟨.line 0, e⟩]⟩ ∧
    AtKernel k { b with cpu := { b.cpu with pProcReady := k.frame q } } [⟨.line 0, e⟩] ctx p [] := by
  have hwork : Works k e.toNat b { b with cpu := { b.cpu with pProcReady := k.frame q } } := by
    refine ⟨h.kernel.of_eq rfl rfl rfl rfl rfl, rfl, rfl, rfl, h.low, ?_, fun _ _ _ => rfl,
      fun _ _ _ => rfl, q, rfl, ?_⟩
    · change b.cpu.esp.toNat ≤ e.toNat
      rw [hesp]
    · change selectorRing (Context.saved b.cpu.mem _).cs ≠ 0
      rw [h.saved]
      exact hq
  exact ⟨.work trivial hwork, h.works (a := ⟨.line 0, e⟩) trivial hwork⟩

theorem KernelStarted.switch {k : KernelPlaces} {b₀ : Board} {p q : Pid}
    (h : KernelStarted k b₀ p)
    (hflag : load32 b₀.cpu.mem (k.frame p + 60) &&& interruptFlag ≠ 0) (hline : b₀.Unmasked 0)
    (hq : selectorRing (Context.saved b₀.cpu.mem (k.frame q)).cs ≠ 0) :
    ∃ (b : Board) (t : System) (x z : Context), Trap.restart k b₀ = .ok () b ∧
      Run (SystemStep k) ⟨b, []⟩ [.interrupt 0 x, .work, .switch q z] t := by
  obtain ⟨b, c, hrestart, -, hclock, h₁, -⟩ := h.clock hflag hline
  obtain ⟨hwork, h₂⟩ := h₁.makes_ready rfl hq
  obtain ⟨b₃, hret, -, -, -⟩ := h₂.switch rfl rfl (stubEnds_unmasked _ 0)
  exact ⟨b, ⟨b₃, []⟩, b.context, b₃.context, hrestart,
    .snoc (.snoc (.snoc .nil hclock) hwork) (.switch rfl rfl (hwintEnd_of_ret hret))⟩

theorem sampleBoard_flag :
    load32 sampleBoard.cpu.mem (samplePlaces.frame taskSys + 60) &&& interruptFlag ≠ 0 := by
  rw [sampleBoard_word]
  decide

theorem sampleBoard_unmasked : sampleBoard.Unmasked 0 := by
  rw [Board.Unmasked]
  decide

/-- The clock makes TTY ready, and the keyboard interrupts its handler. -/
theorem exists_nested : ∃ (b b₂ : Board) (c c₂ : Cpu),
    Trap.restart samplePlaces sampleBoard = .ok () b ∧
    Run (SystemStep samplePlaces) ⟨b, []⟩ [.interrupt 0 b.context, .work, .interrupt 1 b₂.context]
      ⟨b₂.masked 1 c₂, [⟨.line 1, c₂.esp⟩, ⟨.line 0, c.esp⟩]⟩ ∧
    AtKernel samplePlaces (b₂.masked 1 c₂) [⟨.line 1, c₂.esp⟩, ⟨.line 0, c.esp⟩]
      (fun q => Context.saved sampleBoard.cpu.mem (samplePlaces.frame q)) taskSys [b₂.context] ∧
    b₂.cpu.esp = c.esp ∧ c₂.pProcReady = samplePlaces.frame taskTty := by
  obtain ⟨b, c, hrestart, himr, hclock, h₁, hesp⟩ :=
    sampleBoard_started.clock sampleBoard_flag sampleBoard_unmasked
  let b₂ : Board := { b.masked 0 c with
    cpu := { (b.masked 0 c).cpu with pProcReady := samplePlaces.frame taskTty } }
  obtain ⟨hwork, h₂⟩ := h₁.makes_ready rfl (sampleBoard_outside taskTty)
  have hbit : ∀ i : Chip → BitVec 8, i = sampleBoard.imr → (Function.update i (chipOf 0)
      (i (chipOf 0) ||| lineBit 0) (chipOf 1)).getLsbD ((1 : Fin 16) % 8 : Nat) = false := by
    rintro _ rfl
    decide
  have hline : b₂.Unmasked 1 := ⟨hbit b.imr himr, fun hslave => absurd hslave (by decide)⟩
  have hroom : samplePlaces.stackTop.toNat + 68 ≤ b₂.cpu.esp.toNat + kernelStackSize := by
    change samplePlaces.stackTop.toNat + 68 ≤ c.esp.toNat + kernelStackSize
    rw [hesp]
    decide
  obtain ⟨c₂, henter, hready, hat⟩ := h₂.enter hroom 1
  exact ⟨b, b₂, c, c₂, hrestart, .snoc (.snoc (.snoc .nil hclock) hwork)
    (.interrupt (flag_of_sti c.eflags) hline (fun _ => hroom) (hwint_of_enter henter)),
    hat _ _ _, rfl, hready⟩

theorem exists_switch : ∃ (b : Board) (t : System) (x y z : Context),
    Trap.restart samplePlaces sampleBoard = .ok () b ∧ Run (SystemStep samplePlaces) ⟨b, []⟩
      [.interrupt 0 x, .work, .interrupt 1 y, .resume y, .switch taskTty z] t := by
  obtain ⟨b, b₂, c, c₂, hrestart, hrun, h₃, hesp, hready⟩ := exists_nested
  obtain ⟨b₄, hret, hcontext, -, hready₄, h₄⟩ := h₃.resume rfl (stubEnds_unmasked _ 1)
  have hesp₄ : b₄.cpu.esp = c.esp := (congrArg Context.esp hcontext).trans hesp
  obtain ⟨b₅, hret₅, -, -, -⟩ := h₄.switch hesp₄ (hready₄.trans hready) (stubEnds_unmasked _ 0)
  have hresume : SystemStep samplePlaces ⟨b₂.masked 1 c₂, ⟨.line 1, c₂.esp⟩ :: [⟨.line 0, c.esp⟩]⟩
      (.resume b₄.context) ⟨b₄, [⟨.line 0, c.esp⟩]⟩ := .resume rfl (hwintEnd_of_ret hret)
  rw [hcontext] at hresume
  exact ⟨b, ⟨b₅, []⟩, b.context, b₂.context, b₅.context, hrestart, .snoc (.snoc hrun hresume)
    (.switch (hready₄.trans hready) hesp₄ (hwintEnd_of_ret hret₅))⟩

end Samples

section Views

variable {k : KernelPlaces} {t : System}

/-- Every process, and every handler that is put off, goes on with its own registers. -/
theorem view_of_run {b₀ b : Board} {p : Pid} {l : List Event} (hboot : KernelStarted k b₀ p)
    (hrestart : Trap.restart k b₀ = .ok () b) (hrun : Run (SystemStep k) ⟨b, []⟩ l t) :
    ∃ w, Run ViewStep (b₀.bootView k p) l w ∧ Shown k t w :=
  (hboot.shows hrestart).run hrun

theorem view_of_run_switch : ∃ (b : Board) (t : System) (x y z : Context),
    Trap.restart samplePlaces sampleBoard = .ok () b ∧
    Run (SystemStep samplePlaces) ⟨b, []⟩
      [.interrupt 0 x, .work, .interrupt 1 y, .resume y, .switch taskTty z] t ∧
    ∃ w, Run ViewStep (sampleBoard.bootView samplePlaces taskSys)
      [.interrupt 0 x, .work, .interrupt 1 y, .resume y, .switch taskTty z] w ∧
      Shown samplePlaces t w := by
  obtain ⟨b, t, x, y, z, hrestart, hrun⟩ := exists_switch
  exact ⟨b, t, x, y, z, hrestart, hrun, view_of_run sampleBoard_started hrestart hrun⟩

end Views

end BazingaOS
