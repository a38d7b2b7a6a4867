import BazingaOS.Kernel.Hwint
import BazingaOS.Lib.Run

/-!
# The machine and its kernel stack

The steps of the machine: code of a process, an interrupt, a system call, code of the kernel, and
the end of a stub. A handler can be interrupted, and what it goes on with stands on the kernel
stack, one frame below the other.
-/

namespace BazingaOS

open Prog

/-- How far `sys_call` has come behind `sti`: up to `push esi`, up to `pop esi`, up to the store of
the result, and behind it. -/
inductive CallStage where
  | entered
  | calling
  | popped
  | stored
deriving DecidableEq

/-- The stubs `hwint00` to `hwint15`, and `sys_call`. -/
inductive Origin where
  | line (irq : Fin 16)
  | call (stage : CallStage)
deriving DecidableEq

/-- A stub that has been entered; `top` is where `save` has put the address for its `ret`. -/
structure Activation where
  origin : Origin
  top : Word
deriving DecidableEq

/-- The machine with the stubs that are active, the running one first. -/
structure System where
  board : Board
  stubs : List Activation

/-- A handler does not reach up to here. -/
def Activation.base (a : Activation) : Nat :=
  match a.origin with
  | .call .calling => a.top.toNat - 4
  | _ => a.top.toNat

/-- Between `sti` and `cli` of a stub for a line, and between `push esi` and `pop esi` of
`sys_call`, the stack pointer moves. -/
def Activation.Working (a : Activation) : Prop :=
  match a.origin with
  | .line _ => True
  | .call stage => stage = .calling

/-- What the stubs read of the entry of `q`. -/
def KernelPlaces.InFrame (k : KernelPlaces) (q : Pid) (x : Word) : Prop :=
  (k.frame q).toNat ≤ x.toNat ∧ x.toNat < (k.frame q).toNat + frameSize

/-- Neither controller keeps the line away; those of the second one go through line 2. -/
def Board.Unmasked (b : Board) (irq : Fin 16) : Prop :=
  (b.imr (chipOf irq)).getLsbD (irq % 8) = false ∧
    (chipOf irq = .slave → (b.imr .master).getLsbD 2 = false)

/-- The selectors of code of the kernel. -/
structure Context.OfKernel (k : KernelPlaces) (x : Context) : Prop where
  cs : x.cs = k.cs0
  ss : x.ss = k.ss0
  ds : x.ds = k.ss0

structure Board.InKernel (k : KernelPlaces) (b : Board) : Prop where
  ring : b.cpu.ring = 0
  ssBase : b.cpu.ssBase = 0
  context : b.context.OfKernel k

/-- Code of a process has run. It keeps its ring and leaves alone what the kernel has for it, and
the registers of the other processes but those of `q`. -/
structure Runs (k : KernelPlaces) (q : Option Pid) (b b' : Board) : Prop where
  ring : b'.cpu.ring = b.cpu.ring
  cs : selectorRing b'.cpu.cs = b.cpu.ring
  kReenter : b'.cpu.kReenter = b.cpu.kReenter
  sp0 : b'.cpu.sp0 = b.cpu.sp0
  ready : b'.cpu.pProcReady = b.cpu.pProcReady
  ldtr : b'.ldtr = b.ldtr
  frames : ∀ p x, some p ≠ q → k.InFrame p x → b'.cpu.mem x = b.cpu.mem x

/-- Code of the kernel has run on its stack below `base`. It may have made another process ready. -/
structure Works (k : KernelPlaces) (base : Nat) (b b' : Board) : Prop where
  kernel : b'.InKernel k
  kReenter : b'.cpu.kReenter = b.cpu.kReenter
  imr : b'.imr = b.imr
  ldtr : b'.ldtr = b.ldtr
  low : k.stackTop.toNat ≤ b'.cpu.esp.toNat + kernelStackSize
  high : b'.cpu.esp.toNat ≤ base
  stack : ∀ x, base ≤ x.toNat → x.toNat < k.stackTop.toNat → b'.cpu.mem x = b.cpu.mem x
  frames : ∀ p x, k.InFrame p x → b'.cpu.mem x = b.cpu.mem x
  ready : ∃ q, b'.cpu.pProcReady = k.frame q ∧
    selectorRing (Context.saved b'.cpu.mem (k.frame q)).cs ≠ 0

/-- What can be seen of a step. -/
inductive Event where
  | run (x : Context)
  | install (q : Pid) (x y : Context)
  | interrupt (irq : Fin 16) (x : Context)
  | trap (x : Context)
  | work
  | answer (v : Word)
  | resume (x : Context)
  | switch (q : Pid) (x : Context)

/-- The steps of the machine. A handler may be interrupted while the flag is set, the line is open
and there is room on the stack. -/
inductive SystemStep (k : KernelPlaces) : System → Event → System → Prop
  | run {b b' : Board} (h : Runs k none b b') : SystemStep k ⟨b, []⟩ (.run b'.context) ⟨b', []⟩
  | install {b b' : Board} {q : Pid} (hq : b.cpu.pProcReady ≠ k.frame q)
      (h : Runs k (some q) b b') :
      SystemStep k ⟨b, []⟩ (.install q (.saved b'.cpu.mem (k.frame q)) b'.context) ⟨b', []⟩
  | interrupt {b b' : Board} {irq : Fin 16} {l : List Activation}
      (hflag : b.cpu.eflags &&& interruptFlag ≠ 0) (hline : b.Unmasked irq)
      (hroom : b.cpu.ring = 0 → k.stackTop.toNat + 68 ≤ b.cpu.esp.toNat + kernelStackSize)
      (hrun : Trap.hwint k irq b = .ok () b') :
      SystemStep k ⟨b, l⟩ (.interrupt irq b.context) ⟨b', ⟨.line irq, b'.cpu.esp⟩ :: l⟩
  | trap {b b' : Board} (hrun : Trap.sysEnter k b = .ok () b') :
      SystemStep k ⟨b, []⟩ (.trap b.context) ⟨b', [⟨.call .entered, b'.cpu.esp⟩]⟩
  | work {b b' : Board} {a : Activation} {l : List Activation} (ha : a.Working)
      (h : Works k a.base b b') : SystemStep k ⟨b, a :: l⟩ .work ⟨b', a :: l⟩
  | pushEsi {b b' : Board} {top : Word} {l : List Activation} (hrun : Trap.pushEsi b = .ok () b') :
      SystemStep k ⟨b, ⟨.call .entered, top⟩ :: l⟩ .work ⟨b', ⟨.call .calling, top⟩ :: l⟩
  | popEsi {b b' : Board} {top : Word} {l : List Activation} (hesp : b.cpu.esp = top - 4)
      (hrun : Trap.popEsi b = .ok () b') :
      SystemStep k ⟨b, ⟨.call .calling, top⟩ :: l⟩ .work ⟨b', ⟨.call .popped, top⟩ :: l⟩
  | answer {b b' : Board} {top : Word} {l : List Activation}
      (hrun : Trap.storeEax k b = .ok () b') :
      SystemStep k ⟨b, ⟨.call .popped, top⟩ :: l⟩ (.answer b.cpu.eax)
        ⟨b', ⟨.call .stored, top⟩ :: l⟩
  | resume {b b' : Board} {irq : Fin 16} {top : Word} {a : Activation} {l : List Activation}
      (hesp : b.cpu.esp = top) (hrun : Trap.hwintEnd k irq b = .ok () b') :
      SystemStep k ⟨b, ⟨.line irq, top⟩ :: a :: l⟩ (.resume b'.context) ⟨b', a :: l⟩
  | switch {b b' : Board} {irq : Fin 16} {top : Word} {q : Pid} (hq : b.cpu.pProcReady = k.frame q)
      (hesp : b.cpu.esp = top) (hrun : Trap.hwintEnd k irq b = .ok () b') :
      SystemStep k ⟨b, [⟨.line irq, top⟩]⟩ (.switch q b'.context) ⟨b', []⟩
  | sysExit {b b' : Board} {top : Word} {q : Pid} (hq : b.cpu.pProcReady = k.frame q)
      (hrun : Trap.sysEnd k b = .ok () b') :
      SystemStep k ⟨b, [⟨.call .stored, top⟩]⟩ (.switch q b'.context) ⟨b', []⟩

section Places

variable {k : KernelPlaces} {p q : Pid} {x : Word} {m m' : Mem32} {a : Word}

theorem KernelPlaces.layout (k : KernelPlaces) :
    k.procTable.toNat + 37 * 2440 ≤ 2 ^ 32 ∧ 2048 ≤ k.stackTop.toNat ∧
      (k.procTable.toNat + 37 * 2440 + 2048 ≤ k.stackTop.toNat ∨
        k.stackTop.toNat ≤ k.procTable.toNat) :=
  ⟨k.table_fits, k.stack_fits, k.apart⟩

theorem KernelPlaces.frame_toNat (k : KernelPlaces) (p : Pid) :
    (k.frame p).toNat = k.procTable.toNat + p * 2440 := by
  have hfits := k.layout.1
  have hp : p.val < 37 := p.isLt
  have hsize : procSize = 2440 := rfl
  rw [KernelPlaces.frame, hsize, BitVec.toNat_add, BitVec.toNat_ofNat]
  omega

theorem KernelPlaces.frame_end (k : KernelPlaces) (p : Pid) :
    (k.frame p).toNat + 2440 ≤ k.procTable.toNat + 37 * 2440 := by
  have hp : p.val < 37 := p.isLt
  rw [k.frame_toNat]
  omega

theorem KernelPlaces.InFrame.unique (hp : k.InFrame p x) (hq : k.InFrame q x) : p = q := by
  obtain ⟨hp, hp'⟩ := hp
  obtain ⟨hq, hq'⟩ := hq
  have hsize : frameSize = 74 := rfl
  rw [k.frame_toNat] at hp hp' hq hq'
  apply Fin.ext
  omega

theorem KernelPlaces.frame_injective (h : k.frame p = k.frame q) : p = q := by
  have hp := k.frame_toNat p
  have hq := k.frame_toNat q
  rw [h] at hp
  apply Fin.ext
  omega

theorem KernelPlaces.inFrame_iff : k.InFrame p x ↔ (x - k.frame p).toNat < frameSize := by
  have hend := k.frame_end p
  have hfits := k.layout.1
  have hsize : frameSize = 74 := rfl
  have hx := x.isLt
  rw [KernelPlaces.InFrame, BitVec.toNat_sub]
  omega

theorem KernelPlaces.inFrame_add {i : Nat} (hi : i < 74) :
    k.InFrame p (k.frame p + BitVec.ofNat 32 i) := by
  have hoff : (k.frame p + BitVec.ofNat 32 i - k.frame p).toNat = i := by bv_omega
  rw [k.inFrame_iff, hoff]
  exact hi

theorem KernelPlaces.InFrame.off_stack (h : k.InFrame p x)
    (hlow : k.stackTop.toNat ≤ x.toNat + 2048) : k.stackTop.toNat ≤ x.toNat := by
  obtain ⟨hp, hp'⟩ := h
  have hend := k.frame_end p
  have hapart := k.layout.2.2
  have hsize : frameSize = 74 := rfl
  rw [k.frame_toNat] at hp hp' hend
  omega

theorem Context.saved_congr (h : ∀ i < 74, m' (a + BitVec.ofNat 32 i) = m (a + BitVec.ofNat 32 i)) :
    Context.saved m' a = Context.saved m a := by
  have hword : ∀ i < 71, load32 m' (a + BitVec.ofNat 32 i) = load32 m (a + BitVec.ofNat 32 i) := by
    intro i hi
    apply load32_congr
    intro j hj
    rw [BitVec.add_assoc, ← BitVec.ofNat_add]
    exact h _ (by omega)
  have hhalf : load16 m' (a + 72) = load16 m (a + 72) := by
    apply load16_congr
    intro j hj
    have hplace : a + 72 + BitVec.ofNat 32 j = a + BitVec.ofNat 32 (72 + j) := by
      rw [BitVec.ofNat_add, ← BitVec.add_assoc]
      rfl
    rw [hplace]
    exact h _ (by omega)
  have hfirst : load32 m' a = load32 m a := by
    have h0 := hword 0 (by decide)
    rwa [BitVec.add_zero] at h0
  simp only [BitVec.ofNat_eq_ofNat] at hhalf
  simp (disch := decide) only [Context.saved, BitVec.ofNat_eq_ofNat, hfirst, hhalf, hword]

theorem Context.stacked_congr {ss ldt : BitVec 16}
    (h : ∀ i < 64, m' (a + BitVec.ofNat 32 i) = m (a + BitVec.ofNat 32 i)) :
    Context.stacked m' a ss ldt = Context.stacked m a ss ldt := by
  have hword : ∀ i < 61, load32 m' (a + BitVec.ofNat 32 i) = load32 m (a + BitVec.ofNat 32 i) := by
    intro i hi
    apply load32_congr
    intro j hj
    rw [BitVec.add_assoc, ← BitVec.ofNat_add]
    exact h _ (by omega)
  have hfirst : load32 m' a = load32 m a := by
    have h0 := hword 0 (by decide)
    rwa [BitVec.add_zero] at h0
  simp (disch := decide) only [Context.stacked, Context.saved, BitVec.ofNat_eq_ofNat, hfirst, hword]

theorem KernelPlaces.saved_congr (h : ∀ x, k.InFrame p x → m' x = m x) :
    Context.saved m' (k.frame p) = Context.saved m (k.frame p) :=
  Context.saved_congr fun _ hi => h _ (KernelPlaces.inFrame_add hi)

end Places

/-- Where the stub is, as its registers and its stack show; `p` is the process that it was entered
from. -/
def Activation.Ok (k : KernelPlaces) (p : Pid) (m : Mem32) (x : Context) (a : Activation) : Prop :=
  match a.origin with
  | .line _ => x.esp.toNat ≤ a.top.toNat
  | .call .entered => x.esp = a.top ∧ x.esi = k.frame p
  | .call .calling => x.esp.toNat + 4 ≤ a.top.toNat ∧ load32 m (a.top - 4) = k.frame p
  | .call .popped => x.esp = a.top ∧ x.esi = k.frame p
  | .call .stored => x.esp = a.top

/-- The stack of the kernel: the registers of interrupted code stand above the address of
`restart_reenter`, and the first stub goes to `restart`. -/
inductive Stacked (k : KernelPlaces) (p : Pid) (t : BitVec 16) (m : Mem32) :
    Context → List Activation → List Context → Prop
  | bottom {x : Context} {a : Activation} (hok : a.Ok k p m x) (htop : a.top = k.stackTop - 4)
      (hret : load32 m a.top = k.restart) : Stacked k p t m x [a] []
  | above {x y : Context} {irq : Fin 16} {top : Word} {l : List Activation} {ys : List Context}
      (hesp : x.esp.toNat ≤ top.toNat) (hret : load32 m top = k.restartReenter)
      (hsaved : Context.stacked m (top + 4) k.ss0 t = y) (hy : y.OfKernel k)
      (htop : top.toNat + 68 = y.esp.toNat) (hrest : Stacked k p t m y l ys) :
      Stacked k p t m x (⟨.line irq, top⟩ :: l) (y :: ys)

section Stack

variable {k : KernelPlaces} {p : Pid} {t : BitVec 16} {m m' : Mem32} {x x' : Context}
  {a : Activation} {l : List Activation} {ys : List Context}

theorem Activation.Ok.esp_le (h : a.Ok k p m x) : x.esp.toNat ≤ a.base := by
  obtain ⟨origin, top⟩ := a
  rcases origin with irq | (_ | _ | _ | _)
  · exact h
  · exact Nat.le_of_eq (congrArg BitVec.toNat h.1)
  · exact Nat.le_sub_of_add_le h.1
  · exact Nat.le_of_eq (congrArg BitVec.toNat h.1)
  · exact Nat.le_of_eq (congrArg BitVec.toNat h)

theorem Activation.base_le (a : Activation) : a.base ≤ a.top.toNat := by
  obtain ⟨origin, top⟩ := a
  rcases origin with irq | (_ | _ | _ | _)
  · exact Nat.le_refl _
  · exact Nat.le_refl _
  · exact Nat.sub_le _ _
  · exact Nat.le_refl _
  · exact Nat.le_refl _

theorem toNat_sub_four {w : Word} (h : 4 ≤ w.toNat) : (w - 4).toNat = w.toNat - 4 := by
  bv_omega

theorem load32_stack {n : Nat} {w : Word} (hw : n ≤ w.toNat) (hend : w.toNat + 4 ≤ k.stackTop.toNat)
    (hm : ∀ z : Word, n ≤ z.toNat → z.toNat < k.stackTop.toNat → m' z = m z) :
    load32 m' w = load32 m w := by
  apply load32_congr
  intro i hi
  have hadd : (w + BitVec.ofNat 32 i).toNat = w.toNat + i := by
    have hlt := k.stackTop.isLt
    rw [BitVec.toNat_add, BitVec.toNat_ofNat]
    omega
  exact hm _ (by omega) (by omega)

theorem Activation.Ok.congr (h : a.Ok k p m x) (hend : a.top.toNat + 4 ≤ k.stackTop.toNat)
    (hm : ∀ z : Word, a.base ≤ z.toNat → z.toNat < k.stackTop.toNat → m' z = m z) :
    a.Ok k p m' x := by
  obtain ⟨origin, top⟩ := a
  rcases origin with irq | (_ | _ | _ | _)
  · exact h
  · exact h
  · obtain ⟨hesp, hesi⟩ := h
    have hfour : 4 ≤ top.toNat := le_of_add_le_right hesp
    have hsub := toNat_sub_four hfour
    change top.toNat + 4 ≤ k.stackTop.toNat at hend
    refine ⟨hesp, (load32_stack (Nat.le_of_eq hsub.symm) ?_ hm).trans hesi⟩
    rw [hsub]
    omega
  · exact h
  · exact h

theorem Stacked.length_eq (h : Stacked k p t m x l ys) : l.length = ys.length + 1 := by
  induction h with
  | bottom => rfl
  | above _ _ _ _ _ _ ih => exact congrArg (· + 1) ih

theorem Stacked.eq_nil {a : Activation} (h : Stacked k p t m x [a] ys) : ys = [] :=
  List.length_eq_zero_iff.mp (Nat.succ.inj h.length_eq).symm

theorem Stacked.exists_cons {a b : Activation} (h : Stacked k p t m x (a :: b :: l) ys) :
    ∃ y ys', ys = y :: ys' :=
  List.exists_cons_of_length_eq_add_one (Nat.succ.inj h.length_eq).symm

theorem Stacked.esp_le (h : Stacked k p t m x l ys) : x.esp.toNat + 4 ≤ k.stackTop.toNat := by
  have hlayout := k.layout.2.1
  induction h with
  | @bottom x a hok htop hret =>
    have hesp := hok.esp_le
    have hbase := a.base_le
    rw [htop, toNat_sub_four (by omega)] at hbase
    omega
  | above hesp _ _ _ htop _ ih => omega

theorem Stacked.top_le (h : Stacked k p t m x (a :: l) ys) :
    a.top.toNat + 4 ≤ k.stackTop.toNat := by
  have hlayout := k.layout.2.1
  cases h with
  | bottom hok htop hret =>
    rw [htop, toNat_sub_four (by omega)]
    omega
  | @above _ y irq top _ _ hesp hret hsaved hy htop hrest =>
    have hrestEsp := hrest.esp_le
    change top.toNat + 4 ≤ _
    omega

theorem Stacked.esp_le_base (h : Stacked k p t m x (a :: l) ys) : x.esp.toNat ≤ a.base := by
  cases h with
  | bottom hok htop hret => exact hok.esp_le
  | above hesp hret hsaved hy htop hrest => exact hesp

theorem Stacked.congr {n : Nat} (h : Stacked k p t m x l ys) (hn : ∀ a ∈ l.head?, n ≤ a.base)
    (hm : ∀ z : Word, n ≤ z.toNat → z.toNat < k.stackTop.toNat → m' z = m z) :
    Stacked k p t m' x l ys := by
  induction h with
  | @bottom x a hok htop hret =>
    have hbase := hn a rfl
    have hle := a.base_le
    have hend := (Stacked.bottom hok htop hret : Stacked k p t m x [a] []).top_le
    refine .bottom (hok.congr hend fun z hz hz' => hm z (by omega) hz') htop ?_
    rw [load32_stack (by omega) hend hm, hret]
  | @above x y irq top l ys hesp hret hsaved hy htop hrest ih =>
    have hbase : n ≤ top.toNat := hn _ rfl
    have hyEnd := hrest.esp_le
    have hframe : ∀ i < 64, m' (top + 4 + BitVec.ofNat 32 i) = m (top + 4 + BitVec.ofNat 32 i) := by
      intro i hi
      have hlt := k.stackTop.isLt
      have hadd : (top + 4 + BitVec.ofNat 32 i).toNat = top.toNat + 4 + i := by bv_omega
      exact hm _ (by omega) (by omega)
    refine .above hesp ?_ ?_ hy htop (ih fun a ha => ?_)
    · rw [load32_stack hbase (by omega) hm, hret]
    · rw [Context.stacked_congr hframe, hsaved]
    · obtain ⟨l', rfl⟩ : ∃ l', l = a :: l' := by
        cases l with
        | nil => cases ha
        | cons b l' =>
          cases ha
          exact ⟨l', rfl⟩
      have hnext := hrest.esp_le_base
      omega

theorem Stacked.work (h : Stacked k p t m x (a :: l) ys) (ha : a.Working)
    (hesp : x'.esp.toNat ≤ a.base)
    (hm : ∀ z : Word, a.base ≤ z.toNat → z.toNat < k.stackTop.toNat → m' z = m z) :
    Stacked k p t m' x' (a :: l) ys := by
  have hcongr := h.congr (fun b hb => by cases hb; exact Nat.le_refl _) hm
  cases hcongr with
  | bottom hok htop hret =>
    refine .bottom ?_ htop hret
    obtain ⟨origin, top⟩ := a
    rcases origin with irq | stage
    · exact hesp
    · cases ha
      obtain ⟨hx, hload⟩ := hok
      refine ⟨?_, hload⟩
      change x'.esp.toNat ≤ top.toNat - 4 at hesp
      change x.esp.toNat + 4 ≤ top.toNat at hx
      change x'.esp.toNat + 4 ≤ top.toNat
      omega
  | above _ hret hsaved hy htop hrest => exact .above hesp hret hsaved hy htop hrest

end Stack

end BazingaOS
