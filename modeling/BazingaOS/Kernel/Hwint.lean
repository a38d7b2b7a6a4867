import BazingaOS.Kernel.Proc
import BazingaOS.Kernel.SysCall

/-!
# Into the kernel and out of it

The stubs `hwint00` to `hwint15` and `sys_call` of `kernel/kernel.asm`, `save`, `restart` and
`restart_reenter`. A process that is interrupted leaves its registers in its entry of `proc_table`,
and code of the kernel that is interrupted leaves them on its stack; `k_reenter` tells the two
apart. The arithmetic flags and the end-of-interrupt commands are left out.
-/

namespace BazingaOS

open Prog

/-- The two interrupt controllers. -/
inductive Chip where
  | master
  | slave
deriving DecidableEq

/-- The processor with the register of the local descriptor table, and the mask registers. -/
structure Board where
  cpu : Cpu
  ldtr : BitVec 16
  imr : Chip → BitVec 8

/-- `sizeof(PROCESS)` -/
def procSize : Nat := 2440

/-- `StackSpace resb 2 * 1024` -/
def kernelStackSize : Nat := 2 * 1024

/-- Up to the selector of its local descriptor table, an entry of `proc_table` is for the stubs. -/
def frameSize : Nat := 74

/-- The flag that lets interrupts in. -/
def interruptFlag : Word := 0x200

/-- The privilege level of a selector. -/
def selectorRing (s : BitVec 16) : Fin 4 := ⟨s.toNat % 4, Nat.mod_lt _ four_pos⟩

/-- Where the linker has put the stack and the process table, and the descriptors: `segBase t s` is
the base of the segment that `s` selects when `t` selects the local table. -/
structure KernelPlaces extends Linkage where
  cs0 : BitVec 16
  procTable : Word
  segBase : BitVec 16 → BitVec 16 → Word
  cs0_ring : selectorRing cs0 = 0
  flat : ∀ t, segBase t ss0 = 0
  returns : restart ≠ restartReenter
  stack_fits : kernelStackSize ≤ stackTop.toNat
  table_fits : procTable.toNat + nrSlots * procSize ≤ 2 ^ 32
  apart : procTable.toNat + nrSlots * procSize + kernelStackSize ≤ stackTop.toNat ∨
    stackTop.toNat ≤ procTable.toNat

/-- `proc_table + p` -/
def KernelPlaces.frame (k : KernelPlaces) (p : Pid) : Word :=
  k.procTable + BitVec.ofNat 32 (p * procSize)

/-- The registers that interrupted code goes on with, and the selector of its local table. -/
structure Context where
  gs : BitVec 16
  fs : BitVec 16
  es : BitVec 16
  ds : BitVec 16
  edi : Word
  esi : Word
  ebp : Word
  ebx : Word
  edx : Word
  ecx : Word
  eax : Word
  eip : Word
  cs : BitVec 16
  eflags : Word
  esp : Word
  ss : BitVec 16
  ldt : BitVec 16
deriving DecidableEq

def Cpu.context (c : Cpu) (ldt : BitVec 16) : Context where
  gs := c.gs
  fs := c.fs
  es := c.es
  ds := c.ds
  edi := c.edi
  esi := c.esi
  ebp := c.ebp
  ebx := c.ebx
  edx := c.edx
  ecx := c.ecx
  eax := c.eax
  eip := c.eip
  cs := c.cs
  eflags := c.eflags
  esp := c.esp
  ss := c.ss
  ldt := ldt

def Board.context (b : Board) : Context := b.cpu.context b.ldtr

/-- What the process table has at the address `a`: a `STACK_FRAME` and `ldt_sel`. -/
def Context.saved (m : Mem32) (a : Word) : Context where
  gs := (load32 m a).setWidth 16
  fs := (load32 m (a + 4)).setWidth 16
  es := (load32 m (a + 8)).setWidth 16
  ds := (load32 m (a + 12)).setWidth 16
  edi := load32 m (a + 16)
  esi := load32 m (a + 20)
  ebp := load32 m (a + 24)
  ebx := load32 m (a + 32)
  edx := load32 m (a + 36)
  ecx := load32 m (a + 40)
  eax := load32 m (a + 44)
  eip := load32 m (a + 52)
  cs := (load32 m (a + 56)).setWidth 16
  eflags := load32 m (a + 60)
  esp := load32 m (a + 64)
  ss := (load32 m (a + 68)).setWidth 16
  ldt := load16 m (a + 72)

/-- What the stack has at the address `a` of interrupted code of the kernel, whose stack pointer and
stack segment are not pushed. -/
def Context.stacked (m : Mem32) (a : Word) (ss ldt : BitVec 16) : Context :=
  { Context.saved m a with esp := a + 64, ss, ldt }

def Cpu.al (c : Cpu) : BitVec 8 := c.eax.setWidth 8

def Cpu.setAl (c : Cpu) (v : BitVec 8) : Cpu :=
  { c with eax := c.eax.extractLsb' 8 24 ++ v }

def chipOf (irq : Fin 16) : Chip := if irq < 8 then .master else .slave

/-- `1 << irq` in an instruction on bytes: the lines of the second controller leave no bit. -/
def lineBit (irq : Fin 16) : BitVec 8 := BitVec.ofNat 8 (2 ^ irq.val)

/-- The code segment of the kernel, with interrupts off. -/
def Cpu.gated (k : KernelPlaces) (c : Cpu) : Cpu :=
  { c with cs := k.cs0, eflags := c.eflags &&& ~~~interruptFlag }

theorem zero_lt_rings : 0 < 4 := by decide

def kernelRing : Fin 4 := ⟨0, zero_lt_rings⟩

/-- The stack that the task state segment names. -/
def Cpu.onStack (k : KernelPlaces) (c : Cpu) : Cpu :=
  { c with ss := k.ss0, ssBase := 0, esp := c.sp0, ring := kernelRing }

/-- What `save` puts on the stack on top of `l`: the registers, with `e` for the stack pointer. -/
def frameWords (c : Cpu) (e : Word) (l : List Word) : List Word :=
  c.gs.setWidth 32 :: c.fs.setWidth 32 :: c.es.setWidth 32 :: c.ds.setWidth 32 :: c.edi :: c.esi ::
    c.ebp :: e :: c.ebx :: c.edx :: c.ecx :: c.eax :: l

/-- The state in which `save` finds out where it has come from. -/
def Cpu.framed (c : Cpu) (l : List Word) : Cpu :=
  Cpu.pushed { c with
    ds := c.ss, es := c.ss, fs := c.ss
    esi := (c.pushed (frameWords c (c.pushed l).esp l)).esp
    kReenter := c.kReenter + 1 } (frameWords c (c.pushed l).esp l)

/-- A stub has masked the line `irq`, behind what `save` has made of the processor. -/
def Board.masked (b : Board) (irq : Fin 16) (c : Cpu) : Board :=
  { b with
    cpu := { c.setAl 0x20 with eflags := c.eflags ||| interruptFlag }
    imr := Function.update b.imr (chipOf irq) (b.imr (chipOf irq) ||| lineBit irq) }

/-- Interrupts are off, and the mask of the line `irq` is taken away. -/
def Board.unmasked (b : Board) (irq : Fin 16) : Board :=
  { b with
    cpu := { b.cpu.setAl (b.imr (chipOf irq) &&& ~~~lineBit irq) with
      eflags := b.cpu.eflags &&& ~~~interruptFlag }
    imr := Function.update b.imr (chipOf irq) (b.imr (chipOf irq) &&& ~~~lineBit irq) }

def Board.closed (b : Board) : Board :=
  { b with cpu := { b.cpu with eflags := b.cpu.eflags &&& ~~~interruptFlag } }

/-- What `restart_reenter` makes of the processor. -/
def Cpu.resumed (c : Cpu) (x : Context) : Cpu :=
  { c with
    gs := x.gs, fs := x.fs, es := x.es, ds := x.ds
    edi := x.edi, esi := x.esi, ebp := x.ebp, ebx := x.ebx, edx := x.edx, ecx := x.ecx, eax := x.eax
    eip := x.eip, cs := x.cs, eflags := x.eflags, esp := x.esp, ss := x.ss
    kReenter := c.kReenter - 1 }

namespace Trap

def onCpu {α : Type} (q : Prog Cpu α) : Prog Board α := fun b =>
  match q b.cpu with
  | .ok a c => .ok a { b with cpu := c }
  | .stop w c => .stop w { b with cpu := c }

def pop : Prog Cpu Word := do
  let v ← stackWord 0
  modify fun c => { c with esp := c.esp + 4 }
  return v

def sti : Prog Cpu Unit := modify fun c => { c with eflags := c.eflags ||| interruptFlag }

def cli : Prog Cpu Unit := modify fun c => { c with eflags := c.eflags &&& ~~~interruptFlag }

/-- An interrupt gate leads into the code segment of the kernel, with interrupts off. -/
def gate (k : KernelPlaces) : Prog Cpu Unit := do
  int90 k.toLinkage
  modify fun c => { c with cs := k.cs0 }
  cli

/-- `jmp [esi + RETADR - P_STACKBASE]` comes back behind the call of `save`. -/
def comeBack (a : Word) : Prog Cpu Unit := do
  let c ← get
  when (load32 c.mem (c.ssBase + (c.esi + 48)) ≠ a) (halt .undefined)

def enter (k : KernelPlaces) : Prog Cpu Unit := do
  gate k
  let a := (← get).eip
  call
  save k.toLinkage
  comeBack a

def inMask (chip : Chip) : Prog Board Unit :=
  modify fun b => { b with cpu := b.cpu.setAl (b.imr chip) }

def outMask (chip : Chip) : Prog Board Unit :=
  modify fun b => { b with imr := Function.update b.imr chip b.cpu.al }

/-- `hwint_master` and `hwint_slave` up to `sti`. -/
def hwint (k : KernelPlaces) (irq : Fin 16) : Prog Board Unit := do
  onCpu (enter k)
  inMask (chipOf irq)
  onCpu (modify fun c => c.setAl (c.al ||| lineBit irq))
  outMask (chipOf irq)
  onCpu (modify fun c => c.setAl 0x20)
  onCpu sti

/-- `sys_call` up to `sti`. -/
def sysEnter (k : KernelPlaces) : Prog Board Unit := do
  onCpu (enter k)
  onCpu sti

def popad : Prog Cpu Unit := do
  let edi ← pop
  let esi ← pop
  let ebp ← pop
  let _ ← pop
  let ebx ← pop
  let edx ← pop
  let ecx ← pop
  let eax ← pop
  modify fun c => { c with edi, esi, ebp, ebx, edx, ecx, eax }

/-- A return into another ring takes the stack pointer along. -/
def iretd (k : KernelPlaces) : Prog Board Unit := do
  let eip ← onCpu pop
  let cs ← onCpu pop
  let eflags ← onCpu pop
  if selectorRing (cs.setWidth 16) ≠ (← get).cpu.ring then
    let esp ← onCpu pop
    let ss ← onCpu pop
    modify fun b => { b with cpu := { b.cpu with
      esp
      ss := ss.setWidth 16
      ssBase := k.segBase b.ldtr (ss.setWidth 16)
      ring := selectorRing (cs.setWidth 16) } }
  onCpu (modify fun c => { c with eip, cs := cs.setWidth 16, eflags })

def restartReenter (k : KernelPlaces) : Prog Board Unit := do
  onCpu (modify fun c => { c with kReenter := c.kReenter - 1 })
  let gs ← onCpu pop
  let fs ← onCpu pop
  let es ← onCpu pop
  let ds ← onCpu pop
  onCpu (modify fun c => { c with
    gs := gs.setWidth 16, fs := fs.setWidth 16, es := es.setWidth 16, ds := ds.setWidth 16 })
  onCpu popad
  onCpu (modify fun c => { c with esp := c.esp + 4 })
  iretd k

def restart (k : KernelPlaces) : Prog Board Unit := do
  onCpu (modify fun c => { c with esp := c.pProcReady })
  modify fun b => { b with ldtr := load16 b.cpu.mem (b.cpu.ssBase + (b.cpu.esp + 72)) }
  onCpu (modify fun c => { c with eax := c.esp + 72 })
  onCpu (modify fun c => { c with sp0 := c.eax })
  restartReenter k

/-- `ret` to one of the two addresses that `save` pushes. -/
def ret (k : KernelPlaces) : Prog Board Unit := do
  let a ← onCpu pop
  if a = k.toLinkage.restart then restart k
  else if a = k.toLinkage.restartReenter then restartReenter k
  else halt .undefined

/-- `hwint_master` and `hwint_slave` from `cli` on. -/
def hwintEnd (k : KernelPlaces) (irq : Fin 16) : Prog Board Unit := do
  onCpu cli
  inMask (chipOf irq)
  onCpu (modify fun c => c.setAl (c.al &&& ~~~lineBit irq))
  outMask (chipOf irq)
  ret k

/-- `push esi` of `sys_call`, and `pop esi` behind its call. -/
def pushEsi : Prog Board Unit := onCpu do push (← get).esi

def popEsi : Prog Board Unit := onCpu do
  let esi ← pop
  modify fun c => { c with esi }

/-- `mov [esi + EAXREG - P_STACKBASE], eax` -/
def storeEax (k : KernelPlaces) : Prog Board Unit :=
  modify fun b => { b with cpu := { b.cpu with
    mem := store32 b.cpu.mem (k.segBase b.ldtr b.cpu.ds + (b.cpu.esi + 44)) b.cpu.eax } }

/-- `sys_call` from `cli` on. -/
def sysEnd (k : KernelPlaces) : Prog Board Unit := do
  onCpu cli
  ret k

section Specs

variable {k : KernelPlaces} {c : Cpu} {l : List Word} {Q : Unit → Cpu → Prop}
  {E : Stop → Cpu → Prop}

theorem wp_push_first {v : Word} : wp (push v) Q E c ↔ Q () (c.pushed [v]) := by
  have h := @wp_push_pushed c [] v Q E
  rwa [c.pushed_nil] at h

theorem wp_gate_user (hring : c.ring ≠ 0) :
    wp (gate k) Q E c ↔ Q () (((c.onStack k).gated k).pushed
      [c.eip, c.cs.setWidth 32, c.eflags, c.esp, c.ss.setWidth 32]) := by
  rw [gate, int90]
  simp only [wp_bind, wp_get, wp_when]
  simp only [wp_modify, hring, ne_eq, not_false_eq_true, forall_const,
    not_true_eq_false, false_imp_iff, and_true]
  change wp (push _) _ _ (c.onStack k) ↔ _
  rw [wp_push_first]
  simp only [wp_push_pushed]
  rfl

theorem wp_gate_kernel (hring : c.ring = 0) :
    wp (gate k) Q E c ↔ Q () ((c.gated k).pushed [c.eip, c.cs.setWidth 32, c.eflags]) := by
  rw [gate, int90]
  simp only [wp_bind, wp_get, wp_when]
  simp only [hring, ne_eq, not_true_eq_false, false_imp_iff, not_false_eq_true, forall_const,
    true_and]
  rw [wp_push_first]
  simp only [wp_push_pushed]
  rfl

theorem wp_save_framed : wp (save k.toLinkage) Q E (c.pushed l) ↔
    wp (do
      if (← get).kReenter = 0 then
        modify fun c => { c with esp := k.stackTop }
        push k.restart
      else push k.restartReenter) Q E (c.framed l) := by
  rw [save]
  simp only [pushad, flatSegments, wp_bind, wp_get, wp_modify, wp_push_pushed]
  have hs : ∀ h : BitVec 16, (h ++ c.ss).setWidth 16 = c.ss :=
    fun _ => BitVec.setWidth_append_eq_right
  simp only [Cpu.pushed, Cpu.framed, hs]
  rfl

theorem wp_save_user (hre : c.kReenter = -1) (hbase : c.ssBase = 0) :
    wp (save k.toLinkage) Q E (c.pushed l) ↔ Q () { c.framed l with
      esp := k.stackTop - 4
      mem := store32 (c.framed l).mem (k.stackTop - 4) k.restart } := by
  rw [wp_save_framed]
  have hzero : (c.framed l).kReenter = 0 := show c.kReenter + 1 = 0 by rw [hre]; rfl
  rw [wp_bind, wp_get, if_pos hzero, wp_bind, wp_modify]
  change Q () { c.framed l with
      esp := k.stackTop - 4
      mem := store32 (c.framed l).mem (c.ssBase + (k.stackTop - 4)) k.restart } ↔ _
  rw [hbase, zero_add]

theorem wp_save_kernel (hre : 0 ≤ c.kReenter) :
    wp (save k.toLinkage) Q E (c.pushed l) ↔ Q () (Cpu.pushed { c with
      ds := c.ss, es := c.ss, fs := c.ss
      esi := (c.pushed (frameWords c (c.pushed l).esp l)).esp
      kReenter := c.kReenter + 1 } (k.restartReenter :: frameWords c (c.pushed l).esp l)) := by
  rw [wp_save_framed]
  have hpos : (c.framed l).kReenter ≠ 0 := show c.kReenter + 1 ≠ 0 by omega
  rw [wp_bind, wp_get, if_neg hpos]
  exact wp_push_pushed

theorem setWidth_setWidth_segment (s : BitVec 16) : (s.setWidth 32).setWidth 16 = s := by
  simp

section Frames

variable {m : Mem32} {a e r : Word} {ldt : BitVec 16}

theorem stacked_of_words
    (h : HoldsWords m a (frameWords c e (r :: c.eip :: c.cs.setWidth 32 :: c.eflags :: l))) :
    Context.stacked m a c.ss ldt = { c.context ldt with esp := a + 64 } := by
  simp only [frameWords, holdsWords_cons, BitVec.add_assoc, BitVec.reduceAdd,
    BitVec.ofNat_eq_ofNat] at h
  obtain ⟨h0, h4, h8, h12, h16, h20, h24, -, h32, h36, h40, h44, -, h52, h56, h60, -⟩ := h
  simp only [Context.stacked, Context.saved, Cpu.context, BitVec.ofNat_eq_ofNat, h0, h4, h8, h12,
    h16, h20, h24, h32, h36, h40, h44, h52, h56, h60, setWidth_setWidth_segment]

theorem saved_of_words (h : HoldsWords m a
    (frameWords c e [r, c.eip, c.cs.setWidth 32, c.eflags, c.esp, c.ss.setWidth 32])) :
    Context.saved m a = c.context (load16 m (a + 72)) := by
  simp only [frameWords, holdsWords_cons, BitVec.add_assoc, BitVec.reduceAdd,
    BitVec.ofNat_eq_ofNat] at h
  obtain ⟨h0, h4, h8, h12, h16, h20, h24, -, h32, h36, h40, h44, -, h52, h56, h60, h64, h68, -⟩ := h
  simp only [Context.saved, Cpu.context, BitVec.ofNat_eq_ofNat, h0, h4, h8, h12, h16, h20, h24,
    h32, h36, h40, h44, h52, h56, h60, h64, h68, setWidth_setWidth_segment]

end Frames

/-- An interrupt of the kernel: its registers are on the stack, above the address of
`restart_reenter`. -/
theorem enter_kernel (hring : c.ring = 0) (hbase : c.ssBase = 0) (hre : 0 ≤ c.kReenter) :
    ∃ m, enter k c = .ok () { c with
      cs := k.cs0, eflags := c.eflags &&& ~~~interruptFlag
      ds := c.ss, es := c.ss, fs := c.ss
      esi := c.esp - 64, esp := c.esp - 68
      kReenter := c.kReenter + 1
      mem := m } ∧
    (∀ x, 68 ≤ (x - (c.esp - 68)).toNat → m x = c.mem x) ∧
    load32 m (c.esp - 68) = k.restartReenter ∧
    ∀ ldt, Context.stacked m (c.esp - 64) c.ss ldt = c.context ldt := by
  let l := frameWords c (c.esp - 16) [c.eip, c.eip, c.cs.setWidth 32, c.eflags]
  have hsp : c.ssBase + c.esp = c.esp := by rw [hbase, zero_add]
  let m := pushWords c.mem (c.ssBase + c.esp) (k.restartReenter :: l)
  have hm : m = pushWords c.mem c.esp (k.restartReenter :: l) := by rw [← hsp]
  have hholds : HoldsWords m (c.esp - 68) (k.restartReenter :: l) :=
    hm ▸ holdsWords_pushWords (by simp [l, frameWords])
  obtain ⟨hret, hframe⟩ := holdsWords_cons.mp hholds
  have hplace : c.esp - 68 + 4 = c.esp - 64 := by bv_omega
  rw [hplace] at hframe
  have hback : load32 m (c.esp - 64 + 48) = c.eip := by
    exact hframe 12 (by simp [l, frameWords])
  have hrun : wp (enter k) (fun _ c' => c' = { c with
      cs := k.cs0, eflags := c.eflags &&& ~~~interruptFlag
      ds := c.ss, es := c.ss, fs := c.ss
      esi := c.esp - 64, esp := c.esp - 68
      kReenter := c.kReenter + 1
      mem := m }) (fun _ _ => False) c := by
    rw [enter, wp_bind, wp_gate_kernel hring, wp_bind, wp_get, wp_bind, call, wp_bind, wp_get,
      wp_push_pushed, wp_bind, wp_save_kernel (show 0 ≤ (c.gated k).kReenter from hre)]
    change wp (comeBack c.eip) _ _ { c with
      cs := k.cs0, eflags := c.eflags &&& ~~~interruptFlag
      ds := c.ss, es := c.ss, fs := c.ss
      esi := c.esp - 64, esp := c.esp - 68
      kReenter := c.kReenter + 1
      mem := m }
    rw [comeBack, wp_bind, wp_get, wp_when]
    refine ⟨fun hne => absurd ?_ hne, fun _ => rfl⟩
    rw [hbase, zero_add]
    exact hback
  obtain ⟨_, c', hok, rfl⟩ := exists_ok_of_wp hrun
  refine ⟨m, hok, fun x hx => ?_, hret, fun ldt => ?_⟩
  · rw [hm]
    exact pushWords_of_apart (by simp [l, frameWords]) hx
  rw [stacked_of_words hframe]
  have hesp : c.esp - 64 + 64 = c.esp := by bv_omega
  rw [hesp]
  rfl

/-- An interrupt of a process: its registers are in its entry of the table, which the task state
segment points behind, and the kernel goes on with its own stack. -/
theorem enter_user {a : Word} (hring : c.ring ≠ 0) (hre : c.kReenter = -1) (hsp0 : c.sp0 = a + 72)
    (hfar : ∀ x, (x - a).toNat < 72 → 4 ≤ (x - (k.stackTop - 4)).toNat) :
    ∃ m, enter k c = .ok () { c with
      ss := k.ss0, ssBase := 0, ring := 0
      cs := k.cs0, eflags := c.eflags &&& ~~~interruptFlag
      ds := k.ss0, es := k.ss0, fs := k.ss0
      esi := a, esp := k.stackTop - 4
      kReenter := 0
      mem := m } ∧
    (∀ x, 72 ≤ (x - a).toNat → 4 ≤ (x - (k.stackTop - 4)).toNat → m x = c.mem x) ∧
    load32 m (k.stackTop - 4) = k.restart ∧
    Context.saved m a = c.context (load16 m (a + 72)) := by
  let l := frameWords c (c.sp0 - 24)
    [c.eip, c.eip, c.cs.setWidth 32, c.eflags, c.esp, c.ss.setWidth 32]
  have hsp : 0 + c.sp0 = a + 72 := by rw [hsp0, zero_add]
  let f := pushWords c.mem (0 + c.sp0) l
  let m := store32 f (k.stackTop - 4) k.restart
  have hl : 4 * l.length = 72 := by simp [l, frameWords]
  have hplace : a + 72 - BitVec.ofNat 32 (4 * l.length) = a := by
    rw [hl]
    bv_omega
  have hf : f = pushWords c.mem (a + 72) l := congrArg (fun sp => pushWords c.mem sp l) hsp
  have hpushed : HoldsWords f a l := by
    have h := @holdsWords_pushWords c.mem (a + 72) l (by omega)
    rw [hplace] at h
    rwa [hf]
  have hframe : HoldsWords m a l :=
    hpushed.congr (by omega) fun x hx => store32_of_apart (hfar x (hl ▸ hx))
  have hback : load32 m (a + 48) = c.eip := hframe 12 (by simp [l, frameWords])
  have hrun : wp (enter k) (fun _ c' => c' = { c with
      ss := k.ss0, ssBase := 0, ring := 0
      cs := k.cs0, eflags := c.eflags &&& ~~~interruptFlag
      ds := k.ss0, es := k.ss0, fs := k.ss0
      esi := a, esp := k.stackTop - 4
      kReenter := 0
      mem := m }) (fun _ _ => False) c := by
    have hesi : c.sp0 - 72 = a := by bv_omega
    have hzero : c.kReenter + 1 = 0 := by omega
    rw [enter, wp_bind, wp_gate_user hring, wp_bind, wp_get, wp_bind, call, wp_bind, wp_get,
      wp_push_pushed, wp_bind, @wp_save_user k ((c.onStack k).gated k) _ _ _ hre rfl]
    change wp (comeBack c.eip) _ _ { c with
      ss := k.ss0, ssBase := 0, ring := 0
      cs := k.cs0, eflags := c.eflags &&& ~~~interruptFlag
      ds := k.ss0, es := k.ss0, fs := k.ss0
      esi := c.sp0 - 72, esp := k.stackTop - 4
      kReenter := c.kReenter + 1
      mem := m }
    rw [hesi, hzero, comeBack, wp_bind, wp_get, wp_when]
    refine ⟨fun hne => absurd ?_ hne, fun _ => rfl⟩
    rw [zero_add]
    exact hback
  obtain ⟨_, c', hok, rfl⟩ := exists_ok_of_wp hrun
  refine ⟨m, hok, fun x hx hx' => ?_, load32_store32, saved_of_words hframe⟩
  refine (store32_of_apart hx').trans ?_
  rw [hf]
  refine pushWords_of_apart (by omega) ?_
  rw [hplace]
  omega

section Pops

theorem wp_pop {Q : Word → Cpu → Prop} : wp pop Q E c ↔
    Q (load32 c.mem (c.ssBase + c.esp)) { c with esp := c.esp + 4 } := by
  have hzero : c.esp + 0 = c.esp := by bv_omega
  rw [pop, wp_bind]
  change Q (load32 c.mem (c.ssBase + (c.esp + 0))) _ ↔ _
  rw [hzero]

theorem wp_onCpu {α : Type} {q : Prog Cpu α} {b : Board} {Q : α → Board → Prop}
    {E : Stop → Board → Prop} : wp (onCpu q) Q E b ↔
      wp q (fun a c => Q a { b with cpu := c }) (fun w c => E w { b with cpu := c }) b.cpu := by
  unfold wp onCpu
  cases q b.cpu <;> rfl

theorem restartReenter_kernel {b : Board} (hbase : b.cpu.ssBase = 0)
    (hring : selectorRing (Context.saved b.cpu.mem b.cpu.esp).cs = b.cpu.ring) :
    restartReenter k b = .ok ()
      { b with cpu := b.cpu.resumed (.stacked b.cpu.mem b.cpu.esp b.cpu.ss b.ldtr) } := by
  have hrun : wp (restartReenter k) (fun _ b' => b' =
      { b with cpu := b.cpu.resumed (.stacked b.cpu.mem b.cpu.esp b.cpu.ss b.ldtr) })
      (fun _ _ => False) b := by
    have hsame : ¬ selectorRing (BitVec.setWidth 16 (load32 b.cpu.mem (b.cpu.esp + 56#32))) ≠
        b.cpu.ring := not_not.mpr hring
    simp only [restartReenter, popad, iretd, wp_bind, wp_onCpu, wp_modify, wp_pop, wp_get,
      hbase, BitVec.zero_add, BitVec.add_assoc, BitVec.reduceAdd, BitVec.ofNat_eq_ofNat]
    rw [if_neg hsame]
    simp only [wp_onCpu, wp_modify, Cpu.resumed, Context.stacked, Context.saved, hbase]
    rfl
  obtain ⟨_, b', hok, rfl⟩ := exists_ok_of_wp hrun
  exact hok

theorem restartReenter_user {b : Board} (hbase : b.cpu.ssBase = 0)
    (hring : selectorRing (Context.saved b.cpu.mem b.cpu.esp).cs ≠ b.cpu.ring) :
    restartReenter k b = .ok () { b with cpu := { b.cpu.resumed (.saved b.cpu.mem b.cpu.esp) with
      ssBase := k.segBase b.ldtr (Context.saved b.cpu.mem b.cpu.esp).ss
      ring := selectorRing (Context.saved b.cpu.mem b.cpu.esp).cs } } := by
  have hrun : wp (restartReenter k) (fun _ b' => b' =
      { b with cpu := { b.cpu.resumed (.saved b.cpu.mem b.cpu.esp) with
        ssBase := k.segBase b.ldtr (Context.saved b.cpu.mem b.cpu.esp).ss
        ring := selectorRing (Context.saved b.cpu.mem b.cpu.esp).cs } })
      (fun _ _ => False) b := by
    have hother : selectorRing (BitVec.setWidth 16 (load32 b.cpu.mem (b.cpu.esp + 56#32))) ≠
        b.cpu.ring := hring
    simp only [restartReenter, popad, iretd, wp_bind, wp_onCpu, wp_modify, wp_pop, wp_get,
      hbase, BitVec.zero_add, BitVec.add_assoc, BitVec.reduceAdd, BitVec.ofNat_eq_ofNat]
    rw [if_pos hother]
    simp only [wp_bind, wp_onCpu, wp_modify, wp_pop, BitVec.zero_add, BitVec.add_assoc,
      BitVec.reduceAdd]
    rfl
  obtain ⟨_, b', hok, rfl⟩ := exists_ok_of_wp hrun
  exact hok

/-- The state in which `restart` reaches `restart_reenter`. -/
def atReady (b : Board) : Board :=
  { b with
    ldtr := load16 b.cpu.mem (b.cpu.ssBase + (b.cpu.pProcReady + 72))
    cpu := { b.cpu with
      esp := b.cpu.pProcReady, eax := b.cpu.pProcReady + 72, sp0 := b.cpu.pProcReady + 72 } }

theorem wp_restart {b : Board} {Q : Unit → Board → Prop} {E : Stop → Board → Prop} :
    wp (restart k) Q E b ↔ wp (restartReenter k) Q E (atReady b) := by
  simp only [restart, wp_bind, wp_onCpu, wp_modify, atReady]

theorem restart_user {b : Board} {x : Context} (hbase : b.cpu.ssBase = 0)
    (hsaved : Context.saved b.cpu.mem b.cpu.pProcReady = x)
    (hring : selectorRing x.cs ≠ b.cpu.ring) :
    restart k b = .ok () { b with
      ldtr := x.ldt
      cpu := { b.cpu.resumed x with
        sp0 := b.cpu.pProcReady + 72
        ssBase := k.segBase x.ldt x.ss
        ring := selectorRing x.cs } } := by
  have hload : load16 b.cpu.mem (b.cpu.ssBase + (b.cpu.pProcReady + 72)) = x.ldt := by
    rw [hbase, zero_add, ← hsaved]
    rfl
  subst hsaved
  have hrun : wp (restart k) (fun _ b' => b' = { b with
      ldtr := (Context.saved b.cpu.mem b.cpu.pProcReady).ldt
      cpu := { b.cpu.resumed (Context.saved b.cpu.mem b.cpu.pProcReady) with
        sp0 := b.cpu.pProcReady + 72
        ssBase := k.segBase (Context.saved b.cpu.mem b.cpu.pProcReady).ldt
          (Context.saved b.cpu.mem b.cpu.pProcReady).ss
        ring := selectorRing (Context.saved b.cpu.mem b.cpu.pProcReady).cs } })
      (fun _ _ => False) b := by
    rw [wp_restart, ← hload]
    rw [wp, @restartReenter_user k (atReady b) hbase hring]
    rfl
  obtain ⟨_, b', hok, rfl⟩ := exists_ok_of_wp hrun
  exact hok

theorem wp_ret {b : Board} {Q : Unit → Board → Prop} {E : Stop → Board → Prop}
    (hbase : b.cpu.ssBase = 0) : wp (ret k) Q E b ↔
      wp (if load32 b.cpu.mem b.cpu.esp = k.toLinkage.restart then restart k
        else if load32 b.cpu.mem b.cpu.esp = k.toLinkage.restartReenter then restartReenter k
        else halt .undefined) Q E { b with cpu := { b.cpu with esp := b.cpu.esp + 4 } } := by
  simp only [ret, wp_bind, wp_onCpu, wp_pop, hbase, zero_add]

theorem ret_kernel {b : Board} (hbase : b.cpu.ssBase = 0)
    (hword : load32 b.cpu.mem b.cpu.esp = k.restartReenter)
    (hring : selectorRing (Context.saved b.cpu.mem (b.cpu.esp + 4)).cs = b.cpu.ring) :
    ret k b = .ok () { b with
      cpu := b.cpu.resumed (.stacked b.cpu.mem (b.cpu.esp + 4) b.cpu.ss b.ldtr) } := by
  have hother : k.restartReenter ≠ k.toLinkage.restart := k.returns.symm
  have hrun : wp (ret k) (fun _ b' => b' = { b with
      cpu := b.cpu.resumed (.stacked b.cpu.mem (b.cpu.esp + 4) b.cpu.ss b.ldtr) })
      (fun _ _ => False) b := by
    rw [wp_ret hbase, hword, if_neg hother, if_pos rfl, wp,
      @restartReenter_kernel k { b with cpu := { b.cpu with esp := b.cpu.esp + 4 } } hbase hring]
    rfl
  obtain ⟨_, b', hok, rfl⟩ := exists_ok_of_wp hrun
  exact hok

theorem ret_user {b : Board} {x : Context} (hbase : b.cpu.ssBase = 0)
    (hword : load32 b.cpu.mem b.cpu.esp = k.toLinkage.restart)
    (hsaved : Context.saved b.cpu.mem b.cpu.pProcReady = x)
    (hring : selectorRing x.cs ≠ b.cpu.ring) :
    ret k b = .ok () { b with
      ldtr := x.ldt
      cpu := { b.cpu.resumed x with
        sp0 := b.cpu.pProcReady + 72
        ssBase := k.segBase x.ldt x.ss
        ring := selectorRing x.cs } } := by
  have hrun : wp (ret k) (fun _ b' => b' = { b with
      ldtr := x.ldt
      cpu := { b.cpu.resumed x with
        sp0 := b.cpu.pProcReady + 72
        ssBase := k.segBase x.ldt x.ss
        ring := selectorRing x.cs } }) (fun _ _ => False) b := by
    rw [wp_ret hbase, if_pos hword, wp,
      @restart_user k { b with cpu := { b.cpu with esp := b.cpu.esp + 4 } } x hbase hsaved hring]
    rfl
  obtain ⟨_, b', hok, rfl⟩ := exists_ok_of_wp hrun
  exact hok

end Pops

section Stubs

variable {b : Board} {irq : Fin 16} {Q : Unit → Board → Prop} {E : Stop → Board → Prop}

@[simp] theorem al_setAl (c : Cpu) (v : BitVec 8) : (c.setAl v).al = v :=
  BitVec.setWidth_append_eq_right

@[simp] theorem setAl_setAl (c : Cpu) (v w : BitVec 8) : (c.setAl v).setAl w = c.setAl w := by
  have hhigh : (c.eax.extractLsb' 8 24 ++ v).extractLsb' 8 24 = c.eax.extractLsb' 8 24 :=
    BitVec.extractLsb'_append_eq_left
  simp only [Cpu.setAl, hhigh]

theorem wp_hwint : wp (hwint k irq) Q E b ↔ wp (enter k) (fun _ c => Q () (b.masked irq c))
    (fun w c => E w { b with cpu := c }) b.cpu := by
  simp only [hwint, sti, inMask, outMask, wp_bind, wp_onCpu, wp_modify, al_setAl, setAl_setAl]
  rfl

theorem wp_sysEnter : wp (sysEnter k) Q E b ↔ wp (enter k)
    (fun _ c => Q () { b with cpu := { c with eflags := c.eflags ||| interruptFlag } })
    (fun w c => E w { b with cpu := c }) b.cpu := by
  simp only [sysEnter, sti, wp_bind, wp_onCpu, wp_modify]

theorem wp_hwintEnd : wp (hwintEnd k irq) Q E b ↔ wp (ret k) Q E (b.unmasked irq) := by
  simp only [hwintEnd, cli, inMask, outMask, wp_bind, wp_onCpu, wp_modify, al_setAl, setAl_setAl]
  rfl

theorem wp_sysEnd : wp (sysEnd k) Q E b ↔ wp (ret k) Q E b.closed := by
  simp only [sysEnd, cli, wp_bind, wp_onCpu, wp_modify]
  rfl

end Stubs

end Specs

end Trap

end BazingaOS
