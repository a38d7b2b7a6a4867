import BazingaOS.Kernel.Clock
import BazingaOS.Kernel.ContextSwitch
import BazingaOS.MM.Descriptors
import BazingaOS.MM.ProcName

/-!
# Starting the machine

What `init_prot` of `kernel/protect.c` does to the segments and `kernel_main` of `kernel/main.c` to
the process table, on the way from the loader to the first `restart`. The table that comes out is
the one that the messages, the segments, the names and the scheduler start from, and every process
begins at its own entry point with a stack of its own.
-/

namespace BazingaOS

open Prog

def daLdt : Nat := 0x82
def da386Tss : Nat := 0x89
def indexTss : Nat := 4
def indexLdtFirst : Nat := 5
def selectorKernelCs : Nat := 8
def selectorKernelDs : Nat := 16
def selectorKernelGs : Nat := 24 + 3
def saTil : Nat := 4
def saRpl1 : Nat := 1
def saRpl3 : Nat := 3
def descriptorSize : Nat := 8
def ldtSize : Nat := 256
def tssSize : Nat := 104
def stackSize : Nat := 0xA000
def stackSizeTotal : Nat := 7 * stackSize

/-- `STACK_FRAME` -/
structure StackFrame where
  gs : Word := 0
  fs : Word := 0
  es : Word := 0
  ds : Word := 0
  edi : Word := 0
  esi : Word := 0
  ebp : Word := 0
  kernelEsp : Word := 0
  ebx : Word := 0
  edx : Word := 0
  ecx : Word := 0
  eax : Word := 0
  retaddr : Word := 0
  eip : Word := 0
  cs : Word := 0
  eflags : Word := 0
  esp : Word := 0
  ss : Word := 0
deriving DecidableEq

def StackFrame.words (f : StackFrame) : List Word :=
  [f.gs, f.fs, f.es, f.ds, f.edi, f.esi, f.ebp, f.kernelEsp, f.ebx, f.edx, f.ecx, f.eax, f.retaddr,
    f.eip, f.cs, f.eflags, f.esp, f.ss]

/-- An entry of `proc_table`. The defaults are the zeros of `memset`. -/
structure Pcb where
  regs : StackFrame := {}
  ldtSel : BitVec 16 := 0
  ldts : Ldt := {}
  ticks : Int := 0
  priority : Int := 0
  pName : Bytes := fun _ => 0
  ipc : Process := {}
  filp : Fin nrFiles → Option Addr := fun _ => none

/-- `TASK` -/
structure TaskEntry where
  initialEip : Word
  stacksize : Nat
  name : String

/-- The addresses that the linker has given to what the start needs. -/
structure Symbols where
  procTable : Word
  taskStack : Word
  tss : Word
  taskSys : Word
  taskTty : Word
  taskHd : Word
  taskFs : Word
  taskMm : Word
  init : Word
  testA : Word

namespace Symbols

def taskTable (y : Symbols) : List TaskEntry :=
  [⟨y.taskSys, stackSize, "task_sys"⟩, ⟨y.taskTty, stackSize, "task_tty"⟩,
    ⟨y.taskHd, stackSize, "task_hd"⟩, ⟨y.taskFs, stackSize, "task_fs"⟩,
    ⟨y.taskMm, stackSize, "task_mm"⟩]

def userProcs (y : Symbols) : List TaskEntry :=
  [⟨y.init, stackSize, "INIT"⟩, ⟨y.testA, stackSize, "testA"⟩]

def entry (y : Symbols) (p : Pid) : TaskEntry :=
  if p.val < nrTasks then y.taskTable.getD p ⟨0, 0, ""⟩
  else y.userProcs.getD (p - nrTasks) ⟨0, 0, ""⟩

def ldts (y : Symbols) (p : Pid) : Nat := y.procTable.toNat + p * procSize + frameSize

end Symbols

/-- The segments, the process table and the local variable `p_stack`. -/
structure StartState where
  gdt : Nat → Descriptor
  procTable : Pid → Pcb
  tssSs0 : Word
  tssIobase : Nat
  pStack : Word

namespace StartState

def setPcb (s : StartState) (p : Pid) (f : Pcb → Pcb) : StartState :=
  { s with procTable := Function.update s.procTable p (f (s.procTable p)) }

def setGdt (s : StartState) (i : Nat) (d : Descriptor) : StartState :=
  { s with gdt := Function.update s.gdt i d }

end StartState

def eachProc (body : Pid → Prog StartState Unit) : Prog StartState Unit :=
  loop (fun i => if h : i < nrSlots then body ⟨i, h⟩ else pure ()) nrSlots 0

def vir2phy (segBase offset : Nat) : Nat := (segBase + offset) % 0x100000000

/-- A round of the loop of `init_prot`. -/
def initLdt (y : Symbols) (p : Pid) : Prog StartState Unit := do
  modify fun s => s.setPcb p fun _ => {}
  modify fun s => s.setPcb p fun q => { q with ldtSel := BitVec.ofNat 16 ((indexLdtFirst + p) <<< 3) }
  modify fun s => s.setGdt (indexLdtFirst + p)
    (initDescriptor (vir2phy (seg2addr s.gdt selectorKernelDs) (y.ldts p))
      (descriptorSize * ldtSize - 1) daLdt)

/-- What `init_prot` does to the segments and to the process table. -/
def initProt (y : Symbols) : Prog StartState Unit := do
  eachProc (initLdt y)
  modify fun s => { s with tssSs0 := BitVec.ofNat 32 selectorKernelDs, tssIobase := tssSize }
  modify fun s => s.setGdt indexTss
    (initDescriptor (vir2phy (seg2addr s.gdt selectorKernelDs) y.tss.toNat) (tssSize - 1) da386Tss)

/-- The registers that `kernel_main` gives to a process with the requested privilege level `rpl`;
the others are left alone. -/
def StackFrame.start (f : StackFrame) (rpl eflags : Nat) (eip esp : Word) : StackFrame :=
  { f with
    gs := BitVec.ofNat 32 (selectorKernelGs &&& 0xfffc ||| rpl)
    cs := BitVec.ofNat 32 (rpl ||| saTil)
    fs := BitVec.ofNat 32 (8 ||| rpl ||| saTil)
    es := BitVec.ofNat 32 (8 ||| rpl ||| saTil)
    ds := BitVec.ofNat 32 (8 ||| rpl ||| saTil)
    ss := BitVec.ofNat 32 (8 ||| rpl ||| saTil)
    eip := eip
    esp := esp
    eflags := BitVec.ofNat 32 eflags }

/-- The segments of `INIT`, from the base and the limit of the kernel. -/
def initSegments (privilege base limit : Nat) : Ldt where
  code := initDescriptor 0 ((base + limit) >>> limit4kShift)
    (da32 ||| daC ||| (privilege <<< 5) ||| daLimit4k)
  data := initDescriptor 0 ((base + limit) >>> limit4kShift)
    (da32 ||| daDrw ||| (privilege <<< 5) ||| daLimit4k)

/-- The segments of the other processes: those of the kernel with another type. -/
def copiedSegments (gdt : Nat → Descriptor) (privilege : Nat) : Ldt where
  code := { gdt (selectorKernelCs >>> 3) with attrl := UInt8.ofNat (daC ||| privilege <<< 5) }
  data := { gdt (selectorKernelDs >>> 3) with attrl := UInt8.ofNat (daDrw ||| privilege <<< 5) }

/-- A round of the loop of `kernel_main`. `kernelMap` is what `get_kernel_map` finds; without it
`kernel_main` returns, but it has not been called. -/
def startProc (y : Symbols) (kernelMap : Option (Nat × Nat)) (p : Pid) : Prog StartState Unit := do
  if nrTasks + nrNativeProcs ≤ p.val then
    modify fun s => s.setPcb p fun q => { q with ipc := { q.ipc with pFlags := .free } }
  else
    let pTask := y.entry p
    let eflags := if p.val < nrTasks then 0x1202 else 0x202
    let rpl := if p.val < nrTasks then saRpl1 else saRpl3
    let privilege := if p.val < nrTasks then privilegeTask else privilegeUser
    let prio := if p.val < nrTasks then 15 else 5
    modify fun s => s.setPcb p fun q =>
      { q with pName := putBytes q.pName 0 (stringBytes pTask.name ++ [0]) }
    if p.val = nrTasks then
      match kernelMap with
      | none => halt .undefined
      | some (base, limit) =>
        modify fun s => s.setPcb p fun q => { q with ldts := initSegments privilege base limit }
    else modify fun s => s.setPcb p fun q => { q with ldts := copiedSegments s.gdt privilege }
    modify fun s => s.setPcb p fun q =>
      { q with
        regs := q.regs.start rpl eflags pTask.initialEip s.pStack
        ticks := prio
        priority := prio
        ipc := { q.ipc with
          pParent := .noTask
          pFlags := 0
          pRecvfrom := .noTask
          pSendto := .noTask
          hasIntMsg := false
          qSending := none
          nextSending := none
          pMsg := none } }
    modify fun s => { s with pStack := s.pStack - BitVec.ofNat 32 pTask.stacksize }
    modify fun s => s.setPcb p fun q => { q with filp := fun _ => none }

def startProcs (y : Symbols) (kernelMap : Option (Nat × Nat)) : Prog StartState Unit := do
  modify fun s => { s with pStack := y.taskStack + BitVec.ofNat 32 stackSizeTotal }
  eachProc (startProc y kernelMap)

/-- `LABEL_GDT` of `boot/loader.asm`, which `cstart` copies. -/
def loaderGdt (i : Nat) : Descriptor :=
  if i = 1 then initDescriptor 0 0xFFFFF (daCr ||| da32 ||| daLimit4k)
  else if i = 2 then initDescriptor 0 0xFFFFF (da32 ||| daDrw ||| daLimit4k)
  else if i = 3 then initDescriptor 0xB8000 0xFFFF (daDrw ||| 0x60)
  else {}

structure FlatGdt (gdt : Nat → Descriptor) : Prop where
  code : gdt 1 = initDescriptor 0 0xFFFFF (daCr ||| da32 ||| daLimit4k)
  data : gdt 2 = initDescriptor 0 0xFFFFF (da32 ||| daDrw ||| daLimit4k)

theorem loaderGdt_flat : FlatGdt loaderGdt := ⟨rfl, rfl⟩

section InitProt

variable {y : Symbols} {s s₀ : StartState} {p : Pid} {E : Stop → StartState → Prop}

theorem wp_eachProc {body : Pid → Prog StartState Unit} {Q : Unit → StartState → Prop}
    {I : Nat → StartState → Prop} (hs : I 0 s)
    (hbody : ∀ (p : Pid) u, I p u → wp (body p) (fun _ => I (p + 1)) E u)
    (hend : ∀ u, I nrSlots u → Q () u) : wp (eachProc body) Q E s := by
  apply wp_loop hs
  · intro j u _ hj hI
    have hlt : j < nrSlots := by omega
    rw [dif_pos hlt]
    exact hbody ⟨j, hlt⟩ u hI
  · intro u hI
    rw [Nat.zero_add] at hI
    exact hend u hI

theorem update_filled {α : Type} (f g : Pid → α) (p : Pid) :
    Function.update (fun q => if q.val < p.val then f q else g q) p (f p) =
      fun q => if q.val < p.val + 1 then f q else g q := by
  funext q
  by_cases hq : q = p
  · subst hq
    rw [Function.update_self, if_pos (Nat.lt_succ_self _)]
  · have hne : q.val ≠ p.val := fun h => hq (Fin.ext h)
    rw [Function.update_of_ne hq]
    by_cases hlt : q.val < p.val
    · rw [if_pos hlt, if_pos (by omega)]
    · rw [if_neg hlt, if_neg (by omega)]

/-- The selector of the local table of `p`. -/
def ldtSelector (p : Pid) : BitVec 16 := BitVec.ofNat 16 ((indexLdtFirst + p) <<< 3)

def ldtDescriptor (y : Symbols) (p : Pid) : Descriptor :=
  initDescriptor (y.ldts p % 0x100000000) (descriptorSize * ldtSize - 1) daLdt

/-- The global table that `init_prot` has filled in up to the slot `n`. -/
def gdtUpTo (y : Symbols) (gdt : Nat → Descriptor) (n : Nat) (i : Nat) : Descriptor :=
  if h : indexLdtFirst ≤ i ∧ i < indexLdtFirst + n ∧ i - indexLdtFirst < nrSlots then
    ldtDescriptor y ⟨i - indexLdtFirst, h.2.2⟩
  else gdt i

theorem gdtUpTo_of_lt (y : Symbols) (gdt : Nat → Descriptor) (n : Nat) {i : Nat}
    (hi : i < indexLdtFirst) : gdtUpTo y gdt n i = gdt i := by
  rw [gdtUpTo, dif_neg (by omega)]

theorem FlatGdt.base {gdt : Nat → Descriptor} (h : FlatGdt gdt) :
    seg2addr gdt selectorKernelDs = 0 := by
  rw [seg2addr_eq]
  change (gdt 2).base = 0
  rw [h.data]
  exact Descriptor.base_initDescriptor (by decide)

theorem FlatGdt.upTo {gdt : Nat → Descriptor} (h : FlatGdt gdt) (n : Nat) :
    FlatGdt (gdtUpTo y gdt n) :=
  ⟨(gdtUpTo_of_lt y gdt n (by decide)).trans h.code,
    (gdtUpTo_of_lt y gdt n (by decide)).trans h.data⟩

theorem gdtUpTo_succ (y : Symbols) (gdt : Nat → Descriptor) (p : Pid) :
    Function.update (gdtUpTo y gdt p) (indexLdtFirst + p) (ldtDescriptor y p) =
      gdtUpTo y gdt (p + 1) := by
  have hp := p.isLt
  funext i
  by_cases hi : i = indexLdtFirst + p
  · subst hi
    rw [Function.update_self, gdtUpTo, dif_pos (by omega)]
    congr 1
    apply Fin.ext
    change p.val = indexLdtFirst + p - indexLdtFirst
    omega
  · rw [Function.update_of_ne hi, gdtUpTo, gdtUpTo]
    by_cases h : indexLdtFirst ≤ i ∧ i < indexLdtFirst + p ∧ i - indexLdtFirst < nrSlots
    · rw [dif_pos h, dif_pos (by omega)]
    · rw [dif_neg h, dif_neg (by omega)]

def afterProt (y : Symbols) (s : StartState) : StartState :=
  { s with
    procTable := fun p => { ldtSel := ldtSelector p }
    gdt := Function.update (gdtUpTo y s.gdt nrSlots) indexTss
      (initDescriptor (y.tss.toNat % 0x100000000) (tssSize - 1) da386Tss)
    tssSs0 := BitVec.ofNat 32 selectorKernelDs
    tssIobase := tssSize }

theorem initProt_spec (hflat : FlatGdt s.gdt) :
    wp (initProt y) (fun _ t => t = afterProt y s) (fun _ _ => False) s := by
  rw [initProt, wp_bind]
  apply wp_eachProc (I := fun n t => t = { s with
    procTable := fun p => if p.val < n then { ldtSel := ldtSelector p } else s.procTable p
    gdt := gdtUpTo y s.gdt n })
  · have hgdt : gdtUpTo y s.gdt 0 = s.gdt := by
      funext i
      rw [gdtUpTo, dif_neg (by omega)]
    simp [hgdt]
  · rintro p t rfl
    simp only [initLdt, wp_bind, wp_modify, StartState.setPcb, StartState.setGdt,
      (hflat.upTo (y := y) p.val).base, vir2phy,
      Nat.zero_add, Function.update_self, Function.update_idem]
    rw [StartState.mk.injEq]
    have htable := update_filled (fun q => ({ ldtSel := ldtSelector q } : Pcb)) s.procTable p
    exact ⟨gdtUpTo_succ y s.gdt p, htable, rfl, rfl, rfl⟩
  · rintro t rfl
    simp only [wp_bind, wp_modify, StartState.setGdt, (hflat.upTo (y := y) nrSlots).base, vir2phy,
      Nat.zero_add]
    rw [afterProt, StartState.mk.injEq]
    refine ⟨rfl, ?_, rfl, rfl, rfl⟩
    funext q
    exact if_pos q.isLt

theorem afterProt_gdt_of_ne {i : Nat} (hi : i ≠ indexTss) :
    (afterProt y s).gdt i = gdtUpTo y s.gdt nrSlots i := by
  rw [afterProt]
  exact Function.update_of_ne hi _ _

theorem FlatGdt.prot (h : FlatGdt s.gdt) : FlatGdt (afterProt y s).gdt := by
  have hgdt := h.upTo (y := y) nrSlots
  exact ⟨(afterProt_gdt_of_ne (by decide)).trans hgdt.code,
    (afterProt_gdt_of_ne (by decide)).trans hgdt.data⟩

end InitProt

section StartProcs

variable {y : Symbols} {s : StartState} {p : Pid} {base limit : Nat}

/-- The registers with which a task or a native process starts. -/
def startRegs (y : Symbols) (p : Pid) : StackFrame :=
  StackFrame.start {} (if p.val < nrTasks then saRpl1 else saRpl3)
    (if p.val < nrTasks then 0x1202 else 0x202) (y.entry p).initialEip
    (y.taskStack + BitVec.ofNat 32 (stackSizeTotal - p * stackSize))

/-- The entry of `p` after `init_prot` and `kernel_main`. -/
def startedPcb (y : Symbols) (kernelEnd : Nat) (p : Pid) : Pcb :=
  if nrTasks + nrNativeProcs ≤ p.val then
    { ldtSel := ldtSelector p, ipc := kernelMainTable p }
  else
    { regs := startRegs y p
      ldtSel := ldtSelector p
      ldts := kernelMainLdt kernelEnd p
      ticks := if p.val < nrTasks then 15 else 5
      priority := if p.val < nrTasks then 15 else 5
      pName := kernelMainNames p
      ipc := kernelMainTable p }

theorem entry_eq (hp : p.val < nrTasks + nrNativeProcs) :
    (y.entry p).stacksize = stackSize ∧ (y.entry p).name = taskNames.getD p.val "" := by
  have hlt : p.val < 7 := hp
  obtain ⟨i, hi⟩ := p
  dsimp only at hlt
  interval_cases i <;> exact ⟨rfl, rfl⟩

theorem putBytes_terminated (l : List UInt8) :
    putBytes (fun _ => 0) 0 (l ++ [0]) = putBytes (fun _ => 0) 0 l := by
  rw [putBytes_append]
  funext i
  by_cases hi : i = 0 + l.length
  · subst hi
    have hlast : putBytes (putBytes (fun _ => 0) 0 l) (0 + l.length) [0] (0 + l.length + 0) = 0 :=
      putBytes_add (Nat.zero_lt_one)
    rw [Nat.add_zero] at hlast
    rw [hlast, putBytes_of_ge (Nat.le_refl _)]
  · rcases Nat.lt_or_gt_of_ne hi with hlt | hgt
    · rw [putBytes_of_lt hlt]
    · rw [putBytes_of_ge hgt]

theorem copiedSegments_eq {gdt : Nat → Descriptor} (h : FlatGdt gdt) (privilege : Nat) :
    copiedSegments gdt privilege = flatLdt privilege := by
  have hcode : gdt (selectorKernelCs >>> 3) = _ := h.code
  have hdata : gdt (selectorKernelDs >>> 3) = _ := h.data
  rw [copiedSegments, flatLdt, hcode, hdata]

theorem startProc_spec (hflat : FlatGdt s.gdt)
    (hclear : s.procTable p = { ldtSel := ldtSelector p })
    (hstack : p.val < nrTasks + nrNativeProcs →
      s.pStack = y.taskStack + BitVec.ofNat 32 (stackSizeTotal - p * stackSize)) :
    wp (startProc y (some (base, limit)) p)
      (fun _ t => t = { s with
        procTable := Function.update s.procTable p (startedPcb y (base + limit) p)
        pStack := if p.val < nrTasks + nrNativeProcs then s.pStack - BitVec.ofNat 32 stackSize
          else s.pStack })
      (fun _ _ => False) s := by
  rw [startProc, wp_ite]
  refine ⟨fun hfree => ?_, fun hnative => ?_⟩
  · rw [wp_modify, StartState.setPcb, hclear, startedPcb, if_pos hfree, if_neg (by omega),
      kernelMainTable, if_pos hfree]
  · have hlt : p.val < nrTasks + nrNativeProcs := by omega
    obtain ⟨hsize, hname⟩ := entry_eq (y := y) hlt
    have hregs : startedPcb y (base + limit) p =
        { regs := startRegs y p
          ldtSel := ldtSelector p
          ldts := kernelMainLdt (base + limit) p
          ticks := if p.val < nrTasks then 15 else 5
          priority := if p.val < nrTasks then 15 else 5
          pName := kernelMainNames p
          ipc := nativeProcess } := by
      rw [startedPcb, if_neg hnative, kernelMainTable, if_neg hnative]
    rw [if_pos hlt, hregs]
    by_cases hinit : p.val = nrTasks
    · have hp : p = init := Fin.ext hinit
      have hldt : kernelMainLdt (base + limit) p = initSegments privilegeUser base limit := by
        rw [kernelMainLdt, if_neg hnative, if_pos hp, userLdt, initSegments]
      have htask : ¬ p.val < nrTasks := by omega
      simp only [if_pos hinit, wp_bind, wp_modify, StartState.setPcb, Function.update_self,
        Function.update_idem, hsize, hname, hclear, hstack hlt, putBytes_terminated, startRegs,
        if_neg htask, hldt]
      rfl
    · have hldt : kernelMainLdt (base + limit) p =
          copiedSegments s.gdt (if p.val < nrTasks then privilegeTask else privilegeUser) := by
        have hp : p ≠ init := fun h => hinit (congrArg Fin.val h)
        rw [kernelMainLdt, if_neg hnative, if_neg hp, copiedSegments_eq hflat]
      simp only [if_neg hinit, wp_bind, wp_modify, StartState.setPcb, Function.update_self,
        Function.update_idem, hsize, hname, hclear, hstack hlt, putBytes_terminated, startRegs,
        hldt]
      rfl

/-- What is left of the stacks in front of the process `n`. -/
def stacksFrom (y : Symbols) (n : Nat) : Word :=
  y.taskStack + BitVec.ofNat 32 (stackSizeTotal - min n (nrTasks + nrNativeProcs) * stackSize)

theorem startProcs_spec (hflat : FlatGdt s.gdt)
    (hclear : ∀ p, s.procTable p = { ldtSel := ldtSelector p }) :
    wp (startProcs y (some (base, limit)))
      (fun _ t => t = { s with
        procTable := startedPcb y (base + limit), pStack := stacksFrom y nrSlots })
      (fun _ _ => False) s := by
  rw [startProcs, wp_bind, wp_modify]
  apply wp_eachProc (I := fun n t => t = { s with
    procTable := fun p => if p.val < n then startedPcb y (base + limit) p else s.procTable p
    pStack := stacksFrom y n })
  · simp [stacksFrom]
  · rintro p t rfl
    apply wp_mono (@startProc_spec y _ p base limit ?_ ?_ ?_)
    · rintro _ t rfl
      rw [StartState.mk.injEq]
      refine ⟨rfl, ?_, rfl, rfl, ?_⟩
      · exact update_filled _ _ p
      · by_cases hlt : p.val < nrTasks + nrNativeProcs
        · have hlt' : p.val < 7 := hlt
          rw [if_pos hlt, stacksFrom, stacksFrom, min_eq_left (by omega), min_eq_left (by omega)]
          have hsize : stackSizeTotal = 7 * 0xA000 ∧ stackSize = 0xA000 := ⟨rfl, rfl⟩
          rw [hsize.1, hsize.2]
          bv_omega
        · rw [if_neg hlt, stacksFrom, stacksFrom, min_eq_right (by omega),
            min_eq_right (by omega)]
    · exact fun _ _ h => h
    · exact hflat
    · change (if p.val < p.val then _ else s.procTable p) = _
      rw [if_neg (Nat.lt_irrefl _), hclear]
    · intro hlt
      change stacksFrom y p = _
      rw [stacksFrom, min_eq_left (by omega)]
  · rintro t rfl
    rw [StartState.mk.injEq]
    refine ⟨rfl, ?_, rfl, rfl, rfl⟩
    funext p
    exact if_pos p.isLt

end StartProcs

/-- `p_flags` as a number. -/
def Flags.value (f : Flags) : Int :=
  (if f.sending then 0x02 else 0) + (if f.receiving then 0x04 else 0) +
    (if f.waiting then 0x08 else 0) + (if f.hanging then 0x10 else 0) +
    if f.freeSlot then 0x20 else 0

/-- What the scheduler reads of an entry. -/
def Pcb.timed (q : Pcb) : TimedProc Unit where
  pFlags := q.ipc.pFlags.value
  ticks := q.ticks
  priority := q.priority
  rest := ()

/-- The addresses of the stack that `p_stack` leaves to a process. -/
def Pcb.stack (q : Pcb) : Set Nat := Set.Ico (q.regs.esp.toNat - stackSize) q.regs.esp.toNat

/-- Nothing that the linker has placed reaches the end of the memory. -/
structure Symbols.Fits (y : Symbols) : Prop where
  table : y.procTable.toNat + nrSlots * procSize ≤ 2 ^ 32
  stack : y.taskStack.toNat + stackSizeTotal < 2 ^ 32

/-- What the rest of the system finds when the first process starts. -/
structure ReadyToRun (y : Symbols) (kernelEnd : Nat) (gdt : Nat → Descriptor) (t : StartState) :
    Prop where
  ipc : ∀ p, (t.procTable p).ipc = kernelMainTable p
  ldts : ∀ p, (t.procTable p).ldts = kernelMainLdt kernelEnd p
  names : ∀ p, (t.procTable p).pName = kernelMainNames p
  files : ∀ p j, (t.procTable p).filp j = none
  schedulable : Schedulable fun p => (t.procTable p).timed
  runnable : ∀ p, Runnable (fun p => (t.procTable p).timed) p ↔ p.val < nrTasks + nrNativeProcs
  ticks : ∀ p, p.val < nrTasks + nrNativeProcs → 0 < (t.procTable p).ticks
  local_base : ∀ p, seg2addr t.gdt (t.procTable p).ldtSel.toNat = y.ldts p
  local_limit : ∀ p, (t.gdt ((t.procTable p).ldtSel.toNat >>> 3)).limitT =
    descriptorSize * ldtSize - 1
  tss : seg2addr t.gdt (indexTss <<< 3) = y.tss.toNat
  loader : ∀ i, i < indexTss → t.gdt i = gdt i
  stack_in : ∀ p, p.val < nrTasks + nrNativeProcs →
    (t.procTable p).stack ⊆ Set.Ico y.taskStack.toNat (y.taskStack.toNat + stackSizeTotal)
  stack_apart : ∀ p q, p.val < nrTasks + nrNativeProcs → q.val < nrTasks + nrNativeProcs → p ≠ q →
    Disjoint (t.procTable p).stack (t.procTable q).stack

section Ready

variable {y : Symbols} {s t : StartState} {p q : Pid} {base limit kernelEnd : Nat}

theorem startedPcb_ipc : (startedPcb y kernelEnd p).ipc = kernelMainTable p := by
  unfold startedPcb
  split <;> rfl

theorem startedPcb_ldtSel : (startedPcb y kernelEnd p).ldtSel = ldtSelector p := by
  unfold startedPcb
  split <;> rfl

theorem startedPcb_filp (j : Fin nrFiles) : (startedPcb y kernelEnd p).filp j = none := by
  unfold startedPcb
  split <;> rfl

theorem startedPcb_ldts : (startedPcb y kernelEnd p).ldts = kernelMainLdt kernelEnd p := by
  unfold startedPcb
  split
  · rename_i h
    rw [kernelMainLdt, if_pos h]
  · rfl

theorem startedPcb_pName : (startedPcb y kernelEnd p).pName = kernelMainNames p := by
  unfold startedPcb
  split
  · rename_i h
    have hlen : taskNames.length ≤ p.val := h
    have hnone : taskNames.getD p.val "" = "" := List.getD_eq_default _ _ hlen
    rw [kernelMainNames, hnone]
    exact putBytes_nil.symm
  · rfl

theorem startedPcb_of_lt (h : p.val < nrTasks + nrNativeProcs) :
    (startedPcb y kernelEnd p).regs = startRegs y p ∧
      (startedPcb y kernelEnd p).ticks = (startedPcb y kernelEnd p).priority ∧
      0 < (startedPcb y kernelEnd p).priority := by
  rw [startedPcb, if_neg (Nat.not_le.mpr h)]
  refine ⟨rfl, rfl, ?_⟩
  change 0 < if p.val < nrTasks then (15 : Int) else 5
  split <;> decide

theorem startedPcb_runnable : Runnable (fun p => (startedPcb y kernelEnd p).timed) p ↔
    p.val < nrTasks + nrNativeProcs := by
  have hflags : Runnable (fun p => (startedPcb y kernelEnd p).timed) p ↔
      (kernelMainTable p).pFlags.value = 0 := by
    rw [← startedPcb_ipc (y := y)]
    exact Iff.rfl
  rw [hflags, kernelMainTable]
  split
  · rename_i h
    exact iff_of_false (by decide) (Nat.not_lt.mpr h)
  · rename_i h
    exact iff_of_true rfl (Nat.not_le.mp h)

theorem startRegs_esp (hfits : y.Fits) (h : p.val < nrTasks + nrNativeProcs) :
    (startRegs y p).esp.toNat = y.taskStack.toNat + (7 - p.val) * stackSize := by
  have hstack := hfits.stack
  have hlt : p.val < 7 := h
  change (y.taskStack + BitVec.ofNat 32 (stackSizeTotal - p * stackSize)).toNat = _
  have hsize : stackSizeTotal = 7 * 0xA000 ∧ stackSize = 0xA000 := ⟨rfl, rfl⟩
  rw [hsize.1] at hstack
  rw [hsize.1, hsize.2, BitVec.toNat_add, BitVec.toNat_ofNat]
  omega

theorem startedPcb_stack (hfits : y.Fits) (h : p.val < nrTasks + nrNativeProcs) :
    (startedPcb y kernelEnd p).stack =
      Set.Ico (y.taskStack.toNat + (6 - p.val) * stackSize)
        (y.taskStack.toNat + (7 - p.val) * stackSize) := by
  have hlt : p.val < 7 := h
  have hsize : stackSize = 0xA000 := rfl
  have hlow : y.taskStack.toNat + (7 - p.val) * 0xA000 - 0xA000 =
      y.taskStack.toNat + (6 - p.val) * 0xA000 := by omega
  rw [Pcb.stack, (startedPcb_of_lt h).1, startRegs_esp hfits h, hsize, hlow]

theorem ldtSelector_index (p : Pid) : (ldtSelector p).toNat >>> 3 = indexLdtFirst + p := by
  have hp : p.val < 37 := p.isLt
  have hindex : indexLdtFirst = 5 := rfl
  rw [ldtSelector, BitVec.toNat_ofNat, Nat.shiftLeft_eq, Nat.shiftRight_eq_div_pow, hindex]
  omega

theorem afterProt_ldt (s : StartState) (p : Pid) :
    (afterProt y s).gdt (indexLdtFirst + p) = ldtDescriptor y p := by
  have hindex : indexLdtFirst = 5 ∧ indexTss = 4 := ⟨rfl, rfl⟩
  have hp := p.isLt
  rw [afterProt_gdt_of_ne (by omega), gdtUpTo, dif_pos (by omega)]
  congr 1
  apply Fin.ext
  change indexLdtFirst + p.val - indexLdtFirst = p.val
  omega

theorem afterProt_tss (s : StartState) : (afterProt y s).gdt indexTss =
    initDescriptor (y.tss.toNat % 0x100000000) (tssSize - 1) da386Tss := by
  have hgdt : (afterProt y s).gdt = Function.update (gdtUpTo y s.gdt nrSlots) indexTss
      (initDescriptor (y.tss.toNat % 0x100000000) (tssSize - 1) da386Tss) := rfl
  rw [hgdt, Function.update_self]

theorem ldts_lt (hfits : y.Fits) : y.ldts p < 0x100000000 := by
  have htable := hfits.table
  have hp : p.val < 37 := p.isLt
  have hsize : procSize = 2440 ∧ frameSize = 74 ∧ nrSlots = 37 := ⟨rfl, rfl, rfl⟩
  rw [hsize.1, hsize.2.2] at htable
  rw [Symbols.ldts, hsize.1, hsize.2.1]
  omega

theorem start_eq (hflat : FlatGdt s.gdt) :
    (do
      initProt y
      startProcs y (some (base, limit))) s = .ok () { afterProt y s with
        procTable := startedPcb y (base + limit), pStack := stacksFrom y nrSlots } := by
  have hspec : wp (do
      initProt y
      startProcs y (some (base, limit)))
      (fun _ t => t = { afterProt y s with
        procTable := startedPcb y (base + limit), pStack := stacksFrom y nrSlots })
      (fun _ _ => False) s := by
    rw [wp_bind]
    apply wp_mono (initProt_spec hflat)
    · rintro _ t rfl
      exact startProcs_spec hflat.prot fun _ => rfl
    · exact fun _ _ h => h
  obtain ⟨_, t, hok, rfl⟩ := exists_ok_of_wp hspec
  exact hok

/-- After `init_prot` and the loop of `kernel_main` the table is the one that the messages, the
segments, the names and the scheduler start from, every slot has a local table of its own that its
selector leads to, and every process a stack of its own. -/
theorem start_ready (hfits : y.Fits) (hflat : FlatGdt s.gdt) :
    ∃ t, (do
        initProt y
        startProcs y (some (base, limit))) s = .ok () t ∧
      t.procTable = startedPcb y (base + limit) ∧ ReadyToRun y (base + limit) s.gdt t := by
  refine ⟨_, start_eq hflat, rfl, ?_⟩
  exact
    { ipc := fun _ => startedPcb_ipc
      ldts := fun _ => startedPcb_ldts
      names := fun _ => startedPcb_pName
      files := fun _ j => startedPcb_filp j
      schedulable := ⟨⟨taskSys, startedPcb_runnable.mpr (by decide)⟩, fun p hp =>
        (startedPcb_of_lt (startedPcb_runnable.mp hp)).2.2⟩
      runnable := fun _ => startedPcb_runnable
      ticks := fun p hp => by
        obtain ⟨-, hticks, hprio⟩ := @startedPcb_of_lt y p (base + limit) hp
        exact hticks ▸ hprio
      local_base := fun p => by
        change seg2addr (afterProt y s).gdt (startedPcb y (base + limit) p).ldtSel.toNat = _
        rw [startedPcb_ldtSel, seg2addr_eq, ldtSelector_index, afterProt_ldt, ldtDescriptor,
          Nat.mod_eq_of_lt (ldts_lt hfits)]
        exact Descriptor.base_initDescriptor (ldts_lt hfits)
      local_limit := fun p => by
        change ((afterProt y s).gdt ((startedPcb y (base + limit) p).ldtSel.toNat >>> 3)).limitT = _
        rw [startedPcb_ldtSel, ldtSelector_index, afterProt_ldt, ldtDescriptor,
          Descriptor.limitT_initDescriptor]
        rfl
      tss := by
        have htss : y.tss.toNat < 0x100000000 := y.tss.isLt
        rw [seg2addr_eq]
        change ((afterProt y s).gdt indexTss).base = _
        rw [afterProt_tss, Nat.mod_eq_of_lt htss]
        exact Descriptor.base_initDescriptor htss
      loader := fun i hi => by
        have hindex : indexLdtFirst = 5 ∧ indexTss = 4 := ⟨rfl, rfl⟩
        exact (afterProt_gdt_of_ne (by omega)).trans (gdtUpTo_of_lt y s.gdt nrSlots (by omega))
      stack_in := fun p hp => by
        have hlt : p.val < 7 := hp
        have hsize : stackSizeTotal = 7 * stackSize := rfl
        change (startedPcb y (base + limit) p).stack ⊆ _
        rw [startedPcb_stack hfits hp, hsize]
        apply Set.Ico_subset_Ico
        · omega
        · gcongr
          omega
      stack_apart := fun p q hp hq hne => by
        have hp7 : p.val < 7 := hp
        have hq7 : q.val < 7 := hq
        have hval : p.val ≠ q.val := fun h => hne (Fin.ext h)
        have hsize : stackSize = 0xA000 := rfl
        change Disjoint (startedPcb y (base + limit) p).stack (startedPcb y (base + limit) q).stack
        rw [startedPcb_stack hfits hp, startedPcb_stack hfits hq, Set.Ico_disjoint_Ico, hsize]
        omega }

def sampleSymbols : Symbols where
  procTable := 0x30000
  taskStack := 0x60000
  tss := 0x58000
  taskSys := 0x30400
  taskTty := 0x30500
  taskHd := 0x30600
  taskFs := 0x30700
  taskMm := 0x30800
  init := 0x30900
  testA := 0x30A00

def sampleStart : StartState where
  gdt := loaderGdt
  procTable := fun _ => {}
  tssSs0 := 0
  tssIobase := 0
  pStack := 0

theorem start_ready_sample : ∃ t, (do
      initProt sampleSymbols
      startProcs sampleSymbols (some (0x30000, 0x80000))) sampleStart = .ok () t ∧
    t.procTable = startedPcb sampleSymbols 0xB0000 ∧
    ReadyToRun sampleSymbols 0xB0000 loaderGdt t :=
  start_ready ⟨by decide, by decide⟩ loaderGdt_flat

end Ready

/-- The registers of an entry as those of interrupted code. -/
def StackFrame.context (f : StackFrame) (ldt : BitVec 16) : Context where
  gs := f.gs.setWidth 16
  fs := f.fs.setWidth 16
  es := f.es.setWidth 16
  ds := f.ds.setWidth 16
  edi := f.edi
  esi := f.esi
  ebp := f.ebp
  ebx := f.ebx
  edx := f.edx
  ecx := f.ecx
  eax := f.eax
  eip := f.eip
  cs := f.cs.setWidth 16
  eflags := f.eflags
  esp := f.esp
  ss := f.ss.setWidth 16
  ldt := ldt

/-- The table is what the memory has where the stubs look for it. -/
structure InMemory (k : KernelPlaces) (table : Pid → Pcb) (m : Mem32) : Prop where
  regs : ∀ p, HoldsWords m (k.frame p) (table p).regs.words
  ldtSel : ∀ p, load16 m (k.frame p + 72) = (table p).ldtSel

/-- The bytes of a table, of which nothing behind `ldt_sel` is for the stubs. -/
def tableByte (table : Pid → Pcb) (off : Nat) : BitVec 8 :=
  if h : off / procSize < nrSlots then
    let q := table ⟨off / procSize, h⟩
    let o := off % procSize
    if o < 72 then (q.regs.words.getD (o / 4) 0).extractLsb' (8 * (o % 4)) 8
    else if o < frameSize then q.ldtSel.extractLsb' (8 * (o - 72)) 8
    else 0
  else 0

def tableMemory (k : KernelPlaces) (table : Pid → Pcb) : Mem32 := fun x =>
  tableByte table (x - k.procTable).toNat

/-- The event puts registers of its own choice into the entry of `q`, or `q` is switched to. -/
def Event.Touches (q : Pid) : Event → Prop
  | .install p _ _ => p = q
  | .switch p _ => p = q
  | _ => False

section FirstSwitch

variable {k : KernelPlaces} {y : Symbols} {m : Mem32} {table : Pid → Pcb} {p q : Pid} {v w : View}
  {l : List Event} {base limit : Nat}

theorem InMemory.saved (h : InMemory k table m) (p : Pid) :
    Context.saved m (k.frame p) = (table p).regs.context (table p).ldtSel := by
  have hwords := h.regs p
  have hldt := h.ldtSel p
  simp only [StackFrame.words, holdsWords_cons, BitVec.add_assoc, BitVec.reduceAdd,
    BitVec.ofNat_eq_ofNat] at hwords hldt
  obtain ⟨hgs, hfs, hes, hds, hedi, hesi, hebp, -, hebx, hedx, hecx, heax, -, heip, hcs, heflags,
    hesp, hss, -⟩ := hwords
  simp only [Context.saved, StackFrame.context, hldt, hgs, hfs, hes, hds, hedi, hesi, hebp,
    hebx, hedx, hecx, heax, heip, hcs, heflags, hesp, hss, BitVec.ofNat_eq_ofNat]

theorem tableMemory_frame (k : KernelPlaces) (table : Pid → Pcb) (p : Pid) {o : Nat}
    (ho : o < procSize) : tableMemory k table (k.frame p + BitVec.ofNat 32 o) =
      if o < 72 then ((table p).regs.words.getD (o / 4) 0).extractLsb' (8 * (o % 4)) 8
      else if o < frameSize then (table p).ldtSel.extractLsb' (8 * (o - 72)) 8
      else 0 := by
  have hp : p.val < 37 := p.isLt
  have hsize : procSize = 2440 := rfl
  have hoff : (k.frame p + BitVec.ofNat 32 o - k.procTable).toNat = p * procSize + o := by
    rw [KernelPlaces.frame, hsize]
    rw [hsize] at ho
    bv_omega
  have hdiv : (p * procSize + o) / procSize = p := by
    rw [hsize] at ho ⊢
    omega
  have hmod : (p * procSize + o) % procSize = o := by
    rw [hsize] at ho ⊢
    omega
  rw [tableMemory, hoff, tableByte, dif_pos (hdiv.symm ▸ p.isLt)]
  simp only [hdiv, hmod]

theorem inMemory_tableMemory (k : KernelPlaces) (table : Pid → Pcb) :
    InMemory k table (tableMemory k table) := by
  have hsize : procSize = 2440 := rfl
  constructor
  · intro p i hi
    have hlen : i < 18 := hi
    have hbyte : ∀ j < 4, tableMemory k table
        (k.frame p + BitVec.ofNat 32 (4 * i) + BitVec.ofNat 32 j) =
          ((table p).regs.words[i]).extractLsb' (8 * j) 8 := by
      intro j hj
      have hplace : k.frame p + BitVec.ofNat 32 (4 * i) + BitVec.ofNat 32 j =
          k.frame p + BitVec.ofNat 32 (4 * i + j) := by
        rw [BitVec.add_assoc, BitVec.ofNat_add]
      have hdiv : (4 * i + j) / 4 = i := by omega
      have hmod : (4 * i + j) % 4 = j := by omega
      rw [hplace, tableMemory_frame k table p (by omega), if_pos (by omega), hdiv, hmod,
        List.getD_eq_getElem _ _ hi]
      rfl
    have hfirst := hbyte 0 (by decide)
    rw [BitVec.add_zero] at hfirst
    rw [load32, hfirst]
    exact (congrArg₂ _ (congrArg₂ _ (congrArg₂ _ (hbyte 3 (by decide)) (hbyte 2 (by decide)))
      (hbyte 1 (by decide))) rfl).trans (append_extractLsb' _)
  · intro p
    have hlow := tableMemory_frame k table p (o := 72) (by omega)
    have hhigh := tableMemory_frame k table p (o := 73) (by omega)
    have hplace : k.frame p + 72 + 1 = k.frame p + BitVec.ofNat 32 73 := by bv_omega
    rw [if_neg (by decide), if_pos (by decide)] at hlow hhigh
    rw [load16, hplace, hhigh]
    exact (congrArg₂ _ rfl hlow).trans (append_extractLsb'_half _)

theorem ViewStep.untouched {e : Event} (h : ViewStep v e w) (hq : v.running ≠ q)
    (he : ¬ e.Touches q) : w.ctx q = v.ctx q ∧ w.running ≠ q := by
  cases h with
  | run x => exact ⟨Function.update_of_ne hq.symm _ _, hq⟩
  | @install _ p r _ x y =>
    have hr : q ≠ r := fun h => he h.symm
    refine ⟨?_, hq⟩
    exact (Function.update_of_ne hr _ _).trans (Function.update_of_ne hq.symm _ _)
  | answer u => exact ⟨Function.update_of_ne hq.symm _ _, hq⟩
  | switch p => exact ⟨rfl, he⟩
  | interrupt _ => exact ⟨rfl, hq⟩
  | nested _ _ => exact ⟨rfl, hq⟩
  | trap => exact ⟨rfl, hq⟩
  | work => exact ⟨rfl, hq⟩
  | resume => exact ⟨rfl, hq⟩

theorem view_untouched (h : Run ViewStep v l w) (hq : v.running ≠ q)
    (hl : ∀ e ∈ l, ¬ e.Touches q) : w.ctx q = v.ctx q ∧ w.running ≠ q := by
  induction h with
  | nil => exact ⟨rfl, hq⟩
  | @snoc l u w e _ hstep ih =>
    obtain ⟨hctx, hrun⟩ := ih fun e he => hl e (List.mem_append_left _ he)
    obtain ⟨hctx', hrun'⟩ := hstep.untouched hrun (hl e (by simp))
    exact ⟨hctx'.trans hctx, hrun'⟩

/-- The registers with which a task or a native process runs for the first time. -/
def startContext (y : Symbols) (p : Pid) : Context where
  gs := if p.val < nrTasks then 24 + 1 else 24 + 3
  fs := if p.val < nrTasks then 12 + 1 else 12 + 3
  es := if p.val < nrTasks then 12 + 1 else 12 + 3
  ds := if p.val < nrTasks then 12 + 1 else 12 + 3
  edi := 0
  esi := 0
  ebp := 0
  ebx := 0
  edx := 0
  ecx := 0
  eax := 0
  eip := (y.entry p).initialEip
  cs := if p.val < nrTasks then 4 + 1 else 4 + 3
  eflags := if p.val < nrTasks then 0x1202 else 0x202
  esp := y.taskStack + BitVec.ofNat 32 (stackSizeTotal - p * stackSize)
  ss := if p.val < nrTasks then 12 + 1 else 12 + 3
  ldt := ldtSelector p

theorem startRegs_context (y : Symbols) (p : Pid) :
    (startRegs y p).context (ldtSelector p) = startContext y p := by
  rw [startContext, startRegs]
  split <;> rfl

theorem startContext_outside (y : Symbols) (p : Pid) :
    selectorRing (startContext y p).cs ≠ 0 := by
  change selectorRing (if p.val < nrTasks then 4 + 1 else 4 + 3) ≠ 0
  split <;> decide

/-- The machine in front of the first `restart`. -/
structure Booted (k : KernelPlaces) (table : Pid → Pcb) (b : Board) : Prop where
  memory : InMemory k table b.cpu.mem
  ring : b.cpu.ring = 0
  ssBase : b.cpu.ssBase = 0
  kReenter : b.cpu.kReenter = 0
  ready : b.cpu.pProcReady = k.frame taskSys

theorem Booted.saved {b : Board} (h : Booted k (startedPcb y (base + limit)) b)
    (hp : p.val < nrTasks + nrNativeProcs) :
    Context.saved b.cpu.mem (k.frame p) = startContext y p := by
  rw [h.memory.saved, startedPcb_ldtSel, (startedPcb_of_lt hp).1, startRegs_context]

theorem Booted.started {b : Board} (h : Booted k (startedPcb y (base + limit)) b) :
    KernelStarted k b taskSys := by
  refine ⟨h.ring, h.ssBase, h.kReenter, h.ready, ?_⟩
  rw [h.saved (by decide)]
  exact startContext_outside y taskSys

/-- `task_sys` runs first, from its entry point on. Every other task and native process begins at its
own entry point too, on its own stack and at its privilege level, however long it takes until it is
switched to and whatever happens before. -/
theorem first_switch_of_run {s u : StartState} {b₀ b : Board} (hflat : FlatGdt s.gdt)
    (hstart : (do
      initProt y
      startProcs y (some (base, limit))) s = .ok () u)
    (hboot : Booted k u.procTable b₀) (hrestart : Trap.restart k b₀ = .ok () b) :
    b.context = startContext y taskSys ∧
    ∀ (l : List Event) (q : Pid) (x : Context) (t : System),
      Run (SystemStep k) ⟨b, []⟩ (l ++ [.switch q x]) t → q ≠ taskSys →
      q.val < nrTasks + nrNativeProcs → (∀ e ∈ l, ¬ e.Touches q) → x = startContext y q := by
  rw [start_eq hflat] at hstart
  cases hstart
  have h := hboot.started
  refine ⟨?_, fun l q x t hrun hq hnative hl => ?_⟩
  · obtain ⟨b', hok', -, hat⟩ := h.atProcess
    rw [hok'] at hrestart
    cases hrestart
    exact hat.context.trans (hboot.saved (by decide))
  · obtain ⟨w, hview, -⟩ := (h.shows hrestart).run hrun
    obtain ⟨v, hbefore, hlast⟩ := hview.last
    obtain ⟨hctx, -⟩ := view_untouched hbefore hq.symm hl
    have hx : x = v.ctx q := by
      cases hlast
      rfl
    rw [hx, hctx]
    exact hboot.saved hnative

def sampleBooted : Board where
  cpu := { clearCpu with
    ring := kernelRing
    mem := tableMemory samplePlaces (startedPcb sampleSymbols 0xB0000)
    kReenter := 0
    pProcReady := samplePlaces.frame taskSys }
  ldtr := 0
  imr := fun _ => 0

theorem sampleBooted_booted :
    Booted samplePlaces (startedPcb sampleSymbols (0x30000 + 0x80000)) sampleBooted :=
  ⟨inMemory_tableMemory _ _, rfl, rfl, rfl, rfl⟩

/-- The clock interrupts `task_sys`, and `task_tty` is next. -/
theorem first_switch_of_run_tty : ∃ (b : Board) (t : System) (x z : Context),
    Trap.restart samplePlaces sampleBooted = .ok () b ∧
    b.context = startContext sampleSymbols taskSys ∧
    Run (SystemStep samplePlaces) ⟨b, []⟩ [.interrupt 0 x, .work, .switch taskTty z] t ∧
    z = startContext sampleSymbols taskTty := by
  have hboot := sampleBooted_booted
  have hflag : load32 sampleBooted.cpu.mem (samplePlaces.frame taskSys + 60) &&& interruptFlag ≠
      0 := by
    have heflags : load32 sampleBooted.cpu.mem (samplePlaces.frame taskSys + 60) = 0x1202 :=
      congrArg Context.eflags (hboot.saved (p := taskSys) (by decide))
    rw [heflags]
    decide
  have hline : sampleBooted.Unmasked 0 := by
    rw [Board.Unmasked]
    decide
  have htty : selectorRing
      (Context.saved sampleBooted.cpu.mem (samplePlaces.frame taskTty)).cs ≠ 0 := by
    rw [hboot.saved (by decide)]
    exact startContext_outside _ _
  obtain ⟨b, t, x, z, hrestart, hrun⟩ := hboot.started.switch hflag hline htty
  obtain ⟨hfirst, hnext⟩ := first_switch_of_run loaderGdt_flat
    (@start_eq sampleSymbols sampleStart 0x30000 0x80000 loaderGdt_flat) hboot hrestart
  refine ⟨b, t, x, z, hrestart, hfirst, hrun, ?_⟩
  exact hnext [.interrupt 0 x, .work] taskTty z t hrun (by decide) (by decide)
    (by simp [Event.Touches])

end FirstSwitch

end BazingaOS
