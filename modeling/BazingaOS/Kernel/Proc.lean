import BazingaOS.Lib.Prog

/-!
# Process table

The constants of `include/sys/const.h`, the message format of `include/type.h` and the part of
`struct s_proc` (`include/sys/proc.h`) that the IPC primitives and the process life cycle read
and write. Register frames, descriptors, names and open files are fields of other modules'
states.
-/

namespace BazingaOS

def nrTasks : Nat := 5
def nrProcs : Nat := 32
def nrNativeProcs : Nat := 2

/-- `MAX_PATH` of `include/stdio.h`. -/
def maxPath : Nat := 128

def nrSlots : Nat := nrTasks + nrProcs

theorem nrSlots_pos : 0 < nrSlots := by decide
theorem five_lt_nrSlots : 5 < nrSlots := by decide
theorem six_lt_nrSlots : 6 < nrSlots := by decide
theorem seven_lt_nrSlots : 7 < nrSlots := by decide

theorem toNat_lt_nrSlots {nr : Int} (h : 0 ≤ nr ∧ nr.toNat < nrSlots) : nr.toNat < nrSlots :=
  h.2

/-- An index into `proc_table`. -/
abbrev Pid := Fin nrSlots

def taskSys : Pid := ⟨0, by decide⟩
def taskTty : Pid := ⟨1, by decide⟩
def taskHd : Pid := ⟨2, by decide⟩
def taskFs : Pid := ⟨3, by decide⟩
def taskMm : Pid := ⟨4, by decide⟩
def init : Pid := ⟨5, by decide⟩

/-- A process number or one of the reserved numbers `ANY`, `INTERRUPT` and `NO_TASK`. -/
inductive Endpoint where
  | proc (p : Pid)
  | any
  | interrupt
  | noTask
deriving DecidableEq, Repr

/-- `enum msgtype`; a message may carry any other number in its type field. -/
inductive MsgType where
  | hardInt
  | getTicks | getPid | getRtcTime
  | open | close | read | write | lseek | stat | unlink
  | suspendProc | resumeProc
  | exec | wait
  | fork | exit
  | syscallRet
  | devOpen | devClose | devRead | devWrite | devIoctl
  | other (n : Int)
deriving DecidableEq, Repr

/-- `MESSAGE`, with the fields of its `m3` variant. The defaults are those of `reset_msg`. -/
structure Message where
  source : Endpoint := .proc taskSys
  type : MsgType := .other 0
  m3i1 : Int := 0
  m3i2 : Int := 0
  m3i3 : Int := 0
  m3i4 : Int := 0
  m3l1 : Nat := 0
  m3l2 : Nat := 0
  m3p1 : Nat := 0
  m3p2 : Nat := 0
deriving DecidableEq, Repr

/-- `p_flags`, one field for each bit that `const.h` names. -/
structure Flags where
  sending : Bool := false
  receiving : Bool := false
  waiting : Bool := false
  hanging : Bool := false
  freeSlot : Bool := false
deriving DecidableEq, Repr

instance : Zero Flags := ⟨{}⟩

@[simp] theorem Flags.zero_sending : (0 : Flags).sending = false := rfl
@[simp] theorem Flags.zero_receiving : (0 : Flags).receiving = false := rfl
@[simp] theorem Flags.zero_waiting : (0 : Flags).waiting = false := rfl
@[simp] theorem Flags.zero_hanging : (0 : Flags).hanging = false := rfl
@[simp] theorem Flags.zero_freeSlot : (0 : Flags).freeSlot = false := rfl

/-- The value of `p_flags` of a slot that `do_fork` may take. -/
def Flags.free : Flags := { freeSlot := true }

abbrev Addr := Nat

/-- The defaults are the zeros of `.bss`, which a slot keeps that `kernel_main` skips. -/
structure Process where
  pFlags : Flags := {}
  pMsg : Option Addr := none
  pRecvfrom : Endpoint := .proc taskSys
  pSendto : Endpoint := .proc taskSys
  hasIntMsg : Bool := false
  qSending : Option Pid := none
  nextSending : Option Pid := none
  pParent : Endpoint := .proc taskSys
  exitStatus : Int := 0
deriving DecidableEq, Repr

/-- The process table, and for each process the messages in its own address space. `va2la`
sends a process and an address to one place of memory, and the live message buffers of two
processes are different objects. -/
structure Kernel where
  procTable : Pid → Process
  mem : Pid → Addr → Message

namespace Kernel

def setProc (k : Kernel) (p : Pid) (f : Process → Process) : Kernel :=
  { k with procTable := Function.update k.procTable p (f (k.procTable p)) }

def setMem (k : Kernel) (p : Pid) (a : Addr) (v : Message) : Kernel :=
  { k with mem := Function.update k.mem p (Function.update (k.mem p) a v) }

@[simp] theorem setProc_self (k : Kernel) (p : Pid) (f : Process → Process) :
    (k.setProc p f).procTable p = f (k.procTable p) := by simp [setProc]

theorem setProc_of_ne (k : Kernel) {p q : Pid} (f : Process → Process) (h : q ≠ p) :
    (k.setProc p f).procTable q = k.procTable q := by simp [setProc, h]

theorem setProc_apply (k : Kernel) (p q : Pid) (f : Process → Process) :
    (k.setProc p f).procTable q = if q = p then f (k.procTable p) else k.procTable q := by
  by_cases h : q = p <;> simp [setProc, h]

@[simp] theorem setProc_mem (k : Kernel) (p : Pid) (f : Process → Process) :
    (k.setProc p f).mem = k.mem := rfl

@[simp] theorem setMem_procTable (k : Kernel) (p : Pid) (a : Addr) (v : Message) :
    (k.setMem p a v).procTable = k.procTable := rfl

@[simp] theorem setMem_self (k : Kernel) (p : Pid) (a : Addr) (v : Message) :
    (k.setMem p a v).mem p a = v := by simp [setMem]

end Kernel

/-- The record that `kernel_main` writes for a task or a native process. -/
def nativeProcess : Process where
  pFlags := 0
  pMsg := none
  pRecvfrom := .noTask
  pSendto := .noTask
  hasIntMsg := false
  qSending := none
  nextSending := none
  pParent := .noTask

/-- The table after the loop of `kernel_main`: free slots get nothing but their flag. -/
def kernelMainTable (p : Pid) : Process :=
  if nrTasks + nrNativeProcs ≤ p.val then { pFlags := Flags.free } else nativeProcess

/-- The machine that `kernel_main` starts, whatever its memory holds. -/
def kernelMain (mem : Pid → Addr → Message) : Kernel :=
  { procTable := kernelMainTable, mem := mem }

end BazingaOS
