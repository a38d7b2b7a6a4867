import BazingaOS.Kernel.IpcRefine
import BazingaOS.Lib.Run

/-!
# Process life cycle

`do_fork`, `do_exit`, `do_wait` and `cleanup` of `mm/forkexit.c`, with `alloc_mem` of
`mm/main.c`. The exchanges of MM with FS change nothing that these functions read. What MM sends
is kept in a log, next to the requests it has handled.
-/

namespace BazingaOS

open Prog

def procAllocBase : Nat := 0xA00000
def procDefaultImgSize : Nat := 0x100000

inductive MmEvent where
  | fork (parent child : Pid)
  | exit (pid : Pid) (status : Int)
  | wait (pid : Pid)
  | adopt (pid : Pid)
  | reap (pid : Pid) (status : Int) (dest : Pid)
  | noChild (dest : Pid) (pid : Endpoint) (status : Int)
deriving DecidableEq, Repr

/-- The process table with the memory that MM manages; `imageSize` is the size that the segment
descriptors of a process give. -/
structure Mm where
  procTable : Pid → Process
  imageSize : Pid → Nat
  memorySize : Nat
  log : List MmEvent := []

namespace Mm

/-- The slot that `do_fork` takes. -/
def freeSlot (t : Mm) : Option Pid :=
  (List.finRange nrSlots).find? fun i => (t.procTable i).pFlags = Flags.free

def setProc (t : Mm) (p : Pid) (f : Process → Process) : Mm :=
  { t with procTable := Function.update t.procTable p (f (t.procTable p)) }

def addLog (t : Mm) (e : MmEvent) : Mm := { t with log := t.log ++ [e] }

end Mm

namespace MM

def procOf (p : Pid) : Prog Mm Process := do
  return (← get).procTable p

def setProc (p : Pid) (f : Process → Process) : Prog Mm Unit :=
  modify fun t => t.setProc p f

def addLog (e : MmEvent) : Prog Mm Unit :=
  modify fun t => t.addLog e

def allocMem (pid : Pid) (memSize : Nat) : Prog Mm Nat := do
  check (nrTasks + nrNativeProcs ≤ pid.val)
  if procDefaultImgSize < memSize then halt .panic
  else
    let base := procAllocBase + procDefaultImgSize * (pid.val - (nrTasks + nrNativeProcs))
    if (← get).memorySize < base + memSize then halt .panic
    else return base

/-- The child's slot, or `none` where the source returns `-1`. -/
def doFork (parent : Pid) : Prog Mm (Option Pid) := do
  let t ← get
  match (List.finRange nrSlots).find? fun i => (t.procTable i).pFlags = Flags.free with
  | none => return none
  | some pid =>
    check (nrTasks + nrNativeProcs ≤ pid.val)
    setProc pid fun _ => t.procTable parent
    setProc pid fun r => { r with pParent := .proc parent }
    let _ ← allocMem pid (t.imageSize parent)
    modify fun t => { t with imageSize := Function.update t.imageSize pid procDefaultImgSize }
    addLog (.fork parent pid)
    return some pid

/-- `cleanup` sends the exit status of `p` to its parent and frees the slot. -/
def cleanup (p : Pid) : Prog Mm Unit := do
  let r ← procOf p
  match r.pParent with
  | .proc d =>
    addLog (.reap p r.exitStatus d)
    setProc p fun r => { r with pFlags := Flags.free }
  | _ => halt .undefined

/-- The loop of `do_exit` over the children of `pid`. -/
def adoptChildren (pid : Pid) : List Pid → Prog Mm Unit
  | [] => return
  | i :: l => do
    if (← procOf i).pParent = .proc pid then
      setProc i fun r => { r with pParent := .proc init }
      addLog (.adopt i)
      if (← procOf i).pFlags.hanging ∧ (← procOf init).pFlags.waiting then
        setProc init fun r => { r with pFlags := { r.pFlags with waiting := false } }
        cleanup i
    adoptChildren pid l

def doExit (pid : Pid) (status : Int) : Prog Mm Unit := do
  addLog (.exit pid status)
  setProc pid fun r => { r with exitStatus := status }
  match (← procOf pid).pParent with
  | .proc parent =>
    if (← procOf parent).pFlags.waiting then
      setProc parent fun r => { r with pFlags := { r.pFlags with waiting := false } }
      cleanup pid
    else
      setProc pid fun r => { r with pFlags := { r.pFlags with hanging := true } }
    adoptChildren pid (List.finRange nrSlots)
  | _ => halt .undefined

/-- The loop of `do_wait`: `none` once it has cleaned up a child, else whether there is one. -/
def waitScan (pid : Pid) : List Pid → Bool → Prog Mm (Option Bool)
  | [], hasChild => return some hasChild
  | i :: l, hasChild => do
    let r ← procOf i
    if r.pParent ≠ .proc pid then waitScan pid l hasChild
    else if r.pFlags.hanging then
      cleanup i
      return none
    else waitScan pid l true

def doWait (pid : Pid) : Prog Mm Unit := do
  addLog (.wait pid)
  match ← waitScan pid (List.finRange nrSlots) false with
  | none => return
  | some true => setProc pid fun r => { r with pFlags := { r.pFlags with waiting := true } }
  | some false => addLog (.noChild pid .noTask (-1))

end MM

inductive MmRequest where
  | fork (p : Pid)
  | exit (p : Pid) (status : Int)
  | wait (p : Pid)
deriving DecidableEq, Repr

namespace MmRequest

def source : MmRequest → Pid
  | .fork p => p
  | .exit p _ => p
  | .wait p => p

/-- The `switch` of `task_mm`. -/
def handle : MmRequest → Prog Mm Unit
  | .fork p => do
    let _ ← MM.doFork p
  | .exit p status => MM.doExit p status
  | .wait p => MM.doWait p

/-- A request comes from a live user process that is not itself in `wait`; INIT never exits. -/
def Enabled (t : Mm) (q : MmRequest) : Prop :=
  nrTasks ≤ q.source.val ∧ (t.procTable q.source).pFlags.freeSlot = false ∧
    (t.procTable q.source).pFlags.hanging = false ∧
    (t.procTable q.source).pFlags.waiting = false ∧ ∀ status, q ≠ .exit init status

end MmRequest

/-- What message passing leaves alone: it changes the sending and receiving flags and the message
fields of processes, and nothing of a free slot's flags. -/
structure SameLife (f g : Pid → Process) : Prop where
  waiting : ∀ p, (g p).pFlags.waiting = (f p).pFlags.waiting
  hanging : ∀ p, (g p).pFlags.hanging = (f p).pFlags.hanging
  freeSlot : ∀ p, (g p).pFlags.freeSlot = (f p).pFlags.freeSlot
  parent : ∀ p, (g p).pParent = (f p).pParent
  exitStatus : ∀ p, (g p).exitStatus = (f p).exitStatus
  free : ∀ p, (f p).pFlags = Flags.free → (g p).pFlags = Flags.free

inductive MmAction where
  | request (q : MmRequest)
  | ipc (table : Pid → Process)

/-- MM handles one request to its end, or processes exchange messages. A request on which MM stops
(memory runs out in `alloc_mem`, or a native process exits, whose `p_parent` indexes no slot) is
no step. -/
def MmStep (t : Mm) (act : MmAction) (t' : Mm) : Prop :=
  match act with
  | .request q => q.Enabled t ∧ q.handle t = .ok () t'
  | .ipc table => SameLife t.procTable table ∧ t' = { t with procTable := table }

/-- The state in which MM starts. -/
def mmInit (imageSize : Pid → Nat) (memorySize : Nat) : Mm :=
  { procTable := kernelMainTable, imageSize := imageSize, memorySize := memorySize }

end BazingaOS
