import BazingaOS.Kernel.Proc
import BazingaOS.Lib.Linked

/-!
# Message passing

`msg_send`, `msg_receive`, `deadlock`, `inform_int` and `sys_sendrec` of `kernel/proc.c`. Each
pointer chase of the source is a walk with a bound on its steps; a walk that uses up its bound
has met some process twice and would never end, which is `Stop.hang`. `block` ends in
`schedule`, which picks the process that runs next; the systems built on these primitives let
every runnable process take the next step.
-/

namespace BazingaOS

open Prog

def setProc (p : Pid) (f : Process → Process) : Prog Kernel Unit :=
  modify fun k => k.setProc p f

def procOf (p : Pid) : Prog Kernel Process := do
  return (← get).procTable p

/-- A store to a whole message object; the null pointer is no object. -/
def storeMessage (p : Pid) : Option Addr → Message → Prog Kernel Unit
  | none, _ => halt .undefined
  | some a, v => modify fun k => k.setMem p a v

def loadMessage (p : Pid) : Option Addr → Prog Kernel Message
  | none => halt .undefined
  | some a => do return (← get).mem p a

/-- `phys_copy` of one message between two processes. -/
def copyMessage (dst : Pid) (a : Option Addr) (src : Pid) (b : Option Addr) :
    Prog Kernel Unit := do
  storeMessage dst a (← loadMessage src b)

def block (p : Pid) : Prog Kernel Unit := do
  check ((← procOf p).pFlags ≠ 0)

def unblock (p : Pid) : Prog Kernel Unit := do
  check ((← procOf p).pFlags = 0)

/-- The reporting loop of `deadlock`, without its output. -/
def deadlockReport (src : Pid) : Nat → Pid → Prog Kernel Unit
  | 0, _ => halt .hang
  | n + 1, p => do
    let r ← procOf p
    check (r.pMsg ≠ none)
    match r.pSendto with
    | .proc q => if q = src then pure () else deadlockReport src n q
    | _ => halt .undefined

/-- The search loop of `deadlock`, from `p` on. -/
def deadlockWalk (src : Pid) : Nat → Pid → Prog Kernel Bool
  | 0, _ => halt .hang
  | n + 1, p => do
    let r ← procOf p
    if r.pFlags.sending then
      if r.pSendto = .proc src then
        deadlockReport src nrSlots src
        return true
      else
        match r.pSendto with
        | .proc q => deadlockWalk src n q
        | _ => halt .undefined
    else
      return false

def deadlock (src dest : Pid) : Prog Kernel Bool := deadlockWalk src nrSlots dest

/-- The branch of `msg_send` for a receiver that waits for this sender. -/
def sendDirect (sender dst : Pid) (m : Option Addr) : Prog Kernel Unit := do
  let d ← procOf dst
  check (d.pMsg ≠ none)
  check (m ≠ none)
  copyMessage dst d.pMsg sender m
  setProc dst fun r => { r with pMsg := none }
  setProc dst fun r => { r with pFlags := { r.pFlags with receiving := false } }
  setProc dst fun r => { r with pRecvfrom := .noTask }
  unblock dst
  let d ← procOf dst
  check (d.pFlags = 0)
  check (d.pMsg = none)
  check (d.pRecvfrom = .noTask)
  check (d.pSendto = .noTask)
  let s ← procOf sender
  check (s.pFlags = 0)
  check (s.pMsg = none)
  check (s.pRecvfrom = .noTask)
  check (s.pSendto = .noTask)

/-- The walk of `msg_send` to the end of the queue. -/
def findTail : Nat → Pid → Prog Kernel Pid
  | 0, _ => halt .hang
  | n + 1, p => do
    match (← procOf p).nextSending with
    | none => return p
    | some q => findTail n q

/-- The branch of `msg_send` for a receiver that is not ready: the sender joins its queue. -/
def sendQueue (sender dst : Pid) (m : Option Addr) : Prog Kernel Unit := do
  let head := (← procOf dst).qSending
  setProc sender fun r => { r with pFlags := { r.pFlags with sending := true } }
  setProc sender fun r => { r with pSendto := .proc dst }
  setProc sender fun r => { r with pMsg := m }
  match head with
  | some p =>
    let z ← findTail nrSlots p
    setProc z fun r => { r with nextSending := some sender }
  | none => setProc dst fun r => { r with qSending := some sender }
  setProc sender fun r => { r with nextSending := none }
  block sender
  let s ← procOf sender
  check (s.pFlags = { sending := true })
  check (s.pMsg ≠ none)
  check (s.pSendto = .proc dst)
  check (s.pRecvfrom = .noTask)

def msgSend (sender dst : Pid) (m : Option Addr) : Prog Kernel Unit := do
  check (sender ≠ dst)
  let cycle ← deadlock sender dst
  if cycle then halt .panic
  else
    let d ← procOf dst
    if d.pFlags.receiving ∧ (d.pRecvfrom = .any ∨ d.pRecvfrom = .proc sender) then
      sendDirect sender dst m
    else
      sendQueue sender dst m

/-- The message that reports an interrupt. -/
def intMessage : Message := { source := .interrupt, type := .hardInt }

/-- The assertions `msg_receive` makes of the receiver and of the sender it has found. -/
def checkReceive (rcv fr : Pid) : Prog Kernel Unit := do
  let w ← procOf rcv
  check (w.pFlags = 0)
  check (w.pMsg = none)
  check (w.qSending ≠ none)
  check (w.pSendto = .noTask)
  check (w.pRecvfrom = .noTask)
  let f ← procOf fr
  check (f.pFlags = { sending := true })
  check (f.pMsg ≠ none)
  check (f.pSendto = .proc rcv)
  check (f.pRecvfrom = .noTask)

/-- The search of `msg_receive` for a given sender; it returns the element before it. -/
def findSender (src : Pid) : Nat → Option Pid → Option Pid → Prog Kernel (Option Pid)
  | 0, _, _ => halt .hang
  | _ + 1, prev, none => return prev
  | n + 1, prev, some p => do
    check ((← procOf src).pFlags.sending = true)
    if p = src then return prev
    else findSender src n (some p) (← procOf p).nextSending

/-- The part of `msg_receive` that takes `fr` out of the queue and copies its message. -/
def takeMessage (rcv fr : Pid) (prev : Option Pid) (m : Option Addr) : Prog Kernel Unit := do
  let f ← procOf fr
  if (← procOf rcv).qSending = some fr then
    setProc rcv fun r => { r with qSending := f.nextSending }
    setProc fr fun r => { r with nextSending := none }
  else
    match prev with
    | none => halt .assertion
    | some z =>
      setProc z fun r => { r with nextSending := f.nextSending }
      setProc fr fun r => { r with nextSending := none }
  check (m ≠ none)
  check (f.pMsg ≠ none)
  copyMessage rcv m fr f.pMsg
  setProc fr fun r => { r with pMsg := none }
  setProc fr fun r => { r with pFlags := { r.pFlags with sending := false } }
  setProc fr fun r => { r with pSendto := .noTask }
  unblock fr

/-- The part of `msg_receive` that blocks the receiver. -/
def waitMessage (rcv : Pid) (src : Endpoint) (m : Option Addr) : Prog Kernel Unit := do
  setProc rcv fun r => { r with pRecvfrom := src }
  setProc rcv fun r => { r with pFlags := { r.pFlags with receiving := true } }
  setProc rcv fun r => { r with pMsg := m }
  block rcv
  let w ← procOf rcv
  check (w.pFlags = { receiving := true })
  check (w.pMsg ≠ none)
  check (w.pRecvfrom ≠ .noTask)
  check (w.pSendto = .noTask)
  check (w.hasIntMsg = false)

/-- The branch of `msg_receive` that consumes a pending interrupt. -/
def takeInterrupt (rcv : Pid) (m : Option Addr) : Prog Kernel Unit := do
  check (m ≠ none)
  storeMessage rcv m intMessage
  setProc rcv fun r => { r with hasIntMsg := false }
  let w ← procOf rcv
  check (w.pFlags = 0)
  check (w.pSendto = .noTask)
  check (w.hasIntMsg = false)
  check (w.pMsg = none)

/-- The branch of `msg_receive` that blocks until an interrupt. -/
def waitInterrupt (rcv : Pid) (m : Option Addr) : Prog Kernel Unit := do
  setProc rcv fun r => { r with pFlags := { r.pFlags with receiving := true } }
  setProc rcv fun r => { r with pRecvfrom := .interrupt }
  setProc rcv fun r => { r with pMsg := m }
  block rcv

def msgReceive (rcv : Pid) (src : Endpoint) (m : Option Addr) : Prog Kernel Unit := do
  check (src ≠ .proc rcv)
  let w ← procOf rcv
  if w.hasIntMsg ∧ (src = .any ∨ src = .interrupt) then
    takeInterrupt rcv m
  else
    match src with
    | .interrupt => waitInterrupt rcv m
    | .any =>
      match w.qSending with
      | some fr =>
        checkReceive rcv fr
        takeMessage rcv fr none m
      | none => waitMessage rcv .any m
    | .proc s =>
      let f ← procOf s
      if f.pFlags.sending ∧ f.pSendto = .proc rcv then
        check (w.qSending ≠ none)
        let prev ← findSender s (nrSlots + 1) none w.qSending
        checkReceive rcv s
        takeMessage rcv s prev m
      else
        waitMessage rcv (.proc s) m
    | .noTask => halt .undefined

def informInt (t : Pid) : Prog Kernel Unit := do
  let r ← procOf t
  if r.pFlags.receiving ∧ (r.pRecvfrom = .interrupt ∨ r.pRecvfrom = .any) then
    let old ← loadMessage t r.pMsg
    storeMessage t r.pMsg { old with source := .interrupt, type := .hardInt }
    setProc t fun r => { r with pMsg := none }
    setProc t fun r => { r with hasIntMsg := false }
    setProc t fun r => { r with pFlags := { r.pFlags with receiving := false } }
    setProc t fun r => { r with pRecvfrom := .noTask }
    check ((← procOf t).pFlags = 0)
    unblock t
    let w ← procOf t
    check (w.pRecvfrom = .noTask)
    check (w.pFlags = 0)
    check (w.pSendto = .noTask)
  else
    setProc t fun r => { r with hasIntMsg := true }

/-- The values of `function` that `sys_sendrec` knows. -/
inductive SysFunction where
  | send
  | receive
  | other
deriving DecidableEq, Repr

def sysSendrec (function : SysFunction) (srcDest : Endpoint) (m : Option Addr) (caller : Pid) :
    Prog Kernel Unit := do
  check (srcDest ≠ .noTask)
  let v ← loadMessage caller m
  storeMessage caller m { v with source := .proc caller }
  match function with
  | .send =>
    match srcDest with
    | .proc d => msgSend caller d m
    | _ => halt .undefined
  | .receive => msgReceive caller srcDest m
  | .other => halt .panic

end BazingaOS
