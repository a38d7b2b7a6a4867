import BazingaOS.Kernel.IpcSystem
import BazingaOS.Kernel.TtyInput

/-!
# FS and TTY over the IPC primitives

`task_fs` serves `READ` and `WRITE` requests on tty files, and each makes it do
`send_rec(BOTH, TASK_TTY)`. `task_tty` scans its terminals between two `RECEIVE`s and sends
`RESUME_PROC` to FS when a pending read is complete. Every system call is one step and the
scheduler may run any process between two steps. What goes to the screen and into the buffers of
the readers is left out.
-/

namespace BazingaOS

open Prog

/-- `TTY`. The ring buffer is the list of its keys, the oldest first. -/
structure Tty where
  inBuf : List Nat := []
  ttyCaller : Endpoint := .proc taskSys
  ttyProNr : Int := 0
  ttyBytesLeft : Int := 0
  ttyTransBytes : Int := 0
deriving DecidableEq, Repr

/-- Where a process stands in `send_rec(BOTH, TASK_FS, m)`. -/
inductive ClientPc where
  | user
  | between (a : Addr)
  | waiting
deriving DecidableEq, Repr

/-- Where FS stands in its loop; `ttySent` and `ttyWait` are inside `do_rdwt`, after the first
and the second system call of its `send_rec(BOTH, TASK_TTY)`. -/
inductive FsPc where
  | top
  | receive
  | ttySent (src : Pid)
  | ttyWait (src : Pid)
deriving DecidableEq, Repr

/-- Where TTY stands in its loop: before `tty_dev_read`, in `tty_dev_write`, in it after the
`SEND` of a `RESUME_PROC`, before its `RECEIVE` and after it. -/
inductive TtyPc where
  | read (i : Fin nrTtys)
  | write (i : Fin nrTtys)
  | resumed (i : Fin nrTtys)
  | listen
  | receive
deriving DecidableEq, Repr

/-- What `keyboard_read` makes of the scan codes: nothing, a key for `put_key`, or another
console. -/
inductive KeyEvent where
  | none
  | key (n : Nat)
  | console (c : Fin nrTtys)
deriving DecidableEq, Repr

structure FsTty where
  kernel : Kernel
  pc : Pid → ClientPc
  fs : FsPc
  tty : TtyPc
  ttyTable : Fin nrTtys → Tty
  curCon : Fin nrTtys

inductive FsTtyAction where
  | call (p : Pid) (a : Addr) (v : Message)
  | receive (p : Pid)
  | resume (p : Pid)
  | clock
  | fsReceive
  | fsServe
  | fsTtyReceive
  | fsReply
  | ttyRead (e : KeyEvent)
  | ttyWrite
  | ttyResumed
  | ttyReceive
  | ttyHandle

/-- The addresses of `msg` in `task_fs`, of `msg` in `task_tty` and of `msg` in
`tty_dev_write`. -/
def fsMsg : Addr := 0
def ttyMsg : Addr := 0
def ttyResumeMsg : Addr := 1

/-- The process that a `PROC_NR` field names. -/
def pidOf (n : Int) : Option Pid :=
  if h : n.toNat < nrSlots then
    if 0 ≤ n then some ⟨n.toNat, h⟩ else none
  else none

/-- The terminal that a `DEVICE` field names. -/
def ttyOf (n : Int) : Option (Fin nrTtys) :=
  if h : n.toNat < nrTtys then
    if 0 ≤ n then some ⟨n.toNat, h⟩ else none
  else none

namespace Tty

def putKey (r : Tty) (n : Nat) : Tty :=
  if r.inBuf.length < ttyInBytes then { r with inBuf := r.inBuf ++ [n] } else r

/-- The part of `tty_dev_write` that gives a character to the pending read. -/
def transfer (r : Tty) (ch : Nat) : Tty :=
  if 32 ≤ ch ∧ ch ≤ 126 then
    { r with ttyBytesLeft := r.ttyBytesLeft - 1, ttyTransBytes := r.ttyTransBytes + 1 }
  else if ch = 8 then
    { r with ttyBytesLeft := r.ttyBytesLeft + 1, ttyTransBytes := r.ttyTransBytes - 1 }
  else r

/-- The record that `tty_do_read` writes. -/
def doRead (r : Tty) (m : Message) : Tty :=
  { r with
    ttyCaller := m.source
    ttyProNr := m.m3i3
    ttyBytesLeft := m.m3i2
    ttyTransBytes := 0 }

end Tty

/-- A step: the system call it makes, if any, and the state in which it goes on. -/
structure Move where
  call : Option IpcAction
  next : Kernel → FsTty

def Move.prog (m : Move) : Prog Kernel Unit :=
  match m.call with
  | some act => act.prog
  | none => pure ()

namespace FsTty

def flags (t : FsTty) (p : Pid) : Flags := (t.kernel.procTable p).pFlags

def setTty (t : FsTty) (i : Fin nrTtys) (r : Tty) : FsTty :=
  { t with ttyTable := Function.update t.ttyTable i r }

def goto (t : FsTty) : Move := { call := none, next := fun k => { t with kernel := k } }

def issue (t : FsTty) (act : IpcAction) : Move :=
  { call := some act, next := fun k => { t with kernel := k } }

/-- FS goes on with the message it has received. `ttyFile p fd` is the minor number of the tty
file that is open as descriptor `fd` of `p`. -/
def serve (ttyFile : Pid → Int → Fin nrTtys) (t : FsTty) : Option Move :=
  let m := t.kernel.mem taskFs fsMsg
  match m.type, m.source with
  | .read, .proc p => some <| { t with fs := .ttySent p }.issue <| .send taskFs taskTty fsMsg
      { m with type := .devRead, m3i4 := (ttyFile p m.m3i1).val, m3i3 := p.val }
  | .write, .proc p => some <| { t with fs := .ttySent p }.issue <| .send taskFs taskTty fsMsg
      { m with type := .devWrite, m3i4 := (ttyFile p m.m3i1).val, m3i3 := p.val }
  | .resumeProc, _ => (pidOf m.m3i3).map fun p =>
      { t with fs := .top }.issue (.send taskFs p fsMsg { m with type := .syscallRet })
  | _, _ => none

def reply (t : FsTty) (src : Pid) : Move :=
  let m := t.kernel.mem taskFs fsMsg
  let t' := { t with fs := .top }
  if m.type = .suspendProc then t'.goto
  else t'.issue (.send taskFs src fsMsg { m with type := .syscallRet })

def devRead (t : FsTty) (i : Fin nrTtys) (e : KeyEvent) : FsTty :=
  let t' := { t with tty := .write i }
  if t.curCon = i then
    match e with
    | .none => t'
    | .key n => t'.setTty i ((t.ttyTable i).putKey n)
    | .console c => { t' with curCon := c }
  else t'

def nextTty (i : Fin nrTtys) : TtyPc :=
  if h : i.val + 1 < nrTtys then .read ⟨i.val + 1, h⟩ else .listen

/-- One character of `tty_dev_write`, or its end. -/
def devWrite (t : FsTty) (i : Fin nrTtys) : Option Move :=
  let r := t.ttyTable i
  match r.inBuf with
  | [] => some { t with tty := nextTty i }.goto
  | key :: rest =>
    let ch := key % 256
    let r := { r with inBuf := rest }
    if 0 < r.ttyBytesLeft then
      let r := r.transfer ch
      if r.ttyBytesLeft = 0 ∨ ch = 10 then
        match r.ttyCaller with
        | .proc d => some <| { t.setTty i r with tty := .resumed i }.issue <|
            .send taskTty d ttyResumeMsg
              { type := .resumeProc, m3i3 := r.ttyProNr, m3i2 := r.ttyTransBytes }
        | _ => none
      else some (t.setTty i r).goto
    else some (t.setTty i r).goto

/-- TTY goes on with the message it has received; `none` is its panic. -/
def handle (t : FsTty) : Option Move :=
  let m := t.kernel.mem taskTty ttyMsg
  let t' := { t with tty := .read ⟨0, nrTtys_pos⟩ }
  match m.type, m.source with
  | .devOpen, .proc src => some <| t'.issue <|
      .send taskTty src ttyMsg { type := .syscallRet }
  | .devRead, .proc src => (ttyOf m.m3i4).map fun i =>
      (t'.setTty i ((t.ttyTable i).doRead m)).issue <|
        .send taskTty src ttyMsg { m with type := .suspendProc }
  | .devWrite, .proc src => some <| t'.issue <|
      .send taskTty src ttyMsg { m with m3i2 := max m.m3i2 0 }
  | .hardInt, _ => some t'.goto
  | _, _ => none

/-- The step that an action makes, if it is enabled. A process runs only while its flags
are 0. -/
def move (ttyFile : Pid → Int → Fin nrTtys) (t : FsTty) : FsTtyAction → Option Move
  | .call p a v =>
    if nrTasks ≤ p.val ∧ t.flags p = 0 ∧ t.pc p = .user ∧ (v.type = .read ∨ v.type = .write) then
      some <| { t with pc := Function.update t.pc p (.between a) }.issue (.send p taskFs a v)
    else none
  | .receive p =>
    if t.flags p = 0 then
      match t.pc p with
      | .between a => some <| { t with pc := Function.update t.pc p .waiting }.issue <|
          .receive p (.only taskFs) a (t.kernel.mem p a)
      | _ => none
    else none
  | .resume p =>
    if t.flags p = 0 ∧ t.pc p = .waiting then
      some { t with pc := Function.update t.pc p .user }.goto
    else none
  | .clock => some (t.issue (.inform taskTty))
  | .fsReceive =>
    if t.flags taskFs = 0 ∧ t.fs = .top then
      some ({ t with fs := .receive }.issue (.receive taskFs .any fsMsg {}))
    else none
  | .fsServe => if t.flags taskFs = 0 ∧ t.fs = .receive then t.serve ttyFile else none
  | .fsTtyReceive =>
    if t.flags taskFs = 0 then
      match t.fs with
      | .ttySent src => some <| { t with fs := .ttyWait src }.issue <|
          .receive taskFs (.only taskTty) fsMsg (t.kernel.mem taskFs fsMsg)
      | _ => none
    else none
  | .fsReply =>
    if t.flags taskFs = 0 then
      match t.fs with
      | .ttyWait src => some (t.reply src)
      | _ => none
    else none
  | .ttyRead e =>
    if t.flags taskTty = 0 then
      match t.tty with
      | .read i => some (t.devRead i e).goto
      | _ => none
    else none
  | .ttyWrite =>
    if t.flags taskTty = 0 then
      match t.tty with
      | .write i => t.devWrite i
      | _ => none
    else none
  | .ttyResumed =>
    if t.flags taskTty = 0 then
      match t.tty with
      | .resumed i => some <| FsTty.goto
          { t.setTty i { t.ttyTable i with ttyBytesLeft := 0 } with tty := .write i }
      | _ => none
    else none
  | .ttyReceive =>
    if t.flags taskTty = 0 ∧ t.tty = .listen then
      some ({ t with tty := .receive }.issue (.receive taskTty .any ttyMsg {}))
    else none
  | .ttyHandle => if t.flags taskTty = 0 ∧ t.tty = .receive then t.handle else none

end FsTty

/-- The system once both servers have initialised themselves. -/
def fsTtyInit (mem : Pid → Addr → Message) : FsTty where
  kernel := kernelMain mem
  pc _ := .user
  fs := .top
  tty := .read ⟨0, nrTtys_pos⟩
  ttyTable _ := {}
  curCon := ⟨0, nrTtys_pos⟩

/-- One step whose system call returns. -/
def FsTtyStep (ttyFile : Pid → Int → Fin nrTtys) (t : FsTty) (act : FsTtyAction) (t' : FsTty) :
    Prop :=
  ∃ m k', t.move ttyFile act = some m ∧ m.prog t.kernel = .ok () k' ∧ t' = m.next k'

/-- A read is pending whose completion TTY has not yet reported. -/
def FsTty.Pending (t : FsTty) (i : Fin nrTtys) : Prop :=
  0 < (t.ttyTable i).ttyBytesLeft ∧ t.tty ≠ .resumed i

instance (t : FsTty) (i : Fin nrTtys) : Decidable (t.Pending i) :=
  inferInstanceAs (Decidable (_ ∧ _))

/-- The condition on the steps in which FS sends to TTY: TTY waits in its `RECEIVE`, or it is not
sending and no read is pending. -/
def FsTty.Quiet (t : FsTty) : Prop :=
  (t.flags taskTty).receiving = true ∨
    (t.flags taskTty).sending = false ∧ ∀ i, ¬ t.Pending i

instance (t : FsTty) : Decidable t.Quiet := inferInstanceAs (Decidable (_ ∨ _))

end BazingaOS
