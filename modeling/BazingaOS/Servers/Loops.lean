import BazingaOS.FS.Sender
import BazingaOS.Kernel.Hd
import BazingaOS.MM.Exec

/-!
# The loops of the servers

`task_sys`, `task_fs`, `task_mm` and `task_hd`: the body of each loop for one request, with the
messages it sends. `task_sys` and `task_hd` answer every request that they come to the end of, each in
its turn; the file system leaves one without an answer while a terminal has it.
-/

namespace BazingaOS

open Prog

structure Request where
  src : Pid
  msg : Message

/-- A message that a server has sent, with its destination. -/
abbrev Mail := Pid × Message

structure Outbox (σ : Type) where
  state : σ
  sent : List Mail := []

namespace Outbox

variable {σ τ α : Type}

def lift (p : Prog σ α) : Prog (Outbox σ) α := fun o =>
  match p o.state with
  | .ok a s => .ok a { o with state := s }
  | .stop w s => .stop w { o with state := s }

def send (d : Pid) (m : Message) : Prog (Outbox σ) Unit :=
  modify fun o => { o with sent := o.sent ++ [(d, m)] }

end Outbox

open Outbox

/-- `task_sys`; `ticks` is the clock when the request is served. The case of `GET_PID` has no
`break`. -/
def sysBody (r : Request × Int) : Prog (Outbox Unit) Unit :=
  match r.1.msg.type with
  | .getTicks => send r.1.src { r.1.msg with m3i1 := r.2 }
  | .getPid => do
    send r.1.src { r.1.msg with m3i2 := r.1.src.val, type := .syscallRet }
    halt .panic
  | _ => halt .panic

def fsBody (drv : FS.Drivers) (r : Request) : Prog (Outbox Fs) Unit := do
  match ← lift (FS.serve drv r.src r.msg) with
  | none => return ()
  | some (d, m) =>
    match FS.procAt d with
    | none => halt .undefined
    | some q => send q m

/-- The processes, what `do_exec` writes, and the messages that start the children. -/
structure MmServer where
  mm : Mm
  exec : ExecState := {}
  births : List Mail := []

/-- The message that an event of the life cycle stands for. -/
def MmEvent.message : MmEvent → Option Mail
  | .reap pid status d => some (d, { type := .syscallRet, m3i2 := pid.val, m3i1 := status })
  | .noChild d _ status =>
    some (d, { type := .syscallRet, m3i2 := nrTasks + nrProcs + 20, m3i1 := status })
  | _ => none

def liftLife {α : Type} (p : Prog Mm α) : Prog (Outbox MmServer) α := fun o =>
  match p o.state.mm with
  | .ok a t => .ok a { o with state := { o.state with mm := t } }
  | .stop w t => .stop w { o with state := { o.state with mm := t } }

def liftExec {α : Type} (p : Prog ExecState α) : Prog (Outbox MmServer) α := fun o =>
  match p o.state.exec with
  | .ok a t => .ok a { o with state := { o.state with exec := t } }
  | .stop w t => .stop w { o with state := { o.state with exec := t } }

/-- The messages of the events behind the first `n` are sent. -/
def sendEvents (n : Nat) : Prog (Outbox MmServer) Unit :=
  modify fun o => { o with sent := o.sent ++ (o.state.mm.log.drop n).filterMap MmEvent.message }

/-- The message with which a child returns from `fork`. -/
def birthMessage : Message := { type := .syscallRet, m3i2 := 0, m3i1 := 0 }

def mmBody (files : ExecFiles) (r : Request) : Prog (Outbox MmServer) Unit := do
  let n := (← get).state.mm.log.length
  match r.msg.type with
  | .fork =>
    match ← liftLife (MM.doFork r.src) with
    | some pid =>
      modify fun o => { o with
        state := { o.state with births := o.state.births ++ [(pid, birthMessage)] } }
      send r.src { r.msg with m3i2 := pid.val, m3i1 := 0, type := .syscallRet }
    | none => send r.src { r.msg with m3i1 := -1, type := .syscallRet }
  | .exit =>
    liftLife (MM.doExit r.src r.msg.m3i1)
    sendEvents n
  | .wait =>
    liftLife (MM.doWait r.src)
    sendEvents n
  | .exec =>
    let ret ← liftExec (MM.doExec files r.src r.msg)
    send r.src { r.msg with m3i1 := ret, type := .syscallRet }
  | _ => halt .panic

def hdBody (r : Request) : Prog (Outbox Hd) Unit := do
  match r.msg.type with
  | .devOpen => lift (HD.hdOpen r.msg.m3i4)
  | .devClose => lift (HD.hdClose r.msg.m3i4)
  | .devRead => lift (HD.hdRdwt r.msg)
  | .devWrite => lift (HD.hdRdwt r.msg)
  | .devIoctl => lift (HD.hdIoctl r.msg)
  | _ => halt .panic
  send r.src r.msg

/-- The loop of a server, over what it serves one after the other. -/
def serveAll {ρ σ : Type} (body : ρ → Prog (Outbox σ) Unit) : List ρ → Prog (Outbox σ) Unit
  | [] => return ()
  | r :: rs => do
    body r
    serveAll body rs

/-- What has been served has been answered with one message to its sender. -/
def AnswersSender {ρ σ : Type} (src : ρ → Pid) (body : ρ → Prog (Outbox σ) Unit) : Prop :=
  ∀ r o, wp (body r) (fun _ o' => ∃ m, o'.sent = o.sent ++ [(src r, m)]) (fun _ _ => True) o

section Replies

variable {ρ σ α : Type}

theorem wp_lift {p : Prog σ α} {o : Outbox σ} {Q : α → Outbox σ → Prop}
    {E : Stop → Outbox σ → Prop} :
    wp (lift p) Q E o ↔
      wp p (fun a s => Q a { o with state := s }) (fun w s => E w { o with state := s }) o.state := by
  unfold wp lift
  cases p o.state <;> rfl

theorem lift_sent (p : Prog σ α) (o : Outbox σ) :
    wp (lift p) (fun _ o' => o'.sent = o.sent) (fun _ _ => True) o := by
  rw [wp_lift]
  exact wp_mono (wp_true p) (fun _ _ _ => rfl) fun _ _ _ => trivial

/-- Every request has its answer, in the order in which the requests have come. -/
theorem AnswersSender.sent_eq {src : ρ → Pid} {body : ρ → Prog (Outbox σ) Unit}
    (h : AnswersSender src body) (rs : List ρ) (o : Outbox σ) : wp (serveAll body rs)
      (fun _ o' => o'.sent.map Prod.fst = o.sent.map Prod.fst ++ rs.map src) (fun _ _ => True) o := by
  induction rs generalizing o with
  | nil => exact (List.append_nil _).symm
  | cons r rs ih =>
    rw [serveAll, wp_bind]
    apply wp_mono (h r o)
    · rintro - o₁ ⟨m, hm⟩
      apply wp_mono (ih o₁)
      · intro _ o₂ h₂
        rw [h₂, hm, List.map_append, List.map_cons, List.append_assoc]
        rfl
      · exact fun _ _ _ => trivial
    · exact fun _ _ _ => trivial

theorem taskSys_answers : AnswersSender (fun r => r.1.src) sysBody := by
  intro r o
  rw [sysBody]
  split
  · exact ⟨_, rfl⟩
  · exact wp_last fun _ _ => trivial
  · trivial

theorem taskHd_answers : AnswersSender Request.src hdBody := by
  intro r o
  unfold hdBody
  split
  all_goals first
    | rw [wp_bind]
      exact wp_mono (lift_sent _ o) (fun _ o₁ h₁ => ⟨r.msg, congrArg (· ++ [(r.src, r.msg)]) h₁⟩)
        fun _ _ _ => trivial
    | trivial

theorem handle_src (drv : FS.Drivers) {p : Pid} {msg : Message} (hmsg : msg.type ≠ .resumeProc)
    (s : Fs) : wp (FS.handle drv p msg) (fun a _ => a.1 = p.val) (fun _ _ => True) s := by
  rw [FS.handle]
  split
  case h_7 hty => exact absurd hty hmsg
  all_goals first
    | exact wp_last fun _ _ => rfl
    | trivial

/-- Without `RESUME_PROC` a message is for the sender; there is none while a terminal has the
request. -/
theorem serve_sends (drv : FS.Drivers) {p : Pid} {msg : Message} (hmsg : msg.type ≠ .resumeProc)
    (s : Fs) : wp (FS.serve drv p msg)
      (fun a _ => a = none ∨ ∃ m, m.type = .syscallRet ∧ a = some ((p.val : Int), m))
      (fun _ _ => True) s := by
  rw [FS.serve, wp_bind]
  apply wp_mono (handle_src drv hmsg s)
  · rintro ⟨src, m⟩ s' hsrc
    obtain rfl : src = p.val := hsrc
    rw [wp_ite]
    exact ⟨fun _ => .inl rfl, fun _ => .inr ⟨_, rfl, rfl⟩⟩
  · exact fun _ _ _ => trivial

theorem taskFs_answers (drv : FS.Drivers) {r : Request} (hr : r.msg.type ≠ .resumeProc)
    (o : Outbox Fs) : wp (fsBody drv r) (fun _ o' => o'.sent = o.sent ∨
      ∃ m, m.type = .syscallRet ∧ o'.sent = o.sent ++ [(r.src, m)]) (fun _ _ => True) o := by
  rw [fsBody, wp_bind, wp_lift]
  apply wp_mono (serve_sends drv hr o.state)
  · rintro a s (rfl | ⟨m, hm, rfl⟩)
    · exact .inl rfl
    · dsimp only
      rw [FS.procAt_eq_some.mpr rfl]
      exact .inr ⟨m, hm, rfl⟩
  · exact fun _ _ _ => trivial

end Replies

end BazingaOS
