import BazingaOS.MM.LifeCycle
import BazingaOS.Servers.Loops

/-!
# What MM owes

`task_mm` answers `FORK` and `EXEC` at once, `WAIT` at once or when a child exits, and `EXIT` never.
The messages that it sends are counted against the requests, over whole runs in which processes come
and go.
-/

namespace BazingaOS

open Prog Outbox

/-- A request of a type that MM knows, from a live user process that is not in `wait`; INIT never
exits. -/
structure Request.ToMm (t : Mm) (r : Request) : Prop where
  user : nrTasks ≤ r.src.val
  used : (t.procTable r.src).pFlags.freeSlot = false
  living : (t.procTable r.src).pFlags.hanging = false
  ready : (t.procTable r.src).pFlags.waiting = false
  known : r.msg.type = .fork ∨ r.msg.type = .exit ∨ r.msg.type = .wait ∨ r.msg.type = .exec
  stays : r.msg.type = .exit → r.src ≠ init

inductive MmTurn where
  | request (r : Request)
  | ipc (table : Pid → Process)

def MmServer.setTable (s : MmServer) (table : Pid → Process) : MmServer :=
  { s with mm := { s.mm with procTable := table } }

/-- MM serves one request to its end, or processes exchange messages. -/
def MmTurnStep (files : ExecFiles) (o : Outbox MmServer) (act : MmTurn) (o' : Outbox MmServer) :
    Prop :=
  match act with
  | .request r => r.ToMm o.state.mm ∧ mmBody files r o = .ok () o'
  | .ipc table => SameLife o.state.mm.procTable table ∧
      o' = { o with state := o.state.setTable table }

/-- A request of `p` that MM has to answer. -/
def MmTurn.Asks (p : Pid) : MmTurn → Prop
  | .request r => r.src = p ∧ r.msg.type ≠ .exit
  | .ipc _ => False

def MmTurn.Waits (p : Pid) : MmTurn → Prop
  | .request r => r.src = p ∧ r.msg.type = .wait
  | .ipc _ => False

instance MmTurn.decidableAsks (p : Pid) (act : MmTurn) : Decidable (act.Asks p) := by
  cases act <;> unfold MmTurn.Asks <;> infer_instance

instance MmTurn.decidableWaits (p : Pid) (act : MmTurn) : Decidable (act.Waits p) := by
  cases act <;> unfold MmTurn.Waits <;> infer_instance

/-- The request of a turn, if it is one to fork. -/
def MmTurn.forkRequest : MmTurn → Option Request
  | .request r => if r.msg.type = .fork then some r else none
  | .ipc _ => none

/-- A request to fork, and the child if it was carried out. -/
abbrev ForkOutcome := Request × Option Pid

def ForkOutcome.reply (f : ForkOutcome) : Mail :=
  match f.2 with
  | some pid => (f.1.src, { f.1.msg with m3i2 := pid.val, m3i1 := 0, type := .syscallRet })
  | none => (f.1.src, { f.1.msg with m3i1 := -1, type := .syscallRet })

def ForkOutcome.birth (f : ForkOutcome) : Option Mail := f.2.map fun pid => (pid, birthMessage)

/-- The requests to fork have the replies and the births of `l`, in the same order. -/
structure ForksBooked (requests : List Request) (sent births : List Mail) (l : List ForkOutcome) :
    Prop where
  requests : l.map Prod.fst = requests
  replies : (l.map ForkOutcome.reply).Sublist sent
  births : births = l.filterMap ForkOutcome.birth

theorem ForksBooked.append {rs rs' : List Request} {out out' born born' : List Mail}
    {l l' : List ForkOutcome} (h : ForksBooked rs out born l) (h' : ForksBooked rs' out' born' l') :
    ForksBooked (rs ++ rs') (out ++ out') (born ++ born') (l ++ l') where
  requests := by rw [List.map_append, h.requests, h'.requests]
  replies := by
    rw [List.map_append]
    exact h.replies.append h'.replies
  births := by rw [List.filterMap_append, h.births, h'.births]

/-- How many of the messages go to `p`. -/
def mailTo (p : Pid) (l : List Mail) : Nat := l.countP fun m => m.1 = p

/-- The child of a fork. -/
def MmEvent.child : MmEvent → Option Pid
  | .fork _ c => some c
  | _ => none

def waitsIn (p : Pid) (l : List MmEvent) : Nat := l.countP fun e => e = .wait p

/-- The messages that a history stands for. -/
def answersIn (l : List MmEvent) : List Mail := l.filterMap MmEvent.message

theorem mailTo_append (p : Pid) (l l' : List Mail) :
    mailTo p (l ++ l') = mailTo p l + mailTo p l' := List.countP_append

theorem waitsIn_append (p : Pid) (l l' : List MmEvent) :
    waitsIn p (l ++ l') = waitsIn p l + waitsIn p l' := List.countP_append

theorem mailTo_answersIn_append (p : Pid) (l l' : List MmEvent) :
    mailTo p (answersIn (l ++ l')) = mailTo p (answersIn l) + mailTo p (answersIn l') := by
  rw [answersIn, List.filterMap_append]
  exact mailTo_append ..

/-- In a history each process has waited as often as it has been answered, and once more if it is in
`wait`. -/
theorem Family.waits_eq {f g : Family} {l : List MmEvent} (h : f.after l = some g) (p : Pid) :
    (f.inWait p).toNat + waitsIn p l = mailTo p (answersIn l) + (g.inWait p).toNat := by
  induction l generalizing f with
  | nil =>
    cases h
    simp [waitsIn, mailTo, answersIn]
  | cons e l ih =>
    obtain ⟨f', he, hl⟩ := Family.after_cons h
    have ih' := ih hl
    have hstep : (f.inWait p).toNat + waitsIn p [e] =
        mailTo p (answersIn [e]) + (f'.inWait p).toNat := by
      cases e with
      | fork q c =>
        simp only [Family.apply, Option.ite_none_right_eq_some, Option.some.injEq] at he
        rw [← he.2]
        simp [waitsIn, mailTo, answersIn, MmEvent.message, Family.setPhase, Family.setParent]
      | exit q status =>
        simp only [Family.apply, Option.ite_none_right_eq_some, Option.some.injEq] at he
        rw [← he.2]
        simp [waitsIn, mailTo, answersIn, MmEvent.message, Family.setPhase]
      | adopt q =>
        simp only [Family.apply, Option.ite_none_right_eq_some, Option.some.injEq] at he
        rw [← he.2]
        simp [waitsIn, mailTo, answersIn, MmEvent.message, Family.setParent]
      | wait q =>
        simp only [Family.apply, Option.ite_none_right_eq_some, Option.some.injEq] at he
        obtain ⟨⟨-, hwait⟩, rfl⟩ := he
        by_cases hq : q = p
        · subst hq
          simp [waitsIn, mailTo, answersIn, MmEvent.message, Family.setWait, hwait]
        · simp [waitsIn, mailTo, answersIn, MmEvent.message, Family.setWait, hq, Ne.symm hq]
      | reap q status d =>
        simp only [Family.apply, Option.ite_none_right_eq_some, Option.some.injEq] at he
        obtain ⟨⟨-, -, hwait⟩, rfl⟩ := he
        by_cases hd : d = p
        · subst hd
          simp [waitsIn, mailTo, answersIn, MmEvent.message, Family.setWait, Family.setPhase, hwait]
        · simp [waitsIn, mailTo, answersIn, MmEvent.message, Family.setWait, Family.setPhase, hd,
            Ne.symm hd]
      | noChild d q status =>
        simp only [Family.apply, Option.ite_none_right_eq_some, Option.some.injEq] at he
        obtain ⟨hwait, rfl⟩ := he
        by_cases hd : d = p
        · subst hd
          simp [waitsIn, mailTo, answersIn, MmEvent.message, Family.setWait, hwait]
        · simp [waitsIn, mailTo, answersIn, MmEvent.message, Family.setWait, hd, Ne.symm hd]
    have hwaits := waitsIn_append p [e] l
    have hmail := mailTo_answersIn_append p [e] l
    rw [List.singleton_append] at hwaits hmail
    omega

section Logs

variable {t : Mm} {p q : Pid}

theorem doFork_log (t : Mm) (p : Pid) : wp (MM.doFork p)
    (fun c t' => t'.log = t.log ++ (c.map (MmEvent.fork p)).toList) (fun _ _ => True) t := by
  simp only [MM.doFork, wp_bind, wp_get]
  cases (List.finRange nrSlots).find? fun i => (t.procTable i).pFlags = Flags.free with
  | none => exact (List.append_nil _).symm
  | some i =>
    simp only [wp_bind, wp_check, wp_mmSetProc]
    exact ⟨fun _ => wp_allocMem (fun _ _ => rfl) (fun _ => trivial), fun _ => trivial⟩

/-- What an exit leaves alone in the log: the waits of `q` and the births. -/
def Mm.seen (q : Pid) (t : Mm) : Nat × List Pid := (waitsIn q t.log, t.log.filterMap MmEvent.child)

theorem keepsView_setProc (f : Process → Process) : KeepsView (Mm.seen q) (MM.setProc p f) :=
  KeepsView.modify fun _ => rfl

theorem keepsView_addLog {e : MmEvent} (hw : e ≠ .wait q) (hc : e.child = none) :
    KeepsView (Mm.seen q) (MM.addLog e) := by
  apply KeepsView.modify
  intro t
  simp [Mm.seen, Mm.addLog, waitsIn, hw, hc]

theorem keepsView_procOf : KeepsView (Mm.seen q) (MM.procOf p) :=
  KeepsView.get.bind fun _ => KeepsView.pure _

theorem keepsView_cleanup : KeepsView (Mm.seen q) (MM.cleanup p) := by
  apply keepsView_procOf.bind
  intro r
  split
  · exact (keepsView_addLog (by simp) rfl).bind fun _ => keepsView_setProc _
  · exact KeepsView.halt _

theorem keepsView_adoptChildren (l : List Pid) :
    KeepsView (Mm.seen q) (MM.adoptChildren p l) := by
  induction l with
  | nil => exact KeepsView.pure _
  | cons i l ih =>
    rw [MM.adoptChildren]
    apply keepsView_procOf.bind
    intro r
    apply KeepsView.ite
    · refine (keepsView_setProc _).bind fun _ => (keepsView_addLog (by simp) rfl).bind fun _ =>
        keepsView_procOf.bind fun _ => keepsView_procOf.bind fun _ => ?_
      apply KeepsView.ite
      · refine (keepsView_setProc _).bind fun _ => keepsView_cleanup.bind fun _ => ?_
        exact ih
      · exact ih
    · exact ih

theorem keepsView_doExit (status : Int) : KeepsView (Mm.seen q) (MM.doExit p status) := by
  refine (keepsView_addLog (by simp) rfl).bind fun _ => (keepsView_setProc _).bind fun _ =>
    keepsView_procOf.bind fun r => ?_
  split
  · refine keepsView_procOf.bind fun _ => ?_
    apply KeepsView.ite
    · exact (keepsView_setProc _).bind fun _ => keepsView_cleanup.bind fun _ =>
        keepsView_adoptChildren _
    · exact (keepsView_setProc _).bind fun _ => keepsView_adoptChildren _
  · exact KeepsView.halt _

end Logs

section Turns

variable {o o' : Outbox MmServer} {r : Request} {files : ExecFiles}

@[simp] theorem wp_liftLife {α : Type} {p : Prog Mm α} {Q : α → Outbox MmServer → Prop}
    {E : Stop → Outbox MmServer → Prop} :
    wp (liftLife p) Q E o ↔
      wp p (fun a t => Q a { o with state := { o.state with mm := t } })
        (fun w t => E w { o with state := { o.state with mm := t } }) o.state.mm := by
  unfold wp liftLife
  cases p o.state.mm <;> rfl

@[simp] theorem wp_liftExec {α : Type} {p : Prog ExecState α} {Q : α → Outbox MmServer → Prop}
    {E : Stop → Outbox MmServer → Prop} :
    wp (liftExec p) Q E o ↔
      wp p (fun a t => Q a { o with state := { o.state with exec := t } })
        (fun w t => E w { o with state := { o.state with exec := t } }) o.state.exec := by
  unfold wp liftExec
  cases p o.state.exec <;> rfl

@[simp] theorem wp_outboxSend {d : Pid} {m : Message} {Q : Unit → Outbox MmServer → Prop}
    {E : Stop → Outbox MmServer → Prop} :
    wp (Outbox.send d m) Q E o ↔ Q () { o with sent := o.sent ++ [(d, m)] } := Iff.rfl

@[simp] theorem wp_sendEvents {n : Nat} {Q : Unit → Outbox MmServer → Prop}
    {E : Stop → Outbox MmServer → Prop} :
    wp (sendEvents n) Q E o ↔
      Q () { o with sent := o.sent ++ answersIn (o.state.mm.log.drop n) } := Iff.rfl

/-- What MM does for one request: the events behind `o` are `evs`, and the messages `out` and `born`
go to processes that wait for an answer and to new processes. -/
structure MmServed (r : Request) (o o' : Outbox MmServer) (evs : List MmEvent)
    (out born : List Mail) : Prop where
  log : o'.state.mm.log = o.state.mm.log ++ evs
  history : o.state.mm.family.after evs = some o'.state.mm.family
  inv : MmInv o'.state.mm
  sent : o'.sent = o.sent ++ out
  births : o'.state.births = o.state.births ++ born
  waits : ∀ p, waitsIn p evs = if (MmTurn.request r).Waits p then 1 else 0
  asks : ∀ p, mailTo p out + (if (MmTurn.request r).Waits p then 1 else 0) =
    mailTo p (answersIn evs) + if (MmTurn.request r).Asks p then 1 else 0
  child : born.map Prod.fst = evs.filterMap MmEvent.child
  forks : ∃ l, ForksBooked (MmTurn.request r).forkRequest.toList out born l
  types : ∀ m ∈ out ++ born, m.2.type = .syscallRet

theorem forksBooked_nil {out : List Mail} (hr : r.msg.type ≠ .fork) :
    ForksBooked (MmTurn.request r).forkRequest.toList out [] [] where
  requests := by
    rw [MmTurn.forkRequest, if_neg hr]
    rfl
  replies := List.nil_sublist _
  births := rfl

theorem type_of_mem_answersIn {l : List MmEvent} {m : Mail} (h : m ∈ answersIn l) :
    m.2.type = .syscallRet := by
  obtain ⟨e, -, he⟩ := List.mem_filterMap.mp h
  cases e <;> simp only [MmEvent.message, Option.some.injEq, reduceCtorEq] at he
  all_goals rw [← he]

theorem mailTo_singleton (p d : Pid) (m : Message) :
    mailTo p [(d, m)] = if d = p then 1 else 0 := by
  by_cases h : d = p <;> simp [mailTo, h]

/-- The history that a handler leaves is the one that the family can take. -/
theorem Mm.Extends.of_log {t t' : Mm} {evs : List MmEvent} (h : t.Extends t')
    (hlog : t'.log = t.log ++ evs) : t.family.after evs = some t'.family := by
  obtain ⟨evs', hlog', hafter⟩ := h
  have heq : evs' = evs := List.append_cancel_left (hlog'.symm.trans hlog)
  rw [← heq]
  exact hafter

theorem mmBody_fork (hr : r.msg.type = .fork) (hi : MmInv o.state.mm) (hto : r.ToMm o.state.mm) :
    wp (mmBody files r) (fun _ o' => ∃ evs out born, MmServed r o o' evs out born)
      (fun _ _ => True) o := by
  have hlive : o.state.mm.family.phase r.src = .live :=
    Process.phase_eq_live.mpr ⟨hto.used, hto.living⟩
  have hwaits : ∀ p, ¬ (MmTurn.request r).Waits p := by
    rintro p ⟨-, hw⟩
    rw [hr] at hw
    cases hw
  have hasks : ∀ p, (MmTurn.request r).Asks p ↔ r.src = p := fun p =>
    and_iff_left (by rw [hr]; decide)
  have hforks : (MmTurn.request r).forkRequest = some r := if_pos hr
  have hspec := wp_and (doFork_spec hi hlive hto.ready) (doFork_log o.state.mm r.src)
  simp only [mmBody, hr, wp_bind, wp_get, wp_liftLife]
  apply wp_mono hspec
  · rintro c t ⟨⟨hext, hinv, -⟩, hlog⟩
    cases c with
    | none =>
      refine ⟨[], _, [], ⟨hlog, hext.of_log hlog, hinv, rfl, (List.append_nil _).symm, ?_, ?_, rfl,
        ⟨[(r, none)], ?_, .refl _, rfl⟩, ?_⟩⟩
      · intro p
        rw [if_neg (hwaits p)]
        rfl
      · intro p
        rw [if_neg (hwaits p), mailTo_singleton]
        simp [hasks, answersIn, mailTo]
      · rw [hforks]
        rfl
      · simp
    | some c =>
      refine ⟨[.fork r.src c], _, [_], ⟨hlog, hext.of_log hlog, hinv, rfl, rfl, ?_, ?_, rfl,
        ⟨[(r, some c)], ?_, .refl _, rfl⟩, ?_⟩⟩
      · intro p
        rw [if_neg (hwaits p)]
        simp [waitsIn]
      · intro p
        rw [if_neg (hwaits p), mailTo_singleton]
        simp [hasks, answersIn, mailTo, MmEvent.message]
      · rw [hforks]
        rfl
      · simp [birthMessage]
  · exact fun _ _ _ => trivial

theorem mmBody_exec (hr : r.msg.type = .exec) (hi : MmInv o.state.mm) :
    wp (mmBody files r) (fun _ o' => ∃ evs out born, MmServed r o o' evs out born)
      (fun _ _ => True) o := by
  have hwaits : ∀ p, ¬ (MmTurn.request r).Waits p := by
    rintro p ⟨-, hw⟩
    rw [hr] at hw
    cases hw
  have hasks : ∀ p, (MmTurn.request r).Asks p ↔ r.src = p := fun p =>
    and_iff_left (by rw [hr]; decide)
  simp only [mmBody, hr, wp_bind, wp_get, wp_liftExec, wp_outboxSend]
  apply wp_mono (wp_true _)
  · intro ret s _
    refine ⟨[], _, [], ⟨(List.append_nil _).symm, rfl, hi, rfl, (List.append_nil _).symm, ?_, ?_,
      rfl, ⟨[], forksBooked_nil (by rw [hr]; decide)⟩, ?_⟩⟩
    · intro p
      rw [if_neg (hwaits p)]
      rfl
    · intro p
      rw [if_neg (hwaits p), mailTo_singleton]
      simp [hasks, answersIn, mailTo]
    · simp
  · exact fun _ _ _ => trivial

theorem served_of_events {evs : List MmEvent} {t : Mm} (hr : r.msg.type ≠ .fork) (hinv : MmInv t)
    (hlog : t.log = o.state.mm.log ++ evs) (hafter : o.state.mm.family.after evs = some t.family)
    (hwaits : ∀ p, waitsIn p evs = if (MmTurn.request r).Waits p then 1 else 0)
    (hasks : ∀ p, (MmTurn.request r).Waits p ↔ (MmTurn.request r).Asks p)
    (hchild : evs.filterMap MmEvent.child = []) :
    MmServed r o ⟨{ o.state with mm := t },
      o.sent ++ answersIn (t.log.drop o.state.mm.log.length)⟩ evs (answersIn evs) [] := by
  refine ⟨hlog, hafter, hinv, ?_, (List.append_nil _).symm, hwaits, fun p => ?_, hchild.symm,
    ⟨[], forksBooked_nil hr⟩, ?_⟩
  · rw [hlog, List.drop_left]
  · simp only [hasks]
  · intro m hm
    rw [List.append_nil] at hm
    exact type_of_mem_answersIn hm

theorem mmBody_exit (hr : r.msg.type = .exit) (hi : MmInv o.state.mm) (hto : r.ToMm o.state.mm) :
    wp (mmBody files r) (fun _ o' => ∃ evs out born, MmServed r o o' evs out born)
      (fun _ _ => True) o := by
  have hlive : o.state.mm.family.phase r.src = .live :=
    Process.phase_eq_live.mpr ⟨hto.used, hto.living⟩
  have hwaits : ∀ p, ¬ (MmTurn.request r).Waits p := by
    rintro p ⟨-, hw⟩
    rw [hr] at hw
    cases hw
  have hasks : ∀ p, ¬ (MmTurn.request r).Asks p := fun p h => h.2 hr
  have hkeeps : wp (MM.doExit r.src r.msg.m3i1)
      (fun _ t => ∀ q, t.seen q = o.state.mm.seen q) (fun _ _ => True) o.state.mm := by
    have hall : ∀ q, wp (MM.doExit r.src r.msg.m3i1) (fun _ t => t.seen q = o.state.mm.seen q)
        (fun _ _ => True) o.state.mm := fun q =>
      (keepsView_doExit _).wp (fun _ _ h => h) (fun _ _ _ => trivial)
    unfold wp at hall ⊢
    cases hrun : MM.doExit r.src r.msg.m3i1 o.state.mm with
    | ok a t =>
      simp only [hrun] at hall
      exact hall
    | stop w t => trivial
  have hspec := wp_and (doExit_spec hi hlive hto.ready r.msg.m3i1) hkeeps
  simp only [mmBody, hr, wp_bind, wp_get, wp_liftLife, wp_sendEvents]
  apply wp_mono hspec
  · rintro _ t ⟨⟨⟨evs, hlog, hafter⟩, hinv, -⟩, hseen⟩
    refine ⟨evs, _, _, served_of_events (by rw [hr]; decide) hinv hlog hafter (fun p => ?_)
      (fun p => ?_) ?_⟩
    · have hcount : waitsIn p t.log = waitsIn p o.state.mm.log := congrArg Prod.fst (hseen p)
      rw [hlog, waitsIn_append] at hcount
      rw [if_neg (hwaits p)]
      omega
    · exact iff_of_false (hwaits p) (hasks p)
    · have hborn := congrArg Prod.snd (hseen r.src)
      change t.log.filterMap MmEvent.child = o.state.mm.log.filterMap MmEvent.child at hborn
      rw [hlog, List.filterMap_append] at hborn
      exact List.append_right_eq_self.mp hborn
  · exact fun _ _ _ => trivial

theorem mmBody_wait (hr : r.msg.type = .wait) (hi : MmInv o.state.mm) (hto : r.ToMm o.state.mm) :
    wp (mmBody files r) (fun _ o' => ∃ evs out born, MmServed r o o' evs out born)
      (fun _ _ => True) o := by
  have hlive : o.state.mm.family.phase r.src = .live :=
    Process.phase_eq_live.mpr ⟨hto.used, hto.living⟩
  have hwaits : ∀ p, (MmTurn.request r).Waits p ↔ r.src = p := fun p => and_iff_left hr
  have hasks : ∀ p, (MmTurn.request r).Asks p ↔ r.src = p := fun p =>
    and_iff_left (by rw [hr]; decide)
  simp only [mmBody, hr, wp_bind, wp_get, wp_liftLife, wp_sendEvents]
  apply wp_mono (doWait_result o.state.mm r.src)
  · intro _ t hres
    obtain ⟨hext, hinv⟩ := doWait_spec hi hlive hto.ready hres
    have hevs : ∃ evs, t.log = o.state.mm.log ++ .wait r.src :: evs ∧
        (∀ p, waitsIn p evs = 0) ∧ evs.filterMap MmEvent.child = [] := by
      cases hres with
      | reaped i hp hz ht =>
        refine ⟨[.reap i (o.state.mm.procTable i).exitStatus r.src], ?_, by simp [waitsIn], rfl⟩
        rw [ht]
        simp
      | waits i hp hn ht =>
        refine ⟨[], ?_, by simp [waitsIn], rfl⟩
        rw [ht]
        simp
      | noChild hn ht =>
        refine ⟨[.noChild r.src .noTask (-1)], ?_, by simp [waitsIn], rfl⟩
        rw [ht]
        simp
    obtain ⟨evs, hlog, hnone, hchild⟩ := hevs
    refine ⟨_, _, _, served_of_events (by rw [hr]; decide) hinv hlog (hext.of_log hlog)
      (fun p => ?_) (fun p => ?_) ?_⟩
    · have hsplit : waitsIn p (.wait r.src :: evs) = waitsIn p [.wait r.src] + waitsIn p evs :=
        waitsIn_append p [.wait r.src] evs
      rw [hsplit, hnone p]
      by_cases hp : r.src = p <;> simp [waitsIn, hwaits, hp]
    · rw [hwaits, hasks]
    · exact hchild
  · exact fun _ _ hE => hE.elim

end Turns

section Runs

variable {o o' : Outbox MmServer} {files : ExecFiles} {act : MmTurn} {acts : List MmTurn} {t₀ : Mm}

/-- The books of MM: what it has sent, against the requests and the history. -/
structure MmBooks (t₀ : Mm) (acts : List MmTurn) (o : Outbox MmServer) : Prop where
  inv : MmInv o.state.mm
  history : t₀.family.after o.state.mm.log = some o.state.mm.family
  waits : ∀ p, waitsIn p o.state.mm.log = acts.countP (·.Waits p)
  asks : ∀ p, mailTo p o.sent + acts.countP (·.Waits p) =
    mailTo p (answersIn o.state.mm.log) + acts.countP (·.Asks p)
  births : o.state.births.map Prod.fst = o.state.mm.log.filterMap MmEvent.child
  forks : ∃ l, ForksBooked (acts.filterMap MmTurn.forkRequest) o.sent o.state.births l
  types : ∀ m ∈ o.sent ++ o.state.births, m.2.type = .syscallRet

theorem filterMap_singleton {α β : Type} (f : α → Option β) (a : α) :
    [a].filterMap f = (f a).toList := by
  cases h : f a <;> simp [h]

theorem countP_snoc {α : Type} (P : α → Prop) [DecidablePred P] (l : List α) (a : α) :
    (l ++ [a]).countP P = l.countP P + if P a then 1 else 0 := by
  by_cases h : P a <;> simp [h]

theorem MmServed.books {r : Request} {evs : List MmEvent} {out born : List Mail}
    (h : MmServed r o o' evs out born) (hb : MmBooks t₀ acts o) :
    MmBooks t₀ (acts ++ [.request r]) o' := by
  refine ⟨h.inv, ?_, fun p => ?_, fun p => ?_, ?_, ?_, ?_⟩
  · rw [h.log, Family.after_append hb.history, h.history]
  · rw [h.log, waitsIn_append, countP_snoc, hb.waits p, h.waits p]
  · have hasks := hb.asks p
    have hturn := h.asks p
    rw [h.log, h.sent, mailTo_append, mailTo_answersIn_append, countP_snoc, countP_snoc]
    omega
  · rw [h.births, h.log, List.map_append, List.filterMap_append, hb.births, h.child]
  · obtain ⟨l, hl⟩ := hb.forks
    obtain ⟨l', hl'⟩ := h.forks
    refine ⟨l ++ l', ?_⟩
    rw [List.filterMap_append, filterMap_singleton, h.sent, h.births]
    exact hl.append hl'
  · intro m hm
    rw [h.sent, h.births, List.append_assoc, List.mem_append, List.mem_append,
      List.mem_append] at hm
    have hold := hb.types m
    have hnew := h.types m
    rw [List.mem_append] at hold hnew
    tauto

theorem MmTurnStep.books (hstep : MmTurnStep files o act o') (hb : MmBooks t₀ acts o) :
    MmBooks t₀ (acts ++ [act]) o' := by
  cases act with
  | request r =>
    obtain ⟨hto, hrun⟩ := hstep
    have hserved : ∃ evs out born, MmServed r o o' evs out born := by
      rcases hto.known with hr | hr | hr | hr
      · exact wp_ok (mmBody_fork hr hb.inv hto) hrun
      · exact wp_ok (mmBody_exit hr hb.inv hto) hrun
      · exact wp_ok (mmBody_wait hr hb.inv hto) hrun
      · exact wp_ok (mmBody_exec hr hb.inv) hrun
    obtain ⟨evs, out, born, hserved⟩ := hserved
    exact hserved.books hb
  | ipc table =>
    obtain ⟨hsame, rfl⟩ := hstep
    have hstep : MmStep o.state.mm (.ipc table) { o.state.mm with procTable := table } :=
      ⟨hsame, rfl⟩
    obtain ⟨⟨evs, hlog, hafter⟩, hinv⟩ := MmStep.spec hstep hb.inv
    have hfam : Mm.family { o.state.mm with procTable := table } = o.state.mm.family := hsame.family
    refine ⟨hinv, hb.history.trans (congrArg some hfam.symm), fun p => ?_, fun p => ?_, hb.births,
      ?_, hb.types⟩
    · rw [countP_snoc, if_neg (show ¬ (MmTurn.ipc table).Waits p from id)]
      exact hb.waits p
    · rw [countP_snoc, countP_snoc, if_neg (show ¬ (MmTurn.ipc table).Waits p from id),
        if_neg (show ¬ (MmTurn.ipc table).Asks p from id)]
      exact hb.asks p
    · obtain ⟨l, hl⟩ := hb.forks
      refine ⟨l, ?_⟩
      rw [List.filterMap_append, filterMap_singleton, MmTurn.forkRequest, Option.toList_none,
        List.append_nil]
      exact hl

theorem books_of_run {imageSize : Pid → Nat} {memorySize : Nat}
    (hr : Run (MmTurnStep files) ⟨{ mm := mmInit imageSize memorySize }, []⟩ acts o) :
    MmBooks (mmInit imageSize memorySize) acts o := by
  induction hr with
  | nil =>
    exact ⟨mmInit_inv _ _, rfl, fun _ => rfl, fun _ => rfl, rfl, ⟨[], rfl, .refl _, rfl⟩, by simp⟩
  | snoc _ hstep ih => exact hstep.books ih

theorem inWait_mmInit (imageSize : Pid → Nat) (memorySize : Nat) (p : Pid) :
    (mmInit imageSize memorySize).family.inWait p = false := by
  change (kernelMainTable p).pFlags.waiting = false
  unfold kernelMainTable
  split <;> rfl

/-- In every run, MM has answered each request of each process but `EXIT` exactly once, a `WAIT` of
a process that is still in it excepted; every child got one message of its own; every reply and every
birth is a `SYSCALL_RET`; and the requests to fork have their replies and their children, in order. -/
theorem replies_of_run {imageSize : Pid → Nat} {memorySize : Nat}
    (hr : Run (MmTurnStep files) ⟨{ mm := mmInit imageSize memorySize }, []⟩ acts o) :
    (∀ p, acts.countP (·.Asks p) =
      mailTo p o.sent + ((o.state.mm.procTable p).pFlags.waiting).toNat) ∧
    o.state.births.map Prod.fst = o.state.mm.log.filterMap MmEvent.child ∧
    (∀ m ∈ o.sent ++ o.state.births, m.2.type = .syscallRet) ∧
    ∃ l, ForksBooked (acts.filterMap MmTurn.forkRequest) o.sent o.state.births l := by
  have hb := books_of_run hr
  refine ⟨fun p => ?_, hb.births, hb.types, hb.forks⟩
  have hwaits := Family.waits_eq hb.history p
  rw [inWait_mmInit, hb.waits p] at hwaits
  have hasks := hb.asks p
  have hzero : false.toNat = 0 := rfl
  have hflag : (o.state.mm.family.inWait p).toNat =
      ((o.state.mm.procTable p).pFlags.waiting).toNat := rfl
  omega

/-- INIT forks and waits, and its child exits: INIT has asked twice and has two answers. -/
theorem replies_of_run_child : ∃ o acts,
    Run (MmTurnStep fun _ => ⟨-1, -1, 0, fun _ => 0⟩)
      ⟨{ mm := mmInit (fun _ => 0x100000) 0x4000000 }, []⟩ acts o ∧
    acts.countP (·.Asks init) = 2 ∧
    acts.countP (·.Asks init) =
      mailTo init o.sent + ((o.state.mm.procTable init).pFlags.waiting).toNat := by
  let child : Pid := ⟨7, seven_lt_nrSlots⟩
  let files : ExecFiles := fun _ => ⟨-1, -1, 0, fun _ => 0⟩
  let r₁ : Request := ⟨init, { type := .fork }⟩
  let r₂ : Request := ⟨init, { type := .wait }⟩
  let r₃ : Request := ⟨child, { type := .exit, m3i1 := 3 }⟩
  let o₀ : Outbox MmServer := ⟨{ mm := mmInit (fun _ => 0x100000) 0x4000000 }, []⟩
  let o₁ : Outbox MmServer := (mmBody files r₁ o₀).state
  let o₂ : Outbox MmServer := (mmBody files r₂ o₁).state
  let o₃ : Outbox MmServer := (mmBody files r₃ o₂).state
  have h₁ : MmTurnStep files o₀ (.request r₁) o₁ := by
    refine ⟨⟨by decide, rfl, rfl, rfl, by decide, by decide⟩, ?_⟩
    exact Result.eq_ok_of_isOk (by decide +kernel)
  have h₂ : MmTurnStep files o₁ (.request r₂) o₂ := by
    refine ⟨⟨by decide, by decide +kernel, by decide +kernel, by decide +kernel, by decide,
      by decide⟩, ?_⟩
    exact Result.eq_ok_of_isOk (by decide +kernel)
  have h₃ : MmTurnStep files o₂ (.request r₃) o₃ := by
    refine ⟨⟨by decide, by decide +kernel, by decide +kernel, by decide +kernel, by decide,
      by decide⟩, ?_⟩
    exact Result.eq_ok_of_isOk (by decide +kernel)
  have hr : Run (MmTurnStep files) o₀ [.request r₁, .request r₂, .request r₃] o₃ :=
    .snoc (.snoc (.snoc .nil h₁) h₂) h₃
  exact ⟨o₃, _, hr, by decide, (replies_of_run hr).1 init⟩

end Runs

end BazingaOS
