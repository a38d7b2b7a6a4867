import BazingaOS.Kernel.IpcSystem
import BazingaOS.Lib.Walk

/-!
# Readiness and send cycles

No two processes that are ready for each other are both left blocked, and the search of
`deadlock` ends and finds exactly the cycles that a send would close.
-/

namespace BazingaOS

open Prog

variable {k : Kernel} {x : Ipc} {m : Machine Kernel} {s d : Pid} {a : Addr}

theorem Refines.receiving_of_flags (h : Refines k x) {p : Pid}
    (hp : (k.procTable p).pFlags.receiving = true) :
    ∃ src b, x.status p = .receiving src b ∧ (k.procTable p).pRecvfrom = src.endpoint := by
  have he := h.record p
  cases hs : x.status p with
  | free =>
    rw [hs] at he
    rw [show (k.procTable p).pFlags = Flags.free from he] at hp
    cases hp
  | idle =>
    rw [(h.idle_fields hs).1] at hp
    cases hp
  | sending d a =>
    rw [(h.sending_fields hs).1] at hp
    cases hp
  | receiving src b => exact ⟨src, b, rfl, (h.receiving_fields hs).2.2.2⟩

theorem Refines.sending_of_flags (h : Refines k x) {p d : Pid}
    (hp : (k.procTable p).pFlags.sending = true) (hto : (k.procTable p).pSendto = .proc d) :
    ∃ b, x.status p = .sending d b := by
  obtain ⟨e, b, hs⟩ := (h.sending_iff p).mp hp
  have he := (h.sending_fields hs).2.2.1
  rw [hto] at he
  cases he
  exact ⟨b, hs⟩

/-- No sender waits for a process that waits for it, and no process waits for an interrupt that
it has been informed of. -/
structure NoMissed (k : Kernel) : Prop where
  sender : ∀ s d, (k.procTable s).pFlags.sending = true → (k.procTable s).pSendto = .proc d →
    (k.procTable d).pFlags.receiving = true →
    (k.procTable d).pRecvfrom ≠ .any ∧ (k.procTable d).pRecvfrom ≠ .proc s
  interrupt : ∀ t, (k.procTable t).pFlags.receiving = true →
    (k.procTable t).pRecvfrom = .any ∨ (k.procTable t).pRecvfrom = .interrupt →
    (k.procTable t).hasIntMsg = false

theorem Refines.noMissed (h : Refines k x) (hx : x.Matched) : NoMissed k := by
  constructor
  · intro s d hs hto hd
    obtain ⟨a, hst⟩ := h.sending_of_flags hs hto
    obtain ⟨src, b, hdst, hfrom⟩ := h.receiving_of_flags hd
    obtain ⟨hany, honly⟩ := hx.sender s d a src b hst hdst
    rw [hfrom]
    cases src with
    | any => exact absurd rfl hany
    | interrupt => simp [Source.endpoint]
    | only q =>
      refine ⟨by simp [Source.endpoint], ?_⟩
      intro hq
      cases hq
      exact honly rfl
  · intro t ht hfrom
    obtain ⟨src, b, hst, he⟩ := h.receiving_of_flags ht
    rw [h.pending]
    apply hx.pending t src b hst
    rw [he] at hfrom
    cases src with
    | any => exact .inl rfl
    | interrupt => exact .inr rfl
    | only q => rcases hfrom with hfrom | hfrom <;> cases hfrom

theorem ipcInit_not_sending (mem : Pid → Addr → Message) (p d : Pid) (a : Addr) :
    (ipcInit mem).status p ≠ .sending d a := by
  unfold ipcInit
  simp only
  split <;> simp

theorem ipcInit_not_receiving (mem : Pid → Addr → Message) (p : Pid) (src : Source Pid)
    (a : Addr) : (ipcInit mem).status p ≠ .receiving src a := by
  unfold ipcInit
  simp only
  split <;> simp

theorem matched_of_run {mem : Pid → Addr → Message} {acts : List IpcAction}
    (hr : Run CallStep { state := kernelMain mem } acts m) : ∃ x, Refines m.state x ∧ x.Matched :=
  CallStep.run_invariant hr
    ⟨fun s d a _ _ hs => absurd hs (ipcInit_not_sending mem s d a),
      fun t src b ht => absurd ht (ipcInit_not_receiving mem t src b)⟩
    (fun p a v h => h.setMem p a v) (fun _ h hs _ _ => h.send hs) (fun hw h => h.receive hw intMessage)
    (fun _ h => h.inform markInt)

/-- Two parties that are ready for each other are never both left blocked, in any state of any
run. -/
theorem noMissed_of_run {mem : Pid → Addr → Message} {acts : List IpcAction}
    (hr : Run IpcStep { state := kernelMain mem } acts m) : NoMissed m.state := by
  obtain ⟨x, hx, hm⟩ := matched_of_run (hr.mono fun _ _ _ h => h.callStep)
  exact hx.noMissed hm

/-- INIT sends to TTY, and TTY, informed of an interrupt, waits for MM. -/
theorem noMissed_of_run_blocked : ∃ m, m.stopped = none ∧ NoMissed m.state ∧
    (m.state.procTable init).pFlags.sending = true ∧
    (m.state.procTable taskTty).pFlags.receiving = true ∧
    Run IpcStep { state := kernelMain fun _ _ => {} }
      [.receive taskTty (.only taskMm) 0 {}, .send init taskTty 0 {}, .inform taskTty] m := by
  let act₁ : IpcAction := .receive taskTty (.only taskMm) 0 {}
  let act₂ : IpcAction := .send init taskTty 0 {}
  let act₃ : IpcAction := .inform taskTty
  let m₀ : Machine Kernel := { state := kernelMain fun _ _ => {} }
  have h₁ : IpcStep m₀ act₁ (m₀.exec act₁.prog) :=
    ⟨rfl, ⟨rfl, by rintro q ⟨⟩; exact ⟨by decide, rfl⟩⟩, rfl⟩
  have h₂ : IpcStep (m₀.exec act₁.prog) act₂ ((m₀.exec act₁.prog).exec act₂.prog) :=
    ⟨rfl, ⟨rfl, by decide, rfl⟩, rfl⟩
  have h₃ : IpcStep ((m₀.exec act₁.prog).exec act₂.prog) act₃
      (((m₀.exec act₁.prog).exec act₂.prog).exec act₃.prog) :=
    ⟨by decide +kernel, by change taskTty.val < nrTasks; decide, rfl⟩
  have hr : Run IpcStep m₀ [act₁, act₂, act₃] _ := .snoc (.snoc (.snoc .nil h₁) h₂) h₃
  exact ⟨_, by decide +kernel, noMissed_of_run hr, by decide +kernel, by decide +kernel, hr⟩

/-- The process to which `p` is blocked in a send. -/
def Kernel.target (k : Kernel) (p : Pid) : Option Pid :=
  if (k.procTable p).pFlags.sending then
    match (k.procTable p).pSendto with
    | .proc q => some q
    | _ => none
  else none

/-- The branch of `deadlock` that reports a cycle. -/
def deadlockCycle (src : Pid) : Prog Kernel Bool := do
  deadlockReport src nrSlots src
  return true

theorem Refines.target_eq_some (h : Refines k x) (p q : Pid) :
    k.target p = some q ↔ ∃ a, x.status p = .sending q a := by
  unfold Kernel.target
  constructor
  · intro ht
    split at ht
    · next hs =>
      split at ht
      · next r hto =>
        cases ht
        exact h.sending_of_flags hs hto
      · cases ht
    · cases ht
  · rintro ⟨a, ha⟩
    simp [(h.sending_fields ha).1, (h.sending_fields ha).2.2.1]

theorem Refines.target_eq_none (h : Refines k x) (p : Pid) :
    k.target p = none ↔ ∀ q a, x.status p ≠ .sending q a := by
  rw [Option.eq_none_iff_forall_ne_some]
  constructor
  · intro hn q a ha
    exact hn q ((h.target_eq_some p q).mpr ⟨a, ha⟩)
  · intro hn q hq
    obtain ⟨a, ha⟩ := (h.target_eq_some p q).mp hq
    exact hn q a ha

/-- The search of `deadlock` from a process whose chain of sends ends. -/
theorem deadlockWalk_eq (h : Refines k x) {n : Nat} {p : Pid} (hw : walk k.target n p = none) :
    (Leads k.target p s → deadlockWalk s n p k = deadlockCycle s k) ∧
      (¬ Leads k.target p s → deadlockWalk s n p k = .ok false k) := by
  induction n generalizing p with
  | zero => cases hw
  | succ n ih =>
    have hunfold : deadlockWalk s (n + 1) p k =
        (if (k.procTable p).pFlags.sending then
          if (k.procTable p).pSendto = .proc s then deadlockCycle s
          else
            match (k.procTable p).pSendto with
            | .proc q => deadlockWalk s n q
            | _ => halt .undefined
        else (pure false : Prog Kernel Bool)) k := rfl
    rw [hunfold]
    cases ht : k.target p with
    | none =>
      have hs := h.not_sending ((h.target_eq_none p).mp ht)
      rw [if_neg (by simp [hs])]
      exact ⟨fun hl => absurd hl (not_leads_of_none ht), fun _ => rfl⟩
    | some q =>
      obtain ⟨a, ha⟩ := (h.target_eq_some p q).mp ht
      have hto := (h.sending_fields ha).2.2.1
      rw [if_pos ((h.sending_iff p).mpr ⟨q, a, ha⟩), hto]
      by_cases hqs : q = s
      · subst hqs
        rw [if_pos rfl]
        exact ⟨fun _ => rfl, fun hn => absurd (leads_of_next ht) hn⟩
      · have hrest : walk k.target n q = none := by
          simpa [walk, ht] using hw
        rw [if_neg (by simpa using hqs), leads_iff_of_ne ht hqs]
        exact ih hrest

theorem deadlockCycle_of_idle (h : Refines k x) (hs : x.status s = .idle) :
    deadlockCycle s k = .stop .assertion k := by
  have hmsg := (h.idle_fields hs).2.1
  have hw : wp (deadlockCycle s) (fun _ _ => False) (fun w k' => w = .assertion ∧ k' = k) k := by
    obtain ⟨n, hn⟩ : ∃ n, nrSlots = n + 1 := ⟨36, rfl⟩
    rw [deadlockCycle, hn]
    simp [deadlockReport, hmsg]
  unfold wp at hw
  cases hp : deadlockCycle s k with
  | ok _ _ =>
    rw [hp] at hw
    exact hw.elim
  | stop w k' =>
    rw [hp] at hw
    rw [hw.1, hw.2]

theorem not_leads_of_send (h : Refines k x) (hs : x.status s = .idle) (hsd : s ≠ d)
    (hn : Acyclic k.target) (hok : (msgSend s d (some a) k).isOk = true) :
    ¬ Leads k.target d s := by
  intro hl
  have hwalk : deadlock s d k = .stop .assertion k :=
    ((deadlockWalk_eq h (by simpa using hn.walk_eq_none d)).1 hl).trans (deadlockCycle_of_idle h hs)
  have hw : wp (msgSend s d (some a)) (fun _ _ => False) (fun _ _ => True) k := by
    simp only [msgSend, wp_bind, wp_check]
    refine ⟨fun _ => ?_, fun hne => absurd hsd hne⟩
    unfold wp
    rw [hwalk]
    trivial
  unfold wp at hw
  cases hp : msgSend s d (some a) k with
  | ok _ _ =>
    rw [hp] at hw
    exact hw
  | stop _ _ =>
    rw [hp] at hok
    cases hok

/-- The process to which `p` is blocked in a send, in the rendezvous machine. -/
def Rendezvous.target (x : Ipc) (p : Pid) : Option Pid :=
  match x.status p with
  | .sending d _ => some d
  | _ => none

theorem Rendezvous.target_eq_some (x : Ipc) (p q : Pid) :
    x.target p = some q ↔ ∃ a, x.status p = .sending q a := by
  unfold Rendezvous.target
  cases hs : x.status p <;> simp

theorem Refines.target_eq (h : Refines k x) : k.target = x.target := by
  funext p
  apply Option.ext
  intro q
  rw [h.target_eq_some, x.target_eq_some]

theorem acyclic_of_status {x x' : Ipc} (hn : Acyclic x.target)
    (hs : ∀ p d a, x'.status p = .sending d a → x.status p = .sending d a) :
    Acyclic x'.target := by
  apply hn.mono
  intro p q hp
  obtain ⟨a, ha⟩ := (x'.target_eq_some p q).mp hp
  exact (x.target_eq_some p q).mpr ⟨a, hs p q a ha⟩

theorem acyclic_send (h : Refines k x) (hn : Acyclic x.target) (hs : x.status s = .idle)
    (hsd : s ≠ d) (hok : (msgSend s d (some a) k).isOk = true) :
    Acyclic (x.send s d a).target := by
  have hl := not_leads_of_send h hs hsd (h.target_eq ▸ hn) hok
  rw [h.target_eq] at hl
  rcases Rendezvous.send_case x s d a with ⟨b, _, status, _, _⟩ | ⟨_, status, _, _⟩
  · apply acyclic_of_status hn
    intro p e c hp
    rw [status] at hp
    split at hp
    · cases hp
    · exact hp
  · have hidle : x.target s = none := by simp [Rendezvous.target, hs]
    have htarget : (x.send s d a).target = Function.update x.target s (some d) := by
      funext p
      unfold Rendezvous.target
      rw [status, Function.update_apply]
      by_cases hp : p = s
      · rw [if_pos hp, if_pos hp]
      · rw [if_neg hp, if_neg hp]
    rw [htarget]
    exact hn.update hidle (Ne.symm hsd) hl

theorem acyclic_receive (hw : x.WF) (hn : Acyclic x.target) {r : Pid} {src : Source Pid} :
    Acyclic (x.receive intMessage r src a).target := by
  apply acyclic_of_status hn
  intro p e c hp
  rcases hw.receive_case intMessage r src a with ⟨_, _, status, _, _⟩ | ⟨f, b, _, _, status, _, _⟩ |
    ⟨_, status, _, _⟩
  · rw [status] at hp
    exact hp
  · rw [status] at hp
    split at hp
    · cases hp
    · exact hp
  · rw [status] at hp
    split at hp
    · cases hp
    · exact hp

theorem acyclic_inform (hn : Acyclic x.target) (t : Pid) :
    Acyclic (x.inform markInt t).target := by
  apply acyclic_of_status hn
  intro p e c hp
  unfold Rendezvous.inform at hp
  split at hp
  · change Function.update x.status t .idle p = _ at hp
    rw [Function.update_apply] at hp
    split at hp
    · cases hp
    · exact hp
  · exact hp

theorem acyclic_of_run {mem : Pid → Addr → Message} {acts : List IpcAction}
    (hr : Run CallStep { state := kernelMain mem } acts m) :
    ∃ x, Refines m.state x ∧ Acyclic x.target := by
  refine CallStep.run_invariant hr ?_ (fun _ _ _ h => h) acyclic_send (fun hw h => acyclic_receive hw h)
    (fun t h => acyclic_inform h t)
  intro p hp
  refine not_leads_of_none ?_ hp
  rw [Option.eq_none_iff_forall_ne_some]
  intro q hq
  obtain ⟨a, ha⟩ := ((ipcInit mem).target_eq_some p q).mp hq
  exact ipcInit_not_sending mem p q a ha

/-- In every state of every run the relation of blocked senders is acyclic; the search of
`deadlock` for a runnable process ends, takes its cycle branch exactly if the sends that start at
the target lead back, and a send that it lets through closes no cycle. -/
theorem deadlock_of_run {mem : Pid → Addr → Message} {acts : List IpcAction}
    (hr : Run CallStep { state := kernelMain mem } acts m) :
    Acyclic m.state.target ∧ ∀ src dest, (m.state.procTable src).pFlags = 0 → dest ≠ src →
      (∀ k', deadlock src dest m.state ≠ .stop .hang k') ∧
      (deadlock src dest m.state = deadlockCycle src m.state ↔ Leads m.state.target dest src) ∧
      (deadlock src dest m.state = .ok false m.state ↔ ¬ Leads m.state.target dest src) ∧
      (deadlock src dest m.state = .ok false m.state →
        Acyclic (Function.update m.state.target src (some dest))) := by
  obtain ⟨x, hx, hn⟩ := acyclic_of_run hr
  rw [← hx.target_eq] at hn
  refine ⟨hn, fun src dest hsrc hds => ?_⟩
  have hidle := hx.status_of_flags hsrc
  obtain ⟨hyes, hno⟩ := deadlockWalk_eq (s := src) hx
    (show walk m.state.target nrSlots dest = none by simpa using hn.walk_eq_none dest)
  have hcycle := deadlockCycle_of_idle hx hidle
  have hnone : m.state.target src = none :=
    (hx.target_eq_none src).mpr (by simp [hidle])
  by_cases hl : Leads m.state.target dest src
  · have hd : deadlock src dest m.state = deadlockCycle src m.state := hyes hl
    refine ⟨?_, ⟨fun _ => hl, fun _ => hd⟩, ⟨?_, fun h => absurd hl h⟩, ?_⟩
    · intro k' hk
      rw [hd, hcycle] at hk
      cases hk
    · intro hk
      rw [hd, hcycle] at hk
      cases hk
    · intro hk
      rw [hd, hcycle] at hk
      cases hk
  · have hd : deadlock src dest m.state = .ok false m.state := hno hl
    refine ⟨?_, ⟨?_, fun h => absurd h hl⟩, ⟨fun _ => hl, fun _ => hd⟩, ?_⟩
    · intro k' hk
      rw [hd] at hk
      cases hk
    · intro hk
      rw [hd, hcycle] at hk
      cases hk
    · exact fun _ => hn.update hnone hds hl

/-- INIT is blocked in a send to MM, so a send of MM to INIT would close a cycle. -/
theorem deadlock_of_run_chain : ∃ m, (m.state.procTable taskMm).pFlags = 0 ∧
    Leads m.state.target init taskMm ∧
    deadlock taskMm init m.state = deadlockCycle taskMm m.state ∧
    Run CallStep { state := kernelMain fun _ _ => {} } [.send init taskMm 0 {}] m := by
  let m₀ : Machine Kernel := { state := kernelMain fun _ _ => {} }
  have h₁ : CallStep m₀ (.send init taskMm 0 {}) (m₀.exec (IpcAction.send init taskMm 0 {}).prog) :=
    ⟨rfl, ⟨rfl, by decide⟩, rfl⟩
  have hr : Run CallStep m₀ [.send init taskMm 0 {}] _ := .snoc .nil h₁
  have hf : ((m₀.exec (IpcAction.send init taskMm 0 {}).prog).state.procTable taskMm).pFlags = 0 := by
    decide +kernel
  have hl : Leads (m₀.exec (IpcAction.send init taskMm 0 {}).prog).state.target init taskMm :=
    leads_of_next (by decide +kernel)
  exact ⟨_, hf, hl, ((deadlock_of_run hr).2 taskMm init hf (by decide)).2.1.mpr hl, hr⟩

/-- The processes that the reporting loop of `deadlock` looks at, from `p` on. -/
def reportVisits (k : Kernel) (src : Pid) : Nat → Pid → List Pid
  | 0, _ => []
  | n + 1, p =>
    p :: if (k.procTable p).pMsg = none then [] else
      match (k.procTable p).pSendto with
      | .proc q => if q = src then [] else reportVisits k src n q
      | _ => []

/-- The processes of the cycle that a send from `src` to `dest` would close. -/
def OnCycle (k : Kernel) (src dest q : Pid) : Prop :=
  q = src ∨ q = dest ∨ Leads k.target dest q ∧ Leads k.target q src

/-- The cycle is reported: the search returns 1 after it has visited every process of the cycle, and
the sender gets to the panic of `msg_send`. -/
structure Reported (k : Kernel) (src dest : Pid) (a : Addr) : Prop where
  returns : deadlock src dest k = .ok true k
  visits : ∀ q, OnCycle k src dest q → q ∈ reportVisits k src nrSlots src
  panics : ∃ k', msgSend src dest (some a) k = .stop .panic k'

/-- The report begins at the sender, which has no message that waits to be sent. -/
theorem deadlock_asserts {mem : Pid → Addr → Message} {acts : List IpcAction}
    (hr : Run CallStep { state := kernelMain mem } acts m)
    (hs : (m.state.procTable s).pFlags = 0) (hl : Leads m.state.target d s) :
    deadlock s d m.state = .stop .assertion m.state := by
  obtain ⟨x, hx, hn⟩ := acyclic_of_run hr
  rw [← hx.target_eq] at hn
  have hwalk : walk m.state.target nrSlots d = none := by simpa using hn.walk_eq_none d
  have hcycle := (deadlockWalk_eq hx hwalk).1 hl
  exact hcycle.trans (deadlockCycle_of_idle hx (hx.status_of_flags hs))

theorem msgSend_of_deadlock_asserts (hsd : s ≠ d)
    (h : deadlock s d k = .stop .assertion k) : msgSend s d (some a) k = .stop .assertion k := by
  have hw : wp (msgSend s d (some a)) (fun _ _ => False) (fun w k' => w = .assertion ∧ k' = k) k := by
    simp only [msgSend, wp_bind, wp_check]
    refine ⟨fun _ => ?_, fun hne => absurd hsd hne⟩
    unfold wp
    rw [h]
    exact ⟨rfl, rfl⟩
  unfold wp at hw
  cases hp : msgSend s d (some a) k with
  | ok _ _ =>
    rw [hp] at hw
    exact hw.elim
  | stop w k' =>
    rw [hp] at hw
    rw [hw.1, hw.2]

/-- No cycle is ever reported: whenever a send would close one, the sender fails the assertion of the
reporting loop instead. -/
theorem not_reported_of_run {mem : Pid → Addr → Message} {acts : List IpcAction}
    (hr : Run CallStep { state := kernelMain mem } acts m)
    (hs : (m.state.procTable s).pFlags = 0) (hsd : s ≠ d) (hl : Leads m.state.target d s) :
    ¬ Reported m.state s d a ∧ msgSend s d (some a) m.state = .stop .assertion m.state := by
  have hstop := deadlock_asserts hr hs hl
  refine ⟨fun h => ?_, msgSend_of_deadlock_asserts hsd hstop⟩
  have hret := h.returns
  rw [hstop] at hret
  cases hret

private theorem exists_chain : ∃ m, Run CallStep { state := kernelMain fun _ _ => {} }
    [.send init taskMm 0 {}] m ∧ (m.state.procTable taskMm).pFlags = 0 ∧
    Leads m.state.target init taskMm := by
  let m₀ : Machine Kernel := { state := kernelMain fun _ _ => {} }
  have h₁ : CallStep m₀ (.send init taskMm 0 {}) (m₀.exec (IpcAction.send init taskMm 0 {}).prog) :=
    ⟨rfl, ⟨rfl, by decide⟩, rfl⟩
  exact ⟨_, .snoc .nil h₁, by decide +kernel, leads_of_next (by decide +kernel)⟩

theorem not_reported_of_run_chain : ∃ m, Run CallStep { state := kernelMain fun _ _ => {} }
    [.send init taskMm 0 {}] m ∧ Leads m.state.target init taskMm ∧
    msgSend taskMm init (some 0) m.state = .stop .assertion m.state := by
  obtain ⟨m, hr, hs, hl⟩ := exists_chain
  exact ⟨m, hr, hl, (not_reported_of_run hr hs (by decide) hl).2⟩

/-- MM sends to INIT while INIT is blocked in a send to MM. -/
theorem report_asserts_on_sender : ∃ m, Run CallStep { state := kernelMain fun _ _ => {} }
    [.send init taskMm 0 {}] m ∧ (m.state.procTable taskMm).pFlags = 0 ∧
    Leads m.state.target init taskMm ∧ ¬ Reported m.state taskMm init 0 := by
  obtain ⟨m, hr, hs, hl⟩ := exists_chain
  refine ⟨m, hr, hs, hl, fun h => ?_⟩
  have hret := h.returns
  rw [deadlock_asserts hr hs hl] at hret
  cases hret

end BazingaOS
