import BazingaOS.Kernel.IpcSystem

/-!
# Waiting for a server

A server asks for the next message with `sendrec(RECEIVE, ANY)`. A process that is blocked in a
`SEND` to it is served at the latest when the server has asked, with no interrupt to answer it,
once for each process in front of it in the queue and once more.
-/

namespace BazingaOS

/-- Process `d` receives from anybody while no interrupt is remembered for it. -/
def IpcAction.Asks (d : Pid) (k : Kernel) : IpcAction → Prop
  | .receive r src _ _ => r = d ∧ src = .any ∧ (k.procTable d).hasIntMsg = false
  | _ => False

instance (d : Pid) (k : Kernel) (act : IpcAction) : Decidable (act.Asks d k) := by
  cases act <;> unfold IpcAction.Asks <;> infer_instance

/-- A run together with the number of times a process has asked. -/
structure Watched where
  machine : Machine Kernel
  asked : Nat := 0

def WatchedStep (d : Pid) (w : Watched) (act : IpcAction) (w' : Watched) : Prop :=
  IpcStep w.machine act w'.machine ∧
    w'.asked = w.asked + if act.Asks d w.machine.state then 1 else 0

/-- A receive of `d` hands it the message `v` of `s`, and `s` runs on. -/
structure Serves (s d : Pid) (v : Message) (act : IpcAction) (k' : Kernel) : Prop where
  receive : ∃ src b u, act = .receive d src b u ∧ (src = .any ∨ src = .only s) ∧ k'.mem d b = v
  runnable : (k'.procTable s).pFlags = 0

/-- `s` waits for `d` behind as many senders as `d` may still ask without coming to it. -/
def Watched.Inv (s d : Pid) (v : Message) (limit : Nat) (w : Watched) : Prop :=
  ∃ (x : Ipc) (n : Nat), Refines w.machine.state x ∧ x.Waits s d v n ∧ w.asked + n ≤ limit

variable {k : Kernel} {x : Ipc} {s d : Pid} {v : Message} {limit n : Nat} {w w' : Watched}
  {act : IpcAction}

theorem Rendezvous.Waits.apply (hk : Refines k x) (h : x.Waits s d v n) (hc : act.Callable k) :
    (∃ src b u, act = .receive d src b u ∧ (src = .any ∨ src = .only s) ∧
      (act.apply x).Taken s d v b) ∨
    ∃ n', (act.apply x).Waits s d v n' ∧ n' ≤ n ∧ (act.Asks d k → n' < n) := by
  cases act with
  | send p e a u =>
    have hp : x.status p = .idle := hk.status_of_flags hc.1
    exact Or.inr ⟨n, (h.setMem (h.ne_of_idle hp) a _).send hp a, le_rfl, False.elim⟩
  | receive r src a u =>
    have hr : x.status r = .idle := hk.status_of_flags hc.1
    have hx := h.setMem (h.ne_of_idle hr) a { u with source := .proc r }
    have hwf : (x.setMem r a { u with source := .proc r }).WF := ⟨hk.wf.mem_queue, hk.wf.nodup⟩
    rcases hx.receive hwf hr intMessage src a with ⟨rfl, hsrc, htaken⟩ | ⟨n', hn', hle, hlt⟩
    · exact Or.inl ⟨src, a, u, rfl, hsrc, htaken⟩
    · refine Or.inr ⟨n', hn', hle, ?_⟩
      rintro ⟨hrd, hany, hint⟩
      exact hlt hrd hany ((hk.pending d).symm.trans hint)
  | inform t => exact Or.inr ⟨n, h.inform markInt t, le_rfl, False.elim⟩

theorem Rendezvous.Waits.abort (hk : Refines k x) (h : x.Waits s d v n) (hc : act.Callable k) :
    (∃ src b u, act = .receive d src b u ∧ (src = .any ∨ src = .only s) ∧
      (act.abort x).Taken s d v b) ∨
    ∃ n', (act.abort x).Waits s d v n' ∧ n' ≤ n ∧ (act.Asks d k → n' < n) := by
  cases act with
  | send p e a u =>
    have hp : x.status p = .idle := hk.status_of_flags hc.1
    exact Or.inr ⟨n, h.setMem (h.ne_of_idle hp) a _, le_rfl, False.elim⟩
  | receive r src a u => exact h.apply hk hc
  | inform t => exact h.apply hk hc

/-- One step serves `s` or leaves it waiting, further in front if `d` has asked. -/
theorem WatchedStep.inv (hstep : WatchedStep d w act w') (h : w.Inv s d v limit) :
    w'.Inv s d v limit ∨ Serves s d v act w'.machine.state := by
  obtain ⟨x, n, hk, hx, hn⟩ := h
  obtain ⟨hipc, hasked⟩ := hstep
  have hc := hipc.2.1.callable
  have hfinish : ∀ x', Refines w'.machine.state x' →
      ((∃ src b u, act = .receive d src b u ∧ (src = .any ∨ src = .only s) ∧
        x'.Taken s d v b) ∨
      ∃ n', x'.Waits s d v n' ∧ n' ≤ n ∧ (act.Asks d w.machine.state → n' < n)) →
      w'.Inv s d v limit ∨ Serves s d v act w'.machine.state := by
    rintro x' hk' (⟨src, b, u, hact, hsrc, htaken⟩ | ⟨n', hn', hle, hlt⟩)
    · refine Or.inr ⟨⟨src, b, u, hact, hsrc, ?_⟩, (hk'.idle_fields htaken.status).1⟩
      rw [hk'.mem]
      exact htaken.mem
    · refine Or.inl ⟨x', n', hk', hn', ?_⟩
      split at hasked
      · next hasks =>
        have := hlt hasks
        omega
      · omega
  rcases hipc.refines hk with ⟨-, hk'⟩ | ⟨-, hk'⟩
  · exact hfinish _ hk' (hx.apply hk hc)
  · exact hfinish _ hk' (hx.abort hk hc)

theorem Refines.waits_of_linked (hk : Refines k x) {front back : List Pid} {a : Addr}
    (hq : Linked k.next (k.procTable d).qSending (front ++ s :: back))
    (ha : (k.procTable s).pMsg = some a) : x.Waits s d (k.mem s a) front.length := by
  have hqueue : x.queue d = front ++ s :: back := (hk.queue d).unique hq
  refine ⟨⟨front, back, hqueue, rfl⟩, a, ?_, by rw [hk.mem]⟩
  obtain ⟨b, hb⟩ := (hk.wf.mem_queue d s).mp (by rw [hqueue]; simp)
  have hab : b = a := Option.some.inj ((hk.sending_fields hb).2.1.symm.trans ha)
  rw [hb, hab]

/-- In every run, a sender behind `i` others is served, with the message that it had sent, when the
server has asked `i + 1` times at the latest. -/
theorem served_of_run {mem : Pid → Addr → Message} {before acts : List IpcAction}
    {m : Machine Kernel} {front back : List Pid} {a : Addr}
    (hr : Run IpcStep { state := kernelMain mem } before m)
    (hq : Linked m.state.next (m.state.procTable d).qSending (front ++ s :: back))
    (ha : (m.state.procTable s).pMsg = some a)
    (hrun : Run (WatchedStep d) { machine := m } acts w) (hasked : front.length < w.asked) :
    ∃ acts₁ act acts₂ u u', acts = acts₁ ++ act :: acts₂ ∧
      Run (WatchedStep d) { machine := m } acts₁ u ∧ WatchedStep d u act u' ∧
      u.asked ≤ front.length ∧ Serves s d (m.state.mem s a) act u'.machine.state := by
  obtain ⟨x, hx, -⟩ := IpcStep.run_refines hr
  have hstart : Watched.Inv s d (m.state.mem s a) front.length { machine := m } :=
    ⟨x, _, hx, hx.waits_of_linked hq ha, (Nat.zero_add _).le⟩
  have hall : w.Inv s d (m.state.mem s a) front.length ∨
      ∃ acts₁ act acts₂ u u', acts = acts₁ ++ act :: acts₂ ∧
        Run (WatchedStep d) { machine := m } acts₁ u ∧ WatchedStep d u act u' ∧
        u.asked ≤ front.length ∧ Serves s d (m.state.mem s a) act u'.machine.state := by
    clear hasked
    induction hrun with
    | nil => exact Or.inl hstart
    | @snoc l u u' act hu hstep ih =>
      rcases ih with hinv | ⟨l₁, b, l₂, t, t', hl, hserved⟩
      · rcases hstep.inv hinv with hinv' | hserves
        · exact Or.inl hinv'
        · obtain ⟨-, n, -, -, hn⟩ := hinv
          exact Or.inr ⟨l, act, [], u, u', rfl, hu, hstep, by omega, hserves⟩
      · exact Or.inr ⟨l₁, b, l₂ ++ [act], t, t', by simp [hl], hserved⟩
  rcases hall with ⟨-, n, -, -, hn⟩ | hserved
  · omega
  · exact hserved

def sendsToMm (p : Pid) : IpcAction := .send p taskMm 0 { type := .fork }

def mmAsks : IpcAction := .receive taskMm .any 0 {}

/-- TTY has sent to MM, then INIT behind it, and MM asks. -/
def oneSent : Machine Kernel :=
  Machine.exec { state := kernelMain fun _ _ => {} } (sendsToMm taskTty).prog

def twoSent : Machine Kernel := oneSent.exec (sendsToMm init).prog

def askedOnce : Watched := { machine := twoSent.exec mmAsks.prog, asked := 1 }

theorem twoSent_run : Run IpcStep { state := kernelMain fun _ _ => {} }
    [sendsToMm taskTty, sendsToMm init] twoSent := by
  have htty : IpcStep { state := kernelMain fun _ _ => {} } (sendsToMm taskTty) oneSent :=
    ⟨rfl, ⟨rfl, by decide, rfl⟩, rfl⟩
  have hinit : IpcStep oneSent (sendsToMm init) twoSent := ⟨rfl, ⟨rfl, by decide, rfl⟩, rfl⟩
  exact .snoc (l := [sendsToMm taskTty]) (.snoc (l := []) .nil htty) hinit

theorem twoSent_linked : Linked twoSent.state.next (twoSent.state.procTable taskMm).qSending
    ([taskTty] ++ init :: []) := ⟨rfl, rfl, rfl⟩

theorem twoSent_asks : Run (WatchedStep taskMm) { machine := twoSent } [mmAsks, mmAsks]
    { machine := askedOnce.machine.exec mmAsks.prog, asked := 2 } := by
  have hfirst : WatchedStep taskMm { machine := twoSent } mmAsks askedOnce :=
    ⟨⟨rfl, ⟨rfl, by simp⟩, rfl⟩, by decide⟩
  have hsecond : WatchedStep taskMm askedOnce mmAsks
      { machine := askedOnce.machine.exec mmAsks.prog, asked := 2 } :=
    ⟨⟨rfl, ⟨rfl, by simp⟩, rfl⟩, by decide⟩
  exact .snoc (l := [mmAsks]) (.snoc (l := []) .nil hfirst) hsecond

theorem served_of_run_init : ∃ acts₁ act acts₂ u u', [mmAsks, mmAsks] = acts₁ ++ act :: acts₂ ∧
    Run (WatchedStep taskMm) { machine := twoSent } acts₁ u ∧ WatchedStep taskMm u act u' ∧
    Serves init taskMm (twoSent.state.mem init 0) act u'.machine.state := by
  obtain ⟨acts₁, act, acts₂, u, u', hacts, hu, hstep, -, hserves⟩ :=
    served_of_run twoSent_run twoSent_linked rfl twoSent_asks (Nat.lt_succ_self 1)
  exact ⟨acts₁, act, acts₂, u, u', hacts, hu, hstep, hserves⟩

end BazingaOS
