import BazingaOS.Kernel.Deadlock

/-!
# The assertions of the IPC primitives

Outside `deadlock` one assertion only can fail: `msg_receive` asserts that a process that blocks
has no remembered interrupt, also when it blocks on one given sender and would not take it.
-/

namespace BazingaOS

open Prog

variable {k : Kernel} {x : Ipc} {m : Machine Kernel} {act : IpcAction} {r s d : Pid} {a : Addr}
variable {v : Message}

/-- An assertion outside `deadlock` fails in a call. -/
def IpcAction.AssertFails (k : Kernel) (act : IpcAction) : Prop :=
  (∃ k', act.prog k = .stop .assertion k') ∧ ∀ s d a v, act = .send s d a v →
    (deadlock s d ((k.setMem s a v).setMem s a { v with source := .proc s })).isOk = true

/-- The condition on a call that receives from one given process: no interrupt is remembered, or
that process is already blocked in a send to the caller. -/
def IpcAction.IntFree (k : Kernel) : IpcAction → Prop
  | .receive r (.only s) _ _ => (k.procTable r).hasIntMsg = true →
      (k.procTable s).pFlags.sending = true ∧ (k.procTable s).pSendto = .proc r
  | _ => True

theorem wp_receive_prog {src : Source Pid} {Q : Unit → Kernel → Prop} {E : Stop → Kernel → Prop}
    (h : wp (msgReceive r src.endpoint (some a)) Q E
      ((k.setMem r a v).setMem r a { v with source := .proc r })) :
    wp (IpcAction.receive r src a v).prog Q E k := by
  have hend : src.endpoint ≠ .noTask := by cases src <;> simp [Source.endpoint]
  simp only [IpcAction.prog, sysSendrec, wp_bind, wp_modify, wp_check, wp_loadMessage,
    wp_storeMessage, Kernel.setMem_self]
  exact ⟨fun _ => h, fun hne => absurd hend hne⟩

/-- A process that blocks on one given sender while an interrupt is remembered fails the last
assertion of `msg_receive`. -/
theorem msgReceive_asserts (h : Refines k x) (hr : x.status r = .idle) (_ : s ≠ r)
    (hp : x.pending r = true)
    (hs : ¬ ((k.procTable s).pFlags.sending = true ∧ (k.procTable s).pSendto = .proc r)) :
    wp (msgReceive r (.proc s) (some a)) (fun _ _ => False) (fun w _ => w = .assertion) k := by
  obtain ⟨hr1, -, hr3, -⟩ := h.idle_fields hr
  have hf : ({ receiving := true } : Flags) ≠ 0 := by decide
  have hint : (k.procTable r).hasIntMsg = true := (h.pending r).trans hp
  have hwait : wp (waitMessage r (.proc s) (some a)) (fun _ _ => False)
      (fun w _ => w = .assertion) k := by
    simp [waitMessage, hr1, hr3, hf, hint]
  simp only [msgReceive, wp_bind, wp_check, wp_procOf, wp_ite]
  refine ⟨fun _ => ⟨fun hc => ?_, fun _ => ⟨fun hc => absurd hc hs, fun _ => hwait⟩⟩, fun _ => trivial⟩
  rcases hc.2 with hc | hc <;> cases hc

theorem msgSend_isOk (h : Refines k x) (hs : x.status s = .idle) (hsd : s ≠ d)
    (hok : (deadlock s d k).isOk = true) : (msgSend s d (some a) k).isOk = true := by
  have hwalk : wp (deadlock s d) (fun c k' => c = false ∧ k' = k) (fun _ _ => False) k := by
    have hspec : wp (deadlock s d) (fun c k' => c = false ∧ k' = k) (fun _ k' => k' = k) k :=
      deadlockWalk_spec h hs _ d
    unfold wp at hspec ⊢
    cases hp : deadlock s d k with
    | ok c k' =>
      rw [hp] at hspec
      exact hspec
    | stop w k' =>
      rw [hp] at hok
      cases hok
  apply isOk_of_wp (Q := fun _ _ => True)
  simp only [msgSend, wp_bind, wp_check]
  refine ⟨fun _ => wp_mono hwalk ?_ (fun _ _ hE => hE), fun hne => absurd hsd hne⟩
  rintro c k' ⟨rfl, rfl⟩
  have hacc := h.accepts_iff s d
  simp only [Bool.false_eq_true, if_false, wp_bind, wp_procOf, wp_ite]
  refine ⟨fun hc => ?_, fun hc => ?_⟩
  · obtain ⟨b, hb⟩ := hacc.mp hc
    exact wp_mono (sendDirect_refines h hs hsd hb) (fun _ _ _ => trivial) (fun _ _ hE => hE)
  · have hb : x.accepts s d = none := by
      rw [hacc, not_exists] at hc
      exact Option.eq_none_iff_forall_ne_some.mpr hc
    exact wp_mono (sendQueue_refines h hs hsd hb) (fun _ _ _ => trivial) (fun _ _ hE => hE)

theorem send_not_assertFails (h : Refines k x) (hc : (IpcAction.send s d a v).Callable k) :
    ¬ (IpcAction.send s d a v).AssertFails k := by
  rintro ⟨⟨k', hk⟩, hok⟩
  have hsend := msgSend_isOk (a := a) (stamp_refines h s a v) (h.status_of_flags hc.1)
    (Ne.symm hc.2) (hok s d a v rfl)
  rw [← IpcAction.send_prog, hk] at hsend
  cases hsend

theorem receive_assertFails_iff {src : Source Pid} (h : Refines k x)
    (hc : (IpcAction.receive r src a v).Callable k) :
    ¬ (IpcAction.receive r src a v).AssertFails k ↔ (IpcAction.receive r src a v).IntFree k := by
  have hx := stamp_refines h r a v
  have hidle := h.status_of_flags hc.1
  have hstop : (IpcAction.receive r src a v).AssertFails k ↔
      ∃ k', (IpcAction.receive r src a v).prog k = .stop .assertion k' :=
    ⟨fun hf => hf.1, fun hf => ⟨hf, by rintro _ _ _ _ ⟨⟩⟩⟩
  have hrecv := wp_receive_prog (v := v) (msgReceive_refines (a := a) hx hidle src hc.2)
  rw [hstop]
  constructor
  · intro hn
    cases src with
    | any => trivial
    | interrupt => trivial
    | only s =>
      intro hint
      by_contra hs
      have hsr : s ≠ r := fun he => hc.2 (by rw [he])
      have hw := @wp_receive_prog _ _ _ v (.only s) _ _ (msgReceive_asserts (a := a) hx hidle hsr
        ((h.pending r).symm.trans hint) hs)
      unfold wp at hw
      cases hp : (IpcAction.receive r (.only s) a v).prog k with
      | ok _ _ =>
        rw [hp] at hw
        exact hw
      | stop w k' =>
        rw [hp] at hw
        rw [hw] at hp
        exact hn ⟨k', hp⟩
  · rintro hfree ⟨k', hk⟩
    unfold wp at hrecv
    rw [hk] at hrecv
    obtain ⟨-, ⟨hp, hcand, hint⟩, -⟩ := hrecv
    cases src with
    | any =>
      rw [show Rendezvous.interrupted _ r .any = true from hp] at hint
      cases hint
    | interrupt =>
      rw [show Rendezvous.interrupted _ r .interrupt = true from hp] at hint
      cases hint
    | only s =>
      have hs := (sender_iff h s).mp (hfree ((h.pending r).trans hp))
      have hnone : x.candidate r (.only s) = none := hcand
      rw [show x.candidate r (.only s) = some s from if_pos hs] at hnone
      cases hnone

theorem inform_not_assertFails (h : Refines k x) (t : Pid) :
    ¬ (IpcAction.inform t).AssertFails k := by
  rintro ⟨⟨k', hk⟩, -⟩
  have hok := isOk_of_wp (informInt_refines h t)
  change ((IpcAction.inform t).prog k).isOk = true at hok
  rw [hk] at hok
  cases hok

/-- In every state of every run and for every call that is made there, the assertions outside
`deadlock` hold exactly if the call does not receive from one given process, or does so with no
interrupt remembered or with that process already blocked in a send to the caller. -/
theorem asserts_of_run {mem : Pid → Addr → Message} {acts : List IpcAction}
    (hr : Run IpcStep { state := kernelMain mem } acts m) (hen : act.Enabled m.state) :
    ¬ act.AssertFails m.state ↔ act.IntFree m.state := by
  obtain ⟨x, hx, -⟩ := IpcStep.run_refines hr
  have hc := hen.callable
  cases act with
  | send s d a v => exact ⟨fun _ => trivial, fun _ => send_not_assertFails hx hc⟩
  | receive r src a v => exact receive_assertFails_iff hx hc
  | inform t => exact ⟨fun _ => trivial, fun _ => inform_not_assertFails hx t⟩

/-- TTY has been informed of an interrupt and INIT sends to it: TTY may receive from INIT. -/
theorem asserts_of_run_queued : ∃ m, Run IpcStep { state := kernelMain fun _ _ => {} }
      [.inform taskTty, .send init taskTty 0 {}] m ∧
    (IpcAction.receive taskTty (.only init) 0 {}).Enabled m.state ∧
    (¬ (IpcAction.receive taskTty (.only init) 0 {}).AssertFails m.state ↔
      (IpcAction.receive taskTty (.only init) 0 {}).IntFree m.state) := by
  let act₁ : IpcAction := .inform taskTty
  let act₂ : IpcAction := .send init taskTty 0 {}
  let m₀ : Machine Kernel := { state := kernelMain fun _ _ => {} }
  have h₁ : IpcStep m₀ act₁ (m₀.exec act₁.prog) :=
    ⟨rfl, by change taskTty.val < nrTasks; decide, rfl⟩
  have h₂ : IpcStep (m₀.exec act₁.prog) act₂ ((m₀.exec act₁.prog).exec act₂.prog) :=
    ⟨by decide +kernel, ⟨by decide +kernel, by decide, by decide +kernel⟩, rfl⟩
  have hr : Run IpcStep m₀ [act₁, act₂] _ := .snoc (.snoc .nil h₁) h₂
  have hen : (IpcAction.receive taskTty (.only init) 0 {}).Enabled
      ((m₀.exec act₁.prog).exec act₂.prog).state := by
    refine ⟨by decide +kernel, ?_⟩
    rintro q ⟨⟩
    exact ⟨by decide, by decide +kernel⟩
  exact ⟨_, hr, hen, asserts_of_run hr hen⟩

/-- TTY, informed of an interrupt, receives from FS, which has sent nothing. -/
theorem assert_fails_on_interrupt : ∃ m, Run IpcStep { state := kernelMain fun _ _ => {} }
      [.inform taskTty] m ∧ m.stopped = none ∧
    (IpcAction.receive taskTty (.only taskFs) 0 {}).Enabled m.state ∧
    (IpcAction.receive taskTty (.only taskFs) 0 {}).AssertFails m.state := by
  let m₀ : Machine Kernel := { state := kernelMain fun _ _ => {} }
  have h₁ : IpcStep m₀ (.inform taskTty) (m₀.exec (IpcAction.inform taskTty).prog) :=
    ⟨rfl, by change taskTty.val < nrTasks; decide, rfl⟩
  have hr : Run IpcStep m₀ [.inform taskTty] _ := .snoc .nil h₁
  refine ⟨_, hr, by decide +kernel, ⟨by decide +kernel, ?_⟩, ⟨?_, ?_⟩⟩
  · rintro q ⟨⟩
    exact ⟨by decide, by decide +kernel⟩
  · exact Result.eq_stop_of_stopOf (by decide +kernel)
  · rintro _ _ _ _ ⟨⟩

end BazingaOS
