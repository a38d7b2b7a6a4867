import BazingaOS.Kernel.IpcReceive
import BazingaOS.Lib.Run

/-!
# Runs of the IPC primitives

The system in which every runnable process may call `sys_sendrec` and interrupts may be reported
to tasks, in any order, from the table that `kernel_main` builds. A call carries the content its
buffer has when it is made.
-/

namespace BazingaOS

open Prog

inductive IpcAction where
  | send (s d : Pid) (a : Addr) (v : Message)
  | receive (r : Pid) (src : Source Pid) (a : Addr) (v : Message)
  | inform (t : Pid)

namespace IpcAction

def prog : IpcAction → Prog Kernel Unit
  | .send s d a v => do
    modify fun k => k.setMem s a v
    sysSendrec .send (.proc d) (some a) s
  | .receive r src a v => do
    modify fun k => k.setMem r a v
    sysSendrec .receive src.endpoint (some a) r
  | .inform t => informInt t

/-- The caller is runnable and names a process that is neither itself nor a free slot; interrupts
are reported to tasks. -/
def Enabled (k : Kernel) : IpcAction → Prop
  | .send s d _ _ => (k.procTable s).pFlags = 0 ∧ d ≠ s ∧ (k.procTable d).pFlags.freeSlot = false
  | .receive r src _ _ => (k.procTable r).pFlags = 0 ∧
      ∀ q, src = .only q → q ≠ r ∧ (k.procTable q).pFlags.freeSlot = false
  | .inform t => t.val < nrTasks

/-- What `sys_sendrec` itself asks of a call: the caller is runnable and names another process. -/
def Callable (k : Kernel) : IpcAction → Prop
  | .send s d _ _ => (k.procTable s).pFlags = 0 ∧ d ≠ s
  | .receive r src _ _ => (k.procTable r).pFlags = 0 ∧ src ≠ .only r
  | .inform _ => True

theorem Enabled.callable {k : Kernel} {act : IpcAction} (h : act.Enabled k) : act.Callable k := by
  cases act with
  | send s d a v => exact ⟨h.1, h.2.1⟩
  | receive r src a v => exact ⟨h.1, fun hs => (h.2 r hs).1 rfl⟩
  | inform t => trivial

/-- What a call does to the rendezvous machine. -/
def apply (x : Ipc) : IpcAction → Ipc
  | .send s d a v => (x.setMem s a { v with source := .proc s }).send s d a
  | .receive r src a v => (x.setMem r a { v with source := .proc r }).receive intMessage r src a
  | .inform t => x.inform markInt t

/-- What a call has done to the rendezvous machine if it stops the kernel: a send only stamps its
buffer, and a receive fails an assertion after its whole effect. -/
def abort (x : Ipc) : IpcAction → Ipc
  | .send s _ a v => x.setMem s a { v with source := .proc s }
  | act => act.apply x

end IpcAction

/-- One step of a machine that has not stopped. -/
def IpcStep (m : Machine Kernel) (act : IpcAction) (m' : Machine Kernel) : Prop :=
  m.stopped = none ∧ act.Enabled m.state ∧ m' = m.exec act.prog

variable {k : Kernel} {x : Ipc} {m m' : Machine Kernel} {act : IpcAction}

theorem Refines.status_of_flags (h : Refines k x) {p : Pid} (hp : (k.procTable p).pFlags = 0) :
    x.status p = .idle := by
  have he := h.record p
  cases hs : x.status p with
  | idle => rfl
  | free => rw [hs] at he; exact absurd (hp.symm.trans he) (by decide)
  | sending d a => exact absurd (hp.symm.trans (h.sending_fields hs).1) (by decide)
  | receiving src a => exact absurd (hp.symm.trans (h.receiving_fields hs).1) (by decide)

theorem Refines.free_iff (h : Refines k x) (p : Pid) :
    (k.procTable p).pFlags.freeSlot = true ↔ x.status p = .free := by
  have he := h.record p
  cases hs : x.status p with
  | idle => simp [(h.idle_fields hs).1]
  | free => rw [hs] at he; simp [show (k.procTable p).pFlags = Flags.free from he, Flags.free]
  | sending d a => simp [(h.sending_fields hs).1]
  | receiving src a => simp [(h.receiving_fields hs).1]

theorem stamp_refines (h : Refines k x) (p : Pid) (a : Addr) (v : Message) :
    Refines ((k.setMem p a v).setMem p a { v with source := .proc p })
      (x.setMem p a { v with source := .proc p }) := by
  have he : (k.setMem p a v).setMem p a { v with source := .proc p } =
      k.setMem p a { v with source := .proc p } := by simp [Kernel.setMem]
  rw [he]
  exact h.setMem p a _

/-- A call of a runnable process is simulated by the rendezvous machine. -/
theorem IpcAction.exec_refines (h : Refines m.state x) (hc : act.Callable m.state) :
    ((m.exec act.prog).stopped = none ∧ Refines (m.exec act.prog).state (act.apply x)) ∨
      (∃ w, (m.exec act.prog).stopped = some w) ∧
        Refines (m.exec act.prog).state (act.abort x) := by
  cases act with
  | send s d a v =>
    obtain ⟨hs, hds⟩ := hc
    have hx := stamp_refines h s a v
    have hsend := msgSend_refines (a := a) hx (h.status_of_flags hs) (Ne.symm hds)
    have hw : wp (IpcAction.send s d a v).prog
        (fun _ k' => Refines k' ((IpcAction.send s d a v).apply x))
        (fun _ k' => Refines k' ((IpcAction.send s d a v).abort x)) m.state := by
      simp only [IpcAction.prog, sysSendrec, wp_bind, wp_modify, wp_check, wp_loadMessage,
        wp_storeMessage, Kernel.setMem_self]
      refine ⟨fun _ => wp_mono hsend (fun _ _ hQ => hQ) ?_, fun hne => absurd hne (by simp)⟩
      intro _ k' he
      rw [he]
      exact hx
    rcases Machine.exec_of_wp hw with ⟨hn, hQ⟩ | ⟨w, hn, hE⟩
    · exact .inl ⟨hn, hQ⟩
    · exact .inr ⟨⟨w, hn⟩, hE⟩
  | receive r src a v =>
    obtain ⟨hr, hsrc⟩ := hc
    have hx := stamp_refines h r a v
    have hrecv := msgReceive_refines (a := a) hx (h.status_of_flags hr) src hsrc
    have hend : src.endpoint ≠ .noTask := by cases src <;> simp [Source.endpoint]
    have hw : wp (IpcAction.receive r src a v).prog
        (fun _ k' => Refines k' ((IpcAction.receive r src a v).apply x))
        (fun _ k' => Refines k' ((IpcAction.receive r src a v).apply x)) m.state := by
      simp only [IpcAction.prog, sysSendrec, wp_bind, wp_modify, wp_check, wp_loadMessage,
        wp_storeMessage, Kernel.setMem_self]
      exact ⟨fun _ => wp_mono hrecv (fun _ _ hQ => hQ) (fun _ _ hE => hE.2.2),
        fun hne => absurd hend hne⟩
    rcases Machine.exec_of_wp hw with ⟨hn, hQ⟩ | ⟨w, hn, hE⟩
    · exact .inl ⟨hn, hQ⟩
    · exact .inr ⟨⟨w, hn⟩, hE⟩
  | inform t =>
    rcases Machine.exec_of_wp (informInt_refines h t) with ⟨hn, hQ⟩ | ⟨w, hn, hE⟩
    · exact .inl ⟨hn, hQ⟩
    · exact hE.elim

theorem IpcStep.refines (h : Refines m.state x) (hstep : IpcStep m act m') :
    (m'.stopped = none ∧ Refines m'.state (act.apply x)) ∨
      (∃ w, m'.stopped = some w) ∧ Refines m'.state (act.abort x) := by
  obtain ⟨-, hen, rfl⟩ := hstep
  exact IpcAction.exec_refines h hen.callable

theorem IpcAction.refines_of_ok {k' : Kernel} (h : Refines k x) (hc : act.Callable k)
    (hrun : act.prog k = .ok () k') : Refines k' (act.apply x) := by
  have hexec : Machine.exec { state := k } act.prog = { state := k' } := by
    simp only [Machine.exec, hrun]
  rcases IpcAction.exec_refines (m := { state := k }) h hc with ⟨-, hr⟩ | ⟨⟨w, hw⟩, -⟩
  · rw [hexec] at hr
    exact hr
  · rw [hexec] at hw
    cases hw

theorem IpcAction.send_prog (s d : Pid) (a : Addr) (v : Message) :
    (IpcAction.send s d a v).prog k =
      msgSend s d (some a) ((k.setMem s a v).setMem s a { v with source := .proc s }) := by
  change msgSend s d (some a) ((k.setMem s a v).setMem s a
    { (k.setMem s a v).mem s a with source := .proc s }) = _
  rw [k.setMem_self]

theorem IpcAction.send_returns {s d : Pid} (h : Refines k x) (hs : (k.procTable s).pFlags = 0)
    (hsd : s ≠ d) (a : Addr) (v : Message)
    (hd : ∀ e b, x.status d = .sending e b → e ≠ s ∧ ∀ f c, x.status e ≠ .sending f c) :
    ((IpcAction.send s d a v).prog k).isOk = true := by
  have hsend := msgSend_returns (a := a) (stamp_refines h s a v) (h.status_of_flags hs) hsd hd
  apply isOk_of_wp (Q := fun _ _ => True)
  simp only [IpcAction.prog, sysSendrec, wp_bind, wp_modify, wp_check, wp_loadMessage,
    wp_storeMessage, Kernel.setMem_self]
  exact ⟨fun _ => hsend, fun hne => absurd hne (by simp)⟩

theorem IpcAction.send_stops {s d : Pid} (a : Addr) (v : Message)
    (hd : (k.procTable d).pFlags.sending = true) (hto : (k.procTable d).pSendto = .proc s) :
    ((IpcAction.send s d a v).prog k).isOk = false := by
  have hwalk : ∀ {k : Kernel} {n : Nat}, (k.procTable d).pFlags.sending = true →
      (k.procTable d).pSendto = .proc s →
      wp (deadlockWalk s (n + 1) d) (fun c _ => c = true) (fun _ _ => True) k := by
    intro k n hd hto
    simp only [deadlockWalk, wp_bind, wp_procOf, wp_ite, hd, hto, not_true_eq_false,
      false_implies, and_true, forall_const]
    exact wp_mono (wp_true _) (fun _ _ _ => rfl) (fun _ _ _ => trivial)
  have hw : wp (IpcAction.send s d a v).prog (fun _ _ => False) (fun _ _ => True) k := by
    simp only [IpcAction.prog, sysSendrec, wp_bind, wp_modify, wp_check, wp_loadMessage,
      wp_storeMessage, msgSend, deadlock]
    refine ⟨fun _ => ⟨fun _ => ?_, fun _ => trivial⟩, fun _ => trivial⟩
    refine wp_mono (hwalk (n := nrSlots - 1) hd hto) ?_ (fun _ _ _ => trivial)
    rintro c k' rfl
    simp
  unfold wp at hw
  cases hp : (IpcAction.send s d a v).prog k with
  | ok _ _ =>
    rw [hp] at hw
    exact hw.elim
  | stop _ _ => rfl

theorem IpcAction.receive_returns {r : Pid} {src : Source Pid} (h : Refines k x)
    (hr : (k.procTable r).pFlags = 0) (hsrc : src ≠ .only r) (a : Addr) (v : Message)
    (hp : x.pending r = true → x.interrupted r src = true) :
    ((IpcAction.receive r src a v).prog k).isOk = true := by
  have hrecv := msgReceive_refines (a := a) (stamp_refines h r a v) (h.status_of_flags hr) src hsrc
  have hend : src.endpoint ≠ .noTask := by cases src <;> simp [Source.endpoint]
  apply isOk_of_wp (Q := fun _ _ => True)
  simp only [IpcAction.prog, sysSendrec, wp_bind, wp_modify, wp_check, wp_loadMessage,
    wp_storeMessage, Kernel.setMem_self]
  refine ⟨fun _ => wp_mono hrecv (fun _ _ _ => trivial) ?_, fun hne => absurd hend hne⟩
  intro _ k' he
  obtain ⟨-, ⟨hpend, -, hint⟩, -⟩ := he
  have hint' := hp hpend
  cases src <;> simp_all [Rendezvous.interrupted, Rendezvous.setMem]

/-- The free slots are those `kernel_main` left free, and a blocked sender waits for another
process, which is no free slot. -/
structure Targets (x : Ipc) : Prop where
  free : ∀ p, x.status p = .free ↔ nrTasks + nrNativeProcs ≤ p.val
  target : ∀ s d a, x.status s = .sending d a → d ≠ s ∧ x.status d ≠ .free

private theorem targets_congr {x' : Ipc} (hx : Targets x) (he : x'.status = x.status) :
    Targets x' := by
  refine ⟨?_, ?_⟩
  · rw [he]; exact hx.free
  · rw [he]; exact hx.target

private theorem targets_setStatus (hx : Targets x) {p : Pid} {v : Status Pid Addr}
    (hp : x.status p ≠ .free) (hv : v ≠ .free)
    (ht : ∀ d a, v = .sending d a → d ≠ p ∧ x.status d ≠ .free) : Targets (x.setStatus p v) := by
  have hfree : ∀ q, Function.update x.status p v q = .free ↔ x.status q = .free := by
    intro q
    by_cases hqp : q = p
    · subst hqp; simp [hp, hv]
    · rw [Function.update_of_ne hqp]
  refine ⟨fun q => (hfree q).trans (hx.free q), fun s d a hs => ?_⟩
  change Function.update x.status p v s = _ at hs
  have hsd : d ≠ s ∧ x.status d ≠ .free := by
    by_cases hsp : s = p
    · subst hsp
      rw [Function.update_self] at hs
      exact ht d a hs
    · rw [Function.update_of_ne hsp] at hs
      exact hx.target s d a hs
  exact ⟨hsd.1, fun hf => hsd.2 ((hfree d).mp hf)⟩

theorem targets_send (hx : Targets x) {s d : Pid} (a : Addr) (hs : x.status s = .idle)
    (hds : d ≠ s) (hd : x.status d ≠ .free) : Targets (x.send s d a) := by
  unfold Rendezvous.send
  split
  · next b hb =>
    exact targets_congr (targets_setStatus (v := .idle) hx hd (by simp) (by simp)) rfl
  · have ht := targets_setStatus (p := s) (v := .sending d a) hx (by simp [hs]) (by simp) (by
      intro e c he
      cases he
      exact ⟨hds, hd⟩)
    exact targets_congr ht rfl

theorem targets_receive (hx : Targets x) {r : Pid} (src : Source Pid) (a : Addr)
    (hr : x.status r = .idle) : Targets (x.receive intMessage r src a) := by
  unfold Rendezvous.receive
  split
  · exact targets_congr hx rfl
  · split
    · next f hf =>
      unfold Rendezvous.take
      split
      · next d b hfs =>
        have ht := targets_setStatus (p := f) (v := .idle) hx (by simp [hfs]) (by simp) (by simp)
        exact targets_congr ht rfl
      · exact hx
    · exact targets_setStatus hx (by simp [hr]) (by simp) (by simp)

theorem targets_inform (hx : Targets x) (t : Pid) : Targets (x.inform markInt t) := by
  unfold Rendezvous.inform
  split
  · next b hb =>
    have hfree : x.status t ≠ .free := by
      rcases Rendezvous.status_of_awaits hb with ht | ht <;> simp [ht]
    have ht := targets_setStatus (p := t) (v := .idle) hx hfree (by simp) (by simp)
    exact targets_congr ht rfl
  · exact targets_congr hx rfl

theorem targets_apply (h : Refines k x) (hx : Targets x) (hen : act.Enabled k) :
    Targets (act.apply x) := by
  cases act with
  | send s d a v =>
    obtain ⟨hs, hds, hd⟩ := hen
    have hx' : Targets (x.setMem s a { v with source := .proc s }) := targets_congr hx rfl
    apply targets_send hx' a (h.status_of_flags hs) hds
    intro hfree
    rw [(h.free_iff d).mpr hfree] at hd
    cases hd
  | receive r src a v =>
    have hx' : Targets (x.setMem r a { v with source := .proc r }) := targets_congr hx rfl
    exact targets_receive hx' src a (h.status_of_flags hen.1)
  | inform t => exact targets_inform hx t

/-- The abstract machine that `kernel_main` starts. -/
def ipcInit (mem : Pid → Addr → Message) : Ipc where
  status p := if nrTasks + nrNativeProcs ≤ p.val then .free else .idle
  queue _ := []
  pending _ := false
  mem := mem

theorem kernelMain_refines (mem : Pid → Addr → Message) :
    Refines (kernelMain mem) (ipcInit mem) := by
  have hlink : ∀ p, (kernelMainTable p).nextSending = none ∧
      (kernelMainTable p).qSending = none ∧ (kernelMainTable p).hasIntMsg = false := by
    intro p
    by_cases hp : nrTasks + nrNativeProcs ≤ p.val <;> simp [kernelMainTable, nativeProcess, hp]
  refine ⟨fun p => ?_, fun p _ => (hlink p).1, fun d => (hlink d).2.1, fun p => (hlink p).2.2,
    rfl, ⟨fun d s => ?_, fun d => List.nodup_nil⟩⟩
  · by_cases hp : nrTasks + nrNativeProcs ≤ p.val <;>
      simp [kernelMain, kernelMainTable, nativeProcess, ipcInit, Encodes, hp]
  · by_cases hp : nrTasks + nrNativeProcs ≤ s.val <;> simp [ipcInit, hp]

/-- Every state of a run is related to a state of the rendezvous machine in which the free slots
are those that `kernel_main` left free. -/
theorem IpcStep.run_refines {mem : Pid → Addr → Message} {acts : List IpcAction}
    (hr : Run IpcStep { state := kernelMain mem } acts m) :
    ∃ x, Refines m.state x ∧ Targets x := by
  apply hr.invariant (I := fun m => ∃ x, Refines m.state x ∧ Targets x)
  · refine ⟨ipcInit mem, kernelMain_refines mem, fun p => ?_, fun s d a hs => ?_⟩
    · by_cases hp : nrTasks + nrNativeProcs ≤ p.val <;> simp [ipcInit, hp]
    · by_cases hp : nrTasks + nrNativeProcs ≤ s.val <;> simp [ipcInit, hp] at hs
  · intro u act v hstep hu
    obtain ⟨x, hx, ht⟩ := hu
    have ha := targets_apply hx ht hstep.2.1
    rcases hstep.refines hx with ⟨-, hv⟩ | ⟨-, hv⟩
    · exact ⟨_, hv, ha⟩
    · refine ⟨_, hv, ?_⟩
      cases act with
      | send s d a v => exact targets_congr ht rfl
      | receive r src a v => exact ha
      | inform t => exact ha

/-- One step of a machine that has not stopped, whatever slot the call names. -/
def CallStep (m : Machine Kernel) (act : IpcAction) (m' : Machine Kernel) : Prop :=
  m.stopped = none ∧ act.Callable m.state ∧ m' = m.exec act.prog

theorem IpcStep.callStep (h : IpcStep m act m') : CallStep m act m' := ⟨h.1, h.2.1.callable, h.2.2⟩

/-- What the operations of the rendezvous machine keep holds in every state of a run. A send is
performed only if `msg_send` returns. -/
theorem CallStep.run_invariant {J : Ipc → Prop} {mem : Pid → Addr → Message} {acts : List IpcAction}
    (hr : Run CallStep { state := kernelMain mem } acts m) (h0 : J (ipcInit mem))
    (hmem : ∀ {x : Ipc} p a v, J x → J (x.setMem p a v))
    (hsend : ∀ {k : Kernel} {x : Ipc} {s d : Pid} {a : Addr}, Refines k x → J x →
      x.status s = .idle → s ≠ d → (msgSend s d (some a) k).isOk = true → J (x.send s d a))
    (hreceive : ∀ {x : Ipc} {r : Pid} {src : Source Pid} {a : Addr}, x.WF → J x →
      J (x.receive intMessage r src a))
    (hinform : ∀ {x : Ipc} (t : Pid), J x → J (x.inform markInt t)) :
    ∃ x, Refines m.state x ∧ J x := by
  apply hr.invariant (I := fun m => ∃ x, Refines m.state x ∧ J x)
    ⟨ipcInit mem, kernelMain_refines mem, h0⟩
  rintro u act v ⟨-, hc, rfl⟩ ⟨x, hx, hJ⟩
  have hrefines := IpcAction.exec_refines hx hc
  cases act with
  | send s d a v =>
    rcases hrefines with ⟨hn, hv⟩ | ⟨-, hv⟩
    · refine ⟨_, hv, hsend (stamp_refines hx s a v) (hmem s a _ hJ) (hx.status_of_flags hc.1)
        (Ne.symm hc.2) ?_⟩
      rw [← IpcAction.send_prog]
      unfold Machine.exec at hn
      cases hp : (IpcAction.send s d a v).prog u.state with
      | ok _ _ => rfl
      | stop w k' =>
        rw [hp] at hn
        cases hn
    · exact ⟨_, hv, hmem s a _ hJ⟩
  | receive r src a v =>
    have hJ' := hmem r a { v with source := .proc r } hJ
    have hwf : (x.setMem r a { v with source := .proc r }).WF := ⟨hx.wf.mem_queue, hx.wf.nodup⟩
    rcases hrefines with ⟨-, hv⟩ | ⟨-, hv⟩
    · exact ⟨_, hv, hreceive hwf hJ'⟩
    · exact ⟨_, hv, hreceive hwf hJ'⟩
  | inform t =>
    rcases hrefines with ⟨-, hv⟩ | ⟨-, hv⟩
    · exact ⟨_, hv, hinform t hJ⟩
    · exact ⟨_, hv, hinform t hJ⟩

/-- The fields of a process that is no free slot agree with its flags. -/
structure FieldInv (k : Kernel) (p : Pid) : Prop where
  flags : (k.procTable p).pFlags = 0 ∨ (k.procTable p).pFlags = { sending := true } ∨
    (k.procTable p).pFlags = { receiving := true }
  idle : (k.procTable p).pFlags = 0 ↔ (k.procTable p).pMsg = none ∧
    (k.procTable p).pSendto = .noTask ∧ (k.procTable p).pRecvfrom = .noTask
  msg : (k.procTable p).pFlags = 0 ↔ (k.procTable p).pMsg = none
  sending : (k.procTable p).pFlags = { sending := true } →
    (∃ d, d ≠ p ∧ (k.procTable d).pFlags.freeSlot = false ∧
      (k.procTable p).pSendto = .proc d) ∧ (k.procTable p).pRecvfrom = .noTask
  receiving : (k.procTable p).pFlags = { receiving := true } →
    (k.procTable p).pRecvfrom ≠ .noTask ∧ (k.procTable p).pSendto = .noTask

/-- Every `q_sending` chain ends, has no repetition and holds exactly the blocked senders of its
process; a process that is not sending is linked to nothing; the fields agree with the flags. -/
structure IpcInv (k : Kernel) : Prop where
  free : ∀ p, (k.procTable p).pFlags.freeSlot = true ↔ nrTasks + nrNativeProcs ≤ p.val
  chain : ∀ d, ∃ l : List Pid, Linked k.next (k.procTable d).qSending l ∧ l.Nodup ∧
    ∀ s, s ∈ l ↔ (k.procTable s).pFlags.sending = true ∧ (k.procTable s).pSendto = .proc d
  unlinked : ∀ p, (k.procTable p).pFlags.sending = false → (k.procTable p).nextSending = none
  fields : ∀ p, (k.procTable p).pFlags.freeSlot = false → FieldInv k p

theorem Refines.ipcInv (h : Refines k x) (ht : Targets x) : IpcInv k := by
  refine ⟨fun p => (h.free_iff p).trans (ht.free p),
    fun d => ⟨x.queue d, h.queue d, h.wf.nodup d, fun s => (sender_iff h s).symm⟩,
    fun p hp => ?_, fun p hp => ?_⟩
  · apply h.next_none p
    intro d a hs
    rw [(h.sending_iff p).mpr ⟨d, a, hs⟩] at hp
    cases hp
  · cases hs : x.status p with
    | free =>
      rw [(h.free_iff p).mpr hs] at hp
      cases hp
    | idle =>
      obtain ⟨h1, h2, h3, h4⟩ := h.idle_fields hs
      constructor <;> simp [h1, h2, h3, h4] <;> decide
    | sending d a =>
      obtain ⟨h1, h2, h3, h4⟩ := h.sending_fields hs
      have hd := ht.target p d a hs
      have hfree : (k.procTable d).pFlags.freeSlot = false := by
        by_contra hne
        exact hd.2 ((h.free_iff d).mp (by simpa using hne))
      have hz : ({ sending := true } : Flags) ≠ 0 := by decide
      constructor <;> simp [h1, h2, h3, h4, hz]
      exact ⟨hd.1, hfree⟩
    | receiving src a =>
      obtain ⟨h1, h2, h3, h4⟩ := h.receiving_fields hs
      have hz : ({ receiving := true } : Flags) ≠ 0 := by decide
      have he : src.endpoint ≠ .noTask := by cases src <;> simp [Source.endpoint]
      constructor <;> simp [h1, h2, h3, h4, hz, he]

/-- The queue and field invariant holds in every state of every run, the state in which a
machine has stopped included. -/
theorem ipcInv_of_run {mem : Pid → Addr → Message} {acts : List IpcAction}
    (hr : Run IpcStep { state := kernelMain mem } acts m) : IpcInv m.state := by
  obtain ⟨x, hx, ht⟩ := IpcStep.run_refines hr
  exact hx.ipcInv ht

/-- MM waits for any message and INIT sends it one. -/
theorem ipcInv_of_run_rendezvous : ∃ m, m.stopped = none ∧ IpcInv m.state ∧
    Run IpcStep { state := kernelMain fun _ _ => {} }
      [.receive taskMm .any 0 {}, .send init taskMm 0 { type := .fork }] m := by
  let act₁ : IpcAction := .receive taskMm .any 0 {}
  let act₂ : IpcAction := .send init taskMm 0 { type := .fork }
  let m₀ : Machine Kernel := { state := kernelMain fun _ _ => {} }
  have h₁ : IpcStep m₀ act₁ (m₀.exec act₁.prog) := ⟨rfl, ⟨rfl, by simp⟩, rfl⟩
  have h₂ : IpcStep (m₀.exec act₁.prog) act₂ ((m₀.exec act₁.prog).exec act₂.prog) :=
    ⟨rfl, ⟨rfl, by decide, rfl⟩, rfl⟩
  have hr : Run IpcStep m₀ [act₁, act₂] _ := .snoc (.snoc .nil h₁) h₂
  exact ⟨_, rfl, ipcInv_of_run hr, hr⟩

end BazingaOS
