import BazingaOS.Kernel.IpcRefine

/-!
# Effects of the IPC primitives

What a call that returns has done to the process records and to memory, whatever the state it
started in: no invariant of the queues is assumed. The queue links are left out of the records.
-/

namespace BazingaOS

open Prog

section ReadOnly

variable {I : Kernel → Prop}

theorem keeps_procOf (q : Pid) : Keeps I (procOf q) :=
  keeps_bind keeps_get fun _ => keeps_pure _

theorem keeps_loadMessage (q : Pid) (a : Option Addr) : Keeps I (loadMessage q a) := by
  cases a with
  | none => exact keeps_halt _
  | some a => exact keeps_bind keeps_get fun _ => keeps_pure _

theorem keeps_block (q : Pid) : Keeps I (block q) :=
  keeps_bind (keeps_procOf q) fun _ => keeps_check _

theorem keeps_unblock (q : Pid) : Keeps I (unblock q) :=
  keeps_bind (keeps_procOf q) fun _ => keeps_check _

theorem keeps_deadlockReport (src : Pid) (n : Nat) (q : Pid) :
    Keeps I (deadlockReport src n q) := by
  induction n generalizing q with
  | zero => exact keeps_halt _
  | succ n ih =>
    refine keeps_bind (keeps_procOf q) fun r => keeps_bind (keeps_check _) fun _ => ?_
    split
    · exact keeps_ite (fun _ => keeps_pure _) (fun _ => ih _)
    · exact keeps_halt _

theorem keeps_deadlockWalk (src : Pid) (n : Nat) (q : Pid) : Keeps I (deadlockWalk src n q) := by
  induction n generalizing q with
  | zero => exact keeps_halt _
  | succ n ih =>
    refine keeps_bind (keeps_procOf q) fun r =>
      keeps_ite (fun _ => keeps_ite (fun _ => ?_) fun _ => ?_) fun _ => keeps_pure _
    · exact keeps_bind (keeps_deadlockReport _ _ _) fun _ => keeps_pure _
    · split
      · exact ih _
      · exact keeps_halt _

theorem keeps_findTail (n : Nat) (q : Pid) : Keeps I (findTail n q) := by
  induction n generalizing q with
  | zero => exact keeps_halt _
  | succ n ih =>
    refine keeps_bind (keeps_procOf q) fun r => ?_
    split
    · exact keeps_pure _
    · exact ih _

theorem keeps_findSender (src : Pid) (n : Nat) (prev q : Option Pid) :
    Keeps I (findSender src n prev q) := by
  induction n generalizing prev q with
  | zero => exact keeps_halt _
  | succ n ih =>
    cases q with
    | none => exact keeps_pure _
    | some q =>
      refine keeps_bind (keeps_procOf src) fun r => keeps_bind (keeps_check _) fun _ =>
        keeps_ite (fun _ => keeps_pure _) fun _ => keeps_bind (keeps_procOf q) fun _ => ih _ _

theorem keeps_checkReceive (rcv fr : Pid) : Keeps I (checkReceive rcv fr) := by
  unfold checkReceive
  repeat' first
    | exact keeps_procOf _
    | exact keeps_check _
    | refine keeps_bind ?_ fun _ => ?_

end ReadOnly

/-- A record without its queue links. -/
def Process.core (r : Process) : Process := { r with qSending := none, nextSending := none }

def Kernel.cores (k : Kernel) (p : Pid) : Process := (k.procTable p).core

theorem Kernel.cores_eq_update {k k' : Kernel} {q : Pid} {r : Process}
    (h : ∀ p, (k'.procTable p).core = if p = q then r else (k.procTable p).core) :
    k'.cores = Function.update k.cores q r := by
  funext p
  rw [Kernel.cores, h, Function.update_apply]
  rfl

variable {k k' : Kernel} {s d r f t : Pid} {a : Addr}

/-- A program that keeps every invariant leaves the state as it is. -/
theorem wp_of_keeps {α : Type} {p : Prog Kernel α} (hp : ∀ I : Kernel → Prop, Keeps I p)
    {Q : α → Kernel → Prop} (hQ : ∀ v, Q v k) : wp p Q (fun _ _ => True) k :=
  wp_mono (hp (fun k' => k' = k) k rfl) (fun v _ h => h ▸ hQ v) (fun _ _ _ => trivial)

/-- The message of `s` goes into the buffer in which `d` waits for it. -/
structure DirectEffect (k : Kernel) (s d : Pid) (a b : Addr) (k' : Kernel) : Prop where
  receiving : (k.procTable d).pFlags.receiving = true
  recvfrom : (k.procTable d).pRecvfrom = .any ∨ (k.procTable d).pRecvfrom = .proc s
  buffer : (k.procTable d).pMsg = some b
  record : ∀ p, (k'.procTable p).core = if p = d then { (k.procTable d).core with
      pMsg := none
      pFlags := { (k.procTable d).pFlags with receiving := false }
      pRecvfrom := .noTask }
    else (k.procTable p).core
  mem : k'.mem = (k.setMem d b (k.mem s a)).mem

/-- The sender `s` is blocked. -/
structure QueueEffect (k : Kernel) (s d : Pid) (a : Addr) (k' : Kernel) : Prop where
  record : ∀ p, (k'.procTable p).core = if p = s then { (k.procTable s).core with
      pFlags := { (k.procTable s).pFlags with sending := true }
      pSendto := .proc d
      pMsg := some a }
    else (k.procTable p).core
  mem : k'.mem = k.mem

theorem sendDirect_effect (hr : (k.procTable d).pFlags.receiving = true)
    (hf : (k.procTable d).pRecvfrom = .any ∨ (k.procTable d).pRecvfrom = .proc s) :
    wp (sendDirect s d (some a)) (fun _ k' => ∃ b, DirectEffect k s d a b k')
      (fun _ _ => True) k := by
  cases hb : (k.procTable d).pMsg with
  | none => simp [sendDirect, hb]
  | some b =>
    simp only [sendDirect, wp_bind, wp_procOf, wp_check, hb, wp_copyMessage, wp_setProc,
      wp_unblock, implies_true, and_true]
    intros
    refine ⟨b, hr, hf, hb, fun p => ?_, rfl⟩
    simp only [Kernel.setProc_setProc, Kernel.setProc_apply]
    split
    · next hp =>
      subst hp
      simp [Process.core]
    · rfl

theorem core_setProc_link {g : Process → Process} (hg : ∀ r, (g r).core = r.core) (z p : Pid) :
    ((k.setProc z g).procTable p).core = (k.procTable p).core := by
  rw [Kernel.setProc_apply]
  split
  · next hp => rw [hg, hp]
  · rfl

theorem core_setProc_links {g g' : Process → Process} {z z' p : Pid}
    (hg : ∀ r, (g r).core = r.core) (hg' : ∀ r, (g' r).core = r.core) :
    (((k.setProc z g).setProc z' g').procTable p).core = (k.procTable p).core :=
  (core_setProc_link hg' z' p).trans (core_setProc_link hg z p)

theorem core_setProc {g : Process → Process} (z p : Pid) :
    ((k.setProc z g).procTable p).core =
      if p = z then (g (k.procTable z)).core else (k.procTable p).core := by
  rw [Kernel.setProc_apply]
  split <;> rfl

theorem sendQueue_effect :
    wp (sendQueue s d (some a)) (fun _ k' => QueueEffect k s d a k') (fun _ _ => True) k := by
  simp only [sendQueue, wp_bind, wp_procOf, wp_setProc, Kernel.setProc_setProc]
  generalize hk₁ : (k.setProc s fun r => { r with
    pFlags := { r.pFlags with sending := true }
    pSendto := .proc d
    pMsg := some a }) = k₁
  have hend : ∀ k₂ : Kernel, (∀ p, (k₂.procTable p).core = (k₁.procTable p).core) →
      k₂.mem = k₁.mem → QueueEffect k s d a k₂ := by
    intro k₂ hrec hmem
    refine ⟨fun p => ?_, by rw [hmem, ← hk₁, Kernel.setProc_mem]⟩
    rw [hrec, ← hk₁, core_setProc]
    rfl
  cases (k.procTable d).qSending with
  | some p =>
    simp only [wp_bind]
    apply wp_of_keeps (fun I => keeps_findTail _ _)
    intro z
    simp only [wp_setProc, wp_block, wp_procOf, wp_check, implies_true, and_true]
    intros
    refine hend _ (fun p => ?_) rfl
    apply core_setProc_links <;> exact fun _ => rfl
  | none =>
    simp only [wp_bind, wp_setProc, wp_block, wp_procOf, wp_check, implies_true, and_true]
    intros
    refine hend _ (fun p => ?_) rfl
    apply core_setProc_links <;> exact fun _ => rfl

theorem msgSend_effect : wp (msgSend s d (some a))
    (fun _ k' => (∃ b, DirectEffect k s d a b k') ∨
      ¬ ((k.procTable d).pFlags.receiving = true ∧
        ((k.procTable d).pRecvfrom = .any ∨ (k.procTable d).pRecvfrom = .proc s)) ∧
      QueueEffect k s d a k') (fun _ _ => True) k := by
  simp only [msgSend, wp_bind, wp_check, implies_true, and_true]
  intro _
  apply wp_of_keeps (fun I => keeps_deadlockWalk _ _ _)
  intro cycle
  simp only [wp_ite, wp_halt, implies_true, true_and, wp_bind, wp_procOf]
  refine fun _ => ⟨fun h => ?_, fun h => ?_⟩
  · exact wp_mono (sendDirect_effect h.1 h.2) (fun _ _ h' => .inl h') (fun _ _ h' => h')
  · exact wp_mono sendQueue_effect (fun _ _ h' => .inr ⟨h, h'⟩) (fun _ _ h' => h')

/-- The receiver `r` takes the message of the blocked sender `f`. -/
structure TakeEffect (k : Kernel) (r f : Pid) (a b : Addr) (k' : Kernel) : Prop where
  sending : (k.procTable f).pFlags.sending = true
  sendto : (k.procTable f).pSendto = .proc r
  buffer : (k.procTable f).pMsg = some b
  record : ∀ p, (k'.procTable p).core = if p = f then { (k.procTable f).core with
      pMsg := none
      pFlags := { (k.procTable f).pFlags with sending := false }
      pSendto := .noTask }
    else (k.procTable p).core
  mem : k'.mem = (k.setMem r a (k.mem f b)).mem

/-- The receiver `r` is blocked. -/
structure WaitEffect (k : Kernel) (r : Pid) (src : Endpoint) (a : Addr) (k' : Kernel) : Prop where
  record : ∀ p, (k'.procTable p).core = if p = r then { (k.procTable r).core with
      pFlags := { (k.procTable r).pFlags with receiving := true }
      pRecvfrom := src
      pMsg := some a }
    else (k.procTable p).core
  mem : k'.mem = k.mem

/-- The receiver `r` takes a remembered interrupt. -/
structure InterruptEffect (k : Kernel) (r : Pid) (a : Addr) (k' : Kernel) : Prop where
  record : ∀ p, (k'.procTable p).core = if p = r then { (k.procTable r).core with
      hasIntMsg := false }
    else (k.procTable p).core
  mem : k'.mem = (k.setMem r a intMessage).mem

theorem takeMessage_effect (hs : (k.procTable f).pFlags.sending = true)
    (ht : (k.procTable f).pSendto = .proc r) (prev : Option Pid) :
    wp (takeMessage r f prev (some a)) (fun _ k' => ∃ b, TakeEffect k r f a b k')
      (fun _ _ => True) k := by
  cases hb : (k.procTable f).pMsg with
  | none =>
    simp only [takeMessage, wp_bind, wp_procOf, wp_ite, wp_setProc, wp_check, hb]
    refine ⟨fun _ => by simp, fun _ => ?_⟩
    cases prev <;> simp [hb]
  | some b =>
    have hend : ∀ k₂ : Kernel, (∀ p, (k₂.procTable p).core = (k.procTable p).core) →
        k₂.mem = k.mem → TakeEffect k r f a b
          ((((k₂.setMem r a (k₂.mem f b)).setProc f fun r => { r with pMsg := none }).setProc f
            fun r => { r with pFlags := { r.pFlags with sending := false } }).setProc f
            fun r => { r with pSendto := .noTask }) := by
      intro k₂ hrec hmem
      refine ⟨hs, ht, hb, fun p => ?_, ?_⟩
      · simp only [Kernel.setProc_setProc, core_setProc, Kernel.setMem_procTable, hrec]
        split
        · have hf := hrec f
          simp only [Process.core, Process.mk.injEq] at hf ⊢
          simp [hf]
        · rfl
      · simp [Kernel.setMem, hmem]
    simp only [takeMessage, wp_bind, wp_procOf, wp_ite, wp_setProc, wp_check, hb, wp_copyMessage,
      wp_unblock, ne_eq, reduceCtorEq, not_false_eq_true, implies_true, and_true, forall_const]
    refine ⟨fun _ _ => ⟨b, hend _ ?_ ?_⟩, fun _ => ?_⟩
    · intro p
      apply core_setProc_links <;> exact fun _ => rfl
    · rfl
    · cases prev with
      | none => simp
      | some z =>
        simp only [wp_bind, wp_setProc, wp_check, wp_copyMessage, wp_unblock, reduceCtorEq,
          not_false_eq_true, implies_true, and_true, forall_const]
        refine fun _ _ => ⟨b, hend _ ?_ ?_⟩
        · intro p
          apply core_setProc_links <;> exact fun _ => rfl
        · rfl

theorem checkReceive_effect {Q : Unit → Kernel → Prop}
    (hQ : (k.procTable f).pFlags.sending = true → (k.procTable f).pSendto = .proc r → Q () k) :
    wp (checkReceive r f) Q (fun _ _ => True) k := by
  simp only [checkReceive, wp_bind, wp_procOf, wp_check, implies_true, and_true]
  intro _ _ _ _ _ hf _ ht _
  exact hQ (by rw [hf]) ht

theorem waitMessage_effect (src : Endpoint) :
    wp (waitMessage r src (some a)) (fun _ k' => WaitEffect k r src a k') (fun _ _ => True) k := by
  simp only [waitMessage, wp_bind, wp_procOf, wp_check, wp_setProc, wp_block, implies_true,
    and_true, Kernel.setProc_setProc]
  intros
  exact ⟨fun p => by rw [core_setProc]; rfl, rfl⟩

theorem waitInterrupt_effect :
    wp (waitInterrupt r (some a)) (fun _ k' => WaitEffect k r .interrupt a k')
      (fun _ _ => True) k := by
  simp only [waitInterrupt, wp_bind, wp_setProc, wp_block, implies_true, and_true,
    Kernel.setProc_setProc]
  intros
  exact ⟨fun p => by rw [core_setProc]; rfl, rfl⟩

theorem takeInterrupt_effect :
    wp (takeInterrupt r (some a)) (fun _ k' => InterruptEffect k r a k') (fun _ _ => True) k := by
  simp only [takeInterrupt, wp_bind, wp_procOf, wp_check, wp_setProc, wp_storeMessage, implies_true,
    and_true]
  intros
  exact ⟨fun p => by rw [core_setProc]; rfl, rfl⟩

/-- What a `RECEIVE` that returns has done. -/
inductive ReceiveEffect (k : Kernel) (r : Pid) (src : Endpoint) (a : Addr) (k' : Kernel) : Prop
  | interrupt (hs : src = .any ∨ src = .interrupt) (h : InterruptEffect k r a k')
  | take (f : Pid) (b : Addr) (hs : src = .any ∨ src = .proc f) (h : TakeEffect k r f a b k')
  | wait (hs : ∀ f, src = .proc f →
      ¬ ((k.procTable f).pFlags.sending = true ∧ (k.procTable f).pSendto = .proc r))
      (h : WaitEffect k r src a k')

theorem msgReceive_effect (src : Endpoint) :
    wp (msgReceive r src (some a)) (fun _ k' => ReceiveEffect k r src a k')
      (fun _ _ => True) k := by
  simp only [msgReceive, wp_bind, wp_check, wp_procOf, wp_ite, implies_true, and_true]
  refine fun _ => ⟨fun hi => ?_, fun hi => ?_⟩
  · exact wp_mono takeInterrupt_effect (fun _ _ h => .interrupt hi.2 h) (fun _ _ h => h)
  · cases src with
    | interrupt =>
      exact wp_mono waitInterrupt_effect (fun _ _ h => .wait (by simp) h) (fun _ _ h => h)
    | any =>
      cases hq : (k.procTable r).qSending with
      | some f =>
        simp only [wp_bind]
        apply checkReceive_effect
        intro hs ht
        refine wp_mono (takeMessage_effect hs ht none) ?_ (fun _ _ h => h)
        rintro _ k' ⟨b, hb⟩
        exact .take f b (.inl rfl) hb
      | none =>
        exact wp_mono (waitMessage_effect _) (fun _ _ h => .wait (by simp) h) (fun _ _ h => h)
    | proc f =>
      simp only [wp_bind, wp_procOf, wp_ite, wp_check, implies_true, and_true]
      refine ⟨fun _ _ => ?_, fun hn => ?_⟩
      · apply wp_of_keeps (fun I => keeps_findSender _ _ _ _)
        intro prev
        apply checkReceive_effect
        intro hs ht
        refine wp_mono (takeMessage_effect hs ht prev) ?_ (fun _ _ h => h)
        rintro _ k' ⟨b, hb⟩
        exact .take f b (.inr rfl) hb
      · refine wp_mono (waitMessage_effect _) (fun _ _ h => .wait ?_ h) (fun _ _ h => h)
        rintro g hg
        cases hg
        exact hn
    | noTask => trivial

/-- An interrupt wakes the task that waits for it. -/
structure WakeEffect (k : Kernel) (t : Pid) (b : Addr) (k' : Kernel) : Prop where
  receiving : (k.procTable t).pFlags.receiving = true
  recvfrom : (k.procTable t).pRecvfrom = .interrupt ∨ (k.procTable t).pRecvfrom = .any
  buffer : (k.procTable t).pMsg = some b
  record : ∀ p, (k'.procTable p).core = if p = t then { (k.procTable t).core with
      pMsg := none
      hasIntMsg := false
      pFlags := { (k.procTable t).pFlags with receiving := false }
      pRecvfrom := .noTask }
    else (k.procTable p).core
  mem : k'.mem = (k.setMem t b { k.mem t b with source := .interrupt, type := .hardInt }).mem

/-- An interrupt is remembered. -/
structure RememberEffect (k : Kernel) (t : Pid) (k' : Kernel) : Prop where
  record : ∀ p, (k'.procTable p).core = if p = t then { (k.procTable t).core with
      hasIntMsg := true }
    else (k.procTable p).core
  mem : k'.mem = k.mem

theorem informInt_effect : wp (informInt t)
    (fun _ k' => (∃ b, WakeEffect k t b k') ∨ RememberEffect k t k') (fun _ _ => True) k := by
  simp only [informInt, wp_bind, wp_procOf, wp_ite]
  refine ⟨fun h => ?_, fun _ => ?_⟩
  · cases hb : (k.procTable t).pMsg with
    | none => simp [loadMessage]
    | some b =>
      simp only [wp_loadMessage, wp_storeMessage, wp_setProc, wp_check, wp_unblock, implies_true,
        and_true, Kernel.setProc_setProc]
      intros
      refine .inl ⟨b, h.1, h.2, hb, fun p => ?_, rfl⟩
      rw [core_setProc]
      rfl
  · refine .inr ⟨fun p => ?_, rfl⟩
    rw [core_setProc]
    rfl

/-- What a `SEND` that returns has done. -/
inductive SendEffect (k : Kernel) (s d : Pid) (a : Addr) (k' : Kernel) : Prop
  | direct (b : Addr) (h : DirectEffect k s d a b k')
  | queue (hn : ¬ ((k.procTable d).pFlags.receiving = true ∧
      ((k.procTable d).pRecvfrom = .any ∨ (k.procTable d).pRecvfrom = .proc s)))
      (h : QueueEffect k s d a k')

/-- The caller's buffer once `sys_sendrec` has written its source field. -/
def Kernel.stamp (k : Kernel) (p : Pid) (a : Addr) : Kernel :=
  k.setMem p a { k.mem p a with source := .proc p }

theorem sysSend_effect : wp (sysSendrec .send (.proc d) (some a) s)
    (fun _ k' => SendEffect (k.stamp s a) s d a k') (fun _ _ => True) k := by
  simp only [sysSendrec, wp_bind, wp_check, wp_loadMessage, wp_storeMessage, implies_true,
    and_true]
  intro _
  refine wp_mono msgSend_effect ?_ (fun _ _ h => h)
  rintro _ k' (⟨b, hb⟩ | ⟨hn, hq⟩)
  · exact .direct b hb
  · exact .queue hn hq

theorem sysReceive_effect (src : Endpoint) : wp (sysSendrec .receive src (some a) r)
    (fun _ k' => ReceiveEffect (k.stamp r a) r src a k') (fun _ _ => True) k := by
  simp only [sysSendrec, wp_bind, wp_check, wp_loadMessage, wp_storeMessage, implies_true,
    and_true]
  intro _
  exact msgReceive_effect src

end BazingaOS
