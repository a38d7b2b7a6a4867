import BazingaOS.Kernel.Deadlock

/-!
# Interrupts

`inform_int` hands an interrupt to a task that waits for it or sets `has_int_msg`, which the next
`RECEIVE` from `ANY` or `INTERRUPT` consumes. Tasks receive through `send_rec`, which clears the
buffer before a `RECEIVE`.
-/

namespace BazingaOS

open Prog

/-- `send_rec(RECEIVE, ...)` clears the buffer; a `RECEIVE` from one given process may also be the
second half of a `BOTH`. -/
def IpcAction.Cleared : IpcAction → Prop
  | .receive _ src _ v => src = .any ∨ src = .interrupt → v = {}
  | _ => True

def ClearedStep (m : Machine Kernel) (act : IpcAction) (m' : Machine Kernel) : Prop :=
  IpcStep m act m' ∧ act.Cleared

/-- The message with which a `RECEIVE` of `t` completes in a step. -/
def received (k : Kernel) (act : IpcAction) (k' : Kernel) (t : Pid) : Option Message :=
  if (k'.procTable t).pFlags.receiving then none
  else if (k.procTable t).pFlags.receiving then (k.procTable t).pMsg.map (k'.mem t)
  else
    match act with
    | .receive r _ a _ => if r = t then some (k'.mem t a) else none
    | _ => none

/-- Whether `t` is handed an interrupt in a step. -/
def gotInt (k : Kernel) (act : IpcAction) (k' : Kernel) (t : Pid) : Bool :=
  (received k act k' t).any fun v => v.source = .interrupt

def IpcAction.informs (t : Pid) : IpcAction → Bool
  | .inform u => u = t
  | _ => false

/-- Steps that count the interrupts that `t` has been handed. -/
def CountStep (t : Pid) (c : Machine Kernel × Nat) (act : IpcAction) (c' : Machine Kernel × Nat) :
    Prop :=
  ClearedStep c.1 act c'.1 ∧ c'.2 = c.2 + (gotInt c.1.state act c'.1.state t).toNat

/-- What is said of interrupts in one step of the machine. -/
structure InterruptOk (k : Kernel) (act : IpcAction) (m : Machine Kernel) (t : Pid) : Prop where
  informed : act = .inform t → (received k act m.state t = some intMessage ∧
      (m.state.procTable t).pFlags = 0) ∨ (m.state.procTable t).hasIntMsg = true
  kept : (k.procTable t).hasIntMsg = true →
    (∀ src a v, act = .receive t src a v → src ≠ .any ∧ src ≠ .interrupt) →
    (m.state.procTable t).hasIntMsg = true
  taken : ∀ src a v, act = .receive t src a v → src = .any ∨ src = .interrupt →
    (k.procTable t).hasIntMsg = true →
    m.stopped = none ∧ (m.state.procTable t).pFlags = 0 ∧
      received k act m.state t = some intMessage ∧ (m.state.procTable t).hasIntMsg = false ∧
      ∀ p, (m.state.procTable p).qSending = (k.procTable p).qSending ∧
        (m.state.procTable p).nextSending = (k.procTable p).nextSending
  same : ∀ v, received k act m.state t = some v → v.source = .interrupt → v = intMessage

/-- The buffers of blocked processes: a sender's carries its number, and that of a process that
waits for an interrupt is clear. -/
structure Clean (x : Ipc) : Prop where
  sender : ∀ s d a, x.status s = .sending d a → (x.mem s a).source = .proc s
  receiver : ∀ t src b, x.status t = .receiving src b → src = .any ∨ src = .interrupt →
    x.mem t b = { source := .proc t }

section Clean

variable {x x' : Ipc} {s d r t : Pid} {a : Addr} {v : Message} {src : Source Pid}

theorem Clean.setMem (h : Clean x) (hs : x.status s = .idle) (a : Addr) (v : Message) :
    Clean (x.setMem s a v) := by
  have hne : ∀ {p : Pid} {st : Status Pid Addr}, x.status p = st → st ≠ .idle →
      (x.setMem s a v).mem p = x.mem p := by
    intro p st hp hst
    apply Function.update_of_ne
    rintro rfl
    exact hst (hp.symm.trans hs)
  constructor
  · intro p d b hp
    rw [hne hp (by simp)]
    exact h.sender p d b hp
  · intro p src b hp hsrc
    rw [hne hp (by simp)]
    exact h.receiver p src b hp hsrc

theorem Clean.idle (h : Clean x) {q : Pid}
    (status : ∀ p, x'.status p = if p = q then .idle else x.status p)
    (mem : ∀ p, p ≠ q → x'.mem p = x.mem p) : Clean x' := by
  have hne : ∀ {p : Pid} {st : Status Pid Addr}, x'.status p = st → st ≠ .idle →
      x.status p = st ∧ x'.mem p = x.mem p := by
    intro p st hp hst
    rw [status] at hp
    split at hp
    · exact absurd hp.symm hst
    · next hpq => exact ⟨hp, mem p hpq⟩
  constructor
  · intro p d b hp
    obtain ⟨hp, hm⟩ := hne hp (by simp)
    rw [hm]
    exact h.sender p d b hp
  · intro p src b hp hsrc
    obtain ⟨hp, hm⟩ := hne hp (by simp)
    rw [hm]
    exact h.receiver p src b hp hsrc

theorem Clean.send (h : Clean x) (hs : x.status s = .idle)
    (hx : (x.setMem s a { v with source := .proc s }).SendCase s d a x') : Clean x' := by
  have h' := h.setMem hs a { v with source := .proc s }
  rcases hx with ⟨b, _, status, mem, _⟩ | ⟨_, status, mem, _⟩
  · refine h'.idle status fun p hp => ?_
    rw [mem]
    exact Function.update_of_ne hp _ _
  · constructor
    · intro p e c hp
      rw [mem]
      by_cases hps : p = s
      · subst hps
        rw [status, if_pos rfl] at hp
        cases hp
        simp [Rendezvous.setMem]
      · rw [status, if_neg hps] at hp
        exact h'.sender p e c hp
    · intro p src b hp hsrc
      have hps : p ≠ s := by
        rintro rfl
        rw [status, if_pos rfl] at hp
        cases hp
      rw [status, if_neg hps] at hp
      rw [mem]
      exact h'.receiver p src b hp hsrc

theorem Clean.receive (h : Clean x) (hr : x.status r = .idle)
    (hv : src = .any ∨ src = .interrupt → v = {})
    (hx : (x.setMem r a { v with source := .proc r }).ReceiveCase intMessage r src a x') :
    Clean x' := by
  have h' := h.setMem hr a { v with source := .proc r }
  have hst : (x.setMem r a { v with source := .proc r }).status = x.status := rfl
  rcases hx with ⟨_, _, status, mem, _⟩ | ⟨f, b, _, hf, status, mem, _⟩ | ⟨_, status, mem, _⟩
  · have hclear := h'.setMem hr a intMessage
    constructor
    · intro p d b hp
      rw [mem]
      rw [status] at hp
      exact hclear.sender p d b hp
    · intro p src b hp hsrc
      rw [mem]
      rw [status] at hp
      exact hclear.receiver p src b hp hsrc
  · have hclear := h'.setMem hr a ((x.setMem r a { v with source := .proc r }).mem f b)
    exact hclear.idle status fun p hp => by rw [mem]
  · constructor
    · intro p e c hp
      have hpr : p ≠ r := by
        rintro rfl
        rw [status, if_pos rfl] at hp
        cases hp
      rw [status, if_neg hpr] at hp
      rw [mem]
      exact h'.sender p e c hp
    · intro p src' b hp hsrc
      rw [mem]
      by_cases hpr : p = r
      · subst hpr
        rw [status, if_pos rfl] at hp
        cases hp
        rw [hv hsrc]
        simp [Rendezvous.setMem]
      · rw [status, if_neg hpr] at hp
        exact h'.receiver p src' b hp hsrc

theorem Clean.inform (h : Clean x) (t : Pid) : Clean (x.inform markInt t) := by
  unfold Rendezvous.inform
  split
  · refine Clean.idle (q := t) h (fun p => Function.update_apply ..) fun p hp => ?_
    exact Function.update_of_ne hp _ _
  · exact ⟨h.sender, h.receiver⟩

end Clean

section Steps

variable {k k' : Kernel} {x x' : Ipc} {m m' : Machine Kernel} {act : IpcAction} {t r s d : Pid}
variable {a b : Addr} {v : Message} {src : Source Pid}

theorem Refines.receiving_iff (h : Refines k x) (p : Pid) :
    (k.procTable p).pFlags.receiving = true ↔ ∃ src b, x.status p = .receiving src b := by
  constructor
  · intro hp
    obtain ⟨src, b, hs, -⟩ := h.receiving_of_flags hp
    exact ⟨src, b, hs⟩
  · rintro ⟨src, b, hs⟩
    rw [(h.receiving_fields hs).1]

theorem received_waiting (h' : Refines k' x') (ht : x'.status t = .receiving src b) :
    received k act k' t = none := by
  unfold received
  rw [if_pos ((h'.receiving_iff t).mpr ⟨src, b, ht⟩)]

theorem received_woken (h : Refines k x) (h' : Refines k' x') (ht : x.status t = .receiving src b)
    (ht' : x'.status t = .idle) : received k act k' t = some (x'.mem t b) := by
  have hn : ¬ (k'.procTable t).pFlags.receiving = true := by
    rw [h'.receiving_iff, ht']
    simp
  unfold received
  rw [if_neg hn, if_pos ((h.receiving_iff t).mpr ⟨src, b, ht⟩), (h.receiving_fields ht).2.1, h'.mem]
  rfl

theorem received_at_once (h : Refines k x) (h' : Refines k' x') (ht : x.status t = .idle)
    (ht' : x'.status t = .idle) :
    received k (.receive t src a v) k' t = some (x'.mem t a) := by
  have hn : ¬ (k.procTable t).pFlags.receiving = true := by
    rw [h.receiving_iff, ht]
    simp
  have hn' : ¬ (k'.procTable t).pFlags.receiving = true := by
    rw [h'.receiving_iff, ht']
    simp
  unfold received
  rw [if_neg hn', if_neg hn]
  simp [h'.mem]

theorem received_none (h : Refines k x) (h' : Refines k' x')
    (hs : ∀ src b, x.status t = .receiving src b → x'.status t = .receiving src b)
    (hact : ∀ src a v, act ≠ .receive t src a v) : received k act k' t = none := by
  by_cases ht : (k.procTable t).pFlags.receiving = true
  · obtain ⟨src, b, hst⟩ := (h.receiving_iff t).mp ht
    exact received_waiting h' (hs src b hst)
  · unfold received
    split
    · rfl
    · split
      · next r src a v =>
        rw [if_neg]
        rintro rfl
        exact hact src a v rfl
      · rfl

/-- What a step has to do with the interrupts of `t`. -/
inductive IntCase (t : Pid) (k : Kernel) (act : IpcAction) (m : Machine Kernel) : Prop
  | handed (hact : act = .inform t) (hm : received k act m.state t = some intMessage)
      (hf : (m.state.procTable t).pFlags = 0) (hk : (k.procTable t).hasIntMsg = false)
      (hk' : (m.state.procTable t).hasIntMsg = false)
  | remembered (hact : act = .inform t) (hm : received k act m.state t = none)
      (hk' : (m.state.procTable t).hasIntMsg = true)
  | taken (src : Source Pid) (a : Addr) (v : Message) (hact : act = .receive t src a v)
      (hsrc : src = .any ∨ src = .interrupt) (hk : (k.procTable t).hasIntMsg = true)
      (hn : m.stopped = none) (hf : (m.state.procTable t).pFlags = 0)
      (hm : received k act m.state t = some intMessage)
      (hk' : (m.state.procTable t).hasIntMsg = false)
      (hq : ∀ p, (m.state.procTable p).qSending = (k.procTable p).qSending ∧
        (m.state.procTable p).nextSending = (k.procTable p).nextSending)
  | other (hact : act ≠ .inform t) (hm : ∀ v, received k act m.state t = some v →
        v.source ≠ .interrupt)
      (hk' : (m.state.procTable t).hasIntMsg = (k.procTable t).hasIntMsg)
      (hsrc : ∀ src a v, act = .receive t src a v → src = .any ∨ src = .interrupt →
        (k.procTable t).hasIntMsg = false)

theorem receive_interrupt (h : Refines k x) (hr : (k.procTable r).pFlags = 0)
    (hp : (k.procTable r).hasIntMsg = true) (hs : src = .any ∨ src = .interrupt) :
    (IpcAction.receive r src a v).prog k = .ok () ((((k.setMem r a v).setMem r a
      { v with source := .proc r }).setMem r a intMessage).setProc r
        fun p => { p with hasIntMsg := false }) := by
  obtain ⟨hr1, hr2, hr3, -⟩ := h.idle_fields (h.status_of_flags hr)
  have hend : src.endpoint ≠ .noTask := by rcases hs with rfl | rfl <;> simp [Source.endpoint]
  have hself : src.endpoint ≠ .proc r := by rcases hs with rfl | rfl <;> simp [Source.endpoint]
  have hint : src.endpoint = .any ∨ src.endpoint = .interrupt := by
    rcases hs with rfl | rfl <;> simp [Source.endpoint]
  have hw : wp (IpcAction.receive r src a v).prog (fun _ k' => k' = ((((k.setMem r a v).setMem r a
      { v with source := .proc r }).setMem r a intMessage).setProc r
        fun p => { p with hasIntMsg := false })) (fun _ _ => False) k := by
    simp [IpcAction.prog, sysSendrec, msgReceive, takeInterrupt, hend, hself, hint, hp, hr1, hr2,
      hr3]
  unfold wp at hw
  cases hc : (IpcAction.receive r src a v).prog k with
  | ok u k' =>
    rw [hc] at hw
    rw [hw]
  | stop w k' =>
    rw [hc] at hw
    exact hw.elim

theorem intCase_send (h : Refines k x) (h' : Refines m.state x') (hs : x.status s = .idle)
    (hx : (x.setMem s a { v with source := .proc s }).SendCase s d a x') :
    IntCase t k (.send s d a v) m := by
  have hst : (x.setMem s a { v with source := .proc s }).status = x.status := rfl
  have hother : (∀ v', received k (.send s d a v) m.state t = some v' → v'.source ≠ .interrupt) →
      x'.pending = x.pending → IntCase t k (.send s d a v) m := by
    intro hm hp
    refine .other (by simp) hm ?_ (by simp)
    rw [h'.pending, h.pending, hp]
  rcases hx with ⟨b, hd, status, mem, pending⟩ | ⟨_, status, _, pending⟩
  · rw [hst] at hd status
    refine hother ?_ pending
    intro v' hv'
    by_cases htd : t = d
    · subst htd
      obtain ⟨src, hsrc⟩ : ∃ src, x.status t = .receiving src b := by
        rcases hd with hd | hd <;> exact ⟨_, hd⟩
      rw [received_woken h h' hsrc (by rw [status, if_pos rfl]), mem] at hv'
      cases hv'
      simp [Rendezvous.setMem]
    · rw [received_none h h' (fun src b hb => by rw [status, if_neg htd, hb]) (by simp)] at hv'
      cases hv'
  · rw [hst] at status
    refine hother ?_ pending
    intro v' hv'
    rw [received_none h h' ?_ (by simp)] at hv'
    · cases hv'
    · intro src b hb
      rw [status, if_neg]
      · exact hb
      · rintro rfl
        rw [hs] at hb
        cases hb

theorem intCase_receive (h : Refines k x) (h' : Refines m.state x') (hcl : Clean x)
    (hr : x.status r = .idle)
    (hn : r = t → src = .any ∨ src = .interrupt → (k.procTable t).hasIntMsg = false)
    (hx : (x.setMem r a { v with source := .proc r }).ReceiveCase intMessage r src a x') :
    IntCase t k (.receive r src a v) m := by
  have hst : (x.setMem r a { v with source := .proc r }).status = x.status := rfl
  have hother : (∀ v', received k (.receive r src a v) m.state t = some v' →
      v'.source ≠ .interrupt) → x'.pending t = x.pending t →
      IntCase t k (.receive r src a v) m := by
    intro hm hp
    refine .other (by simp) hm ?_ ?_
    · rw [h'.pending, h.pending, hp]
    · rintro _ _ _ ⟨⟩ hsrc
      exact hn rfl hsrc
  have hnone : r ≠ t → (∀ src b, x.status t = .receiving src b → x'.status t = .receiving src b) →
      ∀ v', received k (.receive r src a v) m.state t = some v' → v'.source ≠ .interrupt := by
    intro hrt hs v' hv'
    rw [received_none h h' hs] at hv'
    · cases hv'
    · rintro _ _ _ ⟨⟩
      exact hrt rfl
  rcases hx with ⟨honly, hp, status, _, pending⟩ | ⟨f, b, _, hf, status, mem, pending⟩ |
    ⟨_, status, _, pending⟩
  · have hrt : r ≠ t := by
      rintro rfl
      have hsrc : src = .any ∨ src = .interrupt := by
        cases src with
        | any => exact .inl rfl
        | interrupt => exact .inr rfl
        | only q => exact absurd rfl (honly q)
      have hfalse := hn rfl hsrc
      rw [h.pending] at hfalse
      rw [show x.pending r = true from hp] at hfalse
      cases hfalse
    refine hother (hnone hrt fun src b hb => by rw [status, hst, hb]) ?_
    rw [pending, Function.update_of_ne (Ne.symm hrt)]
    rfl
  · rw [hst] at hf status
    refine hother ?_ (by rw [pending]; rfl)
    by_cases hrt : r = t
    · subst hrt
      have hrf : r ≠ f := by
        rintro rfl
        rw [hr] at hf
        cases hf
      intro v' hv'
      rw [received_at_once h h' hr (by rw [status, if_neg hrf, hr]), mem] at hv'
      cases hv'
      rw [Rendezvous.mem_setMem_self, Rendezvous.mem_setMem_of_ne _ _ _ (Ne.symm hrf),
        hcl.sender f r b hf]
      simp
    · refine hnone hrt fun src b' hb => ?_
      rw [status, if_neg]
      · exact hb
      · rintro rfl
        rw [hf] at hb
        cases hb
  · rw [hst] at status
    refine hother ?_ (by rw [pending]; rfl)
    by_cases hrt : r = t
    · subst hrt
      intro v' hv'
      rw [received_waiting h' (by rw [status, if_pos rfl])] at hv'
      cases hv'
    · exact hnone hrt fun src b hb => by rw [status, if_neg (Ne.symm hrt), hb]

theorem intCase_inform (h : Refines k x) (h' : Refines m.state (x.inform markInt r)) (hcl : Clean x)
    (hm : x.Matched) : IntCase t k (.inform r) m := by
  by_cases hrt : r = t
  · subst hrt
    cases hb : x.awaits r with
    | some b =>
      have hx : x.inform markInt r =
          ((x.setMem r b (markInt (x.mem r b))).setStatus r .idle).setPending r false := by
        simp [Rendezvous.inform, hb]
      rw [hx] at h'
      obtain ⟨src, hs, hsrc⟩ : ∃ src, x.status r = .receiving src b ∧
          (src = .any ∨ src = .interrupt) := by
        rcases Rendezvous.status_of_awaits hb with hs | hs
        · exact ⟨_, hs, .inl rfl⟩
        · exact ⟨_, hs, .inr rfl⟩
      have hidle : (((x.setMem r b (markInt (x.mem r b))).setStatus r .idle).setPending r
          false).status r = .idle := by
        simp [Rendezvous.setStatus, Rendezvous.setPending]
      refine .handed rfl ?_ (h'.idle_fields hidle).1 ?_ ?_
      · rw [received_woken h h' hs hidle]
        simp [Rendezvous.setStatus, Rendezvous.setPending, Rendezvous.setMem, markInt,
          hcl.receiver r src b hs hsrc, intMessage]
      · rw [h.pending]
        exact hm.pending r src b hs hsrc
      · rw [h'.pending]
        simp [Rendezvous.setPending]
    | none =>
      have hx : x.inform markInt r = x.setPending r true := by simp [Rendezvous.inform, hb]
      rw [hx] at h'
      refine .remembered rfl (received_none h h' (fun _ _ hs => hs) (by simp)) ?_
      rw [h'.pending]
      simp [Rendezvous.setPending]
  · have hstatus : (x.inform markInt r).status t = x.status t := by
      unfold Rendezvous.inform
      split
      · exact Function.update_of_ne (Ne.symm hrt) _ _
      · rfl
    have hpending : (x.inform markInt r).pending t = x.pending t := by
      unfold Rendezvous.inform
      split <;> exact Function.update_of_ne (Ne.symm hrt) _ _
    refine .other (by simpa using hrt) ?_ ?_ (by simp)
    · intro v' hv'
      rw [received_none h h' (fun _ _ hs => hstatus.trans hs) (by simp)] at hv'
      cases hv'
    · rw [h'.pending, h.pending, hpending]

end Steps

section Runs

variable {k : Kernel} {x : Ipc} {m m' : Machine Kernel} {act : IpcAction} {t : Pid}

/-- The invariant of the rendezvous machine that interrupts rest on. -/
structure IntInv (k : Kernel) (x : Ipc) : Prop where
  refines : Refines k x
  clean : Clean x
  matched : x.Matched

theorem ClearedStep.intCase (h : IntInv m.state x) (hstep : ClearedStep m act m') (t : Pid) :
    IntCase t m.state act m' ∧ ∃ x', IntInv m'.state x' := by
  obtain ⟨hstep, hclear⟩ := hstep
  have hc := hstep.2.1.callable
  have href := hstep.refines h.refines
  cases act with
  | send s d a v =>
    have hidle := h.refines.status_of_flags hc.1
    have hcase := Rendezvous.send_case (x.setMem s a { v with source := .proc s }) s d a
    rcases href with ⟨-, hr⟩ | ⟨-, hr⟩
    · exact ⟨intCase_send h.refines hr hidle hcase, _, hr, h.clean.send hidle hcase,
        (h.matched.setMem s a _).send hidle⟩
    · refine ⟨?_, _, hr, h.clean.setMem hidle a _, h.matched.setMem s a _⟩
      refine .other (by simp) ?_ ?_ (by simp)
      · intro v' hv'
        rw [received_none h.refines hr (fun _ _ hs => hs) (by simp)] at hv'
        cases hv'
      · rw [hr.pending, h.refines.pending]
        rfl
  | receive r src a v =>
    have hidle := h.refines.status_of_flags hc.1
    have hwf : (x.setMem r a { v with source := .proc r }).WF :=
      ⟨h.refines.wf.mem_queue, h.refines.wf.nodup⟩
    have hcase := hwf.receive_case intMessage r src a
    have hr : Refines m'.state ((IpcAction.receive r src a v).apply x) := by
      rcases href with ⟨-, hr⟩ | ⟨-, hr⟩ <;> exact hr
    refine ⟨?_, _, hr, h.clean.receive hidle hclear hcase,
      (h.matched.setMem r a _).receive hwf intMessage⟩
    by_cases hint : r = t ∧ (src = .any ∨ src = .interrupt) ∧
        (m.state.procTable t).hasIntMsg = true
    · obtain ⟨rfl, hsrc, hp⟩ := hint
      have hok := receive_interrupt (a := a) (v := v) h.refines hc.1 hp hsrc
      have hm' : m' = { state := ((((m.state.setMem r a v).setMem r a
          { v with source := .proc r }).setMem r a intMessage).setProc r
            fun p => { p with hasIntMsg := false }) } := by
        rw [hstep.2.2, Machine.exec, hok]
      subst hm'
      have hflags := hc.1
      refine .taken src a v rfl hsrc hp rfl ?_ ?_ ?_ ?_
      · simpa using hflags
      · unfold received
        simp [hflags]
      · simp
      · intro p
        rw [Kernel.setProc_apply]
        split
        · next hp => simp [hp]
        · exact ⟨rfl, rfl⟩
    · apply intCase_receive h.refines hr h.clean hidle ?_ hcase
      intro hrt hsrc
      by_contra hne
      exact hint ⟨hrt, hsrc, by simpa using hne⟩
  | inform u =>
    have hr : Refines m'.state (x.inform markInt u) := by
      rcases href with ⟨-, hr⟩ | ⟨-, hr⟩ <;> exact hr
    exact ⟨intCase_inform h.refines hr h.clean h.matched, _, hr, h.clean.inform u,
      h.matched.inform markInt⟩

theorem IntCase.ok (h : IntCase t k act m) : InterruptOk k act m t := by
  cases h with
  | handed hact hm hf hk hk' =>
    subst hact
    refine ⟨fun _ => .inl ⟨hm, hf⟩, ?_, by simp, ?_⟩
    · intro hp
      rw [hk] at hp
      cases hp
    · intro v hv _
      rw [hm] at hv
      exact (Option.some.inj hv).symm
  | remembered hact hm hk' =>
    subst hact
    refine ⟨fun _ => .inr hk', fun _ _ => hk', by simp, ?_⟩
    intro v hv
    rw [hm] at hv
    cases hv
  | taken src a v hact hsrc hk hn hf hm hk' hq =>
    subst hact
    refine ⟨by simp, ?_, fun _ _ _ _ _ _ => ⟨hn, hf, hm, hk', hq⟩, ?_⟩
    · intro _ hne
      have hne' := hne src a v rfl
      rcases hsrc with rfl | rfl
      · exact absurd rfl hne'.1
      · exact absurd rfl hne'.2
    · intro v hv _
      rw [hm] at hv
      exact (Option.some.inj hv).symm
  | other hact hm hk' hsrc =>
    refine ⟨fun hi => absurd hi hact, ?_, ?_, ?_⟩
    · intro hp _
      rw [hk', hp]
    · intro src a v ha hs hp
      rw [hsrc src a v ha hs] at hp
      cases hp
    · intro v hv hv'
      exact absurd hv' (hm v hv)

/-- An interrupt is counted only when it has been reported, and one that is remembered is still
to come. -/
theorem IntCase.count (h : IntCase t k act m) {n c : Nat}
    (hn : n + (k.procTable t).hasIntMsg.toNat ≤ c) :
    n + (gotInt k act m.state t).toNat + (m.state.procTable t).hasIntMsg.toNat ≤
      c + (act.informs t).toNat := by
  cases h with
  | handed hact hm _ hk hk' =>
    subst hact
    simp [gotInt, hm, hk', IpcAction.informs, intMessage]
    omega
  | remembered hact hm hk' =>
    subst hact
    simp [gotInt, hm, hk', IpcAction.informs]
    omega
  | taken src a v hact _ hk _ _ hm hk' _ =>
    subst hact
    rw [hk] at hn
    simp [gotInt, hm, hk', IpcAction.informs, intMessage]
    simpa using hn
  | other hact hm hk' _ =>
    have hgot : gotInt k act m.state t = false := by
      unfold gotInt
      cases hr : received k act m.state t with
      | none => rfl
      | some v => simpa using hm v hr
    rw [hgot, hk']
    simp only [Bool.toNat_false, Nat.add_zero]
    omega

theorem intInv_init (mem : Pid → Addr → Message) : IntInv (kernelMain mem) (ipcInit mem) where
  refines := kernelMain_refines mem
  clean := ⟨fun s d a hs => absurd hs (ipcInit_not_sending mem s d a),
    fun t src b ht => absurd ht (ipcInit_not_receiving mem t src b)⟩
  matched := ⟨fun s d a _ _ hs => absurd hs (ipcInit_not_sending mem s d a),
    fun t src b ht => absurd ht (ipcInit_not_receiving mem t src b)⟩

theorem countRun {mem : Pid → Addr → Message} {acts : List IpcAction} {n : Nat}
    (hr : Run (CountStep t) ({ state := kernelMain mem }, 0) acts (m, n)) :
    (∃ x, IntInv m.state x) ∧
      n + (m.state.procTable t).hasIntMsg.toNat ≤ acts.countP (IpcAction.informs t) := by
  generalize hc : (m, n) = c at hr
  induction hr generalizing m n with
  | nil =>
    cases hc
    refine ⟨⟨_, intInv_init mem⟩, ?_⟩
    change 0 + ((kernelMainTable t).hasIntMsg).toNat ≤ _
    unfold kernelMainTable
    split <;> simp [nativeProcess]
  | snoc _ hstep ih =>
    subst hc
    obtain ⟨⟨x, hx⟩, hcount⟩ := ih rfl
    obtain ⟨hcase, hinv⟩ := hstep.1.intCase hx t
    refine ⟨hinv, ?_⟩
    rw [List.countP_append, List.countP_singleton]
    have hn := hcase.count hcount
    rw [← hstep.2] at hn
    cases hi : IpcAction.informs t _ <;> simp_all

/-- In every run, a task has been handed at most as many interrupts as were reported to it, and
every step from the state reached deals with its interrupts as it should. -/
theorem interrupt_of_run {mem : Pid → Addr → Message} {acts : List IpcAction} {n : Nat}
    (hr : Run (CountStep t) ({ state := kernelMain mem }, 0) acts (m, n)) :
    n ≤ acts.countP (IpcAction.informs t) ∧
      ∀ act m', ClearedStep m act m' → InterruptOk m.state act m' t := by
  obtain ⟨⟨x, hx⟩, hcount⟩ := countRun hr
  refine ⟨by omega, fun act m' hstep => ?_⟩
  exact (hstep.intCase hx t).1.ok

/-- An interrupt is remembered, INIT sends to TTY, and TTY receives the interrupt first. -/
theorem interrupt_of_run_pending : ∃ m n, n = 1 ∧ m.stopped = none ∧
    (m.state.procTable init).pFlags.sending = true ∧
    Run (CountStep taskTty) ({ state := kernelMain fun _ _ => {} }, 0)
      [.inform taskTty, .send init taskTty 0 {}, .receive taskTty .any 0 {}] (m, n) ∧
    n ≤ List.countP (IpcAction.informs taskTty)
      [.inform taskTty, .send init taskTty 0 {}, .receive taskTty .any 0 {}] ∧
    ∀ act m', ClearedStep m act m' → InterruptOk m.state act m' taskTty := by
  let act₁ : IpcAction := .inform taskTty
  let act₂ : IpcAction := .send init taskTty 0 {}
  let act₃ : IpcAction := .receive taskTty .any 0 {}
  let m₀ : Machine Kernel := { state := kernelMain fun _ _ => {} }
  let m₁ := m₀.exec act₁.prog
  let m₂ := m₁.exec act₂.prog
  let m₃ := m₂.exec act₃.prog
  have h₁ : CountStep taskTty (m₀, 0) act₁ (m₁, 0) :=
    ⟨⟨⟨rfl, by change taskTty.val < nrTasks; decide, rfl⟩, trivial⟩, by decide +kernel⟩
  have h₂ : CountStep taskTty (m₁, 0) act₂ (m₂, 0) :=
    ⟨⟨⟨by decide +kernel, ⟨by decide +kernel, by decide, by decide +kernel⟩, rfl⟩, trivial⟩,
      by decide +kernel⟩
  have h₃ : CountStep taskTty (m₂, 0) act₃ (m₃, 1) :=
    ⟨⟨⟨by decide +kernel, ⟨by decide +kernel, by simp⟩, rfl⟩, fun _ => rfl⟩, by decide +kernel⟩
  have hr : Run (CountStep taskTty) (m₀, 0) [act₁, act₂, act₃] (m₃, 1) :=
    .snoc (.snoc (.snoc .nil h₁) h₂) h₃
  exact ⟨m₃, 1, rfl, by decide +kernel, by decide +kernel, hr, interrupt_of_run hr⟩

end Runs

end BazingaOS
