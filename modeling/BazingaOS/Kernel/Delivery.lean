import BazingaOS.Kernel.IpcSystem
import BazingaOS.Lib.Ledger

/-!
# Message delivery

A traced machine logs every `SEND` with the content of its buffer at the call, and every message
with which a `RECEIVE` completes. Completions are read off the process table and memory before
and after a step, for every process and not only for the one that the step addresses.
-/

namespace BazingaOS

open Prog

/-- The buffer of a `RECEIVE` that `d` issues in this step. -/
def IpcAction.buffer (act : IpcAction) (d : Pid) : Option Addr :=
  match act with
  | .receive r _ a _ => if r = d then some a else none
  | _ => none

def IpcAction.sent : IpcAction → List (Sent Pid Message)
  | .send s d _ v => [⟨s, d, v⟩]
  | _ => []

/-- The message with which a `RECEIVE` of `d` completes: `d` was blocked in it, or issues it now,
and is not blocked in it afterwards. -/
def completion (k k' : Kernel) (act : IpcAction) (d : Pid) : Option Message :=
  if (k'.procTable d).pFlags.receiving then none
  else if (k.procTable d).pFlags.receiving then (k.procTable d).pMsg.map (k'.mem d)
  else (act.buffer d).map (k'.mem d)

def completions (k k' : Kernel) (act : IpcAction) : List (Pid × Message) :=
  (List.finRange nrSlots).filterMap fun d => (completion k k' act d).map (d, ·)

structure Traced where
  machine : Machine Kernel
  sends : List (Sent Pid Message) := []
  received : List (Pid × Message) := []
  call : Option Nat := none

/-- A step and what it adds to the logs. A `SEND` that stops the machine never returns: `call`
remembers it. -/
def Traced.next (t : Traced) (act : IpcAction) : Traced where
  machine := t.machine.exec act.prog
  sends := t.sends ++ act.sent
  received := t.received ++ completions t.machine.state (t.machine.exec act.prog).state act
  call := if (t.machine.exec act.prog).stopped = none ∨ act.sent = [] then none
    else some t.sends.length

def TracedStep (t : Traced) (act : IpcAction) (t' : Traced) : Prop :=
  t.machine.stopped = none ∧ act.Enabled t.machine.state ∧ t' = t.next act

/-- `SEND` number `j` has not returned. -/
def Traced.Pending (t : Traced) (j : Nat) : Prop :=
  t.call = some j ∨ ∃ e, t.sends[j]? = some e ∧ Latest t.sends e.sender j ∧
    (t.machine.state.procTable e.sender).pFlags.sending = true ∧
    (t.machine.state.procTable e.sender).pSendto = .proc e.dest

def isInterrupt (v : Message) : Prop := v.source = .interrupt

/-- What `sys_sendrec` writes into the message of a call. -/
def stampSource (p : Pid) (v : Message) : Message := { v with source := .proc p }

/-- The numbers of the `SEND`s that were delivered, `none` for an interrupt: each message comes
from its own `SEND`, in the sender's order, and the `SEND`s left over are pending. -/
structure Delivered (t : Traced) (tags : List (Option Nat)) : Prop where
  origin : List.Forall₂ (Tagged isInterrupt stampSource t.sends) tags t.received
  once : tags.reduceOption.Nodup
  order : tags.reduceOption.Pairwise (InOrder t.sends)
  settled : ∀ j < t.sends.length, j ∈ tags.reduceOption ↔ ¬ t.Pending j

/-- What the `RECEIVE`s of one step take from the queues. -/
structure Fair (t : Traced) (act : IpcAction) (t' : Traced) : Prop where
  only : ∀ d q v, (d, v) ∈ completions t.machine.state t'.machine.state act →
    ((t.machine.state.procTable d).pFlags.receiving = true ∧
      (t.machine.state.procTable d).pRecvfrom = .proc q ∨
        ∃ a w, act = .receive d (.only q) a w) → v.source = .proc q
  queue : ∀ r q a w, act = .receive r (.only q) a w → ∀ d l,
    Linked t.machine.state.next (t.machine.state.procTable d).qSending l →
    Linked t'.machine.state.next (t'.machine.state.procTable d).qSending
      (if d = r then l.erase q else l)
  longest : ∀ r a w p l, act = .receive r .any a w →
    (t.machine.state.procTable r).hasIntMsg = false →
    Linked t.machine.state.next (t.machine.state.procTable r).qSending (p :: l) →
    ∃ i e, t.sends[i]? = some e ∧ Latest t.sends p i ∧
      completions t.machine.state t'.machine.state act = [(r, stampSource p e.content)] ∧
      ∀ q ∈ l, ∀ j, Latest t.sends q j → i < j

section Completion

variable {k k' : Kernel} {x x' : Ipc} {act : IpcAction} {d r : Pid} {a : Addr} {v : Message}

/-- The buffer in which a process waits for a message. -/
def Rendezvous.waitBuffer (x : Ipc) (d : Pid) : Option Addr :=
  match x.status d with
  | .receiving _ a => some a
  | _ => none

theorem completion_eq (h : Refines k x) (h' : Refines k' x') (d : Pid) :
    completion k k' act d = if (x'.waitBuffer d).isSome then none
      else ((x.waitBuffer d).or (act.buffer d)).map (x'.mem d) := by
  have hflag : ∀ {k : Kernel} {x : Ipc}, Refines k x →
      (k.procTable d).pFlags.receiving = (x.waitBuffer d).isSome ∧
        ((x.waitBuffer d).isSome → (k.procTable d).pMsg = x.waitBuffer d) := by
    intro k x h
    have he := h.record d
    cases hs : x.status d with
    | free =>
      rw [hs] at he
      simp [Rendezvous.waitBuffer, hs, show (k.procTable d).pFlags = Flags.free from he, Flags.free]
    | idle => simp [Rendezvous.waitBuffer, hs, (h.idle_fields hs).1]
    | sending e b => simp [Rendezvous.waitBuffer, hs, (h.sending_fields hs).1]
    | receiving src b =>
      simp [Rendezvous.waitBuffer, hs, (h.receiving_fields hs).1, (h.receiving_fields hs).2.1]
  unfold completion
  rw [(hflag h').1, (hflag h).1, h'.mem]
  split
  · rfl
  · cases hb : x.waitBuffer d with
    | none => simp
    | some b =>
      have hm := (hflag h).2 (by simp [hb])
      simp [hm, hb]

theorem completions_eq_nil (h : ∀ d, completion k k' act d = none) :
    completions k k' act = [] := by
  simp [completions, h]

theorem completions_eq_singleton (hr : completion k k' act r = some v)
    (h : ∀ d ≠ r, completion k k' act d = none) : completions k k' act = [(r, v)] := by
  unfold completions
  obtain ⟨l₁, l₂, hl⟩ := List.append_of_mem (List.mem_finRange r)
  have hn := List.nodup_finRange nrSlots
  rw [hl] at hn ⊢
  obtain ⟨-, hr₂, hr₁⟩ := List.nodup_append.mp hn
  have hn₁ : ∀ d ∈ l₁, d ≠ r := fun d hd => hr₁ d hd r (List.mem_cons_self)
  have hn₂ : ∀ d ∈ l₂, d ≠ r := fun d hd hdr => (List.nodup_cons.mp hr₂).1 (hdr ▸ hd)
  have h₁ : l₁.filterMap (fun d => (completion k k' act d).map (d, ·)) = [] := by
    rw [List.filterMap_eq_nil_iff]
    intro d hd
    simp [h d (hn₁ d hd)]
  have h₂ : l₂.filterMap (fun d => (completion k k' act d).map (d, ·)) = [] := by
    rw [List.filterMap_eq_nil_iff]
    intro d hd
    simp [h d (hn₂ d hd)]
  rw [List.filterMap_append, List.filterMap_cons, h₁, h₂, hr]
  rfl

@[simp] theorem waitBuffer_setMem (x : Ipc) (p : Pid) (a : Addr) (v : Message) :
    (x.setMem p a v).waitBuffer = x.waitBuffer := rfl

@[simp] theorem waitBuffer_setPending (x : Ipc) (p : Pid) (c : Bool) :
    (x.setPending p c).waitBuffer = x.waitBuffer := rfl

@[simp] theorem waitBuffer_setQueue (x : Ipc) (p : Pid) (l : List Pid) :
    (x.setQueue p l).waitBuffer = x.waitBuffer := rfl

theorem waitBuffer_setStatus (x : Ipc) (p d : Pid) (v : Status Pid Addr) :
    (x.setStatus p v).waitBuffer d =
      if d = p then (match v with | .receiving _ a => some a | _ => none) else x.waitBuffer d := by
  unfold Rendezvous.waitBuffer Rendezvous.setStatus
  by_cases h : d = p
  · subst h; simp
  · simp [h]

theorem waitBuffer_eq_none (hd : ∀ src a, x.status d ≠ .receiving src a) :
    x.waitBuffer d = none := by
  unfold Rendezvous.waitBuffer
  split
  · next src a h => exact absurd h (hd src a)
  · rfl

theorem completions_of_waitBuffer (h : Refines k x) (h' : Refines k' x')
    (hb : ∀ d, x'.waitBuffer d = (x.waitBuffer d).or (act.buffer d)) :
    completions k k' act = [] := by
  apply completions_eq_nil
  intro d
  rw [completion_eq h h', hb]
  cases hc : (x.waitBuffer d).or (act.buffer d) <;> simp

theorem completions_of_ready (h : Refines k x) (h' : Refines k' x')
    (hr : (x.waitBuffer r).or (act.buffer r) = some a) (hr' : x'.waitBuffer r = none)
    (hb : ∀ d ≠ r, x'.waitBuffer d = (x.waitBuffer d).or (act.buffer d)) :
    completions k k' act = [(r, x'.mem r a)] := by
  apply completions_eq_singleton
  · rw [completion_eq h h', hr', hr]
    simp
  · intro d hd
    rw [completion_eq h h', hb d hd]
    cases hc : (x.waitBuffer d).or (act.buffer d) <;> simp

end Completion

abbrev IpcLedger := Ledger (A := Addr) isInterrupt stampSource

section Step

variable {k k' : Kernel} {x : Ipc} {sends : List (Sent Pid Message)}
variable {received : List (Pid × Message)} {tags : List (Option Nat)}
variable {s d r t : Pid} {src : Source Pid} {a b : Addr} {v : Message}

@[simp] theorem setMem_mem_self (x : Ipc) (p : Pid) (a : Addr) (v : Message) :
    (x.setMem p a v).mem p a = v := by simp [Rendezvous.setMem]

theorem completions_direct (h : Refines k x) (hb : x.accepts s d = some b)
    (h' : Refines k' ((IpcAction.send s d a v).apply x)) :
    completions k k' (.send s d a v) = [(d, stampSource s v)] := by
  obtain ⟨src, hd⟩ : ∃ src, x.status d = .receiving src b := by
    rcases Rendezvous.status_of_accepts hb with hd | hd <;> exact ⟨_, hd⟩
  change (x.setMem s a (stampSource s v)).accepts s d = some b at hb
  change Refines k' ((x.setMem s a (stampSource s v)).send s d a) at h'
  simp only [Rendezvous.send, hb, setMem_mem_self] at h'
  rw [@completions_of_ready _ _ _ _ (.send s d a v) d b h h']
  · simp [Rendezvous.setStatus]
  · simp [Rendezvous.waitBuffer, hd]
  · simp [waitBuffer_setStatus]
  · intro e he
    simp [waitBuffer_setStatus, he, IpcAction.buffer]

theorem completions_enqueue (h : Refines k x) (hs : x.status s = .idle)
    (hb : x.accepts s d = none) (h' : Refines k' ((IpcAction.send s d a v).apply x)) :
    completions k k' (.send s d a v) = [] := by
  have hws : x.waitBuffer s = none := waitBuffer_eq_none (by simp [hs])
  change (x.setMem s a (stampSource s v)).accepts s d = none at hb
  change Refines k' ((x.setMem s a (stampSource s v)).send s d a) at h'
  simp only [Rendezvous.send, hb] at h'
  apply @completions_of_waitBuffer _ _ _ _ (.send s d a v) h h'
  intro e
  by_cases he : e = s
  · subst he
    simp [waitBuffer_setStatus, hws, IpcAction.buffer]
  · simp [waitBuffer_setStatus, he, IpcAction.buffer]

theorem ledger_send (h : Refines k x) (hl : IpcLedger x sends received tags none)
    (hs : x.status s = .idle) (h' : Refines k' ((IpcAction.send s d a v).apply x)) :
    ∃ tags', IpcLedger ((IpcAction.send s d a v).apply x) (sends ++ [⟨s, d, v⟩])
      (received ++ completions k k' (.send s d a v)) tags' none := by
  have hns : ∀ e c, x.status s ≠ .sending e c := by simp [hs]
  have hlog := (hl.log h.wf ⟨s, d, v⟩ hns).setMem (s := s) (a := a) (v := stampSource s v) hns
  have hget : (sends ++ [⟨s, d, v⟩])[sends.length]? = some ⟨s, d, v⟩ := by simp
  have hlast : Latest (sends ++ [⟨s, d, v⟩]) s sends.length := latest_log_self ⟨s, d, v⟩
  cases hb : x.accepts s d with
  | some b =>
    rw [completions_direct h hb h']
    obtain ⟨src, hd⟩ : ∃ src, x.status d = .receiving src b := by
      rcases Rendezvous.status_of_accepts hb with hd | hd <;> exact ⟨_, hd⟩
    have hnd : ∀ e c, x.status d ≠ .sending e c := by simp [hd]
    change (x.setMem s a (stampSource s v)).accepts s d = some b at hb
    change ∃ _, IpcLedger ((x.setMem s a (stampSource s v)).send s d a) _ _ _ none
    simp only [Rendezvous.send, hb, setMem_mem_self]
    have hdel := (hlog.deliver hget hlast).setMem (s := d) (a := b) (v := stampSource s v) hnd
    exact ⟨_, hdel.setStatus (s := d) (w := .idle) hnd (by simp)⟩
  | none =>
    rw [completions_enqueue h hs hb h', List.append_nil]
    change (x.setMem s a (stampSource s v)).accepts s d = none at hb
    change ∃ _, IpcLedger ((x.setMem s a (stampSource s v)).send s d a) _ _ _ none
    simp only [Rendezvous.send, hb]
    exact ⟨tags, hlog.enqueue ⟨h.wf.mem_queue, h.wf.nodup⟩ hget hlast (by simp)⟩

theorem completions_interrupt (h : Refines k x) (hr : x.status r = .idle)
    (hi : x.interrupted r src = true) (h' : Refines k' ((IpcAction.receive r src a v).apply x)) :
    completions k k' (.receive r src a v) = [(r, intMessage)] := by
  have hwr : x.waitBuffer r = none := waitBuffer_eq_none (by simp [hr])
  have hi' : (x.setMem r a (stampSource r v)).interrupted r src = true := hi
  change Refines k' ((x.setMem r a (stampSource r v)).receive intMessage r src a) at h'
  rw [Rendezvous.receive, if_pos hi'] at h'
  rw [@completions_of_ready _ _ _ _ (.receive r src a v) r a h h']
  · simp [Rendezvous.setPending]
  · simp [hwr, IpcAction.buffer]
  · simpa using hwr
  · intro e he
    simp [IpcAction.buffer, Ne.symm he]

theorem completions_take {f : Pid} (h : Refines k x) (hr : x.status r = .idle)
    (hi : x.interrupted r src = false) (hc : x.candidate r src = some f)
    (hf : x.status f = .sending r b) (h' : Refines k' ((IpcAction.receive r src a v).apply x)) :
    completions k k' (.receive r src a v) = [(r, x.mem f b)] := by
  have hfr : f ≠ r := by
    intro he
    rw [he, hr] at hf
    cases hf
  have hwf : x.waitBuffer f = none := waitBuffer_eq_none (by simp [hf])
  have hwr : x.waitBuffer r = none := waitBuffer_eq_none (by simp [hr])
  have hmem : (x.setMem r a (stampSource r v)).mem f b = x.mem f b := by
    simp [Rendezvous.setMem, hfr]
  have hi' : (x.setMem r a (stampSource r v)).interrupted r src = false := hi
  have hc' : (x.setMem r a (stampSource r v)).candidate r src = some f := by cases src <;> exact hc
  change Refines k' ((x.setMem r a (stampSource r v)).receive intMessage r src a) at h'
  simp only [Rendezvous.receive, hi', hc', Bool.false_eq_true, if_false] at h'
  rw [Rendezvous.take_eq (x := x.setMem r a (stampSource r v)) hf] at h'
  rw [@completions_of_ready _ _ _ _ (.receive r src a v) r a h h']
  · simp [Rendezvous.setStatus, Rendezvous.setQueue, hmem]
  · simp [hwr, IpcAction.buffer]
  · simp [waitBuffer_setStatus, hwr]
  · intro e he
    by_cases hef : e = f
    · subst hef
      simp [waitBuffer_setStatus, hwf, IpcAction.buffer, Ne.symm he]
    · simp [waitBuffer_setStatus, hef, IpcAction.buffer, Ne.symm he]

theorem completions_wait (h : Refines k x) (hr : x.status r = .idle)
    (hi : x.interrupted r src = false) (hc : x.candidate r src = none)
    (h' : Refines k' ((IpcAction.receive r src a v).apply x)) :
    completions k k' (.receive r src a v) = [] := by
  have hwr : x.waitBuffer r = none := waitBuffer_eq_none (by simp [hr])
  have hi' : (x.setMem r a (stampSource r v)).interrupted r src = false := hi
  have hc' : (x.setMem r a (stampSource r v)).candidate r src = none := by cases src <;> exact hc
  change Refines k' ((x.setMem r a (stampSource r v)).receive intMessage r src a) at h'
  simp only [Rendezvous.receive, hi', hc', Bool.false_eq_true, if_false] at h'
  apply @completions_of_waitBuffer _ _ _ _ (.receive r src a v) h h'
  intro e
  by_cases he : e = r
  · subst he
    simp [waitBuffer_setStatus, hwr, IpcAction.buffer]
  · simp [waitBuffer_setStatus, he, Ne.symm he, IpcAction.buffer]

theorem ledger_receive (h : Refines k x) (hl : IpcLedger x sends received tags none)
    (hr : x.status r = .idle) (h' : Refines k' ((IpcAction.receive r src a v).apply x)) :
    ∃ tags', IpcLedger ((IpcAction.receive r src a v).apply x) sends
      (received ++ completions k k' (.receive r src a v)) tags' none := by
  have hnr : ∀ e c, x.status r ≠ .sending e c := by simp [hr]
  have hl₀ := hl.setMem (s := r) (a := a) (v := stampSource r v) hnr
  have hcand : (x.setMem r a (stampSource r v)).candidate r src = x.candidate r src := by
    cases src <;> rfl
  have happly : (IpcAction.receive r src a v).apply x =
      (x.setMem r a (stampSource r v)).receive intMessage r src a := rfl
  cases hi : x.interrupted r src with
  | true =>
    have hi' : (x.setMem r a (stampSource r v)).interrupted r src = true := hi
    rw [completions_interrupt h hr hi h', happly, Rendezvous.receive, if_pos hi']
    have hint : isInterrupt intMessage := rfl
    exact ⟨_, Ledger.setPending (Ledger.interrupt (hl₀.setMem hnr) r hint) false⟩
  | false =>
    have hi' : (x.setMem r a (stampSource r v)).interrupted r src = false := hi
    cases hf : x.candidate r src with
    | some f =>
      obtain ⟨-, b, hfs⟩ := h.wf.status_of_candidate hf
      have hmem : (x.setMem r a (stampSource r v)).mem f b = x.mem f b := by
        have hfr : f ≠ r := fun he => hnr r b (he ▸ hfs)
        simp [Rendezvous.setMem, hfr]
      obtain ⟨j, -, hj⟩ := hl₀.take (a := a) hfs hnr
      rw [hmem] at hj
      rw [completions_take h hr hi hf hfs h', happly]
      simp only [Rendezvous.receive, hi', hcand, hf, Bool.false_eq_true, if_false]
      exact ⟨_, hj⟩
    | none =>
      rw [completions_wait h hr hi hf h', happly, List.append_nil]
      simp only [Rendezvous.receive, hi', hcand, hf, Bool.false_eq_true, if_false]
      exact ⟨tags, hl₀.setStatus hnr (by simp)⟩

theorem completions_inform (h : Refines k x) (hb : x.awaits t = some b)
    (h' : Refines k' (x.inform markInt t)) :
    completions k k' (.inform t) = [(t, markInt (x.mem t b))] := by
  obtain ⟨src, ht⟩ : ∃ src, x.status t = .receiving src b := by
    rcases Rendezvous.status_of_awaits hb with ht | ht <;> exact ⟨_, ht⟩
  simp only [Rendezvous.inform, hb] at h'
  rw [@completions_of_ready _ _ _ _ (.inform t) t b h h']
  · simp [Rendezvous.setPending, Rendezvous.setStatus]
  · simp [Rendezvous.waitBuffer, ht]
  · simp [waitBuffer_setStatus]
  · intro e he
    simp [waitBuffer_setStatus, he, IpcAction.buffer]

theorem completions_remember (h : Refines k x) (hb : x.awaits t = none)
    (h' : Refines k' (x.inform markInt t)) : completions k k' (.inform t) = [] := by
  simp only [Rendezvous.inform, hb] at h'
  apply @completions_of_waitBuffer _ _ _ _ (.inform t) h h'
  intro e
  simp [IpcAction.buffer]

theorem ledger_inform (h : Refines k x) (hl : IpcLedger x sends received tags none)
    (h' : Refines k' (x.inform markInt t)) :
    ∃ tags', IpcLedger (x.inform markInt t) sends
      (received ++ completions k k' (.inform t)) tags' none := by
  cases hb : x.awaits t with
  | some b =>
    have hnt : ∀ e c, x.status t ≠ .sending e c := by
      rcases Rendezvous.status_of_awaits hb with ht | ht <;> simp [ht]
    rw [completions_inform h hb h']
    simp only [Rendezvous.inform, hb]
    have hdel := (hl.setMem (s := t) (a := b) (v := markInt (x.mem t b)) hnt).setStatus
      (s := t) (w := .idle) hnt (by simp)
    exact ⟨_, Ledger.interrupt (hdel.setPending false) t rfl⟩
  | none =>
    rw [completions_remember h hb h', List.append_nil]
    simp only [Rendezvous.inform, hb]
    exact ⟨tags, hl.setPending true⟩

end Step

section Runs

variable {t t' : Traced} {act : IpcAction}

/-- The machine is related to a rendezvous machine of which the logs are a ledger. -/
def Traced.Inv (t : Traced) : Prop :=
  ∃ x tags, Refines t.machine.state x ∧ IpcLedger x t.sends t.received tags t.call ∧
    (t.machine.stopped = none → t.call = none)

theorem TracedStep.inv (hstep : TracedStep t act t') (ht : t.Inv) : t'.Inv := by
  obtain ⟨x, tags, h, hl, hcall⟩ := ht
  obtain ⟨hrun, hen, rfl⟩ := hstep
  rw [hcall hrun] at hl
  have hstep : IpcStep t.machine act (t.machine.exec act.prog) := ⟨hrun, hen, rfl⟩
  have happly : Refines (t.machine.exec act.prog).state (act.apply x) →
      ∃ tags', IpcLedger (act.apply x) (t.next act).sends (t.next act).received tags' none := by
    intro h'
    cases act with
    | send s d a v => exact ledger_send h hl (h.status_of_flags hen.1) h'
    | receive r src a v =>
      have hr := ledger_receive h hl (h.status_of_flags hen.1) h'
      simpa only [Traced.next, IpcAction.sent, List.append_nil] using hr
    | inform u =>
      have hi := ledger_inform h hl h'
      simpa only [Traced.next, IpcAction.sent, IpcAction.apply, List.append_nil] using hi
  rcases hstep.refines h with ⟨hn, h'⟩ | ⟨⟨w, hw⟩, h'⟩
  · obtain ⟨tags', hl'⟩ := happly h'
    have hc : (t.next act).call = none := if_pos (.inl hn)
    exact ⟨_, tags', h', hc ▸ hl', fun _ => hc⟩
  · have hns : (t.next act).machine.stopped ≠ none := by simp [Traced.next, hw]
    cases act with
    | send s d a v =>
      have hs := h.status_of_flags hen.1
      have hc : (t.next (.send s d a v)).call = some t.sends.length :=
        if_neg (by simp [hw, IpcAction.sent])
      have hnil : completions t.machine.state (t.machine.exec (IpcAction.send s d a v).prog).state
          (.send s d a v) = [] := by
        apply completions_of_waitBuffer h h'
        intro e
        simp [IpcAction.abort, IpcAction.buffer]
      have hlog := (hl.log h.wf ⟨s, d, v⟩ (by simp [hs])).setMem (s := s) (a := a)
        (v := stampSource s v) (by simp [hs])
      refine ⟨_, tags, h', ?_, fun he => absurd he hns⟩
      rw [hc]
      simp only [Traced.next, hnil, List.append_nil]
      exact hlog
    | receive r src a v =>
      obtain ⟨tags', hl'⟩ := happly h'
      have hc : (t.next (.receive r src a v)).call = none := if_pos (.inr rfl)
      exact ⟨_, tags', h', hc ▸ hl', fun he => absurd he hns⟩
    | inform u =>
      obtain ⟨tags', hl'⟩ := happly h'
      have hc : (t.next (.inform u)).call = none := if_pos (.inr rfl)
      exact ⟨_, tags', h', hc ▸ hl', fun he => absurd he hns⟩

theorem Traced.Inv.delivered (ht : t.Inv) : ∃ tags, Delivered t tags := by
  obtain ⟨x, tags, h, hl, -⟩ := ht
  refine ⟨tags, hl.tagged, hl.nodup, hl.order, fun j hj => ?_⟩
  have hpending : ∀ e, t.sends[j]? = some e →
      ((t.machine.state.procTable e.sender).pFlags.sending = true ∧
        (t.machine.state.procTable e.sender).pSendto = .proc e.dest ↔
          ∃ a, x.status e.sender = .sending e.dest a) := by
    intro e _
    rw [sender_iff h, h.wf.mem_queue]
  constructor
  · rintro hmem (hcall | ⟨e, he, hlast, hsend⟩)
    · exact (hl.call_last j hcall).2.1 hmem
    · obtain ⟨a, ha⟩ := (hpending e he).mp hsend
      obtain ⟨i, f, hf, -, hi, -, hni⟩ := hl.pending _ _ _ ha
      exact hni (hi.unique hlast ▸ hmem)
  · intro hnp
    have he := List.getElem?_eq_getElem hj
    rcases hl.total j _ he with hmem | hcall | ⟨hlast, a, ha⟩
    · exact hmem
    · exact absurd (.inl hcall) hnp
    · exact absurd (.inr ⟨_, he, hlast, (hpending _ he).mpr ⟨a, ha⟩⟩) hnp

private theorem applied_of_not_send {m m' : Machine Kernel} {x : Ipc} (h : Refines m.state x)
    (hstep : IpcStep m act m') (hact : ∀ s d a v, act ≠ .send s d a v) :
    Refines m'.state (act.apply x) := by
  rcases hstep.refines h with ⟨-, h'⟩ | ⟨-, h'⟩
  · exact h'
  · cases act with
    | send s d a v => exact absurd rfl (hact s d a v)
    | receive r src a v => exact h'
    | inform u => exact h'

private theorem fair_send {s d : Pid} {a : Addr} {v : Message} {x : Ipc}
    (h : Refines t.machine.state x) (hs : x.status s = .idle)
    (hstep : IpcStep t.machine (.send s d a v) t'.machine) : Fair t (.send s d a v) t' := by
  refine ⟨fun e q w hmem hq => ?_, by simp, by simp⟩
  rcases hq with ⟨-, hq⟩ | ⟨b, u, hact⟩
  · rcases hstep.refines h with ⟨-, h'⟩ | ⟨-, h'⟩
    · cases hb : x.accepts s d with
      | some b =>
        rw [completions_direct h hb h', List.mem_singleton] at hmem
        cases hmem
        rcases Rendezvous.status_of_accepts hb with hd | hd
        · rw [(h.receiving_fields hd).2.2.2] at hq
          cases hq
        · rw [(h.receiving_fields hd).2.2.2] at hq
          exact hq
      | none =>
        rw [completions_enqueue h hs hb h'] at hmem
        cases hmem
    · have hnil : completions t.machine.state t'.machine.state (.send s d a v) = [] := by
        apply completions_of_waitBuffer h h'
        intro e
        simp [IpcAction.abort, IpcAction.buffer]
      rw [hnil] at hmem
      cases hmem
  · cases hact

private theorem fair_receive {r : Pid} {src : Source Pid} {a : Addr} {v : Message} {x : Ipc}
    {tags : List (Option Nat)} (h : Refines t.machine.state x)
    (hl : IpcLedger x t.sends t.received tags none) (hr : x.status r = .idle)
    (hstep : IpcStep t.machine (.receive r src a v) t'.machine) :
    Fair t (.receive r src a v) t' := by
  have h' := applied_of_not_send h hstep (by simp)
  have hready : (t.machine.state.procTable r).pFlags.receiving = false := by
    simp [(h.idle_fields hr).1]
  refine ⟨fun e q w hmem hq => ?_, fun r' q b w hact d l hd => ?_,
    fun r' b w p l hact hint hd => ?_⟩
  · cases hi : x.interrupted r src with
    | true =>
      rw [completions_interrupt h hr hi h', List.mem_singleton] at hmem
      cases hmem
      rcases hq with ⟨hq, -⟩ | ⟨b, u, hact⟩
      · rw [hready] at hq
        cases hq
      · cases hact
        cases hi
    | false =>
      cases hf : x.candidate r src with
      | some f =>
        obtain ⟨-, b, hfs⟩ := h.wf.status_of_candidate hf
        rw [completions_take h hr hi hf hfs h', List.mem_singleton] at hmem
        cases hmem
        rcases hq with ⟨hq, -⟩ | ⟨b, u, hact⟩
        · rw [hready] at hq
          cases hq
        · cases hact
          obtain ⟨j, e, -, -, -, hmem, -⟩ := hl.pending f r _ hfs
          have hfq : q = f := by
            simp only [Rendezvous.candidate] at hf
            split at hf
            · exact Option.some.inj hf
            · cases hf
          rw [hmem, hfq]
          rfl
      | none =>
        rw [completions_wait h hr hi hf h'] at hmem
        cases hmem
  · cases hact
    obtain rfl := hd.unique (h.queue d)
    have hqueue : ((IpcAction.receive r (.only q) a v).apply x).queue d =
        if d = r then (x.queue d).erase q else x.queue d := by
      simp only [IpcAction.apply, Rendezvous.receive, Rendezvous.interrupted,
        Rendezvous.candidate, Bool.false_eq_true, if_false]
      by_cases hq : q ∈ x.queue r
      · obtain ⟨b, hb⟩ := (h.wf.mem_queue r q).mp hq
        have hq' : q ∈ (x.setMem r a { v with source := .proc r }).queue r := hq
        simp only [if_pos hq', Rendezvous.take_eq (x := x.setMem r a { v with source := .proc r }) hb]
        by_cases hdr : d = r
        · subst hdr
          simp [Rendezvous.setQueue, Rendezvous.setMem]
        · simp [Rendezvous.setQueue, Rendezvous.setMem, Rendezvous.setStatus, hdr]
      · have hq' : q ∉ (x.setMem r a { v with source := .proc r }).queue r := hq
        simp only [if_neg hq']
        by_cases hdr : d = r
        · subst hdr
          rw [if_pos rfl, List.erase_of_not_mem hq]
          rfl
        · rw [if_neg hdr]
          rfl
    rw [← hqueue]
    exact h'.queue d
  · cases hact
    have hq := (h.queue r).unique hd
    have hi : x.interrupted r .any = false := (h.pending r).symm.trans hint
    have hf : x.candidate r .any = some p := by
      simp [Rendezvous.candidate, hq]
    obtain ⟨-, b, hps⟩ := h.wf.status_of_candidate hf
    obtain ⟨j, e, he, -, hlast, hmem, -⟩ := hl.pending p r b hps
    refine ⟨j, e, he, hlast, ?_, fun q hmemq i hqi => ?_⟩
    · rw [completions_take h hr hi hf hps h', hmem]
    · have hfifo := hl.fifo r
      rw [hq] at hfifo
      exact (List.pairwise_cons.mp hfifo).1 q hmemq j i hlast hqi

theorem TracedStep.fair (hstep : TracedStep t act t') (ht : t.Inv) : Fair t act t' := by
  obtain ⟨x, tags, h, hl, hcall⟩ := ht
  obtain ⟨hrun, hen, rfl⟩ := hstep
  rw [hcall hrun] at hl
  have hstep : IpcStep t.machine act (t.next act).machine := ⟨hrun, hen, rfl⟩
  cases act with
  | send s d a v => exact fair_send h (h.status_of_flags hen.1) hstep
  | receive r src a v => exact fair_receive h hl (h.status_of_flags hen.1) hstep
  | inform u =>
    have h' := applied_of_not_send h hstep (by simp)
    refine ⟨fun e q w hmem hq => ?_, by simp, by simp⟩
    rcases hq with ⟨-, hq⟩ | ⟨b, u, hact⟩
    · cases hb : x.awaits u with
      | some b =>
        rw [completions_inform h hb h', List.mem_singleton] at hmem
        cases hmem
        rcases Rendezvous.status_of_awaits hb with hd | hd
        all_goals
          rw [(h.receiving_fields hd).2.2.2] at hq
          cases hq
      | none =>
        rw [completions_remember h hb h'] at hmem
        cases hmem
    · cases hact

/-- In every run, each message that is no interrupt comes from its own `SEND` to its receiver,
carries the real sender and arrives in the sender's order, every `SEND` that is not pending has
been delivered, and each further step serves the queues fairly. -/
theorem delivery_of_run {mem : Pid → Addr → Message} {acts : List IpcAction}
    (hr : Run TracedStep { machine := { state := kernelMain mem } } acts t) :
    (∃ tags, Delivered t tags) ∧ ∀ act t', TracedStep t act t' → Fair t act t' := by
  have ht : t.Inv := by
    apply hr.invariant
    · refine ⟨ipcInit mem, [], kernelMain_refines mem, ?_, fun _ => rfl⟩
      have hidle : ∀ p d a, (ipcInit mem).status p ≠ .sending d a := by
        intro p d a hp
        by_cases hfree : nrTasks + nrNativeProcs ≤ p.val <;> simp [ipcInit, hfree] at hp
      exact ⟨.nil, by simp, by simp, fun p d a hp => absurd hp (hidle p d a), by simp, by simp,
        by simp [ipcInit]⟩
    · intro u act v hstep hu
      exact hstep.inv hu
  exact ⟨ht.delivered, fun act t' hstep => hstep.fair ht⟩

/-- A message of INIT to MM, queued while MM is busy and taken by its next `RECEIVE`. -/
theorem delivery_of_run_queued : ∃ t : Traced,
    Run TracedStep { machine := { state := kernelMain fun _ _ => {} } }
      [.send init taskMm 0 { type := .fork }, .receive taskMm .any 0 {}] t ∧
    t.received = [(taskMm, { source := .proc init, type := .fork })] ∧
    (∃ tags, Delivered t tags) ∧ ∀ act t', TracedStep t act t' → Fair t act t' := by
  let act₁ : IpcAction := .send init taskMm 0 { type := .fork }
  let act₂ : IpcAction := .receive taskMm .any 0 {}
  let t₀ : Traced := { machine := { state := kernelMain fun _ _ => {} } }
  have h₁ : TracedStep t₀ act₁ (t₀.next act₁) := ⟨rfl, ⟨rfl, by decide, rfl⟩, rfl⟩
  have h₂ : TracedStep (t₀.next act₁) act₂ ((t₀.next act₁).next act₂) :=
    ⟨rfl, ⟨rfl, by simp⟩, rfl⟩
  have hr : Run TracedStep t₀ [act₁, act₂] _ := .snoc (.snoc .nil h₁) h₂
  exact ⟨_, hr, by decide, delivery_of_run hr⟩

end Runs

end BazingaOS
