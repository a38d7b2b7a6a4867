import BazingaOS.Kernel.Ipc
import BazingaOS.Lib.Rendezvous

/-!
# The kernel refines the rendezvous machine

`Refines` relates a process table to the abstract rendezvous machine: every record encodes the
status of its process and every `q_sending` chain spells out the abstract queue. Each primitive
of `kernel/proc.c` is simulated by the abstract operation of the same name.
-/

namespace BazingaOS

open Prog

def Source.endpoint : Source Pid → Endpoint
  | .any => .any
  | .interrupt => .interrupt
  | .only p => .proc p

abbrev Ipc := Rendezvous Pid Addr Message

/-- A record encodes a status. -/
def Encodes (r : Process) : Status Pid Addr → Prop
  | .free => r.pFlags = Flags.free
  | .idle => r.pFlags = 0 ∧ r.pMsg = none ∧ r.pSendto = .noTask ∧ r.pRecvfrom = .noTask
  | .sending d a => r.pFlags = { sending := true } ∧ r.pMsg = some a ∧
      r.pSendto = .proc d ∧ r.pRecvfrom = .noTask
  | .receiving src a => r.pFlags = { receiving := true } ∧ r.pMsg = some a ∧
      r.pSendto = .noTask ∧ r.pRecvfrom = src.endpoint

def Kernel.next (k : Kernel) (p : Pid) : Option Pid := (k.procTable p).nextSending

structure Refines (k : Kernel) (x : Ipc) : Prop where
  record : ∀ p, Encodes (k.procTable p) (x.status p)
  next_none : ∀ p, (∀ d a, x.status p ≠ .sending d a) → k.next p = none
  queue : ∀ d, Linked k.next (k.procTable d).qSending (x.queue d)
  pending : ∀ p, (k.procTable p).hasIntMsg = x.pending p
  mem : k.mem = x.mem
  wf : x.WF

@[simp] theorem Kernel.setProc_setProc (k : Kernel) (p : Pid) (f g : Process → Process) :
    (k.setProc p f).setProc p g = k.setProc p (fun r => g (f r)) := by
  simp [Kernel.setProc]

theorem Kernel.next_setProc (k : Kernel) (p : Pid) (f : Process → Process) :
    (k.setProc p f).next = Function.update k.next p (f (k.procTable p)).nextSending := by
  funext q
  unfold Kernel.next
  rw [Kernel.setProc_apply]
  by_cases h : q = p
  · subst h; simp
  · simp [h]

variable {k : Kernel} {x : Ipc} {s d r t : Pid} {a b : Addr}

namespace Refines

theorem setMem (h : Refines k x) (p : Pid) (a : Addr) (v : Message) :
    Refines (k.setMem p a v) (x.setMem p a v) where
  record := h.record
  next_none := h.next_none
  queue := h.queue
  pending := h.pending
  mem := by simp [Kernel.setMem, Rendezvous.setMem, h.mem]
  wf := ⟨h.wf.mem_queue, h.wf.nodup⟩

theorem setStatus (h : Refines k x) {p : Pid} {v : Status Pid Addr} {f : Process → Process}
    (hs : ∀ d a, x.status p ≠ .sending d a) (hv : ∀ d a, v ≠ .sending d a)
    (he : Encodes (f (k.procTable p)) v)
    (hn : (f (k.procTable p)).nextSending = (k.procTable p).nextSending)
    (hq : (f (k.procTable p)).qSending = (k.procTable p).qSending)
    (hi : (f (k.procTable p)).hasIntMsg = (k.procTable p).hasIntMsg) :
    Refines (k.setProc p f) (x.setStatus p v) := by
  have hnext : (k.setProc p f).next = k.next := by
    rw [Kernel.next_setProc, hn]
    exact Function.update_eq_self p k.next
  refine ⟨fun q => ?_, fun q hq' => ?_, fun e => ?_, fun q => ?_, h.mem,
    Rendezvous.wf_setStatus h.wf hs hv⟩
  · rw [Kernel.setProc_apply]
    change Encodes _ (Function.update x.status p v q)
    by_cases hqp : q = p
    · subst hqp; simpa using he
    · simpa [hqp] using h.record q
  · rw [hnext]
    by_cases hqp : q = p
    · subst hqp; exact h.next_none q hs
    · apply h.next_none q
      simpa [Rendezvous.setStatus, hqp] using hq'
  · rw [hnext, Kernel.setProc_apply]
    change Linked k.next _ (x.queue e)
    by_cases hep : e = p
    · subst hep; simpa [hq] using h.queue e
    · simpa [hep] using h.queue e
  · rw [Kernel.setProc_apply]
    change _ = x.pending q
    by_cases hqp : q = p
    · subst hqp; simpa [hi] using h.pending q
    · simpa [hqp] using h.pending q

theorem setPending (h : Refines k x) (p : Pid) (c : Bool) :
    Refines (k.setProc p fun r => { r with hasIntMsg := c }) (x.setPending p c) := by
  have hnext : (k.setProc p fun r => { r with hasIntMsg := c }).next = k.next := by
    rw [Kernel.next_setProc]
    exact Function.update_eq_self p k.next
  refine ⟨fun q => ?_, fun q hq => ?_, fun e => ?_, fun q => ?_, h.mem,
    ⟨h.wf.mem_queue, h.wf.nodup⟩⟩
  · rw [Kernel.setProc_apply]
    change Encodes _ (x.status q)
    have he := h.record q
    by_cases hqp : q = p
    · subst hqp
      rw [if_pos rfl]
      revert he
      cases x.status q <;> exact id
    · simpa [hqp] using he
  · rw [hnext]
    exact h.next_none q hq
  · rw [hnext, Kernel.setProc_apply]
    change Linked k.next _ (x.queue e)
    by_cases hep : e = p
    · subst hep; simpa using h.queue e
    · simpa [hep] using h.queue e
  · rw [Kernel.setProc_apply]
    change _ = Function.update x.pending p c q
    by_cases hqp : q = p
    · subst hqp; simp
    · simpa [hqp] using h.pending q

theorem idle_fields (h : Refines k x) {p : Pid} (hp : x.status p = .idle) :
    (k.procTable p).pFlags = 0 ∧ (k.procTable p).pMsg = none ∧
      (k.procTable p).pSendto = .noTask ∧ (k.procTable p).pRecvfrom = .noTask := by
  have he := h.record p
  rwa [hp] at he

theorem sending_fields (h : Refines k x) {p : Pid} (hp : x.status p = .sending d a) :
    (k.procTable p).pFlags = { sending := true } ∧ (k.procTable p).pMsg = some a ∧
      (k.procTable p).pSendto = .proc d ∧ (k.procTable p).pRecvfrom = .noTask := by
  have he := h.record p
  rwa [hp] at he

theorem receiving_fields (h : Refines k x) {p : Pid} {src : Source Pid}
    (hp : x.status p = .receiving src a) :
    (k.procTable p).pFlags = { receiving := true } ∧ (k.procTable p).pMsg = some a ∧
      (k.procTable p).pSendto = .noTask ∧ (k.procTable p).pRecvfrom = src.endpoint := by
  have he := h.record p
  rwa [hp] at he

theorem sending_iff (h : Refines k x) (p : Pid) :
    (k.procTable p).pFlags.sending = true ↔ ∃ d a, x.status p = .sending d a := by
  have he := h.record p
  cases hp : x.status p with
  | free => rw [hp] at he; simp [show (k.procTable p).pFlags = Flags.free from he, Flags.free]
  | idle => simp [(h.idle_fields hp).1]
  | sending d a => simp [(h.sending_fields hp).1]
  | receiving src a => simp [(h.receiving_fields hp).1]

theorem length_queue_le (h : Refines k x) (d : Pid) : (x.queue d).length ≤ nrSlots := by
  simpa using (h.wf.nodup d).length_le_card

theorem accepts_iff (h : Refines k x) (s d : Pid) :
    ((k.procTable d).pFlags.receiving = true ∧ ((k.procTable d).pRecvfrom = .any ∨
      (k.procTable d).pRecvfrom = .proc s)) ↔ ∃ b, x.accepts s d = some b := by
  have he := h.record d
  cases hd : x.status d with
  | free =>
    rw [hd] at he
    simp [show (k.procTable d).pFlags = Flags.free from he, Flags.free, Rendezvous.accepts, hd]
  | idle => simp [(h.idle_fields hd).1, Rendezvous.accepts, hd]
  | sending e a => simp [(h.sending_fields hd).1, Rendezvous.accepts, hd]
  | receiving src a =>
    obtain ⟨h1, -, -, h4⟩ := h.receiving_fields hd
    cases src <;> simp [h1, h4, Rendezvous.accepts, hd, Source.endpoint]

end Refines

section

variable {E : Stop → Kernel → Prop}

@[simp] theorem wp_procOf {Q : Process → Kernel → Prop} (p : Pid) :
    wp (procOf p) Q E k ↔ Q (k.procTable p) k := Iff.rfl

@[simp] theorem wp_setProc {Q : Unit → Kernel → Prop} (p : Pid) (f : Process → Process) :
    wp (setProc p f) Q E k ↔ Q () (k.setProc p f) := Iff.rfl

@[simp] theorem wp_storeMessage {Q : Unit → Kernel → Prop} (p : Pid) (a : Addr) (v : Message) :
    wp (storeMessage p (some a) v) Q E k ↔ Q () (k.setMem p a v) := Iff.rfl

@[simp] theorem wp_loadMessage {Q : Message → Kernel → Prop} (p : Pid) (a : Addr) :
    wp (loadMessage p (some a)) Q E k ↔ Q (k.mem p a) k := Iff.rfl

@[simp] theorem wp_copyMessage {Q : Unit → Kernel → Prop} (p q : Pid) (a b : Addr) :
    wp (copyMessage p (some a) q (some b)) Q E k ↔ Q () (k.setMem p a (k.mem q b)) := Iff.rfl

@[simp] theorem wp_block {Q : Unit → Kernel → Prop} (p : Pid) :
    wp (block p) Q E k ↔ ((k.procTable p).pFlags ≠ 0 → Q () k) ∧
      ((k.procTable p).pFlags = 0 → E .assertion k) := by
  simp [block]

@[simp] theorem wp_unblock {Q : Unit → Kernel → Prop} (p : Pid) :
    wp (unblock p) Q E k ↔ ((k.procTable p).pFlags = 0 → Q () k) ∧
      ((k.procTable p).pFlags ≠ 0 → E .assertion k) := by
  simp [unblock]

end

@[simp] private theorem flags_idle : ({ } : Flags) = 0 := rfl

theorem sendDirect_refines (h : Refines k x) (hs : x.status s = .idle) (hsd : s ≠ d)
    (hb : x.accepts s d = some b) :
    wp (sendDirect s d (some a)) (fun _ k' => Refines k' (x.send s d a)) (fun _ _ => False) k := by
  obtain ⟨hs1, hs2, hs3, hs4⟩ := h.idle_fields hs
  obtain ⟨src, hd⟩ : ∃ src, x.status d = .receiving src b := by
    rcases Rendezvous.status_of_accepts hb with hd | hd <;> exact ⟨_, hd⟩
  obtain ⟨hd1, hd2, hd3, -⟩ := h.receiving_fields hd
  have hx : x.send s d a = (x.setMem d b (x.mem s a)).setStatus d .idle := by
    simp [Rendezvous.send, hb]
  have hr : Refines ((k.setMem d b (x.mem s a)).setProc d fun r =>
      { r with pMsg := none, pFlags := { r.pFlags with receiving := false },
               pRecvfrom := .noTask }) (x.send s d a) := by
    rw [hx]
    apply (h.setMem d b (x.mem s a)).setStatus (by simp [Rendezvous.setMem, hd]) (by simp)
    · simp [Encodes, hd1, hd3]
    all_goals rfl
  simpa [sendDirect, hd1, hd2, hd3, Kernel.setProc_of_ne _ _ hsd, hs1, hs2, hs3, hs4, h.mem]
    using hr

theorem findTail_spec {n : Nat} {p z : Pid} {l : List Pid}
    (hl : Linked k.next (some p) (l ++ [z])) (hn : l.length < n) :
    wp (findTail n p) (fun q k' => q = z ∧ k' = k) (fun _ _ => False) k := by
  induction l generalizing n p with
  | nil =>
    obtain ⟨n, rfl⟩ : ∃ m, n = m + 1 := ⟨n - 1, by simp at hn; omega⟩
    obtain ⟨hp, hz⟩ := hl
    have hpz : p = z := Option.some.inj hp
    subst hpz
    have hz' : (k.procTable p).nextSending = none := hz
    simp [findTail, hz']
  | cons q l ih =>
    obtain ⟨n, rfl⟩ : ∃ m, n = m + 1 := ⟨n - 1, by simp at hn; omega⟩
    obtain ⟨hp, hl⟩ := hl
    have hpq : p = q := Option.some.inj hp
    subst hpq
    obtain ⟨q, hq⟩ : ∃ q, k.next p = some q := by
      cases l with
      | nil => exact ⟨_, hl.1⟩
      | cons y l => exact ⟨_, hl.1⟩
    rw [hq] at hl
    have hq' : (k.procTable p).nextSending = some q := hq
    simpa [findTail, hq'] using ih hl (by simpa using hn)

/-- The record of a process that has blocked in a send. -/
def Process.blockSending (d : Pid) (a : Addr) (r : Process) : Process :=
  { r with
    pFlags := { r.pFlags with sending := true }
    pSendto := .proc d
    pMsg := some a
    nextSending := none }

private theorem blockSending_eq (d : Pid) (a : Addr) :
    Process.blockSending d a = fun r =>
      { r with
        pFlags := { r.pFlags with sending := true }
        pSendto := .proc d
        pMsg := some a
        nextSending := none } := rfl

/-- The table after `s` has joined the end of the queue of `d`; `z` is the former last. -/
def Kernel.enqueue (k : Kernel) (s d : Pid) (a : Addr) (z : Option Pid) : Kernel :=
  (match z with
    | some z => k.setProc z fun r => { r with nextSending := some s }
    | none => k.setProc d fun r => { r with qSending := some s }).setProc s
      (Process.blockSending d a)

/-- Two records that differ at most in their queue links. -/
structure SameStatus (r' r : Process) : Prop where
  flags : r'.pFlags = r.pFlags
  msg : r'.pMsg = r.pMsg
  sendto : r'.pSendto = r.pSendto
  recvfrom : r'.pRecvfrom = r.pRecvfrom
  int : r'.hasIntMsg = r.hasIntMsg

theorem Kernel.setProc_comm (k : Kernel) {p q : Pid} (hpq : p ≠ q) (f g : Process → Process) :
    (k.setProc p f).setProc q g = (k.setProc q g).setProc p f := by
  simp only [Kernel.setProc, Function.update_of_ne hpq.symm, Function.update_of_ne hpq]
  rw [Function.update_comm hpq]

namespace Refines

variable (h : Refines k x)
include h

theorem notMem_queue_of_idle (hs : x.status s = .idle) (e : Pid) : s ∉ x.queue e := by
  intro hm
  obtain ⟨c, hc⟩ := (h.wf.mem_queue e s).mp hm
  rw [hs] at hc
  cases hc

theorem notMem_queue_of_ne {f e : Pid} (hf : f ∈ x.queue d) (he : e ≠ d) : f ∉ x.queue e := by
  intro hm
  obtain ⟨c, hc⟩ := (h.wf.mem_queue d f).mp hf
  obtain ⟨c', hc'⟩ := (h.wf.mem_queue e f).mp hm
  rw [hc] at hc'
  cases hc'
  exact he rfl

omit h in
private theorem encodes_congr {r' r : Process} {v : Status Pid Addr} (hs : SameStatus r' r)
    (he : Encodes r v) : Encodes r' v := by
  cases v <;> simp only [Encodes, hs.flags, hs.msg, hs.sendto, hs.recvfrom] at he ⊢ <;> exact he

theorem relink {k' : Kernel} {x' : Ipc} {p : Pid} {v : Status Pid Addr}
    (hrec : ∀ q, q ≠ p → SameStatus (k'.procTable q) (k.procTable q))
    (hp : Encodes (k'.procTable p) v)
    (hi : (k'.procTable p).hasIntMsg = (k.procTable p).hasIntMsg)
    (hstat : x'.status = Function.update x.status p v) (hpend : x'.pending = x.pending)
    (hmem : k'.mem = x'.mem)
    (hnext : ∀ q, (∀ d a, x'.status q ≠ .sending d a) → k'.next q = none)
    (hq : ∀ e, Linked k'.next (k'.procTable e).qSending (x'.queue e)) (hwf : x'.WF) :
    Refines k' x' := by
  refine ⟨fun q => ?_, hnext, hq, fun q => ?_, hmem, hwf⟩
  · rw [hstat]
    by_cases hqp : q = p
    · subst hqp; simpa using hp
    · rw [Function.update_of_ne hqp]
      exact encodes_congr (hrec q hqp) (h.record q)
  · rw [hpend, ← h.pending q]
    by_cases hqp : q = p
    · subst hqp; exact hi
    · exact (hrec q hqp).int

theorem enqueue_empty (hs : x.status s = .idle) (hsd : s ≠ d) (ha : x.accepts s d = none)
    (hq : x.queue d = []) : Refines (k.enqueue s d a none) (x.send s d a) := by
  have hx : x.send s d a = (x.setStatus s (.sending d a)).setQueue d [s] := by
    simp [Rendezvous.send, ha, hq]
  have hk : ∀ p, (k.enqueue s d a none).procTable p =
      if p = s then (k.procTable s).blockSending d a
      else if p = d then { k.procTable d with qSending := some s } else k.procTable p := by
    intro p
    simp [Kernel.enqueue, Kernel.setProc_apply, hsd]
  have hsn : k.next s = none := h.next_none s (by simp [hs])
  have hnext : (k.enqueue s d a none).next = k.next := by
    have hd : Function.update k.next d (k.procTable d).nextSending = k.next :=
      Function.update_eq_self d k.next
    simp only [Kernel.enqueue, Kernel.next_setProc, Process.blockSending, hd]
    rw [← hsn, Function.update_eq_self]
  obtain ⟨hs1, -, -, hs4⟩ := h.idle_fields hs
  rw [hx]
  refine h.relink (p := s) (v := .sending d a) (fun q hqs => ?_) ?_ ?_ rfl rfl h.mem
    (fun q hq' => ?_) (fun e => ?_) (hx ▸ Rendezvous.wf_send h.wf hs)
  · rw [hk, if_neg hqs]
    by_cases hqd : q = d
    · subst hqd; simp only [if_true]; constructor <;> rfl
    · rw [if_neg hqd]; constructor <;> rfl
  · simp [hk, Encodes, Process.blockSending, hs1, hs4]
  · simp [hk, Process.blockSending]
  · rw [hnext]
    by_cases hqs : q = s
    · subst hqs; exact hsn
    · apply h.next_none
      simpa [Rendezvous.setStatus, Rendezvous.setQueue, hqs] using hq'
  · rw [hnext, hk]
    change Linked k.next _ (Function.update x.queue d [s] e)
    by_cases hed : e = d
    · subst hed
      simpa [hsd.symm] using hsn
    · by_cases hes : e = s
      · subst hes; simpa [Process.blockSending, hed] using h.queue e
      · simpa [hed, hes] using h.queue e

theorem enqueue_append (hs : x.status s = .idle) (ha : x.accepts s d = none)
    {l : List Pid} {z : Pid} (hq : x.queue d = l ++ [z]) :
    Refines (k.enqueue s d a (some z)) (x.send s d a) := by
  have hx : x.send s d a = (x.setStatus s (.sending d a)).setQueue d (l ++ [z] ++ [s]) := by
    simp [Rendezvous.send, ha, hq]
  have hzq : z ∈ x.queue d := by simp [hq]
  have hsz : s ≠ z := fun he => h.notMem_queue_of_idle hs d (he ▸ hzq)
  have hk : ∀ p, (k.enqueue s d a (some z)).procTable p =
      if p = s then (k.procTable s).blockSending d a
      else if p = z then { k.procTable z with nextSending := some s } else k.procTable p := by
    intro p
    simp [Kernel.enqueue, Kernel.setProc_apply, hsz]
  have hnext : (k.enqueue s d a (some z)).next =
      Function.update (Function.update k.next z (some s)) s none := by
    simp only [Kernel.enqueue, Kernel.next_setProc, Process.blockSending]
  have hhead : ∀ e, ((k.enqueue s d a (some z)).procTable e).qSending =
      (k.procTable e).qSending := by
    intro e
    rw [hk]
    by_cases hes : e = s
    · subst hes; simp [Process.blockSending]
    · by_cases hez : e = z
      · subst hez; simp [hes]
      · simp [hes, hez]
  obtain ⟨hs1, -, -, hs4⟩ := h.idle_fields hs
  rw [hx]
  refine h.relink (p := s) (v := .sending d a) (fun q hqs => ?_) ?_ ?_ rfl rfl h.mem
    (fun q hq' => ?_) (fun e => ?_) (hx ▸ Rendezvous.wf_send h.wf hs)
  · rw [hk, if_neg hqs]
    by_cases hqz : q = z
    · subst hqz; simp only [if_true]; constructor <;> rfl
    · rw [if_neg hqz]; constructor <;> rfl
  · simp [hk, Encodes, Process.blockSending, hs1, hs4]
  · simp [hk, Process.blockSending]
  · rw [hnext]
    by_cases hqs : q = s
    · subst hqs; simp
    · have hns : ∀ e c, x.status q ≠ .sending e c := by
        simpa [Rendezvous.setStatus, Rendezvous.setQueue, hqs] using hq'
      have hqz : q ≠ z := by
        intro he
        subst he
        obtain ⟨c, hc⟩ := (h.wf.mem_queue d q).mp hzq
        exact hns d c hc
      rw [Function.update_of_ne hqs, Function.update_of_ne hqz]
      exact h.next_none q hns
  · rw [hnext, hhead]
    change Linked _ _ (Function.update x.queue d (l ++ [z] ++ [s]) e)
    have hle := h.queue e
    by_cases hed : e = d
    · subst hed
      rw [Function.update_self]
      rw [hq] at hle
      exact hle.append (hq ▸ h.notMem_queue_of_idle hs e)
    · rw [Function.update_of_ne hed]
      exact (hle.update_of_notMem (h.notMem_queue_of_ne hzq hed)).update_of_notMem
        (h.notMem_queue_of_idle hs e)

end Refines

theorem sendQueue_refines (h : Refines k x) (hs : x.status s = .idle) (hsd : s ≠ d)
    (ha : x.accepts s d = none) :
    wp (sendQueue s d (some a)) (fun _ k' => Refines k' (x.send s d a)) (fun _ _ => False) k := by
  obtain ⟨hs1, -, -, hs4⟩ := h.idle_fields hs
  have hld := h.queue d
  have hf : ({ sending := true } : Flags) ≠ 0 := by decide
  rcases List.eq_nil_or_concat (x.queue d) with hq | ⟨l, z, hq⟩
  · rw [hq] at hld
    have hhead : (k.procTable d).qSending = none := hld
    have hr := h.enqueue_empty (a := a) hs hsd ha hq
    simpa [sendQueue, hhead, Kernel.setProc_comm k hsd, Kernel.setProc_of_ne _ _ hsd, hs1, hs4, hf,
      Kernel.enqueue, blockSending_eq] using hr
  · rw [List.concat_eq_append] at hq
    rw [hq] at hld
    have hsz : s ≠ z := by
      intro he
      apply h.notMem_queue_of_idle hs d
      simp [hq, he]
    obtain ⟨p, hhead⟩ : ∃ p, (k.procTable d).qSending = some p := by
      cases l with
      | nil => exact ⟨_, hld.1⟩
      | cons y l => exact ⟨_, hld.1⟩
    have hlen : l.length < nrSlots := by
      have hle := h.length_queue_le d
      simp only [hq, List.length_append, List.length_singleton] at hle
      omega
    have hr := h.enqueue_append (a := a) hs ha hq
    let k₁ := k.setProc s fun r =>
      { r with pFlags := { r.pFlags with sending := true }, pSendto := .proc d, pMsg := some a }
    have hnext : k₁.next = k.next := by
      rw [Kernel.next_setProc]
      exact Function.update_eq_self s k.next
    rw [hhead, ← hnext] at hld
    have htail := findTail_spec hld hlen
    simp only [sendQueue, wp_bind, wp_procOf, hhead, wp_setProc, Kernel.setProc_setProc]
    refine wp_mono htail ?_ (fun _ _ hE => hE)
    rintro q k' ⟨rfl, rfl⟩
    simpa [k₁, Kernel.setProc_comm k hsz, Kernel.setProc_of_ne _ _ hsz, hs1, hs4, hf,
      Kernel.enqueue, blockSending_eq] using hr

/-- The search of `deadlock` by an idle process finds no cycle or stops the machine; it never
changes the table. -/
theorem deadlockWalk_spec (h : Refines k x) (hs : x.status s = .idle) (n : Nat) (p : Pid) :
    wp (deadlockWalk s n p) (fun c k' => c = false ∧ k' = k) (fun _ k' => k' = k) k := by
  induction n generalizing p with
  | zero => simp [deadlockWalk]
  | succ n ih =>
    have hrep : wp (deadlockReport s nrSlots s) (fun _ _ => False) (fun _ k' => k' = k) k := by
      obtain ⟨m, hm⟩ : ∃ m, nrSlots = m + 1 := ⟨36, rfl⟩
      rw [hm]
      simp [deadlockReport, (h.idle_fields hs).2.1]
    simp only [deadlockWalk, wp_bind, wp_procOf, wp_ite]
    refine ⟨fun _ => ⟨fun _ => ?_, fun _ => ?_⟩, fun _ => by simp⟩
    · exact wp_mono hrep (fun _ _ hf => hf.elim) (fun _ _ he => he)
    · cases (k.procTable p).pSendto with
      | proc q => exact ih q
      | any => simp
      | interrupt => simp
      | noTask => simp

theorem Refines.not_sending (h : Refines k x) {p : Pid} (hp : ∀ d a, x.status p ≠ .sending d a) :
    (k.procTable p).pFlags.sending = false := by
  by_contra hne
  obtain ⟨d, a, hd⟩ := (h.sending_iff p).mp (by simpa using hne)
  exact hp d a hd

theorem deadlockWalk_free (h : Refines k x) (n : Nat) (p : Pid)
    (hp : ∀ e b, x.status p = .sending e b → e ≠ s ∧ ∀ f c, x.status e ≠ .sending f c) :
    wp (deadlockWalk s (n + 2) p) (fun c k' => c = false ∧ k' = k) (fun _ _ => False) k := by
  by_cases hst : ∃ e b, x.status p = .sending e b
  · obtain ⟨e, b, hst⟩ := hst
    obtain ⟨hes, he⟩ := hp e b hst
    simp [deadlockWalk, h.sending_fields hst, hes, h.not_sending he]
  · simp only [not_exists] at hst
    simp [deadlockWalk, h.not_sending hst]

theorem msgSend_refines (h : Refines k x) (hs : x.status s = .idle) (hsd : s ≠ d) :
    wp (msgSend s d (some a)) (fun _ k' => Refines k' (x.send s d a)) (fun _ k' => k' = k) k := by
  simp only [msgSend, wp_bind, wp_check, deadlock]
  refine ⟨fun _ => ?_, fun hne => (hne hsd).elim⟩
  refine wp_mono (deadlockWalk_spec h hs _ d) ?_ (fun _ _ he => he)
  rintro c k' ⟨rfl, rfl⟩
  have hacc := h.accepts_iff s d
  simp only [Bool.false_eq_true, if_false, wp_bind, wp_procOf, wp_ite]
  refine ⟨fun hc => ?_, fun hc => ?_⟩
  · obtain ⟨b, hb⟩ := hacc.mp hc
    exact wp_mono (sendDirect_refines h hs hsd hb) (fun _ _ hr => hr) (fun _ _ hf => hf.elim)
  · have hb : x.accepts s d = none := by
      rw [hacc, not_exists] at hc
      exact Option.eq_none_iff_forall_ne_some.mpr hc
    exact wp_mono (sendQueue_refines h hs hsd hb) (fun _ _ hr => hr) (fun _ _ hf => hf.elim)

theorem msgSend_returns (h : Refines k x) (hs : x.status s = .idle) (hsd : s ≠ d)
    (hd : ∀ e b, x.status d = .sending e b → e ≠ s ∧ ∀ f c, x.status e ≠ .sending f c) :
    wp (msgSend s d (some a)) (fun _ _ => True) (fun _ _ => False) k := by
  simp only [msgSend, wp_bind, wp_check, deadlock]
  refine ⟨fun _ => ?_, fun hne => (hne hsd).elim⟩
  refine wp_mono (deadlockWalk_free h (nrSlots - 2) d hd) ?_ (fun _ _ he => he)
  rintro c k' ⟨rfl, rfl⟩
  have hacc := h.accepts_iff s d
  simp only [Bool.false_eq_true, if_false, wp_bind, wp_procOf, wp_ite]
  refine ⟨fun hc => ?_, fun hc => ?_⟩
  · obtain ⟨b, hb⟩ := hacc.mp hc
    exact wp_mono (sendDirect_refines h hs hsd hb) (fun _ _ _ => trivial) (fun _ _ hf => hf)
  · have hb : x.accepts s d = none := by
      rw [hacc, not_exists] at hc
      exact Option.eq_none_iff_forall_ne_some.mpr hc
    exact wp_mono (sendQueue_refines h hs hsd hb) (fun _ _ _ => trivial) (fun _ _ hf => hf)

end BazingaOS
