import BazingaOS.Kernel.Effect
import BazingaOS.Kernel.IpcReceive

/-!
# The chains of blocked senders

The links of the `q_sending` chains and the processes they hold, whatever other flags the records
carry. A call that returns keeps every chain exact.
-/

namespace BazingaOS

open Prog

def Kernel.head (k : Kernel) (d : Pid) : Option Pid := (k.procTable d).qSending

/-- Where a process that is `SENDING` sends to. -/
def Process.sendsTo (r : Process) : Option Endpoint :=
  if r.pFlags.sending then some r.pSendto else none

def Kernel.sendsTo (k : Kernel) (p : Pid) : Option Endpoint := (k.procTable p).sendsTo

/-- Every chain spells out its queue, and a queue holds exactly those that send to its process. -/
structure Chains (k : Kernel) (q : Pid → List Pid) : Prop where
  link : ∀ d, Linked k.next (k.head d) (q d)
  mem : ∀ d s, s ∈ q d ↔ k.sendsTo s = some (.proc d)

section SetProc

variable (k : Kernel) (p : Pid) (f : Process → Process)

theorem Kernel.head_setProc :
    (k.setProc p f).head = Function.update k.head p (f (k.procTable p)).qSending := by
  funext q
  unfold Kernel.head
  rw [Kernel.setProc_apply, Function.update_apply]
  split <;> rfl

theorem Kernel.sendsTo_setProc :
    (k.setProc p f).sendsTo = Function.update k.sendsTo p (f (k.procTable p)).sendsTo := by
  funext q
  unfold Kernel.sendsTo
  rw [Kernel.setProc_apply, Function.update_apply]
  split <;> rfl

variable {f}

theorem Kernel.next_setProc_same (h : ∀ r, (f r).nextSending = r.nextSending) :
    (k.setProc p f).next = k.next := by
  rw [Kernel.next_setProc, h]
  exact Function.update_eq_self p k.next

theorem Kernel.head_setProc_same (h : ∀ r, (f r).qSending = r.qSending) :
    (k.setProc p f).head = k.head := by
  rw [Kernel.head_setProc, h]
  exact Function.update_eq_self p k.head

theorem Kernel.sendsTo_setProc_same (h : ∀ r, (f r).sendsTo = r.sendsTo) :
    (k.setProc p f).sendsTo = k.sendsTo := by
  rw [Kernel.sendsTo_setProc, h]
  exact Function.update_eq_self p k.sendsTo

variable (v : Option Pid)

theorem Kernel.next_setHead : (k.setProc p fun r => { r with qSending := v }).next = k.next :=
  Kernel.next_setProc_same k p fun _ => rfl

theorem Kernel.head_setHead : (k.setProc p fun r => { r with qSending := v }).head =
    Function.update k.head p v :=
  Kernel.head_setProc k p _

theorem Kernel.sendsTo_setHead : (k.setProc p fun r => { r with qSending := v }).sendsTo =
    k.sendsTo :=
  Kernel.sendsTo_setProc_same k p fun _ => rfl

theorem Kernel.next_setNext : (k.setProc p fun r => { r with nextSending := v }).next =
    Function.update k.next p v :=
  Kernel.next_setProc k p _

theorem Kernel.head_setNext : (k.setProc p fun r => { r with nextSending := v }).head = k.head :=
  Kernel.head_setProc_same k p fun _ => rfl

theorem Kernel.sendsTo_setNext : (k.setProc p fun r => { r with nextSending := v }).sendsTo =
    k.sendsTo :=
  Kernel.sendsTo_setProc_same k p fun _ => rfl

end SetProc

variable {k k' : Kernel} {q : Pid → List Pid} {s d r f z : Pid} {a : Addr}

theorem Chains.congr (h : Chains k q) (hn : k'.next = k.next) (hh : k'.head = k.head)
    (hs : k'.sendsTo = k.sendsTo) : Chains k' q := by
  constructor
  · rw [hn, hh]
    exact h.link
  · rw [hs]
    exact h.mem

theorem Chains.setProc (h : Chains k q) (p : Pid) {g : Process → Process}
    (hn : (g (k.procTable p)).nextSending = (k.procTable p).nextSending)
    (hh : (g (k.procTable p)).qSending = (k.procTable p).qSending)
    (hs : (g (k.procTable p)).sendsTo = (k.procTable p).sendsTo) : Chains (k.setProc p g) q := by
  apply h.congr
  · rw [Kernel.next_setProc, hn]
    exact Function.update_eq_self p k.next
  · rw [Kernel.head_setProc, hh]
    exact Function.update_eq_self p k.head
  · rw [Kernel.sendsTo_setProc, hs]
    exact Function.update_eq_self p k.sendsTo

theorem Chains.setMem (h : Chains k q) (p : Pid) (a : Addr) (v : Message) :
    Chains (k.setMem p a v) q :=
  h.congr rfl rfl rfl

theorem Chains.notMem (h : Chains k q) (hs : k.sendsTo s = none) (d : Pid) : s ∉ q d := by
  intro hm
  rw [(h.mem d s).mp hm] at hs
  cases hs

theorem Chains.notMem_of_ne (h : Chains k q) (hf : f ∈ q r) (hd : d ≠ r) : f ∉ q d := by
  intro hm
  have he := (h.mem d f).mp hm
  rw [(h.mem r f).mp hf] at he
  exact hd (Endpoint.proc.inj (Option.some.inj he)).symm

theorem Chains.length_lt (h : Chains k q) (d : Pid) : (q d).length < nrSlots + 1 := by
  have hle := (h.link d).nodup.length_le_card
  rw [Fintype.card_fin] at hle
  omega

theorem Chains.eq_nil (h : Chains k q) (hd : ∀ s, k.sendsTo s ≠ some (.proc d)) : q d = [] := by
  apply List.eq_nil_iff_forall_not_mem.mpr
  intro s hs
  exact hd s ((h.mem d s).mp hs)

private theorem mem_enqueue (h : Chains k q) (hs : k.sendsTo s = none) (d e p : Pid) :
    p ∈ Function.update q d (q d ++ [s]) e ↔
      Function.update k.sendsTo s (some (.proc d)) p = some (.proc e) := by
  by_cases hp : p = s
  · subst hp
    by_cases he : e = d
    · subst he
      simp
    · simp [he, Ne.symm he, h.notMem hs e]
  · by_cases he : e = d
    · subst he
      simp [hp, h.mem e p]
    · simp [hp, he, h.mem e p]

theorem Chains.enqueue_empty (h : Chains k q) (hs : k.sendsTo s = none) (hd : k.head d = none)
    (hn : k'.next = Function.update k.next s none)
    (hh : k'.head = Function.update k.head d (some s))
    (ht : k'.sendsTo = Function.update k.sendsTo s (some (.proc d))) :
    Chains k' (Function.update q d (q d ++ [s])) := by
  have hnil : q d = [] := by
    have hl := h.link d
    rw [hd] at hl
    cases hq : q d with
    | nil => rfl
    | cons p l => rw [hq] at hl; cases hl.1
  constructor
  · intro e
    rw [hn, hh]
    by_cases he : e = d
    · subst he
      simp [hnil]
    · rw [Function.update_of_ne he, Function.update_of_ne he]
      exact (h.link e).update_of_notMem (h.notMem hs e)
  · intro e p
    rw [ht]
    exact mem_enqueue h hs d e p

theorem Chains.enqueue_append (h : Chains k q) (hs : k.sendsTo s = none) {l : List Pid}
    (hq : q d = l ++ [z])
    (hn : k'.next = Function.update (Function.update k.next z (some s)) s none)
    (hh : k'.head = k.head)
    (ht : k'.sendsTo = Function.update k.sendsTo s (some (.proc d))) :
    Chains k' (Function.update q d (q d ++ [s])) := by
  have hz : z ∈ q d := by simp [hq]
  constructor
  · intro e
    rw [hn, hh]
    by_cases he : e = d
    · subst he
      have hl := h.link e
      have hse := h.notMem hs e
      rw [hq] at hl hse
      rw [Function.update_self, hq]
      exact hl.append hse
    · rw [Function.update_of_ne he]
      exact ((h.link e).update_of_notMem (h.notMem_of_ne hz he)).update_of_notMem
        (h.notMem hs e)
  · intro e p
    rw [ht]
    exact mem_enqueue h hs d e p

private theorem mem_dequeue (h : Chains k q) (hf : f ∈ q r) (e p : Pid) :
    p ∈ Function.update q r ((q r).erase f) e ↔
      Function.update k.sendsTo f none p = some (.proc e) := by
  have hnd := (h.link r).nodup
  by_cases hp : p = f
  · subst hp
    by_cases he : e = r
    · subst he
      simp [hnd.not_mem_erase]
    · simp [he, h.notMem_of_ne hf he]
  · by_cases he : e = r
    · subst he
      simp [hp, List.mem_erase_of_ne hp, h.mem e p]
    · simp [hp, he, h.mem e p]

theorem Chains.dequeue_head (h : Chains k q) {l : List Pid} (hq : q r = f :: l)
    (hn : k'.next = Function.update k.next f none)
    (hh : k'.head = Function.update k.head r (k.next f))
    (ht : k'.sendsTo = Function.update k.sendsTo f none) :
    Chains k' (Function.update q r ((q r).erase f)) := by
  have hf : f ∈ q r := by simp [hq]
  constructor
  · intro e
    rw [hn, hh]
    by_cases he : e = r
    · subst he
      have hl := h.link e
      have hnd := hl.nodup
      rw [hq] at hl hnd
      rw [Function.update_self, Function.update_self, hq, List.erase_cons_head]
      exact hl.2.update_of_notMem (List.nodup_cons.mp hnd).1
    · rw [Function.update_of_ne he, Function.update_of_ne he]
      exact (h.link e).update_of_notMem (h.notMem_of_ne hf he)
  · intro e p
    rw [ht]
    exact mem_dequeue h hf e p

theorem Chains.dequeue_mid (h : Chains k q) {l₁ l₂ : List Pid} (hq : q r = l₁ ++ z :: f :: l₂)
    (hn : k'.next = Function.update (Function.update k.next z (k.next f)) f none)
    (hh : k'.head = k.head)
    (ht : k'.sendsTo = Function.update k.sendsTo f none) :
    Chains k' (Function.update q r ((q r).erase f)) := by
  have hf : f ∈ q r := by simp [hq]
  have hz : z ∈ q r := by simp [hq]
  constructor
  · intro e
    rw [hn, hh]
    by_cases he : e = r
    · subst he
      have hl := h.link e
      have hnd := hl.nodup
      rw [hq] at hl hnd
      have hfl : f ∉ l₁ ++ [z] := by
        intro hm
        have happ : (l₁ ++ [z] ++ f :: l₂).Nodup := by simpa using hnd
        exact (List.nodup_append.mp happ).2.2 f hm f (by simp) rfl
      have herase : (l₁ ++ z :: f :: l₂).erase f = l₁ ++ z :: l₂ := by
        have hsplit : l₁ ++ z :: f :: l₂ = (l₁ ++ [z]) ++ f :: l₂ := by simp
        rw [hsplit, List.erase_append_right _ hfl, List.erase_cons_head]
        simp
      rw [Function.update_self, hq, herase]
      exact hl.unlink
    · rw [Function.update_of_ne he]
      exact ((h.link e).update_of_notMem (h.notMem_of_ne hz he)).update_of_notMem
        (h.notMem_of_ne hf he)
  · intro e p
    rw [ht]
    exact mem_dequeue h hf e p

section Calls

/-- Some queues are spelled out by the chains. -/
def Chained (k : Kernel) : Prop := ∃ q, Chains k q

theorem Chained.setProc (h : Chained k) (p : Pid) {g : Process → Process}
    (hn : ∀ r, (g r).nextSending = r.nextSending) (hh : ∀ r, (g r).qSending = r.qSending)
    (hs : (g (k.procTable p)).sendsTo = (k.procTable p).sendsTo) : Chained (k.setProc p g) := by
  obtain ⟨q, hq⟩ := h
  exact ⟨q, hq.setProc p (hn _) (hh _) hs⟩

theorem Chained.setMem (h : Chained k) (p : Pid) (a : Addr) (v : Message) :
    Chained (k.setMem p a v) := by
  obtain ⟨q, hq⟩ := h
  exact ⟨q, hq.setMem p a v⟩

theorem sendDirect_chained (h : Chained k) :
    wp (sendDirect s d (some a)) (fun _ => Chained) (fun _ _ => True) k := by
  cases hb : (k.procTable d).pMsg with
  | none => simp [sendDirect, hb]
  | some b =>
    simp only [sendDirect, wp_bind, wp_procOf, wp_check, hb, wp_copyMessage, wp_setProc,
      wp_unblock, implies_true, and_true, Kernel.setProc_setProc]
    intros
    apply (h.setMem d b _).setProc
    all_goals intros; rfl

theorem sendQueue_chained (h : Chained k) (hs : k.sendsTo s = none) :
    wp (sendQueue s d (some a)) (fun _ => Chained) (fun _ _ => True) k := by
  obtain ⟨q, hq⟩ := h
  simp only [sendQueue, wp_bind, wp_procOf, wp_setProc, Kernel.setProc_setProc]
  generalize hk₁ : (k.setProc s fun r => { r with
    pFlags := { r.pFlags with sending := true }
    pSendto := .proc d
    pMsg := some a }) = k₁
  have hn₁ : k₁.next = k.next := by
    rw [← hk₁]
    exact Kernel.next_setProc_same _ _ fun _ => rfl
  have hh₁ : k₁.head = k.head := by
    rw [← hk₁]
    exact Kernel.head_setProc_same _ _ fun _ => rfl
  have ht₁ : k₁.sendsTo = Function.update k.sendsTo s (some (.proc d)) := by
    rw [← hk₁, Kernel.sendsTo_setProc]
    rfl
  cases hh : (k.procTable d).qSending with
  | none =>
    simp only [wp_bind, wp_setProc, wp_block, wp_procOf, wp_check, implies_true, and_true]
    intros
    refine ⟨_, hq.enqueue_empty hs hh ?_ ?_ ?_⟩
    · rw [Kernel.next_setNext, Kernel.next_setHead, hn₁]
    · rw [Kernel.head_setNext, Kernel.head_setHead, hh₁]
    · rw [Kernel.sendsTo_setNext, Kernel.sendsTo_setHead, ht₁]
  | some p =>
    obtain ⟨l, z, hl⟩ : ∃ l z, q d = l ++ [z] := by
      have hne : q d ≠ [] := by
        intro hnil
        have hlink := hq.link d
        rw [hnil] at hlink
        have hnone : (k.procTable d).qSending = none := hlink
        rw [hh] at hnone
        cases hnone
      obtain ⟨l, z, hlz⟩ := (List.eq_nil_or_concat (q d)).resolve_left hne
      exact ⟨l, z, by rw [hlz, List.concat_eq_append]⟩
    have hlink : Linked k₁.next (some p) (l ++ [z]) := by
      have hlink := hq.link d
      rw [hl] at hlink
      rw [hn₁, ← hh]
      exact hlink
    have hlen : l.length < nrSlots := by
      have hlt := hq.length_lt d
      rw [hl, List.length_append, List.length_singleton] at hlt
      omega
    simp only [wp_bind]
    refine wp_mono (findTail_spec hlink hlen) ?_ (fun _ _ _ => trivial)
    rintro y k₂ ⟨rfl, rfl⟩
    simp only [wp_setProc, wp_block, wp_procOf, wp_check, implies_true, and_true]
    intros
    refine ⟨_, hq.enqueue_append hs hl ?_ ?_ ?_⟩
    · rw [Kernel.next_setNext, Kernel.next_setNext, hn₁]
    · rw [Kernel.head_setNext, Kernel.head_setNext, hh₁]
    · rw [Kernel.sendsTo_setNext, Kernel.sendsTo_setNext, ht₁]

theorem msgSend_chained (h : Chained k) (hs : k.sendsTo s = none) :
    wp (msgSend s d (some a)) (fun _ => Chained) (fun _ _ => True) k := by
  simp only [msgSend, wp_bind, wp_check, implies_true, and_true]
  intro _
  apply wp_of_keeps (fun I => keeps_deadlockWalk _ _ _)
  intro cycle
  simp only [wp_ite, wp_halt, implies_true, true_and, wp_bind, wp_procOf]
  intro _
  exact ⟨fun _ => sendDirect_chained h, fun _ => sendQueue_chained h hs⟩

/-- The last part of `msg_receive`: the message is copied and its sender runs again. -/
private def Kernel.release (k : Kernel) (r f : Pid) (a : Addr) (v : Message) : Kernel :=
  (k.setMem r a v).setProc f fun p => { p with
    pMsg := none
    pFlags := { p.pFlags with sending := false }
    pSendto := .noTask }

private theorem next_release (v : Message) : (k.release r f a v).next = k.next :=
  Kernel.next_setProc_same _ _ fun _ => rfl

private theorem head_release (v : Message) : (k.release r f a v).head = k.head :=
  Kernel.head_setProc_same _ _ fun _ => rfl

private theorem sendsTo_release (v : Message) :
    (k.release r f a v).sendsTo = Function.update k.sendsTo f none :=
  Kernel.sendsTo_setProc _ _ _

theorem takeMessage_chained {q : Pid → List Pid} (hq : Chains k q) {prev : Option Pid}
    {l₁ l₂ : List Pid} (hl : q r = l₁ ++ f :: l₂) (hp : prev = l₁.getLast?) :
    wp (takeMessage r f prev (some a)) (fun _ => Chained) (fun _ _ => True) k := by
  have hlink := hq.link r
  have hnd := hlink.nodup
  rw [hl] at hlink hnd
  cases hb : (k.procTable f).pMsg with
  | none =>
    simp only [takeMessage, wp_bind, wp_procOf, wp_ite, wp_setProc, wp_check, hb]
    refine ⟨fun _ => by simp, fun _ => ?_⟩
    cases prev <;> simp [hb]
  | some b =>
    simp only [takeMessage, wp_bind, wp_procOf, wp_ite, wp_setProc, wp_check, hb, wp_copyMessage,
      wp_unblock, ne_eq, reduceCtorEq, not_false_eq_true, implies_true, and_true, forall_const,
      Kernel.setProc_setProc]
    constructor
    · intro hhead _
      have hnil : l₁ = [] := by
        cases l₁ with
        | nil => rfl
        | cons y l =>
          have hy : some f = some y := hhead.symm.trans hlink.1
          have hfy : f = y := Option.some.inj hy
          simp [hfy] at hnd
      subst hnil
      generalize hk₂ : ((k.setProc r _).setProc f _) = k₂
      refine ⟨_, @Chains.dequeue_head _ (k₂.release r f a (k₂.mem f b)) _ _ _ hq _ hl ?_ ?_ ?_⟩
      · rw [next_release, ← hk₂, Kernel.next_setNext, Kernel.next_setHead]
      · rw [head_release, ← hk₂, Kernel.head_setNext, Kernel.head_setHead]
        rfl
      · rw [sendsTo_release, ← hk₂, Kernel.sendsTo_setNext, Kernel.sendsTo_setHead]
    · intro hhead
      rcases List.eq_nil_or_concat l₁ with hnil | ⟨l, z, hlz⟩
      · subst hnil
        exact (hhead hlink.1).elim
      · rw [List.concat_eq_append] at hlz
        subst hlz
        have hprev : prev = some z := by simpa using hp
        subst hprev
        simp only [wp_bind, wp_setProc, wp_check, wp_copyMessage, wp_unblock, reduceCtorEq,
          not_false_eq_true, implies_true, and_true, forall_const, Kernel.setProc_setProc]
        intros
        generalize hk₂ : ((k.setProc z _).setProc f _) = k₂
        have hsplit : q r = l ++ z :: f :: l₂ := by simpa using hl
        refine ⟨_, @Chains.dequeue_mid _ (k₂.release r f a (k₂.mem f b)) _ _ _ _ hq _ _ hsplit ?_ ?_ ?_⟩
        · rw [next_release, ← hk₂, Kernel.next_setNext, Kernel.next_setNext]
          rfl
        · rw [head_release, ← hk₂, Kernel.head_setNext, Kernel.head_setNext]
        · rw [sendsTo_release, ← hk₂, Kernel.sendsTo_setNext, Kernel.sendsTo_setNext]

theorem waitMessage_chained (h : Chained k) (src : Endpoint) :
    wp (waitMessage r src (some a)) (fun _ => Chained) (fun _ _ => True) k := by
  simp only [waitMessage, wp_bind, wp_procOf, wp_check, wp_setProc, wp_block, implies_true,
    and_true, Kernel.setProc_setProc]
  intros
  apply h.setProc
  all_goals intros; rfl

theorem msgReceive_chained (h : Chained k) (src : Endpoint) :
    wp (msgReceive r src (some a)) (fun _ => Chained) (fun _ _ => True) k := by
  obtain ⟨q, hq⟩ := h
  simp only [msgReceive, wp_bind, wp_check, wp_procOf, wp_ite, implies_true, and_true]
  refine fun _ => ⟨fun hi => ?_, fun hi => ?_⟩
  · simp only [takeInterrupt, wp_bind, wp_procOf, wp_check, wp_setProc, wp_storeMessage,
      implies_true, and_true]
    intros
    apply Chained.setProc (Chained.setMem ⟨q, hq⟩ r a intMessage)
    all_goals intros; rfl
  · cases src with
    | interrupt =>
      simp only [waitInterrupt, wp_bind, wp_setProc, wp_block, implies_true, and_true,
        Kernel.setProc_setProc]
      intros
      apply Chained.setProc ⟨q, hq⟩
      all_goals intros; rfl
    | any =>
      cases hh : (k.procTable r).qSending with
      | some f =>
        simp only [wp_bind]
        apply checkReceive_effect
        intro _ _
        obtain ⟨l, hl⟩ : ∃ l, q r = f :: l := by
          have hlink := hq.link r
          cases hqr : q r with
          | nil =>
            rw [hqr] at hlink
            have hnone : (k.procTable r).qSending = none := hlink
            rw [hh] at hnone
            cases hnone
          | cons y l =>
            rw [hqr] at hlink
            have hy : (k.procTable r).qSending = some y := hlink.1
            rw [hh] at hy
            cases hy
            exact ⟨l, rfl⟩
        exact @takeMessage_chained _ _ _ _ _ hq _ [] _ hl rfl
      | none => exact waitMessage_chained ⟨q, hq⟩ _
    | proc f =>
      simp only [wp_bind, wp_procOf, wp_ite, wp_check, implies_true, and_true]
      refine ⟨fun hf _ => ?_, fun _ => waitMessage_chained ⟨q, hq⟩ _⟩
      have hmem : f ∈ q r := by
        apply (hq.mem r f).mpr
        simp [Kernel.sendsTo, Process.sendsTo, hf.1, hf.2]
      refine wp_mono (findSender_spec none (hq.link r) hmem hf.1 (hq.length_lt r)) ?_
        (fun _ _ _ => trivial)
      rintro prev k₂ ⟨rfl, l₁, l₂, hl, hprev⟩
      apply checkReceive_effect
      intro _ _
      rw [Option.or_none] at hprev
      exact takeMessage_chained hq hl hprev
    | noTask => trivial

theorem informInt_chained (h : Chained k) (t : Pid) :
    wp (informInt t) (fun _ => Chained) (fun _ _ => True) k := by
  simp only [informInt, wp_bind, wp_procOf, wp_ite]
  refine ⟨fun _ => ?_, fun _ => ?_⟩
  · cases hb : (k.procTable t).pMsg with
    | none => simp [loadMessage]
    | some b =>
      simp only [wp_loadMessage, wp_storeMessage, wp_setProc, wp_check, wp_unblock,
        implies_true, and_true, Kernel.setProc_setProc]
      intros
      apply (h.setMem t b _).setProc
      all_goals intros; rfl
  · apply h.setProc
    all_goals intros; rfl

end Calls

end BazingaOS
