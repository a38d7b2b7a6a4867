import Mathlib

/-!
# Rendezvous message passing

The abstract machine behind blocking message passing with one queue of blocked senders per
receiver: a send either hands its message to a receiver that waits for it or joins the queue, a
receive takes a queued sender or waits, and an interrupt is either handed over or remembered.
Processes, buffer addresses and message contents are arbitrary types.
-/

set_option linter.unusedSectionVars false

namespace BazingaOS

/-- What a receiver waits for. -/
inductive Source (P : Type) where
  | any
  | interrupt
  | only (p : P)
deriving DecidableEq, Repr

inductive Status (P A : Type) where
  | free
  | idle
  | sending (d : P) (a : A)
  | receiving (src : Source P) (a : A)
deriving DecidableEq, Repr

structure Rendezvous (P A M : Type) where
  status : P → Status P A
  queue : P → List P
  pending : P → Bool
  mem : P → A → M

namespace Rendezvous

variable {P A M : Type} [DecidableEq P] [DecidableEq A]

def setStatus (x : Rendezvous P A M) (p : P) (v : Status P A) : Rendezvous P A M :=
  { x with status := Function.update x.status p v }

def setQueue (x : Rendezvous P A M) (p : P) (l : List P) : Rendezvous P A M :=
  { x with queue := Function.update x.queue p l }

def setPending (x : Rendezvous P A M) (p : P) (b : Bool) : Rendezvous P A M :=
  { x with pending := Function.update x.pending p b }

def setMem (x : Rendezvous P A M) (p : P) (a : A) (v : M) : Rendezvous P A M :=
  { x with mem := Function.update x.mem p (Function.update (x.mem p) a v) }

theorem mem_setMem_self (x : Rendezvous P A M) (p : P) (a : A) (v : M) :
    (x.setMem p a v).mem p a = v := by
  simp [setMem]

theorem mem_setMem_of_ne (x : Rendezvous P A M) {p q : P} (a : A) (v : M) (h : q ≠ p) :
    (x.setMem p a v).mem q = x.mem q := by
  simp [setMem, h]

/-- The buffer in which `d` waits for a message of `s`. -/
def accepts (x : Rendezvous P A M) (s d : P) : Option A :=
  match x.status d with
  | .receiving .any b => some b
  | .receiving (.only q) b => if q = s then some b else none
  | _ => none

def send (x : Rendezvous P A M) (s d : P) (a : A) : Rendezvous P A M :=
  match x.accepts s d with
  | some b => (x.setMem d b (x.mem s a)).setStatus d .idle
  | none => (x.setStatus s (.sending d a)).setQueue d (x.queue d ++ [s])

/-- The queued sender that a receive takes. -/
def candidate (x : Rendezvous P A M) (r : P) : Source P → Option P
  | .any => (x.queue r).head?
  | .interrupt => none
  | .only s => if s ∈ x.queue r then some s else none

def take (x : Rendezvous P A M) (r f : P) (a : A) : Rendezvous P A M :=
  match x.status f with
  | .sending _ b =>
    ((x.setMem r a (x.mem f b)).setStatus f .idle).setQueue r ((x.queue r).erase f)
  | _ => x

/-- Whether a receive from `src` consumes a remembered interrupt. -/
def interrupted (x : Rendezvous P A M) (r : P) : Source P → Bool
  | .any | .interrupt => x.pending r
  | .only _ => false

def receive (x : Rendezvous P A M) (int : M) (r : P) (src : Source P) (a : A) :
    Rendezvous P A M :=
  if x.interrupted r src then (x.setMem r a int).setPending r false
  else
    match x.candidate r src with
    | some f => x.take r f a
    | none => x.setStatus r (.receiving src a)

/-- The buffer in which `t` waits for an interrupt. -/
def awaits (x : Rendezvous P A M) (t : P) : Option A :=
  match x.status t with
  | .receiving .any b => some b
  | .receiving .interrupt b => some b
  | _ => none

def inform (x : Rendezvous P A M) (mark : M → M) (t : P) : Rendezvous P A M :=
  match x.awaits t with
  | some b => ((x.setMem t b (mark (x.mem t b))).setStatus t .idle).setPending t false
  | none => x.setPending t true

/-- The queue of a receiver holds exactly the processes blocked in a send to it. -/
structure WF (x : Rendezvous P A M) : Prop where
  mem_queue : ∀ d s, s ∈ x.queue d ↔ ∃ a, x.status s = .sending d a
  nodup : ∀ d, (x.queue d).Nodup

section

variable {x : Rendezvous P A M} {s d r f t : P} {a : A}

theorem status_of_accepts {b : A} (h : x.accepts s d = some b) :
    x.status d = .receiving .any b ∨ x.status d = .receiving (.only s) b := by
  unfold accepts at h
  split at h
  · next hs => simp_all
  · next q c hs =>
    split at h
    · next hq =>
      right
      rw [hs, hq, Option.some.inj h]
    · cases h
  · cases h

theorem status_of_awaits {b : A} (h : x.awaits t = some b) :
    x.status t = .receiving .any b ∨ x.status t = .receiving .interrupt b := by
  unfold awaits at h
  split at h <;> simp_all

theorem WF.status_of_candidate (h : x.WF) {src : Source P} (hc : x.candidate r src = some f) :
    f ∈ x.queue r ∧ ∃ b, x.status f = .sending r b := by
  have hm : f ∈ x.queue r := by
    cases src with
    | any => exact List.mem_of_mem_head? hc
    | interrupt => cases hc
    | only q =>
      simp only [candidate] at hc
      split at hc
      · next hq => exact Option.some.inj hc ▸ hq
      · cases hc
  exact ⟨hm, (h.mem_queue r f).mp hm⟩

theorem wf_setStatus (h : x.WF) {v : Status P A}
    (hs : ∀ d a, x.status s ≠ .sending d a) (hv : ∀ d a, v ≠ .sending d a) :
    (x.setStatus s v).WF := by
  refine ⟨fun d q => ?_, h.nodup⟩
  change q ∈ x.queue d ↔ ∃ a, Function.update x.status s v q = .sending d a
  rw [h.mem_queue d q]
  by_cases hq : q = s
  · subst hq
    constructor
    · rintro ⟨a, ha⟩
      exact (hs d a ha).elim
    · rintro ⟨a, ha⟩
      rw [Function.update_self] at ha
      exact (hv d a ha).elim
  · rw [Function.update_of_ne hq]

theorem wf_send (h : x.WF) (hs : x.status s = .idle) : (x.send s d a).WF := by
  unfold send
  split
  · next b hb =>
    have hd := status_of_accepts hb
    exact wf_setStatus (s := d) (x := x.setMem d b (x.mem s a)) ⟨h.mem_queue, h.nodup⟩
      (by rcases hd with hd | hd <;> simp [setMem, hd]) (by simp)
  · have hns : ∀ e, s ∉ x.queue e := by
      intro e hm
      obtain ⟨b, hb⟩ := (h.mem_queue e s).mp hm
      simp [hs] at hb
    refine ⟨fun e q => ?_, fun e => ?_⟩
    · change q ∈ Function.update x.queue d (x.queue d ++ [s]) e ↔
        ∃ b, Function.update x.status s (.sending d a) q = .sending e b
      have hm := h.mem_queue e q
      by_cases hq : q = s
      · subst hq
        by_cases he : e = d
        · subst he; simp
        · simp [he, Ne.symm he, hns e]
      · by_cases he : e = d
        · subst he; simp [hq, hm]
        · simp [he, hq, hm]
    · change (Function.update x.queue d (x.queue d ++ [s]) e).Nodup
      by_cases he : e = d
      · subst he
        rw [Function.update_self]
        exact List.nodup_append.mpr ⟨h.nodup e, by simp, by
          intro q hq z hz
          rw [List.mem_singleton.mp hz]
          exact fun he => hns e (he ▸ hq)⟩
      · rw [Function.update_of_ne he]
        exact h.nodup e

theorem take_eq {b : A} (hf : x.status f = .sending d b) :
    x.take r f a = ((x.setMem r a (x.mem f b)).setStatus f .idle).setQueue r
      ((x.queue r).erase f) := by
  simp [take, hf]

theorem wf_take (h : x.WF) (hf : f ∈ x.queue r) : (x.take r f a).WF := by
  obtain ⟨b, hb⟩ := (h.mem_queue r f).mp hf
  rw [take_eq hb]
  refine ⟨fun e q => ?_, fun e => ?_⟩
  · change q ∈ Function.update x.queue r ((x.queue r).erase f) e ↔
      ∃ c, Function.update x.status f .idle q = .sending e c
    have hm := h.mem_queue e q
    by_cases hq : q = f
    · subst hq
      by_cases he : e = r
      · subst he
        simp [(h.nodup e).not_mem_erase]
      · simp [he, hm, hb, Ne.symm he]
    · by_cases he : e = r
      · subst he
        simp [hq, hm, List.mem_erase_of_ne hq]
      · simp [he, hq, hm]
  · change (Function.update x.queue r ((x.queue r).erase f) e).Nodup
    by_cases he : e = r
    · subst he
      rw [Function.update_self]
      exact (h.nodup e).erase f
    · rw [Function.update_of_ne he]
      exact h.nodup e

/-- What a send does: it hands the message over, or the sender joins the queue. -/
inductive SendCase (x : Rendezvous P A M) (s d : P) (a : A) (x' : Rendezvous P A M) : Prop
  | direct (b : A) (hd : x.status d = .receiving .any b ∨ x.status d = .receiving (.only s) b)
      (status : ∀ p, x'.status p = if p = d then .idle else x.status p)
      (mem : x'.mem = (x.setMem d b (x.mem s a)).mem) (pending : x'.pending = x.pending)
  | queue (hd : ∀ b, x.status d ≠ .receiving .any b ∧ x.status d ≠ .receiving (.only s) b)
      (status : ∀ p, x'.status p = if p = s then .sending d a else x.status p)
      (mem : x'.mem = x.mem) (pending : x'.pending = x.pending)

theorem send_case (x : Rendezvous P A M) (s d : P) (a : A) : SendCase x s d a (x.send s d a) := by
  unfold send
  split
  · next b hb =>
    exact .direct b (status_of_accepts hb) (fun p => Function.update_apply ..) rfl rfl
  · next hn =>
    refine .queue (fun b => ⟨?_, ?_⟩) (fun p => Function.update_apply ..) rfl rfl
    · intro hd
      simp [accepts, hd] at hn
    · intro hd
      simp [accepts, hd] at hn

/-- What a receive does: it takes a remembered interrupt or the message of a blocked sender, or
it waits. -/
inductive ReceiveCase (x : Rendezvous P A M) (int : M) (r : P) (src : Source P) (a : A)
    (x' : Rendezvous P A M) : Prop
  | interrupt (hs : ∀ f, src ≠ .only f) (hp : x.pending r = true) (status : x'.status = x.status)
      (mem : x'.mem = (x.setMem r a int).mem)
      (pending : x'.pending = Function.update x.pending r false)
  | take (f : P) (b : A) (hs : src = .any ∨ src = .only f) (hf : x.status f = .sending r b)
      (status : ∀ p, x'.status p = if p = f then .idle else x.status p)
      (mem : x'.mem = (x.setMem r a (x.mem f b)).mem) (pending : x'.pending = x.pending)
  | wait (hs : ∀ f, (src = .any ∨ src = .only f) → ∀ b, x.status f ≠ .sending r b)
      (status : ∀ p, x'.status p = if p = r then .receiving src a else x.status p)
      (mem : x'.mem = x.mem) (pending : x'.pending = x.pending)

theorem WF.receive_case (h : x.WF) (int : M) (r : P) (src : Source P) (a : A) :
    ReceiveCase x int r src a (x.receive int r src a) := by
  unfold receive
  split
  · next hi =>
    cases src with
    | any => exact .interrupt (by simp) hi rfl rfl rfl
    | interrupt => exact .interrupt (by simp) hi rfl rfl rfl
    | only q => cases hi
  · split
    · next f hf =>
      obtain ⟨-, b, hb⟩ := h.status_of_candidate hf
      rw [take_eq hb]
      refine .take f b ?_ hb (fun p => Function.update_apply ..) rfl rfl
      cases src with
      | any => exact .inl rfl
      | interrupt => cases hf
      | only q =>
        simp only [candidate] at hf
        split at hf
        · exact .inr (by rw [Option.some.inj hf])
        · cases hf
    · next hn =>
      refine .wait ?_ (fun p => Function.update_apply ..) rfl rfl
      intro f hs b hb
      have hm := (h.mem_queue r f).mpr ⟨b, hb⟩
      rcases hs with rfl | rfl
      · rw [List.head?_eq_none_iff.mp hn] at hm
        cases hm
      · simp [candidate, hm] at hn

/-- No sender waits for a receiver that would take its message, and no receiver waits for an
interrupt that is remembered. -/
structure Matched (x : Rendezvous P A M) : Prop where
  sender : ∀ s d a src b, x.status s = .sending d a → x.status d = .receiving src b →
    src ≠ .any ∧ src ≠ .only s
  pending : ∀ t src b, x.status t = .receiving src b → src = .any ∨ src = .interrupt →
    x.pending t = false

theorem Matched.setMem (h : x.Matched) (p : P) (a : A) (v : M) : (x.setMem p a v).Matched :=
  ⟨h.sender, h.pending⟩

private theorem matched_idle {x' : Rendezvous P A M} (h : x.Matched) {q : P}
    (status : ∀ p, x'.status p = if p = q then .idle else x.status p)
    (hp : ∀ t, t ≠ q → x.pending t = false → x'.pending t = false) : x'.Matched := by
  have hne : ∀ {p : P} {v : Status P A}, x'.status p = v → v ≠ .idle → p ≠ q ∧ x.status p = v := by
    intro p v hv hidle
    rw [status] at hv
    split at hv
    · exact absurd hv.symm hidle
    · next hpq => exact ⟨hpq, hv⟩
  constructor
  · intro s d a src b hs hd
    exact h.sender s d a src b (hne hs (by simp)).2 (hne hd (by simp)).2
  · intro t src b ht hsrc
    obtain ⟨htq, ht⟩ := hne ht (by simp)
    exact hp t htq (h.pending t src b ht hsrc)

theorem Matched.send (h : x.Matched) (hs : x.status s = .idle) : (x.send s d a).Matched := by
  rcases send_case x s d a with ⟨b, _, status, _, pending⟩ | ⟨hd, status, _, pending⟩
  · exact matched_idle h status fun t _ ht => by rw [pending, ht]
  · constructor
    · intro p e c src b hp he
      have hes : e ≠ s := by
        rintro rfl
        rw [status, if_pos rfl] at he
        cases he
      rw [status, if_neg hes] at he
      by_cases hps : p = s
      · subst hps
        rw [status, if_pos rfl] at hp
        cases hp
        constructor
        · rintro rfl
          exact (hd b).1 he
        · rintro rfl
          exact (hd b).2 he
      · rw [status, if_neg hps] at hp
        exact h.sender p e c src b hp he
    · intro t src b ht hsrc
      have hts : t ≠ s := by
        rintro rfl
        rw [status, if_pos rfl] at ht
        cases ht
      rw [status, if_neg hts] at ht
      rw [pending]
      exact h.pending t src b ht hsrc

theorem Matched.receive (h : x.Matched) (hw : x.WF) (int : M) {src : Source P} :
    (x.receive int r src a).Matched := by
  by_cases hi : x.interrupted r src = true
  · have hx : x.receive int r src a = (x.setMem r a int).setPending r false := by
      simp [Rendezvous.receive, hi]
    rw [hx]
    constructor
    · exact h.sender
    · intro t src' b ht hsrc
      change Function.update x.pending r false t = false
      rw [Function.update_apply]
      split
      · rfl
      · exact h.pending t src' b ht hsrc
  · rcases hw.receive_case int r src a with ⟨hn, hp, _, _, _⟩ | ⟨f, b, _, _, status, _, pending⟩ |
      ⟨hsrc, status, _, pending⟩
    · exfalso
      apply hi
      cases src with
      | any => exact hp
      | interrupt => exact hp
      | only q => exact absurd rfl (hn q)
    · exact matched_idle h status fun t _ ht => by rw [pending, ht]
    · constructor
      · intro p e c src' b hp he
        have hpr : p ≠ r := by
          rintro rfl
          rw [status, if_pos rfl] at hp
          cases hp
        rw [status, if_neg hpr] at hp
        by_cases her : e = r
        · subst her
          rw [status, if_pos rfl] at he
          cases he
          constructor
          · rintro rfl
            exact hsrc p (.inl rfl) c hp
          · rintro rfl
            exact hsrc p (.inr rfl) c hp
        · rw [status, if_neg her] at he
          exact h.sender p e c src' b hp he
      · intro t src' b ht hs
        rw [pending]
        by_cases htr : t = r
        · subst htr
          rw [status, if_pos rfl] at ht
          cases ht
          rcases hs with rfl | rfl
          · simpa [interrupted] using hi
          · simpa [interrupted] using hi
        · rw [status, if_neg htr] at ht
          exact h.pending t src' b ht hs

theorem Matched.inform (h : x.Matched) (mark : M → M) : (x.inform mark t).Matched := by
  unfold Rendezvous.inform
  split
  · exact matched_idle h (fun p => Function.update_apply ..) fun p hp hpend =>
      (Function.update_of_ne hp _ _).trans hpend
  · next hn =>
    constructor
    · exact h.sender
    · intro p src b hp hsrc
      have hpt : p ≠ t := by
        rintro rfl
        have hp' : x.status p = .receiving src b := hp
        rcases hsrc with rfl | rfl <;> simp [awaits, hp'] at hn
      exact (Function.update_of_ne hpt _ _).trans (h.pending p src b hp hsrc)


/-- `s` is blocked in a send of `v` to `d`, behind `n` other senders. -/
structure Waits (x : Rendezvous P A M) (s d : P) (v : M) (n : Nat) : Prop where
  queue : ∃ front back, x.queue d = front ++ s :: back ∧ front.length = n
  sent : ∃ a, x.status s = .sending d a ∧ x.mem s a = v

/-- A receive of `d` has taken the message of `s`. -/
structure Taken (x' : Rendezvous P A M) (s d : P) (v : M) (b : A) : Prop where
  status : x'.status s = .idle
  mem : x'.mem d b = v

variable {v : M} {n : Nat}

theorem Waits.ne (h : x.Waits s d v n) {p : P} (hp : ∀ e a, x.status p ≠ .sending e a) :
    s ≠ p := by
  rintro rfl
  obtain ⟨a, ha, -⟩ := h.sent
  exact hp d a ha

theorem Waits.ne_of_idle (h : x.Waits s d v n) {p : P} (hp : x.status p = .idle) : s ≠ p :=
  h.ne fun e a hs => by rw [hp] at hs; cases hs

theorem Waits.congr (h : x.Waits s d v n) {x' : Rendezvous P A M} (hq : x'.queue d = x.queue d)
    (hs : x'.status s = x.status s) (hm : x'.mem s = x.mem s) : x'.Waits s d v n := by
  constructor
  · rw [hq]
    exact h.queue
  · rw [hs, hm]
    exact h.sent

theorem Waits.setMem (h : x.Waits s d v n) {p : P} (hp : s ≠ p) (a : A) (w : M) :
    (x.setMem p a w).Waits s d v n :=
  h.congr rfl rfl (mem_setMem_of_ne x a w hp)

theorem Waits.send (h : x.Waits s d v n) {p e : P} (hp : x.status p = .idle) (a : A) :
    (x.send p e a).Waits s d v n := by
  have hsp : s ≠ p := h.ne_of_idle hp
  unfold Rendezvous.send
  split
  · next b hb =>
    have hse : s ≠ e := h.ne fun f c hf => by
      rcases status_of_accepts hb with he | he <;> rw [he] at hf <;> cases hf
    have hstatus : Function.update x.status e .idle s = x.status s :=
      Function.update_of_ne hse ..
    exact h.congr rfl hstatus (mem_setMem_of_ne x b _ hse)
  · have hs : (Function.update x.status p (.sending e a)) s = x.status s :=
      Function.update_of_ne hsp ..
    by_cases hed : e = d
    · subst hed
      obtain ⟨front, back, hq, hn⟩ := h.queue
      refine ⟨⟨front, back ++ [p], ?_, hn⟩, ?_⟩
      · change Function.update x.queue e (x.queue e ++ [p]) e = _
        rw [Function.update_self, hq, List.append_assoc, List.cons_append]
      · obtain ⟨c, hc, hm⟩ := h.sent
        exact ⟨c, hs.trans hc, hm⟩
    · exact h.congr (Function.update_of_ne (Ne.symm hed) ..) hs rfl

theorem Waits.inform (h : x.Waits s d v n) (mark : M → M) (t : P) :
    (x.inform mark t).Waits s d v n := by
  unfold Rendezvous.inform
  split
  · next b hb =>
    have hst : s ≠ t := h.ne fun e c he => by
      rcases status_of_awaits hb with ht | ht <;> rw [ht] at he <;> cases he
    have hstatus : Function.update x.status t .idle s = x.status s :=
      Function.update_of_ne hst ..
    exact h.congr rfl hstatus (mem_setMem_of_ne x b _ hst)
  · exact h.congr rfl rfl rfl

theorem Waits.take (h : x.Waits s d v n) {f : P} {b : A} (hr : x.status r = .idle)
    (hf : x.status f = .sending r b) (hsf : s ≠ f) (a : A) :
    ∃ n', (x.take r f a).Waits s d v n' ∧ n' ≤ n ∧ (r = d → (x.queue r).head? = some f → n' < n) := by
  have hsr : s ≠ r := h.ne_of_idle hr
  have hstatus : (x.take r f a).status s = x.status s := by
    rw [take_eq hf]
    exact Function.update_of_ne hsf ..
  have hmem : (x.take r f a).mem s = x.mem s := by
    rw [take_eq hf]
    exact mem_setMem_of_ne x a _ hsr
  have hqueue : (x.take r f a).queue = Function.update x.queue r ((x.queue r).erase f) := by
    rw [take_eq hf]
    rfl
  by_cases hrd : r = d
  · subst hrd
    obtain ⟨front, back, hq, hn⟩ := h.queue
    have hsent : ∃ c, (x.take r f a).status s = .sending r c ∧ (x.take r f a).mem s c = v := by
      rw [hstatus, hmem]
      exact h.sent
    by_cases hmf : f ∈ front
    · have hlen : (front.erase f).length = n - 1 := by
        rw [List.length_erase_of_mem hmf, hn]
      have hpos : 0 < n := hn ▸ List.length_pos_of_mem hmf
      refine ⟨n - 1, ⟨⟨front.erase f, back, ?_, hlen⟩, hsent⟩, Nat.sub_le .., fun _ _ => by omega⟩
      rw [hqueue, Function.update_self, hq, List.erase_append_left _ hmf]
    · refine ⟨n, ⟨⟨front, back.erase f, ?_, hn⟩, hsent⟩, le_rfl, fun _ hhead => ?_⟩
      · rw [hqueue, Function.update_self, hq, List.erase_append_right _ hmf,
          List.erase_cons_tail (by simpa using hsf)]
      · cases front with
        | nil =>
          rw [hq] at hhead
          exact absurd (Option.some.inj hhead) hsf
        | cons g front =>
          rw [hq] at hhead
          have hfg : g = f := Option.some.inj hhead
          exact absurd (hfg ▸ List.mem_cons_self) hmf
  · refine ⟨n, h.congr ?_ hstatus hmem, le_rfl, fun hd => absurd hd hrd⟩
    rw [hqueue]
    exact Function.update_of_ne (Ne.symm hrd) ..

/-- A receive takes the message of `s`, or `s` goes on waiting; one from anybody that no interrupt
answers brings it forward. -/
theorem Waits.receive (h : x.Waits s d v n) (hw : x.WF) (hr : x.status r = .idle) (int : M)
    (src : Source P) (a : A) :
    (r = d ∧ (src = .any ∨ src = .only s) ∧ (x.receive int r src a).Taken s d v a) ∨
      ∃ n', (x.receive int r src a).Waits s d v n' ∧ n' ≤ n ∧
        (r = d → src = .any → x.pending d = false → n' < n) := by
  have hsr : s ≠ r := h.ne_of_idle hr
  unfold Rendezvous.receive
  split
  · next hi =>
    refine Or.inr ⟨n, h.congr rfl rfl (mem_setMem_of_ne x a _ hsr), le_rfl, ?_⟩
    rintro rfl rfl hp
    rw [interrupted, hp] at hi
    cases hi
  · next hi =>
    split
    · next f hf =>
      obtain ⟨hmem, b, hb⟩ := hw.status_of_candidate hf
      by_cases hsf : s = f
      · subst hsf
        obtain ⟨c, hc, hm⟩ := h.sent
        have hdr : d = r := (Status.sending.inj (hc.symm.trans hb)).1
        have hcb : c = b := (Status.sending.inj (hc.symm.trans hb)).2
        subst hdr hcb
        refine Or.inl ⟨rfl, ?_, ?_⟩
        · cases src with
          | any => exact Or.inl rfl
          | interrupt => cases hf
          | only q =>
            simp only [candidate] at hf
            split at hf
            · exact Or.inr (by rw [Option.some.inj hf])
            · cases hf
        · rw [take_eq hb]
          constructor
          · exact Function.update_self ..
          · rw [← hm]
            exact mem_setMem_self x d a _
      · obtain ⟨n', hn', hle, hlt⟩ := h.take hr hb hsf a
        refine Or.inr ⟨n', hn', hle, fun hrd hany _ => hlt hrd ?_⟩
        subst hany
        exact hf
    · next hn =>
      refine Or.inr ⟨n, h.congr rfl (Function.update_of_ne hsr ..) rfl, le_rfl, ?_⟩
      rintro rfl rfl -
      obtain ⟨front, back, hq, -⟩ := h.queue
      have hempty : x.queue r = [] := List.head?_eq_none_iff.mp hn
      rw [hempty] at hq
      simp at hq

end

end Rendezvous

end BazingaOS
