import BazingaOS.Lib.Rendezvous

/-!
# Message ledgers

A ledger of a rendezvous machine lists the sends in the order of their calls and the messages in
the order of their delivery. `Ledger` says where each delivered message comes from, that no send
is delivered twice, and that a send is delivered, blocked in a queue, or still in its call.
-/

set_option linter.unusedSectionVars false

namespace BazingaOS

structure Sent (P M : Type) where
  sender : P
  dest : P
  content : M
deriving DecidableEq

/-- The last send of `p` is number `j`. -/
def Latest {P M : Type} (sends : List (Sent P M)) (p : P) (j : Nat) : Prop :=
  (∃ e, sends[j]? = some e ∧ e.sender = p) ∧
    ∀ (i : Nat) e, sends[i]? = some e → e.sender = p → i ≤ j

/-- A delivered message comes from a send addressed to its receiver, or from an interrupt. -/
def Tagged {P M : Type} (int : M → Prop) (stamp : P → M → M) (sends : List (Sent P M)) :
    Option Nat → P × M → Prop
  | none, (_, v) => int v
  | some j, (d, v) => ∃ e, sends[j]? = some e ∧ e.dest = d ∧ v = stamp e.sender e.content

/-- Deliveries of one sender's messages follow the order of its sends. -/
def InOrder {P M : Type} (sends : List (Sent P M)) (i j : Nat) : Prop :=
  ∀ e f, sends[i]? = some e → sends[j]? = some f → e.sender = f.sender → i < j

structure Ledger {P A M : Type} (int : M → Prop) (stamp : P → M → M) (x : Rendezvous P A M)
    (sends : List (Sent P M)) (received : List (P × M)) (tags : List (Option Nat))
    (call : Option Nat) : Prop where
  tagged : List.Forall₂ (Tagged int stamp sends) tags received
  nodup : tags.reduceOption.Nodup
  order : tags.reduceOption.Pairwise (InOrder sends)
  pending : ∀ p d a, x.status p = .sending d a → ∃ (j : Nat) (e : Sent P M),
    sends[j]? = some e ∧ e.dest = d ∧ Latest sends p j ∧
      x.mem p a = stamp p e.content ∧ j ∉ tags.reduceOption
  total : ∀ (j : Nat) e, sends[j]? = some e → j ∈ tags.reduceOption ∨ call = some j ∨
    Latest sends e.sender j ∧ ∃ a, x.status e.sender = .sending e.dest a
  call_last : ∀ j, call = some j → j + 1 = sends.length ∧ j ∉ tags.reduceOption ∧
    ∀ e, sends[j]? = some e → ∀ d a, x.status e.sender ≠ .sending d a
  fifo : ∀ d, (x.queue d).Pairwise fun p q =>
    ∀ i j, Latest sends p i → Latest sends q j → i < j

section

variable {P A M : Type} [DecidableEq P] [DecidableEq A]
variable {int : M → Prop} {stamp : P → M → M} {x x' : Rendezvous P A M}
variable {sends : List (Sent P M)} {received : List (P × M)} {tags : List (Option Nat)}
variable {call : Option Nat} {s d r p : P} {a : A} {v : M} {i j : Nat} {e : Sent P M}

theorem Latest.unique (hi : Latest sends p i) (hj : Latest sends p j) : i = j := by
  obtain ⟨⟨e, he, hep⟩, hi⟩ := hi
  obtain ⟨⟨f, hf, hfp⟩, hj⟩ := hj
  have h₁ := hj i e he hep
  have h₂ := hi j f hf hfp
  omega

private theorem lt_of_getElem?_eq_some {l : List (Sent P M)} (h : l[j]? = some e) :
    j < l.length :=
  (List.getElem?_eq_some_iff.mp h).1

theorem latest_log_of_ne {f : Sent P M} (hf : f.sender ≠ p) :
    Latest (sends ++ [f]) p j ↔ Latest sends p j := by
  have hlook : ∀ (i : Nat) e, e.sender = p →
      ((sends ++ [f])[i]? = some e ↔ sends[i]? = some e) := by
    intro i e he
    rcases Nat.lt_trichotomy i sends.length with hi | hi | hi
    · rw [List.getElem?_append_left hi]
    · subst hi
      simp only [List.getElem?_concat_length, List.getElem?_length, reduceCtorEq, iff_false,
        Option.some.injEq]
      intro h
      exact hf (h ▸ he)
    · rw [List.getElem?_eq_none (by simp; omega), List.getElem?_eq_none (by omega)]
  constructor
  · rintro ⟨⟨e, he, hep⟩, hmax⟩
    exact ⟨⟨e, (hlook j e hep).mp he, hep⟩, fun i g hg hgp => hmax i g ((hlook i g hgp).mpr hg) hgp⟩
  · rintro ⟨⟨e, he, hep⟩, hmax⟩
    exact ⟨⟨e, (hlook j e hep).mpr he, hep⟩, fun i g hg hgp => hmax i g ((hlook i g hgp).mp hg) hgp⟩

theorem latest_log_self (f : Sent P M) : Latest (sends ++ [f]) f.sender sends.length := by
  refine ⟨⟨f, by simp, rfl⟩, fun i e he _ => ?_⟩
  have hi := lt_of_getElem?_eq_some he
  simp only [List.length_append, List.length_singleton] at hi
  omega

namespace Ledger

theorem lt_length (h : Ledger int stamp x sends received tags call)
    (hj : j ∈ tags.reduceOption) : j < sends.length := by
  have hmem : some j ∈ tags := List.reduceOption_mem_iff.mp hj
  obtain ⟨n, hn, hget⟩ := List.mem_iff_getElem.mp hmem
  have hlen := h.tagged.length_eq
  have ht := (List.forall₂_iff_get.mp h.tagged).2 n hn (hlen ▸ hn)
  rw [List.get_eq_getElem, hget] at ht
  obtain ⟨e, he, -⟩ := ht
  exact lt_of_getElem?_eq_some he

/-- A step that neither blocks nor wakes a sender, and keeps the buffers of the blocked ones. -/
theorem congr (h : Ledger int stamp x sends received tags call)
    (hs : ∀ p d a, x'.status p = .sending d a ↔ x.status p = .sending d a)
    (hq : x'.queue = x.queue)
    (hm : ∀ p d a, x.status p = .sending d a → x'.mem p a = x.mem p a) :
    Ledger int stamp x' sends received tags call where
  tagged := h.tagged
  nodup := h.nodup
  order := h.order
  pending p d a hp := by
    have hp' := (hs p d a).mp hp
    rw [hm p d a hp']
    exact h.pending p d a hp'
  total j e he := by
    rcases h.total j e he with ht | ht | ⟨hl, b, hb⟩
    · exact .inl ht
    · exact .inr (.inl ht)
    · exact .inr (.inr ⟨hl, b, (hs _ _ _).mpr hb⟩)
  call_last j hj := by
    obtain ⟨h₁, h₂, h₃⟩ := h.call_last j hj
    exact ⟨h₁, h₂, fun e he d b hb => h₃ e he d b ((hs _ _ _).mp hb)⟩
  fifo := by
    rw [hq]
    exact h.fifo

theorem setMem (h : Ledger int stamp x sends received tags call)
    (hs : ∀ d a, x.status s ≠ .sending d a) :
    Ledger int stamp (x.setMem s a v) sends received tags call := by
  refine Ledger.congr h (fun _ _ _ => Iff.rfl) rfl ?_
  intro p d c hp
  have hps : p ≠ s := fun he => hs d c (he ▸ hp)
  change Function.update x.mem s _ p c = _
  rw [Function.update_of_ne hps]

theorem setStatus (h : Ledger int stamp x sends received tags call) {w : Status P A}
    (hs : ∀ d a, x.status s ≠ .sending d a) (hw : ∀ d a, w ≠ .sending d a) :
    Ledger int stamp (x.setStatus s w) sends received tags call := by
  refine Ledger.congr h ?_ rfl (fun _ _ _ _ => rfl)
  intro p d c
  change Function.update x.status s w p = _ ↔ _
  by_cases hps : p = s
  · subst hps
    simp [hs d c, hw d c]
  · rw [Function.update_of_ne hps]

theorem setPending (h : Ledger int stamp x sends received tags call) (c : Bool) :
    Ledger int stamp (x.setPending s c) sends received tags call :=
  Ledger.congr h (fun _ _ _ => Iff.rfl) rfl (fun _ _ _ _ => rfl)

theorem log (h : Ledger int stamp x sends received tags none) (hw : x.WF) (f : Sent P M)
    (hf : ∀ d a, x.status f.sender ≠ .sending d a) :
    Ledger int stamp x (sends ++ [f]) received tags (some sends.length) where
  tagged := by
    apply h.tagged.imp
    intro t w ht
    cases t with
    | none => exact ht
    | some j =>
      obtain ⟨e, he, hrest⟩ := ht
      exact ⟨e, by rw [List.getElem?_append_left (lt_of_getElem?_eq_some he), he], hrest⟩
  nodup := h.nodup
  order := by
    apply h.order.imp_of_mem
    intro i j hi hj ho e g he hg
    rw [List.getElem?_append_left (h.lt_length hi)] at he
    rw [List.getElem?_append_left (h.lt_length hj)] at hg
    exact ho e g he hg
  pending p d a hp := by
    obtain ⟨j, e, he, hd, hl, hrest⟩ := h.pending p d a hp
    have hne : f.sender ≠ p := by
      intro hfp
      exact hf d a (hfp ▸ hp)
    exact ⟨j, e, by rw [List.getElem?_append_left (lt_of_getElem?_eq_some he), he], hd,
      (latest_log_of_ne hne).mpr hl, hrest⟩
  total j e he := by
    rcases Nat.lt_or_ge j sends.length with hj | hj
    · rw [List.getElem?_append_left hj] at he
      rcases h.total j e he with ht | ht | ⟨hl, b, hb⟩
      · exact .inl ht
      · cases ht
      · have hne : f.sender ≠ e.sender := by
          intro hfe
          exact hf _ b (hfe ▸ hb)
        exact .inr (.inr ⟨(latest_log_of_ne hne).mpr hl, b, hb⟩)
    · have hlt := lt_of_getElem?_eq_some he
      simp only [List.length_append, List.length_singleton] at hlt
      exact .inr (.inl (by rw [show j = sends.length by omega]))
  call_last j hj := by
    obtain rfl : sends.length = j := Option.some.inj hj
    refine ⟨by simp, fun hmem => ?_, fun e he d a => ?_⟩
    · exact absurd (h.lt_length hmem) (lt_irrefl _)
    · rw [List.getElem?_concat_length] at he
      rw [← Option.some.inj he]
      exact hf d a
  fifo d := by
    apply (h.fifo d).imp_of_mem
    intro p q hp hq hpq i j hi hj
    have hne : ∀ z ∈ x.queue d, f.sender ≠ z := by
      intro z hz hfz
      obtain ⟨b, hb⟩ := (hw.mem_queue d z).mp hz
      exact hf d b (hfz ▸ hb)
    exact hpq i j ((latest_log_of_ne (hne p hp)).mp hi) ((latest_log_of_ne (hne q hq)).mp hj)

private theorem reduceOption_concat_some (l : List (Option Nat)) (j : Nat) :
    (l ++ [some j]).reduceOption = l.reduceOption ++ [j] := by
  simp [List.reduceOption_append]

private theorem reduceOption_concat_none (l : List (Option Nat)) :
    (l ++ [none]).reduceOption = l.reduceOption := by
  simp [List.reduceOption_append]

theorem interrupt (h : Ledger int stamp x sends received tags call) (d : P) (hv : int v) :
    Ledger int stamp x sends (received ++ [(d, v)]) (tags ++ [none]) call := by
  have ht : List.Forall₂ (Tagged int stamp sends) (tags ++ [none]) (received ++ [(d, v)]) :=
    List.rel_append h.tagged (.cons hv .nil)
  have hr := reduceOption_concat_none tags
  exact ⟨ht, hr ▸ h.nodup, hr ▸ h.order, hr ▸ h.pending, hr ▸ h.total, hr ▸ h.call_last, h.fifo⟩

private theorem nodup_concat (h : Ledger int stamp x sends received tags call)
    (hj : j ∉ tags.reduceOption) : (tags ++ [some j]).reduceOption.Nodup := by
  rw [reduceOption_concat_some]
  exact List.nodup_append.mpr ⟨h.nodup, by simp, by
    intro i hi k hk
    rw [List.mem_singleton.mp hk]
    exact fun hij => hj (hij ▸ hi)⟩

private theorem order_concat (h : Ledger int stamp x sends received tags call)
    (he : sends[j]? = some e) (hl : Latest sends e.sender j) (hj : j ∉ tags.reduceOption) :
    (tags ++ [some j]).reduceOption.Pairwise (InOrder sends) := by
  rw [reduceOption_concat_some]
  refine List.pairwise_append.mpr ⟨h.order, by simp, fun i hi k hk => ?_⟩
  rw [List.mem_singleton.mp hk]
  intro f g hf hg hfg
  rw [he] at hg
  obtain rfl := Option.some.inj hg
  have hle := hl.2 i f hf hfg
  have hne : i ≠ j := fun hij => hj (hij ▸ hi)
  omega

private theorem tagged_concat (h : Ledger int stamp x sends received tags call)
    (he : sends[j]? = some e) :
    List.Forall₂ (Tagged int stamp sends) (tags ++ [some j])
      (received ++ [(e.dest, stamp e.sender e.content)]) :=
  List.rel_append h.tagged (.cons ⟨e, he, rfl, rfl⟩ .nil)

theorem deliver (h : Ledger int stamp x sends received tags (some j))
    (he : sends[j]? = some e) (hl : Latest sends e.sender j) :
    Ledger int stamp x sends (received ++ [(e.dest, stamp e.sender e.content)])
      (tags ++ [some j]) none := by
  obtain ⟨-, hj, hcall⟩ := h.call_last j rfl
  refine ⟨h.tagged_concat he, h.nodup_concat hj, h.order_concat he hl hj, fun p d a hp => ?_,
    fun i f hf => ?_, by simp, h.fifo⟩
  · obtain ⟨i, f, hf, hd, hlf, hm, hi⟩ := h.pending p d a hp
    refine ⟨i, f, hf, hd, hlf, hm, ?_⟩
    rw [reduceOption_concat_some, List.mem_append, List.mem_singleton]
    rintro (hi' | hij)
    · exact hi hi'
    · subst hij
      rw [he] at hf
      obtain rfl := Option.some.inj hf
      obtain ⟨g, hg, hgp⟩ := hlf.1
      rw [he] at hg
      obtain rfl := Option.some.inj hg
      exact hcall _ he d a (hgp ▸ hp)
  · rw [reduceOption_concat_some, List.mem_append, List.mem_singleton]
    rcases h.total i f hf with ht | ht | ht
    · exact .inl (.inl ht)
    · exact .inl (.inr (Option.some.inj ht).symm)
    · exact .inr (.inr ht)

theorem enqueue (h : Ledger int stamp x sends received tags (some j)) (hw : x.WF)
    (he : sends[j]? = some e) (hl : Latest sends e.sender j)
    (hm : x.mem e.sender a = stamp e.sender e.content) :
    Ledger int stamp ((x.setStatus e.sender (.sending e.dest a)).setQueue e.dest
      (x.queue e.dest ++ [e.sender])) sends received tags none := by
  obtain ⟨hlast, hj, hcall⟩ := h.call_last j rfl
  have hother : ∀ p, p ≠ e.sender →
      Function.update x.status e.sender (.sending e.dest a) p = x.status p :=
    fun p hp => Function.update_of_ne hp _ _
  refine ⟨h.tagged, h.nodup, h.order, fun p d b hp => ?_, fun i f hf => ?_, by simp,
    fun d => ?_⟩
  · change Function.update x.status e.sender _ p = _ at hp
    by_cases hpe : p = e.sender
    · subst hpe
      rw [Function.update_self] at hp
      cases hp
      exact ⟨j, e, he, rfl, hl, hm, hj⟩
    · rw [hother p hpe] at hp
      exact h.pending p d b hp
  · change _ ∨ _ ∨ _ ∧ ∃ b, Function.update x.status e.sender _ f.sender = _
    rcases h.total i f hf with ht | ht | ⟨hlf, b, hb⟩
    · exact .inl ht
    · obtain rfl := Option.some.inj ht
      rw [he] at hf
      obtain rfl := Option.some.inj hf
      exact .inr (.inr ⟨hl, a, Function.update_self _ _ _⟩)
    · have hne : f.sender ≠ e.sender := fun hfe => hcall e he _ b (hfe ▸ hb)
      exact .inr (.inr ⟨hlf, b, (hother _ hne).trans hb⟩)
  · change (Function.update x.queue e.dest _ d).Pairwise _
    by_cases hd : d = e.dest
    · subst hd
      rw [Function.update_self]
      refine List.pairwise_append.mpr ⟨h.fifo e.dest, by simp, fun p hp q hq i k hi hk => ?_⟩
      rw [List.mem_singleton.mp hq] at hk
      rw [hk.unique hl]
      obtain ⟨⟨g, hg, hgp⟩, -⟩ := hi
      have hlt := lt_of_getElem?_eq_some hg
      obtain ⟨b, hb⟩ := (hw.mem_queue e.dest p).mp hp
      have hij : i ≠ j := by
        rintro rfl
        rw [he] at hg
        obtain rfl := Option.some.inj hg
        exact hcall _ he _ b (hgp ▸ hb)
      omega
    · rw [Function.update_of_ne hd]
      exact h.fifo d

theorem take (h : Ledger int stamp x sends received tags none) {f : P} {b : A}
    (hf : x.status f = .sending r b) (hr : ∀ d a, x.status r ≠ .sending d a) :
    ∃ j, Latest sends f j ∧ Ledger int stamp (x.take r f a) sends
      (received ++ [(r, x.mem f b)]) (tags ++ [some j]) none := by
  obtain ⟨j, e, he, rfl, hl, hm, hj⟩ := h.pending f r b hf
  obtain rfl : e.sender = f := by
    obtain ⟨g, hg, hgf⟩ := hl.1
    rw [he] at hg
    rw [Option.some.inj hg, hgf]
  have ht := Rendezvous.take_eq (r := e.dest) (a := a) hf
  have hstatus : ∀ p d c, (x.take e.dest e.sender a).status p = .sending d c →
      p ≠ e.sender ∧ x.status p = .sending d c := by
    intro p d c hp
    rw [ht] at hp
    change Function.update x.status e.sender _ p = _ at hp
    by_cases hpe : p = e.sender
    · subst hpe
      rw [Function.update_self] at hp
      cases hp
    · rw [Function.update_of_ne hpe] at hp
      exact ⟨hpe, hp⟩
  refine ⟨j, hl, ?_⟩
  rw [hm]
  refine ⟨h.tagged_concat he, h.nodup_concat hj, h.order_concat he hl hj, fun p d c hp => ?_,
    fun i f hf => ?_, by simp, fun d => ?_⟩
  · obtain ⟨hpe, hp⟩ := hstatus p d c hp
    obtain ⟨i, f, hf, hd, hlf, hmem, hi⟩ := h.pending p d c hp
    have hpr : p ≠ e.dest := fun hpd => hr d c (hpd ▸ hp)
    refine ⟨i, f, hf, hd, hlf, ?_, ?_⟩
    · rw [ht, ← hmem]
      change Function.update x.mem e.dest _ p c = _
      rw [Function.update_of_ne hpr]
    · rw [reduceOption_concat_some, List.mem_append, List.mem_singleton]
      rintro (hi' | rfl)
      · exact hi hi'
      · obtain ⟨g, hg, hgp⟩ := hlf.1
        rw [he] at hg
        obtain rfl := Option.some.inj hg
        exact hpe hgp.symm
  · rw [reduceOption_concat_some, List.mem_append, List.mem_singleton]
    rcases h.total i f hf with hi | hi | ⟨hlf, c, hc⟩
    · exact .inl (.inl hi)
    · cases hi
    · by_cases hfe : f.sender = e.sender
      · rw [hfe] at hlf
        exact .inl (.inr (hlf.unique hl))
      · refine .inr (.inr ⟨hlf, c, ?_⟩)
        rw [ht]
        change Function.update x.status e.sender _ f.sender = _
        rw [Function.update_of_ne hfe, hc]
  · rw [ht]
    change (Function.update x.queue e.dest _ d).Pairwise _
    by_cases hd : d = e.dest
    · subst hd
      rw [Function.update_self]
      exact (h.fifo e.dest).sublist List.erase_sublist
    · rw [Function.update_of_ne hd]
      exact h.fifo d

end Ledger

end

end BazingaOS
