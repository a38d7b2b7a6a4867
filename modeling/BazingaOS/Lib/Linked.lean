import Mathlib

/-!
# Intrusive linked queues

A queue threaded through a table: a head pointer and one `next` field per element, with `none`
as the end of the queue.
-/

namespace BazingaOS

variable {α : Type*} {next next' : α → Option α}

/-- Following `next` from the head visits exactly the elements of the list and then ends. -/
def Linked (next : α → Option α) : Option α → List α → Prop
  | h, [] => h = none
  | h, p :: l => h = some p ∧ Linked next (next p) l

@[simp] theorem linked_nil (h : Option α) : Linked next h [] ↔ h = none := Iff.rfl

@[simp] theorem linked_cons (h : Option α) (p : α) (l : List α) :
    Linked next h (p :: l) ↔ h = some p ∧ Linked next (next p) l := Iff.rfl

namespace Linked

theorem unique {h : Option α} {l l' : List α} (hl : Linked next h l) (hl' : Linked next h l') :
    l = l' := by
  induction l generalizing h l' with
  | nil =>
    cases l' with
    | nil => rfl
    | cons q l' => simp_all
  | cons p l ih =>
    cases l' with
    | nil => simp_all
    | cons q l' =>
      have hpq : p = q := Option.some.inj (hl.1.symm.trans hl'.1)
      subst hpq
      rw [ih hl.2 hl'.2]

theorem suffix_of_append {h : Option α} {a b : List α} {p : α} (hl : Linked next h (a ++ p :: b)) :
    Linked next (next p) b := by
  induction a generalizing h with
  | nil => exact hl.2
  | cons q a ih => exact ih hl.2

theorem nodup {h : Option α} {l : List α} (hl : Linked next h l) : l.Nodup := by
  induction l generalizing h with
  | nil => exact List.nodup_nil
  | cons p l ih =>
    refine List.nodup_cons.mpr ⟨fun hp => ?_, ih hl.2⟩
    obtain ⟨a, b, rfl⟩ := List.append_of_mem hp
    have he := unique hl.2 (suffix_of_append hl.2)
    have hlen := congrArg List.length he
    simp only [List.length_append, List.length_cons] at hlen
    omega

theorem congr {h : Option α} {l : List α} (hl : Linked next h l)
    (hn : ∀ p ∈ l, next' p = next p) : Linked next' h l := by
  induction l generalizing h with
  | nil => exact hl
  | cons p l ih =>
    refine ⟨hl.1, ?_⟩
    rw [hn p (by simp)]
    exact ih hl.2 fun q hq => hn q (by simp [hq])

theorem mem_iff_reach {h : Option α} {l : List α} (hl : Linked next h l) (s : α) :
    s ∈ l ↔ ∃ p, h = some p ∧ Relation.ReflTransGen (fun a b => next a = some b) p s := by
  induction l generalizing h with
  | nil =>
    have hn : h = none := hl
    simp [hn]
  | cons q l ih =>
    obtain ⟨hq, hl⟩ := hl
    subst hq
    rw [List.mem_cons, ih hl]
    constructor
    · rintro (rfl | ⟨p, hp, hr⟩)
      · exact ⟨s, rfl, .refl⟩
      · exact ⟨q, rfl, .head hp hr⟩
    · rintro ⟨p, hp, hr⟩
      cases hp
      rcases hr.cases_head with he | ⟨c, hc, hr⟩
      · exact .inl he.symm
      · exact .inr ⟨c, hc, hr⟩

variable [DecidableEq α]

theorem append {h : Option α} {a : List α} {z t : α} (hl : Linked next h (a ++ [z]))
    (ht : t ∉ a ++ [z]) :
    Linked (Function.update (Function.update next z (some t)) t none) h (a ++ [z] ++ [t]) := by
  have hnd := hl.nodup
  induction a generalizing h with
  | nil =>
    have hzt : z ≠ t := by intro he; simp [he] at ht
    simp_all
  | cons p a ih =>
    have hpt : p ≠ t := by intro he; simp [he] at ht
    have hpz : p ≠ z := by intro he; simp [he] at hnd
    refine ⟨hl.1, ?_⟩
    rw [Function.update_of_ne hpt, Function.update_of_ne hpz]
    exact ih hl.2 (fun hm => ht (by simp_all)) (List.nodup_cons.mp hnd).2

theorem unlink {h : Option α} {a b : List α} {z t : α} (hl : Linked next h (a ++ z :: t :: b)) :
    Linked (Function.update (Function.update next z (next t)) t none) h (a ++ z :: b) := by
  have hnd := hl.nodup
  induction a generalizing h with
  | nil =>
    obtain ⟨hz, ht, hb⟩ := hl
    simp only [List.nil_append, List.nodup_cons, List.mem_cons, not_or] at hnd
    refine ⟨hz, ?_⟩
    rw [Function.update_of_ne hnd.1.1, Function.update_self]
    apply hb.congr
    intro q hq
    have hqt : q ≠ t := fun he => hnd.2.1 (he ▸ hq)
    have hqz : q ≠ z := fun he => hnd.1.2 (he ▸ hq)
    rw [Function.update_of_ne hqt, Function.update_of_ne hqz]
  | cons p a ih =>
    have hpt : p ≠ t := by intro he; simp [he] at hnd
    have hpz : p ≠ z := by intro he; simp [he] at hnd
    refine ⟨hl.1, ?_⟩
    rw [Function.update_of_ne hpt, Function.update_of_ne hpz]
    exact ih hl.2 (List.nodup_cons.mp hnd).2

theorem update_of_notMem {h : Option α} {l : List α} {p : α} {v : Option α}
    (hl : Linked next h l) (hp : p ∉ l) : Linked (Function.update next p v) h l :=
  hl.congr fun q hq => by
    have hqp : q ≠ p := fun he => hp (he ▸ hq)
    exact Function.update_of_ne hqp _ _

end Linked

end BazingaOS
