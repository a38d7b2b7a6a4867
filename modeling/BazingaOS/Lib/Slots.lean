import Mathlib

/-!
# Tables of slots

A table has slots that are free or hold a key and a value. While no key is in two of the first `n`
slots, they are a partial map from keys to values: filling a free slot adds a key to the map and
freeing a slot takes one out of it.
-/

namespace BazingaOS

abbrev Slots (κ ν : Type) := Nat → Option (κ × ν)

namespace Slots

variable {κ ν : Type} {T : Slots κ ν} {n t : Nat} {x y : κ} {v : ν}

/-- No key is in two of the first `n` slots. -/
def Distinct (T : Slots κ ν) (n : Nat) : Prop :=
  ∀ t u x v w, t < n → u < n → T t = some (x, v) → T u = some (x, w) → t = u

theorem Distinct.fill (h : Distinct T n) (hx : ∀ u w, u < n → T u ≠ some (x, w)) :
    Distinct (Function.update T t (some (x, v))) n := by
  intro u₁ u₂ y w₁ w₂ h₁ h₂ hT₁ hT₂
  by_cases e₁ : u₁ = t
  · by_cases e₂ : u₂ = t
    · rw [e₁, e₂]
    · rw [Function.update_of_ne e₂] at hT₂
      rw [e₁, Function.update_self] at hT₁
      cases hT₁
      exact absurd hT₂ (hx u₂ w₂ h₂)
  · rw [Function.update_of_ne e₁] at hT₁
    by_cases e₂ : u₂ = t
    · rw [e₂, Function.update_self] at hT₂
      cases hT₂
      exact absurd hT₁ (hx u₁ w₁ h₁)
    · rw [Function.update_of_ne e₂] at hT₂
      exact h u₁ u₂ y w₁ w₂ h₁ h₂ hT₁ hT₂

theorem Distinct.free (h : Distinct T n) (t : Nat) : Distinct (Function.update T t none) n := by
  intro u₁ u₂ y w₁ w₂ h₁ h₂ hT₁ hT₂
  by_cases e₁ : u₁ = t
  · rw [e₁, Function.update_self] at hT₁
    cases hT₁
  · by_cases e₂ : u₂ = t
    · rw [e₂, Function.update_self] at hT₂
      cases hT₂
    · rw [Function.update_of_ne e₁] at hT₁
      rw [Function.update_of_ne e₂] at hT₂
      exact h u₁ u₂ y w₁ w₂ h₁ h₂ hT₁ hT₂

variable [DecidableEq κ]

/-- The value in the first of the `n` slots that has the key `x`. -/
def find (T : Slots κ ν) (n : Nat) (x : κ) : Option ν :=
  (List.range n).findSome? fun t => (T t).bind fun e => if e.1 = x then some e.2 else none

private theorem bind_eq_some_iff' :
    ((T t).bind fun e => if e.1 = x then some e.2 else none) = some v ↔ T t = some (x, v) := by
  cases hT : T t with
  | none => simp
  | some e =>
    obtain ⟨y, w⟩ := e
    by_cases h : y = x
    · simp [h]
    · simp [h]

theorem find_eq_none_iff : find T n x = none ↔ ∀ t v, t < n → T t ≠ some (x, v) := by
  rw [find, List.findSome?_eq_none_iff]
  constructor
  · intro h t v ht hT
    have hnone := h t (List.mem_range.mpr ht)
    rw [bind_eq_some_iff'.mpr hT] at hnone
    cases hnone
  · intro h t ht
    rw [Option.eq_none_iff_forall_ne_some]
    intro v hv
    exact h t v (List.mem_range.mp ht) (bind_eq_some_iff'.mp hv)

theorem exists_of_find (h : find T n x = some v) : ∃ t, t < n ∧ T t = some (x, v) := by
  obtain ⟨t, ht, hv⟩ := List.exists_of_findSome?_eq_some h
  exact ⟨t, List.mem_range.mp ht, bind_eq_some_iff'.mp hv⟩

theorem Distinct.find_eq_some_iff (h : Distinct T n) :
    find T n x = some v ↔ ∃ t, t < n ∧ T t = some (x, v) := by
  refine ⟨exists_of_find, ?_⟩
  rintro ⟨t, ht, hT⟩
  cases hf : find T n x with
  | none => exact absurd hT (find_eq_none_iff.mp hf t v ht)
  | some w =>
    obtain ⟨u, hu, hTu⟩ := exists_of_find hf
    obtain rfl := h t u x v w ht hu hT hTu
    rw [hT] at hTu
    cases hTu
    rfl

theorem Distinct.find_congr {T' : Slots κ ν} (h : Distinct T n) (h' : Distinct T' n)
    (hx : ∀ v, (∃ t, t < n ∧ T' t = some (x, v)) ↔ ∃ t, t < n ∧ T t = some (x, v)) :
    find T' n x = find T n x := by
  ext v
  rw [h'.find_eq_some_iff, h.find_eq_some_iff]
  exact hx v

theorem Distinct.find_fill_self (h : Distinct T n) (ht : t < n)
    (hx : ∀ u w, u < n → T u ≠ some (x, w)) :
    find (Function.update T t (some (x, v))) n x = some v :=
  (h.fill hx).find_eq_some_iff.mpr ⟨t, ht, Function.update_self _ _ _⟩

theorem Distinct.find_fill_of_ne (h : Distinct T n) (hfree : T t = none)
    (hx : ∀ u w, u < n → T u ≠ some (x, w)) (hne : y ≠ x) :
    find (Function.update T t (some (x, v))) n y = find T n y := by
  apply h.find_congr (h.fill hx)
  intro w
  constructor
  · rintro ⟨u, hu, hT⟩
    by_cases e : u = t
    · rw [e, Function.update_self] at hT
      cases hT
      exact absurd rfl hne
    · rw [Function.update_of_ne e] at hT
      exact ⟨u, hu, hT⟩
  · rintro ⟨u, hu, hT⟩
    have e : u ≠ t := by
      rintro rfl
      rw [hfree] at hT
      cases hT
    exact ⟨u, hu, by rw [Function.update_of_ne e, hT]⟩

theorem Distinct.find_free_self (h : Distinct T n) (ht : t < n) (hT : T t = some (x, v)) :
    find (Function.update T t none) n x = none := by
  rw [find_eq_none_iff]
  intro u w hu hTu
  by_cases e : u = t
  · rw [e, Function.update_self] at hTu
    cases hTu
  · rw [Function.update_of_ne e] at hTu
    exact e (h u t x w v hu ht hTu hT)

theorem Distinct.find_free_of_ne (h : Distinct T n) (hT : T t = some (x, v)) (hne : y ≠ x) :
    find (Function.update T t none) n y = find T n y := by
  apply h.find_congr (h.free t)
  intro w
  constructor
  · rintro ⟨u, hu, hTu⟩
    by_cases e : u = t
    · rw [e, Function.update_self] at hTu
      cases hTu
    · rw [Function.update_of_ne e] at hTu
      exact ⟨u, hu, hTu⟩
  · rintro ⟨u, hu, hTu⟩
    have e : u ≠ t := by
      rintro rfl
      rw [hT] at hTu
      cases hTu
      exact hne rfl
    exact ⟨u, hu, by rw [Function.update_of_ne e, hTu]⟩

end Slots

theorem update_cases {ι α : Type*} [DecidableEq ι] {t : ι → α} {m n : ι} {i : α} {P : α → Prop}
    (hsame : m = n → P i) (hother : m ≠ n → P (t m)) : P (Function.update t n i m) := by
  by_cases h : m = n
  · subst h
    rw [Function.update_self]
    exact hsame rfl
  · rw [Function.update_of_ne h]
    exact hother h

theorem sum_update_add {ι α M : Type*} [Fintype ι] [DecidableEq ι] [AddCommMonoid M] (t : ι → α)
    (n : ι) (i : α) (g : α → M) :
    ∑ m, g (Function.update t n i m) + g (t n) = ∑ m, g (t m) + g i := by
  have hother : ∑ m ∈ Finset.univ.erase n, g (Function.update t n i m) =
      ∑ m ∈ Finset.univ.erase n, g (t m) := by
    apply Finset.sum_congr rfl
    intro m hm
    rw [Function.update_of_ne (Finset.ne_of_mem_erase hm)]
  rw [← Finset.add_sum_erase Finset.univ _ (Finset.mem_univ n),
    ← Finset.add_sum_erase Finset.univ (fun m => g (t m)) (Finset.mem_univ n), hother,
    Function.update_self]
  ac_rfl

end BazingaOS
