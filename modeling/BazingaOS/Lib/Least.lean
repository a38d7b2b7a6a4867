import Mathlib

/-!
# The least value of a loop

`leastBelow p f n b` keeps the least of `b` and the values `f i` of the rounds below `n` in which
`p` holds. A loop that makes `n` rounds instead of `m` finds the same as long as the rounds between
the two counts bring nothing that is less than what the rounds below both counts bring. For the
greatest value the same holds in the dual order.
-/

namespace BazingaOS

variable {α : Type} [LinearOrder α] {p : Nat → Prop} [DecidablePred p] {f : Nat → α} {n m : Nat}
  {b : α}

def leastBelow (p : Nat → Prop) [DecidablePred p] (f : Nat → α) (n : Nat) (b : α) : α :=
  (List.range n).foldl (fun x i => if p i then min x (f i) else x) b

/-- The rounds between `n` and `m` bring nothing new. -/
def NothingBetween (p : Nat → Prop) (f : Nat → α) (n m : Nat) : Prop :=
  ∀ i, min n m ≤ i → i < max n m → p i → ∃ j < min n m, p j ∧ f j ≤ f i

theorem leastBelow_succ : leastBelow p f (n + 1) b =
    if p n then min (leastBelow p f n b) (f n) else leastBelow p f n b := by
  simp [leastBelow, List.range_succ]

theorem leastBelow_le_of_lt {i : Nat} (hi : i < n) (hp : p i) : leastBelow p f n b ≤ f i := by
  induction n with
  | zero => exact absurd hi (Nat.not_lt_zero i)
  | succ n ih =>
    rw [leastBelow_succ]
    rcases Nat.lt_succ_iff_lt_or_eq.mp hi with hlt | rfl
    · split
      · exact (min_le_left _ _).trans (ih hlt)
      · exact ih hlt
    · rw [if_pos hp]
      exact min_le_right _ _

theorem leastBelow_mem : leastBelow p f n b = b ∨ ∃ i < n, p i ∧ leastBelow p f n b = f i := by
  induction n with
  | zero => exact .inl rfl
  | succ n ih =>
    have hrest : leastBelow p f n b = b ∨ ∃ i < n + 1, p i ∧ leastBelow p f n b = f i := by
      rcases ih with h | ⟨i, hi, hp, h⟩
      · exact .inl h
      · exact .inr ⟨i, Nat.lt_succ_of_lt hi, hp, h⟩
    rw [leastBelow_succ]
    by_cases hp : p n
    · rw [if_pos hp]
      rcases min_choice (leastBelow p f n b) (f n) with h | h
      · rw [h]
        exact hrest
      · rw [h]
        exact .inr ⟨n, Nat.lt_succ_self n, hp, rfl⟩
    · rw [if_neg hp]
      exact hrest

/-- A least value that is less than what the loop began with comes from a round below both
counts. -/
theorem nothingBetween_of_isLeast (h : IsLeast {x | ∃ i < m, p i ∧ x = f i} (leastBelow p f n b))
    (hne : leastBelow p f n b ≠ b) : NothingBetween p f n m := by
  intro i hlow hhigh hp
  obtain ⟨⟨j, hj, hpj, heq⟩, hleast⟩ := h
  rcases Nat.le_total n m with hnm | hmn
  · rw [min_eq_left hnm]
    rw [max_eq_right hnm] at hhigh
    obtain ⟨k, hk, hpk, heq'⟩ := leastBelow_mem.resolve_left hne
    exact ⟨k, hk, hpk, heq' ▸ hleast ⟨i, hhigh, hp, rfl⟩⟩
  · rw [min_eq_right hmn]
    rw [max_eq_left hmn] at hhigh
    exact ⟨j, hj, hpj, heq ▸ leastBelow_le_of_lt hhigh hp⟩

omit [DecidablePred p] in
theorem NothingBetween.exists (h : NothingBetween p f n m) (hp : ∃ i < m, p i) :
    ∃ i < min n m, p i := by
  obtain ⟨i, hi, hpi⟩ := hp
  by_cases hlow : i < min n m
  · exact ⟨i, hlow, hpi⟩
  · obtain ⟨j, hj, hpj, -⟩ := h i (not_lt.mp hlow) (lt_max_of_lt_right hi) hpi
    exact ⟨j, hj, hpj⟩

theorem NothingBetween.isLeast (h : NothingBetween p f n m) (hb : ∀ i, f i ≤ b)
    (hp : ∃ i < m, p i) : IsLeast {x | ∃ i < m, p i ∧ x = f i} (leastBelow p f n b) := by
  constructor
  · rcases leastBelow_mem (p := p) (f := f) (n := n) (b := b) with heq | ⟨i, hi, hpi, heq⟩
    · obtain ⟨i, hi, hpi⟩ := h.exists hp
      have hle := leastBelow_le_of_lt (f := f) (b := b) (lt_of_lt_of_le hi (min_le_left n m)) hpi
      exact ⟨i, lt_of_lt_of_le hi (min_le_right n m), hpi, le_antisymm hle ((hb i).trans_eq heq.symm)⟩
    · by_cases him : i < m
      · exact ⟨i, him, hpi, heq⟩
      · have hlow : min n m ≤ i := (min_le_right n m).trans (not_lt.mp him)
        obtain ⟨j, hj, hpj, hle⟩ := h i hlow (lt_max_of_lt_left hi) hpi
        have hle' := leastBelow_le_of_lt (f := f) (b := b) (lt_of_lt_of_le hj (min_le_left n m)) hpj
        exact ⟨j, lt_of_lt_of_le hj (min_le_right n m), hpj, le_antisymm hle' (heq ▸ hle)⟩
  · rintro _ ⟨i, hi, hpi, rfl⟩
    by_cases hin : i < n
    · exact leastBelow_le_of_lt hin hpi
    · have hlow : min n m ≤ i := (min_le_left n m).trans (not_lt.mp hin)
      obtain ⟨j, hj, hpj, hle⟩ := h i hlow (lt_max_of_lt_right hi) hpi
      exact (leastBelow_le_of_lt (lt_of_lt_of_le hj (min_le_left n m)) hpj).trans hle

end BazingaOS
