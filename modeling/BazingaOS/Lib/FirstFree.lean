import Mathlib

/-!
# The smallest indices with a property

Index `i` is among the first `n` with a property if fewer than `n` indices below it have it.
-/

namespace BazingaOS

variable (P : Nat → Prop) [DecidablePred P]

/-- `i` has the property and is among the first `n` that have it. -/
def AmongFirst (n i : Nat) : Prop := P i ∧ Nat.count P i < n

instance (n : Nat) : DecidablePred (AmongFirst P n) :=
  fun i => inferInstanceAs (Decidable (P i ∧ Nat.count P i < n))

variable {P} {n i j K N : Nat}

theorem AmongFirst.lt (h : AmongFirst P n i) (hn : n ≤ Nat.count P N) : i < N := by
  by_contra hge
  have hmono := Nat.count_monotone P (Nat.le_of_not_lt hge)
  have hlt := h.2
  omega

theorem count_amongFirst (n N : Nat) :
    Nat.count (AmongFirst P n) N = min n (Nat.count P N) := by
  induction N with
  | zero => simp
  | succ N ih =>
    rw [Nat.count_succ, Nat.count_succ, ih]
    by_cases hP : P N
    · by_cases hlt : Nat.count P N < n
      · rw [if_pos (show AmongFirst P n N from ⟨hP, hlt⟩), if_pos hP]
        omega
      · rw [if_neg fun h => hlt h.2, if_pos hP]
        omega
    · rw [if_neg fun h => hP h.1, if_neg hP]
      omega

theorem exists_amongFirst_ge (hK : Nat.count P K < n) (hN : n ≤ Nat.count P N) :
    ∃ i, K ≤ i ∧ i < N ∧ AmongFirst P n i := by
  induction N with
  | zero =>
    rw [Nat.count_zero] at hN
    omega
  | succ N ih =>
    rcases Nat.lt_or_ge (Nat.count P N) n with hlt | hge
    · have hP : P N := by
        by_contra hn
        rw [Nat.count_succ, if_neg hn] at hN
        omega
      refine ⟨N, ?_, Nat.lt_succ_self N, hP, hlt⟩
      by_contra hNK
      have hmono := Nat.count_monotone P (show N + 1 ≤ K by omega)
      omega
    · obtain ⟨i, hKi, hiN, hi⟩ := ih hge
      exact ⟨i, hKi, Nat.lt_succ_of_lt hiN, hi⟩

theorem forall_amongFirst_lt_iff (hN : n ≤ Nat.count P N) :
    (∀ i, i < N → AmongFirst P n i → i < K) ↔ n ≤ Nat.count P K := by
  constructor
  · intro h
    by_contra hlt
    obtain ⟨i, hKi, hiN, hi⟩ := exists_amongFirst_ge (Nat.lt_of_not_le hlt) hN
    exact absurd (h i hiN hi) (Nat.not_lt.mpr hKi)
  · intro hle i _ hi
    exact hi.lt hle

theorem count_of_above {c : Nat} (h : ∀ i, i < N → (P i ↔ c < i)) :
    Nat.count P N = N - (c + 1) := by
  induction N with
  | zero => rw [Nat.count_zero, Nat.zero_sub]
  | succ N ih =>
    have hN := h N (Nat.lt_succ_self N)
    rw [Nat.count_succ, ih fun i hi => h i (Nat.lt_succ_of_lt hi)]
    by_cases hlt : c < N
    · rw [if_pos (hN.mpr hlt)]
      omega
    · rw [if_neg fun hp => hlt (hN.mp hp)]
      omega

end BazingaOS
