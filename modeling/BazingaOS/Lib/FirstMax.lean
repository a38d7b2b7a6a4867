import Mathlib

/-!
# The first greatest element of a list

A loop over a list that keeps an element with its key, and replaces it by each candidate whose key
is greater, ends with the first of the candidates with the greatest key, or with what it began
with.
-/

namespace BazingaOS

variable {α κ : Type} [LinearOrder κ]

/-- Of the candidates in the list, `p` is the first with the greatest key. -/
def FirstMax (cand : α → Prop) (key : α → κ) (l : List α) (p : α) : Prop :=
  ∃ before after, l = before ++ p :: after ∧ cand p ∧
    (∀ q ∈ before, cand q → key q < key p) ∧ ∀ q ∈ after, cand q → key q ≤ key p

namespace FirstMax

variable {cand : α → Prop} {key : α → κ} {l : List α} {p q : α}

theorem candidate (h : FirstMax cand key l p) : cand p := by
  obtain ⟨_, _, -, hp, -⟩ := h
  exact hp

theorem le (h : FirstMax cand key l p) (hq : q ∈ l) (hc : cand q) : key q ≤ key p := by
  obtain ⟨before, after, rfl, -, hbefore, hafter⟩ := h
  rcases List.mem_append.mp hq with hq | hq
  · exact (hbefore q hq hc).le
  · rcases List.mem_cons.mp hq with rfl | hq
    · exact le_refl _
    · exact hafter q hq hc

theorem lt [LinearOrder α] (h : FirstMax cand key l p) (hl : l.Pairwise (· < ·)) (hq : q ∈ l)
    (hqp : q < p) (hc : cand q) : key q < key p := by
  obtain ⟨before, after, rfl, -, hbefore, -⟩ := h
  have hsorted : ∀ b ∈ after, p < b := (List.pairwise_cons.mp (List.pairwise_append.mp hl).2.1).1
  rcases List.mem_append.mp hq with hq | hq
  · exact hbefore q hq hc
  · rcases List.mem_cons.mp hq with rfl | hq
    · exact absurd hqp (lt_irrefl _)
    · exact absurd (hsorted q hq) (not_lt_of_gt hqp)

theorem cons (h : FirstMax cand key l p) (hq : cand q → key q < key p) :
    FirstMax cand key (q :: l) p := by
  obtain ⟨before, after, rfl, hp, hbefore, hafter⟩ := h
  refine ⟨q :: before, after, rfl, hp, ?_, hafter⟩
  intro b hb
  rcases List.mem_cons.mp hb with rfl | hb
  · exact hq
  · exact hbefore b hb

theorem head (hp : cand p) (h : ∀ q ∈ l, cand q → key q ≤ key p) :
    FirstMax cand key (p :: l) p :=
  ⟨[], l, rfl, hp, fun _ hq => absurd hq List.not_mem_nil, h⟩

end FirstMax

section Keep

variable (cand : α → Prop) [DecidablePred cand] (key : α → κ)

/-- The greater of what is kept and a candidate. -/
def keepGreater (a : κ × α) (p : α) : κ × α := if cand p ∧ a.1 < key p then (key p, p) else a

theorem foldl_keepGreater (l : List α) (a : κ × α) :
    (l.foldl (keepGreater cand key) a = a ∧ ∀ p ∈ l, cand p → key p ≤ a.1) ∨
      ∃ p, FirstMax cand key l p ∧ a.1 < key p ∧ l.foldl (keepGreater cand key) a = (key p, p) := by
  induction l generalizing a with
  | nil => exact Or.inl ⟨rfl, fun p hp => absurd hp List.not_mem_nil⟩
  | cons q l ih =>
    rw [List.foldl_cons]
    by_cases hq : cand q ∧ a.1 < key q
    · rw [keepGreater, if_pos hq]
      right
      rcases ih (key q, q) with ⟨hkeep, hall⟩ | ⟨p, hp, hlt, he⟩
      · exact ⟨q, .head hq.1 hall, hq.2, hkeep⟩
      · exact ⟨p, hp.cons fun _ => hlt, hq.2.trans hlt, he⟩
    · rw [keepGreater, if_neg hq]
      have hle : cand q → key q ≤ a.1 := fun hc => not_lt.mp fun hlt => hq ⟨hc, hlt⟩
      rcases ih a with ⟨hkeep, hall⟩ | ⟨p, hp, hlt, he⟩
      · refine Or.inl ⟨hkeep, ?_⟩
        intro p hp
        rcases List.mem_cons.mp hp with rfl | hp
        · exact hle
        · exact hall p hp
      · exact Or.inr ⟨p, hp.cons fun hc => (hle hc).trans_lt hlt, hlt, he⟩

end Keep

end BazingaOS
