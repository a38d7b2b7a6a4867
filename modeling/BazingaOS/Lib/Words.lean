import Mathlib

/-!
# Words of a text

The words of a list are its maximal runs of elements that are not separators.
-/

namespace BazingaOS

section Words

variable {α : Type*} {sep : α → Bool} {a : α} {w l : List α}

def words (sep : α → Bool) (l : List α) : List (List α) :=
  (l.splitOnP sep).filter fun w => !w.isEmpty

theorem words_nil : words sep [] = [] := rfl

theorem words_cons_of_sep (ha : sep a = true) : words sep (a :: l) = words sep l := by
  rw [words, List.splitOnP_cons_eq_if_modifyHead, if_pos ha]
  rfl

theorem words_of_no_sep (hw : ∀ x ∈ w, sep x = false) (hne : w ≠ []) : words sep w = [w] := by
  have hsingle : w.splitOnP sep = [w] := List.splitOnP_eq_singleton hw
  rw [words, hsingle, List.filter_cons_of_pos (by simpa using hne), List.filter_nil]

theorem words_append_sep (hw : ∀ x ∈ w, sep x = false) (hne : w ≠ []) (ha : sep a = true) :
    words sep (w ++ a :: l) = w :: words sep l := by
  have hfirst : (w ++ a :: l).splitOnP sep = w :: l.splitOnP sep :=
    List.splitOnP_append_cons_of_forall_mem hw a ha l
  rw [words, hfirst, List.filter_cons_of_pos (by simpa using hne), words]

end Words

end BazingaOS
