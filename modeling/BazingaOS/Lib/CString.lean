import BazingaOS.Lib.Bytes

/-!
# Zero-terminated texts

`IsCString m a l` says that the text `l` stands in the memory `m` from `a` on, with a zero behind it
and none inside.
-/

namespace BazingaOS

structure IsCString (m : Bytes) (a : Nat) (l : List UInt8) : Prop where
  bytes : ∀ i (h : i < l.length), m (a + i) = l[i]
  zero : m (a + l.length) = 0
  ne_zero : 0 ∉ l

namespace IsCString

variable {m m' : Bytes} {a : Nat} {c : UInt8} {l l' : List UInt8}

theorem nil_iff : IsCString m a [] ↔ m a = 0 := by
  constructor
  · intro h
    exact h.zero
  · intro h
    exact ⟨fun i hi => absurd hi (Nat.not_lt_zero i), h, List.not_mem_nil⟩

theorem cons_iff : IsCString m a (c :: l) ↔ m a = c ∧ c ≠ 0 ∧ IsCString m (a + 1) l := by
  have hadd : ∀ i, a + (i + 1) = a + 1 + i := by
    intro i
    omega
  constructor
  · intro h
    have hne : ∀ x ∈ c :: l, x ≠ 0 := fun x hx h0 => h.ne_zero (h0 ▸ hx)
    refine ⟨h.bytes 0 (by simp), hne c (by simp), ?_, ?_, ?_⟩
    · intro i hi
      rw [← hadd]
      exact h.bytes (i + 1) (by simpa using hi)
    · rw [← hadd]
      exact h.zero
    · intro h0
      exact hne 0 (List.mem_cons_of_mem c h0) rfl
  · rintro ⟨hc, hne, h⟩
    refine ⟨?_, ?_, ?_⟩
    · intro i hi
      cases i with
      | zero => exact hc
      | succ i =>
        rw [hadd]
        exact h.bytes i (by simpa using hi)
    · rw [List.length_cons, hadd]
      exact h.zero
    · rw [List.mem_cons, not_or]
      exact ⟨Ne.symm hne, h.ne_zero⟩

theorem unique (h : IsCString m a l) (h' : IsCString m a l') : l = l' := by
  induction l generalizing a l' with
  | nil =>
    cases l' with
    | nil => rfl
    | cons c' l' =>
      obtain ⟨hc, hne, -⟩ := cons_iff.mp h'
      exact absurd (hc.symm.trans (nil_iff.mp h)) hne
  | cons c l ih =>
    obtain ⟨hc, hne, hl⟩ := cons_iff.mp h
    cases l' with
    | nil => exact absurd (hc.symm.trans (nil_iff.mp h')) hne
    | cons c' l' =>
      obtain ⟨hc', -, hl'⟩ := cons_iff.mp h'
      rw [← hc, hc', ih hl hl']

theorem congr (h : IsCString m a l) (heq : ∀ i, i ≤ l.length → m' (a + i) = m (a + i)) :
    IsCString m' a l := by
  refine ⟨?_, ?_, h.ne_zero⟩
  · intro i hi
    rw [heq i (Nat.le_of_lt hi)]
    exact h.bytes i hi
  · rw [heq _ (Nat.le_refl _)]
    exact h.zero

theorem putBytes (hl : 0 ∉ l) : IsCString (putBytes m a (l ++ [0])) a l := by
  have hlen : (l ++ [0]).length = l.length + 1 := by simp
  refine ⟨?_, ?_, hl⟩
  · intro i hi
    rw [putBytes_add (l := l ++ [0]) (by omega), List.getElem_append_left hi]
  · rw [putBytes_add (l := l ++ [0]) (by omega), List.getElem_append_right (Nat.le_refl _)]
    simp

theorem update {p : Nat} (h : IsCString m a l)
    (hp : p < a ∨ a + l.length < p) : IsCString (Function.update m p c) a l := by
  apply h.congr
  intro i hi
  exact Function.update_of_ne (by omega) _ _

theorem cut (h : IsCString m a (l ++ l')) :
    IsCString (Function.update m (a + l.length) 0) a l := by
  refine ⟨?_, Function.update_self .., ?_⟩
  · intro i hi
    rw [Function.update_of_ne (by omega), h.bytes i (by rw [List.length_append]; omega),
      List.getElem_append_left hi]
  · intro hzero
    exact h.ne_zero (List.mem_append_left _ hzero)

theorem drop (h : IsCString m a (l ++ l')) : IsCString m (a + l.length) l' := by
  induction l generalizing a with
  | nil => exact h
  | cons c l ih =>
    rw [List.length_cons, Nat.add_comm l.length, ← Nat.add_assoc]
    exact ih (cons_iff.mp h).2.2

theorem tail (h : IsCString m a (c :: l)) : IsCString m (a + 1) l := (cons_iff.mp h).2.2

theorem head (h : IsCString m a l) : m a = l.headD 0 := by
  cases l with
  | nil => exact nil_iff.mp h
  | cons c l => exact (cons_iff.mp h).1

end IsCString

end BazingaOS
