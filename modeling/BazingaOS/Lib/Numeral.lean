import Mathlib

/-!
# Numerals

The text of a number in a base of at most 36, the highest digit first. `Canonical` texts have no
leading zeros and write the digits above 9 as capital letters; `numeralValue` reads a text back.
Every number has exactly one canonical text, `numeral`. `digitText` is the same with other
characters for the digits.
-/

namespace BazingaOS

def digitChar (d : Nat) : UInt8 := UInt8.ofNat (if d < 10 then d + 48 else d + 55)

def digitValue (c : UInt8) : Nat := if c.toNat < 58 then c.toNat - 48 else c.toNat - 55

/-- The digits of `n` in base `b`, each written by `f`. -/
def digitText (f : Nat → UInt8) (b n : Nat) : List UInt8 :=
  if n = 0 then [f 0] else ((Nat.digits b n).map f).reverse

def numeral (b n : Nat) : List UInt8 := digitText digitChar b n

def numeralValue (b : Nat) (l : List UInt8) : Nat := l.foldl (fun v c => v * b + digitValue c) 0

structure Canonical (b : Nat) (l : List UInt8) : Prop where
  digits : ∀ c ∈ l, ∃ d < b, c = digitChar d
  ne_nil : l ≠ []
  head : l.head? = some (digitChar 0) → l = [digitChar 0]

/-- The text `l` is the canonical numeral of `n`. -/
structure IsNumeral (b n : Nat) (l : List UInt8) : Prop extends Canonical b l where
  value : numeralValue b l = n

variable {b n d : Nat} {l : List UInt8} {f : Nat → UInt8}

theorem digitChar_toNat (h : d < 36) : (digitChar d).toNat = if d < 10 then d + 48 else d + 55 := by
  unfold digitChar
  rw [UInt8.toNat_ofNat']
  split <;> omega

@[simp] theorem digitValue_digitChar (h : d < 36) : digitValue (digitChar d) = d := by
  unfold digitValue
  rw [digitChar_toNat h]
  split <;> split <;> omega

theorem digitChar_inj {e : Nat} (hd : d < 36) (he : e < 36) (h : digitChar d = digitChar e) :
    d = e := by
  rw [← digitValue_digitChar hd, h, digitValue_digitChar he]

section DigitText

theorem digitText_of_lt (h : n < b) : digitText f b n = [f n] := by
  unfold digitText
  by_cases hn : n = 0
  · rw [if_pos hn, hn]
  · rw [if_neg hn, Nat.digits_of_lt b n hn h]
    simp

theorem digitText_step (hb : 2 ≤ b) (h : b ≤ n) :
    digitText f b n = digitText f b (n / b) ++ [f (n % b)] := by
  have hn : 0 < n := by omega
  have hq : n / b ≠ 0 := (Nat.div_pos h (by omega)).ne'
  unfold digitText
  rw [if_neg hn.ne', if_neg hq, Nat.digits_def' hb hn]
  simp

theorem digitText_ne_nil : digitText f b n ≠ [] := by
  unfold digitText
  split
  · simp
  · rename_i hn
    simp [Nat.digits_ne_nil_iff_ne_zero.mpr hn]

theorem mem_digitText {c : UInt8} (hb : 2 ≤ b) (hc : c ∈ digitText f b n) : ∃ d < b, c = f d := by
  unfold digitText at hc
  split at hc
  · exact ⟨0, by omega, by simpa using hc⟩
  · simp only [List.mem_reverse, List.mem_map] at hc
    obtain ⟨d, hd, rfl⟩ := hc
    exact ⟨d, Nat.digits_lt_base hb hd, rfl⟩

theorem digitText_length_le {k : Nat} (hb : 2 ≤ b) (hk : 0 < k) (h : n < b ^ k) :
    (digitText f b n).length ≤ k := by
  unfold digitText
  split
  · exact hk
  · simpa using Nat.digits_length_le_iff hb n |>.mpr h

theorem digitText_length_of_ge {k : Nat} (hb : 2 ≤ b) (h : b ^ k ≤ n) :
    k < (digitText f b n).length := by
  have hn : n ≠ 0 := (Nat.lt_of_lt_of_le (Nat.pow_pos (by omega)) h).ne'
  unfold digitText
  rw [if_neg hn, List.length_reverse, List.length_map]
  exact (Nat.lt_digits_length_iff hb n).mpr h

end DigitText

section Value

theorem numeralValue_append (c : UInt8) :
    numeralValue b (l ++ [c]) = numeralValue b l * b + digitValue c := by
  simp [numeralValue]

theorem numeralValue_eq_ofDigits :
    numeralValue b l = Nat.ofDigits b (l.map digitValue).reverse := by
  induction l using List.reverseRecOn with
  | nil => rfl
  | append_singleton l c ih =>
    rw [numeralValue_append, ih, List.map_append, List.reverse_append]
    simp only [List.map_cons, List.map_nil, List.reverse_singleton, List.singleton_append,
      Nat.ofDigits_cons]
    ring

theorem map_digitValue_digitChar {ds : List Nat} (h : ∀ d ∈ ds, d < 36) :
    (ds.map digitChar).map digitValue = ds := by
  rw [List.map_map, List.map_congr_left (g := id), List.map_id]
  intro d hd
  exact digitValue_digitChar (h d hd)

theorem numeralValue_numeral (hb : 2 ≤ b) (hb' : b ≤ 36) : numeralValue b (numeral b n) = n := by
  unfold numeral digitText
  split
  · rename_i hn
    rw [hn]
    simp [numeralValue]
  · rw [numeralValue_eq_ofDigits, List.map_reverse, List.reverse_reverse, map_digitValue_digitChar,
      Nat.ofDigits_digits]
    intro d hd
    exact Nat.lt_of_lt_of_le (Nat.digits_lt_base hb hd) hb'

theorem isNumeral_numeral (hb : 2 ≤ b) (hb' : b ≤ 36) : IsNumeral b n (numeral b n) where
  digits c hc := mem_digitText hb hc
  ne_nil := digitText_ne_nil
  head h := by
    unfold numeral digitText at h ⊢
    split at h
    · rename_i hn
      rw [if_pos hn]
    · rename_i hn
      -- the highest digit of a number that is not zero is not zero
      have hlast := Nat.getLast_digit_ne_zero b hn
      rw [List.head?_reverse, List.getLast?_map, List.getLast?_eq_some_getLast
        (Nat.digits_ne_nil_iff_ne_zero.mpr hn)] at h
      have hlt := Nat.digits_lt_base hb
        (List.getLast_mem (Nat.digits_ne_nil_iff_ne_zero.mpr hn))
      exact absurd (digitChar_inj (by omega) (by omega) (Option.some.inj h)) hlast
  value := numeralValue_numeral hb hb'

theorem Canonical.eq_numeral (h : Canonical b l) (hb : 2 ≤ b) (hb' : b ≤ 36) :
    l = numeral b (numeralValue b l) := by
  have hchar : ∀ c ∈ l, digitChar (digitValue c) = c ∧ digitValue c < b := by
    intro c hc
    obtain ⟨d, hd, rfl⟩ := h.digits c hc
    rw [digitValue_digitChar (by omega)]
    exact ⟨rfl, hd⟩
  have hmap : (l.map digitValue).map digitChar = l := by
    rw [List.map_map, List.map_congr_left (g := id), List.map_id]
    intro c hc
    exact (hchar c hc).1
  obtain ⟨c, t, rfl⟩ := List.exists_cons_of_ne_nil h.ne_nil
  by_cases hz : digitValue c = 0
  · have hc := (hchar c List.mem_cons_self).1
    rw [hz] at hc
    have hl := h.head (by rw [← hc]; rfl)
    rw [hl]
    simp [numeralValue, numeral, digitText]
  · have hdigits : Nat.digits b (numeralValue b (c :: t)) = ((c :: t).map digitValue).reverse := by
      rw [numeralValue_eq_ofDigits]
      apply Nat.digits_ofDigits b hb
      · intro d hd
        rw [List.mem_reverse, List.mem_map] at hd
        obtain ⟨e, he, rfl⟩ := hd
        exact (hchar e he).2
      · intro hne
        simpa using hz
    have hn : numeralValue b (c :: t) ≠ 0 := by
      intro h0
      rw [h0] at hdigits
      simp at hdigits
    rw [numeral, digitText, if_neg hn, hdigits, List.map_reverse, List.reverse_reverse, hmap]

theorem isNumeral_iff (hb : 2 ≤ b) (hb' : b ≤ 36) : IsNumeral b n l ↔ l = numeral b n := by
  constructor
  · intro h
    have heq := h.toCanonical.eq_numeral hb hb'
    rwa [h.value] at heq
  · rintro rfl
    exact isNumeral_numeral hb hb'

end Value

end BazingaOS
