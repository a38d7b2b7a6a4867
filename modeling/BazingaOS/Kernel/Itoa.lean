import BazingaOS.Lib.CString
import BazingaOS.Lib.Numeral

/-!
# Numbers on the screen

`itoa` of `lib/klib.c`, with which `disp_int` shows numbers. Its flag is meant to be set at the first
digit that is not zero, so that later zeros are shown; it is never set, and no zero is.
-/

namespace BazingaOS

namespace KLIB

/-- The round for the digit at bit `i`, with the memory and `p`. -/
def itoaRound (num : BitVec 32) (flag : Nat) (s : Bytes × Nat) (i : Nat) : Bytes × Nat :=
  let tmp := (num.sshiftRight i &&& 0xf).toNat
  if flag = 1 ∨ tmp ≠ 0 then
    let m := putBytes s.1 s.2 [UInt8.ofNat (tmp + 48)]
    (if 9 < tmp then putBytes m s.2 [m s.2 + 7] else m, s.2 + 1)
  else s

/-- The memory that `itoa` leaves; it returns `str`. -/
def itoa (m : Bytes) (str : Nat) (num : BitVec 32) : Bytes :=
  let flag := 0
  let m := putBytes m str [48, 120]
  let s := if num = 0 then (putBytes m (str + 2) [48], str + 3)
    else [28, 24, 20, 16, 12, 8, 4, 0].foldl (itoaRound num flag) (m, str + 2)
  putBytes s.1 s.2 [0]

variable {m : Bytes} {p str : Nat} {num : BitVec 32}

/-- The digit at bit `i`; the sign bits that the shift brings in are masked out. -/
theorem nibble_eq {i : Nat} (hi : i ≤ 28) :
    (num.sshiftRight i &&& 0xf).toNat = num.toNat / 2 ^ i % 16 := by
  have hmask : ∀ k < 32, (0xf : BitVec 32).getLsbD k = decide (k < 4) := by decide
  have heq : num.sshiftRight i &&& 0xf = num >>> i &&& 0xf := by
    apply BitVec.eq_of_getLsbD_eq
    intro k hk
    rw [BitVec.getLsbD_and, BitVec.getLsbD_and, hmask k hk, BitVec.getLsbD_ushiftRight,
      BitVec.getLsbD_sshiftRight]
    by_cases hlow : k < 4
    · rw [if_pos (by omega)]
      simp [Nat.not_le.mpr hk]
    · simp [hlow]
  rw [heq, BitVec.toNat_and, BitVec.toNat_ushiftRight, Nat.shiftRight_eq_div_pow]
  exact Nat.and_two_pow_sub_one_eq_mod _ 4

/-- The characters of the digits that are not zero. -/
def shownDigits (ds : List Nat) : List UInt8 := (ds.filter (· ≠ 0)).map digitChar

theorem itoaRound_eq {i : Nat} (hi : i ≤ 28) : itoaRound num 0 (m, p) i =
    (putBytes m p (shownDigits [num.toNat / 2 ^ i % 16]),
      p + (shownDigits [num.toNat / 2 ^ i % 16]).length) := by
  have hlt : num.toNat / 2 ^ i % 16 < 16 := Nat.mod_lt _ (by omega)
  simp only [itoaRound, nibble_eq hi]
  generalize num.toNat / 2 ^ i % 16 = d at hlt ⊢
  have hput : ∀ c e : UInt8, putBytes (putBytes m p [c]) p [e] = putBytes m p [e] :=
    fun c e => @putBytes_overwrite m p [] c e []
  by_cases hd : d = 0
  · simp [hd, shownDigits]
  · have hfilter : [d].filter (· ≠ 0) = [d] := by simp [hd]
    rw [if_pos (.inr hd), shownDigits, hfilter]
    congr 1
    by_cases h9 : 9 < d
    · have hcell : putBytes m p [UInt8.ofNat (d + 48)] p = UInt8.ofNat (d + 48) := by
        simp [putBytes]
      have hchar : UInt8.ofNat (d + 48) + 7 = digitChar d := by
        rw [digitChar, if_neg (by omega), UInt8.ofNat_add, UInt8.ofNat_add, UInt8.add_assoc]
        rfl
      rw [if_pos h9, hcell, hput, hchar]
      rfl
    · have hchar : UInt8.ofNat (d + 48) = digitChar d := by
        rw [digitChar, if_pos (by omega)]
      rw [if_neg h9, hchar]
      rfl

theorem foldl_itoaRound {is : List Nat} (his : ∀ i ∈ is, i ≤ 28) :
    is.foldl (itoaRound num 0) (m, p) =
      (putBytes m p (shownDigits (is.map fun i => num.toNat / 2 ^ i % 16)),
        p + (shownDigits (is.map fun i => num.toNat / 2 ^ i % 16)).length) := by
  induction is generalizing m p with
  | nil => simp [shownDigits]
  | cons i is ih =>
    have happend : shownDigits ((i :: is).map fun i => num.toNat / 2 ^ i % 16) =
        shownDigits [num.toNat / 2 ^ i % 16] ++
          shownDigits (is.map fun i => num.toNat / 2 ^ i % 16) := by
      simp only [shownDigits, ← List.map_append, ← List.filter_append, List.map_cons,
        List.singleton_append]
    rw [List.foldl_cons, itoaRound_eq (his i List.mem_cons_self),
      ih fun j hj => his j (List.mem_cons_of_mem i hj), happend, putBytes_append,
      List.length_append, Nat.add_assoc]

theorem digits_append_zeros {n k : Nat} (h : n < 16 ^ k) :
    (List.range k).map (fun i => n / 16 ^ i % 16) =
      Nat.digits 16 n ++ List.replicate (k - (Nat.digits 16 n).length) 0 := by
  have hlen : (Nat.digits 16 n).length ≤ k := (Nat.digits_length_le_iff (by omega) n).mpr h
  apply List.ext_getElem
  · simp
    omega
  · intro i hi hi'
    rw [List.getElem_map, List.getElem_range, ← Nat.getD_digits n i (by omega)]
    by_cases hd : i < (Nat.digits 16 n).length
    · rw [List.getElem_append_left hd, List.getD_eq_getElem _ _ hd]
    · rw [List.getElem_append_right (by omega), List.getElem_replicate,
        List.getD_eq_default _ _ (by omega)]

/-- What `itoa` writes behind `0x`. -/
def itoaDigits (num : BitVec 32) : List UInt8 :=
  if num = 0 then [digitChar 0] else shownDigits (Nat.digits 16 num.toNat).reverse

theorem shownDigits_rounds (num : BitVec 32) :
    shownDigits ([28, 24, 20, 16, 12, 8, 4, 0].map fun i => num.toNat / 2 ^ i % 16) =
      shownDigits (Nat.digits 16 num.toNat).reverse := by
  have hmap : [28, 24, 20, 16, 12, 8, 4, 0].map (fun i => num.toNat / 2 ^ i % 16) =
      ((List.range 8).map fun i => num.toNat / 16 ^ i % 16).reverse := rfl
  rw [hmap, digits_append_zeros (k := 8) num.isLt, List.reverse_append, List.reverse_replicate]
  unfold shownDigits
  rw [List.filter_append, List.filter_eq_nil_iff.mpr, List.nil_append]
  intro d hd
  simp [List.eq_of_mem_replicate hd]

theorem itoa_eq : itoa m str num = putBytes m str ([48, 120] ++ itoaDigits num ++ [0]) := by
  have his : ∀ i ∈ [28, 24, 20, 16, 12, 8, 4, 0], i ≤ 28 := by decide
  have hlen : ([48, 120] : List UInt8).length = 2 := rfl
  rw [putBytes_append, putBytes_append, hlen]
  unfold itoa itoaDigits
  by_cases hz : num = 0
  · simp only [if_pos hz]
    rfl
  · simp only [if_neg hz]
    rw [foldl_itoaRound his, shownDigits_rounds, List.length_append, hlen, Nat.add_assoc]

/-- The text at `str` is `0x` with the canonical numeral of `num` behind it. -/
def ShowsHex (m : Bytes) (str : Nat) (num : BitVec 32) : Prop :=
  ∃ l, IsNumeral 16 num.toNat l ∧ IsCString m str ([48, 120] ++ l)

theorem digitChar_ne_zero {d : Nat} (h : d < 36) : digitChar d ≠ 0 := by
  intro h0
  have hnat := digitChar_toNat h
  rw [h0] at hnat
  split at hnat <;> simp at hnat

theorem itoa_isCString : IsCString (itoa m str num) str ([48, 120] ++ itoaDigits num) := by
  rw [itoa_eq]
  apply IsCString.putBytes
  intro h0
  rcases List.mem_append.mp h0 with h | h
  · revert h
    decide
  · unfold itoaDigits shownDigits at h
    split at h
    · revert h
      decide
    · obtain ⟨d, hd, hchar⟩ := List.mem_map.mp h
      have hmem := List.mem_reverse.mp (List.mem_filter.mp hd).1
      have hlt := Nat.digits_lt_base (b := 16) (by omega) hmem
      exact digitChar_ne_zero (by omega) hchar

theorem itoaDigits_eq_iff : itoaDigits num = numeral 16 num.toNat ↔ 0 ∉ Nat.digits 16 num.toNat := by
  unfold itoaDigits numeral digitText
  by_cases hz : num = 0
  · simp [hz]
  · have hn : num.toNat ≠ 0 := fun h => hz (BitVec.eq_of_toNat_eq h)
    rw [if_neg hz, if_neg hn, shownDigits, List.map_reverse.symm]
    constructor
    · intro heq h0
      have hlen := congrArg List.length heq
      rw [List.length_map, List.length_map, List.length_filter_eq_length_iff] at hlen
      exact of_decide_eq_true (hlen 0 (List.mem_reverse.mpr h0)) rfl
    · intro h0
      congr 1
      rw [List.filter_eq_self]
      intro d hd
      have hne : d ≠ 0 := fun h => h0 (List.mem_reverse.mp (h ▸ hd))
      exact decide_eq_true hne

theorem showsHex_iff_eq : ShowsHex (itoa m str num) str num ↔ itoaDigits num = numeral 16 num.toNat := by
  constructor
  · rintro ⟨l, hl, htext⟩
    have heq := List.append_cancel_left (htext.unique itoa_isCString)
    rw [← heq]
    exact (isNumeral_iff (by omega) (by omega)).mp hl
  · intro heq
    refine ⟨_, isNumeral_numeral (by omega) (by omega), ?_⟩
    rw [← heq]
    exact itoa_isCString

/-- A number is shown exactly if its hexadecimal digits have no zero among them. -/
theorem showsHex_itoa_iff (m : Bytes) (str : Nat) (num : BitVec 32) :
    ShowsHex (itoa m str num) str num ↔ 0 ∉ Nat.digits 16 num.toNat := by
  rw [showsHex_iff_eq, itoaDigits_eq_iff]

/-- `0x101` is shown as `0x11`, like 17. -/
theorem not_showsHex_0x101 : ¬ ShowsHex (itoa (fun _ => 0) 0x1000 0x101) 0x1000 0x101 ∧
    IsCString (itoa (fun _ => 0) 0x1000 0x101) 0x1000 [48, 120, 49, 49] ∧
    itoa (fun _ => 0) 0x1000 0x101 = itoa (fun _ => 0) 0x1000 0x11 := by
  have hdigits : Nat.digits 16 (0x101 : BitVec 32).toNat = [1, 0, 1] := by simp
  have hdigits' : Nat.digits 16 (0x11 : BitVec 32).toNat = [1, 1] := by simp
  refine ⟨?_, ?_, ?_⟩
  · rw [showsHex_iff_eq, itoaDigits_eq_iff, hdigits]
    decide
  · have htext := @itoa_isCString (fun _ => 0) 0x1000 0x101
    rw [itoaDigits, if_neg (by decide), hdigits] at htext
    exact htext
  · rw [itoa_eq, itoa_eq, itoaDigits, itoaDigits, if_neg (by decide), if_neg (by decide), hdigits,
      hdigits']
    rfl

end KLIB

end BazingaOS
