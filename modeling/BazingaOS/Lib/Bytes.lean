import Mathlib

/-!
# Byte memory

A memory is a function from addresses to bytes. `putBytes` stores a list of bytes from an address
on, `copyBytes` copies between memories, `u32At` and `u16At` read a number of four or two bytes, and
`cstring` is the text in front of the first zero among the bytes of a field.
-/

namespace BazingaOS

abbrev Bytes := Nat → UInt8

def putBytes (m : Bytes) (k : Nat) (l : List UInt8) : Bytes := fun i =>
  if k ≤ i then (l[i - k]?).getD (m i) else m i

section PutBytes

variable {m : Bytes} {k i : Nat} {l : List UInt8}

@[simp] theorem putBytes_nil : putBytes m k [] = m := by
  funext i
  simp [putBytes]

theorem putBytes_of_lt (h : i < k) : putBytes m k l i = m i := by
  have hk : ¬ k ≤ i := by omega
  simp [putBytes, hk]

theorem putBytes_of_ge (h : k + l.length ≤ i) : putBytes m k l i = m i := by
  have hl : l[i - k]? = none := by
    apply List.getElem?_eq_none
    omega
  simp [putBytes, hl]

theorem putBytes_add (h : i < l.length) : putBytes m k l (k + i) = l[i] := by
  simp [putBytes, h]

theorem putBytes_mem (hk : k ≤ i) (hi : i < k + l.length) : putBytes m k l i ∈ l := by
  obtain ⟨j, rfl⟩ := Nat.exists_eq_add_of_le hk
  have hj : j < l.length := by omega
  rw [putBytes_add hj]
  exact List.getElem_mem hj

theorem putBytes_append (l' : List UInt8) :
    putBytes m k (l ++ l') = putBytes (putBytes m k l) (k + l.length) l' := by
  funext i
  rcases Nat.lt_or_ge i k with hlt | hge
  · rw [putBytes_of_lt hlt, putBytes_of_lt (by omega), putBytes_of_lt hlt]
  · obtain ⟨j, rfl⟩ := Nat.exists_eq_add_of_le hge
    rcases Nat.lt_or_ge j l.length with hj | hj
    · have hj' : j < (l ++ l').length := by
        rw [List.length_append]
        omega
      rw [putBytes_add hj', putBytes_of_lt (by omega), putBytes_add hj, List.getElem_append_left hj]
    · obtain ⟨x, rfl⟩ := Nat.exists_eq_add_of_le hj
      rcases Nat.lt_or_ge x l'.length with hx | hx
      · have hx' : l.length + x < (l ++ l').length := by
          rw [List.length_append]
          omega
        rw [putBytes_add hx', ← Nat.add_assoc, putBytes_add hx, List.getElem_append_right hj]
        simp
      · rw [putBytes_of_ge (by rw [List.length_append]; omega), putBytes_of_ge (by omega),
          putBytes_of_ge (by omega)]

theorem putBytes_comm {k' : Nat} {l' : List UInt8} (h : k + l.length ≤ k') :
    putBytes (putBytes m k l) k' l' = putBytes (putBytes m k' l') k l := by
  funext i
  rcases Nat.lt_or_ge i k' with hlt | hge
  · rw [putBytes_of_lt hlt]
    unfold putBytes
    rw [if_neg (Nat.not_le.mpr hlt)]
  · have hbehind : k + l.length ≤ i := by omega
    rw [putBytes_of_ge hbehind]
    unfold putBytes
    rw [if_pos hge, if_pos hge]
    congr 1
    exact putBytes_of_ge hbehind

theorem putBytes_putBytes : putBytes (putBytes m k l) k l = putBytes m k l := by
  funext i
  rcases Nat.lt_or_ge i k with hlt | hge
  · rw [putBytes_of_lt hlt]
  · obtain ⟨j, rfl⟩ := Nat.exists_eq_add_of_le hge
    rcases Nat.lt_or_ge j l.length with hj | hj
    · rw [putBytes_add hj, putBytes_add hj]
    · rw [putBytes_of_ge (by omega)]

theorem putBytes_inj {l' : List UInt8} (hlen : l.length = l'.length)
    (h : putBytes m k l = putBytes m k l') : l = l' := by
  apply List.ext_getElem hlen
  intro i hi hi'
  rw [← @putBytes_add m k i l hi, h, putBytes_add hi']

theorem putBytes_overwrite {c d : UInt8} {l' : List UInt8} :
    putBytes (putBytes m k (l ++ [c])) (k + l.length) (d :: l') = putBytes m k (l ++ d :: l') := by
  have hcell : ∀ m : Bytes, ∀ a, putBytes (putBytes m a [c]) a (d :: l') = putBytes m a (d :: l') := by
    intro m a
    funext i
    rcases Nat.lt_or_ge i a with hlt | hge
    · rw [putBytes_of_lt hlt, putBytes_of_lt hlt, putBytes_of_lt hlt]
    · obtain ⟨j, rfl⟩ := Nat.exists_eq_add_of_le hge
      rcases Nat.lt_or_ge j (d :: l').length with hj | hj
      · rw [putBytes_add hj, putBytes_add hj]
      · have hlen : a + [c].length ≤ a + j :=
          Nat.add_le_add_left (Nat.le_trans (Nat.succ_le_succ (Nat.zero_le _)) hj) a
        rw [putBytes_of_ge (by omega), putBytes_of_ge hlen, putBytes_of_ge (by omega)]
  rw [putBytes_append, putBytes_append, hcell]

end PutBytes

/-- `n` bytes of `src` from `j` on are copied to `dst` from `k` on. -/
def copyBytes (dst : Bytes) (k : Nat) (src : Bytes) (j n : Nat) : Bytes := fun i =>
  if k ≤ i ∧ i < k + n then src (j + (i - k)) else dst i

section CopyBytes

variable {dst src : Bytes} {k j n i : Nat}

theorem copyBytes_of_lt (h : i < k) : copyBytes dst k src j n i = dst i := by
  have hn : ¬ (k ≤ i ∧ i < k + n) := by omega
  simp [copyBytes, hn]

theorem copyBytes_of_ge (h : k + n ≤ i) : copyBytes dst k src j n i = dst i := by
  have hn : ¬ (k ≤ i ∧ i < k + n) := by omega
  simp [copyBytes, hn]

theorem copyBytes_add (h : i < n) : copyBytes dst k src j n (k + i) = src (j + i) := by
  simp [copyBytes, h]

theorem copyBytes_zero (h : i < n) : copyBytes dst 0 src j n i = src (j + i) := by
  have ha := @copyBytes_add dst src 0 j _ _ h
  rwa [Nat.zero_add] at ha

theorem copyBytes_shift (a : Nat) :
    copyBytes dst (a + k) src j n (a + i) = copyBytes (fun i => dst (a + i)) k src j n i := by
  have hin : a + k ≤ a + i ∧ a + i < a + k + n ↔ k ≤ i ∧ i < k + n := by omega
  have hoff : a + i - (a + k) = i - k := by omega
  simp only [copyBytes, hin, hoff]

theorem copyBytes_copyBytes (buf : Bytes) :
    copyBytes dst k (copyBytes buf 0 dst k n) 0 n = dst := by
  funext i
  unfold copyBytes
  by_cases h : k ≤ i ∧ i < k + n
  · have hi : 0 ≤ 0 + (i - k) ∧ 0 + (i - k) < 0 + n := by omega
    have he : k + (0 + (i - k) - 0) = i := by omega
    rw [if_pos h, if_pos hi, he]
  · rw [if_neg h]

@[simp] theorem copyBytes_none : copyBytes dst k src j 0 = dst := by
  funext i
  have hn : ¬ (k ≤ i ∧ i < k + 0) := by omega
  simp only [copyBytes, if_neg hn]

theorem copyBytes_append {m : Nat} :
    copyBytes (copyBytes dst k src j n) (k + n) src (j + n) m = copyBytes dst k src j (n + m) := by
  funext i
  rcases Nat.lt_or_ge i (k + n) with hlt | hge
  · rw [copyBytes_of_lt hlt]
    unfold copyBytes
    by_cases hk : k ≤ i
    · rw [if_pos ⟨hk, hlt⟩, if_pos ⟨hk, by omega⟩]
    · rw [if_neg fun h => hk h.1, if_neg fun h => hk h.1]
  · obtain ⟨x, rfl⟩ := Nat.exists_eq_add_of_le hge
    rcases Nat.lt_or_ge x m with hx | hx
    · rw [copyBytes_add hx, Nat.add_assoc k, copyBytes_add (by omega), Nat.add_assoc j]
    · rw [copyBytes_of_ge (by omega), copyBytes_of_ge (by omega), copyBytes_of_ge (by omega)]

theorem copyBytes_congr {src' : Bytes} {j' : Nat} (h : ∀ i, i < n → src' (j' + i) = src (j + i)) :
    copyBytes dst k src' j' n = copyBytes dst k src j n := by
  funext i
  unfold copyBytes
  by_cases hi : k ≤ i ∧ i < k + n
  · rw [if_pos hi, if_pos hi]
    exact h (i - k) (by omega)
  · rw [if_neg hi, if_neg hi]

/-- Part of what has been read into a buffer is overwritten there, and all of it written back. -/
theorem copyBytes_through {buf : Bytes} {o m : Nat} (h : o + m ≤ n) :
    copyBytes dst k (copyBytes (copyBytes buf 0 dst k n) o src j m) 0 n =
      copyBytes dst (k + o) src j m := by
  funext i
  by_cases hi : k ≤ i ∧ i < k + n
  · obtain ⟨x, rfl⟩ := Nat.exists_eq_add_of_le hi.1
    have hx : x < n := by omega
    rw [copyBytes_add hx, Nat.zero_add]
    rcases Nat.lt_or_ge x o with hlt | hge
    · rw [copyBytes_of_lt hlt, copyBytes_zero hx, copyBytes_of_lt (by omega)]
    · obtain ⟨y, rfl⟩ := Nat.exists_eq_add_of_le hge
      rcases Nat.lt_or_ge y m with hy | hy
      · rw [copyBytes_add hy, ← Nat.add_assoc, copyBytes_add hy]
      · rw [copyBytes_of_ge (by omega), copyBytes_zero hx, copyBytes_of_ge (by omega)]
  · rcases Nat.lt_or_ge i k with hlt | hge
    · rw [copyBytes_of_lt hlt, copyBytes_of_lt (by omega)]
    · rw [copyBytes_of_ge (by omega), copyBytes_of_ge (by omega)]

/-- What has been read into a buffer, changed from `j` on and written back is the change in place,
cut at the end of what was read. -/
theorem copyBytes_putBytes {buf : Bytes} {l : List UInt8}
    (hbuf : ∀ i, i < n → buf i = dst (k + i)) (hj : j ≤ n) :
    copyBytes dst k (putBytes buf j l) 0 n = putBytes dst (k + j) (l.take (n - j)) := by
  funext i
  by_cases h : k ≤ i ∧ i < k + n
  · obtain ⟨m, rfl⟩ := Nat.exists_eq_add_of_le h.1
    have hm : m < n := by omega
    rw [copyBytes_add hm, Nat.zero_add]
    rcases Nat.lt_or_ge m j with hlt | hge
    · rw [putBytes_of_lt hlt, putBytes_of_lt (by omega), hbuf m hm]
    · obtain ⟨x, rfl⟩ := Nat.exists_eq_add_of_le hge
      rcases Nat.lt_or_ge x l.length with hx | hx
      · have hx' : x < (l.take (n - j)).length := by
          rw [List.length_take]
          omega
        rw [putBytes_add hx, ← Nat.add_assoc, putBytes_add hx', List.getElem_take]
      · have hlen : (l.take (n - j)).length ≤ x := by
          rw [List.length_take]
          omega
        rw [putBytes_of_ge (by omega), putBytes_of_ge (by omega), hbuf _ hm]
  · have hlen : (l.take (n - j)).length ≤ n - j := by
      rw [List.length_take]
      omega
    rcases Nat.lt_or_ge i k with hlt | hge
    · rw [copyBytes_of_lt hlt, putBytes_of_lt (by omega)]
    · rw [copyBytes_of_ge (by omega), putBytes_of_ge (by omega)]

end CopyBytes

/-- The bytes of an unsigned number of four bytes, the lowest first. -/
def u32Bytes (n : Nat) : List UInt8 :=
  [UInt8.ofNat n, UInt8.ofNat (n / 256), UInt8.ofNat (n / 65536), UInt8.ofNat (n / 16777216)]

def u32At (m : Bytes) (a : Nat) : Nat :=
  (m a).toNat + 256 * (m (a + 1)).toNat + 65536 * (m (a + 2)).toNat +
    16777216 * (m (a + 3)).toNat

section U32

variable {m m' : Bytes} {a b n : Nat}

@[simp] theorem u32Bytes_length : (u32Bytes n).length = 4 := rfl

theorem u32At_shift (h : ∀ i, i < 4 → m' (b + i) = m (a + i)) : u32At m' b = u32At m a := by
  have h₀ := h 0 (by omega)
  rw [Nat.add_zero, Nat.add_zero] at h₀
  unfold u32At
  rw [h₀, h 1 (by omega), h 2 (by omega), h 3 (by omega)]

theorem u32At_congr (h : ∀ i, a ≤ i → i < a + 4 → m' i = m i) : u32At m' a = u32At m a :=
  u32At_shift fun i hi => h (a + i) (by omega) (by omega)

theorem u32At_lt (m : Bytes) (a : Nat) : u32At m a < 2 ^ 32 := by
  have h₀ := (m a).toNat_lt
  have h₁ := (m (a + 1)).toNat_lt
  have h₂ := (m (a + 2)).toNat_lt
  have h₃ := (m (a + 3)).toNat_lt
  unfold u32At
  omega

theorem u32At_putBytes (hn : n < 2 ^ 32) : u32At (putBytes m a (u32Bytes n)) a = n := by
  have h : ∀ i, (hi : i < 4) → putBytes m a (u32Bytes n) (a + i) = (u32Bytes n)[i] :=
    fun i hi => putBytes_add (l := u32Bytes n) hi
  have h₀ := h 0 (by omega)
  rw [Nat.add_zero] at h₀
  unfold u32At
  rw [h₀, h 1 (by omega), h 2 (by omega), h 3 (by omega)]
  simp only [u32Bytes, List.getElem_cons_zero, List.getElem_cons_succ, UInt8.toNat_ofNat']
  omega

theorem u32At_putBytes_of_disjoint {l : List UInt8} (h : b + l.length ≤ a ∨ a + 4 ≤ b) :
    u32At (putBytes m b l) a = u32At m a := by
  apply u32At_congr
  intro i hi hi'
  rcases h with h | h
  · exact putBytes_of_ge (by omega)
  · exact putBytes_of_lt (by omega)

theorem u32At_inj (h : u32At m' b = u32At m a) {i : Nat} (hi : i < 4) : m' (b + i) = m (a + i) := by
  have hlt : ∀ c : UInt8, c.toNat < 256 := fun c => c.toNat_lt
  have h₀ := hlt (m a)
  have h₁ := hlt (m (a + 1))
  have h₂ := hlt (m (a + 2))
  have h₃ := hlt (m (a + 3))
  have g₀ := hlt (m' b)
  have g₁ := hlt (m' (b + 1))
  have g₂ := hlt (m' (b + 2))
  have g₃ := hlt (m' (b + 3))
  unfold u32At at h
  rw [← UInt8.toNat_inj]
  match i with
  | 0 =>
    rw [Nat.add_zero, Nat.add_zero]
    omega
  | 1 => omega
  | 2 => omega
  | 3 => omega

theorem u32At_flatMap {l : List Nat} {k : Nat} (hk : k < l.length) (hl : l[k] < 2 ^ 32) :
    u32At (putBytes m a (l.flatMap u32Bytes)) (a + 4 * k) = l[k] := by
  induction l generalizing m a k with
  | nil => simp at hk
  | cons x l ih =>
    rw [List.flatMap_cons, putBytes_append, u32Bytes_length]
    cases k with
    | zero =>
      change u32At (putBytes (putBytes m a (u32Bytes x)) (a + 4) _) a = x
      rw [u32At_putBytes_of_disjoint (.inr (Nat.le_refl _))]
      exact u32At_putBytes hl
    | succ k =>
      have ha : a + 4 * (k + 1) = a + 4 + 4 * k := by omega
      rw [ha]
      exact ih (by simpa using hk) hl

end U32

def u16At (m : Bytes) (a : Nat) : Nat := (m a).toNat + 256 * (m (a + 1)).toNat

section U16

variable {m m' : Bytes} {a : Nat}

theorem u16At_congr (h₀ : m' a = m a) (h₁ : m' (a + 1) = m (a + 1)) : u16At m' a = u16At m a := by
  unfold u16At
  rw [h₀, h₁]

theorem u16At_lt (m : Bytes) (a : Nat) : u16At m a < 0x10000 := by
  have h₀ := (m a).toNat_lt
  have h₁ := (m (a + 1)).toNat_lt
  unfold u16At
  omega

end U16

/-- The text in a field of `n` bytes: what stands in front of its first zero. -/
def cstring (m : Bytes) (n : Nat) : List UInt8 :=
  ((List.range n).map m).takeWhile (· ≠ 0)

section Cstring

variable {m : Bytes} {n i : Nat}

theorem cstring_congr {m' : Bytes} (h : ∀ i, i < n → m' i = m i) : cstring m' n = cstring m n := by
  have hmap : (List.range n).map m' = (List.range n).map m := by
    apply List.map_congr_left
    intro i hi
    exact h i (List.mem_range.mp hi)
  rw [cstring, cstring, hmap]

theorem cstring_of_zero {l : List UInt8} (hl : 0 ∉ l) (hn : l.length < n)
    (hm : ∀ i (hi : i < l.length), m i = l[i]) (hz : m l.length = 0) : cstring m n = l := by
  have hlen : l.length < ((List.range n).map m).length := by simpa using hn
  have htake : ((List.range n).map m).take l.length = l := by
    apply List.ext_getElem
    · rw [List.length_take]
      omega
    · intro i _ hi
      rw [List.getElem_take, List.getElem_map, List.getElem_range, hm i hi]
  rw [cstring, ← List.take_append_drop l.length ((List.range n).map m), htake,
    List.drop_eq_getElem_cons hlen, List.takeWhile_append_of_pos,
    List.takeWhile_cons_of_neg, List.append_nil]
  · simpa using hz
  · intro c hc
    have hne : c ≠ 0 := fun h => hl (h ▸ hc)
    simpa using hne

theorem cstring_ne_zero {c : UInt8} (h : c ∈ cstring m n) : c ≠ 0 := by
  simpa using List.mem_takeWhile_imp h

theorem cstring_getElem (h : i < (cstring m n).length) : (cstring m n)[i] = m i := by
  have hp := List.takeWhile_prefix (p := fun c : UInt8 => decide (c ≠ 0)) (l := (List.range n).map m)
  have hi := hp.getElem h
  rw [List.getElem_map, List.getElem_range] at hi
  exact hi

theorem cstring_length_le_of_zero (h : m i = 0) : (cstring m n).length ≤ i := by
  by_contra hlt
  have hlen : i < (cstring m n).length := by omega
  have hmem : (cstring m n)[i] ∈ cstring m n := List.getElem_mem hlen
  rw [cstring_getElem hlen] at hmem
  exact cstring_ne_zero hmem h

theorem cstring_length_of_ne_zero (h : ∀ i, i < n → m i ≠ 0) : (cstring m n).length = n := by
  have hall : ∀ c ∈ (List.range n).map m, c ≠ 0 := by
    intro c hc
    obtain ⟨i, hi, rfl⟩ := List.mem_map.mp hc
    exact h i (List.mem_range.mp hi)
  have heq : cstring m n = (List.range n).map m := by
    apply List.takeWhile_eq_self_iff.mpr
    intro c hc
    simpa using hall c hc
  simp [heq]

end Cstring

end BazingaOS
