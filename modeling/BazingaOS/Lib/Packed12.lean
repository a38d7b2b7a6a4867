import BazingaOS.Lib.Bytes

/-!
# Tables of twelve-bit numbers

Two numbers of twelve bits in three bytes, the lowest bits first. A number stands in the word that
begins at one and a half times its index: in its low bits at an even index, and in its high bits at
an odd one.
-/

namespace BazingaOS

def u24At (m : Bytes) (a : Nat) : Nat :=
  (m a).toNat + 256 * (m (a + 1)).toNat + 65536 * (m (a + 2)).toNat

/-- The number at index `i`. -/
def entry12 (m : Bytes) (i : Nat) : Nat :=
  if i % 2 = 0 then u24At m (3 * (i / 2)) % 4096 else u24At m (3 * (i / 2)) / 4096

/-- A table of the numbers of `f`. -/
def pack12 (f : Nat → Nat) : Bytes := fun k =>
  let n := f (2 * (k / 3)) % 4096 + 4096 * (f (2 * (k / 3) + 1) % 4096)
  if k % 3 = 0 then UInt8.ofNat n
  else if k % 3 = 1 then UInt8.ofNat (n / 256)
  else UInt8.ofNat (n / 65536)

section Entry

variable {m : Bytes} {i : Nat}

theorem entry12_lt (m : Bytes) (i : Nat) : entry12 m i < 4096 := by
  have h₀ := (m (3 * (i / 2))).toNat_lt
  have h₁ := (m (3 * (i / 2) + 1)).toNat_lt
  have h₂ := (m (3 * (i / 2) + 2)).toNat_lt
  unfold entry12 u24At
  split <;> omega

theorem entry12_even (h : i % 2 = 0) : entry12 m i = u16At m (i * 3 / 2) % 4096 := by
  have ha : i * 3 / 2 = 3 * (i / 2) := by omega
  rw [entry12, if_pos h, ha]
  unfold u24At u16At
  omega

theorem entry12_odd (h : i % 2 = 1) : entry12 m i = u16At m (i * 3 / 2) / 16 := by
  have hne : ¬ i % 2 = 0 := by omega
  have ha : i * 3 / 2 = 3 * (i / 2) + 1 := by omega
  have hnext : 3 * (i / 2) + 1 + 1 = 3 * (i / 2) + 2 := rfl
  have hbyte := (m (3 * (i / 2))).toNat_lt
  rw [entry12, if_neg hne, ha]
  unfold u24At u16At
  rw [hnext]
  omega

theorem u24At_pack12 (f : Nat → Nat) (j : Nat) :
    u24At (pack12 f) (3 * j) = f (2 * j) % 4096 + 4096 * (f (2 * j + 1) % 4096) := by
  have hq₀ : 3 * j / 3 = j := by omega
  have hq₁ : (3 * j + 1) / 3 = j := by omega
  have hq₂ : (3 * j + 2) / 3 = j := by omega
  have hr₀ : 3 * j % 3 = 0 := by omega
  have hr₁ : (3 * j + 1) % 3 = 1 := by omega
  have hr₂ : (3 * j + 2) % 3 = 2 := by omega
  simp only [u24At, pack12, hq₀, hq₁, hq₂, hr₀, hr₁, hr₂, if_true, Nat.one_ne_zero, if_false,
    OfNat.ofNat_ne_zero, OfNat.ofNat_ne_one, UInt8.toNat_ofNat']
  omega

theorem entry12_pack12 (f : Nat → Nat) : entry12 (pack12 f) i = f i % 4096 := by
  rw [entry12, u24At_pack12]
  rcases Nat.mod_two_eq_zero_or_one i with h | h
  · have hi : 2 * (i / 2) = i := by omega
    rw [if_pos h, hi]
    omega
  · have hne : ¬ i % 2 = 0 := by omega
    have hi : 2 * (i / 2) + 1 = i := by omega
    rw [if_neg hne, hi]
    omega

end Entry

end BazingaOS
