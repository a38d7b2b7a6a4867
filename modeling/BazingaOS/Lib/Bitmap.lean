import BazingaOS.Lib.Bytes

/-!
# Bit maps in byte memory

Bit `n` of a memory is bit `n % 8` of its byte `n / 8`.
-/

namespace BazingaOS

/-- The byte `1 << k`. -/
def bitMask (k : Nat) : UInt8 := ⟨BitVec.twoPow 8 k⟩

def byteBit (c : UInt8) (k : Nat) : Bool := c.toBitVec.getLsbD k

section Byte

variable {c : UInt8} {j k : Nat}

theorem byteBit_or_mask (hj : j < 8) : byteBit (c ||| bitMask k) j = (byteBit c j || k = j) := by
  simp [byteBit, bitMask, hj, eq_comm]

theorem byteBit_andNot_mask (hj : j < 8) :
    byteBit (c &&& ~~~ bitMask k) j = (byteBit c j && k ≠ j) := by
  simp [byteBit, bitMask, hj, eq_comm]

theorem byteBit_zero : byteBit 0 j = false := by
  simp [byteBit]

theorem byteBit_ext {c d : UInt8} (h : ∀ j, j < 8 → byteBit c j = byteBit d j) : c = d := by
  apply UInt8.toBitVec_inj.mp
  apply BitVec.eq_of_getLsbD_eq
  exact h

theorem and_mask_eq_zero (hk : k < 8) : c &&& bitMask k = 0 ↔ byteBit c k = false := by
  have hbit : ∀ j, j < 8 → byteBit (c &&& bitMask k) j = (byteBit c j && k = j) := by
    intro j hj
    simp [byteBit, bitMask, hj, eq_comm]
  constructor
  · intro h
    have hk' := hbit k hk
    rw [h, byteBit_zero] at hk'
    simpa using hk'.symm
  · intro h
    apply byteBit_ext
    intro j hj
    rw [hbit j hj, byteBit_zero]
    by_cases hjk : k = j
    · subst hjk
      simp [h]
    · simp [hjk]

theorem byteBit_full (hj : j < 8) : byteBit 0xff j = true := by
  have hall : ∀ j : Fin 8, byteBit 0xff j.val = true := by decide
  exact hall ⟨j, hj⟩

theorem eq_full_iff : c = 0xff ↔ ∀ j, j < 8 → byteBit c j = true := by
  constructor
  · intro h j hj
    rw [h]
    exact byteBit_full hj
  · intro h
    apply byteBit_ext
    intro j hj
    rw [h j hj, byteBit_full hj]

end Byte

def bitAt (m : Bytes) (n : Nat) : Bool := byteBit (m (n / 8)) (n % 8)

/-- Bit `k` of the byte at `a` is set. -/
def setBit (m : Bytes) (a k : Nat) : Bytes := Function.update m a (m a ||| bitMask k)

/-- Bit `k` of the byte at `a` is cleared. -/
def clearBit (m : Bytes) (a k : Nat) : Bytes := Function.update m a (m a &&& ~~~ bitMask k)

section Bits

variable {m m' : Bytes} {a k n : Nat}

theorem bitAt_mul_add (hk : k < 8) : bitAt m (8 * a + k) = byteBit (m a) k := by
  have hd : (8 * a + k) / 8 = a := by omega
  have hm : (8 * a + k) % 8 = k := by omega
  rw [bitAt, hd, hm]

theorem bitAt_congr (h : m' (n / 8) = m (n / 8)) : bitAt m' n = bitAt m n := by
  rw [bitAt, bitAt, h]

theorem bitAt_setBit (hk : k < 8) : bitAt (setBit m a k) n = (bitAt m n || n = 8 * a + k) := by
  by_cases hn : n / 8 = a
  · subst hn
    have hiff : (k = n % 8) ↔ (n = 8 * (n / 8) + k) := by omega
    simp only [bitAt, setBit, Function.update_self]
    rw [byteBit_or_mask (by omega)]
    simp only [hiff]
  · have hne : n ≠ 8 * a + k := by omega
    simp [bitAt, setBit, hn, hne]

theorem bitAt_clearBit (hk : k < 8) :
    bitAt (clearBit m a k) n = (bitAt m n && n ≠ 8 * a + k) := by
  by_cases hn : n / 8 = a
  · subst hn
    have hiff : (k = n % 8) ↔ (n = 8 * (n / 8) + k) := by omega
    simp only [bitAt, clearBit, Function.update_self]
    rw [byteBit_andNot_mask (by omega)]
    simp only [ne_eq, hiff]
  · have hne : n ≠ 8 * a + k := by omega
    simp [bitAt, clearBit, hn, hne]

end Bits

end BazingaOS
