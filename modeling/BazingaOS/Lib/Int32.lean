import Mathlib

/-!
# Integers of four bytes

The value of an integer variable of four bytes after an operation, as an integer without bound.
-/

namespace BazingaOS

/-- The value of a signed integer of four bytes that holds `x` modulo `2 ^ 32`. -/
@[irreducible] def toI32 (x : Int) : Int := (x + 0x80000000) % 0x100000000 - 0x80000000

/-- The value of an unsigned integer of four bytes that holds `x` modulo `2 ^ 32`. -/
@[irreducible] def toU32 (x : Int) : Nat := (x % 0x100000000).toNat

/-- The sum and the difference of unsigned integers of 32 bits. -/
def add32 (a b : Nat) : Nat := (a + b) % 2 ^ 32
def sub32 (a b : Nat) : Nat := (a + (2 ^ 32 - b)) % 2 ^ 32

/-- The result of an operation on signed integers is in their range. -/
def InI32 (x : Int) : Prop := -0x80000000 ≤ x ∧ x < 0x80000000

instance (x : Int) : Decidable (InI32 x) := inferInstanceAs (Decidable (_ ∧ _))

theorem inI32_toI32 (x : Int) : InI32 (toI32 x) := by
  unfold toI32 InI32
  omega

theorem toI32_of_inI32 {x : Int} (h : InI32 x) : toI32 x = x := by
  obtain ⟨hlow, hhigh⟩ := h
  unfold toI32
  omega

theorem toU32_of_lt {n : Nat} (h : n < 0x100000000) : toU32 n = n := by
  unfold toU32
  omega

end BazingaOS
