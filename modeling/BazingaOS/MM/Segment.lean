import BazingaOS.Kernel.Proc
import BazingaOS.Lib.Bytes
import BazingaOS.Lib.Int32

/-!
# Segments and linear memory

The segment descriptors of `include/sys/protect.h`, with `init_descriptor` of `kernel/protect.c` and
the reading of `reassembly`, and the memory in which `phys_copy` copies byte by byte. Linear and
physical addresses are the same, and wrap around at `2 ^ 32`.
-/

namespace BazingaOS

/-- Where `kernel/global.c` puts the buffers of FS and MM. -/
def fsbufBase : Nat := 0x600000
def mmbufBase : Nat := 0x700000
def mmbufSize : Nat := 0x100000

structure Descriptor where
  limitLow : UInt16 := 0
  baseLow : UInt16 := 0
  baseMid : UInt8 := 0
  attrl : UInt8 := 0
  limitHighAttr2 : UInt8 := 0
  baseHigh : UInt8 := 0
deriving DecidableEq, Repr

/-- The upper four bits of one byte and the lower four of another. -/
def highAttr2 (attr limit : UInt8) : UInt8 := (attr &&& 0xF0) ||| (limit &&& 0xF)

def initDescriptor (base limit attr : Nat) : Descriptor where
  limitLow := UInt16.ofNat limit
  baseLow := UInt16.ofNat base
  baseMid := UInt8.ofNat (base >>> 16)
  attrl := UInt8.ofNat attr
  limitHighAttr2 := highAttr2 (UInt8.ofNat (attr >>> 8)) (UInt8.ofNat (limit >>> 16))
  baseHigh := UInt8.ofNat (base >>> 24)

def reassembly (high highShift mid midShift low : Nat) : Nat :=
  (high <<< highShift) + (mid <<< midShift) + low

namespace Descriptor

def base (d : Descriptor) : Nat :=
  reassembly d.baseHigh.toNat 24 d.baseMid.toNat 16 d.baseLow.toNat

/-- `caller_T_limit` of `do_fork`. -/
def limitT (d : Descriptor) : Nat :=
  reassembly 0 0 (d.limitHighAttr2 &&& 0xF).toNat 16 d.limitLow.toNat

/-- `caller_D_limit` of `do_fork`. -/
def limitD (d : Descriptor) : Nat :=
  reassembly (d.limitHighAttr2 &&& 0xF).toNat 16 0 0 d.limitLow.toNat

def granularity (d : Descriptor) : Nat := if d.limitHighAttr2 &&& 0x80 ≠ 0 then 4096 else 1

def size (d : Descriptor) : Nat := (1 + d.limitT) * d.granularity

def segment (d : Descriptor) : Set Nat := Set.Ico d.base (d.base + d.size)

end Descriptor

/-- The segments of a process, `INDEX_LDT_C` and `INDEX_LDT_RW` of its `ldts`. -/
structure Ldt where
  code : Descriptor := {}
  data : Descriptor := {}
deriving DecidableEq, Repr

/-- `ldt_seg_linear` for the data segment. -/
def ldtSegLinear (l : Ldt) : Nat :=
  (l.data.baseHigh.toNat <<< 24) ||| (l.data.baseMid.toNat <<< 16) ||| l.data.baseLow.toNat

def va2la (l : Ldt) (va : Nat) : Nat := (va + ldtSegLinear l) % 0x100000000

/-- `va2la`, with its assertion. -/
def procVa2la {σ : Type} (ldts : Pid → Ldt) (p : Pid) (va : Nat) : Prog σ Nat := do
  let la := va2la (ldts p) va
  Prog.when (p.val < nrTasks + nrNativeProcs) (Prog.check (la = va))
  return la

/-- `phys_copy` stores one byte after the other, so that overlapping places are copied in this
order. -/
def physCopy (m : Bytes) (dst src : Nat) : Nat → Bytes
  | 0 => m
  | n + 1 =>
    let m' := physCopy m dst src n
    Function.update m' ((dst + n) % 0x100000000) (m' ((src + n) % 0x100000000))

theorem disjoint_segments {a b n m : Nat} (h : a + n ≤ b ∨ b + m ≤ a) :
    Disjoint (Set.Ico a (a + n)) (Set.Ico b (b + m)) := by
  rw [Set.Ico_disjoint_Ico]
  omega

namespace Descriptor

section InitDescriptor

variable {base limit attr : Nat}

theorem limitD_eq (d : Descriptor) : d.limitD = d.limitT := by
  simp [limitD, limitT, reassembly]

theorem base_initDescriptor (h : base < 0x100000000) :
    (initDescriptor base limit attr).base = base := by
  simp only [Descriptor.base, initDescriptor, reassembly, Nat.shiftLeft_eq,
    Nat.shiftRight_eq_div_pow, UInt8.toNat_ofNat', UInt16.toNat_ofNat']
  omega

theorem highAttr2_and_limit (x y : UInt8) : highAttr2 x y &&& 0xF = y &&& 0xF := by
  apply UInt8.toBitVec_inj.mp
  simp [highAttr2, BitVec.and_or_distrib_right, BitVec.and_assoc]

theorem highAttr2_and_attr (x y : UInt8) : highAttr2 x y &&& 0x80 = x &&& 0x80 := by
  apply UInt8.toBitVec_inj.mp
  simp [highAttr2, BitVec.and_or_distrib_right, BitVec.and_assoc]

theorem limitT_initDescriptor :
    (initDescriptor base limit attr).limitT = limit % 0x100000 := by
  have hmod : (UInt8.ofNat (limit >>> 16) &&& 0xF).toNat = limit / 65536 % 16 := by
    have hand := Nat.and_two_pow_sub_one_eq_mod (limit / 65536 % 256) 4
    simp only [Nat.reducePow, Nat.reduceSub] at hand
    simp only [UInt8.toNat_and, UInt8.toNat_ofNat', UInt8.reduceToNat, Nat.shiftRight_eq_div_pow,
      Nat.reducePow, hand]
    omega
  simp only [limitT, initDescriptor, reassembly]
  rw [highAttr2_and_limit, hmod]
  simp only [Nat.shiftLeft_eq, UInt16.toNat_ofNat']
  omega

theorem granularity_initDescriptor (h : UInt8.ofNat (attr >>> 8) &&& 0x80 ≠ 0) :
    (initDescriptor base limit attr).granularity = 4096 := by
  unfold granularity
  rw [if_pos]
  simpa [initDescriptor, highAttr2_and_attr] using h

end InitDescriptor

end Descriptor

theorem ldtSegLinear_eq (l : Ldt) : ldtSegLinear l = l.data.base := by
  have hlow := l.data.baseLow.toNat_lt
  have hmid := l.data.baseMid.toNat_lt
  have hand : l.data.baseHigh.toNat <<< 24 ||| l.data.baseMid.toNat <<< 16 =
      l.data.baseHigh.toNat <<< 24 + l.data.baseMid.toNat <<< 16 := by
    rw [Nat.shiftLeft_add_eq_or_of_lt]
    rw [Nat.shiftLeft_eq]
    omega
  have hshift : l.data.baseHigh.toNat <<< 24 + l.data.baseMid.toNat <<< 16 =
      (l.data.baseHigh.toNat * 256 + l.data.baseMid.toNat) <<< 16 := by
    simp only [Nat.shiftLeft_eq]
    omega
  rw [ldtSegLinear, hand, hshift, ← Nat.shiftLeft_add_eq_or_of_lt hlow, ← hshift]
  rfl

section PhysCopy

variable {m : Bytes} {dst src n i : Nat}

/-- Without wrap-around, and with the two places apart, the order of the bytes does not matter. -/
theorem physCopy_eq_copyBytes (hdst : dst + n ≤ 0x100000000) (hsrc : src + n ≤ 0x100000000)
    (hapart : dst + n ≤ src ∨ src + n ≤ dst) : physCopy m dst src n = copyBytes m dst m src n := by
  induction n with
  | zero =>
    funext i
    simp [physCopy, copyBytes]
  | succ n ih =>
    have hd : (dst + n) % 0x100000000 = dst + n := Nat.mod_eq_of_lt (by omega)
    have hs : (src + n) % 0x100000000 = src + n := Nat.mod_eq_of_lt (by omega)
    funext i
    simp only [physCopy, ih (by omega) (by omega) (by omega), hd, hs]
    by_cases hi : i = dst + n
    · subst hi
      rw [Function.update_self, copyBytes_add (by omega)]
      rcases hapart with hlt | hgt
      · exact copyBytes_of_ge (by omega)
      · exact copyBytes_of_lt (by omega)
    · rw [Function.update_of_ne hi]
      rcases Nat.lt_or_ge i dst with hlt | hge
      · rw [copyBytes_of_lt hlt, copyBytes_of_lt hlt]
      · obtain ⟨j, rfl⟩ := Nat.exists_eq_add_of_le hge
        rcases Nat.lt_or_ge j n with hj | hj
        · rw [copyBytes_add hj, copyBytes_add (by omega)]
        · rw [copyBytes_of_ge (by omega), copyBytes_of_ge (by omega)]

end PhysCopy

end BazingaOS
