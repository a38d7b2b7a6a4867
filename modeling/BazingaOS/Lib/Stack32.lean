import Mathlib

/-!
# Words in a memory of 32 bits

A memory of bytes whose addresses wrap around, with the lowest byte of a word first, and a stack of
words that grows downwards in it.
-/

namespace BazingaOS

abbrev Word := BitVec 32

abbrev Mem32 := Word → BitVec 8

def store32 (m : Mem32) (a v : Word) : Mem32 := fun x =>
  if (x - a).toNat < 4 then v.extractLsb' (8 * (x - a).toNat) 8 else m x

def load32 (m : Mem32) (a : Word) : Word := m (a + 3) ++ m (a + 2) ++ m (a + 1) ++ m a

/-- The lower half of a word. -/
def load16 (m : Mem32) (a : Word) : BitVec 16 := m (a + 1) ++ m a

/-- The words of `l` have been pushed below `sp`; the first one is on top of the stack. -/
def pushWords (m : Mem32) (sp : Word) : List Word → Mem32
  | [] => m
  | v :: l => store32 (pushWords m sp l) (sp - BitVec.ofNat 32 (4 * (l.length + 1))) v

/-- The words of `l` are in the memory, from `a` upwards. -/
def HoldsWords (m : Mem32) (a : Word) (l : List Word) : Prop :=
  ∀ (i : Nat) (hi : i < l.length), load32 m (a + BitVec.ofNat 32 (4 * i)) = l[i]

section Words

variable {m : Mem32} {a b sp v : Word} {l : List Word} {i : Nat}

theorem store32_add {k : Nat} (hk : k < 4) :
    store32 m a v (a + BitVec.ofNat 32 k) = v.extractLsb' (8 * k) 8 := by
  have hoff : (a + BitVec.ofNat 32 k - a).toNat = k := by bv_omega
  rw [store32, hoff, if_pos hk]

theorem append_extractLsb' (v : Word) : v.extractLsb' 24 8 ++ v.extractLsb' 16 8 ++
    v.extractLsb' 8 8 ++ v.extractLsb' 0 8 = v := by
  ext i hi
  have hbit : ∀ k, k = i → v.getLsbD k = v[i] := by
    rintro k rfl
    exact BitVec.getLsbD_eq_getElem hi
  simp only [BitVec.getElem_append, BitVec.getElem_extractLsb']
  split
  · exact hbit _ (by omega)
  · split
    · exact hbit _ (by omega)
    · split <;> exact hbit _ (by omega)

theorem append_extractLsb'_half (v : BitVec 16) :
    v.extractLsb' 8 8 ++ v.extractLsb' 0 8 = v := by
  ext i hi
  have hbit : ∀ k, k = i → v.getLsbD k = v[i] := by
    rintro k rfl
    exact BitVec.getLsbD_eq_getElem hi
  simp only [BitVec.getElem_append, BitVec.getElem_extractLsb']
  split <;> exact hbit _ (by omega)

theorem load32_store32 : load32 (store32 m a v) a = v := by
  have hbyte : ∀ k < 4, store32 m a v (a + BitVec.ofNat 32 k) = v.extractLsb' (8 * k) 8 :=
    fun k hk => store32_add hk
  have hfirst := hbyte 0 (by decide)
  rw [BitVec.add_zero] at hfirst
  rw [load32, hfirst]
  exact (congrArg₂ _ (congrArg₂ _ (congrArg₂ _ (hbyte 3 (by decide)) (hbyte 2 (by decide)))
    (hbyte 1 (by decide))) rfl).trans (append_extractLsb' v)

theorem load32_store32_of_apart (h : 4 ≤ (a - b).toNat) (h' : 4 ≤ (b - a).toNat) :
    load32 (store32 m b v) a = load32 m a := by
  have hbyte : ∀ k < 4, store32 m b v (a + BitVec.ofNat 32 k) = m (a + BitVec.ofNat 32 k) := by
    intro k hk
    rw [store32, if_neg]
    bv_omega
  have hfirst := hbyte 0 (by decide)
  rw [BitVec.add_zero] at hfirst
  rw [load32, hfirst]
  exact congrArg₂ _ (congrArg₂ _ (congrArg₂ _ (hbyte 3 (by decide)) (hbyte 2 (by decide)))
    (hbyte 1 (by decide))) rfl

theorem load32_pushWords (hl : 4 * l.length < 2 ^ 32) (hi : i < l.length) :
    load32 (pushWords m sp l)
      (sp - BitVec.ofNat 32 (4 * l.length) + BitVec.ofNat 32 (4 * i)) = l[i] := by
  induction l generalizing i with
  | nil => exact absurd hi (Nat.not_lt_zero i)
  | cons v l ih =>
    rw [List.length_cons] at hl hi
    rw [pushWords, List.length_cons]
    cases i with
    | zero =>
      rw [Nat.mul_zero, BitVec.add_zero]
      exact load32_store32
    | succ i =>
      rw [load32_store32_of_apart (by bv_omega) (by bv_omega)]
      have hplace : sp - BitVec.ofNat 32 (4 * (l.length + 1)) + BitVec.ofNat 32 (4 * (i + 1)) =
          sp - BitVec.ofNat 32 (4 * l.length) + BitVec.ofNat 32 (4 * i) := by bv_omega
      rw [hplace, ih (by omega) (by omega)]
      rfl

theorem load32_congr {m' : Mem32} (h : ∀ k < 4, m' (a + BitVec.ofNat 32 k) =
    m (a + BitVec.ofNat 32 k)) : load32 m' a = load32 m a := by
  have hfirst := h 0 (by decide)
  rw [BitVec.add_zero] at hfirst
  rw [load32, hfirst]
  exact congrArg₂ _ (congrArg₂ _ (congrArg₂ _ (h 3 (by decide)) (h 2 (by decide)))
    (h 1 (by decide))) rfl

theorem load16_congr {m' : Mem32} (h : ∀ k < 2, m' (a + BitVec.ofNat 32 k) =
    m (a + BitVec.ofNat 32 k)) : load16 m' a = load16 m a := by
  have hfirst := h 0 (by decide)
  rw [BitVec.add_zero] at hfirst
  rw [load16, hfirst]
  exact congrArg₂ _ (h 1 (by decide)) rfl

theorem store32_of_apart {x : Word} (h : 4 ≤ (x - a).toNat) : store32 m a v x = m x :=
  if_neg (Nat.not_lt.mpr h)

theorem holdsWords_pushWords (hl : 4 * l.length < 2 ^ 32) :
    HoldsWords (pushWords m sp l) (sp - BitVec.ofNat 32 (4 * l.length)) l :=
  fun _ hi => load32_pushWords hl hi

theorem HoldsWords.congr {m' : Mem32} (h : HoldsWords m a l) (hl : 4 * l.length < 2 ^ 32)
    (hsame : ∀ x, (x - a).toNat < 4 * l.length → m' x = m x) : HoldsWords m' a l := by
  intro i hi
  rw [← h i hi]
  apply load32_congr
  intro k hk
  apply hsame
  bv_omega

theorem holdsWords_cons : HoldsWords m a (v :: l) ↔ load32 m a = v ∧ HoldsWords m (a + 4) l := by
  have hplace : ∀ i, a + BitVec.ofNat 32 (4 * (i + 1)) = a + 4 + BitVec.ofNat 32 (4 * i) :=
    fun i => by bv_omega
  constructor
  · intro h
    refine ⟨?_, fun i hi => ?_⟩
    · have hfirst := h 0 (Nat.succ_pos _)
      rwa [Nat.mul_zero, BitVec.add_zero] at hfirst
    · have hnext := h (i + 1) (Nat.succ_lt_succ hi)
      rwa [hplace] at hnext
  · rintro ⟨hfirst, h⟩ i hi
    cases i with
    | zero => rwa [Nat.mul_zero, BitVec.add_zero]
    | succ i =>
      rw [hplace]
      exact h i (Nat.lt_of_succ_lt_succ hi)

theorem pushWords_of_apart {x : Word} (hl : 4 * l.length < 2 ^ 32)
    (hx : 4 * l.length ≤ (x - (sp - BitVec.ofNat 32 (4 * l.length))).toNat) :
    pushWords m sp l x = m x := by
  induction l with
  | nil => rfl
  | cons v l ih =>
    rw [List.length_cons] at hl hx
    rw [pushWords, store32_of_apart (by omega)]
    exact ih (by omega) (by bv_omega)

end Words

end BazingaOS
