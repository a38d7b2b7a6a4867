import BazingaOS.Lib.Bytes

/-!
# Copying upwards

A copy of bytes from the lowest one on, in one memory. Where the destination begins inside the
source, the bytes in front of it are repeated: `copyOrigin` says from which address a byte comes.
Several copies in one memory each store what they are to store as long as none of them finds at its
source what another one has stored there.
-/

namespace BazingaOS

def forwardCopy (m : Bytes) (dst src : Nat) : Nat → Bytes
  | 0 => m
  | n + 1 => Function.update (forwardCopy m dst src n) (dst + n)
      (forwardCopy m dst src n (src + n))

/-- The address from which the byte at `a` has come. -/
def copyOrigin (dst src n a : Nat) : Nat :=
  if dst ≤ a ∧ a < dst + n then
    if src < dst then src + (a - dst) % (dst - src) else src + (a - dst)
  else a

section Origin

variable {m : Bytes} {dst src n i a : Nat}

theorem copyOrigin_of_misses (h : a < dst ∨ dst + n ≤ a) : copyOrigin dst src n a = a := by
  rw [copyOrigin, if_neg (by omega)]

theorem copyOrigin_add (hi : i < n) (h : dst ≤ src ∨ i < dst - src) :
    copyOrigin dst src n (dst + i) = src + i := by
  rw [copyOrigin, if_pos (by omega), Nat.add_sub_cancel_left]
  split
  · rw [Nat.mod_eq_of_lt (by omega)]
  · rfl

theorem copyOrigin_succ (ha : a ≠ dst + n) :
    copyOrigin dst src (n + 1) a = copyOrigin dst src n a := by
  have hiff : (dst ≤ a ∧ a < dst + (n + 1)) ↔ dst ≤ a ∧ a < dst + n := by omega
  rw [copyOrigin, copyOrigin]
  simp only [hiff]

theorem copyOrigin_next :
    copyOrigin dst src (n + 1) (dst + n) = copyOrigin dst src n (src + n) := by
  have hin : dst ≤ dst + n ∧ dst + n < dst + (n + 1) := by omega
  rw [copyOrigin, if_pos hin, Nat.add_sub_cancel_left]
  rcases Nat.lt_or_ge src dst with hlt | hge
  · rw [if_pos hlt]
    rcases Nat.lt_or_ge n (dst - src) with hshort | hlong
    · rw [Nat.mod_eq_of_lt hshort, copyOrigin_of_misses (.inl (by omega))]
    · have hinside : dst ≤ src + n ∧ src + n < dst + n := by omega
      have hback : src + n - dst = n - (dst - src) := by omega
      rw [copyOrigin, if_pos hinside, if_pos hlt, hback, ← Nat.mod_eq_sub_mod hlong]
  · rw [if_neg (Nat.not_lt.mpr hge), copyOrigin_of_misses (.inr (by omega))]

theorem forwardCopy_apply : forwardCopy m dst src n a = m (copyOrigin dst src n a) := by
  induction n generalizing a with
  | zero => rw [copyOrigin_of_misses (by omega), forwardCopy]
  | succ n ih =>
    rw [forwardCopy]
    by_cases ha : a = dst + n
    · rw [ha, Function.update_self, ih, copyOrigin_next]
    · rw [Function.update_of_ne ha, ih, copyOrigin_succ ha]

theorem forwardCopy_succ :
    forwardCopy m dst src (n + 1) =
      forwardCopy (Function.update m dst (m src)) (dst + 1) (src + 1) n := by
  induction n with
  | zero => rfl
  | succ n ih =>
    have hdst : dst + 1 + n = dst + (n + 1) := by omega
    have hsrc : src + 1 + n = src + (n + 1) := by omega
    rw [forwardCopy, ih, forwardCopy, hdst, hsrc]

theorem copyOrigin_repeats (h : src < dst) (hi : i < n) (hd : dst - src ≤ i) :
    copyOrigin dst src n (dst + i) = copyOrigin dst src n (dst + (i - (dst - src))) := by
  rw [copyOrigin, copyOrigin, if_pos (by omega), if_pos h, if_pos (by omega),
    Nat.add_sub_cancel_left, Nat.add_sub_cancel_left, Nat.mod_eq_sub_mod hd, if_pos h]

end Origin

/-- A copy of `len` bytes from `src` on to `dst`, from the lowest one on. -/
structure Copy where
  dst : Nat
  src : Nat
  len : Nat

namespace Copy

/-- The copy stores a byte at `a`. -/
def Covers (c : Copy) (a : Nat) : Prop := c.dst ≤ a ∧ a < c.dst + c.len

/-- The memory after the first `n` copies. -/
def run (c : Nat → Copy) (m : Bytes) : Nat → Bytes
  | 0 => m
  | n + 1 => forwardCopy (run c m n) (c n).dst (c n).src (c n).len

/-- The last one of the first `n` copies that stores a byte at `a`. -/
structure Last (c : Nat → Copy) (n a i : Nat) : Prop where
  lt : i < n
  covers : (c i).Covers a
  last : ∀ k, i < k → k < n → ¬ (c k).Covers a

/-- If one of the first `n` copies stores a byte at `a`, then the last of them stores `v` there:
`want i` are the bytes that copy `i` stores. -/
def Shows (c : Nat → Copy) (want : Nat → Nat → UInt8) (n a : Nat) (v : UInt8) : Prop :=
  ∀ i, Last c n a i → want i (a - (c i).dst) = v

/-- Copy `k` finds the bytes that it is to store: earlier copies have stored nothing else at its
source, and what it has stored there itself repeats. -/
structure Reads (c : Nat → Copy) (want : Nat → Nat → UInt8) (k : Nat) : Prop where
  shown : ∀ j < (c k).len, (c k).dst ≤ (c k).src ∨ j < (c k).dst - (c k).src →
    Shows c want k ((c k).src + j) (want k j)
  repeats : (c k).src < (c k).dst → ∀ j < (c k).len, (c k).dst - (c k).src ≤ j →
    want k (j - ((c k).dst - (c k).src)) = want k j

/-- Each of the first `n` copies stores the bytes that it is to store. -/
def Exact (c : Nat → Copy) (want : Nat → Nat → UInt8) (m : Bytes) (n : Nat) : Prop :=
  ∀ i < n, ∀ j < (c i).len, run c m (i + 1) ((c i).dst + j) = want i j

section Sequence

variable {c : Nat → Copy} {want : Nat → Nat → UInt8} {m : Bytes} {n a i k : Nat} {v : UInt8}

theorem run_succ_of_not_covers (h : ¬ (c n).Covers a) : run c m (n + 1) a = run c m n a := by
  unfold Covers at h
  rw [run, forwardCopy_apply, copyOrigin_of_misses (by omega)]

theorem run_of_not_covers (h : ∀ i < n, ¬ (c i).Covers a) : run c m n a = m a := by
  induction n with
  | zero => rfl
  | succ n ih =>
    rw [run_succ_of_not_covers (h n (Nat.lt_succ_self n)), ih fun i hi => h i (Nat.lt_succ_of_lt hi)]

theorem run_of_last (h : Last c n a i) : run c m n a = run c m (i + 1) a := by
  obtain ⟨d, rfl⟩ := Nat.exists_eq_add_of_le (Nat.succ_le_of_lt h.lt)
  have hlast := h.last
  clear h
  induction d with
  | zero => rfl
  | succ d ih =>
    rw [← Nat.add_assoc, run_succ_of_not_covers (hlast _ (by omega) (by omega))]
    exact ih fun k hik hk => hlast k hik (by omega)

theorem exists_last (h : ∃ i < n, (c i).Covers a) : ∃ i, Last c n a i := by
  induction n with
  | zero =>
    obtain ⟨i, hi, -⟩ := h
    exact absurd hi (Nat.not_lt_zero i)
  | succ n ih =>
    by_cases hn : (c n).Covers a
    · exact ⟨n, Nat.lt_succ_self n, hn, fun k hnk hk => absurd hk (by omega)⟩
    · obtain ⟨i, hi, hcovers⟩ := h
      have hne : i ≠ n := by
        rintro rfl
        exact hn hcovers
      obtain ⟨i, hlast⟩ := ih ⟨i, by omega, hcovers⟩
      refine ⟨i, Nat.lt_succ_of_lt hlast.lt, hlast.covers, fun k hik hk => ?_⟩
      rcases Nat.eq_or_lt_of_le (Nat.le_of_lt_succ hk) with rfl | hlt
      · exact hn
      · exact hlast.last k hik hlt

theorem Last.unique (h : Last c n a i) (h' : Last c n a k) : i = k := by
  rcases Nat.lt_trichotomy i k with hlt | heq | hgt
  · exact absurd h'.covers (h.last k hlt h'.lt)
  · exact heq
  · exact absurd h.covers (h'.last i hgt h.lt)

theorem Exact.run_last (h : Exact c want m n) (hi : Last c n a i) :
    run c m n a = want i (a - (c i).dst) := by
  obtain ⟨hge, hlt⟩ := hi.covers
  have hbyte := h i hi.lt (a - (c i).dst) (by omega)
  rw [Nat.add_sub_cancel' hge] at hbyte
  rw [run_of_last hi, hbyte]

theorem Exact.run_eq_iff (h : Exact c want m n) (hm : m a = v) :
    run c m n a = v ↔ Shows c want n a v := by
  by_cases hcovered : ∃ i < n, (c i).Covers a
  · obtain ⟨i, hi⟩ := exists_last hcovered
    rw [h.run_last hi]
    refine ⟨fun heq k hk => ?_, fun hshows => hshows i hi⟩
    rw [← hi.unique hk]
    exact heq
  · have hnot : ∀ i < n, ¬ (c i).Covers a := fun i hi hc => hcovered ⟨i, hi, hc⟩
    rw [run_of_not_covers hnot]
    exact iff_of_true hm fun i hi => absurd hi.covers (hnot i hi.lt)

/-- One more copy, by induction on its bytes where they repeat. -/
theorem Exact.succ_iff (h : Exact c want m k) (hm : ∀ j < (c k).len, m ((c k).src + j) = want k j) :
    (∀ j < (c k).len, run c m (k + 1) ((c k).dst + j) = want k j) ↔ Reads c want k := by
  have hrun : ∀ j < (c k).len, (c k).dst ≤ (c k).src ∨ j < (c k).dst - (c k).src →
      run c m (k + 1) ((c k).dst + j) = run c m k ((c k).src + j) := by
    intro j hj hfront
    rw [run, forwardCopy_apply, copyOrigin_add hj hfront]
  have hback : (c k).src < (c k).dst → ∀ j < (c k).len, (c k).dst - (c k).src ≤ j →
      run c m (k + 1) ((c k).dst + j) =
        run c m (k + 1) ((c k).dst + (j - ((c k).dst - (c k).src))) := by
    intro hlt j hj hd
    rw [run, forwardCopy_apply, forwardCopy_apply, copyOrigin_repeats hlt hj hd]
  constructor
  · intro hall
    refine ⟨fun j hj hfront => ?_, fun hlt j hj hd => ?_⟩
    · rw [← h.run_eq_iff (hm j hj), ← hrun j hj hfront]
      exact hall j hj
    · rw [← hall j hj, ← hall _ (by omega), hback hlt j hj hd]
  · intro hreads j
    induction j using Nat.strong_induction_on with
    | h j ih =>
      intro hj
      by_cases hfront : (c k).dst ≤ (c k).src ∨ j < (c k).dst - (c k).src
      · rw [hrun j hj hfront, h.run_eq_iff (hm j hj)]
        exact hreads.shown j hj hfront
      · rw [hback (by omega) j hj (by omega), ih _ (by omega) (by omega)]
        exact hreads.repeats (by omega) j hj (by omega)

theorem exact_iff (hm : ∀ k < n, ∀ j < (c k).len, m ((c k).src + j) = want k j) :
    Exact c want m n ↔ ∀ k < n, Reads c want k := by
  induction n with
  | zero =>
    refine iff_of_true (fun i hi => ?_) fun i hi => ?_
    · exact absurd hi (Nat.not_lt_zero i)
    · exact absurd hi (Nat.not_lt_zero i)
  | succ n ih =>
    have ih' := ih fun k hk => hm k (Nat.lt_succ_of_lt hk)
    have hn := hm n (Nat.lt_succ_self n)
    constructor
    · intro h k hk
      have hexact : Exact c want m n := fun i hi => h i (Nat.lt_succ_of_lt hi)
      rcases Nat.eq_or_lt_of_le (Nat.le_of_lt_succ hk) with rfl | hlt
      · exact (hexact.succ_iff hn).mp (h k hk)
      · exact ih'.mp hexact k hlt
    · intro h i hi
      have hexact : Exact c want m n := ih'.mpr fun k hk => h k (Nat.lt_succ_of_lt hk)
      rcases Nat.eq_or_lt_of_le (Nat.le_of_lt_succ hi) with rfl | hlt
      · exact (hexact.succ_iff hn).mpr (h i hi)
      · exact hexact i hlt

end Sequence

end Copy

end BazingaOS
