import BazingaOS.FS.Directory
import BazingaOS.Lib.FirstFree

/-!
# Allocation in the maps

`alloc_imap_bit` takes the first clear bit of the inode map and `alloc_smap_bit` the first clear
bits of the sector map, sector by sector. What is in the buffer counts as written: the disk as it
will be is followed bit by bit.
-/

namespace BazingaOS

open Prog
open FS (BufHolds bufHolds_read SmapScan)

/-- The first bit of sector `n` in the memory of the disk. -/
def sectBit (n : Nat) : Nat := 8 * (sectorSize * n)

/-- Bit `b` of the map that begins with sector `sect` is clear. -/
def Free (d : Bytes) (sect b : Nat) : Prop := bitAt d (sectBit sect + b) = false

instance (d : Bytes) (sect : Nat) : DecidablePred (Free d sect) :=
  fun b => inferInstanceAs (Decidable (bitAt d (sectBit sect + b) = false))

def SuperBlock.smapBits (sb : SuperBlock) : Nat := 8 * (sectorSize * sb.nrSmapSects)

def SuperBlock.imapBits (sb : SuperBlock) : Nat := 8 * (sectorSize * sb.nrImapSects)

theorem FS.BufHolds.flushed_eq {b d : Bytes} {n : Nat} (h : BufHolds b d n) :
    flushed d b n = d := by
  funext x
  rcases Nat.lt_or_ge x (sectorSize * n) with hlt | hge
  · exact copyBytes_of_lt hlt
  · obtain ⟨i, rfl⟩ := Nat.exists_eq_add_of_le hge
    rcases Nat.lt_or_ge i sectorSize with hi | hi
    · rw [flushed_apply _ _ hi, h i hi]
    · exact copyBytes_of_ge (by omega)

def SuperBlock.smapSect (sb : SuperBlock) : Nat := 2 + sb.nrImapSects

/-- The maps have positions on the disk, and the data sectors are behind the super block. -/
structure SuperBlock.MapsOk (sb : SuperBlock) : Prop where
  addr : sectorSize * (2 + sb.nrImapSects + sb.nrSmapSects) ≤ 2 ^ 31
  first : 2 ≤ sb.n1stSect

/-- Bit `b` of the sector map stands for this sector. -/
def SuperBlock.bitSect (sb : SuperBlock) (b : Nat) : Nat := sb.n1stSect - 1 + b

/-- The smallest clear bit of the sector map stands for a sector whose number is one of 32 bits. -/
def FirstFits (sb : SuperBlock) (d : Bytes) : Prop :=
  ∀ f, f < sb.smapBits → Free d sb.smapSect f → (∀ g, g < f → ¬ Free d sb.smapSect g) →
    sb.bitSect f < 2 ^ 32

/-- The `b` first bits of the sector map have been searched for `n` clear ones: `a` are the
variables of the search, and `m` is the disk as it will be. -/
structure Searched (sb : SuperBlock) (d : Bytes) (n b : Nat) (a : SmapScan) (m : Bytes) : Prop where
  left : a.left = n - Nat.count (Free d sb.smapSect) b
  unset : Nat.count (Free d sb.smapSect) b = 0 → a.sectNr = 0
  first : ∀ f, f < b → Free d sb.smapSect f → (∀ g, g < f → ¬ Free d sb.smapSect g) →
    a.sectNr = sb.bitSect f
  bits : ∀ x, bitAt m x = (bitAt d x || decide (sectBit sb.smapSect ≤ x ∧
    x < sectBit sb.smapSect + b ∧ Nat.count (Free d sb.smapSect) (x - sectBit sb.smapSect) < n))

namespace Searched

variable {sb : SuperBlock} {d m m' : Bytes} {n b : Nat} {a a' : SmapScan}

theorem bit_eq (h : Searched sb d n b a m) :
    bitAt m (sectBit sb.smapSect + b) = bitAt d (sectBit sb.smapSect + b) := by
  rw [h.bits, decide_eq_false (by omega), Bool.or_false]

theorem skip (h : Searched sb d n b a m) (hset : ¬ Free d sb.smapSect b) :
    Searched sb d n (b + 1) a m := by
  have hcount : Nat.count (Free d sb.smapSect) (b + 1) = Nat.count (Free d sb.smapSect) b := by
    rw [Nat.count_succ, if_neg hset, Nat.add_zero]
  refine ⟨hcount ▸ h.left, fun hz => h.unset (hcount ▸ hz), ?_, ?_⟩
  · intro f hf hfree hfirst
    refine h.first f ?_ hfree hfirst
    by_contra hge
    obtain rfl : f = b := by omega
    exact hset hfree
  · intro x
    rw [h.bits x]
    by_cases hx : x = sectBit sb.smapSect + b
    · subst hx
      have hone : bitAt d (sectBit sb.smapSect + b) = true := by simpa [Free] using hset
      rw [hone, Bool.true_or, Bool.true_or]
    · congr 2
      apply propext
      omega

theorem skips (h : Searched sb d n b a m) {c : Nat} (hbc : b ≤ c)
    (hset : ∀ x, x < c → ¬ Free d sb.smapSect x) : Searched sb d n c a m := by
  induction c, hbc using Nat.le_induction with
  | base => exact h
  | succ c hbc ih => exact (ih fun x hx => hset x (by omega)).skip (hset c (Nat.lt_succ_self c))

theorem take (h : Searched sb d n b a m) (hfree : Free d sb.smapSect b) (hleft : 0 < a.left)
    (hsect : a.sectNr = 0 → a'.sectNr = sb.bitSect b) (hsame : a.sectNr ≠ 0 → a'.sectNr = a.sectNr)
    (hpos : 2 ≤ sb.n1stSect) (hleft' : a'.left = a.left - 1)
    (hm : ∀ x, bitAt m' x = (bitAt m x || decide (x = sectBit sb.smapSect + b))) :
    Searched sb d n (b + 1) a' m' := by
  have hl := h.left
  have hcount : Nat.count (Free d sb.smapSect) (b + 1) =
      Nat.count (Free d sb.smapSect) b + 1 := by
    rw [Nat.count_succ, if_pos hfree]
  refine ⟨by omega, fun hz => by omega, ?_, ?_⟩
  · intro f hf hfreef hfirst
    rcases Nat.lt_or_ge f b with hlt | hge
    · have hnr := h.first f hlt hfreef hfirst
      have hne : a.sectNr ≠ 0 := by
        rw [hnr, SuperBlock.bitSect]
        omega
      rw [hsame hne, hnr]
    · obtain rfl : f = b := by omega
      have hzero : a.sectNr = 0 := h.unset (Nat.count_iff_forall_not.mpr hfirst)
      exact hsect hzero
  · intro x
    rw [hm x, h.bits x]
    by_cases hx : x = sectBit sb.smapSect + b
    · subst hx
      rw [decide_eq_true rfl, Bool.or_true, decide_eq_true, Bool.or_true]
      rw [Nat.add_sub_cancel_left]
      omega
    · rw [decide_eq_false hx, Bool.or_false]
      congr 2
      apply propext
      omega

theorem sectNr_iff (h : Searched sb d n b a m) (hpos : 2 ≤ sb.n1stSect) :
    a.sectNr = 0 ↔ Nat.count (Free d sb.smapSect) b = 0 := by
  refine ⟨fun hz => ?_, h.unset⟩
  by_contra hne
  obtain ⟨f, hf, hfree⟩ := Nat.count_ne_iff_exists.mp hne
  have hex : ∃ f, Free d sb.smapSect f := ⟨f, hfree⟩
  have hnr := h.first (Nat.find hex) (lt_of_le_of_lt (Nat.find_min' hex hfree) hf)
    (Nat.find_spec hex) fun g hg => Nat.find_min hex hg
  rw [SuperBlock.bitSect] at hnr
  omega

theorem rest (h : Searched sb d n b a m) (hn : 0 < n) (hleft : a.left = 0) {c : Nat} (hbc : b ≤ c) :
    Searched sb d n c a m := by
  have hl := h.left
  have hmono := Nat.count_monotone (Free d sb.smapSect) hbc
  refine ⟨by omega, fun hz => by omega, ?_, ?_⟩
  · intro f _ hfree hfirst
    refine h.first f ?_ hfree hfirst
    by_contra hge
    have hzero : Nat.count (Free d sb.smapSect) b = 0 :=
      Nat.count_iff_forall_not.mpr fun g hg => hfirst g (by omega)
    omega
  · intro x
    rw [h.bits x]
    by_cases hx : x < sectBit sb.smapSect + b
    · congr 2
      apply propext
      omega
    · have hcount : ¬ Nat.count (Free d sb.smapSect) (x - sectBit sb.smapSect) < n ∨
          x < sectBit sb.smapSect := by
        by_cases hlow : x < sectBit sb.smapSect
        · exact Or.inr hlow
        · have hle := Nat.count_monotone (Free d sb.smapSect)
            (show b ≤ x - sectBit sb.smapSect by omega)
          left
          omega
      congr 2
      apply propext
      omega

end Searched

namespace FS

section Smap

variable {s : Fs} {sb : SuperBlock} {d : Bytes} {n i j k : Nat} {a : SmapScan}

theorem bit_place (sb : SuperBlock) (i j k : Nat) :
    sectBit sb.smapSect + (8 * (sectorSize * i + j) + k) =
      8 * (sectorSize * (sb.smapSect + i) + j) + k := by
  have hs : sectorSize = 512 := rfl
  rw [sectBit, hs]
  omega

theorem bit_searched (hj : j < sectorSize) (hk : k < 8)
    (h : Searched sb d n (8 * (sectorSize * i + j) + k) a
      (flushed s.disk s.fsbuf (sb.smapSect + i))) :
    s.fsbuf j &&& bitMask k = 0 ↔ Free d sb.smapSect (8 * (sectorSize * i + j) + k) := by
  rw [Free, ← h.bit_eq, bit_place, bitAt_mul_add hk, flushed_apply _ _ hj, and_mask_eq_zero hk]

theorem firstSect_eq (hok : sb.MapsOk) (hfit : sb.bitSect (8 * (sectorSize * i + j) + k) < 2 ^ 32) :
    toU32 ((j + i * sectorSize) * 8 + k - 1 + sb.n1stSect) =
      sb.bitSect (8 * (sectorSize * i + j) + k) := by
  have hs : sectorSize = 512 := rfl
  have hfirst := hok.first
  rw [SuperBlock.bitSect, hs] at hfit ⊢
  unfold toU32
  omega

theorem allocSmapStep_spec (hok : sb.MapsOk) (hfit : FirstFits sb d) (hn : 0 < n)
    (hi : i < sb.nrSmapSects)
    (hj : j < sectorSize) (hk : k < 8)
    (h : Searched sb d n (8 * (sectorSize * i + j) + k) a
      (flushed s.disk s.fsbuf (sb.smapSect + i))) :
    wp (allocSmapStep sb i j k a) (fun r s' => ∃ buf, s' = { s with fsbuf := buf } ∧
      match r with
      | .yield a' => Searched sb d n (8 * (sectorSize * i + j) + k + 1) a'
          (flushed s.disk buf (sb.smapSect + i))
      | .done a' => Searched sb d n (8 * (sectorSize * i + (j + 1))) a'
          (flushed s.disk buf (sb.smapSect + i))) (fun _ _ => False) s := by
  have hbit := bit_searched hj hk h
  simp only [allocSmapStep, wp_bind, wp_get, wp_ite, wp_setBuf, wp_pure]
  refine ⟨fun hset => ⟨s.fsbuf, rfl, h.skip fun hf => hset (hbit.mpr hf)⟩, fun hclear => ?_⟩
  have hfree := hbit.mp (not_not.mp hclear)
  refine ⟨fun hleft => ⟨_, rfl, ?_⟩, fun hleft => ⟨s.fsbuf, rfl, ?_⟩⟩
  · apply h.take hfree hleft _ _ hok.first rfl
    · intro x
      rw [flushed_setBit _ _ hj, bitAt_setBit hk, bit_place]
    · intro hz
      have hnone := Nat.count_iff_forall_not.mp ((h.sectNr_iff hok.first).mp hz)
      have hb : 8 * (sectorSize * i + j) + k < sb.smapBits := by
        have hs : sectorSize = 512 := rfl
        rw [hs] at hj
        rw [SuperBlock.smapBits, hs]
        omega
      rw [if_pos hz, firstSect_eq hok (hfit _ hb hfree hnone)]
    · intro hne
      rw [if_neg hne]
  · have hzero : a.left = 0 := by omega
    have hl := h.left
    have hne : a.sectNr ≠ 0 := by
      intro hz
      have hcount := (h.sectNr_iff hok.first).mp hz
      omega
    rw [if_neg hne]
    exact h.rest hn hzero (by omega)

theorem allocByte_spec (hok : sb.MapsOk) (hfit : FirstFits sb d) (hn : 0 < n)
    (hi : i < sb.nrSmapSects) (hj : j < sectorSize)
    (h : Searched sb d n (8 * (sectorSize * i + j)) a (flushed s.disk s.fsbuf (sb.smapSect + i))) :
    wp (do
        if (← get).fsbuf j = 0xff then return .yield a
        else return .yield (← iter (allocSmapStep sb i j) 8 0 a))
      (fun (r : ForInStep SmapScan) s' => ∃ buf, s' = { s with fsbuf := buf } ∧
        match r with
        | .done _ => False
        | .yield a' => Searched sb d n (8 * (sectorSize * i + (j + 1))) a'
          (flushed s.disk buf (sb.smapSect + i))) (fun _ _ => False) s := by
  simp only [wp_bind, wp_get, wp_ite, wp_pure]
  constructor
  · intro hfull
    refine ⟨s.fsbuf, rfl, ?_⟩
    have hall : ∀ k, k ≤ 8 → Searched sb d n (8 * (sectorSize * i + j) + k) a
        (flushed s.disk s.fsbuf (sb.smapSect + i)) := by
      intro k
      induction k with
      | zero => exact fun _ => h
      | succ k ih =>
        intro hk
        have hk' := ih (by omega)
        apply hk'.skip
        rw [← bit_searched hj (by omega) hk', hfull, and_mask_eq_zero (by omega),
          byteBit_full (by omega)]
        simp
    exact hall 8 (Nat.le_refl 8)
  · intro _
    apply @wp_iter _ _ _ _ _ _ (fun k a' s' => ∃ buf, s' = { s with fsbuf := buf } ∧
      Searched sb d n (8 * (sectorSize * i + j) + k) a' (flushed s.disk buf (sb.smapSect + i)))
    · exact ⟨s.fsbuf, rfl, h⟩
    · rintro k a' s' - hk ⟨buf, rfl, hsearch⟩
      refine wp_mono (allocSmapStep_spec hok hfit hn hi hj (by omega) hsearch) ?_ (fun _ _ h => h)
      rintro r s'' ⟨buf', rfl, hr⟩
      cases r with
      | done a'' => exact ⟨buf', rfl, hr⟩
      | yield a'' => exact ⟨buf', rfl, hr⟩
    · rintro a' s' ⟨buf, rfl, hsearch⟩
      exact ⟨buf, rfl, hsearch⟩

theorem allocSector_spec (hok : sb.MapsOk) (hfit : FirstFits sb d) (hn : 0 < n)
    (hi : i < sb.nrSmapSects)
    (h : Searched sb d n (8 * (sectorSize * i)) a (flushed s.disk s.fsbuf (sb.smapSect + i))) :
    wp (iter (fun j a => do
        if (← get).fsbuf j = 0xff then return .yield a
        else return .yield (← iter (allocSmapStep sb i j) 8 0 a)) sectorSize 0 a)
      (fun a' s' => ∃ buf, s' = { s with fsbuf := buf } ∧
        Searched sb d n (8 * (sectorSize * (i + 1))) a' (flushed s.disk buf (sb.smapSect + i)))
      (fun _ _ => False) s := by
  apply @wp_iter _ _ _ _ _ _ (fun j a' s' => ∃ buf, s' = { s with fsbuf := buf } ∧
    Searched sb d n (8 * (sectorSize * i + j)) a' (flushed s.disk buf (sb.smapSect + i)))
  · exact ⟨s.fsbuf, rfl, h⟩
  · rintro j a' s' - hj ⟨buf, rfl, hsearch⟩
    refine wp_mono (allocByte_spec hok hfit hn hi (by omega) hsearch) ?_ (fun _ _ h => h)
    rintro r s'' ⟨buf', rfl, hr⟩
    cases r with
    | done a'' => exact hr.elim
    | yield a'' => exact ⟨buf', rfl, hr⟩
  · rintro a' s' ⟨buf, rfl, hsearch⟩
    refine ⟨buf, rfl, ?_⟩
    rw [Nat.zero_add] at hsearch
    rw [Nat.mul_add sectorSize, Nat.mul_one]
    exact hsearch

theorem allocSect_spec (hok : sb.MapsOk) (hfit : FirstFits sb d) (hn : 0 < n)
    (hi : i < sb.nrSmapSects)
    (h : Searched sb d n (8 * (sectorSize * i)) a s.disk) :
    wp (do
        onDev rootDev (rdSect (sb.smapSect + i))
        let a ← iter (fun j a => do
          if (← get).fsbuf j = 0xff then return .yield a
          else return .yield (← iter (allocSmapStep sb i j) 8 0 a)) sectorSize 0 a
        when (a.sectNr ≠ 0) (onDev rootDev (wrSect (sb.smapSect + i)))
        if a.left = 0 then return .done a else return .yield a)
      (fun (r : ForInStep SmapScan) s' => ∃ buf disk, s' = { s with fsbuf := buf, disk := disk } ∧
        match r with
        | .done a' => a'.left = 0 ∧ Searched sb d n (8 * (sectorSize * (i + 1))) a' disk
        | .yield a' => Searched sb d n (8 * (sectorSize * (i + 1))) a' disk)
      (fun _ _ => False) s := by
  have haddr : sectorSize * (sb.smapSect + i) < 2 ^ 31 := by
    have hmap := hok.addr
    have hs : sectorSize = 512 := rfl
    rw [hs] at hmap ⊢
    rw [SuperBlock.smapSect]
    omega
  have hread : Searched sb d n (8 * (sectorSize * i)) a (flushed s.disk
      (copyBytes s.fsbuf 0 s.disk (sectorSize * (sb.smapSect + i)) sectorSize)
      (sb.smapSect + i)) := by
    rw [flushed_read]
    exact h
  rw [wp_bind, onDev, if_pos rfl, wp_rdSect haddr, wp_bind]
  refine wp_mono (@allocSector_spec { s with fsbuf := _ } sb d n i a hok hfit hn hi hread) ?_
    (fun _ _ h => h)
  rintro a' s' ⟨buf, rfl, hsearch⟩
  dsimp only at hsearch ⊢
  -- a sector in which no bit was clear is not written, and does not differ
  have hdisk : ∃ disk, Searched sb d n (8 * (sectorSize * (i + 1))) a' disk ∧
      disk = if a'.sectNr ≠ 0 then flushed s.disk buf (sb.smapSect + i) else s.disk := by
    by_cases hz : a'.sectNr = 0
    · refine ⟨s.disk, ?_, by rw [if_neg (not_not.mpr hz)]⟩
      have hnone := Nat.count_iff_forall_not.mp ((hsearch.sectNr_iff hok.first).mp hz)
      have hsame := h.skips (show 8 * (sectorSize * i) ≤ 8 * (sectorSize * (i + 1)) by
        rw [Nat.mul_add sectorSize]
        omega) hnone
      exact ⟨hsearch.left, hsearch.unset, hsearch.first, hsame.bits⟩
    · exact ⟨_, hsearch, by rw [if_pos hz]⟩
  obtain ⟨disk, hs, hd⟩ := hdisk
  rw [wp_bind, wp_when, onDev, if_pos rfl, wp_wrSect haddr]
  simp only [wp_ite, wp_pure]
  refine ⟨fun hne => ⟨fun hleft => ⟨buf, disk, ?_, hleft, hs⟩, fun _ => ⟨buf, disk, ?_, hs⟩⟩,
    fun hz => ⟨fun hleft => ⟨buf, disk, ?_, hleft, hs⟩, fun _ => ⟨buf, disk, ?_, hs⟩⟩⟩
  · rw [hd, if_pos hne]
    rfl
  · rw [hd, if_pos hne]
    rfl
  · rw [hd, if_neg hz]
  · rw [hd, if_neg hz]

theorem searched_zero (sb : SuperBlock) (d : Bytes) (n : Nat) :
    Searched sb d n (8 * (sectorSize * 0)) ⟨0, n⟩ d := by
  refine ⟨rfl, fun _ => rfl, fun f hf => absurd hf (Nat.not_lt_zero f), ?_⟩
  intro x
  rw [decide_eq_false (by omega), Bool.or_false]

end Smap

end FS

/-- From `d` to `m` exactly the first `n` clear bits of the sector map have been set. -/
def SmapTaken (sb : SuperBlock) (d : Bytes) (n : Nat) (m : Bytes) : Prop :=
  ∀ x, bitAt m x = true ↔ bitAt d x = true ∨
    ∃ b, b < sb.smapBits ∧ AmongFirst (Free d sb.smapSect) n b ∧ x = sectBit sb.smapSect + b

theorem Searched.taken {sb : SuperBlock} {d m : Bytes} {n : Nat} {a : SmapScan}
    (h : Searched sb d n sb.smapBits a m) : SmapTaken sb d n m := by
  intro x
  rw [h.bits x, Bool.or_eq_true, decide_eq_true_iff]
  constructor
  · rintro (hx | ⟨hge, hlt, hcount⟩)
    · exact Or.inl hx
    · obtain ⟨b, rfl⟩ := Nat.exists_eq_add_of_le hge
      rw [Nat.add_sub_cancel_left] at hcount
      by_cases hfree : Free d sb.smapSect b
      · exact Or.inr ⟨b, by omega, ⟨hfree, hcount⟩, rfl⟩
      · left
        simpa [Free] using hfree
  · rintro (hx | ⟨b, hb, hfirst, rfl⟩)
    · exact Or.inl hx
    · refine Or.inr ⟨by omega, by omega, ?_⟩
      rw [Nat.add_sub_cancel_left]
      exact hfirst.2

/-- The file system with another disk and buffer, and the device of the last super block that was
asked for. -/
def Fs.onDisk (s : Fs) (dev : Nat) (disk buf : Bytes) : Fs :=
  { s with disk, fsbuf := buf, sb := { s.sb with sbDev := dev } }

/-- The first `n` clear bits of the sector map have been set, and `nr` is the sector of the
smallest. -/
structure SmapAllocated (s : Fs) (n nr : Nat) (s' : Fs) : Prop where
  state : ∃ disk buf, s' = s.onDisk rootDev disk buf
  enough : n ≤ Nat.count (Free s.disk s.sb.smapSect) s.sb.smapBits
  taken : SmapTaken s.sb s.disk n s'.disk
  first : ∀ f, Free s.disk s.sb.smapSect f → (∀ g, g < f → ¬ Free s.disk s.sb.smapSect g) →
    nr = s.sb.bitSect f

/-- There are fewer than `n` clear bits, and all of them have been set. -/
structure SmapExhausted (s : Fs) (n : Nat) (s' : Fs) : Prop where
  state : ∃ disk buf, s' = s.onDisk rootDev disk buf
  short : Nat.count (Free s.disk s.sb.smapSect) s.sb.smapBits < n
  taken : SmapTaken s.sb s.disk n s'.disk

namespace FS

variable {s : Fs} {n : Nat}

theorem allocSmap_end {a : SmapScan} {disk buf : Bytes} (hn : 0 < n)
    (h : Searched { s.sb with sbDev := rootDev } s.disk n s.sb.smapBits a disk) :
    wp (check (a.left = 0)) (fun _ s' => SmapAllocated s n a.sectNr s')
      (fun w s' => w = .assertion ∧ SmapExhausted s n s') (s.onDisk rootDev disk buf) := by
  have hleft := h.left
  rw [wp_check]
  constructor
  · intro hz
    have hcount : n ≤ Nat.count (Free s.disk s.sb.smapSect) s.sb.smapBits := by
      rw [hz] at hleft
      exact Nat.le_of_sub_eq_zero hleft.symm
    refine ⟨⟨disk, buf, rfl⟩, hcount, h.taken, fun f hfree hfirst => ?_⟩
    refine h.first f ?_ hfree hfirst
    have hone : AmongFirst (Free s.disk s.sb.smapSect) n f :=
      ⟨hfree, by rwa [Nat.count_iff_forall_not.mpr hfirst]⟩
    exact hone.lt hcount
  · intro hne
    refine ⟨rfl, ⟨disk, buf, rfl⟩, ?_, h.taken⟩
    by_contra hge
    exact hne (hleft.trans (Nat.sub_eq_zero_of_le (Nat.le_of_not_lt hge)))

/-- `alloc_smap_bit` sets the first clear bits of the sector map, and fails its assertion when it
has set all there are. -/
theorem allocSmapBit_spec (hok : s.sb.MapsOk) (hfit : FirstFits s.sb s.disk) (hn : 0 < n) :
    wp (allocSmapBit rootDev n) (fun nr s' => SmapAllocated s n nr s')
      (fun w s' => w = .assertion ∧ SmapExhausted s n s') s := by
  have hdev : rootDev ≠ 0 := by decide
  simp only [allocSmapBit, getSuperBlock, wp_bind, wp_modify, wp_ite, wp_get, wp_pure]
  refine ⟨fun hz => absurd hz hdev, fun _ => ?_⟩
  have hok' : ({ s.sb with sbDev := rootDev } : SuperBlock).MapsOk := ⟨hok.addr, hok.first⟩
  refine @wp_iter _ _ _ _ _ _ (fun i a s' => ∃ disk buf, s' = s.onDisk rootDev disk buf ∧
    Searched { s.sb with sbDev := rootDev } s.disk n (8 * (sectorSize * i)) a disk) _ _ _ ?_ ?_ ?_
  · exact ⟨s.disk, s.fsbuf, rfl, searched_zero _ _ _⟩
  · rintro i a s' - hi ⟨disk, buf, rfl, hsearch⟩
    rw [Nat.zero_add] at hi
    have hround := @allocSect_spec (s.onDisk rootDev disk buf) _ s.disk n i a hok' hfit hn hi
      hsearch
    refine wp_mono hround ?_ (fun _ _ h => h.elim)
    rintro r s'' ⟨buf', disk', rfl, hr⟩
    cases r with
    | yield a' => exact ⟨disk', buf', rfl, hr⟩
    | done a' =>
      refine @allocSmap_end s n a' disk' buf' hn (hr.2.rest hn hr.1 ?_)
      have hs : sectorSize = 512 := rfl
      have hi' : i < s.sb.nrSmapSects := hi
      rw [SuperBlock.smapBits, hs]
      omega
  · rintro a s' ⟨disk, buf, rfl, hsearch⟩
    rw [Nat.zero_add] at hsearch
    exact allocSmap_end hn hsearch

end FS

/-- Bit `nr` of the inode map was its first clear one and has been set. -/
structure ImapAllocated (s : Fs) (nr : Nat) (s' : Fs) : Prop where
  lt : nr < s.sb.imapBits
  free : Free s.disk 2 nr
  first : ∀ m, m < nr → ¬ Free s.disk 2 m
  state : ∃ buf, s' = s.onDisk rootDev (setBit s.disk (sectorSize * 2 + nr / 8) (nr % 8)) buf

/-- The inode map is full, and nothing has been written. -/
structure ImapFull (s s' : Fs) : Prop where
  full : ∀ m, m < s.sb.imapBits → ¬ Free s.disk 2 m
  state : ∃ buf, s' = s.onDisk rootDev s.disk buf

namespace FS

section Imap

variable {s : Fs} {buf : Bytes} {i j k : Nat}

theorem imap_bit (hbuf : BufHolds buf s.disk (2 + i)) (hj : j < sectorSize) (hk : k < 8) :
    buf j &&& bitMask k = 0 ↔ Free s.disk 2 (8 * (sectorSize * i + j) + k) := by
  have hplace : sectBit 2 + (8 * (sectorSize * i + j) + k) =
      8 * (sectorSize * (2 + i) + j) + k := by
    have hs : sectorSize = 512 := rfl
    rw [sectBit, hs]
    omega
  rw [Free, hplace, bitAt_mul_add hk, ← hbuf j hj, and_mask_eq_zero hk]

theorem allocImapBit_found (haddr : sectorSize * (2 + s.sb.nrImapSects) ≤ 2 ^ 31)
    (hi : i < s.sb.nrImapSects) (hj : j < sectorSize) (hk : k < 8)
    (hbuf : BufHolds buf s.disk (2 + i))
    (hbefore : ∀ m, m < 8 * (sectorSize * i + j) + k → ¬ Free s.disk 2 m)
    (hfree : Free s.disk 2 (8 * (sectorSize * i + j) + k)) :
    wp (do
        setBuf fun b => setBit b j k
        onDev rootDev (wrSect (2 + i)))
      (fun _ s' => ImapAllocated s ((j + i * sectorSize) * 8 + k) s') (fun _ _ => False)
      (s.onDisk rootDev s.disk buf) := by
  have hs : sectorSize = 512 := rfl
  have hpos : sectorSize * (2 + i) < 2 ^ 31 := by
    rw [hs] at haddr ⊢
    omega
  have hnr : (j + i * sectorSize) * 8 + k = 8 * (sectorSize * i + j) + k := by
    rw [hs]
    omega
  rw [wp_bind, wp_setBuf, onDev, if_pos rfl, wp_wrSect hpos, hnr]
  refine ⟨?_, hfree, hbefore, setBit buf j k, ?_⟩
  · rw [SuperBlock.imapBits, hs]
    rw [hs] at hj
    omega
  · have hd : (8 * (sectorSize * i + j) + k) / 8 = sectorSize * i + j := by omega
    have hm : (8 * (sectorSize * i + j) + k) % 8 = k := by omega
    have hplace : sectorSize * 2 + (sectorSize * i + j) = sectorSize * (2 + i) + j := by
      rw [hs]
      omega
    have hwrite := @flushed_setBit s.disk buf (2 + i) j k hj
    rw [hbuf.flushed_eq] at hwrite
    rw [hd, hm, hplace, ← hwrite]
    rfl

/-- What a part of the search has found: a bit, or none in front of bit `c` and the same disk. -/
def ImapSearched (s : Fs) (c : Nat) (r : Option Nat) (s' : Fs) : Prop :=
  match r with
  | some nr => ImapAllocated s nr s'
  | none => ∃ buf, s' = s.onDisk rootDev s.disk buf ∧ ∀ m, m < c → ¬ Free s.disk 2 m

theorem allocImapByte_spec (haddr : sectorSize * (2 + s.sb.nrImapSects) ≤ 2 ^ 31)
    (hi : i < s.sb.nrImapSects) (hj : j < sectorSize) (hbuf : BufHolds buf s.disk (2 + i))
    (hbefore : ∀ m, m < 8 * (sectorSize * i + j) → ¬ Free s.disk 2 m) :
    wp (do
        if (← get).fsbuf j = 0xff then return none
        else
          scan (fun k => do
            if (← get).fsbuf j &&& bitMask k = 0 then
              setBuf fun b => setBit b j k
              onDev rootDev (wrSect (2 + i))
              return some ((j + i * sectorSize) * 8 + k)
            else return none) 8 0)
      (fun (r : Option Nat) s' => ImapSearched s (8 * (sectorSize * i + (j + 1))) r s' ∧
        (r = none → s' = s.onDisk rootDev s.disk buf)) (fun _ _ => False)
      (s.onDisk rootDev s.disk buf) := by
  simp only [wp_bind, wp_get, wp_ite, wp_pure]
  refine ⟨fun hfull => ⟨⟨buf, rfl, fun m hm => ?_⟩, fun _ => trivial⟩, fun _ => ?_⟩
  · rcases Nat.lt_or_ge m (8 * (sectorSize * i + j)) with hlt | hge
    · exact hbefore m hlt
    · obtain ⟨k, rfl⟩ := Nat.exists_eq_add_of_le hge
      have hk : k < 8 := by omega
      have hfull' : buf j = 0xff := hfull
      rw [← imap_bit hbuf hj hk, hfull', and_mask_eq_zero hk, byteBit_full hk]
      simp
  · apply @wp_scan _ _ _ _ _ _ (fun k s' => s' = s.onDisk rootDev s.disk buf ∧
      ∀ m, m < 8 * (sectorSize * i + j) + k → ¬ Free s.disk 2 m)
    · exact ⟨rfl, hbefore⟩
    · rintro k s' - hk ⟨rfl, hbefore'⟩
      have hk8 : k < 8 := by omega
      have hbit := imap_bit hbuf hj hk8
      simp only [wp_bind, wp_get, wp_ite, wp_pure]
      refine ⟨fun hzero => ?_, fun hone => ?_⟩
      · have hfound := allocImapBit_found haddr hi hj hk8 hbuf hbefore' (hbit.mp hzero)
        rw [wp_bind] at hfound
        refine wp_mono hfound ?_ (fun _ _ h => h)
        intro _ s' hset
        refine wp_mono hset ?_ (fun _ _ h => h)
        intro _ s'' halloc
        exact ⟨halloc, fun h => by cases h⟩
      · rw [if_pos trivial]
        refine ⟨trivial, fun m hm => ?_⟩
        rcases Nat.lt_or_ge m (8 * (sectorSize * i + j) + k) with hlt | hge
        · exact hbefore' m hlt
        · obtain rfl : m = 8 * (sectorSize * i + j) + k := by omega
          exact fun hf => hone (hbit.mpr hf)
    · rintro s' ⟨rfl, hbefore'⟩
      exact ⟨⟨buf, rfl, fun m hm => hbefore' m (by omega)⟩, fun _ => rfl⟩

theorem allocImapSect_spec (haddr : sectorSize * (2 + s.sb.nrImapSects) ≤ 2 ^ 31)
    (hi : i < s.sb.nrImapSects) (hbefore : ∀ m, m < 8 * (sectorSize * i) → ¬ Free s.disk 2 m) :
    wp (do
        onDev rootDev (rdSect (2 + i))
        scan (fun j => do
          if (← get).fsbuf j = 0xff then return none
          else
            scan (fun k => do
              if (← get).fsbuf j &&& bitMask k = 0 then
                setBuf fun b => setBit b j k
                onDev rootDev (wrSect (2 + i))
                return some ((j + i * sectorSize) * 8 + k)
              else return none) 8 0) sectorSize 0)
      (fun (r : Option Nat) s' => ImapSearched s (8 * (sectorSize * (i + 1))) r s')
      (fun _ _ => False) (s.onDisk rootDev s.disk buf) := by
  have hs : sectorSize = 512 := rfl
  have hpos : sectorSize * (2 + i) < 2 ^ 31 := by
    rw [hs] at haddr ⊢
    omega
  rw [wp_bind, onDev, if_pos rfl, wp_rdSect hpos]
  apply @wp_scan _ _ _ _ _ _ (fun j s' => ∃ buf, s' = s.onDisk rootDev s.disk buf ∧
    BufHolds buf s.disk (2 + i) ∧ ∀ m, m < 8 * (sectorSize * i + j) → ¬ Free s.disk 2 m)
  · exact ⟨_, rfl, bufHolds_read buf s.disk (2 + i), hbefore⟩
  · rintro j s' - hj ⟨buf', rfl, hbuf', hbefore'⟩
    refine wp_mono (allocImapByte_spec haddr hi (by omega) hbuf' hbefore') ?_ (fun _ _ h => h)
    rintro r s' ⟨hr, hsame⟩
    cases r with
    | some nr =>
      rw [if_neg (by simp)]
      exact hr
    | none =>
      rw [if_pos rfl]
      obtain ⟨_, _, hnone⟩ := hr
      exact ⟨buf', hsame rfl, hbuf', hnone⟩
  · rintro s' ⟨buf', rfl, -, hbefore'⟩
    refine ⟨buf', rfl, fun m hm => hbefore' m ?_⟩
    rw [hs] at hm ⊢
    omega

theorem allocImapBit_spec (hok : s.sb.MapsOk) :
    wp (allocImapBit rootDev) (fun nr s' => ImapAllocated s nr s')
      (fun w s' => w = .panic ∧ ImapFull s s') s := by
  have hdev : rootDev ≠ 0 := by decide
  have hs : sectorSize = 512 := rfl
  have haddr : sectorSize * (2 + s.sb.nrImapSects) ≤ 2 ^ 31 := by
    have hmap := hok.addr
    rw [hs] at hmap ⊢
    omega
  rw [allocImapBit, wp_bind, getSuperBlock, wp_bind, wp_modify, wp_ite]
  refine ⟨fun hz => absurd hz hdev, fun _ => ?_⟩
  rw [wp_bind, wp_get, wp_pure, wp_bind]
  apply @wp_scan _ _ _ _ _ _ (fun i s' => ∃ buf, s' = s.onDisk rootDev s.disk buf ∧
    ∀ m, m < 8 * (sectorSize * i) → ¬ Free s.disk 2 m)
  · exact ⟨s.fsbuf, rfl, fun m hm => absurd hm (Nat.not_lt_zero m)⟩
  · rintro i s' - hi ⟨buf, rfl, hbefore⟩
    rw [Nat.zero_add] at hi
    refine wp_mono (allocImapSect_spec haddr hi hbefore) ?_ (fun _ _ h => h.elim)
    intro r s' hr
    cases r with
    | some nr =>
      rw [if_neg (by simp)]
      exact hr
    | none =>
      rw [if_pos rfl]
      exact hr
  · rintro s' ⟨buf, rfl, hbefore⟩
    refine ⟨rfl, fun m hm => hbefore m ?_, buf, rfl⟩
    rw [Nat.zero_add]
    exact hm

/-- Both allocators take the lowest clear bits and leave every other bit of the disk alone. -/
theorem alloc_lowest_bits {n : Nat} (hok : s.sb.MapsOk) (hfit : FirstFits s.sb s.disk) (hn : 0 < n)
    (himap : ∃ b, b < s.sb.imapBits ∧ Free s.disk 2 b)
    (hsmap : n ≤ Nat.count (Free s.disk s.sb.smapSect) s.sb.smapBits) :
    (∃ nr s', allocImapBit rootDev s = .ok nr s' ∧ IsLeast {b | Free s.disk 2 b} nr ∧
      ∀ x, bitAt s'.disk x = true ↔ bitAt s.disk x = true ∨ x = sectBit 2 + nr) ∧
    (∃ f s', allocSmapBit rootDev n s = .ok (s.sb.n1stSect - 1 + f) s' ∧
      IsLeast {b | Free s.disk s.sb.smapSect b} f ∧
      Nat.count (AmongFirst (Free s.disk s.sb.smapSect) n) s.sb.smapBits = n ∧
      SmapTaken s.sb s.disk n s'.disk) := by
  constructor
  · obtain ⟨b, hb, hfree⟩ := himap
    have hspec : wp (allocImapBit rootDev) (fun nr s' => ImapAllocated s nr s')
        (fun _ _ => False) s :=
      wp_mono (allocImapBit_spec hok) (fun _ _ h => h) fun _ _ h => h.2.full b hb hfree
    obtain ⟨nr, s', hrun, halloc⟩ := exists_ok_of_wp hspec
    refine ⟨nr, s', hrun, ⟨halloc.free, fun m hm => ?_⟩, fun x => ?_⟩
    · by_contra hlt
      exact halloc.first m (Nat.lt_of_not_le hlt) hm
    · obtain ⟨buf, rfl⟩ := halloc.state
      have hplace : 8 * (sectorSize * 2 + nr / 8) + nr % 8 = sectBit 2 + nr := by
        rw [sectBit]
        omega
      change bitAt (setBit s.disk _ _) x = true ↔ _
      rw [bitAt_setBit (Nat.mod_lt _ (by decide)), hplace, Bool.or_eq_true, decide_eq_true_iff]
  · have hspec : wp (allocSmapBit rootDev n) (fun nr s' => SmapAllocated s n nr s')
        (fun _ _ => False) s :=
      wp_mono (allocSmapBit_spec hok hfit hn) (fun _ _ h => h)
        fun _ _ h => absurd h.2.short (Nat.not_lt.mpr hsmap)
    obtain ⟨nr, s', hrun, halloc⟩ := exists_ok_of_wp hspec
    have hex : ∃ f, Free s.disk s.sb.smapSect f := by
      obtain ⟨f, -, hf⟩ := Nat.count_ne_iff_exists.mp (show Nat.count (Free s.disk s.sb.smapSect)
        s.sb.smapBits ≠ 0 by omega)
      exact ⟨f, hf⟩
    have hnr := halloc.first (Nat.find hex) (Nat.find_spec hex) fun g hg => Nat.find_min hex hg
    refine ⟨Nat.find hex, s', ?_, ⟨Nat.find_spec hex, fun m hm => Nat.find_min' hex hm⟩, ?_,
      halloc.taken⟩
    · rw [hrun, hnr]
      rfl
    · rw [count_amongFirst]
      omega

end Imap

/-- A file system with maps of one sector each in which only the reserved bits are set. -/
def blankMaps : Fs where
  disk := fun a => if a = 1024 ∨ a = 1536 then 1 else 0
  fsbuf := fun _ => 0
  sb := { nrImapSects := 1, nrSmapSects := 1, n1stSect := 8 }

theorem mapsOk_blankMaps : blankMaps.sb.MapsOk where
  addr := by decide
  first := by decide

theorem firstFits_blankMaps : FirstFits blankMaps.sb blankMaps.disk := by
  intro f hf _ _
  have hlt : f < 4096 := hf
  change 7 + f < 2 ^ 32
  omega

theorem alloc_lowest_blankMaps :
    (∃ nr s', allocImapBit rootDev blankMaps = .ok nr s' ∧
      IsLeast {b | Free blankMaps.disk 2 b} nr ∧
      ∀ x, bitAt s'.disk x = true ↔ bitAt blankMaps.disk x = true ∨ x = sectBit 2 + nr) ∧
    (∃ f s', allocSmapBit rootDev 2 blankMaps = .ok (7 + f) s' ∧
      IsLeast {b | Free blankMaps.disk 3 b} f ∧
      Nat.count (AmongFirst (Free blankMaps.disk 3) 2) 4096 = 2 ∧
      SmapTaken blankMaps.sb blankMaps.disk 2 s'.disk) :=
  alloc_lowest_bits mapsOk_blankMaps firstFits_blankMaps (by decide)
    ⟨1, by decide, by decide⟩
    (le_trans (show 2 ≤ Nat.count (Free blankMaps.disk 3) 3 by decide)
      (Nat.count_monotone _ (by decide)))

end FS

end BazingaOS
