import BazingaOS.FS.Kept

/-!
# File systems whose files may share sectors

What requests keep although two files may have a sector in common: every inode in use is a file whose
bits are in the sector map, a terminal or the root directory, the entries of the directory have
different numbers of inodes in use, and so have the slots of the cache, which agree with the disk.
While an inode is made or removed the numbers in use are not those that the inode map has, so they are
a parameter.
-/

namespace BazingaOS

open Prog

/-- The slots of the root directory. -/
def rootSlots : Nat := entriesPerSect * nrDefaultFileSects

/-- The bits of the sectors of a file are in the sector map, behind the first `base` bits. -/
structure Mapped (sb : SuperBlock) (base : Nat) (i : DiskInode) : Prop where
  start : sb.n1stSect ≤ i.startSect + 1
  base : base ≤ sb.firstBit i
  sects : i.nrSects = nrDefaultFileSects
  inMap : sb.firstBit i + i.nrSects ≤ sb.smapBits

/-- `cmd.tar` on a partition whose sector map ends in front of its bits: behind the map they are in
the inode array. -/
structure Beyond (sb : SuperBlock) (base : Nat) (i : DiskInode) : Prop where
  start : i.startSect = installStartSect
  base : base ≤ sb.firstBit i
  sects : i.nrSects = installNrSects
  map : sb.nrSmapSects ≤ 8

/-- What inode `nr` can be. -/
inductive InodeKind (sb : SuperBlock) (base nr : Nat) (i : DiskInode) : Prop
  | file (mode : i.mode = iRegular) (mapped : Mapped sb base i)
  | beyond (mode : i.mode = iRegular) (beyond : Beyond sb base i)
  | dir (mode : i.mode = iDirectory) (root : nr = rootInodeNr)
  | special (mode : i.mode = iCharSpecial)
  | gone (mode : i.mode = 0)

/-- Every slot of the directory is free or has one of the numbers `P`, and no number is in two. -/
structure Listed (P : Nat → Prop) (d : Bytes) (start : Nat) : Prop where
  mem : ∀ t, t < rootSlots → slotNr d start t ≠ 0 → ∃ nr : Nat, P nr ∧ slotNr d start t = nr
  inj : ∀ t u, t < rootSlots → u < rootSlots → slotNr d start t ≠ 0 →
    slotNr d start t = slotNr d start u → t = u

/-- The first bit of the inode map and the first `base` bits of the sector map are set, and the
inodes `P` and the directory are as they can be. -/
structure DiskSteady (sb : SuperBlock) (base : Nat) (P : Nat → Prop) (d : Bytes) : Prop where
  zero : ¬ Free d 2 0
  low : ∀ b, b < base → ¬ Free d 3 b
  kind : ∀ nr, P nr → InodeKind sb base nr (storedInode sb d nr)
  listed : Listed P d sb.n1stSect

/-- A file system in use whose inodes have the numbers `P`; slot `r` of the cache has the root
directory. -/
structure Fs.Steady (s : Fs) (r : Fin nrInode) (base : Nat) (P : Nat → Prop) : Prop where
  laid : s.sb.Laid
  bits : base ≤ s.sb.smapBits
  number : ∀ nr, P nr → 1 ≤ nr ∧ nr < nrNumbers
  rootNumber : P rootInodeNr
  disk : DiskSteady s.sb base P s.disk
  cache : CacheOk s.sb s.disk s.inodeTable
  live : ∀ n, (s.inodeTable n).iCnt ≠ 0 → P (s.inodeTable n).iNum.toNat
  root : s.rootInode = some r
  dir : RootInode s.sb (s.inodeTable r)
  few : (s.inodeTable r).entries ≤ nrNumbers
  held : 0 < (s.inodeTable r).iCnt

section Kinds

variable {sb : SuperBlock} {base nr : Nat} {i j : DiskInode}

theorem Mapped.resize (h : Mapped sb base i) (hstart : j.startSect = i.startSect)
    (hsects : j.nrSects = i.nrSects) : Mapped sb base j := by
  obtain ⟨h₁, h₂, h₃, h₄⟩ := h
  have hbit : sb.firstBit j = sb.firstBit i := by rw [SuperBlock.firstBit, hstart, SuperBlock.firstBit]
  constructor
  · rw [hstart]
    exact h₁
  · rw [hbit]
    exact h₂
  · rw [hsects]
    exact h₃
  · rw [hbit, hsects]
    exact h₄

/-- The bits of `cmd.tar` behind a short sector map. -/
theorem Beyond.place (h : Beyond sb base i) (hl : sb.Laid) :
    sb.firstBit i + sb.nrSmapSects = 32510 ∧ i.nrSects = 2048 := by
  have hfirst := hl.first
  have hmap := h.map
  have hstart : installStartSect = 32768 := rfl
  refine ⟨?_, h.sects⟩
  rw [SuperBlock.firstBit, h.start, hstart]
  omega

theorem InodeKind.resize (h : InodeKind sb base nr i) (k : Nat) :
    InodeKind sb base nr { i with size := k } := by
  cases h with
  | file hmode hmap => exact .file hmode (hmap.resize rfl rfl)
  | beyond hmode hmap => exact .beyond hmode ⟨hmap.start, hmap.base, hmap.sects, hmap.map⟩
  | dir hmode hroot => exact .dir hmode hroot
  | special hmode => exact .special hmode
  | gone hmode => exact .gone hmode

theorem InodeKind.mapped (h : InodeKind sb base nr i) (hmode : i.mode = iRegular) :
    Mapped sb base i ∨ Beyond sb base i := by
  cases h with
  | file _ hmap => exact .inl hmap
  | beyond _ hmap => exact .inr hmap
  | dir h _ => exact absurd (hmode.symm.trans h) (by decide)
  | special h => exact absurd (hmode.symm.trans h) (by decide)
  | gone h => exact absurd (hmode.symm.trans h) (by decide)

theorem InodeKind.mode_lt (h : InodeKind sb base nr i) : i.mode < 2 ^ 16 := by
  cases h with
  | file hmode _ => exact lt_of_eq_of_lt hmode (by decide)
  | beyond hmode _ => exact lt_of_eq_of_lt hmode (by decide)
  | dir hmode _ => exact lt_of_eq_of_lt hmode (by decide)
  | special hmode => exact lt_of_eq_of_lt hmode (by decide)
  | gone hmode => exact lt_of_eq_of_lt hmode (by decide)

theorem InodeKind.congr_layout {sb' : SuperBlock} (h : InodeKind sb base nr i)
    (hsb : sb'.layout = sb.layout) : InodeKind sb' base nr i := by
  rw [SuperBlock.eq_of_layout hsb]
  cases h with
  | file hmode hmap => exact .file hmode ⟨hmap.start, hmap.base, hmap.sects, hmap.inMap⟩
  | beyond hmode hmap => exact .beyond hmode ⟨hmap.start, hmap.base, hmap.sects, hmap.map⟩
  | dir hmode hroot => exact .dir hmode hroot
  | special hmode => exact .special hmode
  | gone hmode => exact .gone hmode

end Kinds

namespace Listed

variable {P P' : Nat → Prop} {d d' : Bytes} {start t nr : Nat} {name : List UInt8}

theorem mono (h : Listed P d start) (hP : ∀ m, P m → P' m) : Listed P' d start := by
  refine ⟨fun t ht hz => ?_, h.inj⟩
  obtain ⟨m, hm, heq⟩ := h.mem t ht hz
  exact ⟨m, hP m hm, heq⟩

theorem congr (h : Listed P d start)
    (hd : ∀ t, t < rootSlots → slotNr d' start t = slotNr d start t) : Listed P d' start := by
  constructor
  · intro t ht hz
    rw [hd t ht] at hz ⊢
    exact h.mem t ht hz
  · intro t u ht hu hz heq
    rw [hd t ht] at hz heq
    rw [hd u hu] at heq
    exact h.inj t u ht hu hz heq

theorem slotNr_stored (hnr : nr < 2 ^ 31) :
    slotNr (putBytes d (slotAt start t) (entryBytes nr name)) start t = nr := by
  have hu : u32At (putBytes d (slotAt start t) (entryBytes nr name)) (slotAt start t) = nr := by
    rw [entryBytes, List.append_assoc, putBytes_append,
      u32At_putBytes_of_disjoint (.inr (Nat.le_of_eq (by rw [u32Bytes_length]))),
      u32At_putBytes (by omega)]
  rw [slotNr, hu]
  apply toI32_of_inI32
  constructor
  · omega
  · omega

theorem stored (h : Listed P d start) (hP : P nr) (hnr : nr < 2 ^ 31)
    (hnew : ∀ u, u < rootSlots → slotNr d start u ≠ nr) (hlen : name.length < maxFilenameLen) :
    Listed P (putBytes d (slotAt start t) (entryBytes nr name)) start := by
  have hself := @slotNr_stored d start t nr name hnr
  have hother : ∀ u, u ≠ t →
      slotNr (putBytes d (slotAt start t) (entryBytes nr name)) start u = slotNr d start u :=
    fun u hu => (slot_stored_of_ne hlen hu).1
  constructor
  · intro u hu hz
    by_cases hut : u = t
    · rw [hut]
      exact ⟨nr, hP, hself⟩
    · rw [hother u hut] at hz ⊢
      exact h.mem u hu hz
  · intro u v hu hv hz heq
    by_cases hut : u = t <;> by_cases hvt : v = t
    · rw [hut, hvt]
    · rw [hut, hself, hother v hvt] at heq
      exact absurd heq.symm (hnew v hv)
    · rw [hvt, hself, hother u hut] at heq
      exact absurd heq (hnew u hu)
    · rw [hother u hut] at hz heq
      rw [hother v hvt] at heq
      exact h.inj u v hu hv hz heq

theorem cleared (h : Listed P d start) (ht : t < rootSlots) (hnr : slotNr d start t = nr) :
    Listed (fun m => P m ∧ m ≠ nr) (clearedSlot d start t) start := by
  have hself := (slot_cleared_self d start t).1
  have hother : ∀ u, u ≠ t → slotNr (clearedSlot d start t) start u = slotNr d start u :=
    fun u hu => (slot_cleared_of_ne hu).1
  have hne : ∀ u, slotNr (clearedSlot d start t) start u ≠ 0 → u ≠ t := by
    rintro u hz rfl
    exact hz hself
  constructor
  · intro u hu hz
    have hut := hne u hz
    rw [hother u hut] at hz ⊢
    obtain ⟨m, hm, heq⟩ := h.mem u hu hz
    refine ⟨m, ⟨hm, ?_⟩, heq⟩
    rintro rfl
    exact hut (h.inj u t hu ht hz (heq.trans hnr.symm))
  · intro u v hu hv hz heq
    have hut := hne u hz
    have hvt := hne v (heq ▸ hz)
    rw [hother u hut] at hz heq
    rw [hother v hvt] at heq
    exact h.inj u v hu hv hz heq

theorem lt_numbers (h : Listed P d start) (hP : ∀ nr, P nr → 1 ≤ nr ∧ nr < nrNumbers)
    (ht : t ≤ rootSlots) (hall : ∀ u, u < t → slotNr d start u ≠ 0) : t < nrNumbers := by
  have hnum : ∀ u, u < t → ∃ nr : Nat, (1 ≤ nr ∧ nr < nrNumbers) ∧ slotNr d start u = nr := by
    intro u hu
    obtain ⟨nr, hnr, heq⟩ := h.mem u (by omega) (hall u hu)
    exact ⟨nr, hP nr hnr, heq⟩
  have hmaps : Set.MapsTo (fun u => (slotNr d start u).toNat) (Finset.range t)
      (Finset.Ico 1 nrNumbers) := by
    intro u hu
    obtain ⟨nr, hnr, heq⟩ := hnum u (Finset.mem_range.mp hu)
    simp only [heq, Int.toNat_natCast, Finset.coe_Ico]
    exact hnr
  have hinj : Set.InjOn (fun u => (slotNr d start u).toNat) (Finset.range t) := by
    intro u hu v hv heq
    have hu' := Finset.mem_range.mp hu
    have hv' := Finset.mem_range.mp hv
    obtain ⟨m, -, hm⟩ := hnum u hu'
    obtain ⟨k, -, hk⟩ := hnum v hv'
    simp only [hm, hk, Int.toNat_natCast] at heq
    exact h.inj u v (by omega) (by omega) (hall u hu') (by rw [hm, hk, heq])
  have hcard := Finset.card_le_card_of_injOn _ hmaps hinj
  rw [Finset.card_range, Nat.card_Ico] at hcard
  have hpos : 1 ≤ nrNumbers := by decide
  omega

end Listed

namespace DiskSteady

variable {sb : SuperBlock} {base k : Nat} {P P' : Nat → Prop} {d d' : Bytes} {i : DiskInode}

theorem of_same (h : DiskSteady sb base P d) (hzero : ¬ Free d' 2 0)
    (hlow : ∀ b, b < base → ¬ Free d' 3 b)
    (hstored : ∀ nr, P nr → storedInode sb d' nr = storedInode sb d nr)
    (hslot : ∀ t, t < rootSlots → slotNr d' sb.n1stSect t = slotNr d sb.n1stSect t) :
    DiskSteady sb base P d' := by
  refine ⟨hzero, hlow, fun nr hnr => ?_, h.listed.congr hslot⟩
  rw [hstored nr hnr]
  exact h.kind nr hnr

theorem slotNr_behind (hd : ∀ a, sectorSize * sb.n1stSect ≤ a → d' a = d a) (t : Nat) :
    slotNr d' sb.n1stSect t = slotNr d sb.n1stSect t :=
  (slot_congr fun a ha _ => hd a (Nat.le_trans (slotAt_le _ _) ha)).1

theorem smapEnd_le (hl : sb.Laid) : sectorSize * (3 + sb.nrSmapSects) ≤ sectorSize * sb.n1stSect :=
  Nat.mul_le_mul_left _ (by rw [hl.first]; omega)

theorem renumber (h : DiskSteady sb base P d) (hl : sb.Laid)
    (hd : ∀ a, sectorSize * 3 ≤ a → d' a = d a) (hzero : ¬ Free d' 2 0) :
    DiskSteady sb base P d' := by
  have hs : sectorSize = 512 := rfl
  have hend := smapEnd_le hl
  refine h.of_same hzero (fun b hb => ?_) (fun nr _ => ?_) fun t _ => ?_
  · rw [Free, bitAt_congr (hd _ (by rw [sectBit, hs]; omega))]
    exact h.low b hb
  · exact storedInode_congr hl (fun a ha => hd a (by rw [hs] at ha ⊢; omega)) nr
  · exact slotNr_behind (fun a ha => hd a (by rw [hs] at ha hend ⊢; omega)) t

theorem remap (h : DiskSteady sb base P d) (hl : sb.Laid)
    (hd : ∀ a, a < sectorSize * 3 ∨ sectorSize * (3 + sb.nrSmapSects) ≤ a → d' a = d a)
    (hlow : ∀ b, b < base → ¬ Free d' 3 b) : DiskSteady sb base P d' := by
  have hs : sectorSize = 512 := rfl
  have hend := smapEnd_le hl
  refine h.of_same ?_ hlow (fun nr _ => ?_) fun t _ => ?_
  · have hbit := @sectBit_imap 0 (by decide)
    rw [Free, bitAt_congr (hd _ (.inl (by rw [hs] at hbit ⊢; omega)))]
    exact h.zero
  · exact storedInode_congr hl (fun a ha => hd a (.inr ha)) nr
  · exact slotNr_behind (fun a ha => hd a (.inr (Nat.le_trans hend ha))) t

theorem store (h : DiskSteady sb base P d) (hl : sb.Laid) (hbase : base ≤ sb.smapBits) (hk : 1 ≤ k)
    (hlt : k < nrNumbers) (hfits : i.Fits) (hkind : InodeKind sb base k i)
    (hnumber : ∀ nr, P nr → 1 ≤ nr) (hsub : ∀ m, P m → P' m) (hsup : ∀ m, P' m → m = k ∨ P m) :
    DiskSteady sb base P' (putBytes d (inodePlace sb k) i.bytes) := by
  have hs : sectorSize = 512 := rfl
  refine ⟨?_, fun b hb => ?_, fun nr hnr => ?_, (h.listed.mono hsub).congr fun t _ => ?_⟩
  · have hbit := @sectBit_imap 0 (by decide)
    rw [Free, bitAt_put hl (by rw [hs] at hbit ⊢; omega)]
    exact h.zero
  · rw [Free, bitAt_put hl (sectBit_smap (by omega))]
    exact h.low b hb
  · by_cases hnk : nr = k
    · subst hnk
      rw [storedInode_put hfits]
      exact hkind
    · have hP := (hsup nr hnr).resolve_left hnk
      rw [storedInode_put_of_ne hk (hnumber nr hP) hnk]
      exact h.kind nr hP
  · refine slotNr_behind (fun a ha => putBytes_of_ge ?_) t
    have hplace := inodePlace_lt hl hlt
    rw [DiskInode.bytes_length]
    omega

theorem rewrite (h : DiskSteady sb base P d) (hl : sb.Laid) (hbase : base ≤ sb.smapBits)
    (hnumber : ∀ nr, P nr → nr < nrNumbers)
    (hd : ∀ a, a < sectorSize * sb.n1stSect → d' a = d a) (hsub : ∀ m, P' m → P m)
    (hlisted : Listed P' d' sb.n1stSect) : DiskSteady sb base P' d' := by
  have hs : sectorSize = 512 := rfl
  have hend := smapEnd_le hl
  refine ⟨?_, fun b hb => ?_, fun nr hnr => ?_, hlisted⟩
  · have hbit := @sectBit_imap 0 (by decide)
    rw [Free, bitAt_congr (hd _ (by rw [hs] at hbit hend ⊢; omega))]
    exact h.zero
  · have hbit := sectBit_smap (show b < sb.smapBits by omega)
    rw [Free, bitAt_congr (hd _ (by rw [hs] at hbit hend ⊢; omega))]
    exact h.low b hb
  · have hplace := inodePlace_lt hl (hnumber nr (hsub nr hnr))
    have hsame : storedInode sb d' nr = storedInode sb d nr :=
      diskInodeAt_shift fun j hj => hd _ (by omega)
    rw [hsame]
    exact h.kind nr (hsub nr hnr)

theorem congr_layout {sb' : SuperBlock} (h : DiskSteady sb base P d)
    (hsb : sb'.layout = sb.layout) : DiskSteady sb' base P d := by
  refine ⟨h.zero, h.low, fun nr hnr => ?_, ?_⟩
  · have hkind := (h.kind nr hnr).congr_layout hsb
    rw [SuperBlock.eq_of_layout hsb] at hkind ⊢
    exact hkind
  · rw [SuperBlock.eq_of_layout hsb]
    exact h.listed

end DiskSteady

end BazingaOS
