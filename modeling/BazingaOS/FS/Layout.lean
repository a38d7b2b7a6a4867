import BazingaOS.FS.Format

/-!
# The layout of a formatted partition

The seven regions of a partition as the super block and the inodes on disk give them, and what it
takes for them to be consistent with each other and with the two maps. `mkfs` places `cmd.tar` at a
fixed sector, so the size of the partition decides whether the root directory ends in front of it.
-/

namespace BazingaOS

open Prog

/-- A run of `nr` sectors from `first` on. -/
structure Extent where
  first : Nat
  nr : Nat

def Extent.Apart (e e' : Extent) : Prop := e.first + e.nr ≤ e'.first ∨ e'.first + e'.nr ≤ e.first

def Extent.Has (e : Extent) (sect : Nat) : Prop := e.first ≤ sect ∧ sect < e.first + e.nr

section OnDisk

variable (d : Bytes)

def diskSuper : SuperBlock := superBlockAt d sectorSize

def imapBit (b : Nat) : Bool := bitAt d (8 * (sectorSize * 2) + b)

def smapBit (b : Nat) : Bool := bitAt d (8 * (sectorSize * (2 + (diskSuper d).nrImapSects)) + b)

def inodeArraySect : Nat := 2 + (diskSuper d).nrImapSects + (diskSuper d).nrSmapSects

def diskInode (nr : Nat) : DiskInode :=
  diskInodeAt d (sectorSize * inodeArraySect d + inodeSize * (nr - 1))

def DiskInode.extent (i : DiskInode) : Extent := ⟨i.startSect, i.nrSects⟩

/-- The extents of the root directory and of `cmd.tar`. -/
def rootExtent : Extent := (diskInode d rootInodeNr).extent
def cmdTarExtent : Extent := (diskInode d (nrConsoles + 2)).extent

/-- The inode number in entry `k` of the root directory. -/
def rootEntry (k : Nat) : Nat :=
  u32At d (sectorSize * (rootExtent d).first + dirEntSize * k)

/-- The boot sector, the super block, the maps, the inode array, the root directory and
`cmd.tar`. -/
def regions : List Extent :=
  [⟨0, 1⟩, ⟨1, 1⟩, ⟨2, (diskSuper d).nrImapSects⟩,
    ⟨2 + (diskSuper d).nrImapSects, (diskSuper d).nrSmapSects⟩,
    ⟨inodeArraySect d, (diskSuper d).nrInodeSects⟩, rootExtent d, cmdTarExtent d]

end OnDisk

/-- A consistent layout of a partition of `size` sectors. The bit of data sector `x` of the sector
map is `x - n_1st_sect + 1`. -/
structure Layout (size : Nat) (d : Bytes) : Prop where
  apart : (regions d).Pairwise Extent.Apart
  inside : ∀ e ∈ regions d, e.first + e.nr ≤ size
  smap : ∀ b, b < 8 * (sectorSize * (diskSuper d).nrSmapSects) → (smapBit d b = true ↔
    b = 0 ∨ ∃ x, (diskSuper d).n1stSect + b = x + 1 ∧ 1 ≤ b ∧
      ((rootExtent d).Has x ∨ (cmdTarExtent d).Has x))
  smapCovers : ∀ x, (diskSuper d).n1stSect ≤ x → x < size →
    x - (diskSuper d).n1stSect + 1 < 8 * (sectorSize * (diskSuper d).nrSmapSects)
  imap : ∀ b, b < 8 * (sectorSize * (diskSuper d).nrImapSects) → (imapBit d b = true ↔ b ≤ 5)
  entries : ∀ k, dirEntSize * k < (diskInode d rootInodeNr).size →
    imapBit d (rootEntry d k) = true ∧ 1 ≤ rootEntry d k ∧ (diskInode d (rootEntry d k)).mode ≠ 0

section Formatted

variable {size : Nat} {d : Bytes} (hf : Formatted size d)
include hf

theorem Formatted.diskSuper_eq : diskSuper d = FS.makeSuperBlock size := hf.superBlock

theorem Formatted.inodeArraySect_eq :
    inodeArraySect d = 3 + (FS.makeSuperBlock size).nrSmapSects := by
  rw [inodeArraySect, hf.diskSuper_eq]
  rfl

theorem Formatted.diskInode_eq {nr : Nat} (h1 : 1 ≤ nr) (h5 : nr ≤ 5) :
    diskInode d nr = inodeAfter size nr := by
  rw [diskInode, hf.inodeArraySect_eq]
  exact hf.inode nr h1 h5

theorem Formatted.rootExtent_eq :
    rootExtent d = ⟨(FS.makeSuperBlock size).n1stSect, nrDefaultFileSects⟩ := by
  rw [rootExtent, hf.diskInode_eq (by decide) (by decide)]
  rfl

theorem Formatted.cmdTarExtent_eq : cmdTarExtent d = ⟨installStartSect, installNrSects⟩ := by
  rw [cmdTarExtent, hf.diskInode_eq (by decide) (by decide)]
  rfl

theorem Formatted.rootEntry_eq {k : Nat} (hk : k < 5) : rootEntry d k = k + 1 := by
  rw [rootEntry, hf.rootExtent_eq]
  exact hf.rootDir k hk

theorem Formatted.imapBit_eq {b : Nat} (hb : b < 8 * sectorSize) :
    imapBit d b = decide (b < 6) := hf.imap b hb

theorem Formatted.smapBit_eq {b : Nat}
    (hb : b < 8 * (sectorSize * (FS.makeSuperBlock size).nrSmapSects)) :
    smapBit d b = smapAfter size b := by
  rw [smapBit, hf.diskSuper_eq]
  exact hf.smap b hb

end Formatted

section Consistent

variable {size : Nat} {d : Bytes}

/-- The arithmetic of the layout: `q` is the number of sectors of the map less one. -/
private theorem makeSuperBlock_bounds (hmin : installStartSect + installNrSects ≤ size) :
    ∃ q, (FS.makeSuperBlock size).nrSmapSects = q + 1 ∧
      (FS.makeSuperBlock size).n1stSect = q + 260 ∧ 4096 * q ≤ size ∧ size < 4096 * q + 4096 ∧
        34816 ≤ size := by
  refine ⟨size / (sectorSize * 8), makeSuperBlock_nrSmapSects, makeSuperBlock_n1stSect, ?_⟩
  rw [bitsPerSect_eq]
  unfold installStartSect installNrSects at hmin
  omega

theorem Formatted.regions_eq (hf : Formatted size d) : regions d =
    [⟨0, 1⟩, ⟨1, 1⟩, ⟨2, 1⟩, ⟨3, (FS.makeSuperBlock size).nrSmapSects⟩,
      ⟨3 + (FS.makeSuperBlock size).nrSmapSects, 256⟩,
      ⟨(FS.makeSuperBlock size).n1stSect, nrDefaultFileSects⟩,
      ⟨installStartSect, installNrSects⟩] := by
  rw [regions, hf.diskSuper_eq, hf.inodeArraySect_eq, hf.rootExtent_eq, hf.cmdTarExtent_eq]
  rfl

theorem layout_of_formatted (hmin : installStartSect + installNrSects ≤ size)
    (hroom : (FS.makeSuperBlock size).n1stSect + nrDefaultFileSects ≤ installStartSect)
    (hf : Formatted size d) : Layout size d := by
  obtain ⟨q, hq, hq1, hlo, hhi, hbig⟩ := makeSuperBlock_bounds hmin
  have hdef : nrDefaultFileSects = 2048 := rfl
  have hstart : installStartSect = 32768 := rfl
  have hnr : installNrSects = 2048 := rfl
  have hsect : sectorSize = 512 := rfl
  constructor
  · rw [hf.regions_eq, hq, hq1, hdef, hstart, hnr]
    rw [hdef, hstart, hq1] at hroom
    simp [Extent.Apart]
    omega
  · rw [hf.regions_eq, hq, hq1, hdef, hstart, hnr]
    simp
    omega
  · intro b hb
    rw [hf.diskSuper_eq] at hb ⊢
    rw [hf.smapBit_eq hb, hf.rootExtent_eq, hf.cmdTarExtent_eq, smapAfter, hq1]
    simp only [Bool.or_eq_true, decide_eq_true_eq, Extent.Has]
    constructor
    · intro h
      rcases Nat.eq_zero_or_pos b with hb0 | hb0
      · exact Or.inl hb0
      · refine Or.inr ⟨q + 260 + b - 1, ?_⟩
        omega
    · rintro (rfl | ⟨x, hx⟩)
      · exact Or.inl (Nat.zero_le _)
      · omega
  · intro x hx hlt
    rw [hf.diskSuper_eq] at hx ⊢
    rw [hq, hq1, hsect] at *
    omega
  · intro b hb
    rw [hf.diskSuper_eq] at hb
    rw [hf.imapBit_eq hb]
    simp only [decide_eq_true_eq]
    omega
  · intro k hk
    rw [hf.diskInode_eq (by decide) (by decide)] at hk
    have hk5 : k < 5 := by
      change dirEntSize * k < 5 * dirEntSize at hk
      unfold dirEntSize at hk
      omega
    rw [hf.rootEntry_eq hk5, hf.imapBit_eq (by omega), hf.diskInode_eq (by omega) (by omega)]
    refine ⟨by simp only [decide_eq_true_eq]; omega, by omega, ?_⟩
    interval_cases k <;> simp [inodeAfter, iDirectory, iCharSpecial, iRegular]

/-- If the layout is consistent, the root directory ends in front of `cmd.tar`. -/
theorem room_of_layout (hsize : size < 2 ^ 32) {s s' : Fs} (hrun : FS.mkfs size s = .ok () s')
    (hlayout : Layout size s'.disk) :
    (FS.makeSuperBlock size).n1stSect + nrDefaultFileSects ≤ installStartSect := by
  obtain ⟨-, hle, hf, -, -⟩ := wp_ok (mkfs_spec hsize s) hrun
  have hapart := hlayout.apart
  rw [hf.regions_eq] at hapart
  have hlast : Extent.Apart ⟨(FS.makeSuperBlock size).n1stSect, nrDefaultFileSects⟩
      ⟨installStartSect, installNrSects⟩ := by
    simp only [List.pairwise_cons] at hapart
    exact hapart.2.2.2.2.2.1 _ (List.mem_singleton.mpr rfl)
  rcases hlast with h | h
  · exact h
  · exact absurd (Nat.le_trans h hle) (by decide)

theorem mkfs_returns (hsize : size < 2 ^ 32)
    (hroom : (FS.makeSuperBlock size).n1stSect + nrDefaultFileSects ≤ installStartSect) (s : Fs) :
    ∃ s', FS.mkfs size s = .ok () s' ∧ Formatted size s'.disk := by
  have hspec := mkfs_spec hsize s
  cases hrun : FS.mkfs size s with
  | ok u s' => exact ⟨s', rfl, (wp_ok hspec hrun).2.2.1⟩
  | stop w s' =>
    unfold wp at hspec
    rw [hrun] at hspec
    exact absurd hspec (by omega)

/-- The super block and the maps of a partition of 124768256 sectors or more are so large that the
root directory reaches into `cmd.tar`. -/
theorem mkfs_layout_iff (hsize : size < 2 ^ 32) (hmin : installStartSect + installNrSects ≤ size)
    (s : Fs) : (∃ s', FS.mkfs size s = .ok () s' ∧ Layout size s'.disk) ↔ size < 124768256 := by
  obtain ⟨q, hq, hq1, hlo, hhi, hbig⟩ := makeSuperBlock_bounds hmin
  have hroom : (FS.makeSuperBlock size).n1stSect + nrDefaultFileSects ≤ installStartSect ↔
      size < 124768256 := by
    rw [hq1]
    unfold nrDefaultFileSects installStartSect
    omega
  rw [← hroom]
  constructor
  · intro h
    obtain ⟨s', hrun, hlayout⟩ := h
    exact room_of_layout hsize hrun hlayout
  · intro h
    obtain ⟨s', hrun, hf⟩ := mkfs_returns hsize h s
    exact ⟨s', hrun, layout_of_formatted hmin h hf⟩

theorem mkfs_layout_small : (34816 : Nat) < 124768256 ∧ ∃ s',
    FS.mkfs 34816 { disk := fun _ => 0, fsbuf := fun _ => 0 } = .ok () s' ∧
      Layout 34816 s'.disk :=
  ⟨by decide, (mkfs_layout_iff (by decide) (by decide) _).mpr (by decide)⟩

/-- At 124768256 sectors the last sector of the root directory is the first of `cmd.tar`. -/
theorem mkfs_overlap : ¬ ∃ s',
    FS.mkfs 124768256 { disk := fun _ => 0, fsbuf := fun _ => 0 } = .ok () s' ∧
      Layout 124768256 s'.disk := by
  intro h
  obtain ⟨s', hrun, hlayout⟩ := h
  have hroom := room_of_layout (by decide) hrun hlayout
  rw [makeSuperBlock_n1stSect, bitsPerSect_eq] at hroom
  exact absurd hroom (by decide)

end Consistent

end BazingaOS
