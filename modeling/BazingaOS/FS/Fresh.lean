import BazingaOS.FS.Kept

/-!
# New file systems

Which inodes `mkfs` brings into use, and that the state behind `init_fs` is sound if the root
directory ends in front of `cmd.tar`.
-/

namespace BazingaOS

open Prog

/-- The sectors of the root directory behind the first one are zero. -/
def Fs.DirCleared (s : Fs) : Prop :=
  ∀ a, sectorSize * (s.sb.n1stSect + 1) ≤ a →
    a < sectorSize * (s.sb.n1stSect + nrDefaultFileSects) → s.disk a = 0

theorem smapBits_of_sects {sb : SuperBlock} {q : Nat} (h : sb.nrSmapSects = q + 1) :
    sb.smapBits = 4096 * (q + 1) := by
  have hs : sectorSize = 512 := rfl
  rw [SuperBlock.smapBits, h, hs]
  omega

theorem laid_of_sects {sb : SuperBlock} {q : Nat} (himap : sb.nrImapSects = 1)
    (hsmap : sb.nrSmapSects = q + 1) (hfirst : sb.n1stSect = q + 260)
    (hle : q + 260 ≤ 32769) : sb.Laid := by
  have hs : sectorSize = 512 := rfl
  have hdef : nrDefaultFileSects = 2048 := rfl
  refine ⟨himap, ?_, ?_, ?_, ?_⟩
  · rw [hsmap]
    exact Nat.succ_pos q
  · rw [hfirst, hsmap]
  · rw [hfirst, hdef, hs]
    omega
  · rw [hfirst, smapBits_of_sects hsmap]
    have hsects : q + 1 ≤ 32510 := by omega
    exact Nat.le_trans (Nat.add_le_add hle (Nat.mul_le_mul_left 4096 hsects)) (by decide)

section Mounted

variable {size : Nat} {s₀ s : Fs} {m : Nat}

theorem JustMounted.smapSects_eq (h : JustMounted size s₀ s) :
    (FS.makeSuperBlock size).nrSmapSects = s.sb.nrSmapSects :=
  (fields_of_layout h.layout).2.1.symm

theorem JustMounted.n1stSect_eq (h : JustMounted size s₀ s) :
    (FS.makeSuperBlock size).n1stSect = s.sb.n1stSect :=
  (fields_of_layout h.layout).2.2.1.symm

/-- The arithmetic of a partition: `q` is the number of sectors of the sector map less one. -/
theorem JustMounted.geometry (h : JustMounted size s₀ s) : ∃ q, q = size / 4096 ∧
    q + 260 ≤ 32769 ∧ s.sb.nrImapSects = 1 ∧ s.sb.nrSmapSects = q + 1 ∧
      s.sb.n1stSect = q + 260 := by
  have hstart : installStartSect = 32768 := rfl
  have hfirst := h.first
  obtain ⟨himap, hsmap, hn1, -⟩ := fields_of_layout h.layout
  rw [makeSuperBlock_nrSmapSects, bitsPerSect_eq] at hsmap
  rw [makeSuperBlock_n1stSect, bitsPerSect_eq] at hn1 hfirst
  exact ⟨size / 4096, rfl, by omega, himap, hsmap, hn1⟩

theorem JustMounted.fields (h : JustMounted size s₀ s)
    (hmin : installStartSect + installNrSects ≤ size) : ∃ q, 8 ≤ q ∧ q + 260 ≤ 32769 ∧
      s.sb.nrImapSects = 1 ∧ s.sb.nrSmapSects = q + 1 ∧ s.sb.n1stSect = q + 260 := by
  have hstart : installStartSect = 32768 := rfl
  have hnr : installNrSects = 2048 := rfl
  obtain ⟨q, hq, hle, himap, hsmap, hn1⟩ := h.geometry
  exact ⟨q, by omega, hle, himap, hsmap, hn1⟩

theorem JustMounted.laid (h : JustMounted size s₀ s) : s.sb.Laid := by
  obtain ⟨q, -, hle, himap, hsmap, hn1⟩ := h.geometry
  exact laid_of_sects himap hsmap hn1 hle

theorem JustMounted.inodePlace_eq (h : JustMounted size s₀ s) (nr : Nat) :
    inodePlace s.sb nr = inodePlace (FS.makeSuperBlock size) nr := by
  have heq := SuperBlock.eq_of_layout h.layout
  rw [heq, inodePlace_sbDev]

theorem JustMounted.storedInode_eq (h : JustMounted size s₀ s) (hf : Formatted size s.disk)
    (hone : 1 ≤ m) (hm : m ≤ 5) : storedInode s.sb s.disk m = inodeAfter size m := by
  have hs : sectorSize = 512 := rfl
  have hi : inodeSize = 32 := rfl
  obtain ⟨q, -, -, himap, hsmap, -⟩ := h.geometry
  rw [storedInode, ← hf.inode m hone hm]
  congr 1
  have hper : sectorSize / inodeSize = 16 := rfl
  rw [inodePlace, inodeSect, inodeOff, himap, h.smapSects_eq, hsmap, hper, hs, hi]
  omega

theorem Formatted.inUse_iff (h : Formatted size s.disk) : InUse s.disk m ↔ 1 ≤ m ∧ m ≤ 5 := by
  have hmap := h.imap
  rw [InUse, Free, nrNumbers]
  constructor
  · rintro ⟨hone, hlt, hset⟩
    refine ⟨hone, ?_⟩
    by_contra hge
    exact hset ((hmap m hlt).trans (decide_eq_false (by omega)))
  · rintro ⟨hone, hle⟩
    have hlt : m < 8 * sectorSize := Nat.lt_of_le_of_lt hle (by decide)
    refine ⟨hone, hlt, fun hfree => ?_⟩
    rw [sectBit, hmap m hlt, decide_eq_true (by omega)] at hfree
    cases hfree

theorem JustMounted.owner_iff (h : JustMounted size s₀ s)
    (hmin : installStartSect + installNrSects ≤ size) (huse : InUse s.disk m) :
    (storedInode s.sb s.disk m).Owner ↔ m = 1 ∨ m = 5 := by
  obtain ⟨hone, hle⟩ := (h.formatted hmin).inUse_iff.mp huse
  rw [h.storedInode_eq (h.formatted hmin) hone hle]
  interval_cases m <;> simp [inodeAfter, DiskInode.Owner, iRegular, iDirectory, iCharSpecial]

/-- The root directory and `cmd.tar` have no sector in common exactly if there is room between the
inode array and `cmd.tar`. -/
theorem JustMounted.noOverlap_iff (h : JustMounted size s₀ s)
    (hmin : installStartSect + installNrSects ≤ size) :
    s.NoOverlap ↔ s.sb.n1stSect + nrDefaultFileSects ≤ installStartSect := by
  obtain ⟨q, -, hle, -, -, hn1⟩ := h.fields hmin
  have hdef : nrDefaultFileSects = 2048 := rfl
  have hnr : installNrSects = 2048 := rfl
  have hstart : installStartSect = 32768 := rfl
  have hroot : storedInode s.sb s.disk 1 = ⟨iDirectory, 5 * dirEntSize, q + 260, 2048⟩ := by
    rw [h.storedInode_eq (h.formatted hmin) (by decide) (by decide), inodeAfter, h.n1stSect_eq,
      hn1, hdef]
  have htar : storedInode s.sb s.disk 5 = ⟨iRegular, installNrSects * sectorSize, 32768, 2048⟩ :=
    h.storedInode_eq (h.formatted hmin) (by decide) (by decide)
  have huse : ∀ {k}, 1 ≤ k → k ≤ 5 → InUse s.disk k :=
    fun h₁ h₅ => (h.formatted hmin).inUse_iff.mpr ⟨h₁, h₅⟩
  rw [hn1, hdef, hstart]
  constructor
  · intro hno
    have hapart := hno 1 5 (huse (by decide) (by decide)) (huse (by decide) (by decide)) (by decide)
      (by rw [hroot]; exact .inr rfl) (by rw [htar]; exact .inl rfl)
    rw [hroot, htar, DiskInode.Apart] at hapart
    dsimp only at hapart
    omega
  · intro hroom k l hk hl hne hok hol
    rcases (h.owner_iff hmin hk).mp hok with rfl | rfl <;>
      rcases (h.owner_iff hmin hl).mp hol with rfl | rfl
    · exact absurd rfl hne
    · rw [hroot, htar]
      exact .inl hroom
    · rw [hroot, htar]
      exact .inr hroom
    · exact absurd rfl hne

theorem smapAfter_front {b : Nat} (hb : b ≤ nrDefaultFileSects) : smapAfter size b = true := by
  rw [smapAfter, decide_eq_true hb, Bool.true_or]

theorem JustMounted.marked (h : JustMounted size s₀ s)
    (hmin : installStartSect + installNrSects ≤ size)
    (hroom : s.sb.n1stSect + nrDefaultFileSects ≤ installStartSect) (huse : InUse s.disk m)
    (hown : (storedInode s.sb s.disk m).Owner) :
    Marked s.sb s.disk (storedInode s.sb s.disk m) := by
  obtain ⟨q, hq, -, -, hsmap, hn1⟩ := h.fields hmin
  have hs : sectorSize = 512 := rfl
  have hdef : nrDefaultFileSects = 2048 := rfl
  have hnr : installNrSects = 2048 := rfl
  have hstart : installStartSect = 32768 := rfl
  rw [hn1, hdef, hstart] at hroom
  have hbit : ∀ b, b < 4096 * (q + 1) → bitAt s.disk (sectBit 3 + b) = smapAfter size b := by
    intro b hb
    rw [← smapBits_of_sects (h.smapSects_eq.trans hsmap)] at hb
    exact h.smap b hb
  rcases (h.owner_iff hmin huse).mp hown with rfl | rfl
  · rw [h.storedInode_eq (h.formatted hmin) (by decide) (by decide), inodeAfter, h.n1stSect_eq,
      hn1, hdef]
    have hfirst : s.sb.firstBit ⟨iDirectory, 5 * dirEntSize, q + 260, 2048⟩ = 1 := by
      rw [SuperBlock.firstBit, hn1, Nat.add_sub_cancel_left]
    refine ⟨Nat.le_of_eq hn1, hdef.symm, ?_, ?_⟩
    · rw [hfirst, smapBits_of_sects hsmap]
      dsimp only
      omega
    · rw [hfirst]
      dsimp only
      intro b _ hlt
      rw [hbit b (by omega), smapAfter_front (by rw [hdef]; omega)]
  · rw [h.storedInode_eq (h.formatted hmin) (by decide) (by decide), inodeAfter, hnr, hstart]
    have hfirst : s.sb.firstBit ⟨iRegular, 2048 * sectorSize, 32768, 2048⟩ = 32509 - q := by
      rw [SuperBlock.firstBit, hn1]
      dsimp only
      omega
    refine ⟨?_, hdef.symm, ?_, ?_⟩
    · rw [hn1]
      dsimp only
      omega
    · rw [hfirst, smapBits_of_sects hsmap]
      dsimp only
      omega
    · rw [hfirst]
      dsimp only
      intro b hb hlt
      rw [hbit b (by omega), smapAfter, h.n1stSect_eq, hn1, hstart, hnr,
        decide_eq_true (p := 32768 + 1 ≤ b + (q + 260) ∧ b + (q + 260) < 32768 + 1 + 2048)
          (by omega), Bool.or_true]

theorem openCount_empty (n : Fin nrInode) : openCount (fun _ => {}) n = 0 := by
  simp [openCount]

theorem cacheOk_empty (sb : SuperBlock) (d : Bytes) : CacheOk sb d fun _ => {} := by
  constructor
  · intro n
    exact Int.le_refl 0
  · intro n hn
    exact absurd rfl hn
  · intro n hn
    exact absurd rfl hn
  · intro m n hm
    exact absurd rfl hm
  · intro n nr hn
    exact absurd rfl hn

theorem JustMounted.table_eq (h : JustMounted size s₀ s) (hf : Formatted size s.disk) :
    ∃ r, s.rootInode = some r ∧
      s.inodeTable = Function.update (fun _ => {}) r
        (.loaded rootDev rootInodeNr (inodeAfter size 1)) := by
  obtain ⟨r, hroot, htab⟩ := h.root
  refine ⟨r, hroot, ?_⟩
  rw [htab, ← h.inodePlace_eq, ← h.storedInode_eq hf (by decide) (by decide)]
  rfl

theorem JustMounted.rootInode (h : JustMounted size s₀ s) :
    RootInode s.sb (.loaded rootDev rootInodeNr (inodeAfter size 1)) := by
  refine ⟨rfl, rfl, h.n1stSect_eq, rfl, ?_⟩
  exact Nat.le_trans (show 5 * dirEntSize / dirEntSize ≤ 65536 by decide) (Nat.le_succ 65536)

theorem JustMounted.cacheOk (h : JustMounted size s₀ s) (hf : Formatted size s.disk)
    (r : Fin nrInode) : CacheOk s.sb s.disk (Function.update (fun _ => {}) r
      (.loaded rootDev rootInodeNr (inodeAfter size 1))) := by
  have hload : CacheOk s.sb s.disk (Function.update (fun _ => {}) r (.loaded rootDev rootInodeNr
      (diskInodeAt s.disk (inodePlace s.sb (rootInodeNr : Int).toNat)))) :=
    (cacheOk_empty s.sb s.disk).load (FS.cachedInode_empty _ _) (by decide)
  have hstored : diskInodeAt s.disk (inodePlace s.sb 1) = inodeAfter size 1 :=
    h.storedInode_eq hf (by decide) (by decide)
  rw [← hstored]
  exact hload

/-- A new file system is sound if the root directory ends in front of `cmd.tar`. -/
theorem JustMounted.sound (h : JustMounted size s₀ s)
    (hmin : installStartSect + installNrSects ≤ size)
    (hroom : s.sb.n1stSect + nrDefaultFileSects ≤ installStartSect) : ∃ r, s.Sound r 0 := by
  obtain ⟨q, -, -, -, hsmap, -⟩ := h.fields hmin
  obtain ⟨r, hroot, htab⟩ := h.table_eq (h.formatted hmin)
  have hinode : s.inodeTable r = .loaded rootDev rootInodeNr (inodeAfter size 1) := by
    rw [htab, Function.update_self]
  have hone : InUse s.disk 1 := (h.formatted hmin).inUse_iff.mpr (by decide)
  refine ⟨r, h.laid, ?_, ?_, hroot, ?_, ?_, ?_⟩
  · refine ⟨?_, ?_, hone, fun m huse _ hown => h.marked hmin hroom huse hown⟩
    · rw [Free, sectBit, (h.formatted hmin).imap 0 (by decide)]
      decide
    · have hbits : 0 < (FS.makeSuperBlock size).smapBits := by
        rw [smapBits_of_sects (h.smapSects_eq.trans hsmap)]
        exact Nat.mul_pos (by decide) (Nat.succ_pos q)
      rw [Free, h.smap 0 hbits, smapAfter_front (Nat.zero_le _)]
      decide
  · rw [htab]
    exact h.cacheOk (h.formatted hmin) r
  · rw [hinode]
    exact h.rootInode
  · rw [hinode, h.fdTable, openCount_empty]
    exact Int.one_pos
  · intro f n hf
    rw [h.fdTable] at hf
    cases hf

end Mounted

end BazingaOS
