import BazingaOS.FS.Fresh

/-!
# Removal of a file from a healthy file system

As long as no two inodes share a sector, the state stays sound from `mkfs` on, and the assertions
of `do_unlink` about the maps can only fail at the last of them: it tests the lowest bit of the byte
behind the whole bytes of the file, and the file need not have that bit.
-/

namespace BazingaOS

open Prog

/-- A file system of `size` sectors in use in which no two inodes have ever shared a sector. -/
def Fs.Healthy (size : Nat) (s : Fs) : Prop :=
  ∃ s₀ l, s₀.Mounted size ∧ s₀.NoOverlap ∧
    Run (fun u c v => FS.Answered u c v ∧ v.NoOverlap) s₀ l s

theorem Fs.Mounted.healthy {size : Nat} {s : Fs} (h : s.Mounted size) (hno : s.NoOverlap) :
    s.Healthy size := ⟨s, [], h, hno, .nil⟩

theorem Fs.Healthy.sound {size : Nat} {s : Fs} (h : s.Healthy size) (hsize : size < 2 ^ 32)
    (hmin : installStartSect + installNrSects ≤ size) : (∃ r, s.Sound r 0) ∧ s.NoOverlap := by
  obtain ⟨s₀, l, hmount, hno, hrun⟩ := h
  obtain ⟨_, hjust⟩ := hmount.justMounted hsize
  have hstart := hjust.sound hmin ((hjust.noOverlap_iff hmin).mp hno)
  refine hrun.invariant (I := fun u => (∃ r, u.Sound r 0) ∧ u.NoOverlap) ⟨hstart, hno⟩ ?_
  rintro u c v ⟨hstep, hv⟩ ⟨⟨r, hu⟩, hnou⟩
  exact ⟨⟨r, (FS.answered_sound hu hnou hstep).1⟩, hv⟩

/-- The name is that of regular file `nr`, in slot `t` of the directory, and no descriptor refers to
the file. -/
structure Fs.ClosedFile (s : Fs) (r : Fin nrInode) (t : Nat) (name : List UInt8) (nr : Nat) :
    Prop where
  root : s.rootInode = some r
  slot : t < (s.inodeTable r).slots
  named : slotName s.disk (s.inodeTable r).iStartSect t = name
  number : slotNr s.disk (s.inodeTable r).iStartSect t = nr
  first : ∀ u, u < t → slotName s.disk (s.inodeTable r).iStartSect u ≠ name
  valid : name ≠ [] ∧ name.length < maxFilenameLen
  use : InUse s.disk nr
  regular : (storedInode s.sb s.disk nr).mode = iRegular
  closed : ∀ f n, (s.fdTable f).fdInode = some n → (s.inodeTable n).iNum ≠ nr

/-- When `do_unlink` can remove the file in slot `t`: the size of the directory covers its entry, the
cache has a free slot for its inode and no reference to it is left over, and its first bit is inside
a byte of the sector map or the bit behind its last one is set. -/
structure Fs.Removable (s : Fs) (r : Fin nrInode) (t nr : Nat) : Prop where
  found : t < searchBound (s.inodeTable r).iSize
  listed : ∃ u, u < min (s.inodeTable r).entries (s.inodeTable r).slots ∧
    slotNr s.disk (s.inodeTable r).iStartSect u = nr
  uncached : FS.cachedInode s.inodeTable rootDev nr = none
  free : FS.freeInode s.inodeTable ≠ none
  behind : s.sb.firstBit (storedInode s.sb s.disk nr) % 8 = 0 →
    ¬ Free s.disk 3 (s.sb.firstBit (storedInode s.sb s.disk nr) + nrDefaultFileSects)

/-- A request to remove the file with a name. -/
structure UnlinkRequest (s : Fs) (p : Pid) (msg : Message) (name : List UInt8) : Prop where
  len : 0 ≤ msg.m3i2 ∧ msg.m3i2 < maxPath
  path : stripPath (s.pathOf p msg) = some name

/-- For an inode whose sectors are marked the assertions about the sector map come down to the last
one, which looks behind the sectors if they begin with a byte. -/
theorem releaseChecks_iff {sb : SuperBlock} {d : Bytes} {i : DiskInode} (h : Marked sb d i) :
    ReleaseChecks (sb.firstBit i) i.nrSects d ↔
      (sb.firstBit i % 8 = 0 → ¬ Free d 3 (sb.firstBit i + nrDefaultFileSects)) := by
  obtain ⟨-, hsects, -, hset⟩ := h
  have hdef : nrDefaultFileSects = 2048 := rfl
  rw [hsects, hdef] at hset ⊢
  generalize sb.firstBit i = lo at *
  have hfree : ∀ b, ¬ Free d 3 b ↔ bitAt d (sectBit 3 + b) = true := by
    intro b
    rw [Free, Bool.not_eq_false]
  rw [hfree]
  constructor
  · rintro ⟨-, hlast⟩ hz
    have hplace : 8 * (lo / 8 + 1 + (2048 - (8 - lo % 8)) / 8) = lo + 2048 := by omega
    rw [← hplace]
    exact hlast
  · intro hbehind
    refine ⟨fun b hb hlt => hset b hb (by omega), ?_⟩
    by_cases hz : lo % 8 = 0
    · have hplace : 8 * (lo / 8 + 1 + (2048 - (8 - lo % 8)) / 8) = lo + 2048 := by omega
      rw [hplace]
      exact hbehind hz
    · exact hset _ (by omega) (by omega)

theorem neg_one_eq_zero_iff {q : Prop} : ((-1 : Int) = 0 ↔ q) ↔ ¬ q :=
  ⟨fun h hq => absurd (h.mpr hq) (by decide), fun hq =>
    ⟨fun h => absurd h (by decide), fun h => absurd h hq⟩⟩

namespace FS

section Removal

variable {s : Fs} {r : Fin nrInode} {t nr : Nat} {name : List UInt8} {p : Pid} {msg : Message}

theorem searchFile_closed (h : s.Sound r 0) (hfile : s.ClosedFile r t name nr) {path : List UInt8}
    (hpath : stripPath path = some name) :
    wp (searchFile path) (fun m s' => (∃ b, s' = { s with fsbuf := b }) ∧
      (m = nr ∧ t < searchBound (s.inodeTable r).iSize ∨
        m = 0 ∧ ¬ t < searchBound (s.inodeTable r).iSize)) (fun _ _ => False) s := by
  have hs : sectorSize = 512 := rfl
  have hd : dirEntSize = 16 := rfl
  have he : entriesPerSect = 32 := rfl
  have haddr : sectorSize * ((s.inodeTable r).iStartSect +
      ((s.inodeTable r).iSize + sectorSize - 1) / sectorSize) ≤ 2 ^ 31 := by
    have hroom := h.rootAt.addr
    have hsize := h.dir.entries
    rw [Inode.entries, Inode.slots, hd, he] at hsize
    rw [hs] at hroom ⊢
    omega
  have hsearch := wp_and (searchFile_spec (s := s) path) (searchFile_firstNamed h.root
    h.rootAt.dev haddr hpath hfile.valid.1 hfile.valid.2)
  refine wp_mono hsearch ?_ (fun _ _ hE => hE.2)
  rintro m s' ⟨⟨hbuf, -⟩, ⟨u, hu, hname, hfirst, rfl⟩ | ⟨hnone, hz⟩⟩
  · refine ⟨hbuf, .inl ?_⟩
    obtain rfl : u = t := by
      rcases Nat.lt_trichotomy u t with hlt | heq | hgt
      · exact absurd hname (hfile.first u hlt)
      · exact heq
      · exact absurd hfile.named (hfirst t hgt)
    exact ⟨hfile.number, hu⟩
  · exact ⟨hbuf, .inr ⟨hz, fun ht => hnone t ht hfile.named⟩⟩

/-- A loaded file can be released exactly if it is removable. -/
theorem releasable_iff (h : s.Sound r 0) (hfile : s.ClosedFile r t name nr)
    (hfound : t < searchBound (s.inodeTable r).iSize)
    (huncached : cachedInode s.inodeTable rootDev nr = none) (hfree : freeInode s.inodeTable ≠ none)
    (s' : Fs) (hdisk : s'.disk = s.disk) (hsb : s'.sb.layout = s.sb.layout)
    (hinode : s'.inodeTable r = s.inodeTable r) :
    Releasable s' r nr (storedInode s.sb s.disk nr) ↔ s.Removable r t nr := by
  have hmark := h.disk.marked nr hfile.use (Nat.ne_of_gt hfile.use.1) (.inl hfile.regular)
  have hchecks := releaseChecks_iff hmark
  have hbit : s'.sb.firstBit (storedInode s.sb s.disk nr) =
      s.sb.firstBit (storedInode s.sb s.disk nr) := by
    rw [SuperBlock.eq_of_layout hsb]
    rfl
  constructor
  · rintro ⟨-, hsects, hentry⟩
    rw [hdisk, hbit] at hsects
    rw [hinode, hdisk] at hentry
    exact ⟨hfound, hentry, huncached, hfree, hchecks.mp hsects⟩
  · rintro ⟨-, hentry, -, -, hbehind⟩
    refine ⟨?_, ?_, ?_⟩
    · rw [Int.toNat_natCast, hdisk]
      exact hfile.use
    · rw [hdisk, hbit]
      exact hchecks.mpr hbehind
    · rw [hinode, hdisk]
      exact hentry

/-- The part of a request behind the search: the inode is loaded, looked at and removed. -/
def removeLoaded (dir : Fin nrInode) (dev : Nat) (nr : Int) : Prog Fs Int := do
  let n ← getInode dev nr
  let i := (← get).inodeTable n
  if i.iMode ≠ iRegular then return -1
  else if 1 < i.iCnt then return -1
  else
    removeFile dir n dev nr
    return 0

theorem removeLoaded_closed (h : s.Sound r 0) (hno : s.NoOverlap)
    (hfile : s.ClosedFile r t name nr) (hfound : t < searchBound (s.inodeTable r).iSize) :
    wp (removeLoaded r rootDev nr) (fun v _ => v = 0 ↔ s.Removable r t nr)
      (fun _ _ => ¬ s.Removable r t nr) s := by
  simp only [removeLoaded, wp_bind, wp_get]
  refine wp_mono (wp_and (getInode_spec rootDev nr) (getInode_sound h nr)) ?_ ?_
  · rintro n s₁ ⟨⟨hc, rfl⟩ | ⟨hc, hfree, -, -, b, rfl⟩, h₁, hnum, hcnt, -⟩
    · -- a reference that is left over
      obtain ⟨hcached, -⟩ := cachedInode_spec hc
      have hpos := h.cache.cnt n
      have hbad : ¬ s.Removable r t nr := fun hrem => by
        have huncached := hrem.uncached
        rw [hc] at huncached
        cases huncached
      rw [wp_ite]
      refine ⟨fun _ => neg_one_eq_zero_iff.mpr hbad, fun _ => ?_⟩
      rw [wp_ite]
      refine ⟨fun _ => neg_one_eq_zero_iff.mpr hbad, fun hone => absurd ?_ hone⟩
      simp only [Function.update_self]
      omega
    · have hfree' : freeInode s.inodeTable ≠ none := by
        rw [hfree]
        exact Option.some_ne_none n
      have hne : n ≠ r := by
        rintro rfl
        have hzero := freeInode_cnt hfree
        have hpos := h.cnt_pos
        omega
      have hinode := releasable_iff h hfile hfound hc hfree' { s with
        fsbuf := b
        sb := { s.sb with sbDev := rootDev }
        inodeTable := Function.update s.inodeTable n
          (.loaded rootDev nr (storedInode s.sb s.disk nr)) }
        rfl rfl (Function.update_of_ne (Ne.symm hne) _ _)
      have hregular := hfile.regular
      have hremove := removeFile_sound h₁ hno hcnt hnum (by
        simp only [Function.update_self]
        exact hregular)
      simp only [Function.update_self] at hremove ⊢
      rw [wp_ite]
      refine ⟨fun hmode => absurd hregular hmode, fun _ => ?_⟩
      rw [wp_ite]
      refine ⟨fun hcnt => absurd hcnt (show ¬ (1 : Int) < 1 by decide), fun _ => ?_⟩
      rw [wp_bind]
      refine wp_mono hremove ?_ ?_
      · rintro - s₂ ⟨-, hrel, -⟩
        exact ⟨fun _ => hinode.mp hrel, fun _ => rfl⟩
      · intro _ _ hrel hrem
        exact hrel (hinode.mpr hrem)
  · obtain ⟨hone, hlt, -⟩ := hfile.use
    have hplaced : Placed s nr := placed_of_lt h (by omega) (by rw [Int.toNat_natCast]; exact hlt)
    rintro w s₁ ⟨⟨-, ⟨hfull, -⟩ | ⟨-, hbad | ⟨-, hbad | hbad⟩⟩⟩, -⟩ hrem
    · exact hrem.free hfull
    · exact hbad rfl
    · omega
    · exact hbad hplaced.2

/-- A request to remove a closed file returns 0 exactly if the file is removable, and stops or
returns -1 otherwise. -/
theorem doUnlink_closed (h : s.Sound r 0) (hno : s.NoOverlap) (hreq : UnlinkRequest s p msg name)
    (hfile : s.ClosedFile r t name nr) :
    wp (doUnlink p msg) (fun v _ => v = 0 ↔ s.Removable r t nr)
      (fun _ _ => ¬ s.Removable r t nr) s := by
  obtain ⟨hlen, hpath⟩ := hreq
  rw [Fs.pathOf] at hpath
  simp only [doUnlink, wp_bind, wp_check]
  refine ⟨fun _ => ?_, fun hbad => absurd hlen.2 hbad⟩
  rw [copyPath, wp_ite]
  refine ⟨fun _ => ?_, fun hbad => absurd hlen hbad⟩
  simp only [wp_bind, wp_get, wp_pure]
  rw [wp_ite]
  constructor
  · intro hslash
    rw [hslash] at hpath
    cases hpath
    exact absurd rfl hfile.valid.1
  intro _
  rw [wp_bind]
  refine wp_mono (searchFile_closed h hfile hpath) ?_ (fun _ _ hE => hE.elim)
  rintro m s₁ ⟨hbuf, hm⟩
  rw [wp_ite]
  constructor
  · intro hz
    refine neg_one_eq_zero_iff.mpr fun hrem => ?_
    have hone := hfile.use.1
    rcases hm with ⟨hm, -⟩ | ⟨-, hm⟩
    · omega
    · exact hm hrem.found
  intro hne
  obtain ⟨rfl, hfound⟩ := hm.resolve_right fun hz => hne hz.1
  obtain ⟨h₁, -⟩ := sound_buffer h hbuf
  have hsame : s₁.NoOverlap ∧ s₁.ClosedFile r t name nr ∧
      t < searchBound (s₁.inodeTable r).iSize ∧ (s₁.Removable r t nr ↔ s.Removable r t nr) := by
    obtain ⟨b, rfl⟩ := hbuf
    exact ⟨hno, ⟨hfile.1, hfile.2, hfile.3, hfile.4, hfile.5, hfile.6, hfile.7, hfile.8, hfile.9⟩,
      hfound, fun hr => ⟨hr.1, hr.2, hr.3, hr.4, hr.5⟩, fun hr => ⟨hr.1, hr.2, hr.3, hr.4, hr.5⟩⟩
  obtain ⟨hno₁, hfile₁, hfound₁, hiff⟩ := hsame
  have hremove := removeLoaded_closed h₁ hno₁ hfile₁ hfound₁
  rw [hiff, removeLoaded] at hremove
  rw [hpath]
  simp only [rootNode, wp_bind, wp_get, h₁.root, wp_pure, h₁.rootAt.dev] at hremove ⊢
  exact hremove

end Removal

end FS

section CmdTar

variable {size : Nat} {s₀ s : Fs} {r : Fin nrInode} {t : Nat}

theorem JustMounted.slot_eq (h : JustMounted size s₀ s) (ht : t < 32) :
    slotNr s.disk s.sb.n1stSect t = slotNr newDirBytes 0 t ∧
      slotName s.disk s.sb.n1stSect t = slotName newDirBytes 0 t := by
  have hs : sectorSize = 512 := rfl
  have hd : dirEntSize = 16 := rfl
  have hm : maxFilenameLen = 12 := rfl
  have hbyte : ∀ i, i < dirEntSize → s.disk (slotAt s.sb.n1stSect t + i) =
      newDirBytes (slotAt 0 t + i) := by
    intro i hi
    rw [← h.n1stSect_eq, slotAt, slotAt, Nat.mul_zero, Nat.zero_add, Nat.add_assoc]
    apply h.dirBytes
    rw [hd] at hi ⊢
    rw [hs]
    omega
  constructor
  · rw [slotNr, slotNr, u32At_shift fun i hi => hbyte i (by omega)]
  · rw [slotName, slotName]
    apply cstring_congr
    intro i hi
    rw [Nat.add_assoc, Nat.add_assoc]
    exact hbyte _ (by omega)

theorem JustMounted.cmdTar_closed (h : JustMounted size s₀ s)
    (hmin : installStartSect + installNrSects ≤ size) (hr : s.Sound r 0) :
    s.ClosedFile r 4 FS.cmdTarName 5 := by
  have hslot : ∀ u, u ≤ 4 → slotNr s.disk (s.inodeTable r).iStartSect u =
        slotNr newDirBytes 0 u ∧
      slotName s.disk (s.inodeTable r).iStartSect u = slotName newDirBytes 0 u := by
    intro u hu
    rw [hr.dir.start]
    exact h.slot_eq (by omega)
  have huse : InUse s.disk 5 := (h.formatted hmin).inUse_iff.mpr (by decide)
  refine ⟨hr.root, ?_, ?_, ?_, fun u hu => ?_, by decide, huse, ?_, ?_⟩
  · rw [Inode.slots, hr.dir.sects]
    decide
  · rw [(hslot 4 (Nat.le_refl 4)).2]
    decide +kernel
  · rw [(hslot 4 (Nat.le_refl 4)).1]
    decide +kernel
  · rw [(hslot u (Nat.le_of_lt hu)).2]
    interval_cases u <;> decide +kernel
  · rw [h.storedInode_eq (h.formatted hmin) (by decide) (by decide)]
    rfl
  · intro f n hf
    rw [h.fdTable] at hf
    cases hf

theorem freeInode_update {i : Inode} : FS.freeInode (Function.update (fun _ => {}) r i) ≠ none := by
  intro hnone
  have hfull := List.find?_eq_none.mp hnone
  simp only [List.mem_finRange, decide_eq_true_eq, true_imp_iff] at hfull
  by_cases hr : r = ⟨0, by decide⟩
  · refine hfull ⟨1, by decide⟩ ?_
    rw [Function.update_of_ne (by rw [hr]; decide)]
  · refine hfull ⟨0, by decide⟩ ?_
    rw [Function.update_of_ne (Ne.symm hr)]

/-- In a new file system `cmd.tar` can be removed unless its first bit is the first of a byte. -/
theorem JustMounted.cmdTar_removable_iff (h : JustMounted size s₀ s)
    (hmin : installStartSect + installNrSects ≤ size)
    (hroom : s.sb.n1stSect + nrDefaultFileSects ≤ installStartSect) (hr : s.Sound r 0) :
    s.Removable r 4 5 ↔ s.sb.n1stSect % 8 ≠ 1 := by
  have hclosed := h.cmdTar_closed hmin hr
  obtain ⟨q, hq, -, -, hsmap, hn1⟩ := h.fields hmin
  obtain ⟨r', hroot, htab⟩ := h.table_eq (h.formatted hmin)
  obtain rfl : r = r' := Option.some.inj (hr.root.symm.trans hroot)
  have hdef : nrDefaultFileSects = 2048 := rfl
  have hstart : installStartSect = 32768 := rfl
  have hnr : installNrSects = 2048 := rfl
  rw [hn1, hdef, hstart] at hroom
  have hfirst : s.sb.firstBit (storedInode s.sb s.disk 5) = 32509 - q := by
    rw [h.storedInode_eq (h.formatted hmin) (by decide) (by decide), inodeAfter, hstart,
      SuperBlock.firstBit, hn1]
    dsimp only
    omega
  -- the bit behind `cmd.tar` is clear
  have hbehind : Free s.disk 3 (32509 - q + 2048) := by
    have hlt : 32509 - q + 2048 < (FS.makeSuperBlock size).smapBits := by
      rw [smapBits_of_sects (h.smapSects_eq.trans hsmap)]
      omega
    rw [Free, h.smap _ hlt, smapAfter, h.n1stSect_eq, hn1, hstart, hnr, hdef]
    rw [decide_eq_false (by omega), decide_eq_false (by omega), Bool.or_false]
  rw [hn1]
  constructor
  · intro hrem hmod
    have hset := hrem.behind
    rw [hfirst] at hset
    exact hset (by omega) hbehind
  · intro hmod
    have hinode : s.inodeTable r = .loaded rootDev rootInodeNr (inodeAfter size 1) := by
      rw [htab, Function.update_self]
    refine ⟨?_, ⟨4, ?_, hclosed.number⟩, ?_, ?_, fun hz => ?_⟩
    · rw [hinode]
      exact show 4 < searchBound 80 by decide
    · rw [hinode]
      exact Nat.lt_min.mpr ⟨show 4 < 5 * dirEntSize / dirEntSize by decide,
        show 4 < entriesPerSect * nrDefaultFileSects by decide⟩
    · rw [htab]
      refine List.find?_eq_none.mpr fun n _ => ?_
      simp only [decide_eq_true_eq]
      refine update_cases (P := fun i : Inode =>
        ¬ (i.iCnt ≠ 0 ∧ i.iDev = rootDev ∧ i.iNum = (5 : Nat))) (fun _ => ?_) fun _ => ?_
      · rintro ⟨-, -, hnum⟩
        exact absurd hnum (show ((1 : Nat) : Int) ≠ (5 : Nat) by decide)
      · rintro ⟨hcnt, -⟩
        exact hcnt rfl
    · rw [htab]
      exact freeInode_update
    · rw [hfirst] at hz
      omega

/-- The memory of a process with the name at address 0, and its request. -/
def cmdTarMem (_ : Pid) : Bytes := putBytes (fun _ => 0) 0 FS.cmdTarName

def unlinkCmdTar : Message := { type := .unlink, m3p1 := 0, m3i2 := 7 }

theorem exists_cmdTar_empty (hsize : size < 2 ^ 32)
    (hmin : installStartSect + installNrSects ≤ size)
    (hroom : (FS.makeSuperBlock size).n1stSect + nrDefaultFileSects ≤ installStartSect) :
    ∃ s r, Fs.Mounted size s ∧ UnlinkRequest s init unlinkCmdTar FS.cmdTarName ∧
      s.ClosedFile r 4 FS.cmdTarName 5 ∧ s.Sound r 0 ∧ s.NoOverlap ∧
      (s.Removable r 4 5 ↔ (FS.makeSuperBlock size).n1stSect % 8 ≠ 1) ∧ s.DirCleared ∧
      ∀ p i, s.filp p i = none := by
  obtain ⟨s₀, s, hmount, hjust, hfilp, huser, hzero⟩ := exists_mounted_empty hsize
    (Nat.le_trans (Nat.le_add_right _ _) (Nat.le_succ_of_le hroom)) cmdTarMem
  rw [hjust.n1stSect_eq] at hroom hzero
  have hno := (hjust.noOverlap_iff hmin).mpr hroom
  obtain ⟨r, hr⟩ := hjust.sound hmin hroom
  refine ⟨s, r, hmount, ⟨by decide, ?_⟩, hjust.cmdTar_closed hmin hr, hr, hno, ?_,
    fun a ha _ => hzero a ha, fun p i => ?_⟩
  · rw [Fs.pathOf, hjust.user, huser]
    decide +kernel
  · rw [hjust.n1stSect_eq]
    exact hjust.cmdTar_removable_iff hmin hroom hr
  · rw [hjust.filp, hfilp]

theorem exists_cmdTar (hsize : size < 2 ^ 32) (hmin : installStartSect + installNrSects ≤ size)
    (hroom : (FS.makeSuperBlock size).n1stSect + nrDefaultFileSects ≤ installStartSect) :
    ∃ s r, Fs.Mounted size s ∧ UnlinkRequest s init unlinkCmdTar FS.cmdTarName ∧
      s.ClosedFile r 4 FS.cmdTarName 5 ∧ s.Sound r 0 ∧ s.NoOverlap ∧
      (s.Removable r 4 5 ↔ (FS.makeSuperBlock size).n1stSect % 8 ≠ 1) := by
  obtain ⟨s, r, hmount, hreq, hfile, hr, hno, hrem, -⟩ := exists_cmdTar_empty hsize hmin hroom
  exact ⟨s, r, hmount, hreq, hfile, hr, hno, hrem⟩

end CmdTar

namespace FS

/-- On a partition with room for `cmd.tar`, in every state that requests have led to without two
inodes sharing a sector, the removal of a closed file succeeds exactly if the file is removable. -/
theorem unlink_succeeds_iff {size : Nat} {s : Fs} {r : Fin nrInode} {t nr : Nat}
    {name : List UInt8} {p : Pid} {msg : Message} (hsize : size < 2 ^ 32)
    (hmin : installStartSect + installNrSects ≤ size) (h : s.Healthy size)
    (hreq : UnlinkRequest s p msg name) (hfile : s.ClosedFile r t name nr) :
    (∃ s', doUnlink p msg s = .ok 0 s') ↔ s.Removable r t nr := by
  obtain ⟨⟨r', hr⟩, hno⟩ := h.sound hsize hmin
  obtain rfl : r = r' := Option.some.inj (hfile.root.symm.trans hr.root)
  have hspec := doUnlink_closed hr hno hreq hfile
  constructor
  · rintro ⟨s', hrun⟩
    have hiff := wp_ok hspec hrun
    exact hiff.mp rfl
  · intro hrem
    obtain ⟨v, s', hrun, hiff⟩ := exists_ok_of_wp (wp_mono hspec (fun _ _ h => h)
      fun _ _ hbad => absurd hrem hbad)
    obtain rfl : v = 0 := hiff.mpr hrem
    exact ⟨s', hrun⟩

/-- `cmd.tar` on the smallest partition. -/
theorem unlink_succeeds_cmdTar : ∃ s s', Fs.Healthy 34816 s ∧
    doUnlink init unlinkCmdTar s = .ok 0 s' := by
  obtain ⟨s, r, hmount, hreq, hfile, -, hno, hrem⟩ :=
    @exists_cmdTar 34816 (by decide) (by decide) (by decide)
  have hhealthy := hmount.healthy hno
  obtain ⟨s', hrun⟩ := (unlink_succeeds_iff (by decide) (by decide) hhealthy hreq hfile).mpr
    (hrem.mpr (by decide))
  exact ⟨s, s', hhealthy, hrun⟩

/-- On a partition of 53248 sectors the first bit of `cmd.tar` is the first of a byte, and the last
assertion tests the bit behind `cmd.tar`, which is clear. -/
theorem unlink_asserts_behind_file : ∃ s r, Fs.Healthy 53248 s ∧
    UnlinkRequest s init unlinkCmdTar cmdTarName ∧ s.ClosedFile r 4 cmdTarName 5 ∧
    ¬ ∃ s', doUnlink init unlinkCmdTar s = .ok 0 s' := by
  obtain ⟨s, r, hmount, hreq, hfile, hr, hno, hrem⟩ :=
    @exists_cmdTar 53248 (by decide) (by decide) (by decide)
  refine ⟨s, r, hmount.healthy hno, hreq, hfile, ?_⟩
  rintro ⟨s', hrun⟩
  have hiff := wp_ok (doUnlink_closed hr hno hreq hfile) hrun
  exact hrem.mp (hiff.mp rfl) (by decide)

end FS

end BazingaOS
