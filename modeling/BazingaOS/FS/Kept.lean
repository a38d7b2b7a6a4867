import BazingaOS.FS.OpenFails
import BazingaOS.FS.Sound

/-!
# Requests keep the inodes and their sectors

Whatever has been answered so far, the root directory stays in its slot of the cache, the cache
agrees with the disk, and the sectors of every inode in use are marked, as long as no two inodes
share a sector.
-/

namespace BazingaOS

open Prog

/-- The root directory as the cache has it. Its size can cover one slot behind its sectors. -/
structure RootInode (sb : SuperBlock) (i : Inode) : Prop where
  num : i.iNum = rootInodeNr
  mode : i.iMode = iDirectory
  start : i.iStartSect = sb.n1stSect
  sects : i.iNrSects = nrDefaultFileSects
  entries : i.entries ≤ i.slots + 1

/-- How many descriptors refer to a slot of the cache. -/
def openCount (t : Fin nrFileDesc → FileDesc) (n : Fin nrInode) : Int :=
  ∑ f, if (t f).fdInode = some n then 1 else 0

/-- A file system in use: slot `r` of the cache has the root directory, and inode `x` may be being
made. -/
structure Fs.Sound (s : Fs) (r : Fin nrInode) (x : Nat) : Prop where
  laid : s.sb.Laid
  disk : DiskOk s.sb x s.disk
  cache : CacheOk s.sb s.disk s.inodeTable
  root : s.rootInode = some r
  dir : RootInode s.sb (s.inodeTable r)
  refs : openCount s.fdTable r < (s.inodeTable r).iCnt
  desc : ∀ f n, (s.fdTable f).fdInode = some n → (s.fdTable f).fdCnt = 1

/-- Inode `nr` has come into use; if it is a file, bit `f` of the sector map, the first clear one, is
that of its first sector. -/
structure NewOwner (s s' : Fs) (nr f : Nat) : Prop where
  number : nr ≠ 0
  free : Free s.disk 3 f
  first : ∀ g, g < f → ¬ Free s.disk 3 g
  keeps : KeepsOwners s.sb nr s.disk s'.disk
  start : InUse s'.disk nr → (storedInode s.sb s'.disk nr).Owner →
    (storedInode s.sb s'.disk nr).startSect = s.sb.n1stSect - 1 + f

theorem NewOwner.trans {s s' s'' : Fs} {nr f : Nat} (h : NewOwner s s' nr f)
    (hk : KeepsOwners s.sb 0 s'.disk s''.disk) : NewOwner s s'' nr f := by
  refine ⟨h.number, h.free, h.first, h.keeps.trans (hk.weaken nr), fun huse hown => ?_⟩
  obtain ⟨huse', hown', hstart, -⟩ := hk nr h.number huse hown
  exact hstart.trans (h.start huse' hown')

/-- No inode has got sectors but a new one, and this only if `c`. -/
def OwnersKept (c : Prop) (s s' : Fs) : Prop :=
  KeepsOwners s.sb 0 s.disk s'.disk ∨ c ∧ ∃ nr f, NewOwner s s' nr f

theorem OwnersKept.trans {c : Prop} {s s' s'' : Fs} (h : OwnersKept c s s')
    (hk : KeepsOwners s.sb 0 s'.disk s''.disk) : OwnersKept c s s'' := by
  rcases h with h | ⟨hc, nr, f, h⟩
  · exact .inl (h.trans hk)
  · exact .inr ⟨hc, nr, f, h.trans hk⟩

section Counts

variable {t : Fin nrFileDesc → FileDesc} {f : Fin nrFileDesc} {e : FileDesc} {n : Fin nrInode}

theorem openCount_nonneg : 0 ≤ openCount t n := by
  apply Finset.sum_nonneg
  intro f _
  split <;> decide

theorem openCount_update :
    openCount (Function.update t f e) n + (if (t f).fdInode = some n then 1 else 0) =
      openCount t n + (if e.fdInode = some n then 1 else 0) :=
  sum_update_add t f e fun d => if d.fdInode = some n then (1 : Int) else 0

end Counts

theorem SuperBlock.eq_of_layout {sb sb' : SuperBlock} (h : sb'.layout = sb.layout) :
    sb' = { sb with sbDev := sb'.sbDev } := by
  cases sb
  cases sb'
  simpa [SuperBlock.layout] using h

section Laid

variable {s : Fs} {r : Fin nrInode}

theorem RootAt.of_laid (hl : s.sb.Laid) (hroot : s.rootInode = some r)
    (hdev : (s.inodeTable r).iDev = rootDev) (hdir : RootInode s.sb (s.inodeTable r)) :
    RootAt s r := by
  have hs : sectorSize = 512 := rfl
  have hi : inodeSize = 32 := rfl
  have hfirst := hl.first
  have haddr := hl.addr
  have hnum := hdir.num
  refine ⟨hroot, hdev, by rw [hnum]; decide, ?_, ?_⟩
  · have hsect : inodeSect s.sb 1 = 3 + s.sb.nrSmapSects := by
      rw [inodeSect, hl.imap, Nat.sub_self, Nat.zero_mul, Nat.zero_div]
      omega
    have hone : (s.inodeTable r).iNum.toNat = 1 := by
      rw [hnum]
      rfl
    rw [hone, hdir.start, hsect]
    omega
  · rw [hdir.start, hdir.sects]
    rw [hs] at haddr ⊢
    omega

theorem SuperBlock.Laid.mapsOk {sb : SuperBlock} (h : sb.Laid) : sb.MapsOk := by
  have hs : sectorSize = 512 := rfl
  obtain ⟨himap, -, hfirst, haddr, -⟩ := h
  constructor
  · rw [himap]
    rw [hfirst] at haddr
    exact Nat.le_trans (Nat.mul_le_mul_left _ (by omega)) haddr
  · omega

theorem SuperBlock.Laid.firstFits {sb : SuperBlock} (h : sb.Laid) (d : Bytes) : FirstFits sb d := by
  intro f hf _ _
  have hfits := h.fits
  rw [SuperBlock.bitSect]
  omega

theorem SuperBlock.Laid.congr_layout {sb sb' : SuperBlock} (h : sb.Laid)
    (hsb : sb'.layout = sb.layout) : sb'.Laid := by
  obtain ⟨h₁, h₂, h₃, h₄, h₅⟩ := h
  rw [SuperBlock.eq_of_layout hsb]
  exact ⟨h₁, h₂, h₃, h₄, h₅⟩

end Laid

theorem CacheOk.congr_layout {sb sb' : SuperBlock} {d : Bytes} {t : Fin nrInode → Inode}
    (h : CacheOk sb d t) (hsb : sb'.layout = sb.layout) : CacheOk sb' d t := by
  rw [SuperBlock.eq_of_layout hsb]
  exact ⟨h.cnt, h.dev, h.num, h.inj, h.stored⟩

theorem RootInode.congr_layout {sb sb' : SuperBlock} {i : Inode} (h : RootInode sb i)
    (hsb : sb'.layout = sb.layout) : RootInode sb' i := by
  rw [SuperBlock.eq_of_layout hsb]
  exact ⟨h.num, h.mode, h.start, h.sects, h.entries⟩

namespace Fs.Sound

variable {s s' : Fs} {r n : Fin nrInode} {x y : Nat} {i : Inode}

theorem of_parts (h : s.Sound r x) (hsb : s'.sb.layout = s.sb.layout)
    (hroot : s'.rootInode = s.rootInode) (hdisk : DiskOk s.sb y s'.disk)
    (hcache : CacheOk s.sb s'.disk s'.inodeTable) (hdir : RootInode s.sb (s'.inodeTable r))
    (hrefs : openCount s'.fdTable r < (s'.inodeTable r).iCnt)
    (hdesc : ∀ f n, (s'.fdTable f).fdInode = some n → (s'.fdTable f).fdCnt = 1) :
    s'.Sound r y := by
  refine ⟨h.laid.congr_layout hsb, ?_, hcache.congr_layout hsb, hroot.trans h.root,
    hdir.congr_layout hsb, hrefs, hdesc⟩
  rw [SuperBlock.eq_of_layout hsb]
  refine ⟨hdisk.imap, hdisk.smap, hdisk.root, fun nr huse hx hown => ?_⟩
  obtain ⟨hm₁, hm₂, hm₃, hm₄⟩ := hdisk.marked nr huse hx hown
  exact ⟨hm₁, hm₂, hm₃, hm₄⟩

theorem of_front (h : s.Sound r x) (hsb : s'.sb.layout = s.sb.layout)
    (hroot : s'.rootInode = s.rootInode) (htab : s'.inodeTable = s.inodeTable)
    (hfd : s'.fdTable = s.fdTable)
    (hd : ∀ a, a < sectorSize * s.sb.n1stSect → s'.disk a = s.disk a) : s'.Sound r x := by
  refine h.of_parts hsb hroot (h.disk.congr h.laid hd) ?_ ?_ ?_ ?_
  · rw [htab]
    refine h.cache.congr fun nr _ hlt => diskInodeAt_shift fun j hj => hd _ ?_
    have hplace := inodePlace_lt h.laid hlt
    omega
  · rw [htab]
    exact h.dir
  · rw [htab, hfd]
    exact h.refs
  · rw [hfd]
    exact h.desc

theorem cnt_pos (h : s.Sound r x) : 0 < (s.inodeTable r).iCnt :=
  Int.lt_of_le_of_lt openCount_nonneg h.refs

theorem rootAt (h : s.Sound r x) : RootAt s r := by
  refine .of_laid h.laid h.root (h.cache.dev r ?_) h.dir
  have hpos := h.cnt_pos
  omega

theorem marked (h : s.Sound r x) (hn : (s.inodeTable n).iCnt ≠ 0)
    (huse : InUse s.disk (s.inodeTable n).iNum.toNat) (hx : (s.inodeTable n).iNum.toNat ≠ x)
    (hown : (s.inodeTable n).disk.Owner) : Marked s.sb s.disk (s.inodeTable n).disk := by
  have hpos := h.cache.num n hn
  have hstored := h.cache.stored n (s.inodeTable n).iNum.toNat hn (by omega) huse.2.1
  rw [hstored] at hown ⊢
  exact h.disk.marked _ huse hx hown

theorem fits (h : s.Sound r x) (hn : (s.inodeTable n).iCnt ≠ 0)
    (hlt : (s.inodeTable n).iNum.toNat < nrNumbers) : (s.inodeTable n).disk.Fits := by
  have hpos := h.cache.num n hn
  rw [h.cache.stored n (s.inodeTable n).iNum.toNat hn (by omega) hlt]
  exact diskInodeAt_fits _ _

end Fs.Sound

/-- `i` can take the place of the inode in slot `n`, in the cache and on the disk. -/
structure Stores (s : Fs) (r : Fin nrInode) (x : Nat) (n : Fin nrInode) (i : Inode) : Prop where
  num : i.iNum = (s.inodeTable n).iNum
  dev : i.iDev = rootDev
  cnt : 0 ≤ i.iCnt
  fits : i.iNum.toNat < nrNumbers → i.disk.Fits
  left : x = 0 ∨ (x : Int) = i.iNum
  mark : InUse s.disk i.iNum.toNat → i.disk.Owner → Marked s.sb s.disk i.disk
  root : n = r → RootInode s.sb i ∧ openCount s.fdTable r < i.iCnt

theorem Fs.Sound.store {s : Fs} {r n : Fin nrInode} {x : Nat} {i : Inode} (h : s.Sound r x)
    (hn : (s.inodeTable n).iCnt ≠ 0) (hi : Stores s r x n i) (b : Bytes) :
    Fs.Sound { s with
      fsbuf := b
      sb := { s.sb with sbDev := rootDev }
      inodeTable := Function.update s.inodeTable n i
      disk := putBytes s.disk (inodePlace s.sb i.iNum.toNat) i.disk.bytes } r 0 := by
  have hpos := h.cache.num n hn
  have hnum := hi.num
  have hdisk : DiskOk s.sb i.iNum.toNat s.disk := by
    rcases hi.left with rfl | hx
    · exact h.disk.weaken _
    · have hto : i.iNum.toNat = x := by omega
      rw [hto]
      exact h.disk
  refine h.of_parts rfl rfl (hdisk.store h.laid (by omega) hi.fits hi.mark)
    (h.cache.store hn hnum hi.dev hi.cnt hi.fits) ?_ ?_ h.desc
  · exact update_cases (P := RootInode s.sb) (fun hr => (hi.root hr.symm).1) fun _ => h.dir
  · exact update_cases (P := fun i : Inode => openCount s.fdTable r < i.iCnt)
      (fun hr => (hi.root hr.symm).2) fun _ => h.refs

namespace FS

section Inodes

variable {s s' : Fs} {r n : Fin nrInode} {x : Nat} {i : Inode}

/-- The state but for the disk, the buffer, the cache and the device. -/
def SameDescs (s s' : Fs) : Prop :=
  s'.fdTable = s.fdTable ∧ s'.filp = s.filp ∧ s'.sb.layout = s.sb.layout ∧
    s'.rootInode = s.rootInode

theorem unloadable_undefined {nr : Int} (w : Stop) (s' : Fs) (h : Unloadable s rootDev nr w s')
    (hw : w = .undefined) : ¬ Placed s nr := by
  rintro ⟨hone, haddr⟩
  obtain ⟨-, ⟨-, rfl, -⟩ | ⟨-, hdev | ⟨-, hbad | hbad⟩⟩⟩ := h
  · cases hw
  · exact absurd rfl hdev
  · omega
  · exact hbad haddr

theorem getInode_sound (h : s.Sound r x) (nr : Int) :
    wp (getInode rootDev nr) (fun n s' => s'.Sound r x ∧ (s'.inodeTable n).iNum = nr ∧
        0 < (s'.inodeTable n).iCnt ∧
        (n = r → openCount s.fdTable r + 1 < (s'.inodeTable n).iCnt) ∧ s'.disk = s.disk ∧
        SameDescs s s') (fun w _ => w = .undefined → ¬ Placed s nr) s := by
  have hroot := h.cnt_pos
  refine wp_mono (getInode_spec rootDev nr) ?_ unloadable_undefined
  rintro n s' (⟨hc, rfl⟩ | ⟨hc, hf, hplaced, -, b, rfl⟩)
  · obtain ⟨hn, -, hnum⟩ := cachedInode_spec hc
    have hcnt := h.cache.cnt n
    refine ⟨h.of_parts rfl rfl h.disk (h.cache.setCnt hn (by omega)) ?_ ?_ h.desc, ?_, ?_, ?_, rfl,
      rfl, rfl, rfl, rfl⟩
    · refine update_cases (P := RootInode s.sb) (fun hr => ?_) fun _ => h.dir
      subst hr
      exact ⟨h.dir.num, h.dir.mode, h.dir.start, h.dir.sects, h.dir.entries⟩
    · refine update_cases (P := fun i : Inode => openCount s.fdTable r < i.iCnt) (fun hr => ?_) fun _ =>
        h.refs
      subst hr
      exact Int.lt_add_one_of_le (Int.le_of_lt h.refs)
    · exact update_cases (P := fun i : Inode => i.iNum = nr) (fun _ => hnum) fun hne => absurd rfl hne
    · refine update_cases (P := fun i : Inode => 0 < i.iCnt) (fun _ => ?_) fun hne => absurd rfl hne
      exact Int.lt_add_one_of_le hcnt
    · intro hr
      subst hr
      refine update_cases (P := fun i : Inode => openCount s.fdTable n + 1 < i.iCnt) (fun _ => ?_)
        fun hne => absurd rfl hne
      exact Int.add_lt_add_right h.refs 1
  · have hr : r ≠ n := by
      rintro rfl
      have hzero := freeInode_cnt hf
      omega
    refine ⟨h.of_parts rfl rfl h.disk (h.cache.load hc hplaced.1) ?_ ?_ h.desc, ?_, ?_,
      fun heq => absurd heq.symm hr, rfl, rfl, rfl, rfl, rfl⟩
    · exact update_cases (P := RootInode s.sb) (fun heq => absurd heq hr) fun _ => h.dir
    · exact update_cases (P := fun i : Inode => openCount s.fdTable r < i.iCnt) (fun heq => absurd heq hr)
        fun _ => h.refs
    · exact update_cases (P := fun i : Inode => i.iNum = nr) (fun _ => rfl) fun hne => absurd rfl hne
    · exact update_cases (P := fun i : Inode => 0 < i.iCnt) (fun _ => Int.one_pos)
        fun hne => absurd rfl hne

theorem syncInode_sound (h : s.Sound r x) (hn : (s.inodeTable n).iCnt ≠ 0)
    (hi : Stores s r x n i) :
    wp (syncInode n) (fun _ s' => s'.Sound r 0 ∧
        s'.inodeTable = Function.update s.inodeTable n i ∧
        s'.disk = putBytes s.disk (inodePlace s.sb i.iNum.toNat) i.disk.bytes ∧ SameDescs s s')
      (fun _ _ => ¬ Placed s i.iNum) { s with inodeTable := Function.update s.inodeTable n i } := by
  refine wp_mono (syncInode_spec n) ?_ ?_
  · rintro - s' ⟨-, b, rfl⟩
    simp only [Function.update_self]
    exact ⟨h.store hn hi b, trivial, trivial, rfl, rfl, rfl, rfl⟩
  · rintro w s' ⟨hnot, -⟩ hplaced
    simp only [Function.update_self] at hnot
    exact hnot ⟨hi.dev, hplaced⟩

theorem placed_of_lt (h : s.Sound r x) {nr : Int} (hpos : 1 ≤ nr) (hlt : nr.toNat < nrNumbers) :
    Placed s nr := by
  have hplace := inodePlace_lt h.laid hlt
  have haddr := h.laid.addr
  have hs : sectorSize = 512 := rfl
  rw [inodePlace, hs] at hplace
  rw [hs] at haddr
  refine ⟨hpos, ?_⟩
  rw [hs]
  omega

end Inodes

section Creation

variable {s s' : Fs} {r n : Fin nrInode} {x start : Nat} {name path : List UInt8}

theorem ne_root (h : s.Sound r x) (hnum : (s.inodeTable n).iNum ≠ rootInodeNr) : n ≠ r := by
  rintro rfl
  exact hnum h.dir.num

theorem newInode_sound (h : s.Sound r x) (hx : rootInodeNr < x)
    (hmark : Marked s.sb s.disk ⟨iRegular, 0, start, nrDefaultFileSects⟩) :
    wp (newInode rootDev x start) (fun n s' => s'.Sound r 0 ∧ 0 < (s'.inodeTable n).iCnt ∧
        n ≠ r ∧ SameDescs s s' ∧ KeepsOwners s.sb x s.disk s'.disk ∧
        (storedInode s.sb s'.disk x).startSect = start)
      (fun w _ => w = .undefined → nrNumbers ≤ x) s := by
  have hplaced : ∀ {s' : Fs}, s'.Sound r x → x < nrNumbers → Placed s' x := fun h' hlt =>
    placed_of_lt h' (by omega) (by rw [Int.toNat_natCast]; exact hlt)
  simp only [newInode, wp_bind]
  refine wp_mono (getInode_sound h x) ?_
    fun w _ hE hw => Nat.not_lt.mp fun hlt => hE hw (hplaced h hlt)
  rintro n s₁ ⟨h₁, hnum, hcnt, -, hdisk, hfd, hfilp, hsb, hroot⟩
  have hne : n ≠ r := by
    refine ne_root h₁ ?_
    rw [hnum]
    have hone : rootInodeNr = 1 := rfl
    omega
  have hstart : start < 2 ^ 32 := by
    have hmap := hmark.inMap
    have hfits := h.laid.fits
    rw [SuperBlock.firstBit] at hmap
    dsimp only at hmap
    omega
  have hfits : DiskInode.Fits ⟨iRegular, 0, start, nrDefaultFileSects⟩ :=
    ⟨show iRegular < 2 ^ 32 by decide, show 0 < 2 ^ 32 by decide, hstart,
      show nrDefaultFileSects < 2 ^ 32 by decide⟩
  have hmark₁ : Marked s₁.sb s₁.disk ⟨iRegular, 0, start, nrDefaultFileSects⟩ := by
    obtain ⟨m₁, m₂, m₃, m₄⟩ := hmark
    rw [SuperBlock.eq_of_layout hsb, hdisk]
    exact ⟨m₁, m₂, m₃, m₄⟩
  simp only [setInode, wp_modify]
  refine wp_mono (syncInode_sound (n := n) (i := { s₁.inodeTable n with
      iMode := iRegular, iSize := 0, iStartSect := start, iNrSects := nrDefaultFileSects,
      iDev := rootDev, iNum := x, iCnt := 1 }) h₁ (by omega) ?_) ?_
    fun _ _ hE _ => Nat.not_lt.mp fun hlt => hE (hplaced h₁ hlt)
  · exact ⟨hnum.symm, rfl, show (0 : Int) ≤ 1 by decide, fun _ => hfits, .inr rfl,
      fun _ _ => hmark₁, fun heq => absurd heq hne⟩
  · rintro - s₂ ⟨h₂, htab, hdisk₂, hfd₂, hfilp₂, hsb₂, hroot₂⟩
    have hput : s₂.disk = putBytes s.disk (inodePlace s.sb x)
        (⟨iRegular, 0, start, nrDefaultFileSects⟩ : DiskInode).bytes := by
      rw [hdisk₂, hdisk, SuperBlock.eq_of_layout hsb]
      rfl
    refine ⟨h₂, ?_, hne, ⟨hfd₂.trans hfd, hfilp₂.trans hfilp, hsb₂.trans hsb, hroot₂.trans hroot⟩,
      ?_, ?_⟩
    · rw [htab, Function.update_self]
      exact Int.one_pos
    · rw [hput]
      exact KeepsOwners.store h.laid (Nat.le_of_lt hx) (fun _ => hfits) fun hne => absurd rfl hne
    · rw [hput, storedInode_put hfits]

theorem stores_size (h : s.Sound r 0) {k : Nat} (hn : 0 < (s.inodeTable n).iCnt) (hk : k < 2 ^ 32)
    (hroot : n = r → k / dirEntSize ≤ (s.inodeTable r).slots + 1) :
    Stores s r 0 n { s.inodeTable n with iSize := k } := by
  have hne : (s.inodeTable n).iCnt ≠ 0 := by omega
  have hpos := h.cache.num n hne
  refine ⟨rfl, h.cache.dev n hne, by dsimp only; omega, fun hlt => ?_, .inl rfl, fun huse hown => ?_,
    fun hr => ?_⟩
  · obtain ⟨hm, -, hs, hn⟩ := h.fits hne hlt
    exact ⟨hm, hk, hs, hn⟩
  · exact (h.marked hne huse (by omega) hown).resize rfl rfl
  · subst hr
    exact ⟨⟨h.dir.num, h.dir.mode, h.dir.start, h.dir.sects, hroot rfl⟩, h.refs⟩

theorem keeps_size (h : s.Sound r 0) {k : Nat} (hn : 0 < (s.inodeTable n).iCnt) (hk : k < 2 ^ 32) :
    KeepsOwners s.sb 0 s.disk (putBytes s.disk (inodePlace s.sb (s.inodeTable n).iNum.toNat)
      ({ s.inodeTable n with iSize := k } : Inode).disk.bytes) := by
  have hne : (s.inodeTable n).iCnt ≠ 0 := by omega
  have hpos := h.cache.num n hne
  refine KeepsOwners.store h.laid (by omega) (fun hlt => ?_) fun _ hlt hown => ?_
  · obtain ⟨hm, -, hs, hn⟩ := h.fits hne hlt
    exact ⟨hm, hk, hs, hn⟩
  · rw [← h.cache.stored n _ hne (by omega) hlt]
    exact ⟨hown, rfl, rfl⟩

theorem newDirectoryEntry_sound (h : s.Sound r 0) (name : List UInt8) (nr : Nat) :
    wp (newDirectoryEntry r name nr) (fun _ s' => s'.Sound r 0 ∧ SameDescs s s' ∧
        (∀ n, n ≠ r → s'.inodeTable n = s.inodeTable n) ∧ KeepsOwners s.sb 0 s.disk s'.disk)
      (fun _ _ => (s.inodeTable r).slots < (s.inodeTable r).entries) s := by
  have hd : dirEntSize = 16 := rfl
  have he : entriesPerSect = 32 := rfl
  have hsome : (s.inodeTable r).iNrSects ≠ 0 := by
    rw [h.dir.sects]
    decide
  refine wp_mono (newDirectoryEntry_spec h.rootAt) ?_ fun _ _ hE => hE.resolve_left hsome
  rintro - s' ⟨i, j, b, hi, hslot, rfl⟩
  have hfront : ∀ a, a < sectorSize * s.sb.n1stSect →
      putBytes s.disk (slotAt (s.inodeTable r).iStartSect (entriesPerSect * i + j))
        ((entryBytes nr name).take (sectorSize - dirEntSize * j)) a = s.disk a := by
    intro a ha
    apply putBytes_of_lt
    rw [h.dir.start]
    exact Nat.lt_of_lt_of_le ha (slotAt_le _ _)
  have h₁ : Fs.Sound { s with
      disk := putBytes s.disk (slotAt (s.inodeTable r).iStartSect (entriesPerSect * i + j))
        ((entryBytes nr name).take (sectorSize - dirEntSize * j)) } r 0 :=
    h.of_front rfl rfl rfl rfl hfront
  have hcnt := h.cnt_pos
  have hentries := h.dir.entries
  have hsects := h.dir.sects
  have hj := hslot.index
  have hsize : (s.inodeTable r).iSize < dirEntSize * ((s.inodeTable r).slots + 2) := by
    rw [Inode.entries, hd] at hentries
    rw [hd]
    omega
  have hslots : (s.inodeTable r).slots = 65536 := by
    rw [Inode.slots, hsects]
    rfl
  have hgrown : (((s.inodeTable r).grown (entriesPerSect * i + j)).iSize) < 2 ^ 32 ∧
      ((s.inodeTable r).grown (entriesPerSect * i + j)).iSize / dirEntSize ≤
        (s.inodeTable r).slots + 1 := by
    rw [hslots, hd] at hsize
    rw [hsects] at hi
    rw [he] at hj ⊢
    have hn : nrDefaultFileSects = 2048 := rfl
    rw [hn] at hi
    rw [Inode.grown, hslots, hd]
    dsimp only
    split
    · rename_i hlast
      rw [Inode.entries, hd] at hlast
      omega
    · omega
  refine ⟨h₁.store (by dsimp only; omega) (stores_size h₁ hcnt hgrown.1 fun _ => hgrown.2) b,
    ⟨rfl, rfl, rfl, rfl⟩, fun n hn => Function.update_of_ne hn _ _,
    (KeepsOwners.congr h.laid hfront).trans (keeps_size h₁ hcnt hgrown.1)⟩

theorem SameDescs.trans {s₁ : Fs} (h : SameDescs s s₁) (h' : SameDescs s₁ s') : SameDescs s s' :=
  ⟨h'.1.trans h.1, h'.2.1.trans h.2.1, h'.2.2.1.trans h.2.2.1, h'.2.2.2.trans h.2.2.2⟩

theorem sound_buffer (h : s.Sound r x) (hbuf : ∃ b, s' = { s with fsbuf := b }) :
    s'.Sound r x ∧ SameDescs s s' := by
  obtain ⟨b, rfl⟩ := hbuf
  exact ⟨h.of_front rfl rfl rfl rfl fun _ _ => rfl, rfl, rfl, rfl, rfl⟩

theorem allocate_sound (h : s.Sound r 0) {nr sect : Nat} {s₁ s₂ : Fs} (himap : ImapAllocated s nr s₁)
    (hsmap : SmapAllocated s₁ nrDefaultFileSects sect s₂) :
    s₁.Sound r nr ∧ s₂.Sound r nr ∧ rootInodeNr < nr ∧ SameDescs s s₂ ∧
      Marked s₂.sb s₂.disk ⟨iRegular, 0, sect, nrDefaultFileSects⟩ ∧
      KeepsOwners s.sb nr s.disk s₂.disk ∧ ∃ f, Free s.disk 3 f ∧
        (∀ g, g < f → ¬ Free s.disk 3 g) ∧ sect = s.sb.n1stSect - 1 + f := by
  have hs : sectorSize = 512 := rfl
  have hnr : rootInodeNr < nr := by
    have hone : rootInodeNr = 1 := rfl
    have hroot := h.disk.root.2.2
    have hzero := h.disk.imap
    by_contra hle
    have hcases : nr = 0 ∨ nr = rootInodeNr := by omega
    rcases hcases with rfl | rfl
    · exact hzero himap.free
    · exact hroot himap.free
  have hsb₁ : s₁.sb.layout = s.sb.layout ∧ s₁.rootInode = s.rootInode ∧
      s₁.inodeTable = s.inodeTable ∧ s₁.fdTable = s.fdTable ∧ s₁.filp = s.filp := by
    obtain ⟨b, rfl⟩ := himap.state
    exact ⟨rfl, rfl, rfl, rfl, rfl⟩
  have h₁ : s₁.Sound r nr := by
    obtain ⟨hsb, hroot, htab, hfd, -⟩ := hsb₁
    refine h.of_parts hsb hroot (himap.diskOk h.laid h.disk) ?_ ?_ ?_ ?_
    · rw [htab]
      refine h.cache.congr fun m _ _ => storedInode_congr h.laid (fun a ha => ?_) m
      exact himap.behind h.laid (Nat.le_trans (by rw [hs]; omega) ha)
    · rw [htab]
      exact h.dir
    · rw [htab, hfd]
      exact h.refs
    · rw [hfd]
      exact h.desc
  have hmarked := hsmap.marked h₁.laid h₁.disk iRegular 0
  have hdisk := hsmap.diskOk h₁.laid h₁.disk
  have houtside : ∀ a, sectorSize * (3 + s₁.sb.nrSmapSects) ≤ a → s₂.disk a = s₁.disk a :=
    fun a ha => hsmap.outside h₁.laid (.inr ha)
  have hkeeps : KeepsOwners s.sb nr s.disk s₂.disk := by
    refine (KeepsOwners.allocNumber himap h.laid h.disk).trans ?_
    have hremap : KeepsOwners s₁.sb nr s₁.disk s₂.disk :=
      .remap h₁.laid fun a ha => hsmap.outside h₁.laid ha
    rw [SuperBlock.eq_of_layout hsb₁.1] at hremap
    exact hremap
  have hfirst : ∃ f, Free s.disk 3 f ∧ (∀ g, g < f → ¬ Free s.disk 3 g) ∧
      sect = s.sb.n1stSect - 1 + f := by
    obtain ⟨f, hfree, hbelow, heq⟩ := hsmap.exists_first h₁.laid (by decide)
    have hiff : ∀ b, Free s₁.disk 3 b ↔ Free s.disk 3 b := by
      intro b
      rw [← smapSect_eq h.laid]
      exact himap.free_iff
    rw [SuperBlock.eq_of_layout hsb₁.1] at heq
    exact ⟨f, (hiff f).mp hfree, fun g hg hf => hbelow g hg ((hiff g).mpr hf), heq⟩
  obtain ⟨disk, buf, rfl⟩ := hsmap.state
  refine ⟨h₁, h₁.of_parts rfl rfl hdisk (h₁.cache.congr fun m _ _ =>
    storedInode_congr h₁.laid houtside m) h₁.dir h₁.refs h₁.desc, hnr,
    ⟨hsb₁.2.2.2.1, hsb₁.2.2.2.2, hsb₁.1, hsb₁.2.1⟩, ?_, hkeeps, hfirst⟩
  exact ⟨hmarked.start, hmarked.sects, hmarked.inMap, hmarked.set⟩

theorem createFile_sound (h : s.Sound r 0) (path : List UInt8) :
    wp (createFile path) (fun o s' => SameDescs s s' ∧ s'.Sound r 0 ∧ ∀ n, o = some n →
        0 < (s'.inodeTable n).iCnt ∧ n ≠ r ∧ ∃ nr f, NewOwner s s' nr f) (fun _ _ => True) s := by
  have hdev := h.rootAt.dev
  unfold createFile
  cases stripPath path with
  | none => exact ⟨⟨rfl, rfl, rfl, rfl⟩, h, fun n hn => nomatch hn⟩
  | some name =>
    simp only [fitsFilename, rootNode, wp_bind, wp_ite, wp_pure, wp_get, h.root, hdev]
    refine ⟨fun _ => ?_, fun _ => trivial⟩
    refine wp_mono (allocImapBit_spec h.laid.mapsOk) ?_ (fun _ _ _ => trivial)
    intro nr s₁ himap
    have hmap₁ : s₁.sb.MapsOk ∧ FirstFits s₁.sb s₁.disk := by
      have hok := h.laid.mapsOk
      have hfits := h.laid.fits
      obtain ⟨b, rfl⟩ := himap.state
      refine ⟨⟨hok.addr, hok.first⟩, fun f hf _ _ => ?_⟩
      change s.sb.n1stSect - 1 + f < 2 ^ 32
      have hlt : f < s.sb.smapBits := hf
      omega
    refine wp_mono (allocSmapBit_spec hmap₁.1 hmap₁.2 (by decide)) ?_ (fun _ _ _ => trivial)
    intro sect s₂ hsmap
    obtain ⟨-, h₂, hnr, hsame₂, hmark, hkeeps₂, f, hfree, hbelow, hsect⟩ :=
      allocate_sound h himap hsmap
    refine wp_mono (newInode_sound h₂ hnr hmark) ?_ (fun _ _ _ => trivial)
    rintro n s₃ ⟨h₃, hcnt, hne, hsame₃, hkeeps₃, hstart⟩
    refine wp_mono (newDirectoryEntry_sound h₃ name nr) ?_ (fun _ _ _ => trivial)
    rintro - s₄ ⟨h₄, hsame₄, htab, hkeeps₄⟩
    have hsame := (hsame₂.trans hsame₃).trans hsame₄
    refine ⟨hsame, h₄, ?_⟩
    rintro m ⟨rfl⟩
    rw [htab n hne]
    rw [SuperBlock.eq_of_layout hsame₂.2.2.1] at hkeeps₃ hstart
    rw [SuperBlock.eq_of_layout (hsame₂.trans hsame₃).2.2.1] at hkeeps₄
    have hnew : NewOwner s s₃ nr f :=
      ⟨Nat.ne_of_gt (Nat.zero_lt_of_lt hnr), hfree, hbelow, hkeeps₂.trans hkeeps₃,
        fun _ _ => hstart.trans hsect⟩
    exact ⟨hcnt, hne, nr, f, hnew.trans hkeeps₄⟩

theorem openInode_sound (h : s.Sound r 0) (path : List UInt8) (flags : Int) :
    wp (openInode path flags) (fun o s' => SameDescs s s' ∧ s'.Sound r 0 ∧
        OwnersKept (oCreat flags = true ∧ s.lookup path = 0) s s' ∧ ∀ n, o = some n →
        0 < (s'.inodeTable n).iCnt ∧ (n = r → openCount s'.fdTable r + 1 < (s'.inodeTable n).iCnt))
      (fun _ _ => True) s := by
  simp only [openInode, wp_bind]
  refine wp_mono (searchFile_spec path) ?_ (fun _ _ _ => trivial)
  rintro nr s₁ ⟨hbuf, hlookup, -⟩
  obtain ⟨h₁, hsame⟩ := sound_buffer h hbuf
  have hbuffer : s₁.sb = s.sb ∧ s₁.disk = s.disk := by
    obtain ⟨b, rfl⟩ := hbuf
    exact ⟨rfl, rfl⟩
  have hkept : ∀ {c : Prop} {s' : Fs}, s'.disk = s.disk → OwnersKept c s s' := by
    intro c s' hd
    left
    rw [hd]
    exact .refl s.sb 0 s.disk
  have hnone : ∀ {c : Prop}, SameDescs s s₁ ∧ s₁.Sound r 0 ∧ OwnersKept c s s₁ ∧
      ∀ n, (none : Option (Fin nrInode)) = some n → 0 < (s₁.inodeTable n).iCnt ∧
        (n = r → openCount s₁.fdTable r + 1 < (s₁.inodeTable n).iCnt) :=
    ⟨hsame, h₁, hkept hbuffer.2, fun n hn => nomatch hn⟩
  simp only [wp_ite]
  refine ⟨fun hz => ⟨fun hcreat => ?_, fun _ => hnone⟩, fun _ =>
    ⟨fun _ => ⟨fun _ => hnone, fun _ => ?_⟩, fun _ => hnone⟩⟩
  · rw [wp_bind]
    refine wp_mono (createFile_sound h₁ path) ?_ (fun _ _ _ => trivial)
    rintro o s₂ ⟨hsame₂, h₂, hn⟩
    cases o with
    | none => trivial
    | some n =>
      obtain ⟨hcnt, hne, k, f, hnew⟩ := hn n rfl
      have hnew' : NewOwner s s₂ k f := by
        obtain ⟨hk, hfree, hfirst, hkeeps, hstart⟩ := hnew
        rw [hbuffer.1] at hkeeps hstart
        rw [hbuffer.2] at hfree hfirst hkeeps
        exact ⟨hk, hfree, hfirst, hkeeps, hstart⟩
      refine ⟨hsame.trans hsame₂, h₂, .inr ⟨⟨hcreat, hlookup.symm.trans hz⟩, k, f, hnew'⟩, ?_⟩
      rintro m ⟨rfl⟩
      exact ⟨hcnt, fun heq => absurd heq hne⟩
  · simp only [rootNode, wp_bind, wp_get, h₁.root, wp_pure, h₁.rootAt.dev]
    refine wp_mono (getInode_sound h₁ nr) ?_ (fun _ _ _ => trivial)
    rintro n s₂ ⟨h₂, -, hcnt, hrefs, hdisk, hsame₂⟩
    refine ⟨hsame.trans hsame₂, h₂, hkept (hdisk.trans hbuffer.2), ?_⟩
    rintro m ⟨rfl⟩
    rw [hsame₂.1]
    exact ⟨hcnt, hrefs⟩

end Creation

section Requests

variable {s s' : Fs} {r n : Fin nrInode} {p : Pid} {msg : Message}

theorem trunc_sound {flags : Int} (h : s.Sound r 0) (hn : 0 < (s.inodeTable n).iCnt) :
    wp (when (oTrunc flags = true) do
        setInode n fun i => { i with iSize := 0 }
        syncInode n)
      (fun _ s' => s'.Sound r 0 ∧ s'.fdTable = s.fdTable ∧
        (s'.inodeTable n).iCnt = (s.inodeTable n).iCnt ∧ KeepsOwners s.sb 0 s.disk s'.disk)
      (fun _ _ => True) s := by
  rw [wp_when, wp_bind, setInode, wp_modify]
  refine ⟨fun _ => ?_, fun _ => ⟨h, rfl, rfl, .refl s.sb 0 s.disk⟩⟩
  refine wp_mono (syncInode_sound h (by omega) (stores_size h hn (by decide) ?_)) ?_
    (fun _ _ _ => trivial)
  · rintro -
    rw [Nat.zero_div]
    exact Nat.zero_le _
  · rintro - s₁ ⟨h₁, htab, hdisk, hsame⟩
    refine ⟨h₁, hsame.1, ?_, ?_⟩
    · rw [htab, Function.update_self]
    · rw [hdisk]
      exact keeps_size h hn (by decide)

theorem bind_sound (h : s.Sound r 0) {f : Fin nrFileDesc} {e : FileDesc}
    {filp : Pid → Fin nrFiles → Option (Fin nrFileDesc)} (hf : (s.fdTable f).fdInode = none)
    (he : e.fdInode = some n ∧ e.fdCnt = 1)
    (hrefs : n = r → openCount s.fdTable r + 1 < (s.inodeTable n).iCnt) :
    Fs.Sound { s with filp, fdTable := Function.update s.fdTable f e } r 0 := by
  refine h.of_parts rfl rfl h.disk h.cache h.dir ?_ fun g m => ?_
  · have hcount := @openCount_update s.fdTable f e r
    rw [hf, he.1, if_neg (fun hc => nomatch hc)] at hcount
    have hold := h.refs
    change openCount (Function.update s.fdTable f e) r < (s.inodeTable r).iCnt
    by_cases hr : n = r
    · have hnew := hrefs hr
      subst hr
      rw [if_pos rfl] at hcount
      omega
    · rw [if_neg (fun hc => hr (Option.some.inj hc))] at hcount
      omega
  · exact update_cases (P := fun e : FileDesc => e.fdInode = some m → e.fdCnt = 1)
      (fun _ _ => he.2) fun _ => h.desc g m

theorem unbind_sound (h : s.Sound r 0) {f : Fin nrFileDesc} {e : FileDesc}
    {filp : Pid → Fin nrFiles → Option (Fin nrFileDesc)} (hf : (s.fdTable f).fdInode = some n)
    (he : e.fdInode = none) (hcnt : 0 < (s.inodeTable n).iCnt) :
    Fs.Sound { s with
      filp
      fdTable := Function.update s.fdTable f e
      inodeTable := Function.update s.inodeTable n
        { s.inodeTable n with iCnt := (s.inodeTable n).iCnt - 1 } } r 0 := by
  have hcount := @openCount_update s.fdTable f e r
  rw [hf, he, if_neg (c := none = some r) (fun hc => nomatch hc)] at hcount
  have hrefs := h.refs
  refine h.of_parts rfl rfl h.disk (h.cache.setCnt (by omega) (by omega)) ?_ ?_ fun g m => ?_
  · refine update_cases (P := RootInode s.sb) (fun hr => ?_) fun _ => h.dir
    subst hr
    exact ⟨h.dir.num, h.dir.mode, h.dir.start, h.dir.sects, h.dir.entries⟩
  · refine update_cases
      (P := fun i : Inode => openCount (Function.update s.fdTable f e) r < i.iCnt)
      (fun hr => ?_) fun hr => ?_
    · subst hr
      rw [if_pos rfl] at hcount
      dsimp only
      omega
    · rw [if_neg (fun hc => hr (Option.some.inj hc).symm)] at hcount
      omega
  · refine update_cases (P := fun e : FileDesc => e.fdInode = some m → e.fdCnt = 1)
      (fun _ hm => ?_) fun _ => h.desc g m
    rw [he] at hm
    cases hm

theorem doOpen_sound (h : s.Sound r 0) :
    wp (doOpen p msg) (fun _ s' => s'.Sound r 0 ∧
        OwnersKept (oCreat msg.m3i1 = true ∧ s.lookup (s.pathOf p msg) = 0) s s')
      (fun _ _ => True) s := by
  rw [doOpen]
  simp only [wp_bind]
  refine wp_mono (copyPath_spec p msg) ?_ (fun _ _ _ => trivial)
  rintro path s₀ ⟨rfl, rfl⟩
  refine wp_mono (freeFilp_spec p) ?_ (fun _ _ _ => trivial)
  rintro i s₁ ⟨rfl, -⟩
  refine wp_mono freeDesc_spec ?_ (fun _ _ _ => trivial)
  rintro f s₂ ⟨rfl, hf⟩
  refine wp_mono (openInode_sound h _ msg.m3i1) ?_ (fun _ _ _ => trivial)
  rintro o s₃ ⟨hsame, h₃, hkept, hn⟩
  cases o with
  | none => exact ⟨h₃, hkept⟩
  | some n =>
    obtain ⟨hcnt, hrefs⟩ := hn n rfl
    simp only [wp_bind]
    refine wp_mono (trunc_sound h₃ hcnt) ?_ (fun _ _ _ => trivial)
    rintro - s₄ ⟨h₄, hfd, hcnt₄, hkept₄⟩
    rw [SuperBlock.eq_of_layout hsame.2.2.1] at hkept₄
    rw [← hsame.1, ← hfd] at hf
    rw [← hfd, ← hcnt₄] at hrefs
    simp only [setFilp, setDesc, wp_modify]
    refine wp_mono (openDevice_ends n) ?_ (fun _ _ _ => trivial)
    rintro - s₅ ⟨rfl, -⟩
    exact ⟨bind_sound h₄ hf ⟨rfl, rfl⟩ hrefs, hkept.trans hkept₄⟩

theorem doClose_sound (h : s.Sound r 0) :
    wp (doClose p msg) (fun _ s' => s'.Sound r 0 ∧ s'.disk = s.disk) (fun _ _ => True) s := by
  unfold doClose
  cases fdIndex msg.m3i1 with
  | none => exact ⟨h, rfl⟩
  | some i =>
    simp only [wp_bind, wp_get]
    cases s.filp p i with
    | none => trivial
    | some f =>
      dsimp only
      simp only [wp_bind, wp_get]
      cases hf : (s.fdTable f).fdInode with
      | none => trivial
      | some n =>
        simp only [putInode, setInode, setDesc, setFilp, wp_bind, wp_get, wp_check, wp_modify,
          wp_pure]
        refine ⟨fun hcnt => ?_, fun _ => trivial⟩
        have hone := h.desc f n hf
        exact ⟨unbind_sound h hf (if_pos (by omega)) hcnt, trivial⟩

end Requests

end FS

/-- The sectors of two inodes have none in common. -/
def DiskInode.Apart (i j : DiskInode) : Prop :=
  i.startSect + i.nrSects ≤ j.startSect ∨ j.startSect + j.nrSects ≤ i.startSect

/-- No two inodes in use share a sector. -/
def Fs.NoOverlap (s : Fs) : Prop :=
  ∀ m n, InUse s.disk m → InUse s.disk n → m ≠ n → (storedInode s.sb s.disk m).Owner →
    (storedInode s.sb s.disk n).Owner →
    (storedInode s.sb s.disk m).Apart (storedInode s.sb s.disk n)

/-- What the assertions of `do_unlink` look at: the bit of the inode, the bits of its sectors and
the entries that the directory's size covers. -/
structure Releasable (s : Fs) (r : Fin nrInode) (nr : Int) (i : DiskInode) : Prop where
  number : InUse s.disk nr.toNat
  sects : ReleaseChecks (s.sb.firstBit i) i.nrSects s.disk
  entry : ∃ t, t < min (s.inodeTable r).entries (s.inodeTable r).slots ∧
    slotNr s.disk (s.inodeTable r).iStartSect t = nr

namespace FS

section Removal

variable {s s' : Fs} {r n : Fin nrInode} {nr : Int}

theorem clearImapBit_spec (nr : Nat) :
    wp (clearImapBit rootDev nr) (fun _ s' => nr < nrNumbers ∧ ¬ Free s.disk 2 nr ∧
        ∃ b, s' = { s with
          fsbuf := b, disk := clearBit s.disk (sectorSize * 2 + nr / 8) (nr % 8) })
      (fun _ _ => nr < nrNumbers → Free s.disk 2 nr) s := by
  have hplace : sectBit 2 + nr = 8 * (sectorSize * 2 + nr / 8) + nr % 8 := by
    rw [sectBit]
    omega
  simp only [clearImapBit, wp_bind]
  rw [onDev, if_pos rfl, wp_rdSect (by decide), wp_check]
  refine ⟨fun hlt => ?_, fun hge hnr => absurd (by rw [nrNumbers] at hnr; omega) hge⟩
  have hfree : copyBytes s.fsbuf 0 s.disk (sectorSize * 2) sectorSize (nr / 8) &&&
      bitMask (nr % 8) = 0 ↔ Free s.disk 2 nr := by
    rw [and_mask_eq_zero (Nat.mod_lt _ (by decide)), copyBytes_zero hlt, Free, hplace,
      bitAt_mul_add (Nat.mod_lt _ (by decide))]
  simp only [wp_get, wp_check, wp_setBuf]
  refine ⟨fun hset => ?_, fun hzero _ => hfree.mp (not_not.mp hzero)⟩
  have hdisk := @flushed_clearBit s.disk (copyBytes s.fsbuf 0 s.disk (sectorSize * 2) sectorSize)
    2 (nr / 8) (nr % 8) hlt
  rw [flushed_read] at hdisk
  rw [onDev, if_pos rfl, wp_wrSect (by decide), ← hdisk]
  exact ⟨by rw [nrNumbers]; omega, fun hf => hset (hfree.mpr hf), _, rfl⟩

theorem clearEntry_sound (h : s.Sound r 0) :
    wp (clearEntry r rootDev nr) (fun _ s' => s'.Sound r 0 ∧
        (∃ t, t < min (s.inodeTable r).entries (s.inodeTable r).slots ∧
          slotNr s.disk (s.inodeTable r).iStartSect t = nr) ∧ KeepsOwners s.sb 0 s.disk s'.disk)
      (fun _ _ => ∀ t, t < min (s.inodeTable r).entries (s.inodeTable r).slots →
        slotNr s.disk (s.inodeTable r).iStartSect t ≠ nr) s := by
  have hs : sectorSize = 512 := rfl
  have hd : dirEntSize = 16 := rfl
  have hcnt := h.cnt_pos
  have haddr : ∀ i, i < (s.inodeTable r).iNrSects →
      sectorSize * ((s.inodeTable r).iStartSect + i) < 2 ^ 31 := by
    intro i hi
    have hend := h.rootAt.addr
    rw [hs] at hend ⊢
    omega
  simp only [clearEntry, wp_bind, wp_get]
  refine wp_mono (iter_unlinkEntry (k := (s.inodeTable r).iNrSects)
    (n := min (s.inodeTable r).entries (s.inodeTable r).slots) haddr (Nat.min_le_right _ _)) ?_
    (fun _ _ hE => hE.elim)
  rintro ⟨found, dirSize⟩ s₁ ⟨hfound, hnone⟩
  cases found with
  | none => exact hnone rfl
  | some t =>
    obtain ⟨ht, hfirst, hcount, b, rfl⟩ := hfound t rfl
    have hentry : ∃ t, t < min (s.inodeTable r).entries (s.inodeTable r).slots ∧
        slotNr s.disk (s.inodeTable r).iStartSect t = nr := ⟨t, ht, hfirst.nr_eq⟩
    have hfront : ∀ a, a < sectorSize * s.sb.n1stSect →
        clearedSlot s.disk (s.inodeTable r).iStartSect t a = s.disk a := by
      intro a ha
      apply putBytes_of_lt
      rw [h.dir.start]
      exact Nat.lt_of_lt_of_le ha (slotAt_le _ _)
    have h₁ : Fs.Sound { s with
        fsbuf := b, disk := clearedSlot s.disk (s.inodeTable r).iStartSect t } r 0 :=
      h.of_front rfl rfl rfl rfl hfront
    have hkeeps : KeepsOwners s.sb 0 s.disk (clearedSlot s.disk (s.inodeTable r).iStartSect t) :=
      .congr h.laid hfront
    have hslots : (s.inodeTable r).slots = 65536 := by
      rw [Inode.slots, h.dir.sects]
      rfl
    have hsize : dirSize ≤ dirEntSize * t := by
      change dirSize = dirEntSize * liveBefore s.disk (s.inodeTable r).iStartSect t at hcount
      rw [hcount]
      exact Nat.mul_le_mul_left _ (Nat.count_le _)
    simp only [wp_when, wp_bind]
    refine ⟨fun _ => ?_, fun _ => ⟨h₁, hentry, hkeeps⟩⟩
    have hshort : dirSize < 2 ^ 32 ∧ dirSize / dirEntSize ≤ (s.inodeTable r).slots + 1 := by
      rw [hslots] at ht ⊢
      rw [hd] at hsize ⊢
      omega
    rw [setInode, wp_modify]
    refine wp_mono (syncInode_sound h₁ (by dsimp only; omega)
      (stores_size h₁ hcnt hshort.1 fun _ => hshort.2)) ?_ ?_
    · rintro - s₂ ⟨h₂, -, hdisk, -⟩
      refine ⟨h₂, hentry, hkeeps.trans ?_⟩
      rw [hdisk]
      exact keeps_size h₁ hcnt hshort.1
    · intro _ _ hnot
      refine absurd (placed_of_lt h₁ ?_ ?_) hnot
      · exact h.rootAt.num
      · change (s.inodeTable r).iNum.toNat < nrNumbers
        rw [h.dir.num]
        decide

theorem releaseChecks_congr {lo k : Nat} {d d' : Bytes}
    (hd : ∀ b, bitAt d' (sectBit 3 + b) = bitAt d (sectBit 3 + b)) :
    ReleaseChecks lo k d' ↔ ReleaseChecks lo k d := by
  constructor
  · rintro ⟨hset, hlast⟩
    exact ⟨fun b hb hlt => hd b ▸ hset b hb hlt, hd _ ▸ hlast⟩
  · rintro ⟨hset, hlast⟩
    exact ⟨fun b hb hlt => (hd b).trans (hset b hb hlt), (hd _).trans hlast⟩

theorem apart_bits {sb : SuperBlock} {d : Bytes} {i j : DiskInode} (hi : Marked sb d i)
    (hj : Marked sb d j) (h : j.Apart i) :
    sb.firstBit j + j.nrSects ≤ sb.firstBit i ∨ sb.firstBit i + i.nrSects ≤ sb.firstBit j := by
  have hi' := hi.start
  have hj' := hj.start
  rw [SuperBlock.firstBit, SuperBlock.firstBit]
  rcases h with h | h <;> omega

theorem release_sound (h : s.Sound r 0) (hno : s.NoOverlap) {k : Nat} (huse : InUse s.disk k)
    (hk : k ≠ rootInodeNr) {i : DiskInode} (hi : i = storedInode s.sb s.disk k) (hown : i.Owner)
    {s₁ : Fs} {b₁ : Bytes}
    (hs₁ : s₁ = { s with
      fsbuf := b₁
      disk := clearBit s.disk (sectorSize * 2 + k / 8) (k % 8)
      sb := { s.sb with sbDev := rootDev } })
    {disk buf : Bytes}
    (hc : Cleared (s.sb.firstBit i) (s.sb.firstBit i + i.nrSects) s₁.disk disk) :
    Fs.Sound { s₁ with disk, fsbuf := buf } r 0 ∧ KeepsOwners s.sb 0 s.disk disk := by
  subst hi
  have hs : sectorSize = 512 := rfl
  have hone : rootInodeNr = 1 := rfl
  have hmark := h.disk.marked k huse (by have hpos := huse.1; omega) hown
  have hbehind : ∀ a, sectorSize * 3 ≤ a →
      clearBit s.disk (sectorSize * 2 + k / 8) (k % 8) a = s.disk a :=
    fun a ha => clearBit_behind huse.2.1 ha
  have hcells : ∀ m, storedInode s.sb (clearBit s.disk (sectorSize * 2 + k / 8) (k % 8)) m =
      storedInode s.sb s.disk m := fun m =>
    storedInode_congr h.laid (fun a ha => hbehind a (Nat.le_trans (by rw [hs]; omega) ha)) m
  have hlo : 1 ≤ s.sb.firstBit (storedInode s.sb s.disk k) := by
    have hstart := hmark.start
    rw [SuperBlock.firstBit]
    omega
  subst hs₁
  have h₁ := h.disk.releaseNumber h.laid huse.2.1 (by have hpos := huse.1; omega)
  have h₂ := h₁.releaseSects h.laid hc hlo hmark.inMap fun m hm hmown => by
    rw [hcells] at hmown ⊢
    obtain ⟨hmuse, hmk⟩ := inUse_clearBit.mp hm
    exact apart_bits hmark
      (h.disk.marked m hmuse (by have hpos := hmuse.1; omega) hmown) (hno m k hmuse huse hmk hmown hown)
  refine ⟨h.of_parts rfl rfl h₂ (h.cache.congr fun m _ _ => ?_) h.dir h.refs h.desc,
    (KeepsOwners.releaseNumber h.laid huse.2.1).trans
      (.remap h.laid fun a ha => hc.outside hmark.inMap ha)⟩
  rw [← hcells m]
  exact storedInode_congr h.laid (fun a ha => hc.outside hmark.inMap (.inr ha)) m

theorem removeFile_sound (h : s.Sound r 0) (hno : s.NoOverlap) (hcnt : 0 < (s.inodeTable n).iCnt)
    (hnum : (s.inodeTable n).iNum = nr) (hmode : (s.inodeTable n).iMode = iRegular) :
    wp (removeFile r n rootDev nr)
      (fun _ s' => s'.Sound r 0 ∧ Releasable s r nr (s.inodeTable n).disk ∧
        KeepsOwners s.sb 0 s.disk s'.disk)
      (fun _ _ => ¬ Releasable s r nr (s.inodeTable n).disk) s := by
  have hs : sectorSize = 512 := rfl
  have hdev : rootDev ≠ 0 := by decide
  have hn : (s.inodeTable n).iCnt ≠ 0 := by omega
  have hpos := h.cache.num n hn
  have hnr : ((nr.toNat : Nat) : Int) = nr := by omega
  have hne : n ≠ r := by
    rintro rfl
    rw [h.dir.mode] at hmode
    cases hmode
  have hroot : nr.toNat ≠ rootInodeNr := by
    intro heq
    have hrcnt := h.cnt_pos
    refine hne (h.cache.inj n r hn (by omega) ?_)
    rw [hnum, h.dir.num, ← hnr, heq]
  rw [removeFile, wp_ite]
  refine ⟨fun hneg => absurd hneg (by omega), fun _ => ?_⟩
  simp only [wp_bind]
  refine wp_mono (clearImapBit_spec nr.toNat) ?_
    fun _ _ hfree hrel => hrel.number.2.2 (hfree hrel.number.2.1)
  rintro - s₁ ⟨hlt, hset, b₁, rfl⟩
  have huse : InUse s.disk nr.toNat := ⟨by omega, hlt, hset⟩
  have hstored := h.cache.stored n nr.toNat hn (hnum.trans hnr.symm) hlt
  have hmark : Marked s.sb s.disk (s.inodeTable n).disk :=
    h.marked hn (by rw [hnum]; exact huse) (by omega) (.inl hmode)
  simp only [getSuperBlock, wp_bind, wp_modify, wp_ite, wp_get, wp_pure]
  refine ⟨fun hz => absurd hz hdev, fun _ => ⟨fun hlow => ?_, fun _ => ?_⟩⟩
  · have hstart := hmark.start
    change (s.inodeTable n).iStartSect + 1 < s.sb.n1stSect at hlow
    change s.sb.n1stSect ≤ (s.inodeTable n).iStartSect at hstart
    omega
  have hchecks : ∀ {lo k : Nat}, ReleaseChecks lo k
      (clearBit s.disk (sectorSize * 2 + nr.toNat / 8) (nr.toNat % 8)) ↔
        ReleaseChecks lo k s.disk := by
    intro lo k
    refine releaseChecks_congr fun b => bitAt_congr (clearBit_behind hlt ?_)
    rw [sectBit, hs]
    omega
  have hsects := hmark.sects
  have hmap := hmark.inMap
  have haddr := h.laid.addr
  have hfirst := h.laid.first
  rw [SuperBlock.smapBits] at hmap
  rw [← clearSmap_strict]
  refine wp_mono (clearSmap_spec (m := s.sb.nrSmapSects) ?_ ?_ ?_) ?_ ?_
  · change 1 ≤ (s.inodeTable n).disk.nrSects
    rw [hsects]
    decide
  · change s.sb.firstBit (s.inodeTable n).disk + (s.inodeTable n).disk.nrSects ≤ _
    rw [Nat.mul_assoc]
    exact hmap
  · rw [hfirst, hs] at haddr
    rw [hs]
    omega
  · rintro - s₃ ⟨⟨disk, buf, rfl, hcleared⟩, hrelease⟩
    have hrel : ReleaseChecks (s.sb.firstBit (s.inodeTable n).disk) (s.inodeTable n).disk.nrSects
        s.disk := hchecks.mp (hrelease rfl)
    obtain ⟨h₃, hkeeps₃⟩ := @release_sound s r h hno _ huse hroot _ hstored (.inl hmode) _ b₁ rfl disk buf
      hcleared
    simp only [setInode, putInode, wp_bind, wp_modify, wp_get, wp_check, Function.update_self,
      Function.update_idem]
    have hzero : 0 < 2 ^ 32 := by decide
    refine ⟨fun _ => ?_, fun hbad => absurd hcnt hbad⟩
    refine wp_mono (syncInode_sound (n := n) (i := { s.inodeTable n with
      iMode := 0, iSize := 0, iStartSect := 0, iNrSects := 0,
      iCnt := (s.inodeTable n).iCnt - 1 }) h₃ hn ?_) ?_ ?_
    · refine ⟨rfl, h.cache.dev n hn, ?_, fun _ => ⟨hzero, hzero, hzero, hzero⟩,
        .inl rfl, fun _ hown => ?_, fun heq => absurd heq hne⟩
      · dsimp only
        omega
      · rcases hown with hreg | hdir
        · exact absurd hreg (show (0 : Nat) ≠ iRegular by decide)
        · exact absurd hdir (show (0 : Nat) ≠ iDirectory by decide)
    · rintro - s₄ ⟨h₄, htab, hdisk₄, -, -, hsb₄, -⟩
      have hkeeps₄ : KeepsOwners s.sb 0 disk s₄.disk := by
        rw [hdisk₄]
        refine KeepsOwners.store h.laid (by dsimp only; omega) (fun _ => ⟨hzero, hzero, hzero, hzero⟩)
          fun _ _ hown => absurd hown ?_
        rintro (hreg | hdir)
        · exact absurd hreg (show (0 : Nat) ≠ iRegular by decide)
        · exact absurd hdir (show (0 : Nat) ≠ iDirectory by decide)
      -- the directory is as it was
      have hinode : s₄.inodeTable r = s.inodeTable r := by
        rw [htab]
        exact Function.update_of_ne (Ne.symm hne) _ _
      have hslot : ∀ t, slotNr s₄.disk (s.inodeTable r).iStartSect t =
          slotNr s.disk (s.inodeTable r).iStartSect t := by
        intro t
        refine (slot_congr fun a ha _ => ?_).1
        have hle := slotAt_le (s.inodeTable r).iStartSect t
        have hplace := inodePlace_lt h.laid hlt
        rw [h.dir.start] at ha hle
        have hbehind : sectorSize * (3 + s.sb.nrSmapSects) ≤ a :=
          Nat.le_trans (by rw [hfirst, hs]; omega) (Nat.le_trans hle ha)
        rw [hdisk₄, hnum]
        refine (putBytes_of_ge ?_).trans ?_
        · rw [DiskInode.bytes_length]
          exact Nat.le_trans hplace (Nat.le_trans hle ha)
        · refine (hcleared.outside hmark.inMap (.inr hbehind)).trans (clearBit_behind hlt ?_)
          exact Nat.le_trans (by rw [hs]; omega) hbehind
      refine wp_mono (clearEntry_sound h₄) ?_ ?_
      · rintro - s₅ ⟨h₅, ⟨t, ht, heq⟩, hkeeps₅⟩
        rw [hinode] at ht heq
        rw [hslot] at heq
        rw [SuperBlock.eq_of_layout hsb₄] at hkeeps₅
        exact ⟨h₅, ⟨huse, hrel, t, ht, heq⟩, (hkeeps₃.trans hkeeps₄).trans hkeeps₅⟩
      · rintro _ _ hnone ⟨-, -, t, ht, heq⟩
        rw [hinode] at hnone
        exact hnone t ht ((hslot t).trans heq)
    · rintro w s₄ hnot -
      refine hnot (placed_of_lt h₃ ?_ ?_)
      · exact hpos
      · change (s.inodeTable n).iNum.toNat < nrNumbers
        rw [hnum]
        exact hlt
  · rintro w s₃ ⟨-, -, hbad⟩ hrel
    exact hbad (hchecks.mpr hrel.sects)

theorem doUnlink_sound {p : Pid} {msg : Message} (h : s.Sound r 0) (hno : s.NoOverlap) :
    wp (doUnlink p msg) (fun _ s' => s'.Sound r 0 ∧ KeepsOwners s.sb 0 s.disk s'.disk)
      (fun _ _ => True) s := by
  simp only [doUnlink, wp_bind, wp_check]
  refine ⟨fun _ => ?_, fun _ => trivial⟩
  refine wp_mono (copyPath_spec p msg) ?_ (fun _ _ h => h)
  rintro path s₀ ⟨rfl, rfl⟩
  have hrefl := KeepsOwners.refl s₀.sb 0 s₀.disk
  rw [wp_ite]
  refine ⟨fun _ => ⟨h, hrefl⟩, fun _ => ?_⟩
  rw [wp_bind]
  refine wp_mono (searchFile_spec _) ?_ (fun _ _ h => h)
  rintro nr s₁ ⟨hbuf, -, -⟩
  obtain ⟨h₁, -⟩ := sound_buffer h hbuf
  have hbuffer : s₁.sb = s₀.sb ∧ s₁.disk = s₀.disk := by
    obtain ⟨b, rfl⟩ := hbuf
    exact ⟨rfl, rfl⟩
  have hno₁ : s₁.NoOverlap := by
    rw [Fs.NoOverlap, hbuffer.1, hbuffer.2]
    exact hno
  rw [← hbuffer.1, ← hbuffer.2] at hrefl ⊢
  rw [wp_ite]
  refine ⟨fun _ => ⟨h₁, hrefl⟩, fun _ => ?_⟩
  cases stripPath (s₀.pathOf p msg) with
  | none => exact ⟨h₁, hrefl⟩
  | some name =>
    simp only [rootNode, wp_bind, wp_get, h₁.root, wp_pure, h₁.rootAt.dev]
    refine wp_mono (getInode_sound h₁ nr) ?_ (fun _ _ _ => trivial)
    rintro n s₂ ⟨h₂, hnum, hcnt, -, hdisk, -, -, hsb, -⟩
    have hno₂ : s₂.NoOverlap := by
      rw [Fs.NoOverlap, hdisk, SuperBlock.eq_of_layout hsb]
      exact hno₁
    have hkept : KeepsOwners s₁.sb 0 s₁.disk s₂.disk := by
      rw [hdisk]
      exact hrefl
    rw [wp_ite]
    refine ⟨fun _ => ⟨h₂, hkept⟩, fun hmode => ?_⟩
    rw [wp_ite]
    refine ⟨fun _ => ⟨h₂, hkept⟩, fun _ => ?_⟩
    rw [wp_bind]
    refine wp_mono (removeFile_sound h₂ hno₂ hcnt hnum (not_not.mp hmode)) ?_ (fun _ _ _ => trivial)
    rintro - s₃ ⟨h₃, -, hkept₃⟩
    rw [SuperBlock.eq_of_layout hsb] at hkept₃
    exact ⟨h₃, hkept.trans hkept₃⟩

/-- A request to create a file. -/
def Creating (s : Fs) (c : FileCall × Pid × Message) : Prop :=
  c.1 = .open ∧ oCreat c.2.2.m3i1 = true ∧ s.lookup (s.pathOf c.2.1 c.2.2) = 0

theorem answered_sound {c : FileCall × Pid × Message} (h : s.Sound r 0) (hno : s.NoOverlap)
    (hstep : Answered s c s') : s'.Sound r 0 ∧ OwnersKept (Creating s c) s s' := by
  obtain ⟨call, p, msg⟩ := c
  obtain ⟨v, hrun⟩ := hstep
  cases call with
  | «open» =>
    obtain ⟨h', hkept⟩ := wp_ok (@doOpen_sound s r p msg h) hrun
    exact ⟨h', hkept.imp_right fun ⟨hc, hnew⟩ => ⟨⟨rfl, hc⟩, hnew⟩⟩
  | close =>
    obtain ⟨h', hdisk⟩ := wp_ok (@doClose_sound s r p msg h) hrun
    refine ⟨h', .inl ?_⟩
    rw [hdisk]
    exact .refl s.sb 0 s.disk
  | unlink =>
    obtain ⟨h', hkept⟩ := wp_ok (@doUnlink_sound s r p msg h hno) hrun
    exact ⟨h', .inl hkept⟩

end Removal

end FS

end BazingaOS
