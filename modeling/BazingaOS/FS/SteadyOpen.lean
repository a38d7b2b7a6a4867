import BazingaOS.FS.Steady

/-!
# Opening and creating files that may share sectors

A new file takes the first clear bits of the sector map wherever they are. Its number is not in use, so
no slot of the cache has it and no entry of the directory names it.
-/

namespace BazingaOS

open Prog

namespace Fs.Steady

variable {s s' : Fs} {r n : Fin nrInode} {base : Nat} {P P' : Nat → Prop} {i : Inode}

theorem of_parts (h : s.Steady r base P) (hsb : s'.sb.layout = s.sb.layout)
    (hroot : s'.rootInode = s.rootInode) (hnumber : ∀ nr, P' nr → 1 ≤ nr ∧ nr < nrNumbers)
    (hone : P' rootInodeNr) (hdisk : DiskSteady s.sb base P' s'.disk)
    (hcache : CacheOk s.sb s'.disk s'.inodeTable)
    (hlive : ∀ n, (s'.inodeTable n).iCnt ≠ 0 → P' (s'.inodeTable n).iNum.toNat)
    (hdir : RootInode s.sb (s'.inodeTable r)) (hfew : (s'.inodeTable r).entries ≤ nrNumbers)
    (hheld : 0 < (s'.inodeTable r).iCnt) : s'.Steady r base P' := by
  refine ⟨h.laid.congr_layout hsb, ?_, hnumber, hone, hdisk.congr_layout hsb,
    hcache.congr_layout hsb, hlive, hroot.trans h.root, hdir.congr_layout hsb, hfew, hheld⟩
  rw [SuperBlock.eq_of_layout hsb]
  exact h.bits

theorem of_disk (h : s.Steady r base P) (hsb : s'.sb.layout = s.sb.layout)
    (hroot : s'.rootInode = s.rootInode) (htab : s'.inodeTable = s.inodeTable)
    (hdisk : DiskSteady s.sb base P s'.disk)
    (hstored : ∀ nr, P nr → storedInode s.sb s'.disk nr = storedInode s.sb s.disk nr) :
    s'.Steady r base P := by
  refine h.of_parts hsb hroot h.number h.rootNumber hdisk ?_ ?_ ?_ ?_ ?_
  · rw [htab]
    refine ⟨h.cache.cnt, h.cache.dev, h.cache.num, h.cache.inj, fun n nr hn hnum hlt => ?_⟩
    have hP := h.live n hn
    rw [hnum, Int.toNat_natCast] at hP
    exact (h.cache.stored n nr hn hnum hlt).trans (hstored nr hP).symm
  · rw [htab]
    exact h.live
  · rw [htab]
    exact h.dir
  · rw [htab]
    exact h.few
  · rw [htab]
    exact h.held

theorem congr (h : s.Steady r base P) (hP : ∀ m, P' m ↔ P m) : s.Steady r base P' := by
  have heq : P' = P := funext fun m => propext (hP m)
  rw [heq]
  exact h

theorem ne_root (h : s.Steady r base P) (hnum : (s.inodeTable n).iNum ≠ rootInodeNr) : n ≠ r := by
  rintro rfl
  exact hnum h.dir.num

theorem rootAt (h : s.Steady r base P) : RootAt s r :=
  .of_laid h.laid h.root (h.cache.dev r (by have hpos := h.held; omega)) h.dir

theorem slots_eq (h : s.Steady r base P) : (s.inodeTable r).slots = rootSlots := by
  rw [Inode.slots, h.dir.sects, rootSlots]

theorem stored (h : s.Steady r base P) (hn : (s.inodeTable n).iCnt ≠ 0) :
    (s.inodeTable n).disk = storedInode s.sb s.disk (s.inodeTable n).iNum.toNat := by
  have hpos := h.cache.num n hn
  exact h.cache.stored n _ hn (by omega) (h.number _ (h.live n hn)).2

theorem kindOf (h : s.Steady r base P) (hn : (s.inodeTable n).iCnt ≠ 0) :
    InodeKind s.sb base (s.inodeTable n).iNum.toNat (s.inodeTable n).disk := by
  rw [h.stored hn]
  exact h.disk.kind _ (h.live n hn)

theorem fits (h : s.Steady r base P) (hn : (s.inodeTable n).iCnt ≠ 0) :
    (s.inodeTable n).disk.Fits := by
  rw [h.stored hn]
  exact diskInodeAt_fits _ _

end Fs.Steady

/-- `i` can take the place of the inode in slot `n`, in the cache and on the disk. -/
structure Replaces (s : Fs) (r : Fin nrInode) (base : Nat) (n : Fin nrInode) (i : Inode) : Prop where
  num : i.iNum = (s.inodeTable n).iNum
  dev : i.iDev = rootDev
  cnt : 0 ≤ i.iCnt
  fits : i.disk.Fits
  kind : InodeKind s.sb base i.iNum.toNat i.disk
  root : n = r → RootInode s.sb i ∧ i.entries ≤ nrNumbers ∧ 0 < i.iCnt

theorem Fs.Steady.store {s : Fs} {r n : Fin nrInode} {base : Nat} {P : Nat → Prop} {i : Inode}
    (h : s.Steady r base P) (hn : (s.inodeTable n).iCnt ≠ 0) (hi : Replaces s r base n i)
    (b : Bytes) : Fs.Steady { s with
      fsbuf := b
      sb := { s.sb with sbDev := rootDev }
      inodeTable := Function.update s.inodeTable n i
      disk := putBytes s.disk (inodePlace s.sb i.iNum.toNat) i.disk.bytes } r base P := by
  have hP := h.live n hn
  rw [← hi.num] at hP
  obtain ⟨hone, hlt⟩ := h.number _ hP
  have hdisk := h.disk.store h.laid h.bits hone hlt hi.fits hi.kind (fun nr hnr => (h.number nr hnr).1)
    (fun _ hm => hm) fun _ hm => .inr hm
  have hcache := h.cache.store hn hi.num hi.dev hi.cnt fun _ => hi.fits
  refine h.of_parts rfl rfl h.number h.rootNumber hdisk hcache (fun m => ?_) ?_ ?_ ?_
  · exact update_cases (P := fun i : Inode => i.iCnt ≠ 0 → P i.iNum.toNat) (fun _ _ => hP)
      fun _ => h.live m
  · exact update_cases (P := RootInode s.sb) (fun hr => (hi.root hr.symm).1) fun _ => h.dir
  · exact update_cases (P := fun i : Inode => i.entries ≤ nrNumbers)
      (fun hr => (hi.root hr.symm).2.1) fun _ => h.few
  · exact update_cases (P := fun i : Inode => 0 < i.iCnt) (fun hr => (hi.root hr.symm).2.2)
      fun _ => h.held

namespace FS

section Inodes

variable {s s' : Fs} {r n : Fin nrInode} {base : Nat} {P : Nat → Prop} {i : Inode}

theorem inUse_put {sb : SuperBlock} (hl : sb.Laid) {d : Bytes} {i : DiskInode} {k nr : Nat} :
    InUse (putBytes d (inodePlace sb k) i.bytes) nr ↔ InUse d nr := by
  have hs : sectorSize = 512 := rfl
  refine and_congr_right fun _ => and_congr_right fun hlt => ?_
  have hbit := sectBit_imap hlt
  rw [Free, Free, bitAt_put hl (by rw [hs] at hbit ⊢; omega)]

theorem refs_of_same (hsame : SameDescs s s')
    (hcnt : ∀ n, (s'.inodeTable n).iCnt = (s.inodeTable n).iCnt) : s'.refs = s.refs := by
  obtain ⟨hfd, hfilp, -⟩ := hsame
  simp only [Fs.refs, hfd, hfilp, hcnt]

theorem steady_buffer (h : s.Steady r base P) (hbuf : ∃ b, s' = { s with fsbuf := b }) :
    s'.Steady r base P ∧ SameDescs s s' ∧ s'.refs = s.refs ∧ s'.disk = s.disk := by
  obtain ⟨b, rfl⟩ := hbuf
  exact ⟨h.of_disk rfl rfl rfl h.disk fun _ _ => rfl, ⟨rfl, rfl, rfl, rfl⟩, rfl, rfl⟩

theorem getInode_steady (h : s.Steady r base P) {nr : Int} (hpos : 1 ≤ nr) (hP : P nr.toNat) :
    wp (getInode rootDev nr) (fun n s' => s'.Steady r base P ∧ (s'.inodeTable n).iNum = nr ∧
        0 < (s'.inodeTable n).iCnt ∧ s'.disk = s.disk ∧ SameDescs s s' ∧
        s'.refs = s.refs.addCnt n 1) (fun _ _ => True) s := by
  have hheld := h.held
  refine wp_mono (wp_and (getInode_spec rootDev nr) (getInode_refs rootDev nr)) ?_
    fun _ _ _ => trivial
  rintro n s' ⟨⟨hc, rfl⟩ | ⟨hc, hf, -, -, b, rfl⟩, hrefs⟩
  · obtain ⟨hn, -, hnum⟩ := cachedInode_spec hc
    have hcnt := h.cache.cnt n
    refine ⟨h.of_parts rfl rfl h.number h.rootNumber h.disk (h.cache.setCnt hn (by omega))
      (fun m => ?_) ?_ ?_ ?_, ?_, ?_, rfl, ⟨rfl, rfl, rfl, rfl⟩, hrefs⟩
    · refine update_cases (P := fun i : Inode => i.iCnt ≠ 0 → P i.iNum.toNat) (fun _ _ => ?_)
        fun _ => h.live m
      exact h.live n hn
    · refine update_cases (P := RootInode s.sb) (fun hr => ?_) fun _ => h.dir
      subst hr
      exact ⟨h.dir.num, h.dir.mode, h.dir.start, h.dir.sects, h.dir.entries⟩
    · refine update_cases (P := fun i : Inode => i.entries ≤ nrNumbers) (fun hr => ?_) fun _ => h.few
      subst hr
      exact h.few
    · refine update_cases (P := fun i : Inode => 0 < i.iCnt) (fun hr => ?_) fun _ => h.held
      exact Int.lt_add_one_of_le hcnt
    · exact update_cases (P := fun i : Inode => i.iNum = nr) (fun _ => hnum) fun hne => absurd rfl hne
    · refine update_cases (P := fun i : Inode => 0 < i.iCnt) (fun _ => ?_) fun hne => absurd rfl hne
      exact Int.lt_add_one_of_le hcnt
  · have hr : r ≠ n := by
      rintro rfl
      have hzero := freeInode_cnt hf
      omega
    refine ⟨h.of_parts rfl rfl h.number h.rootNumber h.disk (h.cache.load hc hpos)
      (fun m => ?_) ?_ ?_ ?_, ?_, ?_, rfl, ⟨rfl, rfl, rfl, rfl⟩, hrefs⟩
    · exact update_cases (P := fun i : Inode => i.iCnt ≠ 0 → P i.iNum.toNat) (fun _ _ => hP)
        fun _ => h.live m
    · exact update_cases (P := RootInode s.sb) (fun heq => absurd heq hr) fun _ => h.dir
    · exact update_cases (P := fun i : Inode => i.entries ≤ nrNumbers) (fun heq => absurd heq hr)
        fun _ => h.few
    · exact update_cases (P := fun i : Inode => 0 < i.iCnt) (fun heq => absurd heq hr) fun _ => h.held
    · exact update_cases (P := fun i : Inode => i.iNum = nr) (fun _ => rfl) fun hne => absurd rfl hne
    · exact update_cases (P := fun i : Inode => 0 < i.iCnt) (fun _ => Int.one_pos)
        fun hne => absurd rfl hne

theorem syncInode_steady (h : s.Steady r base P) (hn : (s.inodeTable n).iCnt ≠ 0)
    (hi : Replaces s r base n i) :
    wp (syncInode n) (fun _ s' => s'.Steady r base P ∧
        s'.inodeTable = Function.update s.inodeTable n i ∧
        s'.disk = putBytes s.disk (inodePlace s.sb i.iNum.toNat) i.disk.bytes ∧ SameDescs s s')
      (fun _ _ => True) { s with inodeTable := Function.update s.inodeTable n i } := by
  refine wp_mono (syncInode_spec n) ?_ fun _ _ _ => trivial
  rintro - s' ⟨-, b, rfl⟩
  simp only [Function.update_self]
  exact ⟨h.store hn hi b, trivial, trivial, rfl, rfl, rfl, rfl⟩

theorem replaces_size (h : s.Steady r base P) {k : Nat} (hn : 0 < (s.inodeTable n).iCnt)
    (hk : k < 2 ^ 32) (hroot : n = r → k / dirEntSize ≤ nrNumbers) :
    Replaces s r base n { s.inodeTable n with iSize := k } := by
  have hne : (s.inodeTable n).iCnt ≠ 0 := by omega
  obtain ⟨hm, -, hs, hc⟩ := h.fits hne
  refine ⟨rfl, h.cache.dev n hne, by dsimp only; omega, ⟨hm, hk, hs, hc⟩, (h.kindOf hne).resize k,
    fun hr => ?_⟩
  subst hr
  have hle : nrNumbers ≤ (s.inodeTable n).slots + 1 := by
    rw [h.slots_eq]
    decide
  exact ⟨⟨h.dir.num, h.dir.mode, h.dir.start, h.dir.sects, Nat.le_trans (hroot rfl) hle⟩,
    hroot rfl, hn⟩

theorem trunc_steady {flags : Int} (h : s.Steady r base P) (hn : 0 < (s.inodeTable n).iCnt) :
    wp (when (oTrunc flags = true) do
        setInode n fun i => { i with iSize := 0 }
        syncInode n)
      (fun _ s' => s'.Steady r base P ∧ SameDescs s s' ∧ s'.refs = s.refs ∧
        ∀ nr, InUse s'.disk nr ↔ InUse s.disk nr) (fun _ _ => True) s := by
  rw [wp_when, wp_bind, setInode, wp_modify]
  refine ⟨fun _ => ?_, fun _ => ⟨h, ⟨rfl, rfl, rfl, rfl⟩, rfl, fun _ => Iff.rfl⟩⟩
  refine wp_mono (syncInode_steady h (by omega) (replaces_size h hn (by decide) fun _ => ?_)) ?_
    fun _ _ hE => hE
  · rw [Nat.zero_div]
    exact Nat.zero_le _
  · rintro - s' ⟨h', htab, hdisk, hsame⟩
    refine ⟨h', hsame, refs_of_same hsame fun m => ?_, fun nr => ?_⟩
    · rw [htab]
      refine update_cases (P := fun i : Inode => i.iCnt = (s.inodeTable m).iCnt) (fun hm => ?_)
        fun _ => rfl
      rw [hm]
    · rw [hdisk]
      exact inUse_put h.laid

end Inodes

section Allocation

variable {s s' : Fs} {r n : Fin nrInode} {base nr sect : Nat} {P : Nat → Prop}

theorem mapped_of_allocated (h : SmapAllocated s nrDefaultFileSects sect s') (hl : s.sb.Laid)
    (hlow : ∀ b, b < base → ¬ Free s.disk 3 b) (mode size : Nat) :
    Mapped s.sb base ⟨mode, size, sect, nrDefaultFileSects⟩ := by
  obtain ⟨f, hfree, -, hsect, hend⟩ := h.first_fits hl (by decide)
  have hfirst := hl.first
  have hbase : base ≤ f := by
    by_contra hlt
    exact hlow f (by omega) hfree
  have hbit : s.sb.firstBit ⟨mode, size, sect, nrDefaultFileSects⟩ = f := by
    rw [SuperBlock.firstBit, hsect]
    dsimp only
    omega
  refine ⟨?_, ?_, rfl, ?_⟩
  · dsimp only
    omega
  · rw [hbit]
    exact hbase
  · rw [hbit]
    exact hend

theorem allocate_steady {s₁ s₂ : Fs} (h : s.Steady r base (InUse s.disk))
    (himap : ImapAllocated s nr s₁) (hsmap : SmapAllocated s₁ nrDefaultFileSects sect s₂) :
    s₂.Steady r base (InUse s.disk) ∧ ¬ InUse s.disk nr ∧ rootInodeNr < nr ∧ nr < nrNumbers ∧
      SameDescs s s₂ ∧ s₂.refs = s.refs ∧ Mapped s₂.sb base ⟨iRegular, 0, sect, nrDefaultFileSects⟩ ∧
      (∀ m, InUse s₂.disk m ↔ m = nr ∨ InUse s.disk m) ∧
      ∀ t, slotNr s₂.disk s₂.sb.n1stSect t = slotNr s.disk s.sb.n1stSect t := by
  have hs : sectorSize = 512 := rfl
  have hone : rootInodeNr = 1 := rfl
  have hlt := himap.lt
  rw [imapBits_eq h.laid] at hlt
  have hfree : ¬ InUse s.disk nr := fun huse => huse.2.2 himap.free
  have hnr : rootInodeNr < nr := by
    have hroot := h.rootNumber
    have hzero := h.disk.zero
    by_contra hle
    have hcases : nr = 0 ∨ nr = rootInodeNr := by omega
    rcases hcases with rfl | rfl
    · exact hzero himap.free
    · exact hfree hroot
  have huse : ∀ m, InUse s₁.disk m ↔ m = nr ∨ InUse s.disk m :=
    fun m => himap.inUse_iff h.laid h.disk.zero
  have hbehind : ∀ a, sectorSize * 3 ≤ a → s₁.disk a = s.disk a :=
    fun a ha => himap.behind h.laid ha
  have hzero : ¬ Free s₁.disk 2 0 := by
    obtain ⟨b, rfl⟩ := himap.state
    exact fun hz => h.disk.zero (free_setBit.mp hz).1
  have hdisk₁ := h.disk.renumber h.laid hbehind hzero
  have hstored₁ : ∀ m, storedInode s.sb s₁.disk m = storedInode s.sb s.disk m := fun m =>
    storedInode_congr h.laid (fun a ha => hbehind a (Nat.le_trans (by rw [hs]; omega) ha)) m
  have hend := DiskSteady.smapEnd_le h.laid
  obtain ⟨b, rfl⟩ := himap.state
  have hl₁ : (s.onDisk rootDev (setBit s.disk (sectorSize * 2 + nr / 8) (nr % 8)) b).sb.Laid :=
    h.laid.congr_layout rfl
  have hmapped := mapped_of_allocated hsmap hl₁ hdisk₁.low iRegular 0
  have houtside : ∀ a, a < sectorSize * 3 ∨ sectorSize * (3 + s.sb.nrSmapSects) ≤ a →
      s₂.disk a = setBit s.disk (sectorSize * 2 + nr / 8) (nr % 8) a :=
    fun a ha => hsmap.outside hl₁ ha
  have hlow : ∀ b, b < base → ¬ Free s₂.disk 3 b := by
    intro b hb hf
    have hset := hdisk₁.low b hb
    have hmono := (hsmap.taken (sectBit 3 + b)).mpr (.inl (by simpa [Free] using hset))
    rw [Free, hmono] at hf
    cases hf
  have hdisk₂ := hdisk₁.remap h.laid houtside hlow
  obtain ⟨disk, buf, rfl⟩ := hsmap.state
  refine ⟨h.of_disk rfl rfl rfl hdisk₂ fun m _ => ?_, hfree, hnr, hlt, ⟨rfl, rfl, rfl, rfl⟩, rfl,
    ⟨hmapped.start, hmapped.base, hmapped.sects, hmapped.inMap⟩, fun m => ?_, fun t => ?_⟩
  · rw [← hstored₁ m]
    exact storedInode_congr h.laid (fun a ha => houtside a (.inr ha)) m
  · rw [← huse m]
    refine and_congr_right fun _ => and_congr_right fun hm => ?_
    have hbit := sectBit_imap hm
    rw [Free, Free, bitAt_congr (houtside _ (.inl (by rw [hs] at hbit ⊢; omega)))]
    rfl
  · refine DiskSteady.slotNr_behind (fun a ha => ?_) t
    change sectorSize * s.sb.n1stSect ≤ a at ha
    refine (houtside a (.inr (Nat.le_trans hend ha))).trans (hbehind a ?_)
    rw [hs] at ha hend ⊢
    omega

end Allocation

section Creation

variable {s s' : Fs} {r n : Fin nrInode} {base nr start : Nat} {P : Nat → Prop} {name : List UInt8}

theorem newInode_steady (h : s.Steady r base P) (hnew : ¬ P nr) (hnr : rootInodeNr < nr)
    (hlt : nr < nrNumbers) (hmap : Mapped s.sb base ⟨iRegular, 0, start, nrDefaultFileSects⟩) :
    wp (newInode rootDev nr start) (fun n s' => s'.Steady r base (fun m => m = nr ∨ P m) ∧
        n ≠ r ∧ 0 < (s'.inodeTable n).iCnt ∧ SameDescs s s' ∧ s'.refs = s.refs.addCnt n 1 ∧
        (∀ m, InUse s'.disk m ↔ InUse s.disk m) ∧
        ∀ t, slotNr s'.disk s'.sb.n1stSect t = slotNr s.disk s.sb.n1stSect t)
      (fun _ _ => True) s := by
  have hone : rootInodeNr = 1 := rfl
  have hheld := h.held
  have hstart : start < 2 ^ 32 := by
    have hin := hmap.inMap
    have hfits := h.laid.fits
    have hle := hmap.start
    rw [SuperBlock.firstBit] at hin
    dsimp only at hin hle
    have hdef : nrDefaultFileSects = 2048 := rfl
    rw [hdef] at hin
    omega
  have hfits : DiskInode.Fits ⟨iRegular, 0, start, nrDefaultFileSects⟩ :=
    ⟨show iRegular < 2 ^ 32 by decide, show 0 < 2 ^ 32 by decide, hstart,
      show nrDefaultFileSects < 2 ^ 32 by decide⟩
  refine wp_mono (wp_and (Q := fun n s' => s'.Steady r base (fun m => m = nr ∨ P m) ∧ n ≠ r ∧
      (s.inodeTable n).iCnt = 0 ∧ 0 < (s'.inodeTable n).iCnt ∧ SameDescs s s' ∧
      (∀ m, InUse s'.disk m ↔ InUse s.disk m) ∧
      ∀ t, slotNr s'.disk s'.sb.n1stSect t = slotNr s.disk s.sb.n1stSect t)
    (E := fun _ _ => True) ?_ (newInode_refs rootDev nr start)) ?_ fun _ _ _ => trivial
  · simp only [newInode, wp_bind]
    refine wp_mono (getInode_spec rootDev nr) ?_ fun _ _ _ => trivial
    rintro n s₁ (⟨hc, -⟩ | ⟨hc, hf, -, -, b, rfl⟩)
    · obtain ⟨hn, -, hnum⟩ := cachedInode_spec hc
      have hP := h.live n hn
      rw [hnum] at hP
      exact absurd hP hnew
    have hne : n ≠ r := by
      rintro rfl
      have hzero := freeInode_cnt hf
      omega
    simp only [setInode, wp_modify, Function.update_idem]
    refine wp_mono (syncInode_spec n) ?_ fun _ _ _ => trivial
    rintro - s₂ ⟨-, b', rfl⟩
    simp only [Function.update_self]
    have hdisk : DiskSteady s.sb base (fun m => m = nr ∨ P m) (putBytes s.disk (inodePlace s.sb nr)
        (DiskInode.bytes ⟨iRegular, 0, start, nrDefaultFileSects⟩)) :=
      h.disk.store h.laid h.bits (by omega) hlt hfits (.file rfl hmap)
        (fun m hm => (h.number m hm).1) (fun m hm => .inr hm) fun m hm => hm
    have hload : CacheOk s.sb s.disk (Function.update s.inodeTable n
        (.loaded rootDev (nr : Int) (diskInodeAt s.disk (inodePlace s.sb (nr : Int).toNat)))) :=
      h.cache.load hc (by omega)
    have hcache := hload.store (n := n)
      (i := ⟨iRegular, 0, start, nrDefaultFileSects, rootDev, 1, nr⟩)
      (by rw [Function.update_self]; exact Int.one_ne_zero) (by rw [Function.update_self]; rfl) rfl
      (show (0 : Int) ≤ 1 by decide) fun _ => hfits
    rw [Function.update_idem] at hcache
    refine ⟨h.of_parts rfl rfl ?_ (.inr h.rootNumber) hdisk hcache (fun m => ?_) ?_ ?_ ?_, hne,
      freeInode_cnt hf, ?_, ⟨rfl, rfl, rfl, rfl⟩, fun m => inUse_put h.laid, fun t => ?_⟩
    · rintro m (rfl | hm)
      · omega
      · exact h.number m hm
    · exact update_cases (P := fun i : Inode => i.iCnt ≠ 0 → i.iNum.toNat = nr ∨ P i.iNum.toNat)
        (fun _ _ => .inl rfl) fun _ hm => .inr (h.live m hm)
    · exact update_cases (P := RootInode s.sb) (fun hr => absurd hr.symm hne) fun _ => h.dir
    · exact update_cases (P := fun i : Inode => i.entries ≤ nrNumbers)
        (fun hr => absurd hr.symm hne) fun _ => h.few
    · exact update_cases (P := fun i : Inode => 0 < i.iCnt) (fun hr => absurd hr.symm hne)
        fun _ => h.held
    · simp only [Function.update_self]
      exact Int.one_pos
    · refine DiskSteady.slotNr_behind (fun a ha => putBytes_of_ge ?_) t
      have hplace := inodePlace_lt h.laid hlt
      rw [DiskInode.bytes_length]
      exact Nat.le_trans hplace ha
  · rintro n s' ⟨⟨h', hne, hzero, hcnt, hsame, huse, hslot⟩, hrefs⟩
    refine ⟨h', hne, hcnt, hsame, ?_, huse, hslot⟩
    have hfree : s.refs.iCnt n = 0 := hzero
    rw [hrefs, Refs.addCnt, hfree]
    rfl

theorem newDirectoryEntry_steady (h : s.Steady r base P) (hP : P nr)
    (hnew : ∀ u, u < rootSlots → slotNr s.disk s.sb.n1stSect u ≠ nr)
    (hlen : name.length < maxFilenameLen) :
    wp (newDirectoryEntry r name nr) (fun _ s' => s'.Steady r base P ∧ SameDescs s s' ∧
        (∀ n, n ≠ r → s'.inodeTable n = s.inodeTable n) ∧
        ∀ m, InUse s'.disk m ↔ InUse s.disk m) (fun _ _ => True) s := by
  have hs : sectorSize = 512 := rfl
  have hd : dirEntSize = 16 := rfl
  have he : entriesPerSect = 32 := rfl
  have hm : maxFilenameLen = 12 := rfl
  have hheld := h.held
  have hlt := (h.number nr hP).2
  have hnum : nrNumbers = 4096 := rfl
  refine wp_mono (newDirectoryEntry_spec h.rootAt) ?_ fun _ _ _ => trivial
  rintro - s' ⟨i, j, b, hi, hslot, rfl⟩
  have hstart := h.dir.start
  have hsects := h.dir.sects
  rw [hsects] at hi
  have hfront : ∀ a, a < sectorSize * s.sb.n1stSect →
      putBytes s.disk (slotAt (s.inodeTable r).iStartSect (entriesPerSect * i + j))
        ((entryBytes nr name).take (sectorSize - dirEntSize * j)) a = s.disk a := by
    intro a ha
    apply putBytes_of_lt
    rw [hstart]
    exact Nat.lt_of_lt_of_le ha (slotAt_le _ _)
  -- an entry at the edge of a sector is not written at all
  have hlisted : Listed P (putBytes s.disk (slotAt (s.inodeTable r).iStartSect (entriesPerSect * i + j))
      ((entryBytes nr name).take (sectorSize - dirEntSize * j))) s.sb.n1stSect := by
    have hlength := entryBytes_length nr name
    have hj := hslot.index
    rw [hstart]
    rcases Nat.lt_or_ge j entriesPerSect with hin | hedge
    · rw [List.take_of_length_le (by rw [hs, hd]; rw [he] at hin; omega)]
      exact h.disk.listed.stored hP (by omega) hnew hlen
    · have hzero : sectorSize - dirEntSize * j = 0 := by
        rw [hs, hd]
        rw [he] at hedge
        omega
      rw [hzero, List.take_zero, putBytes_nil]
      exact h.disk.listed
  have hdisk := h.disk.rewrite h.laid h.bits (fun m hm => (h.number m hm).2) hfront
    (fun _ hm => hm) hlisted
  have h₁ : Fs.Steady { s with
      disk := putBytes s.disk (slotAt (s.inodeTable r).iStartSect (entriesPerSect * i + j))
        ((entryBytes nr name).take (sectorSize - dirEntSize * j)) } r base P := by
    refine h.of_disk rfl rfl rfl hdisk fun m hm => diskInodeAt_shift fun k hk => hfront _ ?_
    have hplace := inodePlace_lt h.laid (h.number m hm).2
    omega
  have hgrown : ((s.inodeTable r).grown (entriesPerSect * i + j)).iSize < 2 ^ 32 ∧
      ((s.inodeTable r).grown (entriesPerSect * i + j)).iSize / dirEntSize ≤ nrNumbers := by
    have hfew := h.few
    rw [Inode.entries, hd, hnum] at hfew
    rw [Inode.grown, hd, hnum]
    dsimp only
    split
    · rename_i hlast
      have hle : entriesPerSect * i + j ≤ rootSlots := by
        rw [hlast]
        exact Nat.le_trans h.few (by decide)
      have hbelow := h.disk.listed.lt_numbers h.number hle fun u hu => by
        have hbefore := hslot.before u hu
        rw [hstart] at hbefore
        exact hbefore
      rw [hlast, Inode.entries, hd, hnum] at hbelow
      omega
    · omega
  refine ⟨h₁.store (by dsimp only; omega) (replaces_size h₁ hheld hgrown.1 fun _ => hgrown.2) b,
    ⟨rfl, rfl, rfl, rfl⟩, fun n hn => Function.update_of_ne hn _ _, fun m => ?_⟩
  refine (inUse_put h.laid).trans (and_congr_right fun _ => and_congr_right fun hmlt => ?_)
  have hbit := sectBit_imap hmlt
  have hfirst := h.laid.first
  rw [Free, Free, bitAt_congr (hfront _ (by rw [hs] at hbit ⊢; omega))]

theorem createFile_steady (h : s.Steady r base (InUse s.disk)) (path : List UInt8) :
    wp (createFile path) (fun o s' => SameDescs s s' ∧ s'.Steady r base (InUse s'.disk) ∧
        ∀ n, o = some n → 0 < (s'.inodeTable n).iCnt ∧ n ≠ r ∧ s'.refs = s.refs.addCnt n 1)
      (fun _ _ => True) s := by
  have hdev := h.rootAt.dev
  unfold createFile
  cases stripPath path with
  | none =>
    refine ⟨⟨rfl, rfl, rfl, rfl⟩, h, fun n hn => ?_⟩
    cases hn
  | some name =>
    simp only [fitsFilename, rootNode, wp_bind, wp_ite, wp_pure, wp_get, h.root, hdev]
    refine ⟨fun hlen => ?_, fun _ => trivial⟩
    refine wp_mono (allocImapBit_spec h.laid.mapsOk) ?_ (fun _ _ _ => trivial)
    intro nr s₁ himap
    have hl₁ : s₁.sb.Laid := by
      obtain ⟨b, rfl⟩ := himap.state
      exact h.laid.congr_layout rfl
    refine wp_mono (allocSmapBit_spec hl₁.mapsOk (hl₁.firstFits _) (by decide)) ?_
      (fun _ _ _ => trivial)
    intro sect s₂ hsmap
    obtain ⟨h₂, hfree, hnr, hlt, hsame₂, hrefs₂, hmap, huse₂, hslot₂⟩ :=
      allocate_steady h himap hsmap
    refine wp_mono (newInode_steady h₂ hfree hnr hlt hmap) ?_ (fun _ _ _ => trivial)
    rintro n s₃ ⟨h₃, hne, hcnt, hsame₃, hrefs₃, huse₃, hslot₃⟩
    have hunnamed : ∀ u, u < rootSlots → slotNr s₃.disk s₃.sb.n1stSect u ≠ nr := by
      intro u hu heq
      rw [hslot₃, hslot₂] at heq
      have hpos : nr ≠ 0 := Nat.ne_of_gt (Nat.zero_lt_of_lt hnr)
      obtain ⟨m, hm, hmnr⟩ := h.disk.listed.mem u hu (heq ▸ Int.natCast_ne_zero.mpr hpos)
      obtain rfl : m = nr := Int.ofNat_inj.mp (hmnr.symm.trans heq)
      exact hfree hm
    refine wp_mono (wp_and (newDirectoryEntry_steady h₃ (.inl rfl) hunnamed hlen)
      ((keepsView_newDirectoryEntry (v := Fs.refs) r name nr).keeps s₃.refs s₃ rfl)) ?_
      (fun _ _ _ => trivial)
    rintro - s₄ ⟨⟨h₄, hsame₄, htab, huse₄⟩, hrefs₄⟩
    have huse : ∀ m, InUse s₄.disk m ↔ m = nr ∨ InUse s.disk m := fun m =>
      (huse₄ m).trans ((huse₃ m).trans (huse₂ m))
    refine ⟨(hsame₂.trans hsame₃).trans hsame₄, h₄.congr huse, fun m hm => ?_⟩
    cases hm
    rw [htab n hne, hrefs₄, hrefs₃, hrefs₂]
    exact ⟨hcnt, hne, rfl⟩

end Creation

section Opening

variable {s s' : Fs} {r n : Fin nrInode} {base : Nat} {P : Nat → Prop} {path : List UInt8}

theorem lookup_steady (h : s.Steady r base P) (path : List UInt8) :
    s.lookup path = 0 ∨ 1 ≤ s.lookup path ∧ P (s.lookup path).toNat := by
  have hs : sectorSize = 512 := rfl
  have hd : dirEntSize = 16 := rfl
  have hnum : nrNumbers = 4096 := rfl
  have hslots : rootSlots = 65536 := rfl
  have hfew := h.few
  rw [Inode.entries, hd, hnum] at hfew
  cases hp : stripPath path with
  | none => exact .inl (lookup_of_slash hp)
  | some name =>
    by_cases hne : name = []
    · subst hne
      rw [h.rootAt.lookup_nil hp, h.dir.num]
      exact .inr ⟨by decide, h.rootNumber⟩
    by_cases hlen : name.length < maxFilenameLen
    · have haddr : sectorSize * ((s.inodeTable r).iStartSect +
          ((s.inodeTable r).iSize + sectorSize - 1) / sectorSize) ≤ 2 ^ 31 := by
        have hroom := h.laid.addr
        have hdef : nrDefaultFileSects = 2048 := rfl
        rw [h.dir.start, hs]
        rw [hs, hdef] at hroom
        omega
      rcases lookup_firstNamed h.root h.rootAt.dev haddr hp hne hlen with
        ⟨t, ht, -, -, heq⟩ | ⟨-, hz⟩
      · by_cases hz : s.lookup path = 0
        · exact .inl hz
        · have hbound : t < rootSlots := by
            have hle := Nat.lt_of_lt_of_le ht (Nat.min_le_right _ _)
            rw [hd] at hle
            omega
          rw [heq, h.dir.start] at hz ⊢
          obtain ⟨nr, hnr, hslot⟩ := h.disk.listed.mem t hbound hz
          have hpos := (h.number nr hnr).1
          rw [hslot, Int.toNat_natCast]
          exact .inr ⟨by omega, hnr⟩
      · exact .inl hz
    · exact .inl (lookup_of_long hp hlen)

/-- The inode that is opened has a reference for the descriptor. Without the right to write no inode
is opened that exists. -/
theorem openInode_steady (h : s.Steady r base (InUse s.disk)) (path : List UInt8) (flags : Int) :
    wp (openInode path flags) (fun o s' => SameDescs s s' ∧ s'.Steady r base (InUse s'.disk) ∧
        match o with
        | none => s'.refs = s.refs
        | some n => 0 < (s'.inodeTable n).iCnt ∧ s'.refs = s.refs.addCnt n 1 ∧
            (n = r → oRdwr flags = true ∧ s.lookup path = rootInodeNr))
      (fun _ _ => True) s := by
  simp only [openInode, wp_bind]
  refine wp_mono (searchFile_spec path) ?_ (fun _ _ _ => trivial)
  rintro nr s₁ ⟨hbuf, hlookup, -⟩
  obtain ⟨h₁, hsame₁, hrefs₁, hdisk₁⟩ := steady_buffer h hbuf
  have hnone : SameDescs s s₁ ∧ s₁.Steady r base (InUse s₁.disk) ∧ s₁.refs = s.refs := by
    rw [hdisk₁]
    exact ⟨hsame₁, h₁, hrefs₁⟩
  simp only [wp_ite]
  refine ⟨fun _ => ⟨fun _ => ?_, fun _ => hnone⟩, fun hnz =>
    ⟨fun hrdwr => ⟨fun _ => hnone, fun _ => ?_⟩, fun _ => hnone⟩⟩
  · rw [wp_bind]
    refine wp_mono (createFile_steady hnone.2.1 path) ?_ (fun _ _ _ => trivial)
    rintro o s₂ ⟨hsame₂, h₂, hn⟩
    cases o with
    | none => trivial
    | some n =>
      obtain ⟨hcnt, hne, hrefs₂⟩ := hn n rfl
      exact ⟨hsame₁.trans hsame₂, h₂, hcnt, by rw [hrefs₂, hrefs₁], fun heq => absurd heq hne⟩
  · simp only [rootNode, wp_bind, wp_get, h₁.root, wp_pure, h₁.rootAt.dev]
    obtain ⟨hpos, huse⟩ := (lookup_steady h path).resolve_left (hlookup ▸ hnz)
    rw [← hlookup] at hpos huse
    refine wp_mono (getInode_steady h₁ hpos huse) ?_ (fun _ _ _ => trivial)
    rintro n s₂ ⟨h₂, hnum, hcnt, hdisk₂, hsame₂, hrefs₂⟩
    refine ⟨hsame₁.trans hsame₂, ?_, hcnt, by rw [hrefs₂, hrefs₁], fun heq => ⟨hrdwr, ?_⟩⟩
    · rw [hdisk₂, hdisk₁]
      exact h₂
    · subst heq
      rw [← hlookup, ← hnum, h₂.dir.num]

end Opening

section Requests

variable {s s' : Fs} {r n : Fin nrInode} {base : Nat} {P : Nat → Prop} {p : Pid} {msg : Message}

/-- A descriptor of `p` that has been opened for slot `n`. -/
structure Opened (s : Fs) (p : Pid) (n : Fin nrInode) (s' : Fs) (i : Fin nrFiles)
    (f : Fin nrFileDesc) : Prop where
  filp : s.filp p i = none
  desc : (s.fdTable f).fdInode = none
  refs : s'.refs = (s.refs.addCnt n 1).opens p i f n
  pos : (s'.fdTable f).fdPos = 0
  other : ∀ g, g ≠ f → s'.fdTable g = s.fdTable g

/-- `do_open` opens nothing, or one descriptor for an inode in use. -/
theorem doOpen_steady (h : s.Steady r base (InUse s.disk)) :
    wp (doOpen p msg) (fun _ s' => s'.Steady r base (InUse s'.disk) ∧
        (s'.refs = s.refs ∧ s'.fdTable = s.fdTable ∨ ∃ n i f, Opened s p n s' i f ∧
          (n = r → oRdwr msg.m3i1 = true ∧ s.lookup (s.pathOf p msg) = rootInodeNr)))
      (fun _ _ => True) s := by
  rw [doOpen]
  simp only [wp_bind]
  refine wp_mono (copyPath_spec p msg) ?_ (fun _ _ _ => trivial)
  rintro path s₀ ⟨rfl, rfl⟩
  refine wp_mono (freeFilp_spec p) ?_ (fun _ _ _ => trivial)
  rintro i s₁ ⟨rfl, hi⟩
  refine wp_mono freeDesc_spec ?_ (fun _ _ _ => trivial)
  rintro f s₂ ⟨rfl, hf⟩
  refine wp_mono (openInode_steady h _ msg.m3i1) ?_ (fun _ _ _ => trivial)
  rintro o s₃ ⟨hsame₃, h₃, ho⟩
  cases o with
  | none => exact ⟨h₃, .inl ⟨ho, hsame₃.1⟩⟩
  | some n =>
    obtain ⟨hcnt, hrefs₃, hroot⟩ := ho
    simp only [wp_bind]
    refine wp_mono (trunc_steady h₃ hcnt) ?_ (fun _ _ _ => trivial)
    rintro - s₄ ⟨h₄, hsame₄, hrefs₄, huse⟩
    have hsame := hsame₃.trans hsame₄
    have hbind := bindDesc_refs (s := s₄) (E := fun _ _ => True) p i f n msg.m3i1
    simp only [setFilp, setDesc, wp_bind, wp_modify] at hbind ⊢
    refine wp_mono (openDevice_ends n) ?_ (fun _ _ _ => trivial)
    rintro - s₅ ⟨rfl, -⟩
    have h₄' := h₄.congr huse
    refine ⟨h₄'.of_disk rfl rfl rfl h₄'.disk fun _ _ => rfl, .inr ⟨n, i, f, ⟨hi, hf, ?_, ?_, ?_⟩,
      hroot⟩⟩
    · rw [hbind, hrefs₄, hrefs₃]
    · dsimp only
      rw [Function.update_self]
    · intro g hg
      dsimp only
      rw [Function.update_of_ne hg, hsame.1]

end Requests

end FS

end BazingaOS
