import BazingaOS.FS.SteadyOpen

/-!
# Removing files that may share sectors

The bits of a removed file are cleared although another file may have some of its sectors. No bit in
front of the first one changes, and what is in the inode array and in the directory stays, but for the
inode and the entry of the file.
-/

namespace BazingaOS

open Prog

namespace FS

section Entry

variable {s s' : Fs} {r n : Fin nrInode} {base k : Nat} {P : Nat → Prop}

theorem inUse_front {sb : SuperBlock} (hl : sb.Laid) {d d' : Bytes} {nr : Nat}
    (hd : ∀ a, a < sectorSize * sb.n1stSect → d' a = d a) : InUse d' nr ↔ InUse d nr := by
  have hs : sectorSize = 512 := rfl
  refine and_congr_right fun _ => and_congr_right fun hlt => ?_
  have hbit := sectBit_imap hlt
  have hfirst := hl.first
  rw [Free, Free, bitAt_congr (hd _ (by rw [hs] at hbit ⊢; omega))]

theorem clearEntry_steady (h : s.Steady r base P) (hk : k ≠ rootInodeNr)
    (hlive : ∀ n, (s.inodeTable n).iCnt ≠ 0 → (s.inodeTable n).iNum.toNat ≠ k) :
    wp (clearEntry r rootDev k) (fun _ s' => s'.Steady r base (fun m => P m ∧ m ≠ k) ∧
        SameDescs s s' ∧ ∀ m, InUse s'.disk m ↔ InUse s.disk m) (fun _ _ => True) s := by
  have hs : sectorSize = 512 := rfl
  have hd : dirEntSize = 16 := rfl
  have hheld := h.held
  have hstart := h.dir.start
  have hslots := h.slots_eq
  have haddr : ∀ i, i < (s.inodeTable r).iNrSects →
      sectorSize * ((s.inodeTable r).iStartSect + i) < 2 ^ 31 := by
    intro i hi
    have hend := h.rootAt.addr
    rw [hs] at hend ⊢
    omega
  simp only [clearEntry, wp_bind, wp_get]
  refine wp_mono (iter_unlinkEntry (k := (s.inodeTable r).iNrSects)
    (n := min (s.inodeTable r).entries (s.inodeTable r).slots) haddr (Nat.min_le_right _ _)) ?_
    (fun _ _ hE => hE.elim)
  rintro ⟨found, dirSize⟩ s₁ ⟨hfound, -⟩
  cases found with
  | none => trivial
  | some t =>
    obtain ⟨ht, hfirst, hcount, b, rfl⟩ := hfound t rfl
    rw [hslots] at ht
    have htlt : t < rootSlots := Nat.lt_of_lt_of_le ht (Nat.min_le_right _ _)
    have hnr : slotNr s.disk s.sb.n1stSect t = k := hstart ▸ hfirst.nr_eq
    have hfront : ∀ a, a < sectorSize * s.sb.n1stSect →
        clearedSlot s.disk (s.inodeTable r).iStartSect t a = s.disk a := by
      intro a ha
      apply putBytes_of_lt
      rw [hstart]
      exact Nat.lt_of_lt_of_le ha (slotAt_le _ _)
    have hlisted : Listed (fun m => P m ∧ m ≠ k)
        (clearedSlot s.disk (s.inodeTable r).iStartSect t) s.sb.n1stSect := by
      rw [hstart]
      exact h.disk.listed.cleared htlt hnr
    have hdisk := h.disk.rewrite h.laid h.bits (fun m hm => (h.number m hm).2) hfront
      (fun m hm => hm.1) hlisted
    have h₁ : Fs.Steady { s with
        fsbuf := b, disk := clearedSlot s.disk (s.inodeTable r).iStartSect t } r base
          (fun m => P m ∧ m ≠ k) := by
      refine h.of_parts rfl rfl (fun m hm => h.number m hm.1) ⟨h.rootNumber, Ne.symm hk⟩ hdisk
        (h.cache.congr fun m _ hmlt => diskInodeAt_shift fun j hj => hfront _ ?_)
        (fun m hm => ⟨h.live m hm, hlive m hm⟩) h.dir h.few hheld
      have hplace := inodePlace_lt h.laid hmlt
      omega
    have huse₁ : ∀ m, InUse (clearedSlot s.disk (s.inodeTable r).iStartSect t) m ↔ InUse s.disk m :=
      fun m => inUse_front h.laid hfront
    simp only [wp_when, wp_bind]
    refine ⟨fun _ => ?_, fun _ => ⟨h₁, ⟨rfl, rfl, rfl, rfl⟩, huse₁⟩⟩
    have hshort : dirSize < 2 ^ 32 ∧ dirSize / dirEntSize ≤ nrNumbers := by
      have hsize : dirSize ≤ dirEntSize * t := by
        change dirSize = dirEntSize * liveBefore s.disk (s.inodeTable r).iStartSect t at hcount
        rw [hcount]
        exact Nat.mul_le_mul_left _ (Nat.count_le _)
      have hfew := h.few
      have hle := Nat.lt_of_lt_of_le ht (Nat.min_le_left _ _)
      have hnum : nrNumbers = 4096 := rfl
      rw [hnum] at hfew ⊢
      rw [hd] at hsize ⊢
      omega
    rw [setInode, wp_modify]
    refine wp_mono (syncInode_steady h₁ (by dsimp only; omega)
      (replaces_size h₁ hheld hshort.1 fun _ => hshort.2)) ?_ (fun _ _ _ => trivial)
    rintro - s₂ ⟨h₂, -, hdisk₂, hsame₂⟩
    refine ⟨h₂, hsame₂, fun m => ?_⟩
    rw [hdisk₂]
    exact (inUse_put h.laid).trans (huse₁ m)

end Entry

section Release

variable {sb : SuperBlock} {base nr lo c : Nat} {P : Nat → Prop} {d d' : Bytes} {i : DiskInode}

theorem released_end (hl : sb.Laid) (hmap : Mapped sb base i ∨ Beyond sb base i) :
    sectBit 3 + (sb.firstBit i + i.nrSects) ≤ 8 * (sectorSize * sb.n1stSect) := by
  have hs : sectorSize = 512 := rfl
  have hfirst := hl.first
  rcases hmap with hmap | hmap
  · have hin := hmap.inMap
    rw [SuperBlock.smapBits, hs] at hin
    rw [sectBit, hs]
    omega
  · obtain ⟨hlo, hn⟩ := hmap.place hl
    rw [sectBit, hs]
    omega

theorem released_base (hmap : Mapped sb base i ∨ Beyond sb base i) : base ≤ sb.firstBit i :=
  hmap.elim (fun h => h.base) fun h => h.base

/-- The inodes in use are not among the bits of a file. Where those of `cmd.tar` are in the inode
array they are all set, and no mode has such bits. -/
theorem storedInode_cleared (hl : sb.Laid) (hkind : InodeKind sb base nr (storedInode sb d nr))
    (hmap : Mapped sb base i ∨ Beyond sb base i)
    (hchecks : ReleaseChecks (sb.firstBit i) i.nrSects d)
    (hc : Cleared (sb.firstBit i) (sb.firstBit i + i.nrSects) d d') :
    storedInode sb d' nr = storedInode sb d nr := by
  have hs : sectorSize = 512 := rfl
  have hi : inodeSize = 32 := rfl
  rcases hmap with hmap | hmap
  · exact storedInode_congr hl (fun a ha => hc.outside hmap.inMap (.inr ha)) nr
  · obtain ⟨hsum, hn⟩ := hmap.place hl
    have hlo : 32502 ≤ sb.firstBit i ∧ sb.firstBit i ≤ 32509 := by
      have hshort := hmap.map
      have hpos := hl.smap
      omega
    obtain ⟨w, hw⟩ : ∃ w, inodePlace sb nr = 32 * w := by
      refine ⟨16 * (3 + sb.nrSmapSects) + (nr - 1), ?_⟩
      rw [inodePlace_eq hl, hs, hi]
      omega
    have hset := hchecks.set
    rw [hn] at hset hc
    generalize sb.firstBit i = lo at hlo hset hc
    refine diskInodeAt_shift fun j hj => hc.byte_eq ?_
    rw [sectBit, hs, hw]
    by_contra hin
    have hfull : d (inodePlace sb nr + 3) = 0xff := by
      refine eq_full_iff.mpr fun k hk => ?_
      have hbit := hset (8 * (32 * w + 3) + k - sectBit 3)
        (by rw [sectBit, hs]; omega) (by rw [sectBit, hs]; omega)
      rw [Nat.add_sub_cancel' (by rw [sectBit, hs]; omega), bitAt_mul_add hk] at hbit
      rw [hw]
      exact hbit
    have hmode := hkind.mode_lt
    change u32At d (inodePlace sb nr) < 2 ^ 16 at hmode
    rw [u32At, hfull] at hmode
    have hbyte : (0xff : UInt8).toNat = 255 := rfl
    omega

end Release

section Removal

variable {s s' : Fs} {r n : Fin nrInode} {base k lo c : Nat} {P : Nat → Prop}

theorem release_steady (h : s.Steady r base P) (hk : 1 ≤ k) (hlt : k < nrNumbers) {i : DiskInode}
    (hmap : Mapped s.sb base i ∨ Beyond s.sb base i) {disk : Bytes}
    (hchecks : ReleaseChecks (s.sb.firstBit i) i.nrSects
      (clearBit s.disk (sectorSize * 2 + k / 8) (k % 8)))
    (hc : Cleared (s.sb.firstBit i) (s.sb.firstBit i + i.nrSects)
      (clearBit s.disk (sectorSize * 2 + k / 8) (k % 8)) disk) (buf : Bytes) :
    Fs.Steady { s with disk, fsbuf := buf, sb := { s.sb with sbDev := rootDev } } r base P ∧
      ∀ m, InUse disk m ↔ InUse s.disk m ∧ m ≠ k := by
  have hs : sectorSize = 512 := rfl
  have hend := released_end h.laid hmap
  have hbase := released_base hmap
  have hbehind : ∀ a, sectorSize * 3 ≤ a →
      clearBit s.disk (sectorSize * 2 + k / 8) (k % 8) a = s.disk a :=
    fun a ha => clearBit_behind hlt ha
  have hzero : ¬ Free (clearBit s.disk (sectorSize * 2 + k / 8) (k % 8)) 2 0 := by
    intro hz
    rcases free_clearBit.mp hz with hf | hf
    · exact h.disk.zero hf
    · omega
  have hdisk₁ := h.disk.renumber h.laid hbehind hzero
  -- the bits of the inode map and the first ones of the sector map stay
  have hfront : ∀ x, x < sectBit 3 + s.sb.firstBit i →
      bitAt disk x = bitAt (clearBit s.disk (sectorSize * 2 + k / 8) (k % 8)) x := by
    intro x hx
    rw [hc, decide_eq_false (by omega), Bool.not_false, Bool.and_true]
  have hstored : ∀ m, P m → storedInode s.sb disk m =
      storedInode s.sb (clearBit s.disk (sectorSize * 2 + k / 8) (k % 8)) m :=
    fun m hm => storedInode_cleared h.laid (hdisk₁.kind m hm) hmap hchecks hc
  have himap : ∀ m, m < nrNumbers → sectBit 2 + m < sectBit 3 + s.sb.firstBit i := by
    intro m hm
    have hbits : nrNumbers = 4096 := rfl
    rw [sectBit, sectBit, hs]
    omega
  have hdisk₂ : DiskSteady s.sb base P disk := by
    refine hdisk₁.of_same ?_ (fun b hb => ?_) hstored fun t _ => ?_
    · rw [Free, hfront _ (himap 0 (by decide))]
      exact hdisk₁.zero
    · rw [Free, hfront _ (by omega)]
      exact hdisk₁.low b hb
    · exact DiskSteady.slotNr_behind (fun a ha => hc.byte_eq (.inr (by omega))) t
  refine ⟨h.of_disk rfl rfl rfl hdisk₂ fun m hm => (hstored m hm).trans ?_, fun m => ?_⟩
  · exact storedInode_congr h.laid (fun a ha => hbehind a (Nat.le_trans (by rw [hs]; omega) ha)) m
  · rw [← inUse_clearBit]
    refine and_congr_right fun _ => and_congr_right fun hm => ?_
    rw [Free, Free, hfront _ (himap m hm)]

theorem removeFile_steady (h : s.Steady r base (InUse s.disk)) (hcnt : (s.inodeTable n).iCnt = 1)
    (hmode : (s.inodeTable n).iMode = iRegular) :
    wp (removeFile r n rootDev (s.inodeTable n).iNum)
      (fun _ s' => s'.Steady r base (InUse s'.disk) ∧ SameDescs s s') (fun _ _ => True) s := by
  have hs : sectorSize = 512 := rfl
  have hdev : rootDev ≠ 0 := by decide
  have hn : (s.inodeTable n).iCnt ≠ 0 := by omega
  have hpos := h.cache.num n hn
  have huse := h.live n hn
  have hne : n ≠ r := by
    rintro rfl
    rw [h.dir.mode] at hmode
    cases hmode
  have hmap := (h.kindOf hn).mapped hmode
  obtain ⟨k, hk⟩ : ∃ k : Nat, (s.inodeTable n).iNum = k := ⟨_, (Int.toNat_of_nonneg (by omega)).symm⟩
  have hroot : k ≠ rootInodeNr := by
    intro heq
    have hheld := h.held
    refine hne (h.cache.inj n r hn (by omega) ?_)
    rw [hk, h.dir.num, heq]
  rw [hk, Int.toNat_natCast] at huse
  rw [hk, removeFile, wp_ite]
  refine ⟨fun hneg => absurd hneg (by omega), fun _ => ?_⟩
  simp only [wp_bind, Int.toNat_natCast]
  refine wp_mono (clearImapBit_spec k) ?_ fun _ _ _ => trivial
  rintro - s₁ ⟨hlt, -, b₁, rfl⟩
  simp only [getSuperBlock, wp_bind, wp_modify, wp_ite, wp_get, wp_pure]
  refine ⟨fun hz => absurd hz hdev, fun _ => ⟨fun _ => trivial, fun _ => ?_⟩⟩
  have hsects : (s.inodeTable n).disk.nrSects = 2048 := hmap.elim (fun h => h.sects) fun h => h.sects
  have hend := released_end h.laid hmap
  have haddr := h.laid.addr
  rw [← clearSmap_strict]
  refine wp_mono (clearSmap_spec (m := s.sb.n1stSect) ?_ ?_ ?_) ?_ (fun _ _ _ => trivial)
  · change 1 ≤ (s.inodeTable n).disk.nrSects
    omega
  · change s.sb.firstBit (s.inodeTable n).disk + (s.inodeTable n).disk.nrSects ≤ _
    rw [Nat.mul_assoc]
    omega
  · have hdef : nrDefaultFileSects = 2048 := rfl
    rw [hs, hdef] at haddr
    rw [hs]
    omega
  rintro - s₃ ⟨⟨disk, buf, rfl, hcleared⟩, hchecks⟩
  obtain ⟨h₃, huse₃⟩ := release_steady h huse.1 hlt hmap (hchecks rfl) hcleared buf
  simp only [setInode, putInode, wp_bind, wp_modify, wp_get, wp_check, Function.update_self,
    Function.update_idem]
  refine ⟨fun _ => ?_, fun _ => trivial⟩
  have hzero : 0 < 2 ^ 32 := by decide
  refine wp_mono (syncInode_steady (n := n) (i := { s.inodeTable n with
    iMode := 0, iSize := 0, iStartSect := 0, iNrSects := 0,
    iCnt := (s.inodeTable n).iCnt - 1 }) h₃ hn ?_) ?_ (fun _ _ _ => trivial)
  · refine ⟨rfl, h.cache.dev n hn, ?_, ⟨hzero, hzero, hzero, hzero⟩, .gone rfl,
      fun heq => absurd heq hne⟩
    dsimp only
    omega
  rintro - s₄ ⟨h₄, htab, hdisk₄, hsame₄⟩
  -- no slot of the cache is left with the number
  have hlive : ∀ m, (s₄.inodeTable m).iCnt ≠ 0 → (s₄.inodeTable m).iNum.toNat ≠ k := by
    intro m
    rw [htab]
    refine update_cases (P := fun i : Inode => i.iCnt ≠ 0 → i.iNum.toNat ≠ k) (fun _ hc => ?_)
      fun hmn hc heq => ?_
    · dsimp only at hc
      omega
    · change (s.inodeTable m).iCnt ≠ 0 at hc
      change (s.inodeTable m).iNum.toNat = k at heq
      have hmpos := h.cache.num m hc
      exact hmn (h.cache.inj m n hc hn (by omega))
  refine wp_mono (clearEntry_steady h₄ hroot hlive) ?_ (fun _ _ _ => trivial)
  rintro - s₅ ⟨h₅, hsame₅, huse₅⟩
  refine ⟨h₅.congr fun m => (huse₅ m).trans ?_, hsame₄.trans hsame₅⟩
  rw [hdisk₄]
  exact (inUse_put h₃.laid).trans (huse₃ m)

end Removal

section Requests

variable {s s' : Fs} {r n : Fin nrInode} {base : Nat} {P : Nat → Prop} {p : Pid} {msg : Message}

/-- `do_unlink` removes a file that no descriptor refers to, or leaves at most one reference too many
behind. -/
theorem doUnlink_steady (h : s.Steady r base (InUse s.disk)) :
    wp (doUnlink p msg) (fun v s' => s'.Steady r base (InUse s'.disk) ∧ s'.fdTable = s.fdTable ∧
        (s'.refs = s.refs ∨ v ≠ 0 ∧ ∃ n, s'.refs = s.refs.addCnt n 1)) (fun _ _ => True) s := by
  simp only [doUnlink, wp_bind, wp_check]
  refine ⟨fun _ => ?_, fun _ => trivial⟩
  refine wp_mono (copyPath_spec p msg) ?_ (fun _ _ _ => trivial)
  rintro path s₀ ⟨rfl, rfl⟩
  rw [wp_ite]
  refine ⟨fun _ => ⟨h, rfl, .inl rfl⟩, fun _ => ?_⟩
  rw [wp_bind]
  refine wp_mono (searchFile_spec _) ?_ (fun _ _ _ => trivial)
  rintro nr s₁ ⟨hbuf, hlookup, -⟩
  obtain ⟨h₁, hsame₁, hrefs₁, hdisk₁⟩ := steady_buffer h hbuf
  have hnone : s₁.Steady r base (InUse s₁.disk) ∧ s₁.fdTable = s₀.fdTable ∧
      (s₁.refs = s₀.refs ∨ (-1 : Int) ≠ 0 ∧ ∃ n, s₁.refs = s₀.refs.addCnt n 1) := by
    rw [hdisk₁]
    exact ⟨h₁, hsame₁.1, .inl hrefs₁⟩
  rw [wp_ite]
  refine ⟨fun _ => hnone, fun hnz => ?_⟩
  cases stripPath (s₀.pathOf p msg) with
  | none => exact hnone
  | some name =>
    simp only [rootNode, wp_bind, wp_get, h₁.root, wp_pure, h₁.rootAt.dev]
    obtain ⟨hpos, huse⟩ := (lookup_steady h _).resolve_left (hlookup ▸ hnz)
    rw [← hlookup] at hpos huse
    refine wp_mono (getInode_steady h₁ hpos huse) ?_ (fun _ _ _ => trivial)
    rintro n s₂ ⟨h₂, rfl, hcnt, hdisk₂, hsame₂, hrefs₂⟩
    have h₂' : s₂.Steady r base (InUse s₂.disk) := by
      rw [hdisk₂, hdisk₁]
      exact h₂
    have hleft : s₂.Steady r base (InUse s₂.disk) ∧ s₂.fdTable = s₀.fdTable ∧
        (s₂.refs = s₀.refs ∨ (-1 : Int) ≠ 0 ∧ ∃ n, s₂.refs = s₀.refs.addCnt n 1) := by
      refine ⟨h₂', hsame₂.1.trans hsame₁.1, .inr ⟨by decide, n, ?_⟩⟩
      rw [hrefs₂, hrefs₁]
    rw [wp_ite]
    refine ⟨fun _ => hleft, fun hmode => ?_⟩
    rw [wp_ite]
    refine ⟨fun _ => hleft, fun hone => ?_⟩
    rw [wp_bind]
    refine wp_mono (wp_and (removeFile_steady h₂' (by omega) (not_not.mp hmode))
      (removeFile_refs r n rootDev (s₂.inodeTable n).iNum)) ?_ (fun _ _ _ => trivial)
    rintro - s₃ ⟨⟨h₃, hsame₃⟩, hrefs₃⟩
    refine ⟨h₃, hsame₃.1.trans (hsame₂.1.trans hsame₁.1), .inl ?_⟩
    rw [hrefs₃, hrefs₂, hrefs₁]
    simp [Refs.addCnt, Refs.setCnt]

end Requests

end FS

end BazingaOS
