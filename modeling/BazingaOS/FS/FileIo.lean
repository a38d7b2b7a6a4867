import BazingaOS.FS.Transfer

/-!
# Requests on a regular file

What `do_rdwt` returns and changes. The position of a read may be behind the end of the contents,
where the size then follows it, and the number of bytes of a write is not cut at the end of the
sectors.
-/

namespace BazingaOS

open Prog

/-- A request of `p` on a regular file: `f` is the descriptor, slot `n` of the cache has the inode.
The inode is on the disk in front of the sectors of the file. -/
structure OpenRegular (s : Fs) (p : Pid) (msg : Message) (f : Fin nrFileDesc)
    (n : Fin nrInode) : Prop where
  desc : ∃ fd, FS.fdIndex msg.m3i1 = some fd ∧ s.filp p fd = some f
  inode : (s.fdTable f).fdInode = some n
  mode : iTypeMask &&& (s.inodeTable n).iMode = iRegular
  sync : FS.Syncable s (s.inodeTable n)
  front : inodeSect s.sb (s.inodeTable n).iNum.toNat < (s.inodeTable n).iStartSect
  sects : (s.inodeTable n).iStartSect + (s.inodeTable n).iNrSects < 2 ^ 32

/-- The bytes that a request for `cnt` bytes at `pos` can move in front of `limit`. -/
def Span.request (start cnt : Nat) {pos limit : Nat} (h : pos ≤ limit) : Span :=
  ⟨start, pos, min limit (pos + cnt), le_min h (Nat.le_add_right _ _)⟩

/-- A read changes nothing but the position of its descriptor, by the number of bytes that it
returns, and the memory of the process. -/
def ReadsOnly (drv : FS.Drivers) (s : Fs) (p : Pid) (msg : Message) (f : Fin nrFileDesc)
    (n : Fin nrInode) : Prop :=
  ∃ v s', FS.doRdwt drv p msg s = .ok v s' ∧
    v.1 = max 0 (min msg.m3i2 ((s.inodeTable n).iSize - (s.fdTable f).fdPos)) ∧
    s'.disk = s.disk ∧ s'.inodeTable = s.inodeTable ∧ s'.fdTable = Function.update s.fdTable f
      { s.fdTable f with fdPos := (s.fdTable f).fdPos + v.1 }

/-- A write stores what the sectors of the file have room for and no other sector but that of the
inode is changed. -/
def WritesInside (drv : FS.Drivers) (s : Fs) (p : Pid) (msg : Message) (f : Fin nrFileDesc)
    (n : Fin nrInode) : Prop :=
  ∃ v s' m, FS.doRdwt drv p msg s = .ok v s' ∧ v.1 = (m : Nat) ∧
    v.1 = min msg.m3i2 ((s.inodeTable n).iNrSects * sectorSize - (s.fdTable f).fdPos) ∧
    (∀ j, j < m → s'.disk (sectorSize * (s.inodeTable n).iStartSect +
      (s.fdTable f).fdPos.toNat + j) = s.user p (msg.m3p2 + j)) ∧
    (∀ t, t < (s.inodeTable n).iStartSect ∨
        (s.inodeTable n).iStartSect + (s.inodeTable n).iNrSects ≤ t →
      t ≠ inodeSect s.sb (s.inodeTable n).iNum.toNat →
      ∀ j, j < sectorSize → s'.disk (sectorSize * t + j) = s.disk (sectorSize * t + j)) ∧
    (s'.fdTable f).fdPos ≤ (s.inodeTable n).iNrSects * sectorSize ∧
    (s'.inodeTable n).iSize ≤ (s.inodeTable n).iNrSects * sectorSize

namespace FS

section Requests

variable {drv : Drivers} {s : Fs} {p : Pid} {msg : Message} {f : Fin nrFileDesc}
  {n : Fin nrInode} {cnt pos : Nat}

theorem wp_doRdwt (h : OpenRegular s p msg f n) {Q : Int × Message → Fs → Prop}
    {E : Stop → Fs → Prop} : wp (doRdwt drv p msg) Q E s ↔
      (oRdwr (s.fdTable f).fdMode = true → wp (rdwtFile p msg f n) (fun v => Q (v, msg)) E s) ∧
      (oRdwr (s.fdTable f).fdMode ≠ true → Q (-2, msg) s) := by
  obtain ⟨⟨fd, hfd, hfilp⟩, hinode, hmode, -, -, -⟩ := h
  have hchar : iRegular ≠ iCharSpecial := by decide
  unfold doRdwt
  rw [hfd]
  simp only [wp_bind, wp_get, hfilp, hinode, hmode, wp_ite, wp_pure, wp_check, hchar,
    or_true, not_true, false_imp_iff, true_imp_iff, not_false_iff, true_and, and_true, not_not]
  exact And.comm

theorem rdwtFile_of_doRdwt (h : OpenRegular s p msg f n)
    (hmode : oRdwr (s.fdTable f).fdMode = true) {v : Int × Message} {s' : Fs}
    (hrun : doRdwt drv p msg s = .ok v s') : rdwtFile p msg f n s = .ok v.1 s' := by
  obtain ⟨b, t, hok, rfl, rfl⟩ := exists_ok_of_wp (((wp_doRdwt h).mp (wp_ok_iff.mpr hrun)).1 hmode)
  exact hok

theorem oRdwr_of_doRdwt (h : OpenRegular s p msg f n) {v : Int × Message} {s' : Fs}
    (hrun : doRdwt drv p msg s = .ok v s') (hv : 0 ≤ v.1) :
    oRdwr (s.fdTable f).fdMode = true := by
  by_contra hmode
  obtain ⟨hret, -⟩ := ((wp_doRdwt h).mp (wp_ok_iff.mpr hrun)).2 hmode
  rw [hret] at hv
  change 0 ≤ (-2 : Int) at hv
  omega

theorem doRdwt_of_rdwtFile (h : OpenRegular s p msg f n)
    (hmode : oRdwr (s.fdTable f).fdMode = true) {v : Int} {s' : Fs}
    (hrun : rdwtFile p msg f n s = .ok v s') : doRdwt drv p msg s = .ok (v, msg) s' := by
  apply wp_ok_iff.mp
  rw [wp_doRdwt h]
  refine ⟨fun _ => ?_, fun hno => absurd hmode hno⟩
  rw [wp, hrun]
  exact ⟨rfl, rfl⟩

end Requests

end FS

section Reads

variable {drv : FS.Drivers} {s : Fs} {p : Pid} {msg : Message} {f : Fin nrFileDesc}
  {n : Fin nrInode} {cnt pos : Nat}

theorem OpenRegular.sectBeg_lt (h : OpenRegular s p msg f n)
    (hle : pos ≤ (s.inodeTable n).iNrSects * sectorSize) :
    (s.inodeTable n).iStartSect + pos / sectorSize < 2 ^ 32 := by
  have hdiv : pos / sectorSize ≤ (s.inodeTable n).iNrSects :=
    Nat.div_le_of_le_mul (Nat.mul_comm _ _ ▸ hle)
  have hsects := h.sects
  omega

/-- Up to the end of its sectors a file can be read exactly where the position is not behind the
contents, the end of the read is that of a signed integer and the sectors have positions on the
disk. -/
theorem readsOnly_iff (h : OpenRegular s p msg f n) (hread : msg.type = .read)
    (hcnt : msg.m3i2 = cnt) (hpos : (s.fdTable f).fdPos = pos)
    (hint : InI32 msg.m3i2 ∧ InI32 (s.fdTable f).fdPos)
    (hle : pos ≤ (s.inodeTable n).iNrSects * sectorSize) :
    ReadsOnly drv s p msg f n ↔ oRdwr (s.fdTable f).fdMode = true ∧
      ∃ hin : pos ≤ (s.inodeTable n).iSize, min (s.inodeTable n).iSize (pos + cnt) < 2 ^ 31 ∧
        (Span.request (s.inodeTable n).iStartSect cnt hin).Addressed (s.inodeTable n).iDev := by
  have hsect := h.sectBeg_lt hle
  rw [hcnt, hpos, InI32, InI32] at hint
  have hlt : pos < 2 ^ 31 := by omega
  have hsum : pos + cnt < 2 ^ 32 := by omega
  have htotal : ∀ hin : pos ≤ (s.inodeTable n).iSize,
      (Span.request (s.inodeTable n).iStartSect cnt hin).total =
        min (s.inodeTable n).iSize (pos + cnt) - pos := fun _ => rfl
  constructor
  · rintro ⟨v, s', hrun, hv, -, htab, -⟩
    rw [hcnt, hpos] at hv
    have hmode := FS.oRdwr_of_doRdwt h hrun (by omega)
    have hfile := FS.rdwtFile_of_doRdwt h hmode hrun
    have hin : pos ≤ (s.inodeTable n).iSize := by
      by_contra hbehind
      have hgrown := wp_ok (FS.readFile_behind hread hcnt hpos hlt hsum
        (Nat.lt_of_not_le hbehind)) hfile
      exact hgrown (congrFun htab n)
    have hfit : min (s.inodeTable n).iSize (pos + cnt) < 2 ^ 31 := by
      by_contra hfar
      have hzero := wp_ok (FS.readFile_far hread hcnt hpos hsum (Nat.le_of_not_lt hfar)) hfile
      omega
    have hspec := wp_ok (FS.readFile_spec (x := .request (s.inodeTable n).iStartSect cnt hin)
      hread hcnt rfl hpos hsum hfit rfl hsect h.sync) hfile
    exact ⟨hmode, hin, hfit, (hspec.2 (by rw [hv, htotal hin]; omega)).1⟩
  · rintro ⟨hmode, hin, hfit, hok⟩
    obtain ⟨v, s', hfile, hval, hpost⟩ := exists_ok_of_wp (wp_mono (FS.readFile_spec
      (x := .request (s.inodeTable n).iStartSect cnt hin) hread hcnt rfl hpos hsum hfit rfl hsect
      h.sync) (fun _ _ h => h) fun _ _ hbad => hbad hok)
    have hv := hval hok
    obtain ⟨-, u, b, rfl, -⟩ := hpost hv
    refine ⟨(v, msg), _, FS.doRdwt_of_rdwtFile h hmode hfile, ?_, rfl, rfl, ?_⟩
    · rw [hcnt, hpos, hv, htotal hin]
      omega
    · rw [hpos, hv]
      rfl

/-- A file system with one file, which `INIT` has open at `pos`. -/
def oneFile (size pos : Nat) : Fs where
  disk := fun _ => 0
  fsbuf := fun _ => 0
  sb := { nrImapSects := 1, nrSmapSects := 1, n1stSect := 260 }
  inodeTable := fun _ =>
    { iMode := iRegular, iSize := size, iStartSect := 2308, iNrSects := 2048, iDev := rootDev
      iCnt := 1, iNum := 2 }
  fdTable := fun _ => { fdMode := 3, fdPos := pos, fdCnt := 1, fdInode := some ⟨0, by decide⟩ }
  filp := fun _ _ => some ⟨0, by decide⟩

theorem oneFile_open (size pos : Nat) (t : MsgType) (cnt : Int) :
    OpenRegular (oneFile size pos) init { type := t, m3i2 := cnt } ⟨0, by decide⟩
      ⟨0, by decide⟩ where
  desc := ⟨⟨0, by decide⟩, rfl, rfl⟩
  inode := rfl
  mode := show iTypeMask &&& iRegular = iRegular by decide
  sync := ⟨rfl, show (1 : Int) ≤ 2 by decide,
    show sectorSize * inodeSect { nrImapSects := 1, nrSmapSects := 1, n1stSect := 260 }
      (2 : Int).toNat < 2 ^ 31 by decide⟩
  front := show inodeSect { nrImapSects := 1, nrSmapSects := 1, n1stSect := 260 }
    (2 : Int).toNat < 2308 by decide
  sects := show 2308 + 2048 < 2 ^ 32 by decide

/-- All of a file of 100 bytes is read. -/
theorem readsOnly_all : ReadsOnly (fun _ m => m) (oneFile 100 0) init
    { type := .read, m3i2 := (100 : Nat) } ⟨0, by decide⟩ ⟨0, by decide⟩ :=
  (readsOnly_iff (oneFile_open 100 0 .read 100) rfl rfl rfl (by decide) (Nat.zero_le _)).mpr
    ⟨by decide, Nat.zero_le _, by decide, Span.addressed_of_le _ (by decide)⟩

/-- A read at 200, where `lseek` has gone in a file of 100 bytes, makes it one of 200 bytes. -/
theorem not_readsOnly_behind : ¬ ReadsOnly (fun _ m => m) (oneFile 100 200) init
    { type := .read, m3i2 := (10 : Nat) } ⟨0, by decide⟩ ⟨0, by decide⟩ := by
  intro h
  obtain ⟨-, hin, -⟩ :=
    (readsOnly_iff (oneFile_open 100 200 .read 10) rfl rfl rfl (by decide) (by decide)).mp h
  exact absurd hin (show ¬ 200 ≤ 100 by decide)

end Reads

section Writes

variable {drv : FS.Drivers} {s : Fs} {p : Pid} {msg : Message} {f : Fin nrFileDesc}
  {n : Fin nrInode} {cnt pos : Nat}

theorem Fs.resized_disk (s : Fs) (n : Fin nrInode) (size : Nat) (b : Bytes) {t j : Nat}
    (ht : t ≠ inodeSect s.sb (s.inodeTable n).iNum.toNat) (hj : j < sectorSize) :
    (s.resized n size b).disk (sectorSize * t + j) = s.disk (sectorSize * t + j) := by
  have hs : sectorSize = 512 := rfl
  have hi : inodeSize = 32 := rfl
  have hoff := inodeOff_le (s.inodeTable n).iNum.toNat
  rw [hs] at hj ⊢
  rw [hs, hi] at hoff
  change putBytes s.disk (inodePlace s.sb (s.inodeTable n).iNum.toNat) _ _ = _
  rw [inodePlace, hs]
  rcases Nat.lt_or_gt_of_ne ht with hlt | hgt
  · exact putBytes_of_lt (by omega)
  · refine putBytes_of_ge ?_
    rw [DiskInode.bytes_length]
    omega

theorem Fs.stored_disk (s : Fs) (x : Span) (p : Pid) (buf : Nat) (f : Fin nrFileDesc) (m : Nat)
    (b : Bytes) {a : Nat} (ha : a < sectorSize * x.start + x.pos ∨
      sectorSize * x.start + x.pos + m ≤ a) : (s.stored x p buf f m b).disk a = s.disk a := by
  rcases ha with hlt | hge
  · exact copyBytes_of_lt hlt
  · exact copyBytes_of_ge hge

theorem Fs.written_eq (s : Fs) {s' : Fs} {x : Span} {p : Pid} {buf : Nat} {f : Fin nrFileDesc}
    {n : Fin nrInode} {cnt : Nat} {b b' : Bytes} (hs' : if (s.inodeTable n).iSize < x.pos + cnt
      then s' = (s.stored x p buf f cnt b).resized n (x.pos + cnt) b'
      else s' = s.stored x p buf f cnt b) :
    (s'.fdTable f).fdPos = x.pos + cnt ∧
      (s'.inodeTable n).iSize = max (s.inodeTable n).iSize (x.pos + cnt) ∧
      ∀ t j, t ≠ inodeSect s.sb (s.inodeTable n).iNum.toNat → j < sectorSize →
        s'.disk (sectorSize * t + j) = (s.stored x p buf f cnt b).disk (sectorSize * t + j) := by
  split at hs'
  · rename_i hgrow
    subst hs'
    refine ⟨?_, ?_, fun t j ht hj => Fs.resized_disk _ n _ _ ht hj⟩
    · simp only [Fs.resized, Fs.stored, Function.update_self]
    · simp only [Fs.resized, Function.update_self]
      omega
  · rename_i hkeep
    subst hs'
    refine ⟨?_, ?_, fun _ _ _ _ => rfl⟩
    · simp only [Fs.stored, Function.update_self]
    · change (s.inodeTable n).iSize = _
      omega

/-- A write in a file that the buffer can hold keeps to its sectors exactly where it ends in them,
the size is not behind them, and they have positions on the disk. -/
theorem writesInside_iff (h : OpenRegular s p msg f n) (hwrite : msg.type = .write)
    (hcnt : msg.m3i2 = cnt) (hpos : (s.fdTable f).fdPos = pos) (hint : InI32 msg.m3i2)
    (hle : pos ≤ (s.inodeTable n).iNrSects * sectorSize)
    (hsmall : (s.inodeTable n).iNrSects * sectorSize ≤ fsbufSize) :
    WritesInside drv s p msg f n ↔ oRdwr (s.fdTable f).fdMode = true ∧
      pos + cnt ≤ (s.inodeTable n).iNrSects * sectorSize ∧
      (s.inodeTable n).iSize ≤ (s.inodeTable n).iNrSects * sectorSize ∧
      (Span.request (s.inodeTable n).iStartSect cnt hle).Addressed (s.inodeTable n).iDev := by
  have hsect := h.sectBeg_lt hle
  have hf : fsbufSize = 1048576 := rfl
  rw [hcnt, InI32] at hint
  have hsum : pos + cnt < 2 ^ 32 := by omega
  have hend : pos + cnt ≤ (s.inodeTable n).iNrSects * sectorSize →
      (Span.request (s.inodeTable n).iStartSect cnt hle).posEnd = pos + cnt := fun hcap =>
    Nat.min_eq_right hcap
  constructor
  · rintro ⟨v, s', m, hrun, hm, hv, -, -, -, hsize⟩
    rw [hcnt, hpos] at hv
    have hmode := FS.oRdwr_of_doRdwt h hrun (by omega)
    have hfile := FS.rdwtFile_of_doRdwt h hmode hrun
    have hcap : pos + cnt ≤ (s.inodeTable n).iNrSects * sectorSize := by
      by_contra hmore
      have hother := wp_ok (FS.writeFile_beyond hwrite hcnt hpos rfl hsum hle (Nat.lt_of_not_le hmore)
        hsmall hsect) hfile
      omega
    have hspec := wp_ok (FS.writeFile_spec (x := .request (s.inodeTable n).iStartSect cnt hle)
      hwrite hcnt rfl hpos (hend hcap) hcap hsmall hsect h.sync) hfile
    obtain ⟨hok, b, b', hs'⟩ := hspec.2 (by omega)
    refine ⟨hmode, hcap, ?_, hok⟩
    by_contra hbig
    split at hs'
    · rename_i hgrow
      change (s.inodeTable n).iSize < pos + cnt at hgrow
      omega
    · rw [hs'] at hsize
      change (s.inodeTable n).iSize ≤ _ at hsize
      omega
  · rintro ⟨hmode, hcap, hsize, hok⟩
    obtain ⟨v, s', hfile, hval, hpost⟩ := exists_ok_of_wp (wp_mono (FS.writeFile_spec
      (x := .request (s.inodeTable n).iStartSect cnt hle) hwrite hcnt rfl hpos (hend hcap) hcap
      hsmall hsect h.sync) (fun _ _ h => h) fun _ _ hbad => hbad hok)
    have hv := hval hok
    obtain ⟨-, b, b', hs'⟩ := hpost hv
    obtain ⟨hfd, htab, hdisk⟩ := s.written_eq hs'
    have hs : sectorSize = 512 := rfl
    have hfront := h.front
    refine ⟨(v, msg), s', cnt, FS.doRdwt_of_rdwtFile h hmode hfile, hv, ?_, ?_, ?_, ?_, ?_⟩
    · rw [hcnt, hpos, hv]
      omega
    · intro j hj
      have hplace := Nat.div_add_mod (sectorSize * (s.inodeTable n).iStartSect + pos + j) sectorSize
      have hother : (sectorSize * (s.inodeTable n).iStartSect + pos + j) / sectorSize ≠
          inodeSect s.sb (s.inodeTable n).iNum.toNat := by
        rw [hs]
        omega
      rw [hpos, Int.toNat_natCast, ← hplace, hdisk _ _ hother (Nat.mod_lt _ (by decide)), hplace]
      exact copyBytes_add hj
    · intro t ht hne j hj
      rw [hdisk t j hne hj]
      apply s.stored_disk
      change sectorSize * t + j < sectorSize * (s.inodeTable n).iStartSect + pos ∨
        sectorSize * (s.inodeTable n).iStartSect + pos + cnt ≤ sectorSize * t + j
      rw [hs] at hcap hj ⊢
      omega
    · rw [hfd]
      change (pos : Int) + cnt ≤ _
      omega
    · rw [htab]
      exact Nat.max_le.mpr ⟨hsize, hcap⟩

/-- The first 100 bytes of an empty file. -/
theorem writesInside_first : WritesInside (fun _ m => m) (oneFile 0 0) init
    { type := .write, m3i2 := (100 : Nat) } ⟨0, by decide⟩ ⟨0, by decide⟩ :=
  (writesInside_iff (oneFile_open 0 0 .write 100) rfl rfl rfl (by decide) (Nat.zero_le _)
      (by decide)).mpr
    ⟨by decide, by decide, Nat.zero_le _, Span.addressed_of_le _ (by decide)⟩

/-- A byte behind the last one that the sectors of a file hold. -/
theorem not_writesInside_full : ¬ WritesInside (fun _ m => m) (oneFile 0 0x100000) init
    { type := .write, m3i2 := (1 : Nat) } ⟨0, by decide⟩ ⟨0, by decide⟩ := by
  intro h
  obtain ⟨-, hcap, -⟩ :=
    (writesInside_iff (oneFile_open 0 0x100000 .write 1) rfl rfl rfl (by decide) (by decide)
      (by decide)).mp h
  exact absurd hcap (show ¬ 0x100000 + 1 ≤ 2048 * sectorSize by decide)

end Writes

end BazingaOS
