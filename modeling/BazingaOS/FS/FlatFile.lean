import BazingaOS.FS.FileIo
import BazingaOS.FS.Kept
import BazingaOS.Lib.FlatFiles

/-!
# Files as `do_rdwt` moves their bytes

A sequence of requests on regular files. The sectors of a file have the bytes of an array and the
inode on the disk has its size; what the code does with them is a run of the arrays.
-/

namespace BazingaOS

open Prog

/-- A request of process `pid` for `cnt` bytes, when the processes have the memories `user`. Its
descriptor is `desc`, and slot `slot` of the cache has the inode. -/
structure FileRequest where
  pid : Pid
  msg : Message
  user : Pid → Bytes
  desc : Fin nrFileDesc
  slot : Fin nrInode
  cnt : Nat

/-- The state in which FS gets the request. -/
def Fs.asked (s : Fs) (r : FileRequest) : Fs := { s with user := r.user }

def Fs.numberOf (s : Fs) (n : Fin nrInode) : Nat := (s.inodeTable n).iNum.toNat

def FileRequest.flat (s : Fs) (r : FileRequest) : FlatRequest Nat (Fin nrFileDesc) where
  isRead := decide (r.msg.type = .read)
  file := s.numberOf r.slot
  desc := r.desc
  cnt := r.cnt
  memory := r.user r.pid
  buf := r.msg.m3p2

/-- Descriptor `f` is on a file of `files`, whose inode is in slot `n`. -/
def OnFile (s : Fs) (files : Set Nat) (f : Fin nrFileDesc) (n : Fin nrInode) : Prop :=
  (s.fdTable f).fdInode = some n ∧ s.numberOf n ∈ files

/-- The files with the inode numbers `files` have sectors of their own behind the inodes, and the
cache has the inodes that descriptors are on once and as the disk has them. -/
structure FlatFs (s : Fs) (files : Set Nat) : Prop where
  number : ∀ nr ∈ files, 1 ≤ nr
  placed : ∀ nr ∈ files, sectorSize * inodeSect s.sb nr < 2 ^ 31
  front : ∀ nr ∈ files, ∀ k ∈ files, inodeSect s.sb nr < (storedInode s.sb s.disk k).startSect
  apart : ∀ nr ∈ files, ∀ k ∈ files, nr ≠ k →
    (storedInode s.sb s.disk nr).Apart (storedInode s.sb s.disk k)
  dev : ∀ f n, OnFile s files f n → (s.inodeTable n).iDev = rootDev
  cached : ∀ f n, OnFile s files f n →
    (s.inodeTable n).disk = storedInode s.sb s.disk (s.numberOf n)
  once : ∀ f n g m, OnFile s files f n → OnFile s files g m → s.numberOf n = s.numberOf m → n = m

/-- The arrays that the files are. -/
structure Represents (s : Fs) (files : Set Nat) (F : FlatFiles Nat (Fin nrFileDesc)) : Prop where
  size : ∀ nr ∈ files, (F.file nr).size = (storedInode s.sb s.disk nr).size
  data : ∀ nr ∈ files, ∀ i, i < sectorSize * (storedInode s.sb s.disk nr).nrSects →
    (F.file nr).data i = s.disk (sectorSize * (storedInode s.sb s.disk nr).startSect + i)
  pos : ∀ f n, OnFile s files f n → (s.fdTable f).fdPos = F.pos f

/-- A request to read or write a regular file whose sectors are as long as the buffer. -/
structure FileRequest.Ok (s : Fs) (files : Set Nat) (r : FileRequest) : Prop where
  desc : ∃ fd, FS.fdIndex r.msg.m3i1 = some fd ∧ s.filp r.pid fd = some r.desc
  file : OnFile s files r.desc r.slot
  mode : iTypeMask &&& (s.inodeTable r.slot).iMode = iRegular
  kind : r.msg.type = .read ∨ r.msg.type = .write
  cnt : r.msg.m3i2 = r.cnt
  int : InI32 r.msg.m3i2
  full : (s.inodeTable r.slot).iNrSects * sectorSize = fsbufSize
  sects : (s.inodeTable r.slot).iStartSect + (s.inodeTable r.slot).iNrSects < 2 ^ 32
  size : (s.inodeTable r.slot).iSize ≤ fsbufSize

/-- The part of the file that a request moves. -/
def FileRequest.span (s : Fs) (F : FlatFiles Nat (Fin nrFileDesc)) (r : FileRequest) : Span :=
  ⟨(s.inodeTable r.slot).iStartSect, F.pos r.desc, F.pos r.desc + F.moved (r.flat s),
    Nat.le_add_right _ _⟩

/-- The descriptor is for reading and writing, and the position on the disk of the sectors of each
round fits in a signed integer. -/
def FileRequest.Computable (s : Fs) (F : FlatFiles Nat (Fin nrFileDesc)) (r : FileRequest) : Prop :=
  oRdwr (s.fdTable r.desc).fdMode = true ∧ (r.span s F).Addressed rootDev

/-- What a request leaves: `F` are the arrays in front of it. -/
structure FileEffect (files : Set Nat) (s : Fs) (F : FlatFiles Nat (Fin nrFileDesc))
    (r : FileRequest) (s' : Fs) : Prop where
  layout : s'.layout = s.layout
  filp : s'.filp = s.filp
  rootInode : s'.rootInode = s.rootInode
  user : s'.user = Function.update r.user r.pid (F.memory (r.flat s))
  fdTable : s'.fdTable = Function.update s.fdTable r.desc { s.fdTable r.desc with
    fdPos := (F.pos r.desc + F.moved (r.flat s) : Nat) }
  inodeTable : s'.inodeTable = Function.update s.inodeTable r.slot { s.inodeTable r.slot with
    iSize := (F.fileAfter (r.flat s)).size }
  read : r.msg.type = .read → s'.disk = s.disk
  inFile : ∀ a, s'.disk a ≠ s.disk a → (∃ j < F.moved (r.flat s),
      a = sectorSize * (s.inodeTable r.slot).iStartSect + F.pos r.desc + j) ∨
    ∃ j < 16, a = inodePlace s.sb (s.numberOf r.slot) + j
  flat : FlatFs s' files
  represents : Represents s' files (F.after (r.flat s))

/-- FS answers all requests of a list, each with the number of bytes that it moves in the arrays. -/
def RefinesFlat (drv : FS.Drivers) (files : Set Nat) :
    Fs → FlatFiles Nat (Fin nrFileDesc) → List FileRequest → Prop
  | _, _, [] => True
  | s, F, r :: l => ∃ s', FS.doRdwt drv r.pid r.msg (s.asked r) =
      .ok ((F.moved (r.flat s) : Nat), r.msg) s' ∧ FileEffect files s F r s' ∧
    RefinesFlat drv files s' (F.after (r.flat s)) l

section Same

variable {s s' : Fs} {files : Set Nat} {f : Fin nrFileDesc} {n : Fin nrInode} {r : FileRequest}
  {F : FlatFiles Nat (Fin nrFileDesc)}

/-- Two states that differ in the sizes of inodes and the positions of descriptors. -/
structure SameFiles (s s' : Fs) : Prop where
  layout : s'.layout = s.layout
  filp : s'.filp = s.filp
  inode : ∀ n, ∃ size, s'.inodeTable n = { s.inodeTable n with iSize := size }
  desc : ∀ f, ∃ pos, s'.fdTable f = { s.fdTable f with fdPos := pos }

namespace SameFiles

theorem numberOf (h : SameFiles s s') (n : Fin nrInode) : s'.numberOf n = s.numberOf n := by
  obtain ⟨size, hn⟩ := h.inode n
  rw [Fs.numberOf, hn]
  rfl

theorem onFile (h : SameFiles s s') : OnFile s' files f n ↔ OnFile s files f n := by
  obtain ⟨pos, hf⟩ := h.desc f
  rw [OnFile, OnFile, h.numberOf, hf]

theorem flat (h : SameFiles s s') (r : FileRequest) : r.flat s' = r.flat s := by
  rw [FileRequest.flat, FileRequest.flat, h.numberOf]

theorem span (h : SameFiles s s') (r : FileRequest) : r.span s' F = r.span s F := by
  obtain ⟨size, hn⟩ := h.inode r.slot
  simp only [FileRequest.span, h.flat, hn]

theorem computable (h : SameFiles s s') : r.Computable s' F ↔ r.Computable s F := by
  obtain ⟨pos, hf⟩ := h.desc r.desc
  rw [FileRequest.Computable, FileRequest.Computable, h.span, hf]

theorem sect_eq (h : SameFiles s s') (nr : Nat) : inodeSect s'.sb nr = inodeSect s.sb nr := by
  have himap := congrArg SuperBlock.nrImapSects h.layout
  have hsmap := congrArg SuperBlock.nrSmapSects h.layout
  change s'.sb.nrImapSects = s.sb.nrImapSects at himap
  change s'.sb.nrSmapSects = s.sb.nrSmapSects at hsmap
  rw [inodeSect, inodeSect, himap, hsmap]

theorem place_eq (h : SameFiles s s') (nr : Nat) : inodePlace s'.sb nr = inodePlace s.sb nr := by
  rw [inodePlace, inodePlace, h.sect_eq]

theorem stored_eq (h : SameFiles s s') (d : Bytes) (nr : Nat) :
    storedInode s'.sb d nr = storedInode s.sb d nr := by
  rw [storedInode, storedInode, h.place_eq]

theorem ok (h : SameFiles s s') (hr : r.Ok s files)
    (hsize : (s'.inodeTable r.slot).iSize ≤ fsbufSize) : r.Ok s' files := by
  obtain ⟨size, hn⟩ := h.inode r.slot
  obtain ⟨hdesc, hfile, hmode, hkind, hcnt, hint, hfull, hsects, -⟩ := hr
  refine ⟨h.filp ▸ hdesc, h.onFile.mpr hfile, ?_, hkind, hcnt, hint, ?_, ?_, hsize⟩
  · rwa [hn]
  · rwa [hn]
  · rwa [hn]

theorem flatFs (h : SameFiles s s') (hs : FlatFs s files) {size : Nat → Nat}
    (hstored : ∀ nr ∈ files, storedInode s'.sb s'.disk nr =
      { storedInode s.sb s.disk nr with size := size nr })
    (hcached : ∀ f n, OnFile s files f n → (s'.inodeTable n).iSize = size (s.numberOf n)) :
    FlatFs s' files where
  number := hs.number
  placed nr hnr := by
    rw [h.sect_eq]
    exact hs.placed nr hnr
  front nr hnr k hk := by
    rw [h.sect_eq, hstored k hk]
    exact hs.front nr hnr k hk
  apart nr hnr k hk hne := by
    rw [hstored nr hnr, hstored k hk]
    exact hs.apart nr hnr k hk hne
  dev f n hf := by
    obtain ⟨size', hn⟩ := h.inode n
    rw [hn]
    exact hs.dev f n (h.onFile.mp hf)
  cached f n hf := by
    have hf' := h.onFile.mp hf
    obtain ⟨size', hn⟩ := h.inode n
    have hsize := hcached f n hf'
    rw [hn] at hsize
    rw [h.numberOf, hstored _ hf'.2, ← hs.cached f n hf', hn, ← hsize]
    rfl
  once f n g m hf hg heq := by
    rw [h.numberOf, h.numberOf] at heq
    exact hs.once f n g m (h.onFile.mp hf) (h.onFile.mp hg) heq

end SameFiles

end Same

section Requests

variable {drv : FS.Drivers} {s s' : Fs} {files : Set Nat} {r : FileRequest}
  {F : FlatFiles Nat (Fin nrFileDesc)} {b : Bytes}

theorem FileRequest.Ok.stored (hr : r.Ok s files) (hs : FlatFs s files) :
    storedInode s.sb s.disk (s.numberOf r.slot) = (s.inodeTable r.slot).disk :=
  (hs.cached _ _ hr.file).symm

theorem FileRequest.Ok.number_pos (hr : r.Ok s files) (hs : FlatFs s files) :
    1 ≤ s.numberOf r.slot := hs.number _ hr.file.2

theorem FileRequest.Ok.openRegular (hr : r.Ok s files) (hs : FlatFs s files) :
    OpenRegular (s.asked r) r.pid r.msg r.desc r.slot where
  desc := hr.desc
  inode := hr.file.1
  mode := hr.mode
  sync := by
    have hpos := hr.number_pos hs
    rw [Fs.numberOf] at hpos
    exact ⟨hs.dev _ _ hr.file, show 1 ≤ (s.inodeTable r.slot).iNum by omega,
      hs.placed _ hr.file.2⟩
  front := by
    have hfront := hs.front _ hr.file.2 _ hr.file.2
    rw [hr.stored hs] at hfront
    exact hfront
  sects := hr.sects

theorem FileRequest.Ok.size_eq (hr : r.Ok s files) (hs : FlatFs s files)
    (hF : Represents s files F) :
    (F.file (s.numberOf r.slot)).size = (s.inodeTable r.slot).iSize := by
  rw [hF.size _ hr.file.2, hr.stored hs]
  rfl

theorem FileRequest.Ok.data_eq (hr : r.Ok s files) (hs : FlatFs s files)
    (hF : Represents s files F) {i : Nat} (hi : i < fsbufSize) :
    (F.file (s.numberOf r.slot)).data i =
      s.disk (sectorSize * (s.inodeTable r.slot).iStartSect + i) := by
  have hdata := hF.data _ hr.file.2 i
  rw [hr.stored hs] at hdata
  refine hdata ?_
  rw [← hr.full, Nat.mul_comm] at hi
  exact hi

theorem sameFiles_delivered (s : Fs) (r : FileRequest) (x : Span) (m : Nat) (b : Bytes) :
    SameFiles s ((s.asked r).delivered x r.pid r.msg.m3p2 r.desc m b) where
  layout := rfl
  filp := rfl
  inode n := ⟨_, rfl⟩
  desc f := by
    by_cases hf : f = r.desc
    · subst hf
      exact ⟨_, Function.update_self ..⟩
    · exact ⟨_, Function.update_of_ne hf _ _⟩

theorem fileEffect_delivered (hs : FlatFs s files) (hF : Represents s files F) (hr : r.Ok s files)
    (hread : r.msg.type = .read) (b : Bytes) :
    FileEffect files s F r ((s.asked r).delivered (r.span s F) r.pid r.msg.m3p2 r.desc
      (F.moved (r.flat s)) b) := by
  have hflat : (r.flat s).isRead = true := decide_eq_true hread
  have hsame := sameFiles_delivered s r (r.span s F) (F.moved (r.flat s)) b
  have hsize := hr.size_eq hs hF
  have hfile : F.fileAfter (r.flat s) = F.file (s.numberOf r.slot) := FlatFiles.fileAfter_read hflat
  have hmoved := FlatFiles.moved_read (F := F) hflat
  refine ⟨rfl, rfl, rfl, ?_, rfl, ?_, fun _ => rfl, fun a ha => absurd rfl ha, ?_, ?_, ?_, ?_⟩
  · rw [FlatFiles.memory_read hflat]
    change Function.update r.user r.pid _ = _
    refine congrArg _ (copyBytes_congr fun i hi => ?_).symm
    have hlt : F.pos r.desc + i < fsbufSize := by
      have hle := hr.size
      rw [← hsize] at hle
      change F.moved (r.flat s) = min r.cnt ((F.file (s.numberOf r.slot)).size - F.pos r.desc)
        at hmoved
      omega
    rw [Nat.add_assoc]
    exact hr.data_eq hs hF hlt
  · rw [hfile, hsize, Function.update_eq_self]
    rfl
  · refine @SameFiles.flatFs _ _ files hsame hs (fun nr => (storedInode s.sb s.disk nr).size)
      (fun _ _ => rfl) fun f n hf => ?_
    rw [← hs.cached f n hf]
    rfl
  · intro nr hnr
    rw [FlatFiles.file_after_read hflat]
    exact hF.size nr hnr
  · intro nr hnr
    rw [FlatFiles.file_after_read hflat]
    exact hF.data nr hnr
  · intro f n hf
    change (Function.update s.fdTable r.desc _ f).fdPos = (Function.update F.pos r.desc _ f : Nat)
    by_cases hd : f = r.desc
    · subst hd
      rw [Function.update_self, Function.update_self]
      rfl
    · rw [Function.update_of_ne hd, Function.update_of_ne hd]
      exact hF.pos f n (hsame.onFile.mp hf)

theorem FileRequest.Ok.buffered (hr : r.Ok s files) (hs : FlatFs s files)
    (hF : Represents s files F) (hread : (r.flat s).isRead = true)
    (hin : F.InRange fsbufSize (r.flat s)) : (r.span s F).Buffered := by
  have hsize := hr.size_eq hs hF
  have hle := hr.size
  have hmoved := FlatFiles.moved_read (F := F) hread
  change F.moved (r.flat s) = min r.cnt ((F.file (s.numberOf r.slot)).size - F.pos r.desc)
    at hmoved
  rw [FlatFiles.InRange, if_pos hread] at hin
  change F.pos r.desc ≤ (F.file (s.numberOf r.slot)).size at hin
  right
  change F.pos r.desc % sectorSize + (F.pos r.desc + F.moved (r.flat s) - F.pos r.desc) ≤ fsbufSize
  have hmod := Nat.mod_le (F.pos r.desc) sectorSize
  omega

theorem FileRequest.Ok.sectBeg_lt (hr : r.Ok s files) (hs : FlatFs s files)
    (hpos : F.pos r.desc ≤ fsbufSize) : (r.span s F).sectBeg < 2 ^ 32 := by
  rw [← hr.full] at hpos
  exact (hr.openRegular hs).sectBeg_lt hpos

theorem doRdwt_read (hs : FlatFs s files) (hF : Represents s files F) (hr : r.Ok s files)
    (hread : r.msg.type = .read) (hin : F.InRange fsbufSize (r.flat s)) :
    (∃ s', FS.doRdwt drv r.pid r.msg (s.asked r) = .ok ((F.moved (r.flat s) : Nat), r.msg) s' ∧
      FileEffect files s F r s') ↔ r.Computable s F := by
  have hflat : (r.flat s).isRead = true := decide_eq_true hread
  have hopen := hr.openRegular hs
  have hbuffered := hr.buffered hs hF hflat hin
  have hsize := hr.size_eq hs hF
  have hle := hr.size
  have hdev : (s.inodeTable r.slot).iDev = rootDev := hs.dev _ _ hr.file
  have hpos : ((s.asked r).fdTable r.desc).fdPos = (r.span s F).pos := hF.pos _ _ hr.file
  have hmoved := FlatFiles.moved_read (F := F) hflat
  change F.moved (r.flat s) = min r.cnt ((F.file (s.numberOf r.slot)).size - F.pos r.desc)
    at hmoved
  rw [FlatFiles.InRange, if_pos hflat] at hin
  change F.pos r.desc ≤ (F.file (s.numberOf r.slot)).size at hin
  have hend : (r.span s F).posEnd =
      min ((s.asked r).inodeTable r.slot).iSize ((r.span s F).pos + r.cnt) := by
    change F.pos r.desc + F.moved (r.flat s) =
      min (s.inodeTable r.slot).iSize (F.pos r.desc + r.cnt)
    omega
  have htotal : (r.span s F).total = F.moved (r.flat s) := Nat.add_sub_cancel_left ..
  have hf : fsbufSize = 1048576 := rfl
  have hint := hr.int
  rw [hr.cnt, InI32] at hint
  have hsum : (r.span s F).pos + r.cnt < 2 ^ 32 := by
    change F.pos r.desc + r.cnt < 2 ^ 32
    omega
  have hfit : (r.span s F).posEnd < 2 ^ 31 := by
    change F.pos r.desc + F.moved (r.flat s) < 2 ^ 31
    omega
  have hspec := @FS.readFile_spec (s.asked r) (r.span s F) r.pid r.msg r.desc r.slot r.cnt hread
    hr.cnt rfl hpos hsum hfit hend (hr.sectBeg_lt hs (by omega)) hopen.sync
  change Prog.wp _ (fun v s' => ((r.span s F).Addressed (s.inodeTable r.slot).iDev → _) ∧
    (_ → (r.span s F).Addressed (s.inodeTable r.slot).iDev ∧ _))
    (fun _ _ => ¬ (r.span s F).Addressed (s.inodeTable r.slot).iDev) _ at hspec
  rw [hdev, htotal] at hspec
  constructor
  · rintro ⟨s', hrun, -⟩
    have hmode := FS.oRdwr_of_doRdwt hopen hrun (Int.natCast_nonneg _)
    have hfile := FS.rdwtFile_of_doRdwt hopen hmode hrun
    exact ⟨hmode, ((wp_ok hspec hfile).2 rfl).1⟩
  · rintro ⟨hmode, haddr⟩
    obtain ⟨v, s', hfile, hval, hpost⟩ := exists_ok_of_wp (wp_mono hspec (fun _ _ h => h)
      fun _ _ hbad => hbad haddr)
    obtain ⟨b, rfl⟩ := (hpost (hval haddr)).2.delivered hbuffered
    have hrun := @FS.doRdwt_of_rdwtFile drv _ _ _ _ _ hopen hmode _ _ hfile
    rw [hval haddr] at hrun
    exact ⟨_, hrun, fileEffect_delivered hs hF hr hread b⟩

end Requests

section Writes

variable {drv : FS.Drivers} {s s' : Fs} {files : Set Nat} {r : FileRequest}
  {F : FlatFiles Nat (Fin nrFileDesc)}

/-- The disk with the bytes of a write in the sectors of its file. -/
def FileRequest.copied (s : Fs) (F : FlatFiles Nat (Fin nrFileDesc)) (r : FileRequest) : Bytes :=
  copyBytes s.disk (sectorSize * (s.inodeTable r.slot).iStartSect + F.pos r.desc) (r.user r.pid)
    r.msg.m3p2 r.cnt

def FileRequest.newSize (s : Fs) (F : FlatFiles Nat (Fin nrFileDesc)) (r : FileRequest) : Nat :=
  max (s.inodeTable r.slot).iSize (F.pos r.desc + r.cnt)

/-- A write has stored its bytes and the size, which may be what it was. -/
structure FileWritten (s : Fs) (F : FlatFiles Nat (Fin nrFileDesc)) (r : FileRequest) (s' : Fs) :
    Prop where
  layout : s'.layout = s.layout
  filp : s'.filp = s.filp
  rootInode : s'.rootInode = s.rootInode
  user : s'.user = r.user
  fdTable : s'.fdTable = Function.update s.fdTable r.desc { s.fdTable r.desc with
    fdPos := (F.pos r.desc + r.cnt : Nat) }
  inodeTable : s'.inodeTable = Function.update s.inodeTable r.slot { s.inodeTable r.slot with
    iSize := r.newSize s F }
  disk : ∀ a, a < inodePlace s.sb (s.numberOf r.slot) ∨
    inodePlace s.sb (s.numberOf r.slot) + 16 ≤ a → s'.disk a = r.copied s F a
  stored : storedInode s.sb s'.disk (s.numberOf r.slot) =
    { (s.inodeTable r.slot).disk with size := r.newSize s F }

theorem FlatFs.inodePlace_le (hs : FlatFs s files) {nr k : Nat} (hnr : nr ∈ files)
    (hk : k ∈ files) :
    inodePlace s.sb k + 16 ≤ sectorSize * (storedInode s.sb s.disk nr).startSect := by
  have hs512 : sectorSize = 512 := rfl
  have hi : inodeSize = 32 := rfl
  have hoff := inodeOff_le k
  have hfront := hs.front k hk nr hnr
  rw [hs512, hi] at hoff
  rw [inodePlace, hs512]
  omega

theorem FileRequest.Ok.stored_copied (hr : r.Ok s files) (hs : FlatFs s files) {k : Nat}
    (hk : k ∈ files) : storedInode s.sb (r.copied s F) k = storedInode s.sb s.disk k := by
  have hplace := hs.inodePlace_le hr.file.2 hk
  rw [hr.stored hs] at hplace
  change _ ≤ sectorSize * (s.inodeTable r.slot).iStartSect at hplace
  apply diskInodeAt_shift
  intro j hj
  exact copyBytes_of_lt (by omega)

theorem fileWritten_of_stored (hs : FlatFs s files) (hr : r.Ok s files)
    (hin : F.pos r.desc + r.cnt ≤ fsbufSize) {b b' : Bytes}
    (hs' : if (s.inodeTable r.slot).iSize < F.pos r.desc + r.cnt
      then s' = ((s.asked r).stored (r.span s F) r.pid r.msg.m3p2 r.desc r.cnt b).resized r.slot
        (F.pos r.desc + r.cnt) b'
      else s' = (s.asked r).stored (r.span s F) r.pid r.msg.m3p2 r.desc r.cnt b) :
    FileWritten s F r s' := by
  have hstored := hr.stored hs
  have hcopied := hr.stored_copied (F := F) hs hr.file.2
  rw [hstored] at hcopied
  split at hs'
  · rename_i hgrow
    subst hs'
    have hsize : r.newSize s F = F.pos r.desc + r.cnt := Nat.max_eq_right (Nat.le_of_lt hgrow)
    have hfits : (s.inodeTable r.slot).disk.Fits := hstored ▸ diskInodeAt_fits _ _
    have hf : fsbufSize = 1048576 := rfl
    have hnew : ({ s.inodeTable r.slot with iSize := F.pos r.desc + r.cnt } : Inode).disk.Fits :=
      ⟨hfits.1, show F.pos r.desc + r.cnt < 2 ^ 32 by omega, hfits.2.2⟩
    refine ⟨rfl, rfl, rfl, rfl, rfl, ?_, ?_, ?_⟩
    · rw [hsize]
      rfl
    · rintro a (hlt | hge)
      · exact putBytes_of_lt hlt
      · exact putBytes_of_ge hge
    · rw [hsize]
      exact storedInode_put hnew
  · rename_i hkeep
    subst hs'
    have hsize : r.newSize s F = (s.inodeTable r.slot).iSize :=
      Nat.max_eq_left (Nat.le_of_not_lt hkeep)
    refine ⟨rfl, rfl, rfl, rfl, rfl, ?_, fun _ _ => rfl, ?_⟩
    · rw [hsize, Function.update_eq_self]
      rfl
    · rw [hsize]
      exact hcopied

namespace FileWritten

theorem sameFiles (h : FileWritten s F r s') : SameFiles s s' where
  layout := h.layout
  filp := h.filp
  inode n := by
    rw [h.inodeTable]
    by_cases hn : n = r.slot
    · subst hn
      exact ⟨_, Function.update_self ..⟩
    · exact ⟨_, Function.update_of_ne hn _ _⟩
  desc f := by
    rw [h.fdTable]
    by_cases hf : f = r.desc
    · subst hf
      exact ⟨_, Function.update_self ..⟩
    · exact ⟨_, Function.update_of_ne hf _ _⟩

theorem stored_of_ne (h : FileWritten s F r s') (hs : FlatFs s files) (hr : r.Ok s files) {k : Nat}
    (hk : k ∈ files) (hne : k ≠ s.numberOf r.slot) :
    storedInode s.sb s'.disk k = storedInode s.sb s.disk k := by
  have hapart : inodePlace s.sb k + 16 ≤ inodePlace s.sb (s.numberOf r.slot) ∨
      inodePlace s.sb (s.numberOf r.slot) + 16 ≤ inodePlace s.sb k :=
    inodePlace_apart (hs.number k hk) (hr.number_pos hs) hne
  rw [← hr.stored_copied (F := F) hs hk]
  apply diskInodeAt_shift
  intro j hj
  exact h.disk _ (by omega)

theorem disk_behind (h : FileWritten s F r s') (hs : FlatFs s files) (hr : r.Ok s files) {k i : Nat}
    (hk : k ∈ files) :
    s'.disk (sectorSize * (storedInode s.sb s.disk k).startSect + i) =
      r.copied s F (sectorSize * (storedInode s.sb s.disk k).startSect + i) := by
  have hplace := hs.inodePlace_le hk hr.file.2
  exact h.disk _ (.inr (by omega))

theorem fileEffect (h : FileWritten s F r s') (hs : FlatFs s files) (hF : Represents s files F)
    (hr : r.Ok s files) (hwrite : r.msg.type = .write) (hin : F.pos r.desc + r.cnt ≤ fsbufSize) :
    FileEffect files s F r s' := by
  have hs512 : sectorSize = 512 := rfl
  have hkind : r.msg.type ≠ .read := by
    rw [hwrite]
    decide
  have hflat : (r.flat s).isRead = false := decide_eq_false hkind
  have hsame := h.sameFiles
  have hmoved : F.moved (r.flat s) = r.cnt := FlatFiles.moved_write hflat
  have hfile : F.fileAfter (r.flat s) =
      (F.file (s.numberOf r.slot)).write (F.pos r.desc) (r.user r.pid) r.msg.m3p2 r.cnt :=
    FlatFiles.fileAfter_write hflat
  have hself : (F.after (r.flat s)).file (s.numberOf r.slot) = F.fileAfter (r.flat s) :=
    FlatFiles.file_after_self
  have hother : ∀ k, k ≠ s.numberOf r.slot → (F.after (r.flat s)).file k = F.file k :=
    fun _ hne => FlatFiles.file_after_of_ne hne
  have hsize : (F.fileAfter (r.flat s)).size = r.newSize s F := by
    rw [hfile, FlatFile.write, hr.size_eq hs hF]
    rfl
  have hnumber := hr.stored hs
  have hstored : ∀ nr ∈ files, storedInode s'.sb s'.disk nr =
      { storedInode s.sb s.disk nr with size := ((F.after (r.flat s)).file nr).size } := by
    intro nr hnr
    rw [hsame.stored_eq]
    by_cases hne : nr = s.numberOf r.slot
    · subst hne
      rw [h.stored, hself, hsize, hnumber]
    · rw [h.stored_of_ne hs hr hnr hne, hother nr hne, hF.size nr hnr]
  refine ⟨h.layout, h.filp, h.rootInode, ?_, ?_, ?_, fun hread => absurd hread hkind, ?_, ?_, ?_,
    ?_, ?_⟩
  · rw [h.user, FlatFiles.memory_write hflat]
    exact (Function.update_eq_self ..).symm
  · rw [h.fdTable, hmoved]
  · rw [h.inodeTable, hsize]
  · intro a ha
    by_contra hout
    rw [not_or, not_exists, not_exists] at hout
    refine ha ((h.disk a ?_).trans ?_)
    · by_contra hin
      exact hout.2 (a - inodePlace s.sb (s.numberOf r.slot)) ⟨by omega, by omega⟩
    · have hplace : a < sectorSize * (s.inodeTable r.slot).iStartSect + F.pos r.desc ∨
          sectorSize * (s.inodeTable r.slot).iStartSect + F.pos r.desc + r.cnt ≤ a := by
        by_contra hin
        exact hout.1 (a - (sectorSize * (s.inodeTable r.slot).iStartSect + F.pos r.desc))
          ⟨by omega, by omega⟩
      exact hplace.elim copyBytes_of_lt copyBytes_of_ge
  · refine hsame.flatFs hs hstored fun f n hf => ?_
    rw [h.inodeTable]
    by_cases hn : n = r.slot
    · subst hn
      rw [Function.update_self, hself, hsize]
    · have hne : s.numberOf n ≠ s.numberOf r.slot := fun heq => hn (hs.once _ _ _ _ hf hr.file heq)
      rw [Function.update_of_ne hn, hother _ hne, hF.size _ hf.2, ← hs.cached f n hf]
      rfl
  · intro nr hnr
    rw [hstored nr hnr]
  · intro nr hnr i hi
    rw [hstored nr hnr] at hi ⊢
    change i < sectorSize * (storedInode s.sb s.disk nr).nrSects at hi
    change _ = s'.disk (sectorSize * (storedInode s.sb s.disk nr).startSect + i)
    rw [h.disk_behind hs hr hnr]
    by_cases hne : nr = s.numberOf r.slot
    · subst hne
      rw [hself, hfile]
      rw [hnumber] at hi ⊢
      change copyBytes _ _ _ _ _ i = copyBytes _ (sectorSize * (s.inodeTable r.slot).iStartSect + _)
        _ _ _ (sectorSize * (s.inodeTable r.slot).iStartSect + i)
      rw [copyBytes_shift, copyBytes, copyBytes]
      refine ite_congr rfl (fun _ => rfl) fun _ => hr.data_eq hs hF ?_
      rw [← hr.full, Nat.mul_comm]
      exact hi
    · rw [hother nr hne, hF.data nr hnr i hi]
      have hapart := hs.apart nr hnr _ hr.file.2 hne
      have hfull := hr.full
      rw [hnumber, DiskInode.Apart] at hapart
      change _ ≤ (s.inodeTable r.slot).iStartSect ∨
        (s.inodeTable r.slot).iStartSect + (s.inodeTable r.slot).iNrSects ≤ _ at hapart
      rw [hs512] at hi hfull ⊢
      rcases hapart with hbefore | hbehind
      · exact (copyBytes_of_lt (by rw [hs512]; omega)).symm
      · exact (copyBytes_of_ge (by rw [hs512]; omega)).symm
  · intro f n hf
    rw [h.fdTable]
    change _ = ((Function.update F.pos r.desc (F.pos r.desc + F.moved (r.flat s)) f : Nat) : Int)
    rw [hmoved]
    by_cases hd : f = r.desc
    · subst hd
      rw [Function.update_self, Function.update_self]
    · rw [Function.update_of_ne hd, Function.update_of_ne hd]
      exact hF.pos f n (hsame.onFile.mp hf)

end FileWritten

theorem doRdwt_write (hs : FlatFs s files) (hF : Represents s files F) (hr : r.Ok s files)
    (hwrite : r.msg.type = .write) (hin : F.InRange fsbufSize (r.flat s)) :
    (∃ s', FS.doRdwt drv r.pid r.msg (s.asked r) = .ok ((F.moved (r.flat s) : Nat), r.msg) s' ∧
      FileEffect files s F r s') ↔ r.Computable s F := by
  have hkind : r.msg.type ≠ .read := by
    rw [hwrite]
    decide
  have hflat : (r.flat s).isRead = false := decide_eq_false hkind
  have hopen := hr.openRegular hs
  have hdev : (s.inodeTable r.slot).iDev = rootDev := hs.dev _ _ hr.file
  have hpos : ((s.asked r).fdTable r.desc).fdPos = (r.span s F).pos := hF.pos _ _ hr.file
  have hmoved : F.moved (r.flat s) = r.cnt := FlatFiles.moved_write hflat
  have hrange : F.pos r.desc + r.cnt ≤ fsbufSize := by
    rw [FlatFiles.InRange, hflat] at hin
    exact hin
  have hf : fsbufSize = 1048576 := rfl
  have hend : (r.span s F).posEnd = (r.span s F).pos + r.cnt := by
    rw [← hmoved]
    rfl
  have hspec := FS.writeFile_spec (s := s.asked r) (p := r.pid) hwrite hr.cnt rfl hpos hend
    (hrange.trans_eq hr.full.symm) (Nat.le_of_eq hr.full) (hr.sectBeg_lt hs (by omega))
    hopen.sync
  change Prog.wp _ (fun v s' => ((r.span s F).Addressed (s.inodeTable r.slot).iDev → _) ∧
    (_ → (r.span s F).Addressed (s.inodeTable r.slot).iDev ∧ _))
    (fun _ _ => ¬ (r.span s F).Addressed (s.inodeTable r.slot).iDev) _ at hspec
  rw [hdev] at hspec
  rw [hmoved]
  constructor
  · rintro ⟨s', hrun, -⟩
    have hmode := FS.oRdwr_of_doRdwt hopen hrun (Int.natCast_nonneg _)
    have hfile := FS.rdwtFile_of_doRdwt hopen hmode hrun
    obtain ⟨haddr, -⟩ := (wp_ok hspec hfile).2 rfl
    exact ⟨hmode, haddr⟩
  · rintro ⟨hmode, haddr⟩
    obtain ⟨v, s', hfile, hval, hpost⟩ := exists_ok_of_wp (wp_mono hspec (fun _ _ h => h)
      fun _ _ hbad => hbad haddr)
    obtain ⟨-, b, b', hs'⟩ := hpost (hval haddr)
    have hrun := @FS.doRdwt_of_rdwtFile drv _ _ _ _ _ hopen hmode _ _ hfile
    rw [hval haddr] at hrun
    exact ⟨s', hrun, (fileWritten_of_stored hs hr hrange hs').fileEffect hs hF hr hwrite hrange⟩

/-- A request has the effect that it has on the arrays exactly where the code can compute it. -/
theorem doRdwt_flat (hs : FlatFs s files) (hF : Represents s files F) (hr : r.Ok s files)
    (hin : F.InRange fsbufSize (r.flat s)) :
    (∃ s', FS.doRdwt drv r.pid r.msg (s.asked r) = .ok ((F.moved (r.flat s) : Nat), r.msg) s' ∧
      FileEffect files s F r s') ↔ r.Computable s F := by
  rcases hr.kind with hread | hwrite
  · exact doRdwt_read hs hF hr hread hin
  · exact doRdwt_write hs hF hr hwrite hin

end Writes

section Runs

variable {drv : FS.Drivers} {s s' : Fs} {files : Set Nat} {r : FileRequest}
  {F : FlatFiles Nat (Fin nrFileDesc)} {l : List FileRequest}

theorem FileEffect.sameFiles (h : FileEffect files s F r s') : SameFiles s s' where
  layout := h.layout
  filp := h.filp
  inode n := by
    rw [h.inodeTable]
    by_cases hn : n = r.slot
    · subst hn
      exact ⟨_, Function.update_self ..⟩
    · exact ⟨_, Function.update_of_ne hn _ _⟩
  desc f := by
    rw [h.fdTable]
    by_cases hf : f = r.desc
    · subst hf
      exact ⟨_, Function.update_self ..⟩
    · exact ⟨_, Function.update_of_ne hf _ _⟩

theorem FileEffect.ok (h : FileEffect files s F r s') (hs : FlatFs s files)
    (hF : Represents s files F) (hr : r.Ok s files) (hin : F.InRange fsbufSize (r.flat s))
    {q : FileRequest} (hq : q.Ok s files) : q.Ok s' files := by
  refine h.sameFiles.ok hq ?_
  rw [h.inodeTable]
  by_cases hn : q.slot = r.slot
  · rw [hn, Function.update_self]
    have hle : (F.file (r.flat s).file).size ≤ fsbufSize := (hr.size_eq hs hF).trans_le hr.size
    have hafter := hin.size_le hle
    rw [FlatFiles.file_after_self] at hafter
    exact hafter
  · rw [Function.update_of_ne hn]
    exact hq.size

/-- Requests in the range of their files are answered as those on arrays of bytes, exactly where
each of them is one that the code can compute. -/
theorem refinesFlat_iff (hs : FlatFs s files) (hF : Represents s files F)
    (hl : ∀ r ∈ l, r.Ok s files)
    (hin : F.Each (FileRequest.flat s) (fun F r => F.InRange fsbufSize (r.flat s)) l) :
    RefinesFlat drv files s F l ↔ F.Each (FileRequest.flat s) (fun F r => r.Computable s F) l := by
  induction l generalizing s F with
  | nil => exact Iff.rfl
  | cons r l ih =>
    obtain ⟨hin, hrest⟩ := hin
    have hr := hl r (List.mem_cons_self ..)
    have hlater : ∀ {s'}, FileEffect files s F r s' →
        (RefinesFlat drv files s' (F.after (r.flat s)) l ↔
          (F.after (r.flat s)).Each (FileRequest.flat s) (fun F r => r.Computable s F) l) := by
      intro s' h
      have hsame := h.sameFiles
      have hflat : FileRequest.flat s' = FileRequest.flat s := funext hsame.flat
      have hcomp : (fun F (r : FileRequest) => r.Computable s' F) = fun F r => r.Computable s F :=
        funext fun F => funext fun r => propext hsame.computable
      have hok : ∀ q ∈ l, q.Ok s' files := fun q hq =>
        h.ok hs hF hr hin (hl q (List.mem_cons_of_mem _ hq))
      have hnext := ih h.flat h.represents hok
      rw [hflat, hcomp] at hnext
      exact hnext hrest
    constructor
    · rintro ⟨s', hrun, heffect, hnext⟩
      exact ⟨(doRdwt_flat hs hF hr hin).mp ⟨s', hrun, heffect⟩, (hlater heffect).mp hnext⟩
    · rintro ⟨hcomp, hnext⟩
      obtain ⟨s', hrun, heffect⟩ := (doRdwt_flat hs hF hr hin).mpr hcomp
      exact ⟨s', hrun, heffect, (hlater heffect).mpr hnext⟩

theorem one_lt_nrFileDesc : 1 < nrFileDesc := by decide

/-- The file system with one file, of `size` bytes from sector `start` on, on which all descriptors
are at `pos`. -/
def flatOne (start size pos : Nat) : Fs :=
  let sb : SuperBlock := { nrImapSects := 1, nrSmapSects := 1026, n1stSect := 1285 }
  { oneFile size pos with
    sb
    inodeTable := fun _ =>
      { iMode := iRegular, iSize := size, iStartSect := start, iNrSects := 2048, iDev := rootDev
        iCnt := 1, iNum := 2 }
    filp := fun _ i => some ⟨i.val, i.isLt⟩
    disk := putBytes (fun _ => 0) (inodePlace sb 2)
      (DiskInode.bytes ⟨iRegular, size, start, 2048⟩) }

theorem storedInode_flatOne {start size : Nat} (hstart : start < 2 ^ 32) (h : size ≤ fsbufSize)
    (pos : Nat) : storedInode (flatOne start size pos).sb (flatOne start size pos).disk 2 =
      ⟨iRegular, size, start, 2048⟩ := by
  have hf : fsbufSize = 1048576 := rfl
  exact storedInode_put ⟨show iRegular < 2 ^ 32 by decide, show size < 2 ^ 32 by omega,
    hstart, show 2048 < 2 ^ 32 by decide⟩

theorem flatFs_flatOne {start size : Nat} (hfront : 1029 < start) (hstart : start < 2 ^ 32)
    (h : size ≤ fsbufSize) (pos : Nat) : FlatFs (flatOne start size pos) {2} where
  number := by
    rintro nr rfl
    decide
  placed := by
    rintro nr rfl
    exact show sectorSize * 1029 < 2 ^ 31 by decide
  front := by
    rintro nr rfl k rfl
    rw [storedInode_flatOne hstart h]
    exact hfront
  apart := by
    rintro nr rfl k rfl hne
    exact absurd rfl hne
  dev _ _ _ := rfl
  cached _ _ _ := (storedInode_flatOne hstart h pos).symm
  once f n g m hf hg _ := Option.some.inj (hf.1.symm.trans hg.1)

def flatOneFiles (start size pos : Nat) : FlatFiles Nat (Fin nrFileDesc) where
  file _ := ⟨fun i => (flatOne start size pos).disk (sectorSize * start + i), size⟩
  pos _ := pos

theorem represents_flatOne {start size : Nat} (hstart : start < 2 ^ 32) (h : size ≤ fsbufSize)
    (pos : Nat) : Represents (flatOne start size pos) {2} (flatOneFiles start size pos) where
  size := by
    rintro nr rfl
    rw [storedInode_flatOne hstart h]
    rfl
  data := by
    rintro nr rfl i -
    rw [storedInode_flatOne hstart h]
    rfl
  pos _ _ _ := rfl

/-- A request of `INIT` on a descriptor of the only file. -/
def flatOneRequest (t : MsgType) (fd : Fin nrFileDesc) (cnt : Nat) : FileRequest where
  pid := init
  msg := { type := t, m3i1 := fd.val, m3i2 := cnt }
  user := fun _ _ => 0
  desc := fd
  slot := ⟨0, nrInode_pos⟩
  cnt := cnt

theorem flatOneRequest_ok {t : MsgType} (ht : t = .read ∨ t = .write) {start size : Nat}
    (hsects : start + 2048 < 2 ^ 32) (h : size ≤ fsbufSize) (pos : Nat) (fd : Fin nrFileDesc)
    {cnt : Nat} (hcnt : cnt < 0x80000000) :
    (flatOneRequest t fd cnt).Ok (flatOne start size pos) {2} where
  desc := by
    have hfd : 0 ≤ (fd.val : Int) ∧ (fd.val : Int).toNat < nrFiles :=
      ⟨Int.natCast_nonneg _, fd.isLt⟩
    exact ⟨⟨fd.val, fd.isLt⟩, dif_pos hfd, rfl⟩
  file := ⟨rfl, rfl⟩
  mode := show iTypeMask &&& iRegular = iRegular by decide
  kind := ht
  cnt := rfl
  int := by
    change InI32 (cnt : Int)
    unfold InI32
    omega
  full := show 2048 * sectorSize = fsbufSize by decide
  sects := hsects
  size := h

/-- 100 bytes are written by one descriptor, and another one reads with the largest count. -/
def writeThenRead : List FileRequest :=
  [flatOneRequest .write ⟨0, nrFileDesc_pos⟩ 100,
    flatOneRequest .read ⟨1, one_lt_nrFileDesc⟩ 0x7fffffff]

theorem refinesFlat_flatOne :
    RefinesFlat (fun _ m => m) {2} (flatOne 3333 1 1) (flatOneFiles 3333 1 1) writeThenRead := by
  have hfull : 1 ≤ fsbufSize := by decide
  have hok : ∀ r ∈ writeThenRead, r.Ok (flatOne 3333 1 1) {2} := by
    intro r hr
    rcases List.mem_pair.mp hr with rfl | rfl
    · exact flatOneRequest_ok (.inr rfl) (by decide) hfull 1 _ (by decide)
    · exact flatOneRequest_ok (.inl rfl) (by decide) hfull 1 _ (by decide)
  have hin : (flatOneFiles 3333 1 1).Each (FileRequest.flat (flatOne 3333 1 1))
      (fun F r => F.InRange fsbufSize (r.flat (flatOne 3333 1 1))) writeThenRead :=
    ⟨show 1 + 100 ≤ fsbufSize by decide, show 1 ≤ max 1 (1 + 100) by decide, trivial⟩
  refine (refinesFlat_iff (flatFs_flatOne (by decide) (by decide) hfull 1)
    (represents_flatOne (by decide) hfull 1) hok hin).mpr ⟨⟨by decide, ?_⟩, ⟨by decide, ?_⟩, trivial⟩
  · exact Span.addressed_of_le _ (by decide)
  · exact Span.addressed_of_le _ (by decide)

/-- A read of 100 bytes of a file whose first sector is 2^22. -/
theorem not_refinesFlat_flatOne : ¬ RefinesFlat (fun _ m => m) {2} (flatOne 0x400000 100 0)
    (flatOneFiles 0x400000 100 0) [flatOneRequest .read ⟨0, nrFileDesc_pos⟩ 100] := by
  rintro ⟨s', hrun, heffect, -⟩
  have hsize : 100 ≤ fsbufSize := by decide
  have hstart : 0x400000 < 2 ^ 32 := by decide
  have hin : (flatOneFiles 0x400000 100 0).InRange fsbufSize
      ((flatOneRequest .read ⟨0, nrFileDesc_pos⟩ 100).flat (flatOne 0x400000 100 0)) :=
    Nat.zero_le 100
  have hcomp := (doRdwt_flat (flatFs_flatOne (by decide) hstart hsize 0)
    (represents_flatOne hstart hsize 0)
    (flatOneRequest_ok (.inl rfl) (by decide) hsize 0 ⟨0, nrFileDesc_pos⟩ (by decide))
    hin).mp ⟨s', hrun, heffect⟩
  have hfirst := hcomp.2 0 (Nat.succ_pos _)
  exact absurd hfirst.2 (show ¬ sectorSize * 0x400000 < 2 ^ 31 by decide)

end Runs

end BazingaOS
