import BazingaOS.FS.Layout
import BazingaOS.FS.Release
import BazingaOS.Lib.Run

/-!
# File systems that are in use

`init_fs` of `fs/main.c` makes a file system on a disk that has none and mounts it. The states
behind it are those that creating, opening, closing and removing files leads to; none of these
changes the super block but for the device that was asked for last.
-/

namespace BazingaOS

open Prog

/-- The super block but for its device. -/
def Fs.layout (s : Fs) : SuperBlock := s.sb.layout

instance : CountView Fs.layout where
  disk _ _ := rfl
  buf _ _ := rfl
  sbDev _ _ := rfl
  user _ _ := rfl
  inode _ _ _ _ := rfl
  desc _ _ _ _ := rfl

/-- A program that leaves the super block alone but for its device. -/
abbrev KeepsLayout {α : Type} (p : Prog Fs α) : Prop := KeepsView Fs.layout p

namespace FS

def readSuperBlock (dev : Nat) : Prog Fs Unit := do
  onDev dev (rdSect 1)
  modify fun s => { s with sb := { superBlockAt s.fsbuf 0 with sbDev := dev } }

/-- `size` is the answer of the disk driver to `DIOCTL_GET_GEO`. -/
def initFs (size : Nat) : Prog Fs Unit := do
  modify fun s => { s with fdTable := fun _ => {}, inodeTable := fun _ => {} }
  rdSect 1
  when ((superBlockAt (← get).fsbuf 0).magic ≠ magicV1) (mkfs size)
  readSuperBlock rootDev
  let sb ← getSuperBlock rootDev
  check (sb.magic = magicV1)
  let r ← getInode rootDev rootInodeNr
  modify fun s => { s with rootInode := some r }

/-- The requests that create, open, close and remove files. -/
inductive FileCall where
  | open
  | close
  | unlink

def FileCall.run : FileCall → Pid → Message → Prog Fs Int
  | .open => doOpen
  | .close => doClose
  | .unlink => doUnlink

/-- A request of a process that has been answered. -/
def Answered (s : Fs) (c : FileCall × Pid × Message) (s' : Fs) : Prop :=
  ∃ r, c.1.run c.2.1 c.2.2 s = .ok r s'

end FS

/-- A file system of `size` sectors that has just been made and mounted. -/
def Fs.Mounted (size : Nat) (s : Fs) : Prop :=
  ∃ s₀, (superBlockAt s₀.disk sectorSize).magic ≠ magicV1 ∧ FS.initFs size s₀ = .ok () s

/-- A file system of `size` sectors that is in use. -/
def Fs.Reached (size : Nat) (s : Fs) : Prop :=
  ∃ s₀ l, s₀.Mounted size ∧ Run FS.Answered s₀ l s

namespace FS

section Layout

theorem keepsLayout_setInode (p : Fin nrInode) (f : Inode → Inode) : KeepsLayout (setInode p f) :=
  .modify fun _ => rfl

theorem keepsLayout_setDesc (f : Fin nrFileDesc) (g : FileDesc → FileDesc) :
    KeepsLayout (setDesc f g) := .modify fun _ => rfl

theorem keepsLayout_getInode (dev : Nat) (nr : Int) : KeepsLayout (getInode dev nr) := by
  apply KeepsView.bind .get
  intro s
  dsimp only
  cases cachedInode s.inodeTable dev nr with
  | some p => exact .bind (keepsLayout_setInode _ _) fun _ => .pure _
  | none =>
    cases freeInode s.inodeTable with
    | none => exact .halt _
    | some q =>
      exact .bind (keepsLayout_setInode _ _) fun _ => .bind (keepsView_getSuperBlock _) fun _ =>
        .ite (.halt _) (.bind (keepsView_onDev (keepsView_rdSect _)) fun _ => .bind .get fun _ =>
          .bind (keepsLayout_setInode _ _) fun _ => .pure _)

theorem keepsLayout_putInode (p : Fin nrInode) : KeepsLayout (putInode p) :=
  .bind .get fun _ => .bind (.check _) fun _ => keepsLayout_setInode _ _

theorem keepsLayout_newInode (dev nr start : Nat) : KeepsLayout (newInode dev nr start) :=
  .bind (keepsLayout_getInode _ _) fun _ => .bind (keepsLayout_setInode _ _) fun _ =>
    .bind (keepsView_syncInode _) fun _ => .pure _

theorem keepsLayout_createFile (path : List UInt8) : KeepsLayout (createFile path) := by
  unfold createFile
  cases stripPath path with
  | none => exact .pure _
  | some name =>
    exact .bind (keepsView_fitsFilename _) fun _ => .bind keepsView_rootNode fun _ =>
      .bind .get fun _ => .bind (keepsView_allocImapBit _) fun _ =>
        .bind (keepsView_allocSmapBit _ _) fun _ => .bind (keepsLayout_newInode _ _ _) fun _ =>
          .bind (keepsView_newDirectoryEntry _ _ _) fun _ => .pure _

theorem keepsLayout_openInode (path : List UInt8) (flags : Int) :
    KeepsLayout (openInode path flags) := by
  apply KeepsView.bind (keepsView_searchFile _)
  intro nr
  apply KeepsView.ite
  · apply KeepsView.ite _ (.pure _)
    apply KeepsView.bind (keepsLayout_createFile _)
    intro r
    cases r with
    | none => exact .halt _
    | some n => exact .pure _
  · exact .ite (.ite (.pure _) (.bind keepsView_rootNode fun _ => .bind .get fun _ =>
      .bind (keepsLayout_getInode _ _) fun _ => .pure _)) (.pure _)

theorem keepsLayout_doOpen (p : Pid) (msg : Message) : KeepsLayout (doOpen p msg) := by
  apply KeepsView.bind (keepsView_copyPath _ _ _)
  intro path
  apply KeepsView.bind
  · apply KeepsView.bind .get
    intro s
    dsimp only
    cases (List.finRange nrFiles).find? fun i => (s.filp p i).isNone with
    | none => exact .halt _
    | some i => exact .pure _
  intro fd
  apply KeepsView.bind
  · apply KeepsView.bind .get
    intro s
    dsimp only
    cases (List.finRange nrFileDesc).find? fun f => (s.fdTable f).fdInode.isNone with
    | none => exact .halt _
    | some f => exact .pure _
  intro f
  apply KeepsView.bind (keepsLayout_openInode _ _)
  intro r
  cases r with
  | none => exact .pure _
  | some n =>
    exact .bind (.when (.bind (keepsLayout_setInode _ _) fun _ => keepsView_syncInode _)) fun _ =>
      .bind (.modify fun _ => rfl) fun _ => .bind (keepsLayout_setDesc _ _) fun _ =>
        .bind (keepsView_openDevice _) fun _ => .pure _

theorem keepsLayout_doClose (p : Pid) (msg : Message) : KeepsLayout (doClose p msg) := by
  unfold doClose
  cases fdIndex msg.m3i1 with
  | none => exact .pure _
  | some fd =>
    apply KeepsView.bind .get
    intro s
    cases s.filp p fd with
    | none => exact .halt _
    | some f =>
      apply KeepsView.bind .get
      intro s
      cases (s.fdTable f).fdInode with
      | none => exact .halt _
      | some n =>
        exact .bind (keepsLayout_putInode _) fun _ => .bind (keepsLayout_setDesc _ _) fun _ =>
          .bind (.modify fun _ => rfl) fun _ => .pure _

theorem keepsLayout_removeFile (dir n : Fin nrInode) (dev : Nat) (nr : Int) :
    KeepsLayout (removeFile dir n dev nr) :=
  .ite (.halt _) (.bind (keepsView_clearImapBit _ _) fun _ =>
    .bind (keepsView_getSuperBlock _) fun _ => .bind .get fun _ => .ite (.halt _)
      (.bind (keepsView_clearSmapBits _ _ _) fun _ => .bind (keepsLayout_setInode _ _) fun _ =>
        .bind (keepsLayout_putInode _) fun _ => .bind (keepsView_syncInode _) fun _ =>
          keepsView_clearEntry _ _ _))

theorem keepsLayout_doUnlink (p : Pid) (msg : Message) : KeepsLayout (doUnlink p msg) := by
  apply KeepsView.bind (.check _)
  intro _
  apply KeepsView.bind (keepsView_copyPath _ _ _)
  intro path
  apply KeepsView.ite (.pure _)
  apply KeepsView.bind (keepsView_searchFile _)
  intro nr
  apply KeepsView.ite (.pure _)
  cases stripPath path with
  | none => exact .pure _
  | some name =>
    exact .bind keepsView_rootNode fun _ => .bind .get fun _ => .bind (keepsLayout_getInode _ _)
      fun _ => .bind .get fun _ => .ite (.pure _) (.ite (.pure _)
        (.bind (keepsLayout_removeFile _ _ _ _) fun _ => .pure _))

theorem layout_answered {s s' : Fs} {c : FileCall × Pid × Message} (h : Answered s c s') :
    s'.layout = s.layout := by
  obtain ⟨call, p, msg⟩ := c
  obtain ⟨r, hrun⟩ := h
  have hkeep : KeepsLayout (call.run p msg) := by
    cases call with
    | «open» => exact keepsLayout_doOpen p msg
    | close => exact keepsLayout_doClose p msg
    | unlink => exact keepsLayout_doUnlink p msg
  have hsame := wp_ok (hkeep.keeps s.layout s rfl) hrun
  exact hsame

end Layout

end FS

/-- The tables in memory. -/
def Fs.tables (s : Fs) := (s.inodeTable, s.fdTable, s.rootInode, s.filp, s.user)

/-- A file system of `size` sectors right behind `init_fs`, on a disk that had none in state `s`. -/
structure JustMounted (size : Nat) (s s' : Fs) : Prop where
  layout : s'.layout = (FS.makeSuperBlock size).layout
  first : (FS.makeSuperBlock size).n1stSect ≤ installStartSect + 1
  smap : ∀ b, b < (FS.makeSuperBlock size).smapBits →
    bitAt s'.disk (sectBit 3 + b) = smapAfter size b
  formatted : installStartSect + installNrSects ≤ size → Formatted size s'.disk
  dirBytes : ∀ i, i < sectorSize →
    s'.disk (sectorSize * (FS.makeSuperBlock size).n1stSect + i) = newDirBytes i
  root : ∃ r, s'.rootInode = some r ∧ s'.inodeTable = Function.update (fun _ => {}) r
    (.loaded rootDev rootInodeNr (diskInodeAt s'.disk (inodePlace (FS.makeSuperBlock size) 1)))
  fdTable : s'.fdTable = fun _ => {}
  filp : s'.filp = s.filp
  user : s'.user = s.user

namespace FS

section Mount

theorem keepsTables_rdSect (n : Nat) : KeepsView Fs.tables (rdSect n) :=
  .ite (.modify fun _ => rfl) (.halt _)

theorem keepsTables_wrSect (n : Nat) : KeepsView Fs.tables (wrSect n) :=
  .ite (.modify fun _ => rfl) (.halt _)

theorem keepsTables_setBuf (f : Bytes → Bytes) : KeepsView Fs.tables (setBuf f) :=
  .modify fun _ => rfl

theorem keepsTables_markCmdTar (smap : Nat) : ∀ left sect byteOff bitOff,
    KeepsView Fs.tables (markCmdTar smap left sect byteOff bitOff)
  | 0, _, _, _ => .pure _
  | left + 1, _, _, _ => .bind (keepsTables_setBuf _) fun _ => .ite
    (.ite (.bind (keepsTables_wrSect _) fun _ => .bind (keepsTables_rdSect _) fun _ =>
      keepsTables_markCmdTar smap left _ _ _) (keepsTables_markCmdTar smap left _ _ _))
    (keepsTables_markCmdTar smap left _ _ _)

theorem keepsTables_setSmap : KeepsView Fs.tables setSmap :=
  .bind .get fun _ => .bind (keepsTables_setBuf _) fun _ =>
    .bind (.loop (fun _ => keepsTables_setBuf _) _ _) fun _ =>
    .bind (.loop (fun _ => keepsTables_setBuf _) _ _) fun _ =>
    .bind (keepsTables_wrSect _) fun _ => .bind (keepsTables_setBuf _) fun _ =>
    .bind (.loop (fun _ => keepsTables_wrSect _) _ _) fun _ => .ite (.halt _)
      (.bind (keepsTables_rdSect _) fun _ => .bind (keepsTables_markCmdTar _ _ _ _ _) fun _ =>
        keepsTables_wrSect _)

theorem keepsTables_mkfs (size : Nat) : KeepsView Fs.tables (mkfs size) := by
  apply KeepsView.bind
  · exact .bind (.modify fun _ => rfl) fun _ => .bind (keepsTables_setBuf _) fun _ =>
      .bind .get fun _ => .bind (keepsTables_setBuf _) fun _ => keepsTables_wrSect _
  intro _
  apply KeepsView.bind
  · exact .bind (keepsTables_setBuf _) fun _ => .bind (.loop (fun _ => keepsTables_setBuf _) _ _)
      fun _ => .bind (keepsTables_setBuf _) fun _ => keepsTables_wrSect _
  intro _
  apply KeepsView.bind keepsTables_setSmap
  intro _
  apply KeepsView.bind
  · exact .bind .get fun _ => .bind (keepsTables_setBuf _) fun _ =>
      .bind (keepsTables_setBuf _) fun _ => .bind (.loop (fun _ => keepsTables_setBuf _) _ _)
      fun _ => .bind (keepsTables_setBuf _) fun _ => keepsTables_wrSect _
  intro _
  exact .bind .get fun _ => .bind (keepsTables_setBuf _) fun _ =>
    .bind (keepsTables_setBuf _) fun _ => .bind (.loop (fun _ => keepsTables_setBuf _) _ _)
    fun _ => .bind (keepsTables_setBuf _) fun _ => keepsTables_wrSect _

theorem cachedInode_empty (dev : Nat) (nr : Int) : cachedInode (fun _ => {}) dev nr = none := by
  apply List.find?_eq_none.mpr
  intro n _
  simp

theorem freeInode_empty : freeInode (fun _ => {}) ≠ none := by
  intro h
  have hnone := List.find?_eq_none.mp h ⟨0, by decide⟩ (List.mem_finRange _)
  simp at hnone

theorem superBlockAt_read (b d : Bytes) :
    superBlockAt (copyBytes b 0 d (sectorSize * 1) sectorSize) 0 = superBlockAt d sectorSize := by
  apply superBlockAt_shift
  intro i hi
  have hlt : i < sectorSize := Nat.lt_of_lt_of_le hi (by decide)
  rw [Nat.zero_add, copyBytes_zero hlt, Nat.mul_one]

theorem makeSuperBlock_addr {size : Nat} (hsize : size < 2 ^ 32) :
    sectorSize * (3 + (makeSuperBlock size).nrSmapSects) < 2 ^ 31 := by
  have hs : sectorSize = 512 := rfl
  rw [makeSuperBlock_nrSmapSects, hs]
  omega

theorem initFs_spec {size : Nat} (hsize : size < 2 ^ 32) {s : Fs}
    (hnew : (superBlockAt s.disk sectorSize).magic ≠ magicV1) :
    wp (initFs size) (fun _ s' => JustMounted size s s' ∧ Formatted size s'.disk ∧
        ∀ i, sectorSize * ((makeSuperBlock size).n1stSect + 1) ≤ i → s'.disk i = s.disk i)
      (fun _ _ => installStartSect + 1 < (makeSuperBlock size).n1stSect) s := by
  have hone : sectorSize * 1 < 2 ^ 31 := by decide
  simp only [initFs, readSuperBlock, getSuperBlock, wp_bind, wp_modify, wp_get]
  rw [wp_rdSect hone, wp_when]
  refine ⟨fun _ => ?_, fun h => absurd hnew (superBlockAt_read _ s.disk ▸ h)⟩
  refine wp_mono (wp_and (mkfs_spec hsize _) ((keepsTables_mkfs size).keeps _ _ rfl)) ?_
    (fun _ _ h => h.1)
  rintro - s₁ ⟨⟨hsb, hfirst, hformat, hbytes, hbehind⟩, htab⟩
  simp only [Fs.tables, Prod.mk.injEq] at htab
  obtain ⟨hinode, hdesc, -, hfilp, huser⟩ := htab
  rw [onDev, if_pos rfl, wp_rdSect hone]
  simp only [superBlockAt_read, hformat.superBlock, wp_ite, wp_check, wp_halt]
  refine ⟨fun hz => absurd hz (by decide), fun _ => ⟨fun _ => ?_, fun h => absurd rfl h⟩⟩
  refine wp_mono (getInode_spec rootDev rootInodeNr) ?_ ?_
  · rintro n s₂ (⟨hc, -⟩ | ⟨-, -, -, -, b, rfl⟩)
    · rw [hinode, cachedInode_empty] at hc
      cases hc
    · refine ⟨⟨rfl, hfirst, hformat.smap, fun _ => hformat, hbytes, ⟨n, rfl, ?_⟩, hdesc, hfilp,
        huser⟩, hformat, hbehind⟩
      rw [← hinode]
      rfl
  · rintro w s₂ ⟨-, ⟨hfull, -⟩ | ⟨-, hdev | ⟨-, hnr | haddr⟩⟩⟩
    · rw [hinode] at hfull
      exact absurd hfull freeInode_empty
    · exact absurd rfl hdev
    · exact absurd hnr (by decide)
    · exact absurd (makeSuperBlock_addr hsize) haddr

end Mount

end FS

section Reached

variable {size : Nat} {s s' : Fs}

theorem Fs.Mounted.justMounted (hsize : size < 2 ^ 32) (h : s.Mounted size) :
    ∃ s₀, JustMounted size s₀ s := by
  obtain ⟨s₀, hnew, hrun⟩ := h
  have hjust := wp_ok (FS.initFs_spec hsize hnew) hrun
  exact ⟨s₀, hjust.1⟩

theorem Fs.Mounted.formatted (hsize : size < 2 ^ 32) (h : s.Mounted size) :
    Formatted size s.disk := by
  obtain ⟨s₀, hnew, hrun⟩ := h
  have hjust := wp_ok (FS.initFs_spec hsize hnew) hrun
  exact hjust.2.1

theorem Fs.Reached.layout_eq (hsize : size < 2 ^ 32) (h : s.Reached size) :
    s.layout = (FS.makeSuperBlock size).layout := by
  obtain ⟨s₀, l, hmount, hrun⟩ := h
  obtain ⟨_, hjust⟩ := hmount.justMounted hsize
  exact hrun.invariant hjust.layout fun u c v hstep hu => (FS.layout_answered hstep).trans hu

theorem fields_of_layout (h : s.layout = (FS.makeSuperBlock size).layout) :
    s.sb.nrImapSects = 1 ∧ s.sb.nrSmapSects = (FS.makeSuperBlock size).nrSmapSects ∧
      s.sb.n1stSect = (FS.makeSuperBlock size).n1stSect ∧ s.sb.nrSects = size := by
  have hfield : ∀ f : SuperBlock → Nat, f s.layout = f (FS.makeSuperBlock size).layout :=
    fun f => congrArg f h
  exact ⟨hfield (·.nrImapSects), hfield (·.nrSmapSects), hfield (·.n1stSect), hfield (·.nrSects)⟩

theorem mapsOk_of_layout (hsize : size < 2 ^ 32) (h : s.layout = (FS.makeSuperBlock size).layout) :
    s.sb.MapsOk := by
  obtain ⟨himap, hsmap, hfirst, -⟩ := fields_of_layout h
  constructor
  · rw [himap, hsmap]
    exact Nat.le_of_lt (FS.makeSuperBlock_addr hsize)
  · rw [hfirst, makeSuperBlock_n1stSect]
    exact Nat.le_trans (by decide) (Nat.le_add_left 260 _)

theorem exists_mounted_empty (hsize : size < 2 ^ 32)
    (hfirst : (FS.makeSuperBlock size).n1stSect ≤ installStartSect + 1) (user : Pid → Bytes) :
    ∃ s₀ s, Fs.Mounted size s ∧ JustMounted size s₀ s ∧ s₀.filp = (fun _ _ => none) ∧
      s₀.user = user ∧
      ∀ i, sectorSize * ((FS.makeSuperBlock size).n1stSect + 1) ≤ i → s.disk i = 0 := by
  have hnew : (superBlockAt (fun _ => 0) sectorSize).magic ≠ magicV1 := by decide
  obtain ⟨u, s, hrun, hjust, -, hbehind⟩ := exists_ok_of_wp (wp_mono
    (FS.initFs_spec (s := { disk := fun _ => 0, fsbuf := fun _ => 0, user }) hsize hnew)
    (fun _ _ h => h) fun _ _ h => absurd h (Nat.not_lt.mpr hfirst))
  exact ⟨_, s, ⟨_, hnew, hrun⟩, hjust, rfl, rfl, hbehind⟩

theorem exists_mounted (hsize : size < 2 ^ 32)
    (hfirst : (FS.makeSuperBlock size).n1stSect ≤ installStartSect + 1)
    (user : Pid → Bytes) : ∃ s₀ s, Fs.Mounted size s ∧ JustMounted size s₀ s ∧
      s₀.filp = (fun _ _ => none) ∧ s₀.user = user := by
  obtain ⟨s₀, s, hmount, hjust, hfilp, huser, -⟩ := exists_mounted_empty hsize hfirst user
  exact ⟨s₀, s, hmount, hjust, hfilp, huser⟩

theorem Fs.Mounted.reached (h : s.Mounted size) : s.Reached size := ⟨s, [], h, .nil⟩

theorem JustMounted.free_iff {s₀ : Fs} (h : JustMounted size s₀ s) {b : Nat}
    (hb : b < (FS.makeSuperBlock size).smapBits) :
    Free s.disk s.sb.smapSect b ↔ smapAfter size b = false := by
  have hsect : s.sb.smapSect = 3 := by
    rw [SuperBlock.smapSect, (fields_of_layout h.layout).1]
  rw [Free, hsect, h.smap b hb]

end Reached

end BazingaOS
