import BazingaOS.FS.SharedCalls

/-!
# In front of the maps

The boot sector and the sector of the super block are written when the disk is formatted and never
again: every request writes to the maps, the inode array or behind them, as long as the root
directory and the files are behind the maps. So is the layout in memory, which only the device in it
changes.
-/

namespace BazingaOS

open Prog

/-- The layout in memory and the bytes in front of the maps. -/
def Fs.head (s : Fs) : SuperBlock × (Fin (2 * sectorSize) → UInt8) := (s.sb.layout, fun a => s.disk a)

/-- A view of the file system that the buffer, the device that was asked for last and the disk from
the maps on have no part in. -/
class HeadView {ν : Type} (v : Fs → ν) : Prop where
  buf : ∀ s b, v { s with fsbuf := b } = v s
  sbDev : ∀ s dev, v { s with sb := { s.sb with sbDev := dev } } = v s
  disk : ∀ s d, (∀ a, a < 2 * sectorSize → d a = s.disk a) → v { s with disk := d } = v s

/-- A program that leaves the head alone, whichever way it ends. -/
abbrev KeepsHead {α : Type} (p : Prog Fs α) : Prop := KeepsView Fs.head p

def Fs.headAndInode (r : Fin nrInode) (s : Fs) :
    (SuperBlock × (Fin (2 * sectorSize) → UInt8)) × Inode := (s.head, s.inodeTable r)

theorem Fs.head_eq {s s' : Fs} (hsb : s'.sb.layout = s.sb.layout)
    (hd : ∀ a, a < 2 * sectorSize → s'.disk a = s.disk a) : s'.head = s.head := by
  rw [Fs.head, Fs.head, hsb]
  exact congrArg _ (funext fun a => hd a a.isLt)

instance : HeadView Fs.head where
  buf _ _ := rfl
  sbDev _ _ := rfl
  disk _ _ h := Fs.head_eq rfl h

instance (r : Fin nrInode) : HeadView (Fs.headAndInode r) where
  buf _ _ := rfl
  sbDev _ _ := rfl
  disk s d h := congrArg (·, s.inodeTable r) (@Fs.head_eq s { s with disk := d } rfl h)

namespace FS

section Sectors

variable {ν : Type} {v : Fs → ν} [HeadView v]

theorem keepsHead_rdSect (n : Nat) : KeepsView v (rdSect n) :=
  .ite (.modify fun _ => HeadView.buf _ _) (.halt _)

theorem keepsHead_wrSect {n : Nat} (hn : 2 ≤ n) : KeepsView v (wrSect n) := by
  refine .ite (.modify fun s => HeadView.disk _ _ fun a ha => copyBytes_of_lt ?_) (.halt _)
  have hs : sectorSize = 512 := rfl
  rw [hs] at ha ⊢
  omega

theorem keepsHead_setBuf (f : Bytes → Bytes) : KeepsView v (setBuf f) :=
  .modify fun _ => HeadView.buf _ _

theorem keepsHead_setInode (n : Fin nrInode) (f : Inode → Inode) : KeepsHead (setInode n f) :=
  .modify fun _ => rfl

theorem keepsHead_setDesc (f : Fin nrFileDesc) (g : FileDesc → FileDesc) :
    KeepsHead (setDesc f g) := .modify fun _ => rfl

theorem keepsHead_setFilp (p : Pid) (i : Fin nrFiles) (f : Option (Fin nrFileDesc)) :
    KeepsHead (setFilp p i f) := .modify fun _ => rfl

theorem keepsHead_getSuperBlock (dev : Nat) : KeepsView v (getSuperBlock dev) :=
  .bind (.modify fun _ => HeadView.sbDev _ _) fun _ => .ite (.halt _) (.bind .get fun _ => .pure _)

theorem inodeSect_ge (sb : SuperBlock) (nr : Nat) : 2 ≤ inodeSect sb nr := by
  rw [inodeSect, Nat.add_assoc, Nat.add_assoc]
  exact Nat.le_add_right 2 _

theorem keepsHead_syncInode (n : Fin nrInode) : KeepsView v (syncInode n) :=
  .bind .get fun _ => .bind (keepsHead_getSuperBlock _) fun _ => .ite (.halt _)
    (.bind (keepsView_onDev (keepsHead_rdSect _)) fun _ => .bind (keepsHead_setBuf _) fun _ =>
      keepsView_onDev (keepsHead_wrSect (inodeSect_ge _ _)))

theorem keepsHead_getInode (dev : Nat) (nr : Int) : KeepsHead (getInode dev nr) := by
  apply KeepsView.bind .get
  intro s
  dsimp only
  cases cachedInode s.inodeTable dev nr with
  | some p => exact .bind (keepsHead_setInode _ _) fun _ => .pure _
  | none =>
    cases freeInode s.inodeTable with
    | none => exact .halt _
    | some q =>
      exact .bind (keepsHead_setInode _ _) fun _ => .bind (keepsHead_getSuperBlock _) fun _ =>
        .ite (.halt _) (.bind (keepsView_onDev (keepsHead_rdSect _)) fun _ => .bind .get fun _ =>
          .bind (keepsHead_setInode _ _) fun _ => .pure _)

theorem keepsHead_putInode (n : Fin nrInode) : KeepsHead (putInode n) :=
  .bind .get fun _ => .bind (.check _) fun _ => keepsHead_setInode _ _

theorem keepsHead_newInode (dev nr start : Nat) : KeepsHead (newInode dev nr start) :=
  .bind (keepsHead_getInode _ _) fun _ => .bind (keepsHead_setInode _ _) fun _ =>
    .bind (keepsHead_syncInode _) fun _ => .pure _

end Sectors

section Maps

variable {ν : Type} {v : Fs → ν} [HeadView v]

theorem keepsHead_allocImapBit (dev : Nat) : KeepsView v (allocImapBit dev) := by
  apply KeepsView.bind (keepsHead_getSuperBlock _)
  intro sb
  apply KeepsView.bind
  · apply KeepsView.scan
    intro i
    apply KeepsView.bind (keepsView_onDev (keepsHead_rdSect _))
    intro _
    apply KeepsView.scan
    intro j
    apply KeepsView.bind .get
    intro s
    apply KeepsView.ite (.pure _)
    apply KeepsView.scan
    intro k
    exact .bind .get fun _ => .ite (.bind (keepsHead_setBuf _) fun _ =>
      .bind (keepsView_onDev (keepsHead_wrSect (Nat.le_add_right _ _))) fun _ => .pure _) (.pure _)
  · intro r
    cases r with
    | none => exact .halt _
    | some nr => exact .pure _

theorem keepsHead_allocSmapStep (sb : SuperBlock) (i j k : Nat) (a : SmapScan) :
    KeepsView v (allocSmapStep sb i j k a) :=
  .bind .get fun _ => .ite (.pure _)
    (.ite (.bind (keepsHead_setBuf _) fun _ => .pure _) (.pure _))

theorem keepsHead_allocSmapBit (dev n : Nat) : KeepsView v (allocSmapBit dev n) := by
  apply KeepsView.bind (keepsHead_getSuperBlock _)
  intro sb
  have hsmap : ∀ i, 2 ≤ 1 + 1 + sb.nrImapSects + i := fun i => by omega
  apply KeepsView.bind
  · apply KeepsView.iter
    intro i a
    apply KeepsView.bind (keepsView_onDev (keepsHead_rdSect _))
    intro _
    apply KeepsView.bind
    · apply KeepsView.iter
      intro j a
      exact .bind .get fun _ => .ite (.pure _)
        (.bind (.iter (fun _ _ => keepsHead_allocSmapStep _ _ _ _ _) _ _ _) fun _ => .pure _)
    · intro a
      exact .bind (.when (keepsView_onDev (keepsHead_wrSect (hsmap i)))) fun _ =>
        .ite (.pure _) (.pure _)
  · intro a
    exact .bind (.check _) fun _ => .pure _

theorem keepsHead_clearImapBit (dev nr : Nat) : KeepsView v (clearImapBit dev nr) :=
  .bind (keepsView_onDev (keepsHead_rdSect _)) fun _ => .bind (.check _) fun _ =>
    .bind .get fun _ => .bind (.check _) fun _ => .bind (keepsHead_setBuf _) fun _ =>
      keepsView_onDev (keepsHead_wrSect (Nat.le_refl _))

theorem nextSmapByte_head {s : Fs} {dev sect i : Nat} (hsect : 2 ≤ sect) :
    wp (nextSmapByte dev sect i) (fun a s' => v s' = v s ∧ 2 ≤ a.1)
      (fun _ s' => v s' = v s) s := by
  rw [nextSmapByte, wp_ite, wp_bind]
  refine ⟨fun _ => ?_, fun _ => ⟨rfl, hsect⟩⟩
  refine (keepsView_onDev (keepsHead_wrSect hsect)).wp (fun _ s₁ h₁ => ?_) fun _ _ h => h
  rw [wp_bind]
  refine (keepsView_onDev (keepsHead_rdSect _)).wp (fun _ s₂ h₂ => ?_) fun _ _ h => h.trans h₁
  exact ⟨h₂.trans h₁, Nat.le_succ_of_le hsect⟩

theorem keepsHead_clearSmapBits (dev bitIdx n : Nat) : KeepsView v (clearSmapBits dev bitIdx n) := by
  apply KeepsView.bind (keepsView_onDev (keepsHead_rdSect _))
  intro _
  apply KeepsView.bind
  · apply KeepsView.loop
    intro i
    exact .bind .get fun _ => .bind (.check _) fun _ => keepsHead_setBuf _
  intro _
  refine ⟨fun h s hs => ?_⟩
  rw [wp_bind]
  -- the rounds hand on a sector of the map
  apply wp_iter (I := fun _ (a : Nat × Nat) s' => v s' = h ∧ 2 ≤ a.1)
  · exact ⟨hs, Nat.le_add_right_of_le (by decide)⟩
  · rintro j a s₁ - - ⟨h₁, ha⟩
    rw [wp_bind]
    refine wp_mono (nextSmapByte_head ha) ?_ fun _ _ h₂ => h₂.trans h₁
    rintro ⟨sect, i⟩ s₂ ⟨h₂, hsect⟩
    simp only [setBuf, wp_bind, wp_get, wp_check, wp_modify, wp_pure]
    exact ⟨fun _ => ⟨(HeadView.buf _ _).trans (h₂.trans h₁), hsect⟩, fun _ => h₂.trans h₁⟩
  · rintro a s₁ ⟨h₁, ha⟩
    rw [wp_bind]
    refine wp_mono (nextSmapByte_head ha) (fun a s₂ h₂ => ?_) fun _ _ h₂ => h₂.trans h₁
    have hrest : KeepsView v (do
        check (n - min (8 - bitIdx % 8) n - 8 * ((n - (8 - bitIdx % 8)) / 8) < 8)
        check ((← get).fsbuf a.2 &&& bitMask 0 ≠ 0)
        loop (fun k => setBuf fun b => clearBit b a.2 k)
          (n - min (8 - bitIdx % 8) n - 8 * ((n - (8 - bitIdx % 8)) / 8)) 0
        onDev dev (wrSect a.1)) :=
      .bind (.check _) fun _ => .bind .get fun _ => .bind (.check _) fun _ =>
        .bind (.loop (fun _ => keepsHead_setBuf _) _ _) fun _ =>
          keepsView_onDev (keepsHead_wrSect h₂.2)
    exact hrest.keeps h s₂ (h₂.1.trans h₁)

end Maps

section Entries

theorem keepsHead_searchFile (path : List UInt8) : KeepsHead (searchFile path) := by
  unfold searchFile
  cases stripPath path with
  | none => exact .pure _
  | some name =>
    have hentry : ∀ start n t, KeepsHead (searchEntry start n name t) := fun start n t =>
      .bind (.when (keepsHead_rdSect _)) fun _ => .bind .get fun _ =>
        .ite (.pure _) (.ite (.pure _) (.pure _))
    exact .bind (keepsView_fitsFilename _) fun _ => .bind .get fun _ =>
      .bind keepsView_rootNode fun _ => .ite (.pure _) (.bind (.check _) fun _ =>
        .bind (.scan (fun _ => hentry _ _ _) _ _) fun _ => .pure _)

theorem keepsHead_freeEntry (dev start nrDir i : Nat) : KeepsHead (freeEntry dev start nrDir i) := by
  apply KeepsView.bind (keepsView_onDev (keepsHead_rdSect _))
  intro _
  apply KeepsView.bind .get
  intro s
  dsimp only
  split
  · exact .pure _
  · exact .pure _

theorem newDirectoryEntry_head {s : Fs} {r : Fin nrInode} (hr : 2 ≤ (s.inodeTable r).iStartSect)
    (name : List UInt8) (nr : Nat) :
    wp (newDirectoryEntry r name nr) (fun _ s' => s'.head = s.head) (fun _ s' => s'.head = s.head)
      s := by
  rw [newDirectoryEntry, wp_bind, wp_get, wp_bind]
  refine (KeepsView.scan (fun _ => keepsHead_freeEntry _ _ _ _) _ _).wp (fun o s₁ h₁ => ?_)
    fun _ _ h => h
  cases o with
  | none => exact h₁
  | some x =>
    have hsect : 2 ≤ x.1 + (s.inodeTable r).iStartSect := Nat.le_add_left_of_le hr
    have hrest : KeepsHead (do
        when (x.2.2 = true) (setInode r fun d =>
          { d with iSize := (d.iSize + dirEntSize) % 2 ^ 32 })
        setBuf fun b => putBytes b (dirEntSize * x.2.1) (u32Bytes nr ++ name ++ [0])
        onDev (s.inodeTable r).iDev (wrSect (x.1 + (s.inodeTable r).iStartSect))
        syncInode r) :=
      .bind (.when (keepsHead_setInode _ _)) fun _ => .bind (keepsHead_setBuf _) fun _ =>
        .bind (keepsView_onDev (keepsHead_wrSect hsect)) fun _ => keepsHead_syncInode _
    exact hrest.keeps s.head s₁ h₁

theorem keepsHead_unlinkEntry {start : Nat} (hstart : 2 ≤ start) (dev : Nat) (nr : Int) (t : Nat)
    (a : Option Nat × Nat) : KeepsHead (unlinkEntry dev start nr t a) :=
  .bind (.when (keepsView_onDev (keepsHead_rdSect _))) fun _ => .bind .get fun _ =>
    .ite (.bind (keepsHead_setBuf _) fun _ => .bind
      (keepsView_onDev (keepsHead_wrSect (Nat.le_add_right_of_le hstart))) fun _ => .pure _) (.pure _)

theorem clearEntry_head {s : Fs} {r : Fin nrInode} (hr : 2 ≤ (s.inodeTable r).iStartSect)
    (dev : Nat) (nr : Int) :
    wp (clearEntry r dev nr) (fun _ s' => s'.head = s.head) (fun _ s' => s'.head = s.head) s := by
  rw [clearEntry, wp_bind, wp_get, wp_bind]
  refine (KeepsView.iter (keepsHead_unlinkEntry hr dev nr) _ _ _).wp ?_ fun _ _ h => h
  rintro ⟨found, dirSize⟩ s₁ h₁
  cases found with
  | none => exact h₁
  | some t =>
    have hrest : KeepsHead (when (t + 1 = (s.inodeTable r).iSize / dirEntSize) do
        setInode r fun d => { d with iSize := dirSize }
        syncInode r) :=
      .when (.bind (keepsHead_setInode _ _) fun _ => keepsHead_syncInode _)
    exact hrest.keeps s.head s₁ h₁

end Entries

section Requests

variable {s s' : Fs} {r n : Fin nrInode} {base : Nat} {P : Nat → Prop} {p : Pid} {msg : Message}

theorem root_behind (h : s.Steady r base P) : 2 ≤ (s.inodeTable r).iStartSect := by
  have hfirst := h.laid.first
  rw [h.dir.start, hfirst]
  omega

theorem createFile_head (h : s.Steady r base (InUse s.disk)) (path : List UInt8) :
    wp (createFile path) (fun _ s' => s'.head = s.head) (fun _ _ => True) s := by
  have hdev := h.rootAt.dev
  unfold createFile
  cases stripPath path with
  | none => exact rfl
  | some name =>
    simp only [fitsFilename, rootNode, wp_bind, wp_ite, wp_pure, wp_get, h.root, hdev]
    refine ⟨fun hlen => ?_, fun _ => trivial⟩
    refine wp_mono (wp_and (allocImapBit_spec h.laid.mapsOk)
      ((keepsHead_allocImapBit _).keeps s.head s rfl)) ?_ (fun _ _ _ => trivial)
    rintro nr s₁ ⟨himap, hhead₁⟩
    have hl₁ : s₁.sb.Laid := by
      obtain ⟨b, rfl⟩ := himap.state
      exact h.laid.congr_layout rfl
    refine wp_mono (wp_and (allocSmapBit_spec hl₁.mapsOk (hl₁.firstFits _) (by decide))
      ((keepsHead_allocSmapBit _ _).keeps s.head s₁ hhead₁)) ?_ (fun _ _ _ => trivial)
    rintro sect s₂ ⟨hsmap, hhead₂⟩
    obtain ⟨h₂, hfree, hnr, hlt, -, -, hmap, -, -⟩ := allocate_steady h himap hsmap
    refine wp_mono (wp_and (newInode_steady h₂ hfree hnr hlt hmap)
      ((keepsHead_newInode _ _ _).keeps s.head s₂ hhead₂)) ?_ (fun _ _ _ => trivial)
    rintro n s₃ ⟨⟨h₃, -⟩, hhead₃⟩
    refine wp_mono (newDirectoryEntry_head (root_behind h₃) name nr) ?_ (fun _ _ _ => trivial)
    rintro - s₄ hhead₄
    exact hhead₄.trans hhead₃

theorem openInode_head (h : s.Steady r base (InUse s.disk)) (path : List UInt8) (flags : Int) :
    wp (openInode path flags) (fun _ s' => s'.head = s.head) (fun _ _ => True) s := by
  simp only [openInode, wp_bind]
  refine wp_mono (wp_and (searchFile_spec path) ((keepsHead_searchFile _).keeps s.head s rfl)) ?_
    (fun _ _ _ => trivial)
  rintro nr s₁ ⟨⟨hbuf, -, -⟩, hhead₁⟩
  obtain ⟨h₁, -, -, hdisk₁⟩ := steady_buffer h hbuf
  rw [← hdisk₁] at h₁
  simp only [wp_ite]
  refine ⟨fun _ => ⟨fun _ => ?_, fun _ => hhead₁⟩, fun _ =>
    ⟨fun _ => ⟨fun _ => hhead₁, fun _ => ?_⟩, fun _ => hhead₁⟩⟩
  · rw [wp_bind]
    refine wp_mono (createFile_head h₁ path) ?_ (fun _ _ _ => trivial)
    intro o s₂ hhead₂
    cases o with
    | none => trivial
    | some n => exact hhead₂.trans hhead₁
  · have hrest : KeepsHead (do
        let dir ← rootNode
        return some (← getInode ((← get).inodeTable dir).iDev nr)) :=
      .bind keepsView_rootNode fun _ => .bind .get fun _ => .bind (keepsHead_getInode _ _) fun _ =>
        .pure _
    exact wp_mono (hrest.keeps s.head s₁ hhead₁) (fun _ _ h => h) fun _ _ _ => trivial

theorem doOpen_head (h : s.Steady r base (InUse s.disk)) :
    wp (doOpen p msg) (fun _ s' => s'.head = s.head) (fun _ _ => True) s := by
  rw [doOpen]
  simp only [wp_bind]
  refine wp_mono (copyPath_spec p msg) ?_ (fun _ _ _ => trivial)
  rintro path s₀ ⟨rfl, rfl⟩
  refine wp_mono (freeFilp_spec p) ?_ (fun _ _ _ => trivial)
  rintro i s₁ ⟨rfl, -⟩
  refine wp_mono freeDesc_spec ?_ (fun _ _ _ => trivial)
  rintro f s₂ ⟨rfl, -⟩
  refine wp_mono (openInode_head h _ msg.m3i1) ?_ (fun _ _ _ => trivial)
  intro o s₃ hhead₃
  cases o with
  | none => exact hhead₃
  | some n =>
    have hrest : KeepsHead (do
        when (oTrunc msg.m3i1 = true) do
          setInode n fun i => { i with iSize := 0 }
          syncInode n
        setFilp p i (some f)
        setDesc f fun d => { d with fdInode := some n, fdCnt := 1, fdMode := msg.m3i1, fdPos := 0 }
        openDevice n
        return (i.val : Int)) :=
      .bind (.when (.bind (keepsHead_setInode _ _) fun _ => keepsHead_syncInode _)) fun _ =>
        .bind (keepsHead_setFilp _ _ _) fun _ => .bind (keepsHead_setDesc _ _) fun _ =>
          .bind (keepsView_openDevice _) fun _ => .pure _
    exact wp_mono (hrest.keeps s₂.head s₃ hhead₃) (fun _ _ h => h) fun _ _ _ => trivial

theorem keepsHead_doStat (p : Pid) (msg : Message) : KeepsHead (doStat p msg) := by
  refine .bind (.check _) fun _ => .bind (keepsView_copyPath _ _ _) fun path =>
    .bind (keepsHead_searchFile _) fun _ => .ite (.pure _) ?_
  cases stripPath path with
  | none => exact .halt _
  | some _ =>
    exact .bind keepsView_rootNode fun _ => .bind .get fun _ => .bind (keepsHead_getInode _ _)
      fun _ => .bind .get fun _ => .bind (keepsHead_putInode _) fun _ =>
        .bind (.modify fun _ => rfl) fun _ => .pure _

theorem removeFile_head (hr : 2 ≤ (s.inodeTable r).iStartSect) (hn : n ≠ r) (dev : Nat) (nr : Int) :
    wp (removeFile r n dev nr) (fun _ s' => s'.head = s.head) (fun _ _ => True) s := by
  rw [removeFile, wp_ite]
  refine ⟨fun _ => trivial, fun _ => ?_⟩
  have hset : ∀ f : Inode → Inode, KeepsView (Fs.headAndInode r) (setInode n f) :=
    fun f => .modify fun s => Prod.ext rfl (Function.update_of_ne (Ne.symm hn) _ _)
  have hput : KeepsView (Fs.headAndInode r) (putInode n) :=
    .bind .get fun _ => .bind (.check _) fun _ => hset _
  simp only [wp_bind]
  refine (keepsHead_clearImapBit (v := Fs.headAndInode r) _ _).wp (fun _ s₁ h₁ => ?_)
    fun _ _ _ => trivial
  refine (keepsHead_getSuperBlock (v := Fs.headAndInode r) _).wp (fun sb s₂ h₂ => ?_)
    fun _ _ _ => trivial
  simp only [wp_bind, wp_get, wp_ite]
  refine ⟨fun _ => trivial, fun _ => ?_⟩
  refine (keepsHead_clearSmapBits (v := Fs.headAndInode r) _ _ _).wp (fun _ s₃ h₃ => ?_)
    fun _ _ _ => trivial
  refine (hset _).wp (fun _ s₄ h₄ => ?_) fun _ _ _ => trivial
  refine hput.wp (fun _ s₅ h₅ => ?_) fun _ _ _ => trivial
  refine (keepsHead_syncInode (v := Fs.headAndInode r) _).wp (fun _ s₆ h₆ => ?_)
    fun _ _ _ => trivial
  obtain ⟨hhead, hinode⟩ := Prod.mk.inj
    (h₆.trans (h₅.trans (h₄.trans (h₃.trans (h₂.trans h₁)))))
  rw [← hinode] at hr
  exact wp_mono (clearEntry_head hr dev nr) (fun _ _ h => h.trans hhead) fun _ _ _ => trivial

theorem doUnlink_head (h : s.Steady r base (InUse s.disk)) :
    wp (doUnlink p msg) (fun _ s' => s'.head = s.head) (fun _ _ => True) s := by
  simp only [doUnlink, wp_bind, wp_check]
  refine ⟨fun _ => ?_, fun _ => trivial⟩
  refine wp_mono (copyPath_spec p msg) ?_ (fun _ _ _ => trivial)
  rintro path s₀ ⟨rfl, rfl⟩
  rw [wp_ite]
  refine ⟨fun _ => rfl, fun _ => ?_⟩
  rw [wp_bind]
  refine wp_mono (wp_and (searchFile_spec _) ((keepsHead_searchFile _).keeps s₀.head s₀ rfl)) ?_
    (fun _ _ _ => trivial)
  rintro nr s₁ ⟨⟨hbuf, hlookup, -⟩, hhead₁⟩
  obtain ⟨h₁, -, -, hdisk₁⟩ := steady_buffer h hbuf
  rw [wp_ite]
  refine ⟨fun _ => hhead₁, fun hnz => ?_⟩
  cases stripPath (s₀.pathOf p msg) with
  | none => exact hhead₁
  | some name =>
    simp only [rootNode, wp_bind, wp_get, h₁.root, wp_pure, h₁.rootAt.dev]
    obtain ⟨hpos, huse⟩ := (lookup_steady h _).resolve_left (hlookup ▸ hnz)
    rw [← hlookup] at hpos huse
    refine wp_mono (wp_and (getInode_steady h₁ hpos huse)
      ((keepsHead_getInode _ _).keeps s₀.head s₁ hhead₁)) ?_ (fun _ _ _ => trivial)
    rintro n s₂ ⟨⟨h₂, -, -, -, -, -⟩, hhead₂⟩
    rw [wp_ite]
    refine ⟨fun _ => hhead₂, fun hmode => ?_⟩
    rw [wp_ite]
    refine ⟨fun _ => hhead₂, fun _ => ?_⟩
    have hne : n ≠ r := by
      rintro rfl
      exact hmode (by rw [h₂.dir.mode]; decide)
    rw [wp_bind]
    exact wp_mono (removeFile_head (root_behind h₂) hne _ _) (fun _ _ h => h.trans hhead₂)
      fun _ _ _ => trivial

end Requests

end FS

end BazingaOS
