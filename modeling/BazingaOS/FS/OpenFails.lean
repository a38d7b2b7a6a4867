import BazingaOS.FS.Release

/-!
# Requests to open that fail

`do_open` allocates the inode number, the sectors and the slot of the cache for a new file one after
the other, each of them at once on the disk, and binds the descriptor in front of its last checks.
What fails behind the first of these steps leaves a part of the file.
-/

namespace BazingaOS

open Prog

/-- Nothing that `do_open` works on has changed: the maps and the inodes on the disk, the directory,
the cache, the descriptors and those of the caller. -/
structure Fs.SameOpen (p : Pid) (s s' : Fs) : Prop where
  front : ∀ a, a < sectorSize * (2 + s.sb.nrImapSects + s.sb.nrSmapSects + s.sb.nrInodeSects) →
    s'.disk a = s.disk a
  dir : ∀ r, s.rootInode = some r → ∀ a, sectorSize * (s.inodeTable r).iStartSect ≤ a →
    a < sectorSize * ((s.inodeTable r).iStartSect + (s.inodeTable r).iNrSects) →
      s'.disk a = s.disk a
  inodeTable : s'.inodeTable = s.inodeTable
  fdTable : s'.fdTable = s.fdTable
  filp : s'.filp p = s.filp p

/-- A request to open that fails leaves everything as it was, and a path with a slash in its name
is refused. Where the language leaves the effect undefined, nothing is known to be as it was. -/
structure OpenAtomic (s : Fs) (p : Pid) (msg : Message) : Prop where
  unchanged : wp (FS.doOpen p msg) (fun fd s' => fd < 0 → s.SameOpen p s')
    (fun w s' => w ≠ .undefined ∧ s.SameOpen p s') s
  rejected : stripPath (s.pathOf p msg) = none → ∃ s', FS.doOpen p msg s = .ok (-1) s'

/-- A descriptor and an index of the process are free. -/
def Fs.HasSlots (s : Fs) (p : Pid) : Prop :=
  (∃ i, s.filp p i = none) ∧ ∃ f, (s.fdTable f).fdInode = none

/-- The last checks of `do_open`: a terminal has a driver, and a directory is the root directory. -/
def KindOk (mode startSect : Nat) (num : Int) : Prop :=
  if mode = iCharSpecial then ∃ d, ddMap[startSect / 256 % 256]? = some (some d)
  else if mode = iDirectory then num = rootInodeNr else mode = iRegular

/-- The cache has the inode or a slot for it. -/
def Fs.HasInode (s : Fs) (nr : Int) : Prop :=
  FS.cachedInode s.inodeTable rootDev nr ≠ none ∨ FS.freeInode s.inodeTable ≠ none

/-- A bit of the inode map is clear. -/
def Fs.HasNumber (s : Fs) : Prop := ∃ b, b < s.sb.imapBits ∧ Free s.disk 2 b

/-- The sectors for a new file are free, and the cache and the inode array have room for its inode. -/
structure Fs.HasRoom (s : Fs) : Prop where
  sects : nrDefaultFileSects ≤ Nat.count (Free s.disk s.sb.smapSect) s.sb.smapBits
  inode : ∀ nr : Nat, Free s.disk 2 nr → (∀ m, m < nr → ¬ Free s.disk 2 m) →
    s.HasInode nr ∧ FS.Placed s nr

/-- `do_open` comes to allocate sectors for a new file. -/
structure Creates (s : Fs) (path : List UInt8) (flags : Int) : Prop where
  missing : s.lookup path = 0
  creat : oCreat flags = true
  number : s.HasNumber

/-- `do_open` comes to open a file of the directory. -/
structure Opens (s : Fs) (path : List UInt8) (flags : Int) : Prop where
  found : s.lookup path ≠ 0
  rdwr : oRdwr flags = true
  trunc : oCreat flags = true → oTrunc flags = true
  inode : s.HasInode (s.lookup path)

/-- Where the inode of a file of the directory is read or written, it has a place on the disk. -/
def Fs.PlacedFor (s : Fs) (nr flags : Int) : Prop :=
  FS.cachedInode s.inodeTable rootDev nr = none ∨ oTrunc flags = true → FS.Placed s nr

/-- A file of the directory can be opened. -/
structure Fs.Passes (s : Fs) (nr flags : Int) : Prop where
  placed : s.PlacedFor nr flags
  kind : KindOk (s.inodeOf nr).mode (s.inodeOf nr).startSect nr

/-- Number `fd` is a descriptor of the process for slot `n` of the cache. -/
def Fs.OpenedAt (s : Fs) (p : Pid) (fd : Int) (n : Fin nrInode) : Prop :=
  ∃ i f, FS.fdIndex fd = some i ∧ s.filp p i = some f ∧ (s.fdTable f).fdInode = some n

/-- What keeps a request to open from failing behind a change: a path with a slash in its name is not
to be created, the name fits its array, there is room for a new file, and a file of the directory can
be opened. -/
structure OpenSafe (s : Fs) (p : Pid) (msg : Message) : Prop where
  rejected : stripPath (s.pathOf p msg) = none → s.HasSlots p ∧ oCreat msg.m3i1 = false
  name : s.HasSlots p → ∀ name, stripPath (s.pathOf p msg) = some name →
    name.length < maxFilenameLen
  room : s.HasSlots p → Creates s (s.pathOf p msg) msg.m3i1 → s.HasRoom
  file : s.HasSlots p → Opens s (s.pathOf p msg) msg.m3i1 →
    s.Passes (s.lookup (s.pathOf p msg)) msg.m3i1

/-- A mounted file system: the root directory is in the cache, its number is allocated and it has
sectors, and the directory, the maps and their sectors have numbers and positions that fit. -/
structure ReadyAt (s : Fs) (r : Fin nrInode) : Prop extends RootAt s r where
  held : (s.inodeTable r).iCnt ≠ 0
  taken : ¬ Free s.disk 2 (s.inodeTable r).iNum.toNat
  maps : s.sb.MapsOk
  fits : FirstFits s.sb s.disk
  sects : 0 < (s.inodeTable r).iNrSects
  size : (s.inodeTable r).iSize ≤ sectorSize * (s.inodeTable r).iNrSects

theorem Fs.OpenedAt.nonneg {s : Fs} {p : Pid} {fd : Int} {n : Fin nrInode}
    (h : s.OpenedAt p fd n) : 0 ≤ fd := by
  obtain ⟨i, f, hi, -⟩ := h
  by_contra hneg
  rw [FS.fdIndex, dif_neg fun h => hneg h.1] at hi
  cases hi

section Map

variable {s s' : Fs} {p : Pid} {b nr : Nat}

theorem Fs.SameOpen.free_iff (h : s.SameOpen p s') (hb : b < s.sb.imapBits) :
    Free s'.disk 2 b ↔ Free s.disk 2 b := by
  have hs : sectorSize = 512 := rfl
  have hbyte : (sectBit 2 + b) / 8 <
      sectorSize * (2 + s.sb.nrImapSects + s.sb.nrSmapSects + s.sb.nrInodeSects) := by
    rw [SuperBlock.imapBits, hs] at hb
    rw [sectBit, hs]
    omega
  rw [Free, Free, bitAt_congr (h.front _ hbyte)]

theorem ImapAllocated.free_iff (h : ImapAllocated s nr s') :
    Free s'.disk s.sb.smapSect b ↔ Free s.disk s.sb.smapSect b := by
  obtain ⟨buf, rfl⟩ := h.state
  have hlt := h.lt
  have hs : sectorSize = 512 := rfl
  have hne : sectBit s.sb.smapSect + b ≠ 8 * (sectorSize * 2 + nr / 8) + nr % 8 := by
    rw [SuperBlock.imapBits, hs] at hlt
    rw [sectBit, SuperBlock.smapSect, hs]
    omega
  change bitAt (setBit s.disk _ _) _ = false ↔ _
  rw [bitAt_setBit (Nat.mod_lt _ (by decide)), decide_eq_false hne, Bool.or_false, Free]

theorem ImapAllocated.count_eq (h : ImapAllocated s nr s') :
    Nat.count (Free s'.disk s'.sb.smapSect) s'.sb.smapBits =
      Nat.count (Free s.disk s.sb.smapSect) s.sb.smapBits := by
  have hsb : s'.sb.smapSect = s.sb.smapSect ∧ s'.sb.smapBits = s.sb.smapBits := by
    obtain ⟨buf, rfl⟩ := h.state
    exact ⟨rfl, rfl⟩
  rw [hsb.1, hsb.2]
  exact Nat.le_antisymm (Nat.count_mono_left fun b _ hb => h.free_iff.mp hb)
    (Nat.count_mono_left fun b _ hb => h.free_iff.mpr hb)

theorem ImapAllocated.firstFits (h : ImapAllocated s nr s') (hfit : FirstFits s.sb s.disk) :
    FirstFits s'.sb s'.disk := by
  intro f hf hfree hfirst
  have hsb : s'.sb.smapSect = s.sb.smapSect ∧ s'.sb.smapBits = s.sb.smapBits ∧
      s'.sb.bitSect f = s.sb.bitSect f := by
    obtain ⟨buf, rfl⟩ := h.state
    exact ⟨rfl, rfl, rfl⟩
  rw [hsb.1] at hfree hfirst
  rw [hsb.2.1] at hf
  rw [hsb.2.2]
  exact hfit f hf (h.free_iff.mp hfree) fun g hg hfree' => hfirst g hg (h.free_iff.mpr hfree')

theorem ImapAllocated.bit (h : ImapAllocated s nr s') : bitAt s'.disk (sectBit 2 + nr) = true := by
  obtain ⟨buf, rfl⟩ := h.state
  have hplace : sectBit 2 + nr = 8 * (sectorSize * 2 + nr / 8) + nr % 8 := by
    rw [sectBit]
    omega
  change bitAt (setBit s.disk _ _) _ = true
  rw [bitAt_setBit (Nat.mod_lt _ (by decide)), decide_eq_true hplace, Bool.or_true]

/-- Once a number has been allocated something has changed. -/
theorem ImapAllocated.not_sameOpen {s'' : Fs} (h : ImapAllocated s nr s')
    (hbit : bitAt s''.disk (sectBit 2 + nr) = true) : ¬ s.SameOpen p s'' := by
  intro hsame
  have hfree := (hsame.free_iff h.lt).mpr h.free
  rw [Free, hbit] at hfree
  cases hfree

end Map

namespace FS

section Steps

variable {s : Fs} {r n : Fin nrInode} {name : List UInt8} {nr start k : Nat}

theorem fdIndex_val (i : Fin nrFiles) : fdIndex i.val = some i := by
  have hi : 0 ≤ (i.val : Int) ∧ (i.val : Int).toNat < nrFiles := ⟨Int.natCast_nonneg _, i.isLt⟩
  rw [fdIndex, dif_pos hi]
  rfl

theorem openDevice_ends (n : Fin nrInode) :
    wp (openDevice n)
      (fun _ s' => s' = s ∧
        KindOk (s.inodeTable n).iMode (s.inodeTable n).iStartSect (s.inodeTable n).iNum)
      (fun _ s' => s' = s ∧
        ¬ KindOk (s.inodeTable n).iMode (s.inodeTable n).iStartSect (s.inodeTable n).iNum) s := by
  simp only [openDevice, wp_bind, wp_get, wp_ite, wp_check]
  generalize s.inodeTable n = i
  refine ⟨fun hc => ?_, fun hc => ⟨fun hd => ?_, fun hd => ?_⟩⟩
  · rw [KindOk, if_pos hc, driverOf]
    split
    · rename_i h
      simp [h]
    · rename_i h
      simp [h]
    · rename_i h
      simp [h]
  · rw [KindOk, if_neg hc, if_pos hd]
    simp
  · rw [KindOk, if_neg hc, if_neg hd]
    simp

theorem newDirectoryEntry_ends (h : RootAt s r) (hsects : 0 < (s.inodeTable r).iNrSects)
    (hsize : (s.inodeTable r).iSize ≤ sectorSize * (s.inodeTable r).iNrSects) :
    wp (newDirectoryEntry r name nr)
      (fun _ s' => inodeSect s'.sb = inodeSect s.sb ∧ ∀ m, m ≠ r → s'.inodeTable m = s.inodeTable m)
      (fun _ _ => False) s := by
  refine wp_mono (newDirectoryEntry_spec h) ?_ ?_
  · rintro - s' ⟨i, j, b, -, -, rfl⟩
    exact ⟨rfl, fun m hm => Function.update_of_ne hm _ _⟩
  · rintro - - (hnone | hshort)
    · omega
    · have hs : sectorSize = 512 := rfl
      have hd : dirEntSize = 16 := rfl
      have he : entriesPerSect = 32 := rfl
      rw [Inode.slots, Inode.entries, he, hd] at hshort
      rw [hs] at hsize
      omega

theorem newInode_ends (nr start : Nat) :
    wp (newInode rootDev nr start)
      (fun n s' => (s.HasInode nr ∧ Placed s nr) ∧ ((s'.inodeTable n).iMode = iRegular ∧
        (s'.inodeTable n).iCnt = 1) ∧ Syncable s' (s'.inodeTable n) ∧
        inodeSect s'.sb = inodeSect s.sb ∧
        s'.rootInode = s.rootInode ∧ ((s.inodeTable n).iNum = nr ∨ (s.inodeTable n).iCnt = 0) ∧
        ∀ m, m ≠ n → s'.inodeTable m = s.inodeTable m)
      (fun w s' => ¬ (s.HasInode nr ∧ Placed s nr) ∧ (w = .undefined ∨ w = .panic ∧ s' = s)) s := by
  simp only [newInode, wp_bind]
  refine wp_mono (getInode_spec rootDev nr) ?_ ?_
  · intro n s₁ hload
    have htab : s.HasInode nr ∧ ((s.inodeTable n).iNum = nr ∨ (s.inodeTable n).iCnt = 0) ∧
        inodeSect s₁.sb = inodeSect s.sb ∧ s₁.rootInode = s.rootInode ∧
        ∀ m, m ≠ n → s₁.inodeTable m = s.inodeTable m := by
      rcases hload with ⟨hc, rfl⟩ | ⟨-, hf, -, -, b, rfl⟩
      · exact ⟨.inl (by simp [hc]), .inl (cachedInode_spec hc).2.2, rfl, rfl,
          fun m hm => Function.update_of_ne hm _ _⟩
      · exact ⟨.inr (by simp [hf]), .inr (freeInode_cnt hf), rfl, rfl,
          fun m hm => Function.update_of_ne hm _ _⟩
    obtain ⟨hhas, hslot, hsb, hroot, hother⟩ := htab
    simp only [setInode, wp_modify]
    refine wp_mono (syncInode_spec n) ?_ ?_
    · rintro - s₂ ⟨hsync, b, rfl⟩
      simp only [Function.update_self] at hsync
      have hplaced : Placed s nr := by
        rw [Placed, ← hsb]
        exact hsync.2
      refine ⟨⟨hhas, hplaced⟩, ?_, ?_, hsb, hroot, hslot, fun m hm => ?_⟩
      · simp
      · simp only [Function.update_self]
        exact hsync
      · exact (Function.update_of_ne hm _ _).trans (hother m hm)
    · rintro w s₂ ⟨hnot, hundef⟩
      simp only [Function.update_self] at hnot
      refine ⟨fun h => hnot ⟨rfl, ?_⟩, .inl (hundef (by simp))⟩
      have hplaced := h.2
      rw [Placed, ← hsb] at hplaced
      exact hplaced
  · rintro w s₁ ⟨hc, ⟨hf, rfl, rfl⟩ | ⟨-, hdev | ⟨rfl, hfar⟩⟩⟩
    · exact ⟨fun h => h.1.elim (· hc) (· hf), .inr ⟨rfl, rfl⟩⟩
    · exact absurd rfl hdev
    · refine ⟨fun h => ?_, .inl rfl⟩
      exact hfar.elim (fun hlow => absurd h.2.1 (Int.not_le.mpr hlow)) fun hhigh => hhigh h.2.2

/-- How a creation ends: with a regular file, in front of any change, or with something changed. -/
theorem createFile_ends {path : List UInt8} {p : Pid} (h : ReadyAt s r)
    (hp : stripPath path = some name) (hlen : name.length < maxFilenameLen) :
    wp (createFile path)
      (fun o s' => s.HasNumber ∧ s.HasRoom ∧ ∃ n, o = some n ∧
        ((s'.inodeTable n).iMode = iRegular ∧ (s'.inodeTable n).iCnt = 1) ∧
        Syncable s' (s'.inodeTable n))
      (fun w s' => w = .panic ∧ ¬ s.HasNumber ∧ s.SameOpen p s' ∨
        s.HasNumber ∧ ¬ s.HasRoom ∧ ¬ (w ≠ .undefined ∧ s.SameOpen p s')) s := by
  rw [createFile, hp]
  simp only [fitsFilename, if_pos hlen, rootNode, wp_bind, wp_pure, wp_get, h.root, h.dev]
  refine wp_mono (allocImapBit_spec h.maps) ?_ ?_
  · intro nr s₁ himap
    have hnumber : s.HasNumber := ⟨nr, himap.lt, himap.free⟩
    have hinode : (∀ nr' : Nat, Free s.disk 2 nr' → (∀ m, m < nr' → ¬ Free s.disk 2 m) →
        s.HasInode nr' ∧ Placed s nr') ↔ s.HasInode nr ∧ Placed s nr := by
      refine ⟨fun h => h nr himap.free himap.first, fun h nr' hfree hfirst => ?_⟩
      have hle : nr' = nr := by
        rcases Nat.lt_trichotomy nr' nr with hlt | heq | hgt
        · exact absurd hfree (himap.first nr' hlt)
        · exact heq
        · exact absurd himap.free (hfirst nr hgt)
      rw [hle]
      exact h
    have hne : (s.inodeTable r).iNum ≠ nr := by
      intro heq
      refine h.taken ?_
      rw [heq]
      exact himap.free
    have hcount := himap.count_eq
    have hfit₁ := himap.firstFits h.fits
    have hbit := himap.bit
    have hchanged : ∀ s'' : Fs, bitAt s''.disk (sectBit 2 + nr) = true → ¬ s.SameOpen p s'' :=
      fun s'' => himap.not_sameOpen
    obtain ⟨buf, rfl⟩ := himap.state
    refine wp_mono (allocSmapBit_spec (s := s.onDisk _ _ _) ⟨h.maps.addr, h.maps.first⟩ hfit₁
      (by decide)) ?_ ?_
    · intro sect s₂ hsmap
      have hsects : nrDefaultFileSects ≤ Nat.count (Free s.disk s.sb.smapSect) s.sb.smapBits :=
        Nat.le_trans hsmap.enough (Nat.le_of_eq hcount)
      have hbit₂ := (hsmap.taken _).mpr (.inl hbit)
      obtain ⟨disk₂, buf₂, rfl⟩ := hsmap.state
      refine wp_mono (newInode_ends nr sect) ?_ ?_
      · rintro n s₃ ⟨hhas, hmode, hsync, hsb, hroot, hslot, hother⟩
        have hroom : s.HasRoom := ⟨hsects, hinode.mpr hhas⟩
        have hn : r ≠ n := by
          rintro rfl
          exact hslot.elim hne h.held
        have hdir : s₃.inodeTable r = s.inodeTable r := hother r hn
        have hrootAt : RootAt s₃ r := by
          refine ⟨hroot.trans h.root, ?_, ?_, ?_, ?_⟩
          · rw [hdir]
            exact h.dev
          · rw [hdir]
            exact h.num
          · rw [hdir, hsb]
            exact h.inode
          · rw [hdir]
            exact h.addr
        refine wp_mono (newDirectoryEntry_ends hrootAt (hdir ▸ h.sects) (hdir ▸ h.size)) ?_
          fun _ _ h => h.elim
        rintro - s₄ ⟨hsb₄, hsame⟩
        refine ⟨hnumber, hroom, n, rfl, ?_, ?_⟩
        · rw [hsame n hn.symm]
          exact hmode
        · rw [hsame n hn.symm, Syncable, hsb₄]
          exact hsync
      · rintro w s₃ ⟨hnot, hend⟩
        refine .inr ⟨hnumber, fun h => hnot (hinode.mp h.inode), fun hkept => ?_⟩
        rcases hend with rfl | ⟨-, rfl⟩
        · exact hkept.1 rfl
        · exact hchanged _ hbit₂ hkept.2
    · rintro w s₂ ⟨rfl, hsmap⟩
      have hshort : ¬ s.HasRoom := fun h => absurd hsmap.short
        (Nat.not_lt.mpr (Nat.le_trans h.sects (Nat.le_of_eq hcount.symm)))
      exact .inr ⟨hnumber, hshort, fun hkept =>
        hchanged _ ((hsmap.taken _).mpr (.inl hbit)) hkept.2⟩
  · rintro w s₁ ⟨rfl, hfull⟩
    obtain ⟨buf, rfl⟩ := hfull.state
    refine .inl ⟨rfl, ?_, ?_⟩
    · rintro ⟨b, hb, hfree⟩
      exact hfull.full b hb hfree
    · exact ⟨fun _ _ => rfl, fun _ _ _ _ _ => rfl, rfl, rfl, rfl⟩

theorem searchFile_ends {path : List UInt8} (h : ReadyAt s r) (hp : stripPath path = some name)
    (hlen : name.length < maxFilenameLen) :
    wp (searchFile path) (fun nr s' => (∃ b, s' = { s with fsbuf := b }) ∧ nr = s.lookup path)
      (fun _ _ => False) s := by
  have hs : sectorSize = 512 := rfl
  have haddr : sectorSize * ((s.inodeTable r).iStartSect +
      ((s.inodeTable r).iSize + sectorSize - 1) / sectorSize) ≤ 2 ^ 31 := by
    have hend := h.addr
    have hsize := h.size
    rw [hs] at hend hsize ⊢
    omega
  have htotal : wp (searchFile path) (fun _ _ => True) (fun _ _ => False) s := by
    by_cases hne : name = []
    · subst hne
      exact wp_mono (h.toRootAt.searchFile_nil hp) (fun _ _ _ => trivial) fun _ _ h => h
    · exact wp_mono (searchFile_firstNamed h.root h.dev haddr hp hne hlen)
        (fun _ _ _ => trivial) fun _ _ h => h
  exact wp_mono (wp_and (searchFile_spec path) htotal) (fun _ _ h => ⟨h.1.1, h.1.2.1⟩)
    fun _ _ h => h.2

theorem openInode_ends {path : List UInt8} {flags : Int} {p : Pid} (h : ReadyAt s r)
    (hp : stripPath path = some name) (hlen : name.length < maxFilenameLen) :
    wp (openInode path flags)
      (fun o s' => match o with
        | none => s.SameOpen p s' ∧ ¬ Creates s path flags ∧ ¬ Opens s path flags
        | some n => (s'.inodeTable n).iDev = rootDev ∧
          ((Creates s path flags ∧ s.HasRoom ∧ ((s'.inodeTable n).iMode = iRegular ∧
              (s'.inodeTable n).iCnt = 1) ∧ Syncable s' (s'.inodeTable n)) ∨
            (Opens s path flags ∧ (s'.inodeTable n).iNum = s.lookup path ∧
              (s'.inodeTable n).disk = s.inodeOf (s.lookup path) ∧
              (s.PlacedFor (s.lookup path) flags ↔
                (oTrunc flags = true → Syncable s' (s'.inodeTable n))))))
      (fun w s' => (w ≠ .undefined ∧ s.SameOpen p s') ∧ ¬ Creates s path flags ∧
          ¬ Opens s path flags ∨
        ¬ (w ≠ .undefined ∧ s.SameOpen p s') ∧ (Creates s path flags ∧ ¬ s.HasRoom ∨
          Opens s path flags ∧ ¬ s.PlacedFor (s.lookup path) flags)) s := by
  simp only [openInode, wp_bind]
  refine wp_mono (searchFile_ends h hp hlen) ?_ (fun _ _ h => h.elim)
  rintro nr s₁ ⟨⟨b, rfl⟩, rfl⟩
  have hsame : s.SameOpen p { s with fsbuf := b } :=
    ⟨fun _ _ => rfl, fun _ _ _ _ _ => rfl, rfl, rfl, rfl⟩
  have hready : ReadyAt { s with fsbuf := b } r :=
    ⟨⟨h.root, h.dev, h.num, h.inode, h.addr⟩, h.held, h.taken, h.maps, h.fits, h.sects, h.size⟩
  simp only [wp_ite]
  refine ⟨fun hmiss => ⟨fun hcreat => ?_, fun hcreat => ?_⟩, fun hfound =>
    ⟨fun hrdwr => ⟨fun hno => ?_, fun hyes => ?_⟩, fun hrdwr => ?_⟩⟩
  · have hopen : ¬ Opens s path flags := fun ho => ho.found hmiss
    rw [wp_bind]
    refine wp_mono (createFile_ends (p := p) hready hp hlen) ?_ ?_
    · rintro o s₂ ⟨hnumber, hroom, n, rfl, hmode, hsync⟩
      exact ⟨hsync.1, .inl ⟨⟨hmiss, hcreat, hnumber⟩, ⟨hroom.sects, hroom.inode⟩, hmode, hsync⟩⟩
    · rintro w s₂ (⟨rfl, hfull, hkept⟩ | ⟨hnumber, hroom, hchanged⟩)
      · exact .inl ⟨⟨by decide, hkept.front, hkept.dir, hkept.inodeTable, hkept.fdTable,
          hkept.filp⟩, fun hc => hfull hc.number, hopen⟩
      · refine .inr ⟨fun hkept => ?_, .inl ⟨⟨hmiss, hcreat, hnumber⟩,
          fun hr => hroom ⟨hr.sects, hr.inode⟩⟩⟩
        obtain ⟨hw, hsame₂⟩ := hkept
        exact hchanged ⟨hw, hsame₂.front, hsame₂.dir, hsame₂.inodeTable, hsame₂.fdTable,
          hsame₂.filp⟩
  · exact ⟨hsame, fun hc => hcreat hc.creat, fun ho => ho.found hmiss⟩
  · refine ⟨hsame, fun hc => hfound hc.missing, fun ho => ?_⟩
    simp only [Bool.and_eq_true, Bool.not_eq_true'] at hno
    rw [ho.trunc hno.1] at hno
    cases hno.2
  · have htrunc : oCreat flags = true → oTrunc flags = true := by
      intro hcreat
      simpa [hcreat] using hyes
    simp only [rootNode, wp_bind, wp_get, h.root, wp_pure, h.dev]
    refine wp_mono (getInode_spec rootDev (s.lookup path)) ?_ ?_
    · rintro n s₂ (⟨hc, rfl⟩ | ⟨hc, hf, hplaced, -, b', rfl⟩)
      · obtain ⟨-, hdev, hnum⟩ := cachedInode_spec hc
        have hc' : cachedInode s.inodeTable rootDev (s.lookup path) = some n := hc
        have hdisk : (s.inodeTable n).disk = s.inodeOf (s.lookup path) := by
          rw [Fs.inodeOf, hc']
        simp only [Function.update_self]
        refine ⟨hdev, .inr ⟨⟨hfound, hrdwr, htrunc, .inl (by simp [hc'])⟩, hnum, hdisk, ?_⟩⟩
        rw [Fs.PlacedFor, hc', ← hnum]
        exact ⟨fun hplaced htr => ⟨hdev, hplaced (.inr htr)⟩,
          fun hsync htr => (hsync (htr.resolve_left (by simp))).2⟩
      · have hc' : cachedInode s.inodeTable rootDev (s.lookup path) = none := hc
        have hf' : freeInode s.inodeTable = some n := hf
        have hdisk : (Inode.loaded rootDev (s.lookup path) (diskInodeAt s.disk
            (inodePlace s.sb (s.lookup path).toNat))).disk = s.inodeOf (s.lookup path) := by
          rw [Fs.inodeOf, hc']
          rfl
        simp only [Function.update_self]
        exact ⟨rfl, .inr ⟨⟨hfound, hrdwr, htrunc, .inr (by simp [hf'])⟩, rfl, hdisk,
          fun _ _ => ⟨rfl, hplaced⟩, fun _ _ => hplaced⟩⟩
    · rintro w s₂ ⟨hc, ⟨hf, rfl, rfl⟩ | ⟨hf, hdev | ⟨rfl, hfar⟩⟩⟩
      · exact .inl ⟨⟨by decide, fun _ _ => rfl, fun _ _ _ _ _ => rfl, rfl, rfl, rfl⟩,
          fun hc' => hfound hc'.missing, fun ho => ho.inode.elim (· hc) (· hf)⟩
      · exact absurd rfl hdev
      · refine .inr ⟨fun hkept => hkept.1 rfl, .inr ⟨⟨hfound, hrdwr, htrunc, .inr hf⟩,
          fun hplaced => ?_⟩⟩
        have hat := hplaced (.inl hc)
        exact hfar.elim (fun hlow => absurd hat.1 (Int.not_le.mpr hlow)) fun hhigh => hhigh hat.2
  · exact ⟨hsame, fun hc => hfound hc.missing, fun ho => hrdwr ho.rdwr⟩

theorem trunc_ends {flags : Int} (hdev : (s.inodeTable n).iDev = rootDev) :
    wp (when (oTrunc flags = true) do
        setInode n fun i => { i with iSize := 0 }
        syncInode n)
      (fun _ s' => (oTrunc flags = true → Syncable s (s.inodeTable n)) ∧
        (s'.inodeTable n).iMode = (s.inodeTable n).iMode ∧
        (s'.inodeTable n).iCnt = (s.inodeTable n).iCnt ∧
        (s'.inodeTable n).iStartSect = (s.inodeTable n).iStartSect ∧
        (s'.inodeTable n).iNum = (s.inodeTable n).iNum)
      (fun w _ => w = .undefined ∧ ¬ (oTrunc flags = true → Syncable s (s.inodeTable n))) s := by
  rw [wp_when, wp_bind, setInode, wp_modify]
  refine ⟨fun htrunc => ?_, fun hno => ⟨fun h => absurd h hno, rfl, rfl, rfl, rfl⟩⟩
  refine wp_mono (syncInode_spec n) ?_ ?_
  · rintro - s₁ ⟨hsync, b, rfl⟩
    simp only [Function.update_self] at hsync ⊢
    exact ⟨fun _ => hsync, trivial, trivial, trivial, trivial⟩
  · rintro w s₁ ⟨hnot, hundef⟩
    simp only [Function.update_self] at hnot hundef
    exact ⟨hundef hdev, fun h => hnot (h htrunc)⟩

theorem bindDesc_ends {s₀ : Fs} {p : Pid} {i : Fin nrFiles} (hi : s₀.filp p i = none)
    (f : Fin nrFileDesc) (flags : Int) :
    wp (do
        setFilp p i (some f)
        setDesc f fun d => { d with fdInode := some n, fdCnt := 1, fdMode := flags, fdPos := 0 }
        openDevice n
        return (i.val : Int))
      (fun fd s' => (s'.OpenedAt p fd n ∧ s'.inodeTable = s.inodeTable) ∧
        KindOk (s.inodeTable n).iMode (s.inodeTable n).iStartSect (s.inodeTable n).iNum)
      (fun _ s' => ¬ s₀.SameOpen p s' ∧
        ¬ KindOk (s.inodeTable n).iMode (s.inodeTable n).iStartSect (s.inodeTable n).iNum) s := by
  simp only [setFilp, setDesc, wp_bind, wp_modify]
  refine wp_mono (openDevice_ends n) ?_ ?_
  · rintro - s' ⟨rfl, hkind⟩
    refine ⟨⟨⟨i, f, fdIndex_val i, ?_, ?_⟩, rfl⟩, hkind⟩
    · dsimp only
      rw [Function.update_self, Function.update_self]
    · dsimp only
      rw [Function.update_self]
  · rintro w s' ⟨rfl, hkind⟩
    refine ⟨fun hsame => ?_, hkind⟩
    have hbound := congrFun hsame.filp i
    rw [hi] at hbound
    simp at hbound

theorem openSafe_of {p : Pid} {msg : Message} (hp : stripPath (s.pathOf p msg) = some name)
    (hlen : name.length < maxFilenameLen)
    (hroom : Creates s (s.pathOf p msg) msg.m3i1 → s.HasRoom)
    (hfile : Opens s (s.pathOf p msg) msg.m3i1 →
      s.Passes (s.lookup (s.pathOf p msg)) msg.m3i1) : OpenSafe s p msg where
  rejected := fun hnone => by simp [hp] at hnone
  name := fun _ name' hp' => by
    rw [hp] at hp'
    obtain rfl := Option.some.inj hp'
    exact hlen
  room := fun _ => hroom
  file := fun _ => hfile

theorem bound_ends {s₀ : Fs} {p : Pid} {i : Fin nrFiles} (hi : s₀.filp p i = none)
    (f : Fin nrFileDesc) (flags : Int) (hdev : (s.inodeTable n).iDev = rootDev) :
    wp (do
        when (oTrunc flags = true) do
          setInode n fun i => { i with iSize := 0 }
          syncInode n
        setFilp p i (some f)
        setDesc f fun d => { d with fdInode := some n, fdCnt := 1, fdMode := flags, fdPos := 0 }
        openDevice n
        return (i.val : Int))
      (fun fd s' => (s'.OpenedAt p fd n ∧ (s'.inodeTable n).iCnt = (s.inodeTable n).iCnt) ∧
        (oTrunc flags = true → Syncable s (s.inodeTable n)) ∧
        KindOk (s.inodeTable n).iMode (s.inodeTable n).iStartSect (s.inodeTable n).iNum)
      (fun w s' => ¬ (w ≠ .undefined ∧ s₀.SameOpen p s') ∧
        ¬ ((oTrunc flags = true → Syncable s (s.inodeTable n)) ∧
          KindOk (s.inodeTable n).iMode (s.inodeTable n).iStartSect (s.inodeTable n).iNum)) s := by
  rw [wp_bind]
  refine wp_mono (trunc_ends hdev) ?_ ?_
  · rintro - s' ⟨hsync, hmode, hcnt, hstart, hnum⟩
    rw [← hmode, ← hstart, ← hnum]
    refine wp_mono (bindDesc_ends hi f flags) ?_ ?_
    · rintro fd s'' ⟨⟨hopened, htab⟩, hkind⟩
      refine ⟨⟨hopened, ?_⟩, hsync, hkind⟩
      rw [htab, hcnt]
    · rintro w s'' ⟨hchanged, hkind⟩
      exact ⟨fun hkept => hchanged hkept.2, fun h => hkind h.2⟩
  · rintro w s' ⟨rfl, hnot⟩
    exact ⟨fun hkept => hkept.1 rfl, fun h => hnot h.1⟩

theorem doOpen_ends {p : Pid} {msg : Message} (h : ReadyAt s r)
    (hmsg : 0 ≤ msg.m3i2 ∧ msg.m3i2 < maxPath)
    (hp : stripPath (s.pathOf p msg) = some name) (hlen : name.length < maxFilenameLen) :
    wp (doOpen p msg) (fun fd s' => (fd < 0 → s.SameOpen p s') ∧ OpenSafe s p msg)
      (fun w s' => (w ≠ .undefined ∧ s.SameOpen p s') ↔ OpenSafe s p msg) s := by
  have hrefl : s.SameOpen p s := ⟨fun _ _ => rfl, fun _ _ _ _ _ => rfl, rfl, rfl, rfl⟩
  have hnoslots : ¬ s.HasSlots p → OpenSafe s p msg := fun hno =>
    ⟨fun hnone => by simp [hp] at hnone, fun hs => absurd hs hno, fun hs => absurd hs hno,
      fun hs => absurd hs hno⟩
  rw [doOpen, copyPath, if_pos hmsg]
  simp only [wp_bind, wp_get, wp_pure]
  refine wp_mono (freeFilp_spec p) ?_ ?_
  · rintro i s₁ ⟨rfl, hi⟩
    refine wp_mono freeDesc_spec ?_ ?_
    · rintro f s₂ ⟨rfl, hf⟩
      have hslots : s₂.HasSlots p := ⟨⟨i, hi⟩, f, hf⟩
      refine wp_mono (openInode_ends (p := p) h hp hlen) ?_ ?_
      · intro o s₃ ho
        cases o with
        | none =>
          obtain ⟨hsame, hc, hopen⟩ := ho
          exact ⟨fun _ => hsame, openSafe_of hp hlen (fun hc' => absurd hc' hc)
            fun ho' => absurd ho' hopen⟩
        | some n =>
          obtain ⟨hdev, hcase⟩ := ho
          -- the request is safe if and only if it comes to its end
          have hsafe : OpenSafe s₂ p msg ↔
              ((oTrunc msg.m3i1 = true → Syncable s₃ (s₃.inodeTable n)) ∧
                KindOk (s₃.inodeTable n).iMode (s₃.inodeTable n).iStartSect
                  (s₃.inodeTable n).iNum) := by
            rcases hcase with ⟨hc, hroom, hmode, hsync⟩ | ⟨ho, hnum, hdisk, hplaced⟩
            · refine iff_of_true (openSafe_of hp hlen (fun _ => hroom)
                fun ho => absurd hc.missing ho.found) ⟨fun _ => hsync, ?_⟩
              rw [hmode.1, KindOk, if_neg (by decide), if_neg (by decide)]
            · have hnum' : (s₃.inodeTable n).iNum = s₂.lookup (s₂.pathOf p msg) := hnum
              have hdisk' : (s₃.inodeTable n).disk = s₂.inodeOf (s₂.lookup (s₂.pathOf p msg)) := hdisk
              have hkind : KindOk (s₂.inodeOf (s₂.lookup (s₂.pathOf p msg))).mode
                  (s₂.inodeOf (s₂.lookup (s₂.pathOf p msg))).startSect
                  (s₂.lookup (s₂.pathOf p msg)) ↔
                  KindOk (s₃.inodeTable n).iMode (s₃.inodeTable n).iStartSect
                    (s₃.inodeTable n).iNum := by
                rw [← hdisk', ← hnum']
                rfl
              rw [← hplaced, ← hkind]
              exact ⟨fun hs => ⟨(hs.file hslots ho).placed, (hs.file hslots ho).kind⟩,
                fun hpass => openSafe_of hp hlen (fun hc => absurd hc.missing ho.found)
                  fun _ => ⟨hpass.1, hpass.2⟩⟩
          have hend := @bound_ends s₃ n s₂ p i hi f msg.m3i1 hdev
          rw [← hsafe] at hend
          refine wp_mono hend ?_ ?_
          · rintro fd s' ⟨hfd, hs⟩
            exact ⟨fun hneg => absurd hneg (Int.not_lt.mpr hfd.1.nonneg), hs⟩
          · rintro w s' ⟨hchanged, hno⟩
            exact iff_of_false hchanged hno
      · rintro w s₃ (⟨hkept, hc, hopen⟩ | ⟨hchanged, hbad⟩)
        · exact iff_of_true hkept (openSafe_of hp hlen (fun hc' => absurd hc' hc)
            fun ho' => absurd ho' hopen)
        · refine iff_of_false hchanged fun hsafe => ?_
          rcases hbad with ⟨hc, hroom⟩ | ⟨ho, hplaced⟩
          · exact hroom (hsafe.room hslots hc)
          · exact hplaced (hsafe.file hslots ho).placed
    · rintro w s₂ ⟨rfl, rfl, hfull⟩
      exact iff_of_true ⟨by decide, hrefl⟩ (hnoslots fun hs => hs.2.elim hfull)
  · rintro w s₁ ⟨rfl, rfl, hfull⟩
    exact iff_of_true ⟨by decide, hrefl⟩ (hnoslots fun hs => hs.1.elim hfull)

/-- With free slots and room for a file its creation returns a descriptor. -/
theorem doOpen_creates {p : Pid} {msg : Message} (h : ReadyAt s r)
    (hmsg : 0 ≤ msg.m3i2 ∧ msg.m3i2 < maxPath)
    (hp : stripPath (s.pathOf p msg) = some name) (hlen : name.length < maxFilenameLen)
    (hslots : s.HasSlots p) (hc : Creates s (s.pathOf p msg) msg.m3i1) (hroom : s.HasRoom) :
    wp (doOpen p msg) (fun fd s' => ∃ n, s'.OpenedAt p fd n ∧ (s'.inodeTable n).iCnt = 1)
      (fun _ _ => False) s := by
  have hnot : ¬ Opens s (s.pathOf p msg) msg.m3i1 := fun ho => ho.found hc.missing
  rw [doOpen, copyPath, if_pos hmsg]
  simp only [wp_bind, wp_get, wp_pure]
  refine wp_mono (freeFilp_spec p) ?_ ?_
  · rintro i s₁ ⟨rfl, hi⟩
    refine wp_mono freeDesc_spec ?_ ?_
    · rintro f s₂ ⟨rfl, -⟩
      refine wp_mono (openInode_ends (p := p) h hp hlen) ?_ ?_
      · intro o s₃ ho
        cases o with
        | none => exact absurd hc ho.2.1
        | some n =>
          obtain ⟨hdev, hcase⟩ := ho
          obtain ⟨-, -, ⟨hmode, hcnt⟩, hsync⟩ := hcase.resolve_right fun ho => hnot ho.1
          have hkind : KindOk (s₃.inodeTable n).iMode (s₃.inodeTable n).iStartSect
              (s₃.inodeTable n).iNum := by
            rw [hmode, KindOk, if_neg (by decide), if_neg (by decide)]
          refine wp_mono (@bound_ends s₃ n s₂ p i hi f msg.m3i1 hdev) ?_ ?_
          · rintro fd s' ⟨⟨hopened, hcnt'⟩, -⟩
            exact ⟨n, hopened, hcnt'.trans hcnt⟩
          · rintro w s' ⟨-, hbad⟩
            exact hbad ⟨fun _ => hsync, hkind⟩
      · rintro w s₃ (⟨-, hno, -⟩ | ⟨-, ⟨-, hfull⟩ | ⟨ho, -⟩⟩)
        · exact hno hc
        · exact hfull hroom
        · exact hnot ho
    · rintro w s₂ ⟨-, rfl, hfull⟩
      exact hslots.2.elim hfull
  · rintro w s₁ ⟨-, rfl, hfull⟩
    exact hslots.1.elim hfull

theorem openInode_unnamed {path : List UInt8} {flags : Int}
    (hno : ∀ name, stripPath path = some name → ¬ name.length < maxFilenameLen) :
    wp (openInode path flags)
      (fun o s' => o = none ∧ s' = s ∧ stripPath path = none ∧ oCreat flags = false)
      (fun w _ => w = .undefined ∧ ¬ (stripPath path = none ∧ oCreat flags = false)) s := by
  simp only [openInode, searchFile, wp_bind]
  cases hp : stripPath path with
  | some name => simp [fitsFilename, hno name hp]
  | none =>
    simp only [wp_pure, wp_ite, createFile, hp, wp_bind, wp_halt]
    exact ⟨fun _ => ⟨fun hcreat => by simp [hcreat], fun hcreat => by simpa using hcreat⟩,
      fun h => absurd trivial h⟩

theorem doOpen_unnamed {p : Pid} {msg : Message} (hmsg : 0 ≤ msg.m3i2 ∧ msg.m3i2 < maxPath)
    (hno : ∀ name, stripPath (s.pathOf p msg) = some name → ¬ name.length < maxFilenameLen) :
    wp (doOpen p msg)
      (fun fd s' => fd = -1 ∧ s' = s ∧ s.HasSlots p ∧ stripPath (s.pathOf p msg) = none ∧
        oCreat msg.m3i1 = false)
      (fun w s' => ¬ s.HasSlots p ∧ w = .panic ∧ s' = s ∨ s.HasSlots p ∧ w = .undefined ∧
        ¬ (stripPath (s.pathOf p msg) = none ∧ oCreat msg.m3i1 = false)) s := by
  rw [doOpen, copyPath, if_pos hmsg]
  simp only [wp_bind, wp_get, wp_pure]
  refine wp_mono (freeFilp_spec p) ?_ ?_
  · rintro i s₁ ⟨rfl, hi⟩
    refine wp_mono freeDesc_spec ?_ ?_
    · rintro f s₂ ⟨rfl, hf⟩
      refine wp_mono (openInode_unnamed hno) ?_ ?_
      · rintro o s₃ ⟨rfl, rfl, hnone, hcreat⟩
        exact ⟨rfl, rfl, ⟨⟨i, hi⟩, f, hf⟩, hnone, hcreat⟩
      · rintro w s₃ ⟨rfl, hnot⟩
        exact .inr ⟨⟨⟨i, hi⟩, f, hf⟩, rfl, hnot⟩
    · rintro w s₂ ⟨rfl, rfl, hfull⟩
      exact .inl ⟨fun h => h.2.elim hfull, rfl, rfl⟩
  · rintro w s₁ ⟨rfl, rfl, hfull⟩
    exact .inl ⟨fun h => h.1.elim hfull, rfl, rfl⟩

/-- A request that creates or empties a file is not refused. -/
theorem doOpen_fd {p : Pid} {msg : Message} (hcreat : oCreat msg.m3i1 = true)
    (hrdwr : oRdwr msg.m3i1 = true) (htrunc : oTrunc msg.m3i1 = true) :
    wp (doOpen p msg) (fun fd _ => 0 ≤ fd) (fun _ _ => True) s := by
  have hopen : ∀ path s, wp (openInode path msg.m3i1) (fun o _ => o ≠ none) (fun _ _ => True) s := by
    intro path s
    rw [openInode]
    refine wp_last fun nr s₁ => ?_
    rw [wp_ite, if_pos hcreat, if_pos hrdwr, hcreat, htrunc]
    refine ⟨fun _ => wp_last fun o s₂ => ?_, fun _ => ?_⟩
    · cases o with
      | none => trivial
      | some n => exact Option.some_ne_none n
    · exact wp_last fun _ _ => wp_last fun _ _ => wp_last fun n _ => Option.some_ne_none n
  rw [doOpen]
  refine wp_last fun path s₁ => wp_last fun i s₂ => wp_last fun f s₃ => ?_
  rw [wp_bind]
  refine wp_mono (hopen path s₃) (fun o s₄ ho => ?_) fun _ _ h => h
  cases o with
  | none => exact absurd rfl ho
  | some n =>
    exact wp_last fun _ _ => wp_last fun _ _ => wp_last fun _ _ => wp_last fun _ _ =>
      Int.natCast_nonneg _

/-- A request to open that fails leaves everything as it was exactly when nothing can fail behind a
change and the name fits its array. -/
theorem open_atomic_iff {p : Pid} {msg : Message} (h : ReadyAt s r)
    (hmsg : 0 ≤ msg.m3i2 ∧ msg.m3i2 < maxPath) : OpenAtomic s p msg ↔ OpenSafe s p msg := by
  by_cases hname : ∃ name, stripPath (s.pathOf p msg) = some name ∧ name.length < maxFilenameLen
  · obtain ⟨name, hp, hlen⟩ := hname
    have hslash : stripPath (s.pathOf p msg) ≠ none := by simp [hp]
    have hends := @doOpen_ends s r name p msg h hmsg hp hlen
    constructor
    · rintro ⟨hkept, -⟩
      unfold wp at hends hkept
      cases hrun : doOpen p msg s with
      | ok fd s' =>
        rw [hrun] at hends
        exact hends.2
      | stop w s' =>
        rw [hrun] at hends hkept
        exact hends.mp hkept
    · intro hsafe
      exact ⟨wp_mono hends (fun _ _ h => h.1) fun _ _ h => h.mpr hsafe,
        fun hnone => absurd hnone hslash⟩
  · have hno : ∀ name, stripPath (s.pathOf p msg) = some name → ¬ name.length < maxFilenameLen :=
      fun name hp hlen => hname ⟨name, hp, hlen⟩
    have hends := doOpen_unnamed (s := s) hmsg hno
    have hrefl : s.SameOpen p s := ⟨fun _ _ => rfl, fun _ _ _ _ _ => rfl, rfl, rfl, rfl⟩
    constructor
    · rintro ⟨hkept, hrejected⟩
      have hnone : s.HasSlots p → stripPath (s.pathOf p msg) = none ∧ oCreat msg.m3i1 = false := by
        intro hslots
        unfold wp at hends hkept
        cases hrun : doOpen p msg s with
        | ok fd s' =>
          rw [hrun] at hends
          exact hends.2.2.2
        | stop w s' =>
          rw [hrun] at hends hkept
          rcases hends with ⟨hfull, -⟩ | ⟨-, hw, -⟩
          · exact absurd hslots hfull
          · exact absurd hw hkept.1
      refine ⟨fun hslash => ?_, fun hslots name hp => ?_, fun hslots hc => ?_, fun hslots ho => ?_⟩
      · obtain ⟨s', hrun⟩ := hrejected hslash
        have hok := wp_ok hends hrun
        exact ⟨hok.2.2.1, hok.2.2.2.2⟩
      · rw [(hnone hslots).1] at hp
        cases hp
      · have hcreat := hc.creat
        rw [(hnone hslots).2] at hcreat
        cases hcreat
      · exact absurd (lookup_of_slash (hnone hslots).1) ho.found
    · intro hsafe
      refine ⟨wp_mono hends ?_ ?_, fun hslash => ?_⟩
      · rintro fd s' ⟨-, rfl, -⟩ -
        exact hrefl
      · rintro w s' (⟨-, rfl, rfl⟩ | ⟨hslots, -, hnot⟩)
        · exact ⟨by decide, hrefl⟩
        · cases hp : stripPath (s.pathOf p msg) with
          | none => exact absurd ⟨hp, (hsafe.rejected hp).2⟩ hnot
          | some name => exact absurd (hsafe.name hslots name hp) (hno name hp)
      · obtain ⟨hslots, hcreat⟩ := hsafe.rejected hslash
        unfold wp at hends
        cases hrun : doOpen p msg s with
        | ok fd s' =>
          rw [hrun] at hends
          exact ⟨s', by rw [hends.1]⟩
        | stop w s' =>
          rw [hrun] at hends
          rcases hends with ⟨hfull, -⟩ | ⟨-, -, hnot⟩
          · exact absurd hslots hfull
          · exact absurd ⟨hslash, hcreat⟩ hnot

end Steps

section Letters

theorem readyAt_letters {d : Bytes} (hroot : ¬ Free d 2 1) :
    ReadyAt { letterFs (fun t => t < 3) 3 with disk := d } letterRoot := by
  have h : DirOk (letterFs (fun t => t < 3) 3) letterRoot := by
    apply dirOk_letterFs (by decide)
    intro t ht
    simpa using ht
  refine ⟨⟨h.root, h.dev, h.num, h.inode, h.addr⟩, ?_, hroot, ⟨?_, ?_⟩, ?_, Nat.two_pos,
    h.size⟩
  · change (1 : Int) ≠ 0
    decide
  · change 512 * (2 + 1 + 1) ≤ 2 ^ 31
    decide
  · change 2 ≤ 8
    decide
  · intro f hf _ _
    have hbits : f < 4096 := hf
    change 7 + f < 2 ^ 32
    omega

/-- A request to open the file whose name is at address `t` of the sample. -/
def openLetter (t : Nat) (flags : Int) : Message :=
  { type := .open, m3i1 := flags, m3p1 := t, m3i2 := 1 }

/-- A file of the sample directory can be opened for reading and writing. -/
theorem open_atomic_letters :
    OpenAtomic (letterFs (fun t => t < 3) 3) init (openLetter 1 2) := by
  have hp : stripPath ((letterFs (fun t => t < 3) 3).pathOf init (openLetter 1 2)) = some [66] := by
    decide +kernel
  refine (open_atomic_iff (readyAt_letters (d := letterDisk fun t => t < 3) (by decide +kernel))
    (by decide)).mpr (openSafe_of hp (by decide) (fun hc => ?_) fun _ => ⟨fun _ => ⟨?_, ?_⟩, ?_⟩)
  · exact absurd hc.missing (by decide +kernel)
  · decide +kernel
  · decide +kernel
  · rw [KindOk, if_neg (by decide +kernel), if_neg (by decide +kernel)]
    decide +kernel

/-- The sample with one clear bit in its inode map, that of inode 7. -/
def lastInodeFs : Fs :=
  { letterFs (fun t => t < 3) 3 with
    disk := Function.update (letterDisk fun t => t < 3) 1024 0x7f }

/-- No sector is left for a new file: its inode number stays allocated. -/
theorem open_keeps_number : ReadyAt lastInodeFs letterRoot ∧
    (∃ s', doOpen init (openLetter 4 3) lastInodeFs = .stop .assertion s' ∧
      bitAt lastInodeFs.disk (sectBit 2 + 7) = false ∧ bitAt s'.disk (sectBit 2 + 7) = true) ∧
    ¬ OpenAtomic lastInodeFs init (openLetter 4 3) := by
  obtain ⟨s', hrun⟩ := @Result.eq_stop_of_stopOf _ _
    (doOpen init (openLetter 4 3) lastInodeFs) .assertion (by decide +kernel)
  have hstate : (doOpen init (openLetter 4 3) lastInodeFs).state = s' := by rw [hrun]; rfl
  have hbit : bitAt s'.disk (sectBit 2 + 7) = true := by
    rw [← hstate]
    decide +kernel
  have hfree : bitAt lastInodeFs.disk (sectBit 2 + 7) = false := by decide +kernel
  refine ⟨readyAt_letters (by decide +kernel), ⟨s', hrun, hfree, hbit⟩, ?_⟩
  rintro ⟨hkept, -⟩
  obtain ⟨-, hsame⟩ := wp_stop hkept hrun
  have hclear := (hsame.free_iff (b := 7) (by decide)).mpr hfree
  rw [Free, hbit] at hclear
  cases hclear

/-- A path with a slash in its name is not refused if the file is to be created. -/
example : (doOpen init { openLetter 238 3 with m3i2 := 2, m3p1 := 237 } (letterFs (fun _ => false) 0)
    ).stopOf = some .undefined := by
  decide +kernel

end Letters

end FS

end BazingaOS
