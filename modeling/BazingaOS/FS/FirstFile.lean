import BazingaOS.FS.DataArea
import BazingaOS.FS.Healthy
import BazingaOS.FS.OpenFails

/-!
# The first file

In a new file system that has room behind its root directory, a process can open `cmd.tar`, create a
file and close it.
-/

namespace BazingaOS

open Prog

theorem FS.doClose_ok {s : Fs} {p : Pid} {msg : Message} {n : Fin nrInode}
    (h : s.OpenedAt p msg.m3i1 n) (hcnt : 0 < (s.inodeTable n).iCnt) :
    ∃ s', FS.doClose p msg s = .ok 0 s' := by
  obtain ⟨i, f, hi, hf, hn⟩ := h
  have hwp : wp (FS.doClose p msg) (fun v _ => v = 0) (fun _ _ => False) s := by
    simp only [FS.doClose, hi, wp_bind, wp_get, hf, hn, FS.putInode, wp_check, FS.setInode,
      FS.setDesc, FS.setFilp, wp_modify, wp_pure]
    exact ⟨fun _ => trivial, fun hno => hno hcnt⟩
  obtain ⟨v, s', hok, rfl⟩ := exists_ok_of_wp hwp
  exact ⟨s', hok⟩

theorem Formatted.free_imap {size b : Nat} {d : Bytes} (h : Formatted size d)
    (hb : b < 8 * sectorSize) : Free d 2 b ↔ 6 ≤ b := by
  have hs : sectBit 2 = 8 * (sectorSize * 2) := rfl
  rw [Free, hs, h.imap b hb, decide_eq_false_iff_not, Nat.not_lt]

/-- A new file system, with nothing in the cache but the root directory and slot `q`. -/
structure NewFs (size : Nat) (s : Fs) (r q : Fin nrInode) : Prop where
  layout : s.layout = (FS.makeSuperBlock size).layout
  laid : s.sb.Laid
  formatted : Formatted size s.disk
  slots : ∀ t, t < 6 → slotNr s.disk s.sb.n1stSect t = slotNr newDirBytes 0 t ∧
    slotName s.disk s.sb.n1stSect t = slotName newDirBytes 0 t
  sects : nrDefaultFileSects ≤ Nat.count (Free s.disk s.sb.smapSect) s.sb.smapBits
  root : s.rootInode = some r
  dir : s.inodeTable r = .loaded rootDev rootInodeNr (inodeAfter size 1)
  other : ∀ n, n ≠ r → n ≠ q → s.inodeTable n = {}

section NewFile

variable {size : Nat} {s₀ s s' : Fs} {r q : Fin nrInode} {p : Pid} {msg : Message}
  {path name : List UInt8}

theorem JustMounted.newFs (h : JustMounted size s₀ s)
    (hmin : installStartSect + installNrSects ≤ size)
    (hsects : nrDefaultFileSects ≤ Nat.count (Free s.disk s.sb.smapSect) s.sb.smapBits) :
    ∃ r, NewFs size s r r := by
  obtain ⟨r, hroot, htab⟩ := h.table_eq (h.formatted hmin)
  refine ⟨r, h.layout, h.laid, h.formatted hmin, fun t ht => h.slot_eq (by omega), hsects, hroot,
    ?_, fun n hn _ => ?_⟩
  · rw [htab, Function.update_self]
  · rw [htab, Function.update_of_ne hn]

theorem NewFs.size_eq (h : NewFs size s r q) : (s.inodeTable r).iSize = 80 := by
  rw [h.dir]
  rfl

theorem NewFs.start_eq (h : NewFs size s r q) : (s.inodeTable r).iStartSect = s.sb.n1stSect := by
  rw [h.dir, (fields_of_layout h.layout).2.2.1]
  rfl

theorem NewFs.rootAt (h : NewFs size s r q) : RootAt s r := by
  have hs : sectorSize = 512 := rfl
  have hdef : nrDefaultFileSects = 2048 := rfl
  have hstart := h.start_eq
  have hfirst := h.laid.first
  have haddr := h.laid.addr
  refine ⟨h.root, by rw [h.dir]; rfl, by rw [h.dir]; exact Int.le_refl 1, ?_, ?_⟩
  · rw [hstart, hfirst, h.dir, inodeSect, h.laid.imap]
    have hz : ((rootInodeNr : Int).toNat - 1) * inodeSize / sectorSize = 0 := by decide
    change 1 + 1 + 1 + s.sb.nrSmapSects +
      ((rootInodeNr : Int).toNat - 1) * inodeSize / sectorSize < _
    rw [hz]
    omega
  · have hsects : (s.inodeTable r).iNrSects = nrDefaultFileSects := by
      rw [h.dir]
      rfl
    rw [hstart, hsects]
    rw [hs, hdef] at haddr ⊢
    omega

theorem NewFs.readyAt (h : NewFs size s r q) (hsize : size + 2 ^ 21 ≤ 2 ^ 32) : ReadyAt s r := by
  refine ⟨h.rootAt, ?_, ?_, mapsOk_of_layout (by omega) h.layout,
    firstFits_of_layout hsize h.layout, ?_, ?_⟩
  · rw [h.dir]
    exact show (1 : Int) ≠ 0 by decide
  · rw [h.dir]
    intro hfree
    have hone := (h.formatted.free_imap (show 1 < 8 * sectorSize by decide)).mp hfree
    omega
  · rw [h.dir]
    exact show 0 < nrDefaultFileSects by decide
  · rw [h.dir]
    exact show 5 * dirEntSize ≤ sectorSize * nrDefaultFileSects by decide

theorem NewFs.freeInode (h : NewFs size s r q) : FS.freeInode s.inodeTable ≠ none := by
  intro hnone
  have hfull := List.find?_eq_none.mp hnone
  simp only [List.mem_finRange, decide_eq_true_eq, true_imp_iff] at hfull
  -- one of three slots is neither `r` nor `q`
  obtain ⟨n, hr, hq⟩ : ∃ n : Fin nrInode, n ≠ r ∧ n ≠ q := by
    by_contra hall
    push Not at hall
    have h₀ := hall ⟨0, by decide⟩
    have h₁ := hall ⟨1, by decide⟩
    have h₂ := hall ⟨2, by decide⟩
    simp only [ne_eq, Fin.ext_iff] at h₀ h₁ h₂
    omega
  refine hfull n ?_
  rw [h.other n hr hq]

/-- Inode 6 is the first one that is free. -/
theorem NewFs.hasRoom (h : NewFs size s r q) : s.HasRoom := by
  refine ⟨h.sects, fun nr hfree hfirst => ⟨.inr h.freeInode, ?_⟩⟩
  have hsix : nr ≤ 6 := by
    by_contra hlt
    exact hfirst 6 (Nat.lt_of_not_le hlt)
      ((h.formatted.free_imap (show 6 < 8 * sectorSize by decide)).mpr (Nat.le_refl 6))
  have hlow : 6 ≤ nr :=
    (h.formatted.free_imap (Nat.lt_of_le_of_lt hsix (by decide))).mp hfree
  obtain rfl : nr = 6 := Nat.le_antisymm hsix hlow
  have hz : (6 - 1) * inodeSize / sectorSize = 0 := by decide
  have hs : sectorSize = 512 := rfl
  have hfirst := h.laid.first
  have haddr := h.laid.addr
  refine ⟨by decide, ?_⟩
  change sectorSize * inodeSect s.sb 6 < 2 ^ 31
  rw [inodeSect, h.laid.imap, hz]
  rw [hs] at haddr ⊢
  omega

theorem NewFs.hasNumber (h : NewFs size s r q) : s.HasNumber := by
  refine ⟨6, ?_, (h.formatted.free_imap (by decide)).mpr (Nat.le_refl 6)⟩
  rw [SuperBlock.imapBits, h.laid.imap]
  decide

theorem NewFs.searchFile (h : NewFs size s r q) (hp : stripPath path = some name) (hne : name ≠ [])
    (hlen : name.length < maxFilenameLen) :
    wp (FS.searchFile path) (fun nr s' => (∃ b, s' = { s with fsbuf := b }) ∧ nr = s.lookup path ∧
      FirstNamed newDirBytes 0 6 name nr) (fun _ _ => False) s := by
  have hs : sectorSize = 512 := rfl
  have hdef : nrDefaultFileSects = 2048 := rfl
  have haddr : sectorSize * ((s.inodeTable r).iStartSect +
      ((s.inodeTable r).iSize + sectorSize - 1) / sectorSize) ≤ 2 ^ 31 := by
    have hroom := h.laid.addr
    rw [h.start_eq, h.size_eq]
    rw [hs, hdef] at hroom
    rw [hs]
    omega
  have hbound : searchBound (s.inodeTable r).iSize = 6 := by
    rw [h.size_eq]
    decide
  have hfirst := searchFile_firstNamed h.root h.rootAt.dev haddr hp hne hlen
  rw [hbound, h.start_eq] at hfirst
  refine wp_mono (wp_and (FS.searchFile_spec path) hfirst) ?_ fun _ _ hE => hE.2
  rintro nr s' ⟨⟨hbuf, hlookup, -⟩, hnamed⟩
  refine ⟨hbuf, hlookup, ?_⟩
  rcases hnamed with ⟨t, ht, hname, hbefore, hnr⟩ | ⟨hnone, hzero⟩
  · refine .inl ⟨t, ht, ?_, fun u hu => ?_, ?_⟩
    · rw [← (h.slots t ht).2]
      exact hname
    · rw [← (h.slots u (Nat.lt_trans hu ht)).2]
      exact hbefore u hu
    · rw [← (h.slots t ht).1]
      exact hnr
  · refine .inr ⟨fun t ht => ?_, hzero⟩
    rw [← (h.slots t ht).2]
    exact hnone t ht

theorem NewFs.lookup_new (h : NewFs size s r q) (hp : stripPath path = some name) (hne : name ≠ [])
    (hlen : name.length < maxFilenameLen)
    (hnew : ∀ t, t < 6 → slotName newDirBytes 0 t ≠ name) : s.lookup path = 0 := by
  obtain ⟨nr, s', -, -, hnr, hnamed⟩ := exists_ok_of_wp (h.searchFile hp hne hlen)
  rw [← hnr]
  rcases hnamed with ⟨t, ht, hname, -⟩ | ⟨-, hzero⟩
  · exact absurd hname (hnew t ht)
  · exact hzero

/-- The state is a new file system in which slot `q` has been loaded. -/
theorem NewFs.of_table (h : NewFs size s r r) (hdisk : s'.disk = s.disk)
    (hsb : s'.sb.layout = s.sb.layout) (hroot : s'.rootInode = s.rootInode) (hq : q ≠ r)
    (htab : ∀ n, n ≠ q → s'.inodeTable n = s.inodeTable n) : NewFs size s' r q := by
  have hfields := SuperBlock.eq_of_layout hsb
  refine ⟨hsb.trans h.layout, ?_, hdisk ▸ h.formatted, fun t ht => ?_, ?_, hroot.trans h.root,
    (htab r hq.symm).trans h.dir, fun n hr hn => (htab n hn).trans (h.other n hr hr)⟩
  · rw [hfields]
    exact ⟨h.laid.imap, h.laid.smap, h.laid.first, h.laid.addr, h.laid.fits⟩
  · rw [hdisk, hfields]
    exact h.slots t ht
  · rw [hdisk, hfields]
    exact h.sects

theorem NewFs.storedTar (h : NewFs size s r q) : storedInode s.sb s.disk 5 = inodeAfter size 5 := by
  have hs : sectorSize = 512 := rfl
  have hi : inodeSize = 32 := rfl
  have hper : sectorSize / inodeSize = 16 := rfl
  rw [storedInode, ← h.formatted.inode 5 (by decide) (by decide)]
  congr 1
  rw [inodePlace, inodeSect, inodeOff, h.laid.imap, (fields_of_layout h.layout).2.1, hper, hs, hi]
  omega

theorem firstNamed_cmdTar {nr : Int} (h : FirstNamed newDirBytes 0 6 FS.cmdTarName nr) :
    nr = 5 := by
  have htar : slotName newDirBytes 0 4 = FS.cmdTarName ∧ slotNr newDirBytes 0 4 = 5 := by
    decide +kernel
  rcases h with ⟨t, ht, hname, hbefore, rfl⟩ | ⟨hnone, -⟩
  · have hle : t ≤ 4 := by
      by_contra hlt
      exact hbefore 4 (Nat.lt_of_not_le hlt) htar.1
    have hothers : ∀ u, u < 4 → slotName newDirBytes 0 u ≠ FS.cmdTarName := by decide +kernel
    rcases Nat.lt_or_eq_of_le hle with hlt | rfl
    · exact absurd hname (hothers t hlt)
    · exact htar.2
  · exact absurd htar.1 (hnone 4 (by decide))

/-- The inode of `cmd.tar` is loaded into a free slot. -/
theorem NewFs.openInode_cmdTar (h : NewFs size s r r) (hp : stripPath path = some FS.cmdTarName)
    {flags : Int} (hcreat : oCreat flags = false) (hrdwr : oRdwr flags = true) :
    wp (FS.openInode path flags) (fun o s' => ∃ q b, o = some q ∧ q ≠ r ∧ s' = { s with
        fsbuf := b
        sb := { s.sb with sbDev := rootDev }
        inodeTable := Function.update s.inodeTable q (.loaded rootDev 5 (inodeAfter size 5)) })
      (fun _ _ => False) s := by
  rw [FS.openInode, wp_bind]
  refine wp_mono (h.searchFile hp (by decide) (by decide)) ?_ fun _ _ hE => hE
  rintro nr s₁ ⟨⟨b, rfl⟩, -, hnamed⟩
  obtain rfl := firstNamed_cmdTar hnamed
  rw [if_neg (by decide), if_pos hrdwr, hcreat, Bool.false_and, if_neg Bool.false_ne_true]
  have hroot : (rootDev : Nat) = (s.inodeTable r).iDev := by rw [h.dir]; rfl
  simp only [FS.rootNode, wp_bind, wp_get, h.root, wp_pure, ← hroot]
  refine wp_mono (FS.getInode_spec rootDev 5) ?_ ?_
  · rintro q s₂ (⟨hc, -⟩ | ⟨-, hfree, -, -, b', rfl⟩)
    · obtain ⟨hcnt, -, hnum⟩ := FS.cachedInode_spec hc
      change (s.inodeTable q).iCnt ≠ 0 at hcnt
      change (s.inodeTable q).iNum = 5 at hnum
      by_cases hq : q = r
      · rw [hq, h.dir] at hnum
        exact absurd hnum (show (1 : Int) ≠ 5 by decide)
      · rw [h.other q hq hq] at hcnt
        exact absurd rfl hcnt
    · have hq : q ≠ r := by
        rintro rfl
        have hcnt := FS.freeInode_cnt hfree
        change (s.inodeTable q).iCnt = 0 at hcnt
        rw [h.dir] at hcnt
        exact absurd hcnt (show (1 : Int) ≠ 0 by decide)
      refine ⟨q, b', rfl, hq, ?_⟩
      rw [← h.storedTar]
      rfl
  · rintro w s₂ ⟨-, ⟨hfull, -⟩ | ⟨-, hdev | ⟨-, hfar⟩⟩⟩
    · exact h.freeInode hfull
    · exact hdev rfl
    · have hs : sectorSize = 512 := rfl
      have hz : ((5 : Int).toNat - 1) * inodeSize / sectorSize = 0 := by decide
      have hfirst := h.laid.first
      have haddr := h.laid.addr
      change (5 : Int) < 1 ∨ ¬ sectorSize * inodeSect s.sb (5 : Int).toNat < 2 ^ 31 at hfar
      rw [inodeSect, h.laid.imap, hz] at hfar
      rw [hs] at haddr hfar
      omega

theorem NewFs.opens_cmdTar (h : NewFs size s r r) (hmsg : 0 ≤ msg.m3i2 ∧ msg.m3i2 < maxPath)
    (hp : stripPath (s.pathOf p msg) = some FS.cmdTarName) (hflags : msg.m3i1 = 2)
    (hslots : s.HasSlots p) :
    wp (FS.doOpen p msg) (fun _ s' => (∃ q, NewFs size s' r q) ∧ s'.disk = s.disk ∧
      s'.user = s.user ∧ (∃ i, ∀ j, j ≠ i → s'.filp p j = s.filp p j) ∧
      ∃ f, ∀ g, g ≠ f → s'.fdTable g = s.fdTable g) (fun _ _ => False) s := by
  have hcreat : oCreat msg.m3i1 = false := by rw [hflags]; decide
  have hrdwr : oRdwr msg.m3i1 = true := by rw [hflags]; decide
  have htrunc : ¬ oTrunc msg.m3i1 = true := by rw [hflags]; decide
  rw [FS.doOpen, FS.copyPath, if_pos hmsg]
  simp only [wp_bind, wp_get, wp_pure]
  refine wp_mono (FS.freeFilp_spec p) ?_ ?_
  · rintro i s₁ ⟨rfl, -⟩
    refine wp_mono FS.freeDesc_spec ?_ ?_
    · rintro f s₂ ⟨rfl, -⟩
      refine wp_mono (h.openInode_cmdTar hp hcreat hrdwr) ?_ fun _ _ hE => hE
      rintro o s₃ ⟨q, b, rfl, hq, rfl⟩
      dsimp only
      rw [wp_bind, when, if_neg htrunc, wp_pure]
      simp only [FS.setFilp, FS.setDesc, wp_bind, wp_modify]
      refine wp_mono (FS.openDevice_ends q) ?_ ?_
      · rintro - s₄ ⟨rfl, -⟩
        refine ⟨⟨q, h.of_table rfl rfl rfl hq fun n hn => Function.update_of_ne hn _ _⟩, rfl,
          rfl, ⟨i, fun j hj => ?_⟩, f, fun g hg => Function.update_of_ne hg _ _⟩
        dsimp only
        rw [Function.update_self, Function.update_of_ne hj]
      · rintro w s₄ ⟨-, hbad⟩
        dsimp only at hbad
        rw [Function.update_self] at hbad
        refine hbad ?_
        have hmode : (Inode.loaded rootDev 5 (inodeAfter size 5)).iMode = iRegular := rfl
        rw [KindOk, hmode, if_neg (show iRegular ≠ iCharSpecial by decide),
          if_neg (show iRegular ≠ iDirectory by decide)]
    · rintro w s₂ ⟨-, rfl, hfull⟩
      exact hslots.2.elim hfull
  · rintro w s₁ ⟨-, rfl, hfull⟩
    exact hslots.1.elim hfull

end NewFile

section Smallest

/-- `open("cmd.tar", O_RDWR)`, `open("tar", O_CREAT | O_RDWR)` and `close(fd)`. -/
def openCmdTar : Message := { type := .open, m3i1 := 2, m3p1 := 0, m3i2 := 7 }

def createTar : Message := { type := .open, m3i1 := 3, m3p1 := 4, m3i2 := 3 }

def closeFile (fd : Int) : Message := { type := .close, m3i1 := fd }

def tarName : List UInt8 := [116, 97, 114]

variable {s s' : Fs} {p : Pid} {r q : Fin nrInode}

theorem pathOf_openCmdTar (h : s.user = cmdTarMem) :
    s.pathOf init openCmdTar = FS.cmdTarName := by
  rw [Fs.pathOf, h]
  decide +kernel

theorem pathOf_createTar (h : s.user = cmdTarMem) : s.pathOf init createTar = tarName := by
  rw [Fs.pathOf, h]
  decide +kernel

theorem Fs.hasSlots_of_empty (hfiles : ∀ i, s.filp p i = none)
    (htab : ∀ f, (s.fdTable f).fdInode = none) : s.HasSlots p :=
  ⟨⟨⟨0, by decide⟩, hfiles _⟩, ⟨0, by decide⟩, htab _⟩

theorem Fs.HasSlots.of_one (hfiles : ∀ i, s.filp p i = none)
    (htab : ∀ f, (s.fdTable f).fdInode = none)
    (hfilp : ∃ i, ∀ j, j ≠ i → s'.filp p j = s.filp p j)
    (hdesc : ∃ f, ∀ g, g ≠ f → s'.fdTable g = s.fdTable g) : s'.HasSlots p := by
  obtain ⟨i, hi⟩ := hfilp
  obtain ⟨f, hf⟩ := hdesc
  have hindices : Nontrivial (Fin nrFiles) := Fin.nontrivial_iff_two_le.mpr (by decide)
  have hdescs : Nontrivial (Fin nrFileDesc) := Fin.nontrivial_iff_two_le.mpr (by decide)
  obtain ⟨j, hj⟩ := exists_ne i
  obtain ⟨g, hg⟩ := exists_ne f
  refine ⟨⟨j, (hi j hj).trans (hfiles j)⟩, g, ?_⟩
  rw [hf g hg]
  exact htab g

theorem NewFs.creates_tar (h : NewFs 34816 s r q) (huser : s.user = cmdTarMem)
    (hslots : s.HasSlots init) :
    ∃ fd s' n, FS.doOpen init createTar s = .ok fd s' ∧ s'.OpenedAt init fd n ∧
      (s'.inodeTable n).iCnt = 1 := by
  have hpath := pathOf_createTar huser
  have hname : stripPath (s.pathOf init createTar) = some tarName := by
    rw [hpath]
    decide
  have hlookup : s.lookup (s.pathOf init createTar) = 0 :=
    h.lookup_new hname (by decide) (by decide) (by decide +kernel)
  have hcreates : Creates s (s.pathOf init createTar) createTar.m3i1 :=
    ⟨hlookup, by decide, h.hasNumber⟩
  obtain ⟨fd, s', hrun, n, hat, hcnt⟩ := exists_ok_of_wp (FS.doOpen_creates
    (h.readyAt (by decide)) ⟨by decide, by decide⟩ hname (by decide) hslots hcreates h.hasRoom)
  exact ⟨fd, s', n, hrun, hat, hcnt⟩

/-- On the smallest partition with room for `cmd.tar`, INIT opens it, creates a file and closes that
file. -/
theorem exists_first_file : ∃ s s' s₁ s₂ fd₀ fd, Fs.Mounted 34816 s ∧ s.DirCleared ∧
    (∀ p i, s.filp p i = none) ∧ FS.doOpen init openCmdTar s = .ok fd₀ s' ∧
    FS.doOpen init createTar s' = .ok fd s₁ ∧ FS.doClose init (closeFile fd) s₁ = .ok 0 s₂ ∧
    ∀ b, b < 4097 → (Free s'.disk 3 b ↔ nrDefaultFileSects < b) := by
  obtain ⟨s₀, s, hmount, hjust, hfilp, huser, hzero⟩ :=
    @exists_mounted_empty 34816 (by decide) (by decide) cmdTarMem
  have hN : 4097 + (FS.makeSuperBlock 34816).n1stSect ≤ installStartSect + 1 := by decide
  have hmap : 4097 ≤ (FS.makeSuperBlock 34816).smapBits := by decide
  rw [hjust.n1stSect_eq] at hzero
  have hmem : s.user = cmdTarMem := hjust.user.trans huser
  have hfiles : ∀ p i, s.filp p i = none := fun p i => by rw [hjust.filp, hfilp]
  have htab : ∀ f, (s.fdTable f).fdInode = none := fun f => by rw [hjust.fdTable]
  have hsects : nrDefaultFileSects ≤ Nat.count (Free s.disk s.sb.smapSect) s.sb.smapBits := by
    rw [SuperBlock.smapBits, (fields_of_layout hjust.layout).2.1]
    calc nrDefaultFileSects = Nat.count (Free s.disk s.sb.smapSect) 4097 :=
          (hjust.count_eq hN hmap).symm
      _ ≤ _ := Nat.count_monotone _ hmap
  obtain ⟨r, hnew⟩ := hjust.newFs (by decide) hsects
  have hcmd : stripPath (s.pathOf init openCmdTar) = some FS.cmdTarName := by
    rw [pathOf_openCmdTar hmem]
    decide
  obtain ⟨fd₀, s', hopen, ⟨q, hnew'⟩, hdisk, huser', hone, hdesc⟩ :=
    exists_ok_of_wp (hnew.opens_cmdTar ⟨by decide, by decide⟩ hcmd rfl
      (Fs.hasSlots_of_empty (hfiles init) htab))
  obtain ⟨fd, s₁, n, hcreate, hat, hcnt⟩ := hnew'.creates_tar (huser'.trans hmem)
    (.of_one (hfiles init) htab hone hdesc)
  have hpos : 0 < (s₁.inodeTable n).iCnt := by
    rw [hcnt]
    decide
  obtain ⟨s₂, hclose⟩ := @FS.doClose_ok s₁ init (closeFile fd) n hat hpos
  refine ⟨s, s', s₁, s₂, fd₀, fd, hmount, fun a ha _ => hzero a ha, hfiles, hopen, hcreate, hclose,
    fun b hb => ?_⟩
  have hsect : s.sb.smapSect = 3 := by
    rw [SuperBlock.smapSect, (fields_of_layout hjust.layout).1]
  rw [hdisk, ← hsect]
  exact hjust.free_iff_lt hN hmap hb

end Smallest

end BazingaOS
