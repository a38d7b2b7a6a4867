import BazingaOS.FS.Refs
import BazingaOS.FS.Sector

/-!
# The inode cache

Where inode `nr` is on disk, what `get_inode` leaves in the cache and what a path names.
-/

namespace BazingaOS

open Prog

/-- The byte at which inode `nr` begins. -/
def inodePlace (sb : SuperBlock) (nr : Nat) : Nat := sectorSize * inodeSect sb nr + inodeOff nr

theorem inodeOff_le (nr : Nat) : inodeOff nr + inodeSize ≤ sectorSize := by
  have h : (nr - 1) % 16 < 16 := Nat.mod_lt _ (by decide)
  change (nr - 1) % 16 * 32 + 32 ≤ 512
  omega

@[simp] theorem inodePlace_sbDev (sb : SuperBlock) (dev nr : Nat) :
    inodePlace { sb with sbDev := dev } nr = inodePlace sb nr := rfl

def Inode.loaded (dev : Nat) (nr : Int) (d : DiskInode) : Inode where
  iMode := d.mode
  iSize := d.size
  iStartSect := d.startSect
  iNrSects := d.nrSects
  iDev := dev
  iCnt := 1
  iNum := nr

namespace FS

variable {s : Fs} {E : Stop → Fs → Prop}

theorem wp_onDev {Q : Unit → Fs → Prop} (dev : Nat) (p : Prog Fs Unit)
    (hp : dev = rootDev → wp p Q E s) (hE : dev ≠ rootDev → E .undefined s) :
    wp (onDev dev p) Q E s := by
  rw [onDev, wp_ite]
  exact ⟨hp, hE⟩

/-- The buffer has the contents of sector `n`. -/
def BufHolds (b d : Bytes) (n : Nat) : Prop := ∀ i, i < sectorSize → b i = d (sectorSize * n + i)

theorem bufHolds_read (b d : Bytes) (n : Nat) :
    BufHolds (copyBytes b 0 d (sectorSize * n) sectorSize) d n :=
  fun _ hi => copyBytes_zero hi

theorem diskInodeAt_read (buf d : Bytes) (n off : Nat) (hoff : off + 16 ≤ sectorSize) :
    diskInodeAt (copyBytes buf 0 d (sectorSize * n) sectorSize) off =
      diskInodeAt d (sectorSize * n + off) := by
  apply diskInodeAt_shift
  intro i hi
  rw [copyBytes_zero (by omega), Nat.add_assoc]

theorem cachedInode_spec {t : Fin nrInode → Inode} {dev : Nat} {nr : Int} {n : Fin nrInode}
    (h : cachedInode t dev nr = some n) : (t n).iCnt ≠ 0 ∧ (t n).iDev = dev ∧ (t n).iNum = nr := by
  have hsome := List.find?_some h
  simpa only [decide_eq_true_eq] using hsome

theorem freeInode_cnt {t : Fin nrInode → Inode} {n : Fin nrInode} (h : freeInode t = some n) :
    (t n).iCnt = 0 := by
  have hsome := List.find?_some h
  simpa using hsome

/-- The sector of an inode has a position on the disk. -/
def Placed (s : Fs) (nr : Int) : Prop :=
  1 ≤ nr ∧ sectorSize * inodeSect s.sb nr.toNat < 2 ^ 31

/-- `get_inode` stops: no slot is free, or the inode has no place on the disk. -/
def Unloadable (s : Fs) (dev : Nat) (nr : Int) (w : Stop) (s' : Fs) : Prop :=
  cachedInode s.inodeTable dev nr = none ∧
    (freeInode s.inodeTable = none ∧ w = .panic ∧ s' = s ∨
      freeInode s.inodeTable ≠ none ∧ (dev ≠ rootDev ∨
        w = .undefined ∧ (nr < 1 ∨ ¬ sectorSize * inodeSect s.sb nr.toNat < 2 ^ 31)))

/-- `get_inode` finds the slot in use that holds the inode, or loads a free slot from disk. -/
theorem getInode_spec (dev : Nat) (nr : Int) :
    wp (getInode dev nr) (fun n s' =>
      (cachedInode s.inodeTable dev nr = some n ∧ s' = { s with
        inodeTable := Function.update s.inodeTable n
          { s.inodeTable n with iCnt := (s.inodeTable n).iCnt + 1 } }) ∨
      (cachedInode s.inodeTable dev nr = none ∧ freeInode s.inodeTable = some n ∧ Placed s nr ∧
        dev = rootDev ∧ ∃ b, s' = { s with
          fsbuf := b
          sb := { s.sb with sbDev := dev }
          inodeTable := Function.update s.inodeTable n
            (.loaded dev nr (diskInodeAt s.disk (inodePlace s.sb nr.toNat))) }))
      (Unloadable s dev nr) s := by
  simp only [getInode, wp_bind, wp_get]
  cases hc : cachedInode s.inodeTable dev nr with
  | some p => exact Or.inl ⟨rfl, rfl⟩
  | none =>
    cases hf : freeInode s.inodeTable with
    | none => exact ⟨hc, .inl ⟨hf, rfl, rfl⟩⟩
    | some q =>
      simp only [setInode, getSuperBlock, wp_bind, wp_modify, wp_ite, wp_get, wp_pure]
      have hroot : rootDev ≠ 0 := by decide
      have hfree : freeInode s.inodeTable ≠ none := by simp [hf]
      refine ⟨fun hz => ⟨hc, .inr ⟨hfree, .inl fun h => hroot (h ▸ hz)⟩⟩, fun _ =>
        ⟨fun hnr => ⟨hc, .inr ⟨hfree, .inr ⟨rfl, .inl hnr⟩⟩⟩, fun hnr => ?_⟩⟩
      apply wp_onDev _ _ _ (fun hdev => ⟨hc, .inr ⟨hfree, .inl hdev⟩⟩)
      intro hdev
      have hsect : inodeSect { s.sb with sbDev := dev } nr.toNat = inodeSect s.sb nr.toNat := rfl
      rw [hsect]
      by_cases haddr : sectorSize * inodeSect s.sb nr.toNat < 2 ^ 31
      · have hoff := inodeOff_le nr.toNat
        have hread := diskInodeAt_read s.fsbuf s.disk (inodeSect s.sb nr.toNat)
          (inodeOff nr.toNat) (by unfold inodeSize at hoff; omega)
        rw [wp_rdSect haddr]
        refine Or.inr ⟨trivial, trivial, ⟨by omega, haddr⟩, hdev, copyBytes s.fsbuf 0 s.disk
          (sectorSize * inodeSect s.sb nr.toNat) sectorSize, ?_⟩
        simp only [Function.update_self, Function.update_idem]
        rw [inodePlace, ← hread]
        rfl
      · rw [wp_rdSect_of_ge haddr]
        exact ⟨hc, .inr ⟨hfree, .inr ⟨rfl, .inr haddr⟩⟩⟩

/-- What `sync_inode` can reach: an inode of `ROOT_DEV` whose sector has a position on the disk. -/
def Syncable (s : Fs) (i : Inode) : Prop :=
  i.iDev = rootDev ∧ 1 ≤ i.iNum ∧ sectorSize * inodeSect s.sb i.iNum.toNat < 2 ^ 31

theorem syncInode_spec (p : Fin nrInode) :
    wp (syncInode p) (fun _ s' => Syncable s (s.inodeTable p) ∧ ∃ b, s' = { s with
        fsbuf := b
        sb := { s.sb with sbDev := rootDev }
        disk := putBytes s.disk (inodePlace s.sb (s.inodeTable p).iNum.toNat)
          (s.inodeTable p).disk.bytes })
      (fun w _ => ¬ Syncable s (s.inodeTable p) ∧
        ((s.inodeTable p).iDev = rootDev → w = .undefined)) s := by
  simp only [syncInode, getSuperBlock, wp_bind, wp_get, wp_modify, wp_ite, wp_halt, wp_pure]
  generalize hi : s.inodeTable p = i
  have hroot : rootDev ≠ 0 := by decide
  refine ⟨fun hz => ⟨fun h => hroot (h.1 ▸ hz), fun h => absurd (h ▸ hz) hroot⟩, fun _ =>
    ⟨fun hn => ⟨fun h => absurd h.2.1 (by omega), fun _ => trivial⟩, ?_⟩⟩
  intro hnum
  apply wp_onDev _ _ _ (fun hdev => ⟨fun h => hdev h.1, fun _ => rfl⟩)
  intro hdev
  rw [hdev]
  by_cases haddr : sectorSize * inodeSect s.sb i.iNum.toNat < 2 ^ 31
  · have hoff := inodeOff_le i.iNum.toNat
    have hsize : inodeSize = 32 := rfl
    have htake : i.disk.bytes.take (sectorSize - inodeOff i.iNum.toNat) = i.disk.bytes := by
      apply List.take_of_length_le
      rw [DiskInode.bytes_length]
      omega
    have hdisk := @copyBytes_putBytes s.disk _ (inodeOff i.iNum.toNat) _ _ i.disk.bytes
      (bufHolds_read s.fsbuf s.disk (inodeSect s.sb i.iNum.toNat)) (by omega)
    rw [htake, ← inodePlace] at hdisk
    refine (wp_rdSect haddr).mpr ?_
    rw [wp_setBuf]
    apply wp_onDev _ _ _ (fun h => absurd rfl h)
    intro _
    refine (wp_wrSect haddr).mpr ?_
    rw [← hdisk]
    exact ⟨⟨hdev, by omega, haddr⟩, _, rfl⟩
  · exact (wp_rdSect_of_ge haddr).mpr ⟨fun h => haddr h.2.2, fun _ => rfl⟩

end FS

def Fs.noBuf (s : Fs) : Fs := { s with fsbuf := fun _ => 0 }

theorem Fs.noBuf_eq_iff {s s' : Fs} : s'.noBuf = s.noBuf ↔ ∃ b, s' = { s with fsbuf := b } := by
  constructor
  · intro h
    refine ⟨s'.fsbuf, ?_⟩
    cases s
    cases s'
    simp only [Fs.noBuf, Fs.mk.injEq, true_and] at h ⊢
    exact h
  · rintro ⟨b, rfl⟩
    rfl

/-- A program that changes nothing but the buffer. -/
abbrev KeepsNoBuf {α : Type} (p : Prog Fs α) : Prop := KeepsView Fs.noBuf p

namespace FS

theorem keepsNoBuf_rdSect (n : Nat) : KeepsNoBuf (rdSect n) :=
  .ite (.modify fun _ => rfl) (.halt _)

theorem keepsNoBuf_rootNode : KeepsNoBuf rootNode := by
  apply KeepsView.bind .get
  intro s
  cases s.rootInode with
  | none => exact .halt _
  | some r => exact .pure _

theorem keepsNoBuf_searchEntry (start n : Nat) (name : List UInt8) (t : Nat) :
    KeepsNoBuf (searchEntry start n name t) :=
  .bind (.when (keepsNoBuf_rdSect _)) fun _ => .bind .get fun _ =>
    .ite (.pure _) (.ite (.pure _) (.pure _))

theorem keepsNoBuf_searchFile (path : List UInt8) : KeepsNoBuf (searchFile path) := by
  unfold searchFile
  cases stripPath path with
  | none => exact .pure _
  | some name =>
    exact .bind (.ite (.pure _) (.halt _)) fun _ => .bind .get fun _ =>
      .bind keepsNoBuf_rootNode fun _ => .ite (.pure _) (.bind (.check _) fun _ =>
        .bind (.scan (fun _ => keepsNoBuf_searchEntry _ _ _ _) _ _) fun _ => .pure _)

end FS

def Fs.pathOf (s : Fs) (p : Pid) (msg : Message) : List UInt8 :=
  cstring (fun i => s.user p (msg.m3p1 + i)) msg.m3i2.toNat

/-- The inode number that the directory has for a path, 0 for none. -/
def Fs.lookup (s : Fs) (path : List UInt8) : Int :=
  match FS.searchFile path s with
  | .ok nr _ => nr
  | .stop _ _ => 0

namespace FS

variable {s : Fs}

theorem copyPath_spec (p : Pid) (msg : Message) :
    wp (copyPath p msg.m3p1 msg.m3i2) (fun path s' => s' = s ∧ path = s.pathOf p msg)
      (fun _ _ => True) s := by
  rw [copyPath, wp_ite]
  exact ⟨fun _ => ⟨rfl, rfl⟩, fun _ => trivial⟩

/-- A search changes nothing but the buffer; a path with a slash in it names nothing. -/
theorem searchFile_spec (path : List UInt8) :
    wp (searchFile path) (fun nr s' => (∃ b, s' = { s with fsbuf := b }) ∧ nr = s.lookup path ∧
      (stripPath path = none → nr = 0)) (fun _ _ => True) s := by
  have hkeep := (keepsNoBuf_searchFile path).keeps s.noBuf s rfl
  unfold wp at hkeep ⊢
  cases hr : searchFile path s with
  | stop w s' => trivial
  | ok nr s' =>
    rw [hr] at hkeep
    refine ⟨Fs.noBuf_eq_iff.mp hkeep, by rw [Fs.lookup, hr], ?_⟩
    intro hnone
    have hzero : searchFile path s = .ok 0 s := by
      rw [searchFile, hnone]
      rfl
    rw [hzero] at hr
    cases hr
    rfl

end FS

end BazingaOS
