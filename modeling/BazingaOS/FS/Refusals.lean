import BazingaOS.FS.Sender
import BazingaOS.FS.Unlink

/-!
# Requests that fail

A request on a descriptor that is not open, and the removal of a file that is refused. A refused
request should leave the file system as it was.
-/

namespace BazingaOS

open Prog

/-- `fd` is a descriptor that `p` has open. -/
def Fs.IsOpen (s : Fs) (p : Pid) (fd : Int) : Prop := ∃ i, FS.fdIndex fd = some i ∧ s.filp p i ≠ none

/-- A request is refused: it returns a negative number and changes nothing. -/
def Refuses {α : Type} (q : Prog Fs α) (value : α → Int) (s : Fs) : Prop :=
  ∃ a, q s = .ok a s ∧ value a < 0

namespace FS

variable {s : Fs} {p : Pid} {msg : Message}

theorem fdIndex_eq_none_iff {fd : Int} : fdIndex fd = none ↔ fd < 0 ∨ nrFiles ≤ fd := by
  unfold fdIndex
  split
  · rename_i h
    have hf : nrFiles = 64 := rfl
    simp only [reduceCtorEq, false_iff]
    omega
  · rename_i h
    simp only [true_iff]
    omega

theorem not_refuses_of_wp {α : Type} {q : Prog Fs α} {value : α → Int} {E : Stop → Fs → Prop}
    (h : wp q (fun _ _ => False) E s) : ¬ Refuses q value s := by
  rintro ⟨a, ha, -⟩
  exact wp_ok h ha

section Null

variable {i : Fin nrFiles} (hi : fdIndex msg.m3i1 = some i) (hf : s.filp p i = none)

include hi hf

theorem doClose_null :
    wp (doClose p msg) (fun _ _ => False) (fun w s' => w = .undefined ∧ s' = s) s := by
  simp [doClose, hi, hf]

theorem doRdwt_null (drv : Drivers) :
    wp (doRdwt drv p msg) (fun _ _ => False) (fun w s' => w = .assertion ∧ s' = s) s := by
  simp [doRdwt, hi, hf]

theorem doLseek_null :
    wp (doLseek p msg) (fun _ _ => False) (fun w s' => w = .assertion ∧ s' = s) s := by
  simp [doLseek, hi, hf]

end Null

/-- A descriptor that is not open is refused exactly if its number is out of range: a null
descriptor is followed by `do_close` and fails an assertion of the others. -/
theorem bad_descriptor_refused_iff (drv : Drivers) (h : ¬ s.IsOpen p msg.m3i1) :
    (Refuses (doClose p msg) id s ↔ msg.m3i1 < 0 ∨ nrFiles ≤ msg.m3i1) ∧
    (Refuses (doRdwt drv p msg) Prod.fst s ↔ msg.m3i1 < 0 ∨ nrFiles ≤ msg.m3i1) ∧
    (Refuses (doLseek p msg) id s ↔ msg.m3i1 < 0 ∨ nrFiles ≤ msg.m3i1) := by
  simp only [← fdIndex_eq_none_iff]
  cases hi : fdIndex msg.m3i1 with
  | none =>
    have hclose : Refuses (doClose p msg) id s := by
      refine ⟨-1, ?_, by decide⟩
      rw [doClose, hi]
      rfl
    have hrdwt : Refuses (doRdwt drv p msg) Prod.fst s := by
      have hr : doRdwt drv p msg s = .ok (-1, msg) s := by
        rw [doRdwt, hi]
        rfl
      exact ⟨_, hr, Int.negSucc_lt_zero 0⟩
    have hlseek : Refuses (doLseek p msg) id s := by
      refine ⟨-1, ?_, by decide⟩
      rw [doLseek, hi]
      rfl
    simp only [hclose, hrdwt, hlseek, and_self]
  | some i =>
    have hf : s.filp p i = none := by
      by_contra hne
      exact h ⟨i, hi, hne⟩
    have hclose := @not_refuses_of_wp _ _ _ id _ (doClose_null hi hf)
    have hrdwt := @not_refuses_of_wp _ _ _ Prod.fst _ (doRdwt_null hi hf drv)
    have hlseek := @not_refuses_of_wp _ _ _ id _ (doLseek_null hi hf)
    simp only [hclose, hrdwt, hlseek, reduceCtorEq, and_self]

def noFiles : Fs := { disk := fun _ => 0, fsbuf := fun _ => 0 }

/-- The message that asks for something on a descriptor. -/
def onDesc (type : MsgType) (fd : Int) : Message := { type, m3i1 := fd }

theorem not_isOpen_noFiles (fd : Int) : ¬ noFiles.IsOpen p fd := by
  rintro ⟨i, -, hne⟩
  exact hne rfl

theorem negative_descriptor_refused : Refuses (doClose init (onDesc .close (-1))) id noFiles :=
  (@bad_descriptor_refused_iff _ _ (onDesc .close (-1)) (fun _ m => m)
    (not_isOpen_noFiles _)).1.mpr (by decide)

/-- A process that has no file open closes, reads, writes and seeks its descriptor 3. -/
theorem null_descriptor_not_refused : ¬ noFiles.IsOpen init 3 ∧
    ¬ Refuses (doClose init (onDesc .close 3)) id noFiles ∧
    ¬ Refuses (doRdwt (fun _ m => m) init (onDesc .read 3)) Prod.fst noFiles ∧
    ¬ Refuses (doRdwt (fun _ m => m) init (onDesc .write 3)) Prod.fst noFiles ∧
    ¬ Refuses (doLseek init (onDesc .lseek 3)) id noFiles := by
  have hi : fdIndex 3 = some ⟨3, by decide⟩ := rfl
  refine ⟨not_isOpen_noFiles 3, ?_, ?_, ?_, ?_⟩
  · exact not_refuses_of_wp (doClose_null hi rfl)
  · exact not_refuses_of_wp (doRdwt_null hi rfl _)
  · exact not_refuses_of_wp (doRdwt_null hi rfl _)
  · exact not_refuses_of_wp (doLseek_null hi rfl)

end FS

/-- The references of a slot of the cache to inode `nr` of `dev`. -/
def Inode.refsTo (dev : Nat) (nr : Int) (i : Inode) : Int :=
  if i.iDev = dev ∧ i.iNum = nr then i.iCnt else 0

/-- The references that the cache counts for inode `nr` of `dev`. -/
def Fs.refCount (s : Fs) (dev : Nat) (nr : Int) : Int := ∑ n, (s.inodeTable n).refsTo dev nr

/-- Nothing that a later request could notice has changed: the disk, the directory, the descriptors
and the references to the inodes. -/
structure Fs.SameFiles (s s' : Fs) : Prop where
  disk : s'.disk = s.disk
  rootInode : s'.rootInode = s.rootInode
  fdTable : s'.fdTable = s.fdTable
  filp : s'.filp = s.filp
  refCount : ∀ dev nr, s'.refCount dev nr = s.refCount dev nr

section References

variable {s s' : Fs} {n : Fin nrInode} {i : Inode} {dev : Nat} {nr : Int}

theorem refCount_update (h : s'.inodeTable = Function.update s.inodeTable n i) :
    s'.refCount dev nr + (s.inodeTable n).refsTo dev nr =
      s.refCount dev nr + i.refsTo dev nr := by
  rw [Fs.refCount, h]
  exact sum_update_add s.inodeTable n i (Inode.refsTo dev nr)

end References

namespace FS

variable {s : Fs}

theorem getInode_refCount (dev : Nat) (nr : Int) :
    wp (getInode dev nr) (fun _ s' => s'.refCount dev nr = s.refCount dev nr + 1)
      (fun _ _ => True) s := by
  refine wp_mono (getInode_spec dev nr) ?_ (fun _ _ _ => trivial)
  rintro n s' (⟨hc, hs'⟩ | ⟨-, hfree, -, -, b, hs'⟩)
  · obtain ⟨-, hdev, hnum⟩ := cachedInode_spec hc
    have htab : s'.inodeTable = Function.update s.inodeTable n
        { s.inodeTable n with iCnt := (s.inodeTable n).iCnt + 1 } := by
      rw [hs']
    have hup := @refCount_update _ _ _ _ dev nr htab
    simp only [Inode.refsTo, hdev, hnum, and_self, if_true] at hup
    omega
  · have htab : s'.inodeTable = Function.update s.inodeTable n
        (.loaded dev nr (diskInodeAt s.disk (inodePlace s.sb nr.toNat))) := by
      rw [hs']
    have hup := @refCount_update _ _ _ _ dev nr htab
    have hold : (s.inodeTable n).refsTo dev nr = 0 := by
      rw [Inode.refsTo, freeInode_cnt hfree, ite_self]
    have hnew : (Inode.loaded dev nr
        (diskInodeAt s.disk (inodePlace s.sb nr.toNat))).refsTo dev nr = 1 :=
      if_pos ⟨rfl, rfl⟩
    rw [hold, hnew] at hup
    omega

/-- A removal that fails in front of `get_inode` changes nothing; behind it, it keeps a
reference. -/
theorem doUnlink_fails (p : Pid) (msg : Message) :
    wp (doUnlink p msg) (fun r s' => r ≠ 0 →
      (s.pathOf p msg = [47] ∨ s.lookup (s.pathOf p msg) = 0) ∧ s.SameFiles s' ∨
      ¬ (s.pathOf p msg = [47] ∨ s.lookup (s.pathOf p msg) = 0) ∧
        ∃ dev nr, s'.refCount dev nr = s.refCount dev nr + 1) (fun _ _ => True) s := by
  simp only [doUnlink, wp_bind, wp_check]
  refine ⟨fun _ => ?_, fun _ => trivial⟩
  refine wp_mono (copyPath_spec p msg) ?_ (fun _ _ h => h)
  rintro path s₁ ⟨rfl, hpath⟩
  rw [← hpath, wp_ite]
  constructor
  · intro hroot _
    exact Or.inl ⟨Or.inl hroot, rfl, rfl, rfl, rfl, fun _ _ => rfl⟩
  intro hroot
  rw [wp_bind]
  refine wp_mono (searchFile_spec path) ?_ (fun _ _ h => h)
  rintro nr s₂ ⟨⟨b, rfl⟩, hnr, hstrip⟩
  rw [wp_ite]
  constructor
  · intro hzero _
    exact Or.inl ⟨Or.inr (hnr ▸ hzero), rfl, rfl, rfl, rfl, fun _ _ => rfl⟩
  intro hne
  have hfound : ¬ (path = [47] ∨ s₁.lookup path = 0) := by
    rw [← hnr]
    exact not_or.mpr ⟨hroot, hne⟩
  cases hs : stripPath path with
  | none => exact absurd (hstrip hs) hne
  | some name =>
    simp only [wp_bind, wp_get]
    refine wp_mono rootNode_spec ?_ (fun _ _ h => h)
    rintro dir s₃ ⟨rfl, -⟩
    refine wp_mono (getInode_refCount _ nr) ?_ (fun _ _ h => h)
    intro n s₄ hcount
    have hleak : ¬ (path = [47] ∨ s₁.lookup path = 0) ∧
        ∃ dev nr, s₄.refCount dev nr = s₁.refCount dev nr + 1 := ⟨hfound, _, nr, hcount⟩
    simp only [wp_ite]
    refine ⟨fun _ _ => Or.inr hleak, fun _ => ⟨fun _ _ => Or.inr hleak, fun _ => ?_⟩⟩
    rw [wp_bind]
    refine wp_mono (wp_true _) ?_ (fun _ _ h => h)
    intro _ s₅ _ h
    exact absurd rfl h

/-- A removal that is refused leaves everything as it was exactly if it is the path that is
refused, or names no file. -/
theorem refused_unlink_unchanged_iff {s' : Fs} {p : Pid} {msg : Message} {r : Int}
    (h : doUnlink p msg s = .ok r s') (hr : r ≠ 0) :
    s.SameFiles s' ↔ s.pathOf p msg = [47] ∨ s.lookup (s.pathOf p msg) = 0 := by
  rcases wp_ok (doUnlink_fails p msg) h hr with ⟨hc, hsame⟩ | ⟨hc, dev, nr, hcount⟩
  · exact ⟨fun _ => hc, fun _ => hsame⟩
  · constructor
    · intro hsame
      have hkeep := hsame.refCount dev nr
      omega
    · intro h
      exact absurd h hc

section Letters

/-- The directory itself, whose path is at address 238 of the sample, cannot be removed. -/
theorem unlink_root_unchanged : ∃ s',
    doUnlink init (unlinkLetter 238) (letterFs (fun t => t < 3) 3) = .ok (-1) s' ∧
      (letterFs (fun t => t < 3) 3).SameFiles s' := by
  have hok := @Result.eq_ok_of_valueOf _ _
    (doUnlink init (unlinkLetter 238) (letterFs (fun t => t < 3) 3)) (-1) (by decide +kernel)
  exact ⟨_, hok, (refused_unlink_unchanged_iff hok (by decide)).mpr (Or.inl (by decide +kernel))⟩

/-- The file in slot 0 is opened for reading and writing. -/
def letterOpened : Result Fs Int :=
  doOpen init { type := .open, m3i1 := 2, m3p1 := 0, m3i2 := 1 } (letterFs (fun t => t < 3) 3)

/-- While it is open its removal is refused. This takes a reference for good: when the file has
been closed, its removal is still refused. -/
theorem refused_unlink_leaks : letterOpened.valueOf = some 0 ∧
    ∃ s', doUnlink init (unlinkLetter 0) letterOpened.state = .ok (-1) s' ∧
      ¬ letterOpened.state.SameFiles s' ∧
      ∃ s'', doClose init (onDesc .close 0) s' = .ok 0 s'' ∧
        (doUnlink init (unlinkLetter 0) s'').valueOf = some (-1) := by
  have hok := @Result.eq_ok_of_valueOf _ _ (doUnlink init (unlinkLetter 0) letterOpened.state) (-1)
    (by decide +kernel)
  have hclose := @Result.eq_ok_of_valueOf _ _ (doClose init (onDesc .close 0)
    (doUnlink init (unlinkLetter 0) letterOpened.state).state) 0 (by decide +kernel)
  refine ⟨by decide +kernel, _, hok, fun hsame => ?_, _, hclose, by decide +kernel⟩
  rcases wp_ok (doUnlink_fails init (unlinkLetter 0)) hok (by decide) with
    ⟨hc, -⟩ | ⟨-, dev, nr, hcount⟩
  · exact absurd hc (by decide +kernel)
  · have hkeep := hsame.refCount dev nr
    omega

end Letters

end FS

end BazingaOS
