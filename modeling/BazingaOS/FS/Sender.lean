import BazingaOS.FS.Cache

/-!
# For whom the file system acts

The handling of a message may only touch what its sender has open. `RESUME_PROC`, `FORK` and `EXIT`
name a process in their body, and a failing `UNLINK` keeps the count of the inode it has looked up.
-/

namespace BazingaOS

open Prog

namespace Refs

/-- `p` has descriptor `f` open. -/
def Owns (r : Refs) (p : Pid) (f : Fin nrFileDesc) : Prop := ∃ i, r.filp p i = some f

/-- A descriptor of `p` stands for the cached inode `n`. -/
def Refers (r : Refs) (p : Pid) (n : Fin nrInode) : Prop := ∃ f, r.Owns p f ∧ r.fdInode f = some n

/-- From `r` to `r'` only `p` opened or closed files, and every count that changed is that of a
descriptor or inode that `p` had or has open. -/
structure ActsFor (p : Pid) (r r' : Refs) : Prop where
  filp : ∀ q, q ≠ p → r'.filp q = r.filp q
  fdCnt : ∀ f, r'.fdCnt f ≠ r.fdCnt f → r.Owns p f ∨ r'.Owns p f
  iCnt : ∀ n, r'.iCnt n ≠ r.iCnt n → r.Refers p n ∨ r'.Refers p n

section ActsFor

variable {p : Pid} {r r' : Refs}

theorem ActsFor.refl : ActsFor p r r :=
  ⟨fun _ _ => rfl, fun _ h => absurd rfl h, fun _ h => absurd rfl h⟩

theorem ActsFor.opens {i : Fin nrFiles} {f : Fin nrFileDesc} {n : Fin nrInode} {k : Int} :
    ActsFor p r ((r.setCnt n k).opens p i f n) := by
  have howns : ((r.setCnt n k).opens p i f n).Owns p f := ⟨i, by simp [Refs.opens]⟩
  constructor
  · intro q hq
    simp [Refs.opens, Refs.setCnt, hq]
  · intro e he
    by_cases hef : e = f
    · rw [hef]
      exact Or.inr howns
    · simp [Refs.opens, Refs.setCnt, hef] at he
  · intro m hm
    by_cases hmn : m = n
    · rw [hmn]
      exact Or.inr ⟨f, howns, by simp [Refs.opens]⟩
    · simp [Refs.opens, Refs.setCnt, hmn] at hm

theorem ActsFor.closes (h : ClosesOne p r r') : ActsFor p r r' := by
  obtain ⟨i, f, n, hi, hf, rfl⟩ := h
  constructor
  · intro q hq
    simp [Refs.closes, hq]
  · intro e he
    by_cases hef : e = f
    · rw [hef]
      exact Or.inl ⟨i, hi⟩
    · simp [Refs.closes, hef] at he
  · intro m hm
    by_cases hmn : m = n
    · rw [hmn]
      exact Or.inl ⟨f, ⟨i, hi⟩, hf⟩
    · simp [Refs.closes, hmn] at hm

end ActsFor

end Refs

/-- `do_unlink` looks the inode up in slot `n` of the cache and then refuses to remove it. -/
def UnlinkFails (s : Fs) (p : Pid) (msg : Message) (n : Fin nrInode) : Prop :=
  ∃ dir, s.rootInode = some dir ∧ s.pathOf p msg ≠ [47] ∧ s.lookup (s.pathOf p msg) ≠ 0 ∧
    match FS.cachedInode s.inodeTable (s.inodeTable dir).iDev (s.lookup (s.pathOf p msg)) with
    | some m => m = n ∧ ((s.inodeTable n).iMode ≠ iRegular ∨ 0 < (s.inodeTable n).iCnt)
    | none => FS.freeInode s.inodeTable = some n ∧
      (diskInodeAt s.disk (inodePlace s.sb (s.lookup (s.pathOf p msg)).toNat)).mode ≠ iRegular

theorem UnlinkFails.unique {s : Fs} {p : Pid} {msg : Message} {m n : Fin nrInode}
    (hm : UnlinkFails s p msg m) (hn : UnlinkFails s p msg n) : m = n := by
  obtain ⟨dir, hdir, -, -, hm⟩ := hm
  obtain ⟨dir', hdir', -, -, hn⟩ := hn
  rw [hdir] at hdir'
  cases hdir'
  cases hc : FS.cachedInode s.inodeTable (s.inodeTable dir).iDev (s.lookup (s.pathOf p msg)) with
  | some c =>
    rw [hc] at hm hn
    exact hm.1.symm.trans hn.1
  | none =>
    rw [hc] at hm hn
    exact Option.some.inj (hm.1.symm.trans hn.1)

namespace FS

variable {s : Fs}

theorem rootNode_spec :
    wp rootNode (fun r s' => s' = s ∧ s.rootInode = some r) (fun _ _ => True) s := by
  simp only [rootNode, wp_bind, wp_get]
  cases hr : s.rootInode with
  | none => trivial
  | some r => exact ⟨rfl, rfl⟩

end FS

namespace FS

variable {s s' : Fs} {p : Pid} {msg : Message}

theorem procAt_eq_some {nr : Int} {q : Pid} : procAt nr = some q ↔ nr = q.val := by
  unfold procAt
  split
  · rename_i h
    rw [Option.some.injEq, Fin.ext_iff]
    dsimp only
    omega
  · rename_i h
    have hq := q.isLt
    simp only [reduceCtorEq, false_iff]
    omega

private def idle : Fs := { disk := fun _ => 0, fsbuf := fun _ => 0 }

private def resume (nr : Int) : Message := { type := .resumeProc, m3i3 := nr }

end FS

end BazingaOS
