import BazingaOS.FS.SteadyRemove
import BazingaOS.Lib.RefCount

/-!
# Descriptors that processes share

`fs_fork` and `fs_exit` only count, as closing a file does: the disk and the inodes in the cache stay as
they are but for their counts. A descriptor counts the places of the `filp` arrays that refer to it, a
slot of the cache the places whose descriptor stands for it, the root directory one more, and every
slot those references that refused requests to remove a file have left behind.
-/

namespace BazingaOS

open Prog

/-- The state but for the counts, the descriptors, the processes and the buffer. -/
def Fs.frame (s : Fs) : Bytes × SuperBlock × Option (Fin nrInode) × (Fin nrInode → Inode) :=
  (s.disk, s.sb.layout, s.rootInode, fun n => { s.inodeTable n with iCnt := 0 })

/-- A program that changes the counts of the inodes and what refers to them. -/
abbrev KeepsFrame {α : Type} (p : Prog Fs α) : Prop := KeepsView Fs.frame p

/-- The references that no `filp` array has: one to the root directory, and those left behind. -/
def extraRefs (r : Fin nrInode) (k : Fin nrInode → Int) (n : Fin nrInode) : Int :=
  (if n = r then 1 else 0) + k n

/-- The counts are those of the references. -/
def Refs.Balanced (x : Refs) (r : Fin nrInode) (k : Fin nrInode → Int) : Prop :=
  Counted x.filp x.fdInode x.fdCnt x.iCnt (extraRefs r k)

/-- A file system in use with its references; slot `n` of the cache has `k n` left behind. -/
structure Fs.Shared (s : Fs) (r : Fin nrInode) (base : Nat) (k : Fin nrInode → Int) : Prop where
  steady : s.Steady r base (InUse s.disk)
  refs : s.refs.Balanced r k
  left : ∀ n, 0 ≤ k n

section Frame

variable {s s' : Fs} {r n : Fin nrInode} {base : Nat} {P : Nat → Prop} {k : Fin nrInode → Int}

theorem extraRefs_nonneg (hk : ∀ n, 0 ≤ k n) : 0 ≤ extraRefs r k n := by
  have hn := hk n
  rw [extraRefs]
  split <;> omega

theorem extraRefs_root (hk : ∀ n, 0 ≤ k n) : 0 < extraRefs r k r := by
  have hn := hk r
  rw [extraRefs, if_pos rfl]
  omega

theorem Refs.Balanced.cnt_nonneg {x : Refs} (h : x.Balanced r k) (hk : ∀ n, 0 ≤ k n) :
    0 ≤ x.iCnt n := by
  have hcount := h.object n
  have hextra := @extraRefs_nonneg r n k hk
  omega

theorem Refs.Balanced.cnt_root {x : Refs} (h : x.Balanced r k) (hk : ∀ n, 0 ≤ k n) :
    0 < x.iCnt r := by
  have hcount := h.object r
  have hextra := @extraRefs_root r k hk
  omega

theorem Fs.Steady.recount (h : s.Steady r base P) (hf : s'.frame = s.frame)
    (hcnt : ∀ n, 0 ≤ (s'.inodeTable n).iCnt)
    (huse : ∀ n, (s'.inodeTable n).iCnt ≠ 0 → (s.inodeTable n).iCnt ≠ 0)
    (hheld : 0 < (s'.inodeTable r).iCnt) : s'.Steady r base P := by
  simp only [Fs.frame, Prod.mk.injEq] at hf
  obtain ⟨hdisk, hsb, hroot, htab⟩ := hf
  have hfields : ∀ n, (s'.inodeTable n).iNum = (s.inodeTable n).iNum ∧
      (s'.inodeTable n).iDev = (s.inodeTable n).iDev ∧
      (s'.inodeTable n).disk = (s.inodeTable n).disk ∧
      (s'.inodeTable n).entries = (s.inodeTable n).entries := by
    intro n
    have hn := congrFun htab n
    simp only [Inode.mk.injEq, true_and] at hn
    obtain ⟨h₁, h₂, h₃, h₄, h₅, h₆⟩ := hn
    exact ⟨h₆, h₅, by rw [Inode.disk, h₁, h₂, h₃, h₄, Inode.disk],
      by rw [Inode.entries, h₂, Inode.entries]⟩
  have hcache : CacheOk s.sb s'.disk s'.inodeTable := by
    rw [hdisk]
    constructor
    · exact hcnt
    · intro n hn
      rw [(hfields n).2.1]
      exact h.cache.dev n (huse n hn)
    · intro n hn
      rw [(hfields n).1]
      exact h.cache.num n (huse n hn)
    · intro m n hm hn heq
      rw [(hfields m).1, (hfields n).1] at heq
      exact h.cache.inj m n (huse m hm) (huse n hn) heq
    · intro n nr hn hnum
      rw [(hfields n).1] at hnum
      rw [(hfields n).2.2.1]
      exact h.cache.stored n nr (huse n hn) hnum
  refine h.of_parts hsb hroot h.number h.rootNumber (hdisk ▸ h.disk) hcache (fun n hn => ?_) ?_ ?_ hheld
  · rw [(hfields n).1]
    exact h.live n (huse n hn)
  · have hr := congrFun htab r
    simp only [Inode.mk.injEq, true_and] at hr
    obtain ⟨h₁, h₂, h₃, h₄, -, h₆⟩ := hr
    have hdir := h.dir
    refine ⟨h₆.trans hdir.num, h₁.trans hdir.mode, h₃.trans hdir.start, h₄.trans hdir.sects, ?_⟩
    rw [(hfields r).2.2.2, Inode.slots, h₄]
    exact hdir.entries
  · rw [(hfields r).2.2.2]
    exact h.few

theorem Fs.Shared.recount (h : s.Shared r base k) (hf : s'.frame = s.frame)
    (hrefs : s'.refs.Balanced r k) (huse : ∀ n, s'.refs.iCnt n ≠ 0 → s.refs.iCnt n ≠ 0) :
    s'.Shared r base k := by
  have hdisk : s'.disk = s.disk := congrArg (·.1) hf
  refine ⟨?_, hrefs, h.left⟩
  rw [hdisk]
  exact h.steady.recount hf (fun n => hrefs.cnt_nonneg h.left) huse (hrefs.cnt_root h.left)

end Frame

section Steps

variable {r n : Fin nrInode} {k : Fin nrInode → Int} {x x' : Refs} {p q : Pid} {i : Fin nrFiles}
  {f : Fin nrFileDesc}

theorem Refs.Balanced.opens (h : x.Balanced r k) (hi : x.filp p i = none) (hf : x.fdInode f = none) :
    ((x.addCnt n 1).opens p i f n).Balanced r k := Counted.opens h hi hf

theorem Refs.Balanced.closes (h : x.Balanced r k) (hi : x.filp p i = some f)
    (hf : x.fdInode f = some n) : (x.closes p i f n).Balanced r k := Counted.closes h hi hf

theorem Refs.Balanced.closesAll (h : x.Balanced r k)
    (hrun : Relation.ReflTransGen (Refs.ClosesOne p) x x') :
    x'.Balanced r k ∧ ∀ n, x'.iCnt n ≤ x.iCnt n := by
  induction hrun with
  | refl => exact ⟨h, fun n => Int.le_refl _⟩
  | tail _ hstep ih =>
    obtain ⟨i, f, n, hi, hf, rfl⟩ := hstep
    refine ⟨ih.1.closes hi hf, fun m => Int.le_trans ?_ (ih.2 m)⟩
    exact update_cases (P := fun c : Int => c ≤ _) (fun hm => by subst hm; omega)
      fun _ => Int.le_refl _

theorem Refs.Balanced.leaves (h : x.Balanced r k) (n : Fin nrInode) :
    (x.addCnt n 1).Balanced r (Function.update k n (k n + 1)) := by
  refine ⟨h.handle, h.free, fun m => ?_⟩
  have hm := h.object m
  change Function.update x.iCnt n (x.iCnt n + 1) m = _
  by_cases hmn : m = n
  · subst hmn
    rw [Function.update_self, extraRefs, Function.update_self, hm, extraRefs]
    change _ + _ + _ = (refCount (objects x.filp x.fdInode) m : Int) + _
    omega
  · rw [Function.update_of_ne hmn, extraRefs, Function.update_of_ne hmn, hm, extraRefs]
    rfl

theorem Refs.Balanced.shares (h : x.Balanced r k) (hq : ∀ i, x.filp q i = none) :
    (({ x with filp := Function.update x.filp q (x.filp p) } : Refs).shares q
      (List.finRange nrFiles)).Balanced r k := by
  have hcopy := Counted.copies (p := p) h hq
  have hrow : Function.update x.filp q (x.filp p) q = x.filp p := Function.update_self _ _ _
  have hall := List.mem_finRange (n := nrFiles)
  have hnodup := List.nodup_finRange nrFiles
  refine ⟨fun f => ?_, hcopy.free, fun n => ?_⟩
  · refine Eq.trans ?_ (hcopy.handle f)
    rw [rowCount_eq_countP hnodup hall]
    simp only [Refs.shares, Refs.descCount, hrow]
  · refine Eq.trans ?_ (hcopy.object n)
    rw [rowCount_eq_countP hnodup hall]
    simp only [Refs.shares, Refs.inodeCount, hrow]

end Steps

end BazingaOS
