import BazingaOS.FS.Shared

/-!
# Requests on shared files

Every request keeps the references balanced, and the processes that have no file open still have none
unless they have asked for one.
-/

namespace BazingaOS

open Prog

/-- MM has given process `q` the files of its parent `p`. -/
def Fs.copyFiles (s : Fs) (p q : Pid) : Fs :=
  { s with filp := Function.update s.filp q (s.filp p) }

namespace FS

section Frame

theorem keepsFrame_setInode {n : Fin nrInode} {f : Inode → Inode}
    (h : ∀ i : Inode, { f i with iCnt := 0 } = { i with iCnt := 0 }) : KeepsFrame (setInode n f) := by
  refine .modify fun s => ?_
  simp only [Fs.frame, Prod.mk.injEq, true_and]
  funext m
  by_cases hm : m = n
  · subst hm
    rw [Function.update_self, h]
  · rw [Function.update_of_ne hm]

theorem keepsFrame_setDesc (f : Fin nrFileDesc) (g : FileDesc → FileDesc) :
    KeepsFrame (setDesc f g) := .modify fun _ => rfl

theorem keepsFrame_setFilp (p : Pid) (i : Fin nrFiles) (f : Option (Fin nrFileDesc)) :
    KeepsFrame (setFilp p i f) := .modify fun _ => rfl

theorem keepsFrame_putInode (n : Fin nrInode) : KeepsFrame (putInode n) :=
  .bind .get fun _ => .bind (.check _) fun _ => keepsFrame_setInode fun _ => rfl

theorem keepsFrame_doClose (p : Pid) (msg : Message) : KeepsFrame (doClose p msg) := by
  unfold doClose
  cases fdIndex msg.m3i1 with
  | none => exact .pure _
  | some i =>
    apply KeepsView.bind .get
    intro s
    cases s.filp p i with
    | none => exact .halt _
    | some f =>
      apply KeepsView.bind .get
      intro s
      cases (s.fdTable f).fdInode with
      | none => exact .halt _
      | some n =>
        exact .bind (keepsFrame_putInode n) fun _ => .bind (keepsFrame_setDesc _ _) fun _ =>
          .bind (keepsFrame_setFilp _ _ _) fun _ => .pure _

theorem keepsFrame_openAt (q : Pid) (i : Fin nrFiles) : KeepsFrame (openAt q i) := by
  apply KeepsView.bind .get
  intro s
  cases s.filp q i with
  | none => exact .pure _
  | some f =>
    apply KeepsView.bind .get
    intro s
    cases (s.fdTable f).fdInode with
    | none => exact .halt _
    | some n => exact .pure _

theorem keepsFrame_forkDesc (q : Pid) (i : Fin nrFiles) : KeepsFrame (forkDesc q i) := by
  apply KeepsView.bind (keepsFrame_openAt q i)
  intro o
  cases o with
  | none => exact .pure _
  | some x =>
    exact .bind (keepsFrame_setDesc _ _) fun _ => keepsFrame_setInode fun _ => rfl

theorem keepsFrame_exitDesc (q : Pid) (i : Fin nrFiles) : KeepsFrame (exitDesc q i) := by
  apply KeepsView.bind (keepsFrame_openAt q i)
  intro o
  cases o with
  | none => exact .pure _
  | some x =>
    exact .bind (keepsFrame_setInode fun _ => rfl) fun _ => .bind (keepsFrame_setDesc _ _) fun _ =>
      keepsFrame_setFilp _ _ _

theorem keepsFrame_forFiles {body : Fin nrFiles → Prog Fs Unit} (h : ∀ i, KeepsFrame (body i))
    (is : List (Fin nrFiles)) : KeepsFrame (forFiles body is) := by
  induction is with
  | nil => exact .pure _
  | cons i is ih => exact .bind (h i) fun _ => ih

end Frame

section Requests

variable {s s' : Fs} {r n : Fin nrInode} {base : Nat} {k : Fin nrInode → Int} {p q : Pid}
  {msg : Message}

theorem doOpen_shared (h : s.Shared r base k) :
    wp (doOpen p msg) (fun _ s' => s'.Shared r base k ∧
        (s'.refs = s.refs ∧ s'.fdTable = s.fdTable ∨ ∃ n i f, Opened s p n s' i f ∧
          (n = r → oRdwr msg.m3i1 = true ∧ s.lookup (s.pathOf p msg) = rootInodeNr)))
      (fun _ _ => True) s := by
  refine wp_mono (doOpen_steady h.steady) ?_ (fun _ _ _ => trivial)
  rintro v s' ⟨h', hrefs⟩
  refine ⟨⟨h', ?_, h.left⟩, hrefs⟩
  rcases hrefs with ⟨heq, -⟩ | ⟨n, i, f, hopen, -⟩
  · rw [heq]
    exact h.refs
  · rw [hopen.refs]
    exact h.refs.opens hopen.filp hopen.desc

theorem doClose_shared (h : s.Shared r base k) :
    wp (doClose p msg) (fun _ s' => s'.Shared r base k ∧
        (s'.refs = s.refs ∨ Refs.ClosesOne p s.refs s'.refs)) (fun _ _ => True) s := by
  refine wp_mono (wp_and (doClose_refs p msg) ((keepsFrame_doClose p msg).keeps s.frame s rfl)) ?_
    (fun _ _ _ => trivial)
  rintro v s' ⟨hrefs, hf⟩
  refine ⟨?_, hrefs⟩
  rcases hrefs with heq | hclose
  · exact h.recount hf (heq ▸ h.refs) fun n hn => heq ▸ hn
  · obtain ⟨hbal, hle⟩ := h.refs.closesAll (.single hclose)
    refine h.recount hf hbal fun n hn => ?_
    have hnew := hbal.cnt_nonneg (n := n) h.left
    have hold := hle n
    omega

theorem fsExit_shared (h : s.Shared r base k) (hq : procAt msg.m3i2 = some q) :
    wp (fsExit msg) (fun _ s' => s'.Shared r base k ∧
        Relation.ReflTransGen (Refs.ClosesOne q) s.refs s'.refs ∧ ∀ i, s'.filp q i = none)
      (fun _ _ => True) s := by
  rw [fsExit, hq]
  refine wp_mono (wp_and (exitFiles_refs q _)
    ((keepsFrame_forFiles (keepsFrame_exitDesc q) _).keeps s.frame s rfl)) ?_ (fun _ _ _ => trivial)
  rintro v s' ⟨⟨hrun, hnone⟩, hf⟩
  obtain ⟨hbal, hle⟩ := h.refs.closesAll hrun
  refine ⟨h.recount hf hbal fun n hn => ?_, hrun, fun i => hnone i (List.mem_finRange i)⟩
  have hnew := hbal.cnt_nonneg (n := n) h.left
  have hold := hle n
  omega

theorem fsFork_shared (h : s.Shared r base k) (hq : procAt msg.m3i2 = some q)
    (hnone : ∀ i, s.filp q i = none) :
    wp (fsFork msg) (fun _ s' => s'.Shared r base k ∧ s'.filp = (s.copyFiles p q).filp)
      (fun _ _ => True) (s.copyFiles p q) := by
  rw [fsFork, hq]
  refine wp_mono (wp_and (forkFiles_refs q _)
    ((keepsFrame_forFiles (keepsFrame_forkDesc q) _).keeps s.frame (s.copyFiles p q) rfl)) ?_
    (fun _ _ _ => trivial)
  rintro v s' ⟨hrefs, hf⟩
  have hbal : s'.refs.Balanced r k := by
    rw [hrefs]
    exact h.refs.shares (p := p) hnone
  have hfilp : s'.refs.filp = (s.copyFiles p q).filp := congrArg Refs.filp hrefs
  refine ⟨h.recount hf hbal fun n hn hz => hn ?_, hfilp⟩
  have hcount := h.refs.object n
  have hextra := @extraRefs_nonneg r n k h.left
  have hunref := refCount_eq_zero_iff.mp
    (show refCount (objects s.refs.filp s.refs.fdInode) n = 0 by omega) p
  have hnew : (s.copyFiles p q).refs.inodeCount q (List.finRange nrFiles) n = 0 := by
    refine List.countP_eq_zero.mpr fun i _ => ?_
    have hrow : (s.copyFiles p q).refs.filp q i = s.refs.filp p i := by
      change Function.update s.filp q (s.filp p) q i = s.filp p i
      rw [Function.update_self]
    rw [hrow, decide_eq_true_eq]
    exact hunref i
  rw [hrefs]
  change s.refs.iCnt n + ((s.copyFiles p q).refs.inodeCount q _ n : Int) = 0
  rw [hnew, hz]
  rfl

theorem putInode_steady {P : Nat → Prop} (h : s.Steady r base P)
    (hroot : n = r → 1 < (s.inodeTable n).iCnt) :
    wp (putInode n) (fun _ s' => s'.Steady r base P ∧ s'.disk = s.disk ∧ s'.fdTable = s.fdTable)
      (fun _ _ => True) s := by
  simp only [putInode, setInode, wp_bind, wp_get, wp_check, wp_modify]
  refine ⟨fun hpos => ⟨?_, trivial, trivial⟩, fun _ => trivial⟩
  have hn : (s.inodeTable n).iCnt ≠ 0 := by omega
  refine h.of_parts rfl rfl h.number h.rootNumber h.disk (h.cache.setCnt hn (by omega))
    (fun m => ?_) ?_ ?_ ?_
  · exact update_cases (P := fun i : Inode => i.iCnt ≠ 0 → P i.iNum.toNat) (fun _ _ => h.live n hn)
      fun _ => h.live m
  · refine update_cases (P := RootInode s.sb) (fun hr => ?_) fun _ => h.dir
    subst hr
    exact ⟨h.dir.num, h.dir.mode, h.dir.start, h.dir.sects, h.dir.entries⟩
  · refine update_cases (P := fun i : Inode => i.entries ≤ nrNumbers) (fun hr => ?_) fun _ => h.few
    subst hr
    exact h.few
  · refine update_cases (P := fun i : Inode => 0 < i.iCnt) (fun hr => ?_) fun _ => h.held
    have hone := hroot hr.symm
    dsimp only
    omega

theorem doStat_shared (h : s.Shared r base k) :
    wp (doStat p msg) (fun _ s' => s'.Shared r base k ∧ s'.refs = s.refs ∧ s'.fdTable = s.fdTable)
      (fun _ _ => True) s := by
  refine wp_mono (wp_and (Q := fun _ s' => s'.Steady r base (InUse s'.disk) ∧ s'.fdTable = s.fdTable)
    (E := fun _ _ => True) ?_ (doStat_refs p msg)) ?_ (fun _ _ _ => trivial)
  · simp only [doStat, wp_bind, wp_check]
    refine ⟨fun _ => ?_, fun _ => trivial⟩
    refine wp_mono (copyPath_spec p msg) ?_ (fun _ _ _ => trivial)
    rintro path s₀ ⟨rfl, rfl⟩
    refine wp_mono (searchFile_spec _) ?_ (fun _ _ _ => trivial)
    rintro nr s₁ ⟨hbuf, hlookup, -⟩
    obtain ⟨h₁, hsame₁, hrefs₁, hdisk₁⟩ := steady_buffer h.steady hbuf
    rw [wp_ite]
    refine ⟨fun _ => ⟨hdisk₁ ▸ h₁, hsame₁.1⟩, fun hnz => ?_⟩
    cases stripPath (s₀.pathOf p msg) with
    | none => trivial
    | some name =>
      simp only [rootNode, wp_bind, wp_get, h₁.root, wp_pure, h₁.rootAt.dev]
      obtain ⟨hpos, huse⟩ := (lookup_steady h.steady _).resolve_left (hlookup ▸ hnz)
      rw [← hlookup] at hpos huse
      refine wp_mono (getInode_steady h₁ hpos huse) ?_ (fun _ _ _ => trivial)
      rintro n s₂ ⟨h₂, -, -, hdisk₂, hsame₂, hrefs₂⟩
      have hroot : n = r → 1 < (s₂.inodeTable n).iCnt := by
        rintro rfl
        have hcnt : s₂.refs.iCnt n = s₁.refs.iCnt n + 1 := by
          rw [hrefs₂]
          exact Function.update_self _ _ _
        have hheld := h₁.held
        change (s₂.inodeTable n).iCnt = (s₁.inodeTable n).iCnt + 1 at hcnt
        omega
      refine wp_mono (putInode_steady h₂ hroot) ?_ (fun _ _ _ => trivial)
      rintro - s₃ ⟨h₃, hdisk₃, hfd₃⟩
      have h₃' : s₃.Steady r base (InUse s₃.disk) := by
        rw [hdisk₃, hdisk₂, hdisk₁]
        exact h₃
      exact ⟨h₃'.of_disk rfl rfl rfl h₃'.disk fun _ _ => rfl,
        hfd₃.trans (hsame₂.1.trans hsame₁.1)⟩
  · rintro v s' ⟨⟨h', hfd⟩, hrefs⟩
    exact ⟨⟨h', hrefs ▸ h.refs, h.left⟩, hrefs, hfd⟩

/-- A removal keeps the references balanced, and a refused one leaves at most one behind. -/
theorem doUnlink_shared (h : s.Shared r base k) :
    wp (doUnlink p msg) (fun v s' => s'.fdTable = s.fdTable ∧ s'.refs.filp = s.refs.filp ∧
        (s'.Shared r base k ∨ v ≠ 0 ∧ ∃ k', s'.Shared r base k')) (fun _ _ => True) s := by
  refine wp_mono (doUnlink_steady h.steady) ?_ (fun _ _ _ => trivial)
  rintro v s' ⟨h', hfd, hrefs⟩
  refine ⟨hfd, ?_, ?_⟩
  · rcases hrefs with heq | ⟨-, n, heq⟩ <;> rw [heq]
    rfl
  · rcases hrefs with heq | ⟨hv, n, heq⟩
    · exact .inl ⟨h', heq ▸ h.refs, h.left⟩
    · refine .inr ⟨hv, _, h', heq ▸ h.refs.leaves n, fun m => ?_⟩
      have hn := h.left n
      exact update_cases (P := fun c : Int => 0 ≤ c) (fun _ => by omega) fun _ => h.left m

end Requests

end FS

end BazingaOS
