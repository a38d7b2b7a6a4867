import BazingaOS.FS.ReadWrite

/-!
# Descriptors and reference counts

The part of the state that says which process has which descriptor open, which cached inode a
descriptor stands for, and how often each of them is counted. Every routine of the file system
either leaves it alone or does to it one of a few things.
-/

namespace BazingaOS

open Prog

structure Refs where
  filp : Pid → Fin nrFiles → Option (Fin nrFileDesc)
  fdCnt : Fin nrFileDesc → Int
  fdInode : Fin nrFileDesc → Option (Fin nrInode)
  iCnt : Fin nrInode → Int

def Fs.refs (s : Fs) : Refs where
  filp := s.filp
  fdCnt := fun f => (s.fdTable f).fdCnt
  fdInode := fun f => (s.fdTable f).fdInode
  iCnt := fun n => (s.inodeTable n).iCnt

namespace Refs

def setCnt (r : Refs) (n : Fin nrInode) (k : Int) : Refs :=
  { r with iCnt := Function.update r.iCnt n k }

/-- The count of a cached inode changes by `k`. -/
def addCnt (r : Refs) (n : Fin nrInode) (k : Int) : Refs := r.setCnt n (r.iCnt n + k)

/-- Descriptor `f` of inode `n` is opened at index `i` of `p`. -/
def opens (r : Refs) (p : Pid) (i : Fin nrFiles) (f : Fin nrFileDesc) (n : Fin nrInode) : Refs where
  filp := Function.update r.filp p (Function.update (r.filp p) i (some f))
  fdCnt := Function.update r.fdCnt f 1
  fdInode := Function.update r.fdInode f (some n)
  iCnt := r.iCnt

/-- Descriptor `f` of inode `n` is closed at index `i` of `p`. -/
def closes (r : Refs) (p : Pid) (i : Fin nrFiles) (f : Fin nrFileDesc) (n : Fin nrInode) :
    Refs where
  filp := Function.update r.filp p (Function.update (r.filp p) i none)
  fdCnt := Function.update r.fdCnt f (r.fdCnt f - 1)
  fdInode := Function.update r.fdInode f (if r.fdCnt f - 1 = 0 then none else r.fdInode f)
  iCnt := Function.update r.iCnt n (r.iCnt n - 1)

/-- One step of the loop of `fs_exit`. -/
def ClosesOne (p : Pid) (r r' : Refs) : Prop :=
  ∃ i f n, r.filp p i = some f ∧ r.fdInode f = some n ∧ r' = r.closes p i f n

/-- What `p` can do to the references by closing files. -/
structure Shrinks (p : Pid) (r r' : Refs) : Prop where
  other : ∀ q, q ≠ p → r'.filp q = r.filp q
  filp : ∀ i f, r'.filp p i = some f → r.filp p i = some f
  fdInode : ∀ f n, r'.fdInode f = some n → r.fdInode f = some n
  fdCnt : ∀ f, r'.fdCnt f ≠ r.fdCnt f → ∃ i, r.filp p i = some f
  iCnt : ∀ n, r'.iCnt n ≠ r.iCnt n → ∃ i f, r.filp p i = some f ∧ r.fdInode f = some n

theorem Shrinks.of_closes {p : Pid} {r r' : Refs}
    (h : Relation.ReflTransGen (ClosesOne p) r r') : Shrinks p r r' := by
  induction h with
  | refl =>
    exact ⟨fun _ _ => rfl, fun _ _ h => h, fun _ _ h => h, fun _ h => absurd rfl h,
      fun _ h => absurd rfl h⟩
  | tail _ hstep ih =>
    obtain ⟨i, f, n, hi, hf, rfl⟩ := hstep
    constructor
    · intro q hq
      rw [← ih.other q hq]
      simp [closes, hq]
    · intro j e hj
      apply ih.filp
      by_cases hji : j = i
      · simp [closes, hji] at hj
      · simpa [closes, hji] using hj
    · intro e m he
      apply ih.fdInode
      by_cases hef : e = f
      · rw [hef] at he ⊢
        simp only [closes, Function.update_self] at he
        split at he
        · cases he
        · exact he
      · simpa [closes, hef] using he
    · intro e he
      by_cases hef : e = f
      · exact ⟨i, hef ▸ ih.filp i f hi⟩
      · apply ih.fdCnt
        simpa [closes, hef] using he
    · intro m hm
      by_cases hmn : m = n
      · exact ⟨i, f, ih.filp i f hi, hmn ▸ ih.fdInode f n hf⟩
      · apply ih.iCnt
        simpa [closes, hmn] using hm

/-- The indices among `is` at which `q` has descriptor `f`, or a descriptor of inode `n`, open. -/
def descCount (r : Refs) (q : Pid) (is : List (Fin nrFiles)) (f : Fin nrFileDesc) : Nat :=
  is.countP fun i => decide (r.filp q i = some f)

def inodeCount (r : Refs) (q : Pid) (is : List (Fin nrFiles)) (n : Fin nrInode) : Nat :=
  is.countP fun i => decide ((r.filp q i).bind r.fdInode = some n)

/-- What `q` has open at the indices `is` is counted once more. -/
def shares (r : Refs) (q : Pid) (is : List (Fin nrFiles)) : Refs :=
  { r with
    fdCnt := fun f => r.fdCnt f + r.descCount q is f
    iCnt := fun n => r.iCnt n + r.inodeCount q is n }

theorem shares_cons (r : Refs) (q : Pid) (i : Fin nrFiles) (is : List (Fin nrFiles)) :
    (r.shares q [i]).shares q is = r.shares q (i :: is) := by
  simp only [shares, mk.injEq, true_and]
  constructor
  · funext f
    change r.fdCnt f + (r.descCount q [i] f : Int) + (r.descCount q is f : Int) = _
    simp only [descCount, List.countP_cons, List.countP_nil]
    omega
  · funext n
    change r.iCnt n + (r.inodeCount q [i] n : Int) + (r.inodeCount q is n : Int) = _
    simp only [inodeCount, List.countP_cons, List.countP_nil]
    omega

end Refs

/-- A view of the file system that the disk, the buffer, the device that was asked for last and the
memory of the processes have no part in, and of an inode and a descriptor only the counts. -/
class CountView {ν : Type} (v : Fs → ν) : Prop where
  disk : ∀ s d, v { s with disk := d } = v s
  buf : ∀ s b, v { s with fsbuf := b } = v s
  sbDev : ∀ s dev, v { s with sb := { s.sb with sbDev := dev } } = v s
  user : ∀ s u, v { s with user := u } = v s
  inode : ∀ s (p : Fin nrInode) (f : Inode → Inode), (∀ i, (f i).iCnt = i.iCnt) →
    v { s with inodeTable := Function.update s.inodeTable p (f (s.inodeTable p)) } = v s
  desc : ∀ s (f : Fin nrFileDesc) (g : FileDesc → FileDesc),
    (∀ d, (g d).fdCnt = d.fdCnt ∧ (g d).fdInode = d.fdInode) →
    v { s with fdTable := Function.update s.fdTable f (g (s.fdTable f)) } = v s

instance : CountView Fs.refs where
  disk _ _ := rfl
  buf _ _ := rfl
  sbDev _ _ := rfl
  user _ _ := rfl
  inode s p f h := by
    simp only [Fs.refs, Refs.mk.injEq, true_and]
    funext n
    by_cases hn : n = p
    · subst hn
      simp [h]
    · simp [hn]
  desc s f g h := by
    simp only [Fs.refs, Refs.mk.injEq, true_and, and_true]
    constructor
    · funext e
      by_cases he : e = f
      · subst he
        simp [h]
      · simp [he]
    · funext e
      by_cases he : e = f
      · subst he
        simp [h]
      · simp [he]

namespace FS

section Any

variable {ν : Type} {v : Fs → ν}

theorem keepsView_onDev {dev : Nat} {p : Prog Fs Unit} (h : KeepsView v p) :
    KeepsView v (onDev dev p) := .ite h (.halt _)

theorem keepsView_rootNode : KeepsView v rootNode := by
  apply KeepsView.bind .get
  intro s
  cases s.rootInode with
  | none => exact .halt _
  | some r => exact .pure _

theorem keepsView_fitsFilename (name : List UInt8) : KeepsView v (fitsFilename name) :=
  .ite (.pure _) (.halt _)

theorem keepsView_driverOf (dev : Nat) : KeepsView v (driverOf dev) := by
  unfold driverOf
  split
  · exact .halt _
  · exact .halt _
  · exact .pure _

theorem keepsView_copyPath (p : Pid) (a : Nat) (len : Int) : KeepsView v (copyPath p a len) :=
  .ite (.bind .get fun _ => .pure _) (.halt _)

theorem keepsView_seekTarget (whence offset pos size : Int) :
    KeepsView v (seekTarget whence offset pos size) :=
  .ite (.pure _) (.ite (.ite (.pure _) (.halt _)) (.ite (.ite (.pure _) (.halt _)) (.halt _)))

theorem keepsView_openDevice (n : Fin nrInode) : KeepsView v (openDevice n) :=
  .bind .get fun _ => .ite (.bind (keepsView_driverOf _) fun _ => .pure _)
    (.ite (.check _) (.check _))

theorem keepsView_rdwtDevice (drv : Drivers) (p : Pid) (msg : Message) (dev : Nat) :
    KeepsView v (rdwtDevice drv p msg dev) := .bind (keepsView_driverOf _) fun _ => .pure _

end Any

section Views

variable {ν : Type} {v : Fs → ν} [CountView v]

section Disk

theorem keepsView_rdSect (n : Nat) : KeepsView v (rdSect n) :=
  .ite (.modify fun _ => CountView.buf _ _) (.halt _)

theorem keepsView_wrSect (n : Nat) : KeepsView v (wrSect n) :=
  .ite (.modify fun _ => CountView.disk _ _) (.halt _)

theorem keepsView_setBuf (f : Bytes → Bytes) : KeepsView v (setBuf f) :=
  .modify fun _ => CountView.buf _ _

theorem keepsView_getSuperBlock (dev : Nat) : KeepsView v (getSuperBlock dev) :=
  .bind (.modify fun _ => CountView.sbDev _ _) fun _ => .ite (.halt _) (.bind .get fun _ => .pure _)

theorem keepsView_setInode {p : Fin nrInode} {f : Inode → Inode}
    (h : ∀ i, (f i).iCnt = i.iCnt) : KeepsView v (setInode p f) :=
  .modify fun _ => CountView.inode _ _ _ h

theorem keepsView_setDesc {f : Fin nrFileDesc} {g : FileDesc → FileDesc}
    (h : ∀ d, (g d).fdCnt = d.fdCnt ∧ (g d).fdInode = d.fdInode) : KeepsView v (setDesc f g) :=
  .modify fun _ => CountView.desc _ _ _ h

theorem keepsView_syncInode (p : Fin nrInode) : KeepsView v (syncInode p) :=
  .bind .get fun _ => .bind (keepsView_getSuperBlock _) fun _ => .ite (.halt _)
    (.bind (keepsView_onDev (keepsView_rdSect _)) fun _ => .bind (keepsView_setBuf _) fun _ =>
      keepsView_onDev (keepsView_wrSect _))

end Disk

section Names

theorem keepsView_searchEntry (start n : Nat) (name : List UInt8) (t : Nat) :
    KeepsView v (searchEntry start n name t) :=
  .bind (.when (keepsView_rdSect _)) fun _ => .bind .get fun _ =>
    .ite (.pure _) (.ite (.pure _) (.pure _))

theorem keepsView_searchFile (path : List UInt8) : KeepsView v (searchFile path) := by
  unfold searchFile
  cases stripPath path with
  | none => exact .pure _
  | some name =>
    exact .bind (keepsView_fitsFilename _) fun _ => .bind .get fun _ =>
      .bind keepsView_rootNode fun _ => .ite (.pure _) (.bind (.check _) fun _ =>
        .bind (.scan (fun _ => keepsView_searchEntry _ _ _ _) _ _) fun _ => .pure _)

theorem keepsView_allocImapBit (dev : Nat) : KeepsView v (allocImapBit dev) := by
  apply KeepsView.bind (keepsView_getSuperBlock _)
  intro sb
  apply KeepsView.bind
  · apply KeepsView.scan
    intro i
    apply KeepsView.bind (keepsView_onDev (keepsView_rdSect _))
    intro _
    apply KeepsView.scan
    intro j
    apply KeepsView.bind .get
    intro s
    apply KeepsView.ite (.pure _)
    apply KeepsView.scan
    intro k
    exact .bind .get fun _ => .ite (.bind (keepsView_setBuf _) fun _ =>
      .bind (keepsView_onDev (keepsView_wrSect _)) fun _ => .pure _) (.pure _)
  · intro r
    cases r with
    | none => exact .halt _
    | some nr => exact .pure _

theorem keepsView_allocSmapStep (sb : SuperBlock) (i j k : Nat) (a : SmapScan) :
    KeepsView v (allocSmapStep sb i j k a) :=
  .bind .get fun _ => .ite (.pure _)
    (.ite (.bind (keepsView_setBuf _) fun _ => .pure _) (.pure _))

theorem keepsView_allocSmapBit (dev n : Nat) : KeepsView v (allocSmapBit dev n) := by
  apply KeepsView.bind (keepsView_getSuperBlock _)
  intro sb
  apply KeepsView.bind
  · apply KeepsView.iter
    intro i a
    apply KeepsView.bind (keepsView_onDev (keepsView_rdSect _))
    intro _
    apply KeepsView.bind
    · apply KeepsView.iter
      intro j a
      exact .bind .get fun _ => .ite (.pure _)
        (.bind (.iter (fun _ _ => keepsView_allocSmapStep _ _ _ _ _) _ _ _) fun _ => .pure _)
    · intro a
      exact .bind (.when (keepsView_onDev (keepsView_wrSect _))) fun _ => .ite (.pure _) (.pure _)
  · intro a
    exact .bind (.check _) fun _ => .pure _

theorem keepsView_freeEntry (dev start nrDir i : Nat) :
    KeepsView v (freeEntry dev start nrDir i) := by
  apply KeepsView.bind (keepsView_onDev (keepsView_rdSect _))
  intro _
  apply KeepsView.bind .get
  intro s
  dsimp only
  split
  · exact .pure _
  · exact .pure _

theorem keepsView_newDirectoryEntry (de : Fin nrInode) (name : List UInt8) (nr : Nat) :
    KeepsView v (newDirectoryEntry de name nr) := by
  apply KeepsView.bind .get
  intro s
  apply KeepsView.bind (.scan (fun _ => keepsView_freeEntry _ _ _ _) _ _)
  intro r
  cases r with
  | none => exact .halt _
  | some r =>
    exact .bind (.when (keepsView_setInode fun _ => rfl)) fun _ => .bind (keepsView_setBuf _)
      fun _ => .bind (keepsView_onDev (keepsView_wrSect _)) fun _ => keepsView_syncInode _

end Names

section Unlink

theorem keepsView_clearImapBit (dev nr : Nat) : KeepsView v (clearImapBit dev nr) :=
  .bind (keepsView_onDev (keepsView_rdSect _)) fun _ => .bind (.check _) fun _ =>
    .bind .get fun _ => .bind (.check _) fun _ => .bind (keepsView_setBuf _) fun _ =>
      keepsView_onDev (keepsView_wrSect _)

theorem keepsView_nextSmapByte (dev sect i : Nat) : KeepsView v (nextSmapByte dev sect i) :=
  .ite (.bind (keepsView_onDev (keepsView_wrSect _)) fun _ =>
    .bind (keepsView_onDev (keepsView_rdSect _)) fun _ => .pure _) (.pure _)

theorem keepsView_clearSmapBits (dev bitIdx n : Nat) :
    KeepsView v (clearSmapBits dev bitIdx n) := by
  apply KeepsView.bind (keepsView_onDev (keepsView_rdSect _))
  intro _
  apply KeepsView.bind
  · apply KeepsView.loop
    intro i
    exact .bind .get fun _ => .bind (.check _) fun _ => keepsView_setBuf _
  · intro _
    apply KeepsView.bind
    · apply KeepsView.iter
      intro _ a
      exact .bind (keepsView_nextSmapByte _ _ _) fun _ => .bind .get fun _ =>
        .bind (.check _) fun _ => .bind (keepsView_setBuf _) fun _ => .pure _
    · intro a
      exact .bind (keepsView_nextSmapByte _ _ _) fun _ => .bind (.check _) fun _ =>
        .bind .get fun _ => .bind (.check _) fun _ =>
          .bind (.loop (fun _ => keepsView_setBuf _) _ _) fun _ =>
            keepsView_onDev (keepsView_wrSect _)

theorem keepsView_unlinkEntry (dev start : Nat) (nr : Int) (t : Nat) (a : Option Nat × Nat) :
    KeepsView v (unlinkEntry dev start nr t a) :=
  .bind (.when (keepsView_onDev (keepsView_rdSect _))) fun _ => .bind .get fun _ =>
    .ite (.bind (keepsView_setBuf _) fun _ => .bind (keepsView_onDev (keepsView_wrSect _))
      fun _ => .pure _) (.pure _)

theorem keepsView_clearEntry (dir : Fin nrInode) (dev : Nat) (nr : Int) :
    KeepsView v (clearEntry dir dev nr) := by
  apply KeepsView.bind .get
  intro s
  apply KeepsView.bind (.iter (fun _ _ => keepsView_unlinkEntry _ _ _ _ _) _ _ _)
  intro r
  match r with
  | (none, _) => exact .halt _
  | (some t, _) =>
    exact .when (.bind (keepsView_setInode fun _ => rfl) fun _ => keepsView_syncInode _)

end Unlink

section Transfer

theorem keepsView_rdSects (dev : Nat) (i chunk : Int) : KeepsView v (rdSects dev i chunk) :=
  .ite (keepsView_onDev (.modify fun _ => CountView.buf _ _)) (.halt _)

theorem keepsView_wrSects (dev : Nat) (i chunk : Int) : KeepsView v (wrSects dev i chunk) :=
  .ite (keepsView_onDev (.modify fun _ => CountView.disk _ _)) (.halt _)

theorem keepsView_copyOut (p : Pid) (a : Nat) (off bytes : Int) :
    KeepsView v (copyOut p a off bytes) := .ite (.modify fun _ => CountView.user _ _) (.halt _)

theorem keepsView_copyIn (p : Pid) (a : Nat) (off bytes : Int) :
    KeepsView v (copyIn p a off bytes) := .ite (.modify fun _ => CountView.buf _ _) (.halt _)

theorem keepsView_rdwtRound (p : Pid) (buf : Nat) (isRead : Bool) (f : Fin nrFileDesc) (dev : Nat)
    (posEnd chunk i : Int) (a : Transfer) :
    KeepsView v (rdwtRound p buf isRead f dev posEnd chunk i a) :=
  .bind (keepsView_rdSects _ _ _) fun _ => .bind .get fun _ => .ite
    (.ite (.pure _) (.bind (keepsView_copyOut _ _ _ _) fun _ =>
      .bind (keepsView_setDesc fun _ => ⟨rfl, rfl⟩) fun _ => .pure _))
    (.bind (keepsView_copyIn _ _ _ _) fun _ => .bind (keepsView_wrSects _ _ _) fun _ =>
      .bind (keepsView_setDesc fun _ => ⟨rfl, rfl⟩) fun _ => .pure _)

theorem keepsView_rdwtFile (p : Pid) (msg : Message) (f : Fin nrFileDesc) (n : Fin nrInode) :
    KeepsView v (rdwtFile p msg f n) := by
  apply KeepsView.bind .get
  intro s
  apply KeepsView.bind .get
  intro s
  apply KeepsView.bind (.iter (fun _ _ => keepsView_rdwtRound _ _ _ _ _ _ _ _ _) _ _ _)
  intro a
  exact .bind .get fun _ => .bind (.when (.bind (keepsView_setInode fun _ => rfl) fun _ =>
    keepsView_syncInode _)) fun _ => .pure _

theorem keepsView_doRdwt (drv : Drivers) (p : Pid) (msg : Message) :
    KeepsView v (doRdwt drv p msg) := by
  unfold doRdwt
  cases fdIndex msg.m3i1 with
  | none => exact .pure _
  | some fd =>
    apply KeepsView.bind .get
    intro s
    cases s.filp p fd with
    | none => exact .halt _
    | some f =>
      apply KeepsView.bind .get
      intro s
      dsimp only
      cases (s.fdTable f).fdInode with
      | none => exact .halt _
      | some n =>
        exact .bind .get fun _ => .ite (.pure _) (.ite
          (.bind .get fun _ => keepsView_rdwtDevice _ _ _ _)
          (.bind (.check _) fun _ => .bind (keepsView_rdwtFile _ _ _ _) fun _ => .pure _))

end Transfer

end Views

section Counts

variable {s : Fs} {E : Stop → Fs → Prop}

theorem setInode_refs {p : Fin nrInode} {f : Inode → Inode} (k : Int)
    (h : (f (s.inodeTable p)).iCnt = (s.inodeTable p).iCnt + k) :
    wp (setInode p f) (fun _ s' => s'.refs = s.refs.addCnt p k) E s := by
  simp only [setInode, wp_modify, Fs.refs, Refs.addCnt, Refs.setCnt, Refs.mk.injEq, true_and]
  funext n
  by_cases hn : n = p
  · subst hn
    simp [h]
  · simp [hn]

theorem getInode_refs (dev : Nat) (nr : Int) :
    wp (getInode dev nr) (fun n s' => s'.refs = s.refs.addCnt n 1) (fun _ _ => True) s := by
  simp only [getInode, wp_bind, wp_get]
  cases hc : cachedInode s.inodeTable dev nr with
  | some p =>
    simp only [wp_bind, wp_pure]
    exact setInode_refs 1 rfl
  | none =>
    cases hf : freeInode s.inodeTable with
    | none => trivial
    | some q =>
      have hzero : (s.inodeTable q).iCnt = 0 := by
        simpa using List.find?_some hf
      simp only [wp_bind]
      refine wp_mono (setInode_refs 1 (by simp [hzero])) ?_ (fun _ _ h => h)
      intro _ s₀ h₀
      refine (keepsView_getSuperBlock (v := Fs.refs) dev).wp ?_ (fun _ _ _ => trivial)
      intro sb s₁ h₁
      rw [wp_ite]
      refine ⟨fun _ => trivial, fun _ => ?_⟩
      rw [wp_bind]
      refine (keepsView_onDev (v := Fs.refs) (keepsView_rdSect _)).wp ?_ (fun _ _ _ => trivial)
      intro _ s₂ h₂
      simp only [wp_bind, wp_get, wp_pure]
      refine KeepsView.wp (keepsView_setInode (v := Fs.refs) ?_) ?_ (fun _ _ _ => trivial)
      · intro i
        rfl
      · intro _ s₃ h₃
        rw [h₃, h₂, h₁, h₀]

theorem putInode_refs (n : Fin nrInode) :
    wp (putInode n) (fun _ s' => s'.refs = s.refs.addCnt n (-1)) (fun _ _ => True) s := by
  simp only [putInode, wp_bind, wp_get, wp_check]
  exact ⟨fun _ => setInode_refs (-1) rfl, fun _ => trivial⟩

theorem newInode_refs (dev nr start : Nat) :
    wp (newInode dev nr start) (fun n s' => s'.refs = s.refs.setCnt n 1) (fun _ _ => True) s := by
  simp only [newInode, wp_bind]
  refine wp_mono (getInode_refs dev nr) ?_ (fun _ _ h => h)
  intro n s₁ h₁
  refine wp_mono (setInode_refs (s := s₁) (1 - (s₁.inodeTable n).iCnt) ?_) ?_ (fun _ _ h => h)
  · simp
  · intro _ s₂ h₂
    refine (keepsView_syncInode (v := Fs.refs) n).wp ?_ (fun _ _ _ => trivial)
    intro _ s₃ h₃
    rw [wp_pure, h₃, h₂, Refs.addCnt, h₁]
    have hcnt : (s₁.inodeTable n).iCnt = s₁.refs.iCnt n := rfl
    rw [hcnt, h₁]
    simp [Refs.addCnt, Refs.setCnt]

theorem freeFilp_spec (p : Pid) :
    wp (freeFilp p) (fun i s' => s' = s ∧ s.filp p i = none)
      (fun w s' => w = .panic ∧ s' = s ∧ ∀ i, s.filp p i ≠ none) s := by
  simp only [freeFilp, wp_bind, wp_get]
  cases hf : (List.finRange nrFiles).find? fun i => (s.filp p i).isNone with
  | none => exact ⟨rfl, rfl, fun i => by simpa using List.find?_eq_none.mp hf i⟩
  | some i => exact ⟨rfl, by simpa using List.find?_some hf⟩

theorem freeDesc_spec :
    wp freeDesc (fun f s' => s' = s ∧ (s.fdTable f).fdInode = none)
      (fun w s' => w = .panic ∧ s' = s ∧ ∀ f, (s.fdTable f).fdInode ≠ none) s := by
  simp only [freeDesc, wp_bind, wp_get]
  cases hf : (List.finRange nrFileDesc).find? fun f => (s.fdTable f).fdInode.isNone with
  | none => exact ⟨rfl, rfl, fun f => by simpa using List.find?_eq_none.mp hf f⟩
  | some f => exact ⟨rfl, by simpa using List.find?_some hf⟩

theorem bindDesc_refs (p : Pid) (i : Fin nrFiles) (f : Fin nrFileDesc) (n : Fin nrInode)
    (flags : Int) :
    wp (do
        setFilp p i (some f)
        setDesc f fun d => { d with fdInode := some n, fdCnt := 1, fdMode := flags, fdPos := 0 })
      (fun _ s' => s'.refs = s.refs.opens p i f n) E s := by
  simp only [setFilp, setDesc, wp_bind, wp_modify, Fs.refs, Refs.opens, Refs.mk.injEq, true_and,
    and_true]
  constructor
  · funext e
    by_cases he : e = f
    · subst he
      simp
    · simp [he]
  · funext e
    by_cases he : e = f
    · subst he
      simp
    · simp [he]

theorem closeDesc_refs {p : Pid} {i : Fin nrFiles} {f : Fin nrFileDesc} {n : Fin nrInode} :
    ({ s with
      inodeTable := Function.update s.inodeTable n
        { s.inodeTable n with iCnt := (s.inodeTable n).iCnt - 1 }
      fdTable := Function.update s.fdTable f { s.fdTable f with
        fdCnt := (s.fdTable f).fdCnt - 1
        fdInode := if (s.fdTable f).fdCnt - 1 = 0 then none else (s.fdTable f).fdInode }
      filp := Function.update s.filp p (Function.update (s.filp p) i none) } : Fs).refs =
      s.refs.closes p i f n := by
  simp only [Fs.refs, Refs.closes, Refs.mk.injEq, true_and]
  refine ⟨?_, ?_, ?_⟩
  · funext e
    by_cases he : e = f
    · subst he
      simp
    · simp [he]
  · funext e
    by_cases he : e = f
    · subst he
      rw [Function.update_self, Function.update_self]
      rfl
    · simp [he]
  · funext m
    by_cases hm : m = n
    · subst hm
      simp
    · simp [hm]

theorem doClose_refs (p : Pid) (msg : Message) :
    wp (doClose p msg) (fun _ s' => s'.refs = s.refs ∨ Refs.ClosesOne p s.refs s'.refs)
      (fun _ _ => True) s := by
  unfold doClose
  cases fdIndex msg.m3i1 with
  | none => exact Or.inl rfl
  | some i =>
    simp only [wp_bind, wp_get]
    cases hi : s.filp p i with
    | none => trivial
    | some f =>
      simp only [wp_bind, wp_get]
      cases hf : (s.fdTable f).fdInode with
      | none => trivial
      | some n =>
        simp only [putInode, setInode, setDesc, setFilp, wp_bind, wp_get, wp_check, wp_modify,
          wp_pure]
        exact ⟨fun _ => Or.inr ⟨i, f, n, hi, hf, closeDesc_refs⟩, fun _ => trivial⟩

theorem doStat_refs (p : Pid) (msg : Message) :
    wp (doStat p msg) (fun _ s' => s'.refs = s.refs) (fun _ _ => True) s := by
  simp only [doStat, wp_bind, wp_check]
  refine ⟨fun _ => ?_, fun _ => trivial⟩
  refine (keepsView_copyPath (v := Fs.refs) _ _ _).wp ?_ (fun _ _ _ => trivial)
  intro path s₁ h₁
  refine (keepsView_searchFile (v := Fs.refs) path).wp ?_ (fun _ _ _ => trivial)
  intro nr s₂ h₂
  rw [wp_ite]
  refine ⟨fun _ => h₂.trans h₁, fun _ => ?_⟩
  cases stripPath path with
  | none => trivial
  | some name =>
    simp only [wp_bind, wp_get]
    refine (keepsView_rootNode (v := Fs.refs)).wp ?_ (fun _ _ _ => trivial)
    intro dir s₃ h₃
    refine wp_mono (getInode_refs _ nr) ?_ (fun _ _ h => h)
    intro n s₄ h₄
    refine wp_mono (putInode_refs n) ?_ (fun _ _ h => h)
    intro _ s₅ h₅
    rw [wp_modify, wp_pure]
    change s₅.refs = s.refs
    rw [h₅, h₄, h₃, h₂, h₁]
    simp [Refs.addCnt, Refs.setCnt]

theorem removeFile_refs (dir n : Fin nrInode) (dev : Nat) (nr : Int) :
    wp (removeFile dir n dev nr) (fun _ s' => s'.refs = s.refs.addCnt n (-1))
      (fun _ _ => True) s := by
  rw [removeFile, wp_ite]
  refine ⟨fun _ => trivial, fun _ => ?_⟩
  simp only [wp_bind, wp_get]
  refine (keepsView_clearImapBit (v := Fs.refs) _ _).wp ?_ (fun _ _ _ => trivial)
  intro _ s₁ h₁
  refine (keepsView_getSuperBlock (v := Fs.refs) dev).wp ?_ (fun _ _ _ => trivial)
  intro sb s₂ h₂
  rw [wp_ite]
  refine ⟨fun _ => trivial, fun _ => ?_⟩
  simp only [wp_bind]
  refine (keepsView_clearSmapBits (v := Fs.refs) _ _ _).wp ?_ (fun _ _ _ => trivial)
  intro _ s₃ h₃
  refine KeepsView.wp (keepsView_setInode (v := Fs.refs) ?_) ?_ (fun _ _ _ => trivial)
  · intro i
    rfl
  intro _ s₄ h₄
  refine wp_mono (putInode_refs n) ?_ (fun _ _ h => h)
  intro _ s₅ h₅
  refine (keepsView_syncInode (v := Fs.refs) n).wp ?_ (fun _ _ _ => trivial)
  intro _ s₆ h₆
  refine (keepsView_clearEntry (v := Fs.refs) dir dev nr).wp ?_ (fun _ _ _ => trivial)
  intro _ s₇ h₇
  rw [h₇, h₆, h₅, h₄, h₃, h₂, h₁]

end Counts

section ForkExit

variable {s : Fs}

theorem openAt_spec (q : Pid) (i : Fin nrFiles) :
    wp (openAt q i) (fun r s' => s' = s ∧ match r with
      | none => s.filp q i = none
      | some (f, n) => s.filp q i = some f ∧ (s.fdTable f).fdInode = some n)
      (fun _ _ => True) s := by
  simp only [openAt, wp_bind, wp_get]
  cases hi : s.filp q i with
  | none => exact ⟨rfl, rfl⟩
  | some f =>
    simp only [wp_bind, wp_get]
    cases hf : (s.fdTable f).fdInode with
    | none => trivial
    | some n => exact ⟨rfl, rfl, hf⟩

theorem forkDesc_refs (q : Pid) (i : Fin nrFiles) :
    wp (forkDesc q i) (fun _ s' => s'.refs = s.refs.shares q [i]) (fun _ _ => True) s := by
  rw [forkDesc, wp_bind]
  refine wp_mono (openAt_spec q i) ?_ (fun _ _ h => h)
  rintro r s₁ ⟨rfl, hr⟩
  match r with
  | none =>
    rw [wp_pure]
    have hi : s₁.refs.filp q i = none := hr
    simp [Refs.shares, Refs.descCount, Refs.inodeCount, hi]
  | some (f, n) =>
    have hi : s₁.refs.filp q i = some f := hr.1
    have hf : s₁.refs.fdInode f = some n := hr.2
    simp only [setDesc, setInode, wp_bind, wp_modify]
    simp only [Refs.shares, Refs.descCount, Refs.inodeCount, List.countP_singleton, hi,
      Option.bind_some, hf, Option.some.injEq, decide_eq_true_eq]
    simp only [Fs.refs, Refs.mk.injEq, true_and]
    refine ⟨?_, ?_, ?_⟩
    · funext e
      by_cases he : e = f
      · subst he
        simp
      · simp [he, Ne.symm he]
    · funext e
      by_cases he : e = f
      · subst he
        simp
      · simp [he]
    · funext m
      by_cases hm : m = n
      · subst hm
        simp
      · simp [hm, Ne.symm hm]

theorem forkFiles_refs (q : Pid) (is : List (Fin nrFiles)) :
    wp (forFiles (forkDesc q) is) (fun _ s' => s'.refs = s.refs.shares q is)
      (fun _ _ => True) s := by
  induction is generalizing s with
  | nil =>
    change s.refs = _
    simp [Refs.shares, Refs.descCount, Refs.inodeCount]
  | cons i is ih =>
    rw [forFiles, wp_bind]
    refine wp_mono (forkDesc_refs q i) ?_ (fun _ _ h => h)
    intro _ s₁ h₁
    refine wp_mono ih ?_ (fun _ _ h => h)
    intro _ s₂ h₂
    rw [h₂, h₁, Refs.shares_cons]

theorem exitDesc_refs (q : Pid) (i : Fin nrFiles) :
    wp (exitDesc q i) (fun _ s' => Relation.ReflTransGen (Refs.ClosesOne q) s.refs s'.refs ∧
      s'.refs.filp q i = none) (fun _ _ => True) s := by
  rw [exitDesc, wp_bind]
  refine wp_mono (openAt_spec q i) ?_ (fun _ _ h => h)
  rintro r s₁ ⟨rfl, hr⟩
  match r with
  | none => exact ⟨.refl, hr⟩
  | some (f, n) =>
    simp only [setInode, setDesc, setFilp, wp_bind, wp_modify]
    rw [closeDesc_refs]
    refine ⟨.single ⟨i, f, n, hr.1, hr.2, rfl⟩, ?_⟩
    simp [Refs.closes]

theorem exitFiles_refs (q : Pid) (is : List (Fin nrFiles)) :
    wp (forFiles (exitDesc q) is) (fun _ s' =>
      Relation.ReflTransGen (Refs.ClosesOne q) s.refs s'.refs ∧
        ∀ i ∈ is, s'.refs.filp q i = none) (fun _ _ => True) s := by
  induction is generalizing s with
  | nil => exact ⟨.refl, by simp⟩
  | cons i is ih =>
    rw [forFiles, wp_bind]
    refine wp_mono (exitDesc_refs q i) ?_ (fun _ _ h => h)
    rintro _ s₁ ⟨hrun₁, hi⟩
    refine wp_mono ih ?_ (fun _ _ h => h)
    rintro _ s₂ ⟨hrun₂, his⟩
    refine ⟨hrun₁.trans hrun₂, ?_⟩
    intro j hj
    rcases List.mem_cons.mp hj with rfl | hj
    · cases hf : s₂.refs.filp q j with
      | none => rfl
      | some f =>
        have hback := (Refs.Shrinks.of_closes hrun₂).filp j f hf
        rw [hi] at hback
        cases hback
    · exact his j hj

end ForkExit

end FS

end BazingaOS
