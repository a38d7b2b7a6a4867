import BazingaOS.FS.Working

/-!
# Sessions of the file system

A session is a run of all requests of the processes, of forks and exits, with reboots between them. As
long as no request opens the directory for writing, the inodes in the cache are those of the disk, no
two slots have the same one, and the entries of the directory name inodes in use. A reboot finds the
file system as it was left.
-/

namespace BazingaOS

open Prog

/-- The head, and the positions of the descriptors. -/
def Fs.places (s : Fs) :
    (SuperBlock × (Fin (2 * sectorSize) → UInt8)) × (Fin nrFileDesc → Int) :=
  (s.head, fun f => (s.fdTable f).fdPos)

/-- A program that leaves them alone. -/
abbrev KeepsPlaces {α : Type} (p : Prog Fs α) : Prop := KeepsView Fs.places p

namespace FS

section Places

theorem keepsPlaces_setInode (n : Fin nrInode) (f : Inode → Inode) : KeepsPlaces (setInode n f) :=
  .modify fun _ => rfl

theorem keepsPlaces_setDesc {f : Fin nrFileDesc} {g : FileDesc → FileDesc}
    (h : ∀ d, (g d).fdPos = d.fdPos) : KeepsPlaces (setDesc f g) := by
  refine .modify fun s => Prod.ext rfl (funext fun e => ?_)
  exact update_cases (P := fun d : FileDesc => d.fdPos = (s.fdTable e).fdPos)
    (fun he => by rw [h, he]) fun _ => rfl

theorem keepsPlaces_setFilp (p : Pid) (i : Fin nrFiles) (f : Option (Fin nrFileDesc)) :
    KeepsPlaces (setFilp p i f) := .modify fun _ => rfl

theorem keepsPlaces_doClose (p : Pid) (msg : Message) : KeepsPlaces (doClose p msg) := by
  unfold doClose
  cases fdIndex msg.m3i1 with
  | none => exact .pure _
  | some i =>
    apply KeepsView.bind .get
    intro s
    cases s.filp p i with
    | none => exact .halt _
    | some f =>
      apply KeepsView.bind .get
      intro s
      cases (s.fdTable f).fdInode with
      | none => exact .halt _
      | some n =>
        exact .bind (.bind .get fun _ => .bind (.check _) fun _ => keepsPlaces_setInode _ _)
          fun _ => .bind (keepsPlaces_setDesc fun _ => rfl) fun _ =>
            .bind (keepsPlaces_setFilp _ _ _) fun _ => .pure _

theorem keepsPlaces_openAt (q : Pid) (i : Fin nrFiles) : KeepsPlaces (openAt q i) := by
  apply KeepsView.bind .get
  intro s
  cases s.filp q i with
  | none => exact .pure _
  | some f =>
    apply KeepsView.bind .get
    intro s
    cases (s.fdTable f).fdInode with
    | none => exact .halt _
    | some n => exact .pure _

theorem keepsPlaces_forkDesc (q : Pid) (i : Fin nrFiles) : KeepsPlaces (forkDesc q i) := by
  apply KeepsView.bind (keepsPlaces_openAt q i)
  intro o
  cases o with
  | none => exact .pure _
  | some x => exact .bind (keepsPlaces_setDesc fun _ => rfl) fun _ => keepsPlaces_setInode _ _

theorem keepsPlaces_exitDesc (q : Pid) (i : Fin nrFiles) : KeepsPlaces (exitDesc q i) := by
  apply KeepsView.bind (keepsPlaces_openAt q i)
  intro o
  cases o with
  | none => exact .pure _
  | some x =>
    exact .bind (keepsPlaces_setInode _ _) fun _ =>
      .bind (keepsPlaces_setDesc fun _ => rfl) fun _ => keepsPlaces_setFilp _ _ _

theorem keepsPlaces_forFiles {body : Fin nrFiles → Prog Fs Unit} (h : ∀ i, KeepsPlaces (body i))
    (is : List (Fin nrFiles)) : KeepsPlaces (forFiles body is) := by
  induction is with
  | nil => exact .pure _
  | cons i is ih => exact .bind (h i) fun _ => ih

end Places

section Requests

variable {drv : Drivers} {s s' : Fs} {r n : Fin nrInode} {k : Fin nrInode → Int} {p q : Pid}
  {msg : Message}

/-- A request to open the directory for writing. -/
def OpensRoot (s : Fs) (p : Pid) (msg : Message) : Prop :=
  msg.type = .open ∧ oRdwr msg.m3i1 = true ∧ s.lookup (s.pathOf p msg) = rootInodeNr

theorem working_of_closes (h : s.Working r k) (hshared : s'.Shared r (nrDefaultFileSects + 1) k)
    (hrun : Relation.ReflTransGen (Refs.ClosesOne p) s.refs s'.refs)
    (hplaces : s'.places = s.places) : s'.Working r k := by
  obtain ⟨hhead, hpos⟩ := Prod.mk.inj hplaces
  refine h.of_shared hshared hhead (fun f hf => ?_) fun f => ?_
  · exact h.files f ((Refs.Shrinks.of_closes hrun).fdInode f r hf)
  · have hf : (s'.fdTable f).fdPos = (s.fdTable f).fdPos := congrFun hpos f
    rw [hf]
    exact h.pos f

theorem doOpen_working (h : s.Working r k) (htype : msg.type = .open)
    (hroot : ¬ OpensRoot s p msg) :
    wp (doOpen p msg) (fun _ s' => s'.Working r k ∧ s'.head = s.head ∧
        ∀ q, q ≠ p → s'.filp q = s.filp q) (fun _ _ => True) s := by
  refine wp_mono (wp_and (doOpen_shared h.shared) (doOpen_head h.shared.steady)) ?_
    fun _ _ _ => trivial
  rintro v s' ⟨⟨h', ⟨hrefs, hfd⟩ | ⟨n, i, f, hopen, hn⟩⟩, hhead⟩
  · refine ⟨h.of_shared h' hhead ?_ ?_, hhead, fun q _ => congrFun (congrArg Refs.filp hrefs) q⟩
    · rw [hfd]
      exact h.files
    · rw [hfd]
      exact h.pos
  · have hfilp := congrArg Refs.filp hopen.refs
    have hinode : (s'.fdTable f).fdInode = some n := by
      have hf := congrFun (congrArg Refs.fdInode hopen.refs) f
      exact hf.trans (Function.update_self _ _ _)
    refine ⟨h.of_shared h' hhead (fun g => ?_) fun g => ?_, hhead,
      fun q hq => (congrFun hfilp q).trans (Refs.filp_opens_of_ne hq)⟩
    · by_cases hg : g = f
      · rw [hg, hinode]
        intro heq
        cases heq
        exact hroot ⟨htype, hn rfl⟩
      · rw [hopen.other g hg]
        exact h.files g
    · by_cases hg : g = f
      · rw [hg, hopen.pos]
        exact ⟨Int.le_refl 0, by decide⟩
      · rw [hopen.other g hg]
        exact h.pos g

theorem doClose_working (h : s.Working r k) :
    wp (doClose p msg) (fun _ s' => s'.Working r k ∧ s'.head = s.head ∧
        ∀ q, q ≠ p → s'.filp q = s.filp q) (fun _ _ => True) s := by
  refine wp_mono (wp_and (doClose_shared h.shared)
    ((keepsPlaces_doClose p msg).keeps s.places s rfl)) ?_ fun _ _ _ => trivial
  rintro v s' ⟨⟨h', hrefs⟩, hplaces⟩
  have hrun : Relation.ReflTransGen (Refs.ClosesOne p) s.refs s'.refs := by
    rcases hrefs with heq | hclose
    · rw [heq]
    · exact .single hclose
  exact ⟨working_of_closes h h' hrun hplaces, congrArg Prod.fst hplaces,
    (Refs.Shrinks.of_closes hrun).other⟩

theorem doStat_working (h : s.Working r k) :
    wp (doStat p msg) (fun _ s' => s'.Working r k ∧ s'.head = s.head ∧ s'.filp = s.filp)
      (fun _ _ => True) s := by
  refine wp_mono (wp_and (doStat_shared h.shared)
    ((keepsHead_doStat p msg).keeps s.head s rfl)) ?_ fun _ _ _ => trivial
  rintro v s' ⟨⟨h', hrefs, hfd⟩, hhead⟩
  exact ⟨h.of_shared h' hhead (hfd ▸ h.files) (hfd ▸ h.pos), hhead, congrArg Refs.filp hrefs⟩

theorem doUnlink_working (h : s.Working r k) :
    wp (doUnlink p msg) (fun _ s' => (∃ k', s'.Working r k') ∧ s'.head = s.head ∧ s'.filp = s.filp)
      (fun _ _ => True) s := by
  refine wp_mono (wp_and (doUnlink_shared h.shared) (doUnlink_head h.shared.steady)) ?_
    fun _ _ _ => trivial
  rintro v s' ⟨⟨hfd, hfilp, hshared⟩, hhead⟩
  have hsome : ∃ k', s'.Shared r (nrDefaultFileSects + 1) k' := by
    rcases hshared with h' | ⟨-, h'⟩
    · exact ⟨k, h'⟩
    · exact h'
  obtain ⟨k', h'⟩ := hsome
  exact ⟨⟨k', h.of_shared h' hhead (hfd ▸ h.files) (hfd ▸ h.pos)⟩, hhead, hfilp⟩

theorem handle_working (h : s.Working r k) (hroot : ¬ OpensRoot s p msg)
    (hown : msg.type ≠ .fork ∧ msg.type ≠ .exit) :
    wp (handle drv p msg) (fun _ s' => (∃ k', s'.Working r k') ∧ s'.head = s.head ∧
        ∀ q, q ≠ p → s'.filp q = s.filp q) (fun _ _ => True) s := by
  have hrdwt : wp (doRdwt drv p msg) (fun _ s' => (∃ k', s'.Working r k') ∧ s'.head = s.head ∧
      ∀ q, q ≠ p → s'.filp q = s.filp q) (fun _ _ => True) s := by
    refine wp_mono (doRdwt_working h) ?_ fun _ _ h => h
    rintro v s' ⟨h', hrefs, hhead⟩
    exact ⟨⟨k, h'⟩, hhead, fun q _ => congrFun (congrArg Refs.filp hrefs) q⟩
  rw [handle]
  cases htype : msg.type
  case «open» =>
    rw [wp_bind]
    refine wp_mono (doOpen_working h htype hroot) ?_ fun _ _ h => h
    rintro v s' ⟨h', hrest⟩
    exact ⟨⟨k, h'⟩, hrest⟩
  case close =>
    rw [wp_bind]
    refine wp_mono (doClose_working h) ?_ fun _ _ h => h
    rintro v s' ⟨h', hrest⟩
    exact ⟨⟨k, h'⟩, hrest⟩
  case read =>
    rw [wp_bind]
    exact wp_mono hrdwt (fun _ _ h => h) fun _ _ h => h
  case write =>
    rw [wp_bind]
    exact wp_mono hrdwt (fun _ _ h => h) fun _ _ h => h
  case lseek =>
    rw [wp_bind]
    refine wp_mono (doLseek_working h) ?_ fun _ _ h => h
    rintro v s' ⟨h', hrefs, hhead⟩
    exact ⟨⟨k, h'⟩, hhead, fun q _ => congrFun (congrArg Refs.filp hrefs) q⟩
  case stat =>
    rw [wp_bind]
    refine wp_mono (doStat_working h) ?_ fun _ _ h => h
    rintro v s' ⟨h', hhead, hfilp⟩
    exact ⟨⟨k, h'⟩, hhead, fun q _ => congrFun hfilp q⟩
  case unlink =>
    rw [wp_bind]
    refine wp_mono (doUnlink_working h) ?_ fun _ _ h => h
    rintro v s' ⟨h', hhead, hfilp⟩
    exact ⟨h', hhead, fun q _ => congrFun hfilp q⟩
  case resumeProc => exact ⟨⟨k, h⟩, rfl, fun _ _ => rfl⟩
  case fork => exact absurd htype hown.1
  case exit => exact absurd htype hown.2
  all_goals trivial

theorem fsFork_working (h : s.Working r k) (hq : procAt msg.m3i2 = some q)
    (hnone : ∀ i, s.filp q i = none) :
    wp (fsFork msg) (fun _ s' => s'.Working r k ∧ s'.head = s.head ∧
        s'.filp = (s.copyFiles p q).filp) (fun _ _ => True) (s.copyFiles p q) := by
  have hplaces : KeepsPlaces (fsFork msg) := by
    rw [fsFork, hq]
    exact keepsPlaces_forFiles (keepsPlaces_forkDesc q) _
  have hrefs : wp (fsFork msg) (fun _ s' => s'.refs.fdInode = s.refs.fdInode) (fun _ _ => True)
      (s.copyFiles p q) := by
    rw [fsFork, hq]
    refine wp_mono (forkFiles_refs q _) (fun _ s' hs => ?_) fun _ _ h => h
    have hinode := congrArg Refs.fdInode hs
    exact hinode
  refine wp_mono (wp_and (wp_and (fsFork_shared h.shared hq hnone) hrefs)
    (hplaces.keeps s.places (s.copyFiles p q) rfl)) ?_ fun _ _ _ => trivial
  rintro v s' ⟨⟨⟨h', hfilp⟩, hinode⟩, hsame⟩
  obtain ⟨hhead, hpos⟩ := Prod.mk.inj hsame
  refine ⟨h.of_shared h' hhead (fun f hf => ?_) (fun f => ?_), hhead, hfilp⟩
  · exact h.files f ((congrFun hinode f).symm.trans hf)
  · have hf : (s'.fdTable f).fdPos = (s.fdTable f).fdPos := congrFun hpos f
    rw [hf]
    exact h.pos f

theorem fsExit_working (h : s.Working r k) (hq : procAt msg.m3i2 = some q) :
    wp (fsExit msg) (fun _ s' => s'.Working r k ∧ s'.head = s.head ∧
        (∀ q', q' ≠ q → s'.filp q' = s.filp q') ∧ ∀ i, s'.filp q i = none)
      (fun _ _ => True) s := by
  have hplaces : KeepsPlaces (fsExit msg) := by
    rw [fsExit, hq]
    exact keepsPlaces_forFiles (keepsPlaces_exitDesc q) _
  refine wp_mono (wp_and (fsExit_shared h.shared hq) (hplaces.keeps s.places s rfl)) ?_
    fun _ _ _ => trivial
  rintro v s' ⟨⟨h', hrun, hnone⟩, hsame⟩
  exact ⟨working_of_closes h h' hrun hsame, congrArg Prod.fst hsame,
    (Refs.Shrinks.of_closes hrun).other, hnone⟩

end Requests

end FS

/-- A file system mounted from the disk of `s`: the tables in memory are empty but for the root
directory. -/
structure Remounted (s s' : Fs) (r : Fin nrInode) : Prop where
  disk : s'.disk = s.disk
  sb : s'.sb.layout = s.sb.layout
  fdTable : s'.fdTable = fun _ => {}
  rootInode : s'.rootInode = some r
  inodeTable : s'.inodeTable = Function.update (fun _ => {}) r
    (.loaded rootDev rootInodeNr (storedInode s.sb s.disk rootInodeNr))

/-- The super block on the disk is that in memory. -/
def Fs.SuperStored (s : Fs) : Prop := (superBlockAt s.disk sectorSize).layout = s.sb.layout ∧
  s.sb.magic = magicV1

section Reboot

variable {s s₀ s' : Fs} {r r' : Fin nrInode} {k : Fin nrInode → Int} {size : Nat}

theorem Fs.SuperStored.of_head (h : s.SuperStored) (hhead : s'.head = s.head) : s'.SuperStored := by
  have hs : sectorSize = 512 := rfl
  obtain ⟨hsb, hbytes⟩ := Prod.mk.inj hhead
  have hsuper : superBlockAt s'.disk sectorSize = superBlockAt s.disk sectorSize := by
    refine superBlockAt_shift fun i hi => ?_
    exact congrFun hbytes ⟨sectorSize + i, by rw [hs]; omega⟩
  have hmagic := congrArg SuperBlock.magic hsb
  exact ⟨by rw [hsuper, h.1, hsb], hmagic.trans h.2⟩

namespace FS

/-- `init_fs` finds the file system on the disk, whatever the memory holds. -/
theorem initFs_remounts (h : s.Working r k) (hsuper : s.SuperStored) (hdisk : s₀.disk = s.disk) :
    wp (initFs size) (fun _ s' => (∃ r', Remounted s s' r') ∧ s'.filp = s₀.filp)
      (fun _ _ => False) s₀ := by
  have hs : sectorSize = 512 := rfl
  have hone : sectorSize * 1 < 2 ^ 31 := by decide
  have hl := h.shared.steady.laid
  have hmagic : (superBlockAt s.disk sectorSize).magic = magicV1 :=
    (congrArg SuperBlock.magic hsuper.1).trans hsuper.2
  have hlayout : SuperBlock.layout { superBlockAt s.disk sectorSize with sbDev := rootDev } =
      s.sb.layout := hsuper.1
  simp only [initFs, readSuperBlock, getSuperBlock, wp_bind, wp_modify, wp_get]
  rw [wp_rdSect hone, wp_when]
  refine ⟨fun hne => absurd ?_ hne, fun _ => ?_⟩
  · rw [superBlockAt_read, hdisk]
    exact hmagic
  rw [onDev, if_pos rfl, wp_rdSect hone]
  simp only [superBlockAt_read, hdisk, wp_ite, wp_check, wp_halt]
  refine ⟨fun hz => absurd hz (by decide), fun _ => ⟨fun _ => ?_, fun hne => hne hmagic⟩⟩
  refine wp_mono (getInode_spec rootDev rootInodeNr) ?_ ?_
  · rintro n s₂ (⟨hc, -⟩ | ⟨-, -, -, -, b, rfl⟩)
    · rw [cachedInode_empty] at hc
      cases hc
    · refine ⟨⟨n, rfl, hlayout, rfl, rfl, ?_⟩, rfl⟩
      rw [storedInode, ← inodePlace_layout hlayout]
      rfl
  · rintro w s₂ ⟨-, ⟨hfull, -⟩ | ⟨-, hdev | ⟨-, hnr | haddr⟩⟩⟩
    · exact absurd hfull freeInode_empty
    · exact absurd rfl hdev
    · exact absurd hnr (by decide)
    · refine absurd ?_ haddr
      have haddr := hl.addr
      have hfirst := hl.first
      have hroot : (rootInodeNr - 1) * inodeSize / sectorSize = 0 := rfl
      rw [Int.toNat_natCast, SuperBlock.eq_of_layout hlayout, inodeSect, hroot, hl.imap]
      change sectorSize * (1 + 1 + 1 + s.sb.nrSmapSects + 0) < 2 ^ 31
      rw [hs] at haddr ⊢
      omega

end FS

theorem FirstNamed.unique {d : Bytes} {start bound : Nat} {name : List UInt8} {nr nr' : Int}
    (h : FirstNamed d start bound name nr) (h' : FirstNamed d start bound name nr') : nr = nr' := by
  rcases h with ⟨t, ht, hname, hfirst, rfl⟩ | ⟨hnone, rfl⟩ <;>
    rcases h' with ⟨u, hu, hname', hfirst', rfl⟩ | ⟨hnone', rfl⟩
  · rcases Nat.lt_trichotomy t u with hlt | rfl | hlt
    · exact absurd hname (hfirst' t hlt)
    · rfl
    · exact absurd hname' (hfirst u hlt)
  · exact absurd hname (hnone' t ht)
  · exact absurd hname' (hnone u hu)
  · rfl

theorem Fs.Steady.lookup_named {base : Nat} {P : Nat → Prop} {path name : List UInt8}
    (h : s.Steady r base P) (hp : stripPath path = some name) (hne : name ≠ [])
    (hlen : name.length < maxFilenameLen) : FirstNamed s.disk (s.inodeTable r).iStartSect
      (searchBound (s.inodeTable r).iSize) name (s.lookup path) := by
  have hs : sectorSize = 512 := rfl
  have hd : dirEntSize = 16 := rfl
  have hdef : nrDefaultFileSects = 2048 := rfl
  have hnum : nrNumbers = 4096 := rfl
  have hfew := h.few
  have hroom := h.laid.addr
  rw [Inode.entries, hd, hnum] at hfew
  refine lookup_firstNamed h.root h.rootAt.dev ?_ hp hne hlen
  rw [h.dir.start, hs]
  rw [hs, hdef] at hroom
  omega

theorem Refs.Balanced.of_empty {x : Refs} (hfilp : ∀ p i, x.filp p i = none)
    (hcnt : ∀ f, x.fdCnt f = 0) (hinode : ∀ f, x.fdInode f = none)
    (hroot : ∀ n, x.iCnt n = if n = r then 1 else 0) : x.Balanced r fun _ => 0 := by
  have hnone : ∀ f, refCount x.filp f = 0 := fun f =>
    refCount_eq_zero_iff.mpr fun p i hi => by
      rw [hfilp] at hi
      cases hi
  refine ⟨fun f => ?_, fun f => iff_of_true (hinode f) (hnone f), fun n => ?_⟩
  · rw [hnone, hcnt]
    rfl
  · have hobj : refCount (objects x.filp x.fdInode) n = 0 :=
      refCount_eq_zero_iff.mpr fun p i hi => by
        rw [objects, hfilp] at hi
        cases hi
    rw [hobj, hroot, extraRefs, Int.add_zero, Nat.cast_zero, Int.zero_add]

namespace Remounted

theorem root_eq (h : s.Working r k) (hre : Remounted s s' r') :
    s'.inodeTable r' = { s.inodeTable r with iCnt := 1 } := by
  have hsteady := h.shared.steady
  have hheld := hsteady.held
  have hnum := hsteady.dir.num
  have hstored := hsteady.stored (n := r) (by omega)
  rw [hnum, Int.toNat_natCast] at hstored
  rw [hre.inodeTable, Function.update_self, ← hstored]
  have hdev := hsteady.cache.dev r (by omega)
  rw [Inode.loaded, Inode.mk.injEq]
  exact ⟨rfl, rfl, rfl, rfl, hdev.symm, rfl, hnum.symm⟩

theorem working (h : s.Working r k) (hre : Remounted s s' r') (hfiles : ∀ p i, s'.filp p i = none) :
    s'.Working r' fun _ => 0 := by
  have hsteady := h.shared.steady
  have hinode := hre.root_eq h
  have hentries : ({ s.inodeTable r with iCnt := 1 } : Inode).entries = (s.inodeTable r).entries := rfl
  have hdir : RootInode s.sb (s'.inodeTable r') := by
    rw [hinode]
    exact ⟨hsteady.dir.num, hsteady.dir.mode, hsteady.dir.start, hsteady.dir.sects,
      hsteady.dir.entries⟩
  have hempty : CacheOk s.sb s.disk fun _ => {} :=
    ⟨fun _ => Int.le_refl 0, fun _ hn => absurd rfl hn, fun _ hn => absurd rfl hn,
      fun _ _ hn => absurd rfl hn, fun _ _ hn => absurd rfl hn⟩
  have hcache : CacheOk s.sb s'.disk s'.inodeTable := by
    rw [hre.disk, hre.inodeTable]
    exact hempty.load (FS.cachedInode_empty _ _) (by decide)
  have hlive : ∀ n, (s'.inodeTable n).iCnt ≠ 0 → InUse s.disk (s'.inodeTable n).iNum.toNat := by
    intro n
    rw [hre.inodeTable]
    exact update_cases (P := fun i : Inode => i.iCnt ≠ 0 → InUse s.disk i.iNum.toNat)
      (fun _ _ => hsteady.rootNumber) fun _ hn => absurd rfl hn
  have hsteady' : s'.Steady r' (nrDefaultFileSects + 1) (InUse s'.disk) := by
    have hbits := hsteady.bits
    have hsb := SuperBlock.eq_of_layout hre.sb
    refine ⟨hsteady.laid.congr_layout hre.sb, ?_, fun nr hnr => ⟨hnr.1, hnr.2.1⟩, ?_, ?_,
      hcache.congr_layout hre.sb, ?_, hre.rootInode, hdir.congr_layout hre.sb, ?_, ?_⟩
    · rw [hsb]
      exact hbits
    · rw [hre.disk]
      exact hsteady.rootNumber
    · rw [hre.disk]
      exact hsteady.disk.congr_layout hre.sb
    · rw [hre.disk]
      exact hlive
    · rw [hinode, hentries]
      exact hsteady.few
    · rw [hinode]
      exact Int.one_pos
  refine ⟨⟨hsteady', .of_empty hfiles (fun f => ?_) (fun f => ?_) fun n => ?_, fun _ => Int.le_refl 0⟩,
    ?_, fun f => ?_, fun f => ?_⟩
  · change (s'.fdTable f).fdCnt = 0
    rw [hre.fdTable]
  · change (s'.fdTable f).fdInode = none
    rw [hre.fdTable]
  · change (s'.inodeTable n).iCnt = _
    rw [hre.inodeTable]
    refine update_cases (P := fun i : Inode => i.iCnt = if n = r' then 1 else 0) (fun hn => ?_)
      fun hn => ?_
    · rw [if_pos hn]
      rfl
    · rw [if_neg hn]
  · rw [SuperBlock.eq_of_layout hre.sb]
    exact h.small
  · rw [hre.fdTable]
    exact (Option.some_ne_none r').symm
  · rw [hre.fdTable]
    exact ⟨Int.le_refl 0, show (0 : Int) < 2 ^ 31 by norm_num⟩

theorem lookup_eq (h : s.Working r k) (h' : s'.Working r' fun _ => 0) (hre : Remounted s s' r')
    (path : List UInt8) : s'.lookup path = s.lookup path := by
  have hsteady := h.shared.steady
  have hsteady' := h'.shared.steady
  have hinode := hre.root_eq h
  cases hp : stripPath path with
  | none => rw [lookup_of_slash hp, lookup_of_slash hp]
  | some name =>
    by_cases hne : name = []
    · rw [hne] at hp
      rw [hsteady'.rootAt.lookup_nil hp, hsteady.rootAt.lookup_nil hp, hinode]
    by_cases hlen : name.length < maxFilenameLen
    · have hnew := hsteady'.lookup_named hp hne hlen
      rw [hre.disk, hinode] at hnew
      exact hnew.unique (hsteady.lookup_named hp hne hlen)
    · rw [lookup_of_long hp hlen, lookup_of_long hp hlen]

end Remounted

end Reboot

/-- A step of a session: FS handles a message, or the machine is started again. Then the memory can
hold anything, but no process has files; `size` is what the disk driver answers. -/
inductive SessionStep (drv : FS.Drivers) (size : Nat) (w : FileUsers) :
    Option FileEvent → FileUsers → Prop
  | event {e : FileEvent} {w' : FileUsers} (step : FileStep drv w e w') :
      SessionStep drv size w (some e) w'
  | reboot {s₀ s : Fs} {free : Pid → Bool} (disk : s₀.disk = w.fs.disk)
      (files : ∀ p i, s₀.filp p i = none) (boot : FS.initFs size s₀ = .ok () s) :
      SessionStep drv size w none ⟨s, free⟩

/-- No request opens the directory for writing. -/
def FileUsers.Proper (w : FileUsers) : Option FileEvent → Prop
  | some (.request p msg _) => ¬ FS.OpensRoot w.fs p msg
  | _ => True

/-- What a session keeps. -/
structure FileUsers.AtWork (w : FileUsers) : Prop where
  working : ∃ r k, w.fs.Working r k
  stored : w.fs.SuperStored
  free : ∀ q, w.free q = true → ∀ i, w.fs.filp q i = none

section Sessions

variable {drv : FS.Drivers} {size : Nat} {w w' : FileUsers}

theorem FileUsers.AtWork.event {e : FileEvent} (h : w.AtWork) (hproper : w.Proper (some e))
    (hstep : FileStep drv w e w') : w'.AtWork := by
  obtain ⟨r, k, hworking⟩ := h.working
  cases hstep with
  | request alive own answer =>
    obtain ⟨hworking', hhead, hother⟩ := wp_ok (FS.handle_working hworking hproper own) answer
    refine ⟨⟨r, hworking'⟩, h.stored.of_head hhead, fun q hq i => ?_⟩
    have hne : q ≠ _ := fun heq => by
      rw [heq, alive] at hq
      cases hq
    exact (congrFun (hother q hne) i).trans (h.free q hq i)
  | @fork m p q msg v s parent child number type answer =>
    simp only [FS.handle, type] at answer
    obtain ⟨_, hcall, -⟩ := ok_of_bind_pure answer
    obtain ⟨hworking', hhead, hfilp⟩ :=
      wp_ok (FS.fsFork_working hworking number (h.free q child)) hcall
    refine ⟨⟨r, k, hworking'⟩, h.stored.of_head hhead, fun q' hq' i => ?_⟩
    change Function.update w.free q false q' = true at hq'
    have hne : q' ≠ q := by
      rintro rfl
      rw [Function.update_self] at hq'
      cases hq'
    rw [Function.update_of_ne hne] at hq'
    have hsame : s.filp q' = w.fs.filp q' := by
      rw [show s.filp = _ from hfilp]
      exact Function.update_of_ne hne _ _
    exact (congrFun hsame i).trans (h.free q' hq' i)
  | @exit m q msg v s alive number type answer =>
    simp only [FS.handle, type] at answer
    obtain ⟨_, hcall, -⟩ := ok_of_bind_pure answer
    obtain ⟨hworking', hhead, hother, hnone⟩ := wp_ok (FS.fsExit_working hworking number) hcall
    refine ⟨⟨r, k, hworking'⟩, h.stored.of_head hhead, fun q' hq' i => ?_⟩
    change Function.update w.free q true q' = true at hq'
    by_cases hqq : q' = q
    · rw [hqq]
      exact hnone i
    · rw [Function.update_of_ne hqq] at hq'
      exact (congrFun (hother q' hqq) i).trans (h.free q' hq' i)
  | work user =>
    exact ⟨⟨r, k, hworking.shared.working user, hworking.small, hworking.files, hworking.pos⟩,
      h.stored, h.free⟩

theorem FileUsers.AtWork.step {o : Option FileEvent} (h : w.AtWork) (hproper : w.Proper o)
    (hstep : SessionStep drv size w o w') : w'.AtWork := by
  cases hstep with
  | event step => exact h.event hproper step
  | reboot disk files boot =>
    obtain ⟨r, k, hworking⟩ := h.working
    obtain ⟨⟨r', hre⟩, hfilp⟩ := wp_ok (FS.initFs_remounts hworking h.stored disk) boot
    have hnone : ∀ p i, Fs.filp _ p i = none := fun p i =>
      (congrFun (congrFun hfilp p) i).trans (files p i)
    refine ⟨⟨r', _, hre.working hworking hnone⟩, ?_, fun q _ i => hnone q i⟩
    exact h.stored.of_head (Fs.head_eq hre.sb fun a _ => congrFun hre.disk a)

theorem FileUsers.AtWork.of_mounted (hsize : size < 2 ^ 32)
    (hroom : (FS.makeSuperBlock size).n1stSect + nrDefaultFileSects ≤ installStartSect)
    (hmount : w.fs.Mounted size) (hclear : w.fs.DirCleared) (hfiles : ∀ p i, w.fs.filp p i = none) :
    w.AtWork := by
  have hstart : installStartSect = 32768 := rfl
  have hdef : nrDefaultFileSects = 2048 := rfl
  have hformat := hmount.formatted hsize
  obtain ⟨s₀, hjust⟩ := hmount.justMounted hsize
  rw [hjust.n1stSect_eq] at hroom
  obtain ⟨q, -, -, -, hsmap, hn1⟩ := hjust.geometry
  have hrest : nrDefaultFileSects + 1 ≤ nrDefaultFileSects + 1 := Nat.le_refl _
  obtain ⟨r, hshared⟩ := hjust.shared hformat hclear hfiles hrest (by omega)
  refine ⟨⟨r, _, hshared, ?_, fun f => ?_, fun f => ?_⟩, ⟨?_, ?_⟩, fun q _ => hfiles q⟩
  · rw [smapBits_of_sects hsmap]
    omega
  · rw [hjust.fdTable]
    exact (Option.some_ne_none r).symm
  · rw [hjust.fdTable]
    exact ⟨Int.le_refl 0, show (0 : Int) < 2 ^ 31 by norm_num⟩
  · rw [hformat.superBlock]
    exact hjust.layout.symm
  · have hmagic := congrArg SuperBlock.magic hjust.layout
    exact hmagic

theorem FileUsers.AtWork.of_run {w₀ : FileUsers} {l : List (Option FileEvent)} (hsize : size < 2 ^ 32)
    (hroom : (FS.makeSuperBlock size).n1stSect + nrDefaultFileSects ≤ installStartSect)
    (hmount : w₀.fs.Mounted size) (hclear : w₀.fs.DirCleared)
    (hfiles : ∀ p i, w₀.fs.filp p i = none)
    (hrun : Run (fun u e v => SessionStep drv size u e v ∧ u.Proper e) w₀ l w) : w.AtWork :=
  hrun.invariant (.of_mounted hsize hroom hmount hclear hfiles)
    fun _ _ _ hstep hu => hu.step hstep.2 hstep.1

theorem exists_session : ∃ w₀ w : FileUsers, w₀.fs.Mounted 34816 ∧ w₀.fs.DirCleared ∧
    (∀ p i, w₀.fs.filp p i = none) ∧
    Run (fun u e v => SessionStep (fun _ m => m) 34816 u e v ∧ u.Proper e) w₀
      [some (.request init unlinkCmdTar { unlinkCmdTar with m3i1 := 0 }), none] w := by
  have hsize : 34816 < 2 ^ 32 := by norm_num
  have hroom : (FS.makeSuperBlock 34816).n1stSect + nrDefaultFileSects ≤ installStartSect := by decide
  obtain ⟨s, r, hmount, hreq, hfile, hr, hno, hrem, hclear, hfiles⟩ :=
    @exists_cmdTar_empty 34816 hsize (by decide) hroom
  obtain ⟨v, s', hcall, hv⟩ := exists_ok_of_wp (wp_mono (FS.doUnlink_closed hr hno hreq hfile)
    (fun _ _ h => h) fun _ _ hbad => absurd (hrem.mpr (by decide)) hbad)
  obtain rfl : v = 0 := hv.mpr (hrem.mpr (by decide))
  have hstep : FileStep (fun _ m => m) ⟨s, fun p => decide (p ≠ init)⟩
      (.request init unlinkCmdTar { unlinkCmdTar with m3i1 := 0 })
      ⟨s', fun p => decide (p ≠ init)⟩ :=
    .request (show decide (init ≠ init) = false by decide) (by decide) (bind_of_ok hcall)
  have hproper : FileUsers.Proper ⟨s, fun p => decide (p ≠ init)⟩
      (some (.request init unlinkCmdTar { unlinkCmdTar with m3i1 := 0 })) := by
    rintro ⟨htype, -⟩
    cases htype
  have hwork := (FileUsers.AtWork.of_mounted (w := ⟨s, fun p => decide (p ≠ init)⟩) hsize hroom
    hmount hclear hfiles).event hproper hstep
  obtain ⟨r', k, hworking⟩ := hwork.working
  have hmounts : wp (FS.initFs 34816) _ _ { disk := s'.disk, fsbuf := fun _ => 0 } :=
    FS.initFs_remounts hworking hwork.stored rfl
  obtain ⟨u, s₂, hboot, -⟩ := exists_ok_of_wp hmounts
  have hrun : Run (fun u e v => SessionStep (fun _ m => m) 34816 u e v ∧ u.Proper e)
      ⟨s, fun p => decide (p ≠ init)⟩
      (([] ++ [some (.request init unlinkCmdTar { unlinkCmdTar with m3i1 := 0 })]) ++ [none])
      ⟨s₂, fun _ => false⟩ :=
    .snoc (.snoc .nil ⟨.event hstep, hproper⟩)
      ⟨@SessionStep.reboot _ _ _ { disk := s'.disk, fsbuf := fun _ => 0 } s₂ _ rfl
        (fun _ _ => rfl) hboot, trivial⟩
  exact ⟨_, _, hmount, hclear, hfiles, hrun⟩

/-- The inodes in the cache. -/
structure FileUsers.Coherent (w : FileUsers) : Prop where
  once : ∀ m n, (w.fs.inodeTable m).iCnt ≠ 0 → (w.fs.inodeTable n).iCnt ≠ 0 →
    (w.fs.inodeTable m).iNum = (w.fs.inodeTable n).iNum → m = n
  stored : ∀ n, (w.fs.inodeTable n).iCnt ≠ 0 → (w.fs.inodeTable n).iDev = rootDev ∧
    InUse w.fs.disk (w.fs.inodeTable n).iNum.toNat ∧
    (w.fs.inodeTable n).disk = storedInode w.fs.sb w.fs.disk (w.fs.inodeTable n).iNum.toNat
  opened : ∀ p i f n, w.fs.filp p i = some f → (w.fs.fdTable f).fdInode = some n →
    0 < (w.fs.inodeTable n).iCnt

/-- Whatever the processes ask for, the cache agrees with the disk. -/
theorem coherent_of_session {w₀ : FileUsers} {l : List (Option FileEvent)} (hsize : size < 2 ^ 32)
    (hroom : (FS.makeSuperBlock size).n1stSect + nrDefaultFileSects ≤ installStartSect)
    (hmount : w₀.fs.Mounted size) (hclear : w₀.fs.DirCleared)
    (hfiles : ∀ p i, w₀.fs.filp p i = none)
    (hrun : Run (fun u e v => SessionStep drv size u e v ∧ u.Proper e) w₀ l w) : w.Coherent := by
  obtain ⟨r, k, h⟩ := (FileUsers.AtWork.of_run hsize hroom hmount hclear hfiles hrun).working
  have hsteady := h.shared.steady
  exact ⟨hsteady.cache.inj,
    fun n hn => ⟨hsteady.cache.dev n hn, hsteady.live n hn, hsteady.stored hn⟩,
    fun p i f n hf hn => h.shared.refs.os_pos (extraRefs_nonneg h.shared.left) hf hn⟩

theorem coherent_of_session_cmdTar : ∃ w₀ w : FileUsers, w₀.fs.Mounted 34816 ∧
    Run (fun u e v => SessionStep (fun _ m => m) 34816 u e v ∧ u.Proper e) w₀
      [some (.request init unlinkCmdTar { unlinkCmdTar with m3i1 := 0 }), none] w ∧
    w.Coherent := by
  obtain ⟨w₀, w, hmount, hclear, hfiles, hrun⟩ := exists_session
  exact ⟨w₀, w, hmount, hrun,
    coherent_of_session (by norm_num) (by decide) hmount hclear hfiles hrun⟩

/-- The directory and the inodes on the disk: every entry has the number of an inode in use, no two
have the same, and a regular file has its sectors behind the directory. -/
structure FileUsers.Consistent (w : FileUsers) : Prop where
  entry : ∀ t, t < rootSlots → slotNr w.fs.disk w.fs.sb.n1stSect t ≠ 0 →
    ∃ nr : Nat, InUse w.fs.disk nr ∧ slotNr w.fs.disk w.fs.sb.n1stSect t = nr
  once : ∀ t u, t < rootSlots → u < rootSlots → slotNr w.fs.disk w.fs.sb.n1stSect t ≠ 0 →
    slotNr w.fs.disk w.fs.sb.n1stSect t = slotNr w.fs.disk w.fs.sb.n1stSect u → t = u
  lookup : ∀ path, w.fs.lookup path = 0 ∨ InUse w.fs.disk (w.fs.lookup path).toNat
  root : InUse w.fs.disk rootInodeNr
  file : ∀ nr, InUse w.fs.disk nr → (storedInode w.fs.sb w.fs.disk nr).mode = iRegular →
    (storedInode w.fs.sb w.fs.disk nr).nrSects = nrDefaultFileSects ∧
    w.fs.sb.n1stSect + nrDefaultFileSects ≤ (storedInode w.fs.sb w.fs.disk nr).startSect
  dir : ∀ nr, InUse w.fs.disk nr → (storedInode w.fs.sb w.fs.disk nr).mode = iDirectory →
    nr = rootInodeNr

theorem consistent_of_session {w₀ : FileUsers} {l : List (Option FileEvent)} (hsize : size < 2 ^ 32)
    (hroom : (FS.makeSuperBlock size).n1stSect + nrDefaultFileSects ≤ installStartSect)
    (hmount : w₀.fs.Mounted size) (hclear : w₀.fs.DirCleared)
    (hfiles : ∀ p i, w₀.fs.filp p i = none)
    (hrun : Run (fun u e v => SessionStep drv size u e v ∧ u.Proper e) w₀ l w) : w.Consistent := by
  obtain ⟨r, k, h⟩ := (FileUsers.AtWork.of_run hsize hroom hmount hclear hfiles hrun).working
  have hsteady := h.shared.steady
  have hlisted := hsteady.disk.listed
  refine ⟨hlisted.mem, hlisted.inj, fun path => ?_, hsteady.rootNumber, fun nr hnr hmode => ?_,
    fun nr hnr hmode => ?_⟩
  · exact (FS.lookup_steady hsteady path).imp_right And.right
  · rcases (hsteady.disk.kind nr hnr).mapped hmode with hmap | hmap
    · have hbase := hmap.base
      rw [SuperBlock.firstBit] at hbase
      exact ⟨hmap.sects, by omega⟩
    · have hbase := hmap.base
      rw [SuperBlock.firstBit] at hbase
      exact ⟨hmap.sects, by omega⟩
  · cases hsteady.disk.kind nr hnr with
    | file hreg _ => exact absurd (hmode.symm.trans hreg) (by decide)
    | beyond hreg _ => exact absurd (hmode.symm.trans hreg) (by decide)
    | dir _ hroot => exact hroot
    | special hspecial => exact absurd (hmode.symm.trans hspecial) (by decide)
    | gone hgone => exact absurd (hmode.symm.trans hgone) (by decide)

theorem consistent_of_session_cmdTar : ∃ w₀ w : FileUsers, w₀.fs.Mounted 34816 ∧
    Run (fun u e v => SessionStep (fun _ m => m) 34816 u e v ∧ u.Proper e) w₀
      [some (.request init unlinkCmdTar { unlinkCmdTar with m3i1 := 0 }), none] w ∧
    w.Consistent := by
  obtain ⟨w₀, w, hmount, hclear, hfiles, hrun⟩ := exists_session
  exact ⟨w₀, w, hmount, hrun,
    consistent_of_session (by norm_num) (by decide) hmount hclear hfiles hrun⟩

/-- A reboot behind a session mounts the file system as it was left: the disk is not changed, every
path leads to the inode it led to, and an inode that was in the cache is on the disk. -/
theorem reboot_of_session {w₀ : FileUsers} {l : List (Option FileEvent)} (hsize : size < 2 ^ 32)
    (hroom : (FS.makeSuperBlock size).n1stSect + nrDefaultFileSects ≤ installStartSect)
    (hmount : w₀.fs.Mounted size) (hclear : w₀.fs.DirCleared)
    (hfiles : ∀ p i, w₀.fs.filp p i = none)
    (hrun : Run (fun u e v => SessionStep drv size u e v ∧ u.Proper e) w₀ l w) (s₀ : Fs)
    (hdisk : s₀.disk = w.fs.disk) (hnone : ∀ p i, s₀.filp p i = none) :
    ∃ s, FS.initFs size s₀ = .ok () s ∧ s.disk = w.fs.disk ∧
      (∀ path, s.lookup path = w.fs.lookup path) ∧
      ∀ n, (w.fs.inodeTable n).iCnt ≠ 0 →
        storedInode s.sb s.disk (w.fs.inodeTable n).iNum.toNat = (w.fs.inodeTable n).disk := by
  have hwork := FileUsers.AtWork.of_run hsize hroom hmount hclear hfiles hrun
  obtain ⟨r, k, h⟩ := hwork.working
  have hmounts : wp (FS.initFs size) _ _ s₀ := FS.initFs_remounts h hwork.stored hdisk
  obtain ⟨u, s, hboot, ⟨r', hre⟩, hfilp⟩ := exists_ok_of_wp hmounts
  have h' := hre.working h fun p i => (congrFun (congrFun hfilp p) i).trans (hnone p i)
  refine ⟨s, hboot, hre.disk, hre.lookup_eq h h', fun n hn => ?_⟩
  rw [h.shared.steady.stored hn, storedInode, FS.inodePlace_layout hre.sb, hre.disk]
  rfl

theorem reboot_of_session_cmdTar : ∃ w₀ w : FileUsers, w₀.fs.Mounted 34816 ∧
    Run (fun u e v => SessionStep (fun _ m => m) 34816 u e v ∧ u.Proper e) w₀
      [some (.request init unlinkCmdTar { unlinkCmdTar with m3i1 := 0 }), none] w ∧
    ∃ s, FS.initFs 34816 { disk := w.fs.disk, fsbuf := fun _ => 0 } = .ok () s ∧
      s.disk = w.fs.disk ∧ ∀ path, s.lookup path = w.fs.lookup path := by
  obtain ⟨w₀, w, hmount, hclear, hfiles, hrun⟩ := exists_session
  obtain ⟨s, hboot, hdisk, hlookup, -⟩ := reboot_of_session (by norm_num) (by decide) hmount hclear
    hfiles hrun { disk := w.fs.disk, fsbuf := fun _ => 0 } rfl fun _ _ => rfl
  exact ⟨w₀, w, hmount, hrun, s, hboot, hdisk, hlookup⟩

end Sessions

end BazingaOS
