import BazingaOS.FS.FirstFile
import BazingaOS.FS.SharedCalls

/-!
# References over whole runs

Processes open and close files, fork and exit. However these follow one another, every descriptor
counts the places that refer to it and every inode in the cache the places that stand for it, so no
place is left behind when an inode is removed.
-/

namespace BazingaOS

open Prog

section New

variable {size base : Nat} {s₀ s : Fs}

theorem JustMounted.slotNr_eq (h : JustMounted size s₀ s) (hclear : s.DirCleared) {t : Nat}
    (ht : t < rootSlots) : slotNr s.disk s.sb.n1stSect t = (if t < 5 then t + 1 else 0 : Nat) := by
  have hs : sectorSize = 512 := rfl
  have hd : dirEntSize = 16 := rfl
  have hdef : nrDefaultFileSects = 2048 := rfl
  have hroot : rootSlots = 65536 := rfl
  rcases Nat.lt_or_ge t 32 with hlt | hge
  · have hnew : ∀ t : Fin 32, slotNr newDirBytes 0 t = (if t.val < 5 then t.val + 1 else 0 : Nat) := by
      decide +kernel
    rw [(h.slot_eq hlt).1]
    exact hnew ⟨t, hlt⟩
  · have hzero : ∀ i, i < 4 → s.disk (slotAt s.sb.n1stSect t + i) = 0 := by
      intro i hi
      apply hclear
      · rw [slotAt, hs, hd]
        omega
      · rw [slotAt, hs, hd, hdef]
        omega
    have hu : u32At s.disk (slotAt s.sb.n1stSect t) = u32At (fun _ => 0) 0 :=
      u32At_shift hzero
    rw [slotNr, hu, if_neg (by omega)]
    exact toI32_of_inI32 (by decide)

theorem JustMounted.listed (h : JustMounted size s₀ s) (hf : Formatted size s.disk)
    (hclear : s.DirCleared) : Listed (InUse s.disk) s.disk s.sb.n1stSect := by
  have hslot := fun {t : Nat} (ht : t < rootSlots) => h.slotNr_eq hclear ht
  have hlive : ∀ t, t < rootSlots → slotNr s.disk s.sb.n1stSect t ≠ 0 →
      t < 5 ∧ slotNr s.disk s.sb.n1stSect t = (t + 1 : Nat) := by
    intro t ht hz
    rw [hslot ht] at hz ⊢
    by_cases hlt : t < 5
    · exact ⟨hlt, by rw [if_pos hlt]⟩
    · rw [if_neg hlt] at hz
      exact absurd rfl hz
  constructor
  · intro t ht hz
    obtain ⟨hlt, heq⟩ := hlive t ht hz
    exact ⟨t + 1, hf.inUse_iff.mpr (by omega), heq⟩
  · intro t u ht hu hz heq
    have hzu : slotNr s.disk s.sb.n1stSect u ≠ 0 := heq ▸ hz
    rw [(hlive t ht hz).2, (hlive u hu hzu).2] at heq
    omega

theorem JustMounted.kind (h : JustMounted size s₀ s) (hf : Formatted size s.disk)
    (hbase : s.sb.n1stSect + base ≤ installStartSect + 1) {m : Nat} (huse : InUse s.disk m) :
    InodeKind s.sb base m (storedInode s.sb s.disk m) := by
  have hs : sectorSize = 512 := rfl
  have hstart : installStartSect = 32768 := rfl
  have hnr : installNrSects = 2048 := rfl
  obtain ⟨q, -, hle, -, hsmap, hn1⟩ := h.geometry
  obtain ⟨hone, hlast⟩ := hf.inUse_iff.mp huse
  rw [h.storedInode_eq hf hone hlast]
  have htar : s.sb.firstBit ⟨iRegular, installNrSects * sectorSize, installStartSect,
      installNrSects⟩ = 32509 - q := by
    rw [SuperBlock.firstBit, hn1]
    dsimp only
    omega
  interval_cases m
  · exact .dir rfl rfl
  · exact .special rfl
  · exact .special rfl
  · exact .special rfl
  · rcases Nat.lt_or_ge q 8 with hlt | hge
    · refine .beyond rfl ⟨rfl, ?_, rfl, ?_⟩
      · rw [inodeAfter, htar]
        omega
      · omega
    · refine .file rfl ⟨?_, ?_, rfl, ?_⟩
      · rw [inodeAfter]
        dsimp only
        omega
      · rw [inodeAfter, htar]
        omega
      · rw [inodeAfter, htar, smapBits_of_sects hsmap]
        dsimp only
        omega

theorem JustMounted.steady (h : JustMounted size s₀ s) (hf : Formatted size s.disk)
    (hclear : s.DirCleared) (hle : base ≤ nrDefaultFileSects + 1)
    (hbase : s.sb.n1stSect + base ≤ installStartSect + 1) :
    ∃ r, s.Steady r base (InUse s.disk) ∧
      s.inodeTable = Function.update (fun _ => {}) r
        (.loaded rootDev rootInodeNr (inodeAfter size 1)) := by
  have hdef : nrDefaultFileSects = 2048 := rfl
  obtain ⟨q, -, -, -, hsmap, hn1⟩ := h.geometry
  obtain ⟨r, hroot, htab⟩ := h.table_eq hf
  have hinode : s.inodeTable r = .loaded rootDev rootInodeNr (inodeAfter size 1) := by
    rw [htab, Function.update_self]
  have hbits := smapBits_of_sects hsmap
  refine ⟨r, ⟨h.laid, by omega, fun nr hnr => ⟨hnr.1, hnr.2.1⟩, hf.inUse_iff.mpr (by decide), ?_,
    ?_, fun n => ?_, hroot, ?_, ?_, ?_⟩, htab⟩
  · refine ⟨?_, fun b hb => ?_, fun m hm => h.kind hf hbase hm, h.listed hf hclear⟩
    · rw [Free, sectBit, hf.imap 0 (by decide)]
      decide
    · have hsects : (FS.makeSuperBlock size).smapBits = s.sb.smapBits := by
        rw [SuperBlock.smapBits, h.smapSects_eq, SuperBlock.smapBits]
      rw [Free, h.smap b (by omega), smapAfter_front (by omega)]
      decide
  · rw [htab]
    exact h.cacheOk hf r
  · rw [htab]
    refine update_cases (P := fun i : Inode => i.iCnt ≠ 0 → InUse s.disk i.iNum.toNat)
      (fun _ _ => hf.inUse_iff.mpr ⟨?_, ?_⟩) fun _ hcnt => absurd rfl hcnt
    · exact show 1 ≤ rootInodeNr by decide
    · exact show rootInodeNr ≤ 5 by decide
  · rw [hinode]
    exact h.rootInode
  · rw [hinode]
    exact show 5 * dirEntSize / dirEntSize ≤ nrNumbers by decide
  · rw [hinode]
    exact Int.one_pos

theorem JustMounted.shared (h : JustMounted size s₀ s) (hf : Formatted size s.disk)
    (hclear : s.DirCleared) (hfiles : ∀ p i, s.filp p i = none)
    (hle : base ≤ nrDefaultFileSects + 1) (hbase : s.sb.n1stSect + base ≤ installStartSect + 1) :
    ∃ r, s.Shared r base fun _ => 0 := by
  obtain ⟨r, hsteady, htab⟩ := h.steady hf hclear hle hbase
  have hnone : ∀ f, refCount s.refs.filp f = 0 := fun f =>
    refCount_eq_zero_iff.mpr fun p i hi => by
      rw [show s.refs.filp p i = none from hfiles p i] at hi
      cases hi
  refine ⟨r, hsteady, ⟨fun f => ?_, fun f => ?_, fun n => ?_⟩, fun _ => Int.le_refl 0⟩
  · rw [hnone f]
    change (s.fdTable f).fdCnt = 0
    rw [h.fdTable]
  · refine iff_of_true ?_ (hnone f)
    change (s.fdTable f).fdInode = none
    rw [h.fdTable]
  · have hobj : refCount (objects s.refs.filp s.refs.fdInode) n = 0 :=
      refCount_eq_zero_iff.mpr fun p i hi => by
        rw [objects, show s.refs.filp p i = none from hfiles p i] at hi
        cases hi
    rw [hobj]
    change (s.inodeTable n).iCnt = _
    rw [htab, extraRefs]
    refine update_cases (P := fun i : Inode => i.iCnt = (0 : Nat) + ((if n = r then 1 else 0) + 0))
      (fun hn => ?_) fun hn => ?_
    · rw [if_pos hn]
      rfl
    · rw [if_neg hn]
      rfl

end New

/-- The file system and the slots of the process table that are free. -/
structure FileUsers where
  fs : Fs
  free : Pid → Bool

/-- A request of process `p` with its answer, the end of MM's forking `q` from `p`, the end of `q`, and
the processes at work. -/
inductive FileEvent where
  | request (p : Pid) (msg reply : Message)
  | fork (p q : Pid) (msg : Message)
  | exit (q : Pid) (msg : Message)
  | work (user : Pid → Bytes)

/-- What FS does on a message. When MM, process `m`, tells it of a child, the child has the files of its
parent; a process that has exited is as good as free. -/
inductive FileStep (drv : FS.Drivers) (w : FileUsers) : FileEvent → FileUsers → Prop
  | request {p : Pid} {msg reply : Message} {src : Int} {s : Fs} (alive : w.free p = false)
      (own : msg.type ≠ .fork ∧ msg.type ≠ .exit)
      (answer : FS.handle drv p msg w.fs = .ok (src, reply) s) :
      FileStep drv w (.request p msg reply) { w with fs := s }
  | fork {m p q : Pid} {msg : Message} {v : Int × Message} {s : Fs} (parent : w.free p = false)
      (child : w.free q = true) (number : FS.procAt msg.m3i2 = some q) (type : msg.type = .fork)
      (answer : FS.handle drv m msg (w.fs.copyFiles p q) = .ok v s) :
      FileStep drv w (.fork p q msg) ⟨s, Function.update w.free q false⟩
  | exit {m q : Pid} {msg : Message} {v : Int × Message} {s : Fs} (alive : w.free q = false)
      (number : FS.procAt msg.m3i2 = some q) (type : msg.type = .exit)
      (answer : FS.handle drv m msg w.fs = .ok v s) :
      FileStep drv w (.exit q msg) ⟨s, Function.update w.free q true⟩
  | work (user : Pid → Bytes) : FileStep drv w (.work user) { w with fs := { w.fs with user } }

/-- Files are opened, closed, looked at and removed, and every removal succeeds. -/
def FileEvent.Counting : FileEvent → Prop
  | .request _ msg reply => msg.type = .open ∨ msg.type = .close ∨ msg.type = .stat ∨
      msg.type = .unlink ∧ reply.m3i1 = 0
  | _ => True

/-- The counts are the numbers of references, and whatever is referred to is in use. -/
structure FileUsers.Counts (w : FileUsers) : Prop where
  desc : ∀ f, (w.fs.fdTable f).fdCnt =
    (Finset.univ.filter fun x : Pid × Fin nrFiles => w.fs.filp x.1 x.2 = some f).card
  closed : ∀ f, (w.fs.fdTable f).fdInode = none ↔
    (Finset.univ.filter fun x : Pid × Fin nrFiles => w.fs.filp x.1 x.2 = some f).card = 0
  inode : ∀ n, (w.fs.inodeTable n).iCnt =
    (Finset.univ.filter fun x : Pid × Fin nrFiles =>
      ((w.fs.filp x.1 x.2).bind fun f => (w.fs.fdTable f).fdInode) = some n).card +
        if w.fs.rootInode = some n then 1 else 0
  live : ∀ p i f n, w.fs.filp p i = some f → (w.fs.fdTable f).fdInode = some n →
    InUse w.fs.disk (w.fs.inodeTable n).iNum.toNat

/-- The file system keeps its references, and free slots have none. -/
structure FileUsers.Sharing (w : FileUsers) (r : Fin nrInode) (base : Nat)
    (k : Fin nrInode → Int) : Prop where
  shared : w.fs.Shared r base k
  free : ∀ q, w.free q = true → ∀ i, w.fs.filp q i = none

section Steps

variable {drv : FS.Drivers} {s s' : Fs} {w w' : FileUsers} {r : Fin nrInode} {base : Nat}
  {k : Fin nrInode → Int} {p q m : Pid} {msg reply : Message} {src : Int} {v : Int × Message}

theorem Refs.filp_opens_of_ne {x : Refs} {i : Fin nrFiles} {f : Fin nrFileDesc} {n : Fin nrInode}
    (h : q ≠ p) : (x.opens p i f n).filp q = x.filp q := Function.update_of_ne h _ _

theorem Fs.Shared.working (h : s.Shared r base k) (user : Pid → Bytes) :
    Fs.Shared { s with user } r base k :=
  ⟨h.steady.of_disk rfl rfl rfl h.steady.disk fun _ _ => rfl, h.refs, h.left⟩

theorem FS.request_shared (h : s.Shared r base k)
    (hc : FileEvent.Counting (.request p msg reply))
    (hrun : FS.handle drv p msg s = .ok (src, reply) s') :
    s'.Shared r base k ∧ ∀ q, q ≠ p → s'.filp q = s.filp q := by
  rcases hc with htype | htype | htype | ⟨htype, hzero⟩ <;>
    simp only [FS.handle, htype] at hrun <;> obtain ⟨a, hcall, hreply⟩ := ok_of_bind_pure hrun
  · obtain ⟨h', ⟨hrefs, -⟩ | ⟨n, i, f, hopen, -⟩⟩ := wp_ok (FS.doOpen_shared h) hcall
    · exact ⟨h', fun q _ => congrFun (congrArg Refs.filp hrefs) q⟩
    · refine ⟨h', fun q hq => ?_⟩
      have hfilp := congrFun (congrArg Refs.filp hopen.refs) q
      exact hfilp.trans (Refs.filp_opens_of_ne hq)
  · obtain ⟨h', hrefs | hclose⟩ := wp_ok (FS.doClose_shared h) hcall
    · exact ⟨h', fun q _ => congrFun (congrArg Refs.filp hrefs) q⟩
    · exact ⟨h', (Refs.Shrinks.of_closes (.single hclose)).other⟩
  · obtain ⟨h', hrefs, -⟩ := wp_ok (FS.doStat_shared h) hcall
    exact ⟨h', fun q _ => congrFun (congrArg Refs.filp hrefs) q⟩
  · obtain ⟨-, hfilp, h' | ⟨hne, -⟩⟩ := wp_ok (FS.doUnlink_shared h) hcall
    · exact ⟨h', fun q _ => congrFun hfilp q⟩
    · obtain ⟨-, rfl⟩ := Prod.mk.inj hreply
      exact absurd hzero hne

theorem FileUsers.Sharing.step {e : FileEvent} (h : w.Sharing r base k) (hc : e.Counting)
    (hstep : FileStep drv w e w') : w'.Sharing r base k := by
  cases hstep with
  | request alive own answer =>
    obtain ⟨h', hother⟩ := FS.request_shared h.shared hc answer
    refine ⟨h', fun q hq i => ?_⟩
    have hne : q ≠ _ := fun heq => by
      rw [heq, alive] at hq
      cases hq
    exact (congrFun (hother q hne) i).trans (h.free q hq i)
  | @fork m p q msg v s parent child number type answer =>
    simp only [FS.handle, type] at answer
    obtain ⟨_, hcall, -⟩ := ok_of_bind_pure answer
    obtain ⟨h', hfilp⟩ := wp_ok (FS.fsFork_shared h.shared number (h.free q child)) hcall
    refine ⟨h', fun q' hq' i => ?_⟩
    change Function.update w.free q false q' = true at hq'
    have hne : q' ≠ q := by
      rintro rfl
      rw [Function.update_self] at hq'
      cases hq'
    rw [Function.update_of_ne hne] at hq'
    have hsame : s.filp q' = w.fs.filp q' := by
      rw [show s.filp = _ from hfilp]
      exact Function.update_of_ne hne _ _
    exact (congrFun hsame i).trans (h.free q' hq' i)
  | @exit m q msg v s alive number type answer =>
    simp only [FS.handle, type] at answer
    obtain ⟨_, hcall, -⟩ := ok_of_bind_pure answer
    obtain ⟨h', hrun, hnone⟩ := wp_ok (FS.fsExit_shared h.shared number) hcall
    refine ⟨h', fun q' hq' i => ?_⟩
    change Function.update w.free q true q' = true at hq'
    by_cases hqq : q' = q
    · rw [hqq]
      exact hnone i
    · rw [Function.update_of_ne hqq] at hq'
      exact (congrFun ((Refs.Shrinks.of_closes hrun).other q' hqq) i).trans (h.free q' hq' i)
  | work user =>
    exact ⟨h.shared.working user, h.free⟩

theorem FileUsers.Sharing.counts (h : w.Sharing r base fun _ => 0) : w.Counts := by
  have hrefs := h.shared.refs
  have hroot := h.shared.steady.root
  constructor
  · intro f
    rw [← refCount_eq_card]
    exact hrefs.handle f
  · intro f
    rw [← refCount_eq_card]
    exact hrefs.free f
  · intro n
    have hcount := hrefs.object n
    rw [refCount_eq_card, extraRefs, Int.add_zero] at hcount
    have hheld : (w.fs.rootInode = some n) = (n = r) := by
      rw [hroot, Option.some.injEq]
      exact propext eq_comm
    simp only [hheld]
    exact hcount
  · intro p i f n hf hn
    have hpos := hrefs.os_pos (extraRefs_nonneg h.shared.left) hf hn
    exact h.shared.steady.live n (ne_of_gt hpos)

/-- Every run from a new file system. -/
theorem counts_of_run {size : Nat} {w₀ : FileUsers} {l : List FileEvent} (hsize : size < 2 ^ 32)
    (hmount : w₀.fs.Mounted size) (hclear : w₀.fs.DirCleared)
    (hfiles : ∀ p i, w₀.fs.filp p i = none)
    (hrun : Run (fun u e v => FileStep drv u e v ∧ e.Counting) w₀ l w) : w.Counts := by
  obtain ⟨_, hjust⟩ := hmount.justMounted hsize
  have hbase : w₀.fs.sb.n1stSect + 0 ≤ installStartSect + 1 := by
    rw [← hjust.n1stSect_eq]
    exact hjust.first
  obtain ⟨r, hshared⟩ := hjust.shared (hmount.formatted hsize) hclear hfiles (Nat.zero_le _) hbase
  have hrun' := hrun.invariant (I := fun u => u.Sharing r 0 fun _ => 0)
    ⟨hshared, fun q _ => hfiles q⟩ fun u e v hstep hu => hu.step hstep.2 hstep.1
  exact hrun'.counts

/-- In a new file system on the smallest partition INIT opens `cmd.tar`, creates a file and closes
it. -/
theorem counts_of_run_created : ∃ w₀ w fd r₀ r₁ r₂, Fs.Mounted 34816 w₀.fs ∧
    Run (fun u e v => FileStep (fun _ m => m) u e v ∧ e.Counting) w₀
      [.request init openCmdTar r₀, .request init createTar r₁,
        .request init (closeFile fd) r₂] w ∧ w.Counts := by
  obtain ⟨s, u, s₁, s', fd₀, fd, hmount, hclear, hfiles, hopen, hcreate, hclose, -⟩ :=
    exists_first_file
  let others : Pid → Bool := fun p => decide (p ≠ init)
  have halive : others init = false := by decide
  have hstep : ∀ {msg reply : Message} {t t' : Fs} {src : Int},
      msg.type ≠ .fork ∧ msg.type ≠ .exit →
      FS.handle (fun _ m => m) init msg t = .ok (src, reply) t' →
      FileStep (fun _ m => m) ⟨t, others⟩ (.request init msg reply) ⟨t', others⟩ :=
    fun hown hanswer => .request halive hown hanswer
  have hrun : Run (fun u e v => FileStep (fun _ m => m) u e v ∧ e.Counting) ⟨s, others⟩
      ((([] ++ [.request init openCmdTar { openCmdTar with m3i1 := fd₀ }]) ++
        [.request init createTar { createTar with m3i1 := fd }]) ++
        [.request init (closeFile fd) { closeFile fd with m3i1 := 0 }]) ⟨s', others⟩ :=
    .snoc (.snoc (.snoc .nil ⟨hstep ⟨by decide, by decide⟩ (bind_of_ok hopen), .inl rfl⟩)
      ⟨hstep ⟨by decide, by decide⟩ (bind_of_ok hcreate), .inl rfl⟩)
      ⟨hstep ⟨nofun, nofun⟩ (bind_of_ok hclose), .inr (.inl rfl)⟩
  exact ⟨_, _, fd, _, _, _, hmount, hrun, counts_of_run (by decide) hmount hclear hfiles hrun⟩

end Steps

end BazingaOS
