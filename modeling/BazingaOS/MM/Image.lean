import BazingaOS.FS.Disk
import BazingaOS.MM.LifeCycle
import BazingaOS.MM.Segment

/-!
# Process images

`do_fork` with the segments of the processes and the memory in which it copies the image of the
parent. `alloc_mem` compares the end of what the parent's segment takes up with the end of the
memory, but the segments of the child are `PROC_DEFAULT_IMG_SIZE` bytes long.
-/

namespace BazingaOS

open Prog

def daC : Nat := 0x98
def daCr : Nat := 0x9A
def daDrw : Nat := 0x92
def da32 : Nat := 0x4000
def daLimit4k : Nat := 0x8000
def limit4kShift : Nat := 12
def privilegeTask : Nat := 1
def privilegeUser : Nat := 3

/-- The two segments that `kernel_main` and `do_fork` give to a user process. -/
def userLdt (base limit : Nat) : Ldt where
  code := initDescriptor base limit (da32 ||| daC ||| (privilegeUser <<< 5) ||| daLimit4k)
  data := initDescriptor base limit (da32 ||| daDrw ||| (privilegeUser <<< 5) ||| daLimit4k)

/-- The flat segments of `boot/loader.asm`, whose type `kernel_main` replaces. -/
def flatLdt (privilege : Nat) : Ldt where
  code := { initDescriptor 0 0xFFFFF (daCr ||| da32 ||| daLimit4k) with
    attrl := UInt8.ofNat (daC ||| (privilege <<< 5)) }
  data := { initDescriptor 0 0xFFFFF (da32 ||| daDrw ||| daLimit4k) with
    attrl := UInt8.ofNat (daDrw ||| (privilege <<< 5)) }

/-- The segments that `kernel_main` sets up; `kernelEnd` is the sum of the base and the limit that
`get_kernel_map` finds. -/
def kernelMainLdt (kernelEnd : Nat) (p : Pid) : Ldt :=
  if nrTasks + nrNativeProcs ≤ p.val then {}
  else if p = init then userLdt 0 (kernelEnd >>> limit4kShift)
  else flatLdt (if p.val < nrTasks then privilegeTask else privilegeUser)

/-- What MM manages, with the segments of the processes and the memory. -/
structure Images where
  mm : Mm
  ldts : Pid → Ldt
  memory : Bytes

/-- The address that `alloc_mem` returns. -/
def imageBase (p : Pid) : Nat :=
  procAllocBase + procDefaultImgSize * (p.val - (nrTasks + nrNativeProcs))

/-- `caller_T_size` and `caller_D_size` of `do_fork`. -/
def callerSize (d : Descriptor) : Int := toI32 d.size

def childLdt (p : Pid) : Ldt := userLdt (imageBase p) ((procDefaultImgSize - 1) >>> limit4kShift)

namespace MM

def onMm {α : Type} (f : Prog Mm α) : Prog Images α := fun s =>
  match f s.mm with
  | .ok a u => .ok a { s with mm := u }
  | .stop w u => .stop w { s with mm := u }

def setLdt (p : Pid) (l : Ldt) : Prog Images Unit :=
  modify fun s => { s with ldts := Function.update s.ldts p l }

/-- `alloc_mem` with its signed argument. -/
def allocImage (pid : Pid) (memSize : Int) : Prog Mm Nat := do
  check (nrTasks + nrNativeProcs ≤ pid.val)
  if procDefaultImgSize < memSize then halt .panic
  else if (← get).memorySize < imageBase pid + memSize then halt .panic
  else return imageBase pid

/-- `do_fork`, up to its messages. -/
def forkImage (parent : Pid) : Prog Images (Option Pid) := do
  match (← get).mm.freeSlot with
  | none => return none
  | some pid =>
    check (nrTasks + nrNativeProcs ≤ pid.val)
    let record ← onMm (procOf parent)
    let caller := (← get).ldts parent
    onMm (setProc pid fun _ => record)
    setLdt pid caller
    onMm (setProc pid fun r => { r with pParent := .proc parent })
    check (caller.code.base = caller.data.base ∧ caller.code.limitT = caller.data.limitD ∧
      callerSize caller.code = callerSize caller.data)
    let childBase ← onMm (allocImage pid (callerSize caller.code))
    modify fun s => { s with
      memory := physCopy s.memory childBase caller.code.base (toU32 (callerSize caller.code)) }
    setLdt pid (userLdt childBase ((procDefaultImgSize - 1) >>> limit4kShift))
    onMm (modify fun t =>
      { t with imageSize := Function.update t.imageSize pid procDefaultImgSize })
    onMm (addLog (.fork parent pid))
    return some pid

end MM

/-- A fork handled with the segments and the memory, or another step of MM, which changes no
segment. Processes store what they like into the memory between two forks. -/
def ImageStep (s : Images) (act : MmAction) (s' : Images) : Prop :=
  match act with
  | .request (.fork p) => (MmRequest.fork p).Enabled s.mm ∧ ∃ r, MM.forkImage p s = .ok r s'
  | act => MmStep s.mm act s'.mm ∧ s'.ldts = s.ldts

def imagesInit (kernelEnd memorySize : Nat) (memory : Bytes) : Images where
  mm := mmInit (fun p => (callerSize (kernelMainLdt kernelEnd p).code).toNat) memorySize
  ldts := kernelMainLdt kernelEnd
  memory := memory

section Segments

variable {base limit : Nat} {p q : Pid}

theorem userLdt_base (h : base < 0x100000000) :
    (userLdt base limit).code.base = base ∧ (userLdt base limit).data.base = base :=
  ⟨Descriptor.base_initDescriptor h, Descriptor.base_initDescriptor h⟩

theorem userLdt_size : (userLdt base limit).code.size = (1 + limit % 0x100000) * 4096 ∧
    (userLdt base limit).data.size = (1 + limit % 0x100000) * 4096 := by
  have hcode := @Descriptor.granularity_initDescriptor base limit
    (da32 ||| daC ||| (privilegeUser <<< 5) ||| daLimit4k) (by decide)
  have hdata := @Descriptor.granularity_initDescriptor base limit
    (da32 ||| daDrw ||| (privilegeUser <<< 5) ||| daLimit4k) (by decide)
  constructor
  · rw [Descriptor.size, userLdt, Descriptor.limitT_initDescriptor, hcode]
  · rw [Descriptor.size, userLdt, Descriptor.limitT_initDescriptor, hdata]

theorem imageBase_le (p : Pid) : procAllocBase ≤ imageBase p ∧
    imageBase p + procDefaultImgSize ≤ 0x2800000 := by
  have hp : p.val < 37 := p.isLt
  simp only [imageBase, procAllocBase, procDefaultImgSize, nrTasks, nrNativeProcs]
  omega

theorem imageBase_apart (hp : nrTasks + nrNativeProcs ≤ p.val) (hq : nrTasks + nrNativeProcs ≤ q.val)
    (hne : p ≠ q) : imageBase p + procDefaultImgSize ≤ imageBase q ∨
      imageBase q + procDefaultImgSize ≤ imageBase p := by
  have hval : p.val ≠ q.val := fun h => hne (Fin.ext h)
  simp only [imageBase, procDefaultImgSize, nrTasks, nrNativeProcs] at *
  omega

theorem childLdt_base (p : Pid) :
    (childLdt p).code.base = imageBase p ∧ (childLdt p).data.base = imageBase p := by
  have hle := imageBase_le p
  exact userLdt_base (by omega)

theorem childLdt_size (p : Pid) : (childLdt p).code.size = procDefaultImgSize ∧
    (childLdt p).data.size = procDefaultImgSize := userLdt_size

theorem childLdt_segment (p : Pid) :
    (childLdt p).code.segment = Set.Ico (imageBase p) (imageBase p + procDefaultImgSize) ∧
      (childLdt p).data.segment = Set.Ico (imageBase p) (imageBase p + procDefaultImgSize) := by
  obtain ⟨hcode, hdata⟩ := childLdt_base p
  obtain ⟨hcode', hdata'⟩ := childLdt_size p
  constructor
  · rw [Descriptor.segment, hcode, hcode']
  · rw [Descriptor.segment, hdata, hdata']

end Segments

section Fork

variable {s s' : Images} {p q c : Pid}

@[simp] theorem wp_onMm {α : Type} {f : Prog Mm α} {Q : α → Images → Prop}
    {E : Stop → Images → Prop} : wp (MM.onMm f) Q E s ↔
      wp f (fun a u => Q a { s with mm := u }) (fun w u => E w { s with mm := u }) s.mm := by
  unfold wp MM.onMm
  cases f s.mm <;> rfl

theorem wp_allocImage {Q : Nat → Mm → Prop} {E : Stop → Mm → Prop} {t : Mm} {n : Int} :
    wp (MM.allocImage c n) Q E t ↔
      (nrTasks + nrNativeProcs ≤ c.val →
        ((procDefaultImgSize : Int) < n → E .panic t) ∧
        (¬ (procDefaultImgSize : Int) < n →
          ((t.memorySize : Int) < imageBase c + n → E .panic t) ∧
          (¬ (t.memorySize : Int) < imageBase c + n → Q (imageBase c) t))) ∧
      (¬ nrTasks + nrNativeProcs ≤ c.val → E .assertion t) := by
  simp only [MM.allocImage, wp_bind, wp_check, wp_ite, wp_get, wp_halt, wp_pure]

/-- What a fork that makes the child `c` does. -/
structure Forked (s : Images) (p c : Pid) (s' : Images) : Prop where
  slot : s.mm.freeSlot = some c
  user : nrTasks + nrNativeProcs ≤ c.val
  base : (s.ldts p).code.base = (s.ldts p).data.base
  size : callerSize (s.ldts p).code ≤ procDefaultImgSize
  fits : imageBase c + callerSize (s.ldts p).code ≤ s.mm.memorySize
  ldts : s'.ldts = Function.update s.ldts c (childLdt c)
  memory : s'.memory = physCopy s.memory (imageBase c) (s.ldts p).code.base
    (toU32 (callerSize (s.ldts p).code))
  memorySize : s'.mm.memorySize = s.mm.memorySize
  imageSize : s'.mm.imageSize = Function.update s.mm.imageSize c procDefaultImgSize
  table : ∀ q, q ≠ c → s'.mm.procTable q = s.mm.procTable q

theorem forkImage_spec : wp (MM.forkImage p)
    (fun r s' => (r = none ∧ s' = s) ∨ ∃ c, r = some c ∧ Forked s p c s') (fun _ _ => True) s := by
  simp only [MM.forkImage, wp_bind, wp_get]
  cases hslot : s.mm.freeSlot with
  | none => exact .inl ⟨rfl, rfl⟩
  | some c =>
    simp only [wp_bind, wp_check, wp_onMm, wp_get, wp_mmProcOf, wp_mmSetProc, MM.setLdt, wp_modify,
      wp_allocImage, wp_mmAddLog, wp_pure]
    refine ⟨fun huser => ⟨fun hsame => ⟨fun _ => ⟨fun _ => trivial, fun hsize =>
      ⟨fun _ => trivial, fun hfits => ?_⟩⟩, fun _ => trivial⟩, fun _ => trivial⟩, fun _ => trivial⟩
    refine .inr ⟨c, rfl, hslot, huser, hsame.1, by omega, ?_, ?_, rfl, rfl, rfl, ?_⟩
    · change ¬ (s.mm.memorySize : Int) < _ at hfits
      omega
    · simp [childLdt]
    · intro q hq
      simp [Mm.setProc, hq]

/-- Where `imageSize` is what the segments say, all that holds of the fork of the process life cycle
holds of this one. -/
theorem wp_forkImage {Q : Option Pid → Mm → Prop} {E : Stop → Mm → Prop}
    (hsame : (s.ldts p).code.base = (s.ldts p).data.base ∧
      (s.ldts p).code.limitT = (s.ldts p).data.limitD ∧
      callerSize (s.ldts p).code = callerSize (s.ldts p).data)
    (himg : callerSize (s.ldts p).code = s.mm.imageSize p) (h : wp (MM.doFork p) Q E s.mm) :
    wp (MM.forkImage p) (fun r s' => Q r s'.mm) (fun w s' => E w s'.mm) s := by
  simp only [MM.doFork, wp_bind, wp_get] at h
  simp only [MM.forkImage, wp_bind, wp_get, Mm.freeSlot]
  cases hslot : (List.finRange nrSlots).find? fun i =>
      decide ((s.mm.procTable i).pFlags = Flags.free) with
  | none =>
    rw [hslot] at h
    exact h
  | some c =>
    rw [hslot] at h
    simp only [MM.allocMem, wp_bind, wp_check, wp_mmSetProc, wp_ite, wp_get, wp_halt, wp_pure,
      wp_modify, wp_mmAddLog] at h
    simp only [wp_bind, wp_check, wp_onMm, wp_get, wp_mmProcOf, wp_mmSetProc, MM.setLdt, wp_modify,
      wp_allocImage, wp_mmAddLog, wp_pure, himg]
    rw [himg] at hsame
    refine ⟨fun huser => ⟨fun _ => ?_, fun hnot => absurd hsame hnot⟩, h.2⟩
    obtain ⟨hlarge, hmore⟩ := (h.1 huser).1 huser
    refine ⟨fun _ => ⟨fun hn => hlarge (by omega), fun hn => ?_⟩, fun hnot => absurd huser hnot⟩
    obtain ⟨hover, hfits⟩ := hmore (by omega)
    unfold imageBase
    exact ⟨fun hlt => hover (by omega), fun hlt => hfits (by omega)⟩

end Fork

section Frame

variable {I : Mm → Prop} {p q : Pid}

/-- What exits and waits keep: no change of a record makes a free slot a used one. -/
structure Mm.Frame (I : Mm → Prop) : Prop where
  setProc : ∀ t p f, (∀ r : Process, r.pFlags.freeSlot = true → (f r).pFlags.freeSlot = true) →
    I t → I (t.setProc p f)
  addLog : ∀ t e, I t → I (t.addLog e)

theorem keeps_mmProcOf (p : Pid) : Keeps I (MM.procOf p) :=
  keeps_bind keeps_get fun _ => keeps_pure _

namespace Mm.Frame

variable (h : Mm.Frame I)
include h

theorem keeps_addLog (e : MmEvent) : Keeps I (MM.addLog e) := keeps_modify fun t => h.addLog t e

theorem keeps_setProc {f : Process → Process}
    (hf : ∀ r, r.pFlags.freeSlot = true → (f r).pFlags.freeSlot = true) (p : Pid) :
    Keeps I (MM.setProc p f) := keeps_modify fun t => h.setProc t p f hf

theorem keeps_cleanup (p : Pid) : Keeps I (MM.cleanup p) := by
  apply keeps_bind (keeps_mmProcOf p)
  intro r
  cases r.pParent with
  | proc d =>
    exact keeps_bind (h.keeps_addLog _) fun _ => h.keeps_setProc (by simp [Flags.free]) p
  | _ => exact keeps_halt _

theorem keeps_adoptChildren (p : Pid) (l : List Pid) : Keeps I (MM.adoptChildren p l) := by
  induction l with
  | nil => exact keeps_pure _
  | cons i l ih =>
    apply keeps_bind (keeps_mmProcOf i)
    intro r
    apply keeps_ite
    · intro _
      apply keeps_bind (h.keeps_setProc (by simp) i)
      intro _
      apply keeps_bind (h.keeps_addLog _)
      intro _
      apply keeps_bind (keeps_mmProcOf i)
      intro _
      apply keeps_bind (keeps_mmProcOf init)
      intro _
      apply keeps_ite
      · intro _
        apply keeps_bind (h.keeps_setProc (by simp) init)
        intro _
        exact keeps_bind (h.keeps_cleanup i) fun _ => ih
      · intro _
        exact ih
    · intro _
      exact ih

theorem keeps_doExit (p : Pid) (status : Int) : Keeps I (MM.doExit p status) := by
  apply keeps_bind (h.keeps_addLog _)
  intro _
  apply keeps_bind (h.keeps_setProc (by simp) p)
  intro _
  apply keeps_bind (keeps_mmProcOf p)
  intro r
  cases r.pParent with
  | proc d =>
    apply keeps_bind (keeps_mmProcOf d)
    intro _
    apply keeps_ite
    · intro _
      apply keeps_bind (h.keeps_setProc (by simp) d)
      intro _
      exact keeps_bind (h.keeps_cleanup p) fun _ => h.keeps_adoptChildren p _
    · intro _
      exact keeps_bind (h.keeps_setProc (by simp) p) fun _ => h.keeps_adoptChildren p _
  | _ => exact keeps_halt _

theorem keeps_waitScan (p : Pid) (l : List Pid) (b : Bool) : Keeps I (MM.waitScan p l b) := by
  induction l generalizing b with
  | nil => exact keeps_pure _
  | cons i l ih =>
    apply keeps_bind (keeps_mmProcOf i)
    intro r
    apply keeps_ite
    · intro _
      exact ih b
    · intro _
      apply keeps_ite
      · intro _
        exact keeps_bind (h.keeps_cleanup i) fun _ => keeps_pure _
      · intro _
        exact ih true

theorem keeps_doWait (p : Pid) : Keeps I (MM.doWait p) := by
  apply keeps_bind (h.keeps_addLog _)
  intro _
  apply keeps_bind (h.keeps_waitScan p _ _)
  intro r
  match r with
  | none => exact keeps_pure _
  | some true => exact h.keeps_setProc (by simp) p
  | some false => exact h.keeps_addLog _

end Mm.Frame

/-- Slot `q` of the process table is free. -/
def Mm.IsFree (q : Pid) (t : Mm) : Prop := (t.procTable q).pFlags.freeSlot = true

theorem Mm.isFree_frame (q : Pid) : Mm.Frame (Mm.IsFree q) where
  setProc t p f hf ht := by
    unfold Mm.IsFree at ht ⊢
    rw [Mm.setProc_apply]
    by_cases hq : q = p
    · rw [if_pos hq]
      exact hf _ (hq ▸ ht)
    · rwa [if_neg hq]
  addLog _ _ ht := ht

theorem Mm.imageSize_frame (size : Pid → Nat) : Mm.Frame fun t => t.imageSize = size where
  setProc _ _ _ _ ht := ht
  addLog _ _ ht := ht

end Frame

/-- Native processes have the segments that `kernel_main` gave them, and forked ones those that
`do_fork` gave them. -/
structure ImagesInv (kernelEnd : Nat) (s : Images) : Prop where
  native : ∀ p : Pid, p.val < nrTasks + nrNativeProcs → s.ldts p = kernelMainLdt kernelEnd p
  child : ∀ p : Pid, nrTasks + nrNativeProcs ≤ p.val → ¬ s.mm.IsFree p → s.ldts p = childLdt p

section Runs

variable {kernelEnd memorySize : Nat} {memory : Bytes} {s s' : Images} {p c : Pid}
  {act : MmAction} {acts : List MmAction}

theorem imagesInit_inv : ImagesInv kernelEnd (imagesInit kernelEnd memorySize memory) where
  native _ _ := rfl
  child p hp hfree := by
    refine absurd ?_ hfree
    change (kernelMainTable p).pFlags.freeSlot = true
    rw [kernelMainTable, if_pos hp]
    rfl

theorem Forked.inv (hf : Forked s p c s') (h : ImagesInv kernelEnd s) : ImagesInv kernelEnd s' where
  native q hq := by
    have hne : q ≠ c := by
      rintro rfl
      have huser := hf.user
      omega
    rw [hf.ldts, Function.update_of_ne hne]
    exact h.native q hq
  child q hq hfree := by
    by_cases hqc : q = c
    · rw [hf.ldts, hqc, Function.update_self]
    · rw [hf.ldts, Function.update_of_ne hqc]
      apply h.child q hq
      unfold Mm.IsFree at hfree ⊢
      rwa [← hf.table q hqc]

theorem MmStep.frame {I : Mm → Prop} {t t' : Mm} (hI : Mm.Frame I) (hstep : MmStep t act t')
    (hfork : ∀ p, act ≠ .request (.fork p)) (hipc : ∀ table, SameLife t.procTable table →
      I { t with procTable := table }) (ht : I t) : I t' := by
  cases act with
  | request r =>
    obtain ⟨-, hrun⟩ := hstep
    cases r with
    | fork p => exact absurd rfl (hfork p)
    | exit p status => exact wp_ok (hI.keeps_doExit p status t ht) hrun
    | wait p => exact wp_ok (hI.keeps_doWait p t ht) hrun
  | ipc table =>
    obtain ⟨hsame, rfl⟩ := hstep
    exact hipc table hsame

theorem MmStep.isFree {t t' : Mm} {q : Pid} (hstep : MmStep t act t')
    (hfork : ∀ p, act ≠ .request (.fork p)) (hq : t.IsFree q) : t'.IsFree q := by
  refine hstep.frame (Mm.isFree_frame q) hfork (fun table hsame => ?_) hq
  change (table q).pFlags.freeSlot = true
  rw [hsame.freeSlot]
  exact hq

theorem ImageStep.cases (hstep : ImageStep s act s') :
    (∃ p, act = .request (.fork p) ∧ (MmRequest.fork p).Enabled s.mm ∧
      ∃ r, MM.forkImage p s = .ok r s') ∨
    ((∀ p, act ≠ .request (.fork p)) ∧ MmStep s.mm act s'.mm ∧ s'.ldts = s.ldts) := by
  cases act with
  | request r =>
    cases r with
    | fork p => exact .inl ⟨p, rfl, hstep⟩
    | exit p status => exact .inr ⟨by simp, hstep⟩
    | wait p => exact .inr ⟨by simp, hstep⟩
  | ipc table => exact .inr ⟨by simp, hstep⟩

theorem ImageStep.inv (hstep : ImageStep s act s') (h : ImagesInv kernelEnd s) :
    ImagesInv kernelEnd s' := by
  rcases hstep.cases with ⟨p, -, -, r, hrun⟩ | ⟨hfork, hmm, hldts⟩
  · have hspec := wp_ok forkImage_spec hrun
    rcases hspec with ⟨-, rfl⟩ | ⟨c, -, hf⟩
    · exact h
    · exact hf.inv h
  · constructor
    · intro p hp
      rw [hldts]
      exact h.native p hp
    · intro p hp hfree
      rw [hldts]
      exact h.child p hp fun hp' => hfree (hmm.isFree hfork hp')

theorem imagesInv_of_run (hr : Run ImageStep (imagesInit kernelEnd memorySize memory) acts s) :
    ImagesInv kernelEnd s :=
  hr.invariant imagesInit_inv fun _ _ _ hstep h => hstep.inv h

/-- The two segments of a live user process are the same, and `imageSize` gives their size. -/
def SizesOk (s : Images) : Prop := ∀ p : Pid, nrTasks ≤ p.val → ¬ s.mm.IsFree p →
  (s.ldts p).code.base = (s.ldts p).data.base ∧ (s.ldts p).code.limitT = (s.ldts p).data.limitD ∧
    callerSize (s.ldts p).code = callerSize (s.ldts p).data ∧
    callerSize (s.ldts p).code = s.mm.imageSize p

theorem userLdt_same {base limit : Nat} (h : base < 0x100000000) :
    (userLdt base limit).code.base = (userLdt base limit).data.base ∧
      (userLdt base limit).code.limitT = (userLdt base limit).data.limitD ∧
      callerSize (userLdt base limit).code = callerSize (userLdt base limit).data := by
  refine ⟨?_, ?_, ?_⟩
  · rw [(userLdt_base h).1, (userLdt_base h).2]
  · rw [Descriptor.limitD_eq]
    simp only [userLdt, Descriptor.limitT_initDescriptor]
  · rw [callerSize, callerSize, userLdt_size.1, userLdt_size.2]

theorem imagesInit_sizes (hk : kernelEnd < 0x7FFFF000) :
    SizesOk (imagesInit kernelEnd memorySize memory) := by
  intro p huser hfree
  have hnative : ¬ nrTasks + nrNativeProcs ≤ p.val := fun hp => by
    apply hfree
    change (kernelMainTable p).pFlags.freeSlot = true
    rw [kernelMainTable, if_pos hp]
    rfl
  change (kernelMainLdt kernelEnd p).code.base = (kernelMainLdt kernelEnd p).data.base ∧
    (kernelMainLdt kernelEnd p).code.limitT = (kernelMainLdt kernelEnd p).data.limitD ∧
    callerSize (kernelMainLdt kernelEnd p).code = callerSize (kernelMainLdt kernelEnd p).data ∧
    callerSize (kernelMainLdt kernelEnd p).code = (callerSize (kernelMainLdt kernelEnd p).code).toNat
  by_cases hinit : p = init
  · have hldt : kernelMainLdt kernelEnd p = userLdt 0 (kernelEnd >>> limit4kShift) := by
      rw [kernelMainLdt, if_neg hnative, if_pos hinit]
    obtain ⟨hbase, hlimit, hsize⟩ := @userLdt_same 0 (kernelEnd >>> limit4kShift)
      (by omega)
    have hin : InI32 (userLdt 0 (kernelEnd >>> limit4kShift)).code.size := by
      rw [userLdt_size.1, limit4kShift, Nat.shiftRight_eq_div_pow]
      constructor <;> omega
    rw [hldt]
    refine ⟨hbase, hlimit, hsize, ?_⟩
    rw [callerSize, toI32_of_inI32 hin, Int.toNat_natCast]
  · have hldt : kernelMainLdt kernelEnd p = flatLdt privilegeUser := by
      rw [kernelMainLdt, if_neg hnative, if_neg hinit, if_neg (by omega)]
    rw [hldt]
    decide +kernel

theorem Forked.sizes (hf : Forked s p c s') (h : SizesOk s) : SizesOk s' := by
  intro q huser hfree
  by_cases hqc : q = c
  · have hle := imageBase_le c
    rw [hf.ldts, hf.imageSize, hqc, Function.update_self, Function.update_self]
    obtain ⟨hbase, hlimit, hsize⟩ := @userLdt_same (imageBase c)
      ((procDefaultImgSize - 1) >>> limit4kShift) (by omega)
    refine ⟨hbase, hlimit, hsize, ?_⟩
    rw [callerSize, (childLdt_size c).1]
    exact toI32_of_inI32 (by decide)
  · rw [hf.ldts, hf.imageSize, Function.update_of_ne hqc, Function.update_of_ne hqc]
    apply h q huser
    unfold Mm.IsFree at hfree ⊢
    rwa [← hf.table q hqc]

theorem ImageStep.mmStep (hstep : ImageStep s act s') (h : SizesOk s) :
    MmStep s.mm act s'.mm ∧ SizesOk s' := by
  rcases hstep.cases with ⟨p, rfl, hen, r, hrun⟩ | ⟨hfork, hmm, hldts⟩
  · have hlive : ¬ s.mm.IsFree p := by
      have hfree : (s.mm.procTable p).pFlags.freeSlot = false := hen.2.1
      simp [Mm.IsFree, hfree]
    obtain ⟨hbase, hlimit, hsize, himg⟩ := h p hen.1 hlive
    have hself : wp (MM.doFork p) (fun a u => MM.doFork p s.mm = .ok a u)
        (fun w u => MM.doFork p s.mm = .stop w u) s.mm := by
      unfold wp
      cases MM.doFork p s.mm <;> rfl
    have hboth := wp_forkImage ⟨hbase, hlimit, hsize⟩ himg hself
    have hfork := wp_ok hboth hrun
    refine ⟨⟨hen, ?_⟩, ?_⟩
    · simp only [MmRequest.handle]
      rw [bind_of_ok hfork]
      rfl
    · have hspec := wp_ok forkImage_spec hrun
      rcases hspec with ⟨-, rfl⟩ | ⟨c, -, hf⟩
      · exact h
      · exact hf.sizes h
  · have himg : s'.mm.imageSize = s.mm.imageSize :=
      hmm.frame (Mm.imageSize_frame _) hfork (fun _ _ => rfl) rfl
    refine ⟨hmm, fun q huser hfree => ?_⟩
    rw [hldts, himg]
    exact h q huser fun hq => hfree (hmm.isFree hfork hq)

/-- The runs with the images are runs of the process life cycle. -/
theorem Run.mmRun (hk : kernelEnd < 0x7FFFF000)
    (hr : Run ImageStep (imagesInit kernelEnd memorySize memory) acts s) :
    Run MmStep (imagesInit kernelEnd memorySize memory).mm acts s.mm := by
  have hboth : Run MmStep (imagesInit kernelEnd memorySize memory).mm acts s.mm ∧ SizesOk s := by
    induction hr with
    | nil => exact ⟨.nil, imagesInit_sizes hk⟩
    | snoc _ hstep ih =>
      obtain ⟨hmm, hsizes⟩ := hstep.mmStep ih.2
      exact ⟨.snoc ih.1 hmm, hsizes⟩
  exact hboth.1

/-- The fork of the parent `p` that leads from `s` to `s'` has put the image of the child `c` into
memory: both of its segments are `PROC_DEFAULT_IMG_SIZE` bytes from the address that `alloc_mem`
returned on, end inside the memory, share no address with the segments of other forked processes or
with the buffers of FS and MM, and begin with a copy of the parent's image. -/
structure Placed (s : Images) (p c : Pid) (s' : Images) : Prop where
  code : (s'.ldts c).code.segment = Set.Ico (imageBase c) (imageBase c + procDefaultImgSize)
  data : (s'.ldts c).data.segment = Set.Ico (imageBase c) (imageBase c + procDefaultImgSize)
  inside : ∀ a ∈ (s'.ldts c).code.segment, a < s'.mm.memorySize
  others : ∀ q : Pid, nrTasks + nrNativeProcs ≤ q.val → q ≠ c → ¬ s'.mm.IsFree q →
    Disjoint (s'.ldts q).code.segment (s'.ldts c).code.segment ∧
      Disjoint (s'.ldts q).data.segment (s'.ldts c).data.segment
  fsbuf : Disjoint (Set.Ico fsbufBase (fsbufBase + fsbufSize)) (s'.ldts c).code.segment
  mmbuf : Disjoint (Set.Ico mmbufBase (mmbufBase + mmbufSize)) (s'.ldts c).code.segment
  copied : ∀ k < (s.ldts p).code.size, imageBase c + k ∈ (s'.ldts c).code.segment ∧
    s'.memory (imageBase c + k) = s.memory ((s.ldts p).code.base + k)

theorem ImagesInv.apart (h : ImagesInv kernelEnd s) (huser : nrTasks ≤ p.val)
    (hlive : ¬ s.mm.IsFree p) (hc : nrTasks + nrNativeProcs ≤ c.val) (hpc : p ≠ c)
    (hsize : (s.ldts p).code.size ≤ procDefaultImgSize) :
    (s.ldts p).code.base + (s.ldts p).code.size ≤ 0x100000000 ∧
      ((s.ldts p).code.base + (s.ldts p).code.size ≤ imageBase c ∨
        imageBase c + procDefaultImgSize ≤ (s.ldts p).code.base) := by
  rcases Nat.lt_or_ge p.val (nrTasks + nrNativeProcs) with hp | hp
  · rw [h.native p hp] at hsize ⊢
    by_cases hinit : p = init
    · have hle := (imageBase_le c).1
      have hbase : (kernelMainLdt kernelEnd p).code.base = 0 := by
        rw [kernelMainLdt, if_neg (by omega), if_pos hinit]
        exact (userLdt_base (by omega)).1
      rw [hbase]
      simp only [procAllocBase, procDefaultImgSize] at hle hsize
      omega
    · -- the flat segment of `testA` is larger than an image
      exfalso
      have hflat : (kernelMainLdt kernelEnd p).code.size = (flatLdt privilegeUser).code.size := by
        rw [kernelMainLdt, if_neg (by omega), if_neg hinit, if_neg (by omega)]
      have hlarge : procDefaultImgSize < (flatLdt privilegeUser).code.size := by decide
      omega
  · rw [h.child p hp hlive, (childLdt_base p).1, (childLdt_size p).1]
    have hle := (imageBase_le p).2
    exact ⟨by omega, imageBase_apart hp hc hpc⟩

theorem Mm.isFree_of_freeSlot {t : Mm} (h : t.freeSlot = some c) : t.IsFree c := by
  have hflags : (t.procTable c).pFlags = Flags.free := by simpa using List.find?_some h
  unfold Mm.IsFree
  rw [hflags]
  rfl

theorem Forked.placed (hf : Forked s p c s') (h : ImagesInv kernelEnd s) (huser : nrTasks ≤ p.val)
    (hlive : ¬ s.mm.IsFree p) (hsize : (s.ldts p).code.size ≤ procDefaultImgSize)
    (hend : imageBase c + procDefaultImgSize ≤ s.mm.memorySize) : Placed s p c s' := by
  have hpc : p ≠ c := by
    rintro rfl
    exact hlive (Mm.isFree_of_freeSlot hf.slot)
  have hself : s'.ldts c = childLdt c := by rw [hf.ldts, Function.update_self]
  obtain ⟨hcode, hdata⟩ := childLdt_segment c
  have hle := imageBase_le c
  simp only [procAllocBase] at hle
  have hcopy : toU32 (callerSize (s.ldts p).code) = (s.ldts p).code.size := by
    have hin : InI32 (s.ldts p).code.size := by
      simp only [procDefaultImgSize] at hsize
      constructor <;> omega
    rw [callerSize, toI32_of_inI32 hin, toU32_of_lt]
    simp only [procDefaultImgSize] at hsize
    omega
  have hbefore : ∀ base size : Nat, base + size ≤ 0xA00000 →
      Disjoint (Set.Ico base (base + size)) (s'.ldts c).code.segment := by
    intro base size hlow
    rw [hself, hcode]
    exact disjoint_segments (.inl (by omega))
  refine ⟨hself ▸ hcode, hself ▸ hdata, ?_, ?_, hbefore _ _ (by decide), hbefore _ _ (by decide), ?_⟩
  · intro a ha
    rw [hself, hcode, Set.mem_Ico] at ha
    rw [hf.memorySize]
    omega
  · intro q hq hqc hfree
    have hother : s'.ldts q = childLdt q := (hf.inv h).child q hq hfree
    have hdisj : Disjoint (Set.Ico (imageBase q) (imageBase q + procDefaultImgSize))
        (Set.Ico (imageBase c) (imageBase c + procDefaultImgSize)) :=
      disjoint_segments (imageBase_apart hq hf.user hqc)
    rw [hself, hother, hcode, hdata, (childLdt_segment q).1, (childLdt_segment q).2]
    exact ⟨hdisj, hdisj⟩
  · intro k hk
    obtain ⟨hlow, hapart⟩ := h.apart huser hlive hf.user hpc hsize
    rw [hself, hcode, Set.mem_Ico, hf.memory, hcopy, physCopy_eq_copyBytes, copyBytes_add hk]
    · exact ⟨by omega, rfl⟩
    · omega
    · exact hlow
    · omega

theorem Placed.end_le (h : Placed s p c s') :
    imageBase c + procDefaultImgSize ≤ s'.mm.memorySize := by
  have hlast : imageBase c + procDefaultImgSize - 1 ∈ (s'.ldts c).code.segment := by
    rw [h.code, Set.mem_Ico]
    simp only [procDefaultImgSize]
    omega
  have hinside := h.inside _ hlast
  omega

theorem forked_of_run (hfork : MM.forkImage p s = .ok (some c) s') : Forked s p c s' := by
  have hspec := wp_ok forkImage_spec hfork
  rcases hspec with ⟨hnone, -⟩ | ⟨c', hsome, hf⟩
  · cases hnone
  · cases hsome
    exact hf

theorem Forked.end_le (hf : Forked s p c s')
    (h : (s.ldts p).code.size = procDefaultImgSize ∨
      procDefaultImgSize ∣ s.mm.memorySize ∧ 0 < callerSize (s.ldts p).code) :
    imageBase c + procDefaultImgSize ≤ s.mm.memorySize := by
  have hfits := hf.fits
  rcases h with hfull | ⟨⟨n, hn⟩, hpos⟩
  · have hin : InI32 (procDefaultImgSize : Nat) := by decide
    rw [callerSize, hfull, toI32_of_inI32 hin] at hfits
    omega
  · have hbase : imageBase c = procDefaultImgSize * (10 + (c.val - (nrTasks + nrNativeProcs))) := by
      simp only [imageBase, procAllocBase, procDefaultImgSize]
      omega
    rw [hn, hbase] at hfits ⊢
    have hlt : 10 + (c.val - (nrTasks + nrNativeProcs)) < n := by
      by_contra hge
      have hmul := Nat.mul_le_mul_left procDefaultImgSize (Nat.le_of_not_lt hge)
      omega
    have hmul := Nat.mul_le_mul_left procDefaultImgSize (Nat.succ_le_of_lt hlt)
    rwa [Nat.mul_succ] at hmul

/-- The image of a child is where it should be exactly if the memory goes on for
`PROC_DEFAULT_IMG_SIZE` bytes behind the address that `alloc_mem` returns. -/
theorem placed_iff (hr : Run ImageStep (imagesInit kernelEnd memorySize memory) acts s)
    (hen : (MmRequest.fork p).Enabled s.mm) (hfork : MM.forkImage p s = .ok (some c) s')
    (hsize : (s.ldts p).code.size ≤ procDefaultImgSize) :
    Placed s p c s' ↔ imageBase c + procDefaultImgSize ≤ s.mm.memorySize := by
  have hf := forked_of_run hfork
  have hlive : ¬ s.mm.IsFree p := by
    have hfree : (s.mm.procTable p).pFlags.freeSlot = false := hen.2.1
    simp [Mm.IsFree, hfree]
  constructor
  · intro hplaced
    rw [← hf.memorySize]
    exact hplaced.end_le
  · exact hf.placed (imagesInv_of_run hr) hen.1 hlive hsize

/-- INIT, with a kernel that ends at 512 KB, forks in a memory of 32 MB. -/
theorem placed_init : ∃ s', MM.forkImage init (imagesInit 0x7FFFF 0x2000000 fun _ => 0) =
      .ok (some ⟨7, by decide⟩) s' ∧
    Placed (imagesInit 0x7FFFF 0x2000000 fun _ => 0) init ⟨7, by decide⟩ s' := by
  have hfork := @Result.eq_ok_of_valueOf _ _ (MM.forkImage init
    (imagesInit 0x7FFFF 0x2000000 fun _ => 0)) (some ⟨7, by decide⟩) (by decide +kernel)
  exact ⟨_, hfork, (placed_iff .nil ⟨by decide, by decide, by decide, by decide, by simp⟩ hfork
    (by decide +kernel)).mpr (by decide +kernel)⟩

/-- In a memory of 11 MB less 64 KB, the image of the child goes on behind its end. -/
theorem not_placed_init : ∃ s', MM.forkImage init (imagesInit 0x7FFFF 0xAF0000 fun _ => 0) =
      .ok (some ⟨7, by decide⟩) s' ∧
    ((imagesInit 0x7FFFF 0xAF0000 fun _ => 0).ldts init).code.size = 0x80000 ∧
    (MmRequest.fork init).Enabled (imagesInit 0x7FFFF 0xAF0000 fun _ => 0).mm ∧
    ¬ Placed (imagesInit 0x7FFFF 0xAF0000 fun _ => 0) init ⟨7, by decide⟩ s' := by
  have hfork := @Result.eq_ok_of_valueOf _ _ (MM.forkImage init
    (imagesInit 0x7FFFF 0xAF0000 fun _ => 0)) (some ⟨7, by decide⟩) (by decide +kernel)
  refine ⟨_, hfork, by decide +kernel, ⟨by decide, by decide, by decide, by decide, by simp⟩, ?_⟩
  intro hplaced
  have hend := hplaced.end_le
  rw [(forked_of_run hfork).memorySize] at hend
  exact absurd hend (by decide +kernel)

end Runs

end BazingaOS
