import BazingaOS.MM.LifeCycle

/-!
# Waiting without a child

`do_wait` takes every slot whose `p_parent` is the caller for a child, and `cleanup` leaves
`p_parent` in the slot it frees. A process that has collected its last child therefore blocks in
its next `wait` as long as the freed slot is not used again.
-/

namespace BazingaOS

open Prog

namespace Mm

/-- `p` has a child that is live or a zombie. -/
def HasChild (t : Mm) (p : Pid) : Prop :=
  ∃ q, (t.procTable q).pParent = .proc p ∧ (t.procTable q).pFlags.freeSlot = false

def HasLiveChild (t : Mm) (p : Pid) : Prop :=
  ∃ q, (t.procTable q).pParent = .proc p ∧ (t.procTable q).pFlags.freeSlot = false ∧
    (t.procTable q).pFlags.hanging = false

/-- A free slot still names `p` as its parent. -/
def Stale (t : Mm) (p : Pid) : Prop :=
  ∃ q, (t.procTable q).pParent = .proc p ∧ (t.procTable q).pFlags.freeSlot = true

/-- A `wait` of `p` was answered at once with no child, and `p` does not wait. -/
def Refused (t t' : Mm) (p : Pid) : Prop :=
  t'.log = t.log ++ [.wait p, .noChild p .noTask (-1)] ∧
    (t'.procTable p).pFlags.waiting = false

end Mm

instance (t : Mm) (p : Pid) : Decidable (t.HasChild p) :=
  inferInstanceAs (Decidable (∃ q, (t.procTable q).pParent = .proc p ∧
    (t.procTable q).pFlags.freeSlot = false))

instance (t : Mm) (p : Pid) : Decidable (t.HasLiveChild p) :=
  inferInstanceAs (Decidable (∃ q, (t.procTable q).pParent = .proc p ∧
    (t.procTable q).pFlags.freeSlot = false ∧ (t.procTable q).pFlags.hanging = false))

/-- A step in which a caller of `do_wait` has a child or is named by no free slot. -/
def CleanStep (t : Mm) (act : MmAction) (t' : Mm) : Prop :=
  MmStep t act t' ∧ ∀ p, act = .request (.wait p) → t.HasChild p ∨ ¬ t.Stale p

section

variable {t t' : Mm} {p : Pid} {act : MmAction}

theorem MmStep.waitResult (hstep : MmStep t (.request (.wait p)) t') : WaitResult t p t' := by
  have hw : wp (MmRequest.wait p).handle (fun _ t' => WaitResult t p t') (fun _ _ => False) t :=
    doWait_result t p
  have hres := wp_ok hw hstep.2
  exact hres

/-- A process without children is refused at once exactly if no free slot names it. -/
theorem refused_iff (h : MmInv t) (hstep : MmStep t (.request (.wait p)) t')
    (hc : ¬ t.HasChild p) : t.Refused t' p ↔ ¬ t.Stale p := by
  have hwp : (t.procTable p).pFlags.waiting = false := hstep.1.2.2.2.1
  cases hstep.waitResult with
  | reaped i hp hi ht =>
    exfalso
    apply hc
    refine ⟨i, hp, ?_⟩
    by_contra hne
    rw [h.free i (by simpa using hne)] at hi
    cases hi
  | waits i hp hn ht =>
    have hstale : t.Stale p := by
      refine ⟨i, hp, ?_⟩
      by_contra hne
      exact hc ⟨i, hp, by simpa using hne⟩
    constructor
    · intro hr
      have hw := hr.2
      rw [ht] at hw
      simp at hw
    · intro hns
      exact absurd hstale hns
  | noChild hn ht =>
    constructor
    · rintro - ⟨i, hi, -⟩
      exact hn i hi
    · intro _
      rw [ht]
      exact ⟨by simp, hwp⟩

/-- Every process in `wait` has a live child. -/
def Mm.Supervised (t : Mm) : Prop :=
  ∀ p, t.family.inWait p = true → ∃ q, t.family.parent q = .proc p ∧ t.family.phase q = .live

theorem supervised_fork {f g : Family} (hr : ForkResult p f g) {w : Pid}
    (hs : ∃ q, f.parent q = .proc w ∧ f.phase q = .live) :
    ∃ q, g.parent q = .proc w ∧ g.phase q = .live := by
  obtain ⟨q, hq, hlive⟩ := hs
  rcases hr with rfl | ⟨i, hi, rfl⟩
  · exact ⟨q, hq, hlive⟩
  · have hqi : q ≠ i := by
      rintro rfl
      rw [hlive] at hi
      cases hi
    exact ⟨q, by simpa [Family.setParent, Family.setPhase, hqi] using hq,
      by simpa [Family.setParent, Family.setPhase, hqi] using hlive⟩

theorem supervised_exit {f g : Family} (hframe : f.Frame p g) (hp : f.inWait p = false)
    (hparent : ∀ q, f.parent p = .proc q → g.inWait q = false) {w : Pid}
    (hw : g.inWait w = true) (hs : ∃ q, f.parent q = .proc w ∧ f.phase q = .live) :
    ∃ q, g.parent q = .proc w ∧ g.phase q = .live := by
  obtain ⟨q, hq, hlive⟩ := hs
  have hwp : w ≠ p := by
    rintro rfl
    rw [hframe.inWait w hw] at hp
    cases hp
  have hqp : q ≠ p := by
    rintro rfl
    rw [hparent w hq] at hw
    cases hw
  exact ⟨q, hframe.parent q w hwp hq, hframe.live q hqp hlive⟩

theorem supervised_wait (hs : t.Supervised) (hr : WaitResult t p t')
    (hclean : t.HasChild p ∨ ¬ t.Stale p) : t'.Supervised := by
  cases hr with
  | reaped i hp hi ht =>
    intro w hw
    have hwi : w ≠ i := by
      rintro rfl
      rw [ht] at hw
      simp [Mm.family, Flags.free] at hw
    have hww : t.family.inWait w = true := by
      rw [ht] at hw
      simpa [Mm.family, Mm.setProc_of_ne hwi] using hw
    obtain ⟨q, hq, hlive⟩ := hs w hww
    have hqi : q ≠ i := by
      rintro rfl
      rw [(Process.phase_eq_live.mp hlive).2] at hi
      cases hi
    refine ⟨q, ?_, ?_⟩
    · rw [ht]
      simpa [Mm.family, Mm.setProc_of_ne hqi] using hq
    · rw [ht]
      simpa [Mm.family, Mm.setProc_of_ne hqi] using hlive
  | waits i hp hn ht =>
    have hfam : t'.family = t.family.setWait p true := by
      rw [ht, Mm.setProc_waiting_family, Mm.addLog_family]
    intro w hw
    rw [hfam] at hw ⊢
    by_cases hwp : w = p
    · subst hwp
      have hlive : ∀ q, (t.procTable q).pParent = .proc w →
          (t.procTable q).pFlags.freeSlot = false → t.family.phase q = .live :=
        fun q hq hf => Process.phase_eq_live.mpr ⟨hf, hn q hq⟩
      rcases hclean with ⟨q, hq, hf⟩ | hns
      · exact ⟨q, hq, hlive q hq hf⟩
      · refine ⟨i, hp, hlive i hp ?_⟩
        by_contra hne
        exact hns ⟨i, hp, by simpa using hne⟩
    · exact hs w (by simpa [Family.setWait, hwp] using hw)
  | noChild hn ht =>
    rw [ht]
    exact hs

theorem CleanStep.supervised (h : MmInv t) (hs : t.Supervised) (hstep : CleanStep t act t') :
    t'.Supervised := by
  obtain ⟨hstep, hclean⟩ := hstep
  cases act with
  | ipc table =>
    obtain ⟨hsame, rfl⟩ := hstep
    intro w
    rw [hsame.family]
    exact hs w
  | request r =>
    have hlive : t.family.phase r.source = .live :=
      Process.phase_eq_live.mpr ⟨hstep.1.2.1, hstep.1.2.2.1⟩
    have hwait : t.family.inWait r.source = false := hstep.1.2.2.2.1
    cases r with
    | fork p =>
      obtain ⟨-, -, hr⟩ := wp_ok (handleFork_spec h hlive hwait) hstep.2
      intro w hw
      apply supervised_fork hr (hs w _)
      rcases hr with hr | ⟨i, -, hr⟩
      · rw [hr] at hw
        exact hw
      · rw [hr] at hw
        exact hw
    | exit p status =>
      obtain ⟨-, -, hframe, hparent⟩ := wp_ok (doExit_spec h hlive hwait status) hstep.2
      intro w hw
      exact supervised_exit hframe hwait hparent hw (hs w (hframe.inWait w hw))
    | wait p => exact supervised_wait hs hstep.waitResult (hclean p rfl)

/-- In every run in which each caller of `do_wait` has a child or is named by no free slot, every
process in `wait` has a live child, and a process without children is refused at once. -/
theorem wait_of_run {imageSize : Pid → Nat} {memorySize : Nat} {acts : List MmAction}
    (hr : Run CleanStep (mmInit imageSize memorySize) acts t) :
    (∀ p, (t.procTable p).pFlags.waiting = true → t.HasLiveChild p) ∧
      ∀ p t', CleanStep t (.request (.wait p)) t' → ¬ t.HasChild p → t.Refused t' p := by
  have hinv : MmInv t ∧ t.Supervised := by
    apply hr.invariant (I := fun t => MmInv t ∧ t.Supervised)
    · refine ⟨mmInit_inv imageSize memorySize, fun p hp => ?_⟩
      have hlive := (mmInit_inv imageSize memorySize).family.live p hp
      have hwait : (kernelMainTable p).pFlags.waiting = false := by
        unfold kernelMainTable
        split <;> rfl
      exact absurd hp (by simpa [Mm.family, mmInit] using hwait)
    · rintro u act v hstep ⟨hu, hs⟩
      exact ⟨(hstep.1.spec hu).2, hstep.supervised hu hs⟩
  refine ⟨fun p hp => ?_, fun p t' hstep hc => ?_⟩
  · obtain ⟨q, hq, hlive⟩ := hinv.2 p hp
    exact ⟨q, hq, Process.phase_eq_live.mp hlive⟩
  · exact (refused_iff hinv.1 hstep.1 hc).mpr ((hstep.2 p rfl).resolve_left hc)

def reapTrace : List MmRequest := [.fork init, .exit ⟨7, seven_lt_nrSlots⟩ 3, .wait init]

/-- The state after MM has handled a list of requests. -/
def handleAll (t : Mm) (l : List MmRequest) : Mm := l.foldl (fun t q => (q.handle t).state) t

theorem run_reapTrace : Run CleanStep (mmInit (fun _ => 0x100000) 0x4000000)
    (reapTrace.map .request) (handleAll (mmInit (fun _ => 0x100000) 0x4000000) reapTrace) := by
  let t₀ : Mm := mmInit (fun _ => 0x100000) 0x4000000
  let t₁ : Mm := ((MmRequest.fork init).handle t₀).state
  let t₂ : Mm := ((MmRequest.exit ⟨7, by decide⟩ 3).handle t₁).state
  have h₁ : MmStep t₀ (.request (.fork init)) t₁ := ⟨⟨by decide, rfl, rfl, rfl, by simp⟩,
    Result.eq_ok_of_isOk (by decide +kernel)⟩
  have h₂ : MmStep t₁ (.request (.exit ⟨7, by decide⟩ 3)) t₂ :=
    ⟨⟨by decide, rfl, rfl, rfl, by simp [init]⟩, Result.eq_ok_of_isOk (by decide +kernel)⟩
  have h₃ : MmStep t₂ (.request (.wait init)) ((MmRequest.wait init).handle t₂).state :=
    ⟨⟨by decide, by decide +kernel, by decide +kernel, by decide +kernel, by simp⟩,
      Result.eq_ok_of_isOk (by decide +kernel)⟩
  have hc : t₂.HasChild init := by decide +kernel
  have hlast : CleanStep t₂ (.request (.wait init)) ((MmRequest.wait init).handle t₂).state := by
    refine ⟨h₃, ?_⟩
    intro p hp
    cases hp
    exact .inl hc
  rw [reapTrace, handleAll, List.foldl_cons, List.foldl_cons, List.foldl_cons, List.foldl_nil]
  exact .snoc (.snoc (.snoc .nil ⟨h₁, by simp⟩) ⟨h₂, by simp⟩) hlast

/-- The `wait` that follows blocks INIT although it has no child. -/
theorem wait_blocks_without_child : ∃ acts t t', Run MmStep
      (mmInit (fun _ => 0x100000) 0x4000000) acts t ∧
    MmStep t (.request (.wait init)) t' ∧ ¬ t.HasChild init ∧ ¬ t.Refused t' init ∧
    (t'.procTable init).pFlags.waiting = true ∧ ¬ t'.HasLiveChild init := by
  let t : Mm := handleAll (mmInit (fun _ => 0x100000) 0x4000000) reapTrace
  let t' : Mm := ((MmRequest.wait init).handle t).state
  have hstep : MmStep t (.request (.wait init)) t' :=
    ⟨⟨by decide, by decide +kernel, by decide +kernel, by decide +kernel, by simp⟩,
      Result.eq_ok_of_isOk (by decide +kernel)⟩
  have hwait : (t'.procTable init).pFlags.waiting = true := by decide +kernel
  refine ⟨_, t, t', run_reapTrace.mono fun _ _ _ h => h.1, hstep, by decide +kernel, ?_, hwait,
    by decide +kernel⟩
  intro hr
  rw [hr.2] at hwait
  cases hwait

theorem wait_of_run_reap : let t := handleAll (mmInit (fun _ => 0x100000) 0x4000000) reapTrace
    (∀ p, (t.procTable p).pFlags.waiting = true → t.HasLiveChild p) ∧
      ∀ p t', CleanStep t (.request (.wait p)) t' → ¬ t.HasChild p → t.Refused t' p :=
  wait_of_run run_reapTrace

end

end BazingaOS
