import BazingaOS.Kernel.Schedule
import BazingaOS.Lib.Run
import BazingaOS.Lib.Slots

/-!
# The clock

`clock_handler` of `kernel/clock.c` and `block` and `unblock` of `kernel/proc.c`. The process that
runs pays with a tick for each interrupt of the clock, and outside of nested interrupts the process
with the most ticks goes on. A process that can run is not passed over for ever, and processes that
never wait get shares that are proportional to their priorities.
-/

namespace BazingaOS

open Prog

/-- `ticks`, `key_pressed`, the scheduler, and the tasks that `inform_int` has been called for. -/
structure Clock (α : Type) where
  ticks : Int
  keyPressed : Int
  sched : Scheduler α
  informed : List Pid

namespace Clock

variable {α : Type}

def onSched (q : Prog (Scheduler α) Unit) : Prog (Clock α) Unit := fun s =>
  match q s.sched with
  | .ok a u => .ok a { s with sched := u }
  | .stop w u => .stop w { s with sched := u }

def informInt (p : Pid) : Prog (Clock α) Unit :=
  modify fun s => { s with informed := s.informed ++ [p] }

/-- `p_proc_ready->ticks--` -/
def payTick : Prog (Clock α) Unit :=
  onSched (modify fun s => s.setTicks s.pProcReady ((s.procTable s.pProcReady).ticks - 1))

def clockHandler (fuel : Nat) (kReenter : Int) : Prog (Clock α) Unit := do
  modify fun s => { s with ticks := s.ticks + 1 }
  payTick
  when (kReenter = 0) do
    onSched (Scheduler.schedule fuel)
    when ((← get).keyPressed ≠ 0) (informInt taskTty)

end Clock

namespace Scheduler

variable {α : Type}

def setFlags (s : Scheduler α) (p : Pid) (f : Int) : Scheduler α :=
  { s with procTable := Function.update s.procTable p { s.procTable p with pFlags := f } }

def block (fuel : Nat) (p : Pid) : Prog (Scheduler α) Unit := do
  check (((← get).procTable p).pFlags ≠ 0)
  schedule fuel

def unblock (p : Pid) : Prog (Scheduler α) Unit := do
  check (((← get).procTable p).pFlags = 0)

end Scheduler

/-- The clock interrupts the process `p` or code of the kernel that works for it, the process that
runs waits, or a process is woken up. -/
inductive ClockEvent where
  | tick (p : Pid)
  | nested (p : Pid)
  | sleep (p : Pid)
  | wake (p : Pid)
deriving DecidableEq

def ClockEvent.isTick : ClockEvent → Bool
  | .tick _ => true
  | _ => false

/-- What happens to the scheduler. A process that waits gets its flags before `block` is called, and
one that is woken up loses them before `unblock` is called. -/
inductive ClockStep {α : Type} (fuel : Nat) : Clock α → ClockEvent → Clock α → Prop
  | tick {s s' : Clock α} (h : Clock.clockHandler fuel 0 s = .ok () s') :
      ClockStep fuel s (.tick s.sched.pProcReady) s'
  | nested {s s' : Clock α} {kReenter : Int} (hre : kReenter ≠ 0)
      (h : Clock.clockHandler fuel kReenter s = .ok () s') :
      ClockStep fuel s (.nested s.sched.pProcReady) s'
  | sleep {s s' : Clock α} {f : Int}
      (h : Clock.onSched (do
        modify fun u => u.setFlags u.pProcReady f
        Scheduler.block fuel s.sched.pProcReady) s = .ok () s') :
      ClockStep fuel s (.sleep s.sched.pProcReady) s'
  | wake {s s' : Clock α} {p : Pid} (hprio : 0 < (s.sched.procTable p).priority)
      (h : Clock.onSched (do
        modify fun u => u.setFlags p 0
        Scheduler.unblock p) s = .ok () s') :
      ClockStep fuel s (.wake p) s'

section Specs

variable {α : Type} {s s' : Clock α} {fuel : Nat} {p q : Pid}

theorem Clock.wp_onSched {p : Prog (Scheduler α) Unit} {Q : Unit → Clock α → Prop}
    {E : Stop → Clock α → Prop} : wp (Clock.onSched p) Q E s ↔
      wp p (fun a u => Q a { s with sched := u }) (fun w u => E w { s with sched := u })
        s.sched := by
  unfold wp Clock.onSched
  cases p s.sched <;> rfl

/-- The table in which `p` has paid for a tick. -/
def paid (t : Pid → TimedProc α) (p : Pid) : Pid → TimedProc α :=
  Function.update t p { t p with ticks := (t p).ticks - 1 }

/-- The table in which the flags of `p` are `f`. -/
def flagged (t : Pid → TimedProc α) (p : Pid) (f : Int) : Pid → TimedProc α :=
  Function.update t p { t p with pFlags := f }

/-- A process has been chosen from the table `t`, after new ticks if nobody had any left. -/
structure Rescheduled (t : Pid → TimedProc α) (s : Scheduler α) : Prop where
  chosen : Chosen s.procTable s.pProcReady
  same : HasTicks t → s.procTable = t
  anew : ¬ HasTicks t → s.procTable = fun p => (t p).refilled

/-- All that the scheduler asks of a table. -/
structure Schedulable (t : Pid → TimedProc α) : Prop where
  runnable : ∃ p, Runnable t p
  priority : ∀ p, Runnable t p → 0 < (t p).priority

theorem Scheduler.schedule_wp {u : Scheduler α} (hu : Schedulable u.procTable) (hfuel : 3 ≤ fuel) :
    wp (Scheduler.schedule fuel) (fun _ u' => Rescheduled u.procTable u') (fun _ _ => False) u := by
  obtain ⟨u', hok, hchosen, hsame, hanew⟩ := schedule_spec u hu.runnable hu.priority hfuel
  unfold wp
  rw [hok]
  exact ⟨hchosen, hsame, hanew⟩

@[simp] theorem paid_pFlags (t : Pid → TimedProc α) : (paid t p q).pFlags = (t q).pFlags := by
  by_cases h : q = p
  · rw [h, paid, Function.update_self]
  · rw [paid, Function.update_of_ne h]

@[simp] theorem paid_priority (t : Pid → TimedProc α) :
    (paid t p q).priority = (t q).priority := by
  by_cases h : q = p
  · rw [h, paid, Function.update_self]
  · rw [paid, Function.update_of_ne h]

theorem paid_ticks_self (t : Pid → TimedProc α) : (paid t p p).ticks = (t p).ticks - 1 := by
  rw [paid, Function.update_self]

theorem paid_ticks_of_ne (t : Pid → TimedProc α) (h : q ≠ p) :
    (paid t p q).ticks = (t q).ticks := by
  rw [paid, Function.update_of_ne h]

@[simp] theorem flagged_ticks (t : Pid → TimedProc α) (f : Int) :
    (flagged t p f q).ticks = (t q).ticks := by
  by_cases h : q = p
  · rw [h, flagged, Function.update_self]
  · rw [flagged, Function.update_of_ne h]

@[simp] theorem flagged_priority (t : Pid → TimedProc α) (f : Int) :
    (flagged t p f q).priority = (t q).priority := by
  by_cases h : q = p
  · rw [h, flagged, Function.update_self]
  · rw [flagged, Function.update_of_ne h]

theorem flagged_pFlags_of_ne (t : Pid → TimedProc α) (f : Int) (h : q ≠ p) :
    (flagged t p f q).pFlags = (t q).pFlags := by
  rw [flagged, Function.update_of_ne h]

theorem flagged_pFlags_self (t : Pid → TimedProc α) (f : Int) : (flagged t p f p).pFlags = f := by
  rw [flagged, Function.update_self]

@[simp] theorem TimedProc.refilled_priority (q : TimedProc α) :
    q.refilled.priority = q.priority := by
  unfold refilled
  split_ifs <;> rfl

theorem Schedulable.paid {t : Pid → TimedProc α} (h : Schedulable t) : Schedulable (paid t p) := by
  obtain ⟨q, hq⟩ := h.runnable
  refine ⟨⟨q, ?_⟩, fun r hr => ?_⟩
  · rw [Runnable, paid_pFlags]
    exact hq
  · rw [Runnable, paid_pFlags] at hr
    rw [paid_priority]
    exact h.priority r hr

theorem Schedulable.asleep {t : Pid → TimedProc α} {f : Int} (h : Schedulable t)
    (hq : Runnable t q) (hne : q ≠ p) (hf : f ≠ 0) : Schedulable (flagged t p f) := by
  refine ⟨⟨q, ?_⟩, fun r hr => ?_⟩
  · rw [Runnable, flagged_pFlags_of_ne _ _ hne]
    exact hq
  · rw [flagged_priority]
    by_cases hrp : r = p
    · rw [hrp, Runnable, flagged_pFlags_self] at hr
      exact absurd hr hf
    · rw [Runnable, flagged_pFlags_of_ne _ _ hrp] at hr
      exact h.priority r hr

theorem Schedulable.awake {t : Pid → TimedProc α} (h : Schedulable t) (hp : 0 < (t p).priority) :
    Schedulable (flagged t p 0) := by
  refine ⟨⟨p, ?_⟩, fun r hr => ?_⟩
  · rw [Runnable, flagged_pFlags_self]
  · rw [flagged_priority]
    by_cases hrp : r = p
    · rw [hrp]
      exact hp
    · rw [Runnable, flagged_pFlags_of_ne _ _ hrp] at hr
      exact h.priority r hr

theorem Rescheduled.table {t : Pid → TimedProc α} {u : Scheduler α} (h : Rescheduled t u) :
    u.procTable = t ∨ u.procTable = fun p => (t p).refilled := by
  by_cases ht : HasTicks t
  · exact Or.inl (h.same ht)
  · exact Or.inr (h.anew ht)

theorem Rescheduled.schedulable {t : Pid → TimedProc α} {u : Scheduler α} (h : Rescheduled t u)
    (ht : Schedulable t) : Schedulable u.procTable := by
  refine ⟨⟨_, h.chosen.runnable⟩, fun p hp => ?_⟩
  rcases h.table with hu | hu
  · rw [hu] at hp ⊢
    exact ht.priority p hp
  · rw [hu, Runnable, TimedProc.refilled_pFlags] at hp
    rw [hu, TimedProc.refilled_priority]
    exact ht.priority p hp

theorem Clock.clockHandler_spec (hs : Schedulable s.sched.procTable) (hfuel : 3 ≤ fuel) :
    wp (Clock.clockHandler fuel 0)
      (fun _ s' => Rescheduled (paid s.sched.procTable s.sched.pProcReady) s'.sched)
      (fun _ _ => False) s := by
  simp only [Clock.clockHandler, Clock.payTick, Clock.informInt, wp_bind, wp_modify, wp_when,
    wp_onSched, wp_get]
  refine ⟨fun _ => ?_, fun h => absurd trivial h⟩
  refine wp_mono (Scheduler.schedule_wp hs.paid hfuel) (fun _ u hu => ?_) (fun _ _ h => h)
  exact ⟨fun _ => hu, fun _ => hu⟩

theorem Clock.clockHandler_nested {k : Int} (hk : k ≠ 0) :
    wp (Clock.clockHandler fuel k)
      (fun _ s' => s'.sched.procTable = paid s.sched.procTable s.sched.pProcReady ∧
        s'.sched.pProcReady = s.sched.pProcReady)
      (fun _ _ => False) s := by
  simp only [Clock.clockHandler, Clock.payTick, wp_bind, wp_modify, wp_when, wp_onSched]
  exact ⟨fun h => absurd h hk, fun _ => ⟨rfl, rfl⟩⟩

/-- What a step makes of the table and of the process that runs. -/
inductive Moves (s : Scheduler α) : ClockEvent → Scheduler α → Prop
  | tick {u : Scheduler α} : Rescheduled (paid s.procTable s.pProcReady) u →
      Moves s (.tick s.pProcReady) u
  | nested {u : Scheduler α} : u.procTable = paid s.procTable s.pProcReady →
      u.pProcReady = s.pProcReady → Moves s (.nested s.pProcReady) u
  | sleep {u : Scheduler α} {f : Int} : f ≠ 0 →
      Rescheduled (flagged s.procTable s.pProcReady f) u → Moves s (.sleep s.pProcReady) u
  | wake {u : Scheduler α} {p : Pid} : 0 < (s.procTable p).priority →
      u.procTable = flagged s.procTable p 0 → u.pProcReady = s.pProcReady → Moves s (.wake p) u

/-- All that a step can do while a process other than the one that runs can run. -/
theorem ClockStep.moves {e : ClockEvent} (hstep : ClockStep fuel s e s') (hfuel : 3 ≤ fuel)
    (hs : Schedulable s.sched.procTable) (hp : Runnable s.sched.procTable p)
    (hne : p ≠ s.sched.pProcReady) : Moves s.sched e s'.sched := by
  cases hstep with
  | tick h =>
    have hu := wp_ok (Clock.clockHandler_spec hs hfuel) h
    exact .tick hu
  | nested hre h =>
    obtain ⟨htable, hready⟩ := wp_ok (Clock.clockHandler_nested hre) h
    exact .nested htable hready
  | @sleep _ f h =>
    have hspec : wp (Clock.onSched (do
        modify fun u => u.setFlags u.pProcReady f
        Scheduler.block fuel s.sched.pProcReady))
        (fun _ s' => f ≠ 0 ∧
          Rescheduled (flagged s.sched.procTable s.sched.pProcReady f) s'.sched)
        (fun _ _ => True) s := by
      simp only [Scheduler.block, Clock.wp_onSched, wp_bind, wp_modify, wp_get, wp_check]
      refine ⟨fun hf => ?_, fun _ => trivial⟩
      have hflag : f ≠ 0 := by simpa [Scheduler.setFlags] using hf
      exact wp_mono (Scheduler.schedule_wp (hs.asleep hp hne hflag) hfuel)
        (fun _ u hu => ⟨hflag, hu⟩) (fun _ _ _ => trivial)
    obtain ⟨hf, hu⟩ := wp_ok hspec h
    exact .sleep hf hu
  | @wake _ r hprio h =>
    have hspec : wp (Clock.onSched (do
        modify fun u => u.setFlags r 0
        Scheduler.unblock r))
        (fun _ s' => s'.sched.procTable = flagged s.sched.procTable r 0 ∧
          s'.sched.pProcReady = s.sched.pProcReady)
        (fun _ _ => True) s := by
      simp only [Scheduler.unblock, Clock.wp_onSched, wp_bind, wp_modify, wp_get, wp_check]
      exact ⟨fun _ => ⟨rfl, rfl⟩, fun _ => trivial⟩
    obtain ⟨htable, hready⟩ := wp_ok hspec h
    exact .wake hprio htable hready

end Specs

section Backlog

variable {α : Type} {s s' t : Clock α} {fuel : Nat} {p q r : Pid} {T : Pid → TimedProc α}
  {l : List ClockEvent}

/-- The ticks that the processes other than `p` have left. -/
def pending (T : Pid → TimedProc α) (p : Pid) : Nat :=
  ∑ q ∈ Finset.univ.erase p, (T q).ticks.toNat

/-- The ticks that the processes other than `p` can get at a time. -/
def owed (T : Pid → TimedProc α) (p : Pid) : Nat :=
  ∑ q ∈ Finset.univ.erase p, (T q).priority.toNat

/-- The ticks that others can use up before `p` is the one with the most: once `p` has ticks, no new
ones are handed out. -/
def demand (T : Pid → TimedProc α) (p : Pid) : Nat :=
  pending T p + if (T p).ticks ≤ 0 then owed T p else 0

/-- `demand`, and the tick that a process pays with nothing left because of nested interrupts. -/
def Scheduler.backlog (s : Scheduler α) (p : Pid) : Nat :=
  demand s.procTable p + if (s.procTable s.pProcReady).ticks ≤ 0 then 1 else 0

theorem pending_paid_le (T : Pid → TimedProc α) : pending (paid T r) p ≤ pending T p := by
  apply Finset.sum_le_sum
  intro q _
  by_cases h : q = r
  · rw [h, paid_ticks_self]
    omega
  · rw [paid_ticks_of_ne T h]

theorem pending_paid (hne : p ≠ r) (hpos : 0 < (T r).ticks) :
    pending (paid T r) p + 1 = pending T p := by
  have hr : r ∈ Finset.univ.erase p := Finset.mem_erase.mpr ⟨hne.symm, Finset.mem_univ r⟩
  have hother : ∑ q ∈ (Finset.univ.erase p).erase r, (paid T r q).ticks.toNat =
      ∑ q ∈ (Finset.univ.erase p).erase r, (T q).ticks.toNat := by
    apply Finset.sum_congr rfl
    intro q hq
    rw [paid_ticks_of_ne T (Finset.ne_of_mem_erase hq)]
  rw [pending, pending, ← Finset.add_sum_erase _ _ hr,
    ← Finset.add_sum_erase _ (fun q => (T q).ticks.toNat) hr, hother, paid_ticks_self]
  omega

theorem pending_refilled_le (T : Pid → TimedProc α) :
    pending (fun q => (T q).refilled) p ≤ pending T p + owed T p := by
  rw [pending, pending, owed, ← Finset.sum_add_distrib]
  apply Finset.sum_le_sum
  intro q _
  unfold TimedProc.refilled
  split_ifs
  · exact Nat.le_add_left _ _
  · exact Nat.le_add_right _ _

@[simp] theorem owed_paid (T : Pid → TimedProc α) : owed (paid T r) p = owed T p := by
  simp [owed]

@[simp] theorem demand_flagged (T : Pid → TimedProc α) (f : Int) :
    demand (flagged T r f) p = demand T p := by
  simp [demand, pending, owed]

theorem demand_paid_le (hne : p ≠ r) : demand (paid T r) p ≤ demand T p := by
  have hle := pending_paid_le (p := p) (r := r) T
  rw [demand, demand, owed_paid, paid_ticks_of_ne T hne]
  omega

theorem demand_paid (hne : p ≠ r) (hpos : 0 < (T r).ticks) :
    demand (paid T r) p + 1 = demand T p := by
  have hpend := pending_paid hne hpos
  rw [demand, demand, owed_paid, paid_ticks_of_ne T hne]
  omega

/-- New ticks are handed out only while `p` has none, and then it gets some too. -/
theorem Rescheduled.demand_le {u : Scheduler α} (h : Rescheduled T u) (hT : Schedulable T)
    (hp : Runnable T p) : demand u.procTable p ≤ demand T p := by
  by_cases hticks : HasTicks T
  · rw [h.same hticks]
  · have hnone : (T p).ticks ≤ 0 := by
      by_contra hpos
      exact hticks ⟨p, hp, by omega⟩
    have hnew : (T p).refilled.ticks = (T p).priority := by
      rw [TimedProc.refilled, if_pos hp]
    have hprio := hT.priority p hp
    have hle := pending_refilled_le (p := p) T
    rw [h.anew hticks, demand, demand, if_pos hnone, if_neg (by rw [hnew]; omega)]
    exact hle

theorem Rescheduled.backlog_eq {u : Scheduler α} (h : Rescheduled T u) :
    u.backlog p = demand u.procTable p := by
  have hpos := h.chosen.pos
  rw [Scheduler.backlog, if_neg (by omega), Nat.add_zero]

/-- A step while `p` waits takes from what stands in front of `p` what the clock counts. -/
theorem Moves.backlog_le {e : ClockEvent} {a b : Scheduler α} (h : Moves a e b)
    (ha : Schedulable a.procTable) (hp : Runnable a.procTable p) (hne : p ≠ a.pProcReady) :
    (if e.isTick then 1 else 0) + b.backlog p ≤ a.backlog p := by
  cases h with
  | tick h =>
    have hrun : Runnable (paid a.procTable a.pProcReady) p := by
      rw [Runnable, paid_pFlags]
      exact hp
    have hle := h.demand_le ha.paid hrun
    rw [h.backlog_eq, Scheduler.backlog]
    by_cases hpos : 0 < (a.procTable a.pProcReady).ticks
    · have hpaid := demand_paid hne hpos
      simp only [ClockEvent.isTick, if_true]
      omega
    · have hpaid := demand_paid_le (T := a.procTable) hne
      simp only [ClockEvent.isTick, if_true]
      rw [if_pos (by omega)]
      omega
  | nested htable hready =>
    rw [Scheduler.backlog, Scheduler.backlog, htable, hready, paid_ticks_self]
    simp only [ClockEvent.isTick, Bool.false_eq_true, if_false]
    by_cases hpos : 0 < (a.procTable a.pProcReady).ticks
    · have hpaid := demand_paid hne hpos
      split_ifs <;> omega
    · have hpaid := demand_paid_le (T := a.procTable) hne
      split_ifs <;> omega
  | @sleep _ f hf h =>
    have hrun : Runnable (flagged a.procTable a.pProcReady f) p := by
      rw [Runnable, flagged_pFlags_of_ne _ _ hne]
      exact hp
    have hle := h.demand_le (ha.asleep hp hne hf) hrun
    rw [demand_flagged] at hle
    rw [h.backlog_eq, Scheduler.backlog]
    simp only [ClockEvent.isTick, Bool.false_eq_true, if_false]
    omega
  | wake hprio htable hready =>
    rw [Scheduler.backlog, Scheduler.backlog, htable, hready, demand_flagged, flagged_ticks]
    simp [ClockEvent.isTick]

theorem Moves.schedulable {e : ClockEvent} {a b : Scheduler α} (h : Moves a e b)
    (ha : Schedulable a.procTable) (hp : Runnable a.procTable p) (hne : p ≠ a.pProcReady) :
    Schedulable b.procTable := by
  cases h with
  | tick h => exact h.schedulable ha.paid
  | nested htable _ =>
    rw [htable]
    exact ha.paid
  | sleep hf h => exact h.schedulable (ha.asleep hp hne hf)
  | wake hprio htable _ =>
    rw [htable]
    exact ha.awake hprio

theorem exists_tick (hs : Schedulable s.sched.procTable) (hfuel : 3 ≤ fuel) :
    ∃ s', ClockStep fuel s (.tick s.sched.pProcReady) s' ∧ Schedulable s'.sched.procTable ∧
      ∀ q, Runnable s'.sched.procTable q ↔ Runnable s.sched.procTable q := by
  obtain ⟨_, s', hok, hu⟩ := exists_ok_of_wp (Clock.clockHandler_spec hs hfuel)
  refine ⟨s', .tick hok, hu.schedulable hs.paid, fun q => ?_⟩
  rcases hu.table with htable | htable
  · rw [htable, Runnable, paid_pFlags]
  · rw [htable, Runnable, TimedProc.refilled_pFlags, paid_pFlags]

theorem exists_ticks (hs : Schedulable s.sched.procTable) (hfuel : 3 ≤ fuel) (k : Nat) :
    ∃ l t, Run (fun u e v => (ClockStep fuel u e v ∧ e.isTick = true) ∧
        ∀ q, Runnable u.sched.procTable q ↔ Runnable s.sched.procTable q) s l t ∧
      l.length = k ∧ l.countP ClockEvent.isTick = k ∧ Schedulable t.sched.procTable ∧
      ∀ q, Runnable t.sched.procTable q ↔ Runnable s.sched.procTable q := by
  induction k with
  | zero => exact ⟨[], s, .nil, rfl, rfl, hs, fun _ => Iff.rfl⟩
  | succ k ih =>
    obtain ⟨l, t, hrun, hlength, hcount, ht, hflags⟩ := ih
    obtain ⟨t', hstep, ht', hflags'⟩ := exists_tick ht hfuel
    refine ⟨l ++ [.tick t.sched.pProcReady], t', .snoc hrun ⟨⟨hstep, rfl⟩, hflags⟩, ?_, ?_, ht',
      fun q => (hflags' q).trans (hflags q)⟩
    · rw [List.length_append, hlength, List.length_singleton]
    · rw [List.countP_append, hcount, List.countP_singleton]
      rfl

/-- `p` waits for the processor in front of the step. -/
def WaitStep (fuel : Nat) (p : Pid) (u : Clock α) (e : ClockEvent) (v : Clock α) : Prop :=
  (ClockStep fuel u e v ∧ Runnable u.sched.procTable p) ∧ ¬ u.sched.pProcReady = p

theorem ticks_of_waits (hr : Run (WaitStep fuel p) s l t) (hs : Schedulable s.sched.procTable)
    (hfuel : 3 ≤ fuel) :
    Schedulable t.sched.procTable ∧
      l.countP ClockEvent.isTick + t.sched.backlog p ≤ s.sched.backlog p := by
  induction hr with
  | nil => exact ⟨hs, by simp⟩
  | @snoc l u v e _ hstep ih =>
    obtain ⟨hu, hcount⟩ := ih
    obtain ⟨⟨hstep, hp⟩, hready⟩ := hstep
    have hne : p ≠ u.sched.pProcReady := fun h => hready h.symm
    have hmoves := hstep.moves hfuel hu hp hne
    have hle := hmoves.backlog_le hu hp hne
    refine ⟨hmoves.schedulable hu hp hne, ?_⟩
    rw [List.countP_append, List.countP_singleton]
    omega

/-- A process that can run has run by the time that the clock has ticked more often than what stood
in front of it at the start; and if it has not, the clock can tick again. -/
theorem ready_of_run (hfuel : 3 ≤ fuel) (hs : Schedulable s.sched.procTable)
    (hr : Run (fun u e v => ClockStep fuel u e v ∧ Runnable u.sched.procTable p) s l t) :
    (s.sched.backlog p < l.countP ClockEvent.isTick →
      ∃ l₁ e l₂ u, l = l₁ ++ e :: l₂ ∧
        Run (fun u e v => ClockStep fuel u e v ∧ Runnable u.sched.procTable p) s l₁ u ∧
        u.sched.pProcReady = p) ∧
    ((∀ l₁ e l₂ u, l = l₁ ++ e :: l₂ →
        Run (fun u e v => ClockStep fuel u e v ∧ Runnable u.sched.procTable p) s l₁ u →
        u.sched.pProcReady ≠ p) →
      ∃ t', ClockStep fuel t (.tick t.sched.pProcReady) t') := by
  rcases hr.avoids_or_meets (fun u => u.sched.pProcReady = p) with havoid | hmeet
  · obtain ⟨ht, hcount⟩ := ticks_of_waits havoid hs hfuel
    obtain ⟨t', htick, -, -⟩ := exists_tick ht hfuel
    exact ⟨fun hlt => by omega, fun _ => ⟨t', htick⟩⟩
  · refine ⟨fun _ => hmeet, fun hnever => ?_⟩
    obtain ⟨l₁, e, l₂, u, hl, hu, hready⟩ := hmeet
    exact absurd hready (hnever l₁ e l₂ u hl hu)

/-- Process 5 runs with a tick left, and process 6 has none; nobody else can run. -/
private def twoReady : Clock Unit where
  ticks := 0
  keyPressed := 1
  sched :=
    { procTable := fun p =>
        if p = ⟨5, five_lt_nrSlots⟩ then ⟨0, 1, 1, ()⟩
        else if p = ⟨6, six_lt_nrSlots⟩ then ⟨0, 0, 2, ()⟩
        else ⟨1, 0, 15, ()⟩
      pProcReady := ⟨5, five_lt_nrSlots⟩ }
  informed := []

private theorem twoReady_schedulable : Schedulable twoReady.sched.procTable :=
  ⟨⟨⟨5, five_lt_nrSlots⟩, by decide⟩, by decide⟩

private theorem twoReady_backlog :
    twoReady.sched.backlog ⟨6, six_lt_nrSlots⟩ = 527 := by
  decide +kernel

theorem ready_of_run_two : ∃ l t,
    Run (fun u e v => ClockStep 3 u e v ∧ Runnable u.sched.procTable ⟨6, six_lt_nrSlots⟩)
      twoReady l t ∧
    ∃ l₁ e l₂ u, l = l₁ ++ e :: l₂ ∧
      Run (fun u e v => ClockStep 3 u e v ∧ Runnable u.sched.procTable ⟨6, six_lt_nrSlots⟩)
        twoReady l₁ u ∧
      u.sched.pProcReady = ⟨6, six_lt_nrSlots⟩ := by
  obtain ⟨l, t, hrun, -, hcount, -, -⟩ := exists_ticks twoReady_schedulable (Nat.le_refl 3) 528
  have hr : Run (fun u e v => ClockStep 3 u e v ∧
      Runnable u.sched.procTable ⟨6, six_lt_nrSlots⟩) twoReady l t :=
    hrun.mono fun _ _ _ h => ⟨h.1.1, (h.2 _).mpr (by decide)⟩
  have hlt : twoReady.sched.backlog ⟨6, six_lt_nrSlots⟩ < l.countP ClockEvent.isTick := by
    rw [hcount, twoReady_backlog]
    decide
  exact ⟨l, t, hr, (ready_of_run (Nat.le_refl 3) twoReady_schedulable hr).1 hlt⟩

end Backlog

section Shares

variable {α : Type} {s t : Clock α} {fuel : Nat} {p q r : Pid} {T : Pid → TimedProc α}
  {l : List ClockEvent} {n : Nat}

def runners (T : Pid → TimedProc α) : Finset Pid := Finset.univ.filter fun q => Runnable T q

@[simp] theorem mem_runners : q ∈ runners T ↔ Runnable T q := by simp [runners]

def TickStep (fuel : Nat) (u : Clock α) (e : ClockEvent) (v : Clock α) : Prop :=
  ClockStep fuel u e v ∧ e.isTick = true

theorem TickStep.moves {e : ClockEvent} (h : TickStep fuel s e t) (hfuel : 3 ≤ fuel)
    (hs : Schedulable s.sched.procTable) : e = .tick s.sched.pProcReady ∧
      Rescheduled (paid s.sched.procTable s.sched.pProcReady) t.sched := by
  obtain ⟨hstep, htick⟩ := h
  cases hstep with
  | tick h =>
    have hu := wp_ok (Clock.clockHandler_spec hs hfuel) h
    exact ⟨rfl, hu⟩
  | nested _ _ => simp [ClockEvent.isTick] at htick
  | sleep _ => simp [ClockEvent.isTick] at htick
  | wake _ _ => simp [ClockEvent.isTick] at htick

/-- How often the clock has found `q` running. -/
def served (l : List ClockEvent) (q : Pid) : Nat := l.count (ClockEvent.tick q)

/-- Where the processes of the table `T` stand after the ticks `l`, in the round `e`. -/
structure Round (T : Pid → TimedProc α) (l : List ClockEvent) (e : Nat) (u : Scheduler α) :
    Prop where
  flags : ∀ q, Runnable u.procTable q ↔ Runnable T q
  priority : ∀ q, (u.procTable q).priority = (T q).priority
  ready : Runnable T u.pProcReady
  pos : 0 < (u.procTable u.pProcReady).ticks
  nonneg : ∀ q, Runnable T q → 0 ≤ (u.procTable q).ticks
  count : ∀ q, Runnable T q →
    (served l q : Int) + (u.procTable q).ticks = (T q).ticks + e * (T q).priority
  fresh : e = 0 ∨ ∀ q, Runnable T q → (u.procTable q).ticks ≤ (T q).priority
  idle : ∀ q, ¬ Runnable T q → served l q = 0
  total : ∑ q ∈ runners T, served l q = l.length

theorem count_tick_snoc (l : List ClockEvent) (r q : Pid) :
    served (l ++ [.tick r]) q = served l q + if q = r then 1 else 0 := by
  rw [served, served, List.count_append, List.count_singleton]
  by_cases h : q = r
  · simp [h]
  · simp [h, Ne.symm h]

theorem Round.tick {e : Nat} {u v : Scheduler α} (h : Round T l e u)
    (hT : ∀ q, Runnable T q → 0 < (T q).priority)
    (hv : Rescheduled (paid u.procTable u.pProcReady) v) :
    ∃ e', Round T (l ++ [.tick u.pProcReady]) e' v := by
  have hidle : ∀ q, ¬ Runnable T q → served (l ++ [.tick u.pProcReady]) q = 0 := by
    intro q hq
    have hne : q ≠ u.pProcReady := fun hqr => hq (hqr ▸ h.ready)
    rw [count_tick_snoc, h.idle q hq, if_neg hne]
  have htotal : ∑ q ∈ runners T, served (l ++ [.tick u.pProcReady]) q =
      (l ++ [ClockEvent.tick u.pProcReady]).length := by
    simp only [count_tick_snoc, Finset.sum_add_distrib, Finset.sum_ite_eq', mem_runners,
      if_pos h.ready, h.total, List.length_append, List.length_singleton]
  -- the process that runs has paid with the tick that is counted
  have hpaid : ∀ q, Runnable T q →
      (served (l ++ [.tick u.pProcReady]) q : Int) +
        (paid u.procTable u.pProcReady q).ticks = (T q).ticks + e * (T q).priority ∧
      0 ≤ (paid u.procTable u.pProcReady q).ticks ∧
      (paid u.procTable u.pProcReady q).ticks ≤ (u.procTable q).ticks := by
    intro q hq
    have hcount := h.count q hq
    have hnonneg := h.nonneg q hq
    rw [count_tick_snoc]
    by_cases hqr : q = u.pProcReady
    · have hpos := h.pos
      rw [hqr] at hcount ⊢
      rw [paid_ticks_self, if_pos rfl]
      push_cast
      omega
    · rw [paid_ticks_of_ne _ hqr, if_neg hqr]
      push_cast
      omega
  have hflags : ∀ q, Runnable (paid u.procTable u.pProcReady) q ↔ Runnable T q := by
    intro q
    rw [Runnable, paid_pFlags]
    exact h.flags q
  by_cases hticks : HasTicks (paid u.procTable u.pProcReady)
  · have htable := hv.same hticks
    have hrun := hv.chosen.runnable
    have hpos := hv.chosen.pos
    rw [htable] at hrun
    refine ⟨e, ?_⟩
    refine ⟨?_, ?_, (hflags _).mp hrun, hpos, ?_, ?_, ?_, hidle, htotal⟩
    · rw [htable]
      exact hflags
    · intro q
      rw [htable, paid_priority]
      exact h.priority q
    · intro q hq
      rw [htable]
      exact (hpaid q hq).2.1
    · intro q hq
      rw [htable]
      exact (hpaid q hq).1
    · refine h.fresh.imp id fun hle q hq => ?_
      rw [htable]
      exact (hpaid q hq).2.2.trans (hle q hq)
  · have htable := hv.anew hticks
    have hrun := hv.chosen.runnable
    have hpos := hv.chosen.pos
    have hnew : ∀ q, Runnable T q → (v.procTable q).ticks = (T q).priority := by
      intro q hq
      have hflag : (paid u.procTable u.pProcReady q).pFlags = 0 := (hflags q).mpr hq
      rw [htable]
      simp only [TimedProc.refilled, if_pos hflag, paid_priority]
      exact h.priority q
    rw [htable, Runnable, TimedProc.refilled_pFlags] at hrun
    refine ⟨e + 1, ?_⟩
    refine ⟨?_, ?_, (hflags _).mp hrun, hpos, ?_, ?_, ?_, hidle, htotal⟩
    · intro q
      rw [htable, Runnable, TimedProc.refilled_pFlags]
      exact hflags q
    · intro q
      rw [htable, TimedProc.refilled_priority, paid_priority]
      exact h.priority q
    · intro q hq
      rw [hnew q hq]
      exact (hT q hq).le
    · intro q hq
      have hzero : (paid u.procTable u.pProcReady q).ticks = 0 := by
        have hge := (hpaid q hq).2.1
        by_contra hne
        exact hticks ⟨q, (hflags q).mpr hq, by omega⟩
      have hcount := (hpaid q hq).1
      rw [hnew q hq]
      push_cast
      linarith
    · exact Or.inr fun q hq => (hnew q hq).le

theorem Round.start {u : Scheduler α} (hready : Runnable u.procTable u.pProcReady)
    (hpos : 0 < (u.procTable u.pProcReady).ticks)
    (hnonneg : ∀ q, Runnable u.procTable q → 0 ≤ (u.procTable q).ticks) :
    Round u.procTable [] 0 u := by
  refine ⟨fun _ => Iff.rfl, fun _ => rfl, hready, hpos, hnonneg, ?_, Or.inl rfl, ?_, ?_⟩ <;>
    simp [served]

theorem Round.of_run (hfuel : 3 ≤ fuel) (hs : Schedulable s.sched.procTable)
    (h₀ : Round s.sched.procTable [] 0 s.sched) (hr : Run (TickStep fuel) s l t) :
    Schedulable t.sched.procTable ∧ ∃ e, Round s.sched.procTable l e t.sched := by
  induction hr with
  | nil => exact ⟨hs, 0, h₀⟩
  | snoc _ hstep ih =>
    obtain ⟨hu, e, hround⟩ := ih
    obtain ⟨rfl, hv⟩ := hstep.moves hfuel hu
    exact ⟨hv.schedulable hu.paid, hround.tick hs.priority hv⟩

/-- While nobody waits, the clock counts out `ticks` and then `priority` ticks a round to each of the
processes that can run, and none to the others. -/
theorem shares_of_run (hfuel : 3 ≤ fuel) (hs : Schedulable s.sched.procTable)
    (hready : Runnable s.sched.procTable s.sched.pProcReady)
    (hpos : 0 < (s.sched.procTable s.sched.pProcReady).ticks)
    (hnonneg : ∀ q, Runnable s.sched.procTable q → 0 ≤ (s.sched.procTable q).ticks)
    (hr : Run (TickStep fuel) s l t)
    (hl : (l.length : Int) = ∑ q ∈ runners s.sched.procTable, (s.sched.procTable q).ticks +
      n * ∑ q ∈ runners s.sched.procTable, (s.sched.procTable q).priority) (q : Pid) :
    (served l q : Int) =
        (if Runnable s.sched.procTable q then
          (s.sched.procTable q).ticks + n * (s.sched.procTable q).priority
        else 0) ∧
      (Runnable s.sched.procTable q →
        (t.sched.procTable q).ticks = (s.sched.procTable q).priority) := by
  obtain ⟨-, e, h⟩ := Round.of_run hfuel hs (Round.start hready hpos hnonneg) hr
  have hcast : ∑ q ∈ runners s.sched.procTable, (served l q : Int) = l.length := by
    exact_mod_cast h.total
  have hsum : (l.length : Int) + ∑ q ∈ runners s.sched.procTable, (t.sched.procTable q).ticks =
      ∑ q ∈ runners s.sched.procTable, (s.sched.procTable q).ticks +
        e * ∑ q ∈ runners s.sched.procTable, (s.sched.procTable q).priority := by
    rw [← hcast, Finset.mul_sum, ← Finset.sum_add_distrib, ← Finset.sum_add_distrib]
    exact Finset.sum_congr rfl fun q hq => h.count q (mem_runners.mp hq)
  have hmem : t.sched.pProcReady ∈ runners s.sched.procTable := mem_runners.mpr h.ready
  have hsome : 0 < ∑ q ∈ runners s.sched.procTable, (t.sched.procTable q).ticks :=
    Finset.sum_pos' (fun q hq => h.nonneg q (mem_runners.mp hq)) ⟨_, hmem, h.pos⟩
  have hprio : 0 < ∑ q ∈ runners s.sched.procTable, (s.sched.procTable q).priority :=
    Finset.sum_pos (fun q hq => hs.priority q (mem_runners.mp hq)) ⟨_, hmem⟩
  have hleft : ∑ q ∈ runners s.sched.procTable, (t.sched.procTable q).ticks =
      (e - n : Int) * ∑ q ∈ runners s.sched.procTable, (s.sched.procTable q).priority := by
    linarith [sub_mul (e : Int) n (∑ q ∈ runners s.sched.procTable, (s.sched.procTable q).priority)]
  -- the ticks that are left are those of a whole number of rounds, and no more than one is open
  have hlt : (n : Int) < e := by
    have hpos := pos_of_mul_pos_left (hleft ▸ hsome) hprio.le
    omega
  have hfresh : ∀ q, Runnable s.sched.procTable q →
      (t.sched.procTable q).ticks ≤ (s.sched.procTable q).priority :=
    h.fresh.resolve_left (by omega)
  have hle : ∑ q ∈ runners s.sched.procTable, (t.sched.procTable q).ticks ≤
      ∑ q ∈ runners s.sched.procTable, (s.sched.procTable q).priority :=
    Finset.sum_le_sum fun q hq => hfresh q (mem_runners.mp hq)
  have he : (e : Int) = n + 1 := by
    have hone : (e - n : Int) * ∑ q ∈ runners s.sched.procTable, (s.sched.procTable q).priority ≤
        1 * ∑ q ∈ runners s.sched.procTable, (s.sched.procTable q).priority := by
      rw [← hleft, one_mul]
      exact hle
    have hdiff := le_of_mul_le_mul_right hone hprio
    omega
  have heq : ∀ q ∈ runners s.sched.procTable,
      (t.sched.procTable q).ticks = (s.sched.procTable q).priority := by
    rw [← Finset.sum_eq_sum_iff_of_le fun q hq => hfresh q (mem_runners.mp hq), hleft, he]
    ring
  by_cases hq : Runnable s.sched.procTable q
  · have hticks := heq q (mem_runners.mpr hq)
    have hcount := h.count q hq
    rw [hticks, he] at hcount
    refine ⟨?_, fun _ => hticks⟩
    rw [if_pos hq]
    linarith
  · refine ⟨?_, fun h => absurd h hq⟩
    rw [if_neg hq, h.idle q hq]
    rfl

private theorem twoReady_runners : runners twoReady.sched.procTable =
    {⟨5, five_lt_nrSlots⟩, ⟨6, six_lt_nrSlots⟩} := by decide +kernel

/-- Seven ticks: one of process 5 and two rounds of three. -/
theorem shares_of_run_two : ∃ l t, Run (TickStep 3) twoReady l t ∧
    served l ⟨5, five_lt_nrSlots⟩ = 3 ∧ served l ⟨6, six_lt_nrSlots⟩ = 4 := by
  obtain ⟨l, t, hrun, hlength, -⟩ := exists_ticks twoReady_schedulable (Nat.le_refl 3) 7
  have hr : Run (TickStep 3) twoReady l t := hrun.mono fun _ _ _ h => h.1
  have hnonneg : ∀ q, Runnable twoReady.sched.procTable q →
      0 ≤ (twoReady.sched.procTable q).ticks := by decide
  have hl : (l.length : Int) =
      ∑ q ∈ runners twoReady.sched.procTable, (twoReady.sched.procTable q).ticks +
        (2 : Nat) * ∑ q ∈ runners twoReady.sched.procTable,
          (twoReady.sched.procTable q).priority := by
    rw [hlength, twoReady_runners]
    decide
  have hshare := fun q => (shares_of_run (Nat.le_refl 3) twoReady_schedulable (by decide)
    (by decide) hnonneg hr hl q).1
  have hfive := hshare ⟨5, five_lt_nrSlots⟩
  have hsix := hshare ⟨6, six_lt_nrSlots⟩
  rw [if_pos (by decide)] at hfive hsix
  refine ⟨l, t, hr, ?_, ?_⟩
  · have hcount : (served l ⟨5, five_lt_nrSlots⟩ : Int) = 3 := hfive
    exact_mod_cast hcount
  · have hcount : (served l ⟨6, six_lt_nrSlots⟩ : Int) = 4 := hsix
    exact_mod_cast hcount

end Shares

end BazingaOS
