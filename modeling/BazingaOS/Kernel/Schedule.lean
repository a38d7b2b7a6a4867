import BazingaOS.Kernel.Proc
import BazingaOS.Lib.FirstMax
import BazingaOS.Lib.Loop

/-!
# The scheduler

`schedule` of `kernel/proc.c`. Its outer loop is cut off after a number of passes; three are enough.
-/

namespace BazingaOS

open Prog

/-- What the scheduler reads of a process; `rest` are the other fields of the table. -/
structure TimedProc (α : Type) where
  pFlags : Int
  ticks : Int
  priority : Int
  rest : α

/-- The process table, `p_proc_ready` and the variable `greatest_ticks` of `schedule`. -/
structure Scheduler (α : Type) where
  procTable : Pid → TimedProc α
  pProcReady : Pid
  greatestTicks : Int := 0

namespace Scheduler

variable {α : Type}

/-- One round of the search for the greatest ticks. -/
def consider (s : Scheduler α) (p : Pid) : Scheduler α :=
  if (s.procTable p).pFlags = 0 then
    if s.greatestTicks < (s.procTable p).ticks then
      { s with greatestTicks := (s.procTable p).ticks, pProcReady := p }
    else s
  else s

def setTicks (s : Scheduler α) (p : Pid) (n : Int) : Scheduler α :=
  { s with procTable := Function.update s.procTable p { s.procTable p with ticks := n } }

/-- One round of the loop that hands out new ticks. -/
def refill (s : Scheduler α) (p : Pid) : Scheduler α :=
  if (s.procTable p).pFlags = 0 then s.setTicks p (s.procTable p).priority else s

/-- A loop from `FIRST_PROC` to `LAST_PROC`. -/
def forProcs (round : Scheduler α → Pid → Scheduler α) : Prog (Scheduler α) Unit :=
  modify fun s => (List.finRange nrSlots).foldl round s

/-- The body of the outer loop. -/
def pass : Prog (Scheduler α) Unit := do
  forProcs consider
  when ((← get).greatestTicks = 0) (forProcs refill)

def schedule (fuel : Nat) : Prog (Scheduler α) Unit := do
  modify fun s => { s with greatestTicks := 0 }
  whileLoop (fun s => s.greatestTicks = 0) pass fuel

end Scheduler

section Tables

variable {α : Type}

abbrev Runnable (t : Pid → TimedProc α) (p : Pid) : Prop := (t p).pFlags = 0

/-- A process that can run has ticks left. -/
def HasTicks (t : Pid → TimedProc α) : Prop := ∃ p, Runnable t p ∧ 0 < (t p).ticks

/-- New ticks for a process that can run, and for no other. -/
def TimedProc.refilled (q : TimedProc α) : TimedProc α :=
  if q.pFlags = 0 then { q with ticks := q.priority } else q

@[simp] theorem TimedProc.refilled_pFlags (q : TimedProc α) : q.refilled.pFlags = q.pFlags := by
  unfold refilled
  split_ifs <;> rfl

@[simp] theorem TimedProc.refilled_refilled (q : TimedProc α) :
    q.refilled.refilled = q.refilled := by
  unfold refilled
  split_ifs <;> rfl

/-- `p` is the first of the processes that can run with the most ticks, and has some. -/
structure Chosen (t : Pid → TimedProc α) (p : Pid) : Prop where
  runnable : Runnable t p
  pos : 0 < (t p).ticks
  greatest : ∀ q, Runnable t q → (t q).ticks ≤ (t p).ticks
  first : ∀ q, q < p → Runnable t q → (t q).ticks < (t p).ticks

end Tables

namespace Scheduler

variable {α : Type} {s s' : Scheduler α}

/-- The search is the loop that keeps the greater. -/
theorem foldl_consider (l : List Pid) (s : Scheduler α) : l.foldl consider s =
    { s with
      greatestTicks := (l.foldl (keepGreater (Runnable s.procTable) fun p => (s.procTable p).ticks)
        (s.greatestTicks, s.pProcReady)).1
      pProcReady := (l.foldl (keepGreater (Runnable s.procTable) fun p => (s.procTable p).ticks)
        (s.greatestTicks, s.pProcReady)).2 } := by
  induction l generalizing s with
  | nil => rfl
  | cons p l ih =>
    have hround : keepGreater (Runnable s.procTable) (fun p => (s.procTable p).ticks)
        (s.greatestTicks, s.pProcReady) p = ((s.consider p).greatestTicks,
          (s.consider p).pProcReady) ∧ (s.consider p).procTable = s.procTable := by
      unfold consider keepGreater Runnable
      split_ifs <;> simp_all
    obtain ⟨hpair, htable⟩ := hround
    rw [List.foldl_cons, ih, List.foldl_cons, hpair, htable]

theorem refill_eq (s : Scheduler α) (p : Pid) : s.refill p =
    { s with procTable := Function.update s.procTable p (s.procTable p).refilled } := by
  unfold refill TimedProc.refilled
  by_cases h : (s.procTable p).pFlags = 0
  · rw [if_pos h, if_pos h]
    rfl
  · rw [if_neg h, if_neg h, Function.update_eq_self]

theorem foldl_refill (l : List Pid) (s : Scheduler α) : l.foldl refill s =
    { s with procTable := fun p => if p ∈ l then (s.procTable p).refilled else s.procTable p } := by
  induction l generalizing s with
  | nil => simp
  | cons p l ih =>
    rw [List.foldl_cons, ih, refill_eq, Scheduler.mk.injEq]
    refine ⟨?_, rfl, rfl⟩
    funext q
    by_cases hq : q = p
    · subst hq
      simp
    · simp [hq]

theorem pass_spec (hzero : s.greatestTicks = 0) :
    wp pass (fun _ s' =>
      (HasTicks s.procTable ∧ s'.procTable = s.procTable ∧ Chosen s.procTable s'.pProcReady ∧
        s'.greatestTicks ≠ 0) ∨
      (¬ HasTicks s.procTable ∧ s' = { s with procTable := fun p => (s.procTable p).refilled }))
      (fun _ _ => False) s := by
  simp only [pass, forProcs, wp_bind, wp_modify, wp_get, wp_when, foldl_consider]
  rcases foldl_keepGreater (Runnable s.procTable) (fun p => (s.procTable p).ticks)
    (List.finRange nrSlots) (s.greatestTicks, s.pProcReady) with ⟨hkeep, hall⟩ | ⟨p, hp, hlt, he⟩
  · have hnone : ¬ HasTicks s.procTable := by
      rintro ⟨p, hrun, hpos⟩
      have hle := hall p (List.mem_finRange p) hrun
      dsimp only at hle
      omega
    rw [hkeep]
    refine ⟨fun _ => Or.inr ⟨hnone, ?_⟩, fun h => absurd hzero h⟩
    rw [foldl_refill]
    simp only [List.mem_finRange, if_true]
  · rw [he]
    dsimp only at hlt ⊢
    have hchosen : Chosen s.procTable p :=
      ⟨hp.candidate, by omega, fun q hq => hp.le (List.mem_finRange q) hq,
        fun q hqp hq => hp.lt (List.pairwise_lt_finRange _) (List.mem_finRange q) hqp hq⟩
    exact ⟨fun h => absurd h (by omega),
      fun hne => Or.inl ⟨⟨p, hp.candidate, hchosen.pos⟩, trivial, hchosen, hne⟩⟩

theorem hasTicks_refilled {t : Pid → TimedProc α} (hrun : ∃ p, Runnable t p)
    (hprio : ∀ p, Runnable t p → 0 < (t p).priority) : HasTicks fun p => (t p).refilled := by
  obtain ⟨p, hp⟩ := hrun
  refine ⟨p, ?_, ?_⟩
  · rw [Runnable, TimedProc.refilled_pFlags]
    exact hp
  · have hnew : (t p).refilled.ticks = (t p).priority := by
      rw [TimedProc.refilled, if_pos hp]
    exact hnew ▸ hprio p hp

/-- The scheduler ends after at most two passes with a choice: on the table as it was if a process
that can run had ticks left, and with new ticks for those that can run otherwise. -/
theorem schedule_spec (s : Scheduler α) (hrun : ∃ p, Runnable s.procTable p)
    (hprio : ∀ p, Runnable s.procTable p → 0 < (s.procTable p).priority) {fuel : Nat}
    (hfuel : 3 ≤ fuel) :
    ∃ s', schedule fuel s = .ok () s' ∧ Chosen s'.procTable s'.pProcReady ∧
      (HasTicks s.procTable → s'.procTable = s.procTable) ∧
      (¬ HasTicks s.procTable → s'.procTable = fun p => (s.procTable p).refilled) := by
  have hnew := hasTicks_refilled hrun hprio
  have hspec : wp (schedule fuel) (fun _ s' => Chosen s'.procTable s'.pProcReady ∧
      (s'.procTable = s.procTable ∧ HasTicks s.procTable ∨
        s'.procTable = (fun p => (s.procTable p).refilled) ∧ ¬ HasTicks s.procTable))
      (fun _ _ => False) s := by
    classical
    simp only [schedule, wp_bind, wp_modify]
    -- the table is the old or the refilled one; `greatest_ticks` tells whether there is a choice
    apply @wp_whileLoop _ _ _ _ _ _ _ (fun s' =>
        (s'.procTable = s.procTable ∧ (s'.greatestTicks ≠ 0 → HasTicks s.procTable) ∨
          s'.procTable = (fun p => (s.procTable p).refilled) ∧ ¬ HasTicks s.procTable) ∧
        (s'.greatestTicks ≠ 0 → Chosen s'.procTable s'.pProcReady))
      (fun s' => if s'.greatestTicks ≠ 0 then 0 else if HasTicks s'.procTable then 1 else 2)
    · exact ⟨Or.inl ⟨rfl, fun h => absurd rfl h⟩, fun h => absurd rfl h⟩
    · dsimp only
      split_ifs <;> omega
    · rintro s₁ ⟨htable, -⟩ hzero
      refine wp_mono (pass_spec hzero) ?_ (fun _ _ h => h)
      rintro _ s₂ (⟨hticks, hsame, hchosen, hne⟩ | ⟨hnone, rfl⟩)
      · rw [hsame]
        refine ⟨⟨?_, fun _ => hchosen⟩, ?_⟩
        · rcases htable with ⟨hold, -⟩ | hnew
          · exact Or.inl ⟨hold, fun _ => hold ▸ hticks⟩
          · exact Or.inr hnew
        · simp [hne, hzero, hticks]
      · rcases htable with ⟨hold, -⟩ | ⟨hold, -⟩
        · rw [hold] at hnone ⊢
          refine ⟨⟨Or.inr ⟨rfl, hnone⟩, fun h => absurd hzero h⟩, ?_⟩
          simp [hzero, hnew, hnone]
        · rw [hold] at hnone
          exact absurd hnew hnone
    · rintro s₁ ⟨htable, hchosen⟩ hne
      exact ⟨hchosen hne, htable.imp (fun h => ⟨h.1, h.2 hne⟩) id⟩
  obtain ⟨_, s', hok, hchosen, htable⟩ := exists_ok_of_wp hspec
  refine ⟨s', hok, hchosen, fun h => ?_, fun h => ?_⟩
  · exact htable.elim And.left fun hn => absurd h hn.2
  · exact htable.elim (fun hn => absurd hn.2 h) And.left

/-- A table in which only process 5, which has used up its ticks, and process 6, with a negative
number of them, can run. -/
private def exhausted : Scheduler Unit where
  procTable := fun p =>
    if p = ⟨5, five_lt_nrSlots⟩ then ⟨0, 0, 5, ()⟩
    else if p = ⟨6, six_lt_nrSlots⟩ then ⟨0, -3, 5, ()⟩
    else ⟨1, 9, 15, ()⟩
  pProcReady := ⟨0, nrSlots_pos⟩

theorem schedule_exhausted : ∃ s', schedule 3 exhausted = .ok () s' ∧
    Chosen s'.procTable s'.pProcReady ∧
    (HasTicks exhausted.procTable → s'.procTable = exhausted.procTable) ∧
    (¬ HasTicks exhausted.procTable →
      s'.procTable = fun p => (exhausted.procTable p).refilled) :=
  schedule_spec exhausted ⟨⟨5, by decide⟩, by decide⟩ (by decide) (Nat.le_refl 3)

end Scheduler

end BazingaOS
