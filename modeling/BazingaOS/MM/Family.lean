import BazingaOS.MM.ForkExit

/-!
# Families of processes

`Family` is the life cycle that MM is to implement: a process is born by a fork, exits once, stays
a zombie until its parent collects its status in a `wait`, and only then may its slot be used
again.
-/

namespace BazingaOS

inductive Phase where
  | free
  | live
  | zombie (status : Int)
deriving DecidableEq, Repr

@[ext] structure Family where
  phase : Pid → Phase
  parent : Pid → Endpoint
  inWait : Pid → Bool

namespace Family

def setPhase (f : Family) (p : Pid) (v : Phase) : Family :=
  { f with phase := Function.update f.phase p v }

def setParent (f : Family) (p : Pid) (v : Endpoint) : Family :=
  { f with parent := Function.update f.parent p v }

def setWait (f : Family) (p : Pid) (b : Bool) : Family :=
  { f with inWait := Function.update f.inWait p b }

/-- Whether the parent of `p` has exited. -/
def orphan (f : Family) (p : Pid) : Bool :=
  match f.parent p with
  | .proc q => decide (f.phase q ≠ .live)
  | _ => false

/-- The effect of an event, or `none` if it may not happen. -/
def apply (f : Family) : MmEvent → Option Family
  | .fork p c =>
    if f.phase p = .live ∧ f.inWait p = false ∧ f.phase c = .free then
      some ((f.setPhase c .live).setParent c (.proc p))
    else none
  | .exit p status =>
    if f.phase p = .live ∧ f.inWait p = false then some (f.setPhase p (.zombie status)) else none
  | .wait p =>
    if f.phase p = .live ∧ f.inWait p = false then some (f.setWait p true) else none
  | .adopt p => if f.orphan p then some (f.setParent p (.proc init)) else none
  | .reap p status d =>
    if f.phase p = .zombie status ∧ f.parent p = .proc d ∧ f.inWait d then
      some ((f.setPhase p .free).setWait d false)
    else none
  | .noChild d _ _ => if f.inWait d then some (f.setWait d false) else none

def after (f : Family) (l : List MmEvent) : Option Family := l.foldlM apply f

theorem after_append {f g : Family} {l : List MmEvent} (h : f.after l = some g)
    (l' : List MmEvent) : f.after (l ++ l') = g.after l' := by
  unfold after at h ⊢
  rw [List.foldlM_append, h]
  rfl

end Family

/-- The invariant of a family. `orphans c d` allows `c` to have a parent `d` that is not live and
`due q` allows the parent of the zombie `q` to be in `wait`, as in the middle of a request. -/
structure FamilyInv (orphans : Pid → Pid → Prop) (due : Pid → Prop) (f : Family) : Prop where
  native : ∀ p : Pid, p.val < nrTasks + nrNativeProcs → f.phase p = .live ∧ f.parent p = .noTask
  live : ∀ p, f.inWait p = true → f.phase p = .live
  waiting : ∀ p q status, f.inWait p = true → f.parent q = .proc p → f.phase q = .zombie status →
    due q
  parent : ∀ p : Pid, nrTasks + nrNativeProcs ≤ p.val → f.phase p ≠ .free →
    ∃ q, f.parent p = .proc q ∧ (f.phase q = .live ∨ orphans p q)

namespace FamilyInv

variable {orphans : Pid → Pid → Prop} {due : Pid → Prop} {f : Family} {p i d : Pid} {status : Int}

theorem init_live (h : FamilyInv orphans due f) : f.phase init = .live :=
  (h.native init (by decide)).1

theorem mono (h : FamilyInv orphans due f) {orphans' : Pid → Pid → Prop} {due' : Pid → Prop}
    (ho : ∀ c d, f.parent c = .proc d → orphans c d → orphans' c d)
    (hd : ∀ q d s, due q → f.parent q = .proc d → f.inWait d = true → f.phase q = .zombie s →
      due' q) : FamilyInv orphans' due' f where
  native := h.native
  live := h.live
  waiting p q s hp hq hz := hd q p s (h.waiting p q s hp hq hz) hq hp hz
  parent p hp hf := by
    obtain ⟨q, hq, hlive | hor⟩ := h.parent p hp hf
    · exact ⟨q, hq, .inl hlive⟩
    · exact ⟨q, hq, .inr (ho p q hq hor)⟩

theorem exit (h : FamilyInv orphans due f) (hn : nrTasks + nrNativeProcs ≤ p.val)
    (hw : f.inWait p = false) (hp : f.phase p = .live) :
    FamilyInv (fun c d => orphans c d ∨ d = p) (fun q => due q ∨ q = p)
      (f.setPhase p (.zombie status)) where
  native q hq := by
    have hqp : q ≠ p := by
      rintro rfl
      omega
    simpa [Family.setPhase, hqp] using h.native q hq
  live q hq := by
    have hqp : q ≠ p := by
      rintro rfl
      change f.inWait q = true at hq
      rw [hw] at hq
      cases hq
    simpa [Family.setPhase, hqp] using h.live q hq
  waiting q c s hq hc hz := by
    by_cases hcp : c = p
    · exact .inr hcp
    · simp only [Family.setPhase, Function.update_of_ne hcp] at hz
      exact .inl (h.waiting q c s hq hc hz)
  parent c hc hz := by
    have hfree : f.phase c ≠ .free := by
      by_cases hcp : c = p
      · rw [hcp, hp]
        simp
      · simpa [Family.setPhase, hcp] using hz
    obtain ⟨q, hq, hlive⟩ := h.parent c hc hfree
    by_cases hqp : q = p
    · exact ⟨q, hq, .inr (.inr hqp)⟩
    · refine ⟨q, hq, ?_⟩
      rcases hlive with hlive | hor
      · exact .inl (by simpa [Family.setPhase, hqp] using hlive)
      · exact .inr (.inl hor)

theorem adopt (h : FamilyInv orphans due f) (hn : nrTasks + nrNativeProcs ≤ i.val) :
    FamilyInv (fun c d => orphans c d ∧ c ≠ i) (fun q => due q ∨ q = i)
      (f.setParent i (.proc init)) where
  native q hq := by
    have hqi : q ≠ i := by
      rintro rfl
      omega
    simpa [Family.setParent, hqi] using h.native q hq
  live := h.live
  waiting q c s hq hc hz := by
    by_cases hci : c = i
    · exact .inr hci
    · simp only [Family.setParent, Function.update_of_ne hci] at hc
      exact .inl (h.waiting q c s hq hc hz)
  parent c hc hz := by
    by_cases hci : c = i
    · subst hci
      exact ⟨init, by simp [Family.setParent], .inl h.init_live⟩
    · obtain ⟨q, hq, hlive⟩ := h.parent c hc hz
      refine ⟨q, by simpa [Family.setParent, hci] using hq, ?_⟩
      rcases hlive with hlive | hor
      · exact .inl hlive
      · exact .inr ⟨hor, hci⟩

theorem setWait_false (h : FamilyInv orphans due f) (d : Pid) :
    FamilyInv orphans due (f.setWait d false) := by
  have hle : ∀ q, (f.setWait d false).inWait q = true → f.inWait q = true := by
    intro q hq
    by_cases hqd : q = d
    · subst hqd
      simp [Family.setWait] at hq
    · simpa [Family.setWait, hqd] using hq
  exact ⟨h.native, fun q hq => h.live q (hle q hq),
    fun q c s hq => h.waiting q c s (hle q hq), h.parent⟩

theorem reap (h : FamilyInv orphans due f) (hz : f.phase i = .zombie status) (d : Pid) :
    FamilyInv orphans (fun q => due q ∧ q ≠ i) ((f.setPhase i .free).setWait d false) := by
  apply setWait_false
  have hphase : ∀ q, f.phase q = .live → (f.setPhase i .free).phase q = .live := by
    intro q hq
    have hqi : q ≠ i := by
      rintro rfl
      rw [hq] at hz
      cases hz
    simpa [Family.setPhase, hqi] using hq
  refine ⟨fun q hq => ?_, fun q hq => hphase q (h.live q hq), fun q c s hq hc hs => ?_,
    fun c hc hs => ?_⟩
  · exact ⟨hphase q (h.native q hq).1, (h.native q hq).2⟩
  · have hci : c ≠ i := by
      rintro rfl
      simp [Family.setPhase] at hs
    simp only [Family.setPhase, Function.update_of_ne hci] at hs
    exact ⟨h.waiting q c s hq hc hs, hci⟩
  · have hci : c ≠ i := by
      rintro rfl
      simp [Family.setPhase] at hs
    simp only [Family.setPhase, ne_eq, Function.update_of_ne hci] at hs
    obtain ⟨q, hq, hlive | hor⟩ := h.parent c hc hs
    · exact ⟨q, hq, .inl (hphase q hlive)⟩
    · exact ⟨q, hq, .inr hor⟩

theorem setWait_true (h : FamilyInv orphans due f) (hp : f.phase p = .live) :
    FamilyInv orphans (fun q => due q ∨ f.parent q = .proc p) (f.setWait p true) where
  native := h.native
  live q hq := by
    by_cases hqp : q = p
    · rw [hqp]
      exact hp
    · exact h.live q (by simpa [Family.setWait, hqp] using hq)
  waiting q c s hq hc hs := by
    by_cases hqp : q = p
    · exact .inr (hqp ▸ hc)
    · exact .inl (h.waiting q c s (by simpa [Family.setWait, hqp] using hq) hc hs)
  parent := h.parent

theorem fork (h : FamilyInv orphans due f) (hn : nrTasks + nrNativeProcs ≤ i.val)
    (hp : f.phase p = .live) (hi : f.phase i = .free) :
    FamilyInv orphans due ((f.setPhase i .live).setParent i (.proc p)) := by
  have hphase : ∀ q, f.phase q = .live → (f.setPhase i .live).phase q = .live := by
    intro q hq
    by_cases hqi : q = i
    · simp [Family.setPhase, hqi]
    · simpa [Family.setPhase, hqi] using hq
  refine ⟨fun q hq => ?_, fun q hq => hphase q (h.live q hq), fun q c s hq hc hs => ?_,
    fun c hc hs => ?_⟩
  · have hqi : q ≠ i := by
      rintro rfl
      omega
    exact ⟨hphase q (h.native q hq).1, by simpa [Family.setParent, Family.setPhase, hqi] using
      (h.native q hq).2⟩
  · have hci : c ≠ i := by
      rintro rfl
      simp [Family.setPhase, Family.setParent] at hs
    simp only [Family.setPhase, Family.setParent, Function.update_of_ne hci] at hs hc
    exact h.waiting q c s hq hc hs
  · by_cases hci : c = i
    · subst hci
      exact ⟨p, by simp [Family.setParent], .inl (hphase p hp)⟩
    · simp only [Family.setPhase, Family.setParent, ne_eq, Function.update_of_ne hci] at hs ⊢
      obtain ⟨q, hq, hlive | hor⟩ := h.parent c hc hs
      · exact ⟨q, hq, .inl (hphase q hlive)⟩
      · exact ⟨q, hq, .inr hor⟩

end FamilyInv

/-- What the exit of `p` leaves to the other processes. -/
structure Family.Frame (p : Pid) (f g : Family) : Prop where
  inWait : ∀ w, g.inWait w = true → f.inWait w = true
  live : ∀ q, q ≠ p → f.phase q = .live → g.phase q = .live
  parent : ∀ q w, w ≠ p → f.parent q = .proc w → g.parent q = .proc w

theorem Family.Frame.trans {p : Pid} {f g h : Family} (hfg : f.Frame p g) (hgh : g.Frame p h) :
    f.Frame p h where
  inWait w hw := hfg.inWait w (hgh.inWait w hw)
  live q hq hl := hgh.live q hq (hfg.live q hq hl)
  parent q w hw hq := hgh.parent q w hw (hfg.parent q w hw hq)

theorem Family.frame_reap (p : Pid) {f : Family} {i d : Pid} {status : Int}
    (hz : f.phase i = .zombie status ∨ i = p) :
    f.Frame p ((f.setPhase i .free).setWait d false) where
  inWait w hw := by
    by_cases hwd : w = d
    · simp [Family.setWait, hwd] at hw
    · simpa [Family.setWait, Family.setPhase, hwd] using hw
  live q hq hl := by
    have hqi : q ≠ i := by
      rintro rfl
      rcases hz with hz | hz
      · rw [hl] at hz
        cases hz
      · exact hq hz
    simpa [Family.setPhase, Family.setWait, hqi] using hl
  parent q w hw hq := hq

/-- `do_fork` finds no free slot, or starts a child in one. -/
def ForkResult (p : Pid) (f g : Family) : Prop :=
  g = f ∨ ∃ i, f.phase i = .free ∧ g = (f.setPhase i .live).setParent i (.proc p)

def MmEvent.slot : MmEvent → Option Pid
  | .fork _ c => some c
  | .exit p _ => some p
  | .reap p _ _ => some p
  | _ => none

section History

variable {f g : Family} {e : MmEvent} {p : Pid} {status : Int} {l : List MmEvent}

theorem Family.after_cons (h : f.after (e :: l) = some g) :
    ∃ f', f.apply e = some f' ∧ f'.after l = some g := by
  unfold Family.after at h ⊢
  rw [List.foldlM_cons] at h
  cases he : f.apply e with
  | none => simp [he] at h
  | some f' => exact ⟨f', rfl, by simpa [he] using h⟩

theorem Family.after_split {l₁ l₂ : List MmEvent} (h : f.after (l₁ ++ l₂) = some g) :
    ∃ f', f.after l₁ = some f' ∧ f'.after l₂ = some g := by
  unfold Family.after at h ⊢
  rw [List.foldlM_append] at h
  cases he : l₁.foldlM Family.apply f with
  | none => simp [he] at h
  | some f' => exact ⟨f', rfl, by simpa [he] using h⟩

theorem Family.apply_phase (h : f.apply e = some g) (he : e.slot ≠ some p) :
    g.phase p = f.phase p := by
  cases e with
  | fork q c =>
    simp only [Family.apply, Option.ite_none_right_eq_some, Option.some.injEq] at h
    have hpc : p ≠ c := fun hpc => he (by rw [hpc]; rfl)
    rw [← h.2]
    simp [Family.setPhase, Family.setParent, hpc]
  | exit q s =>
    simp only [Family.apply, Option.ite_none_right_eq_some, Option.some.injEq] at h
    have hpq : p ≠ q := fun hpq => he (by rw [hpq]; rfl)
    rw [← h.2]
    simp [Family.setPhase, hpq]
  | wait q =>
    simp only [Family.apply, Option.ite_none_right_eq_some, Option.some.injEq] at h
    rw [← h.2]
    rfl
  | adopt q =>
    simp only [Family.apply, Option.ite_none_right_eq_some, Option.some.injEq] at h
    rw [← h.2]
    rfl
  | reap q s d =>
    simp only [Family.apply, Option.ite_none_right_eq_some, Option.some.injEq] at h
    have hpq : p ≠ q := fun hpq => he (by rw [hpq]; rfl)
    rw [← h.2]
    simp [Family.setPhase, Family.setWait, hpq]
  | noChild q c s =>
    simp only [Family.apply, Option.ite_none_right_eq_some, Option.some.injEq] at h
    rw [← h.2]
    rfl

theorem Family.apply_zombie (h : f.apply e = some g) (he : e.slot = some p)
    (hp : f.phase p = .zombie status) : ∃ d, e = .reap p status d ∧ g.phase p = .free := by
  cases e with
  | fork q c =>
    simp only [Family.apply, Option.ite_none_right_eq_some] at h
    cases he
    rw [h.1.2.2] at hp
    cases hp
  | exit q s =>
    simp only [Family.apply, Option.ite_none_right_eq_some] at h
    cases he
    rw [h.1.1] at hp
    cases hp
  | reap q s d =>
    simp only [Family.apply, Option.ite_none_right_eq_some, Option.some.injEq] at h
    cases he
    rw [h.1.1] at hp
    cases hp
    refine ⟨d, rfl, ?_⟩
    rw [← h.2]
    simp [Family.setPhase, Family.setWait]
  | wait q => cases he
  | adopt q => cases he
  | noChild q c s => cases he

theorem Family.apply_free (h : f.apply e = some g) (he : e.slot = some p)
    (hp : f.phase p = .free) : ∃ q, e = .fork q p := by
  cases e with
  | fork q c =>
    cases he
    exact ⟨q, rfl⟩
  | exit q s =>
    simp only [Family.apply, Option.ite_none_right_eq_some] at h
    cases he
    rw [h.1.1] at hp
    cases hp
  | reap q s d =>
    simp only [Family.apply, Option.ite_none_right_eq_some] at h
    cases he
    rw [h.1.1] at hp
    cases hp
  | wait q => cases he
  | adopt q => cases he
  | noChild q c s => cases he

theorem Family.after_free (h : f.after l = some g) (hp : f.phase p = .free) :
    l.filter (·.slot = some p) = [] ∨
      ∃ q l', l.filter (·.slot = some p) = .fork q p :: l' := by
  induction l generalizing f with
  | nil => exact .inl rfl
  | cons e l ih =>
    obtain ⟨f', he, hl⟩ := Family.after_cons h
    by_cases hs : e.slot = some p
    · obtain ⟨q, rfl⟩ := Family.apply_free he hs hp
      exact .inr ⟨q, l.filter (·.slot = some p), by simp [hs]⟩
    · have ih' := ih hl ((Family.apply_phase he hs).trans hp)
      simpa [hs] using ih'

theorem Family.after_zombie (h : f.after l = some g) (hp : f.phase p = .zombie status) :
    (l.filter (·.slot = some p) = [] ∧ g.phase p = .zombie status) ∨
      ∃ d l', l.filter (·.slot = some p) = .reap p status d :: l' ∧
        (l' = [] ∨ ∃ q l'', l' = .fork q p :: l'') := by
  induction l generalizing f with
  | nil =>
    obtain rfl : f = g := Option.some.inj h
    exact .inl ⟨rfl, hp⟩
  | cons e l ih =>
    obtain ⟨f', he, hl⟩ := Family.after_cons h
    by_cases hs : e.slot = some p
    · obtain ⟨d, rfl, hfree⟩ := Family.apply_zombie he hs hp
      exact .inr ⟨d, l.filter (·.slot = some p), by simp [hs], Family.after_free hl hfree⟩
    · have ih' := ih hl ((Family.apply_phase he hs).trans hp)
      simpa [hs] using ih'

end History

end BazingaOS
