import BazingaOS.Lib.Prog

/-!
# Runs of labelled transition systems

A run is a finite sequence of labelled steps. `Machine` adds to a state the reason for which the
machine has stopped, if it has.
-/

namespace BazingaOS

variable {σ α : Type*}

/-- `Run step s l t`: the labels `l` lead from `s` to `t`. -/
inductive Run (step : σ → α → σ → Prop) (s : σ) : List α → σ → Prop
  | nil : Run step s [] s
  | snoc {l : List α} {t u : σ} {a : α} : Run step s l t → step t a u → Run step s (l ++ [a]) u

theorem Run.invariant {step : σ → α → σ → Prop} {I : σ → Prop} {s t : σ} {l : List α}
    (hr : Run step s l t) (hs : I s) (hstep : ∀ u a v, step u a v → I u → I v) : I t := by
  induction hr with
  | nil => exact hs
  | snoc _ h ih => exact hstep _ _ _ h ih

theorem Run.mono {step step' : σ → α → σ → Prop} {s t : σ} {l : List α} (hr : Run step s l t)
    (h : ∀ u a v, step u a v → step' u a v) : Run step' s l t := by
  induction hr with
  | nil => exact .nil
  | snoc _ hs ih => exact .snoc ih (h _ _ _ hs)

theorem Run.eq_of_nil {step : σ → α → σ → Prop} {s t : σ} {l : List α} (hr : Run step s l t)
    (hl : l = []) : t = s := by
  cases hr with
  | nil => rfl
  | snoc _ _ => simp at hl

theorem Run.exists_of_append {step : σ → α → σ → Prop} {s t : σ} {l l' : List α}
    (hr : Run step s (l ++ l') t) : ∃ u, Run step s l u := by
  induction l' using List.reverseRecOn generalizing t with
  | nil => exact ⟨t, by simpa using hr⟩
  | append_singleton l' a ih =>
    generalize hl : l ++ (l' ++ [a]) = labels at hr
    cases hr with
    | nil => simp at hl
    | @snoc l₀ u _ b hu _ =>
      rw [← List.append_assoc] at hl
      obtain ⟨rfl, -⟩ := List.append_inj' hl rfl
      exact ih hu

theorem Run.unique {step : σ → α → σ → Prop} {s t t' : σ} {l : List α}
    (hdet : ∀ u a v v', step u a v → step u a v' → v = v') (hr : Run step s l t)
    (hr' : Run step s l t') : t = t' := by
  induction hr generalizing t' with
  | nil => exact (hr'.eq_of_nil rfl).symm
  | @snoc l u t a _ hstep ih =>
    generalize hl : l ++ [a] = labels at hr'
    cases hr' with
    | nil => simp at hl
    | snoc hu' hstep' =>
      obtain ⟨rfl, hlast⟩ := List.append_inj' hl rfl
      obtain ⟨rfl, -⟩ := List.cons.inj hlast
      obtain rfl := ih hu'
      exact hdet _ _ _ _ hstep hstep'

theorem Run.last {step : σ → α → σ → Prop} {s t : σ} {l : List α} {a : α}
    (hr : Run step s (l ++ [a]) t) : ∃ u, Run step s l u ∧ step u a t := by
  generalize hl : l ++ [a] = labels at hr
  cases hr with
  | nil => simp at hl
  | snoc hu hstep =>
    obtain ⟨rfl, hlast⟩ := List.append_inj' hl rfl
    obtain ⟨rfl, -⟩ := List.cons.inj hlast
    exact ⟨_, hu, hstep⟩

/-- Where each step keeps `P` exactly when `A` holds in front of it, the states of a run all satisfy `P`
exactly when `A` holds in front of all its steps. -/
theorem Run.always_iff {step : σ → α → σ → Prop} {I P : σ → Prop} {A : σ → α → Prop} {s t : σ}
    {l : List α} (hdet : ∀ u a v v', step u a v → step u a v' → v = v') (hI : I s) (hP : P s)
    (hstep : ∀ u a v, step u a v → I u → I v ∧ (P u → (P v ↔ A u a))) (hr : Run step s l t) :
    (∀ l₁ l₂ u, l = l₁ ++ l₂ → Run step s l₁ u → P u) ↔
      ∀ l₁ a l₂ u, l = l₁ ++ a :: l₂ → Run step s l₁ u → A u a := by
  have hinv : ∀ l₁ u, Run step s l₁ u → I u := fun l₁ u hu =>
    hu.invariant hI fun u a v h hu => (hstep u a v h hu).1
  constructor
  · rintro hall l₁ a l₂ u rfl hu
    have hsplit : l₁ ++ a :: l₂ = (l₁ ++ [a]) ++ l₂ := by simp
    rw [hsplit] at hr
    obtain ⟨v, hv⟩ := hr.exists_of_append
    obtain ⟨u', hu', ha⟩ := hv.last
    obtain rfl := hu.unique hdet hu'
    exact ((hstep u a v ha (hinv l₁ u hu)).2 (hall l₁ _ u rfl hu)).mp (hall _ l₂ v hsplit hv)
  · intro hall l₁ l₂ u hl hu
    induction hu generalizing l₂ with
    | nil => exact hP
    | @snoc l₁ u v a hu ha ih =>
      have hsplit : l = l₁ ++ a :: l₂ := by simpa using hl
      exact ((hstep u a v ha (hinv l₁ u hu)).2 (ih _ hsplit)).mpr (hall l₁ a l₂ u hsplit hu)

/-- Either no step of a run starts in a state with `P`, or the run comes through such a state. -/
theorem Run.avoids_or_meets {step : σ → α → σ → Prop} (P : σ → Prop) {s t : σ} {l : List α}
    (hr : Run step s l t) :
    Run (fun u a v => step u a v ∧ ¬ P u) s l t ∨
      ∃ l₁ a l₂ u, l = l₁ ++ a :: l₂ ∧ Run step s l₁ u ∧ P u := by
  induction hr with
  | nil => exact Or.inl .nil
  | @snoc l u v a hu hstep ih =>
    rcases ih with havoid | ⟨l₁, b, l₂, w, hl, hw, hP⟩
    · by_cases hP : P u
      · exact Or.inr ⟨l, a, [], u, rfl, hu, hP⟩
      · exact Or.inl (.snoc havoid ⟨hstep, hP⟩)
    · exact Or.inr ⟨l₁, b, l₂ ++ [a], w, by simp [hl], hw, hP⟩

theorem Run.of_foldlM {step : σ → α → σ → Prop} {next : σ → α → Option σ}
    (hnext : ∀ s a t, next s a = some t → step s a t) {s t : σ} {l : List α}
    (h : l.foldlM next s = some t) : Run step s l t := by
  induction l using List.reverseRecOn generalizing t with
  | nil =>
    cases h
    exact .nil
  | append_singleton l a ih =>
    rw [List.foldlM_append] at h
    obtain ⟨u, hu, ha⟩ := Option.bind_eq_some_iff.mp h
    have hlast : next u a = some t := by simpa using ha
    exact .snoc (ih hu) (hnext u a t hlast)

structure Machine (σ : Type) where
  state : σ
  stopped : Option Stop := none

/-- Run a program on a machine that has not stopped. -/
def Machine.exec {σ : Type} (m : Machine σ) (p : Prog σ Unit) : Machine σ :=
  match p m.state with
  | .ok _ s => { state := s }
  | .stop w s => { state := s, stopped := some w }

theorem Machine.exec_state {σ : Type} (m : Machine σ) (p : Prog σ Unit) :
    (m.exec p).state = (p m.state).state := by
  unfold Machine.exec
  cases p m.state <;> rfl

theorem Machine.exec_of_wp {σ : Type} {m : Machine σ} {p : Prog σ Unit} {Q : Unit → σ → Prop}
    {E : Stop → σ → Prop} (h : Prog.wp p Q E m.state) :
    ((m.exec p).stopped = none ∧ Q () (m.exec p).state) ∨
      ∃ w, (m.exec p).stopped = some w ∧ E w (m.exec p).state := by
  unfold Prog.wp at h
  unfold Machine.exec
  cases hp : p m.state with
  | ok _ s =>
    rw [hp] at h
    exact .inl ⟨rfl, h⟩
  | stop w s =>
    rw [hp] at h
    exact .inr ⟨w, rfl, h⟩

end BazingaOS
