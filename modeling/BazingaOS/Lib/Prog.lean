import Mathlib

/-!
# Stateful programs that can stop

A program of type `Prog σ α` transforms a state and either returns a value or stops the machine
for one of four reasons. The state in which it stopped is kept, so an invariant can also be
stated of a machine that has stopped. `wp` is the weakest precondition of a program for a normal
and a stopping postcondition.
-/

namespace BazingaOS

/-- Why a machine stops: a failed assertion, a panic, a loop that never ends, or an access
whose effect the language leaves undefined. -/
inductive Stop where
  | assertion
  | panic
  | hang
  | undefined
deriving DecidableEq, Repr

inductive Result (σ α : Type) where
  | ok (a : α) (s : σ)
  | stop (why : Stop) (s : σ)
deriving DecidableEq, Repr

def Result.state {σ α : Type} : Result σ α → σ
  | .ok _ s => s
  | .stop _ s => s

def Result.isOk {σ α : Type} : Result σ α → Bool
  | .ok _ _ => true
  | .stop _ _ => false

def Result.stopOf {σ α : Type} : Result σ α → Option Stop
  | .ok _ _ => none
  | .stop w _ => some w

theorem Result.eq_stop_of_stopOf {σ α : Type} {r : Result σ α} {w : Stop} (h : r.stopOf = some w) :
    ∃ s, r = .stop w s := by
  cases r with
  | ok _ _ => cases h
  | stop w' s =>
    cases h
    exact ⟨s, rfl⟩

def Result.valueOf {σ α : Type} : Result σ α → Option α
  | .ok a _ => some a
  | .stop _ _ => none

theorem Result.eq_ok_of_valueOf {σ α : Type} {r : Result σ α} {a : α} (h : r.valueOf = some a) :
    r = .ok a r.state := by
  cases r with
  | ok _ s =>
    cases h
    rfl
  | stop _ _ => cases h

theorem Result.eq_ok_of_isOk {σ : Type} {r : Result σ Unit} (h : r.isOk = true) :
    r = .ok () r.state := by
  cases r with
  | ok _ s => rfl
  | stop w s => cases h

def Prog (σ α : Type) := σ → Result σ α

namespace Prog

variable {σ α β : Type}

protected def pure (a : α) : Prog σ α := fun s => .ok a s

protected def bind (p : Prog σ α) (f : α → Prog σ β) : Prog σ β := fun s =>
  match p s with
  | .ok a s' => f a s'
  | .stop w s' => .stop w s'

instance : Monad (Prog σ) where
  pure := Prog.pure
  bind := Prog.bind

theorem bind_of_ok {p : Prog σ α} {f : α → Prog σ β} {a : α} {s s' : σ} (h : p s = .ok a s') :
    (p >>= f) s = f a s' := by
  change Prog.bind p f s = _
  rw [Prog.bind, h]

theorem ok_of_bind_pure {p : Prog σ α} {g : α → β} {b : β} {s s' : σ}
    (h : (p >>= fun a => pure (g a)) s = .ok b s') : ∃ a, p s = .ok a s' ∧ b = g a := by
  change Prog.bind p _ s = _ at h
  unfold Prog.bind at h
  cases hp : p s with
  | ok a t =>
    rw [hp] at h
    cases h
    exact ⟨a, rfl, rfl⟩
  | stop w t =>
    rw [hp] at h
    cases h

/-- Run a program on a part of the state. -/
def zoom {τ : Type} (view : σ → τ) (put : σ → τ → σ) (p : Prog τ α) : Prog σ α := fun s =>
  match p (view s) with
  | .ok a t => .ok a (put s t)
  | .stop w t => .stop w (put s t)

theorem zoom_of_ok {τ : Type} {view : σ → τ} {put : σ → τ → σ} {p : Prog τ α} {a : α} {s : σ}
    {t : τ} (h : p (view s) = .ok a t) : zoom view put p s = .ok a (put s t) := by
  rw [zoom, h]

theorem zoom_of_stop {τ : Type} {view : σ → τ} {put : σ → τ → σ} {p : Prog τ α} {w : Stop} {s : σ}
    {t : τ} (h : p (view s) = .stop w t) : zoom view put p s = .stop w (put s t) := by
  rw [zoom, h]

def get : Prog σ σ := fun s => .ok s s

def modify (f : σ → σ) : Prog σ Unit := fun s => .ok () (f s)

def halt (w : Stop) : Prog σ α := fun s => .stop w s

/-- The source's `assert`: a false condition stops the machine. -/
def check (b : Prop) [Decidable b] : Prog σ Unit :=
  if b then pure () else halt .assertion

/-- An `if` without `else`. -/
def when (b : Prop) [Decidable b] (p : Prog σ Unit) : Prog σ Unit :=
  if b then p else pure ()

/-- Every normal end satisfies `Q` and every stop satisfies `E`. -/
def wp (p : Prog σ α) (Q : α → σ → Prop) (E : Stop → σ → Prop) (s : σ) : Prop :=
  match p s with
  | .ok a s' => Q a s'
  | .stop w s' => E w s'

variable {Q : α → σ → Prop} {E : Stop → σ → Prop} {s : σ}

@[simp] theorem wp_pure (a : α) : wp (pure a : Prog σ α) Q E s ↔ Q a s := Iff.rfl

@[simp] theorem wp_bind (p : Prog σ β) (f : β → Prog σ α) :
    wp (p >>= f) Q E s ↔ wp p (fun b s' => wp (f b) Q E s') E s := by
  change wp (Prog.bind p f) Q E s ↔ _
  unfold wp Prog.bind
  cases p s <;> rfl

@[simp] theorem wp_get {Q : σ → σ → Prop} : wp (get : Prog σ σ) Q E s ↔ Q s s := Iff.rfl

@[simp] theorem wp_modify {Q : Unit → σ → Prop} (f : σ → σ) :
    wp (modify f) Q E s ↔ Q () (f s) := Iff.rfl

@[simp] theorem wp_halt (w : Stop) : wp (halt w : Prog σ α) Q E s ↔ E w s := Iff.rfl

@[simp] theorem wp_check {Q : Unit → σ → Prop} (b : Prop) [Decidable b] :
    wp (check b) Q E s ↔ (b → Q () s) ∧ (¬ b → E .assertion s) := by
  by_cases h : b <;> simp [check, h]

@[simp] theorem wp_ite (c : Prop) [Decidable c] (p q : Prog σ α) :
    wp (if c then p else q) Q E s ↔ (c → wp p Q E s) ∧ (¬ c → wp q Q E s) := by
  by_cases h : c <;> simp [h]

@[simp] theorem wp_when {Q : Unit → σ → Prop} (b : Prop) [Decidable b] (p : Prog σ Unit) :
    wp (when b p) Q E s ↔ (b → wp p Q E s) ∧ (¬ b → Q () s) := by
  rw [when, wp_ite, wp_pure]

theorem wp_mono {p : Prog σ α} {Q' : α → σ → Prop} {E' : Stop → σ → Prop}
    (h : wp p Q E s) (hQ : ∀ a s', Q a s' → Q' a s') (hE : ∀ w s', E w s' → E' w s') :
    wp p Q' E' s := by
  unfold wp at h ⊢
  cases hp : p s with
  | ok a s' => rw [hp] at h; exact hQ a s' h
  | stop w s' => rw [hp] at h; exact hE w s' h

theorem wp_and {p : Prog σ α} {Q' : α → σ → Prop} {E' : Stop → σ → Prop} (h : wp p Q E s)
    (h' : wp p Q' E' s) :
    wp p (fun a s' => Q a s' ∧ Q' a s') (fun w s' => E w s' ∧ E' w s') s := by
  unfold wp at h h' ⊢
  cases hp : p s with
  | ok a s' =>
    rw [hp] at h h'
    exact ⟨h, h'⟩
  | stop w s' =>
    rw [hp] at h h'
    exact ⟨h, h'⟩

theorem wp_ok {p : Prog σ α} {a : α} {s' : σ} (h : wp p Q E s) (hp : p s = .ok a s') :
    Q a s' := by
  unfold wp at h
  rw [hp] at h
  exact h

theorem wp_of_run_eq {p q : Prog σ α} {s' : σ} (h : p s = q s') : wp p Q E s ↔ wp q Q E s' := by
  unfold wp
  rw [h]

theorem wp_ok_iff {p : Prog σ α} {a : α} {s' : σ} :
    wp p (fun b t => a = b ∧ s' = t) (fun _ _ => False) s ↔ p s = .ok a s' := by
  unfold wp
  cases p s with
  | ok b t =>
    simp only [Result.ok.injEq]
    exact and_congr eq_comm eq_comm
  | stop w t => simp

theorem wp_stop {p : Prog σ α} {w : Stop} {s' : σ} (h : wp p Q E s) (hp : p s = .stop w s') :
    E w s' := by
  unfold wp at h
  rw [hp] at h
  exact h

theorem wp_true (p : Prog σ α) : wp p (fun _ _ => True) (fun _ _ => True) s := by
  unfold wp
  cases p s <;> trivial

/-- What is only said of normal ends is said of the last part of a program. -/
theorem wp_last {p : Prog σ β} {f : β → Prog σ α} (h : ∀ b s', wp (f b) Q (fun _ _ => True) s') :
    wp (p >>= f) Q (fun _ _ => True) s := by
  rw [wp_bind]
  exact wp_mono (wp_true p) (fun b s' _ => h b s') fun _ _ _ => trivial

theorem isOk_of_wp {p : Prog σ α} (h : wp p Q (fun _ _ => False) s) : (p s).isOk = true := by
  unfold wp at h
  cases hp : p s with
  | ok _ _ => rfl
  | stop _ _ =>
    rw [hp] at h
    exact h.elim

theorem exists_ok_of_wp {p : Prog σ α} (h : wp p Q (fun _ _ => False) s) :
    ∃ a s', p s = .ok a s' ∧ Q a s' := by
  unfold wp at h
  cases hp : p s with
  | ok a s' =>
    rw [hp] at h
    exact ⟨a, s', rfl, h⟩
  | stop w s' =>
    rw [hp] at h
    exact h.elim

/-- What `wp` says of the state in which a program ends, whichever way it ends. -/
theorem wp_state {p : Prog σ α} {I : σ → Prop} (h : wp p (fun _ => I) (fun _ => I) s) :
    I (p s).state := by
  unfold wp at h
  cases hp : p s <;> rw [hp] at h <;> exact h

/-- `p` keeps the invariant `I`, whichever way it ends. -/
def Keeps (I : σ → Prop) (p : Prog σ α) : Prop := ∀ s, I s → wp p (fun _ => I) (fun _ => I) s

section Keeps

variable {I : σ → Prop}

theorem keeps_pure (a : α) : Keeps I (pure a : Prog σ α) := fun _ h => h

theorem keeps_get : Keeps I (get : Prog σ σ) := fun _ h => h

theorem keeps_halt (w : Stop) : Keeps I (halt w : Prog σ α) := fun _ h => h

theorem keeps_modify {f : σ → σ} (hf : ∀ s, I s → I (f s)) : Keeps I (modify f) := hf

theorem keeps_check (b : Prop) [Decidable b] : Keeps I (check b : Prog σ Unit) := by
  intro s h
  simp [h]

theorem keeps_bind {p : Prog σ β} {f : β → Prog σ α} (hp : Keeps I p) (hf : ∀ b, Keeps I (f b)) :
    Keeps I (p >>= f) := by
  intro s h
  rw [wp_bind]
  exact wp_mono (hp s h) (fun b s' h' => hf b s' h') (fun _ _ h' => h')

theorem keeps_ite {c : Prop} [Decidable c] {p q : Prog σ α} (hp : c → Keeps I p)
    (hq : ¬ c → Keeps I q) : Keeps I (if c then p else q) := by
  by_cases h : c
  · rw [if_pos h]
    exact hp h
  · rw [if_neg h]
    exact hq h

theorem keeps_when {c : Prop} [Decidable c] {p : Prog σ Unit} (hp : Keeps I p) :
    Keeps I (when c p) :=
  keeps_ite (fun _ => hp) (fun _ => keeps_pure _)

end Keeps

end Prog

end BazingaOS
