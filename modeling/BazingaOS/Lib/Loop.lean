import BazingaOS.Lib.Prog

/-!
# Counting loops and frames

`scan body n i` is the loop `for (j = i; j < i + n; j++)` whose body may end it early with a
value, `loop` the same without an early end, and `iter` the same with variables that the rounds
hand on and an early end. The rules take an invariant that may name the counter. `whileLoop` is a
loop with a condition, cut off after a number of rounds; its rule asks for a variant. `KeepsView` is
the frame rule: the programs that leave one part of the state alone are closed under everything a
program is built from.
-/

namespace BazingaOS

namespace Prog

variable {σ α β : Type}

def scan (body : Nat → Prog σ (Option α)) : Nat → Nat → Prog σ (Option α)
  | 0, _ => pure none
  | n + 1, i => do
    match ← body i with
    | some a => pure (some a)
    | none => scan body n (i + 1)

def loop (body : Nat → Prog σ Unit) : Nat → Nat → Prog σ Unit
  | 0, _ => pure ()
  | n + 1, i => do
    body i
    loop body n (i + 1)

def iter (body : Nat → β → Prog σ (ForInStep β)) : Nat → Nat → β → Prog σ β
  | 0, _, b => pure b
  | n + 1, i, b => do
    match ← body i b with
    | .done b => pure b
    | .yield b => iter body n (i + 1) b

/-- A loop that has not ended after `fuel` rounds counts as one that never ends. -/
def whileLoop (c : σ → Prop) [DecidablePred c] (body : Prog σ Unit) : Nat → Prog σ Unit
  | 0 => halt .hang
  | fuel + 1 => do
    if c (← get) then
      body
      whileLoop c body fuel
    else pure ()

variable {E : Stop → σ → Prop} {s : σ}

/-- `I j` holds in front of round `j`; an early end satisfies `Q`. -/
theorem wp_scan {body : Nat → Prog σ (Option α)} {Q : Option α → σ → Prop} {I : Nat → σ → Prop}
    {n i : Nat} (hs : I i s)
    (hbody : ∀ j s, i ≤ j → j < i + n → I j s →
      wp (body j) (fun r s' => if r = none then I (j + 1) s' else Q r s') E s)
    (hend : ∀ s, I (i + n) s → Q none s) : wp (scan body n i) Q E s := by
  induction n generalizing i s with
  | zero => exact hend s hs
  | succ n ih =>
    simp only [scan, wp_bind]
    apply wp_mono (hbody i s (Nat.le_refl i) (by omega) hs)
    · intro r s' hr
      cases r with
      | some a =>
        rw [if_neg (by simp)] at hr
        exact hr
      | none =>
        rw [if_pos rfl] at hr
        apply ih hr
        · intro j u hj hjn hI
          exact hbody j u (by omega) (by omega) hI
        · intro u hI
          have he : i + 1 + n = i + (n + 1) := by omega
          exact hend u (he ▸ hI)
    · intro _ _ hE
      exact hE

theorem wp_loop {body : Nat → Prog σ Unit} {Q : Unit → σ → Prop} {I : Nat → σ → Prop}
    {n i : Nat} (hs : I i s)
    (hbody : ∀ j s, i ≤ j → j < i + n → I j s → wp (body j) (fun _ => I (j + 1)) E s)
    (hend : ∀ s, I (i + n) s → Q () s) : wp (loop body n i) Q E s := by
  induction n generalizing i s with
  | zero => exact hend s hs
  | succ n ih =>
    simp only [loop, wp_bind]
    apply wp_mono (hbody i s (Nat.le_refl i) (by omega) hs)
    · intro _ s' hI
      apply ih hI
      · intro j u hj hjn hI
        exact hbody j u (by omega) (by omega) hI
      · intro u hI
        have he : i + 1 + n = i + (n + 1) := by omega
        exact hend u (he ▸ hI)
    · intro _ _ hE
      exact hE

theorem wp_iter {body : Nat → β → Prog σ (ForInStep β)} {Q : β → σ → Prop}
    {I : Nat → β → σ → Prop} {n i : Nat} {b : β} (hs : I i b s)
    (hbody : ∀ j b s, i ≤ j → j < i + n → I j b s →
      wp (body j b) (fun r s' => match r with | .done b => Q b s' | .yield b => I (j + 1) b s') E s)
    (hend : ∀ b s, I (i + n) b s → Q b s) : wp (iter body n i b) Q E s := by
  induction n generalizing i b s with
  | zero => exact hend b s hs
  | succ n ih =>
    simp only [iter, wp_bind]
    apply wp_mono (hbody i b s (Nat.le_refl i) (by omega) hs)
    · intro r s' hr
      cases r with
      | done b => exact hr
      | yield b =>
        apply ih hr
        · intro j c u hj hjn hI
          exact hbody j c u (by omega) (by omega) hI
        · intro c u hI
          have he : i + 1 + n = i + (n + 1) := by omega
          exact hend c u (he ▸ hI)
    · intro _ _ hE
      exact hE

/-- `m` bounds the number of rounds that are still to come. -/
theorem wp_whileLoop {c : σ → Prop} [DecidablePred c] {body : Prog σ Unit} {Q : Unit → σ → Prop}
    {I : σ → Prop} {m : σ → Nat} {fuel : Nat} (hs : I s) (hfuel : m s < fuel)
    (hbody : ∀ s, I s → c s → wp body (fun _ s' => I s' ∧ m s' < m s) E s)
    (hend : ∀ s, I s → ¬ c s → Q () s) : wp (whileLoop c body fuel) Q E s := by
  induction fuel generalizing s with
  | zero => omega
  | succ fuel ih =>
    simp only [whileLoop, wp_bind, wp_get, wp_ite, wp_pure]
    refine ⟨fun hc => ?_, hend s hs⟩
    apply wp_mono (hbody s hs hc)
    · rintro _ s' ⟨hI, hlt⟩
      exact ih hI (by omega)
    · intro _ _ hE
      exact hE

theorem wp_whileLoop_of_end {c : σ → Prop} [DecidablePred c] {body : Prog σ Unit}
    {Q : Unit → σ → Prop} {I : σ → Prop} {fuel : Nat} (hs : I s)
    (hbody : ∀ s, I s → c s → wp body (fun _ => I) (fun _ _ => True) s)
    (hend : ∀ s, I s → ¬ c s → Q () s) : wp (whileLoop c body fuel) Q (fun _ _ => True) s := by
  induction fuel generalizing s with
  | zero => trivial
  | succ fuel ih =>
    simp only [whileLoop, wp_bind, wp_get, wp_ite, wp_pure]
    refine ⟨fun hc => ?_, hend s hs⟩
    apply wp_mono (hbody s hs hc)
    · intro _ s' hI
      exact ih hI
    · intro _ _ hE
      exact hE

theorem keeps_scan {I : σ → Prop} {body : Nat → Prog σ (Option α)} (h : ∀ j, Keeps I (body j))
    (n i : Nat) : Keeps I (scan body n i) := by
  induction n generalizing i with
  | zero => exact keeps_pure _
  | succ n ih =>
    apply keeps_bind (h i)
    intro r
    cases r with
    | some a => exact keeps_pure _
    | none => exact ih (i + 1)

theorem keeps_loop {I : σ → Prop} {body : Nat → Prog σ Unit} (h : ∀ j, Keeps I (body j))
    (n i : Nat) : Keeps I (loop body n i) := by
  induction n generalizing i with
  | zero => exact keeps_pure _
  | succ n ih => exact keeps_bind (h i) fun _ => ih (i + 1)

theorem keeps_iter {I : σ → Prop} {body : Nat → β → Prog σ (ForInStep β)}
    (h : ∀ j b, Keeps I (body j b)) (n i : Nat) (b : β) : Keeps I (iter body n i b) := by
  induction n generalizing i b with
  | zero => exact keeps_pure _
  | succ n ih =>
    apply keeps_bind (h i b)
    intro r
    cases r with
    | done b => exact keeps_pure _
    | yield b => exact ih (i + 1) b

-- the rules above are all that a proof uses of a loop
attribute [irreducible] scan loop iter whileLoop

/-- A program that leaves the part `v` of the state alone, whichever way it ends. -/
structure KeepsView {ν : Type} (v : σ → ν) (p : Prog σ α) : Prop where
  keeps : ∀ r, Keeps (fun s => v s = r) p

namespace KeepsView

variable {ν : Type} {v : σ → ν}

theorem pure (a : α) : KeepsView v (Pure.pure a : Prog σ α) := ⟨fun _ => keeps_pure a⟩

theorem get : KeepsView v (Prog.get : Prog σ σ) := ⟨fun _ => keeps_get⟩

theorem halt (w : Stop) : KeepsView v (Prog.halt w : Prog σ α) := ⟨fun _ => keeps_halt w⟩

theorem check (b : Prop) [Decidable b] : KeepsView v (Prog.check b : Prog σ Unit) :=
  ⟨fun _ => keeps_check b⟩

theorem modify {f : σ → σ} (h : ∀ s, v (f s) = v s) : KeepsView v (Prog.modify f) := by
  constructor
  intro r
  apply keeps_modify
  intro s hs
  rw [h s, hs]

theorem bind {p : Prog σ α} {f : α → Prog σ β} (hp : KeepsView v p)
    (hf : ∀ a, KeepsView v (f a)) : KeepsView v (p >>= f) :=
  ⟨fun r => keeps_bind (hp.keeps r) fun a => (hf a).keeps r⟩

theorem ite {c : Prop} [Decidable c] {p q : Prog σ α} (hp : KeepsView v p)
    (hq : KeepsView v q) : KeepsView v (if c then p else q) :=
  ⟨fun r => keeps_ite (fun _ => hp.keeps r) (fun _ => hq.keeps r)⟩

theorem when {c : Prop} [Decidable c] {p : Prog σ Unit} (hp : KeepsView v p) :
    KeepsView v (Prog.when c p) := ⟨fun r => keeps_when (hp.keeps r)⟩

theorem scan {body : Nat → Prog σ (Option α)} (h : ∀ j, KeepsView v (body j)) (n i : Nat) :
    KeepsView v (Prog.scan body n i) :=
  ⟨fun r => keeps_scan (fun j => (h j).keeps r) n i⟩

theorem loop {body : Nat → Prog σ Unit} (h : ∀ j, KeepsView v (body j)) (n i : Nat) :
    KeepsView v (Prog.loop body n i) :=
  ⟨fun r => keeps_loop (fun j => (h j).keeps r) n i⟩

theorem iter {body : Nat → α → Prog σ (ForInStep α)} (h : ∀ j a, KeepsView v (body j a))
    (n i : Nat) (a : α) : KeepsView v (Prog.iter body n i a) :=
  ⟨fun r => keeps_iter (fun j a => (h j a).keeps r) n i a⟩

theorem wp {p : Prog σ α} (h : KeepsView v p) {s : σ} {Q : α → σ → Prop} {E : Stop → σ → Prop}
    (hQ : ∀ a s', v s' = v s → Q a s') (hE : ∀ w s', v s' = v s → E w s') :
    Prog.wp p Q E s :=
  wp_mono (h.keeps (v s) s rfl) (fun a s' => hQ a s') (fun w s' => hE w s')

end KeepsView

end Prog

end BazingaOS
