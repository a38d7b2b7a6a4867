import Mathlib

/-!
# Walks along a partial function

Chains of pointers without a visited set. A walk along an acyclic partial function on a finite
type ends before it has made as many steps as the type has elements.
-/

namespace BazingaOS

variable {P : Type*} {next next' : P → Option P} {p q r s d : P}

/-- One step along `next`. -/
def Follows (next : P → Option P) (p q : P) : Prop := next p = some q

/-- At least one step along `next` leads from `p` to `q`. -/
def Leads (next : P → Option P) : P → P → Prop := Relation.TransGen (Follows next)

def Acyclic (next : P → Option P) : Prop := ∀ p, ¬ Leads next p p

/-- `n` steps along `next`. -/
def walk (next : P → Option P) : Nat → P → Option P
  | 0, p => some p
  | n + 1, p => (next p).bind (walk next n)

theorem Leads.mono (h : ∀ p q, next' p = some q → next p = some q) (hl : Leads next' p q) :
    Leads next p q :=
  Relation.TransGen.mono h p q hl

theorem Acyclic.mono (hn : Acyclic next) (h : ∀ p q, next' p = some q → next p = some q) :
    Acyclic next' :=
  fun p hp => hn p (hp.mono h)

theorem leads_of_next (h : next p = some q) : Leads next p q := .single h

theorem not_leads_of_none (hp : next p = none) : ¬ Leads next p q := by
  intro hl
  obtain ⟨r, hr, -⟩ := Relation.TransGen.head'_iff.mp hl
  rw [Follows, hp] at hr
  cases hr

theorem leads_iff_of_ne (hp : next p = some r) (hr : r ≠ q) : Leads next p q ↔ Leads next r q := by
  constructor
  · intro hl
    obtain ⟨r', hr', hrest⟩ := Relation.TransGen.head'_iff.mp hl
    rw [Follows, hp] at hr'
    cases hr'
    rcases Relation.reflTransGen_iff_eq_or_transGen.mp hrest with he | hrest
    · exact absurd he.symm hr
    · exact hrest
  · exact fun hl => .head hp hl

theorem Acyclic.update [DecidableEq P] (hn : Acyclic next) (hs : next s = none) (hd : d ≠ s)
    (hl : ¬ Leads next d s) : Acyclic (Function.update next s (some d)) := by
  have hold : ∀ {p q}, Leads (Function.update next s (some d)) p q →
      Leads next p q ∨ Relation.ReflTransGen (Follows next) p s ∧
        Relation.ReflTransGen (Follows next) d q := by
    intro p q h
    induction h using Relation.TransGen.head_induction_on with
    | single h =>
      rename_i p
      by_cases hp : p = s
      · subst hp
        rw [Follows, Function.update_self] at h
        cases h
        exact .inr ⟨.refl, .refl⟩
      · rw [Follows, Function.update_of_ne hp] at h
        exact .inl (.single h)
    | head h hrest ih =>
      rename_i p r
      by_cases hp : p = s
      · subst hp
        rw [Follows, Function.update_self] at h
        cases h
        rcases ih with ih | ⟨-, ih⟩
        · exact .inr ⟨.refl, ih.to_reflTransGen⟩
        · exact .inr ⟨.refl, ih⟩
      · rw [Follows, Function.update_of_ne hp] at h
        rcases ih with ih | ⟨ih, ih'⟩
        · exact .inl (.head h ih)
        · exact .inr ⟨.head h ih, ih'⟩
  have hds : ¬ Relation.ReflTransGen (Follows next) d s := by
    intro h
    rcases Relation.reflTransGen_iff_eq_or_transGen.mp h with h | h
    · exact hd h.symm
    · exact hl h
  intro p hp
  rcases hold hp with hp | ⟨hps, hdp⟩
  · exact hn p hp
  · exact hds (hdp.trans hps)

theorem walk_add (m n : Nat) (p : P) : walk next (m + n) p = (walk next m p).bind (walk next n) := by
  induction m generalizing p with
  | zero => simp [walk]
  | succ m ih =>
    rw [Nat.succ_add]
    cases hp : next p with
    | none => simp [walk, hp]
    | some q => simp [walk, hp, ih]

theorem leads_of_walk {n : Nat} (h : walk next (n + 1) p = some q) : Leads next p q := by
  induction n generalizing p with
  | zero =>
    apply Relation.TransGen.single
    simpa [walk, Follows, Option.bind_eq_some_iff] using h
  | succ n ih =>
    obtain ⟨r, hr, hrest⟩ := Option.bind_eq_some_iff.mp h
    exact .head hr (ih hrest)

theorem Acyclic.walk_eq_none [Fintype P] (hn : Acyclic next) (p : P) :
    walk next (Fintype.card P) p = none := by
  by_contra hne
  obtain ⟨q, hq⟩ := Option.ne_none_iff_exists'.mp hne
  have hsome : ∀ i : Fin (Fintype.card P + 1), ∃ r, walk next i p = some r := by
    intro i
    have hi : Fintype.card P = i + (Fintype.card P - i) := by omega
    rw [hi, walk_add] at hq
    obtain ⟨r, hr, -⟩ := Option.bind_eq_some_iff.mp hq
    exact ⟨r, hr⟩
  choose f hf using hsome
  obtain ⟨i, j, hij, he⟩ := Fintype.exists_ne_map_eq_of_card_lt f (by simp)
  have hcycle : ∀ {i j : Fin (Fintype.card P + 1)}, i < j → f i = f j → False := by
    intro i j hlt he
    obtain ⟨n, hn'⟩ : ∃ n, (j : Nat) = i + (n + 1) := ⟨j - i - 1, by omega⟩
    have hj := hf j
    rw [hn', walk_add, hf i, Option.bind_some, ← he] at hj
    exact hn _ (leads_of_walk hj)
  rcases lt_or_gt_of_ne hij with hlt | hlt
  · exact hcycle hlt he
  · exact hcycle hlt he.symm

end BazingaOS
