import BazingaOS.Lib.Slots

/-!
# Reference counts

Owners have rows of references to handles, and a handle that is in use stands for an object. Every
handle counts the references to it and every object counts the references to its handles, with some
more that no row has. The counts are kept when a reference is opened with a fresh handle, when one is
closed, and when an owner without references gets the row of another one.
-/

namespace BazingaOS

open Function (update)

section Counts

variable {P K H : Type} [Fintype P] [Fintype K] [DecidableEq H]

/-- The references to `a` in one row. -/
def rowCount (row : K → Option H) (a : H) : ℕ := ∑ k, if row k = some a then 1 else 0

/-- The references to `a` in all rows. -/
def refCount (ref : P → K → Option H) (a : H) : ℕ := ∑ p, rowCount (ref p) a

variable {ref : P → K → Option H} {row : K → Option H} {a : H} {p : P} {k : K}

theorem rowCount_eq_zero_iff : rowCount row a = 0 ↔ ∀ k, row k ≠ some a := by
  simp [rowCount]

theorem refCount_eq_zero_iff : refCount ref a = 0 ↔ ∀ p k, ref p k ≠ some a := by
  simp [refCount, rowCount_eq_zero_iff]

theorem refCount_pos (h : ref p k = some a) : 0 < refCount ref a := by
  by_contra hz
  exact refCount_eq_zero_iff.mp (by omega) p k h

theorem refCount_eq_card :
    refCount ref a = (Finset.univ.filter fun x : P × K => ref x.1 x.2 = some a).card := by
  rw [Finset.card_filter, Fintype.sum_prod_type]
  rfl

theorem rowCount_eq_countP [DecidableEq K] {l : List K} (hl : l.Nodup) (hall : ∀ k, k ∈ l) :
    rowCount row a = l.countP fun k => decide (row k = some a) := by
  have huniv : l.toFinset = Finset.univ := Finset.eq_univ_of_forall fun k => by
    rw [List.mem_toFinset]
    exact hall k
  rw [rowCount, ← Finset.card_filter, ← huniv]
  exact hl.card_eq_countP

theorem rowCount_updateAt [DecidableEq K] (row : K → Option H) (k : K) (o : Option H) (a : H) :
    rowCount (update row k o) a + (if row k = some a then 1 else 0) =
      rowCount row a + (if o = some a then 1 else 0) :=
  sum_update_add row k o fun o => if o = some a then 1 else 0

theorem refCount_updateRow [DecidableEq P] (ref : P → K → Option H) (p : P) (row : K → Option H)
    (a : H) : refCount (update ref p row) a + rowCount (ref p) a = refCount ref a + rowCount row a :=
  sum_update_add ref p row fun row => rowCount row a

theorem refCount_updateAt [DecidableEq P] [DecidableEq K] (ref : P → K → Option H) (p : P) (k : K)
    (o : Option H) (a : H) : refCount (update ref p (update (ref p) k o)) a +
      (if ref p k = some a then 1 else 0) = refCount ref a + (if o = some a then 1 else 0) := by
  have hall := refCount_updateRow ref p (update (ref p) k o) a
  have hrow := rowCount_updateAt (ref p) k o a
  omega

end Counts

section Shared

variable {P K H O : Type}

def objects (ref : P → K → Option H) (obj : H → Option O) (p : P) (k : K) : Option O :=
  (ref p k).bind obj

variable {ref : P → K → Option H} {obj : H → Option O} {row : K → Option H} {hs : H → ℤ}
  {os extra : O → ℤ} {p q : P} {k : K} {f : H} {n : O} {o : Option O}

theorem objects_updateRow [DecidableEq P] : objects (update ref p row) obj =
    update (objects ref obj) p fun k => (row k).bind obj := by
  funext q
  by_cases hq : q = p
  · subst hq
    funext k
    simp [objects]
  · funext k
    simp [objects, hq]

theorem objects_update [DecidableEq P] [DecidableEq K] (o : Option H) :
    objects (update ref p (update (ref p) k o)) obj =
      update (objects ref obj) p (update (objects ref obj p) k (o.bind obj)) := by
  rw [objects_updateRow]
  congr 1
  funext j
  by_cases hj : j = k
  · subst hj
    simp
  · simp [objects, hj]

theorem objects_of_unreferenced [DecidableEq H] (h : ∀ p k, ref p k ≠ some f) :
    objects ref (update obj f o) = objects ref obj := by
  funext p k
  cases hr : ref p k with
  | none => simp [objects, hr]
  | some g =>
    have hg : g ≠ f := by
      rintro rfl
      exact h p k hr
    simp [objects, hr, hg]

variable [Fintype P] [Fintype K] [DecidableEq H] [DecidableEq O]

/-- `hs` counts the references to the handles and `os` those to the objects, of which `extra` are in
no row. A handle is in use while there is a reference to it. -/
structure Counted (ref : P → K → Option H) (obj : H → Option O) (hs : H → ℤ) (os : O → ℤ)
    (extra : O → ℤ) : Prop where
  handle : ∀ f, hs f = refCount ref f
  free : ∀ f, obj f = none ↔ refCount ref f = 0
  object : ∀ n, os n = refCount (objects ref obj) n + extra n

namespace Counted

theorem os_pos (h : Counted ref obj hs os extra) (hextra : 0 ≤ extra n) (hf : ref p k = some f)
    (hn : obj f = some n) : 0 < os n := by
  have hobj : objects ref obj p k = some n := by simp [objects, hf, hn]
  have hpos := refCount_pos hobj
  have hcount := h.object n
  omega

theorem opens [DecidableEq P] [DecidableEq K] (h : Counted ref obj hs os extra)
    (hk : ref p k = none) (hf : obj f = none) :
    Counted (update ref p (update (ref p) k (some f))) (update obj f (some n)) (update hs f 1)
      (update os n (os n + 1)) extra := by
  have hnone := (h.free f).mp hf
  have hunref := refCount_eq_zero_iff.mp hnone
  have hhandle : ∀ g, refCount (update ref p (update (ref p) k (some f))) g =
      refCount ref g + if f = g then 1 else 0 := by
    intro g
    have hcount := refCount_updateAt ref p k (some f) g
    rw [hk] at hcount
    simpa using hcount
  have hobject : ∀ m, refCount (objects (update ref p (update (ref p) k (some f)))
      (update obj f (some n))) m = refCount (objects ref obj) m + if n = m then 1 else 0 := by
    intro m
    have hcount := refCount_updateAt (objects ref obj) p k (some n) m
    have hnew : objects (update ref p (update (ref p) k (some f))) (update obj f (some n)) =
        update (objects ref obj) p (update (objects ref obj p) k (some n)) := by
      rw [objects_update, objects_of_unreferenced hunref]
      simp
    have hold : objects ref obj p k = none := by simp [objects, hk]
    rw [hnew]
    rw [hold] at hcount
    simpa using hcount
  constructor
  · intro g
    have hg := h.handle g
    rw [hhandle]
    refine update_cases (P := fun c : ℤ => c = _) (fun heq => ?_) fun hne => ?_
    · subst heq
      simp [hnone]
    · simp [hg, Ne.symm hne]
  · intro g
    rw [hhandle]
    refine update_cases (P := fun c : Option O => c = none ↔ _) (fun heq => ?_) fun hne => ?_
    · simp [heq]
    · simp [h.free g, Ne.symm hne]
  · intro m
    have hm := h.object m
    rw [hobject]
    refine update_cases (P := fun c : ℤ => c = _) (fun heq => ?_) fun hne => ?_
    · subst heq
      simp only [if_true]
      omega
    · rw [if_neg (Ne.symm hne)]
      omega

theorem closes [DecidableEq P] [DecidableEq K] (h : Counted ref obj hs os extra)
    (hk : ref p k = some f) (hf : obj f = some n) :
    Counted (update ref p (update (ref p) k none))
      (update obj f (if hs f - 1 = 0 then none else obj f)) (update hs f (hs f - 1))
      (update os n (os n - 1)) extra := by
  have hhandle : ∀ g, refCount (update ref p (update (ref p) k none)) g +
      (if f = g then 1 else 0) = refCount ref g := by
    intro g
    have hcount := refCount_updateAt ref p k none g
    rw [hk] at hcount
    simpa using hcount
  have hsf := h.handle f
  have hlast : hs f - 1 = 0 ↔ refCount (update ref p (update (ref p) k none)) f = 0 := by
    have hcount := hhandle f
    rw [if_pos rfl] at hcount
    omega
  have hobject : ∀ m, refCount (objects (update ref p (update (ref p) k none))
      (update obj f (if hs f - 1 = 0 then none else obj f))) m + (if n = m then 1 else 0) =
        refCount (objects ref obj) m := by
    intro m
    have hcount := refCount_updateAt (objects ref obj) p k none m
    have hold : objects ref obj p k = some n := by simp [objects, hk, hf]
    have hnew : objects (update ref p (update (ref p) k none))
        (update obj f (if hs f - 1 = 0 then none else obj f)) =
          update (objects ref obj) p (update (objects ref obj p) k none) := by
      by_cases hz : hs f - 1 = 0
      · rw [objects_of_unreferenced (refCount_eq_zero_iff.mp (hlast.mp hz)), objects_update]
        rfl
      · rw [if_neg hz, Function.update_eq_self, objects_update]
        rfl
    rw [hnew]
    rw [hold] at hcount
    simpa using hcount
  constructor
  · intro g
    have hg := h.handle g
    have hcount := hhandle g
    refine update_cases (P := fun c : ℤ => c = _) (fun heq => ?_) fun hne => ?_
    · subst heq
      rw [if_pos rfl] at hcount
      omega
    · rw [if_neg (Ne.symm hne)] at hcount
      omega
  · intro g
    have hcount := hhandle g
    refine update_cases (P := fun c : Option O => c = none ↔ _) (fun heq => ?_) fun hne => ?_
    · subst heq
      rw [← hlast, hf]
      simp
    · rw [if_neg (Ne.symm hne)] at hcount
      rw [h.free g]
      omega
  · intro m
    have hm := h.object m
    have hcount := hobject m
    refine update_cases (P := fun c : ℤ => c = _) (fun heq => ?_) fun hne => ?_
    · subst heq
      rw [if_pos rfl] at hcount
      omega
    · rw [if_neg (Ne.symm hne)] at hcount
      omega

theorem copies [DecidableEq P] (h : Counted ref obj hs os extra) (hq : ∀ k, ref q k = none) :
    Counted (update ref q (ref p)) obj (fun f => hs f + rowCount (ref p) f)
      (fun n => os n + rowCount (fun k => (ref p k).bind obj) n) extra := by
  have hhandle : ∀ g, refCount (update ref q (ref p)) g = refCount ref g + rowCount (ref p) g := by
    intro g
    have hcount := refCount_updateRow ref q (ref p) g
    rw [rowCount_eq_zero_iff.mpr (fun k => by simp [hq k])] at hcount
    exact hcount
  constructor
  · intro g
    rw [hhandle, h.handle g]
    push_cast
    rfl
  · intro g
    rw [hhandle, h.free g]
    constructor
    · intro hz
      have hnone := refCount_eq_zero_iff.mp hz p
      rw [hz, rowCount_eq_zero_iff.mpr hnone]
    · omega
  · intro m
    have hcount := refCount_updateRow (objects ref obj) q
      (fun k => (ref p k).bind obj) m
    have hrow : rowCount (objects ref obj q) m = 0 :=
      rowCount_eq_zero_iff.mpr fun k => by simp [objects, hq k]
    rw [hrow] at hcount
    rw [objects_updateRow, h.object m]
    omega

end Counted

end Shared

end BazingaOS
