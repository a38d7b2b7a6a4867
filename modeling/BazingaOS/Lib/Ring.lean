import BazingaOS.Lib.Run

/-!
# Ring buffers

A ring buffer of a capacity `cap` is a table with a position to write at, a position to read at and
a counter. `Holds` relates it to the list of what is in it, the oldest item first: an insertion
appends to the list while it is not full and drops the item otherwise, a removal takes the head.
A `RingTrace` keeps what came into a ring and what was taken out.
-/

namespace BazingaOS

structure Ring (α : Type*) where
  buf : Nat → α
  head : Nat
  tail : Nat
  count : Int

namespace Ring

variable {α : Type*} {cap : Nat} {r : Ring α} {l : List α} {x : α}

def next (cap i : Nat) : Nat := if i + 1 = cap then 0 else i + 1

def insert (cap : Nat) (x : α) (r : Ring α) : Ring α :=
  if r.count < cap then
    { buf := Function.update r.buf r.head x
      head := next cap r.head
      tail := r.tail
      count := r.count + 1 }
  else r

def front (r : Ring α) : α := r.buf r.tail

def remove (cap : Nat) (r : Ring α) : Ring α :=
  { r with tail := next cap r.tail, count := r.count - 1 }

structure Holds (cap : Nat) (r : Ring α) (l : List α) : Prop where
  head_lt : r.head < cap
  tail_lt : r.tail < cap
  count_eq : r.count = l.length
  length_le : l.length ≤ cap
  head_eq : r.head = (r.tail + l.length) % cap
  item : ∀ i (h : i < l.length), r.buf ((r.tail + i) % cap) = l[i]

theorem next_lt {i : Nat} (h : i < cap) : next cap i < cap := by
  unfold next
  split <;> omega

theorem next_mod (i j : Nat) : (next cap i + j) % cap = (i + (j + 1)) % cap := by
  unfold next
  split
  · next hi =>
    have hsum : i + (j + 1) = j + cap := by omega
    rw [hsum, Nat.add_mod_right, Nat.zero_add]
  · congr 1
    omega

theorem mod_ne {i n t : Nat} (hi : i < n) (hn : n < cap) : (t + i) % cap ≠ (t + n) % cap := by
  intro h
  have hdvd : cap ∣ (t + n) - (t + i) := (Nat.modEq_iff_dvd' (by omega)).mp h
  have hle := Nat.le_of_dvd (by omega) hdvd
  omega

theorem holds_nil (hhead : r.head < cap) (htail : r.tail = r.head) (hcount : r.count = 0) :
    r.Holds cap [] where
  head_lt := hhead
  tail_lt := by omega
  count_eq := hcount
  length_le := Nat.zero_le _
  head_eq := by
    rw [htail, List.length_nil, Nat.add_zero, Nat.mod_eq_of_lt hhead]
  item i hi := by simp at hi

theorem Holds.insert (h : r.Holds cap l) (hl : l.length < cap) :
    (r.insert cap x).Holds cap (l ++ [x]) := by
  have hc := h.count_eq
  have hlt : r.count < cap := by omega
  have hhead := h.head_lt
  rw [Ring.insert, if_pos hlt]
  exact {
    head_lt := next_lt hhead
    tail_lt := h.tail_lt
    count_eq := by simp [hc]
    length_le := by simpa using hl
    head_eq := by
      have hnext := @next_mod cap r.head 0
      rw [Nat.add_zero, Nat.mod_eq_of_lt (next_lt hhead), h.head_eq, Nat.zero_add,
        Nat.mod_add_mod] at hnext
      rw [h.head_eq, hnext, List.length_append, List.length_singleton, Nat.add_assoc]
    item := by
      intro i hi
      rw [List.length_append, List.length_singleton] at hi
      rcases Nat.lt_or_ge i l.length with hlt | hge
      · have hne := @mod_ne cap _ _ r.tail hlt hl
        rw [← h.head_eq] at hne
        dsimp only
        rw [Function.update_of_ne hne, List.getElem_append_left hlt]
        exact h.item i hlt
      · obtain rfl : i = l.length := by omega
        dsimp only
        rw [← h.head_eq, Function.update_self]
        simp }

theorem Holds.insert_full (h : r.Holds cap l) (hl : ¬ l.length < cap) : r.insert cap x = r := by
  have hc := h.count_eq
  have hge : ¬ r.count < cap := by omega
  rw [Ring.insert, if_neg hge]

theorem Holds.front (h : r.Holds cap (x :: l)) : r.front = x := by
  have hitem := h.item 0 (by simp)
  rwa [Nat.add_zero, Nat.mod_eq_of_lt h.tail_lt] at hitem

theorem Holds.remove (h : r.Holds cap (x :: l)) : (r.remove cap).Holds cap l := by
  have hlen := h.length_le
  have hc := h.count_eq
  simp only [List.length_cons] at hlen hc
  exact {
    head_lt := h.head_lt
    tail_lt := next_lt h.tail_lt
    count_eq := by simp [Ring.remove, hc]
    length_le := by omega
    head_eq := by
      have hhead := h.head_eq
      rw [List.length_cons] at hhead
      rw [Ring.remove, next_mod, hhead]
    item := by
      intro i hi
      have hitem := h.item (i + 1) (by simpa using hi)
      rw [List.getElem_cons_succ] at hitem
      rw [Ring.remove, next_mod, hitem] }

theorem Holds.exists_cons (h : r.Holds cap l) (hr : 0 < r.count) : ∃ x l', l = x :: l' := by
  have hc := h.count_eq
  cases l with
  | nil => simp at hc; omega
  | cons x l' => exact ⟨x, l', rfl⟩

/-- What the positions and the counter of a ring say of each other. -/
structure Ok (cap : Nat) (r : Ring α) : Prop where
  head_lt : r.head < cap
  tail_lt : r.tail < cap
  count_ge : 0 ≤ r.count
  count_le : r.count ≤ cap
  count_mod : r.count % cap = ((r.head : Int) - r.tail) % cap
  coincide : r.head = r.tail → r.count = 0 ∨ r.count = cap

theorem Holds.ok (h : r.Holds cap l) : r.Ok cap := by
  have hc := h.count_eq
  have hle := h.length_le
  have hh := h.head_lt
  have ht := h.tail_lt
  -- the head is one turn behind the sum at most
  have hwrap : r.head = r.tail + l.length ∨ r.head + cap = r.tail + l.length := by
    have heq := h.head_eq
    rcases Nat.lt_or_ge (r.tail + l.length) cap with hlt | hge
    · rw [Nat.mod_eq_of_lt hlt] at heq
      exact .inl heq
    · rw [Nat.mod_eq_sub_mod hge, Nat.mod_eq_of_lt (by omega)] at heq
      omega
  exact {
    head_lt := hh
    tail_lt := ht
    count_ge := by omega
    count_le := by omega
    count_mod := by
      rcases hwrap with hw | hw
      · have hsub : (r.head : Int) - r.tail = r.count := by omega
        rw [hsub]
      · have hsub : (r.head : Int) - r.tail = r.count - cap := by omega
        rw [hsub, Int.sub_emod_right]
    coincide := by
      intro heq
      rcases hwrap with hw | hw
      · exact .inl (by omega)
      · exact .inr (by omega) }

end Ring

inductive RingOp (α : Type*) where
  | insert (x : α)
  | remove

/-- A ring, the items that came while it was not full, and the items that were taken. -/
structure RingTrace (α : Type*) where
  ring : Ring α
  arrived : List α := []
  removed : List α := []

namespace RingTrace

variable {α : Type*} {cap : Nat} {t t' : RingTrace α} {r : Ring α} {ops : List (RingOp α)}

def insert (cap : Nat) (x : α) (t : RingTrace α) : RingTrace α where
  ring := t.ring.insert cap x
  arrived := if t.ring.count < cap then t.arrived ++ [x] else t.arrived
  removed := t.removed

def remove (cap : Nat) (t : RingTrace α) : RingTrace α where
  ring := t.ring.remove cap
  arrived := t.arrived
  removed := t.removed ++ [t.ring.front]

def Step (cap : Nat) (t : RingTrace α) : RingOp α → RingTrace α → Prop
  | .insert x, t' => t' = t.insert cap x
  | .remove, t' => 0 < t.ring.count ∧ t' = t.remove cap

/-- The ring holds what has arrived and has not been taken. -/
def Inv (cap : Nat) (t : RingTrace α) : Prop :=
  ∃ l, t.ring.Holds cap l ∧ t.arrived = t.removed ++ l

theorem Inv.step {op : RingOp α} (h : t.Inv cap) (hstep : Step cap t op t') : t'.Inv cap := by
  obtain ⟨l, hl, harr⟩ := h
  have hc := hl.count_eq
  cases op with
  | insert x =>
    obtain rfl := hstep
    by_cases hlt : l.length < cap
    · have hlt' : t.ring.count < cap := by omega
      refine ⟨l ++ [x], hl.insert hlt, ?_⟩
      rw [insert, if_pos hlt', harr, List.append_assoc]
    · have hge : ¬ t.ring.count < cap := by omega
      refine ⟨l, ?_, ?_⟩
      · rw [insert, hl.insert_full hlt]
        exact hl
      · rw [insert, if_neg hge]
        exact harr
  | remove =>
    obtain ⟨hpos, rfl⟩ := hstep
    obtain ⟨x, l', rfl⟩ := hl.exists_cons hpos
    refine ⟨l', hl.remove, ?_⟩
    rw [remove, hl.front, harr, List.append_assoc]
    rfl

/-- A ring is a bounded queue. -/
theorem Inv.fifo (h : t.Inv cap) : t.ring.Ok cap ∧ t.removed <+: t.arrived := by
  obtain ⟨l, hl, harr⟩ := h
  rw [harr]
  exact ⟨hl.ok, List.prefix_append _ _⟩

end RingTrace

end BazingaOS
