import BazingaOS.Lib.Bytes

/-!
# Files as arrays of bytes

Files that are read and written at the positions of descriptors, several of which may be on one
file. What a file has behind its contents is kept: a write may begin behind them.
-/

namespace BazingaOS

structure FlatFile where
  data : Bytes
  size : Nat

/-- The files `ι`, and the positions of the descriptors `δ`. -/
structure FlatFiles (ι δ : Type*) where
  file : ι → FlatFile
  pos : δ → Nat

/-- A request for `cnt` bytes between a file and a memory at `buf`. -/
structure FlatRequest (ι δ : Type*) where
  isRead : Bool
  file : ι
  desc : δ
  cnt : Nat
  memory : Bytes
  buf : Nat

/-- The `n` bytes from `buf` on are stored at `pos`. -/
def FlatFile.write (x : FlatFile) (pos : Nat) (memory : Bytes) (buf n : Nat) : FlatFile where
  data := copyBytes x.data pos memory buf n
  size := max x.size (pos + n)

namespace FlatFiles

variable {ι δ β : Type*}

/-- The number of bytes that a request moves: a read ends with the contents. -/
def moved (F : FlatFiles ι δ) (r : FlatRequest ι δ) : Nat :=
  if r.isRead then min r.cnt ((F.file r.file).size - F.pos r.desc) else r.cnt

def memory (F : FlatFiles ι δ) (r : FlatRequest ι δ) : Bytes :=
  if r.isRead then copyBytes r.memory r.buf (F.file r.file).data (F.pos r.desc) (F.moved r)
  else r.memory

def fileAfter (F : FlatFiles ι δ) (r : FlatRequest ι δ) : FlatFile :=
  if r.isRead then F.file r.file
  else (F.file r.file).write (F.pos r.desc) r.memory r.buf r.cnt

/-- A read begins in the contents or at their end, a write ends in the first `cap` bytes. -/
def InRange (cap : Nat) (F : FlatFiles ι δ) (r : FlatRequest ι δ) : Prop :=
  if r.isRead then F.pos r.desc ≤ (F.file r.file).size else F.pos r.desc + r.cnt ≤ cap

section Requests

variable {F : FlatFiles ι δ} {r : FlatRequest ι δ}

theorem moved_read (h : r.isRead = true) :
    F.moved r = min r.cnt ((F.file r.file).size - F.pos r.desc) := if_pos h

theorem moved_write (h : r.isRead = false) : F.moved r = r.cnt := by simp [moved, h]

theorem memory_read (h : r.isRead = true) : F.memory r =
    copyBytes r.memory r.buf (F.file r.file).data (F.pos r.desc) (F.moved r) := if_pos h

theorem memory_write (h : r.isRead = false) : F.memory r = r.memory := by simp [memory, h]

theorem fileAfter_read (h : r.isRead = true) : F.fileAfter r = F.file r.file := if_pos h

theorem fileAfter_write (h : r.isRead = false) :
    F.fileAfter r = (F.file r.file).write (F.pos r.desc) r.memory r.buf r.cnt := by
  simp [fileAfter, h]

end Requests

section After

variable [DecidableEq ι] [DecidableEq δ]

def after (F : FlatFiles ι δ) (r : FlatRequest ι δ) : FlatFiles ι δ where
  file := Function.update F.file r.file (F.fileAfter r)
  pos := Function.update F.pos r.desc (F.pos r.desc + F.moved r)

/-- `P` holds at every request of a list, with the files as the requests in front of it leave them. -/
def Each (request : β → FlatRequest ι δ) (P : FlatFiles ι δ → β → Prop) :
    FlatFiles ι δ → List β → Prop
  | _, [] => True
  | F, r :: l => P F r ∧ (F.after (request r)).Each request P l

variable {F : FlatFiles ι δ} {r : FlatRequest ι δ} {cap : Nat}

theorem file_after_read (h : r.isRead = true) : (F.after r).file = F.file := by
  change Function.update F.file r.file (F.fileAfter r) = F.file
  rw [fileAfter_read h, Function.update_eq_self]

theorem file_after_self : (F.after r).file r.file = F.fileAfter r := Function.update_self ..

theorem file_after_of_ne {i : ι} (h : i ≠ r.file) : (F.after r).file i = F.file i :=
  Function.update_of_ne h _ _

theorem InRange.size_le (h : F.InRange cap r) {i : ι} (hi : (F.file i).size ≤ cap) :
    ((F.after r).file i).size ≤ cap := by
  by_cases hne : i = r.file
  · subst hne
    rw [file_after_self]
    cases hread : r.isRead with
    | true =>
      rw [fileAfter_read hread]
      exact hi
    | false =>
      rw [fileAfter_write hread]
      rw [InRange, hread] at h
      exact Nat.max_le.mpr ⟨hi, h⟩
  · rw [file_after_of_ne hne]
    exact hi

end After

end FlatFiles

end BazingaOS
