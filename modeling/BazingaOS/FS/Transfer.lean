import BazingaOS.FS.Cache

/-!
# The loop of `do_rdwt`

The loop takes the sectors from that of the first byte to that of the byte behind the last one, in
rounds of at most `FSBUF_SIZE` bytes. A round begins in the buffer at the offset of the position if
it is the first one, and at 0 otherwise. A read delivers the bytes between the position and the end;
a write of a file that fits into the buffer stores all its bytes in the first round.
-/

namespace BazingaOS

open Prog

/-- Sector `n` of device `dev` has a position on the disk that `do_rdwt` can compute. -/
def OnDisk (dev n : Nat) : Prop := dev = rootDev ∧ sectorSize * n < 2 ^ 31

/-- A part of a file: its first sector, the first byte and the byte behind the last one. -/
structure Span where
  start : Nat
  pos : Nat
  posEnd : Nat
  le : pos ≤ posEnd

namespace Span

def sectBeg (x : Span) : Nat := x.start + x.pos / sectorSize

def sectEnd (x : Span) : Nat := x.start + x.posEnd / sectorSize

/-- The sectors of a round. -/
def chunk (x : Span) : Nat := min (x.sectEnd - x.sectBeg + 1) (fsbufSize / sectorSize)

def chunkBytes (x : Span) : Nat := sectorSize * x.chunk

def rounds (x : Span) : Nat := (x.sectEnd - x.sectBeg) / x.chunk + 1

def off (x : Span) : Nat := x.pos % sectorSize

def total (x : Span) : Nat := x.posEnd - x.pos

/-- The bytes that have been moved in front of round `r`. -/
def moved (x : Span) (r : Nat) : Nat := min (r * x.chunkBytes) x.total

/-- The first sector of every round has a position on the disk. -/
def Addressed (x : Span) (dev : Nat) : Prop :=
  ∀ r, r < x.rounds → OnDisk dev (x.sectBeg + r * x.chunk)

/-- The bytes of the first round end in the buffer. -/
def Buffered (x : Span) : Prop := x.off = 0 ∨ x.off + x.total ≤ fsbufSize

def offAt (x : Span) (r : Nat) : Nat := if r = 0 then x.off else 0

def bytesAt (x : Span) (r : Nat) : Nat := min x.chunkBytes (x.total - x.moved r)

/-- The variables of the loop in front of round `r`. -/
def vars (x : Span) (cnt r : Nat) : Transfer := ⟨x.offAt r, x.moved r, cnt - x.moved r⟩

section Numbers

variable (x : Span) {r : Nat}

theorem sectBeg_le_sectEnd : x.sectBeg ≤ x.sectEnd :=
  Nat.add_le_add_left (Nat.div_le_div_right x.le) _

theorem chunk_pos : 0 < x.chunk := by
  have hfull : 0 < fsbufSize / sectorSize := by decide
  rw [chunk]
  omega

theorem chunkBytes_le : x.chunkBytes ≤ fsbufSize := by
  have hs : sectorSize = 512 := rfl
  have hf : fsbufSize = 1048576 := rfl
  rw [chunkBytes, chunk, hs, hf]
  omega

theorem chunk_cases : x.off + x.total < x.chunkBytes ∨ x.chunkBytes = fsbufSize := by
  have hs : sectorSize = 512 := rfl
  have hf : fsbufSize = 1048576 := rfl
  have hle := x.le
  rw [chunkBytes, chunk, sectBeg, sectEnd, off, total, hs, hf]
  omega

theorem total_lt : x.off + x.total < x.rounds * x.chunkBytes := by
  have hs : sectorSize = 512 := rfl
  have hle := x.le
  have hdiv := Nat.lt_div_mul_add x.chunk_pos (a := x.sectEnd - x.sectBeg)
  have hsects : x.sectEnd - x.sectBeg + 1 ≤ x.rounds * x.chunk := by
    rw [rounds, Nat.add_mul, Nat.one_mul]
    omega
  have hbytes : x.rounds * x.chunkBytes = sectorSize * (x.rounds * x.chunk) := by
    rw [chunkBytes, Nat.mul_left_comm]
  rw [hbytes, hs]
  rw [sectEnd, sectBeg, hs] at hsects
  rw [off, total, hs]
  omega

theorem rounds_le (h : x.total ≤ r * x.chunkBytes) : x.rounds ≤ r + 1 := by
  have hs : sectorSize = 512 := rfl
  have hle := x.le
  have hbytes : r * x.chunkBytes = sectorSize * (r * x.chunk) := by
    rw [chunkBytes, Nat.mul_left_comm]
  rw [hbytes, hs, total] at h
  have hsects : x.sectEnd - x.sectBeg < (r + 1) * x.chunk := by
    have hpos := x.chunk_pos
    rw [Nat.add_mul, Nat.one_mul, sectEnd, sectBeg, hs]
    omega
  rw [rounds]
  have hlt := Nat.div_lt_of_lt_mul (Nat.mul_comm _ _ ▸ hsects)
  omega

theorem Addressed.sectEnd_lt {x : Span} {dev : Nat} (h : x.Addressed dev) :
    x.sectEnd < 2 ^ 31 := by
  have hs : sectorSize = 512 := rfl
  have hle := x.sectBeg_le_sectEnd
  have hfull := x.chunkBytes_le
  have hf : fsbufSize = 1048576 := rfl
  have hlast := (h (x.rounds - 1) (Nat.sub_one_lt (Nat.succ_ne_zero _))).2
  have hdiv := Nat.lt_div_mul_add x.chunk_pos (a := x.sectEnd - x.sectBeg)
  rw [chunkBytes, hs] at hfull
  rw [rounds, Nat.add_sub_cancel, hs] at hlast
  omega

theorem addressed_of_le (h : sectorSize * x.sectEnd < 2 ^ 31) : x.Addressed rootDev := by
  intro r hr
  have hle := x.sectBeg_le_sectEnd
  have hdiv : r * x.chunk ≤ (x.sectEnd - x.sectBeg) / x.chunk * x.chunk :=
    Nat.mul_le_mul_right _ (Nat.lt_succ_iff.mp hr)
  have hmul := Nat.div_mul_le_self (x.sectEnd - x.sectBeg) x.chunk
  have hlast : x.sectBeg + r * x.chunk ≤ x.sectEnd := by omega
  exact ⟨rfl, Nat.lt_of_le_of_lt (Nat.mul_le_mul_left _ hlast) h⟩

@[simp] theorem moved_zero : x.moved 0 = 0 := by
  rw [moved, Nat.zero_mul, Nat.zero_min]

theorem moved_rounds : x.moved x.rounds = x.total := by
  have hlt := x.total_lt
  rw [moved]
  omega

theorem moved_succ : x.moved (r + 1) = x.moved r + x.bytesAt r := by
  rw [bytesAt, moved, moved, Nat.add_mul, Nat.one_mul]
  omega

theorem offAt_zero : x.offAt 0 = x.off := rfl

theorem offAt_of_pos (h : 0 < r) : x.offAt r = 0 := if_neg (Nat.ne_of_gt h)

theorem chunkBytes_le_mul (h : 0 < r) : x.chunkBytes ≤ r * x.chunkBytes :=
  Nat.le_mul_of_pos_left _ h

theorem off_eq_zero (h : x.moved r < x.total) (hr : 0 < r) (hbuf : x.Buffered) : x.off = 0 := by
  have hmul := x.chunkBytes_le_mul hr
  have hcases := x.chunk_cases
  rw [moved] at h
  rcases hbuf with hzero | hfit
  · exact hzero
  · omega

theorem bytesAt_le (hbuf : x.Buffered) : x.offAt r + x.bytesAt r ≤ x.chunkBytes := by
  have hcases := x.chunk_cases
  have hbytes : x.bytesAt r = min x.chunkBytes (x.total - x.moved r) := rfl
  rw [Buffered] at hbuf
  rcases Nat.eq_zero_or_pos r with rfl | hr
  · rw [offAt_zero]
    omega
  · rw [x.offAt_of_pos hr]
    omega

theorem place_eq (h : 0 < r → x.off = 0) :
    sectorSize * (x.sectBeg + r * x.chunk) + x.offAt r =
      sectorSize * x.start + x.pos + r * x.chunkBytes := by
  have hs : sectorSize = 512 := rfl
  have hbytes : r * x.chunkBytes = sectorSize * (r * x.chunk) := by
    rw [chunkBytes, Nat.mul_left_comm]
  rw [hbytes, sectBeg, offAt]
  rw [off, hs] at h ⊢
  split <;> omega

end Numbers

end Span

/-- The first `m` bytes of the span have been delivered to `buf` of process `p`. -/
def Fs.delivered (s : Fs) (x : Span) (p : Pid) (buf : Nat) (f : Fin nrFileDesc) (m : Nat)
    (b : Bytes) : Fs :=
  { s with
    fsbuf := b
    user := Function.update s.user p
      (copyBytes (s.user p) buf s.disk (sectorSize * x.start + x.pos) m)
    fdTable := Function.update s.fdTable f { s.fdTable f with fdPos := x.pos + m } }

/-- The first `m` bytes of the span have been read to `buf` of process `p`. What the first round takes
from behind the buffer is not of the file. -/
def Fs.ReadTo (s : Fs) (x : Span) (p : Pid) (buf : Nat) (f : Fin nrFileDesc) (m : Nat) (s' : Fs) :
    Prop :=
  ∃ u b, s' = { s with
    fsbuf := b
    user := Function.update s.user p u
    fdTable := Function.update s.fdTable f { s.fdTable f with fdPos := x.pos + m } } ∧
    (x.Buffered → u = copyBytes (s.user p) buf s.disk (sectorSize * x.start + x.pos) m)

theorem Fs.ReadTo.delivered {s s' : Fs} {x : Span} {p : Pid} {buf : Nat} {f : Fin nrFileDesc} {m : Nat}
    (h : s.ReadTo x p buf f m s') (hbuf : x.Buffered) : ∃ b, s' = s.delivered x p buf f m b := by
  obtain ⟨u, b, rfl, hu⟩ := h
  rw [hu hbuf]
  exact ⟨b, rfl⟩

/-- The first `m` bytes from `buf` of process `p` on have been stored in the span. -/
def Fs.stored (s : Fs) (x : Span) (p : Pid) (buf : Nat) (f : Fin nrFileDesc) (m : Nat)
    (b : Bytes) : Fs :=
  { s with
    fsbuf := b
    disk := copyBytes s.disk (sectorSize * x.start + x.pos) (s.user p) buf m
    fdTable := Function.update s.fdTable f { s.fdTable f with fdPos := x.pos + m } }

namespace FS

section Rounds

variable {s : Fs} {x : Span} {p : Pid} {buf : Nat} {f : Fin nrFileDesc} {dev cnt r : Nat}

theorem rdSects_spec (dev i c : Nat) :
    wp (rdSects dev i c) (fun _ s' => OnDisk dev i ∧ s' = { s with
        fsbuf := copyBytes s.fsbuf 0 s.disk (sectorSize * i) (sectorSize * c) })
      (fun _ _ => ¬ OnDisk dev i) s := by
  have hs : sectorSize = 512 := rfl
  rw [rdSects, wp_ite, OnDisk, hs]
  refine ⟨fun h => ?_, fun h hok => h ⟨by omega, by omega⟩⟩
  apply wp_onDev
  · intro hdev
    exact ⟨⟨hdev, by omega⟩, rfl⟩
  · intro hdev hok
    exact hdev hok.1

theorem wp_wrSects {i c : Nat} {Q : Unit → Fs → Prop} {E : Stop → Fs → Prop} (h : OnDisk dev i) :
    wp (wrSects dev i c) Q E s ↔ Q () { s with
      disk := copyBytes s.disk (sectorSize * i) s.fsbuf 0 (sectorSize * c) } := by
  have hs : sectorSize = 512 := rfl
  obtain ⟨rfl, hlt⟩ := h
  rw [hs] at hlt
  rw [wrSects, hs, if_pos (by omega), onDev, if_pos rfl, wp_modify, Int.toNat_natCast,
    Int.toNat_natCast]

/-- Whatever the numbers are, a read of sectors changes nothing but the buffer. -/
theorem rdSects_buffer (dev : Nat) (i c : Int) :
    wp (rdSects dev i c) (fun _ s' => ∃ b, s' = { s with fsbuf := b }) (fun _ _ => True) s := by
  rw [rdSects, wp_ite]
  refine ⟨fun _ => ?_, fun _ => trivial⟩
  apply wp_onDev
  · intro _
    exact ⟨_, rfl⟩
  · intro _
    trivial

theorem rdSects_of_neg {i c : Int} (h : i < 0) : rdSects dev i c = halt .undefined :=
  if_neg fun hi => absurd hi.1 (Int.not_le.mpr h)

-- the rules are all that a proof uses
attribute [local irreducible] rdSects wrSects

theorem sect_eq (x : Span) (r : Nat) :
    (x.sectBeg : Int) + r * x.chunk = ((x.sectBeg + r * x.chunk : Nat) : Int) := by
  rw [Nat.cast_add, Nat.cast_mul]

theorem wp_copyOut {p : Pid} {a off bytes : Nat} {Q : Unit → Fs → Prop} {E : Stop → Fs → Prop} :
    wp (copyOut p a off bytes) Q E s ↔ Q () { s with
      user := Function.update s.user p (copyBytes (s.user p) a s.fsbuf off bytes) } := by
  rw [copyOut, if_pos ⟨Int.natCast_nonneg _, Int.natCast_nonneg _⟩, wp_modify, Int.toNat_natCast,
    Int.toNat_natCast]

theorem wp_copyIn {p : Pid} {a off bytes : Nat} {Q : Unit → Fs → Prop} {E : Stop → Fs → Prop} :
    wp (copyIn p a off bytes) Q E s ↔ Q () { s with
      fsbuf := copyBytes s.fsbuf off (s.user p) a bytes } := by
  rw [copyIn, if_pos ⟨Int.natCast_nonneg _, Int.natCast_nonneg _⟩, wp_modify, Int.toNat_natCast,
    Int.toNat_natCast]

theorem delivered_succ {m d b : Bytes} (hlt : x.moved r < x.total) (hbuf : x.Buffered) :
    copyBytes (copyBytes m buf d (sectorSize * x.start + x.pos) (x.moved r)) (buf + x.moved r)
        (copyBytes b 0 d (sectorSize * (x.sectBeg + r * x.chunk)) (sectorSize * x.chunk))
        (x.offAt r) (x.bytesAt r) =
      copyBytes m buf d (sectorSize * x.start + x.pos) (x.moved (r + 1)) := by
  have hin := @Span.bytesAt_le x r hbuf
  have hplace := @Span.place_eq x r fun hr => x.off_eq_zero hlt hr hbuf
  have hmoved : x.moved r = r * x.chunkBytes := by
    rw [Span.moved] at hlt ⊢
    omega
  rw [Span.moved_succ, ← copyBytes_append]
  apply copyBytes_congr
  intro i hi
  rw [← Span.chunkBytes, copyBytes_zero (by omega), hmoved, ← hplace, Nat.add_assoc]

/-- One round of a read. It ends the loop if all bytes have been moved. -/
theorem readRound_spec (hcnt : x.total ≤ cnt) {s₁ : Fs} (h : s.ReadTo x p buf f (x.moved r) s₁) :
    wp (rdwtRound p buf true f dev x.posEnd x.chunk (x.sectBeg + r * x.chunk) (x.vars cnt r))
      (fun o s' => OnDisk dev (x.sectBeg + r * x.chunk) ∧ match o with
        | .done a => x.total ≤ r * x.chunkBytes ∧ a = x.vars cnt r ∧
          s.ReadTo x p buf f (x.moved r) s'
        | .yield a => a = x.vars cnt (r + 1) ∧ s.ReadTo x p buf f (x.moved (r + 1)) s')
      (fun _ _ => ¬ OnDisk dev (x.sectBeg + r * x.chunk)) s₁ := by
  obtain ⟨u, b, rfl, hu⟩ := h
  have hle := x.le
  have htotal : x.total = x.posEnd - x.pos := rfl
  have hmoved : x.moved r = min (r * x.chunkBytes) x.total := rfl
  have hchunk : (x.chunk : Int) * sectorSize = x.chunkBytes := by
    rw [Span.chunkBytes, Nat.cast_mul, Int.mul_comm]
  rw [rdwtRound, sect_eq, wp_bind]
  refine wp_mono (rdSects_spec dev (x.sectBeg + r * x.chunk) x.chunk) ?_ fun _ _ hbad => hbad
  rintro - s₂ ⟨haddr, rfl⟩
  simp only [Function.update_self, wp_bind, wp_get, wp_ite, wp_pure, if_true]
  refine ⟨fun hend => ⟨haddr, by omega, trivial, _, _, rfl, hu⟩, fun hmore => ?_⟩
  have hlt : x.moved r < x.total := by omega
  -- the bytes of this round
  have hbytes : min ((x.posEnd : Int) - (x.pos + x.moved r))
      (min (x.chunk * sectorSize) (x.vars cnt r).bytesLeft) = (x.bytesAt r : Nat) := by
    change min _ (min _ ((cnt : Int) - x.moved r)) = _
    rw [hchunk, Span.bytesAt]
    omega
  rw [hbytes]
  change wp (copyOut p (buf + x.moved r) (x.offAt r : Nat) (x.bytesAt r)) _ _ _
  rw [wp_copyOut]
  refine ⟨haddr, ?_, copyBytes u (buf + x.moved r) (copyBytes b 0 s.disk
    (sectorSize * (x.sectBeg + r * x.chunk)) (sectorSize * x.chunk)) (x.offAt r) (x.bytesAt r),
    copyBytes b 0 s.disk (sectorSize * (x.sectBeg + r * x.chunk)) (sectorSize * x.chunk), ?_,
    fun hbuf => ?_⟩
  · simp only [Span.vars, x.moved_succ, Transfer.mk.injEq, x.offAt_of_pos (Nat.succ_pos r)]
    omega
  · simp only [Function.update_self, Function.update_idem]
    rw [Int.add_assoc, ← Nat.cast_add, ← x.moved_succ]
  · rw [hu hbuf]
    exact delivered_succ hlt hbuf

theorem readLoop_spec (hpos : (s.fdTable f).fdPos = x.pos) (hcnt : x.total ≤ cnt) :
    wp (iter (fun r a => rdwtRound p buf true f dev x.posEnd x.chunk (x.sectBeg + r * x.chunk) a)
        x.rounds 0 (x.vars cnt 0))
      (fun a s' => x.Addressed dev ∧ a.bytesProc = x.total ∧ s.ReadTo x p buf f x.total s')
      (fun _ _ => ¬ x.Addressed dev) s := by
  have hstart : s.ReadTo x p buf f (x.moved 0) s := by
    refine ⟨s.user p, s.fsbuf, ?_, fun _ => ?_⟩
    · simp only [Span.moved_zero, Function.update_eq_self, Nat.cast_zero, Int.add_zero, ← hpos]
    · rw [Span.moved_zero, copyBytes_none]
  apply wp_iter (I := fun r a s' => a = x.vars cnt r ∧
    (∀ t, t < r → OnDisk dev (x.sectBeg + t * x.chunk)) ∧ s.ReadTo x p buf f (x.moved r) s')
  · exact ⟨rfl, fun t ht => absurd ht (Nat.not_lt_zero t), hstart⟩
  · rintro r - s₁ - hr ⟨rfl, haddr, hread⟩
    rw [Nat.zero_add] at hr
    have haddr' : OnDisk dev (x.sectBeg + r * x.chunk) →
        ∀ t, t < r + 1 → OnDisk dev (x.sectBeg + t * x.chunk) := by
      intro hthis t ht
      rcases Nat.lt_succ_iff_lt_or_eq.mp ht with hlt | rfl
      · exact haddr t hlt
      · exact hthis
    refine wp_mono (readRound_spec hcnt hread) ?_ fun _ _ hbad hok => hbad (hok r hr)
    rintro o s' ⟨hthis, ho⟩
    cases o with
    | yield a => exact ⟨ho.1, haddr' hthis, ho.2⟩
    | done a =>
      obtain ⟨hall, rfl, hread'⟩ := ho
      have hmoved : x.moved r = x.total := Nat.min_eq_right hall
      rw [hmoved] at hread'
      refine ⟨fun t ht => haddr' hthis t ?_, ?_, hread'⟩
      · exact Nat.lt_of_lt_of_le ht (x.rounds_le hall)
      · rw [Span.vars, hmoved]
  · rintro - s₁ ⟨rfl, haddr, hread⟩
    rw [Nat.zero_add] at haddr hread ⊢
    rw [x.moved_rounds] at hread
    rw [Span.vars, x.moved_rounds]
    exact ⟨haddr, rfl, hread⟩

theorem stored_succ {m d b : Bytes} (hin : x.offAt r + x.bytesAt r ≤ x.chunkBytes)
    (hrest : 0 < r → x.bytesAt r = 0) :
    copyBytes (copyBytes d (sectorSize * x.start + x.pos) m buf (x.moved r))
        (sectorSize * (x.sectBeg + r * x.chunk))
        (copyBytes (copyBytes b 0 (copyBytes d (sectorSize * x.start + x.pos) m buf (x.moved r))
          (sectorSize * (x.sectBeg + r * x.chunk)) (sectorSize * x.chunk))
          (x.offAt r) m (buf + x.moved r) (x.bytesAt r)) 0 (sectorSize * x.chunk) =
      copyBytes d (sectorSize * x.start + x.pos) m buf (x.moved (r + 1)) := by
  rw [← Span.chunkBytes, copyBytes_through hin, Span.moved_succ]
  rcases Nat.eq_zero_or_pos r with rfl | hr
  · rw [x.place_eq fun h => absurd h (Nat.lt_irrefl 0), Span.moved_zero, copyBytes_none,
      Nat.zero_mul, Nat.zero_add, Nat.add_zero, Nat.add_zero]
  · rw [hrest hr, copyBytes_none, Nat.add_zero]

theorem writeRound_spec (hsmall : x.posEnd ≤ fsbufSize) (b : Bytes) :
    wp (rdwtRound p buf false f dev x.posEnd x.chunk (x.sectBeg + r * x.chunk) (x.vars x.total r))
      (fun o s' => OnDisk dev (x.sectBeg + r * x.chunk) ∧ o = .yield (x.vars x.total (r + 1)) ∧
        ∃ b, s' = s.stored x p buf f (x.moved (r + 1)) b)
      (fun _ _ => ¬ OnDisk dev (x.sectBeg + r * x.chunk))
      (s.stored x p buf f (x.moved r) b) := by
  have hle := x.le
  have htotal : x.total = x.posEnd - x.pos := rfl
  have hoff : x.off ≤ x.pos := Nat.mod_le _ _
  have hcases := x.chunk_cases
  have hchunk : (x.chunk : Int) * sectorSize = x.chunkBytes := by
    rw [Span.chunkBytes, Nat.cast_mul, Int.mul_comm]
  have hrest : 0 < r → x.bytesAt r = 0 := by
    intro hr
    have hmul := x.chunkBytes_le_mul hr
    rw [Span.bytesAt, Span.moved]
    omega
  have hin : x.offAt r + x.bytesAt r ≤ x.chunkBytes := by
    rcases Nat.eq_zero_or_pos r with rfl | hr
    · rw [x.offAt_zero, Span.bytesAt]
      omega
    · rw [x.offAt_of_pos hr, hrest hr]
      exact Nat.zero_le _
  have hbytes : min ((x.chunk : Int) * sectorSize) (x.vars x.total r).bytesLeft =
      (x.bytesAt r : Nat) := by
    change min _ ((x.total : Int) - x.moved r) = _
    rw [hchunk, Span.bytesAt, Span.moved]
    omega
  have hread := @rdSects_spec (s.stored x p buf f (x.moved r) b) dev
    (x.sectBeg + r * x.chunk) x.chunk
  rw [rdwtRound, sect_eq]
  simp only [wp_bind]
  refine wp_mono hread ?_ fun _ _ hbad => hbad
  rintro - s₁ ⟨haddr, rfl⟩
  simp only [wp_get]
  rw [if_neg Bool.false_ne_true, hbytes, wp_bind]
  change wp (copyIn p (buf + x.moved r) (x.offAt r : Nat) (x.bytesAt r)) _ _ _
  rw [wp_copyIn, wp_bind, wp_wrSects haddr, wp_bind, setDesc, wp_modify, wp_pure]
  simp only [Fs.stored]
  refine ⟨haddr, ?_, copyBytes (copyBytes b 0
    (copyBytes s.disk (sectorSize * x.start + x.pos) (s.user p) buf (x.moved r))
    (sectorSize * (x.sectBeg + r * x.chunk)) (sectorSize * x.chunk))
    (x.offAt r) (s.user p) (buf + x.moved r) (x.bytesAt r), ?_⟩
  · simp only [Span.vars, x.moved_succ, ForInStep.yield.injEq, Transfer.mk.injEq,
      x.offAt_of_pos (Nat.succ_pos r)]
    omega
  · simp only [Function.update_self, Function.update_idem, stored_succ hin hrest]
    rw [Int.add_assoc, ← Nat.cast_add, ← x.moved_succ]

theorem writeLoop_spec (hpos : (s.fdTable f).fdPos = x.pos) (hsmall : x.posEnd ≤ fsbufSize) :
    wp (iter (fun r a => rdwtRound p buf false f dev x.posEnd x.chunk (x.sectBeg + r * x.chunk) a)
        x.rounds 0 (x.vars x.total 0))
      (fun a s' => x.Addressed dev ∧ a.bytesProc = x.total ∧
        ∃ b, s' = s.stored x p buf f x.total b)
      (fun _ _ => ¬ x.Addressed dev) s := by
  have hstart : s = s.stored x p buf f (x.moved 0) s.fsbuf := by
    simp only [Fs.stored, Span.moved_zero, copyBytes_none, Nat.cast_zero, Int.add_zero, ← hpos,
      Function.update_eq_self]
  apply wp_iter (I := fun r a s' => a = x.vars x.total r ∧
    (∀ t, t < r → OnDisk dev (x.sectBeg + t * x.chunk)) ∧
    ∃ b, s' = s.stored x p buf f (x.moved r) b)
  · exact ⟨rfl, fun t ht => absurd ht (Nat.not_lt_zero t), _, hstart⟩
  · rintro r - - - hr ⟨rfl, haddr, b, rfl⟩
    rw [Nat.zero_add] at hr
    refine wp_mono (writeRound_spec hsmall b) ?_ fun _ _ hbad hok => hbad (hok r hr)
    rintro - s' ⟨hthis, rfl, hs'⟩
    refine ⟨rfl, fun t ht => ?_, hs'⟩
    rcases Nat.lt_succ_iff_lt_or_eq.mp ht with hlt | rfl
    · exact haddr t hlt
    · exact hthis
  · rintro - - ⟨rfl, haddr, b, rfl⟩
    rw [Nat.zero_add] at haddr ⊢
    rw [Span.vars, x.moved_rounds]
    exact ⟨haddr, rfl, b, rfl⟩

/-- Whatever the file can hold, a write moves all bytes that the rounds have room for. -/
theorem writeLoop_count (cnt n : Nat) (i : Nat → Int) (posEnd : Int) (off : Int) :
    wp (iter (fun r a => rdwtRound p buf false f dev posEnd x.chunk (i r) a) n 0 ⟨off, 0, cnt⟩)
      (fun a _ => a.bytesProc = min (n * x.chunkBytes) cnt) (fun _ _ => True) s := by
  have hchunk : (x.chunk : Int) * sectorSize = x.chunkBytes := by
    rw [Span.chunkBytes, Nat.cast_mul, Int.mul_comm]
  apply wp_iter (I := fun r (a : Transfer) _ =>
    a.bytesProc = (min (r * x.chunkBytes) cnt : Nat) ∧ a.bytesLeft = cnt - a.bytesProc)
  · refine ⟨?_, ?_⟩
    · rw [Nat.zero_mul, Nat.zero_min]
      rfl
    · exact (Int.sub_zero _).symm
  · rintro r a s' - - ⟨hproc, hleft⟩
    rw [rdwtRound, wp_bind]
    refine wp_mono (wp_true _) ?_ (fun _ _ h => h)
    rintro - s₁ -
    rw [wp_bind, wp_get, if_neg Bool.false_ne_true, wp_bind]
    refine wp_mono (wp_true _) ?_ (fun _ _ h => h)
    rintro - s₂ -
    rw [wp_bind]
    refine wp_mono (wp_true _) ?_ (fun _ _ h => h)
    rintro - s₃ -
    rw [wp_bind, setDesc, wp_modify, wp_pure]
    dsimp only
    rw [hproc, hleft, hproc, hchunk, Nat.add_mul, Nat.one_mul]
    omega
  · rintro a - ⟨hproc, -⟩
    rw [hproc, Nat.zero_add]

end Rounds

/-- Where a transfer ends at the latest: at the end of the contents or at that of the sectors. -/
def rdwtLimit (t : MsgType) (i : Inode) : Nat :=
  if t = .read then i.iSize else i.iNrSects * sectorSize % 2 ^ 32

def rdwtLoop (p : Pid) (msg : Message) (f : Fin nrFileDesc) (i : Inode) (pos : Int) :
    Prog Fs Transfer :=
  let posEnd := toI32 (min (rdwtLimit msg.type i) (toU32 (pos + msg.m3i2)))
  let sectBeg := toI32 (i.iStartSect + pos / sectorSize)
  let sectEnd := toI32 (i.iStartSect + posEnd / sectorSize)
  let chunk := min (sectEnd - sectBeg + 1) (fsbufSize / sectorSize)
  let rounds := (sectEnd - sectBeg) / chunk + 1
  iter (fun r a => rdwtRound p msg.m3p2 (decide (msg.type = .read)) f i.iDev posEnd chunk
      (sectBeg + r * chunk) a)
    (if sectBeg ≤ sectEnd then rounds.toNat else 0) 0 ⟨pos.tmod sectorSize, 0, msg.m3i2⟩

def rdwtEnd (f : Fin nrFileDesc) (n : Fin nrInode) (size : Nat) (a : Transfer) : Prog Fs Int := do
  let pos := ((← get).fdTable f).fdPos
  when (size < toU32 pos) do
    setInode n fun i => { i with iSize := toU32 pos }
    syncInode n
  return a.bytesProc

section Loop

variable {s : Fs} {x : Span} {p : Pid} {msg : Message} {f : Fin nrFileDesc} {n : Fin nrInode}
  {i : Inode} {cnt : Nat}

theorem rdwtFile_eq : rdwtFile p msg f n s = (do
      rdwtEnd f n (s.inodeTable n).iSize
        (← rdwtLoop p msg f (s.inodeTable n) (s.fdTable f).fdPos) : Prog Fs Int) s := by
  have hlimit : (if decide (msg.type = .read) = true then (s.inodeTable n).iSize
      else (s.inodeTable n).iNrSects * sectorSize % 2 ^ 32) =
      rdwtLimit msg.type (s.inodeTable n) := by
    rw [rdwtLimit]
    simp only [decide_eq_true_eq]
  rw [rdwtLoop, ← hlimit]
  rfl

theorem rdwtEnd_posEnd (hcnt : msg.m3i2 = cnt) (hsum : x.pos + cnt < 2 ^ 32)
    (hfit : x.posEnd < 2 ^ 31) (hend : x.posEnd = min (rdwtLimit msg.type i) (x.pos + cnt)) :
    toI32 (min (rdwtLimit msg.type i) (toU32 ((x.pos : Int) + msg.m3i2))) = x.posEnd := by
  have hwrap : toU32 ((x.pos : Int) + msg.m3i2) = x.pos + cnt := by
    rw [hcnt, ← Nat.cast_add]
    exact toU32_of_lt hsum
  have hmin : min (rdwtLimit msg.type i : Int) (x.pos + cnt : Nat) = x.posEnd := by
    rw [hend]
    omega
  rw [hwrap, hmin]
  apply toI32_of_inI32
  unfold InI32
  omega

theorem rdwtLoop_eq (hstart : x.start = i.iStartSect) (hcnt : msg.m3i2 = cnt)
    (hsum : x.pos + cnt < 2 ^ 32) (hfit : x.posEnd < 2 ^ 31)
    (hend : x.posEnd = min (rdwtLimit msg.type i) (x.pos + cnt)) (hsect : x.sectEnd < 2 ^ 31) :
    rdwtLoop p msg f i x.pos =
      iter (fun r a => rdwtRound p msg.m3p2 (decide (msg.type = .read)) f i.iDev x.posEnd x.chunk
        (x.sectBeg + r * x.chunk) a) x.rounds 0 (x.vars cnt 0) := by
  have hle := x.sectBeg_le_sectEnd
  have hf : (fsbufSize : Int) / sectorSize = (fsbufSize / sectorSize : Nat) :=
    (Int.natCast_ediv _ _).symm
  have hbeg : toI32 ((i.iStartSect : Int) + (x.pos : Int) / sectorSize) = x.sectBeg := by
    rw [← hstart, ← Int.natCast_ediv, ← Nat.cast_add]
    apply toI32_of_inI32
    change InI32 (x.sectBeg : Nat)
    unfold InI32
    omega
  have hlast : toI32 ((i.iStartSect : Int) + (x.posEnd : Int) / sectorSize) = x.sectEnd := by
    rw [← hstart, ← Int.natCast_ediv, ← Nat.cast_add]
    apply toI32_of_inI32
    change InI32 (x.sectEnd : Nat)
    unfold InI32
    omega
  have hchunk : min ((x.sectEnd : Int) - x.sectBeg + 1) (fsbufSize / sectorSize) = x.chunk := by
    rw [hf, Span.chunk, Nat.cast_min, Nat.cast_add, Nat.cast_sub hle, Nat.cast_one]
  have hrounds : (((x.sectEnd : Int) - x.sectBeg) / x.chunk + 1).toNat = x.rounds := by
    rw [← Nat.cast_sub hle, ← Int.natCast_ediv]
    exact Int.toNat_natCast_add_one
  have hoff : (x.pos : Int).tmod sectorSize = x.off := by
    rw [Int.tmod_eq_emod_of_nonneg (Int.natCast_nonneg _), ← Int.natCast_emod, Span.off]
  rw [rdwtLoop]
  simp only [rdwtEnd_posEnd hcnt hsum hfit hend, hbeg, hlast, hchunk, hrounds, hoff]
  have hvars : x.vars cnt 0 = ⟨x.off, 0, msg.m3i2⟩ := by
    rw [hcnt, Span.vars, Span.moved_zero, Span.offAt_zero, Nat.cast_zero, Int.sub_zero]
  rw [if_pos (Int.ofNat_le.mpr hle), hvars]

theorem rounds_ne_zero {u v : Int} (h : u ≤ v) :
    0 + ((v - u) / min (v - u + 1) ((fsbufSize : Int) / sectorSize) + 1).toNat ≠ 0 := by
  have hfull : (0 : Int) ≤ (fsbufSize : Int) / sectorSize := by
    rw [← Int.natCast_ediv]
    exact Int.natCast_nonneg _
  have hdiv := Int.ediv_nonneg (Int.sub_nonneg_of_le h)
    (le_min (Int.le_add_one (Int.sub_nonneg_of_le h)) hfull)
  omega

/-- Where the number of a sector is that of no signed integer, nothing is moved. -/
theorem rdwtLoop_wrapped {s : Fs} (hstart : x.start = i.iStartSect) (hcnt : msg.m3i2 = cnt)
    (hsum : x.pos + cnt < 2 ^ 32) (hfit : x.posEnd < 2 ^ 31)
    (hend : x.posEnd = min (rdwtLimit msg.type i) (x.pos + cnt)) (hbeg : x.sectBeg < 2 ^ 32)
    (hsect : 2 ^ 31 ≤ x.sectEnd) :
    wp (rdwtLoop p msg f i x.pos) (fun a _ => a.bytesProc = 0 ∧ 0 < x.total) (fun _ _ => True)
      s := by
  have hle := x.sectBeg_le_sectEnd
  have hcast : ∀ k : Nat, (i.iStartSect : Int) + (k : Int) / sectorSize =
      (x.start + k / sectorSize : Nat) := by
    intro k
    rw [← hstart, Nat.cast_add, Int.natCast_ediv]
  have hnear : x.sectEnd < x.sectBeg + 2 ^ 22 := by
    have hs : sectorSize = 512 := rfl
    rw [Span.sectEnd, Span.sectBeg, hs]
    omega
  rw [rdwtLoop]
  simp only [rdwtEnd_posEnd hcnt hsum hfit hend, hcast]
  change wp (iter _ (if toI32 (x.sectBeg : Nat) ≤ toI32 (x.sectEnd : Nat) then _ else 0) 0 _) _ _ s
  rcases Nat.lt_or_ge x.sectBeg (2 ^ 31) with hlow | hhigh
  · have hgt : ¬ toI32 (x.sectBeg : Nat) ≤ toI32 (x.sectEnd : Nat) := by
      unfold toI32
      omega
    rw [if_neg hgt]
    apply wp_iter (I := fun _ a _ => a = ⟨(x.pos : Int).tmod sectorSize, 0, msg.m3i2⟩) rfl
    · intro j _ _ _ hj
      exact absurd hj (by omega)
    · rintro - - rfl
      refine ⟨rfl, ?_⟩
      by_contra hzero
      have hsame : x.posEnd = x.pos := by
        rw [Span.total] at hzero
        have hx := x.le
        omega
      rw [Span.sectEnd, hsame] at hsect
      exact absurd hlow (Nat.not_lt.mpr hsect)
  · have hfirst : toI32 (x.sectBeg : Nat) < 0 := by
      unfold toI32
      omega
    have hlast : toI32 (x.sectBeg : Nat) ≤ toI32 (x.sectEnd : Nat) := by
      unfold toI32
      omega
    rw [if_pos hlast]
    apply wp_iter (I := fun r _ _ => r = 0) rfl
    · rintro r a s₁ - - rfl
      rw [rdwtRound, wp_bind, Nat.cast_zero, Int.zero_mul, Int.add_zero]
      change wp (rdSects _ (toI32 (x.sectBeg : Nat)) _) _ _ _
      rw [rdSects_of_neg hfirst]
      trivial
    · intro a s₁ hzero
      exact absurd hzero (rounds_ne_zero hlast)

end Loop

end FS

/-- Inode `n` has got another size, in the cache and on the disk. -/
def Fs.resized (s : Fs) (n : Fin nrInode) (size : Nat) (b : Bytes) : Fs :=
  { s with
    fsbuf := b
    sb := { s.sb with sbDev := rootDev }
    inodeTable := Function.update s.inodeTable n { s.inodeTable n with iSize := size }
    disk := putBytes s.disk (inodePlace s.sb (s.inodeTable n).iNum.toNat)
      ({ s.inodeTable n with iSize := size } : Inode).disk.bytes }

namespace FS

section Files

variable {s : Fs} {x : Span} {p : Pid} {msg : Message} {f : Fin nrFileDesc} {n : Fin nrInode}
  {cnt size : Nat} {a : Transfer}

theorem rdwtEnd_spec (hsync : Syncable s (s.inodeTable n)) :
    wp (rdwtEnd f n size a) (fun v s' => v = a.bytesProc ∧
        if size < toU32 (s.fdTable f).fdPos
        then ∃ b, s' = s.resized n (toU32 (s.fdTable f).fdPos) b else s' = s)
      (fun _ _ => False) s := by
  simp only [rdwtEnd, wp_bind, wp_get, wp_when, wp_pure, setInode, wp_modify]
  refine ⟨fun hlt => ?_, fun hge => ⟨trivial, ?_⟩⟩
  · refine wp_mono (syncInode_spec n) ?_ ?_
    · rintro - s' ⟨-, b, rfl⟩
      rw [if_pos hlt]
      simp only [Function.update_self]
      exact ⟨trivial, b, rfl⟩
    · rintro w s' ⟨hbad, -⟩
      simp only [Function.update_self] at hbad
      exact hbad hsync
  · rw [if_neg hge]
    trivial

theorem rdwtEnd_value : wp (rdwtEnd f n size a) (fun v _ => v = a.bytesProc) (fun _ _ => True) s := by
  simp only [rdwtEnd, wp_bind, wp_get]
  exact wp_mono (wp_true _) (fun _ _ _ => rfl) fun _ _ _ => trivial

theorem readFile_spec (hread : msg.type = .read) (hcnt : msg.m3i2 = cnt)
    (hstart : x.start = (s.inodeTable n).iStartSect) (hpos : (s.fdTable f).fdPos = x.pos)
    (hsum : x.pos + cnt < 2 ^ 32) (hfit : x.posEnd < 2 ^ 31)
    (hend : x.posEnd = min (s.inodeTable n).iSize (x.pos + cnt)) (hbeg : x.sectBeg < 2 ^ 32)
    (hsync : Syncable s (s.inodeTable n)) :
    wp (rdwtFile p msg f n)
      (fun v s' => (x.Addressed (s.inodeTable n).iDev → v = x.total) ∧ (v = x.total →
        x.Addressed (s.inodeTable n).iDev ∧ s.ReadTo x p msg.m3p2 f x.total s'))
      (fun _ _ => ¬ x.Addressed (s.inodeTable n).iDev) s := by
  have hlimit : rdwtLimit msg.type (s.inodeTable n) = (s.inodeTable n).iSize := if_pos hread
  have hle := x.le
  have htotal : x.total = x.posEnd - x.pos := rfl
  rw [← hlimit] at hend
  rw [wp, rdwtFile_eq, ← wp, hpos, wp_bind]
  rcases Nat.lt_or_ge x.sectEnd (2 ^ 31) with hlow | hhigh
  · rw [rdwtLoop_eq hstart hcnt hsum hfit hend hlow, decide_eq_true hread]
    refine wp_mono (readLoop_spec hpos (by omega)) ?_ fun _ _ hbad => hbad
    rintro a s₁ ⟨hok, hproc, u, b, rfl, hu⟩
    refine wp_mono (rdwtEnd_spec hsync) ?_ fun _ _ h => h.elim
    rintro v s₂ ⟨rfl, hs₂⟩
    refine ⟨fun _ => hproc, fun _ => ⟨hok, u, b, ?_, hu⟩⟩
    rw [if_neg] at hs₂
    · exact hs₂
    · simp only [Function.update_self]
      rw [← Nat.cast_add, toU32_of_lt (by omega)]
      omega
  · have hbad : ¬ x.Addressed (s.inodeTable n).iDev := fun hok =>
      absurd hok.sectEnd_lt (Nat.not_lt.mpr hhigh)
    refine wp_mono (rdwtLoop_wrapped hstart hcnt hsum hfit hend hbeg hhigh) ?_ fun _ _ _ => hbad
    rintro a s₁ ⟨hproc, hpos'⟩
    refine wp_mono rdwtEnd_value ?_ fun _ _ _ => hbad
    rintro v s₂ rfl
    exact ⟨fun hok => absurd hok hbad, fun hv => by omega⟩

theorem writeFile_spec (hwrite : msg.type = .write) (hcnt : msg.m3i2 = cnt)
    (hstart : x.start = (s.inodeTable n).iStartSect) (hpos : (s.fdTable f).fdPos = x.pos)
    (hend : x.posEnd = x.pos + cnt)
    (hcap : x.pos + cnt ≤ (s.inodeTable n).iNrSects * sectorSize)
    (hsmall : (s.inodeTable n).iNrSects * sectorSize ≤ fsbufSize) (hbeg : x.sectBeg < 2 ^ 32)
    (hsync : Syncable s (s.inodeTable n)) :
    wp (rdwtFile p msg f n)
      (fun v s' => (x.Addressed (s.inodeTable n).iDev → v = cnt) ∧ (v = cnt →
        x.Addressed (s.inodeTable n).iDev ∧ ∃ b b', if (s.inodeTable n).iSize < x.pos + cnt
          then s' = (s.stored x p msg.m3p2 f cnt b).resized n (x.pos + cnt) b'
          else s' = s.stored x p msg.m3p2 f cnt b))
      (fun _ _ => ¬ x.Addressed (s.inodeTable n).iDev) s := by
  have hf : fsbufSize = 1048576 := rfl
  have hkind : msg.type ≠ .read := by
    rw [hwrite]
    decide
  have hlimit : rdwtLimit msg.type (s.inodeTable n) = (s.inodeTable n).iNrSects * sectorSize := by
    rw [rdwtLimit, if_neg hkind, Nat.mod_eq_of_lt (by omega)]
  have htotal : x.total = cnt := by
    rw [Span.total]
    omega
  have hsum : x.pos + cnt < 2 ^ 32 := by omega
  have hfit : x.posEnd < 2 ^ 31 := by omega
  have hend' : x.posEnd = min (rdwtLimit msg.type (s.inodeTable n)) (x.pos + cnt) := by
    rw [hlimit]
    omega
  rw [wp, rdwtFile_eq, ← wp, hpos, wp_bind]
  rcases Nat.lt_or_ge x.sectEnd (2 ^ 31) with hlow | hhigh
  · rw [rdwtLoop_eq hstart hcnt hsum hfit hend' hlow, decide_eq_false hkind, ← htotal]
    refine wp_mono (writeLoop_spec hpos (by omega)) ?_ fun _ _ hbad => hbad
    rintro a s₁ ⟨hok, hproc, b, rfl⟩
    have hsync' : Syncable (s.stored x p msg.m3p2 f x.total b)
        ((s.stored x p msg.m3p2 f x.total b).inodeTable n) := hsync
    refine wp_mono (rdwtEnd_spec hsync') ?_ fun _ _ h => h.elim
    rintro v s₂ ⟨rfl, hs₂⟩
    refine ⟨fun _ => hproc, fun _ => ?_⟩
    have hnew : toU32 ((s.stored x p msg.m3p2 f x.total b).fdTable f).fdPos = x.pos + x.total := by
      simp only [Fs.stored, Function.update_self]
      rw [← Nat.cast_add, toU32_of_lt (by omega)]
    rw [hnew] at hs₂
    by_cases hgrow : (s.inodeTable n).iSize < x.pos + x.total
    · rw [if_pos hgrow] at hs₂
      obtain ⟨b', rfl⟩ := hs₂
      refine ⟨hok, b, b', ?_⟩
      rw [if_pos hgrow]
    · rw [if_neg hgrow] at hs₂
      refine ⟨hok, b, b, ?_⟩
      rw [if_neg hgrow]
      exact hs₂
  · refine wp_mono (rdwtLoop_wrapped hstart hcnt hsum hfit hend' hbeg hhigh) ?_
      fun _ _ _ hok => absurd hok.sectEnd_lt (Nat.not_lt.mpr hhigh)
    rintro a s₁ ⟨hproc, hpos'⟩
    refine wp_mono rdwtEnd_value ?_
      fun _ _ _ hok => absurd hok.sectEnd_lt (Nat.not_lt.mpr hhigh)
    rintro v s₂ rfl
    refine ⟨fun hok => absurd hok.sectEnd_lt (Nat.not_lt.mpr hhigh), fun hv => ?_⟩
    omega

theorem writeFile_beyond {k pos : Nat} (hwrite : msg.type = .write) (hcnt : msg.m3i2 = cnt)
    (hpos : (s.fdTable f).fdPos = pos) (hk : (s.inodeTable n).iNrSects * sectorSize = k)
    (hsum : pos + cnt < 2 ^ 32) (hle : pos ≤ k) (hmore : k < pos + cnt) (hsmall : k ≤ fsbufSize)
    (hbeg : (s.inodeTable n).iStartSect + pos / sectorSize < 2 ^ 32) :
    wp (rdwtFile p msg f n) (fun v _ => v ≠ (k - pos : Nat)) (fun _ _ => True) s := by
  have hf : fsbufSize = 1048576 := rfl
  have hkind : msg.type ≠ .read := by
    rw [hwrite]
    decide
  have hlimit : rdwtLimit msg.type (s.inodeTable n) = k := by
    rw [rdwtLimit, if_neg hkind, hk, Nat.mod_eq_of_lt (by omega)]
  obtain ⟨x, hx⟩ : ∃ x : Span, x = ⟨(s.inodeTable n).iStartSect, pos, k, hle⟩ := ⟨_, rfl⟩
  have hstart : x.start = (s.inodeTable n).iStartSect := by rw [hx]
  have hxpos : x.pos = pos := by rw [hx]
  have htotal : x.total = k - pos := by rw [hx, Span.total]
  have hend : x.posEnd = min (rdwtLimit msg.type (s.inodeTable n)) (x.pos + cnt) := by
    rw [hlimit, hx]
    exact (Nat.min_eq_left (Nat.le_of_lt hmore)).symm
  rw [← hstart, ← hxpos] at hbeg
  rw [← hxpos] at hpos hsum
  have hfit : x.posEnd < 2 ^ 31 := by
    rw [hx]
    dsimp only
    omega
  rw [← htotal, wp, rdwtFile_eq, ← wp, hpos, wp_bind]
  rcases Nat.lt_or_ge x.sectEnd (2 ^ 31) with hlow | hhigh
  · rw [rdwtLoop_eq hstart hcnt hsum hfit hend hlow, decide_eq_false hkind, Span.vars, Span.moved_zero,
      Nat.cast_zero, Int.sub_zero]
    refine wp_mono (writeLoop_count cnt x.rounds _ _ _) ?_ fun _ _ h => h
    rintro a s₁ hproc
    refine wp_mono rdwtEnd_value ?_ fun _ _ h => h
    rintro v s₂ rfl
    have hlt := x.total_lt
    rw [hproc]
    omega
  · refine wp_mono (rdwtLoop_wrapped hstart hcnt hsum hfit hend hbeg hhigh) ?_ fun _ _ h => h
    rintro a s₁ ⟨hproc, hpos'⟩
    refine wp_mono rdwtEnd_value ?_ fun _ _ h => h
    rintro v s₂ rfl
    omega

theorem readLoop_none (hread : msg.type = .read) {i : Inode}
    (hend : toI32 (min (rdwtLimit msg.type i) (toU32 ((s.fdTable f).fdPos + msg.m3i2))) ≤
      (s.fdTable f).fdPos) :
    wp (rdwtLoop p msg f i (s.fdTable f).fdPos)
      (fun a s' => a.bytesProc = 0 ∧ s'.fdTable = s.fdTable) (fun _ _ => True) s := by
  rw [rdwtLoop]
  apply wp_iter (I := fun _ (a : Transfer) s' => a.bytesProc = 0 ∧ s'.fdTable = s.fdTable) ⟨rfl, rfl⟩
  · rintro r a s₁ - - ⟨ha, hfd⟩
    rw [rdwtRound, wp_bind]
    refine wp_mono (rdSects_buffer _ _ _) ?_ fun _ _ h => h
    rintro - s₂ ⟨b, rfl⟩
    rw [wp_bind, wp_get, if_pos (decide_eq_true hread), hfd, if_pos hend, wp_pure]
    exact ⟨ha, rfl⟩
  · intro a s₁ h
    exact h

/-- A read that begins behind the contents makes the file longer. -/
theorem readFile_behind {pos : Nat} (hread : msg.type = .read) (hcnt : msg.m3i2 = cnt)
    (hpos : (s.fdTable f).fdPos = pos) (hlt : pos < 2 ^ 31) (hsum : pos + cnt < 2 ^ 32)
    (hbehind : (s.inodeTable n).iSize < pos) :
    wp (rdwtFile p msg f n) (fun _ s' => s'.inodeTable n ≠ s.inodeTable n) (fun _ _ => True) s := by
  have hend : toI32 (min (rdwtLimit msg.type (s.inodeTable n))
      (toU32 ((s.fdTable f).fdPos + msg.m3i2))) ≤ (s.fdTable f).fdPos := by
    rw [hpos, hcnt, ← Nat.cast_add, toU32_of_lt hsum, rdwtLimit, if_pos hread]
    unfold toI32
    omega
  rw [wp, rdwtFile_eq, ← wp, wp_bind]
  refine wp_mono (readLoop_none hread hend) ?_ fun _ _ h => h
  rintro a s₁ ⟨-, hfd⟩
  have hsize : (s.inodeTable n).iSize < toU32 (s₁.fdTable f).fdPos := by
    rw [hfd, hpos, toU32_of_lt (by omega)]
    exact hbehind
  simp only [rdwtEnd, wp_bind, wp_get, wp_when, wp_pure, setInode, wp_modify]
  refine ⟨fun _ => ?_, fun hge => absurd hsize hge⟩
  refine wp_mono (syncInode_spec n) ?_ fun _ _ _ => trivial
  rintro - s' ⟨-, b, rfl⟩ hsame
  have hsize' := congrArg Inode.iSize hsame
  simp only [Function.update_self] at hsize'
  omega

/-- A read whose end is that of no signed integer moves nothing. -/
theorem readFile_far {pos : Nat} (hread : msg.type = .read) (hcnt : msg.m3i2 = cnt)
    (hpos : (s.fdTable f).fdPos = pos) (hsum : pos + cnt < 2 ^ 32)
    (hfar : 2 ^ 31 ≤ min (s.inodeTable n).iSize (pos + cnt)) :
    wp (rdwtFile p msg f n) (fun v _ => v = 0) (fun _ _ => True) s := by
  have hend : toI32 (min (rdwtLimit msg.type (s.inodeTable n))
      (toU32 ((s.fdTable f).fdPos + msg.m3i2))) ≤ (s.fdTable f).fdPos := by
    rw [hpos, hcnt, ← Nat.cast_add, toU32_of_lt hsum, rdwtLimit, if_pos hread]
    unfold toI32
    omega
  rw [wp, rdwtFile_eq, ← wp, wp_bind]
  refine wp_mono (readLoop_none hread hend) ?_ fun _ _ h => h
  rintro a s₁ ⟨ha, -⟩
  rw [← ha]
  exact rdwtEnd_value

end Files

end FS

end BazingaOS
