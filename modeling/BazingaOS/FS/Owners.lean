import BazingaOS.FS.FirstFile

/-!
# Ownership of the sectors

The inode of a file has its first sector and their number, so the sectors are next to each other.
`alloc_smap_bit` takes the first clear bits of the sector map wherever they are. As long as these
are next to each other, no two inodes share a sector.
-/

namespace BazingaOS

open Prog

namespace FS

/-- The first clear bit of the sector map begins a run of clear bits that is long enough for a
file. -/
def Contiguous (s : Fs) : Prop :=
  ∀ f, Free s.disk 3 f → (∀ g, g < f → ¬ Free s.disk 3 g) →
    ∀ k, k < nrDefaultFileSects → Free s.disk 3 (f + k)

end FS

/-- No two inodes in use have a sector in common, and the sectors of every inode in use are
marked. -/
structure Fs.Owned (s : Fs) : Prop where
  apart : s.NoOverlap
  marked : ∀ nr, InUse s.disk nr → (storedInode s.sb s.disk nr).Owner →
    Marked s.sb s.disk (storedInode s.sb s.disk nr)

section Step

variable {s s' : Fs} {r : Fin nrInode} {nr f : Nat}

theorem Fs.NoOverlap.of_keeps (hno : s.NoOverlap) (hsb : s'.sb.layout = s.sb.layout)
    (h : KeepsOwners s.sb 0 s.disk s'.disk) : s'.NoOverlap := by
  rw [Fs.NoOverlap, SuperBlock.eq_of_layout hsb]
  intro m n hm hn hne hmown hnown
  obtain ⟨hm₀, hmown₀, hmstart, hmsects⟩ := h m (Nat.ne_of_gt hm.1) hm hmown
  obtain ⟨hn₀, hnown₀, hnstart, hnsects⟩ := h n (Nat.ne_of_gt hn.1) hn hnown
  have hapart := hno m n hm₀ hn₀ hne hmown₀ hnown₀
  rw [DiskInode.Apart] at hapart ⊢
  change (storedInode s.sb s'.disk m).startSect + (storedInode s.sb s'.disk m).nrSects ≤
      (storedInode s.sb s'.disk n).startSect ∨ (storedInode s.sb s'.disk n).startSect +
        (storedInode s.sb s'.disk n).nrSects ≤ (storedInode s.sb s'.disk m).startSect
  rw [hmstart, hmsects, hnstart, hnsects]
  exact hapart

theorem Marked.apart_of_free {sb : SuperBlock} {d : Bytes} {i : DiskInode} (h : Marked sb d i)
    (hfirst : 1 ≤ sb.n1stSect)
    (hfree : ∀ k, k < nrDefaultFileSects → Free d 3 (f + k)) :
    sb.n1stSect - 1 + f + nrDefaultFileSects ≤ i.startSect ∨
      i.startSect + i.nrSects ≤ sb.n1stSect - 1 + f := by
  obtain ⟨hstart, hsects, -, hset⟩ := h
  have hclash : ∀ b, sb.firstBit i ≤ b → b < sb.firstBit i + i.nrSects → f ≤ b →
      ¬ b < f + nrDefaultFileSects := by
    intro b hb hlt hfb hbf
    obtain ⟨k, rfl⟩ := Nat.exists_eq_add_of_le hfb
    have hclear := hfree k (by omega)
    rw [Free, hset _ hb hlt] at hclear
    cases hclear
  rw [SuperBlock.firstBit] at hclash
  have hdef : nrDefaultFileSects = 2048 := rfl
  rw [hdef] at hclash ⊢
  rw [hsects, hdef] at hclash ⊢
  by_contra hover
  rcases Nat.le_total f (i.startSect + 1 - sb.n1stSect) with hle | hle
  · exact hclash _ (Nat.le_refl _) (by omega) hle (by omega)
  · exact hclash f hle (by omega) (Nat.le_refl f) (by omega)

/-- A new file gets sectors of its own if the first clear bits are next to each other. -/
theorem Fs.NoOverlap.of_new (hno : s.NoOverlap) (h : s.Sound r 0) (h' : s'.Sound r 0)
    (hsb : s'.sb.layout = s.sb.layout) (hnew : NewOwner s s' nr f) (hcont : FS.Contiguous s) :
    s'.NoOverlap := by
  have hfirst := h.laid.first
  have hfree := hcont f hnew.free hnew.first
  have hsb' := SuperBlock.eq_of_layout hsb
  have hstored : ∀ m, storedInode s'.sb s'.disk m = storedInode s.sb s'.disk m := by
    intro m
    rw [hsb']
    rfl
  -- the new file and another inode
  have hother : ∀ m, InUse s'.disk m → m ≠ nr → InUse s'.disk nr →
      (storedInode s.sb s'.disk m).Owner → (storedInode s.sb s'.disk nr).Owner →
      (storedInode s.sb s'.disk nr).Apart (storedInode s.sb s'.disk m) := by
    intro m hm hne huse hmown hown
    obtain ⟨hm₀, hmown₀, hmstart, hmsects⟩ := hnew.keeps m hne hm hmown
    have hmark := h.disk.marked m hm₀ (Nat.ne_of_gt hm₀.1) hmown₀
    have hsects : (storedInode s.sb s'.disk nr).nrSects = nrDefaultFileSects := by
      rw [← hstored] at hown ⊢
      exact (h'.disk.marked nr huse hnew.number hown).sects
    rw [DiskInode.Apart, hmstart, hmsects, hnew.start huse hown, hsects]
    exact hmark.apart_of_free (by omega) hfree
  intro m n hm hn hne hmown hnown
  rw [hstored] at hmown hnown
  rw [hstored, hstored]
  by_cases hmn : m = nr
  · subst hmn
    exact hother n hn (Ne.symm hne) hm hnown hmown
  by_cases hnn : n = nr
  · subst hnn
    exact (hother m hm hne hn hmown hnown).symm
  obtain ⟨hm₀, hmown₀, hmstart, hmsects⟩ := hnew.keeps m hmn hm hmown
  obtain ⟨hn₀, hnown₀, hnstart, hnsects⟩ := hnew.keeps n hnn hn hnown
  have hapart := hno m n hm₀ hn₀ hne hmown₀ hnown₀
  rw [DiskInode.Apart] at hapart ⊢
  rw [hmstart, hmsects, hnstart, hnsects]
  exact hapart

end Step

/-- Requests that find the first clear bits of the sector map next to each other when they create a
file. -/
def FS.AnsweredContiguous (s : Fs) (c : FS.FileCall × Pid × Message) (s' : Fs) : Prop :=
  FS.Answered s c s' ∧ (FS.Creating s c → FS.Contiguous s)

section Runs

variable {size : Nat} {s s' : Fs} {r : Fin nrInode} {l : List (FS.FileCall × Pid × Message)}

theorem owned_step {c : FS.FileCall × Pid × Message} (h : s.Sound r 0) (hno : s.NoOverlap)
    (hstep : FS.AnsweredContiguous s c s') : s'.Sound r 0 ∧ s'.NoOverlap := by
  obtain ⟨hans, hcont⟩ := hstep
  obtain ⟨h', hkept⟩ := FS.answered_sound h hno hans
  have hsb : s'.sb.layout = s.sb.layout := FS.layout_answered hans
  refine ⟨h', ?_⟩
  rcases hkept with hkeeps | ⟨hcreate, nr, f, hnew⟩
  · exact hno.of_keeps hsb hkeeps
  · exact hno.of_new h h' hsb hnew (hcont hcreate)

/-- Every run from a new file system. -/
theorem sectors_owned {s₀ : Fs} (hsize : size < 2 ^ 32)
    (hmin : installStartSect + installNrSects ≤ size) (hmount : s₀.Mounted size)
    (hroom : (FS.makeSuperBlock size).n1stSect + nrDefaultFileSects ≤ installStartSect)
    (hrun : Run FS.AnsweredContiguous s₀ l s) : s.Owned := by
  obtain ⟨_, hjust⟩ := hmount.justMounted hsize
  rw [hjust.n1stSect_eq] at hroom
  have hstart := hjust.sound hmin hroom
  have hrun' := hrun.invariant (I := fun u => (∃ r, u.Sound r 0) ∧ u.NoOverlap)
    ⟨hstart, (hjust.noOverlap_iff hmin).mpr hroom⟩ fun u c v hstep hu => by
      obtain ⟨⟨r, hs⟩, hno⟩ := hu
      obtain ⟨hs', hno'⟩ := owned_step hs hno hstep
      exact ⟨⟨r, hs'⟩, hno'⟩
  obtain ⟨⟨r, hs⟩, hno⟩ := hrun'
  exact ⟨hno, fun nr huse hown => hs.disk.marked nr huse (Nat.ne_of_gt huse.1) hown⟩

/-- In a new file system on the smallest partition INIT opens `cmd.tar`, creates a file and closes
it. -/
theorem sectors_owned_created : ∃ s fd s', Fs.Mounted 34816 s ∧
    Run FS.AnsweredContiguous s [(.open, init, openCmdTar), (.open, init, createTar),
      (.close, init, closeFile fd)] s' ∧ s'.Owned := by
  obtain ⟨s, u, s₁, s', fd₀, fd, hmount, -, -, hopen, hcreate, hclose, hfree⟩ := exists_first_file
  have hnot : ¬ oCreat openCmdTar.m3i1 = true := by decide
  have hcont : FS.Contiguous u := by
    intro f hf hfirst k hk
    have hle : f ≤ nrDefaultFileSects + 1 := by
      by_contra hlt
      exact hfirst _ (Nat.lt_of_not_le hlt) ((hfree _ (by decide)).mpr (Nat.lt_succ_self _))
    have hdef : nrDefaultFileSects = 2048 := rfl
    have hlow := (hfree f (by omega)).mp hf
    exact (hfree (f + k) (by omega)).mpr (by omega)
  have hrun : Run FS.AnsweredContiguous s ((([] ++ [(.open, init, openCmdTar)]) ++
      [(.open, init, createTar)]) ++ [(.close, init, closeFile fd)]) s' :=
    .snoc (.snoc (.snoc .nil ⟨⟨fd₀, hopen⟩, fun hc => absurd hc.2.1 hnot⟩)
      ⟨⟨fd, hcreate⟩, fun _ => hcont⟩) ⟨⟨0, hclose⟩, fun hc => nomatch hc.1⟩
  exact ⟨s, fd, s', hmount, hrun, sectors_owned (by decide) (by decide) hmount (by decide) hrun⟩

/-- On a partition of 124768256 sectors the last sector of the root directory is the first of
`cmd.tar`. -/
theorem sectors_shared_at_start : ∃ s, Fs.Mounted 124768256 s ∧ ¬ s.Owned := by
  obtain ⟨s₀, s, hmount, hjust, -⟩ := @exists_mounted 124768256 (by decide) (by decide)
    fun _ _ => 0
  refine ⟨s, hmount, fun hown => ?_⟩
  have hroom := (hjust.noOverlap_iff (by decide)).mp hown.apart
  rw [← hjust.n1stSect_eq] at hroom
  exact absurd hroom (by decide)

end Runs

end BazingaOS
