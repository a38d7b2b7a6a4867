import BazingaOS.FS.Reached

/-!
# Allocation and the end of the partition

The sector map has a bit for every sector of the partition, also for those in front of the data
area, and is rounded up to whole sectors. Its last bits stand for no sector of the partition, but
are clear like those of free sectors.
-/

namespace BazingaOS

open Prog

/-- Every sector that has been marked in the sector map is one of the data area. -/
def AllocatedInData (s s' : Fs) : Prop :=
  ∀ b, b < s.sb.smapBits → Free s.disk s.sb.smapSect b → ¬ Free s'.disk s.sb.smapSect b →
    s.sb.n1stSect ≤ s.sb.bitSect b ∧ s.sb.bitSect b < s.sb.nrSects

/-- The reserved bit is set, and `n` bits of sectors of the data area are clear. -/
def DataFree (s : Fs) (n : Nat) : Prop :=
  ¬ Free s.disk s.sb.smapSect 0 ∧
    n ≤ Nat.count (Free s.disk s.sb.smapSect) (s.sb.nrSects + 1 - s.sb.n1stSect)

section DataArea

variable {size n nr : Nat} {s s' : Fs}

theorem SmapAllocated.marked_iff (h : SmapAllocated s n nr s') {b : Nat} (hb : b < s.sb.smapBits) :
    Free s.disk s.sb.smapSect b ∧ ¬ Free s'.disk s.sb.smapSect b ↔
      AmongFirst (Free s.disk s.sb.smapSect) n b := by
  constructor
  · rintro ⟨hfree, hset⟩
    have hone : bitAt s'.disk (sectBit s.sb.smapSect + b) = true := by simpa [Free] using hset
    rcases (h.taken _).mp hone with hold | ⟨c, -, hc, heq⟩
    · rw [Free, hold] at hfree
      cases hfree
    · obtain rfl : b = c := by omega
      exact hc
  · intro hfirst
    refine ⟨hfirst.1, fun hfree => ?_⟩
    have hone := (h.taken (sectBit s.sb.smapSect + b)).mpr (.inr ⟨b, hb, hfirst, rfl⟩)
    rw [Free, hone] at hfree
    cases hfree

theorem SmapAllocated.inData_iff (h : SmapAllocated s n nr s') (hn : 0 < n)
    (hfirst : 1 ≤ s.sb.n1stSect) : AllocatedInData s s' ↔ DataFree s n := by
  have hbelow := forall_amongFirst_lt_iff (K := s.sb.nrSects + 1 - s.sb.n1stSect) h.enough
  have hzero : AmongFirst (Free s.disk s.sb.smapSect) n 0 ↔ Free s.disk s.sb.smapSect 0 :=
    and_iff_left (by rwa [Nat.count_zero])
  rw [DataFree, ← hbelow, ← hzero]
  constructor
  · intro hdata
    have hmark : ∀ b, b < s.sb.smapBits → AmongFirst (Free s.disk s.sb.smapSect) n b →
        s.sb.n1stSect ≤ s.sb.bitSect b ∧ s.sb.bitSect b < s.sb.nrSects := fun b hb hb' =>
      hdata b hb ((h.marked_iff hb).mpr hb').1 ((h.marked_iff hb).mpr hb').2
    constructor
    · intro h₀
      have hlow := (hmark 0 (h₀.lt h.enough) h₀).1
      rw [SuperBlock.bitSect] at hlow
      omega
    · intro b hb hb'
      have hhigh := hmark b hb hb'
      rw [SuperBlock.bitSect] at hhigh
      omega
  · rintro ⟨h₀, hlt⟩ b hb hfree hset
    have hb' := (h.marked_iff hb).mp ⟨hfree, hset⟩
    have hK := hlt b hb hb'
    have hpos : b ≠ 0 := by
      rintro rfl
      exact h₀ hb'
    rw [SuperBlock.bitSect]
    omega

theorem DataFree.firstFits (h : DataFree s n) (hn : 0 < n) (hsize : s.sb.nrSects < 2 ^ 32) :
    FirstFits s.sb s.disk := by
  intro f _ _ hfirst
  obtain ⟨c, hc, hfree⟩ := Nat.count_ne_iff_exists.mp
    (show Nat.count (Free s.disk s.sb.smapSect) (s.sb.nrSects + 1 - s.sb.n1stSect) ≠ 0 by
      have hcount := h.2
      omega)
  have hle : f ≤ c := by
    by_contra hlt
    exact hfirst c (Nat.lt_of_not_le hlt) hfree
  rw [SuperBlock.bitSect]
  omega

/-- Unless the partition has almost `2 ^ 32` sectors, every bit of the map stands for a number of
32 bits. -/
theorem firstFits_of_layout (hsize : size + 2 ^ 21 ≤ 2 ^ 32)
    (h : s.layout = (FS.makeSuperBlock size).layout) : FirstFits s.sb s.disk := by
  obtain ⟨-, hsmap, hfirst, -⟩ := fields_of_layout h
  intro f hf _ _
  have hs : sectorSize = 512 := rfl
  rw [SuperBlock.smapBits, hsmap, makeSuperBlock_nrSmapSects, hs] at hf
  rw [SuperBlock.bitSect, hfirst, makeSuperBlock_n1stSect, hs]
  omega

/-- In a file system in use the sectors that are allocated are sectors of the data area if it has
enough that are free, and, unless the numbers of the sectors overflow, only then. -/
theorem allocated_in_data_iff (hsize : size < 2 ^ 32) (hr : s.Reached size) (hn : 0 < n)
    (hrun : FS.allocSmapBit rootDev n s = .ok nr s') :
    (DataFree s n → AllocatedInData s s') ∧
      (size + 2 ^ 21 ≤ 2 ^ 32 → (AllocatedInData s s' ↔ DataFree s n)) := by
  have hlayout := hr.layout_eq hsize
  have hok := mapsOk_of_layout hsize hlayout
  obtain ⟨-, -, -, hnr⟩ := fields_of_layout hlayout
  have hfirst : 1 ≤ s.sb.n1stSect := Nat.le_of_succ_le hok.first
  constructor
  · intro hfree
    have halloc := wp_ok (FS.allocSmapBit_spec hok (hfree.firstFits hn (hnr ▸ hsize)) hn) hrun
    exact (halloc.inData_iff hn hfirst).mpr hfree
  · intro hsmall
    have halloc := wp_ok (FS.allocSmapBit_spec hok (firstFits_of_layout hsmall hlayout) hn) hrun
    exact halloc.inData_iff hn hfirst

end DataArea

section Partitions

variable {size n N : Nat} {s₀ s : Fs}

theorem JustMounted.free_iff_lt (h : JustMounted size s₀ s)
    (hN : N + (FS.makeSuperBlock size).n1stSect ≤ installStartSect + 1)
    (hmap : N ≤ (FS.makeSuperBlock size).smapBits) {b : Nat} (hb : b < N) :
    Free s.disk s.sb.smapSect b ↔ nrDefaultFileSects < b := by
  rw [h.free_iff (Nat.lt_of_lt_of_le hb hmap), smapAfter, Bool.or_eq_false_iff,
    decide_eq_false_iff_not, decide_eq_false_iff_not]
  omega

theorem JustMounted.count_eq (h : JustMounted size s₀ s)
    (hN : N + (FS.makeSuperBlock size).n1stSect ≤ installStartSect + 1)
    (hmap : N ≤ (FS.makeSuperBlock size).smapBits) :
    Nat.count (Free s.disk s.sb.smapSect) N = N - (nrDefaultFileSects + 1) :=
  count_of_above fun _ hb => h.free_iff_lt hN hmap hb

theorem JustMounted.exists_alloc (h : JustMounted size s₀ s) (hsize : size + 2 ^ 21 ≤ 2 ^ 32)
    (hN : N + (FS.makeSuperBlock size).n1stSect ≤ installStartSect + 1)
    (hmap : N ≤ (FS.makeSuperBlock size).smapBits) (hn : 0 < n)
    (hle : n ≤ N - (nrDefaultFileSects + 1)) :
    ∃ nr s', FS.allocSmapBit rootDev n s = .ok nr s' ∧ SmapAllocated s n nr s' := by
  have hcount := h.count_eq hN hmap
  have hbits : s.sb.smapBits = (FS.makeSuperBlock size).smapBits := by
    rw [SuperBlock.smapBits, (fields_of_layout h.layout).2.1]
    rfl
  have hmono := Nat.count_monotone (Free s.disk s.sb.smapSect) hmap
  rw [hcount, ← hbits] at hmono
  have hok := mapsOk_of_layout (by omega) h.layout
  have hspec := FS.allocSmapBit_spec hok (firstFits_of_layout hsize h.layout) hn
  exact exists_ok_of_wp (wp_mono hspec (fun _ _ h => h)
    fun _ _ h => absurd h.2.short (Nat.not_lt.mpr (Nat.le_trans hle hmono)))

/-- The first file of a new file system on the smallest partition that has room for `cmd.tar`. -/
theorem first_file_in_data : ∃ s nr s', Fs.Reached 34816 s ∧
    FS.allocSmapBit rootDev nrDefaultFileSects s = .ok nr s' ∧ AllocatedInData s s' := by
  obtain ⟨s₀, s, hmount, hjust, -⟩ := @exists_mounted 34816 (by decide) (by decide)
    fun _ _ => 0
  have hN : 4097 + (FS.makeSuperBlock 34816).n1stSect ≤ installStartSect + 1 := by decide
  have hmap : 4097 ≤ (FS.makeSuperBlock 34816).smapBits := by decide
  obtain ⟨nr, s', hrun, -⟩ := hjust.exists_alloc (n := nrDefaultFileSects) (by decide) hN hmap
    (by decide) (by decide)
  refine ⟨s, nr, s', hmount.reached, hrun,
    (allocated_in_data_iff (by decide) hmount.reached (by decide) hrun).1 ⟨fun h₀ => ?_, ?_⟩⟩
  · exact absurd ((hjust.free_iff_lt hN hmap (by decide)).mp h₀) (by decide)
  · obtain ⟨-, -, hfirst, hnr⟩ := fields_of_layout hjust.layout
    rw [hfirst, hnr]
    calc nrDefaultFileSects = Nat.count (Free s.disk s.sb.smapSect) 4097 :=
          (hjust.count_eq hN hmap).symm
      _ ≤ _ := Nat.count_monotone _ (by decide)

/-- A partition of 4096 sectors has no room for a file behind the root directory: the first one
gets sectors behind the end of the partition. -/
theorem first_file_beyond_partition : ∃ s nr s', Fs.Reached 4096 s ∧
    FS.allocSmapBit rootDev nrDefaultFileSects s = .ok nr s' ∧ ¬ AllocatedInData s s' := by
  obtain ⟨s₀, s, hmount, hjust, -⟩ := @exists_mounted 4096 (by decide) (by decide)
    fun _ _ => 0
  obtain ⟨nr, s', hrun, halloc⟩ := hjust.exists_alloc (N := 8192) (n := nrDefaultFileSects)
    (by decide) (by decide) (by decide) (by decide) (by decide)
  refine ⟨s, nr, s', hmount.reached, hrun, fun hdata => ?_⟩
  obtain ⟨-, -, hfirst, hnr⟩ := fields_of_layout hjust.layout
  have hone : 1 ≤ s.sb.n1stSect := by
    rw [hfirst]
    decide
  have hfree := ((halloc.inData_iff (by decide) hone).mp hdata).2
  rw [hfirst, hnr, hjust.count_eq (by decide) (by decide)] at hfree
  exact absurd hfree (by decide)

end Partitions

end BazingaOS
