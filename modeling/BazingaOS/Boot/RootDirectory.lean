import BazingaOS.Boot.LoadKernel
import BazingaOS.Lib.Least

/-!
# Looking for the kernel file

`boot/loader.asm` reads the root directory of the floppy disk sector by sector and compares the
first eleven bytes of each of its entries with the name of the kernel.
-/

namespace BazingaOS

open Prog

def sectorNoOfRootDirectory : Nat := 19

/-- "KERNEL  BIN". -/
def kernelFileName : List UInt8 :=
  [0x4B, 0x45, 0x52, 0x4E, 0x45, 0x4C, 0x20, 0x20, 0x42, 0x49, 0x4E]

namespace Loader

/-- `COMPARE_EVERY_BYTE`: as many bytes are left as `wByteNo` says. The end of an equal name is in
`di`. -/
def compareEveryByte (m : Bytes) (es : Nat) : List UInt8 → Nat → Option Nat
  | [], di => some di
  | al :: rest, di =>
    if al = m (16 * es + di) then compareEveryByte m es rest (add16 di 1) else none

/-- `COMPARE_EVERY_ENT`: `wDirtNo` entries of the sector are left. -/
def compareEveryEnt (m : Bytes) (es : Nat) (name : List UInt8) : Nat → Option Nat
  | 0 => none
  | wDirtNo + 1 =>
    match compareEveryByte m es name (add16 ((0x10 - (wDirtNo + 1)) * 0x20) offsetOfKernel) with
    | some di => some di
    | none => compareEveryEnt m es name wDirtNo

/-- `READ_ON_SECTOR`: `wRootDirSizeForLoop` sectors of the directory are left. -/
def readOnSector : Nat → Nat → Prog Loader (Option Nat)
  | 0, _ => pure none
  | wRootDirSizeForLoop + 1, wSectorNo => do
    readSector wSectorNo 1 baseOfKernel offsetOfKernel
    match compareEveryEnt (← get).mem baseOfKernel kernelFileName 0x10 with
    | some di => return some di
    | none => readOnSector wRootDirSizeForLoop (add16 wSectorNo 1)

/-- The first cluster in the entry whose name ends at `di`. -/
def firstCluster (m : Bytes) (di : Nat) : Nat :=
  u16At m (16 * baseOfKernel + add16 (di &&& 0xFFE0) 0x1A)

/-- Without a kernel the loader says so and spins. -/
def loadKernel (fuel : Nat) : Prog Loader Unit := do
  match ← readOnSector rootDirSectors sectorNoOfRootDirectory with
  | none => halt .hang
  | some di => loaderFound fuel (firstCluster (← get).mem di)

end Loader

/-- Where entry `i` of the root directory is on the disk. -/
def rootEnt (i : Nat) : Nat := bytesPerSec * sectorNoOfRootDirectory + 0x20 * i

def rootEntries : Nat := 0x10 * rootDirSectors

/-- The entry `i` of the root directory has the name of the kernel. -/
def IsKernelEntry (disk : Bytes) (i : Nat) : Prop :=
  ∀ j (hj : j < kernelFileName.length), kernelFileName[j] = disk (rootEnt i + j)

instance (disk : Bytes) (i : Nat) : Decidable (IsKernelEntry disk i) :=
  inferInstanceAs (Decidable (∀ _, _))

/-- `i` is the first kernel entry from `lo` on, and in front of `hi`. -/
structure FirstKernel (disk : Bytes) (lo hi i : Nat) : Prop where
  range : lo ≤ i ∧ i < hi
  entry : IsKernelEntry disk i
  first : ∀ k, lo ≤ k → k < i → ¬ IsKernelEntry disk k

/-- The entry of the kernel that the loader uses. -/
def KernelEntry (disk : Bytes) (i : Nat) : Prop := FirstKernel disk 0 rootEntries i

def entryCluster (disk : Bytes) (i : Nat) : Nat := u16At disk (rootEnt i + 0x1A)

theorem FirstKernel.extend {disk : Bytes} {lo lo' hi i : Nat} (h : FirstKernel disk lo' hi i)
    (hlo : lo ≤ lo') (hnone : ∀ k, lo ≤ k → k < lo' → ¬ IsKernelEntry disk k) :
    FirstKernel disk lo hi i := by
  obtain ⟨⟨hge, hlt⟩, hentry, hfirst⟩ := h
  refine ⟨⟨hlo.trans hge, hlt⟩, hentry, fun k hk hki => ?_⟩
  rcases Nat.lt_or_ge k lo' with hk' | hk'
  · exact hnone k hk hk'
  · exact hfirst k hk' hki

theorem FirstKernel.unique {disk : Bytes} {lo hi i i' : Nat} (h : FirstKernel disk lo hi i)
    (h' : FirstKernel disk lo hi i') : i = i' := by
  rcases Nat.lt_trichotomy i i' with hlt | heq | hgt
  · exact absurd h.entry (h'.first i h.range.1 hlt)
  · exact heq
  · exact absurd h'.entry (h.first i' h'.range.1 hgt)

namespace Loader

variable {m : Bytes} {s : Loader} {es di n : Nat}

theorem compareEveryByte_eq_some {name : List UInt8} (hdi : di + name.length < 0x10000)
    (h : ∀ j (hj : j < name.length), name[j] = m (16 * es + di + j)) :
    compareEveryByte m es name di = some (di + name.length) := by
  induction name generalizing di with
  | nil => rfl
  | cons c rest ih =>
    rw [List.length_cons] at hdi
    have hadd : add16 di 1 = di + 1 := Nat.mod_eq_of_lt (by omega)
    have hhead : c = m (16 * es + di) := h 0 (Nat.succ_pos _)
    have hrest : ∀ j (hj : j < rest.length), rest[j] = m (16 * es + (di + 1) + j) := by
      intro j hj
      have hnext := h (j + 1) (Nat.succ_lt_succ hj)
      rw [List.getElem_cons_succ] at hnext
      rw [hnext]
      congr 1
      omega
    rw [compareEveryByte, if_pos hhead, hadd, ih (by omega) hrest, List.length_cons]
    congr 1
    omega

theorem compareEveryByte_eq_none {name : List UInt8} (hdi : di + name.length < 0x10000)
    (h : ¬ ∀ j (hj : j < name.length), name[j] = m (16 * es + di + j)) :
    compareEveryByte m es name di = none := by
  induction name generalizing di with
  | nil => exact absurd (fun j hj => absurd hj (Nat.not_lt_zero j)) h
  | cons c rest ih =>
    rw [List.length_cons] at hdi
    have hadd : add16 di 1 = di + 1 := Nat.mod_eq_of_lt (by omega)
    rw [compareEveryByte, hadd]
    split
    · next hhead =>
      apply ih (by omega)
      intro hrest
      apply h
      intro j hj
      cases j with
      | zero => exact hhead
      | succ j =>
        rw [List.getElem_cons_succ, hrest j (Nat.lt_of_succ_lt_succ hj)]
        congr 1
        omega
    · rfl

/-- The sector of the directory that has the entries from `16 * k` on is in memory. -/
def HasSector (m disk : Bytes) (k : Nat) : Prop :=
  ∀ j < bytesPerSec, m (16 * baseOfKernel + j) =
    disk (bytesPerSec * (sectorNoOfRootDirectory + k) + j)

theorem HasSector.entry {disk : Bytes} {k e j : Nat} (h : HasSector m disk k) (he : e < 16)
    (hj : j < 0x20) : m (16 * baseOfKernel + 0x20 * e + j) = disk (rootEnt (16 * k + e) + j) := by
  have hplace : 16 * baseOfKernel + 0x20 * e + j = 16 * baseOfKernel + (0x20 * e + j) := by omega
  have hdisk : rootEnt (16 * k + e) + j =
      bytesPerSec * (sectorNoOfRootDirectory + k) + (0x20 * e + j) := by
    unfold rootEnt bytesPerSec sectorNoOfRootDirectory
    omega
  rw [hplace, hdisk]
  apply h
  unfold bytesPerSec
  omega

theorem HasSector.isKernelEntry_iff {disk : Bytes} {k e : Nat} (h : HasSector m disk k)
    (he : e < 16) : IsKernelEntry disk (16 * k + e) ↔
      ∀ j (hj : j < kernelFileName.length),
        kernelFileName[j] = m (16 * baseOfKernel + 0x20 * e + j) := by
  have hlen : kernelFileName.length = 11 := rfl
  constructor
  · intro hentry j hj
    rw [h.entry he (by omega)]
    exact hentry j hj
  · intro hentry j hj
    rw [← h.entry he (by omega)]
    exact hentry j hj

theorem compareEveryEnt_spec {disk : Bytes} {k : Nat} (h : HasSector m disk k) (hn : n ≤ 16) :
    (∃ e, FirstKernel disk (16 * k + (16 - n)) (16 * (k + 1)) (16 * k + e) ∧ e < 16 ∧
      compareEveryEnt m baseOfKernel kernelFileName n = some (0x20 * e + 11)) ∨
    (∀ i, 16 * k + (16 - n) ≤ i → i < 16 * (k + 1) → ¬ IsKernelEntry disk i) ∧
      compareEveryEnt m baseOfKernel kernelFileName n = none := by
  induction n with
  | zero =>
    right
    exact ⟨fun i hge hlt => absurd hlt (by omega), rfl⟩
  | succ n ih =>
    have he : 16 - (n + 1) < 16 := by omega
    have hplace : add16 ((0x10 - (n + 1)) * 0x20) offsetOfKernel = 0x20 * (16 - (n + 1)) := by
      unfold add16 offsetOfKernel
      omega
    have hlen : kernelFileName.length = 11 := rfl
    have hsplit : 16 * k + (16 - n) = 16 * k + (16 - (n + 1)) + 1 := by omega
    rw [compareEveryEnt, hplace]
    by_cases hentry : IsKernelEntry disk (16 * k + (16 - (n + 1)))
    · left
      refine ⟨16 - (n + 1), ⟨⟨le_rfl, by omega⟩, hentry, fun i hge hlt => by omega⟩, he, ?_⟩
      rw [compareEveryByte_eq_some (by omega) ((h.isKernelEntry_iff he).mp hentry), hlen]
    · rw [compareEveryByte_eq_none (by omega) ((h.isKernelEntry_iff he).not.mp hentry)]
      have hnone : ∀ i, 16 * k + (16 - (n + 1)) ≤ i → i < 16 * k + (16 - n) →
          ¬ IsKernelEntry disk i := by
        intro i hge hlt
        have hi : i = 16 * k + (16 - (n + 1)) := by omega
        exact hi ▸ hentry
      rcases ih (by omega) with ⟨e, hfirst, he', heq⟩ | ⟨hrest, heq⟩
      · exact Or.inl ⟨e, hfirst.extend (by omega) hnone, he', heq⟩
      · refine Or.inr ⟨fun i hge hlt => ?_, heq⟩
        rcases Nat.lt_or_ge i (16 * k + (16 - n)) with hi | hi
        · exact hnone i hge hi
        · exact hrest i hi hlt

def rootRead (k : Nat) : SectorRead := ⟨sectorNoOfRootDirectory + k, 1, 16 * baseOfKernel⟩

theorem hasSector_afterRead (s : Loader) (k : Nat) :
    HasSector (s.afterRead (rootRead k)).mem s.disk k := by
  intro j hj
  exact copyBytes_add (by simpa [rootRead] using hj)

/-- What the search has done to the state: only the place of one sector has been written. -/
structure Searched (s s' : Loader) : Prop where
  disk : s'.disk = s.disk
  outside : ∀ a, a < 16 * baseOfKernel ∨ 16 * baseOfKernel + bytesPerSec ≤ a → s'.mem a = s.mem a

theorem searched_afterRead (s : Loader) (k : Nat) : Searched s (s.afterRead (rootRead k)) := by
  refine ⟨rfl, ?_⟩
  rintro a (hlt | hge)
  · exact copyBytes_of_lt hlt
  · exact copyBytes_of_ge (by simpa [rootRead] using hge)

theorem Searched.trans {s s' s'' : Loader} (h : Searched s s') (h' : Searched s' s'') :
    Searched s s'' :=
  ⟨h'.disk.trans h.disk, fun a ha => (h'.outside a ha).trans (h.outside a ha)⟩

/-- The name of a found entry ends at `di`. -/
structure FoundEntry (s s' : Loader) (lo i di : Nat) : Prop where
  first : FirstKernel s.disk lo rootEntries i
  sector : HasSector s'.mem s.disk (i / 16)
  place : di = 0x20 * (i % 16) + 11

/-- By induction on the sectors that are left: the search finds the first entry of the kernel. -/
theorem readOnSector_spec {k : Nat} (hk : k + n = rootDirSectors) :
    wp (readOnSector n (sectorNoOfRootDirectory + k))
      (fun found s' => Searched s s' ∧
        ((∃ i di, found = some di ∧ FoundEntry s s' (16 * k) i di) ∨
          found = none ∧ ∀ i, 16 * k ≤ i → i < rootEntries → ¬ IsKernelEntry s.disk i))
      (fun _ _ => False) s := by
  have hentries : rootEntries = 224 := rfl
  have hsectors : rootDirSectors = 14 := rfl
  induction n generalizing s k with
  | zero =>
    rw [readOnSector, wp_pure]
    exact ⟨⟨rfl, fun _ _ => rfl⟩, Or.inr ⟨rfl, fun i hge hlt => absurd hlt (by omega)⟩⟩
  | succ n ih =>
    have hread : readSector (sectorNoOfRootDirectory + k) 1 baseOfKernel offsetOfKernel s =
        .ok () (s.afterRead (rootRead k)) := by
      apply readSector_eq
      · unfold sectorNoOfRootDirectory secPerTrk
        omega
      · decide
    have hsector := hasSector_afterRead s k
    have hsearched := searched_afterRead s k
    have hnext : add16 (sectorNoOfRootDirectory + k) 1 = sectorNoOfRootDirectory + (k + 1) := by
      unfold add16 sectorNoOfRootDirectory
      omega
    have hcompare := compareEveryEnt_spec hsector (le_refl 16)
    rcases hcompare with ⟨e, hfirst, he, heq⟩ | ⟨hnone, heq⟩
    · rw [readOnSector, wp_of_run_eq (bind_of_ok hread), wp_bind, wp_get, heq]
      have hdiv : (16 * k + e) / 16 = k := by omega
      have hmod : (16 * k + e) % 16 = e := by omega
      refine ⟨hsearched, Or.inl ⟨16 * k + e, _, rfl, ⟨⟨?_, ?_⟩, ?_, ?_⟩, ?_, ?_⟩⟩
      · omega
      · omega
      · exact hfirst.entry
      · exact hfirst.first
      · rw [hdiv]
        exact hsector
      · rw [hmod]
    · rw [readOnSector, wp_of_run_eq (bind_of_ok hread), wp_bind, wp_get, heq, hnext]
      have hfront : ∀ i, 16 * k ≤ i → i < 16 * (k + 1) → ¬ IsKernelEntry s.disk i :=
        fun i hge hlt => hnone i (by omega) hlt
      apply wp_mono (@ih (s.afterRead (rootRead k)) (k + 1) (by omega))
      · rintro found s' ⟨hs', ⟨i, di, hfound, hentry⟩ | ⟨hfound, hrest⟩⟩
        · refine ⟨hsearched.trans hs', Or.inl ⟨i, di, hfound, ?_, hentry.sector, hentry.place⟩⟩
          exact hentry.first.extend (by omega) hfront
        · refine ⟨hsearched.trans hs', Or.inr ⟨hfound, fun i hge hlt => ?_⟩⟩
          rcases Nat.lt_or_ge i (16 * (k + 1)) with hi | hi
          · exact hfront i hge hi
          · exact hrest i hi hlt
      · exact fun _ _ hE => hE

theorem search_eq (s : Loader) : ∃ found s',
    readOnSector rootDirSectors sectorNoOfRootDirectory s = .ok found s' ∧ Searched s s' ∧
      ((∃ i di, found = some di ∧ FoundEntry s s' 0 i di) ∨
        found = none ∧ ∀ i < rootEntries, ¬ IsKernelEntry s.disk i) := by
  have hspec := readOnSector_spec (s := s) (Nat.zero_add rootDirSectors)
  rw [Nat.add_zero, Nat.mul_zero] at hspec
  obtain ⟨found, s', hrun, hsearched, hfound⟩ := exists_ok_of_wp hspec
  refine ⟨found, s', hrun, hsearched, ?_⟩
  rcases hfound with hsome | ⟨hnone, hall⟩
  · exact Or.inl hsome
  · exact Or.inr ⟨hnone, fun i hi => hall i (Nat.zero_le i) hi⟩

theorem entry_of_end (e : Nat) (he : e < 16) : (0x20 * e + 11) &&& 0xFFE0 = 0x20 * e := by
  interval_cases e <;> rfl

theorem FoundEntry.firstCluster {s' : Loader} {lo i : Nat} (h : FoundEntry s s' lo i di) :
    firstCluster s'.mem di = entryCluster s.disk i := by
  have he : i % 16 < 16 := Nat.mod_lt _ (by decide)
  have hadd : add16 (0x20 * (i % 16)) 0x1A = 0x20 * (i % 16) + 0x1A := by
    unfold add16
    omega
  have hplace : 16 * (i / 16) + i % 16 = i := Nat.div_add_mod i 16
  have hbyte : ∀ j < 0x20, s'.mem (16 * baseOfKernel + 0x20 * (i % 16) + j) =
      s.disk (rootEnt i + j) := by
    intro j hj
    rw [h.sector.entry he hj, hplace]
  rw [Loader.firstCluster, h.place, entry_of_end _ he, hadd, ← Nat.add_assoc, entryCluster, u16At,
    u16At, hbyte _ (by decide), Nat.add_assoc, hbyte _ (by decide)]

end Loader

end BazingaOS
