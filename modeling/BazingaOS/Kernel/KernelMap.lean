import BazingaOS.Lib.Least
import BazingaOS.MM.Image
import BazingaOS.MM.Load

/-!
# The extent of the kernel

`get_kernel_map` of `lib/klib.c` looks for the lowest and the highest address of the segments of the
kernel file, which the loader has left in memory. It reads program headers, but as many as the file
has section headers.
-/

namespace BazingaOS

open Prog

def bootParamAddr : Nat := 0x900
def bootParamMagic : Nat := 0xB007

/-- `ELFMAG`. -/
def elfMag : List UInt8 := [0x7f, 0x45, 0x4c, 0x46]

def eShnum (m : Bytes) : Nat := u16At m 48

def fileAt (m : Bytes) (k : Nat) : Bytes := fun i => m ((k + i) % 0x100000000)

/-- `memcmp` of the memory at `k` with `ELFMAG` returns 0. -/
def IsElf (m : Bytes) (k : Nat) : Prop := k ≠ 0 ∧ (List.range 4).map (fileAt m k) = elfMag

instance (m : Bytes) (k : Nat) : Decidable (IsElf m k) := inferInstanceAs (Decidable (_ ∧ _))

structure BootParams where
  memSize : Nat
  kernelFile : Nat
deriving DecidableEq, Repr

def ProgramHeader.top (h : ProgramHeader) : Nat := (h.pVaddr + h.pMemsz) % 0x100000000

namespace KLIB

def getBootParam : Prog Bytes BootParams := do
  let m ← get
  check (u32At m bootParamAddr = bootParamMagic)
  let pbp : BootParams := ⟨u32At m (bootParamAddr + 4), u32At m (bootParamAddr + 8)⟩
  check (IsElf m pbp.kernelFile)
  return pbp

/-- A round of the loop, with `*b` and `t`. -/
def mapRound (file : Bytes) (bt : Nat × Nat) (i : Nat) : Nat × Nat :=
  let h := programHeader file i
  if h.IsLoad then
    (if h.pVaddr < bt.1 then h.pVaddr else bt.1, if bt.2 < h.top then h.top else bt.2)
  else bt

/-- `get_kernel_map`, with what it stores; `none` stands for -1. -/
def getKernelMap : Prog Bytes (Option (Nat × Nat)) := do
  let bp ← getBootParam
  let m ← get
  if ¬ IsElf m bp.kernelFile then return none
  else
    let file := fileAt m bp.kernelFile
    let bt := (List.range (eShnum file)).foldl (mapRound file) (0xFFFFFFFF, 0)
    check (bt.1 < bt.2)
    return some (bt.1, bt.2 - bt.1 - 1)

end KLIB

/-- The kernel file that the boot parameters in `m` name. -/
def kernelFile (m : Bytes) : Bytes := fileAt m (u32At m (bootParamAddr + 8))

/-- The boot parameters name an ELF file with a segment to load, whose segments end in the address
space. -/
structure KernelLoaded (m : Bytes) : Prop where
  magic : u32At m bootParamAddr = bootParamMagic
  elf : IsElf m (u32At m (bootParamAddr + 8))
  load : ∃ i < ePhnum (kernelFile m), (programHeader (kernelFile m) i).IsLoad
  ends : ∀ i < ePhnum (kernelFile m), (programHeader (kernelFile m) i).IsLoad →
    (programHeader (kernelFile m) i).pVaddr + (programHeader (kernelFile m) i).pMemsz < 0x100000000

/-- The lowest and the highest address of the segments of a file are `b` and `b + l`. -/
structure IsExtent (file : Bytes) (b l : Nat) : Prop where
  bottom : IsLeast {x | ∃ i < ePhnum file, (programHeader file i).IsLoad ∧
    x = (programHeader file i).pVaddr} b
  top : IsGreatest {x | ∃ i < ePhnum file, (programHeader file i).IsLoad ∧
    x = (programHeader file i).pVaddr + (programHeader file i).pMemsz} (b + l + 1)

/-- `get_kernel_map` finds the extent of the kernel, and the segment that `kernel_main` gives `INIT`
covers the kernel. -/
def MapsKernel (m : Bytes) : Prop :=
  ∃ b l, KLIB.getKernelMap m = .ok (some (b, l)) m ∧ IsExtent (kernelFile m) b l ∧
    ∀ i < ePhnum (kernelFile m), (programHeader (kernelFile m) i).IsLoad →
      (programHeader (kernelFile m) i).addresses ⊆ (kernelMainLdt (b + l) init).code.segment

/-- The records between the number of program headers and the number of section headers that read as
segments to load lie between segments with lower numbers than both. -/
def CountsAgree (file : Bytes) : Prop :=
  ∀ i, min (eShnum file) (ePhnum file) ≤ i → i < max (eShnum file) (ePhnum file) →
    (programHeader file i).IsLoad →
      (∃ j < min (eShnum file) (ePhnum file), (programHeader file j).IsLoad ∧
        (programHeader file j).pVaddr ≤ (programHeader file i).pVaddr) ∧
      ∃ j < min (eShnum file) (ePhnum file), (programHeader file j).IsLoad ∧
        (programHeader file i).top ≤ (programHeader file j).top

/-- Some segment begins below the end of one. -/
def NonEmpty (file : Bytes) : Prop :=
  ∃ i < ePhnum file, ∃ j < ePhnum file, (programHeader file i).IsLoad ∧
    (programHeader file j).IsLoad ∧ (programHeader file i).pVaddr < (programHeader file j).top

section Fold

open OrderDual

variable {file : Bytes} {n : Nat}

/-- The lowest address and the highest end among the first `n` records. -/
def bottomOf (file : Bytes) (n : Nat) : Nat :=
  leastBelow (fun i => (programHeader file i).IsLoad) (fun i => (programHeader file i).pVaddr) n
    0xFFFFFFFF

def topOf (file : Bytes) (n : Nat) : Nat :=
  ofDual (leastBelow (fun i => (programHeader file i).IsLoad)
    (fun i => toDual (programHeader file i).top) n (toDual 0))

theorem foldl_mapRound :
    (List.range n).foldl (KLIB.mapRound file) (0xFFFFFFFF, 0) = (bottomOf file n, topOf file n) := by
  induction n with
  | zero => rfl
  | succ n ih =>
    have hmin : ∀ a b : Nat, (if b < a then b else a) = min a b := by
      intro a b
      rw [min_def]
      split <;> split <;> omega
    have hmax : ∀ a b : Nat, (if a < b then b else a) = ofDual (min (toDual a) (toDual b)) := by
      intro a b
      change _ = max a b
      rw [max_def]
      split <;> split <;> omega
    rw [List.range_succ, List.foldl_append, ih]
    simp only [List.foldl_cons, List.foldl_nil, KLIB.mapRound, bottomOf, topOf, leastBelow_succ]
    split
    · rw [hmin, hmax]
      rfl
    · rfl

theorem topOf_lt : topOf file n < 0x100000000 := by
  rcases leastBelow_mem (p := fun i => (programHeader file i).IsLoad)
    (f := fun i => toDual (programHeader file i).top) (n := n) (b := toDual 0) with h | ⟨i, -, -, h⟩
  · rw [topOf, h]
    exact Nat.zero_lt_succ _
  · rw [topOf, h]
    exact Nat.mod_lt _ (by omega)

theorem countsAgree_iff_between : CountsAgree file ↔
    NothingBetween (fun i => (programHeader file i).IsLoad)
        (fun i => (programHeader file i).pVaddr) (eShnum file) (ePhnum file) ∧
      NothingBetween (fun i => (programHeader file i).IsLoad)
        (fun i => toDual (programHeader file i).top) (eShnum file) (ePhnum file) := by
  constructor
  · intro h
    exact ⟨fun i hlow hhigh hp => (h i hlow hhigh hp).1, fun i hlow hhigh hp => (h i hlow hhigh hp).2⟩
  · rintro ⟨hbottom, htop⟩ i hlow hhigh hp
    exact ⟨hbottom i hlow hhigh hp, htop i hlow hhigh hp⟩

end Fold

section Extent

open OrderDual

variable {m : Bytes} {i t : Nat}

theorem KernelLoaded.top_eq (h : KernelLoaded m) (hi : i < ePhnum (kernelFile m))
    (hload : (programHeader (kernelFile m) i).IsLoad) : (programHeader (kernelFile m) i).top =
      (programHeader (kernelFile m) i).pVaddr + (programHeader (kernelFile m) i).pMemsz :=
  Nat.mod_eq_of_lt (h.ends i hi hload)

theorem KernelLoaded.isGreatest_iff (h : KernelLoaded m) :
    IsGreatest {x | ∃ i < ePhnum (kernelFile m), (programHeader (kernelFile m) i).IsLoad ∧
        x = (programHeader (kernelFile m) i).pVaddr + (programHeader (kernelFile m) i).pMemsz} t ↔
      IsLeast {x | ∃ i < ePhnum (kernelFile m), (programHeader (kernelFile m) i).IsLoad ∧
        x = toDual (programHeader (kernelFile m) i).top} (toDual t) := by
  constructor
  · rintro ⟨⟨i, hi, hload, rfl⟩, hle⟩
    refine ⟨⟨i, hi, hload, by rw [h.top_eq hi hload]⟩, ?_⟩
    rintro _ ⟨j, hj, hloadj, rfl⟩
    exact hle ⟨j, hj, hloadj, h.top_eq hj hloadj⟩
  · rintro ⟨⟨i, hi, hload, heq⟩, hle⟩
    refine ⟨⟨i, hi, hload, (toDual.injective heq).trans (h.top_eq hi hload)⟩, ?_⟩
    rintro _ ⟨j, hj, hloadj, rfl⟩
    rw [← h.top_eq hj hloadj]
    exact hle ⟨j, hj, hloadj, rfl⟩

theorem KernelLoaded.getKernelMap_eq (h : KernelLoaded m) :
    KLIB.getKernelMap m =
      let file := kernelFile m
      let b := bottomOf file (eShnum file)
      let t := topOf file (eShnum file)
      if b < t then .ok (some (b, t - b - 1)) m else .stop .assertion m := by
  have hparam : KLIB.getBootParam m = .ok ⟨u32At m (bootParamAddr + 4),
      u32At m (bootParamAddr + 8)⟩ m := by
    have hget : (get : Prog Bytes Bytes) m = .ok m m := rfl
    have hcheck : ∀ b : Prop, [Decidable b] → b → (check b : Prog Bytes Unit) m = .ok () m := by
      intro b _ hb
      rw [check, if_pos hb]
      rfl
    rw [KLIB.getBootParam, bind_of_ok hget, bind_of_ok (hcheck _ h.magic),
      bind_of_ok (hcheck _ h.elf)]
    rfl
  have hget : (get : Prog Bytes Bytes) m = .ok m m := rfl
  rw [KLIB.getKernelMap, bind_of_ok hparam, bind_of_ok hget, if_neg (not_not.mpr h.elf),
    foldl_mapRound]
  change (check (bottomOf (kernelFile m) (eShnum (kernelFile m)) <
    topOf (kernelFile m) (eShnum (kernelFile m))) >>= _) m = _
  by_cases hlt : bottomOf (kernelFile m) (eShnum (kernelFile m)) <
      topOf (kernelFile m) (eShnum (kernelFile m))
  · simp only [check, if_pos hlt]
    rfl
  · simp only [check, if_neg hlt]
    rfl

theorem covers_init {e : Nat} (he : e < 0x100000000) :
    Set.Ico 0 (e + 1) ⊆ (kernelMainLdt e init).code.segment := by
  have hldt : kernelMainLdt e init = userLdt 0 (e >>> limit4kShift) := rfl
  rw [hldt, Descriptor.segment, (userLdt_base (by omega)).1, userLdt_size.1, limit4kShift,
    Nat.shiftRight_eq_div_pow]
  intro a ha
  rw [Set.mem_Ico] at ha ⊢
  omega

theorem MapsKernel.of_extent (h : KernelLoaded m) {b l : Nat}
    (hrun : KLIB.getKernelMap m = .ok (some (b, l)) m) (hext : IsExtent (kernelFile m) b l) :
    MapsKernel m := by
  refine ⟨b, l, hrun, hext, fun i hi hload a ha => covers_init ?_ ?_⟩
  · obtain ⟨j, hj, hloadj, htop⟩ := hext.top.1
    have hend := h.ends j hj hloadj
    omega
  · have hle := hext.top.2 ⟨i, hi, hload, rfl⟩
    rw [ProgramHeader.addresses, Set.mem_Ico] at ha
    rw [Set.mem_Ico]
    omega

/-- `get_kernel_map` finds the extent of the kernel exactly if the records that it misses or reads
too many lie between the segments that it should read, and the kernel is not empty. -/
theorem mapsKernel_iff (h : KernelLoaded m) :
    MapsKernel m ↔ CountsAgree (kernelFile m) ∧ NonEmpty (kernelFile m) := by
  have hrun := h.getKernelMap_eq
  dsimp only at hrun
  rw [countsAgree_iff_between]
  constructor
  · rintro ⟨b, l, hok, hext, -⟩
    rw [hok] at hrun
    split at hrun
    · rename_i hlt
      injection hrun with hsome
      injection hsome with hpair
      obtain ⟨rfl, rfl⟩ := Prod.mk.injEq .. ▸ hpair
      have htop : bottomOf (kernelFile m) (eShnum (kernelFile m)) +
          (topOf (kernelFile m) (eShnum (kernelFile m)) -
            bottomOf (kernelFile m) (eShnum (kernelFile m)) - 1) + 1 =
          topOf (kernelFile m) (eShnum (kernelFile m)) := by omega
      have hgreatest := hext.top
      rw [htop] at hgreatest
      have hleast := h.isGreatest_iff.mp hgreatest
      refine ⟨⟨nothingBetween_of_isLeast hext.bottom ?_, nothingBetween_of_isLeast hleast ?_⟩, ?_⟩
      · intro heq
        have hbottom : bottomOf (kernelFile m) (eShnum (kernelFile m)) = 0xFFFFFFFF := heq
        have hend := @topOf_lt (kernelFile m) (eShnum (kernelFile m))
        omega
      · intro heq
        have hzero : topOf (kernelFile m) (eShnum (kernelFile m)) = 0 := heq
        omega
      · obtain ⟨i, hi, hload, hi'⟩ := hext.bottom.1
        obtain ⟨j, hj, hloadj, hj'⟩ := hleast.1
        refine ⟨i, hi, j, hj, hload, hloadj, ?_⟩
        rw [← hi', ← toDual.injective hj']
        exact hlt
    · cases hrun
  · rintro ⟨⟨hbottom, htop⟩, i, hi, j, hj, hload, hloadj, hlt⟩
    have hvaddr : ∀ i, (programHeader (kernelFile m) i).pVaddr ≤ 0xFFFFFFFF := fun i =>
      Nat.le_of_lt_succ (u32At_lt _ _)
    have hleast : IsLeast _ (bottomOf (kernelFile m) (eShnum (kernelFile m))) :=
      hbottom.isLeast hvaddr h.load
    have hgreatest : IsLeast _ (toDual (topOf (kernelFile m) (eShnum (kernelFile m)))) :=
      htop.isLeast (fun i => toDual_le_toDual.mpr (Nat.zero_le _)) h.load
    have hlow := hleast.2 ⟨i, hi, hload, rfl⟩
    have hhigh : (programHeader (kernelFile m) j).top ≤
        topOf (kernelFile m) (eShnum (kernelFile m)) := hgreatest.2 ⟨j, hj, hloadj, rfl⟩
    have hpos : bottomOf (kernelFile m) (eShnum (kernelFile m)) <
        topOf (kernelFile m) (eShnum (kernelFile m)) := by omega
    rw [if_pos hpos] at hrun
    refine .of_extent h hrun ⟨hleast, ?_⟩
    have heq : bottomOf (kernelFile m) (eShnum (kernelFile m)) +
        (topOf (kernelFile m) (eShnum (kernelFile m)) -
          bottomOf (kernelFile m) (eShnum (kernelFile m)) - 1) + 1 =
        topOf (kernelFile m) (eShnum (kernelFile m)) := by omega
    rw [heq]
    exact h.isGreatest_iff.mpr hgreatest

/-- A program header for `n` bytes at `a`. -/
def sampleHeader (a n : Nat) : List UInt8 :=
  u32Bytes 1 ++ u32Bytes 0x1000 ++ u32Bytes a ++ u32Bytes a ++ u32Bytes n ++ u32Bytes n ++
    u32Bytes 5 ++ u32Bytes 0x1000

/-- A kernel with two segments and `shnum` section headers. -/
def sampleKernel (shnum : UInt8) : Bytes :=
  putBytes (putBytes (fun _ => 0) bootParamAddr
    (u32Bytes bootParamMagic ++ u32Bytes 0x2000000 ++ u32Bytes 0x20000)) 0x20000
    (elfMag ++ List.replicate 24 0 ++ u32Bytes 52 ++ List.replicate 10 0 ++
      [32, 0, 2, 0, 40, 0, shnum, 0, 0, 0] ++ sampleHeader 0x30000 0x1000 ++
      sampleHeader 0x32000 0x1000)

theorem sampleKernel_loaded : KernelLoaded (sampleKernel 1) ∧ KernelLoaded (sampleKernel 2) := by
  have hphnum : ePhnum (kernelFile (sampleKernel 1)) = 2 ∧
      ePhnum (kernelFile (sampleKernel 2)) = 2 := by decide +kernel
  constructor
  · refine ⟨by decide +kernel, by decide +kernel, ?_, ?_⟩
    · rw [hphnum.1]
      exact ⟨0, by decide, by decide +kernel⟩
    · rw [hphnum.1]
      decide +kernel
  · refine ⟨by decide +kernel, by decide +kernel, ?_, ?_⟩
    · rw [hphnum.2]
      exact ⟨0, by decide, by decide +kernel⟩
    · rw [hphnum.2]
      decide +kernel

theorem mapsKernel_iff_at_sample : MapsKernel (sampleKernel 2) ↔
    CountsAgree (kernelFile (sampleKernel 2)) ∧ NonEmpty (kernelFile (sampleKernel 2)) :=
  mapsKernel_iff sampleKernel_loaded.2

/-- With one section header the second segment is missed. -/
theorem second_segment_missed : ¬ MapsKernel (sampleKernel 1) ∧
    KLIB.getKernelMap (sampleKernel 1) = .ok (some (0x30000, 0xFFF)) (sampleKernel 1) := by
  have hbounds : bottomOf (kernelFile (sampleKernel 1)) (eShnum (kernelFile (sampleKernel 1))) =
      0x30000 ∧ topOf (kernelFile (sampleKernel 1)) (eShnum (kernelFile (sampleKernel 1))) =
      0x31000 := by decide +kernel
  have hrun := sampleKernel_loaded.1.getKernelMap_eq
  dsimp only at hrun
  rw [hbounds.1, hbounds.2, if_pos (by decide)] at hrun
  refine ⟨?_, hrun⟩
  rintro ⟨b, l, hok, hext, -⟩
  rw [hrun] at hok
  obtain ⟨rfl, rfl⟩ : 0x30000 = b ∧ 0xFFF = l := by simpa using hok
  have hsecond : 0x33000 ≤ 0x30000 + 0xFFF + 1 :=
    hext.top.2 ⟨1, by decide +kernel, by decide +kernel, by decide +kernel⟩
  omega

end Extent

end BazingaOS
