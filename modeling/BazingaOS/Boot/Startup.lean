import BazingaOS.Boot.InitKernel
import BazingaOS.Boot.RootDirectory
import BazingaOS.Boot.SetupPaging
import BazingaOS.Kernel.KernelMap

/-!
# From the floppy disk to the kernel

The whole way of `boot/loader.asm`: it looks for the kernel file, reads its clusters, asks the BIOS
how much memory there is, turns paging on, unpacks the file, leaves the boot parameters and jumps to
the entry of the kernel. The variables of the loader are apart from the memory.
-/

namespace BazingaOS

open Prog

/-- A range of memory, as int 15h with `eax = E820h` describes it. -/
structure Ards where
  baseAddrLow : Nat
  baseAddrHigh : Nat
  lengthLow : Nat
  lengthHigh : Nat
  type : Nat
deriving DecidableEq, Repr

/-- The answers of int 15h to the values of `ebx`: the carry flag, or a range and a new `ebx`. -/
abbrev MemoryMap := Nat → Option (Ards × Nat)

/-- The ranges that `_MemChkBuf` has room for. -/
def memChkRoom : Nat := 256 / 20

def kernelEntryPointPhyAdr : Nat := 0x30400

structure Pc where
  loader : Loader
  cr0 : Nat
  cr3 : Nat

namespace Pc

def mem (s : Pc) : Bytes := s.loader.mem

def setMem (s : Pc) (m : Bytes) : Pc := { s with loader := { s.loader with mem := m } }

def paging (s : Pc) : Paging := { mem := s.mem, cr0 := s.cr0, cr3 := s.cr3 }

def setPaging (s : Pc) (p : Paging) : Pc := { s.setMem p.mem with cr0 := p.cr0, cr3 := p.cr3 }

@[simp] theorem mem_setMem (s : Pc) (m : Bytes) : (s.setMem m).mem = m := rfl

end Pc

namespace Startup

/-- The calls of int 15h; a failure throws away what has been found, and a range more than there is
room for is written over the variables behind the buffer. -/
def memChk (bios : MemoryMap) : Nat → Nat → List Ards → Prog Pc (List Ards)
  | 0, _, _ => halt .hang
  | fuel + 1, ebx, found =>
    match bios ebx with
    | none => return []
    | some (range, ebx') =>
      if memChkRoom ≤ found.length then halt .undefined
      else if ebx' = 0 then return found ++ [range]
      else memChk bios fuel ebx' (found ++ [range])

/-- A round of the loop of `DispMemSize`, with what it has in `dwMemSize`. -/
def memSizeRound (dwMemSize : Nat) (range : Ards) : Nat :=
  if range.type = 1 then
    let eax := add32 range.baseAddrLow range.lengthLow
    if eax < dwMemSize then dwMemSize else eax
  else dwMemSize

/-- Without a range the counter of the loop wraps around, and it leaves the buffer. -/
def dispMemSize (found : List Ards) : Prog Pc Nat :=
  if found = [] then halt .undefined else return found.foldl memSizeRound 0

def storeBootParams (dwMemSize : Nat) (m : Bytes) : Bytes :=
  let m := putBytes m bootParamAddr (u32Bytes bootParamMagic)
  let m := putBytes m (bootParamAddr + 4) (u32Bytes dwMemSize)
  putBytes m (bootParamAddr + 8) (u32Bytes (baseOfKernel * 0x10 + offsetOfKernel))

/-- The loader from its start to its jump, whose target it returns. -/
def labelStart (bios : MemoryMap) (fuel rounds : Nat) : Prog Pc Nat := do
  zoom Pc.loader (fun s l => { s with loader := l }) (Loader.loadKernel fuel)
  let found ← memChk bios rounds 0 []
  modify fun s => { s with cr0 := s.cr0 ||| 1 }
  let dwMemSize ← dispMemSize found
  zoom Pc.paging Pc.setPaging (SetupPaging.setupPaging dwMemSize)
  zoom Pc.mem Pc.setMem InitKernel.initKernel
  modify fun s => s.setMem (storeBootParams dwMemSize s.mem)
  return kernelEntryPointPhyAdr

end Startup

/-- The BIOS answers with the ranges of a list when it is asked from `ebx` on. -/
inductive Answers (bios : MemoryMap) : Nat → List Ards → Prop
  | last {ebx : Nat} {range : Ards} (h : bios ebx = some (range, 0)) : Answers bios ebx [range]
  | next {ebx ebx' : Nat} {range : Ards} {l : List Ards} (h : bios ebx = some (range, ebx'))
      (hne : ebx' ≠ 0) (hl : Answers bios ebx' l) : Answers bios ebx (range :: l)

/-- The ends of the ranges of memory that may be used, as far as 32 bits hold them. -/
def rangeEnds (found : List Ards) : Set Nat :=
  {e | ∃ range ∈ found, range.type = 1 ∧ e = add32 range.baseAddrLow range.lengthLow}

/-- The clusters of a chain hold the file. -/
structure KernelFile.InClusters (file : KernelFile) (disk : Bytes) (l : List Nat) : Prop where
  size : file.size ≤ bytesPerSec * l.length
  content : ∀ i (hi : i < l.length), ∀ j < bytesPerSec, bytesPerSec * i + j < file.size →
    disk (bytesPerSec * dataSector l[i] + j) = file.content (bytesPerSec * i + j)

/-- The disk has the kernel file: the entry `i` of its root directory is the first one with that
name and starts a chain of clusters that the loader can follow and has room for. -/
structure HasKernel (disk : Bytes) (file : KernelFile) (i : Nat) (l : List Nat) : Prop where
  entry : KernelEntry disk i
  cluster : entryCluster disk i < 0x1000
  chain : Linked (fatNext disk) (some (entryCluster disk i)) l
  ended : l.getLast?.map (entry12 (fat disk)) = some 0xFFF
  room : l.length ≤ sectorRoom
  content : file.InClusters disk l

/-- The machine on which the kernel starts. -/
structure AtEntryPoint (file : KernelFile) (memSize : Nat) (s : Pc) : Prop where
  intact : file.Intact s.mem
  protect : s.cr0.testBit 0 = true
  paging : s.cr0.testBit 31 = true
  translate : ∀ la < memSize, pageWalk s.mem s.cr3 la = some ⟨la, true, true⟩
  params : KLIB.getBootParam s.mem = .ok ⟨memSize, baseOfKernelPhyAddr⟩ s.mem

namespace Startup

variable {bios : MemoryMap} {s : Pc} {found l : List Ards} {ebx memSize fuel rounds : Nat}

theorem memChk_eq (h : Answers bios ebx l) (hroom : found.length + l.length ≤ memChkRoom) :
    memChk bios l.length ebx found s = .ok (found ++ l) s := by
  induction h generalizing found with
  | last h =>
    have hfound : ¬ memChkRoom ≤ found.length := by
      rw [List.length_singleton] at hroom
      omega
    rw [List.length_singleton, memChk, h]
    dsimp only
    rw [if_neg hfound, if_pos rfl]
    rfl
  | @next ebx ebx' range l h hne _ ih =>
    rw [List.length_cons] at hroom
    have hfound : ¬ memChkRoom ≤ found.length := by omega
    have hlen : (found ++ [range]).length + l.length ≤ memChkRoom := by
      rw [List.length_append, List.length_singleton]
      omega
    rw [List.length_cons, memChk, h]
    dsimp only
    rw [if_neg hfound, if_neg hne, ih hlen, List.append_assoc, List.singleton_append]

theorem foldl_memSizeRound (l : List Ards) (m : Nat) :
    (m ≤ l.foldl memSizeRound m ∧ ∀ e ∈ rangeEnds l, e ≤ l.foldl memSizeRound m) ∧
      (l.foldl memSizeRound m = m ∨ l.foldl memSizeRound m ∈ rangeEnds l) := by
  induction l generalizing m with
  | nil => exact ⟨⟨le_rfl, fun e ⟨_, hmem, _⟩ => absurd hmem (by simp)⟩, Or.inl rfl⟩
  | cons range l ih =>
    rw [List.foldl_cons]
    obtain ⟨⟨hle, hends⟩, hvalue⟩ := ih (memSizeRound m range)
    have hround : m ≤ memSizeRound m range ∧
        (range.type = 1 → add32 range.baseAddrLow range.lengthLow ≤ memSizeRound m range) ∧
        (memSizeRound m range = m ∨ range.type = 1 ∧
          memSizeRound m range = add32 range.baseAddrLow range.lengthLow) := by
      unfold memSizeRound
      split
      · next htype =>
        dsimp only
        split
        · next hlt => exact ⟨le_rfl, fun _ => hlt.le, Or.inl rfl⟩
        · next hge => exact ⟨Nat.le_of_not_lt hge, fun _ => le_rfl, Or.inr ⟨htype, rfl⟩⟩
      · next htype => exact ⟨le_rfl, fun h => absurd h htype, Or.inl rfl⟩
    obtain ⟨hm, hend, hcases⟩ := hround
    refine ⟨⟨hm.trans hle, ?_⟩, ?_⟩
    · rintro e ⟨r, hr, htype, rfl⟩
      rcases List.mem_cons.mp hr with rfl | hr
      · exact (hend htype).trans hle
      · exact hends _ ⟨r, hr, htype, rfl⟩
    · rcases hvalue with hvalue | ⟨r, hr, htype, hvalue⟩
      · rcases hcases with heq | ⟨htype, heq⟩
        · exact Or.inl (hvalue.trans heq)
        · exact Or.inr ⟨range, List.mem_cons_self, htype, hvalue.trans heq⟩
      · exact Or.inr ⟨r, List.mem_cons_of_mem _ hr, htype, hvalue⟩

theorem dispMemSize_eq (h : IsGreatest (rangeEnds found) memSize) :
    dispMemSize found s = .ok memSize s := by
  have hne : found ≠ [] := by
    rintro rfl
    obtain ⟨_, hmem, _⟩ := h.1
    exact absurd hmem (by simp)
  obtain ⟨⟨-, hends⟩, hvalue⟩ := foldl_memSizeRound found 0
  have heq : found.foldl memSizeRound 0 = memSize := by
    apply Nat.le_antisymm
    · rcases hvalue with hzero | hmem
      · exact hzero.le.trans (Nat.zero_le _)
      · exact h.2 hmem
    · exact hends _ h.1
  rw [dispMemSize, if_neg hne, heq]
  rfl

end Startup

section Unpacking

variable {file : KernelFile} {m m' : Bytes} {memSize : Nat}

theorem KernelFile.OnlyLoads.initKernel_outside (hl : file.OnlyLoads) (hv : file.Valid)
    (hm : file.Placed m) (hsize : file.size ≤ 0x10000) (h : InitKernel.initKernel m = .ok () m')
    {a : Nat} (ha : a < 0x30000 ∨ baseOfLoaderPhyAddr ≤ a) : m' a = m a := by
  rw [((hl.tableKept hv hsize).readsTable hv hm).initKernel_eq hv hm] at h
  cases h
  apply Copy.run_of_not_covers
  intro i hi hc
  have hmem := hl.covers_mem hv hi hc
  omega

theorem KernelFile.InClusters.placed {s s' : Loader} {l : List Nat}
    (h : file.InClusters s.disk l) (hloaded : Loaded 0 l s s') : file.Placed s'.mem := by
  intro i hi
  have hsize := h.size
  have hbytes : bytesPerSec = 512 := rfl
  rw [hbytes] at hsize
  have hindex : i / 512 < l.length := by omega
  have hj : i % 512 < bytesPerSec := Nat.mod_lt _ (by decide)
  have hplace : baseOfKernelPhyAddr + i = sectorPlace (0 + i / 512) + i % 512 := by
    rw [sectorPlace_eq]
    change 0x20000 + i = _
    omega
  have hcontent : bytesPerSec * (i / 512) + i % 512 = i := by
    rw [hbytes]
    omega
  rw [hplace, hloaded.mem _ hindex _ hj, h.content _ hindex _ hj (by rw [hcontent]; exact hi),
    hcontent]

theorem LinearTables.congr {dir tbl attr n : Nat} (h : LinearTables m dir tbl attr n)
    (hdir : ∀ a, 4096 * dir ≤ a → m' a = m a) (hle : dir ≤ tbl) :
    LinearTables m' dir tbl attr n := by
  constructor
  · intro k hk
    rw [← h.directory k hk]
    exact u32At_congr fun i hi _ => hdir i (by omega)
  · intro k hk
    rw [← h.table k hk]
    exact u32At_congr fun i hi _ => hdir i (by omega)

theorem isElf_of_magic (h : u32At m baseOfKernelPhyAddr = 0x464C457F) :
    IsElf m baseOfKernelPhyAddr := by
  have hbyte : ∀ i < 4, m (baseOfKernelPhyAddr + i) = putBytes (fun _ => 0) 0 elfMag (0 + i) := by
    intro i hi
    apply u32At_inj _ hi
    rw [h]
    decide
  refine ⟨by decide, ?_⟩
  have hfile : ∀ i < 4, fileAt m baseOfKernelPhyAddr i = putBytes (fun _ => 0) 0 elfMag i := by
    intro i hi
    have hsum : (baseOfKernelPhyAddr + i) % 0x100000000 = baseOfKernelPhyAddr + i := by
      unfold baseOfKernelPhyAddr baseOfKernel
      omega
    rw [fileAt, hsum, hbyte i hi, Nat.zero_add]
  have hmap : (List.range 4).map (fileAt m baseOfKernelPhyAddr) =
      (List.range 4).map (putBytes (fun _ => 0) 0 elfMag) :=
    List.map_congr_left fun i hi => hfile i (List.mem_range.mp hi)
  rw [hmap]
  decide

theorem storeBootParams_outside {a : Nat} (ha : bootParamAddr + 12 ≤ a) :
    Startup.storeBootParams memSize m a = m a := by
  unfold Startup.storeBootParams
  rw [putBytes_of_ge (by rw [u32Bytes_length]; omega),
    putBytes_of_ge (by rw [u32Bytes_length]; omega),
    putBytes_of_ge (by rw [u32Bytes_length]; omega)]

/-- The kernel reads the parameters that the loader has stored. -/
theorem getBootParam_storeBootParams (hlt : memSize < 2 ^ 32)
    (h : u32At m baseOfKernelPhyAddr = 0x464C457F) :
    KLIB.getBootParam (Startup.storeBootParams memSize m) =
      .ok ⟨memSize, baseOfKernelPhyAddr⟩ (Startup.storeBootParams memSize m) := by
  have hkernel : u32At (Startup.storeBootParams memSize m) baseOfKernelPhyAddr = 0x464C457F := by
    rw [← h]
    apply u32At_congr
    intro i hi _
    apply storeBootParams_outside
    have hbase : baseOfKernelPhyAddr = 0x20000 := rfl
    have hparam : bootParamAddr = 0x900 := rfl
    omega
  have hfile : u32At (Startup.storeBootParams memSize m) (bootParamAddr + 8) =
      baseOfKernelPhyAddr := by
    unfold Startup.storeBootParams
    rw [u32At_putBytes (by decide)]
    rfl
  have hsize : u32At (Startup.storeBootParams memSize m) (bootParamAddr + 4) = memSize := by
    unfold Startup.storeBootParams
    rw [u32At_putBytes_of_disjoint (.inr (by omega)), u32At_putBytes hlt]
  have hmagic : u32At (Startup.storeBootParams memSize m) bootParamAddr = bootParamMagic := by
    unfold Startup.storeBootParams
    rw [u32At_putBytes_of_disjoint (.inr (by omega)), u32At_putBytes_of_disjoint (.inr (by omega)),
      u32At_putBytes (by decide)]
  have helf := isElf_of_magic hkernel
  generalize Startup.storeBootParams memSize m = m₁ at hfile hsize hmagic helf
  have hcheck : check (u32At m₁ bootParamAddr = bootParamMagic) m₁ = .ok () m₁ := by
    rw [check, if_pos hmagic]
    rfl
  have hcheck' : check (IsElf m₁ (u32At m₁ (bootParamAddr + 8))) m₁ = .ok () m₁ := by
    rw [hfile, check, if_pos helf]
    rfl
  have hget : (get : Prog Bytes Bytes) m₁ = .ok m₁ m₁ := rfl
  rw [KLIB.getBootParam, bind_of_ok hget, bind_of_ok hcheck, bind_of_ok hcheck', hsize, hfile]
  rfl

end Unpacking

namespace Loader

variable {file : KernelFile} {s : Loader} {i : Nat} {l : List Nat}

theorem loadKernel_placed (h : HasKernel s.disk file i l) :
    ∃ fuel s', loadKernel fuel s = .ok () s' ∧ file.Placed s'.mem := by
  obtain ⟨found, s₁, hsearch, hsearched, hfound⟩ := search_eq s
  rcases hfound with ⟨i', di, rfl, hentry⟩ | ⟨-, hnone⟩
  · have hi : i' = i := hentry.first.unique h.entry
    have hcluster : firstCluster s₁.mem di = entryCluster s₁.disk i := by
      rw [hentry.firstCluster, hi, hsearched.disk]
    have hchain : Linked (fatNext s₁.disk) (some (entryCluster s₁.disk i)) l := by
      rw [hsearched.disk]
      exact h.chain
    have hend : l.getLast?.map (entry12 (fat s₁.disk)) = some 0xFFF ∧ l.length ≤ sectorRoom := by
      rw [hsearched.disk]
      exact ⟨h.ended, h.room⟩
    have hlt : entryCluster s₁.disk i < 0x1000 := by
      rw [hsearched.disk]
      exact h.cluster
    obtain ⟨fuel, s', hload, hloaded⟩ := (loadsChain_iff hlt hchain).mpr hend
    have hcontent : file.InClusters s₁.disk l := by
      rw [hsearched.disk]
      exact h.content
    have hget : (get : Prog Loader Loader) s₁ = .ok s₁ s₁ := rfl
    refine ⟨fuel, s', ?_, hcontent.placed hloaded⟩
    rw [loadKernel, bind_of_ok hsearch]
    dsimp only
    rw [bind_of_ok hget, hcluster]
    exact hload
  · exact absurd h.entry.entry (hnone i h.entry.range.2)

theorem loadKernel_none (h : ∀ i < rootEntries, ¬ IsKernelEntry s.disk i) (fuel : Nat) :
    ∃ s', loadKernel fuel s = .stop .hang s' := by
  obtain ⟨found, s₁, hsearch, -, hfound⟩ := search_eq s
  rcases hfound with ⟨i, di, rfl, hentry⟩ | ⟨rfl, -⟩
  · exact absurd hentry.first.entry (h i hentry.first.range.2)
  · refine ⟨s₁, ?_⟩
    rw [loadKernel, bind_of_ok hsearch]
    rfl

end Loader

namespace Startup

variable {memSize : Nat}

/-- Paging leaves the memory below its tables alone, and these map the addresses to themselves. -/
theorem setupPaging_keeps (hpos : 0 < memSize) (hlt : memSize < 2 ^ 32) (p : Paging) :
    ∃ p', SetupPaging.setupPaging memSize p = .ok () p' ∧ p'.cr0 = p.cr0 ||| 0x80000000 ∧
      p'.cr3 = 4096 * 0x200 ∧ (∀ a < pageDirBase, p'.mem a = p.mem a) ∧
      LinearTables p'.mem 0x200 0x201 7 (memSize ⌈/⌉ 0x400000) := by
  refine ⟨_, SetupPaging.setupPaging_eq hpos hlt p, rfl, rfl, fun a ha => ?_,
    SetupPaging.linearTables_tabled p (SetupPaging.tables_le hlt)⟩
  have hbase : pageDirBase = 0x200000 := rfl
  have hbase' : pageTblBase = 0x201000 := rfl
  change putBytes (putBytes p.mem pageDirBase _) pageTblBase _ a = p.mem a
  rw [putBytes_of_lt (by omega), putBytes_of_lt ha]

/-- From a disk with a small kernel of segments to load, the loader starts the kernel: its segments
are in their places, linear addresses are physical ones, and the parameters are those that the
kernel asks for. Without an entry for the kernel it never starts anything. -/
theorem kernel_starts (bios : MemoryMap) (s : Pc) :
    (∀ file i l found memSize, HasKernel s.loader.disk file i l → file.Valid →
      file.size ≤ 0x10000 → file.OnlyLoads → Answers bios 0 found → found.length ≤ memChkRoom →
      IsGreatest (rangeEnds found) memSize → baseOfLoaderPhyAddr ≤ memSize →
      ∃ fuel rounds s', labelStart bios fuel rounds s = .ok kernelEntryPointPhyAdr s' ∧
        AtEntryPoint file memSize s') ∧
    ((∀ i < rootEntries, ¬ IsKernelEntry s.loader.disk i) → ∀ fuel rounds,
      ∃ s', labelStart bios fuel rounds s = .stop .hang s') := by
  constructor
  · intro file i l found memSize hk hv hsize hl hanswers hroom hmem hlow
    have hpos : 0 < memSize := lt_of_lt_of_le (by decide) hlow
    have hlt : memSize < 2 ^ 32 := by
      obtain ⟨range, -, -, rfl⟩ := hmem.1
      exact Nat.mod_lt _ (by decide)
    obtain ⟨fuel, loader, hload, hplaced⟩ := Loader.loadKernel_placed hk
    let s₁ : Pc := { s with loader := loader }
    let s₂ : Pc := { s₁ with cr0 := s.cr0 ||| 1 }
    obtain ⟨p, hpaging, hcr0, hcr3, hbelow, htables⟩ := setupPaging_keeps hpos hlt s₂.paging
    let s₃ : Pc := s₂.setPaging p
    have hplaced₃ : file.Placed s₃.mem := by
      intro j hj
      have hfile := hv.size
      have hbase : baseOfKernelPhyAddr = 0x20000 := rfl
      have hdir : pageDirBase = 0x200000 := rfl
      exact (hbelow _ (by omega)).trans (hplaced j hj)
    obtain ⟨m, hinit, hintact⟩ := (hl.undisturbed hv hsize).loadedIntact hv hplaced₃
    have houtside := fun a ha => hl.initKernel_outside hv hplaced₃ hsize hinit (a := a) ha
    let s₄ : Pc := (s₃.setMem m).setMem (storeBootParams memSize m)
    have hrun : labelStart bios fuel found.length s = .ok kernelEntryPointPhyAdr s₄ := by
      have hchk : memChk bios found.length 0 [] s₁ = .ok found s₁ :=
        memChk_eq hanswers ((Nat.zero_add _).trans_le hroom)
      have hcr : (modify fun s : Pc => { s with cr0 := s.cr0 ||| 1 }) s₁ = .ok () s₂ := rfl
      have hdisp : dispMemSize found s₂ = .ok memSize s₂ := dispMemSize_eq hmem
      have hstore : (modify fun s : Pc => s.setMem (storeBootParams memSize s.mem))
          (s₃.setMem m) = .ok () s₄ := rfl
      rw [labelStart, bind_of_ok (zoom_of_ok hload), bind_of_ok hchk, bind_of_ok hcr,
        bind_of_ok hdisp, bind_of_ok (zoom_of_ok hpaging), bind_of_ok (zoom_of_ok hinit),
        bind_of_ok hstore]
      rfl
    have hparam : bootParamAddr = 0x900 := rfl
    have hmagic : u32At m baseOfKernelPhyAddr = 0x464C457F := by
      rw [← hv.magic]
      have hfile := hv.size
      have hbase : baseOfKernelPhyAddr = 0x20000 := rfl
      apply u32At_shift
      intro j hj
      rw [houtside _ (Or.inl (by omega)), hplaced₃ j (by omega), Nat.zero_add]
    refine ⟨fuel, found.length, s₄, hrun, ?_, ?_, ?_, ?_, getBootParam_storeBootParams hlt hmagic⟩
    · intro k hk hload j hj
      have hlink := (hv.load k hk hload).2.1
      exact (storeBootParams_outside (by omega)).trans (hintact k hk hload j hj)
    · change p.cr0.testBit 0 = true
      rw [hcr0, Nat.testBit_or]
      change ((s.cr0 ||| 1).testBit 0 || _) = true
      rw [Nat.testBit_or, Bool.or_eq_true, Bool.or_eq_true]
      exact Or.inl (Or.inr (by decide))
    · change p.cr0.testBit 31 = true
      rw [hcr0, Nat.testBit_or, Bool.or_eq_true]
      exact Or.inr (by decide)
    · intro la hla
      have hkept : ∀ a, 4096 * 0x200 ≤ a → s₄.mem a = p.mem a := by
        intro a ha
        have hloader : baseOfLoaderPhyAddr = 0x90000 := rfl
        exact (storeBootParams_outside (by omega)).trans (houtside a (Or.inr (by omega)))
      have hbound := Nat.lt_of_lt_of_le hla (SetupPaging.le_tables memSize)
      change pageWalk s₄.mem p.cr3 la = _
      rw [hcr3]
      exact (htables.congr hkept (by decide)).pageWalk (by decide) (by decide) hbound
  · intro hnone fuel rounds
    obtain ⟨loader, hstop⟩ := Loader.loadKernel_none hnone fuel
    refine ⟨{ s with loader := loader }, ?_⟩
    rw [labelStart]
    change Prog.bind _ _ s = _
    rw [Prog.bind, zoom_of_stop hstop]

/-- A disk with one table entry in use, one entry in the root directory and a kernel of one
cluster. -/
def sampleDisk : Bytes := fun a =>
  if a < rootEnt 0 then pack12 (fun _ => 0xFFF) (a - bytesPerSec * sectorNoOfFat1)
  else if a < bytesPerSec * dataSector 2 then
    putBytes (fun _ => 0) 0 (kernelFileName ++ List.replicate 15 0 ++ [2, 0]) (a - rootEnt 0)
  else (KernelFile.flatKernel 0x100).content (a - bytesPerSec * dataSector 2)

theorem hasKernel_sampleDisk : HasKernel sampleDisk (KernelFile.flatKernel 0x100) 0 [2] := by
  have hcluster : entryCluster sampleDisk 0 = 2 := by decide +kernel
  have hent : entry12 (fat sampleDisk) 2 = 0xFFF := by decide +kernel
  have hnext : fatNext sampleDisk 2 = none := by
    rw [fatNext, hent]
    decide
  refine ⟨⟨by decide, by decide +kernel, fun k _ hk => absurd hk (Nat.not_lt_zero k)⟩, ?_, ?_, ?_,
    by decide, ⟨by decide, fun i hi j _ _ => ?_⟩⟩
  · rw [hcluster]
    decide
  · rw [hcluster, linked_cons, hnext]
    exact ⟨rfl, rfl⟩
  · exact congrArg some hent
  · have hi0 : i = 0 := by simpa using hi
    subst hi0
    have hroot : rootEnt 0 = 9728 := by decide
    have hdata : bytesPerSec * dataSector 2 = 16896 := by decide
    change sampleDisk (bytesPerSec * dataSector 2 + j) = _
    rw [sampleDisk, if_neg (by omega), if_neg (by omega), Nat.add_sub_cancel_left, Nat.mul_zero,
      Nat.zero_add]

/-- A machine with 640 KB and, above the first megabyte, 31 more. -/
def sampleBios (ebx : Nat) : Option (Ards × Nat) :=
  if ebx = 0 then some (⟨0, 0, 0xA0000, 0, 1⟩, 1) else some (⟨0x100000, 0, 0x1F00000, 0, 1⟩, 0)

/-- The sample kernel starts on a machine with 32 MB. -/
theorem kernel_starts_sample : ∃ fuel rounds s',
    labelStart sampleBios fuel rounds ⟨{ disk := sampleDisk, mem := fun _ => 0 }, 0, 0⟩ =
      .ok kernelEntryPointPhyAdr s' ∧ AtEntryPoint (KernelFile.flatKernel 0x100) 0x2000000 s' := by
  have hflat := KernelFile.flat_small
  have hanswers : Answers sampleBios 0 [⟨0, 0, 0xA0000, 0, 1⟩, ⟨0x100000, 0, 0x1F00000, 0, 1⟩] :=
    .next rfl (by decide) (.last rfl)
  have hmem : IsGreatest (rangeEnds [⟨0, 0, 0xA0000, 0, 1⟩, ⟨0x100000, 0, 0x1F00000, 0, 1⟩])
      0x2000000 := by
    constructor
    · exact ⟨⟨0x100000, 0, 0x1F00000, 0, 1⟩, by simp, rfl, by decide⟩
    · rintro e ⟨range, hrange, -, rfl⟩
      simp only [List.mem_cons, List.not_mem_nil, or_false] at hrange
      rcases hrange with rfl | rfl <;> decide
  exact (kernel_starts sampleBios _).1 _ 0 [2] _ _ hasKernel_sampleDisk (hflat.valid (by decide))
    (by decide) hflat.onlyLoads hanswers (by decide) hmem (by decide)

end Startup

end BazingaOS
