import BazingaOS.Boot.LoadKernel
import BazingaOS.Lib.ForwardCopy
import BazingaOS.Lib.Int32
import BazingaOS.MM.Load

/-!
# Unpacking the kernel

`InitKernel` of `boot/loader.asm` copies the segments of the kernel file, which is in memory from
`BaseOfKernelPhyAddr` on, to the addresses that they are linked at. Both are in the same part of the
memory, and `MemCpy` goes upwards.
-/

namespace BazingaOS

open Prog

namespace InitKernel

def memCpy : Nat → Nat → Nat → Prog Bytes Unit
  | 0, _, _ => pure ()
  | ecx + 1, edi, esi => do
    modify fun m => Function.update m edi (m esi)
    memCpy ecx (add32 edi 1) (add32 esi 1)

/-- The program header at `esi`; every type but 0 is copied. -/
def copySegment (esi : Nat) : Prog Bytes Unit := do
  let h := headerAt (← get) esi
  when (h.pType ≠ 0) (memCpy h.pFilesz h.pVaddr (add32 h.pOffset baseOfKernelPhyAddr))

def loadSeg : Nat → Nat → Prog Bytes Unit
  | 0, _ => pure ()
  | ecx + 1, esi => do
    copySegment esi
    loadSeg ecx (add32 esi 0x20)

/-- The counter of the loop is decremented before it is tested. -/
def initKernel : Prog Bytes Unit := do
  let m ← get
  let ecx := u16At m (baseOfKernelPhyAddr + 0x2C)
  let esi := add32 (u32At m (baseOfKernelPhyAddr + 0x1C)) baseOfKernelPhyAddr
  loadSeg (if ecx = 0 then 0x100000000 else ecx) esi

end InitKernel

structure KernelFile where
  size : Nat
  content : Bytes

namespace KernelFile

def phnum (file : KernelFile) : Nat := ePhnum file.content
def header (file : KernelFile) (k : Nat) : ProgramHeader := programHeader file.content k

/-- An ELF file that fits in front of the loader, with segments that are linked behind the first
64 KB of it and do not overlap. -/
structure Valid (file : KernelFile) : Prop where
  size : 52 ≤ file.size ∧ file.size ≤ 0x70000
  magic : u32At file.content 0 = 0x464C457F
  phentsize : u16At file.content 42 = 32
  phnum : 0 < file.phnum
  table : phAddr file.content file.phnum ≤ file.size
  inFile : ∀ k < file.phnum, (file.header k).pType ≠ 0 →
    (file.header k).pOffset + (file.header k).pFilesz ≤ file.size ∧
      (file.header k).pVaddr + (file.header k).pFilesz ≤ 0x100000000
  load : ∀ k < file.phnum, (file.header k).IsLoad →
    (file.header k).pFilesz ≤ (file.header k).pMemsz ∧ 0x30000 ≤ (file.header k).pVaddr ∧
      (file.header k).pVaddr + (file.header k).pMemsz ≤ baseOfLoaderPhyAddr
  apart : ∀ i < file.phnum, ∀ k < file.phnum, i ≠ k → (file.header i).IsLoad →
    (file.header k).IsLoad → Disjoint (file.header i).addresses (file.header k).addresses

/-- The file is in memory. -/
def Placed (file : KernelFile) (m : Bytes) : Prop :=
  ∀ i < file.size, m (baseOfKernelPhyAddr + i) = file.content i

/-- The segments are in memory as they are in the file. -/
def Intact (file : KernelFile) (m : Bytes) : Prop :=
  ∀ k < file.phnum, (file.header k).IsLoad → ∀ j < (file.header k).pFilesz,
    m ((file.header k).pVaddr + j) = file.content ((file.header k).pOffset + j)

def LoadedIntact (file : KernelFile) (m : Bytes) : Prop :=
  ∃ m', InitKernel.initKernel m = .ok () m' ∧ file.Intact m'

/-- Where program header `k` is in memory. -/
def place (file : KernelFile) (k : Nat) : Nat := baseOfKernelPhyAddr + phAddr file.content k

end KernelFile

namespace ProgramHeader

/-- The fields that `InitKernel` reads, and their bytes. -/
def used (h : ProgramHeader) : Nat × Nat × Nat × Nat := (h.pType, h.pOffset, h.pVaddr, h.pFilesz)

def UsedByte (b : Nat) : Prop := b < 12 ∨ 16 ≤ b ∧ b < 20

/-- The copy that `InitKernel` makes for a header. -/
def copy (h : ProgramHeader) : Copy :=
  ⟨h.pVaddr, baseOfKernelPhyAddr + h.pOffset, if h.pType = 0 then 0 else h.pFilesz⟩

end ProgramHeader

namespace KernelFile

def copies (file : KernelFile) (k : Nat) : Copy := (file.header k).copy

/-- Byte `j` of segment `k` in the file. -/
def segment (file : KernelFile) (k j : Nat) : UInt8 :=
  file.content ((file.header k).pOffset + j)

/-- `InitKernel` reads every header as it is in the file, what it copies arrives as it is in the file,
and at the end this is still so for the segments to load. -/
structure LoadedFaithfully (file : KernelFile) (m : Bytes) : Prop where
  headers : ∀ k < file.phnum, ∃ m', InitKernel.loadSeg k (file.place 0) m = .ok () m' ∧
    (headerAt m' (file.place k)).used = (file.header k).used
  segments : ∀ k < file.phnum, (file.header k).pType ≠ 0 →
    ∃ m', InitKernel.loadSeg (k + 1) (file.place 0) m = .ok () m' ∧
      ∀ j < (file.header k).pFilesz, m' ((file.header k).pVaddr + j) = file.segment k j
  intact : file.LoadedIntact m

/-- What a copy stores over a part of the file that is read later, or over a segment to load that is
there already, is what is there. -/
structure Undisturbed (file : KernelFile) : Prop where
  headers : ∀ k < file.phnum, ∀ b, ProgramHeader.UsedByte b →
    Copy.Shows file.copies file.segment k (file.place k + b)
      (file.content (phAddr file.content k + b))
  segments : ∀ k < file.phnum, Copy.Reads file.copies file.segment k
  loads : ∀ k < file.phnum, (file.header k).IsLoad → ∀ j < (file.header k).pFilesz,
    Copy.Shows file.copies file.segment file.phnum ((file.header k).pVaddr + j) (file.segment k j)

/-- Nothing but segments to load has bytes in the file. -/
def OnlyLoads (file : KernelFile) : Prop :=
  ∀ k < file.phnum, (file.header k).pType ≠ 0 → (file.header k).pFilesz ≠ 0 →
    (file.header k).IsLoad

/-- No copy stores anything over a header that is still to be read. -/
def TableKept (file : KernelFile) : Prop :=
  ∀ i k, i < k → k < file.phnum → ∀ b, ProgramHeader.UsedByte b →
    ¬ (file.copies i).Covers (file.place k + b)

end KernelFile

section Headers

variable {h : ProgramHeader} {m m' : Bytes} {a a' : Nat}

theorem ProgramHeader.len_copy_of_isLoad (hload : h.IsLoad) : h.copy.len = h.pFilesz := by
  have htype : h.pType ≠ 0 := by
    rw [hload]
    exact Nat.one_ne_zero
  exact if_neg htype

theorem ProgramHeader.used_eq_iff : (headerAt m' a').used = (headerAt m a).used ↔
    ∀ b, UsedByte b → m' (a' + b) = m (a + b) := by
  simp only [used, headerAt, Prod.mk.injEq]
  constructor
  · rintro ⟨htype, hoffset, hvaddr, hfilesz⟩ b hb
    have hfield : ∀ o, u32At m' (a' + o) = u32At m (a + o) → o ≤ b → b < o + 4 →
        m' (a' + b) = m (a + b) := by
      intro o heq hle hlt
      have hbyte := u32At_inj heq (i := b - o) (by omega)
      rwa [Nat.add_assoc, Nat.add_assoc, Nat.add_sub_cancel' hle] at hbyte
    unfold UsedByte at hb
    rcases Nat.lt_or_ge b 4 with h₄ | h₄
    · exact hfield 0 htype (Nat.zero_le b) (by omega)
    · rcases Nat.lt_or_ge b 8 with h₈ | h₈
      · exact hfield 4 hoffset h₄ (by omega)
      · rcases Nat.lt_or_ge b 12 with h₁₂ | h₁₂
        · exact hfield 8 hvaddr h₈ (by omega)
        · exact hfield 16 hfilesz (by omega) (by omega)
  · intro hbytes
    have hfield : ∀ o, (∀ i < 4, UsedByte (o + i)) → u32At m' (a' + o) = u32At m (a + o) := by
      intro o ho
      apply u32At_shift
      intro i hi
      rw [Nat.add_assoc, Nat.add_assoc]
      exact hbytes (o + i) (ho i hi)
    unfold UsedByte at hfield
    exact ⟨hfield 0 fun _ _ => by omega, hfield 4 fun _ _ => by omega,
      hfield 8 fun _ _ => by omega, hfield 16 fun _ _ => by omega⟩

end Headers

section Copying

variable {file : KernelFile} {m m' : Bytes} {dst src i j k n a : Nat}

namespace KernelFile

theorem Valid.phAddr_eq (h : file.Valid) (k : Nat) :
    phAddr file.content k = u32At file.content 28 + 32 * k := by
  rw [phAddr, h.phentsize, Nat.mul_comm]

theorem Valid.phAddr_le (h : file.Valid) (hk : k < file.phnum) :
    phAddr file.content k + 32 ≤ file.size := by
  have htable := h.table
  rw [h.phAddr_eq] at htable ⊢
  omega

theorem Valid.place_succ (h : file.Valid) (hk : k < file.phnum) :
    add32 (file.place k) 0x20 = file.place (k + 1) := by
  have hle := h.phAddr_le hk
  have hsize := h.size.2
  have hbase : baseOfKernelPhyAddr = 0x20000 := rfl
  rw [h.phAddr_eq] at hle
  rw [place, place, h.phAddr_eq, h.phAddr_eq]
  unfold add32
  omega

theorem Valid.copy_le (h : file.Valid) (hk : k < file.phnum) :
    (file.header k).pOffset + (file.copies k).len ≤ file.size ∨ (file.copies k).len = 0 := by
  by_cases htype : (file.header k).pType = 0
  · exact .inr (if_pos htype)
  · have hlen : (file.copies k).len = (file.header k).pFilesz := if_neg htype
    rw [hlen]
    exact .inl (h.inFile k hk htype).1

theorem Placed.source (hm : file.Placed m) (hv : file.Valid) (hk : k < file.phnum)
    (hj : j < (file.copies k).len) : m ((file.copies k).src + j) = file.segment k j := by
  rcases hv.copy_le hk with hle | hzero
  · exact (congrArg m (Nat.add_assoc _ _ _)).trans (hm _ (by omega))
  · omega

theorem Placed.headerByte (hm : file.Placed m) (hv : file.Valid) (hk : k < file.phnum)
    (hb : j < 32) : m (file.place k + j) = file.content (phAddr file.content k + j) := by
  have hle := hv.phAddr_le hk
  exact (congrArg m (Nat.add_assoc _ _ _)).trans (hm _ (by omega))

end KernelFile

namespace InitKernel

open KernelFile

theorem memCpy_eq (hsrc : src + n < 0x100000000) (hdst : dst + n ≤ 0x100000000) :
    memCpy n dst src m = .ok () (forwardCopy m dst src n) := by
  induction n generalizing m dst src with
  | zero => rfl
  | succ n ih =>
    have hsrc' : add32 src 1 = src + 1 := by
      unfold add32
      omega
    have hstore : (modify fun m => Function.update m dst (m src) : Prog Bytes Unit) m =
        .ok () (Function.update m dst (m src)) := rfl
    rw [memCpy, bind_of_ok hstore, hsrc', forwardCopy_succ]
    rcases Nat.eq_zero_or_pos n with rfl | hpos
    · rfl
    · have hdst' : add32 dst 1 = dst + 1 := by
        unfold add32
        omega
      rw [hdst']
      exact ih (by omega) (by omega)

theorem copySegment_eq (hv : file.Valid) (hk : k < file.phnum)
    (h : (headerAt m (file.place k)).used = (file.header k).used) :
    copySegment (file.place k) m =
      .ok () (forwardCopy m (file.copies k).dst (file.copies k).src (file.copies k).len) := by
  simp only [ProgramHeader.used, Prod.mk.injEq] at h
  obtain ⟨htype, hoffset, hvaddr, hfilesz⟩ := h
  have hget : (get : Prog Bytes Bytes) m = .ok m m := rfl
  rw [copySegment, bind_of_ok hget]
  rw [htype, hoffset, hvaddr, hfilesz, copies, ProgramHeader.copy]
  by_cases hzero : (file.header k).pType = 0
  · rw [when, if_neg (not_not.mpr hzero)]
    simp only [if_pos hzero]
    rfl
  · obtain ⟨hsrc, hdst⟩ := hv.inFile k hk hzero
    have hsize := hv.size.2
    have hbase : baseOfKernelPhyAddr = 0x20000 := rfl
    have hadd : add32 (file.header k).pOffset baseOfKernelPhyAddr =
        baseOfKernelPhyAddr + (file.header k).pOffset := by
      unfold add32
      omega
    simp only [when, if_pos hzero, if_neg hzero, hadd]
    exact memCpy_eq (by omega) hdst

/-- By induction on the headers that are left. -/
theorem loadSeg_eq (hv : file.Valid) (hn : k + n ≤ file.phnum)
    (h : ∀ i, k ≤ i → i < k + n →
      (headerAt (Copy.run file.copies m i) (file.place i)).used = (file.header i).used) :
    loadSeg n (file.place k) (Copy.run file.copies m k) =
      .ok () (Copy.run file.copies m (k + n)) := by
  induction n generalizing k with
  | zero => rfl
  | succ n ih =>
    have hk : k < file.phnum := by omega
    rw [loadSeg, bind_of_ok (copySegment_eq hv hk (h k (Nat.le_refl k) (by omega))),
      hv.place_succ hk, Nat.add_comm n, ← Nat.add_assoc]
    exact ih (by omega) fun i hki hi => h i (by omega) (by omega)

theorem initKernel_eq (hv : file.Valid) (hm : file.Placed m) :
    initKernel m = loadSeg file.phnum (file.place 0) m := by
  have hsize := hv.size
  have hbase : baseOfKernelPhyAddr = 0x20000 := rfl
  have hbyte : ∀ i < 52, m (baseOfKernelPhyAddr + i) = file.content i := fun i hi => hm i (by omega)
  have hphnum : u16At m (baseOfKernelPhyAddr + 0x2C) = file.phnum := by
    rw [u16At, Nat.add_assoc, hbyte _ (by omega), hbyte _ (by omega)]
    rfl
  have hphoff : u32At m (baseOfKernelPhyAddr + 0x1C) = u32At file.content 28 := by
    apply u32At_shift
    intro i hi
    rw [Nat.add_assoc]
    exact hbyte _ (by omega)
  have hesi : add32 (u32At file.content 28) baseOfKernelPhyAddr = file.place 0 := by
    have hle := hv.phAddr_le hv.phnum
    rw [place, hv.phAddr_eq]
    rw [hv.phAddr_eq] at hle
    unfold add32
    omega
  have hget : (get : Prog Bytes Bytes) m = .ok m m := rfl
  rw [initKernel, bind_of_ok hget]
  rw [hphnum, hphoff, hesi, if_neg (Nat.ne_of_gt hv.phnum)]

end InitKernel

namespace KernelFile

/-- The headers are read as they are in the file. -/
def ReadsTable (file : KernelFile) (m : Bytes) (n : Nat) : Prop :=
  ∀ k < n, (headerAt (Copy.run file.copies m k) (file.place k)).used = (file.header k).used

theorem ReadsTable.loadSeg_eq (h : file.ReadsTable m n) (hv : file.Valid) (hn : n ≤ file.phnum) :
    InitKernel.loadSeg n (file.place 0) m = .ok () (Copy.run file.copies m n) := by
  have hload := @InitKernel.loadSeg_eq file m 0 n hv (by omega) fun i _ hi => h i (by omega)
  rwa [Nat.zero_add] at hload

theorem ReadsTable.initKernel_eq (h : file.ReadsTable m file.phnum) (hv : file.Valid)
    (hm : file.Placed m) :
    InitKernel.initKernel m = .ok () (Copy.run file.copies m file.phnum) := by
  rw [InitKernel.initKernel_eq hv hm]
  exact h.loadSeg_eq hv (Nat.le_refl _)

theorem used_header_iff (hv : file.Valid) (hm : file.Placed m) (hk : k < file.phnum)
    (hexact : Copy.Exact file.copies file.segment m k) :
    (headerAt (Copy.run file.copies m k) (file.place k)).used = (file.header k).used ↔
      ∀ b, ProgramHeader.UsedByte b → Copy.Shows file.copies file.segment k (file.place k + b)
        (file.content (phAddr file.content k + b)) := by
  rw [header, programHeader, ProgramHeader.used_eq_iff]
  refine forall₂_congr fun b hb => hexact.run_eq_iff (hm.headerByte hv hk ?_)
  unfold ProgramHeader.UsedByte at hb
  omega

theorem intact_run_iff (hexact : Copy.Exact file.copies file.segment m file.phnum) :
    file.Intact (Copy.run file.copies m file.phnum) ↔
      ∀ k < file.phnum, (file.header k).IsLoad → ∀ j < (file.header k).pFilesz,
        Copy.Shows file.copies file.segment file.phnum ((file.header k).pVaddr + j)
          (file.segment k j) := by
  refine forall₂_congr fun k hk => forall_congr' fun hload => forall₂_congr fun j hj => ?_
  have hcovers : (file.copies k).Covers ((file.header k).pVaddr + j) := by
    refine ⟨Nat.le_add_right _ _, Nat.add_lt_add_left ?_ _⟩
    exact hj.trans_eq (ProgramHeader.len_copy_of_isLoad hload).symm
  obtain ⟨i, hi⟩ := Copy.exists_last ⟨k, hk, hcovers⟩
  rw [hexact.run_last hi]
  exact ⟨fun heq i' hi' => hi.unique hi' ▸ heq, fun hshows => hshows i hi⟩

theorem loadedFaithfully_iff_run (hv : file.Valid) (hm : file.Placed m) :
    file.LoadedFaithfully m ↔ file.ReadsTable m file.phnum ∧
      Copy.Exact file.copies file.segment m file.phnum ∧
        file.Intact (Copy.run file.copies m file.phnum) := by
  have hseg : ∀ k < file.phnum, (file.header k).pType = 0 → (file.copies k).len = 0 :=
    fun k _ htype => if_pos htype
  constructor
  · intro h
    have htable : ∀ n ≤ file.phnum, file.ReadsTable m n := by
      intro n hn
      induction n with
      | zero => exact fun k hk => absurd hk (Nat.not_lt_zero k)
      | succ n ih =>
        intro k hk
        have hbefore := ih (by omega)
        rcases Nat.eq_or_lt_of_le (Nat.le_of_lt_succ hk) with rfl | hlt
        · obtain ⟨m', hrun, hused⟩ := h.headers k (by omega)
          rw [hbefore.loadSeg_eq hv (by omega)] at hrun
          cases hrun
          exact hused
        · exact hbefore k hlt
    refine ⟨htable _ (Nat.le_refl _), fun k hk j hj => ?_, ?_⟩
    · by_cases htype : (file.header k).pType = 0
      · rw [hseg k hk htype] at hj
        exact absurd hj (Nat.not_lt_zero j)
      · obtain ⟨m', hrun, hbytes⟩ := h.segments k hk htype
        rw [(htable (k + 1) hk).loadSeg_eq hv hk] at hrun
        cases hrun
        exact hbytes j (hj.trans_eq (if_neg htype))
    · obtain ⟨m', hrun, hintact⟩ := h.intact
      rw [(htable _ (Nat.le_refl _)).initKernel_eq hv hm] at hrun
      cases hrun
      exact hintact
  · rintro ⟨htable, hexact, hintact⟩
    have hupto : ∀ n ≤ file.phnum, InitKernel.loadSeg n (file.place 0) m =
        .ok () (Copy.run file.copies m n) := fun n hn =>
      ReadsTable.loadSeg_eq (fun k hk => htable k (by omega)) hv hn
    refine ⟨fun k hk => ⟨_, hupto k (by omega), htable k hk⟩, fun k hk htype => ?_,
      _, htable.initKernel_eq hv hm, hintact⟩
    exact ⟨_, hupto (k + 1) hk, fun j hj => hexact k hk j (hj.trans_eq (if_neg htype).symm)⟩

/-- By induction on the headers: the ones in front have been read and copied as they are. -/
theorem loadedFaithfully_iff (hv : file.Valid) (hm : file.Placed m) :
    file.LoadedFaithfully m ↔ file.Undisturbed := by
  have hsource : ∀ k < file.phnum, ∀ j < (file.copies k).len,
      m ((file.copies k).src + j) = file.segment k j := fun k hk j hj => hm.source hv hk hj
  have hexact : Copy.Exact file.copies file.segment m file.phnum ↔
      ∀ k < file.phnum, Copy.Reads file.copies file.segment k := Copy.exact_iff hsource
  rw [loadedFaithfully_iff_run hv hm]
  constructor
  · rintro ⟨htable, hex, hintact⟩
    refine ⟨fun k hk => ?_, hexact.mp hex, (intact_run_iff hex).mp hintact⟩
    exact (used_header_iff hv hm hk fun i hi => hex i (by omega)).mp (htable k hk)
  · rintro ⟨hheaders, hsegments, hloads⟩
    have hex := hexact.mpr hsegments
    refine ⟨fun k hk => ?_, hex, (intact_run_iff hex).mpr hloads⟩
    exact (used_header_iff hv hm hk fun i hi => hex i (by omega)).mpr (hheaders k hk)

theorem OnlyLoads.isLoad (hl : file.OnlyLoads) (hk : k < file.phnum)
    (hc : (file.copies k).Covers a) : (file.header k).IsLoad := by
  obtain ⟨hge, hlt⟩ := hc
  by_cases htype : (file.header k).pType = 0
  · have hlen : (file.copies k).len = 0 := if_pos htype
    omega
  · have hlen : (file.copies k).len = (file.header k).pFilesz := if_neg htype
    exact hl k hk htype (by omega)

theorem OnlyLoads.covers_mem (hl : file.OnlyLoads) (hv : file.Valid) (hk : k < file.phnum)
    (hc : (file.copies k).Covers a) : 0x30000 ≤ a ∧ a < baseOfLoaderPhyAddr := by
  have hload := hl.isLoad hk hc
  have hin := hv.load k hk hload
  have hlen : (file.copies k).len = (file.header k).pFilesz :=
    ProgramHeader.len_copy_of_isLoad hload
  have hdst : (file.copies k).dst = (file.header k).pVaddr := rfl
  obtain ⟨hge, hlt⟩ := hc
  omega

theorem OnlyLoads.covers_unique (hl : file.OnlyLoads) (hv : file.Valid) (hi : i < file.phnum)
    (hk : k < file.phnum) (hci : (file.copies i).Covers a) (hck : (file.copies k).Covers a) :
    i = k := by
  by_contra hik
  have hmem : ∀ n < file.phnum, (file.copies n).Covers a → a ∈ (file.header n).addresses := by
    intro n hn hc
    have hload := hl.isLoad hn hc
    have hin := hv.load n hn hload
    have hlen : (file.copies n).len = (file.header n).pFilesz :=
      ProgramHeader.len_copy_of_isLoad hload
    have hdst : (file.copies n).dst = (file.header n).pVaddr := rfl
    obtain ⟨hge, hlt⟩ := hc
    exact ⟨by omega, by omega⟩
  exact Set.disjoint_left.mp (hv.apart i hi k hk hik (hl.isLoad hi hci) (hl.isLoad hk hck))
    (hmem i hi hci) (hmem k hk hck)

theorem TableKept.readsTable (ht : file.TableKept) (hv : file.Valid) (hm : file.Placed m) :
    file.ReadsTable m file.phnum := by
  intro k hk
  rw [header, programHeader, ProgramHeader.used_eq_iff]
  intro b hb
  rw [Copy.run_of_not_covers fun i hi => ht i k hi hk b hb]
  apply hm.headerByte hv hk
  unfold ProgramHeader.UsedByte at hb
  omega

theorem OnlyLoads.loadedIntact_iff (hl : file.OnlyLoads) (hv : file.Valid) (hm : file.Placed m)
    (ht : file.TableKept) : file.LoadedIntact m ↔ file.Undisturbed := by
  have htable := ht.readsTable hv hm
  rw [← loadedFaithfully_iff hv hm, loadedFaithfully_iff_run hv hm]
  constructor
  · rintro ⟨m', hrun, hintact⟩
    rw [htable.initKernel_eq hv hm] at hrun
    cases hrun
    refine ⟨htable, fun k hk j hj => ?_, hintact⟩
    have hcovers : (file.copies k).Covers ((file.copies k).dst + j) :=
      ⟨Nat.le_add_right _ _, Nat.add_lt_add_left hj _⟩
    have hload := hl.isLoad hk hcovers
    have hlast : Copy.Last file.copies file.phnum ((file.copies k).dst + j) k := by
      refine ⟨hk, hcovers, fun i hki hi hc => ?_⟩
      exact absurd (hl.covers_unique hv hk hi hcovers hc) (Nat.ne_of_lt hki)
    rw [← Copy.run_of_last hlast]
    exact hintact k hk hload j (hj.trans_eq (ProgramHeader.len_copy_of_isLoad hload))
  · rintro ⟨-, -, hintact⟩
    exact ⟨_, htable.initKernel_eq hv hm, hintact⟩

theorem OnlyLoads.tableKept (hl : file.OnlyLoads) (hv : file.Valid) (hsize : file.size ≤ 0x10000) :
    file.TableKept := by
  intro i k hik hk b hb hc
  have hle := hv.phAddr_le hk
  have hlow := (hl.covers_mem hv (by omega) hc).1
  have hbase : baseOfKernelPhyAddr = 0x20000 := rfl
  unfold ProgramHeader.UsedByte at hb
  rw [place] at hlow
  omega

/-- A file of at most 64 KB is read to its end before anything of it is written over. -/
theorem OnlyLoads.undisturbed (hl : file.OnlyLoads) (hv : file.Valid)
    (hsize : file.size ≤ 0x10000) : file.Undisturbed := by
  have hbase : baseOfKernelPhyAddr = 0x20000 := rfl
  have hsrc : ∀ k < file.phnum, ∀ j < (file.copies k).len, (file.copies k).src + j < 0x30000 := by
    intro k hk j hj
    have hplace : (file.copies k).src = baseOfKernelPhyAddr + (file.header k).pOffset := rfl
    rcases hv.copy_le hk with hle | hzero
    · omega
    · omega
  refine ⟨fun k hk b hb i hi => ?_, fun k hk => ⟨fun j hj _ i hi => ?_, fun _ j hj hd => ?_⟩,
    fun k hk hload j hj i hi => ?_⟩
  · exact absurd hi.covers (hl.tableKept hv hsize i k hi.lt hk b hb)
  · have hlow := (hl.covers_mem hv (hi.lt.trans hk) hi.covers).1
    have hhigh := hsrc k hk j hj
    omega
  · have hcovers : (file.copies k).Covers ((file.copies k).dst + 0) :=
      ⟨Nat.le_add_right _ _, by omega⟩
    have hlow := (hl.covers_mem hv hk hcovers).1
    have hhigh := hsrc k hk j hj
    omega
  · have hcovers : (file.copies k).Covers ((file.header k).pVaddr + j) := by
      refine ⟨Nat.le_add_right _ _, Nat.add_lt_add_left ?_ _⟩
      exact hj.trans_eq (ProgramHeader.len_copy_of_isLoad hload).symm
    obtain rfl := hl.covers_unique hv hi.lt hk hi.covers hcovers
    exact congrArg (file.segment i) (Nat.add_sub_cancel_left ..)

theorem Undisturbed.loadedIntact (h : file.Undisturbed) (hv : file.Valid) (hm : file.Placed m) :
    file.LoadedIntact m :=
  ((loadedFaithfully_iff hv hm).mpr h).intact

/-- `InitKernel` reads and copies a kernel as it is in the file exactly when no copy stores another
byte over what is read later or has been loaded already. Where only segments to load have bytes and
no header is written over before it is read, this is what it takes for the segments to arrive
intact; in a file of at most 64 KB they always do. -/
theorem kernel_loaded (hv : file.Valid) (hm : file.Placed m) :
    (file.LoadedFaithfully m ↔ file.Undisturbed) ∧ (file.Undisturbed → file.LoadedIntact m) ∧
      (file.OnlyLoads → file.TableKept → (file.LoadedIntact m ↔ file.Undisturbed)) ∧
      (file.OnlyLoads → file.size ≤ 0x10000 → file.LoadedIntact m) :=
  ⟨loadedFaithfully_iff hv hm, fun hu => hu.loadedIntact hv hm,
    fun hl ht => hl.loadedIntact_iff hv hm ht,
    fun hl hsize => (hl.undisturbed hv hsize).loadedIntact hv hm⟩

/-- A kernel of one segment, which is the whole file and is linked at `0x30000`. -/
def flatKernel (size : Nat) : KernelFile where
  size := size
  content := putBytes (fun _ => 0x90) 0 ([0x7F, 0x45, 0x4C, 0x46, 1, 1, 1] ++ List.replicate 9 0 ++
    [2, 0, 3, 0] ++ u32Bytes 1 ++ u32Bytes 0x30400 ++ u32Bytes 52 ++ List.replicate 8 0 ++
    [52, 0, 32, 0, 1, 0] ++ List.replicate 6 0 ++ u32Bytes 1 ++ u32Bytes 0 ++ u32Bytes 0x30000 ++
    u32Bytes 0x30000 ++ u32Bytes size ++ u32Bytes size ++ u32Bytes 7 ++ u32Bytes 0x1000)

def inMemory (file : KernelFile) : Bytes := fun a => file.content (a - baseOfKernelPhyAddr)

theorem placed_inMemory (file : KernelFile) : file.Placed file.inMemory := by
  intro i _
  rw [inMemory, Nat.add_sub_cancel_left]

/-- What has to be looked up in the header of a flat kernel. -/
structure IsFlat (file : KernelFile) (n : Nat) : Prop where
  size : file.size = n
  magic : u32At file.content 0 = 0x464C457F
  phentsize : u16At file.content 42 = 32
  phnum : file.phnum = 1
  phoff : phAddr file.content 1 = 84
  header : file.header 0 = ⟨1, 0, 0x30000, n, n⟩

theorem IsFlat.valid (h : file.IsFlat n) (hn : 84 ≤ n ∧ n ≤ 0x60000) : file.Valid := by
  have hone : ∀ k < file.phnum, k = 0 := by
    intro k hk
    rw [h.phnum] at hk
    omega
  refine ⟨?_, h.magic, h.phentsize, ?_, ?_, ?_, ?_, ?_⟩
  · rw [h.size]
    omega
  · rw [h.phnum]
    exact Nat.one_pos
  · rw [h.phnum, h.phoff, h.size]
    exact hn.1
  · intro k hk _
    rw [hone k hk, h.header, h.size]
    exact ⟨by simp, by dsimp only; omega⟩
  · intro k hk _
    rw [hone k hk, h.header]
    have hbase : baseOfLoaderPhyAddr = 0x90000 := rfl
    dsimp only
    omega
  · intro i hi k hk hik
    exact absurd ((hone i hi).trans (hone k hk).symm) hik

theorem IsFlat.onlyLoads (h : file.IsFlat n) : file.OnlyLoads := by
  intro k hk _ _
  have hk0 : k = 0 := by
    rw [h.phnum] at hk
    omega
  rw [hk0, h.header]
  rfl

theorem IsFlat.tableKept (h : file.IsFlat n) : file.TableKept := by
  intro i k hik hk
  rw [h.phnum] at hk
  omega

theorem flat_small : (flatKernel 0x100).IsFlat 0x100 where
  size := rfl
  magic := by decide +kernel
  phentsize := by decide +kernel
  phnum := by decide +kernel
  phoff := by decide +kernel
  header := by decide +kernel

theorem small_loaded : (flatKernel 0x100).LoadedIntact (flatKernel 0x100).inMemory :=
  (kernel_loaded (flat_small.valid (by decide)) (placed_inMemory _)).2.2.2 flat_small.onlyLoads
    (by decide)

theorem flat_large : (flatKernel 0x10001).IsFlat 0x10001 where
  size := rfl
  magic := by decide +kernel
  phentsize := by decide +kernel
  phnum := by decide +kernel
  phoff := by decide +kernel
  header := by decide +kernel

/-- One byte more than 64 KB: the last byte of the file is the first one of the copy when it is
read. -/
theorem large_not_loaded :
    (flatKernel 0x10001).Valid ∧ (flatKernel 0x10001).Placed (flatKernel 0x10001).inMemory ∧
      ¬ (flatKernel 0x10001).LoadedIntact (flatKernel 0x10001).inMemory := by
  have hvalid := flat_large.valid (by decide)
  have hplaced := placed_inMemory (flatKernel 0x10001)
  refine ⟨hvalid, hplaced, fun h => ?_⟩
  have hu := (flat_large.onlyLoads.loadedIntact_iff hvalid hplaced flat_large.tableKept).mp h
  have hreads := hu.segments 0 (by rw [flat_large.phnum]; exact Nat.one_pos)
  have hcopy : (flatKernel 0x10001).copies 0 = ⟨0x30000, 0x20000, 0x10001⟩ := by
    rw [copies, flat_large.header]
    rfl
  have hrepeat := hreads.repeats (by rw [hcopy]; decide) 0x10000 (by rw [hcopy]; decide)
    (by rw [hcopy]; decide)
  rw [hcopy, segment, segment, flat_large.header] at hrepeat
  exact absurd hrepeat (by decide +kernel)

end KernelFile

end Copying

end BazingaOS
