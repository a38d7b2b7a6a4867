import BazingaOS.MM.Image
import BazingaOS.MM.Load

/-!
# Loading arbitrary bytes

`do_exec` up to the end of its loop over the program headers, in the memory that all processes
share. Offsets, sizes and addresses come from the file and are added modulo `2 ^ 32`; a log keeps
the addresses that the loop reads and writes.
-/

namespace BazingaOS

open Prog

/-- What MM manages, with the addresses that the loop over the program headers has read and
written. -/
structure LoadTrace where
  images : Images
  reads : List Nat := []
  writes : List Nat := []

/-- The addresses of `n` bytes from `a` on. -/
def touched (a n : Nat) : List Nat := (List.range n).map fun i => (a + i) % 0x100000000

/-- Memory as the pointer `a` reaches it. -/
def around (m : Bytes) : Bytes := fun i => m (i % 0x100000000)

namespace MM

def load32 (a : Nat) : Prog LoadTrace Nat := do
  modify fun t => { t with reads := t.reads ++ touched a 4 }
  return u32At (around (← get).images.memory) a

def load16 (a : Nat) : Prog LoadTrace Nat := do
  modify fun t => { t with reads := t.reads ++ touched a 2 }
  return u16At (around (← get).images.memory) a

/-- `va2la`; the address of a native process has to be the linear one. -/
def va2laOf (p : Pid) (va : Nat) : Prog LoadTrace Nat := do
  let la := va2la ((← get).images.ldts p) va
  check (p.val < nrTasks + nrNativeProcs → la = va)
  return la

def copyTraced (dst src n : Nat) : Prog LoadTrace Unit :=
  modify fun t => { t with
    images := { t.images with memory := physCopy t.images.memory dst src n }
    reads := t.reads ++ touched src n
    writes := t.writes ++ touched dst n }

/-- One round of the loop over the program headers. -/
def loadHeader (p : Pid) (i : Nat) : Prog LoadTrace Unit := do
  let phoff ← load32 (mmbufBase + 28)
  let phentsize ← load16 (mmbufBase + 42)
  let ph := (mmbufBase + phoff + i * phentsize) % 0x100000000
  let pType ← load32 ph
  when (pType = 1) do
    let vaddr ← load32 (ph + 8)
    let offset ← load32 (ph + 4)
    let filesz ← load32 (ph + 16)
    let dst ← va2laOf p vaddr
    let src ← va2laOf taskMm ((mmbufBase + offset) % 0x100000000)
    copyTraced dst src filesz
    let vaddr ← load32 (ph + 8)
    check (vaddr < procDefaultImgSize)

/-- The loop over the program headers, whose number is read in front of every round. -/
def loadHeaders (p : Pid) : Nat → Nat → Prog LoadTrace Unit
  | 0, _ => halt .hang
  | fuel + 1, i => do
    let phnum ← load16 (mmbufBase + 44)
    if i < phnum then
      loadHeader p i
      loadHeaders p fuel (i + 1)
    else return

/-- `do_exec` up to the end of this loop, for the file that `stat`, `open` and `read` find: the value
that it returns early, if it does. -/
def execHeaders (file : ExecFile) (p : Pid) : Prog LoadTrace (Option Int) := do
  if file.statRet ≠ 0 then return some (-1)
  else if file.fd < 0 then return some (-1)
  else
    check (file.size ≤ mmbufSize)
    modify fun t => { t with images := { t.images with
      memory := copyBytes t.images.memory mmbufBase file.content 0 file.size } }
    loadHeaders p 0x10000 0
    return none

end MM

/-- Where the loop looks for program header `i` in the file. -/
def headerOffset (m : Bytes) (i : Nat) : Nat := phAddr m i % 0x100000000

/-- Program header `i` as the loop finds it in the file. -/
def ExecFile.wrappedHeader (file : ExecFile) (i : Nat) : ProgramHeader :=
  headerAt file.content (headerOffset file.content i)

/-- The round for program header `i` stops at the assertion about the address. -/
def HeaderStops (file : ExecFile) (i : Nat) : Prop :=
  (file.wrappedHeader i).IsLoad ∧ procDefaultImgSize ≤ (file.wrappedHeader i).pVaddr

/-- Program header `i` and the segment it describes lie inside the file and the image. -/
def HeaderFits (file : ExecFile) (i : Nat) : Prop :=
  headerOffset file.content i + 4 ≤ file.size ∧
    ((file.wrappedHeader i).IsLoad → headerOffset file.content i + 20 ≤ file.size ∧
      ((file.wrappedHeader i).pFilesz = 0 ∨
        (file.wrappedHeader i).pOffset + (file.wrappedHeader i).pFilesz ≤ file.size ∧
        (file.wrappedHeader i).pVaddr + (file.wrappedHeader i).pFilesz ≤ procDefaultImgSize))

/-- The file has a header, and its program headers fit up to the first at which the loop stops. -/
def HeadersFit (file : ExecFile) : Prop :=
  46 ≤ file.size ∧ ∀ i < file.phnum, (∀ j < i, ¬ HeaderStops file j) → HeaderFits file i

/-- The loop reads bytes of the file only and writes into the image of `p` only. -/
def LoadTrace.Confined (file : ExecFile) (p : Pid) (t : LoadTrace) : Prop :=
  (∀ a ∈ t.reads, mmbufBase ≤ a ∧ a < mmbufBase + file.size) ∧
    ∀ a ∈ t.writes, imageBase p ≤ a ∧ a < imageBase p + procDefaultImgSize

section Touched

variable {a b base o n size k : Nat} {m m' : Bytes}

theorem mem_touched : a ∈ touched b n ↔ ∃ k < n, (b + k) % 0x100000000 = a := by
  simp [touched]

theorem touched_mod : touched (a % 0x100000000 + b) n = touched (a + b) n := by
  apply List.map_congr_left
  intro i _
  omega

theorem around_mod : around m (a % 0x100000000 + b) = around m (a + b) := by
  unfold around
  congr 1
  omega

theorem around_of_lt (h : a < 0x100000000) : around m a = m a := by
  rw [around, Nat.mod_eq_of_lt h]

/-- Bytes from `base + o` on lie between `base` and `base + size` exactly if there are none or the last
one does; an offset from 2 ^ 32 less something wraps to an address in front of `base`. -/
theorem touched_inside_iff (ho : o < 0x100000000) (hbase : base + size < 0x100000000) :
    (∀ a ∈ touched (base + o) n, base ≤ a ∧ a < base + size) ↔ n = 0 ∨ o + n ≤ size := by
  constructor
  · intro h
    rcases Nat.eq_zero_or_pos n with hn | hn
    · exact .inl hn
    · right
      have hfirst := h _ (mem_touched.mpr ⟨0, hn, rfl⟩)
      have hlow : o < size := by omega
      by_contra hlong
      have hend := h _ (mem_touched.mpr ⟨size - o, by omega, rfl⟩)
      omega
  · intro h a ha
    obtain ⟨k, hk, rfl⟩ := mem_touched.mp ha
    omega

end Touched

section Rules

variable {file : ExecFile} {p : Pid} {t : LoadTrace} {a n : Nat}

@[simp] theorem wp_load32 {Q : Nat → LoadTrace → Prop} {E : Stop → LoadTrace → Prop} :
    wp (MM.load32 a) Q E t ↔ Q (u32At (around t.images.memory) a)
      { t with reads := t.reads ++ touched a 4 } := Iff.rfl

@[simp] theorem wp_load16 {Q : Nat → LoadTrace → Prop} {E : Stop → LoadTrace → Prop} :
    wp (MM.load16 a) Q E t ↔ Q (u16At (around t.images.memory) a)
      { t with reads := t.reads ++ touched a 2 } := Iff.rfl

theorem not_confined_append {images : Images} {l l' : List Nat} (h : ¬ t.Confined file p) :
    ¬ LoadTrace.Confined file p ⟨images, t.reads ++ l, t.writes ++ l'⟩ := fun hc =>
  h ⟨fun a ha => hc.1 a (List.mem_append_left l ha), fun a ha => hc.2 a (List.mem_append_left l' ha)⟩

theorem keeps_load32 (a : Nat) : Keeps (fun t => ¬ t.Confined file p) (MM.load32 a) := by
  intro t ht
  have h := @not_confined_append file p t t.images (touched a 4) [] ht
  rwa [List.append_nil] at h

theorem keeps_load16 (a : Nat) : Keeps (fun t => ¬ t.Confined file p) (MM.load16 a) := by
  intro t ht
  have h := @not_confined_append file p t t.images (touched a 2) [] ht
  rwa [List.append_nil] at h

theorem keeps_va2laOf (q : Pid) (a : Nat) :
    Keeps (fun t => ¬ t.Confined file p) (MM.va2laOf q a) :=
  keeps_bind keeps_get fun _ => keeps_bind (keeps_check _) fun _ => keeps_pure _

theorem keeps_loadHeader (q : Pid) (i : Nat) :
    Keeps (fun t => ¬ t.Confined file p) (MM.loadHeader q i) := by
  apply keeps_bind (keeps_load32 _)
  intro phoff
  apply keeps_bind (keeps_load16 _)
  intro phentsize
  apply keeps_bind (keeps_load32 _)
  intro pType
  apply keeps_when
  apply keeps_bind (keeps_load32 _)
  intro vaddr
  apply keeps_bind (keeps_load32 _)
  intro offset
  apply keeps_bind (keeps_load32 _)
  intro filesz
  apply keeps_bind (keeps_va2laOf _ _)
  intro dst
  apply keeps_bind (keeps_va2laOf _ _)
  intro src
  apply keeps_bind
  · apply keeps_modify
    intro t ht
    exact not_confined_append ht
  · intro _
    exact keeps_bind (keeps_load32 _) fun _ => keeps_check _

theorem keeps_loadHeaders (q : Pid) (fuel i : Nat) :
    Keeps (fun t => ¬ t.Confined file p) (MM.loadHeaders q fuel i) := by
  induction fuel generalizing i with
  | zero => exact keeps_halt _
  | succ fuel ih =>
    apply keeps_bind (keeps_load16 _)
    intro phnum
    apply keeps_ite
    · intro _
      exact keeps_bind (keeps_loadHeader q i) fun _ => ih (i + 1)
    · intro _
      exact keeps_pure _

end Rules

/-- The invariant of the loop in front of round `i`; `s` is the state behind the read of the file. An
image that the file describes without wrap-around is the one of the model of separate images. -/
structure LoadInv (file : ExecFile) (p : Pid) (s : Images) (i : Nat) (t : LoadTrace) : Prop where
  ldts : t.images.ldts = s.ldts
  buf : ∀ k < file.size, t.images.memory (mmbufBase + k) = file.content k
  confined : t.Confined file p
  le : i ≤ file.phnum
  image : (∀ j < i, phAddr file.content j < 0x100000000) → ∀ a < procDefaultImgSize,
    t.images.memory (imageBase p + a) =
      laidOver file.content i (fun a => s.memory (imageBase p + a)) a

/-- What a round reads of the headers. -/
def headerReads (o : Nat) : List Nat :=
  touched (mmbufBase + 28) 4 ++ touched (mmbufBase + 42) 2 ++ touched (mmbufBase + o) 4

/-- The state behind the copy of the segment of a header at offset `o`. -/
def LoadTrace.copied (t : LoadTrace) (p : Pid) (o : Nat) (h : ProgramHeader) : LoadTrace where
  images := { t.images with
    memory := physCopy t.images.memory ((h.pVaddr + imageBase p) % 0x100000000)
      ((mmbufBase + h.pOffset) % 0x100000000) h.pFilesz }
  reads := t.reads ++ (headerReads o ++ (touched (mmbufBase + o + 8) 4 ++
    (touched (mmbufBase + o + 4) 4 ++ (touched (mmbufBase + o + 16) 4 ++
      (touched (mmbufBase + h.pOffset) h.pFilesz ++ touched (mmbufBase + o + 8) 4)))))
  writes := t.writes ++ touched (imageBase p + h.pVaddr) h.pFilesz

section Round

variable {file : ExecFile} {p : Pid} {s : Images} {t : LoadTrace} {i o b : Nat} {m : Bytes}

theorem u32At_around_mod {a : Nat} :
    u32At (around m) (a % 0x100000000 + b) = u32At (around m) (a + b) := by
  apply u32At_shift
  intro k _
  rw [Nat.add_assoc, Nat.add_assoc, around_mod]

theorem wp_va2laOf_forked {Q : Nat → LoadTrace → Prop} {E : Stop → LoadTrace → Prop} {va : Nat}
    (hp : nrTasks + nrNativeProcs ≤ p.val) (hldt : t.images.ldts p = childLdt p) :
    wp (MM.va2laOf p va) Q E t ↔ Q ((va + imageBase p) % 0x100000000) t := by
  have hla : va2la (t.images.ldts p) va = (va + imageBase p) % 0x100000000 := by
    rw [va2la, ldtSegLinear_eq, hldt, (childLdt_base p).2]
  simp only [MM.va2laOf, wp_bind, wp_get, wp_check, wp_pure, hla]
  constructor
  · intro h
    exact h.1 fun hlt => absurd hp (by omega)
  · intro h
    exact ⟨fun _ => h, fun hnot => absurd (fun hlt => absurd hp (by omega)) hnot⟩

theorem wp_va2laOf_mm {Q : Nat → LoadTrace → Prop} {E : Stop → LoadTrace → Prop} {va : Nat}
    (hldt : t.images.ldts taskMm = flatLdt privilegeTask) (hva : va < 0x100000000) :
    wp (MM.va2laOf taskMm va) Q E t ↔ Q va t := by
  have hla : va2la (t.images.ldts taskMm) va = va := by
    have hbase : ldtSegLinear (flatLdt privilegeTask) = 0 := by decide
    rw [va2la, hldt, hbase, Nat.add_zero, Nat.mod_eq_of_lt hva]
  simp only [MM.va2laOf, wp_bind, wp_get, wp_check, wp_pure, hla]
  simp

theorem LoadInv.byte (h : LoadInv file p s i t) (hsize : file.size ≤ mmbufSize)
    (hb : b < file.size) : around t.images.memory (mmbufBase + b) = file.content b := by
  simp only [mmbufSize] at hsize
  rw [around_of_lt, h.buf b hb]
  simp only [mmbufBase]
  omega

theorem LoadInv.word (h : LoadInv file p s i t) (hsize : file.size ≤ mmbufSize)
    (hb : b + 4 ≤ file.size) :
    u32At (around t.images.memory) (mmbufBase + b) = u32At file.content b := by
  apply u32At_shift
  intro k hk
  rw [Nat.add_assoc]
  exact h.byte hsize (by omega)

theorem LoadInv.half (h : LoadInv file p s i t) (hsize : file.size ≤ mmbufSize)
    (hb : b + 2 ≤ file.size) :
    u16At (around t.images.memory) (mmbufBase + b) = u16At file.content b := by
  unfold u16At
  rw [h.byte hsize (by omega), Nat.add_assoc, h.byte hsize (by omega)]

theorem loadHeader_spec (hinv : LoadInv file p s i t) (hfile : 46 ≤ file.size)
    (hsize : file.size ≤ mmbufSize) (hp : nrTasks + nrNativeProcs ≤ p.val)
    (hldt : s.ldts p = childLdt p)
    (hmm : s.ldts taskMm = flatLdt privilegeTask) {h : ProgramHeader}
    (ho : o = headerOffset file.content i)
    (hh : h = headerAt (around t.images.memory) (mmbufBase + o)) :
    wp (MM.loadHeader p i)
      (fun _ t' => (¬ h.IsLoad ∧ t' = { t with reads := t.reads ++ headerReads o }) ∨
        (h.IsLoad ∧ t' = t.copied p o h ∧
          u32At (around t'.images.memory) (mmbufBase + o + 8) < procDefaultImgSize))
      (fun w t' => w = .assertion ∧ h.IsLoad ∧ t' = t.copied p o h ∧
        procDefaultImgSize ≤ u32At (around t'.images.memory) (mmbufBase + o + 8)) t := by
  have hphoff := hinv.word hsize (b := 28) (by omega)
  have hent := hinv.half hsize (b := 42) (by omega)
  have hph : (mmbufBase + u32At file.content 28 + i * u16At file.content 42) % 0x100000000 =
      (mmbufBase + o) % 0x100000000 := by
    rw [ho, headerOffset, phAddr]
    omega
  have hword : ∀ (m : Bytes) b, u32At (around m) ((mmbufBase + o) % 0x100000000 + b) =
      u32At (around m) (mmbufBase + o + b) := fun _ _ => u32At_around_mod
  have hword₀ : u32At (around t.images.memory) ((mmbufBase + o) % 0x100000000) = h.pType := by
    rw [hh]
    exact hword _ 0
  have htouch : ∀ b, touched ((mmbufBase + o) % 0x100000000 + b) 4 = touched (mmbufBase + o + b) 4 :=
    fun _ => touched_mod
  have htouch₀ : touched ((mmbufBase + o) % 0x100000000) 4 = touched (mmbufBase + o) 4 := htouch 0
  simp only [MM.loadHeader, wp_bind, wp_load32, wp_load16, wp_when, hphoff, hent, hph, hword₀,
    htouch₀]
  have hvaddr : u32At (around t.images.memory) (mmbufBase + o + 8) = h.pVaddr := by rw [hh]; rfl
  have hoffset : u32At (around t.images.memory) (mmbufBase + o + 4) = h.pOffset := by rw [hh]; rfl
  have hfilesz : u32At (around t.images.memory) (mmbufBase + o + 16) = h.pFilesz := by rw [hh]; rfl
  refine ⟨fun hload => ?_, fun hload => .inl ⟨hload, ?_⟩⟩
  · rw [wp_va2laOf_forked hp (by rw [← hldt, ← hinv.ldts]),
      wp_va2laOf_mm (by rw [← hmm, ← hinv.ldts]) (Nat.mod_lt _ (by decide))]
    have hdst : touched ((h.pVaddr + imageBase p) % 0x100000000) h.pFilesz =
        touched (imageBase p + h.pVaddr) h.pFilesz := by
      rw [Nat.add_comm (imageBase p)]
      exact touched_mod (b := 0)
    have hsrc : touched ((mmbufBase + h.pOffset) % 0x100000000) h.pFilesz =
        touched (mmbufBase + h.pOffset) h.pFilesz := touched_mod (b := 0)
    simp only [MM.copyTraced, wp_modify, wp_check, hphoff, hent, hph, hword, htouch, hvaddr,
      hoffset, hfilesz, hdst, hsrc, LoadTrace.copied, headerReads, List.append_assoc]
    exact ⟨fun hlt => .inr ⟨hload, trivial, hlt⟩,
      fun hge => ⟨trivial, hload, trivial, Nat.le_of_not_lt hge⟩⟩
  · rw [headerReads, List.append_assoc, List.append_assoc, List.append_assoc]

theorem file_inside_iff {n : Nat} (hsize : file.size ≤ mmbufSize) (ho : o < 0x100000000) :
    (∀ a ∈ touched (mmbufBase + o) n, mmbufBase ≤ a ∧ a < mmbufBase + file.size) ↔
      n = 0 ∨ o + n ≤ file.size := by
  apply touched_inside_iff ho
  simp only [mmbufSize] at hsize
  simp only [mmbufBase]
  omega

theorem image_inside_iff {v n : Nat} (hv : v < 0x100000000) :
    (∀ a ∈ touched (imageBase p + v) n, imageBase p ≤ a ∧ a < imageBase p + procDefaultImgSize) ↔
      n = 0 ∨ v + n ≤ procDefaultImgSize := by
  apply touched_inside_iff hv
  have hle := imageBase_le p
  omega

theorem headerReads_inside_iff (hfile : 46 ≤ file.size) (hsize : file.size ≤ mmbufSize)
    (ho : o < 0x100000000) :
    (∀ a ∈ headerReads o, mmbufBase ≤ a ∧ a < mmbufBase + file.size) ↔ o + 4 ≤ file.size := by
  rw [headerReads, List.forall_mem_append, List.forall_mem_append, file_inside_iff hsize ho,
    file_inside_iff hsize (by omega), file_inside_iff hsize (by omega)]
  omega

theorem copied_confined_iff (ht : t.Confined file p) (hfile : 46 ≤ file.size)
    (hsize : file.size ≤ mmbufSize) (ho : o < 0x100000000) {h : ProgramHeader}
    (hoff : h.pOffset < 0x100000000) (hvaddr : h.pVaddr < 0x100000000) :
    (t.copied p o h).Confined file p ↔ o + 20 ≤ file.size ∧ (h.pFilesz = 0 ∨
      h.pOffset + h.pFilesz ≤ file.size ∧ h.pVaddr + h.pFilesz ≤ procDefaultImgSize) := by
  have hsmall : file.size ≤ 0x100000 := hsize
  have hsegment : (∀ a ∈ touched (mmbufBase + h.pOffset) h.pFilesz,
        mmbufBase ≤ a ∧ a < mmbufBase + file.size) ∧
      (∀ a ∈ touched (imageBase p + h.pVaddr) h.pFilesz,
        imageBase p ≤ a ∧ a < imageBase p + procDefaultImgSize) ↔
      h.pFilesz = 0 ∨ h.pOffset + h.pFilesz ≤ file.size ∧
        h.pVaddr + h.pFilesz ≤ procDefaultImgSize := by
    rw [file_inside_iff hsize hoff, image_inside_iff hvaddr]
    omega
  simp only [LoadTrace.Confined, LoadTrace.copied, List.forall_mem_append, Nat.add_assoc]
  constructor
  · rintro ⟨⟨-, hhead, -, -, hlast, hsrc, -⟩, -, hdst⟩
    have hfirst := (headerReads_inside_iff hfile hsize ho).mp hhead
    have hend := (file_inside_iff hsize (by omega)).mp hlast
    exact ⟨by omega, hsegment.mp ⟨hsrc, hdst⟩⟩
  · rintro ⟨hend, hseg⟩
    obtain ⟨hsrc, hdst⟩ := hsegment.mpr hseg
    have hword : ∀ b, b + 4 ≤ 20 → ∀ a ∈ touched (mmbufBase + (o + b)) 4,
        mmbufBase ≤ a ∧ a < mmbufBase + file.size :=
      fun b hb => (file_inside_iff hsize (by omega)).mpr (.inr (by omega))
    exact ⟨⟨ht.1, (headerReads_inside_iff hfile hsize ho).mpr (by omega), hword 8 (by omega),
      hword 4 (by omega), hword 16 (by omega), hsrc, hword 8 (by omega)⟩, ht.2, hdst⟩

theorem headerOffset_lt (m : Bytes) (i : Nat) : headerOffset m i < 0x100000000 :=
  Nat.mod_lt _ (by decide)

theorem LoadInv.fields (hinv : LoadInv file p s i t) (hsize : file.size ≤ mmbufSize)
    (ho : o = headerOffset file.content i) {h : ProgramHeader}
    (hh : h = headerAt (around t.images.memory) (mmbufBase + o)) :
    (o + 4 ≤ file.size → (h.IsLoad ↔ (file.wrappedHeader i).IsLoad)) ∧
    (o + 20 ≤ file.size → h.pOffset = (file.wrappedHeader i).pOffset ∧
      h.pVaddr = (file.wrappedHeader i).pVaddr ∧ h.pFilesz = (file.wrappedHeader i).pFilesz) := by
  subst hh ho
  constructor
  · intro hfirst
    have htype := hinv.word hsize hfirst
    unfold ProgramHeader.IsLoad
    rw [headerAt, htype]
    rfl
  · intro hlast
    have hword : ∀ b, b + 4 ≤ 20 →
        u32At (around t.images.memory) (mmbufBase + headerOffset file.content i + b) =
          u32At file.content (headerOffset file.content i + b) := by
      intro b hb
      rw [Nat.add_assoc]
      exact hinv.word hsize (by omega)
    exact ⟨hword 4 (by omega), hword 8 (by omega), hword 16 (by omega)⟩

/-- The file, and what is known of the segments of `p` and of MM. -/
structure LoadSetup (file : ExecFile) (p : Pid) (s : Images) : Prop where
  header : 46 ≤ file.size
  size : file.size ≤ mmbufSize
  user : nrTasks + nrNativeProcs ≤ p.val
  child : s.ldts p = childLdt p
  mm : s.ldts taskMm = flatLdt privilegeTask

theorem loadHeader_unfit (hset : LoadSetup file p s) (hinv : LoadInv file p s i t)
    (hnot : ¬ HeaderFits file i) : wp (MM.loadHeader p i) (fun _ t' => ¬ t'.Confined file p)
      (fun w t' => w = .assertion ∧ ¬ t'.Confined file p) t := by
  obtain ⟨o, ho⟩ : ∃ o, o = headerOffset file.content i := ⟨_, rfl⟩
  obtain ⟨h, hh⟩ : ∃ h, h = headerAt (around t.images.memory) (mmbufBase + o) := ⟨_, rfl⟩
  have hlt : o < 0x100000000 := by
    rw [ho]
    exact headerOffset_lt _ _
  obtain ⟨hload, hfields⟩ := hinv.fields hset.size ho hh
  have hoff : h.pOffset < 0x100000000 := by
    rw [hh]
    exact u32At_lt _ _
  have hvaddr : h.pVaddr < 0x100000000 := by
    rw [hh]
    exact u32At_lt _ _
  have hcopied : ¬ (t.copied p o h).Confined file p := by
    rw [copied_confined_iff hinv.confined hset.header hset.size hlt hoff hvaddr]
    rintro ⟨hlast, hseg⟩
    obtain ⟨h₁, h₂, h₃⟩ := hfields hlast
    apply hnot
    unfold HeaderFits
    rw [← ho, ← h₁, ← h₂, ← h₃]
    exact ⟨by omega, fun _ => ⟨hlast, hseg⟩⟩
  apply wp_mono (loadHeader_spec hinv hset.header hset.size hset.user hset.child hset.mm ho hh)
  · rintro _ t' (⟨hskip, rfl⟩ | ⟨-, rfl, -⟩)
    · intro hconf
      have hreads := (List.forall_mem_append.mp hconf.1).2
      have hfirst := (headerReads_inside_iff hset.header hset.size hlt).mp hreads
      apply hnot
      unfold HeaderFits
      rw [← ho, ← hload hfirst]
      exact ⟨hfirst, fun hl => absurd hl hskip⟩
    · exact hcopied
  · rintro w t' ⟨rfl, -, rfl, -⟩
    exact ⟨rfl, hcopied⟩

theorem wrappedHeader_eq (h : phAddr file.content i < 0x100000000) :
    file.wrappedHeader i = programHeader file.content i := by
  rw [ExecFile.wrappedHeader, headerOffset, Nat.mod_eq_of_lt h, programHeader]

theorem physCopy_segment {h : ProgramHeader} (hsize : file.size ≤ mmbufSize)
    (hseg : h.pFilesz = 0 ∨ h.pOffset + h.pFilesz ≤ file.size ∧
      h.pVaddr + h.pFilesz ≤ procDefaultImgSize) :
    physCopy m ((h.pVaddr + imageBase p) % 0x100000000) ((mmbufBase + h.pOffset) % 0x100000000)
      h.pFilesz = copyBytes m (imageBase p + h.pVaddr) m (mmbufBase + h.pOffset) h.pFilesz := by
  rcases hseg with hzero | ⟨hoff, hvaddr⟩
  · rw [hzero]
    funext a
    simp [physCopy, copyBytes]
  · have hle := imageBase_le p
    simp only [mmbufSize] at hsize
    simp only [procAllocBase, procDefaultImgSize] at hle hvaddr
    have hdst : (h.pVaddr + imageBase p) % 0x100000000 = imageBase p + h.pVaddr := by omega
    have hsrc : (mmbufBase + h.pOffset) % 0x100000000 = mmbufBase + h.pOffset := by
      rw [Nat.mod_eq_of_lt]
      simp only [mmbufBase]
      omega
    rw [hdst, hsrc, physCopy_eq_copyBytes (by omega)]
    · simp only [mmbufBase]
      omega
    · simp only [mmbufBase]
      omega

theorem LoadInv.copied (hset : LoadSetup file p s) (hinv : LoadInv file p s i t)
    (hi : i < file.phnum) (hfit : HeaderFits file i) (ho : o = headerOffset file.content i)
    {h : ProgramHeader} (hh : h = headerAt (around t.images.memory) (mmbufBase + o))
    (hl : h.IsLoad) : LoadInv file p s (i + 1) (t.copied p o h) := by
  have hlt : o < 0x100000000 := by
    rw [ho]
    exact headerOffset_lt _ _
  obtain ⟨hload, hfields⟩ := hinv.fields hset.size ho hh
  obtain ⟨hfirst, hrest⟩ := hfit
  rw [← ho] at hfirst hrest
  obtain ⟨hlast, hseg⟩ := hrest ((hload hfirst).mp hl)
  obtain ⟨h₁, h₂, h₃⟩ := hfields hlast
  rw [← h₁, ← h₂, ← h₃] at hseg
  have hmem : (t.copied p o h).images.memory = copyBytes t.images.memory (imageBase p + h.pVaddr)
      t.images.memory (mmbufBase + h.pOffset) h.pFilesz := physCopy_segment hset.size hseg
  have hsmall : file.size ≤ 0x100000 := hset.size
  have hle := (imageBase_le p).1
  simp only [procAllocBase] at hle
  have hbuf : mmbufBase = 0x700000 := rfl
  refine ⟨hinv.ldts, fun k hk => ?_, ?_, hi, fun hwrap a ha => ?_⟩
  · rw [hmem, copyBytes_of_lt (by omega), hinv.buf k hk]
  · have hoff : h.pOffset < 0x100000000 := by
      rw [hh]
      exact u32At_lt _ _
    have hvaddr : h.pVaddr < 0x100000000 := by
      rw [hh]
      exact u32At_lt _ _
    rw [copied_confined_iff hinv.confined hset.header hset.size hlt hoff hvaddr]
    exact ⟨hlast, hseg⟩
  · have hw := wrappedHeader_eq (hwrap i (by omega))
    have hbefore := hinv.image (fun j hj => hwrap j (by omega)) a ha
    have hlaid : laidOver file.content (i + 1) (fun a => s.memory (imageBase p + a)) =
        copyBytes (laidOver file.content i fun a => s.memory (imageBase p + a)) h.pVaddr
          file.content h.pOffset h.pFilesz := by
      rw [laidOver, if_pos (by rwa [← hw, ← hload hfirst]), h₁, h₂, h₃, hw]
    rw [hmem, hlaid]
    rcases Nat.lt_or_ge a h.pVaddr with hbelow | habove
    · rw [copyBytes_of_lt (by omega), copyBytes_of_lt hbelow, hbefore]
    · obtain ⟨k, rfl⟩ := Nat.exists_eq_add_of_le habove
      rcases Nat.lt_or_ge k h.pFilesz with hin | hout
      · rw [← Nat.add_assoc, copyBytes_add hin, copyBytes_add hin, Nat.add_assoc]
        exact hinv.buf _ (by omega)
      · rw [copyBytes_of_ge (by omega), copyBytes_of_ge (by omega), hbefore]

theorem loadHeader_fits (hset : LoadSetup file p s) (hinv : LoadInv file p s i t)
    (hi : i < file.phnum) (hfit : HeaderFits file i) : wp (MM.loadHeader p i)
      (fun _ t' => LoadInv file p s (i + 1) t' ∧ ¬ HeaderStops file i)
      (fun w t' => w = .assertion ∧ t'.Confined file p ∧ HeaderStops file i) t := by
  obtain ⟨o, ho⟩ : ∃ o, o = headerOffset file.content i := ⟨_, rfl⟩
  obtain ⟨h, hh⟩ : ∃ h, h = headerAt (around t.images.memory) (mmbufBase + o) := ⟨_, rfl⟩
  obtain ⟨hload, -⟩ := hinv.fields hset.size ho hh
  have hfirst : o + 4 ≤ file.size := ho ▸ hfit.1
  -- behind the copy, the address that the assertion reads is still the one in the file
  have hagain : h.IsLoad → u32At (around (t.copied p o h).images.memory) (mmbufBase + o + 8) =
      (file.wrappedHeader i).pVaddr := by
    intro hl
    have hlast := (hfit.2 ((hload hfirst).mp hl)).1
    rw [← ho] at hlast
    rw [Nat.add_assoc, (hinv.copied hset hi hfit ho hh hl).word hset.size (by omega), ho]
    rfl
  apply wp_mono (loadHeader_spec hinv hset.header hset.size hset.user hset.child hset.mm ho hh)
  · rintro _ t' (⟨hskip, rfl⟩ | ⟨hl, rfl, hlow⟩)
    · have hnot : ¬ (file.wrappedHeader i).IsLoad := fun hl => hskip ((hload hfirst).mpr hl)
      refine ⟨⟨hinv.ldts, hinv.buf, ?_, hi, fun hwrap a ha => ?_⟩, fun hstop => hnot hstop.1⟩
      · have hreads := (headerReads_inside_iff hset.header hset.size
          (ho ▸ headerOffset_lt file.content i)).mpr hfirst
        exact ⟨List.forall_mem_append.mpr ⟨hinv.confined.1, hreads⟩, hinv.confined.2⟩
      · rw [laidOver, if_neg (by rwa [← wrappedHeader_eq (hwrap i (by omega))])]
        exact hinv.image (fun j hj => hwrap j (by omega)) a ha
    · rw [hagain hl] at hlow
      exact ⟨hinv.copied hset hi hfit ho hh hl, fun hstop => absurd hstop.2 (by omega)⟩
  · rintro w t' ⟨rfl, hl, rfl, hhigh⟩
    rw [hagain hl] at hhigh
    exact ⟨rfl, (hinv.copied hset hi hfit ho hh hl).confined, (hload hfirst).mp hl, hhigh⟩

end Round

/-- The program headers from `i` on fit up to the first at which the loop stops. -/
def FitFrom (file : ExecFile) (i : Nat) : Prop :=
  ∀ k, i ≤ k → k < file.phnum → (∀ j, i ≤ j → j < k → ¬ HeaderStops file j) → HeaderFits file k

section Loop

variable {file : ExecFile} {p : Pid} {s : Images} {t : LoadTrace} {i n : Nat} {m : Bytes}

theorem fitFrom_succ (hfit : HeaderFits file i) (hgo : ¬ HeaderStops file i) :
    FitFrom file i ↔ FitFrom file (i + 1) := by
  constructor
  · intro h k hik hk hbefore
    apply h k (by omega) hk
    intro j hij hjk
    rcases Nat.eq_or_lt_of_le hij with rfl | hlt
    · exact hgo
    · exact hbefore j hlt hjk
  · intro h k hik hk hbefore
    rcases Nat.eq_or_lt_of_le hik with rfl | hlt
    · exact hfit
    · exact h k hlt hk fun j hij hjk => hbefore j (by omega) hjk

/-- In a file that is too short, the number of program headers is behind the end. -/
theorem loadHeaders_short (hsize : file.size ≤ mmbufSize) (hshort : file.size < 46) :
    wp (MM.loadHeaders p (n + 1) i) (fun _ t' => ¬ t'.Confined file p)
      (fun _ t' => ¬ t'.Confined file p) t := by
  simp only [MM.loadHeaders, wp_bind, wp_load16, wp_ite, wp_pure]
  have hout : ¬ LoadTrace.Confined file p
      { t with reads := t.reads ++ touched (mmbufBase + 44) 2 } := by
    intro hconf
    have hreads := (file_inside_iff hsize (by decide)).mp (List.forall_mem_append.mp hconf.1).2
    omega
  refine ⟨fun _ => ?_, fun _ => hout⟩
  rw [← wp_bind]
  exact keeps_bind (keeps_loadHeader p i) (fun _ => keeps_loadHeaders p n (i + 1)) _ hout

/-- The loop stays inside the file and the image exactly if the headers fit. -/
theorem loadHeaders_spec (hset : LoadSetup file p s) (hinv : LoadInv file p s i t)
    (hn : 0x10000 ≤ i + n) : wp (MM.loadHeaders p n i)
      (fun _ t' => (t'.Confined file p ↔ FitFrom file i) ∧
        (FitFrom file i → LoadInv file p s file.phnum t'))
      (fun _ t' => t'.Confined file p ↔ FitFrom file i) t := by
  induction n generalizing i t with
  | zero =>
    have hle := hinv.le
    have hlt := u16At_lt file.content 44
    unfold ExecFile.phnum ePhnum at hle
    omega
  | succ n ih =>
    simp only [MM.loadHeaders, wp_bind, wp_load16, wp_ite, wp_pure]
    have hfile := hset.header
    have hphnum : u16At (around t.images.memory) (mmbufBase + 44) = file.phnum :=
      hinv.half hset.size (by omega)
    have hinv' : LoadInv file p s i { t with reads := t.reads ++ touched (mmbufBase + 44) 2 } := by
      have hreads := (file_inside_iff hset.size (by decide)).mpr (.inr (Nat.le_trans
        (by decide : 44 + 2 ≤ 46) hfile))
      exact ⟨hinv.ldts, hinv.buf,
        ⟨List.forall_mem_append.mpr ⟨hinv.confined.1, hreads⟩, hinv.confined.2⟩, hinv.le, hinv.image⟩
    rw [hphnum]
    refine ⟨fun hi => ?_, fun hi => ?_⟩
    · by_cases hfit : HeaderFits file i
      · apply wp_mono (loadHeader_fits hset hinv' hi hfit)
        · rintro _ t' ⟨hnext, hgo⟩
          rw [fitFrom_succ hfit hgo]
          exact ih hnext (by omega)
        · rintro w t' ⟨-, hconf, hstop⟩
          refine ⟨fun _ k hik hk hbefore => ?_, fun _ => hconf⟩
          rcases Nat.eq_or_lt_of_le hik with rfl | hlt
          · exact hfit
          · exact absurd hstop (hbefore i (Nat.le_refl i) hlt)
      · have hno : ¬ FitFrom file i := fun h =>
          hfit (h i (Nat.le_refl i) hi fun j hij hji => absurd hij (by omega))
        apply wp_mono (loadHeader_unfit hset hinv' hfit)
        · intro _ t' hout
          apply wp_mono (keeps_loadHeaders p n (i + 1) t' hout)
          · intro _ t'' hout'
            exact ⟨⟨fun h => absurd h hout', fun h => absurd h hno⟩, fun h => absurd h hno⟩
          · intro _ t'' hout'
            exact ⟨fun h => absurd h hout', fun h => absurd h hno⟩
        · rintro w t' ⟨-, hout⟩
          exact ⟨fun h => absurd h hout, fun h => absurd h hno⟩
    · have hle := hinv.le
      have heq : i = file.phnum := by omega
      exact ⟨⟨fun _ k hik hk _ => absurd hk (by omega), fun _ => hinv'.confined⟩,
        fun _ => heq ▸ hinv'⟩

end Loop

/-- The state behind the read of the file. -/
def fileRead (file : ExecFile) (s : Images) : Images :=
  { s with memory := copyBytes s.memory mmbufBase file.content 0 file.size }

/-- While it executes a file, `do_exec` reads headers and segments inside the file only and writes
into the image of the caller only; it refuses a file whose headers say otherwise. -/
structure ExecConfined (file : ExecFile) (p : Pid) (s : Images) : Prop where
  confined : (MM.execHeaders file p { images := s }).state.Confined file p
  refused : ¬ HeadersFit file → ∃ t, MM.execHeaders file p { images := s } = .ok (some (-1)) t ∧
    ∀ a < procDefaultImgSize, t.images.memory (imageBase p + a) = s.memory (imageBase p + a)

section Exec

variable {kernelEnd memorySize : Nat} {memory : Bytes} {acts : List MmAction} {file : ExecFile}
  {p : Pid} {s : Images} {t : LoadTrace}

theorem headersFit_iff : HeadersFit file ↔ 46 ≤ file.size ∧ FitFrom file 0 := by
  unfold HeadersFit FitFrom
  simp

theorem loadSetup_of_run (hr : Run ImageStep (imagesInit kernelEnd memorySize memory) acts s)
    (hp : nrTasks + nrNativeProcs ≤ p.val) (hlive : ¬ s.mm.IsFree p) (hfile : 46 ≤ file.size)
    (hsize : file.size ≤ mmbufSize) : LoadSetup file p (fileRead file s) where
  header := hfile
  size := hsize
  user := hp
  child := (imagesInv_of_run hr).child p hp hlive
  mm := (imagesInv_of_run hr).native taskMm (by decide)

theorem loadInv_fileRead : LoadInv file p (fileRead file s) 0
    { images := fileRead file s } where
  ldts := rfl
  buf k hk := by
    have h := @copyBytes_add s.memory file.content mmbufBase 0 _ _ hk
    rwa [Nat.zero_add] at h
  confined := ⟨by simp, by simp⟩
  le := Nat.zero_le _
  image _ _ _ := rfl

theorem execHeaders_spec (hr : Run ImageStep (imagesInit kernelEnd memorySize memory) acts s)
    (hp : nrTasks + nrNativeProcs ≤ p.val) (hlive : ¬ s.mm.IsFree p)
    (hsize : file.size ≤ mmbufSize) (hstat : file.statRet = 0) (hfd : 0 ≤ file.fd) :
    wp (MM.execHeaders file p)
      (fun r t => r = none ∧ (t.Confined file p ↔ HeadersFit file) ∧
        (HeadersFit file → LoadInv file p (fileRead file s) file.phnum t))
      (fun _ t => t.Confined file p ↔ HeadersFit file) { images := s } := by
  have hstat' : ¬ file.statRet ≠ 0 := fun h => h hstat
  have hfd' : ¬ file.fd < 0 := by omega
  simp only [MM.execHeaders, if_neg hstat', if_neg hfd', wp_bind, wp_check, wp_modify, wp_pure]
  refine ⟨fun _ => ?_, fun h => absurd hsize h⟩
  rw [headersFit_iff]
  rcases Nat.lt_or_ge file.size 46 with hshort | hfile
  · apply wp_mono (loadHeaders_short (n := 0xFFFF) hsize hshort)
    · intro _ t hout
      exact ⟨trivial, ⟨fun h => absurd h hout, fun h => absurd h.1 (by omega)⟩,
        fun h => absurd h.1 (by omega)⟩
    · intro _ t hout
      exact ⟨fun h => absurd h hout, fun h => absurd h.1 (by omega)⟩
  · apply wp_mono (loadHeaders_spec (loadSetup_of_run hr hp hlive hfile hsize)
      loadInv_fileRead (Nat.le_refl _))
    · rintro _ t ⟨hiff, hinv⟩
      exact ⟨trivial, ⟨fun h => ⟨hfile, hiff.mp h⟩, fun h => hiff.mpr h.2⟩, fun h => hinv h.2⟩
    · intro _ t hiff
      exact ⟨fun h => ⟨hfile, hiff.mp h⟩, fun h => hiff.mpr h.2⟩

theorem execHeaders_image (hr : Run ImageStep (imagesInit kernelEnd memorySize memory) acts s)
    (hp : nrTasks + nrNativeProcs ≤ p.val) (hlive : ¬ s.mm.IsFree p)
    (hsize : file.size ≤ mmbufSize) (hstat : file.statRet = 0) (hfd : 0 ≤ file.fd)
    (hfit : HeadersFit file) (hwrap : ∀ i < file.phnum, phAddr file.content i < 0x100000000)
    {r : Option Int} (hrun : MM.execHeaders file p { images := s } = .ok r t) {a : Nat}
    (ha : a < procDefaultImgSize) : t.images.memory (imageBase p + a) =
      laidOver file.content file.phnum (fun a => s.memory (imageBase p + a)) a := by
  obtain ⟨-, -, hinv⟩ := wp_ok (execHeaders_spec hr hp hlive hsize hstat hfd) hrun
  have hbehind : (fun a => (fileRead file s).memory (imageBase p + a)) =
      fun a => s.memory (imageBase p + a) := by
    funext b
    have hle := (imageBase_le p).1
    have hend : mmbufBase + mmbufSize ≤ procAllocBase := by decide
    exact copyBytes_of_ge (by omega)
  rw [(hinv hfit).image hwrap a ha, hbehind]

theorem execHeaders_confined (hr : Run ImageStep (imagesInit kernelEnd memorySize memory) acts s)
    (hp : nrTasks + nrNativeProcs ≤ p.val) (hlive : ¬ s.mm.IsFree p)
    (hsize : file.size ≤ mmbufSize) (hstat : file.statRet = 0) (hfd : 0 ≤ file.fd) :
    (MM.execHeaders file p { images := s }).state.Confined file p ↔ HeadersFit file := by
  apply wp_state
    (I := fun t : LoadTrace => t.Confined file p ↔ HeadersFit file)
  exact wp_mono (execHeaders_spec hr hp hlive hsize hstat hfd) (fun _ _ h => h.2.1) fun _ _ h => h

/-- The execution of a file by a forked process is confined exactly if the headers of the file lie
inside the file, and the segments they describe inside the file and the image. -/
theorem execConfined_iff (hr : Run ImageStep (imagesInit kernelEnd memorySize memory) acts s)
    (hp : nrTasks + nrNativeProcs ≤ p.val) (hlive : ¬ s.mm.IsFree p)
    (hsize : file.size ≤ mmbufSize) (hstat : file.statRet = 0) (hfd : 0 ≤ file.fd) :
    ExecConfined file p s ↔ HeadersFit file := by
  have hiff := execHeaders_confined hr hp hlive hsize hstat hfd
  constructor
  · intro h
    exact hiff.mp h.confined
  · intro hfit
    exact ⟨hiff.mpr hfit, fun hnot => absurd hfit hnot⟩

/-- INIT, with a kernel that ends at 512 KB, has forked once in a memory of 32 MB. -/
private def forkedOnce : Images :=
  (MM.forkImage init (imagesInit 0x7FFFF 0x2000000 fun _ => 0)).state

private theorem forkedOnce_run : Run ImageStep (imagesInit 0x7FFFF 0x2000000 fun _ => 0)
    [.request (.fork init)] forkedOnce :=
  .snoc .nil ⟨⟨by decide, by decide, by decide, by decide, by simp⟩, some ⟨7, by decide⟩,
    Result.eq_ok_of_valueOf (by decide +kernel)⟩

private theorem forkedOnce_live : ¬ forkedOnce.mm.IsFree ⟨7, by decide⟩ := by
  unfold Mm.IsFree
  decide +kernel

theorem execConfined_inside :
    ExecConfined (elfOf 0x1000 8 [1, 2, 3, 4]) ⟨7, by decide⟩ forkedOnce := by
  apply (execConfined_iff forkedOnce_run (by decide) forkedOnce_live (by decide) rfl
    (by decide)).mpr
  unfold HeadersFit HeaderFits HeaderStops ProgramHeader.IsLoad
  decide +kernel

/-- A segment for the address behind the image is copied there, over the image of the next process,
before the assertion stops MM. -/
theorem not_execConfined_behind :
    Run ImageStep (imagesInit 0x7FFFF 0x2000000 fun _ => 0) [.request (.fork init)] forkedOnce ∧
    ¬ ExecConfined (elfOf 0x100000 4 [1, 2, 3, 4]) ⟨7, by decide⟩ forkedOnce := by
  refine ⟨forkedOnce_run, fun h => ?_⟩
  have hfit := (execHeaders_confined forkedOnce_run (by decide) forkedOnce_live (by decide) rfl
    (by decide)).mp h.confined
  unfold HeadersFit HeaderFits HeaderStops ProgramHeader.IsLoad at hfit
  exact absurd hfit (by decide +kernel)

end Exec

end BazingaOS
