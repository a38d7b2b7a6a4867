import BazingaOS.MM.Exec

/-!
# Loading a file

The program headers of the file in `mmbuf` say which of its bytes `do_exec` lays over the image of
the caller, one segment after the other. Nothing else of the image is written before the argument
stack, so what a segment has beyond its bytes in the file is what the image held before.
-/

namespace BazingaOS

open Prog

/-- `Elf32_Phdr`, as far as it is used. -/
structure ProgramHeader where
  pType : Nat
  pOffset : Nat
  pVaddr : Nat
  pFilesz : Nat
  pMemsz : Nat
deriving DecidableEq, Repr

def ePhnum (m : Bytes) : Nat := u16At m 44
def eEntry (m : Bytes) : Nat := u32At m 24

/-- Where program header `i` of a file is. -/
def phAddr (m : Bytes) (i : Nat) : Nat := u32At m 28 + i * u16At m 42

/-- The program header that is read at an address. -/
def headerAt (m : Bytes) (a : Nat) : ProgramHeader where
  pType := u32At m a
  pOffset := u32At m (a + 4)
  pVaddr := u32At m (a + 8)
  pFilesz := u32At m (a + 16)
  pMemsz := u32At m (a + 20)

def programHeader (m : Bytes) (i : Nat) : ProgramHeader := headerAt m (phAddr m i)

namespace ProgramHeader

/-- The segment is to be loaded, `PT_LOAD`. -/
def IsLoad (h : ProgramHeader) : Prop := h.pType = 1

instance (h : ProgramHeader) : Decidable h.IsLoad := inferInstanceAs (Decidable (_ = _))

/-- The addresses that the segment takes up in memory. -/
def addresses (h : ProgramHeader) : Set Nat := Set.Ico h.pVaddr (h.pVaddr + h.pMemsz)

/-- The bytes of the segment that are in the file are none of those at `a`. -/
def Misses (h : ProgramHeader) (a : Nat) : Prop := a < h.pVaddr ∨ h.pVaddr + h.pFilesz ≤ a

end ProgramHeader

/-- An image with the first `n` segments of the file laid over it. -/
def laidOver (m : Bytes) : Nat → Bytes → Bytes
  | 0, u => u
  | n + 1, u =>
    let h := programHeader m n
    if h.IsLoad then copyBytes (laidOver m n u) h.pVaddr m h.pOffset h.pFilesz
    else laidOver m n u

section LaidOver

variable {m m' u : Bytes} {n i a k : Nat}

theorem laidOver_of_misses
    (h : ∀ i < n, (programHeader m i).IsLoad → (programHeader m i).Misses a) :
    laidOver m n u a = u a := by
  induction n with
  | zero => rfl
  | succ n ih =>
    have hrest : laidOver m n u a = u a := ih fun i hi => h i (by omega)
    simp only [laidOver]
    by_cases hload : (programHeader m n).IsLoad
    · rw [if_pos hload]
      rcases h n (by omega) hload with hlt | hge
      · rw [copyBytes_of_lt hlt, hrest]
      · rw [copyBytes_of_ge hge, hrest]
    · rw [if_neg hload, hrest]

theorem laidOver_segment (hi : i < n) (hload : (programHeader m i).IsLoad)
    (hk : k < (programHeader m i).pFilesz)
    (hlater : ∀ j, i < j → j < n → (programHeader m j).IsLoad →
      (programHeader m j).Misses ((programHeader m i).pVaddr + k)) :
    laidOver m n u ((programHeader m i).pVaddr + k) = m ((programHeader m i).pOffset + k) := by
  induction n with
  | zero => omega
  | succ n ih =>
    simp only [laidOver]
    rcases Nat.lt_succ_iff_lt_or_eq.mp hi with hlt | rfl
    · have hrest := ih hlt fun j hj hjn => hlater j hj (by omega)
      by_cases hn : (programHeader m n).IsLoad
      · rw [if_pos hn]
        rcases hlater n hlt (by omega) hn with hbefore | hbehind
        · rw [copyBytes_of_lt hbefore, hrest]
        · rw [copyBytes_of_ge hbehind, hrest]
      · rw [if_neg hn, hrest]
    · rw [if_pos hload, copyBytes_add hk]

end LaidOver

/-- Where the arguments go, at the end of the image. -/
def stkPos : Nat := procDefaultImgSize - procOriginStack

/-- The path in a request to execute a file. -/
def execPath (p : Pid) (msg : Message) (s : ExecState) : List UInt8 :=
  cstring (fun i => s.user p (msg.m3p1 + i)) msg.m3i2.toNat

namespace MM

/-- `do_exec` up to the end of the loop over the program headers; `none` where it returns `-1`. -/
def execLoad (files : ExecFiles) (p : Pid) (msg : Message) :
    Prog ExecState (Option (List UInt8)) := do
  check (msg.m3i2 < maxPath)
  if msg.m3i2 < 0 then halt .undefined
  else
    let path := execPath p msg (← get)
    if (files path).statRet ≠ 0 then return none
    else if (files path).fd < 0 then return none
    else
      check ((files path).size ≤ mmbufSize)
      modify fun s => { s with
        mmbuf := copyBytes s.mmbuf 0 (files path).content 0 (files path).size }
      loop (loadSegment p) (ePhnum (← get).mmbuf) 0
      return some path

def execArgs (p : Pid) (msg : Message) (path : List UInt8) : Prog ExecState Int := do
  if msg.m3i3 < 0 ∨ procOriginStack < msg.m3i3.toNat then halt .undefined
  else
    let u := (← get).user p
    match moveArgs ((stkPos : Int) - msg.m3p2) msg.m3i3.toNat
        (copyBytes (fun _ => 0) 0 u msg.m3p2 msg.m3i3.toNat) with
    | none => halt .undefined
    | some (argc, stk) =>
      setUser p fun u => copyBytes u stkPos stk 0 msg.m3i3.toNat
      let entry := eEntry (← get).mmbuf
      modify fun s => { s with
        regs := Function.update s.regs p ⟨stkPos, argc, entry, stkPos⟩ }
      if path.length < pNameSize then
        modify fun s => { s with pName := Function.update s.pName p path }
        return 0
      else halt .undefined

end MM

section Exec

variable {files : ExecFiles} {p : Pid} {msg : Message} {s s' : ExecState}

theorem loadSegments_spec (n : Nat) : wp (loop (MM.loadSegment p) n 0)
    (fun _ s' => s' = { s with user := Function.update s.user p (laidOver s.mmbuf n (s.user p)) } ∧
      ∀ i < n, (programHeader s.mmbuf i).IsLoad →
        (programHeader s.mmbuf i).pVaddr < procDefaultImgSize)
    (fun _ _ => True) s := by
  apply wp_loop (I := fun j s' =>
    s' = { s with user := Function.update s.user p (laidOver s.mmbuf j (s.user p)) } ∧
      ∀ i < j, (programHeader s.mmbuf i).IsLoad →
        (programHeader s.mmbuf i).pVaddr < procDefaultImgSize)
  · simp [laidOver]
  · rintro j s' - - ⟨rfl, hbefore⟩
    simp only [MM.loadSegment, MM.setUser, wp_bind, wp_get, wp_when, wp_modify, wp_check]
    refine ⟨fun hload => ⟨fun hvaddr => ⟨?_, ?_⟩, fun _ => trivial⟩, fun hload => ⟨?_, ?_⟩⟩
    · have hlaid : laidOver s.mmbuf (j + 1) (s.user p) =
          copyBytes (laidOver s.mmbuf j (s.user p)) (programHeader s.mmbuf j).pVaddr s.mmbuf
            (programHeader s.mmbuf j).pOffset (programHeader s.mmbuf j).pFilesz := if_pos hload
      rw [hlaid, Function.update_self, Function.update_idem]
      rfl
    · intro i hi hi'
      rcases Nat.lt_succ_iff_lt_or_eq.mp hi with hlt | rfl
      · exact hbefore i hlt hi'
      · exact hvaddr
    · have hlaid : laidOver s.mmbuf (j + 1) (s.user p) = laidOver s.mmbuf j (s.user p) :=
        if_neg hload
      rw [hlaid]
    · intro i hi hi'
      rcases Nat.lt_succ_iff_lt_or_eq.mp hi with hlt | rfl
      · exact hbefore i hlt hi'
      · exact absurd hi' hload
  · intro s' h
    simpa using h

def execFile (files : ExecFiles) (p : Pid) (msg : Message) (s : ExecState) : ExecFile :=
  files (execPath p msg s)

def execBuf (files : ExecFiles) (p : Pid) (msg : Message) (s : ExecState) : Bytes :=
  copyBytes s.mmbuf 0 (execFile files p msg s).content 0 (execFile files p msg s).size

/-- The image of the caller with the segments of the file laid over it. -/
def execImage (files : ExecFiles) (p : Pid) (msg : Message) (s : ExecState) : Bytes :=
  laidOver (execBuf files p msg s) (ePhnum (execBuf files p msg s)) (s.user p)

theorem wp_doExec {Q : Int → ExecState → Prop} {E : Stop → ExecState → Prop} :
    wp (MM.doExec files p msg) Q E s ↔ wp (MM.execLoad files p msg) (fun r s' =>
      match r with
      | none => Q (-1) s'
      | some path => wp (MM.execArgs p msg path) Q E s') E s := by
  simp only [MM.doExec, MM.execLoad, MM.execArgs, wp_bind, wp_check, wp_ite, wp_halt, wp_get,
    wp_pure, wp_modify]
  rfl

/-- The state with the file in the buffer of MM and its segments in the image of the caller. -/
def execLoaded (files : ExecFiles) (p : Pid) (msg : Message) (s : ExecState) : ExecState :=
  { s with
    mmbuf := execBuf files p msg s
    user := Function.update s.user p (execImage files p msg s) }

theorem execLoad_spec : wp (MM.execLoad files p msg)
    (fun r s' => (r = none ∧ s' = s) ∨ (r = some (execPath p msg s) ∧
      s' = execLoaded files p msg s ∧ (execFile files p msg s).size ≤ mmbufSize))
    (fun _ _ => True) s := by
  simp only [MM.execLoad, wp_bind, wp_check, wp_ite, wp_halt, wp_get, wp_pure, wp_modify]
  refine ⟨fun _ => ⟨fun _ => trivial, fun _ => ⟨fun _ => by simp, fun _ => ⟨fun _ => by simp,
    fun _ => ⟨fun hsize => ?_, fun _ => trivial⟩⟩⟩⟩, fun _ => trivial⟩
  apply wp_mono (loadSegments_spec _)
  · rintro _ s₁ ⟨rfl, -⟩
    exact .inr ⟨trivial, rfl, hsize⟩
  · intro _ _ _
    trivial

theorem execArgs_spec (path : List UInt8) : wp (MM.execArgs p msg path)
    (fun r s' => r = 0 ∧ 0 ≤ msg.m3i3 ∧ msg.m3i3.toNat ≤ procOriginStack ∧ ∃ argc stk,
      MM.moveArgs ((stkPos : Int) - msg.m3p2) msg.m3i3.toNat
        (copyBytes (fun _ => 0) 0 (s.user p) msg.m3p2 msg.m3i3.toNat) = some (argc, stk) ∧
      s'.user p = copyBytes (s.user p) stkPos stk 0 msg.m3i3.toNat ∧
      s'.regs p = ⟨stkPos, argc, eEntry s.mmbuf, stkPos⟩)
    (fun _ _ => True) s := by
  simp only [MM.execArgs, wp_bind, wp_ite, wp_halt, wp_get]
  refine ⟨fun _ => trivial, fun hlen => ?_⟩
  cases hmove : MM.moveArgs ((stkPos : Int) - msg.m3p2) msg.m3i3.toNat
      (copyBytes (fun _ => 0) 0 (s.user p) msg.m3p2 msg.m3i3.toNat) with
  | none => trivial
  | some r =>
    obtain ⟨argc, stk⟩ := r
    simp only [MM.setUser, wp_bind, wp_modify, wp_get, wp_ite, wp_pure, wp_halt]
    refine ⟨fun _ => ⟨trivial, by omega, by omega, argc, stk, rfl, ?_, ?_⟩, fun _ => trivial⟩
    · rw [Function.update_self]
    · rw [Function.update_self]

/-- What `do_exec` has done when it returns `0`. -/
structure Execed (files : ExecFiles) (p : Pid) (msg : Message) (s s' : ExecState) : Prop where
  size : (execFile files p msg s).size ≤ mmbufSize
  lenNonneg : 0 ≤ msg.m3i3
  len : msg.m3i3.toNat ≤ procOriginStack
  args : ∃ argc stk, MM.moveArgs ((stkPos : Int) - msg.m3p2) msg.m3i3.toNat
      (copyBytes (fun _ => 0) 0 (execImage files p msg s) msg.m3p2 msg.m3i3.toNat) =
        some (argc, stk) ∧
    s'.user p = copyBytes (execImage files p msg s) stkPos stk 0 msg.m3i3.toNat ∧
    s'.regs p = ⟨stkPos, argc, eEntry (execBuf files p msg s), stkPos⟩

theorem doExec_spec : wp (MM.doExec files p msg)
    (fun r s' => (r = -1 ∧ s' = s) ∨ (r = 0 ∧ Execed files p msg s s')) (fun _ _ => True) s := by
  rw [wp_doExec]
  apply wp_mono execLoad_spec
  · rintro r s₁ (⟨rfl, rfl⟩ | ⟨rfl, rfl, hsize⟩)
    · exact .inl ⟨rfl, rfl⟩
    · apply wp_mono (execArgs_spec _)
      · rintro r s' ⟨rfl, hnonneg, hlen, argc, stk, hmove, huser, hregs⟩
        have himage : (execLoaded files p msg s).user p = execImage files p msg s :=
          Function.update_self ..
        rw [himage] at hmove huser
        exact .inr ⟨rfl, hsize, hnonneg, hlen, argc, stk, hmove, huser, hregs⟩
      · intro _ _ _
        trivial
  · intro _ _ _
    trivial

theorem execed_of_run (hrun : MM.doExec files p msg s = .ok 0 s') : Execed files p msg s s' := by
  have h := wp_ok doExec_spec hrun
  rcases h with ⟨hret, -⟩ | ⟨-, h⟩
  · cases hret
  · exact h

end Exec

namespace ExecFile

/-- `e_phnum` and the program headers of a file. -/
abbrev phnum (file : ExecFile) : Nat := ePhnum file.content
abbrev header (file : ExecFile) (i : Nat) : ProgramHeader := programHeader file.content i

end ExecFile

/-- A file whose headers and segments lie inside it and whose segments lie below the argument stack,
each apart from the others. -/
structure Loadable (file : ExecFile) : Prop where
  size : file.size ≤ mmbufSize
  header : 52 ≤ file.size
  table : ∀ i < file.phnum, phAddr file.content i + 32 ≤ file.size
  segment : ∀ i < file.phnum, (file.header i).IsLoad →
    (file.header i).pOffset + (file.header i).pFilesz ≤ file.size ∧
    (file.header i).pFilesz ≤ (file.header i).pMemsz ∧
    (file.header i).pVaddr + (file.header i).pMemsz ≤ stkPos
  apart : ∀ i < file.phnum, ∀ j < file.phnum, i ≠ j →
    (file.header i).IsLoad → (file.header j).IsLoad →
    Disjoint (file.header i).addresses (file.header j).addresses

/-- The image of `p` is the one that the file describes, and `p` continues at its entry. -/
structure Built (file : ExecFile) (p : Pid) (s : ExecState) : Prop where
  bytes : ∀ i < file.phnum, (file.header i).IsLoad →
    ∀ k < (file.header i).pFilesz,
      s.user p ((file.header i).pVaddr + k) = file.content ((file.header i).pOffset + k)
  zeros : ∀ i < file.phnum, (file.header i).IsLoad →
    ∀ k, (file.header i).pFilesz ≤ k → k < (file.header i).pMemsz →
      s.user p ((file.header i).pVaddr + k) = 0
  entry : (s.regs p).eip = eEntry file.content

section Loadable

variable {file : ExecFile} {m m' u : Bytes} {a n i k : Nat}

theorem Loadable.headers (h : Loadable file) (hm : ∀ i < file.size, m i = file.content i) :
    ePhnum m = file.phnum ∧ eEntry m = eEntry file.content ∧
      ∀ i < file.phnum, programHeader m i = file.header i := by
  have hsize := h.header
  have hphnum : ePhnum m = file.phnum := u16At_congr (hm 44 (by omega)) (hm 45 (by omega))
  have hentry : eEntry m = eEntry file.content := u32At_congr fun i _ hi => hm i (by omega)
  have haddr : ∀ i, phAddr m i = phAddr file.content i := by
    intro i
    have hoff : u32At m 28 = u32At file.content 28 := u32At_congr fun i _ hi => hm i (by omega)
    have hent : u16At m 42 = u16At file.content 42 :=
      u16At_congr (hm 42 (by omega)) (hm 43 (by omega))
    rw [phAddr, phAddr, hoff, hent]
  refine ⟨hphnum, hentry, fun i hi => ?_⟩
  have htable := h.table i hi
  have hword : ∀ b, b + 4 ≤ 32 → u32At m (phAddr file.content i + b) =
      u32At file.content (phAddr file.content i + b) := by
    intro b hb
    exact u32At_congr fun j _ hj => hm j (by omega)
  have h₀ := hword 0 (by omega)
  rw [Nat.add_zero] at h₀
  simp only [programHeader, headerAt, haddr]
  rw [h₀, hword 4 (by omega), hword 8 (by omega), hword 16 (by omega), hword 20 (by omega)]

/-- In the image of a loadable file, the bytes of a segment are those of the file, and the rest of
it is as it was. -/
theorem Loadable.laidOver (h : Loadable file) (hm : ∀ i < file.size, m i = file.content i)
    (hi : i < file.phnum) (hload : (file.header i).IsLoad) :
    (∀ k < (file.header i).pFilesz,
      laidOver m (ePhnum m) u ((file.header i).pVaddr + k) =
        file.content ((file.header i).pOffset + k)) ∧
    ∀ k, (file.header i).pFilesz ≤ k → k < (file.header i).pMemsz →
      laidOver m (ePhnum m) u ((file.header i).pVaddr + k) = u ((file.header i).pVaddr + k) := by
  obtain ⟨hphnum, -, hheader⟩ := h.headers hm
  obtain ⟨hoff, hfilesz, -⟩ := h.segment i hi hload
  have hmiss : ∀ j < file.phnum, j ≠ i → (file.header j).IsLoad →
      ∀ k < (file.header i).pMemsz, (file.header j).Misses ((file.header i).pVaddr + k) := by
    intro j hj hne hjload k hk
    have hdisj := Set.disjoint_left.mp (h.apart i hi j hj hne.symm hload hjload)
      (Set.mem_Ico.mpr ⟨Nat.le_add_right _ k, Nat.add_lt_add_left hk _⟩)
    have hle := (h.segment j hj hjload).2.1
    unfold ProgramHeader.Misses
    simp only [ProgramHeader.addresses, Set.mem_Ico] at hdisj
    omega
  rw [hphnum]
  constructor
  · intro k hk
    have hlaid := @laidOver_segment m u file.phnum i k hi (by rwa [hheader i hi])
      (by rwa [hheader i hi])
    rw [hheader i hi] at hlaid
    rw [hlaid, hm _ (by omega)]
    intro j hij hj hjload
    rw [hheader j hj] at hjload ⊢
    exact hmiss j hj (by omega) hjload k (by omega)
  · intro k hk hk'
    apply laidOver_of_misses
    intro j hj hjload
    rw [hheader j hj] at hjload ⊢
    by_cases hji : j = i
    · rw [hji]
      exact .inr (by omega)
    · exact hmiss j hj hji hjload k hk'

end Loadable

section Exec

variable {files : ExecFiles} {file : ExecFile} {p : Pid} {msg : Message} {s s' : ExecState}

/-- What `do_exec` leaves at the addresses of the segments. -/
theorem Execed.image (h : Execed files p msg s s') (hname : execFile files p msg s = file)
    (hfile : Loadable file) :
    (∀ i < file.phnum, (file.header i).IsLoad → ∀ k < (file.header i).pFilesz,
      s'.user p ((file.header i).pVaddr + k) = file.content ((file.header i).pOffset + k)) ∧
    (∀ i < file.phnum, (file.header i).IsLoad →
      ∀ k, (file.header i).pFilesz ≤ k → k < (file.header i).pMemsz →
        s'.user p ((file.header i).pVaddr + k) = s.user p ((file.header i).pVaddr + k)) ∧
    (s'.regs p).eip = eEntry file.content := by
  obtain ⟨argc, stk, -, huser, hregs⟩ := h.args
  have hbuf : ∀ i < file.size, execBuf files p msg s i = file.content i := by
    intro i hi
    rw [execBuf, hname, copyBytes_zero hi, Nat.zero_add]
  -- the argument stack is behind all segments
  have hbelow : ∀ i < file.phnum, (file.header i).IsLoad → ∀ k < (file.header i).pMemsz,
      s'.user p ((file.header i).pVaddr + k) =
        execImage files p msg s ((file.header i).pVaddr + k) := by
    intro i hi hload k hk
    have hend := (hfile.segment i hi hload).2.2
    rw [huser, copyBytes_of_lt (by omega)]
  refine ⟨fun i hi hload k hk => ?_, fun i hi hload k hk hk' => ?_, ?_⟩
  · have hmemsz := (hfile.segment i hi hload).2.1
    rw [hbelow i hi hload k (by omega)]
    exact (hfile.laidOver hbuf hi hload).1 k hk
  · rw [hbelow i hi hload k hk']
    exact (hfile.laidOver hbuf hi hload).2 k hk hk'
  · rw [hregs]
    exact (hfile.headers hbuf).2.1

/-- A program that `do_exec` has loaded has the image of its file exactly if the image of the caller
was zero wherever a segment goes on behind its bytes in the file. -/
theorem built_iff (hname : execFile files p msg s = file) (hfile : Loadable file)
    (hrun : MM.doExec files p msg s = .ok 0 s') :
    Built file p s' ↔ ∀ i < file.phnum, (file.header i).IsLoad →
      ∀ k, (file.header i).pFilesz ≤ k → k < (file.header i).pMemsz →
        s.user p ((file.header i).pVaddr + k) = 0 := by
  obtain ⟨hbytes, hrest, hentry⟩ := (execed_of_run hrun).image hname hfile
  constructor
  · intro hbuilt i hi hload k hk hk'
    rw [← hrest i hi hload k hk hk']
    exact hbuilt.zeros i hi hload k hk hk'
  · intro hzero
    refine ⟨hbytes, fun i hi hload k hk hk' => ?_, hentry⟩
    rw [hrest i hi hload k hk hk']
    exact hzero i hi hload k hk hk'

/-- An executable file with the one segment `data`, which takes up `memsz` bytes from `vaddr` on. -/
def elfOf (vaddr memsz : Nat) (data : List UInt8) : ExecFile where
  statRet := 0
  fd := 0
  size := 84 + data.length
  content := putBytes (fun _ => 0) 0 ([0x7F, 0x45, 0x4C, 0x46, 1, 1, 1] ++ List.replicate 9 0 ++
    [2, 0, 3, 0] ++ u32Bytes 1 ++ u32Bytes vaddr ++ u32Bytes 52 ++ List.replicate 8 0 ++
    [52, 0, 32, 0, 1, 0] ++ List.replicate 6 0 ++ u32Bytes 1 ++ u32Bytes 84 ++ u32Bytes vaddr ++
    u32Bytes vaddr ++ u32Bytes data.length ++ u32Bytes memsz ++ u32Bytes 7 ++ u32Bytes 0x1000 ++
    data)

private def shortElf : ExecFile := elfOf 0x1000 8 [1, 2, 3, 4]

private theorem shortElf_loadable : Loadable shortElf where
  size := by decide
  header := by decide
  table := by decide +kernel
  segment := by decide +kernel
  apart i hi j hj hij := by
    have hone : shortElf.phnum = 1 := by decide +kernel
    omega

private def shortMsg : Message where
  m3p2 := 0x2000
  m3i3 := 4

/-- The first slot that a fork takes. -/
private def child : Pid := ⟨7, seven_lt_nrSlots⟩

theorem built_zero : ∃ s', MM.doExec (fun _ => shortElf) child shortMsg {} = .ok 0 s' ∧
    Built shortElf child s' := by
  have hrun := @Result.eq_ok_of_valueOf _ _ (MM.doExec (fun _ => shortElf) child shortMsg {}) 0
    (by decide +kernel)
  have hname : execFile (fun _ => shortElf) child shortMsg {} = shortElf := rfl
  exact ⟨_, hrun, (built_iff hname shortElf_loadable hrun).mpr fun _ _ _ _ _ _ => rfl⟩

/-- An image in which the parent has left something below `0x2000`. -/
private def usedImage : ExecState where
  user _ a := if a < 0x2000 then 0xAA else 0

/-- Bytes that the parent left stay where the file asks for zeros. -/
theorem not_built_used : ∃ s', MM.doExec (fun _ => shortElf) child shortMsg usedImage = .ok 0 s' ∧
    Loadable shortElf ∧ ¬ Built shortElf child s' := by
  have hrun := @Result.eq_ok_of_valueOf _ _
    (MM.doExec (fun _ => shortElf) child shortMsg usedImage) 0 (by decide +kernel)
  refine ⟨_, hrun, shortElf_loadable, fun hbuilt => ?_⟩
  have hzero := hbuilt.zeros 0 (by decide +kernel) (by decide +kernel) 4 (by decide +kernel)
    (by decide +kernel)
  have hused : (MM.doExec (fun _ => shortElf) child shortMsg usedImage).state.user child
      ((shortElf.header 0).pVaddr + 4) = 0xAA := by decide +kernel
  rw [hused] at hzero
  exact absurd hzero (by decide)

end Exec

end BazingaOS
