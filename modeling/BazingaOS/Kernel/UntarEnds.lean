import BazingaOS.FS.OpenFails
import BazingaOS.Kernel.Untar

/-!
# Where an archive ends

`untar` goes from header to header. It stops at a header that begins with a zero; at the end of the
file it finds in the buffer what was there before, so that it ends there at once or never. `open` never
refuses a member: a path that it does not return for stops the file system.
-/

namespace BazingaOS

open Prog

/-- The paths of `openMember` are those of `do_open`, which returns a descriptor or not at all when a
file is to be created or emptied. -/
theorem doOpen_memberPath {s s' : Fs} {p : Pid} {msg : Message} {fd : Int}
    (hcreat : oCreat msg.m3i1 = true) (hrdwr : oRdwr msg.m3i1 = true)
    (htrunc : oTrunc msg.m3i1 = true) (h : FS.doOpen p msg s = .ok fd s') :
    0 ≤ fd ∧ Untar.MemberPath (s.pathOf p msg) := by
  have hmsg : 0 ≤ msg.m3i2 ∧ msg.m3i2 < maxPath := by
    by_contra hlong
    rw [FS.doOpen, FS.copyPath, if_neg hlong] at h
    cases h
  have hpath : (s.pathOf p msg).length < maxPath := by
    have hlen : (s.pathOf p msg).length ≤ msg.m3i2.toNat := by
      rw [Fs.pathOf, cstring]
      exact (List.takeWhile_prefix _).length_le.trans (by simp)
    omega
  have hname : ∃ name, stripPath (s.pathOf p msg) = some name ∧ name.length < maxFilenameLen := by
    by_contra hno
    have hrefused := wp_ok (FS.doOpen_unnamed hmsg fun name hp hlen => hno ⟨name, hp, hlen⟩) h
    rw [hcreat] at hrefused
    exact Bool.noConfusion hrefused.2.2.2.2
  have hfd := wp_ok (FS.doOpen_fd hcreat hrdwr htrunc) h
  exact ⟨hfd, hpath, hname⟩

/-- The archive as it is read: its content, the place, the buffer, and whether a member "/" has
emptied the root directory. -/
structure Tape where
  content : List UInt8
  pos : Nat
  buf : Bytes
  torn : Bool := false

namespace Tape

def read (t : Tape) (n : Nat) : Tape :=
  { t with
    pos := t.pos + (readAt t.content t.pos n).length
    buf := putBytes t.buf 0 (readAt t.content t.pos n) }

/-- Bytes of the buffer are added to a file, which can be the archive itself. -/
def write (self : Bool) (t : Tape) (n : Nat) : Tape :=
  if self then { t with content := t.content ++ (List.range n).map t.buf } else t

/-- The data of a member of `n` bytes. -/
def data (self : Bool) (t : Tape) (n : Nat) : Tape :=
  if n = 0 then t
  else data self ((t.read (roundUp (min n tarChunk))).write self (min n tarChunk))
    (n - min n tarChunk)
termination_by n
decreasing_by
  unfold tarChunk tarSector
  omega

/-- What is behind the header of a member `path` with `n` bytes; a member with the name of the
archive empties it first. -/
def behind (t : Tape) (path : List UInt8) (n : Nat) : Tape :=
  let t := { t.read tarSector with torn := t.torn || decide (path = [47]) }
  if rootName path = rootName cmdTar then { t with content := [] }.data true n
  else t.data false n

/-- The text at the place of a name, when the header has been read. -/
def name (t : Tape) : List UInt8 := Untar.headerName (t.read tarSector).buf

/-- The header begins with a zero. -/
def Stops (t : Tape) : Prop := (t.read tarSector).buf 0 = 0

/-- The header is that of a member of `len` bytes that can be opened. -/
structure HasMember (t : Tape) (len : Int) : Prop where
  first : (t.read tarSector).buf 0 ≠ 0
  fits : t.name.length < tarChunk
  path : Untar.MemberPath t.name
  whole : t.torn = false
  size : Untar.parseSize (t.read tarSector).buf (tarChunk - tarSize) tarSize 0 = some len

/-- From one header to the next; at the end of the file only for a member that replaces the
archive. -/
def Hop (t t' : Tape) : Prop :=
  ∃ len, t.HasMember len ∧ (t.pos < t.content.length ∨ rootName t.name = rootName cmdTar) ∧
    t' = t.behind t.name len.toNat

/-- The headers lead to one at which `untar` stops. -/
def Ends (t : Tape) : Prop := ∃ t', Relation.ReflTransGen Hop t t' ∧ t'.Stops

section AtEnd

variable {t : Tape} {n : Nat}

end AtEnd

end Tape

/-- The state of `untar` in terms of the archive. -/
structure At (t : Tape) (s : Untar) : Prop where
  name : s.fdTar.name = rootName cmdTar
  content : s.files (rootName cmdTar) = some t.content
  pos : s.fdTar.pos = t.pos
  buf : s.buf = t.buf
  torn : t.torn = true ↔ [47] ∈ s.opened

/-- Where the data of a member are written: at the end of the archive, or somewhere else. -/
def Feeds (self : Bool) (t : Tape) (s : Untar) : Prop :=
  if self then s.fd.name = rootName cmdTar ∧ s.fd.pos = t.content.length
  else s.fd.name ≠ rootName cmdTar

section Simulation

variable {t t' : Tape} {s s' : Untar} {self : Bool} {fuel n : Nat} {len : Int}

theorem At.archive (h : At t s) : s.archive = t.content := by
  rw [Untar.archive, h.name, h.content, Option.getD_some]

theorem At.afterHeader (h : At t s) : At (t.read tarSector) s.afterHeader := by
  refine ⟨h.name, h.content, ?_, ?_, h.torn⟩
  · rw [Untar.afterHeader, h.archive, h.pos]
    rfl
  · rw [Untar.afterHeader, h.archive, h.pos, h.buf]
    rfl

theorem At.opened (h : At t s) (path : List UInt8) :
    (t.torn || decide (path = [47])) = true ↔ [47] ∈ s.opened ++ [path] := by
  rw [Bool.or_eq_true, decide_eq_true_eq, h.torn, List.mem_append, List.mem_singleton,
    eq_comm (a := path)]

theorem At.afterOpen (h : At t s) {path : List UInt8} (hself : rootName path ≠ rootName cmdTar) :
    At { t with torn := t.torn || decide (path = [47]) } (s.afterOpen path) ∧
      Feeds false { t with torn := t.torn || decide (path = [47]) } (s.afterOpen path) := by
  refine ⟨⟨h.name, ?_, h.pos, h.buf, h.opened path⟩, hself⟩
  rw [← h.content]
  exact Function.update_of_ne hself.symm _ _

theorem At.afterOpen_self (h : At t s) {path : List UInt8}
    (hself : rootName path = rootName cmdTar) :
    At { t with content := [], torn := t.torn || decide (path = [47]) } (s.afterOpen path) ∧
      Feeds true { t with content := [], torn := t.torn || decide (path = [47]) }
        (s.afterOpen path) := by
  refine ⟨⟨h.name, ?_, h.pos, h.buf, h.opened path⟩, hself, rfl⟩
  rw [← hself]
  exact Function.update_self _ _ _

theorem wp_readTar_at {Q : Unit → Untar → Prop} {E : Stop → Untar → Prop} (h : At t s)
    (hf : Feeds self t s)
    (hQ : ∀ s', At (t.read n) s' → Feeds self (t.read n) s' → Q () s') :
    wp (Untar.readTar n) Q E s := by
  rw [Untar.readTar, wp_modify]
  apply hQ
  · refine ⟨h.name, h.content, ?_, ?_, h.torn⟩
    · rw [h.archive, h.pos]
      rfl
    · rw [h.archive, h.pos, h.buf]
      rfl
  · exact hf

theorem wp_writeFd_at {Q : Unit → Untar → Prop} {E : Stop → Untar → Prop} (h : At t s)
    (hf : Feeds self t s)
    (hQ : ∀ s', At (t.write self n) s' → Feeds self (t.write self n) s' → Q () s') :
    wp (Untar.writeFd n) Q E s := by
  rw [Untar.writeFd, wp_modify]
  cases self with
  | true =>
    obtain ⟨hname, hpos⟩ := hf
    apply hQ
    · refine ⟨h.name, ?_, h.pos, h.buf, h.torn⟩
      dsimp only
      rw [hname, h.content, Option.getD_some, hpos, writeAt_end, h.buf, Function.update_self]
      rfl
    · refine ⟨hname, ?_⟩
      simp only [Tape.write, if_true, List.length_append, List.length_map, List.length_range, hpos]
  | false =>
    apply hQ
    · refine ⟨h.name, ?_, h.pos, h.buf, h.torn⟩
      dsimp only
      rw [Function.update_of_ne (Ne.symm hf)]
      exact h.content
    · exact hf

theorem wp_dataLoop_at (h : At t s) (hf : Feeds self t s) :
    wp (Untar.dataLoop fuel len) (fun _ s' => At (t.data self len.toNat) s')
      (fun e _ => e = .hang ∧ fuel ≤ len.toNat) s := by
  induction fuel generalizing t s len with
  | zero => exact ⟨rfl, Nat.zero_le _⟩
  | succ fuel ih =>
    rw [Untar.dataLoop, Tape.data]
    by_cases hlen : 0 < len
    · have hn : len.toNat ≠ 0 := by omega
      have hr0 : 0 < min len.toNat tarChunk := Nat.lt_min.mpr ⟨by omega, by decide⟩
      have hrn : min len.toNat tarChunk ≤ len.toNat := Nat.min_le_left _ _
      rw [if_pos hlen, if_neg hn, wp_bind]
      generalize min len.toNat tarChunk = r at hr0 hrn ⊢
      have hround : ((r - 1) / tarSector + 1) * tarSector = roundUp r := by
        unfold tarSector roundUp
        omega
      have hleft : (len - r).toNat = len.toNat - r := by omega
      rw [hround, ← hleft]
      apply wp_readTar_at h hf
      intro s₁ h₁ hf₁
      rw [wp_bind]
      apply wp_writeFd_at h₁ hf₁
      intro s₂ h₂ hf₂
      apply wp_mono (ih h₂ hf₂)
      · intro _ _ hQ
        exact hQ
      · rintro e _ ⟨he, hfuel⟩
        exact ⟨he, by omega⟩
    · have hn : len.toNat = 0 := by omega
      rw [if_neg hlen, if_pos hn, wp_pure]
      exact h

theorem At.headerName (h : At t s) : Untar.headerName s.afterHeader.buf = t.name := by
  rw [h.afterHeader.buf]
  rfl

theorem At.opens_iff (h : At t s) {path : List UInt8} :
    s.Opens path ↔ Untar.MemberPath path ∧ t.torn = false := by
  rw [Untar.Opens, ← h.torn, Bool.not_eq_true]

theorem At.wp_round (h : At t s) (hm : t.HasMember len) :
    wp (Untar.round fuel)
      (fun next s' => next = .again ∧ At (t.behind t.name len.toNat) s')
      (fun e _ => e = .hang ∧ fuel ≤ len.toNat) s := by
  have hbuf := h.afterHeader.buf
  have hfirst : s.afterHeader.buf 0 ≠ 0 := by
    rw [hbuf]
    exact hm.first
  have hopen : s.Opens t.name := h.opens_iff.mpr ⟨hm.path, hm.whole⟩
  have hsize := hm.size
  rw [← hbuf] at hsize
  rw [Untar.wp_round_open hfirst h.headerName hm.fits hopen hsize, Tape.behind]
  dsimp only
  split
  · rename_i hself
    obtain ⟨hat, hfeeds⟩ := h.afterHeader.afterOpen_self hself
    exact wp_mono (wp_dataLoop_at hat hfeeds) (fun _ _ hQ => ⟨rfl, hQ⟩) fun _ _ hE => hE
  · rename_i hself
    obtain ⟨hat, hfeeds⟩ := h.afterHeader.afterOpen hself
    exact wp_mono (wp_dataLoop_at hat hfeeds) (fun _ _ hQ => ⟨rfl, hQ⟩) fun _ _ hE => hE

end Simulation

namespace Untar

def empty : Member := ⟨[97], []⟩

/-- The header of `empty` is next in the archive, or still in the buffer at its end. -/
structure OnHeaders (s : Untar) : Prop where
  name : s.fdTar.name = rootName cmdTar
  root : [47] ∉ s.opened
  rest : ∃ k, s.archive.drop s.fdTar.pos = (List.replicate k (tarHeader empty.name 0)).flatten ∧
    (k = 0 → ∃ b, s.buf = putBytes b 0 (tarHeader empty.name 0))

theorem OnHeaders.afterHeader {s : Untar} (h : OnHeaders s) :
    OnHeaders s.afterHeader ∧ ∃ b, s.afterHeader.buf = putBytes b 0 (tarHeader empty.name 0) := by
  obtain ⟨k, hrest, hbuf⟩ := h.rest
  have hlen : tarSector = (tarHeader empty.name 0).length :=
    (isHeader_tarHeader (by decide)).length.symm
  cases k with
  | zero =>
    have hread : readAt s.archive s.fdTar.pos tarSector = [] := by
      rw [readAt, hrest]
      rfl
    have hsame : s.afterHeader = s := by
      rw [Untar.afterHeader, hread, putBytes_nil]
      rfl
    rw [hsame]
    exact ⟨h, hbuf rfl⟩
  | succ k =>
    have hread : readAt s.archive s.fdTar.pos tarSector = tarHeader empty.name 0 := by
      rw [readAt, hrest, List.replicate_succ, List.flatten_cons, List.take_left' hlen.symm]
    have hnext : s.afterHeader.buf = putBytes s.buf 0 (tarHeader empty.name 0) := by
      rw [Untar.afterHeader, hread]
    refine ⟨⟨h.name, h.root, k, ?_, fun _ => ⟨s.buf, hnext⟩⟩, s.buf, hnext⟩
    have hpos : s.afterHeader.fdTar.pos = s.fdTar.pos + tarSector := by
      rw [Untar.afterHeader, hread, ← hlen]
    have harchive : s.afterHeader.archive = s.archive := rfl
    rw [hpos, harchive, ← List.drop_drop, hrest, List.replicate_succ, List.flatten_cons,
      List.drop_left' hlen.symm]

theorem OnHeaders.wp_round {s : Untar} {fuel : Nat} (h : OnHeaders s) :
    wp (round fuel) (fun next s' => next = .again ∧ OnHeaders s') (fun _ _ => True) s := by
  obtain ⟨h', b, hbuf⟩ := h.afterHeader
  have hh : IsHeader (tarHeader empty.name 0) empty.name 0 := isHeader_tarHeader (by decide)
  apply wp_mono (wp_round_empty hh hbuf (by decide) (by decide) (by decide)
    ⟨memberPath_of_name (by decide) (by decide), h.root⟩)
  · rintro next s' ⟨rfl, rfl⟩
    have hne : rootName empty.name ≠ s.afterHeader.fdTar.name := by
      rw [h'.name]
      decide
    have hroot : [47] ∉ s.afterHeader.opened ++ [empty.name] := by
      rw [List.mem_append, List.mem_singleton, not_or]
      exact ⟨h'.root, by decide⟩
    refine ⟨rfl, h'.name, hroot, ?_⟩
    rw [@archive_of_update s.afterHeader _ _ (s.afterHeader.afterOpen empty.name) rfl rfl hne]
    exact h'.rest
  · intro _ _ hE
    exact hE

end Untar

end BazingaOS
