import BazingaOS.FS.Inode
import BazingaOS.Lib.Prog

/-!
# Archives

`untar` of `kernel/main.c`, with which `INIT` extracts `/cmd.tar`, over files that are plain
sequences of bytes: a file is opened by the name behind a leading slash, `read` copies what is there
and leaves the rest of the buffer as it is, `write` overwrites and appends. What is printed is left
out.
-/

namespace BazingaOS

open Prog

structure OpenFile where
  name : List UInt8 := []
  pos : Nat := 0
deriving DecidableEq, Repr

/-- The files, and the variables of `untar`; `opened` are the members that have been opened. -/
structure Untar where
  files : List UInt8 → Option (List UInt8)
  fdTar : OpenFile := {}
  fd : OpenFile := {}
  buf : Bytes
  opened : List (List UInt8) := []

/-- How `untar` ends, or that it goes on. -/
inductive UntarNext where
  | again | done | aborted
deriving DecidableEq, Repr

/-- The file that a path names. -/
def rootName : List UInt8 → List UInt8
  | 47 :: l => l
  | l => l

def readAt (c : List UInt8) (pos n : Nat) : List UInt8 := (c.drop pos).take n

def writeAt (c : List UInt8) (pos : Nat) (l : List UInt8) : List UInt8 :=
  c.take pos ++ l ++ c.drop (pos + l.length)

def tarSector : Nat := 512
def tarChunk : Nat := tarSector * 16

/-- The place of `size` in `struct posix_tar_header`. -/
def tarSize : Nat := 124

namespace Untar

def archive (s : Untar) : List UInt8 := (s.files s.fdTar.name).getD []

def openTar (path : List UInt8) : Prog Untar Unit := do
  let s ← get
  check ((s.files (rootName path)).isSome = true)
  modify fun s => { s with fdTar := { name := rootName path }, opened := [] }

/-- `do_open` with `O_CREAT | O_RDWR | O_TRUNC`, which refuses no path. A path or a name that does not
fit its array is undefined, and so is the null pointer of a path that `strip_path` rejects. The path
"/" opens the root directory and empties it, so that it is undefined what a later path leads to. -/
def openMember (path : List UInt8) : Prog Untar Bool := do
  let s ← get
  if maxPath ≤ path.length ∨ [47] ∈ s.opened then halt .undefined
  else
    match stripPath path with
    | none => halt .undefined
    | some name =>
      if maxFilenameLen ≤ name.length then halt .undefined
      else
        modify fun s => { s with
          files := Function.update s.files name (some [])
          fd := { name := name }
          opened := s.opened ++ [path] }
        return true

def readTar (n : Nat) : Prog Untar Unit :=
  modify fun s => { s with
    buf := putBytes s.buf 0 (readAt s.archive s.fdTar.pos n)
    fdTar := { s.fdTar with pos := s.fdTar.pos + (readAt s.archive s.fdTar.pos n).length } }

def writeFd (n : Nat) : Prog Untar Unit :=
  modify fun s => { s with
    files := Function.update s.files s.fd.name
      (some (writeAt ((s.files s.fd.name).getD []) s.fd.pos ((List.range n).map s.buf)))
    fd := { s.fd with pos := s.fd.pos + n } }

/-- The loop that reads the size, with `n` bytes of the buffer left from `q` on; a text that does not
end in the buffer is undefined. -/
def parseSize (buf : Bytes) : Nat → Nat → Int → Option Int
  | 0, _, _ => none
  | n + 1, q, len =>
    if buf q = 0 then some len
    else parseSize buf n (q + 1) (toI32 (len * 8 + (buf q).toInt8.toInt - 48))

def dataLoop : Nat → Int → Prog Untar Unit
  | 0, _ => halt .hang
  | fuel + 1, byteLeft => do
    if 0 < byteLeft then
      let byteRead := min byteLeft.toNat tarChunk
      readTar (((byteRead - 1) / tarSector + 1) * tarSector)
      writeFd byteRead
      dataLoop fuel (byteLeft - byteRead)
    else return ()

/-- `pth->name`. -/
def headerName (buf : Bytes) : List UInt8 := cstring buf tarChunk

/-- A round of the loop; a name that does not end in the buffer is undefined. -/
def round (fuel : Nat) : Prog Untar UntarNext := do
  readTar tarSector
  let buf := (← get).buf
  if buf 0 = 0 then return .done
  else if tarChunk ≤ (headerName buf).length then halt .undefined
  else if ← openMember (headerName buf) then
    match parseSize (← get).buf (tarChunk - tarSize) tarSize 0 with
    | none => halt .undefined
    | some len =>
      dataLoop fuel len
      return .again
  else return .aborted

def untarLoop (fuel : Nat) : Nat → Prog Untar UntarNext
  | 0 => halt .hang
  | n + 1 => do
    let next ← round fuel
    if next = .again then untarLoop fuel n else return next

def untar (fuel : Nat) (path : List UInt8) : Prog Untar UntarNext := do
  openTar path
  untarLoop fuel fuel

end Untar

/-- `"/cmd.tar"`. -/
def cmdTar : List UInt8 := [47, 99, 109, 100, 46, 116, 97, 114]

section Files

variable {c l : List UInt8} {pos n m : Nat}

theorem writeAt_end : writeAt c c.length l = c ++ l := by
  simp [writeAt]

theorem readAt_length (h : pos + n ≤ c.length) : (readAt c pos n).length = n := by
  simp [readAt]
  omega

theorem readAt_add : readAt c pos (n + m) = readAt c pos n ++ readAt c (pos + n) m := by
  rw [readAt, readAt, readAt, List.take_add, List.drop_drop]

theorem range_map_putBytes {buf : Bytes} {q : Nat} (h : q + n ≤ l.length) :
    (List.range n).map (fun i => putBytes buf 0 l (q + i)) = readAt l q n := by
  apply List.ext_getElem
  · rw [readAt_length h]
    simp
  · intro i hi hi'
    have hil : q + i < l.length := by simp at hi; omega
    have hput := @putBytes_add buf 0 (q + i) l hil
    rw [Nat.zero_add] at hput
    simp [hput, readAt]

end Files

/-- A length in whole sectors. -/
def roundUp (n : Nat) : Nat := (n + 511) / 512 * 512

namespace Untar

variable {s s' : Untar} {fuel n : Nat} {w : List UInt8}

/-- The data of a member, `n` bytes of the archive, have been added to the text `w` of its file. -/
structure Copied (s : Untar) (w : List UInt8) (n : Nat) (s' : Untar) : Prop where
  files : s'.files = Function.update s.files s.fd.name
    (some (w ++ readAt s.archive s.fdTar.pos n))
  fdTar : s'.fdTar = { s.fdTar with pos := s.fdTar.pos + roundUp n }
  opened : s'.opened = s.opened

theorem archive_of_update {l : List UInt8} {name : List UInt8} {t : Untar}
    (hfiles : t.files = Function.update s.files name (some l)) (hname : t.fdTar.name = s.fdTar.name)
    (hne : name ≠ s.fdTar.name) : t.archive = s.archive := by
  rw [archive, archive, hfiles, hname, Function.update_of_ne hne.symm]

def afterChunk (s : Untar) (w : List UInt8) (r : Nat) : Untar :=
  { s with
    files := Function.update s.files s.fd.name (some (w ++ readAt s.archive s.fdTar.pos r))
    fdTar := { s.fdTar with pos := s.fdTar.pos + roundUp r }
    fd := { s.fd with pos := w.length + r }
    buf := putBytes s.buf 0 (readAt s.archive s.fdTar.pos (roundUp r)) }

theorem le_roundUp (n : Nat) : n ≤ roundUp n := by
  unfold roundUp
  omega

theorem wp_dataLoop_round {Q : Unit → Untar → Prop} {E : Stop → Untar → Prop} (hn : 0 < n)
    (hw : s.files s.fd.name = some w) (hpos : s.fd.pos = w.length)
    (havail : s.fdTar.pos + roundUp (min n tarChunk) ≤ s.archive.length) :
    wp (dataLoop (fuel + 1) n) Q E s ↔
      wp (dataLoop fuel (n - min n tarChunk : Nat)) Q E (afterChunk s w (min n tarChunk)) := by
  have hr0 : 0 < min n tarChunk := Nat.lt_min.mpr ⟨hn, by decide⟩
  have hrn : min n tarChunk ≤ n := Nat.min_le_left _ _
  have hint : 0 < (n : Int) := by omega
  rw [dataLoop, if_pos hint, Int.toNat_natCast, wp_bind, readTar, wp_modify, wp_bind, writeFd,
    wp_modify]
  generalize min n tarChunk = r at hr0 hrn havail ⊢
  have hround : ((r - 1) / tarSector + 1) * tarSector = roundUp r := by
    unfold tarSector roundUp
    omega
  have hread : (readAt s.archive s.fdTar.pos (roundUp r)).length = roundUp r := readAt_length havail
  have hle := le_roundUp r
  have hdata : (List.range r).map (putBytes s.buf 0 (readAt s.archive s.fdTar.pos (roundUp r))) =
      readAt s.archive s.fdTar.pos r := by
    have hfront := @range_map_putBytes (readAt s.archive s.fdTar.pos (roundUp r)) r s.buf 0
      (by omega)
    simp only [Nat.zero_add] at hfront
    rw [hfront, readAt, readAt, readAt, List.drop_zero, List.take_take, Nat.min_eq_left hle]
  have hcast : (n : Int) - r = ((n - r : Nat) : Int) := by omega
  rw [hround, hcast]
  dsimp only
  rw [hread, hdata, hw, Option.getD_some, hpos, writeAt_end]
  rfl

theorem dataLoop_spec (hne : s.fd.name ≠ s.fdTar.name) (hw : s.files s.fd.name = some w)
    (hpos : s.fd.pos = w.length) (havail : s.fdTar.pos + roundUp n ≤ s.archive.length) :
    wp (dataLoop fuel n) (fun _ s' => Copied s w n s') (fun e _ => e = .hang ∧ fuel ≤ n) s := by
  induction fuel generalizing n s w with
  | zero => exact ⟨rfl, Nat.zero_le _⟩
  | succ fuel ih =>
    rcases Nat.eq_zero_or_pos n with rfl | hn
    · rw [dataLoop, if_neg (by simp), wp_pure]
      refine ⟨?_, rfl, rfl⟩
      rw [readAt, List.take_zero, List.append_nil, ← hw, Function.update_eq_self]
    · have hchunk : min n tarChunk = n ∨ min n tarChunk = 8192 ∧ 8192 < n := by
        unfold tarChunk tarSector
        omega
      have hr0 : 0 < min n tarChunk := Nat.lt_min.mpr ⟨hn, by decide⟩
      have hsplit : roundUp (min n tarChunk) + roundUp (n - min n tarChunk) = roundUp n := by
        unfold roundUp
        omega
      have hmore : readAt s.archive s.fdTar.pos n =
          readAt s.archive s.fdTar.pos (min n tarChunk) ++
            readAt s.archive (s.fdTar.pos + roundUp (min n tarChunk)) (n - min n tarChunk) := by
        rcases hchunk with heq | ⟨heq, hlt⟩
        · simp [heq, readAt]
        · have hadd : n = 8192 + (n - 8192) := by omega
          rw [heq]
          conv_lhs => rw [hadd, readAt_add]
          rfl
      rw [wp_dataLoop_round hn hw hpos (by omega)]
      generalize min n tarChunk = r at hr0 hchunk hsplit hmore ⊢
      have harchive : (afterChunk s w r).archive = s.archive := archive_of_update rfl rfl hne
      have hlen : (w ++ readAt s.archive s.fdTar.pos r).length = w.length + r := by
        have hle := le_roundUp r
        rw [List.length_append, readAt_length (by omega)]
      apply wp_mono (ih (s := afterChunk s w r) hne (w := w ++ readAt s.archive s.fdTar.pos r)
        (Function.update_self _ _ _) hlen.symm ?_)
      · intro _ s' hc
        refine ⟨?_, ?_, hc.opened⟩
        · rw [hc.files, harchive, hmore, ← List.append_assoc]
          exact Function.update_idem _ _ _
        · rw [hc.fdTar, ← hsplit, ← Nat.add_assoc]
          rfl
      · rintro e _ ⟨he, hfuel⟩
        exact ⟨he, by omega⟩
      · have hpos' : (afterChunk s w r).fdTar.pos = s.fdTar.pos + roundUp r := rfl
        rw [harchive, hpos']
        omega

end Untar

/-- The digits of `n` to the base 8, with zeros in front. -/
def octal : Nat → Nat → List UInt8
  | 0, _ => []
  | k + 1, n => octal k (n / 8) ++ [UInt8.ofNat (n % 8 + 48)]

theorem octal_length (k n : Nat) : (octal k n).length = k := by
  induction k generalizing n with
  | zero => rfl
  | succ k ih => rw [octal, List.length_append, ih, List.length_singleton]

structure Member where
  name : List UInt8
  content : List UInt8

/-- A header of an archive; only the name and the size are looked at. -/
structure IsHeader (h : List UInt8) (name : List UInt8) (n : Nat) : Prop where
  length : h.length = 512
  name : h.take (name.length + 1) = name ++ [0]
  size : (h.drop tarSize).take 12 = octal 11 n ++ [0]

/-- The members, one after the other, with their data in whole sectors, and a sector of zeros with
anything behind it. -/
inductive IsArchive : List Member → List UInt8 → Prop where
  | nil (rest : List UInt8) : IsArchive [] (List.replicate 512 0 ++ rest)
  | cons {m ms h pad a} (hh : IsHeader h m.name m.content.length)
      (hpad : m.content.length + pad.length = roundUp m.content.length) (ha : IsArchive ms a) :
      IsArchive (m :: ms) (h ++ m.content ++ pad ++ a)

/-- A name of a file in the root directory, and a content of at most 1 MB. -/
structure Member.Ok (m : Member) : Prop where
  ne_nil : m.name ≠ []
  length : m.name.length ≤ 11
  no_slash : 47 ∉ m.name
  no_zero : 0 ∉ m.name
  content : m.content.length ≤ 0x100000

namespace Untar

section Size

variable {buf : Bytes} {k n q r v d : Nat}

theorem parseSize_digit (hd : d < 8) (hv : v < 0x1000000) (hq : buf q = UInt8.ofNat (d + 48)) :
    parseSize buf (r + 1) q v = parseSize buf r (q + 1) ((8 * v + d : Nat) : Int) := by
  have hchar : (UInt8.ofNat (d + 48)).toInt8.toInt = d + 48 := by
    interval_cases d <;> rfl
  have hne : buf q ≠ 0 := by
    rw [hq]
    interval_cases d <;> decide
  have hval : (v : Int) * 8 + (d + 48) - 48 = ((8 * v + d : Nat) : Int) := by
    push_cast
    ring
  rw [parseSize, if_neg hne]
  simp only [hq, hchar, hval]
  rw [toI32_of_inI32 ⟨by omega, by omega⟩]

theorem parseSize_octal (hn : n < 8 ^ k) (hn' : n < 0x8000000)
    (hq : (List.range k).map (fun i => buf (q + i)) = octal k n) :
    parseSize buf (k + r) q 0 = parseSize buf r (q + k) n := by
  induction k generalizing n r with
  | zero =>
    have h0 : n = 0 := by omega
    rw [h0, Nat.zero_add]
    rfl
  | succ k ih =>
    rw [octal, List.range_succ, List.map_append] at hq
    obtain ⟨hfront, hlast⟩ := List.append_inj hq (by simp [octal_length])
    have hdigit : buf (q + k) = UInt8.ofNat (n % 8 + 48) := by simpa using hlast
    have hdiv : n / 8 < 8 ^ k := by
      rw [pow_succ] at hn
      omega
    have hk : k + 1 + r = k + (r + 1) := by omega
    rw [hk, ih hdiv (by omega) hfront, parseSize_digit (Nat.mod_lt _ (by omega)) (by omega) hdigit,
      Nat.div_add_mod]
    rfl

end Size

section Header

variable {buf : Bytes} {h name : List UInt8} {n : Nat}

theorem headerName_of_isHeader (hh : IsHeader h name n) (h0 : 0 ∉ name) (hlen : name.length ≤ 11) :
    headerName (putBytes buf 0 h) = name := by
  have hmap := @range_map_putBytes h (name.length + 1) buf 0 (by rw [hh.length]; omega)
  rw [readAt, List.drop_zero, hh.name] at hmap
  have hget : ∀ i < name.length + 1, (name ++ [0])[i]? = some (putBytes buf 0 h i) := by
    intro i hi
    rw [← hmap]
    simp [hi]
  apply cstring_of_zero h0
  · unfold tarChunk tarSector
    omega
  · intro i hi
    have hi' := hget i (by omega)
    rw [List.getElem?_append_left hi, List.getElem?_eq_getElem hi] at hi'
    exact (Option.some.inj hi').symm
  · have hlast := hget _ (Nat.lt_succ_self name.length)
    rw [List.getElem?_concat_length] at hlast
    exact (Option.some.inj hlast).symm

theorem parseSize_of_isHeader (hh : IsHeader h name n) (hn : n < 0x8000000) :
    parseSize (putBytes buf 0 h) (tarChunk - tarSize) tarSize 0 = some (n : Int) := by
  have hmap := @range_map_putBytes h 12 buf tarSize (by rw [hh.length]; decide)
  rw [readAt, hh.size, List.range_succ, List.map_append] at hmap
  obtain ⟨hdigits, hzero⟩ := List.append_inj hmap (by simp [octal_length])
  have hend : putBytes buf 0 h (tarSize + 11) = 0 := by simpa using hzero
  have hcount : tarChunk - tarSize = 11 + (8056 + 1) := rfl
  rw [hcount, parseSize_octal (by omega) hn hdigits, parseSize, if_pos hend]

end Header

section Rounds

variable {u h l pad a v : List UInt8} {m : Member} {ms : List Member} {s s' : Untar} {fuel n : Nat}

theorem readAt_mid : readAt (u ++ (l ++ v)) u.length l.length = l := by
  simp [readAt]

/-- A member of the archive has been extracted. -/
structure AfterMember (s : Untar) (m : Member) (s' : Untar) : Prop where
  files : s'.files = Function.update s.files m.name (some m.content)
  fdTar : s'.fdTar = { s.fdTar with pos := s.fdTar.pos + 512 + roundUp m.content.length }
  opened : s'.opened = s.opened ++ [m.name]

def afterHeader (s : Untar) : Untar :=
  { s with
    buf := putBytes s.buf 0 (readAt s.archive s.fdTar.pos tarSector)
    fdTar := { s.fdTar with
      pos := s.fdTar.pos + (readAt s.archive s.fdTar.pos tarSector).length } }

def afterOpen (s : Untar) (path : List UInt8) : Untar :=
  { s with
    files := Function.update s.files (rootName path) (some [])
    fd := { name := rootName path }
    opened := s.opened ++ [path] }

/-- `do_open` returns for a path: it fits, and it names a file of the root directory or this one. -/
def MemberPath (path : List UInt8) : Prop :=
  path.length < maxPath ∧ ∃ name, stripPath path = some name ∧ name.length < maxFilenameLen

/-- `openMember` returns. -/
def Opens (s : Untar) (path : List UInt8) : Prop := MemberPath path ∧ [47] ∉ s.opened

theorem rootName_eq (path : List UInt8) :
    (if path.head? = some 47 then path.tail else path) = rootName path := by
  cases path with
  | nil => rfl
  | cons c l =>
    by_cases hc : c = 47
    · rw [hc]
      rfl
    · have hne : rootName (c :: l) = c :: l := by
        unfold rootName
        split
        · rename_i heq
          exact absurd (List.cons.inj heq).1 hc
        · rfl
      rw [hne, List.head?_cons, if_neg fun h => hc (Option.some.inj h)]

theorem stripPath_eq {path name : List UInt8} (h : stripPath path = some name)
    (hlen : name.length < maxFilenameLen) : name = rootName path := by
  rw [stripPath, rootName_eq] at h
  split at h
  · cases h
  · obtain rfl := Option.some.inj h
    apply List.take_of_length_le
    rw [List.length_take] at hlen
    omega

theorem rootName_of_no_slash (hm : 47 ∉ l) : rootName l = l := by
  have hhead : l.head? ≠ some 47 := fun h => hm (List.mem_of_mem_head? h)
  rw [← rootName_eq, if_neg hhead]

theorem memberPath_of_name {name : List UInt8} (hlen : name.length ≤ 11) (hslash : 47 ∉ name) :
    MemberPath name := by
  have hpath : maxPath = 128 := rfl
  have hfile : maxFilenameLen = 12 := rfl
  have htake : name.take maxFilenameLen = name := List.take_of_length_le (by omega)
  refine ⟨by omega, name, ?_, by omega⟩
  rw [stripPath, rootName_eq, rootName_of_no_slash hslash]
  simp only [htake]
  exact if_neg hslash

theorem openMember_eq {path : List UInt8} (h : s.Opens path) :
    openMember path s = .ok true (s.afterOpen path) := by
  obtain ⟨⟨hpath, name, hstrip, hname⟩, hroot⟩ := h
  have hget : (get : Prog Untar Untar) s = .ok s s := rfl
  rw [openMember, bind_of_ok hget, if_neg (not_or.mpr ⟨Nat.not_le.mpr hpath, hroot⟩), hstrip]
  simp only [if_neg (Nat.not_le.mpr hname)]
  rw [afterOpen, ← stripPath_eq hstrip hname]
  rfl

@[simp] theorem afterOpen_buf (path : List UInt8) : (s.afterOpen path).buf = s.buf := rfl

theorem readTar_eq : readTar tarSector s = .ok () s.afterHeader := rfl

theorem round_done (hfirst : s.afterHeader.buf 0 = 0) :
    round fuel s = .ok .done s.afterHeader := by
  rw [← wp_ok_iff, round, wp_of_run_eq (bind_of_ok readTar_eq), wp_bind, wp_get]
  dsimp only
  rw [if_pos hfirst, wp_pure]
  exact ⟨rfl, rfl⟩

theorem wp_round_open {Q : UntarNext → Untar → Prop} {E : Stop → Untar → Prop} {path : List UInt8}
    {len : Int} (hfirst : s.afterHeader.buf 0 ≠ 0) (hname : headerName s.afterHeader.buf = path)
    (hfits : path.length < tarChunk) (hopen : s.Opens path)
    (hsize : parseSize s.afterHeader.buf (tarChunk - tarSize) tarSize 0 = some len) :
    wp (round fuel) Q E s ↔
      wp (dataLoop fuel len) (fun _ s' => Q .again s') E (s.afterHeader.afterOpen path) := by
  have hopen' : s.afterHeader.Opens path := hopen
  rw [round, wp_of_run_eq (bind_of_ok readTar_eq), wp_bind, wp_get]
  dsimp only
  rw [if_neg hfirst, hname, if_neg (Nat.not_le.mpr hfits),
    wp_of_run_eq (bind_of_ok (openMember_eq hopen')), if_pos rfl, wp_bind, wp_get, afterOpen_buf,
    hsize]
  dsimp only
  rw [wp_bind]
  rfl

theorem wp_round_header {Q : UntarNext → Untar → Prop} {E : Stop → Untar → Prop} {b : Bytes}
    {name : List UInt8} (hh : IsHeader h name n) (hbuf : s.afterHeader.buf = putBytes b 0 h)
    (hne : name ≠ []) (hlen : name.length ≤ 11) (h0 : 0 ∉ name) (hn : n < 0x8000000)
    (hopen : s.Opens name) :
    wp (round fuel) Q E s ↔
      wp (dataLoop fuel n) (fun _ s' => Q .again s') E (s.afterHeader.afterOpen name) := by
  have hname : headerName s.afterHeader.buf = name := by
    rw [hbuf]
    exact headerName_of_isHeader hh h0 hlen
  have hfirst : s.afterHeader.buf 0 ≠ 0 := by
    intro hzero
    have hle := @cstring_length_le_of_zero _ tarChunk 0 hzero
    change (headerName s.afterHeader.buf).length ≤ 0 at hle
    rw [hname] at hle
    exact hne (List.eq_nil_of_length_eq_zero (Nat.le_zero.mp hle))
  have hfits : name.length < tarChunk := by
    unfold tarChunk tarSector
    omega
  have hsize : parseSize s.afterHeader.buf (tarChunk - tarSize) tarSize 0 = some (n : Int) := by
    rw [hbuf]
    exact parseSize_of_isHeader hh hn
  exact wp_round_open hfirst hname hfits hopen hsize

theorem wp_round_member (hm : m.Ok) (hh : IsHeader h m.name m.content.length)
    (hpad : m.content.length + pad.length = roundUp m.content.length)
    (harchive : s.archive = u ++ (h ++ m.content ++ pad ++ a)) (hpos : s.fdTar.pos = u.length)
    (hself : m.name ≠ s.fdTar.name) (hopen : s.Opens m.name) :
    wp (round fuel) (fun next s' => next = .again ∧ AfterMember s m s')
      (fun e _ => e = .hang ∧ fuel ≤ m.content.length) s := by
  have hread : readAt s.archive s.fdTar.pos tarSector = h := by
    have hlen : tarSector = h.length := hh.length.symm
    rw [harchive, hpos, hlen, List.append_assoc, List.append_assoc]
    exact readAt_mid
  have hbuf : s.afterHeader.buf = putBytes s.buf 0 h := by
    rw [afterHeader, hread]
  rw [wp_round_header hh hbuf hm.ne_nil hm.length hm.no_zero
    (Nat.lt_of_le_of_lt hm.content (by decide)) hopen]
  have hroot : rootName m.name = m.name := rootName_of_no_slash hm.no_slash
  have harchive₁ : (s.afterHeader.afterOpen m.name).archive = s.archive := by
    have hne : rootName m.name ≠ s.fdTar.name := by
      rw [hroot]
      exact hself
    exact archive_of_update rfl rfl hne
  have hpos₁ : (s.afterHeader.afterOpen m.name).fdTar.pos = (u ++ h).length := by
    change s.fdTar.pos + (readAt s.archive s.fdTar.pos tarSector).length = _
    rw [hread, hpos, List.length_append]
  have hdata : readAt (s.afterHeader.afterOpen m.name).archive
      (s.afterHeader.afterOpen m.name).fdTar.pos m.content.length = m.content := by
    have happend : s.archive = (u ++ h) ++ (m.content ++ (pad ++ a)) := by
      rw [harchive]
      simp only [List.append_assoc]
    rw [harchive₁, hpos₁, happend]
    exact readAt_mid
  have havail : (s.afterHeader.afterOpen m.name).fdTar.pos + roundUp m.content.length ≤
      (s.afterHeader.afterOpen m.name).archive.length := by
    rw [hpos₁, harchive₁, harchive]
    simp only [List.length_append]
    omega
  have hfile : (s.afterHeader.afterOpen m.name).fd.name = m.name := hroot
  apply wp_mono (dataLoop_spec (w := []) ?_ ?_ ?_ havail)
  · rintro _ s' hc
    refine ⟨rfl, ?_, ?_, hc.opened⟩
    · rw [hc.files, hdata, hfile, List.nil_append, afterOpen, hroot]
      exact Function.update_idem _ _ _
    · have hsector : s.fdTar.pos + 512 = (u ++ h).length := by
        rw [hpos, List.length_append, hh.length]
      rw [hc.fdTar, hpos₁, ← hsector]
      rfl
  · intro _ _ hE
    exact hE
  · rw [hfile]
    exact hself
  · exact Function.update_self _ _ _
  · rfl

theorem wp_round_zero (harchive : s.archive = u ++ (List.replicate 512 0 ++ v))
    (hpos : s.fdTar.pos = u.length) :
    wp (round fuel) (fun next s' => next = .done ∧ s'.files = s.files ∧
      s'.fdTar = { s.fdTar with pos := s.fdTar.pos + 512 } ∧ s'.opened = s.opened)
      (fun _ _ => False) s := by
  have hread : readAt s.archive s.fdTar.pos tarSector = List.replicate 512 0 := by
    have hlen : tarSector = (List.replicate 512 (0 : UInt8)).length := by
      rw [List.length_replicate]
      rfl
    rw [harchive, hpos, hlen]
    exact readAt_mid
  have hfirst : s.afterHeader.buf 0 = 0 := by
    have hput := @putBytes_add s.buf 0 0 (List.replicate 512 0)
      (by rw [List.length_replicate]; exact Nat.zero_lt_succ _)
    rw [List.getElem_replicate] at hput
    rw [afterHeader, hread]
    exact hput
  have hafter : s.afterHeader.fdTar = { s.fdTar with pos := s.fdTar.pos + 512 } := by
    rw [afterHeader, hread, List.length_replicate]
  unfold wp
  rw [round_done hfirst]
  exact ⟨rfl, rfl, hafter, rfl⟩

/-- The bytes that the members take up in an archive. -/
def archiveLength (ms : List Member) : Nat :=
  (ms.map fun m => 512 + roundUp m.content.length).sum

theorem archiveLength_cons :
    archiveLength (m :: ms) = 512 + roundUp m.content.length + archiveLength ms := by
  simp only [archiveLength, List.map_cons, List.sum_cons]

/-- The members have been extracted one after the other, and the zero block behind them read. -/
structure Extracted (ms : List Member) (s s' : Untar) : Prop where
  content : ∀ m ∈ ms, s'.files m.name = some m.content
  others : ∀ name ∉ ms.map Member.name, s'.files name = s.files name
  opened : s'.opened = s.opened ++ ms.map Member.name
  fdTar : s'.fdTar = { s.fdTar with pos := s.fdTar.pos + (archiveLength ms + 512) }

/-- A list of members that can be extracted. -/
structure Members (ms : List Member) (s : Untar) : Prop where
  ok : ∀ m ∈ ms, m.Ok
  nodup : (ms.map Member.name).Nodup
  root : [47] ∉ s.opened
  not_self : ∀ m ∈ ms, m.name ≠ s.fdTar.name

theorem AfterMember.extracted (h : AfterMember s m s') {s'' : Untar} (hms : Members (m :: ms) s)
    (hrest : Extracted ms s' s'') : Extracted (m :: ms) s s'' := by
  have hname : m.name ∉ ms.map Member.name := (List.nodup_cons.mp hms.nodup).1
  refine ⟨?_, ?_, ?_, ?_⟩
  · intro m' hm'
    rcases List.mem_cons.mp hm' with rfl | hm'
    · rw [hrest.others _ hname, h.files, Function.update_self]
    · exact hrest.content m' hm'
  · intro name hne
    rw [List.map_cons, List.mem_cons, not_or] at hne
    rw [hrest.others _ hne.2, h.files, Function.update_of_ne hne.1]
  · rw [hrest.opened, h.opened, List.append_assoc]
    rfl
  · have hpos : s.fdTar.pos + 512 + roundUp m.content.length + (archiveLength ms + 512) =
        s.fdTar.pos + (archiveLength (m :: ms) + 512) := by
      rw [archiveLength_cons]
      omega
    rw [hrest.fdTar, h.fdTar, ← hpos]

theorem AfterMember.members (h : AfterMember s m s') (hms : Members (m :: ms) s) :
    Members ms s' where
  ok m' hm' := hms.ok m' (List.mem_cons_of_mem _ hm')
  nodup := (List.nodup_cons.mp hms.nodup).2
  root := by
    rw [h.opened, List.mem_append, List.mem_singleton, not_or]
    refine ⟨hms.root, fun heq => ?_⟩
    exact (hms.ok m List.mem_cons_self).no_slash (heq ▸ List.mem_cons_self)
  not_self m' hm' := by
    rw [h.fdTar]
    exact hms.not_self m' (List.mem_cons_of_mem _ hm')

theorem AfterMember.archive (h : AfterMember s m s') (hself : m.name ≠ s.fdTar.name) :
    s'.archive = s.archive := by
  apply archive_of_update h.files _ hself
  rw [h.fdTar]

/-- By induction along the archive; `u` is what has been read of it. -/
theorem untarLoop_spec (ha : IsArchive ms a) (hms : Members ms s) (harchive : s.archive = u ++ a)
    (hpos : s.fdTar.pos = u.length) :
    wp (untarLoop fuel n) (fun next s' => next = .done ∧ Extracted ms s s')
      (fun e _ => e = .hang ∧ (fuel ≤ 0x100000 ∨ n ≤ ms.length)) s := by
  induction ha generalizing n s u with
  | nil rest =>
    cases n with
    | zero => exact ⟨rfl, .inr (Nat.le_refl _)⟩
    | succ n =>
      rw [untarLoop, wp_bind]
      apply wp_mono (wp_round_zero harchive hpos)
      · rintro _ s' ⟨rfl, hfiles, hfdTar, hopened⟩
        rw [if_neg (by decide), wp_pure]
        refine ⟨rfl, by simp, ?_, by simpa using hopened, hfdTar⟩
        intro name _
        rw [hfiles]
      · intro _ _ hfalse
        exact hfalse.elim
  | cons hh hpad ha ih =>
    rename_i m ms h pad a
    cases n with
    | zero => exact ⟨rfl, .inr (Nat.zero_le _)⟩
    | succ n =>
      have hm := hms.ok m List.mem_cons_self
      have hself := hms.not_self m List.mem_cons_self
      rw [untarLoop, wp_bind]
      apply wp_mono (wp_round_member hm hh hpad harchive hpos hself
        ⟨memberPath_of_name hm.length hm.no_slash, hms.root⟩)
      · rintro _ s' ⟨rfl, hafter⟩
        rw [if_pos rfl]
        have harchive' : s'.archive = (u ++ (h ++ m.content ++ pad)) ++ a := by
          rw [hafter.archive hself, harchive]
          simp only [List.append_assoc]
        have hpos' : s'.fdTar.pos = (u ++ (h ++ m.content ++ pad)).length := by
          rw [hafter.fdTar]
          simp only [List.length_append, hh.length, hpos]
          omega
        apply wp_mono (ih (hafter.members hms) harchive' hpos')
        · rintro next s'' ⟨hdone, hrest⟩
          exact ⟨hdone, hafter.extracted hms hrest⟩
        · rintro e _ ⟨he, hfuel⟩
          refine ⟨he, ?_⟩
          rw [List.length_cons]
          omega
      · rintro e _ ⟨he, hfuel⟩
        have hcontent := hm.content
        exact ⟨he, .inl (by omega)⟩

/-- The archive has been opened. -/
def atArchive (s : Untar) : Untar :=
  { s with fdTar := { name := rootName cmdTar }, opened := [] }

/-- `untar` extracts the members of the archive and stops behind the zero block. -/
def Extracts (ms : List Member) (s : Untar) : Prop :=
  ∃ fuel s', untar fuel cmdTar s = .ok .done s' ∧
    Extracted ms s.atArchive s'

/-- The archive `/cmd.tar` holds the members. -/
structure Archived (ms : List Member) (a : List UInt8) (s : Untar) : Prop where
  archive : s.files (rootName cmdTar) = some a
  isArchive : IsArchive ms a
  ok : ∀ m ∈ ms, m.Ok
  nodup : (ms.map Member.name).Nodup

theorem openTar_eq (hfile : s.files (rootName cmdTar) = some a) :
    openTar cmdTar s = .ok () s.atArchive := by
  have hcheck : (s.files (rootName cmdTar)).isSome = true := by
    rw [hfile]
    rfl
  have hget : (get : Prog Untar Untar) s = .ok s s := rfl
  rw [openTar, bind_of_ok hget, check, if_pos hcheck]
  rfl

/-- An archive none of whose members is called `cmd.tar` is extracted. -/
theorem extracts_of_archived (h : Archived ms a s)
    (hself : ∀ m ∈ ms, m.name ≠ rootName cmdTar) : Extracts ms s := by
  have hms : Members ms s.atArchive :=
    ⟨h.ok, h.nodup, List.not_mem_nil, hself⟩
  have harchive : s.atArchive.archive = [] ++ a := by
    change (s.files (rootName cmdTar)).getD [] = a
    rw [h.archive]
    rfl
  have hend : wp (untarLoop (0x100000 + ms.length + 1) (0x100000 + ms.length + 1))
      (fun next s' => next = .done ∧
        Extracted ms s.atArchive s')
      (fun _ _ => False) s.atArchive := by
    apply wp_mono (untarLoop_spec h.isArchive hms harchive rfl)
    · intro _ _ hQ
      exact hQ
    · rintro _ _ ⟨-, hfuel⟩
      omega
  obtain ⟨next, s', hrun, rfl, hext⟩ := exists_ok_of_wp hend
  refine ⟨0x100000 + ms.length + 1, s', ?_, hext⟩
  rw [untar, bind_of_ok (openTar_eq h.archive)]
  exact hrun

theorem untarLoop_of_again {I : Untar → Prop}
    (hI : ∀ s, I s → wp (round fuel) (fun next s' => next = .again ∧ I s') (fun _ _ => True) s)
    (h : I s) : wp (untarLoop fuel n) (fun _ _ => False) (fun _ _ => True) s := by
  induction n generalizing s with
  | zero => trivial
  | succ n ih =>
    rw [untarLoop, wp_bind]
    apply wp_mono (hI s h)
    · rintro next s' ⟨rfl, hs'⟩
      rw [if_pos rfl]
      exact ih hs'
    · intro _ _ _
      trivial

/-- A member without data leaves its header in the buffer. -/
theorem wp_round_empty {b : Bytes} {name : List UInt8} (hh : IsHeader h name 0)
    (hbuf : s.afterHeader.buf = putBytes b 0 h) (hne : name ≠ []) (hlen : name.length ≤ 11)
    (h0 : 0 ∉ name) (hopen : s.Opens name) :
    wp (round fuel) (fun next s' => next = .again ∧ s' = s.afterHeader.afterOpen name)
      (fun _ _ => True) s := by
  rw [wp_round_header hh hbuf hne hlen h0 (by omega) hopen]
  cases fuel with
  | zero => trivial
  | succ fuel =>
    rw [dataLoop, if_neg (by simp), wp_pure]
    exact ⟨rfl, rfl⟩

end Rounds

end Untar

/-- A header with zeros in the fields that are not looked at. -/
def tarHeader (name : List UInt8) (n : Nat) : List UInt8 :=
  name ++ (List.replicate (tarSize - name.length) 0 ++
    (octal 11 n ++ [0] ++ List.replicate 376 0))

def tarArchive : List Member → List UInt8
  | [] => List.replicate 512 0
  | m :: ms =>
    tarHeader m.name m.content.length ++ m.content ++
      List.replicate (roundUp m.content.length - m.content.length) 0 ++ tarArchive ms

theorem isHeader_tarHeader {name : List UInt8} {n : Nat} (hlen : name.length ≤ 11) :
    IsHeader (tarHeader name n) name n := by
  have hsize : tarSize = name.length + (tarSize - name.length) := by
    unfold tarSize
    omega
  refine ⟨?_, ?_, ?_⟩
  · simp only [tarHeader, List.length_append, List.length_replicate, octal_length,
      List.length_singleton]
    unfold tarSize
    omega
  · have hpad : List.replicate (tarSize - name.length) (0 : UInt8) =
        0 :: List.replicate (tarSize - name.length - 1) 0 := by
      rw [← List.replicate_succ]
      congr 1
      unfold tarSize
      omega
    rw [tarHeader, hpad, List.take_length_add_append]
    rfl
  · have hfront : (name ++ List.replicate (tarSize - name.length) (0 : UInt8)).length =
        tarSize := by
      rw [List.length_append, List.length_replicate]
      exact hsize.symm
    have hdigits : (octal 11 n ++ [0]).length = 12 := by
      rw [List.length_append, octal_length]
      rfl
    rw [tarHeader, ← List.append_assoc, List.drop_left' hfront, List.take_left' hdigits]

theorem isArchive_tarArchive {ms : List Member} (hlen : ∀ m ∈ ms, m.name.length ≤ 11) :
    IsArchive ms (tarArchive ms) := by
  induction ms with
  | nil =>
    have hnil := IsArchive.nil []
    rwa [List.append_nil] at hnil
  | cons m ms ih =>
    apply IsArchive.cons (isHeader_tarHeader (hlen m List.mem_cons_self))
    · have hle := Untar.le_roundUp m.content.length
      rw [List.length_replicate]
      omega
    · exact ih fun m' hm' => hlen m' (List.mem_cons_of_mem _ hm')

namespace Untar

def installed (ms : List Member) : Untar where
  files name := if name = rootName cmdTar then some (tarArchive ms) else none
  buf _ := 0

theorem archived_installed {ms : List Member} (hok : ∀ m ∈ ms, m.Ok)
    (hnodup : (ms.map Member.name).Nodup) : Archived ms (tarArchive ms) (installed ms) where
  archive := by simp only [installed, if_true]
  isArchive := isArchive_tarArchive fun m hm => (hok m hm).length
  ok := hok
  nodup := hnodup

/-- A member `echo` of two bytes, and a member `long` of more than 16 sectors. -/
def echo : Member := ⟨[101, 99, 104, 111], [104, 105]⟩
def long : Member := ⟨[108, 111, 110, 103], List.replicate 9000 104⟩

theorem extracts_echo : Extracts [echo, long] (installed [echo, long]) := by
  have hlong : long.content.length = 9000 := List.length_replicate
  have hok : ∀ m ∈ [echo, long], m.Ok := by
    intro m hm
    rcases List.mem_pair.mp hm with rfl | rfl
    · exact ⟨by decide, by decide, by decide, by decide, by decide⟩
    · exact ⟨by decide, by decide, by decide, by decide, by omega⟩
  exact extracts_of_archived (archived_installed hok (by decide)) (by decide)

/-- A member that is called as the archive is, and is empty. -/
def selfNamed : Member := ⟨rootName cmdTar, []⟩

theorem selfNamed_ok : selfNamed.Ok :=
  ⟨by decide, by decide, by decide, by decide, by decide⟩

/-- The header of `selfNamed` is in the buffer whenever it is looked at. -/
structure Emptied (s : Untar) : Prop where
  name : s.fdTar.name = rootName cmdTar
  root : [47] ∉ s.opened
  header : ∃ b h, IsHeader h selfNamed.name 0 ∧ s.afterHeader.buf = putBytes b 0 h

theorem Emptied.afterOpen {s : Untar} (h : Emptied s) :
    Emptied (s.afterHeader.afterOpen selfNamed.name) where
  name := h.name
  root := by
    change [47] ∉ s.opened ++ [selfNamed.name]
    rw [List.mem_append, List.mem_singleton, not_or]
    exact ⟨h.root, by decide⟩
  header := by
    obtain ⟨b, l, hh, hbuf⟩ := h.header
    refine ⟨b, l, hh, ?_⟩
    have hempty : (s.afterHeader.afterOpen selfNamed.name).archive = [] := by
      change (Function.update s.files (rootName selfNamed.name) (some []) s.fdTar.name).getD [] = []
      rw [h.name, show rootName selfNamed.name = rootName cmdTar from rfl, Function.update_self]
      rfl
    have hread : readAt [] (s.afterHeader.afterOpen selfNamed.name).fdTar.pos tarSector = [] := by
      simp [readAt]
    rw [Untar.afterHeader, hempty, hread, putBytes_nil]
    exact hbuf

theorem Emptied.wp_round {s : Untar} {fuel : Nat} (h : Emptied s) :
    wp (round fuel) (fun next s' => next = .again ∧ Emptied s') (fun _ _ => True) s := by
  obtain ⟨b, l, hh, hbuf⟩ := h.header
  apply wp_mono (wp_round_empty hh hbuf selfNamed_ok.ne_nil selfNamed_ok.length
    selfNamed_ok.no_zero ⟨memberPath_of_name selfNamed_ok.length selfNamed_ok.no_slash, h.root⟩)
  · rintro next s' ⟨rfl, rfl⟩
    exact ⟨rfl, h.afterOpen⟩
  · intro _ _ hE
    exact hE

/-- Where a member is called `cmd.tar`, its `open` empties the archive that is being read, and the
loop goes on with the header that is still in the buffer. -/
theorem not_extracts_selfNamed :
    Archived [selfNamed] (tarArchive [selfNamed]) (installed [selfNamed]) ∧
      ¬ Extracts [selfNamed] (installed [selfNamed]) := by
  have hok : ∀ m ∈ [selfNamed], m.Ok := by
    intro m hm
    rw [List.mem_singleton.mp hm]
    exact selfNamed_ok
  have harchived := archived_installed hok (by decide)
  refine ⟨harchived, ?_⟩
  rintro ⟨fuel, s', hrun, -⟩
  have hemptied : Emptied (installed [selfNamed]).atArchive := by
    refine ⟨rfl, List.not_mem_nil, fun _ => 0, tarHeader selfNamed.name 0,
      isHeader_tarHeader (by decide), ?_⟩
    have hlen : tarSector = (tarHeader selfNamed.name 0).length :=
      (isHeader_tarHeader selfNamed_ok.length).length.symm
    have hread : readAt (tarArchive [selfNamed]) 0 tarSector = tarHeader selfNamed.name 0 := by
      rw [hlen, readAt, List.drop_zero, tarArchive, List.append_assoc, List.append_assoc]
      exact List.take_left
    change putBytes (fun _ => 0) 0 (readAt (tarArchive [selfNamed]) 0 tarSector) = _
    rw [hread]
  rw [untar, bind_of_ok (openTar_eq harchived.archive)] at hrun
  have hnever := @untarLoop_of_again _ fuel fuel _ (fun _ h => h.wp_round) hemptied
  exact wp_ok hnever hrun

end Untar

end BazingaOS
