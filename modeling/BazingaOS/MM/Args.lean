import BazingaOS.MM.Load

/-!
# Arguments of a program

`execv` of `lib/exec.c` builds a block of pointers and strings on the stack of the caller, and
`do_exec` moves it to the end of the image. The pointers are counted, with an assertion, before the
strings are stored, which nothing bounds; `do_exec` copies as many bytes as the message says.
-/

namespace BazingaOS

open Prog

/-- The array `stk` of `execv`, whose bytes may be stored behind its end, and the indices at which
bytes have been stored. -/
structure ArgStack where
  stk : Bytes := fun _ => 0
  written : List Nat := []

namespace Execv

def store (k : Nat) (l : List UInt8) : Prog ArgStack Unit :=
  modify fun t => { stk := putBytes t.stk k l, written := t.written ++ List.range' k l.length }

/-- The loop that counts the pointers. -/
def countArgs : List (List UInt8) → Nat → Prog ArgStack Nat
  | [], stackLen => return stackLen
  | _ :: l, stackLen => do
    check (stackLen + 2 * 4 < procOriginStack)
    countArgs l (stackLen + 4)

/-- The loop that stores a pointer at `q` and the string behind the block; `buf` is the address of
`stk`. The zero at the end of a string is stored twice. -/
def placeArgs (buf : Nat) : List (List UInt8) → Nat → Nat → Prog ArgStack Nat
  | [], _, stackLen => return stackLen
  | s :: l, q, stackLen => do
    store q (u32Bytes (buf + stackLen))
    store stackLen (s ++ [0])
    store (stackLen + s.length) [0]
    placeArgs buf l (q + 4) (stackLen + s.length + 1)

/-- The request that `execv` sends to MM; `path` is at the address `pathname`. -/
def execv (buf pathname : Nat) (path : List UInt8) (argv : List (List UInt8)) :
    Prog ArgStack Message := do
  let stackLen ← countArgs argv 0
  store stackLen (u32Bytes 0)
  let stackLen ← placeArgs buf argv 0 (stackLen + 4)
  return { type := .exec, m3p1 := pathname, m3i2 := path.length, m3p2 := buf, m3i3 := stackLen }

end Execv

/-- The strings of a block, each with its zero. -/
def argStrings (argv : List (List UInt8)) : List UInt8 := argv.flatMap (· ++ [0])

def argOffset (argv : List (List UInt8)) (i : Nat) : Nat :=
  4 * (argv.length + 1) + (argStrings (argv.take i)).length

/-- The pointers of a block at `base` whose strings start at index `n`. -/
def argPtrs (base : Nat) : List (List UInt8) → Nat → List Nat
  | [], _ => []
  | s :: l, n => (base + n) :: argPtrs base l (n + s.length + 1)

def blockLen (argv : List (List UInt8)) : Nat :=
  4 * (argv.length + 1) + (argv.map fun s => s.length + 1).sum

/-- `m` holds at `a` the block of `argv` with pointers for the address `base`. -/
structure ArgBlock (m : Bytes) (a base : Nat) (argv : List (List UInt8)) : Prop where
  pointer : ∀ i < argv.length, u32At m (a + 4 * i) = base + argOffset argv i
  null : u32At m (a + 4 * argv.length) = 0
  string : ∀ k (hk : k < (argStrings argv).length),
    m (a + 4 * (argv.length + 1) + k) = (argStrings argv)[k]

section Block

variable {argv l : List (List UInt8)} {base a n i k : Nat} {m : Bytes}

theorem argStrings_length : (argStrings argv).length = (argv.map fun s => s.length + 1).sum := by
  simp [argStrings, List.length_flatMap]

theorem blockLen_eq : blockLen argv = 4 * (argv.length + 1) + (argStrings argv).length := by
  rw [blockLen, argStrings_length]

@[simp] theorem argPtrs_length : (argPtrs base argv n).length = argv.length := by
  induction argv generalizing n with
  | nil => rfl
  | cons s l ih => simp [argPtrs, ih]

theorem argPtrs_getElem? (hi : i < argv.length) :
    (argPtrs base argv n)[i]? = some (base + (n + (argStrings (argv.take i)).length)) := by
  induction argv generalizing n i with
  | nil => simp at hi
  | cons s l ih =>
    cases i with
    | zero => simp [argPtrs, argStrings]
    | succ i =>
      rw [argPtrs, List.getElem?_cons_succ, ih (by simpa using hi)]
      simp only [argStrings, List.take_succ_cons, List.flatMap_cons, List.length_append,
        List.length_singleton]
      congr 1
      omega

theorem argStrings_split (hi : i < argv.length) : argStrings argv =
    argStrings (argv.take i) ++ (argv[i] ++ [0]) ++ argStrings (argv.drop (i + 1)) := by
  have hsplit : argv.take i ++ argv[i] :: argv.drop (i + 1) = argv := by
    rw [← List.drop_eq_getElem_cons hi, List.take_append_drop]
  calc argStrings argv = argStrings (argv.take i ++ argv[i] :: argv.drop (i + 1)) := by rw [hsplit]
    _ = _ := by
      simp only [argStrings, List.flatMap_append, List.flatMap_cons, List.append_assoc]

theorem argOffset_lt (hi : i < argv.length) :
    argOffset argv i + argv[i].length < blockLen argv := by
  have hlen := congrArg List.length (argStrings_split hi)
  simp only [List.length_append, List.length_singleton] at hlen
  rw [blockLen_eq, argOffset]
  omega

theorem argStrings_getElem (hi : i < argv.length) {j : Nat} (hj : j < argv[i].length + 1) :
    (argStrings argv)[(argStrings (argv.take i)).length + j]? = (argv[i] ++ [0])[j]? := by
  have hj' : j < (argv[i] ++ [0]).length := by simpa using hj
  rw [argStrings_split hi, List.append_assoc, List.getElem?_append_right (Nat.le_add_right _ _),
    Nat.add_sub_cancel_left, List.getElem?_append_left hj']

end Block

section Execv

variable {argv : List (List UInt8)} {buf pathname n q k : Nat} {path : List UInt8} {t t' : ArgStack}

@[simp] theorem wp_store {Q : Unit → ArgStack → Prop} {E : Stop → ArgStack → Prop}
    {l : List UInt8} : wp (Execv.store k l) Q E t ↔
      Q () { stk := putBytes t.stk k l, written := t.written ++ List.range' k l.length } := Iff.rfl

theorem countArgs_spec : wp (Execv.countArgs argv n)
    (fun r t' => r = n + 4 * argv.length ∧ t' = t ∧
      (argv ≠ [] → n + 4 * argv.length + 4 < procOriginStack))
    (fun w t' => w = .assertion ∧ t' = t ∧ procOriginStack ≤ n + 4 * argv.length + 4) t := by
  induction argv generalizing n with
  | nil => exact ⟨rfl, rfl, fun h => absurd rfl h⟩
  | cons s l ih =>
    simp only [Execv.countArgs, wp_bind, wp_check, List.length_cons]
    refine ⟨fun hcheck => ?_, fun hcheck => ⟨trivial, trivial, by omega⟩⟩
    apply wp_mono ih
    · rintro r t' ⟨rfl, rfl, hlen⟩
      refine ⟨by omega, rfl, fun _ => ?_⟩
      cases l with
      | nil => simpa using hcheck
      | cons s' l =>
        have hlt := hlen (by simp)
        simp only [List.length_cons] at hlt ⊢
        omega
    · rintro w t' ⟨rfl, rfl, hle⟩
      exact ⟨rfl, rfl, by omega⟩

/-- The pointers go in front of `stackLen`, the strings from `stackLen` on. -/
theorem placeArgs_spec (h : q + 4 * argv.length ≤ n) : wp (Execv.placeArgs buf argv q n)
    (fun r t' => r = n + (argStrings argv).length ∧
      t'.stk = putBytes (putBytes t.stk q ((argPtrs buf argv n).flatMap u32Bytes)) n
        (argStrings argv) ∧
      ∀ k, k ∈ t'.written ↔ k ∈ t.written ∨ (q ≤ k ∧ k < q + 4 * argv.length) ∨
        (n ≤ k ∧ k < n + (argStrings argv).length))
    (fun _ _ => False) t := by
  induction argv generalizing q n t with
  | nil =>
    refine ⟨rfl, ?_, fun k => ?_⟩
    · funext i
      simp [argPtrs, argStrings, putBytes]
    · simp [argStrings]
  | cons s l ih =>
    simp only [List.length_cons] at h
    simp only [Execv.placeArgs, wp_bind, wp_store]
    apply wp_mono (ih (by omega))
    · rintro r t' ⟨rfl, hstk, hwritten⟩
      have hstrings : argStrings (s :: l) = (s ++ [0]) ++ argStrings l := rfl
      have hlen : (argStrings (s :: l)).length = s.length + 1 + (argStrings l).length := by
        rw [hstrings, List.length_append, List.length_append, List.length_singleton]
      have hptrs : (argPtrs buf (s :: l) n).flatMap u32Bytes =
          u32Bytes (buf + n) ++ (argPtrs buf l (n + s.length + 1)).flatMap u32Bytes := rfl
      have hplen : ((argPtrs buf l (n + s.length + 1)).flatMap u32Bytes).length = 4 * l.length := by
        simp [List.length_flatMap]
        omega
      refine ⟨by omega, ?_, fun k => ?_⟩
      · -- the zero that `strcpy` has stored is stored again
        have htwice : putBytes (putBytes (putBytes t.stk q (u32Bytes (buf + n))) n (s ++ [0]))
            (n + s.length) [0] = putBytes (putBytes t.stk q (u32Bytes (buf + n))) n (s ++ [0]) := by
          rw [putBytes_append, putBytes_putBytes]
        have hsplit : ∀ X, putBytes X n ((s ++ [0]) ++ argStrings l) =
            putBytes (putBytes X n (s ++ [0])) (n + s.length + 1) (argStrings l) := by
          intro X
          rw [putBytes_append, List.length_append, List.length_singleton, Nat.add_assoc]
        have hsplit' : ∀ X P, putBytes X q (u32Bytes (buf + n) ++ P) =
            putBytes (putBytes X q (u32Bytes (buf + n))) (q + 4) P := by
          intro X P
          rw [putBytes_append, u32Bytes_length]
        have hcomm := @putBytes_comm (putBytes t.stk q (u32Bytes (buf + n))) (q + 4)
          ((argPtrs buf l (n + s.length + 1)).flatMap u32Bytes) n (s ++ [0]) (by omega)
        rw [hstk, htwice, hstrings, hptrs, hsplit, hsplit', hcomm]
      · rw [hwritten]
        simp only [List.mem_append, List.mem_range'_1, u32Bytes_length, List.length_append,
          List.length_cons, List.length_nil, hlen]
        by_cases hk : k ∈ t.written
        · simp [hk]
        · simp only [hk, false_or]
          omega
    · intro _ _ hfalse
      exact hfalse

theorem argBlock_of_stores {m : Bytes} (hwrap : buf + blockLen argv ≤ 0x100000000) :
    ArgBlock (putBytes (putBytes (putBytes m (4 * argv.length) (u32Bytes 0)) 0
        ((argPtrs buf argv (4 * (argv.length + 1))).flatMap u32Bytes)) (4 * (argv.length + 1))
      (argStrings argv)) 0 buf argv := by
  have hplen : ((argPtrs buf argv (4 * (argv.length + 1))).flatMap u32Bytes).length =
      4 * argv.length := by
    simp [List.length_flatMap]
    omega
  constructor
  · intro i hi
    have hptr := @argPtrs_getElem? argv buf (4 * (argv.length + 1)) i hi
    obtain ⟨hi', hval⟩ := List.getElem?_eq_some_iff.mp hptr
    have hoff : 4 * (argv.length + 1) + (argStrings (argv.take i)).length = argOffset argv i := rfl
    rw [hoff] at hval
    have hlt := argOffset_lt hi
    rw [u32At_putBytes_of_disjoint (.inr (by omega)), u32At_flatMap hi' (by omega), hval]
  · rw [u32At_putBytes_of_disjoint (.inr (by omega)), u32At_putBytes_of_disjoint (.inl (by omega)),
      Nat.zero_add]
    exact u32At_putBytes (by decide)
  · intro k hk
    rw [Nat.zero_add, putBytes_add hk]

/-- `execv` stores the block of its arguments from the start of `stk` on and nothing else, or stops
before it has stored anything. -/
theorem execv_spec : wp (Execv.execv buf pathname path argv)
    (fun msg t' => 4 * (argv.length + 1) < procOriginStack ∧
      msg = { type := .exec, m3p1 := pathname, m3i2 := path.length, m3p2 := buf,
              m3i3 := blockLen argv } ∧
      (buf + blockLen argv ≤ 0x100000000 → ArgBlock t'.stk 0 buf argv) ∧
      ∀ k, k ∈ t'.written ↔ k ∈ t.written ∨ k < blockLen argv)
    (fun w t' => w = .assertion ∧ t' = t ∧ procOriginStack ≤ 4 * (argv.length + 1)) t := by
  simp only [Execv.execv, wp_bind, wp_store, wp_pure]
  apply wp_mono countArgs_spec
  · rintro n t' ⟨rfl, rfl, hcheck⟩
    apply wp_mono (placeArgs_spec (by omega))
    · rintro n t'' ⟨rfl, hstk, hwritten⟩
      refine ⟨?_, ?_, fun hwrap => ?_, fun k => ?_⟩
      · by_cases hnil : argv = []
        · rw [hnil]
          decide
        · have hlt := hcheck hnil
          omega
      · have hlen : 0 + 4 * argv.length + 4 + (argStrings argv).length = blockLen argv := by
          rw [blockLen_eq]
          omega
        rw [hlen]
      · have hstart : 0 + 4 * argv.length + 4 = 4 * (argv.length + 1) := by omega
        rw [hstk, hstart, Nat.zero_add]
        exact argBlock_of_stores hwrap
      · rw [hwritten, blockLen_eq]
        simp only [List.mem_append, List.mem_range'_1, u32Bytes_length]
        by_cases hk : k ∈ t'.written
        · simp [hk]
        · simp only [hk, false_or]
          omega
    · intro _ _ hfalse
      exact hfalse.elim
  · rintro w t' ⟨rfl, rfl, hle⟩
    exact ⟨rfl, rfl, by omega⟩

end Execv

/-- What `do_exec` works on, with the numbers of bytes that its two copies of the argument block
move. -/
structure CopyLog where
  exec : ExecState
  copied : List Nat := []

namespace MM

def onExec {α : Type} (f : Prog ExecState α) : Prog CopyLog α := fun t =>
  match f t.exec with
  | .ok a u => .ok a { t with exec := u }
  | .stop w u => .stop w { t with exec := u }

def logCopy (n : Nat) : Prog CopyLog Unit := modify fun t => { t with copied := t.copied ++ [n] }

/-- `do_exec` from the copy of the argument stack on, with the sizes of its copies. `phys_copy`
counts with an unsigned number, and a copy over the end of `stk` goes on over the stack of MM. -/
def execArgsCopies (p : Pid) (msg : Message) (path : List UInt8) : Prog CopyLog Int := do
  logCopy (toU32 msg.m3i3)
  if msg.m3i3 < 0 ∨ procOriginStack < msg.m3i3.toNat then halt .undefined
  else
    let u := (← get).exec.user p
    match moveArgs ((stkPos : Int) - msg.m3p2) msg.m3i3.toNat
        (copyBytes (fun _ => 0) 0 u msg.m3p2 msg.m3i3.toNat) with
    | none => halt .undefined
    | some _ =>
      logCopy (toU32 msg.m3i3)
      onExec (execArgs p msg path)

def doExecCopies (files : ExecFiles) (p : Pid) (msg : Message) : Prog CopyLog Int := do
  match ← onExec (execLoad files p msg) with
  | none => return -1
  | some path => execArgsCopies p msg path

end MM

section Copies

variable {files : ExecFiles} {p : Pid} {msg : Message} {s s' : ExecState} {t : CopyLog}

@[simp] theorem wp_onExec {α : Type} {f : Prog ExecState α} {Q : α → CopyLog → Prop}
    {E : Stop → CopyLog → Prop} : wp (MM.onExec f) Q E t ↔
      wp f (fun a u => Q a { t with exec := u }) (fun w u => E w { t with exec := u }) t.exec := by
  unfold wp MM.onExec
  cases f t.exec <;> rfl

@[simp] theorem wp_logCopy {Q : Unit → CopyLog → Prop} {E : Stop → CopyLog → Prop} {n : Nat} :
    wp (MM.logCopy n) Q E t ↔ Q () { t with copied := t.copied ++ [n] } := Iff.rfl

theorem wp_execArgsCopies {Q : Int → ExecState → Prop} {E : Stop → ExecState → Prop}
    (path : List UInt8) :
    wp (MM.execArgsCopies p msg path) (fun r t' => Q r t'.exec) (fun w t' => E w t'.exec) t ↔
      wp (MM.execArgs p msg path) Q E t.exec := by
  simp only [MM.execArgsCopies, wp_bind, wp_logCopy, wp_ite, wp_halt, wp_get]
  by_cases hlen : msg.m3i3 < 0 ∨ procOriginStack < msg.m3i3.toNat
  · have hstop : wp (MM.execArgs p msg path) Q E t.exec ↔ E .undefined t.exec := by
      rw [MM.execArgs, if_pos hlen, wp_halt]
    rw [hstop]
    exact ⟨fun h => h.1 hlen, fun h => ⟨fun _ => h, fun hn => absurd hlen hn⟩⟩
  · cases hmove : MM.moveArgs ((stkPos : Int) - msg.m3p2) msg.m3i3.toNat
        (copyBytes (fun _ => 0) 0 (t.exec.user p) msg.m3p2 msg.m3i3.toNat) with
    | none =>
      have hstop : wp (MM.execArgs p msg path) Q E t.exec ↔ E .undefined t.exec := by
        simp only [MM.execArgs, if_neg hlen, wp_bind, wp_get, hmove, wp_halt]
      rw [hstop]
      exact ⟨fun h => h.2 hlen, fun h => ⟨fun hn => absurd hn hlen, fun _ => h⟩⟩
    | some r =>
      simp only [wp_bind, wp_logCopy, wp_onExec]
      exact ⟨fun h => h.2 hlen, fun h => ⟨fun hn => absurd hn hlen, fun _ => h⟩⟩

theorem wp_doExecCopies {Q : Int → ExecState → Prop} {E : Stop → ExecState → Prop} :
    wp (MM.doExecCopies files p msg) (fun r t' => Q r t'.exec) (fun w t' => E w t'.exec) t ↔
      wp (MM.doExec files p msg) Q E t.exec := by
  rw [wp_doExec]
  simp only [MM.doExecCopies, wp_bind, wp_onExec]
  constructor
  · intro h
    apply wp_mono h
    · intro r u hu
      cases r with
      | none => exact hu
      | some path => exact (wp_execArgsCopies path).mp hu
    · intro _ _ hE
      exact hE
  · intro h
    apply wp_mono h
    · intro r u hu
      cases r with
      | none => exact hu
      | some path => exact (wp_execArgsCopies path).mpr hu
    · intro _ _ hE
      exact hE

theorem execArgsCopies_copied (path : List UInt8) (ht : t.copied = []) :
    wp (MM.execArgsCopies p msg path)
      (fun _ t' => toU32 msg.m3i3 ∈ t'.copied ∧ ∀ n ∈ t'.copied, n = toU32 msg.m3i3)
      (fun _ t' => toU32 msg.m3i3 ∈ t'.copied ∧ ∀ n ∈ t'.copied, n = toU32 msg.m3i3) t := by
  simp only [MM.execArgsCopies, wp_bind, wp_logCopy, wp_ite, wp_halt, wp_get, ht]
  refine ⟨fun _ => by simp, fun _ => ?_⟩
  cases MM.moveArgs ((stkPos : Int) - msg.m3p2) msg.m3i3.toNat
      (copyBytes (fun _ => 0) 0 (t.exec.user p) msg.m3p2 msg.m3i3.toNat) with
  | none => simp
  | some r =>
    simp only [wp_bind, wp_logCopy, wp_onExec]
    apply wp_mono (wp_true _)
    · simp
    · simp

/-- `do_exec` gets to its copies of the argument block. -/
def Copies (files : ExecFiles) (p : Pid) (msg : Message) (s : ExecState) : Prop :=
  ∃ path s₁, MM.execLoad files p msg s = .ok (some path) s₁

theorem doExecCopies_copied : wp (MM.doExecCopies files p msg)
    (fun _ t' => (∀ n ∈ t'.copied, n = toU32 msg.m3i3) ∧
      (toU32 msg.m3i3 ∈ t'.copied ↔ Copies files p msg s))
    (fun _ t' => (∀ n ∈ t'.copied, n = toU32 msg.m3i3) ∧
      (toU32 msg.m3i3 ∈ t'.copied ↔ Copies files p msg s)) { exec := s } := by
  simp only [MM.doExecCopies, wp_bind, wp_onExec]
  have hcases : wp (MM.execLoad files p msg) (fun r s₁ => MM.execLoad files p msg s = .ok r s₁)
      (fun w s₁ => MM.execLoad files p msg s = .stop w s₁) s := by
    unfold wp
    cases MM.execLoad files p msg s <;> rfl
  apply wp_mono hcases
  · intro r s₁ hrun
    cases r with
    | none =>
      have hnot : ¬ Copies files p msg s := by
        rintro ⟨path, s₂, hrun'⟩
        rw [hrun] at hrun'
        cases hrun'
      simp [hnot]
    | some path =>
      have hcopies : Copies files p msg s := ⟨path, s₁, hrun⟩
      apply wp_mono (execArgsCopies_copied path rfl)
      · rintro _ t' ⟨hmem, hall⟩
        exact ⟨hall, fun _ => hcopies, fun _ => hmem⟩
      · rintro _ t' ⟨hmem, hall⟩
        exact ⟨hall, fun _ => hcopies, fun _ => hmem⟩
  · intro w s₁ hrun
    have hnot : ¬ Copies files p msg s := by
      rintro ⟨path, s₂, hrun'⟩
      rw [hrun] at hrun'
      cases hrun'
    simp [hnot]

end Copies

/-- `execv` stores inside its array when its assertions hold, and does not store anything when the
block is too long for it. -/
structure ExecvBounded (buf pathname : Nat) (path : List UInt8) (argv : List (List UInt8)) :
    Prop where
  inside : ∀ msg t, Execv.execv buf pathname path argv {} = .ok msg t →
    ∀ k ∈ t.written, k < procOriginStack
  refused : procOriginStack < blockLen argv →
    ∃ w t, Execv.execv buf pathname path argv {} = .stop w t ∧ t.written = []

/-- No copy of the argument block by `do_exec` is longer than its array. -/
def CopiesBounded (files : ExecFiles) (p : Pid) (msg : Message) (s : ExecState) : Prop :=
  ∀ n ∈ (MM.doExecCopies files p msg { exec := s }).state.copied, n ≤ procOriginStack

section Bounded

variable {buf pathname : Nat} {path : List UInt8} {argv : List (List UInt8)} {files : ExecFiles}
  {p : Pid} {msg : Message} {s : ExecState}

theorem execvBounded_iff : ExecvBounded buf pathname path argv ↔
    blockLen argv ≤ procOriginStack ∨ procOriginStack ≤ 4 * (argv.length + 1) := by
  have hspec := @execv_spec argv buf pathname path {}
  constructor
  · intro hbounded
    by_contra hnot
    rw [not_or] at hnot
    cases hrun : Execv.execv buf pathname path argv {} with
    | ok msg t =>
      have hwritten := (wp_ok hspec hrun).2.2.2 procOriginStack
      have hlt := hbounded.inside msg t hrun _ (hwritten.mpr (.inr (by omega)))
      omega
    | stop w t =>
      have hle := (wp_stop hspec hrun).2.2
      omega
  · intro hfits
    constructor
    · intro msg t hrun k hk
      obtain ⟨hcount, -, -, hwritten⟩ := wp_ok hspec hrun
      have hlt : k < blockLen argv := by simpa using (hwritten k).mp hk
      omega
    · intro hlong
      cases hrun : Execv.execv buf pathname path argv {} with
      | ok msg t =>
        have hcount := (wp_ok hspec hrun).1
        omega
      | stop w t =>
        obtain ⟨-, rfl, -⟩ := wp_stop hspec hrun
        exact ⟨w, _, rfl, rfl⟩

theorem copiesBounded_iff (hint : InI32 msg.m3i3) : CopiesBounded files p msg s ↔
    (Copies files p msg s → 0 ≤ msg.m3i3 ∧ msg.m3i3 ≤ procOriginStack) := by
  obtain ⟨hall, hmem⟩ := wp_state (@doExecCopies_copied files p msg s)
  have hsize : toU32 msg.m3i3 ≤ procOriginStack ↔ 0 ≤ msg.m3i3 ∧ msg.m3i3 ≤ procOriginStack := by
    obtain ⟨hlow, hhigh⟩ := hint
    unfold toU32 procOriginStack
    omega
  constructor
  · intro hbounded hcopies
    exact hsize.mp (hbounded _ (hmem.mpr hcopies))
  · intro hlen n hn
    have heq := hall n hn
    subst heq
    exact hsize.mpr (hlen (hmem.mp hn))

/-- The blocks of arguments stay inside their arrays exactly if `execv` is given a block that fits, or
so many arguments that it counts too many, and `do_exec` a length between zero and that of its
array. -/
theorem argBlocks_bounded_iff (hint : InI32 msg.m3i3) :
    ExecvBounded buf pathname path argv ∧ CopiesBounded files p msg s ↔
      (blockLen argv ≤ procOriginStack ∨ procOriginStack ≤ 4 * (argv.length + 1)) ∧
      (Copies files p msg s → 0 ≤ msg.m3i3 ∧ msg.m3i3 ≤ procOriginStack) := by
  rw [execvBounded_iff, copiesBounded_iff hint]

theorem argBlocks_bounded_short : ExecvBounded 0x8000 0 [] [[65, 66]] ∧
    CopiesBounded (fun _ => elfOf 0x1000 8 [1, 2, 3, 4]) init { m3p2 := 0x2000, m3i3 := 4 } {} :=
  (argBlocks_bounded_iff (by decide)).mpr ⟨.inl (by decide), fun _ => by decide⟩

/-- A string of 1100 bytes is stored behind the end of the array, and a message can ask for a copy of
4096 bytes. -/
theorem not_argBlocks_bounded : ¬ ExecvBounded 0x8000 0 [] [List.replicate 1100 65] ∧
    ¬ CopiesBounded (fun _ => elfOf 0x1000 8 [1, 2, 3, 4]) init { m3p2 := 0x2000, m3i3 := 4096 }
      {} := by
  constructor
  · have hlen : blockLen [List.replicate 1100 65] = 1109 := by
      rw [blockLen, List.map_singleton, List.length_replicate]
      rfl
    rw [execvBounded_iff, hlen]
    decide
  · rw [copiesBounded_iff (by decide)]
    intro hlen
    have hcopies : Copies (fun _ => elfOf 0x1000 8 [1, 2, 3, 4]) init
        { m3p2 := 0x2000, m3i3 := 4096 } {} :=
      ⟨[], _, Result.eq_ok_of_valueOf (by decide +kernel)⟩
    exact absurd (hlen hcopies) (by decide)

end Bounded

/-- The argument stack of `do_exec` with its first `n` pointers moved by `delta`. -/
def movedStk (delta : Int) (n : Nat) (stk : Bytes) : Bytes :=
  (List.range n).foldl (fun b j =>
    putBytes b (4 * j) (u32Bytes (((u32At stk (4 * j) + delta) % 0x100000000).toNat))) stk

section Moved

variable {delta : Int} {n len i j k : Nat} {stk stk' m m' : Bytes} {a a' base : Nat}
  {argv : List (List UInt8)}

theorem movedStk_word (hj : j < n) :
    u32At (movedStk delta n stk) (4 * j) = ((u32At stk (4 * j) + delta) % 0x100000000).toNat := by
  induction n with
  | zero => omega
  | succ n ih =>
    have hstep : movedStk delta (n + 1) stk = putBytes (movedStk delta n stk) (4 * n)
        (u32Bytes (((u32At stk (4 * n) + delta) % 0x100000000).toNat)) := by
      simp [movedStk, List.range_succ]
    rw [hstep]
    rcases Nat.lt_succ_iff_lt_or_eq.mp hj with hlt | rfl
    · rw [u32At_putBytes_of_disjoint (.inr (by omega)), ih hlt]
    · exact u32At_putBytes (by omega)

theorem movedStk_rest (hk : 4 * n ≤ k) : movedStk delta n stk k = stk k := by
  induction n with
  | zero => rfl
  | succ n ih =>
    have hstep : movedStk delta (n + 1) stk = putBytes (movedStk delta n stk) (4 * n)
        (u32Bytes (((u32At stk (4 * n) + delta) % 0x100000000).toNat)) := by
      simp [movedStk, List.range_succ]
    rw [hstep, putBytes_of_ge (by rw [u32Bytes_length]; omega), ih (by omega)]

theorem moveArgs_eq_some : MM.moveArgs delta len stk = some (n, stk') ↔
    (n < len / 4 ∧ u32At stk (4 * n) = 0 ∧ ∀ j < n, u32At stk (4 * j) ≠ 0) ∧
      stk' = movedStk delta n stk := by
  unfold MM.moveArgs
  rw [Option.map_eq_some_iff]
  constructor
  · rintro ⟨argc, hfind, heq⟩
    obtain ⟨rfl, rfl⟩ := Prod.mk.inj heq
    obtain ⟨hzero, hmem, hbefore⟩ := List.find?_range_eq_some.mp hfind
    exact ⟨⟨List.mem_range.mp hmem, by simpa using hzero, fun j hj => by simpa using hbefore j hj⟩,
      rfl⟩
  · rintro ⟨⟨hlt, hzero, hbefore⟩, rfl⟩
    refine ⟨n, List.find?_range_eq_some.mpr ⟨by simpa using hzero, List.mem_range.mpr hlt, ?_⟩, rfl⟩
    intro j hj
    simpa using hbefore j hj

theorem ArgBlock.congr (h : ArgBlock m a base argv)
    (hm : ∀ k < blockLen argv, m' (a' + k) = m (a + k)) : ArgBlock m' a' base argv := by
  rw [blockLen_eq] at hm
  have hword : ∀ b, b + 4 ≤ 4 * (argv.length + 1) → u32At m' (a' + b) = u32At m (a + b) := by
    intro b hb
    apply u32At_shift
    intro i hi
    rw [Nat.add_assoc, Nat.add_assoc]
    exact hm _ (by omega)
  constructor
  · intro i hi
    rw [hword _ (by omega), h.pointer i hi]
  · rw [hword _ (by omega), h.null]
  · intro k hk
    rw [← h.string k hk, Nat.add_assoc, Nat.add_assoc]
    exact hm _ (by omega)

theorem ArgBlock.bytes (h : ArgBlock m a base argv) (h' : ArgBlock m' a' base argv)
    (hk : k < blockLen argv) : m' (a' + k) = m (a + k) := by
  rw [blockLen_eq] at hk
  have hword : ∀ i, i ≤ argv.length → u32At m' (a' + 4 * i) = u32At m (a + 4 * i) := by
    intro i hi
    rcases Nat.lt_or_eq_of_le hi with hlt | rfl
    · rw [h.pointer i hlt, h'.pointer i hlt]
    · rw [h.null, h'.null]
  rcases Nat.lt_or_ge k (4 * (argv.length + 1)) with hlt | hge
  · have hbyte := @u32At_inj _ _ _ _ (hword (k / 4) (by omega)) (k % 4) (by omega)
    have hsplit : 4 * (k / 4) + k % 4 = k := by omega
    rwa [Nat.add_assoc, Nat.add_assoc, hsplit] at hbyte
  · obtain ⟨j, rfl⟩ := Nat.exists_eq_add_of_le hge
    have hj : j < (argStrings argv).length := by omega
    rw [← Nat.add_assoc, ← Nat.add_assoc, h.string j hj, h'.string j hj]

/-- The loop of `do_exec` turns a block for the address `buf` into one for the end of the image, and
makes such a block of no other bytes. -/
theorem argBlock_moved_iff {buf : Nat} (hbuf : buf + blockLen argv ≤ 0x100000000)
    (hlen : blockLen argv ≤ procOriginStack)
    (hmove : MM.moveArgs ((stkPos : Int) - buf) (blockLen argv) stk = some (n, stk')) :
    ArgBlock stk 0 buf argv ↔ n = argv.length ∧ ArgBlock stk' 0 stkPos argv := by
  obtain ⟨⟨-, hzero, hbefore⟩, rfl⟩ := moveArgs_eq_some.mp hmove
  have hstk : stkPos = 0xFFC00 := rfl
  have hoff : ∀ i < argv.length, 4 ≤ argOffset argv i ∧ argOffset argv i < blockLen argv := by
    intro i hi
    have hlt := argOffset_lt hi
    refine ⟨?_, by omega⟩
    unfold argOffset
    omega
  unfold procOriginStack at hlen
  constructor
  · intro h
    have hn : n = argv.length := by
      rcases Nat.lt_trichotomy n argv.length with hlt | heq | hgt
      · have hptr := h.pointer n hlt
        have hlow := hoff n hlt
        rw [Nat.zero_add] at hptr
        omega
      · exact heq
      · have hnull := h.null
        rw [Nat.zero_add] at hnull
        exact absurd hnull (hbefore _ hgt)
    subst hn
    refine ⟨rfl, fun i hi => ?_, ?_, fun k hk => ?_⟩
    · have hptr := h.pointer i hi
      have hlow := hoff i hi
      rw [Nat.zero_add] at hptr ⊢
      rw [movedStk_word hi, hptr]
      omega
    · rw [Nat.zero_add, ← hzero]
      exact u32At_congr fun j hj _ => movedStk_rest hj
    · rw [movedStk_rest (by omega)]
      exact h.string k hk
  · rintro ⟨rfl, h⟩
    refine ⟨fun i hi => ?_, ?_, fun k hk => ?_⟩
    · have hptr := h.pointer i hi
      have hlow := hoff i hi
      have hword := u32At_lt stk (4 * i)
      rw [Nat.zero_add] at hptr ⊢
      rw [movedStk_word hi] at hptr
      omega
    · rw [Nat.zero_add]
      exact hzero
    · rw [← h.string k hk, movedStk_rest (by omega)]

end Moved

/-- `p` continues with its arguments: `ecx` is their number, and `eax` and `esp` are the address of
a block with a pointer for each argument, a zero, and the strings to which the pointers go. -/
structure ArgsPassed (argv : List (List UInt8)) (p : Pid) (s : ExecState) : Prop where
  ecx : (s.regs p).ecx = argv.length
  eax : (s.regs p).eax = stkPos
  esp : (s.regs p).esp = stkPos
  arg : ∀ i (hi : i < argv.length), ∃ o, u32At (s.user p) (stkPos + 4 * i) = stkPos + o ∧
    o + argv[i].length < blockLen argv ∧
    (∀ j (hj : j < argv[i].length), s.user p (stkPos + o + j) = argv[i][j]) ∧
    s.user p (stkPos + o + argv[i].length) = 0
  null : u32At (s.user p) (stkPos + 4 * argv.length) = 0

/-- The arguments of `p` are in the order in which `execv` has stored them. -/
structure ArgsMoved (argv : List (List UInt8)) (p : Pid) (s : ExecState) : Prop where
  regs : (s.regs p).ecx = argv.length ∧ (s.regs p).eax = stkPos ∧ (s.regs p).esp = stkPos
  block : ArgBlock (s.user p) stkPos stkPos argv

section Passed

variable {buf pathname : Nat} {path : List UInt8} {argv : List (List UInt8)} {files : ExecFiles}
  {p : Pid} {msg : Message} {s s' : ExecState} {t : ArgStack}

theorem ArgsMoved.passed (h : ArgsMoved argv p s) : ArgsPassed argv p s where
  ecx := h.regs.1
  eax := h.regs.2.1
  esp := h.regs.2.2
  null := h.block.null
  arg i hi := by
    have hbyte : ∀ j (hj : j < (argv[i] ++ [0]).length),
        s.user p (stkPos + argOffset argv i + j) = (argv[i] ++ [0])[j] := by
      intro j hj
      have hget := argStrings_getElem hi (j := j) (by simpa using hj)
      rw [List.getElem?_eq_getElem hj] at hget
      obtain ⟨hk, hval⟩ := List.getElem?_eq_some_iff.mp hget
      rw [← hval, ← h.block.string _ hk, argOffset]
      congr 1
      omega
    refine ⟨argOffset argv i, h.block.pointer i hi, argOffset_lt hi, fun j hj => ?_, ?_⟩
    · rw [hbyte j (by rw [List.length_append]; omega), List.getElem_append_left hj]
    · rw [hbyte _ (by simp), List.getElem_append_right (Nat.le_refl _)]
      simp

theorem execImage_of_misses
    (h : ∀ i < ePhnum (execBuf files p msg s), (programHeader (execBuf files p msg s) i).IsLoad →
      ∀ k < blockLen argv, (programHeader (execBuf files p msg s) i).Misses (buf + k)) :
    ∀ k < blockLen argv, execImage files p msg s (buf + k) = s.user p (buf + k) :=
  fun k hk => laidOver_of_misses fun i hi hload => h i hi hload k hk

/-- The arguments that `execv` has put into a block get to the new program, in their order, exactly
if laying the segments of the file over the image changes no byte of the block. -/
theorem argsPassed_iff (hlen : blockLen argv ≤ procOriginStack)
    (hbuf : buf + procOriginStack ≤ procDefaultImgSize)
    (hexecv : Execv.execv buf pathname path argv {} = .ok msg t)
    (huser : ∀ k < blockLen argv, s.user p (buf + k) = t.stk k)
    (hrun : MM.doExec files p msg s = .ok 0 s') :
    ((∀ k < blockLen argv, execImage files p msg s (buf + k) = s.user p (buf + k)) ↔
      ArgsMoved argv p s') ∧ (ArgsMoved argv p s' → ArgsPassed argv p s') := by
  refine ⟨?_, fun h => h.passed⟩
  have himg : procOriginStack = 0x400 ∧ procDefaultImgSize = 0x100000 := ⟨rfl, rfl⟩
  obtain ⟨-, hmsg, hblock, -⟩ := wp_ok execv_spec hexecv
  have hbufOf : msg.m3p2 = buf := by rw [hmsg]
  have hlenOf : msg.m3i3.toNat = blockLen argv := by rw [hmsg, Int.toNat_natCast]
  have hstored : ArgBlock (s.user p) buf buf argv := by
    apply (hblock (by omega)).congr
    intro k hk
    rw [huser k hk, Nat.zero_add]
  obtain ⟨argc, stk, hmove, hnew, hregs⟩ := (execed_of_run hrun).args
  rw [hlenOf, hbufOf] at hmove
  rw [hlenOf] at hnew
  have hcopied : ∀ k < blockLen argv,
      copyBytes (fun _ => 0) 0 (execImage files p msg s) buf (blockLen argv) (0 + k) =
        execImage files p msg s (buf + k) := fun k hk => copyBytes_add hk
  have hplaced : ∀ k < blockLen argv, s'.user p (stkPos + k) = stk (0 + k) := by
    intro k hk
    rw [hnew, copyBytes_add hk]
  have hmoved := argBlock_moved_iff (by omega) hlen hmove
  constructor
  · intro hkept
    have himage := hstored.congr hkept
    obtain ⟨rfl, hdone⟩ := hmoved.mp (himage.congr hcopied)
    refine ⟨?_, hdone.congr hplaced⟩
    rw [hregs]
    exact ⟨rfl, rfl, rfl⟩
  · rintro ⟨hregs', hdone⟩
    have hargc : argc = argv.length := by
      rw [hregs] at hregs'
      exact hregs'.1
    have hdone' : ArgBlock stk 0 stkPos argv := hdone.congr fun k hk => (hplaced k hk).symm
    have hstk := hmoved.mpr ⟨hargc, hdone'⟩
    have himage := hstk.congr fun k hk => (hcopied k hk).symm
    exact fun k hk => hstored.bytes himage hk

private def twoArgs : List (List UInt8) := [[65], []]

private def twoArgsStack : ArgStack := (Execv.execv 0x8000 0 [] twoArgs {}).state

private def twoArgsMsg : Message := { type := .exec, m3p2 := 0x8000, m3i3 := 15 }

private def twoArgsImage : ExecState where
  user _ := copyBytes (fun _ => 0) 0x8000 twoArgsStack.stk 0 15

private theorem twoArgs_execv :
    Execv.execv 0x8000 0 [] twoArgs {} = .ok twoArgsMsg twoArgsStack :=
  Result.eq_ok_of_valueOf (by decide +kernel)

private theorem twoArgs_user : ∀ k < blockLen twoArgs,
    twoArgsImage.user ⟨7, by decide⟩ (0x8000 + k) = twoArgsStack.stk k := by
  intro k hk
  have h := @copyBytes_add (fun _ => 0) twoArgsStack.stk 0x8000 0 _ _ hk
  rwa [Nat.zero_add] at h

theorem argsPassed_two : ∃ s', MM.doExec (fun _ => elfOf 0x1000 8 [1, 2, 3, 4]) ⟨7, by decide⟩
      twoArgsMsg twoArgsImage = .ok 0 s' ∧ ArgsPassed twoArgs ⟨7, by decide⟩ s' := by
  have hrun := @Result.eq_ok_of_valueOf _ _ (MM.doExec (fun _ => elfOf 0x1000 8 [1, 2, 3, 4])
    ⟨7, by decide⟩ twoArgsMsg twoArgsImage) 0 (by decide +kernel)
  have hiff := argsPassed_iff (by decide) (by decide) twoArgs_execv twoArgs_user hrun
  exact ⟨_, hrun, hiff.2 (hiff.1.mp (by decide +kernel))⟩

/-- A program that is loaded over the block gets none of its two arguments. -/
theorem not_argsPassed_two : ∃ s', MM.doExec (fun _ => elfOf 0x8000 4 [0, 0, 0, 0]) ⟨7, by decide⟩
      twoArgsMsg twoArgsImage = .ok 0 s' ∧
    Execv.execv 0x8000 0 [] twoArgs {} = .ok twoArgsMsg twoArgsStack ∧
    (∀ k < blockLen twoArgs,
      twoArgsImage.user ⟨7, by decide⟩ (0x8000 + k) = twoArgsStack.stk k) ∧
    ¬ ArgsPassed twoArgs ⟨7, by decide⟩ s' := by
  have hrun := @Result.eq_ok_of_valueOf _ _ (MM.doExec (fun _ => elfOf 0x8000 4 [0, 0, 0, 0])
    ⟨7, by decide⟩ twoArgsMsg twoArgsImage) 0 (by decide +kernel)
  refine ⟨_, hrun, twoArgs_execv, twoArgs_user, fun hpassed => ?_⟩
  have hecx : ((MM.doExec (fun _ => elfOf 0x8000 4 [0, 0, 0, 0]) ⟨7, by decide⟩ twoArgsMsg
      twoArgsImage).state.regs ⟨7, by decide⟩).ecx = 0 := by decide +kernel
  have htwo := hpassed.ecx
  rw [hecx] at htwo
  exact absurd htwo (by decide)

end Passed

end BazingaOS
