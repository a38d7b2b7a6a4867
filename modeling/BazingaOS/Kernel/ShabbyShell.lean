import BazingaOS.Lib.CString
import BazingaOS.Lib.Loop
import BazingaOS.Lib.Words
import BazingaOS.MM.Exec

/-!
# The command line

The loop of `shabby_shell` in `kernel/main.c` that splits the line in `rdbuf` into words. The words
stay where they are; the space behind a word becomes the zero that ends it, and `argv` points to
their first characters.
-/

namespace BazingaOS

open Prog

def rdbufSize : Nat := 70

def isSpace (c : UInt8) : Bool := c == 32

/-- The variables of the loop; a pointer is an index in `rdbuf`, or null. -/
structure ShellLine where
  rdbuf : Bytes
  argv : Nat → Option Nat
  argc : Nat
  word : Bool
  s : Nat

namespace Shell

def setArg (v : Option Nat) : Prog ShellLine Unit := do
  let i := (← get).argc
  if i < procOriginStack then modify fun t => { t with argv := Function.update t.argv i v }
  else halt .undefined

/-- The round at the character `p`: where `p` is behind it, if it is the last one. -/
def splitChar (p : Nat) : Prog ShellLine (Option Nat) := do
  let c := (← get).rdbuf p
  when ((← get).word = false ∧ (← get).rdbuf p ≠ 32 ∧ (← get).rdbuf p ≠ 0)
    (modify fun t => { t with word := true, s := p })
  when ((← get).word = true ∧ ((← get).rdbuf p = 32 ∨ (← get).rdbuf p = 0)) do
    setArg (some (← get).s)
    modify fun t => { t with
      argc := t.argc + 1
      word := false
      rdbuf := Function.update t.rdbuf p 0 }
  if c = 0 then return some (p + 1) else return none

/-- A line without a zero makes the loop read behind the buffer. -/
def splitLine : Prog ShellLine Nat := do
  modify fun t => { t with word := false, argc := 0 }
  match ← scan splitChar rdbufSize 0 with
  | none => halt .undefined
  | some p =>
    setArg none
    return p

end Shell

/-- `argv` has the words in order, each with its zero, in front of index `b` of the buffer. -/
structure Collected (ws : List (List UInt8)) (b : Nat) (t : ShellLine) : Prop where
  argc : t.argc = ws.length
  room : ws.length ≤ b
  arg : ∀ i (h : i < ws.length), ∃ a, t.argv i = some a ∧ IsCString t.rdbuf a ws[i] ∧
    a + ws[i].length < b

/-- In front of a round: `ws` are the words behind which the loop is, `cur` is the part of a word
that it has read, from `b` on, and `rest` is the part of the line that it has not. -/
structure Splitting (line : List UInt8) (ws : List (List UInt8)) (cur rest : List UInt8) (b : Nat)
    (t : ShellLine) : Prop where
  collected : Collected ws b t
  split : words isSpace line = ws ++ words isSpace (cur ++ rest)
  length : b + (cur ++ rest).length = line.length
  text : IsCString t.rdbuf b (cur ++ rest)
  noSpace : ∀ c ∈ cur, isSpace c = false
  inWord : t.word = true ↔ cur ≠ []
  start : cur ≠ [] → t.s = b

/-- The command line is split into its words. -/
structure SplitInto (line : List UInt8) (t : ShellLine) : Prop where
  argc : t.argc = (words isSpace line).length
  arg : ∀ i (h : i < (words isSpace line).length), ∃ a, t.argv i = some a ∧
    IsCString t.rdbuf a (words isSpace line)[i]
  null : t.argv t.argc = none

/-- The word that has been read is stored, and the character behind it becomes its zero. -/
def ShellLine.endWord (t : ShellLine) (p : Nat) : ShellLine where
  rdbuf := Function.update t.rdbuf p 0
  argv := Function.update t.argv t.argc (some t.s)
  argc := t.argc + 1
  word := false
  s := t.s

section Rounds

variable {line cur rest : List UInt8} {ws : List (List UInt8)} {b b' p : Nat} {c : UInt8}
  {t : ShellLine}

theorem isSpace_iff : isSpace c = true ↔ c = 32 := by
  rw [isSpace, beq_iff_eq]

theorem Collected.mono (h : Collected ws b t) (hle : b ≤ b') : Collected ws b' t where
  argc := h.argc
  room := Nat.le_trans h.room hle
  arg i hi := by
    obtain ⟨a, hargv, htext, hlt⟩ := h.arg i hi
    exact ⟨a, hargv, htext, Nat.lt_of_lt_of_le hlt hle⟩

theorem Splitting.endWord (h : Splitting line ws cur rest b t) (hne : cur ≠ []) :
    Collected (ws ++ [cur]) (b + cur.length + 1) (t.endWord (b + cur.length)) := by
  obtain ⟨hargc, hroom, harg⟩ := h.collected
  have hpos := List.length_pos_iff.mpr hne
  have hlen : (ws ++ [cur]).length = ws.length + 1 := by simp
  refine ⟨?_, by omega, ?_⟩
  · rw [hlen, ← hargc]
    rfl
  · intro i hi
    rcases Nat.lt_or_ge i ws.length with hlt | hge
    · obtain ⟨a, hargv, htext, ha⟩ := harg i hlt
      rw [List.getElem_append_left hlt]
      refine ⟨a, ?_, htext.update (.inr (by omega)), by omega⟩
      exact (Function.update_of_ne (by omega) _ _).trans hargv
    · obtain rfl : i = ws.length := by omega
      rw [List.getElem_concat_length rfl]
      refine ⟨b, ?_, h.text.cut, by omega⟩
      change Function.update t.argv t.argc (some t.s) ws.length = _
      rw [← hargc, Function.update_self, h.start hne]

theorem Splitting.outside (h : Splitting line ws [] rest b t) : t.word = false := by
  rw [← Bool.not_eq_true, h.inWord, not_not]

theorem Splitting.argc_lt (h : Splitting line ws cur rest b t) (hlen : line.length < rdbufSize) :
    t.argc < procOriginStack := by
  have hb := h.length
  have hws := h.collected.room
  have hstack : rdbufSize < procOriginStack := by decide
  rw [h.collected.argc]
  omega

theorem Splitting.stop (h : Splitting line ws cur [] b t) (hne : cur ≠ []) :
    words isSpace line = ws ++ [cur] := by
  rw [h.split, List.append_nil, words_of_no_sep h.noSpace hne]

theorem Splitting.space (h : Splitting line ws cur (32 :: rest) b t) (hne : cur ≠ []) :
    Splitting line (ws ++ [cur]) [] rest (b + cur.length + 1) (t.endWord (b + cur.length)) where
  collected := h.endWord hne
  split := by
    rw [h.split, words_append_sep h.noSpace hne rfl, List.append_assoc]
    rfl
  length := by
    have hlen := h.length
    rw [List.length_append, List.length_cons] at hlen
    rw [List.nil_append]
    omega
  text := (h.text.drop.tail).update (.inl (by omega))
  noSpace c hc := absurd hc List.not_mem_nil
  inWord := by simp [ShellLine.endWord]
  start hnil := absurd rfl hnil

theorem Splitting.skip (h : Splitting line ws [] (32 :: rest) b t) :
    Splitting line ws [] rest (b + 1) t where
  collected := h.collected.mono (Nat.le_succ b)
  split := by
    rw [h.split, List.nil_append, words_cons_of_sep rfl, List.nil_append]
  length := by
    rw [← h.length, List.nil_append, List.nil_append, List.length_cons]
    omega
  text := h.text.tail
  noSpace c hc := absurd hc List.not_mem_nil
  inWord := h.inWord
  start hnil := absurd rfl hnil

theorem Splitting.letter (h : Splitting line ws cur (c :: rest) b t) (hc : isSpace c = false) :
    Splitting line ws (cur ++ [c]) rest b
      (if t.word then t else { t with word := true, s := b + cur.length }) := by
  have happ : cur ++ [c] ++ rest = cur ++ c :: rest := by simp
  have hne : cur ++ [c] ≠ [] := by simp
  have hspace : ∀ x ∈ cur ++ [c], isSpace x = false := by
    intro x hx
    rcases List.mem_append.mp hx with hmem | hlast
    · exact h.noSpace x hmem
    · rw [List.mem_singleton.mp hlast]
      exact hc
  cases hword : t.word with
  | true =>
    exact ⟨h.collected, happ ▸ h.split, happ ▸ h.length, happ ▸ h.text, hspace,
      iff_of_true hword hne, fun _ => h.start (h.inWord.mp hword)⟩
  | false =>
    have hnil : cur = [] := by
      by_contra hcur
      rw [h.inWord.mpr hcur] at hword
      cases hword
    subst hnil
    exact ⟨⟨h.collected.argc, h.collected.room, h.collected.arg⟩, happ ▸ h.split, happ ▸ h.length,
      happ ▸ h.text, hspace, iff_of_true rfl hne, fun _ => rfl⟩

end Rounds

namespace Shell

section Program

variable {line cur rest : List UInt8} {ws : List (List UInt8)} {b p : Nat} {t : ShellLine}

theorem splitChar_letter (hc : isSpace (t.rdbuf p) = false) (hzero : t.rdbuf p ≠ 0) :
    splitChar p t = .ok none (if t.word then t else { t with word := true, s := p }) := by
  have hspace : t.rdbuf p ≠ 32 := fun h => Bool.eq_false_iff.mp hc (isSpace_iff.mpr h)
  apply wp_ok_iff.mp
  simp only [splitChar, wp_bind, wp_get, wp_when, wp_ite, wp_pure, wp_modify, hspace, hzero,
    or_self, and_false, false_imp_iff, not_false_eq_true, true_imp_iff, true_and, ne_eq]
  cases hword : t.word <;> simp

theorem splitChar_outside (hc : t.rdbuf p = 32 ∨ t.rdbuf p = 0) (hword : t.word = false) :
    splitChar p t = .ok (if t.rdbuf p = 0 then some (p + 1) else none) t := by
  have hletter : ¬ (t.rdbuf p ≠ 32 ∧ t.rdbuf p ≠ 0) := by
    rintro ⟨hspace, hzero⟩
    exact hc.elim hspace hzero
  apply wp_ok_iff.mp
  simp only [splitChar, wp_bind, wp_get, wp_when, wp_ite, wp_pure, hword, hletter, and_false,
    Bool.false_eq_true, false_and, false_imp_iff, not_false_eq_true, true_imp_iff, true_and]
  by_cases hzero : t.rdbuf p = 0 <;> simp [hzero]

theorem splitChar_endWord (hc : t.rdbuf p = 32 ∨ t.rdbuf p = 0) (hword : t.word = true)
    (hroom : t.argc < procOriginStack) :
    splitChar p t = .ok (if t.rdbuf p = 0 then some (p + 1) else none) (t.endWord p) := by
  apply wp_ok_iff.mp
  simp only [splitChar, setArg, wp_bind, wp_get, wp_when, wp_ite, wp_pure, wp_modify, hword, hc,
    hroom, Bool.true_eq_false, and_self, false_and, false_imp_iff, not_false_eq_true,
    true_imp_iff, not_true_eq_false, true_and, and_true]
  by_cases hzero : t.rdbuf p = 0 <;> simp [hzero, ShellLine.endWord]

theorem splitChar_stop (h : Splitting line ws cur [] b t) (hlen : line.length < rdbufSize) :
    ∃ t', splitChar (b + cur.length) t = .ok (some (line.length + 1)) t' ∧
      Collected (words isSpace line) (line.length + 1) t' := by
  have hzero : t.rdbuf (b + cur.length) = 0 := h.text.drop.head
  have hb : b + cur.length + 1 = line.length + 1 := by
    rw [← h.length, List.append_nil]
  by_cases hcur : cur = []
  · subst hcur
    have hws : words isSpace line = ws := by
      rw [h.split, List.nil_append, words_nil, List.append_nil]
    rw [splitChar_outside (.inr hzero) h.outside, if_pos hzero, hb, hws, ← hb]
    exact ⟨t, rfl, h.collected.mono (by omega)⟩
  · rw [splitChar_endWord (.inr hzero) (h.inWord.mpr hcur) (h.argc_lt hlen), if_pos hzero, hb,
      h.stop hcur, ← hb]
    exact ⟨_, rfl, h.endWord hcur⟩

theorem splitChar_next {c : UInt8} (h : Splitting line ws cur (c :: rest) b t)
    (hlen : line.length < rdbufSize) : ∃ ws' cur' b' t',
    splitChar (b + cur.length) t = .ok none t' ∧ b + cur.length + 1 = b' + cur'.length ∧
      Splitting line ws' cur' rest b' t' := by
  have hc : t.rdbuf (b + cur.length) = c := h.text.drop.head
  have hne : c ≠ 0 := fun h0 => h.text.ne_zero (by simp [h0])
  have hnezero : t.rdbuf (b + cur.length) ≠ 0 := hc ▸ hne
  cases hspace : isSpace c with
  | false =>
    rw [splitChar_letter (hc ▸ hspace) hnezero]
    exact ⟨ws, cur ++ [c], b, _, rfl, by simp [Nat.add_assoc], h.letter hspace⟩
  | true =>
    have h32 := isSpace_iff.mp hspace
    subst h32
    by_cases hcur : cur = []
    · subst hcur
      rw [splitChar_outside (.inl hc) h.outside, if_neg hnezero]
      exact ⟨ws, [], b + 1, t, rfl, rfl, h.skip⟩
    · rw [splitChar_endWord (.inl hc) (h.inWord.mpr hcur) (h.argc_lt hlen), if_neg hnezero]
      exact ⟨ws ++ [cur], [], b + cur.length + 1, _, rfl, rfl, h.space hcur⟩

theorem splitting_start (hline : IsCString t.rdbuf 0 line) (hword : t.word = false)
    (hargc : t.argc = 0) : Splitting line [] [] line 0 t where
  collected := ⟨hargc, Nat.zero_le _, fun i hi => absurd hi (Nat.not_lt_zero i)⟩
  split := rfl
  length := by rw [List.nil_append, Nat.zero_add]
  text := hline
  noSpace c hc := absurd hc List.not_mem_nil
  inWord := by simp [hword]
  start hnil := absurd rfl hnil

theorem splitLoop_spec (hline : IsCString t.rdbuf 0 line) (hlen : line.length < rdbufSize)
    (hword : t.word = false) (hargc : t.argc = 0) :
    wp (scan splitChar rdbufSize 0) (fun r t' => r = some (line.length + 1) ∧
      Collected (words isSpace line) (line.length + 1) t') (fun _ _ => False) t := by
  apply wp_scan (I := fun p t' => ∃ ws cur rest b, p = b + cur.length ∧
    Splitting line ws cur rest b t')
  · exact ⟨[], [], line, 0, rfl, splitting_start hline hword hargc⟩
  · rintro p t₁ - - ⟨ws, cur, rest, b, rfl, h⟩
    cases rest with
    | nil =>
      obtain ⟨t', hrun, hcollected⟩ := splitChar_stop h hlen
      rw [wp, hrun]
      exact ⟨rfl, hcollected⟩
    | cons c rest =>
      obtain ⟨ws', cur', b', t', hrun, hp, hnext⟩ := splitChar_next h hlen
      rw [wp, hrun]
      exact ⟨ws', cur', rest, b', hp, hnext⟩
  · rintro t₁ ⟨ws, cur, rest, b, hp, h⟩
    have hb := h.length
    rw [List.length_append] at hb
    omega

/-- Every line that fits into the buffer is split into its words, wherever its spaces are. -/
theorem splitLine_words (t : ShellLine) (hline : IsCString t.rdbuf 0 line)
    (hlen : line.length < rdbufSize) :
    ∃ t', splitLine t = .ok (line.length + 1) t' ∧ SplitInto line t' := by
  have hloop : wp splitLine (fun p t' => p = line.length + 1 ∧ SplitInto line t')
      (fun _ _ => False) t := by
    rw [splitLine, wp_bind, wp_modify, wp_bind]
    refine wp_mono (splitLoop_spec hline hlen rfl rfl) ?_ fun _ _ h => h
    rintro r t₁ ⟨rfl, hargc, hroom, harg⟩
    simp only [setArg, wp_bind, wp_get, wp_ite, wp_modify, wp_halt, wp_pure]
    have hstack : rdbufSize < procOriginStack := by decide
    refine ⟨fun _ => ⟨trivial, hargc, ?_, Function.update_self ..⟩, fun hfull => hfull (by omega)⟩
    intro i hi
    obtain ⟨a, hargv, htext, -⟩ := harg i hi
    exact ⟨a, (Function.update_of_ne (by omega) _ _).trans hargv, htext⟩
  obtain ⟨p, t', hrun, rfl, hsplit⟩ := exists_ok_of_wp hloop
  exact ⟨t', hrun, hsplit⟩

/-- Two words with spaces in front of them, between them and behind them. -/
def spacedLine : List UInt8 := [32, 97, 32, 32, 98, 99, 32]

theorem splitLine_spaced :
    ∃ t', splitLine ⟨putBytes (fun _ => 0) 0 (spacedLine ++ [0]), fun _ => none, 0, false, 0⟩ =
      .ok (spacedLine.length + 1) t' ∧ SplitInto spacedLine t' := by
  have hline : IsCString (putBytes (fun _ => 0) 0 (spacedLine ++ [0])) 0 spacedLine :=
    .putBytes (by decide)
  exact splitLine_words _ hline (by decide)

end Program

end Shell

end BazingaOS
