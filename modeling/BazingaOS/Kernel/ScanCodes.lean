import BazingaOS.Kernel.InputRings
import BazingaOS.Lib.Loop

/-!
# Decoding the scan codes

A call of `keyboard_read` takes the bytes of one sequence from the buffer, whenever they arrive, and
keeps the state of the shift, ctrl and alt keys. The exception is Pause: its first byte is compared with
itself again, so the call ends behind the second byte and the next ones read keys that were not pressed.
-/

namespace BazingaOS

open Prog

namespace KB

/-- The complete sequences of the scan code set. -/
inductive ScanSeq where
  | single (b : {b : UInt8 // b ≠ 0xe0 ∧ b ≠ 0xe1})
  | extended (b : {b : UInt8 // b ≠ 0x2a ∧ b ≠ 0xb7})
  | printScreenMake
  | printScreenBreak
  | pause
deriving DecidableEq

namespace ScanSeq

def bytes : ScanSeq → List UInt8
  | single b => [b.val]
  | extended b => [0xe0, b.val]
  | printScreenMake => [0xe0, 0x2a, 0xe0, 0x37]
  | printScreenBreak => [0xe0, 0xb7, 0xe0, 0xaa]
  | pause => [0xe1, 0x1d, 0x45, 0xe1, 0x9d, 0xc5]

/-- A make sequence other than those of PrintScreen and Pause. -/
def IsMake : ScanSeq → Prop
  | single b => b.val < 0x80
  | extended b => b.val < 0x80
  | _ => False

instance : DecidablePred IsMake := fun q => by
  cases q <;> unfold IsMake <;> infer_instance

end ScanSeq

def bytesOf (l : List ScanSeq) : List UInt8 := l.flatMap ScanSeq.bytes

inductive Modifier where
  | shiftL | shiftR | ctrlL | ctrlR | altL | altR
deriving DecidableEq, Repr

namespace Modifier

def key : Modifier → Nat
  | shiftL => Key.shiftL
  | shiftR => Key.shiftR
  | ctrlL => Key.ctrlL
  | ctrlR => Key.ctrlR
  | altL => Key.altL
  | altR => Key.altR

def make : Modifier → ScanSeq
  | shiftL => .single ⟨0x2a, by decide⟩
  | shiftR => .single ⟨0x36, by decide⟩
  | ctrlL => .single ⟨0x1d, by decide⟩
  | ctrlR => .extended ⟨0x1d, by decide⟩
  | altL => .single ⟨0x38, by decide⟩
  | altR => .extended ⟨0x38, by decide⟩

def brk : Modifier → ScanSeq
  | shiftL => .single ⟨0xaa, by decide⟩
  | shiftR => .single ⟨0xb6, by decide⟩
  | ctrlL => .single ⟨0x9d, by decide⟩
  | ctrlR => .extended ⟨0x9d, by decide⟩
  | altL => .single ⟨0xb8, by decide⟩
  | altR => .extended ⟨0xb8, by decide⟩

def down (s : Keyboard) : Modifier → Bool
  | shiftL => s.shiftL
  | shiftR => s.shiftR
  | ctrlL => s.ctrlL
  | ctrlR => s.ctrlR
  | altL => s.altL
  | altR => s.altR

/-- Whether a sequence is one of the key. -/
def IsOf (m : Modifier) (q : ScanSeq) : Prop := q = m.make ∨ q = m.brk

instance (m : Modifier) : DecidablePred m.IsOf := fun _ => inferInstanceAs (Decidable (_ ∨ _))

/-- The last sequence of the key was a make. -/
def Pressed (m : Modifier) (l : List ScanSeq) : Prop :=
  (l.filter m.IsOf).getLast? = some m.make

/-- Where the key stands in the table: the row, and whether in the column for `E0`. -/
def place : Modifier → Nat × Bool
  | shiftL => (0x2a, false)
  | shiftR => (0x36, false)
  | ctrlL => (0x1d, false)
  | ctrlR => (0x1d, true)
  | altL => (0x38, false)
  | altR => (0x38, true)

end Modifier

/-- The sequences `done` have been read. -/
structure Decoded (done : List ScanSeq) (s : Keyboard) : Prop where
  buffered : Buffered s
  taken : s.taken = bytesOf done
  down : ∀ m : Modifier, m.down s = true ↔ m.Pressed done
  processed : s.processed.length = (done.filter ScanSeq.IsMake).length

/-- A call, with the portions of bytes that arrive from the call before it on. -/
def call (s : Keyboard) (portions : List (List UInt8)) : Result Keyboard Unit :=
  keyboardRead { s with line := portions }

def ReadStep (s : Keyboard) (portions : List (List UInt8)) (s' : Keyboard) : Prop :=
  call s portions = .ok () s'

/-- There is a byte in the buffer when `keyboard_read` looks. -/
def HasByte (s : Keyboard) (portions : List (List UInt8)) : Prop :=
  0 < (interrupts { s with line := portions }).state.kbIn.count

instance (s : Keyboard) (portions : List (List UInt8)) : Decidable (HasByte s portions) :=
  Int.decLt _ _

/-- As long as what has arrived is the beginning of the stream, each call with a byte in the buffer reads
the next sequence, one with an empty buffer reads nothing, and only a call that waits for a byte of the
stream that never comes does not return. -/
def Decodes (stream : List ScanSeq) : Prop :=
  ∀ s₀ calls s portions, Booted s₀ → Run ReadStep s₀ calls s →
    (call s portions).state.arrived <+: bytesOf stream →
    ∃ done rest, stream = done ++ rest ∧ Decoded done s ∧
      match call s portions with
      | .ok _ s' =>
        if HasByte s portions then ∃ q rest', rest = q :: rest' ∧ Decoded (done ++ [q]) s'
        else Decoded done s'
      | .stop w s' => w = .hang ∧ s'.line = [] ∧ s'.arrived ≠ bytesOf stream

section Keys

variable {E : Stop → Keyboard → Prop} {s s' : Keyboard} {b : UInt8} {ext : Bool}

theorem keymap_all (m : Modifier) : (keymap.zipIdx.all fun p =>
    decide (p.1 = m.key ↔ m.place = (p.2 / mapCols, decide (p.2 % mapCols = 2)))) = true := by
  cases m <;> decide +kernel

theorem keymap_place {c col : Nat} (m : Modifier) (hc : c < 128) (hcol : col < 3) :
    keymap.getD (c * mapCols + col) 0 = m.key ↔ m.place = (c, decide (col = 2)) := by
  have hlen : keymap.length = 384 := by decide +kernel
  have hm : mapCols = 3 := rfl
  have hi : c * mapCols + col < keymap.length := by
    rw [hm]
    omega
  have hmem : (keymap[c * mapCols + col], c * mapCols + col) ∈ keymap.zipIdx :=
    List.mem_zipIdx_iff_getElem?.mpr (List.getElem?_eq_getElem hi)
  have hall := of_decide_eq_true (List.all_eq_true.mp (keymap_all m) _ hmem)
  have hdiv : (c * mapCols + col) / mapCols = c := by
    rw [hm]
    omega
  have hmod : (c * mapCols + col) % mapCols = col := by
    rw [hm]
    omega
  rw [hdiv, hmod] at hall
  rw [List.getD_eq_getElem _ _ hi]
  exact hall

theorem setModifier_spec (key : Nat) (bMake : Bool) :
    wp (setModifier key bMake) (fun _ s' => s'.processed = s.processed ∧
      ∀ m : Modifier, m.down s' = if key = m.key then bMake else m.down s) E s := by
  by_cases hm : ∃ m : Modifier, key = m.key
  · obtain ⟨m₀, rfl⟩ := hm
    cases m₀ <;> exact ⟨rfl, fun m => by cases m <;> rfl⟩
  · have hne : ∀ m : Modifier, key ≠ m.key := fun m h => hm ⟨m, h⟩
    have hl : key ≠ Key.shiftL := hne .shiftL
    have hr : key ≠ Key.shiftR := hne .shiftR
    have hcl : key ≠ Key.ctrlL := hne .ctrlL
    have hcr : key ≠ Key.ctrlR := hne .ctrlR
    have hal : key ≠ Key.altL := hne .altL
    have har : key ≠ Key.altR := hne .altR
    have hsame : ∀ m : Modifier, m.down s = if key = m.key then bMake else m.down s :=
      fun m => (if_neg (hne m)).symm
    -- every way through the cases of the lock keys leaves these keys alone
    simp only [setModifier, setLeds, if_neg hl, if_neg hr, if_neg hcl, if_neg hcr, if_neg hal,
      if_neg har, wp_bind, wp_when, wp_modify]
    exact ⟨fun _ => ⟨fun _ => ⟨fun _ => ⟨trivial, hsame⟩, fun _ => ⟨trivial, hsame⟩⟩,
        fun _ => ⟨fun _ => ⟨trivial, hsame⟩, fun _ => ⟨trivial, hsame⟩⟩⟩,
      fun _ => ⟨fun _ => ⟨fun _ => ⟨trivial, hsame⟩, fun _ => ⟨trivial, hsame⟩⟩,
        fun _ => ⟨fun _ => ⟨trivial, hsame⟩, fun _ => ⟨trivial, hsame⟩⟩⟩⟩

/-- A code, behind `E0` or not, has its effect. -/
structure Effect (b : UInt8) (ext : Bool) (s s' : Keyboard) : Prop where
  down : ∀ m : Modifier,
    m.down s' = if m.place = (b.toNat % 128, ext) then decide (b < 0x80) else m.down s
  processed : s'.processed.length = s.processed.length + if b < 0x80 then 1 else 0

theorem isMake_iff (b : UInt8) : b &&& flagBreak = 0 ↔ b < 0x80 := by
  have h : ∀ n : Fin 256, UInt8.ofNat n &&& flagBreak = 0 ↔ UInt8.ofNat n < 0x80 := by
    decide +kernel
  have hb := h ⟨b.toNat, b.toNat_lt⟩
  rwa [UInt8.ofNat_toNat] at hb

theorem code_toNat (b : UInt8) : (b &&& 0x7f).toNat = b.toNat % 128 :=
  Nat.and_two_pow_sub_one_eq_mod b.toNat 7

theorem readKey_column {col : Nat} (hcol : col < 3) :
    wp (do
      let key := keymap.getD ((b &&& 0x7f).toNat * mapCols + col) 0
      setModifier key (decide (b &&& flagBreak = 0))
      when (decide (b &&& flagBreak = 0) = true) (makeKey key))
      (fun _ => Effect b (decide (col = 2)) s) E s := by
  have hc : b.toNat % 128 < 128 := Nat.mod_lt _ (by omega)
  have hmake : decide (b &&& flagBreak = 0) = decide (b < 0x80) := decide_eq_decide.mpr (isMake_iff b)
  simp only [wp_bind, hmake, code_toNat]
  refine wp_mono (setModifier_spec _ _) ?_ (fun _ _ h => h)
  rintro _ t ⟨hproc, hdown⟩
  simp only [keymap_place _ hc hcol] at hdown
  rw [wp_when]
  refine ⟨fun hb => ?_, fun hb => ?_⟩
  · simp only [makeKey, inProcess, wp_bind, wp_get, wp_modify]
    rw [decide_eq_true_eq, isMake_iff] at hb
    exact ⟨hdown, by simp [hproc, hb]⟩
  · rw [decide_eq_true_eq, isMake_iff] at hb
    exact ⟨hdown, by simp [hproc, hb]⟩

theorem readKey_effect (hext : s.codeWithE0 = ext) :
    wp (readKey b) (fun _ => Effect b ext s) E s := by
  simp only [readKey]
  rw [wp_bind, wp_modify, wp_bind, wp_get, wp_bind, wp_when]
  refine ⟨fun he => ?_, fun he => ?_⟩
  · have hs : ext = true := hext.symm.trans he
    rw [wp_modify, wp_bind, wp_get, hs]
    refine wp_mono (readKey_column (show 2 < 3 by omega)) ?_ (fun _ _ h => h)
    intro _ t ht
    exact ⟨ht.down, ht.processed⟩
  · have hs : ext = false := by
      rw [← hext]
      exact Bool.eq_false_iff.mpr he
    rw [wp_bind, wp_get, hs]
    dsimp only
    split
    · refine wp_mono (readKey_column (show 1 < 3 by omega)) ?_ (fun _ _ h => h)
      intro _ t ht
      exact ⟨ht.down, ht.processed⟩
    · refine wp_mono (readKey_column (show 0 < 3 by omega)) ?_ (fun _ _ h => h)
      intro _ t ht
      exact ⟨ht.down, ht.processed⟩

/-- What the buffer and its interrupts are about. -/
def bufferOf (s : Keyboard) : KbInput × List (List UInt8) × List UInt8 × List UInt8 :=
  (s.kbIn, s.line, s.arrived, s.taken)

theorem readKey_keeps : KeepsView bufferOf (readKey b) := by
  have hset : ∀ key bMake, KeepsView bufferOf (setModifier key bMake) := by
    intro key bMake
    unfold setModifier
    have hled : ∀ f : Keyboard → Keyboard, (∀ s, bufferOf (f s) = bufferOf s) →
        KeepsView bufferOf (do modify f; setLeds) :=
      fun f hf => .bind (.modify hf) fun _ => .modify fun _ => rfl
    refine .ite (.modify fun _ => rfl) (.ite (.modify fun _ => rfl) (.ite (.modify fun _ => rfl)
      (.ite (.modify fun _ => rfl) (.ite (.modify fun _ => rfl) (.ite (.modify fun _ => rfl) ?_)))))
    exact .bind (.when (hled _ fun _ => rfl)) fun _ =>
      .bind (.when (hled _ fun _ => rfl)) fun _ => .when (hled _ fun _ => rfl)
  unfold readKey
  refine .bind (.modify fun _ => rfl) fun _ => .bind .get fun _ =>
    .bind (.when (.modify fun _ => rfl)) fun _ => .bind .get fun _ => .bind (hset _ _) fun _ => .when ?_
  exact .bind .get fun _ => .modify fun _ => rfl

end Keys

section Calls

variable {E : Stop → Keyboard → Prop} {s s' : Keyboard} {b : UInt8} {bs codes : List UInt8}

/-- The comparison has taken all the codes, or the first that is another one. -/
def Expected (codes : List UInt8) (s : Keyboard) (r : Bool) (s' : Keyboard) : Prop :=
  if r then Reads s codes s'
  else ∃ cs c cs' x, codes = cs ++ c :: cs' ∧ x ≠ c ∧ Reads s (cs ++ [x]) s'

theorem expect_spec (h : Buffered s) :
    wp (expect codes) (Expected codes s)
      (fun w s' => ∃ cs, cs <+: codes ∧ cs ≠ codes ∧ Starves s cs w s') s := by
  induction codes generalizing s with
  | nil => exact Reads.refl h
  | cons code codes ih =>
    rw [expect, wp_bind]
    refine wp_mono (getByteFromKbuf_spec h) ?_ ?_
    · intro x t ht
      rw [wp_ite, wp_pure]
      refine ⟨fun hne => ⟨[], code, codes, x, rfl, hne, ht⟩, fun heq => ?_⟩
      obtain rfl := not_not.mp heq
      refine wp_mono (ih ht.buffered) ?_ ?_
      · intro r u hu
        cases r with
        | true => exact ht.trans hu
        | false =>
          obtain ⟨cs, c, cs', y, hcodes, hy, hr⟩ := hu
          refine ⟨x :: cs, c, cs', y, ?_, hy, ht.trans hr⟩
          rw [hcodes]
          rfl
      · rintro w u ⟨cs, hpre, hne, hu⟩
        exact ⟨x :: cs, List.cons_prefix_cons.mpr ⟨rfl, hpre⟩, by simpa using hne, ht.starves hu⟩
    · intro w t ht
      exact ⟨[], List.nil_prefix, by simp, ht⟩

/-- The keys that are held, and what went to the terminal, are as before. -/
structure Same (s s' : Keyboard) : Prop where
  down : ∀ m : Modifier, m.down s' = m.down s
  processed : s'.processed = s.processed

theorem Reads.same (h : Reads s bs s') : Same s s' where
  down m := by
    have hdown : m.down (rest s') = m.down (rest s) := by rw [h.rest_eq]
    cases m <;> exact hdown
  processed := by
    have hproc : (rest s').processed = (rest s).processed := by rw [h.rest_eq]
    exact hproc

theorem Same.trans {s'' : Keyboard} (h : Same s s') (h' : Same s' s'') : Same s s'' where
  down m := (h'.down m).trans (h.down m)
  processed := h'.processed.trans h.processed

theorem Same.effect {s'' : Keyboard} {ext : Bool} (h : Same s s') (h' : Effect b ext s' s'') :
    Effect b ext s s'' where
  down m := by rw [h'.down m, h.down m]
  processed := by rw [h'.processed, h.processed]

/-- What a call makes of the bytes that it takes. -/
inductive Outcome (s s' : Keyboard) : List UInt8 → Prop
  | none (h : Same s s') : Outcome s s' []
  | single (b : UInt8) (hb : b ≠ 0xe0 ∧ b ≠ 0xe1) (h : Effect b false s s') : Outcome s s' [b]
  | extended (b : UInt8) (hb : b ≠ 0x2a ∧ b ≠ 0xb7) (h : Effect b true s s') :
    Outcome s s' [0xe0, b]
  | printScreen (b c : UInt8) (hb : b = 0x2a ∧ c = 0x37 ∨ b = 0xb7 ∧ c = 0xaa) (h : Same s s') :
    Outcome s s' [0xe0, b, 0xe0, c]
  | notPrintScreen (b c x : UInt8) (cs : List UInt8)
    (hb : b = 0x2a ∧ c = 0x37 ∨ b = 0xb7 ∧ c = 0xaa)
    (hx : ∃ d cs', [0xe0, c] = cs ++ d :: cs' ∧ x ≠ d) : Outcome s s' (0xe0 :: b :: (cs ++ [x]))
  | pause : Outcome s s' (0xe1 :: pausebrkScode)
  | notPause (x : UInt8) (cs : List UInt8) (hx : ∃ d cs', pausebrkScode = cs ++ d :: cs' ∧ x ≠ d) :
    Outcome s s' (0xe1 :: (cs ++ [x]))

theorem Same.outcome {s'' : Keyboard} (h : Same s s') (h' : Outcome s' s'' bs) :
    Outcome s s'' bs := by
  cases h' with
  | none h' => exact .none (h.trans h')
  | single b hb h' => exact .single b hb (h.effect h')
  | extended b hb h' => exact .extended b hb (h.effect h')
  | printScreen b c hb h' => exact .printScreen b c hb (h.trans h')
  | notPrintScreen b c x cs hb hx => exact .notPrintScreen b c x cs hb hx
  | pause => exact .pause
  | notPause x cs hx => exact .notPause x cs hx

/-- The bytes after which a call may wait for a further one. -/
inductive Partial : List UInt8 → Prop
  | extended : Partial [0xe0]
  | printScreen (b c : UInt8) (cs : List UInt8) (hb : b = 0x2a ∧ c = 0x37 ∨ b = 0xb7 ∧ c = 0xaa)
    (hcs : cs <+: [0xe0, c] ∧ cs ≠ [0xe0, c]) : Partial (0xe0 :: b :: cs)
  | pause (cs : List UInt8) (hcs : cs <+: pausebrkScode ∧ cs ≠ pausebrkScode) : Partial (0xe1 :: cs)

theorem Starves.count_le_zero {w : Stop} (h : Starves s [] w s') (hs : Buffered s) :
    s.kbIn.count ≤ 0 := by
  rw [hs.count_le_zero_iff]
  have harr := h.arrived
  rw [h.all_taken, h.taken, List.append_nil] at harr
  obtain ⟨l, -, hl⟩ := hs
  have hpre : s.taken <+: s.arrived := ⟨l, hl.symm⟩
  exact harr.eq_of_length_le hpre.length_le

theorem readKey_reads {ext : Bool} {t : Keyboard} (ht : Takes s bs t) (hsame : Same s t)
    (hext : t.codeWithE0 = ext) :
    wp (readKey b) (fun _ u => Takes s bs u ∧ Effect b ext s u) E t := by
  have heff := @readKey_effect (fun _ _ => False) t b ext hext
  refine wp_mono (wp_and heff (readKey_keeps.keeps _ t rfl)) ?_ (fun _ _ h => h.1.elim)
  rintro _ u ⟨hu, hbuf⟩
  simp only [bufferOf, Prod.mk.injEq] at hbuf
  obtain ⟨hkb, hline, harr, htaken⟩ := hbuf
  refine ⟨?_, hsame.effect hu⟩
  exact {
    buffered := by
      have hb := ht.buffered
      unfold Buffered trace at hb ⊢
      rwa [hkb, harr, htaken]
    arrived := by
      rw [harr]
      exact ht.arrived
    taken := by rw [htaken, ht.taken]
    quiet := by
      rw [hline, harr]
      exact ht.quiet }

theorem readExtended_spec {t : Keyboard} (ht : Reads s [0xe0] t) :
    wp (do
      let scanCode ← getByteFromKbuf
      let isPrintScreen ←
        if scanCode = 0x2a then expect [0xe0, 0x37]
        else if scanCode = 0xb7 then expect [0xe0, 0xaa]
        else pure false
      if isPrintScreen then return ()
      else
        modify fun s => { s with codeWithE0 := true }
        readKey scanCode)
      (fun _ s' => ∃ bs, bs ≠ [] ∧ Takes s bs s' ∧ Outcome s s' bs)
      (fun w s' => ∃ bs, Partial bs ∧ Starves s bs w s') t := by
  rw [wp_bind]
  refine wp_mono (getByteFromKbuf_spec ht.buffered) ?_ ?_
  · intro b u hu
    have hread : Reads s [0xe0, b] u := ht.trans hu
    -- the comparison with the rest of a PrintScreen sequence
    have hexpect : ∀ c, (b = 0x2a ∧ c = 0x37 ∨ b = 0xb7 ∧ c = 0xaa) →
        wp (do
          let isPrintScreen ← expect [0xe0, c]
          if isPrintScreen then return ()
          else
            modify fun s => { s with codeWithE0 := true }
            readKey b)
          (fun _ s' => ∃ bs, bs ≠ [] ∧ Takes s bs s' ∧ Outcome s s' bs)
          (fun w s' => ∃ bs, Partial bs ∧ Starves s bs w s') u := by
      intro c hb
      rw [wp_bind]
      refine wp_mono (expect_spec hu.buffered) ?_ ?_
      · intro r v hv
        cases r with
        | true =>
          have hall : Reads s [0xe0, b, 0xe0, c] v := hread.trans hv
          exact ⟨_, by simp, hall.toTakes, .printScreen b c hb hall.same⟩
        | false =>
          obtain ⟨cs, d, cs', x, hcs, hx, hv⟩ := hv
          have hall : Reads s (0xe0 :: b :: (cs ++ [x])) v := hread.trans hv
          simp only [Bool.false_eq_true, if_false, wp_bind, wp_modify]
          refine wp_mono (@readKey_reads _ s b (0xe0 :: b :: (cs ++ [x])) true
            { v with codeWithE0 := true } ?_ ?_ rfl) ?_ (fun _ _ h => h)
          · exact ⟨hall.buffered, hall.arrived, hall.taken, hall.quiet⟩
          · exact ⟨hall.same.down, hall.same.processed⟩
          · rintro _ z ⟨hz, -⟩
            exact ⟨_, by simp, hz, .notPrintScreen b c x cs hb ⟨d, cs', hcs, hx⟩⟩
      · rintro w v ⟨cs, hpre, hne, hv⟩
        exact ⟨_, .printScreen b c cs hb ⟨hpre, hne⟩, hread.starves hv⟩
    by_cases h2a : b = 0x2a
    · rw [if_pos h2a]
      exact hexpect 0x37 (.inl ⟨h2a, rfl⟩)
    · rw [if_neg h2a]
      by_cases hb7 : b = 0xb7
      · rw [if_pos hb7]
        exact hexpect 0xaa (.inr ⟨hb7, rfl⟩)
      · rw [if_neg hb7]
        simp only [wp_bind, wp_pure, Bool.false_eq_true, if_false, wp_modify]
        refine wp_mono (@readKey_reads _ s b [0xe0, b] true { u with codeWithE0 := true } ?_ ?_ rfl)
          ?_ (fun _ _ h => h)
        · exact ⟨hread.buffered, hread.arrived, hread.taken, hread.quiet⟩
        · exact ⟨hread.same.down, hread.same.processed⟩
        · rintro _ z ⟨hz, heff⟩
          exact ⟨_, by simp, hz, .extended b ⟨h2a, hb7⟩ heff⟩
  · intro w u hu
    exact ⟨_, .extended, ht.starves hu⟩

theorem readSeq_spec (hs : Buffered s) (hc : 0 < s.kbIn.count) (he : s.codeWithE0 = false) :
    wp (do
      let scanCode ← getByteFromKbuf
      if scanCode = 0xe1 then
        if ← expect pausebrkScode then return ()
        else readKey scanCode
      else if scanCode = 0xe0 then
        let scanCode ← getByteFromKbuf
        let isPrintScreen ←
          if scanCode = 0x2a then expect [0xe0, 0x37]
          else if scanCode = 0xb7 then expect [0xe0, 0xaa]
          else pure false
        if isPrintScreen then return ()
        else
          modify fun s => { s with codeWithE0 := true }
          readKey scanCode
      else readKey scanCode)
      (fun _ s' => ∃ bs, bs ≠ [] ∧ Takes s bs s' ∧ Outcome s s' bs)
      (fun w s' => ∃ bs, Partial bs ∧ Starves s bs w s') s := by
  rw [wp_bind]
  refine wp_mono (getByteFromKbuf_spec hs) ?_ ?_
  · intro b t ht
    have hE0 : t.codeWithE0 = false := by
      have hrest : (rest t).codeWithE0 = (rest s).codeWithE0 := by rw [ht.rest_eq]
      exact hrest.trans he
    rw [wp_ite]
    refine ⟨fun hb => ?_, fun he1 => ?_⟩
    · subst hb
      rw [wp_bind]
      refine wp_mono (expect_spec ht.buffered) ?_ ?_
      · intro r u hu
        cases r with
        | true =>
          have hall : Reads s (0xe1 :: pausebrkScode) u := ht.trans hu
          exact ⟨_, by simp, hall.toTakes, .pause⟩
        | false =>
          obtain ⟨cs, d, cs', x, hcs, hx, hu⟩ := hu
          have hall : Reads s (0xe1 :: (cs ++ [x])) u := ht.trans hu
          simp only [Bool.false_eq_true, if_false]
          refine wp_mono (readKey_reads hall.toTakes hall.same rfl) ?_ (fun _ _ h => h)
          rintro _ v ⟨hv, -⟩
          exact ⟨_, by simp, hv, .notPause x cs ⟨d, cs', hcs, hx⟩⟩
      · rintro w u ⟨cs, hpre, hne, hu⟩
        exact ⟨_, .pause cs ⟨hpre, hne⟩, ht.starves hu⟩
    · rw [wp_ite]
      refine ⟨fun hb => ?_, fun he0 => ?_⟩
      · subst hb
        exact readExtended_spec ht
      · refine wp_mono (readKey_reads ht.toTakes ht.same hE0) ?_ (fun _ _ h => h)
        rintro _ u ⟨hu, heff⟩
        exact ⟨_, by simp, hu, .single b ⟨he0, he1⟩ heff⟩
  · intro w t ht
    have hle := ht.count_le_zero hs
    omega

theorem keyboardRead_spec (h : Buffered s) :
    wp keyboardRead
      (fun _ s' => ∃ bs, Takes s bs s' ∧ Outcome s s' bs ∧
        (bs = [] ↔ (interrupts s).state.kbIn.count ≤ 0) ∧
        ((interrupts s).state.line = [] → s'.arrived = (interrupts s).state.arrived))
      (fun w s' => ∃ bs, Partial bs ∧ Takes s bs s' ∧ w = .hang ∧ s'.line = [] ∧
        s'.arrived = s'.taken ∧
        ((interrupts s).state.line = [] → s'.arrived = (interrupts s).state.arrived)) s := by
  have hint := @interrupts_spec (fun _ _ => False) s h
  obtain ⟨_, t, hrun, ht, -⟩ := exists_ok_of_wp hint
  unfold wp
  rw [keyboardRead, bind_of_ok hrun, hrun]
  change wp (do
    let u ← Prog.get
    when (0 < u.kbIn.count) _) _ _ t
  rw [wp_bind, wp_get, wp_when, wp_bind, wp_modify]
  refine ⟨fun hc => ?_, fun hc => ?_⟩
  · have hfirst : Takes s [] { t with codeWithE0 := false } :=
      ⟨ht.buffered, ht.arrived, ht.taken, ht.quiet⟩
    have hsame : Same s { t with codeWithE0 := false } := ⟨ht.same.down, ht.same.processed⟩
    refine wp_mono (readSeq_spec hfirst.buffered hc rfl) ?_ ?_
    · rintro _ u ⟨bs, hne, hu, hout⟩
      refine ⟨bs, hfirst.trans hu, hsame.outcome hout, ⟨fun h => absurd h hne, fun hle => ?_⟩,
        fun hline => (hu.quiet hline).2⟩
      change t.kbIn.count ≤ 0 at hle
      omega
    · rintro w u ⟨bs, hpart, hu⟩
      exact ⟨bs, hpart, hfirst.trans hu.toTakes, hu.why, hu.line_eq, hu.all_taken,
        fun hline => (hu.quiet hline).2⟩
  · refine ⟨[], ht.toTakes, .none ht.same, ⟨fun _ => ?_, fun _ => rfl⟩, fun _ => rfl⟩
    change t.kbIn.count ≤ 0
    omega

end Calls

section Sequences

variable {s s' : Keyboard} {bs : List UInt8} {q : ScanSeq} {l done rest : List ScanSeq}

theorem bytesOf_append (l l' : List ScanSeq) : bytesOf (l ++ l') = bytesOf l ++ bytesOf l' :=
  List.flatMap_append

theorem bytesOf_cons (q : ScanSeq) (l : List ScanSeq) : bytesOf (q :: l) = q.bytes ++ bytesOf l :=
  List.flatMap_cons

theorem eq_of_mismatch {cs cs' l : List UInt8} {x d : UInt8}
    (h : cs ++ [x] <+: (cs ++ d :: cs') ++ l) : x = d := by
  rw [List.append_assoc, List.prefix_append_right_inj, List.cons_append] at h
  exact (List.cons_prefix_cons.mp h).1

/-- A sequence has its effect on the keys that are held and on the terminal. -/
structure SeqEffect (q : ScanSeq) (s s' : Keyboard) : Prop where
  down : ∀ m : Modifier, m.down s' = if m.IsOf q then decide (q = m.make) else m.down s
  processed : s'.processed.length = s.processed.length + if q.IsMake then 1 else 0

theorem isOf_single (m : Modifier) (b : {b : UInt8 // b ≠ 0xe0 ∧ b ≠ 0xe1}) :
    (m.IsOf (.single b) ↔ m.place = (b.val.toNat % 128, false)) ∧
      (m.IsOf (.single b) → (ScanSeq.single b = m.make ↔ b.val < 0x80)) := by
  obtain ⟨b, hb⟩ := b
  have hlt := b.toNat_lt
  cases m <;> simp only [Modifier.IsOf, Modifier.make, Modifier.brk, Modifier.place,
    ScanSeq.single.injEq, Subtype.mk.injEq, Prod.mk.injEq, ← UInt8.toNat_inj,
    UInt8.lt_iff_toNat_lt, UInt8.reduceToNat, reduceCtorEq, and_true, and_false, or_self,
    false_implies, Bool.true_eq_false] <;> omega

theorem isOf_extended (m : Modifier) (b : {b : UInt8 // b ≠ 0x2a ∧ b ≠ 0xb7}) :
    (m.IsOf (.extended b) ↔ m.place = (b.val.toNat % 128, true)) ∧
      (m.IsOf (.extended b) → (ScanSeq.extended b = m.make ↔ b.val < 0x80)) := by
  obtain ⟨b, hb⟩ := b
  have hlt := b.toNat_lt
  cases m <;> simp only [Modifier.IsOf, Modifier.make, Modifier.brk, Modifier.place,
    ScanSeq.extended.injEq, Subtype.mk.injEq, Prod.mk.injEq, ← UInt8.toNat_inj,
    UInt8.lt_iff_toNat_lt, UInt8.reduceToNat, reduceCtorEq, and_true, and_false, or_self,
    false_implies, Bool.false_eq_true] <;> omega

theorem Effect.single {b : {b : UInt8 // b ≠ 0xe0 ∧ b ≠ 0xe1}} (h : Effect b.val false s s') :
    SeqEffect (.single b) s s' where
  down m := by
    obtain ⟨hof, hmake⟩ := isOf_single m b
    rw [h.down m]
    by_cases hm : m.IsOf (.single b)
    · rw [if_pos hm, if_pos (hof.mp hm)]
      exact decide_eq_decide.mpr (hmake hm).symm
    · rw [if_neg hm, if_neg (mt hof.mpr hm)]
  processed := h.processed

theorem Effect.extended {b : {b : UInt8 // b ≠ 0x2a ∧ b ≠ 0xb7}} (h : Effect b.val true s s') :
    SeqEffect (.extended b) s s' where
  down m := by
    obtain ⟨hof, hmake⟩ := isOf_extended m b
    rw [h.down m]
    by_cases hm : m.IsOf (.extended b)
    · rw [if_pos hm, if_pos (hof.mp hm)]
      exact decide_eq_decide.mpr (hmake hm).symm
    · rw [if_neg hm, if_neg (mt hof.mpr hm)]
  processed := h.processed

theorem Same.seqEffect (h : Same s s') (hq : q = .printScreenMake ∨ q = .printScreenBreak) :
    SeqEffect q s s' where
  down m := by
    rw [h.down m, if_neg]
    rcases hq with rfl | rfl <;> cases m <;> decide
  processed := by
    rw [h.processed]
    rcases hq with rfl | rfl <;> rfl

theorem printScreen_bytes (hq : q = .printScreenMake ∨ q = .printScreenBreak) :
    ∃ b c, (b = 0x2a ∧ c = 0x37 ∨ b = 0xb7 ∧ c = 0xaa) ∧ q.bytes = [0xe0, b, 0xe0, c] := by
  rcases hq with rfl | rfl
  · exact ⟨_, _, .inl ⟨rfl, rfl⟩, rfl⟩
  · exact ⟨_, _, .inr ⟨rfl, rfl⟩, rfl⟩

theorem Outcome.printScreen_of_prefix (h : Outcome s s' bs) (hne : bs ≠ [])
    (hq : q = .printScreenMake ∨ q = .printScreenBreak) {l : List UInt8}
    (hpre : bs <+: q.bytes ++ l) : bs = q.bytes ∧ SeqEffect q s s' := by
  obtain ⟨b, c, hb, hbytes⟩ := printScreen_bytes hq
  rw [hbytes] at hpre ⊢
  simp only [List.cons_append, List.nil_append] at hpre
  cases h with
  | none h => exact absurd rfl hne
  | single b' hb' h => exact absurd (List.cons_prefix_cons.mp hpre).1 hb'.1
  | extended b' hb' h =>
    obtain ⟨rfl, -⟩ := List.cons_prefix_cons.mp (List.cons_prefix_cons.mp hpre).2
    rcases hb with ⟨hb, -⟩ | ⟨hb, -⟩
    · exact absurd hb hb'.1
    · exact absurd hb hb'.2
  | printScreen b' c' hb' h =>
    have h₂ := List.cons_prefix_cons.mp (List.cons_prefix_cons.mp hpre).2
    have h₄ := List.cons_prefix_cons.mp (List.cons_prefix_cons.mp h₂.2).2
    rw [h₂.1, h₄.1]
    exact ⟨rfl, h.seqEffect hq⟩
  | notPrintScreen b' c' x cs hb' hx =>
    obtain ⟨d, cs', hcs, hx⟩ := hx
    obtain ⟨rfl, htail⟩ := List.cons_prefix_cons.mp (List.cons_prefix_cons.mp hpre).2
    have hcc : c' = c := by
      rcases hb with ⟨h, hc⟩ | ⟨h, hc⟩ <;> rcases hb' with ⟨h', hc'⟩ | ⟨h', hc'⟩
      · rw [hc, hc']
      · exact absurd (h.symm.trans h') (by decide)
      · exact absurd (h.symm.trans h') (by decide)
      · rw [hc, hc']
    have htail' : cs ++ [x] <+: (cs ++ d :: cs') ++ l := by
      rw [← hcs, hcc]
      exact htail
    exact absurd (eq_of_mismatch htail') hx
  | pause => exact absurd (List.cons_prefix_cons.mp hpre).1 (by decide)
  | notPause x cs hx => exact absurd (List.cons_prefix_cons.mp hpre).1 (by decide)

/-- The bytes that a call takes are those of the sequence in front, unless that is Pause. -/
theorem Outcome.seqEffect (h : Outcome s s' bs) (hne : bs ≠ []) (hq : q ≠ .pause)
    (hpre : bs <+: bytesOf (q :: rest)) : bs = q.bytes ∧ SeqEffect q s s' := by
  rw [bytesOf_cons] at hpre
  cases q with
  | single b =>
    simp only [ScanSeq.bytes, List.cons_append, List.nil_append] at hpre
    cases h with
    | none h => exact absurd rfl hne
    | single b' hb' h =>
      obtain rfl := (List.cons_prefix_cons.mp hpre).1
      exact ⟨rfl, h.single⟩
    | extended => exact absurd (List.cons_prefix_cons.mp hpre).1.symm b.property.1
    | printScreen => exact absurd (List.cons_prefix_cons.mp hpre).1.symm b.property.1
    | notPrintScreen => exact absurd (List.cons_prefix_cons.mp hpre).1.symm b.property.1
    | pause => exact absurd (List.cons_prefix_cons.mp hpre).1.symm b.property.2
    | notPause => exact absurd (List.cons_prefix_cons.mp hpre).1.symm b.property.2
  | extended b =>
    simp only [ScanSeq.bytes, List.cons_append, List.nil_append] at hpre
    cases h with
    | none h => exact absurd rfl hne
    | single b' hb' h => exact absurd (List.cons_prefix_cons.mp hpre).1 hb'.1
    | extended b' hb' h =>
      obtain rfl := (List.cons_prefix_cons.mp (List.cons_prefix_cons.mp hpre).2).1
      exact ⟨rfl, h.extended⟩
    | printScreen b' c hb' h =>
      have heq := (List.cons_prefix_cons.mp (List.cons_prefix_cons.mp hpre).2).1
      rcases hb' with ⟨hb', -⟩ | ⟨hb', -⟩
      · exact absurd (heq.symm.trans hb') b.property.1
      · exact absurd (heq.symm.trans hb') b.property.2
    | notPrintScreen b' c x cs hb' hx =>
      have heq := (List.cons_prefix_cons.mp (List.cons_prefix_cons.mp hpre).2).1
      rcases hb' with ⟨hb', -⟩ | ⟨hb', -⟩
      · exact absurd (heq.symm.trans hb') b.property.1
      · exact absurd (heq.symm.trans hb') b.property.2
    | pause => exact absurd (List.cons_prefix_cons.mp hpre).1 (by decide)
    | notPause x cs hx => exact absurd (List.cons_prefix_cons.mp hpre).1 (by decide)
  | printScreenMake => exact h.printScreen_of_prefix hne (.inl rfl) hpre
  | printScreenBreak => exact h.printScreen_of_prefix hne (.inr rfl) hpre
  | pause => exact absurd rfl hq

theorem Partial.ne_printScreen (h : Partial bs) (hq : q = .printScreenMake ∨ q = .printScreenBreak)
    (l : List UInt8) : bs ≠ q.bytes ++ l := by
  obtain ⟨b, c, -, hbytes⟩ := printScreen_bytes hq
  rw [hbytes]
  intro heq
  cases h with
  | extended => simp at heq
  | printScreen b' c' cs hb' hcs =>
    have hlt : cs.length < 2 :=
      Nat.lt_of_le_of_ne hcs.1.length_le fun hlen => hcs.2 (hcs.1.eq_of_length hlen)
    have hlen := congrArg List.length heq
    simp only [List.length_cons, List.length_append, List.length_nil] at hlen
    omega
  | pause cs hcs => exact absurd (List.cons.inj heq).1 (by decide)

/-- A call that waits has not got the bytes of any sequences, unless the first is Pause. -/
theorem Partial.ne_bytesOf (h : Partial bs) (hl : ScanSeq.pause ∉ l) : bs ≠ bytesOf l := by
  intro heq
  cases l with
  | nil => cases h <;> simp [bytesOf] at heq
  | cons q l =>
    rw [bytesOf_cons] at heq
    cases q with
    | single b =>
      cases h with
      | extended => exact b.property.1 (List.cons.inj heq).1.symm
      | printScreen => exact b.property.1 (List.cons.inj heq).1.symm
      | pause => exact b.property.2 (List.cons.inj heq).1.symm
    | extended b =>
      cases h with
      | extended => simp [ScanSeq.bytes] at heq
      | printScreen b' c cs hb' hcs =>
        have hb := (List.cons.inj (List.cons.inj heq).2).1
        rcases hb' with ⟨hb', -⟩ | ⟨hb', -⟩
        · exact b.property.1 (hb.symm.trans hb')
        · exact b.property.2 (hb.symm.trans hb')
      | pause cs hcs => exact absurd (List.cons.inj heq).1 (by decide)
    | printScreenMake => exact h.ne_printScreen (.inl rfl) _ heq
    | printScreenBreak => exact h.ne_printScreen (.inr rfl) _ heq
    | pause => simp at hl

theorem Modifier.pressed_snoc (m : Modifier) :
    m.Pressed (l ++ [q]) ↔ if m.IsOf q then q = m.make else m.Pressed l := by
  unfold Modifier.Pressed
  rw [List.filter_append]
  by_cases h : m.IsOf q <;> simp [h]

theorem Decoded.snoc (h : Decoded done s) (hbuf : Buffered s') (htaken : s'.taken = s.taken ++ q.bytes)
    (heff : SeqEffect q s s') : Decoded (done ++ [q]) s' where
  buffered := hbuf
  taken := by
    rw [htaken, h.taken, bytesOf_append, bytesOf_cons]
    simp [bytesOf]
  down m := by
    rw [heff.down m, m.pressed_snoc]
    split
    · rw [decide_eq_true_eq]
    · exact h.down m
  processed := by
    rw [heff.processed, h.processed, List.filter_append, List.length_append]
    by_cases hq : q.IsMake <;> simp [hq]

theorem Buffered.taken_prefix (h : Buffered s) : s.taken <+: s.arrived := h.fifo.2

theorem Takes.prefix_rest (h : Takes s bs s') (hs : s.taken = bytesOf done)
    (hpre : s'.arrived <+: bytesOf (done ++ rest)) : bs <+: bytesOf rest := by
  have hle := h.buffered.taken_prefix.trans hpre
  rwa [h.taken, hs, bytesOf_append, List.prefix_append_right_inj] at hle

theorem Decoded.call (h : Decoded done s) {portions : List (List UInt8)}
    (hpause : ScanSeq.pause ∉ rest)
    (hpre : (KB.call s portions).state.arrived <+: bytesOf (done ++ rest)) :
    match KB.call s portions with
    | .ok _ s' =>
      if HasByte s portions then ∃ q rest', rest = q :: rest' ∧ Decoded (done ++ [q]) s'
      else Decoded done s'
    | .stop w s' => w = .hang ∧ s'.line = [] ∧ s'.arrived ≠ bytesOf (done ++ rest) := by
  have hbuf : Buffered { s with line := portions } := h.buffered
  have hspec := keyboardRead_spec hbuf
  unfold KB.call at hpre ⊢
  unfold wp at hspec
  cases hr : keyboardRead { s with line := portions } with
  | ok _ s' =>
    rw [hr] at hspec hpre
    obtain ⟨bs, htake, hout, hnil, -⟩ := hspec
    have hbs : bs <+: bytesOf rest := htake.prefix_rest h.taken hpre
    dsimp only
    by_cases hbyte : HasByte s portions
    · rw [if_pos hbyte]
      have hne : bs ≠ [] := by
        intro hbs
        have hle := hnil.mp hbs
        unfold HasByte at hbyte
        omega
      cases rest with
      | nil => exact absurd (List.prefix_nil.mp hbs) hne
      | cons q rest' =>
        have hq : q ≠ .pause := by
          rintro rfl
          simp at hpause
        obtain ⟨rfl, heff⟩ := hout.seqEffect hne hq hbs
        exact ⟨q, rest', rfl, h.snoc htake.buffered htake.taken ⟨heff.down, heff.processed⟩⟩
    · rw [if_neg hbyte]
      have hle : (interrupts { s with line := portions }).state.kbIn.count ≤ 0 := by
        unfold HasByte at hbyte
        omega
      obtain rfl := hnil.mpr hle
      cases hout with
      | none hsame =>
        exact {
          buffered := htake.buffered
          taken := by
            have ht := htake.taken
            rw [List.append_nil] at ht
            exact ht.trans h.taken
          down := fun m => by
            rw [hsame.down m]
            exact h.down m
          processed := by
            rw [hsame.processed]
            exact h.processed }
  | stop w s' =>
    rw [hr] at hspec hpre
    obtain ⟨bs, hpart, htake, hw, hline, hall, -⟩ := hspec
    refine ⟨hw, hline, fun heq => hpart.ne_bytesOf hpause ?_⟩
    have htaken := htake.taken
    rw [← hall, heq] at htaken
    change bytesOf (done ++ rest) = s.taken ++ bs at htaken
    rw [h.taken, bytesOf_append] at htaken
    exact (List.append_cancel_left htaken).symm

end Sequences

section Streams

variable {s s₀ : Keyboard} {done rest stream : List ScanSeq} {portions : List (List UInt8)}
  {calls : List (List (List UInt8))}

theorem Booted.decoded (h : Booted s) : Decoded [] s where
  buffered := h.buffered
  taken := by
    obtain ⟨boot, hinit, -, htaken, -⟩ := h
    cases hinit
    exact htaken
  down m := by
    obtain ⟨boot, hinit, -, -, -⟩ := h
    cases hinit
    cases m <;> simp [Modifier.down, Modifier.Pressed]
  processed := by
    obtain ⟨boot, hinit, -, -, hproc⟩ := h
    cases hinit
    exact congrArg List.length hproc

theorem arrived_prefix_call (h : Buffered s) (portions : List (List UInt8)) :
    s.arrived <+: (call s portions).state.arrived := by
  have hbuf : Buffered { s with line := portions } := h
  have hspec := keyboardRead_spec hbuf
  unfold wp at hspec
  unfold call
  cases hr : keyboardRead { s with line := portions } with
  | ok _ s' =>
    rw [hr] at hspec
    obtain ⟨bs, htake, -⟩ := hspec
    exact htake.arrived
  | stop w s' =>
    rw [hr] at hspec
    obtain ⟨bs, -, htake, -⟩ := hspec
    exact htake.arrived

theorem decoded_of_run (h₀ : Booted s₀) (hr : Run ReadStep s₀ calls s)
    (hpause : ScanSeq.pause ∉ stream) :
    Buffered s ∧ (s.arrived <+: bytesOf stream → ∃ done rest, stream = done ++ rest ∧ Decoded done s) := by
  induction hr with
  | nil => exact ⟨h₀.buffered, fun _ => ⟨[], stream, rfl, h₀.decoded⟩⟩
  | @snoc l t u portions hrun hstep ih =>
    have hpre := arrived_prefix_call ih.1 portions
    have hspec := keyboardRead_spec (s := { t with line := portions }) ih.1
    unfold ReadStep at hstep
    obtain ⟨bs, htake, -⟩ := wp_ok hspec hstep
    refine ⟨htake.buffered, fun hu => ?_⟩
    have hstate : (call t portions).state.arrived = u.arrived := by
      rw [hstep]
      rfl
    rw [hstate] at hpre
    obtain ⟨done, rest, rfl, hdone⟩ := ih.2 (hpre.trans hu)
    have hpause' : ScanSeq.pause ∉ rest := fun h => hpause (List.mem_append_right _ h)
    have hcall := hdone.call hpause' (hstate ▸ hu)
    rw [hstep] at hcall
    dsimp only at hcall
    by_cases hbyte : HasByte t portions
    · rw [if_pos hbyte] at hcall
      obtain ⟨q, rest', rfl, hq⟩ := hcall
      exact ⟨done ++ [q], rest', by simp, hq⟩
    · rw [if_neg hbyte] at hcall
      exact ⟨done, rest, rfl, hcall⟩

theorem handleAll_arrived {E : Stop → Keyboard → Prop} {codes : List UInt8}
    (hroom : s.kbIn.count + codes.length ≤ kbInByte) :
    wp (handleAll codes) (fun _ s' => s'.arrived = s.arrived ++ codes ∧
      s'.kbIn.count = s.kbIn.count + codes.length) E s := by
  induction codes generalizing s with
  | nil =>
    rw [handleAll]
    exact ⟨(List.append_nil _).symm, (Int.add_zero _).symm⟩
  | cons code codes ih =>
    rw [List.length_cons] at hroom
    have hlt : s.kbIn.count < kbInByte := by omega
    rw [handleAll, wp_bind, keyboardHandler, wp_bind, wp_get, wp_bind, when, if_pos hlt, wp_modify,
      wp_modify]
    refine wp_mono (ih ?_) ?_ (fun _ _ h => h)
    · dsimp only
      omega
    · rintro _ t ⟨harr, hcount⟩
      dsimp only at harr hcount
      rw [harr, hcount, List.append_assoc, List.length_cons]
      exact ⟨rfl, by omega⟩

theorem call_fed {codes : List UInt8} (h : Buffered s) (hempty : s.arrived = s.taken)
    (hne : codes ≠ []) (hlen : codes.length ≤ kbInByte) :
    (call s [codes]).state.arrived = s.arrived ++ codes ∧ HasByte s [codes] := by
  have hcount : s.kbIn.count = 0 := by
    have hge : 0 ≤ s.kbIn.count := h.fifo.1.count_ge
    have hle := h.count_le_zero_iff.mpr hempty
    omega
  have hbuf : Buffered { s with line := [codes] } := h
  have hint := @interrupts_spec (fun _ _ => False) _ hbuf
  have hall : wp interrupts (fun _ t => t.arrived = s.arrived ++ codes ∧
      t.kbIn.count = s.kbIn.count + codes.length) (fun _ _ => False) { s with line := [codes] } := by
    have hroom : s.kbIn.count + codes.length ≤ kbInByte := by omega
    rw [interrupts, wp_bind, wp_get]
    exact @handleAll_arrived { s with line := [] } _ codes hroom
  obtain ⟨_, t, hrun, ⟨-, hline⟩, harr, hcount'⟩ :=
    exists_ok_of_wp (wp_mono (wp_and hint hall) (fun _ _ h => h) fun _ _ h => h.1)
  have hstate : (interrupts { s with line := [codes] }).state = t := by
    rw [hrun]
    rfl
  constructor
  · have hspec := keyboardRead_spec hbuf
    rw [hstate] at hspec
    unfold wp at hspec
    unfold call
    cases hr : keyboardRead { s with line := [codes] } with
    | ok _ s' =>
      rw [hr] at hspec
      obtain ⟨bs, -, -, -, hquiet⟩ := hspec
      exact (hquiet hline).trans harr
    | stop w s' =>
      rw [hr] at hspec
      obtain ⟨bs, -, -, -, -, -, hquiet⟩ := hspec
      exact (hquiet hline).trans harr
  · have hpos := List.length_pos_of_ne_nil hne
    rw [HasByte, hstate]
    omega

theorem ScanSeq.bytes_bounds (q : ScanSeq) : q.bytes ≠ [] ∧ q.bytes.length ≤ kbInByte := by
  cases q <;> simp [ScanSeq.bytes, kbInByte]

theorem exists_run (h₀ : Booted s₀) (hpause : ScanSeq.pause ∉ done) :
    ∃ calls s, Run ReadStep s₀ calls s ∧ Decoded done s ∧ s.arrived = s.taken := by
  induction done using List.reverseRecOn with
  | nil =>
    refine ⟨[], s₀, .nil, h₀.decoded, ?_⟩
    obtain ⟨boot, hinit, harr, htaken, -⟩ := h₀
    cases hinit
    exact harr.trans htaken.symm
  | append_singleton done q ih =>
    simp only [List.mem_append, List.mem_singleton, not_or] at hpause
    obtain ⟨calls, s, hrun, hdone, hempty⟩ := ih hpause.1
    obtain ⟨hne, hlen⟩ := q.bytes_bounds
    obtain ⟨harr, hbyte⟩ := call_fed hdone.buffered hempty hne hlen
    have hall : s.arrived ++ q.bytes = bytesOf (done ++ [q]) := by
      rw [hempty, hdone.taken, bytesOf_append, bytesOf_cons]
      simp [bytesOf]
    rw [hall] at harr
    have hq : ScanSeq.pause ∉ [q] := by simpa using hpause.2
    have hpre : (call s [q.bytes]).state.arrived <+: bytesOf (done ++ [q]) := by
      rw [harr]
    have hcall := hdone.call hq hpre
    cases hr : call s [q.bytes] with
    | ok _ s' =>
      rw [hr] at hcall harr
      dsimp only at hcall
      rw [if_pos hbyte] at hcall
      obtain ⟨q', rest', heq, hdec⟩ := hcall
      obtain ⟨rfl, rfl⟩ := List.cons.inj heq
      exact ⟨calls ++ [[q.bytes]], s', .snoc hrun hr, hdec, harr.trans hdec.taken.symm⟩
    | stop w s' =>
      rw [hr] at hcall harr
      exact absurd harr hcall.2.2

/-- At Pause a call takes two bytes: the second is compared with the first code of Pause. -/
theorem Outcome.eq_of_pause {s' : Keyboard} {bs : List UInt8} (h : Outcome s s' bs) (hne : bs ≠ [])
    (hpre : bs <+: ScanSeq.pause.bytes) : bs = [0xe1, 0x1d] := by
  unfold ScanSeq.bytes at hpre
  cases h with
  | none => exact absurd rfl hne
  | single b hb => exact absurd (List.cons_prefix_cons.mp hpre).1 hb.2
  | extended => exact absurd (List.cons_prefix_cons.mp hpre).1 (by decide)
  | printScreen => exact absurd (List.cons_prefix_cons.mp hpre).1 (by decide)
  | notPrintScreen => exact absurd (List.cons_prefix_cons.mp hpre).1 (by decide)
  | pause => exact absurd hpre (by decide)
  | notPause x cs hx =>
    obtain ⟨d, cs', hcs, -⟩ := hx
    have htail := (List.cons_prefix_cons.mp hpre).2
    cases cs with
    | nil =>
      obtain ⟨rfl, -⟩ := List.cons_prefix_cons.mp htail
      rfl
    | cons c cs =>
      have hc : c = 0xe1 := (List.cons.inj hcs).1.symm
      have hc' := (List.cons_prefix_cons.mp htail).1
      exact absurd (hc.symm.trans hc') (by decide)

theorem Partial.ne_pause {bs : List UInt8} (h : Partial bs) : bs ≠ ScanSeq.pause.bytes := by
  intro heq
  unfold ScanSeq.bytes at heq
  cases h with
  | extended => exact absurd heq (by decide)
  | printScreen => exact absurd (List.cons.inj heq).1 (by decide)
  | pause cs hcs =>
    obtain rfl := (List.cons.inj heq).2
    exact absurd hcs.1 (by decide)

theorem ScanSeq.bytes_ne (q : ScanSeq) : q.bytes ≠ [0xe1, 0x1d] := by
  cases q <;> simp [ScanSeq.bytes]

theorem not_decodes_of_pause (hpause : ScanSeq.pause ∈ stream) : ¬ Decodes stream := by
  intro hdecodes
  obtain ⟨done, rest, rfl, hfirst⟩ := List.eq_append_cons_of_mem hpause
  have hboot : Booted (initKeyboard {}).state := ⟨{}, rfl, rfl, rfl, rfl⟩
  obtain ⟨calls, s, hrun, hdone, hempty⟩ := exists_run hboot hfirst
  obtain ⟨hne, hlen⟩ := ScanSeq.pause.bytes_bounds
  obtain ⟨harr, hbyte⟩ := call_fed hdone.buffered hempty hne hlen
  have hall : s.arrived ++ ScanSeq.pause.bytes = s.taken ++ ScanSeq.pause.bytes := by rw [hempty]
  have hpre : (call s [ScanSeq.pause.bytes]).state.arrived <+:
      bytesOf (done ++ ScanSeq.pause :: rest) := by
    rw [harr, hall, hdone.taken, bytesOf_append, bytesOf_cons, ← List.append_assoc]
    exact List.prefix_append _ _
  obtain ⟨done', rest', -, hdone', hcall⟩ := hdecodes _ _ _ _ hboot hrun hpre
  have hspec := @keyboardRead_spec { s with line := [ScanSeq.pause.bytes] } hdone.buffered
  unfold wp at hspec
  rw [hall] at harr
  cases hr : call s [ScanSeq.pause.bytes] with
  | ok _ s' =>
    rw [hr] at hcall harr
    dsimp only at hcall
    rw [if_pos hbyte] at hcall
    obtain ⟨q, -, -, hq⟩ := hcall
    unfold call at hr
    rw [hr] at hspec
    obtain ⟨bs, htake, hout, hnil, -⟩ := hspec
    have htaken : s'.taken = s.taken ++ bs := htake.taken
    have hbs : bs ≠ [] := by
      intro hbs
      have hle := hnil.mp hbs
      unfold HasByte at hbyte
      omega
    have hpre' : bs <+: ScanSeq.pause.bytes := by
      have hle := htake.buffered.taken_prefix
      change s'.arrived = _ at harr
      rwa [harr, htaken, List.prefix_append_right_inj] at hle
    -- the bytes would be those of a sequence
    have hbytes : s.taken ++ q.bytes = s.taken ++ bs := by
      rw [← htaken, hq.taken, hdone'.taken, bytesOf_append, bytesOf_cons]
      simp [bytesOf]
    rw [hout.eq_of_pause hbs hpre'] at hbytes
    exact q.bytes_ne (List.append_cancel_left hbytes)
  | stop w s' =>
    rw [hr] at harr
    change s'.arrived = _ at harr
    unfold call at hr
    rw [hr] at hspec
    obtain ⟨bs, hpart, htake, -, -, heq, -⟩ := hspec
    have htaken : s'.taken = s.taken ++ bs := htake.taken
    rw [heq, htaken] at harr
    exact hpart.ne_pause (List.append_cancel_left harr)

/-- The keyboard is decoded as long as nobody presses Pause. -/
theorem decodes_iff : Decodes stream ↔ ScanSeq.pause ∉ stream := by
  refine ⟨fun h hpause => not_decodes_of_pause hpause h, fun hpause => ?_⟩
  intro s₀ calls s portions h₀ hrun hpre
  obtain ⟨hbuf, hdone⟩ := decoded_of_run h₀ hrun hpause
  obtain ⟨done, rest, rfl, hdec⟩ := hdone ((arrived_prefix_call hbuf portions).trans hpre)
  exact ⟨done, rest, rfl, hdec, hdec.call (fun h => hpause (List.mem_append_right _ h)) hpre⟩

theorem not_decodes_pause : ¬ Decodes [ScanSeq.pause] :=
  not_decodes_of_pause (List.mem_singleton.mpr rfl)

end Streams

end KB

end BazingaOS
