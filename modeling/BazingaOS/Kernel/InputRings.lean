import BazingaOS.Kernel.Keyboard
import BazingaOS.Kernel.TtyInput

/-!
# The input buffers are bounded queues

The buffer of the keyboard and the one of a terminal are ring buffers, which the interrupt handler and
`put_key` fill and `get_byte_from_kbuf` and `tty_dev_write` empty. The first gives back the bytes as
they came. The second takes keys of 32 bits, with the flags of the keys that were held, and gives back
their low bytes.
-/

namespace BazingaOS

open Prog

namespace KB

variable {E : Stop → Keyboard → Prop} {s s' : Keyboard} {scanCode : UInt8}

/-- The history of the buffer. -/
def trace (s : Keyboard) : RingTrace UInt8 := ⟨s.kbIn.ring, s.arrived, s.taken⟩

def Buffered (s : Keyboard) : Prop := (trace s).Inv kbInByte

/-- What the buffer and its interrupts leave alone. -/
def rest (s : Keyboard) : Keyboard :=
  { s with kbIn := {}, keyPressed := false, line := [], arrived := [], taken := [] }

/-- From `s` to `s'` the bytes `bs` are taken from the buffer. Without a byte that is to come, none
comes. -/
structure Takes (s : Keyboard) (bs : List UInt8) (s' : Keyboard) : Prop where
  buffered : Buffered s'
  arrived : s.arrived <+: s'.arrived
  taken : s'.taken = s.taken ++ bs
  quiet : s.line = [] → s'.line = [] ∧ s'.arrived = s.arrived

/-- Nothing else changes meanwhile. -/
structure Reads (s : Keyboard) (bs : List UInt8) (s' : Keyboard) : Prop extends Takes s bs s' where
  rest_eq : rest s' = rest s

theorem Reads.refl (h : Buffered s) : Reads s [] s where
  buffered := h
  arrived := List.prefix_rfl
  taken := (List.append_nil _).symm
  quiet hline := ⟨hline, rfl⟩
  rest_eq := rfl

theorem Takes.trans {s'' : Keyboard} {bs bs' : List UInt8} (h : Takes s bs s')
    (h' : Takes s' bs' s'') : Takes s (bs ++ bs') s'' where
  buffered := h'.buffered
  arrived := h.arrived.trans h'.arrived
  taken := by rw [h'.taken, h.taken, List.append_assoc]
  quiet hline := by
    obtain ⟨hline', harr⟩ := h.quiet hline
    obtain ⟨hline'', harr'⟩ := h'.quiet hline'
    exact ⟨hline'', harr'.trans harr⟩

theorem Reads.trans {s'' : Keyboard} {bs bs' : List UInt8} (h : Reads s bs s')
    (h' : Reads s' bs' s'') : Reads s (bs ++ bs') s'' where
  toTakes := h.toTakes.trans h'.toTakes
  rest_eq := h'.rest_eq.trans h.rest_eq

/-- The machine waits for ever: the bytes `bs` have been taken, and no further one comes. -/
structure Starves (s : Keyboard) (bs : List UInt8) (w : Stop) (s' : Keyboard) : Prop
    extends Reads s bs s' where
  why : w = .hang
  line_eq : s'.line = []
  all_taken : s'.arrived = s'.taken

theorem Reads.starves {s'' : Keyboard} {bs bs' : List UInt8} {w : Stop} (h : Reads s bs s')
    (h' : Starves s' bs' w s'') : Starves s (bs ++ bs') w s'' :=
  ⟨h.trans h'.toReads, h'.why, h'.line_eq, h'.all_taken⟩

theorem Buffered.count_le_zero_iff (h : Buffered s) : s.kbIn.count ≤ 0 ↔ s.arrived = s.taken := by
  obtain ⟨l, hl, harr⟩ := h
  have hcount : s.kbIn.count = l.length := hl.count_eq
  have harr' : s.arrived = s.taken ++ l := harr
  rw [harr', List.append_right_eq_self, hcount]
  constructor
  · intro hle
    exact List.eq_nil_of_length_eq_zero (by omega)
  · rintro rfl
    exact Int.le_refl 0

/-- What an interrupt does. -/
structure Arrives (s s' : Keyboard) : Prop where
  buffered : Buffered s'
  arrived : s.arrived <+: s'.arrived
  taken : s'.taken = s.taken
  line : s'.line = s.line
  rest_eq : rest s' = rest s

theorem keyboardHandler_spec (h : Buffered s) :
    wp (keyboardHandler scanCode) (fun _ => Arrives s) E s := by
  have hins : ((trace s).insert kbInByte scanCode).Inv kbInByte :=
    @RingTrace.Inv.step _ _ _ _ (.insert scanCode) h rfl
  simp only [keyboardHandler, wp_bind, wp_get, wp_when, wp_modify]
  refine ⟨fun hlt => ?_, fun hge => ?_⟩
  · have hring : s.kbIn.ring.count < kbInByte := hlt
    rw [RingTrace.insert, trace, if_pos hring, Ring.insert, if_pos hring] at hins
    exact ⟨hins, List.prefix_append _ _, rfl, rfl, rfl⟩
  · exact ⟨h, List.prefix_rfl, rfl, rfl, rfl⟩

theorem handleAll_spec {codes : List UInt8} (h : Buffered s) :
    wp (handleAll codes) (fun _ => Arrives s) E s := by
  induction codes generalizing s with
  | nil => exact ⟨h, List.prefix_rfl, rfl, rfl, rfl⟩
  | cons code codes ih =>
    rw [handleAll, wp_bind]
    refine wp_mono (keyboardHandler_spec h) ?_ (fun _ _ h => h)
    intro _ t ht
    refine wp_mono (ih ht.buffered) ?_ (fun _ _ h => h)
    intro _ u hu
    exact ⟨hu.buffered, ht.arrived.trans hu.arrived, hu.taken.trans ht.taken,
      hu.line.trans ht.line, hu.rest_eq.trans ht.rest_eq⟩

theorem interrupts_spec (h : Buffered s) :
    wp interrupts (fun _ s' => Reads s [] s' ∧ s'.line = s.line.tail) E s := by
  rw [interrupts, wp_bind, wp_get]
  cases hline : s.line with
  | nil => exact ⟨.refl h, hline⟩
  | cons codes line =>
    have hb : Buffered { s with line := line } := h
    refine wp_mono (handleAll_spec hb) ?_ (fun _ _ h => h)
    intro _ t ht
    exact ⟨{
      buffered := ht.buffered
      arrived := ht.arrived
      taken := by rw [ht.taken, List.append_nil]
      quiet := by simp [hline]
      rest_eq := ht.rest_eq }, ht.line⟩

theorem awaitByte_spec {n : Nat} (h : Buffered s) (hn : s.line.length = n) :
    wp (awaitByte n) (fun _ s' => Reads s [] s' ∧ 0 < s'.kbIn.count) (Starves s []) s := by
  induction n generalizing s with
  | zero =>
    simp only [awaitByte, wp_bind, wp_get, wp_ite, wp_halt, wp_pure]
    refine ⟨fun hc => ?_, fun hc => ⟨.refl h, by omega⟩⟩
    exact ⟨.refl h, rfl, List.eq_nil_of_length_eq_zero hn, h.count_le_zero_iff.mp hc⟩
  | succ n ih =>
    rw [awaitByte, wp_bind]
    refine wp_mono (interrupts_spec h) ?_ (fun _ _ h => h)
    rintro _ t ⟨ht, hline⟩
    simp only [wp_bind, wp_get, wp_ite, wp_pure]
    refine ⟨fun _ => ?_, fun hc => ⟨ht, by omega⟩⟩
    have hlen : t.line.length = n := by
      rw [hline, List.length_tail, hn, Nat.add_sub_cancel]
    refine wp_mono (ih ht.buffered hlen) ?_ ?_
    · rintro _ u ⟨hu, hc⟩
      exact ⟨ht.trans hu, hc⟩
    · intro w u hu
      exact ht.starves hu

theorem getByteFromKbuf_spec (h : Buffered s) :
    wp getByteFromKbuf (fun b => Reads s [b]) (Starves s []) s := by
  rw [getByteFromKbuf, wp_bind, wp_get, wp_bind]
  refine wp_mono (awaitByte_spec h rfl) ?_ (fun _ _ h => h)
  rintro _ t ⟨ht, hc⟩
  have hrem : ((trace t).remove kbInByte).Inv kbInByte :=
    @RingTrace.Inv.step _ _ _ _ .remove ht.buffered ⟨hc, rfl⟩
  simp only [takeByte, wp_bind, wp_get, wp_modify, wp_pure]
  apply Reads.trans ht
  exact {
    buffered := hrem
    arrived := List.prefix_rfl
    taken := rfl
    quiet := fun hline => ⟨hline, rfl⟩
    rest_eq := rfl }

/-- The start, with any bytes in the buffer. -/
def Booted (s : Keyboard) : Prop :=
  ∃ boot, initKeyboard boot = .ok () s ∧ boot.arrived = [] ∧ boot.taken = [] ∧ boot.processed = []

theorem Booted.buffered (h : Booted s) : Buffered s := by
  obtain ⟨boot, hinit, harr, htaken, -⟩ := h
  cases hinit
  refine ⟨[], Ring.holds_nil ?_ rfl rfl, ?_⟩
  · show 0 < kbInByte
    decide
  · change boot.arrived = boot.taken ++ []
    rw [harr, htaken]
    rfl

/-- The interrupt for a byte, or the removal of one while there is one. -/
def Step (s : Keyboard) : RingOp UInt8 → Keyboard → Prop
  | .insert scanCode, s' => keyboardHandler scanCode s = .ok () s'
  | .remove, s' => 0 < s.kbIn.count ∧ ∃ b, getByteFromKbuf s = .ok b s'

theorem Step.buffered {op : RingOp UInt8} (hstep : Step s op s') (h : Buffered s) : Buffered s' := by
  cases op with
  | insert scanCode =>
    have hspec := wp_ok (@keyboardHandler_spec (fun _ _ => True) _ scanCode h) hstep
    exact hspec.buffered
  | remove =>
    obtain ⟨-, b, hb⟩ := hstep
    have hspec := wp_ok (getByteFromKbuf_spec h) hb
    exact hspec.buffered

end KB

namespace TTY

/-- The part of `init_tty` that sets the buffer up. -/
def initBuf : Prog TtyDevice Unit :=
  setTty fun r => { r with inbufHead := 0, inbufTail := 0, inbufCount := 0 }

/-- The removal of a key by `tty_dev_write`. -/
def takeKey : Prog TtyDevice UInt8 := do
  let r := (← get).tty
  let ch := (r.inBuf r.inbufTail).toUInt8
  setTty fun r => { r with inbufTail := nextKey r.inbufTail, inbufCount := r.inbufCount - 1 }
  return ch

/-- A terminal, the keys that came while its buffer was not full, and the characters that were
taken. -/
structure Trace where
  dev : TtyDevice
  arrived : List Nat := []
  removed : List UInt8 := []

def ring (r : TtyRecord) : Ring Nat := ⟨r.inBuf, r.inbufHead, r.inbufTail, r.inbufCount⟩

def Step (t : Trace) : RingOp Nat → Trace → Prop
  | .insert key, t' => putKey key t.dev = .ok () t'.dev ∧ t'.removed = t.removed ∧
      t'.arrived = if t.dev.tty.inbufCount < ttyInBytes then t.arrived ++ [key] else t.arrived
  | .remove, t' => 0 < t.dev.tty.inbufCount ∧ ∃ ch, takeKey t.dev = .ok ch t'.dev ∧
      t'.removed = t.removed ++ [ch] ∧ t'.arrived = t.arrived

/-- The characters are the low bytes of the keys that a queue has given back. -/
def Buffered (t : Trace) : Prop :=
  ∃ keys, RingTrace.Inv ttyInBytes ⟨ring t.dev.tty, t.arrived, keys⟩ ∧
    t.removed = keys.map Nat.toUInt8

section

variable {E : Stop → TtyDevice → Prop} {dev : TtyDevice}

theorem putKey_spec (key : Nat) :
    wp (putKey key) (fun _ dev' => ring dev'.tty = (ring dev.tty).insert ttyInBytes key) E dev := by
  have hcount : (ring dev.tty).count = dev.tty.inbufCount := rfl
  simp only [putKey, wp_bind, wp_get, wp_when]
  refine ⟨fun hlt => ?_, fun hge => ?_⟩
  · have hlt' : (ring dev.tty).count < ttyInBytes := by omega
    rw [setTty, wp_modify, Ring.insert, if_pos hlt']
    rfl
  · have hge' : ¬ (ring dev.tty).count < ttyInBytes := by omega
    rw [Ring.insert, if_neg hge']

theorem takeKey_spec (hpos : 0 < dev.tty.inbufCount) :
    wp takeKey (fun ch dev' => ch = (ring dev.tty).front.toUInt8 ∧
      ring dev'.tty = (ring dev.tty).remove ttyInBytes) E dev := by
  have hcount : ((dev.tty.inbufCount - 1 : Nat) : Int) = dev.tty.inbufCount - 1 := by omega
  simp only [takeKey, wp_bind, wp_get, setTty, wp_modify, wp_pure]
  refine ⟨rfl, ?_⟩
  simp only [ring, Ring.remove, hcount]
  rfl

end

variable {t t' : Trace}

theorem Step.buffered {op : RingOp Nat} (hstep : Step t op t') (h : Buffered t) : Buffered t' := by
  obtain ⟨keys, hinv, hrem⟩ := h
  cases op with
  | insert key =>
    obtain ⟨hput, hrem', harr'⟩ := hstep
    have hring := wp_ok (@putKey_spec (fun _ _ => True) t.dev key) hput
    have hins := @RingTrace.Inv.step _ _ _ _ (.insert key) hinv rfl
    refine ⟨keys, ?_, hrem'.trans hrem⟩
    rw [hring, harr']
    simpa [RingTrace.insert, ring] using hins
  | remove =>
    obtain ⟨hpos, ch, htake, hrem', harr'⟩ := hstep
    obtain ⟨hch, hring⟩ := wp_ok (@takeKey_spec (fun _ _ => True) t.dev hpos) htake
    have hcount : 0 < (ring t.dev.tty).count := by
      change 0 < (t.dev.tty.inbufCount : Int)
      omega
    have hinv' := @RingTrace.Inv.step _ _ _ _ .remove hinv ⟨hcount, rfl⟩
    refine ⟨keys ++ [(ring t.dev.tty).front], ?_, ?_⟩
    · rw [hring, harr']
      exact hinv'
    · rw [hrem', hrem, hch, List.map_append]
      rfl

theorem buffered_init {dev dev' : TtyDevice} (h : initBuf dev = .ok () dev') :
    Buffered { dev := dev' } := by
  cases h
  refine ⟨[], ⟨[], Ring.holds_nil ?_ rfl rfl, rfl⟩, rfl⟩
  show 0 < ttyInBytes
  decide

end TTY

/-- Over any interleaving of interrupts and removals the buffer of the keyboard gives back the bytes
that came while it was not full, in their order; the buffer of a terminal gives back the low bytes of
its keys. -/
theorem inputBuffers_fifo :
    (∀ s₀ ops s, KB.Booted s₀ → Run KB.Step s₀ ops s →
      s.kbIn.ring.Ok kbInByte ∧ s.taken <+: s.arrived) ∧
    (∀ dev dev₀ ops t, TTY.initBuf dev = .ok () dev₀ → Run TTY.Step { dev := dev₀ } ops t →
      (TTY.ring t.dev.tty).Ok ttyInBytes ∧ t.removed <+: t.arrived.map Nat.toUInt8) := by
  constructor
  · intro s₀ ops s hboot hrun
    have hs : KB.Buffered s := hrun.invariant hboot.buffered fun _ _ _ hstep hu => hstep.buffered hu
    exact hs.fifo
  · intro dev dev₀ ops t hinit hrun
    obtain ⟨keys, hinv, hrem⟩ : TTY.Buffered t :=
      hrun.invariant (TTY.buffered_init hinit) fun _ _ _ hstep hu => hstep.buffered hu
    obtain ⟨hok, hpre⟩ := hinv.fifo
    refine ⟨hok, ?_⟩
    rw [hrem]
    exact hpre.map _

private def bootKeyboard : Keyboard := (KB.initKeyboard {}).state

private def bootTty : TtyDevice :=
  { con := ⟨0, nrTtys_pos⟩, screen := { vMem := fun _ => 0 }, mem := fun _ => 0 }

private def shiftedA : Nat := 'A'.toNat ||| flagShiftL

private def typedA : TtyDevice := (TTY.putKey shiftedA bootTty).state

private theorem run_typedA : Run TTY.Step { dev := bootTty } [.insert shiftedA, .remove]
    { dev := (TTY.takeKey typedA).state, arrived := [shiftedA], removed := ['A'.toUInt8] } := by
  have hput : TTY.Step { dev := bootTty } (.insert shiftedA)
      { dev := typedA, arrived := [shiftedA] } := ⟨rfl, rfl, rfl⟩
  refine .snoc (.snoc .nil hput) ?_
  exact ⟨by decide, _, rfl, rfl, rfl⟩

theorem inputBuffers_fifo_typedA :
    ∃ s t, Run KB.Step bootKeyboard [.insert 0x1e, .remove] s ∧
      Run TTY.Step { dev := bootTty } [.insert shiftedA, .remove] t ∧
      (s.kbIn.ring.Ok kbInByte ∧ s.taken <+: s.arrived) ∧
      (TTY.ring t.dev.tty).Ok ttyInBytes ∧ t.removed <+: t.arrived.map Nat.toUInt8 := by
  have hkey : Run KB.Step bootKeyboard [.insert 0x1e, .remove] _ :=
    .snoc (.snoc .nil rfl) ⟨by decide, _, rfl⟩
  refine ⟨_, _, hkey, run_typedA, ?_, ?_⟩
  · exact inputBuffers_fifo.1 _ _ _ ⟨{}, rfl, rfl, rfl, rfl⟩ hkey
  · exact inputBuffers_fifo.2 bootTty _ _ _ rfl run_typedA

/-- An `A` that is typed with the left shift key comes back without the flag of that key. -/
theorem inputBuffers_fifo_shifted :
    ¬ ∀ dev dev₀ ops t, TTY.initBuf dev = .ok () dev₀ → Run TTY.Step { dev := dev₀ } ops t →
      t.removed.map UInt8.toNat <+: t.arrived := by
  intro h
  have hpre := h bootTty _ _ _ rfl run_typedA
  revert hpre
  decide

end BazingaOS
