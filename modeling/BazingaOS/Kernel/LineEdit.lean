import BazingaOS.Kernel.TtyInput

/-!
# Line editing

What is left of the keys that were typed is a list from which a backspace removes the last
character. `tty_dev_write` keeps the characters of this list in the buffer of the reader and their
number in `tty_trans_bytes`, as long as no backspace comes when the list is empty: then the number
becomes negative.
-/

namespace BazingaOS

open Prog TTY

/-- The effect of a key on the characters that are left. -/
def editKey (l : List UInt8) (key : Nat) : List UInt8 :=
  if Printable key.toUInt8 then l ++ [key.toUInt8]
  else if key.toUInt8 = 8 then l.dropLast else l

/-- The printable characters typed, each backspace having removed the last one. -/
def edited (keys : List Nat) : List UInt8 := keys.foldl editKey []

theorem edited_concat (keys : List Nat) (key : Nat) :
    edited (keys ++ [key]) = editKey (edited keys) key := by
  simp [edited]

/-- The request of a terminal, without its ring buffer and its console. -/
structure Line where
  caller : Endpoint
  proNr : Int
  readBuf : Int
  left : Int
  trans : Int
  mem : Int → UInt8
  sent : List (Endpoint × Message)

def TtyDevice.line (s : TtyDevice) : Line where
  caller := s.tty.ttyCaller
  proNr := s.tty.ttyProNr
  readBuf := s.tty.ttyReadBuf
  left := s.tty.ttyBytesLeft
  trans := s.tty.ttyTransBytes
  mem := s.mem
  sent := s.sent

namespace Line

/-- A character moves the counters. -/
def move (x : Line) (ch : UInt8) : Line :=
  if Printable ch then
    { x with
      mem := Function.update x.mem (x.readBuf + x.trans) ch
      left := x.left - 1
      trans := x.trans + 1 }
  else if ch = 8 then { x with left := x.left + 1, trans := x.trans - 1 }
  else x

def finish (x : Line) : Line :=
  { x with
    sent := x.sent ++ [(x.caller, { type := .resumeProc, m3i3 := x.proNr, m3i2 := x.trans })]
    left := 0 }

def key (x : Line) (key : Nat) : Line :=
  if 0 < x.left then
    if (x.move key.toUInt8).left = 0 ∨ key.toUInt8 = 10 then (x.move key.toUInt8).finish
    else x.move key.toUInt8
  else x

end Line

/-- Between two keys: the ring buffer is empty and the consoles are in their areas. -/
structure TtyDevice.Idle (s : TtyDevice) : Prop where
  count : s.tty.inbufCount = 0
  ring : s.tty.inbufHead = s.tty.inbufTail
  screen : s.screen.Ok

section Refinement

variable {s : TtyDevice} {fuel : Nat}

theorem echo_spec (hs : s.screen.Ok) (hfuel : CON.memSize / screenWidth + 1 ≤ fuel) (ch : UInt8) :
    wp (echo fuel ch) (fun _ s' => ∃ scr : Screen, scr.Ok ∧ s' = { s with screen := scr })
      (fun _ _ => False) s := by
  obtain ⟨scr, hstep⟩ := exists_screenStep hs hfuel (.outChar ch s.con)
  have hout : CON.outChar fuel ch s.con s.screen = .ok () scr := hstep
  have hecho : echo fuel ch s = .ok () { s with screen := scr } := by
    unfold echo
    rw [hout]
  unfold wp
  rw [hecho]
  exact ⟨scr, (hstep.spec hs hfuel).ok, rfl⟩

theorem moveChar_spec (hs : s.screen.Ok) (hfuel : CON.memSize / screenWidth + 1 ≤ fuel)
    (ch : UInt8) :
    wp (moveChar fuel ch) (fun _ s' => s'.screen.Ok ∧ s'.line = s.line.move ch ∧
      s'.tty.inbufCount = s.tty.inbufCount ∧ s'.tty.inbufHead = s.tty.inbufHead ∧
      s'.tty.inbufTail = s.tty.inbufTail) (fun _ _ => False) s := by
  simp only [moveChar, wp_ite, wp_when, wp_bind]
  refine ⟨fun hp => ?_, fun hp => ⟨fun h8 => ?_, fun h8 => ?_⟩⟩
  · refine wp_mono (echo_spec hs hfuel ch) ?_ (fun _ _ h => h)
    rintro _ s₁ ⟨scr, hscr, rfl⟩
    refine ⟨hscr, ?_, rfl, rfl, rfl⟩
    rw [Line.move, if_pos hp]
    rfl
  · refine wp_mono (echo_spec hs hfuel ch) ?_ (fun _ _ h => h)
    rintro _ s₁ ⟨scr, hscr, rfl⟩
    refine ⟨hscr, ?_, rfl, rfl, rfl⟩
    rw [Line.move, if_neg hp, if_pos h8]
    rfl
  · refine ⟨hs, ?_, by simp⟩
    rw [Line.move, if_neg hp, if_neg h8]

theorem endRead_spec (hs : s.screen.Ok) (hfuel : CON.memSize / screenWidth + 1 ≤ fuel)
    (ch : UInt8) :
    wp (endRead fuel ch) (fun _ s' => s'.screen.Ok ∧
      s'.line = (if s.line.left = 0 ∨ ch = 10 then s.line.finish else s.line) ∧
      s'.tty.inbufCount = s.tty.inbufCount ∧ s'.tty.inbufHead = s.tty.inbufHead ∧
      s'.tty.inbufTail = s.tty.inbufTail) (fun _ _ => False) s := by
  simp only [endRead, wp_bind, wp_get, wp_when]
  refine ⟨fun hc => ?_, fun hc => ?_⟩
  · have hc' : s.line.left = 0 ∨ ch = 10 := hc
    rw [if_pos hc']
    refine wp_mono (echo_spec hs hfuel 10) ?_ (fun _ _ h => h)
    rintro _ s₁ ⟨scr, hscr, rfl⟩
    exact ⟨hscr, rfl, rfl, rfl, rfl⟩
  · have hc' : ¬ (s.line.left = 0 ∨ ch = 10) := hc
    rw [if_neg hc']
    exact ⟨hs, rfl, by simp⟩

theorem writeKey_spec (hs : s.screen.Ok) (hfuel : CON.memSize / screenWidth + 1 ≤ fuel)
    (hcount : s.tty.inbufCount = 1) (hring : s.tty.inbufHead = nextKey s.tty.inbufTail) :
    wp (writeKey fuel) (fun _ s' => s'.Idle ∧
      s'.line = s.line.key (s.tty.inBuf s.tty.inbufTail)) (fun _ _ => False) s := by
  have hidle : ∀ s' : TtyDevice, s'.screen.Ok → s'.tty.inbufCount = s.tty.inbufCount - 1 →
      s'.tty.inbufHead = s.tty.inbufHead → s'.tty.inbufTail = nextKey s.tty.inbufTail → s'.Idle := by
    intro s' hs' hc hh ht
    exact ⟨by rw [hc, hcount], by rw [hh, ht, hring], hs'⟩
  simp only [writeKey, wp_bind, wp_get, wp_when, setTty, wp_modify]
  refine ⟨fun hleft => ?_, fun hleft => ?_⟩
  · have hleft' : 0 < s.line.left := hleft
    rw [Line.key, if_pos hleft']
    refine wp_mono (moveChar_spec (by exact hs) hfuel _) ?_ (fun _ _ h => h)
    rintro _ s₁ ⟨hs₁, hline₁, hc₁, hh₁, ht₁⟩
    refine wp_mono (endRead_spec hs₁ hfuel _) ?_ (fun _ _ h => h)
    rintro _ s₂ ⟨hs₂, hline₂, hc₂, hh₂, ht₂⟩
    refine ⟨hidle s₂ hs₂ (hc₂.trans hc₁) (hh₂.trans hh₁) (ht₂.trans ht₁), ?_⟩
    rw [hline₂, hline₁]
    rfl
  · have hleft' : ¬ 0 < s.line.left := hleft
    rw [Line.key, if_neg hleft']
    exact ⟨hidle _ hs rfl rfl rfl, rfl⟩

theorem typeKey_spec (hs : s.Idle) (hfuel : CON.memSize / screenWidth + 1 ≤ fuel) (key : Nat) :
    wp (typeKey fuel key) (fun _ s' => s'.Idle ∧ s'.line = s.line.key key) (fun _ _ => False)
      s := by
  have hroom : s.tty.inbufCount < ttyInBytes := by
    rw [hs.count]
    decide
  simp only [typeKey, putKey, wp_bind, wp_get, wp_when, setTty, wp_modify]
  refine ⟨fun _ => ?_, fun hfull => absurd hroom hfull⟩
  generalize hu : ({ s with tty := _ } : TtyDevice) = u
  have hline : u.line = s.line := by rw [← hu]; rfl
  have hscr : u.screen.Ok := by rw [← hu]; exact hs.screen
  have hcount : u.tty.inbufCount = 1 := by rw [← hu]; simp [hs.count]
  have hring : u.tty.inbufHead = nextKey u.tty.inbufTail := by rw [← hu]; simp [hs.ring]
  have hkey : u.tty.inBuf u.tty.inbufTail = key := by rw [← hu]; simp [hs.ring]
  have hgoal : ∀ s' : TtyDevice, s'.Idle ∧ s'.line = u.line.key (u.tty.inBuf u.tty.inbufTail) →
      s'.Idle ∧ s'.line = s.line.key key := by
    intro s' h
    rw [hline, hkey] at h
    exact h
  unfold ttyDevWrite
  apply wp_whileLoop (I := fun v => v = u ∨ v.Idle ∧ v.line = s.line.key key)
    (m := fun v => v.tty.inbufCount) (.inl rfl)
  · rw [CON.memSize_eq] at hfuel
    change 5461 / 80 + 1 ≤ fuel at hfuel
    omega
  · rintro v (rfl | ⟨hv, -⟩) hpos
    · refine wp_mono (writeKey_spec hscr hfuel hcount hring) ?_ (fun _ _ h => h)
      intro _ s' hs'
      have hs'' := hgoal s' hs'
      exact ⟨.inr hs'', by rw [hs''.1.count, hcount]; decide⟩
    · exact absurd hpos (by rw [hv.count]; decide)
  · rintro v (rfl | hv) hpos
    · exact absurd (by rw [hcount]; decide) hpos
    · exact hv

end Refinement

/-- A step at which `l` is what is left of the keys: bytes are stored inside the buffer only, and the
counters stay complementary, or the caller is told to resume the process with the number of the
characters in its buffer. -/
structure Line.StepOk (n : Nat) (l : List UInt8) (x y : Line) : Prop where
  frame : ∀ a, a < x.readBuf ∨ x.readBuf + n ≤ a → y.mem a = x.mem a
  counts : (y.sent = x.sent ∧ 0 ≤ y.trans ∧ y.trans ≤ n ∧ y.trans + y.left = n) ∨
    ∃ m, y.sent = x.sent ++ [(x.caller, m)] ∧ m.type = .resumeProc ∧ m.m3i3 = x.proNr ∧
      ∃ k : Nat, k ≤ n ∧ m.m3i2 = (k : Int) ∧
        (List.range k).map (fun i : Nat => y.mem (x.readBuf + i)) = l

/-- The request for `n` bytes is pending and the characters `l` are in the buffer. -/
structure Line.Pending (n : Nat) (l : List UInt8) (x : Line) : Prop where
  trans : x.trans = l.length
  left : x.left = n - l.length
  room : l.length < n
  bytes : ∀ i (h : i < l.length), x.mem (x.readBuf + i) = l[i]

namespace Line

variable {n : Nat} {l : List UInt8} {x : Line}

theorem range_map_eq {f : Nat → UInt8} (h : ∀ i (hi : i < l.length), f i = l[i]) :
    (List.range l.length).map f = l := by
  apply List.ext_getElem
  · simp
  · intro i _ hi
    simp [h i hi]

theorem Pending.move_bytes (h : x.Pending n l) {ch : UInt8} (hp : Printable ch) (i : Nat)
    (hi : i < (l ++ [ch]).length) : (x.move ch).mem (x.readBuf + i) = (l ++ [ch])[i] := by
  rw [move, if_pos hp]
  dsimp only
  rw [h.trans]
  rw [List.length_append, List.length_singleton] at hi
  rcases Nat.lt_or_ge i l.length with hlt | hge
  · rw [Function.update_of_ne (by omega), h.bytes i hlt, List.getElem_append_left hlt]
  · have he : i = l.length := by omega
    subst he
    rw [Function.update_self, List.getElem_concat_length rfl]

theorem Pending.key (h : x.Pending n l) (key : Nat) (hbs : key.toUInt8 = 8 → l ≠ []) :
    StepOk n (editKey l key) x (x.key key) ∧
      ((x.key key).Pending n (editKey l key) ∧ key.toUInt8 ≠ 10 ∨
        (x.key key).left = 0 ∧ (key.toUInt8 = 10 ∨ (editKey l key).length = n)) := by
  have hroom := h.room
  have hleft := h.left
  have htrans := h.trans
  have hpos : 0 < x.left := by omega
  rw [Line.key, if_pos hpos]
  unfold editKey
  generalize key.toUInt8 = ch at hbs ⊢
  by_cases hp : Printable ch
  · have h10 : ch ≠ 10 := by
      rintro rfl
      exact absurd hp (by decide)
    have hmove : x.move ch = { x with
        mem := Function.update x.mem (x.readBuf + x.trans) ch
        left := x.left - 1
        trans := x.trans + 1 } := if_pos hp
    have hframe : ∀ a, a < x.readBuf ∨ x.readBuf + n ≤ a → (x.move ch).mem a = x.mem a := by
      intro a ha
      rw [hmove]
      exact Function.update_of_ne (by omega) _ _
    have hlen : (l ++ [ch]).length = l.length + 1 := by simp
    rw [if_pos hp]
    by_cases hdone : (x.move ch).left = 0
    · rw [if_pos (.inl hdone)]
      have hn : l.length + 1 = n := by
        rw [hmove] at hdone
        dsimp only at hdone
        omega
      refine ⟨⟨hframe, .inr ⟨{ type := .resumeProc, m3i3 := x.proNr, m3i2 := x.trans + 1 }, ?_, rfl,
        rfl, n, Nat.le_refl n, ?_, ?_⟩⟩, .inr ⟨rfl, .inr (by omega)⟩⟩
      · rw [finish, hmove]
      · dsimp only
        omega
      · have hbytes := range_map_eq (h.move_bytes hp)
        rw [hlen, hn] at hbytes
        exact hbytes
    · rw [if_neg (not_or.mpr ⟨hdone, h10⟩)]
      have hleft' : (x.move ch).left = x.left - 1 := by rw [hmove]
      have htrans' : (x.move ch).trans = x.trans + 1 := by rw [hmove]
      have hsent : (x.move ch).sent = x.sent := by rw [hmove]
      have hbuf : (x.move ch).readBuf = x.readBuf := by rw [hmove]
      refine ⟨⟨hframe, .inl ⟨hsent, by omega, by omega, by omega⟩⟩, .inl ⟨?_, h10⟩⟩
      exact {
        trans := by omega
        left := by omega
        room := by omega
        bytes := by
          rw [hbuf]
          exact h.move_bytes hp }
  · rw [if_neg hp]
    by_cases h8 : ch = 8
    · have hmove : x.move ch = { x with left := x.left + 1, trans := x.trans - 1 } := by
        rw [move, if_neg hp, if_pos h8]
      have hlen := List.length_pos_iff.mpr (hbs h8)
      have hdrop : l.dropLast.length = l.length - 1 := List.length_dropLast
      have hgo : ¬ ((x.move ch).left = 0 ∨ ch = 10) := by
        rw [hmove, h8]
        dsimp only
        rintro (he | he)
        · omega
        · exact absurd he (by decide)
      rw [if_pos h8, if_neg hgo, hmove]
      refine ⟨⟨fun _ _ => rfl, .inl ⟨rfl, ?_, ?_, ?_⟩⟩, .inl ⟨?_, fun he => hgo (.inr he)⟩⟩
      · dsimp only
        omega
      · dsimp only
        omega
      · dsimp only
        omega
      · exact {
          trans := by dsimp only; omega
          left := by dsimp only; omega
          room := by omega
          bytes := by
            intro i hi
            rw [List.getElem_dropLast]
            exact h.bytes i (by omega) }
    · have hmove : x.move ch = x := by rw [move, if_neg hp, if_neg h8]
      rw [if_neg h8, hmove]
      by_cases h10 : ch = 10
      · rw [if_pos (.inr h10)]
        refine ⟨⟨fun _ _ => rfl, .inr ⟨_, rfl, rfl, rfl, l.length, by omega, htrans, ?_⟩⟩,
          .inr ⟨rfl, .inl h10⟩⟩
        exact range_map_eq h.bytes
      · have hgo : ¬ (x.left = 0 ∨ ch = 10) := by
          rintro (he | he)
          · omega
          · exact h10 he
        rw [if_neg hgo]
        exact ⟨⟨fun _ _ => rfl, .inl ⟨rfl, by omega, by omega, by omega⟩⟩, .inl ⟨h, h10⟩⟩

theorem Pending.underflow (h : x.Pending n []) {key : Nat} (h8 : key.toUInt8 = 8)
    (l : List UInt8) : ¬ StepOk n l x (x.key key) := by
  have hleft := h.left
  have htrans := h.trans
  have hroom := h.room
  rw [List.length_nil] at hleft htrans hroom
  have hmove : x.move key.toUInt8 = { x with left := x.left + 1, trans := x.trans - 1 } := by
    rw [move, h8]
    rfl
  have hkey : x.key key = { x with left := x.left + 1, trans := x.trans - 1 } := by
    rw [Line.key, if_pos (by omega), if_neg, hmove]
    rw [hmove, h8]
    dsimp only
    rintro (he | he)
    · omega
    · exact absurd he (by decide)
  intro hok
  rcases hok.counts with ⟨-, h0, -⟩ | ⟨m, hsent, -⟩
  · rw [hkey] at h0
    dsimp only at h0
    omega
  · rw [hkey] at hsent
    simp at hsent

end Line

section Runs

variable {fuel n : Nat} {s s₀ : TtyDevice} {keys : List Nat}

def KeyStep (fuel : Nat) (s : TtyDevice) (key : Nat) (s' : TtyDevice) : Prop :=
  typeKey fuel key s = .ok () s'

/-- Every key that comes while the request for `n` bytes is pending does what it should. -/
def LineOk (fuel n : Nat) (s₀ : TtyDevice) (keys : List Nat) : Prop :=
  ∀ l key l' s, keys = l ++ key :: l' → Run (KeyStep fuel) s₀ l s → 0 < s.tty.ttyBytesLeft →
    ∃ s', KeyStep fuel s key s' ∧ Line.StepOk n (edited (l ++ [key])) s.line s'.line

/-- No key has completed a request for `n` bytes. -/
def StillPending (n : Nat) (keys : List Nat) : Prop :=
  ∀ l l', keys = l ++ l' → (edited l).length < n ∧ ∀ key ∈ l, key.toUInt8 ≠ 10

/-- A backspace that comes while the request is pending finds a character to remove. -/
def NoUnderflow (n : Nat) (keys : List Nat) : Prop :=
  ∀ l key l', keys = l ++ key :: l' → StillPending n l → key.toUInt8 = 8 → edited l ≠ []

theorem exists_keyStep (hs : s.Idle) (hfuel : CON.memSize / screenWidth + 1 ≤ fuel) (key : Nat) :
    ∃ s', KeyStep fuel s key s' ∧ s'.Idle ∧ s'.line = s.line.key key := by
  have hspec := typeKey_spec hs hfuel key
  have hret := Result.eq_ok_of_isOk (isOk_of_wp hspec)
  have hline := wp_ok hspec hret
  exact ⟨_, hret, hline⟩

theorem KeyStep.spec {key : Nat} {s' : TtyDevice} (hstep : KeyStep fuel s key s') (hs : s.Idle)
    (hfuel : CON.memSize / screenWidth + 1 ≤ fuel) : s'.Idle ∧ s'.line = s.line.key key := by
  have hline := wp_ok (typeKey_spec hs hfuel key) hstep
  exact hline

theorem exists_keyRun (hs : s₀.Idle) (hfuel : CON.memSize / screenWidth + 1 ≤ fuel)
    (keys : List Nat) : ∃ s, Run (KeyStep fuel) s₀ keys s ∧ s.Idle := by
  induction keys using List.reverseRecOn with
  | nil => exact ⟨s₀, .nil, hs⟩
  | append_singleton keys key ih =>
    obtain ⟨s, hr, hidle⟩ := ih
    obtain ⟨s', hstep, hs', -⟩ := exists_keyStep hidle hfuel key
    exact ⟨s', .snoc hr hstep, hs'⟩

theorem StillPending.left {l l' : List Nat} (h : StillPending n (l ++ l')) : StillPending n l := by
  intro l₁ l₂ hl
  exact h l₁ (l₂ ++ l') (by simp [hl])

theorem NoUnderflow.left {l l' : List Nat} (h : NoUnderflow n (l ++ l')) : NoUnderflow n l := by
  intro l₁ key l₂ hl
  exact h l₁ key (l₂ ++ l') (by simp [hl])

theorem LineOk.left {l l' : List Nat} (h : LineOk fuel n s₀ (l ++ l')) : LineOk fuel n s₀ l := by
  intro l₁ key l₂ s hl
  exact h l₁ key (l₂ ++ l') s (by simp [hl])

theorem stillPending_concat {key : Nat} (h : StillPending n keys)
    (hlen : (edited (keys ++ [key])).length < n) (h10 : key.toUInt8 ≠ 10) :
    StillPending n (keys ++ [key]) := by
  intro l l' hl
  rcases List.eq_nil_or_concat l' with rfl | ⟨l'', k, rfl⟩
  · rw [List.append_nil] at hl
    subst hl
    refine ⟨hlen, ?_⟩
    intro k hk
    rcases List.mem_append.mp hk with hk | hk
    · exact (h keys [] (by simp)).2 k hk
    · rw [List.mem_singleton.mp hk]
      exact h10
  · rw [List.concat_eq_append, ← List.append_assoc] at hl
    have hkeys := List.append_inj_left' hl rfl
    exact h l l'' hkeys

/-- The request stays pending with the characters that are left in its buffer, or it is complete. -/
theorem NoUnderflow.inv (h : NoUnderflow n keys) (hs : s₀.Idle) (hline : s₀.line.Pending n [])
    (hfuel : CON.memSize / screenWidth + 1 ≤ fuel) (hr : Run (KeyStep fuel) s₀ keys s) :
    s.Idle ∧ (StillPending n keys ∧ s.line.Pending n (edited keys) ∨
      ¬ StillPending n keys ∧ s.line.left = 0) := by
  induction hr with
  | nil =>
    refine ⟨hs, .inl ⟨?_, hline⟩⟩
    intro l l' hl
    obtain ⟨rfl, rfl⟩ := List.append_eq_nil_iff.mp hl.symm
    exact ⟨hline.room, by simp⟩
  | @snoc keys s s' key hr hstep ih =>
    obtain ⟨hidle, hcase⟩ := ih h.left
    obtain ⟨hidle', heq⟩ := hstep.spec hidle hfuel
    refine ⟨hidle', ?_⟩
    rcases hcase with ⟨hstill, hpend⟩ | ⟨hdone, hleft⟩
    · obtain ⟨-, hres⟩ := hpend.key key (h keys key [] rfl hstill)
      rw [← heq, ← edited_concat] at hres
      rcases hres with ⟨hpend', h10⟩ | ⟨hleft, hend⟩
      · exact .inl ⟨stillPending_concat hstill hpend'.room h10, hpend'⟩
      · refine .inr ⟨?_, hleft⟩
        intro hstill'
        obtain ⟨hlen, h10⟩ := hstill' (keys ++ [key]) [] (by simp)
        rcases hend with hend | hend
        · exact h10 key (by simp) hend
        · omega
    · refine .inr ⟨fun hstill => hdone hstill.left, ?_⟩
      rw [heq, Line.key, if_neg (by omega), hleft]

theorem NoUnderflow.lineOk (h : NoUnderflow n keys) (hs : s₀.Idle) (hline : s₀.line.Pending n [])
    (hfuel : CON.memSize / screenWidth + 1 ≤ fuel) : LineOk fuel n s₀ keys := by
  rintro l key l' s rfl hr hpos
  obtain ⟨hidle, hcase⟩ := h.left.inv hs hline hfuel hr
  obtain ⟨s', hstep, -, heq⟩ := exists_keyStep hidle hfuel key
  refine ⟨s', hstep, ?_⟩
  rcases hcase with ⟨hstill, hpend⟩ | ⟨-, hleft⟩
  · rw [heq, edited_concat]
    exact (hpend.key key (h l key l' rfl hstill)).1
  · exact absurd hleft (Int.ne_of_gt hpos)

theorem LineOk.noUnderflow (h : LineOk fuel n s₀ keys) (hs : s₀.Idle)
    (hline : s₀.line.Pending n []) (hfuel : CON.memSize / screenWidth + 1 ≤ fuel) :
    NoUnderflow n keys := by
  induction keys using List.reverseRecOn with
  | nil =>
    intro l key l' hl
    simp at hl
  | append_singleton keys last ih =>
    have hpre := ih h.left
    intro l key l' hl hstill h8 hnil
    rcases List.eq_nil_or_concat l' with rfl | ⟨l'', k, rfl⟩
    · obtain ⟨rfl, hkey⟩ := List.append_inj' hl rfl
      cases hkey
      obtain ⟨s, hr, -⟩ := exists_keyRun hs hfuel keys
      obtain ⟨hidle, hcase⟩ := hpre.inv hs hline hfuel hr
      rcases hcase with ⟨-, hpend⟩ | ⟨hdone, -⟩
      · have hleft := hpend.left
        have hroom := hpend.room
        obtain ⟨s', hstep, hok⟩ := h keys last [] s rfl hr (by
          change 0 < s.line.left
          omega)
        rw [(hstep.spec hidle hfuel).2] at hok
        rw [hnil] at hpend
        exact hpend.underflow h8 _ hok
      · exact hdone hstill
    · rw [List.concat_eq_append, ← List.cons_append, ← List.append_assoc] at hl
      have hkeys := List.append_inj_left' hl rfl
      exact hpre l key l'' hkeys hstill h8 hnil

theorem ttyDoRead_spec (hs : s.Idle) (va2la : Int → Nat → Int) {msg : Message} (hn : 0 < n)
    (hcnt : msg.m3i2 = n) :
    wp (ttyDoRead va2la msg) (fun _ s₀ => s₀.Idle ∧ s₀.line.Pending n []) (fun _ _ => False) s := by
  constructor
  · exact ⟨hs.count, hs.ring, hs.screen⟩
  · exact {
      trans := rfl
      left := by
        change msg.m3i2 = _
        rw [hcnt]
        simp
      room := hn
      bytes := fun i hi => absurd hi (Nat.not_lt_zero i) }

/-- A request for `n` bytes is served as it should, whatever the keys, exactly if no backspace comes
while there is nothing to remove. -/
theorem lineOk_iff (hfuel : CON.memSize / screenWidth + 1 ≤ fuel) (hs : s.Idle)
    (va2la : Int → Nat → Int) {msg : Message} (hn : 0 < n) (hcnt : msg.m3i2 = n)
    (keys : List Nat) :
    ∃ s₀, ttyDoRead va2la msg s = .ok () s₀ ∧
      (LineOk fuel n s₀ keys ↔ NoUnderflow n keys) := by
  have hspec := ttyDoRead_spec hs va2la hn hcnt
  have hret := Result.eq_ok_of_isOk (isOk_of_wp hspec)
  obtain ⟨hidle, hline⟩ := wp_ok hspec hret
  refine ⟨_, hret, ?_, ?_⟩
  · intro h
    exact h.noUnderflow hidle hline hfuel
  · intro h
    exact h.lineOk hidle hline hfuel

private def readRequest (cnt : Int) : Message := { type := .devRead, m3i2 := cnt }

private theorem exists_idle : ∃ s : TtyDevice, s.Idle := by
  obtain ⟨scr, hscr⟩ := exists_screenOk
  exact ⟨{ con := ⟨0, by decide⟩, screen := scr, mem := fun _ => 0 }, rfl, rfl, hscr⟩

private theorem fuel_69 : CON.memSize / screenWidth + 1 ≤ 69 := by
  rw [CON.memSize_eq]
  decide

theorem lineOk_typed : ∃ s s₀ : TtyDevice, s.Idle ∧
    ttyDoRead (fun _ a => a) (readRequest 16) s = .ok () s₀ ∧ LineOk 69 16 s₀ [97, 98, 10] := by
  obtain ⟨s, hs⟩ := exists_idle
  obtain ⟨s₀, hret, hiff⟩ := lineOk_iff fuel_69 hs (fun _ a => a) (n := 16)
    (by decide) (show (readRequest 16).m3i2 = _ from rfl) [97, 98, 10]
  refine ⟨s, s₀, hs, hret, hiff.mpr ?_⟩
  intro l key l' hl _ h8
  have hmem : key ∈ [97, 98, 10] := by
    rw [hl]
    simp
  rcases List.mem_cons.mp hmem with rfl | hmem
  · exact absurd h8 (by decide)
  · rcases List.mem_cons.mp hmem with rfl | hmem
    · exact absurd h8 (by decide)
    · rw [List.mem_singleton.mp hmem] at h8
      exact absurd h8 (by decide)

/-- A backspace as the first key of a request for 16 bytes. -/
theorem line_underflow : ∃ s s₀ : TtyDevice, s.Idle ∧
    ttyDoRead (fun _ a => a) (readRequest 16) s = .ok () s₀ ∧ ¬ LineOk 69 16 s₀ [8] := by
  obtain ⟨s, hs⟩ := exists_idle
  have hspec := ttyDoRead_spec (n := 16) hs (fun _ a => a) (by decide)
    (show (readRequest 16).m3i2 = _ from rfl)
  have hret := Result.eq_ok_of_isOk (isOk_of_wp hspec)
  obtain ⟨hidle, hline⟩ := wp_ok hspec hret
  refine ⟨s, _, hs, hret, ?_⟩
  intro h
  apply h.noUnderflow hidle hline fuel_69 [] 8 [] rfl
  · intro l l' hl
    obtain ⟨rfl, rfl⟩ := List.append_eq_nil_iff.mp hl.symm
    exact ⟨by decide, by simp⟩
  · decide
  · rfl

end Runs

end BazingaOS
