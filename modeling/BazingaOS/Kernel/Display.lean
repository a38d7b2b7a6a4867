import BazingaOS.Kernel.Console
import BazingaOS.Lib.Run

/-!
# What is on the screen

A call on a console touches its own part of the video memory only, and its cursor and the start of
what it shows stay there. The registers of the video controller are set by every output, also on a
console that is not the current one.
-/

namespace BazingaOS

open Prog CON

/-- The calls of the drivers and of the kernel on the consoles. -/
inductive ScreenCall where
  | outChar (ch : UInt8) (c : Con)
  | scrollScreen (c : Con) (direction : Int)
  | setCurCon (conNo : Int)
deriving DecidableEq, Repr

def ScreenCall.run (fuel : Nat) : ScreenCall → Prog Screen Unit
  | .outChar ch c => CON.outChar fuel ch c
  | .scrollScreen c direction => CON.scrollScreen c direction
  | .setCurCon conNo => CON.setCurCon conNo

def ScreenStep (fuel : Nat) (s : Screen) (call : ScreenCall) (s' : Screen) : Prop :=
  call.run fuel s = .ok () s'

/-- The area of a console is the one that `init_screen` gives it; its cursor is in it, and what it
shows begins in it, at the start of a line. -/
structure Console.Ok (c : Con) (con : Console) : Prop where
  orig : con.origStartAddr = memSize * c.val
  size : con.vMemSize = memSize
  base : con.vMemBase = BazingaOS.vMemBase
  cursor_ge : con.origStartAddr ≤ con.curCursorPos
  cursor_lt : con.curCursorPos < con.origStartAddr + con.vMemSize
  start_ge : con.origStartAddr ≤ con.curStartAddr
  start_lt : con.curStartAddr < con.origStartAddr + con.vMemSize
  start_line : (con.curStartAddr - con.origStartAddr) % screenWidth = 0

/-- The bytes of the video memory that belong to a console. -/
def OwnByte (c : Con) (a : Nat) : Prop :=
  vMemBase + 2 * (memSize * c.val) ≤ a ∧ a < vMemBase + 2 * (memSize * c.val + memSize)

/-- A call on console `c` leads from `s` to `s'`. -/
structure Touches (c : Con) (s s' : Screen) : Prop where
  ok : (s'.consoleTable c).Ok c
  other : ∀ d, d ≠ c → s'.consoleTable d = s.consoleTable d
  current : s'.nrCurConsole = s.nrCurConsole
  mem : ∀ a, ¬ OwnByte c a → s'.vMem a = s.vMem a

theorem Touches.trans {c : Con} {s s' s'' : Screen} (h : Touches c s s') (h' : Touches c s' s'') :
    Touches c s s'' where
  ok := h'.ok
  other d hd := by rw [h'.other d hd, h.other d hd]
  current := by rw [h'.current, h.current]
  mem a ha := by rw [h'.mem a ha, h.mem a ha]

theorem add32_eq {a b : Nat} (h : a + b < 2 ^ 32) : add32 a b = a + b := Nat.mod_eq_of_lt h

theorem sub32_eq {a b : Nat} (h : b ≤ a) (ha : a < 2 ^ 32) : sub32 a b = a - b := by
  unfold sub32
  omega

section Registers

theorem regPair_of_val {n : Nat} (hn : n < 2 ^ 16) : (RegPair.of n).val = n := by
  have hbyte : ∀ x : Nat, (x &&& 0xff).toUInt8.toNat = x % 256 := by
    intro x
    have hand : x &&& 0xff = x % 256 := Nat.and_two_pow_sub_one_eq_mod x 8
    rw [hand, Nat.toUInt8, UInt8.toNat_ofNat']
    omega
  simp only [RegPair.of, RegPair.val, hbyte, Nat.shiftRight_eq_div_pow]
  omega

/-- The registers show console `c`. -/
def Shows (c : Con) (s : Screen) : Prop :=
  s.startReg.val = (s.consoleTable c).curStartAddr ∧
    s.cursorReg.val = (s.consoleTable c).curCursorPos

variable {c : Con} {s : Screen}

theorem Console.Ok.bound {con : Console} (h : con.Ok c) :
    con.origStartAddr + con.vMemSize < 2 ^ 16 := by
  have hc : c.val < 3 := c.isLt
  have ho := h.orig
  have hs := h.size
  rw [memSize_eq] at ho hs
  omega

/-- The registers after `set_cursor` and `set_screen_start` for a console. -/
def Screen.shown (s : Screen) (c : Con) : Screen :=
  { s with
    cursorReg := .of ((s.consoleTable c).curCursorPos % 2 ^ 16)
    startReg := .of (s.consoleTable c).curStartAddr }

theorem shows_shown (h : (s.consoleTable c).Ok c) : Shows c (s.shown c) := by
  have hb := h.bound
  have h1 := h.cursor_lt
  have h2 := h.start_lt
  constructor
  · exact regPair_of_val (by omega)
  · have hcur : (s.consoleTable c).curCursorPos < 2 ^ 16 := by omega
    change (RegPair.of ((s.consoleTable c).curCursorPos % 2 ^ 16)).val = _
    rw [Nat.mod_eq_of_lt hcur, regPair_of_val hcur]
    rfl

end Registers

section Calls

variable {c : Con} {s : Screen} {Q : Unit → Screen → Prop} {E : Stop → Screen → Prop}

def Screen.setCon (s : Screen) (c : Con) (con : Console) : Screen :=
  { s with consoleTable := Function.update s.consoleTable c con }

@[simp] theorem setCon_self {con : Console} : (s.setCon c con).consoleTable c = con := by
  simp [Screen.setCon]

@[simp] theorem wp_setCon {f : Console → Console} :
    wp (CON.setCon c f) Q E s ↔ Q () (s.setCon c (f (s.consoleTable c))) := Iff.rfl

theorem touches_setCon {con : Console} (h : con.Ok c) : Touches c s (s.setCon c con) where
  ok := by
    rw [setCon_self]
    exact h
  other d hd := Function.update_of_ne hd _ _
  current := rfl
  mem _ _ := rfl

theorem touches_shown (h : (s.consoleTable c).Ok c) : Touches c s (s.shown c) where
  ok := h
  other _ _ := rfl
  current := rfl
  mem _ _ := rfl

theorem putCell_spec (h : (s.consoleTable c).Ok c) (ch : UInt8) :
    wp (putCell c ch) (fun _ s' => Touches c s s' ∧ s'.consoleTable = s.consoleTable)
      (fun _ _ => False) s := by
  have hb := h.bound
  have hc := h.cursor_lt
  have hg := h.cursor_ge
  have ho := h.orig
  have hs := h.size
  have hbase : (s.consoleTable c).vMemBase = 0xb8000 := h.base
  have hv : vMemBase = 0xb8000 := rfl
  have hmem : add32 (2 * (s.consoleTable c).curCursorPos % 2 ^ 32) (s.consoleTable c).vMemBase =
      0xb8000 + 2 * (s.consoleTable c).curCursorPos := by
    unfold add32
    omega
  rw [putCell, wp_modify]
  refine ⟨⟨h, fun _ _ => rfl, rfl, ?_⟩, rfl⟩
  intro a ha
  dsimp only
  rw [hmem]
  unfold OwnByte at ha
  rcases Nat.lt_or_ge a (0xb8000 + 2 * (s.consoleTable c).curCursorPos) with hlt | hge
  · exact putBytes_of_lt hlt
  · apply putBytes_of_ge
    simp only [List.length_cons, List.length_nil]
    omega

theorem outCell_spec (h : (s.consoleTable c).Ok c) (ch : UInt8) :
    wp (outCell ch c) (fun _ => Touches c s) (fun _ _ => False) s := by
  have hself : Touches c s s := ⟨h, fun _ _ => rfl, rfl, fun _ _ => rfl⟩
  have hb := h.bound
  have hlt := h.cursor_lt
  have hge := h.cursor_ge
  have hw : screenWidth = 80 := rfl
  have hsize := h.size
  rw [memSize_eq] at hsize
  have hsum : add32 (s.consoleTable c).origStartAddr (s.consoleTable c).vMemSize =
      (s.consoleTable c).origStartAddr + (s.consoleTable c).vMemSize := add32_eq (by omega)
  simp only [outCell, wp_bind, wp_get, wp_ite, wp_when, wp_setCon, hsum]
  refine ⟨fun _ => ⟨fun hnl => ?_, fun _ => hself⟩, fun _ => ⟨fun _ => ⟨fun hbs => ?_,
    fun _ => hself⟩, fun _ => ⟨fun hch => ?_, fun _ => hself⟩⟩⟩
  · rw [sub32_eq (by omega) (by omega)] at hnl
    apply touches_setCon
    rw [sub32_eq hge (by omega), hw, Nat.mod_eq_of_lt (by omega), add32_eq (by omega)]
    exact { h with
      cursor_ge := by dsimp only; omega
      cursor_lt := by dsimp only; omega }
  · rw [sub32_eq (by omega) (by omega)]
    have ht : Touches c s (s.setCon c { s.consoleTable c with
        curCursorPos := (s.consoleTable c).curCursorPos - 1 }) := by
      apply touches_setCon
      exact { h with
        cursor_ge := by dsimp only; omega
        cursor_lt := by dsimp only; omega }
    refine wp_mono (putCell_spec ht.ok 32) ?_ (fun _ _ h' => h')
    intro _ s' h'
    exact ht.trans h'.1
  · rw [sub32_eq (by omega) (by omega)] at hch
    refine wp_mono (putCell_spec h ch) ?_ (fun _ _ h' => h')
    rintro _ s' ⟨ht, htab⟩
    apply ht.trans
    apply touches_setCon
    rw [htab, add32_eq (by omega)]
    exact { h with
      cursor_ge := by dsimp only; omega
      cursor_lt := by dsimp only; omega }

@[simp] theorem wp_flush : wp (flush c) Q E s ↔ Q () (s.shown c) := Iff.rfl

/-- The start of what a console shows after `scroll_screen`. -/
def scrolled (con : Console) (direction : Int) : Nat :=
  if scrDown = direction then
    if con.curStartAddr + screenSize < con.origStartAddr + con.vMemSize then
      con.curStartAddr + screenWidth else con.curStartAddr
  else
    if con.origStartAddr < con.curStartAddr then con.curStartAddr - screenWidth
    else con.curStartAddr

theorem Console.Ok.scrolled {con : Console} (h : con.Ok c) (direction : Int) :
    Console.Ok c { con with curStartAddr := BazingaOS.scrolled con direction } := by
  have hge := h.start_ge
  have hlt := h.start_lt
  have hline := h.start_line
  have hw : screenWidth = 80 := rfl
  have hss : screenSize = 2000 := rfl
  rw [hw] at hline
  have hnew : con.origStartAddr ≤ BazingaOS.scrolled con direction ∧
      BazingaOS.scrolled con direction < con.origStartAddr + con.vMemSize ∧
      (BazingaOS.scrolled con direction - con.origStartAddr) % 80 = 0 := by
    unfold BazingaOS.scrolled
    rw [hw, hss]
    split <;> split <;> omega
  exact { h with
    start_ge := hnew.1
    start_lt := hnew.2.1
    start_line := hnew.2.2 }

theorem scrollScreen_spec (h : (s.consoleTable c).Ok c) {direction : Int}
    (hd : scrDown = direction ∨ scrUp = direction) :
    wp (scrollScreen c direction) (fun _ s' => Touches c s s' ∧ Shows c s' ∧
      s'.consoleTable c =
        { s.consoleTable c with curStartAddr := scrolled (s.consoleTable c) direction })
      (fun _ _ => False) s := by
  have hb := h.bound
  have hge := h.start_ge
  have hlt := h.start_lt
  have hw : screenWidth = 80 := rfl
  have hss : screenSize = 2000 := rfl
  have hline := h.start_line
  rw [hw] at hline
  -- both directions end in the same state, whether the start moves or not
  have hend : ∀ start, start = scrolled (s.consoleTable c) direction →
      Touches c s ((s.setCon c { s.consoleTable c with curStartAddr := start }).shown c) ∧
      Shows c ((s.setCon c { s.consoleTable c with curStartAddr := start }).shown c) ∧
      ((s.setCon c { s.consoleTable c with curStartAddr := start }).shown c).consoleTable c =
        { s.consoleTable c with curStartAddr := scrolled (s.consoleTable c) direction } := by
    rintro start rfl
    have ht : Touches c s _ := touches_setCon (h.scrolled direction)
    exact ⟨ht.trans (touches_shown ht.ok), shows_shown ht.ok, setCon_self⟩
  have hstay : s.setCon c { s.consoleTable c with curStartAddr := (s.consoleTable c).curStartAddr } =
      s := by
    simp [Screen.setCon]
  unfold scrollScreen
  rw [if_neg (by rcases hd with hd | hd <;> simp [hd])]
  simp only [wp_bind, wp_get, wp_ite, wp_when, wp_setCon]
  rw [add32_eq (by omega), add32_eq (by omega)]
  refine ⟨fun hdown => ⟨fun hc => ?_, fun hc => ?_⟩, fun hdown => ⟨fun hc => ?_, fun hc => ?_⟩⟩
  · have hstart : add32 (s.consoleTable c).curStartAddr screenWidth =
        scrolled (s.consoleTable c) direction := by
      rw [scrolled, if_pos hdown, if_pos hc, add32_eq (by omega)]
    exact hend _ hstart
  · have hstart : (s.consoleTable c).curStartAddr = scrolled (s.consoleTable c) direction := by
      rw [scrolled, if_pos hdown, if_neg hc]
    have hfin := hend _ hstart
    rw [hstay] at hfin
    exact hfin
  · have hstart : sub32 (s.consoleTable c).curStartAddr screenWidth =
        scrolled (s.consoleTable c) direction := by
      rw [scrolled, if_neg hdown, if_pos hc, sub32_eq (by omega) (by omega)]
    exact hend _ hstart
  · have hstart : (s.consoleTable c).curStartAddr = scrolled (s.consoleTable c) direction := by
      rw [scrolled, if_neg hdown, if_neg hc]
    have hfin := hend _ hstart
    rw [hstay] at hfin
    exact hfin

/-- The loop of `out_char` ends: the cursor is in the area, so the start can still move. -/
theorem outChar_spec (h : (s.consoleTable c).Ok c) {fuel : Nat}
    (hfuel : memSize / screenWidth + 1 ≤ fuel) (ch : UInt8) :
    wp (outChar fuel ch c) (fun _ s' => Touches c s s' ∧ Shows c s' ∧
      (s'.consoleTable c).curCursorPos < (s'.consoleTable c).curStartAddr + screenSize)
      (fun _ _ => False) s := by
  have hw : screenWidth = 80 := rfl
  have hss : screenSize = 2000 := rfl
  simp only [outChar, wp_bind]
  refine wp_mono (outCell_spec h ch) ?_ (fun _ _ h' => h')
  intro _ s₁ ht
  apply wp_whileLoop (I := Touches c s) (m := fun u => ((u.consoleTable c).origStartAddr + memSize -
    (u.consoleTable c).curStartAddr) / screenWidth) ht
  · have hge := ht.ok.start_ge
    rw [memSize_eq, hw] at hfuel ⊢
    omega
  · intro u hu hbelow
    have hb := hu.ok.bound
    have hlt := hu.ok.start_lt
    have hcur := hu.ok.cursor_lt
    have hsize := hu.ok.size
    unfold BelowScreen at hbelow
    rw [add32_eq (by omega)] at hbelow
    refine wp_mono (scrollScreen_spec hu.ok (.inl rfl)) ?_ (fun _ _ h' => h')
    rintro _ v ⟨hv, -, heq⟩
    refine ⟨hu.trans hv, ?_⟩
    have hroom : (u.consoleTable c).curStartAddr + screenSize <
        (u.consoleTable c).origStartAddr + (u.consoleTable c).vMemSize := by omega
    have hstart : (v.consoleTable c).curStartAddr = (u.consoleTable c).curStartAddr + 80 := by
      rw [heq]
      dsimp only
      rw [scrolled, if_pos rfl, if_pos hroom, hw]
    have horig : (v.consoleTable c).origStartAddr = (u.consoleTable c).origStartAddr := by rw [heq]
    rw [hstart, horig, hw]
    omega
  · intro u hu hbelow
    have hb := hu.ok.bound
    have hlt := hu.ok.start_lt
    unfold BelowScreen at hbelow
    rw [add32_eq (by omega)] at hbelow
    rw [wp_flush]
    exact ⟨hu.trans (touches_shown hu.ok), shows_shown hu.ok, Nat.lt_of_not_le hbelow⟩

theorem setCurCon_spec (hs : ∀ c, (s.consoleTable c).Ok c) (conNo : Int) :
    wp (setCurCon conNo) (fun _ s' => s'.consoleTable = s.consoleTable ∧ s'.vMem = s.vMem ∧
      (s' = s ∨ Shows s'.nrCurConsole s') ∧
      ∀ h : 0 ≤ conNo ∧ conNo.toNat < nrTtys,
        s'.nrCurConsole = ⟨conNo.toNat, h.2⟩ ∧ Shows s'.nrCurConsole s') (fun _ _ => False) s := by
  unfold setCurCon
  by_cases hno : 0 ≤ conNo ∧ conNo.toNat < nrTtys
  · rw [dif_pos hno]
    have hshow : Shows ⟨conNo.toNat, hno.2⟩
        (Screen.shown { s with nrCurConsole := ⟨conNo.toNat, hno.2⟩ } ⟨conNo.toNat, hno.2⟩) :=
      shows_shown (hs _)
    exact ⟨rfl, rfl, .inr hshow, fun _ => ⟨rfl, hshow⟩⟩
  · rw [dif_neg hno]
    exact ⟨rfl, rfl, .inl rfl, fun h => absurd h hno⟩

end Calls

section Runs

variable {fuel : Nat} {s s' : Screen} {c : Con}

/-- The invariant of the consoles. -/
def Screen.Ok (s : Screen) : Prop := ∀ c, (s.consoleTable c).Ok c

theorem Touches.screenOk (h : Touches c s s') (hs : s.Ok) : s'.Ok := by
  intro d
  by_cases hd : d = c
  · subst hd
    exact h.ok
  · rw [h.other d hd]
    exact hs d

/-- What a call does to a screen in which the invariant holds. -/
structure CallSpec (call : ScreenCall) (s s' : Screen) : Prop where
  ok : s'.Ok
  outChar : ∀ ch c, call = .outChar ch c → Touches c s s' ∧ Shows c s' ∧
    (s'.consoleTable c).curCursorPos < (s'.consoleTable c).curStartAddr + screenSize
  scroll : ∀ c direction, call = .scrollScreen c direction →
    s'.nrCurConsole = s.nrCurConsole ∧ (s' = s ∨ Shows c s')
  setCurCon : ∀ conNo, call = .setCurCon conNo → s' = s ∨ Shows s'.nrCurConsole s'

theorem call_spec (hs : s.Ok) (hfuel : memSize / screenWidth + 1 ≤ fuel) (call : ScreenCall) :
    wp (call.run fuel) (fun _ s' => CallSpec call s s') (fun _ _ => False) s := by
  cases call with
  | outChar ch c =>
    refine wp_mono (outChar_spec (hs c) hfuel ch) ?_ (fun _ _ h => h)
    rintro _ s' ⟨ht, hshow, hcur⟩
    exact {
      ok := ht.screenOk hs
      outChar := by
        rintro _ _ ⟨⟩
        exact ⟨ht, hshow, hcur⟩
      scroll := by rintro _ _ ⟨⟩
      setCurCon := by rintro _ ⟨⟩ }
  | scrollScreen c direction =>
    by_cases hd : scrDown = direction ∨ scrUp = direction
    · refine wp_mono (scrollScreen_spec (hs c) hd) ?_ (fun _ _ h => h)
      rintro _ s' ⟨ht, hshow, -⟩
      exact {
        ok := ht.screenOk hs
        outChar := by rintro _ _ ⟨⟩
        scroll := by
          rintro _ _ ⟨⟩
          exact ⟨ht.current, .inr hshow⟩
        setCurCon := by rintro _ ⟨⟩ }
    · have hret : ScreenCall.run fuel (.scrollScreen c direction) = pure () :=
        if_pos (not_or.mp hd)
      rw [hret]
      exact {
        ok := hs
        outChar := by rintro _ _ ⟨⟩
        scroll := by
          rintro _ _ ⟨⟩
          exact ⟨rfl, .inl rfl⟩
        setCurCon := by rintro _ ⟨⟩ }
  | setCurCon conNo =>
    refine wp_mono (setCurCon_spec hs conNo) ?_ (fun _ _ h => h)
    rintro _ s' ⟨htab, -, hshow, -⟩
    exact {
      ok := by
        intro c
        rw [htab]
        exact hs c
      outChar := by rintro _ _ ⟨⟩
      scroll := by rintro _ _ ⟨⟩
      setCurCon := by
        rintro _ ⟨⟩
        exact hshow }

theorem ScreenStep.spec {call : ScreenCall} (hstep : ScreenStep fuel s call s') (hs : s.Ok)
    (hfuel : memSize / screenWidth + 1 ≤ fuel) : CallSpec call s s' :=
  wp_ok (Q := fun _ s' => CallSpec call s s') (call_spec hs hfuel call) hstep

theorem exists_screenStep (hs : s.Ok) (hfuel : memSize / screenWidth + 1 ≤ fuel)
    (call : ScreenCall) : ∃ s', ScreenStep fuel s call s' :=
  ⟨_, Result.eq_ok_of_isOk (isOk_of_wp (call_spec hs hfuel call))⟩

theorem Run.screenOk {calls : List ScreenCall} (hr : Run (ScreenStep fuel) s calls s')
    (hs : s.Ok) (hfuel : memSize / screenWidth + 1 ≤ fuel) : s'.Ok :=
  hr.invariant hs fun _ _ _ hstep hu => (hstep.spec hu hfuel).ok

/-- The record that `init_screen` fills in. -/
private def fresh (c : Con) : Console where
  origStartAddr := memSize * c.val
  vMemSize := memSize
  vMemBase := BazingaOS.vMemBase
  curStartAddr := memSize * c.val
  curCursorPos := memSize * c.val

private theorem fresh_ok {n : Nat} (hge : memSize * c.val ≤ n) (hlt : n < memSize * c.val + memSize) :
    Console.Ok c { fresh c with curCursorPos := n } where
  orig := rfl
  size := rfl
  base := rfl
  cursor_ge := hge
  cursor_lt := hlt
  start_ge := Nat.le_refl _
  start_lt := Nat.lt_add_of_pos_right memSize_pos
  start_line := by simp [fresh]

theorem initScreen_spec (hfuel : memSize / screenWidth + 1 ≤ fuel)
    (hdisp : c.val = 0 → s.dispPos / 2 < memSize) :
    wp (initScreen fuel c) (fun _ s' => (s'.consoleTable c).Ok c ∧
      ∀ d, d ≠ c → s'.consoleTable d = s.consoleTable d) (fun _ _ => False) s := by
  simp only [initScreen, wp_bind, wp_setCon, wp_ite]
  refine ⟨fun hc => ?_, fun hc => ?_⟩
  · rw [wp_modify]
    constructor
    · have hdisp' := hdisp hc
      simp only [Function.update_self, setCon_self]
      apply fresh_ok
      · simp [hc]
      · change s.dispPos / 2 < _
        omega
    · intro d hd
      simp [Screen.setCon, hd]
  · have hok : (fresh c).Ok c :=
      fresh_ok (Nat.le_refl _) (Nat.lt_add_of_pos_right memSize_pos)
    have ht : Touches c s (s.setCon c (fresh c)) := touches_setCon hok
    refine wp_mono (outChar_spec ht.ok hfuel _) ?_ (fun _ _ h => h)
    intro _ s₁ h₁
    refine wp_mono (outChar_spec h₁.1.ok hfuel _) ?_ (fun _ _ h => h)
    intro _ s₂ h₂
    have hall := (ht.trans h₁.1).trans h₂.1
    exact ⟨hall.ok, hall.other⟩

theorem initTty_spec (hfuel : memSize / screenWidth + 1 ≤ fuel) (hdisp : s.dispPos / 2 < memSize) :
    wp (initTty fuel) (fun _ => Screen.Ok) (fun _ _ => False) s := by
  simp only [initTty, wp_bind]
  have h₀ := initScreen_spec (c := ⟨0, by decide⟩) hfuel fun _ => hdisp
  have h₁ := fun u => initScreen_spec (c := ⟨1, by decide⟩) (s := u) hfuel
    fun h => absurd h (by decide)
  have h₂ := fun u => initScreen_spec (c := ⟨2, by decide⟩) (s := u) hfuel
    fun h => absurd h (by decide)
  refine wp_mono h₀ ?_ (fun _ _ h => h)
  intro _ s₀ hs₀
  refine wp_mono (h₁ s₀) ?_ (fun _ _ h => h)
  intro _ s₁ hs₁
  refine wp_mono (h₂ s₁) ?_ (fun _ _ h => h)
  intro _ s₂ hs₂ c
  fin_cases c
  · rw [hs₂.2 _ (by decide), hs₁.2 _ (by decide)]
    exact hs₀.1
  · rw [hs₂.2 _ (by decide)]
    exact hs₁.1
  · exact hs₂.1

/-- From the consoles that `init_tty` sets up, and with `disp_pos` in the area of the first one, every
sequence of calls keeps the consoles in their areas; every further call returns, and one of `out_char`
writes into its own area only and leaves the cursor on the screen. -/
theorem consoles_of_run (hfuel : memSize / screenWidth + 1 ≤ fuel) {boot : Screen}
    (hdisp : boot.dispPos / 2 < memSize) :
    ∃ s₀, initTty fuel boot = .ok () s₀ ∧
      ∀ calls s, Run (ScreenStep fuel) s₀ calls s → s.Ok ∧
        ∀ call, ∃ s', ScreenStep fuel s call s' ∧ s'.Ok ∧ ∀ ch c, call = .outChar ch c →
          (∀ a, ¬ OwnByte c a → s'.vMem a = s.vMem a) ∧
          (s'.consoleTable c).curCursorPos < (s'.consoleTable c).curStartAddr + screenSize := by
  have hinit := initTty_spec hfuel hdisp
  have hret := Result.eq_ok_of_isOk (isOk_of_wp hinit)
  have hok := wp_ok hinit hret
  refine ⟨_, hret, ?_⟩
  intro calls s hr
  have hs := hr.screenOk hok hfuel
  refine ⟨hs, fun call => ?_⟩
  obtain ⟨s', hstep⟩ := exists_screenStep hs hfuel call
  have hspec := hstep.spec hs hfuel
  refine ⟨s', hstep, hspec.ok, ?_⟩
  rintro ch c rfl
  obtain ⟨ht, -, hcur⟩ := hspec.outChar ch c rfl
  exact ⟨ht.mem, hcur⟩

private def bootScreen : Screen := { vMem := fun _ => 0 }

theorem consoles_of_run_boot :
    ∃ s₀, initTty 69 bootScreen = .ok () s₀ ∧
      ∀ calls s, Run (ScreenStep 69) s₀ calls s → s.Ok ∧
        ∀ call, ∃ s', ScreenStep 69 s call s' ∧ s'.Ok ∧ ∀ ch c, call = .outChar ch c →
          (∀ a, ¬ OwnByte c a → s'.vMem a = s.vMem a) ∧
          (s'.consoleTable c).curCursorPos < (s'.consoleTable c).curStartAddr + screenSize :=
  consoles_of_run (by rw [memSize_eq]; decide) (by rw [memSize_eq]; decide)

theorem exists_screenOk : ∃ s : Screen, s.Ok := by
  have hinit := initTty_spec (s := bootScreen) (Nat.le_refl _) (by rw [memSize_eq]; decide)
  exact ⟨_, wp_ok hinit (Result.eq_ok_of_isOk (isOk_of_wp hinit))⟩

end Runs

section Current

variable {fuel : Nat} {s s' s₀ : Screen} {calls : List ScreenCall}

/-- A call, where only the current console is scrolled. -/
def DisplayStep (fuel : Nat) (s : Screen) (call : ScreenCall) (s' : Screen) : Prop :=
  ScreenStep fuel s call s' ∧ ∀ c direction, call = .scrollScreen c direction → c = s.nrCurConsole

/-- The registers and the characters that are on the screen. -/
def Screen.display (s : Screen) : RegPair × RegPair × (Fin (2 * screenSize) → UInt8) :=
  (s.startReg, s.cursorReg, fun i => s.vMem (vMemBase + 2 * s.startReg.val + i.val))

/-- The registers show the current console from `s₀` on, after each of the calls, and output on
another console does not change what is displayed. -/
def DisplayFollows (fuel : Nat) (s₀ : Screen) (calls : List ScreenCall) : Prop :=
  Shows s₀.nrCurConsole s₀ ∧ ∀ l call l' s s', calls = l ++ call :: l' →
    Run (DisplayStep fuel) s₀ l s → DisplayStep fuel s call s' → Shows s'.nrCurConsole s' ∧
      ∀ ch c, call = .outChar ch c → c ≠ s.nrCurConsole → s'.display = s.display

/-- Every output of the calls is on the console that is the current one at that time. -/
def OnCurrent (fuel : Nat) (s₀ : Screen) (calls : List ScreenCall) : Prop :=
  ∀ l ch c l' s, calls = l ++ .outChar ch c :: l' → Run (DisplayStep fuel) s₀ l s →
    c = s.nrCurConsole

theorem Run.displayOk (hr : Run (DisplayStep fuel) s₀ calls s) (hs : s₀.Ok)
    (hfuel : memSize / screenWidth + 1 ≤ fuel) : s.Ok :=
  (hr.mono fun _ _ _ h => h.1).screenOk hs hfuel

theorem con_unique {c d : Con} {con con' : Console} (h : con.Ok c) (h' : con'.Ok d)
    (heq : con.curCursorPos = con'.curCursorPos) : c = d := by
  have h1 := h.cursor_ge
  have h2 := h.cursor_lt
  have h3 := h'.cursor_ge
  have h4 := h'.cursor_lt
  rw [h.orig, h.size, memSize_eq] at *
  rw [h'.orig, h'.size, memSize_eq] at *
  apply Fin.ext
  omega

theorem DisplayStep.shows {call : ScreenCall} (hstep : DisplayStep fuel s call s') (hs : s.Ok)
    (hfuel : memSize / screenWidth + 1 ≤ fuel) (hshow : Shows s.nrCurConsole s)
    (hout : ∀ ch c, call = .outChar ch c → c = s.nrCurConsole) : Shows s'.nrCurConsole s' := by
  have hspec := hstep.1.spec hs hfuel
  cases call with
  | outChar ch c =>
    obtain ⟨ht, hshow', -⟩ := hspec.outChar ch c rfl
    rw [ht.current, ← hout ch c rfl]
    exact hshow'
  | scrollScreen c direction =>
    obtain ⟨hcur, rfl | hshow'⟩ := hspec.scroll c direction rfl
    · exact hshow
    · rw [hcur, ← hstep.2 c direction rfl]
      exact hshow'
  | setCurCon conNo =>
    obtain rfl | hshow' := hspec.setCurCon conNo rfl
    · exact hshow
    · exact hshow'

theorem OnCurrent.left {l l' : List ScreenCall} (h : OnCurrent fuel s₀ (l ++ l')) :
    OnCurrent fuel s₀ l := by
  intro l₁ ch c l₂ s hl
  exact h l₁ ch c (l₂ ++ l') s (by simp [hl])

theorem OnCurrent.shows (h : OnCurrent fuel s₀ calls) (hs : s₀.Ok)
    (hfuel : memSize / screenWidth + 1 ≤ fuel) (hshow : Shows s₀.nrCurConsole s₀)
    (hr : Run (DisplayStep fuel) s₀ calls s) : Shows s.nrCurConsole s := by
  induction hr with
  | nil => exact hshow
  | snoc hr hstep ih =>
    apply hstep.shows (hr.displayOk hs hfuel) hfuel (ih h.left)
    rintro ch c rfl
    exact h _ ch c [] _ rfl hr

theorem OnCurrent.follows (h : OnCurrent fuel s₀ calls) (hs : s₀.Ok)
    (hfuel : memSize / screenWidth + 1 ≤ fuel) (hshow : Shows s₀.nrCurConsole s₀) :
    DisplayFollows fuel s₀ calls := by
  refine ⟨hshow, ?_⟩
  rintro l call l' s s' rfl hr hstep
  have hout : ∀ ch c, call = .outChar ch c → c = s.nrCurConsole := by
    rintro ch c rfl
    exact h l ch c l' s rfl hr
  refine ⟨?_, ?_⟩
  · exact hstep.shows (hr.displayOk hs hfuel) hfuel (h.left.shows hs hfuel hshow hr) hout
  · intro ch c hcall hne
    exact absurd (hout ch c hcall) hne

theorem DisplayFollows.onCurrent (h : DisplayFollows fuel s₀ calls) (hs : s₀.Ok)
    (hfuel : memSize / screenWidth + 1 ≤ fuel) : OnCurrent fuel s₀ calls := by
  intro l ch c l' s hcalls hr
  have hok := hr.displayOk hs hfuel
  obtain ⟨s', hstep⟩ := exists_screenStep hok hfuel (.outChar ch c)
  have hspec := hstep.spec hok hfuel
  obtain ⟨ht, hshow, -⟩ := hspec.outChar ch c rfl
  have hstep' : DisplayStep fuel s (.outChar ch c) s' := ⟨hstep, fun _ _ he => by cases he⟩
  have hcur := (h.2 l _ l' s s' hcalls hr hstep').1
  rw [← ht.current]
  exact con_unique (hspec.ok c) (hspec.ok _) (hshow.2.symm.trans hcur.2)

/-- The start of a run: the consoles are set up, other calls may follow, and then a first console is
made the current one. -/
structure Started (fuel : Nat) (boot s : Screen) : Prop where
  disp : boot.dispPos / 2 < memSize
  run : ∃ s₀ pre s₁ conNo, initTty fuel boot = .ok () s₀ ∧ Run (ScreenStep fuel) s₀ pre s₁ ∧
    (0 ≤ conNo ∧ conNo.toNat < nrTtys) ∧ ScreenStep fuel s₁ (.setCurCon conNo) s

theorem Started.spec {boot : Screen} (h : Started fuel boot s)
    (hfuel : memSize / screenWidth + 1 ≤ fuel) : s.Ok ∧ Shows s.nrCurConsole s := by
  obtain ⟨s₀, pre, s₁, conNo, hinit, hpre, hno, hset⟩ := h.run
  have hs₀ := wp_ok (initTty_spec hfuel h.disp) hinit
  have hs₁ := hpre.screenOk hs₀ hfuel
  have hspec := wp_ok (setCurCon_spec hs₁ conNo) hset
  exact ⟨(hset.spec hs₁ hfuel).ok, (hspec.2.2.2 hno).2⟩

/-- The display follows the current console exactly in the runs in which every output is on the
console that is the current one. -/
theorem follows_iff (hfuel : memSize / screenWidth + 1 ≤ fuel) {boot : Screen}
    (hstart : Started fuel boot s₀) (calls : List ScreenCall) :
    DisplayFollows fuel s₀ calls ↔ OnCurrent fuel s₀ calls := by
  obtain ⟨hok, hshow⟩ := hstart.spec hfuel
  constructor
  · intro h
    exact h.onCurrent hok hfuel
  · intro h
    exact h.follows hok hfuel hshow

private theorem boot_fuel : memSize / screenWidth + 1 ≤ 69 := by
  rw [memSize_eq]
  decide

private theorem exists_started : ∃ s, Started 69 bootScreen s ∧ s.nrCurConsole = ⟨0, by decide⟩ := by
  have hdisp : bootScreen.dispPos / 2 < memSize := by
    rw [memSize_eq]
    decide
  have hinit := initTty_spec boot_fuel hdisp
  have hret := Result.eq_ok_of_isOk (isOk_of_wp hinit)
  have hok := wp_ok hinit hret
  obtain ⟨s, hs⟩ := exists_screenStep hok boot_fuel (.setCurCon 0)
  have hno : 0 ≤ (0 : Int) ∧ (0 : Int).toNat < nrTtys := by decide
  exact ⟨s, ⟨hdisp, _, [], _, 0, hret, .nil, hno, hs⟩,
    ((wp_ok (setCurCon_spec hok 0) hs).2.2.2 hno).1⟩

theorem follows_first_console : ∃ s, Started 69 bootScreen s ∧
    DisplayFollows 69 s [.outChar 97 ⟨0, by decide⟩] := by
  obtain ⟨s, hstart, hcur⟩ := exists_started
  refine ⟨s, hstart, (follows_iff boot_fuel hstart _).mpr ?_⟩
  intro l ch c l' u hl hr
  cases l with
  | nil =>
    cases hl
    rw [hr.eq_of_nil rfl, hcur]
  | cons call l => simp at hl

/-- Output on the second console while the first one is the current one. -/
theorem display_left_by_output : ∃ s, Started 69 bootScreen s ∧
    ¬ DisplayFollows 69 s [.outChar 97 ⟨1, by decide⟩] := by
  obtain ⟨s, hstart, hcur⟩ := exists_started
  refine ⟨s, hstart, ?_⟩
  intro h
  have hc := h.onCurrent (hstart.spec boot_fuel).1 boot_fuel [] 97 ⟨1, by decide⟩ [] s rfl .nil
  rw [hcur] at hc
  exact absurd hc (by decide)

end Current

end BazingaOS
