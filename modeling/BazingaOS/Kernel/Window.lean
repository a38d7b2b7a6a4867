import BazingaOS.Kernel.Display

/-!
# The window of a console

What a console shows are 25 lines from its start address on. Its area has 68 lines and a part of
another one, and `scroll_screen` moves the start as long as the window ends in front of the end of the
area: the last step shows cells behind it.
-/

namespace BazingaOS

open Prog CON

def Console.WindowInside (con : Console) : Prop :=
  con.origStartAddr ≤ con.curStartAddr ∧
    con.curStartAddr + screenSize ≤ con.origStartAddr + con.vMemSize

def Screen.WindowsInside (s : Screen) : Prop := ∀ c, (s.consoleTable c).WindowInside

/-- The position of the cursor in the area. -/
def Console.offset (con : Console) : Nat := con.curCursorPos - con.origStartAddr

/-- The number of whole lines of an area. -/
def fullLines : Nat := memSize / screenWidth

/-- The output of a character leaves the cursor in the whole lines of the area. -/
def Console.Fits (con : Console) (ch : UInt8) : Prop :=
  if ch = 10 then con.offset < screenWidth * (fullLines - 1) ∨
    memSize - screenWidth ≤ con.offset ∧ con.offset < screenWidth * fullLines
  else if ch = 8 then con.offset ≤ screenWidth * fullLines
  else con.offset + 1 < screenWidth * fullLines

/-- A call does not move a window behind the last whole line. -/
def ScreenCall.Admissible (s : Screen) : ScreenCall → Prop
  | .outChar ch c => (s.consoleTable c).Fits ch
  | .scrollScreen c direction => direction = scrDown →
    (s.consoleTable c).curStartAddr + screenSize ≠
      (s.consoleTable c).origStartAddr + screenWidth * fullLines
  | .setCurCon _ => True

/-- The area of a console is the one that `init_screen` gives it, and what it shows begins at the
start of a line that scrolling reaches. -/
structure Console.Lined (c : Con) (con : Console) : Prop where
  orig : con.origStartAddr = memSize * c.val
  size : con.vMemSize = memSize
  cursor_ge : con.origStartAddr ≤ con.curCursorPos
  cursor_lt : con.curCursorPos < 2 ^ 31
  start_ge : con.origStartAddr ≤ con.curStartAddr
  start_le : con.curStartAddr ≤ con.origStartAddr + 3520
  start_line : (con.curStartAddr - con.origStartAddr) % screenWidth = 0

section Calls

variable {c : Con} {s : Screen} {con : Console}

theorem fullLines_eq : fullLines = 68 := by
  rw [fullLines, memSize_eq]
  rfl

theorem Console.Lined.orig_le (h : con.Lined c) : con.origStartAddr ≤ 10922 := by
  have hc : c.val < 3 := c.isLt
  have ho := h.orig
  rw [memSize_eq] at ho
  omega

theorem Console.Lined.inside_iff (h : con.Lined c) :
    con.WindowInside ↔ con.curStartAddr ≤ con.origStartAddr + 3440 := by
  have hge := h.start_ge
  have hline := h.start_line
  have hsize := h.size
  rw [memSize_eq] at hsize
  have hw : screenWidth = 80 := rfl
  have hss : screenSize = 2000 := rfl
  rw [hw] at hline
  rw [WindowInside, hsize, hss]
  omega

def Console.moved (con : Console) (ch : UInt8) : Nat :=
  if ch = 10 then
    if con.offset < memSize - screenWidth then
      con.origStartAddr + screenWidth * (con.offset / screenWidth + 1) else con.curCursorPos
  else if ch = 8 then con.curCursorPos - if 0 < con.offset then 1 else 0
  else con.curCursorPos + if con.offset < memSize - 1 then 1 else 0

theorem Console.Lined.fits_iff (h : con.Lined c) (ch : UInt8) :
    con.Fits ch ↔ con.moved ch < con.origStartAddr + 5440 := by
  have hge := h.cursor_ge
  have hw : screenWidth = 80 := rfl
  unfold Fits moved offset
  rw [fullLines_eq, memSize_eq, hw]
  split
  · split <;> omega
  · split
    · split <;> omega
    · split <;> omega

def tableWith (s : Screen) (c : Con) (con : Console) : Con → Console :=
  Function.update s.consoleTable c con

theorem tableWith_self (s : Screen) (c : Con) : tableWith s c (s.consoleTable c) = s.consoleTable :=
  Function.update_eq_self _ _

theorem outCell_table (h : (s.consoleTable c).Lined c) (ch : UInt8) :
    wp (outCell ch c) (fun _ s' => s'.consoleTable = tableWith s c
      { s.consoleTable c with curCursorPos := (s.consoleTable c).moved ch })
      (fun _ _ => False) s := by
  have hge := h.cursor_ge
  have hlt := h.cursor_lt
  have ho := h.orig_le
  have hmem : memSize = 5461 := memSize_eq
  have hsize : (s.consoleTable c).vMemSize = 5461 := h.size.trans hmem
  have hw : screenWidth = 80 := rfl
  have hoff : (s.consoleTable c).offset =
      (s.consoleTable c).curCursorPos - (s.consoleTable c).origStartAddr := rfl
  have hline : sub32 (add32 (s.consoleTable c).origStartAddr (s.consoleTable c).vMemSize)
      screenWidth = (s.consoleTable c).origStartAddr + 5381 := by
    rw [hsize, hw, add32_eq (by omega), sub32_eq (by omega) (by omega)]
    rfl
  have hcell : sub32 (add32 (s.consoleTable c).origStartAddr (s.consoleTable c).vMemSize) 1 =
      (s.consoleTable c).origStartAddr + 5460 := by
    rw [hsize, add32_eq (by omega), sub32_eq (by omega) (by omega)]
    rfl
  have hstay : (s.consoleTable c).moved ch = (s.consoleTable c).curCursorPos →
      s.consoleTable = tableWith s c
        { s.consoleTable c with curCursorPos := (s.consoleTable c).moved ch } := by
    intro heq
    rw [heq, tableWith_self]
  simp only [outCell, wp_bind, wp_get, wp_ite, wp_when, wp_setCon, hline, hcell]
  unfold Console.moved at hstay ⊢
  rw [hmem, hw] at hstay ⊢
  refine ⟨fun hnl => ⟨fun hroom => ?_, fun hroom => ?_⟩, fun hnl => ⟨fun hbs => ⟨fun hroom => ?_,
    fun hroom => ?_⟩, fun hbs => ⟨fun hroom => ?_, fun hroom => ?_⟩⟩⟩
  · have hnew : add32 (s.consoleTable c).origStartAddr
        ((sub32 (s.consoleTable c).curCursorPos (s.consoleTable c).origStartAddr / screenWidth + 1) *
          screenWidth % 2 ^ 32) =
        (s.consoleTable c).origStartAddr + 80 * ((s.consoleTable c).offset / 80 + 1) := by
      rw [sub32_eq hge (by omega), hw, Nat.mod_eq_of_lt (by omega), add32_eq (by omega), hoff,
        Nat.mul_comm]
    rw [if_pos hnl, if_pos (by omega), ← hnew]
    rfl
  · apply hstay
    rw [if_pos hnl, if_neg (by omega)]
  · have hnew : sub32 (s.consoleTable c).curCursorPos 1 = (s.consoleTable c).curCursorPos - 1 :=
      sub32_eq (by omega) (by omega)
    rw [if_neg hnl, if_pos hbs, if_pos (by omega), ← hnew]
    rfl
  · apply hstay
    rw [if_neg hnl, if_pos hbs, if_neg (by omega), Nat.sub_zero]
  · have hnew : add32 (s.consoleTable c).curCursorPos 1 = (s.consoleTable c).curCursorPos + 1 :=
      add32_eq (by omega)
    rw [if_neg hnl, if_neg hbs, if_pos (by omega), ← hnew]
    rfl
  · apply hstay
    rw [if_neg hnl, if_neg hbs, if_neg (by omega), Nat.add_zero]

/-- Where `scroll_screen` moves the start to. -/
def Console.scrolledBy (con : Console) (direction : Int) : Nat :=
  if scrDown = direction ∨ scrUp = direction then scrolled con direction else con.curStartAddr

theorem scrollScreen_table (h : (s.consoleTable c).Lined c) (direction : Int) :
    wp (scrollScreen c direction) (fun _ s' => s'.consoleTable = tableWith s c
      { s.consoleTable c with curStartAddr := (s.consoleTable c).scrolledBy direction })
      (fun _ _ => False) s := by
  have ho := h.orig_le
  have hsize : (s.consoleTable c).vMemSize = 5461 := h.size.trans memSize_eq
  have hge := h.start_ge
  have hle := h.start_le
  have hline := h.start_line
  have hw : screenWidth = 80 := rfl
  have hss : screenSize = 2000 := rfl
  rw [hw] at hline
  have hstay : (s.consoleTable c).scrolledBy direction = (s.consoleTable c).curStartAddr →
      s.consoleTable = tableWith s c
        { s.consoleTable c with curStartAddr := (s.consoleTable c).scrolledBy direction } := by
    intro heq
    rw [heq, tableWith_self]
  by_cases hdir : scrDown = direction ∨ scrUp = direction
  · have hscrolled : (s.consoleTable c).scrolledBy direction = scrolled (s.consoleTable c) direction :=
      if_pos hdir
    rw [hscrolled] at hstay ⊢
    unfold scrolled at hstay ⊢
    unfold scrollScreen
    rw [if_neg (by rcases hdir with hd | hd <;> simp [hd])]
    simp only [wp_bind, wp_get, wp_ite, wp_when, wp_setCon]
    rw [add32_eq (by omega), add32_eq (by omega)]
    refine ⟨fun hdown => ⟨fun hc => ?_, fun hc => ?_⟩, fun hdown => ⟨fun hc => ?_, fun hc => ?_⟩⟩
    · rw [if_pos hdown, if_pos hc, ← add32_eq (by omega)]
      rfl
    · apply hstay
      rw [if_pos hdown, if_neg hc]
    · rw [if_neg hdown, if_pos hc, ← @sub32_eq _ screenWidth (by omega) (by omega)]
      rfl
    · apply hstay
      rw [if_neg hdown, if_neg hc]
  · unfold scrollScreen
    rw [if_pos (not_or.mp hdir), wp_pure]
    exact hstay (if_neg hdir)

theorem Console.Lined.scrolledBy (h : con.Lined c) (direction : Int) :
    Console.Lined c { con with curStartAddr := con.scrolledBy direction } := by
  have hsize : con.vMemSize = 5461 := h.size.trans memSize_eq
  have hge := h.start_ge
  have hle := h.start_le
  have hline := h.start_line
  have hw : screenWidth = 80 := rfl
  have hss : screenSize = 2000 := rfl
  rw [hw] at hline
  have hnew : con.origStartAddr ≤ con.scrolledBy direction ∧
      con.scrolledBy direction ≤ con.origStartAddr + 3520 ∧
      (con.scrolledBy direction - con.origStartAddr) % 80 = 0 := by
    unfold Console.scrolledBy scrolled
    rw [hw, hss]
    split
    · split <;> split <;> omega
    · omega
  exact { h with
    start_ge := hnew.1
    start_le := hnew.2.1
    start_line := hnew.2.2 }

theorem Console.Lined.moved (h : con.Lined c) (ch : UInt8) :
    Console.Lined c { con with curCursorPos := con.moved ch } := by
  have ho := h.orig_le
  have hge := h.cursor_ge
  have hlt := h.cursor_lt
  have hw : screenWidth = 80 := rfl
  have hnew : con.origStartAddr ≤ con.moved ch ∧ con.moved ch < 2 ^ 31 := by
    unfold Console.moved Console.offset
    rw [memSize_eq, hw]
    split
    · split <;> omega
    · split
      · split <;> omega
      · split <;> omega
  exact { h with
    cursor_ge := hnew.1
    cursor_lt := hnew.2 }

theorem Console.Lined.scroll_inside (h : con.Lined c) (hin : con.WindowInside) (direction : Int) :
    Console.WindowInside { con with curStartAddr := con.scrolledBy direction } ↔
      (direction = scrDown → con.curStartAddr + screenSize ≠
        con.origStartAddr + screenWidth * fullLines) := by
  rw [h.inside_iff] at hin
  rw [(h.scrolledBy direction).inside_iff, fullLines_eq]
  have hsize : con.vMemSize = 5461 := h.size.trans memSize_eq
  have hge := h.start_ge
  have hline := h.start_line
  have hw : screenWidth = 80 := rfl
  have hss : screenSize = 2000 := rfl
  rw [hw] at hline
  rw [hw, hss]
  dsimp only
  unfold Console.scrolledBy scrolled
  rw [hw, hss]
  by_cases hdown : scrDown = direction
  · rw [if_pos (.inl hdown), if_pos hdown]
    have hroom : con.curStartAddr + 2000 < con.origStartAddr + con.vMemSize := by omega
    rw [if_pos hroom]
    constructor
    · intro hle _
      omega
    · intro hne
      have hne' := hne hdown.symm
      omega
  · rw [if_neg hdown]
    have hgood : con.curStartAddr ≤ con.origStartAddr + 3440 := hin
    constructor
    · intro _ hd
      exact absurd hd.symm hdown
    · intro _
      split
      · split <;> omega
      · omega

/-- Where the loop of `out_char` can have moved the start of a console whose cursor it has set. -/
structure ScrolledTo (c : Con) (con : Console) (start : Nat) : Prop where
  lined : Console.Lined c { con with curStartAddr := start }
  start_ge : con.curStartAddr ≤ start
  needed : start = con.curStartAddr ∨ start + 1920 ≤ con.curCursorPos

theorem outChar_table (h : (s.consoleTable c).Lined c) {fuel : Nat} (ch : UInt8) :
    wp (outChar fuel ch c) (fun _ s' => ∃ start,
      ScrolledTo c { s.consoleTable c with curCursorPos := (s.consoleTable c).moved ch } start ∧
      (s.consoleTable c).moved ch < start + screenSize ∧
      s'.consoleTable = tableWith s c { s.consoleTable c with
        curCursorPos := (s.consoleTable c).moved ch, curStartAddr := start })
      (fun _ _ => True) s := by
  have ho := h.orig_le
  have hw : screenWidth = 80 := rfl
  have hss : screenSize = 2000 := rfl
  have hmoved := h.moved ch
  simp only [outChar, wp_bind]
  refine wp_mono (outCell_table h ch) ?_ (fun _ _ _ => trivial)
  intro _ s₁ htab
  apply wp_whileLoop_of_end (I := fun u => ∃ start,
      ScrolledTo c { s.consoleTable c with curCursorPos := (s.consoleTable c).moved ch } start ∧
      u.consoleTable = tableWith s c { s.consoleTable c with
        curCursorPos := (s.consoleTable c).moved ch, curStartAddr := start })
  · exact ⟨_, ⟨hmoved, Nat.le_refl _, .inl rfl⟩, htab⟩
  · rintro u ⟨start, hst, hu⟩ hbelow
    have hself : u.consoleTable c = { s.consoleTable c with
        curCursorPos := (s.consoleTable c).moved ch, curStartAddr := start } := by
      rw [hu, tableWith, Function.update_self]
    have hle := hst.lined.start_le
    have hsize : (s.consoleTable c).vMemSize = 5461 := h.size.trans memSize_eq
    unfold BelowScreen at hbelow
    rw [hself] at hbelow
    dsimp only at hbelow hle
    rw [add32_eq (by omega), hss] at hbelow
    have hlined : (u.consoleTable c).Lined c := by
      rw [hself]
      exact hst.lined
    refine wp_mono (scrollScreen_table hlined scrDown) ?_ (fun _ _ _ => trivial)
    intro _ v hv
    rw [hself] at hv
    refine ⟨_, ⟨hst.lined.scrolledBy scrDown, ?_, ?_⟩, ?_⟩
    · refine Nat.le_trans hst.start_ge ?_
      unfold Console.scrolledBy scrolled
      rw [if_pos (.inl rfl), if_pos rfl]
      dsimp only
      split <;> omega
    · unfold Console.scrolledBy scrolled
      rw [if_pos (.inl rfl), if_pos rfl, hw]
      dsimp only
      split
      · omega
      · exact hst.needed
    · rw [hv, tableWith, hu, tableWith, Function.update_idem]
      rfl
  · rintro u ⟨start, hst, hu⟩ hbelow
    have hle := hst.lined.start_le
    unfold BelowScreen at hbelow
    rw [hu, tableWith, Function.update_self] at hbelow
    dsimp only at hbelow hle
    rw [add32_eq (by omega)] at hbelow
    exact ⟨start, hst, Nat.lt_of_not_le hbelow, hu⟩

theorem Console.Lined.outChar_inside (h : con.Lined c) (hin : con.WindowInside) {ch : UInt8}
    {start : Nat} (hst : ScrolledTo c { con with curCursorPos := con.moved ch } start)
    (hend : con.moved ch < start + screenSize) :
    Console.WindowInside { con with curCursorPos := con.moved ch, curStartAddr := start } ↔
      con.Fits ch := by
  rw [h.inside_iff] at hin
  rw [h.fits_iff, Console.Lined.inside_iff hst.lined]
  have hss : screenSize = 2000 := rfl
  have hw : screenWidth = 80 := rfl
  have hline := hst.lined.start_line
  have hge := hst.lined.start_ge
  have hneed := hst.needed
  rw [hw] at hline
  rw [hss] at hend
  dsimp only at *
  omega

end Calls

section Runs

variable {fuel : Nat} {s s' boot s₀ : Screen} {c : Con} {call : ScreenCall} {calls : List ScreenCall}

def Screen.Lined (s : Screen) : Prop := ∀ c, (s.consoleTable c).Lined c

theorem lined_tableWith {con : Console} (hs : s.Lined) (hcon : con.Lined c)
    (heq : s'.consoleTable = tableWith s c con) : s'.Lined := by
  intro d
  rw [heq, tableWith]
  by_cases hd : d = c
  · subst hd
    rw [Function.update_self]
    exact hcon
  · rw [Function.update_of_ne hd]
    exact hs d

theorem windowsInside_tableWith {con : Console} (hs : s.WindowsInside)
    (heq : s'.consoleTable = tableWith s c con) : s'.WindowsInside ↔ con.WindowInside := by
  constructor
  · intro h
    have hc := h c
    rwa [heq, tableWith, Function.update_self] at hc
  · intro h d
    rw [heq, tableWith]
    by_cases hd : d = c
    · subst hd
      rw [Function.update_self]
      exact h
    · rw [Function.update_of_ne hd]
      exact hs d

theorem setCurCon_table {conNo : Int} (h : setCurCon conNo s = .ok () s') :
    s'.consoleTable = s.consoleTable := by
  have hkeeps : KeepsView Screen.consoleTable (setCurCon conNo) := by
    unfold setCurCon
    split
    · refine .bind (.modify fun _ => rfl) fun _ => .bind .get fun _ => ?_
      exact .bind (.modify fun _ => rfl) fun _ => .bind .get fun _ => .modify fun _ => rfl
    · exact .pure ()
  have heq := wp_ok (hkeeps.keeps (s.consoleTable) s rfl) h
  exact heq

/-- A call keeps the windows in their areas exactly when it is admissible. -/
theorem ScreenStep.windows (hstep : ScreenStep fuel s call s') (hs : s.Lined) :
    s'.Lined ∧ (s.WindowsInside → (s'.WindowsInside ↔ call.Admissible s)) := by
  cases call with
  | outChar ch c =>
    obtain ⟨start, hst, hend, heq⟩ := wp_ok (outChar_table (hs c) ch) hstep
    refine ⟨lined_tableWith hs hst.lined heq, fun hin => ?_⟩
    rw [windowsInside_tableWith hin heq]
    exact (hs c).outChar_inside (hin c) hst hend
  | scrollScreen c direction =>
    have heq := wp_ok (scrollScreen_table (hs c) direction) hstep
    refine ⟨lined_tableWith hs ((hs c).scrolledBy direction) heq, fun hin => ?_⟩
    rw [windowsInside_tableWith hin heq]
    exact (hs c).scroll_inside (hin c) direction
  | setCurCon conNo =>
    have htab := setCurCon_table hstep
    refine ⟨fun d => ?_, fun hin => ⟨fun _ => trivial, fun _ d => ?_⟩⟩
    · rw [htab]
      exact hs d
    · rw [htab]
      exact hin d

theorem outChar_fits {ch : UInt8} (h : (s.consoleTable c).Lined c)
    (hin : (s.consoleTable c).WindowInside) (hfits : (s.consoleTable c).Fits ch) :
    wp (outChar fuel ch c) (fun _ s' => (s'.consoleTable c).Lined c ∧
      (s'.consoleTable c).WindowInside ∧ (s'.consoleTable c).offset =
        (s.consoleTable c).moved ch - (s.consoleTable c).origStartAddr ∧
      ∀ d, d ≠ c → s'.consoleTable d = s.consoleTable d) (fun _ _ => True) s := by
  refine wp_mono (outChar_table h ch) ?_ (fun _ _ _ => trivial)
  rintro _ t ⟨start, hst, hend, heq⟩
  rw [heq, tableWith, Function.update_self]
  exact ⟨hst.lined, (h.outChar_inside hin hst hend).mpr hfits, rfl,
    fun d hd => Function.update_of_ne hd _ _⟩

/-- The record that `init_screen` fills in, with the cursor at `n`. -/
def initialConsole (c : Con) (n : Nat) : Console where
  origStartAddr := memSize * c.val
  vMemSize := memSize
  vMemBase := BazingaOS.vMemBase
  curStartAddr := memSize * c.val
  curCursorPos := n

theorem initialConsole_lined {n : Nat} (hge : memSize * c.val ≤ n) (hlt : n < 2 ^ 31) :
    (initialConsole c n).Lined c where
  orig := rfl
  size := rfl
  cursor_ge := hge
  cursor_lt := hlt
  start_ge := Nat.le_refl _
  start_le := Nat.le_add_right _ _
  start_line := by simp [initialConsole]

theorem initialConsole_inside (n : Nat) : (initialConsole c n).WindowInside := by
  have hmem : memSize = 5461 := memSize_eq
  have hss : screenSize = 2000 := rfl
  unfold Console.WindowInside initialConsole
  dsimp only
  omega

theorem fits_of_small {con : Console} (h : con.offset ≤ 80) (ch : UInt8) : con.Fits ch := by
  have hw : screenWidth = 80 := rfl
  unfold Console.Fits
  rw [fullLines_eq, hw]
  split
  · omega
  · split <;> omega

theorem moved_small {con : Console} (h : con.Lined c) (hoff : con.offset = 0) (ch : UInt8) :
    con.moved ch - con.origStartAddr ≤ 80 := by
  have hge := h.cursor_ge
  have hw : screenWidth = 80 := rfl
  unfold Console.moved
  rw [hoff, hw]
  unfold Console.offset at hoff
  split
  · split <;> omega
  · split
    · omega
    · split <;> omega

theorem initScreen_table (hdisp : c.val = 0 → s.dispPos < 2 ^ 31) :
    wp (initScreen fuel c) (fun _ s' =>
      ((s'.consoleTable c).Lined c ∧ (s'.consoleTable c).WindowInside) ∧
      ∀ d, d ≠ c → s'.consoleTable d = s.consoleTable d) (fun _ _ => True) s := by
  have hmem : memSize = 5461 := memSize_eq
  simp only [initScreen, wp_bind, wp_setCon, wp_ite]
  refine ⟨fun h₀ => ?_, fun h₀ => ?_⟩
  · rw [wp_modify]
    have hdisp' := hdisp h₀
    constructor
    · simp only [Function.update_self, setCon_self]
      refine ⟨initialConsole_lined ?_ ?_, initialConsole_inside _⟩
      · simp [h₀]
      · change s.dispPos / 2 < _
        omega
    · intro d hd
      simp [Screen.setCon, hd]
  · have hbound : memSize * c.val < 2 ^ 31 := by
      rw [hmem]
      have hc' : c.val < 3 := c.isLt
      omega
    obtain ⟨u, hu⟩ : ∃ u, u = s.setCon c (initialConsole c (memSize * c.val)) := ⟨_, rfl⟩
    have hrec : u.consoleTable c = initialConsole c (memSize * c.val) := by rw [hu, setCon_self]
    have hlined := @initialConsole_lined c _ (Nat.le_refl _) hbound
    have hin := @initialConsole_inside c (memSize * c.val)
    have hoff : (initialConsole c (memSize * c.val)).offset = 0 := Nat.sub_self _
    rw [← hrec] at hlined hin hoff
    change wp _ _ _ (s.setCon c (initialConsole c (memSize * c.val)))
    rw [← hu]
    refine wp_mono (outChar_fits hlined hin (fits_of_small (by omega) _)) ?_ (fun _ _ _ => trivial)
    rintro _ t ⟨ht, htin, htoff, htother⟩
    have hsmall := moved_small hlined hoff (c.val.toUInt8 + 48)
    refine wp_mono (outChar_fits ht htin (fits_of_small (by omega) _)) ?_ (fun _ _ _ => trivial)
    rintro _ v ⟨hv, hvin, -, hvother⟩
    refine ⟨⟨hv, hvin⟩, fun d hd => ?_⟩
    rw [hvother d hd, htother d hd, hu]
    exact Function.update_of_ne hd _ _

theorem initTty_table (hdisp : boot.dispPos < 2 ^ 31) (hinit : initTty fuel boot = .ok () s₀) :
    s₀.Lined ∧ s₀.WindowsInside := by
  have hspec : wp (initTty fuel) (fun _ s => s.Lined ∧ s.WindowsInside) (fun _ _ => True) boot := by
    simp only [initTty, wp_bind]
    refine wp_mono (initScreen_table fun _ => hdisp) ?_ (fun _ _ _ => trivial)
    rintro _ s₀ ⟨h₀, -⟩
    refine wp_mono (initScreen_table fun h => absurd h (by decide)) ?_ (fun _ _ _ => trivial)
    rintro _ s₁ ⟨h₁, hs₁⟩
    refine wp_mono (initScreen_table fun h => absurd h (by decide)) ?_ (fun _ _ _ => trivial)
    rintro _ s₂ ⟨h₂, hs₂⟩
    have hall : ∀ c, (s₂.consoleTable c).Lined c ∧ (s₂.consoleTable c).WindowInside := by
      intro c
      fin_cases c
      · rw [hs₂ _ (by decide), hs₁ _ (by decide)]
        exact h₀
      · rw [hs₂ _ (by decide)]
        exact h₁
      · exact h₂
    exact ⟨fun c => (hall c).1, fun c => (hall c).2⟩
  have hend := wp_ok hspec hinit
  exact hend

/-- In a run from the consoles that `init_tty` sets up, what is shown stays in the areas exactly as
long as no call moves a window behind the last whole line. -/
theorem windowsInside_iff (hdisp : boot.dispPos < 2 ^ 31) (hinit : initTty fuel boot = .ok () s₀)
    (hr : Run (ScreenStep fuel) s₀ calls s) :
    (∀ l l' u, calls = l ++ l' → Run (ScreenStep fuel) s₀ l u → u.WindowsInside) ↔
      ∀ l call l' u, calls = l ++ call :: l' → Run (ScreenStep fuel) s₀ l u → call.Admissible u := by
  obtain ⟨hlined, hin⟩ := initTty_table hdisp hinit
  have hdet : ∀ u call v v', ScreenStep fuel u call v → ScreenStep fuel u call v' → v = v' := by
    intro u call v v' h h'
    unfold ScreenStep at h h'
    rw [h] at h'
    cases h'
    rfl
  exact hr.always_iff hdet hlined hin fun _ _ _ hstep hu => hstep.windows hu

/-- The first console is scrolled down after the start of the kernel. -/
private def scrolls : List ScreenCall := List.replicate 44 (.scrollScreen ⟨0, nrTtys_pos⟩ scrDown)

private def bootBlank : Screen := { vMem := fun _ => 0 }

private def startScreen : Screen := (initTty 69 bootBlank).state

private theorem startScreen_eq : initTty 69 bootBlank = .ok () startScreen :=
  Result.eq_ok_of_isOk (by decide +kernel)

private def nextScreen (s : Screen) (call : ScreenCall) : Option Screen :=
  match call.run 69 s with
  | .ok _ s' => some s'
  | .stop _ _ => none

private def scrolledScreen : Screen := (scrolls.foldlM nextScreen startScreen).getD startScreen

private theorem run_scrolls : Run (ScreenStep 69) startScreen scrolls scrolledScreen := by
  have hstep : ∀ u call v, nextScreen u call = some v → ScreenStep 69 u call v := by
    intro u call v hv
    unfold nextScreen at hv
    unfold ScreenStep
    cases hr : call.run 69 u with
    | ok _ u' =>
      rw [hr] at hv
      rw [Option.some.inj hv]
    | stop _ _ =>
      rw [hr] at hv
      cases hv
  have hsome : (scrolls.foldlM nextScreen startScreen).isSome := by decide +kernel
  obtain ⟨t, ht⟩ := Option.isSome_iff_exists.mp hsome
  have heq : scrolledScreen = t := by
    unfold scrolledScreen
    rw [ht, Option.getD_some]
  rw [heq]
  exact Run.of_foldlM hstep ht

theorem windowsInside_iff_scrolled : ∃ s, Run (ScreenStep 69) startScreen scrolls s ∧
    ((∀ l l' u, scrolls = l ++ l' → Run (ScreenStep 69) startScreen l u → u.WindowsInside) ↔
      ∀ l call l' u, scrolls = l ++ call :: l' → Run (ScreenStep 69) startScreen l u →
        call.Admissible u) :=
  ⟨_, run_scrolls, @windowsInside_iff 69 _ bootBlank _ _ (by decide) startScreen_eq run_scrolls⟩

/-- The window moves to line 44 of 68, where its last line is not whole. -/
theorem windowOutside_scrolled :
    ¬ ∀ fuel boot s₀ calls s, boot.dispPos < 2 ^ 31 → initTty fuel boot = .ok () s₀ →
      Run (ScreenStep fuel) s₀ calls s → s.WindowsInside := by
  intro h
  have hin := (h 69 bootBlank _ _ _ (by decide) startScreen_eq run_scrolls ⟨0, by decide⟩).2
  have hend : (scrolledScreen.consoleTable ⟨0, by decide⟩).origStartAddr +
      (scrolledScreen.consoleTable ⟨0, by decide⟩).vMemSize <
      (scrolledScreen.consoleTable ⟨0, by decide⟩).curStartAddr + screenSize := by
    decide +kernel
  omega

end Runs

end BazingaOS
