import BazingaOS.Lib.Bytes
import BazingaOS.Lib.Int32
import BazingaOS.Lib.Loop

/-!
# Consoles

`kernel/console.c`: the consoles share the video memory, of which each has an area of its own, and
the registers of the video controller, which show one of them. The fields of a console are
unsigned integers of 32 bits; positions count characters, which take two bytes each.
-/

namespace BazingaOS

open Prog

def nrTtys : Nat := 3
def vMemBase : Nat := 0xb8000
def vMemSize : Nat := 0x8000
def screenWidth : Nat := 80
def screenSize : Nat := 80 * 25
def defaultCharColor : UInt8 := 0x07
def scrDown : Int := 1
def scrUp : Int := 2

theorem nrTtys_pos : 0 < nrTtys := by decide

structure Console where
  origStartAddr : Nat := 0
  curStartAddr : Nat := 0
  vMemSize : Nat := 0
  vMemBase : Nat := 0
  curCursorPos : Nat := 0
deriving DecidableEq, Repr

abbrev Con := Fin nrTtys

/-- A pair of registers of the video controller. -/
structure RegPair where
  high : UInt8 := 0
  low : UInt8 := 0
deriving DecidableEq, Repr

def RegPair.val (r : RegPair) : Nat := 256 * r.high.toNat + r.low.toNat

/-- The two bytes that `set_cursor` and `set_screen_start` write. -/
def RegPair.of (n : Nat) : RegPair where
  high := (n >>> 8 &&& 0xff).toUInt8
  low := (n &&& 0xff).toUInt8

structure Screen where
  consoleTable : Con → Console := fun _ => {}
  nrCurConsole : Con := ⟨0, nrTtys_pos⟩
  dispPos : Nat := 0
  vMem : Bytes
  cursorReg : RegPair := {}
  startReg : RegPair := {}

namespace CON

def setCon (c : Con) (f : Console → Console) : Prog Screen Unit :=
  modify fun s => { s with consoleTable := Function.update s.consoleTable c (f (s.consoleTable c)) }

/-- The position is cut to 16 bits by the type of the parameter. -/
def setCursor (curDispPos : Nat) : Prog Screen Unit :=
  modify fun s => { s with cursorReg := .of (curDispPos % 2 ^ 16) }

def setScreenStart (addr : Nat) : Prog Screen Unit :=
  modify fun s => { s with startReg := .of addr }

/-- The character under the cursor, with its colour behind it. -/
def putCell (c : Con) (ch : UInt8) : Prog Screen Unit :=
  modify fun s =>
    let pMem := add32 (2 * (s.consoleTable c).curCursorPos % 2 ^ 32) (s.consoleTable c).vMemBase
    { s with vMem := putBytes s.vMem pMem [ch, defaultCharColor] }

def scrollScreen (c : Con) (direction : Int) : Prog Screen Unit := do
  if scrDown ≠ direction ∧ scrUp ≠ direction then return ()
  else
    let con := (← get).consoleTable c
    if scrDown = direction then
      when (add32 con.curStartAddr screenSize < add32 con.origStartAddr con.vMemSize) do
        setCon c fun con => { con with curStartAddr := add32 con.curStartAddr screenWidth }
    else
      when (con.origStartAddr < con.curStartAddr) do
        setCon c fun con => { con with curStartAddr := sub32 con.curStartAddr screenWidth }
    setScreenStart ((← get).consoleTable c).curStartAddr
    setCursor ((← get).consoleTable c).curCursorPos

def flush (c : Con) : Prog Screen Unit := do
  setCursor ((← get).consoleTable c).curCursorPos
  setScreenStart ((← get).consoleTable c).curStartAddr

/-- The switch of `out_char`. -/
def outCell (ch : UInt8) (c : Con) : Prog Screen Unit := do
  let con := (← get).consoleTable c
  if ch = 10 then
    when (con.curCursorPos < sub32 (add32 con.origStartAddr con.vMemSize) screenWidth) do
      setCon c fun con => { con with
        curCursorPos := add32 con.origStartAddr
          ((sub32 con.curCursorPos con.origStartAddr / screenWidth + 1) * screenWidth % 2 ^ 32) }
  else if ch = 8 then
    when (con.origStartAddr < con.curCursorPos) do
      setCon c fun con => { con with curCursorPos := sub32 con.curCursorPos 1 }
      putCell c 32
  else
    when (con.curCursorPos < sub32 (add32 con.origStartAddr con.vMemSize) 1) do
      putCell c ch
      setCon c fun con => { con with curCursorPos := add32 con.curCursorPos 1 }

/-- Whether the cursor is behind the last line that is shown. -/
def BelowScreen (c : Con) (s : Screen) : Prop :=
  add32 (s.consoleTable c).curStartAddr screenSize ≤ (s.consoleTable c).curCursorPos

instance (c : Con) : DecidablePred (BelowScreen c) := fun _ => Nat.decLe _ _

/-- `fuel` bounds the rounds of the loop that scrolls. -/
@[irreducible] def outChar (fuel : Nat) (ch : UInt8) (c : Con) : Prog Screen Unit := do
  outCell ch c
  whileLoop (BelowScreen c) (scrollScreen c scrDown) fuel
  flush c

def setCurCon (conNo : Int) : Prog Screen Unit := do
  if h : 0 ≤ conNo ∧ conNo.toNat < nrTtys then
    let c : Con := ⟨conNo.toNat, h.2⟩
    modify fun s => { s with nrCurConsole := c }
    setCursor ((← get).consoleTable c).curCursorPos
    setScreenStart ((← get).consoleTable c).curStartAddr
  else return ()

/-- The words of the video memory that a console has. -/
def memSize : Nat := (vMemSize >>> 1) / nrTtys

theorem memSize_eq : memSize = 5461 := rfl

theorem memSize_pos : 0 < memSize := by decide

attribute [irreducible] memSize

@[irreducible] def initScreen (fuel : Nat) (c : Con) : Prog Screen Unit := do
  setCon c fun _ =>
    { origStartAddr := memSize * c.val, vMemSize := memSize, vMemBase := vMemBase,
      curStartAddr := memSize * c.val, curCursorPos := memSize * c.val }
  if c.val = 0 then
    modify fun s => { s with
      consoleTable := Function.update s.consoleTable c
        { s.consoleTable c with curCursorPos := s.dispPos / 2 }
      dispPos := 0 }
  else
    outChar fuel (c.val.toUInt8 + 48) c
    outChar fuel 35 c

/-- The part of `init_tty` that sets the consoles up. -/
@[irreducible] def initTty (fuel : Nat) : Prog Screen Unit := do
  initScreen fuel ⟨0, by decide⟩
  initScreen fuel ⟨1, by decide⟩
  initScreen fuel ⟨2, by decide⟩

end CON

end BazingaOS
