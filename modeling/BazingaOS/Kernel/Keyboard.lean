import BazingaOS.Lib.Prog
import BazingaOS.Lib.Ring

/-!
# The keyboard

`kernel/keyboard.c`: the interrupt handler puts the bytes of the keyboard into a ring buffer, and the
terminal task decodes them with the table of `keymap.h`. The bytes that are still to come are part of
the state, in the portions that arrive between two looks at the counter of the buffer. The controller
takes the commands of `set_leds` at once.
-/

namespace BazingaOS

open Prog

def kbInByte : Nat := 32
def mapCols : Nat := 3
def ledCode : UInt8 := 0xed

def flagBreak : UInt8 := 0x80
def flagExt : Nat := 0x0100
def flagShiftL : Nat := 0x0200
def flagShiftR : Nat := 0x0400
def flagCtrlL : Nat := 0x0800
def flagCtrlR : Nat := 0x1000
def flagAltL : Nat := 0x2000
def flagAltR : Nat := 0x4000
def flagPad : Nat := 0x8000

namespace Key

def esc : Nat := 0x01 + flagExt
def tab : Nat := 0x02 + flagExt
def enter : Nat := 0x03 + flagExt
def backspace : Nat := 0x04 + flagExt
def guiL : Nat := 0x05 + flagExt
def guiR : Nat := 0x06 + flagExt
def apps : Nat := 0x07 + flagExt
def shiftL : Nat := 0x08 + flagExt
def shiftR : Nat := 0x09 + flagExt
def ctrlL : Nat := 0x0a + flagExt
def ctrlR : Nat := 0x0b + flagExt
def altL : Nat := 0x0c + flagExt
def altR : Nat := 0x0d + flagExt
def capsLock : Nat := 0x0e + flagExt
def numLock : Nat := 0x0f + flagExt
def scrollLock : Nat := 0x10 + flagExt
/-- `F1` to `F12`. -/
def f (n : Nat) : Nat := 0x10 + n + flagExt
def printScreen : Nat := 0x1d + flagExt
def insert : Nat := 0x1f + flagExt
def delete : Nat := 0x20 + flagExt
def home : Nat := 0x21 + flagExt
def endKey : Nat := 0x22 + flagExt
def pageUp : Nat := 0x23 + flagExt
def pageDown : Nat := 0x24 + flagExt
def up : Nat := 0x25 + flagExt
def down : Nat := 0x26 + flagExt
def left : Nat := 0x27 + flagExt
def right : Nat := 0x28 + flagExt
def padSlash : Nat := 0x2c + flagExt
def padStar : Nat := 0x2d + flagExt
def padMinus : Nat := 0x2e + flagExt
def padPlus : Nat := 0x2f + flagExt
def padEnter : Nat := 0x30 + flagExt
def padDot : Nat := 0x31 + flagExt
def pad (n : Nat) : Nat := 0x32 + n + flagExt
def padUp : Nat := pad 8
def padDown : Nat := pad 2
def padLeft : Nat := pad 4
def padRight : Nat := pad 6
def padHome : Nat := pad 7
def padEnd : Nat := pad 1
def padPageUp : Nat := pad 9
def padPageDown : Nat := pad 3
def padIns : Nat := pad 0
def padMid : Nat := pad 5

end Key

namespace KB

open Key

/-- A row of the table without and with the shift key, and for the codes behind `E0`. -/
def row (a b : Char) : List Nat := [a.toNat, b.toNat, 0]

def same (key : Nat) : List Nat := [key, key, 0]

def keymap : List Nat := List.flatten [
  same 0, same esc, row '1' '!', row '2' '@', row '3' '#', row '4' '$', row '5' '%', row '6' '^',
  row '7' '&', row '8' '*', row '9' '(', row '0' ')', row '-' '_', row '=' '+', same backspace,
  same tab,
  -- 0x10
  row 'q' 'Q', row 'w' 'W', row 'e' 'E', row 'r' 'R', row 't' 'T', row 'y' 'Y', row 'u' 'U',
  row 'i' 'I', row 'o' 'O', row 'p' 'P', [91, 123, 0], [93, 125, 0], [enter, enter, padEnter],
  [ctrlL, ctrlL, ctrlR], row 'a' 'A', row 's' 'S',
  -- 0x20
  row 'd' 'D', row 'f' 'F', row 'g' 'G', row 'h' 'H', row 'j' 'J', row 'k' 'K', row 'l' 'L',
  row ';' ':', [39, 34, 0], [96, 126, 0], same shiftL, [92, 124, 0], row 'z' 'Z', row 'x' 'X',
  row 'c' 'C', row 'v' 'V',
  -- 0x30
  row 'b' 'B', row 'n' 'N', row 'm' 'M', row ',' '<', row '.' '>', [47, 63, padSlash], same shiftR,
  row '*' '*', [altL, altL, altR], row ' ' ' ', same capsLock, same (f 1), same (f 2), same (f 3),
  same (f 4), same (f 5),
  -- 0x40
  same (f 6), same (f 7), same (f 8), same (f 9), same (f 10), same numLock, same scrollLock,
  [padHome, 55, home], [padUp, 56, up], [padPageUp, 57, pageUp], [padMinus, 45, 0],
  [padLeft, 52, left], [padMid, 53, 0], [padRight, 54, right], [padPlus, 43, 0], [padEnd, 49, endKey],
  -- 0x50
  [padDown, 50, down], [padPageDown, 51, pageDown], [padIns, 48, insert], [padDot, 46, delete],
  same 0, same 0, same 0, same (f 11), same (f 12), same 0, same 0, [0, 0, guiL], [0, 0, guiR],
  [0, 0, apps], same 0, same 0,
  -- 0x60 to 0x7f
  List.replicate (0x20 * mapCols) 0]

end KB

structure KbInput where
  pHead : Nat := 0
  pTail : Nat := 0
  count : Int := 0
  buf : Nat → UInt8 := fun _ => 0

/-- The pointers into the buffer are indices. -/
def KbInput.ring (k : KbInput) : Ring UInt8 := ⟨k.buf, k.pHead, k.pTail, k.count⟩

/-- `out` are the bytes that the controller is sent, and `processed` the keys that `in_process` is
called with. `arrived` are the bytes that came while the buffer was not full and `taken` those that
were read from it. -/
structure Keyboard where
  kbIn : KbInput := {}
  codeWithE0 : Bool := false
  shiftL : Bool := false
  shiftR : Bool := false
  altL : Bool := false
  altR : Bool := false
  ctrlL : Bool := false
  ctrlR : Bool := false
  capsLock : Bool := false
  numLock : Bool := false
  scrollLock : Bool := false
  column : Nat := 0
  keyPressed : Bool := false
  out : List UInt8 := []
  processed : List Nat := []
  line : List (List UInt8) := []
  arrived : List UInt8 := []
  taken : List UInt8 := []

namespace KB

def keyboardHandler (scanCode : UInt8) : Prog Keyboard Unit := do
  when ((← get).kbIn.count < kbInByte) do
    modify fun s => { s with
      kbIn := { s.kbIn with
        buf := Function.update s.kbIn.buf s.kbIn.pHead scanCode
        pHead := Ring.next kbInByte s.kbIn.pHead
        count := s.kbIn.count + 1 }
      arrived := s.arrived ++ [scanCode] }
  modify fun s => { s with keyPressed := true }

def handleAll : List UInt8 → Prog Keyboard Unit
  | [] => return ()
  | code :: codes => do
    keyboardHandler code
    handleAll codes

/-- The interrupts in front of the next look at the counter. -/
def interrupts : Prog Keyboard Unit := do
  match (← get).line with
  | [] => return ()
  | codes :: line =>
    modify fun s => { s with line := line }
    handleAll codes

/-- The loop of `get_byte_from_kbuf`, when `n` portions are still to come. -/
def awaitByte : Nat → Prog Keyboard Unit
  | 0 => do
    if (← get).kbIn.count ≤ 0 then halt .hang
  | n + 1 => do
    interrupts
    if (← get).kbIn.count ≤ 0 then awaitByte n

/-- The removal of a byte, with the interrupts disabled. -/
def takeByte : Prog Keyboard UInt8 := do
  let k := (← get).kbIn
  let scanCode := k.buf k.pTail
  modify fun s => { s with
    kbIn := { k with pTail := Ring.next kbInByte k.pTail, count := k.count - 1 }
    taken := s.taken ++ [scanCode] }
  return scanCode

def getByteFromKbuf : Prog Keyboard UInt8 := do
  awaitByte (← get).line.length
  takeByte

def bit (b : Bool) (flag : Nat) : Nat := if b then flag else 0

def setLeds : Prog Keyboard Unit :=
  modify fun s => { s with
    out := s.out ++ [ledCode,
      (bit s.capsLock 4 ||| bit s.numLock 2 ||| bit s.scrollLock 1).toUInt8] }

def initKeyboard : Prog Keyboard Unit := do
  modify fun s => { s with
    kbIn := { s.kbIn with count := 0, pHead := 0, pTail := 0 }
    codeWithE0 := false, shiftL := false, shiftR := false, altL := false, altR := false
    ctrlL := false, ctrlR := false, capsLock := false, numLock := true, scrollLock := false }
  setLeds

/-- The first switch of `keyboard_read`: a lock key runs into the cases behind its own. -/
def setModifier (key : Nat) (bMake : Bool) : Prog Keyboard Unit := do
  if key = Key.shiftL then modify fun s => { s with shiftL := bMake }
  else if key = Key.shiftR then modify fun s => { s with shiftR := bMake }
  else if key = Key.ctrlL then modify fun s => { s with ctrlL := bMake }
  else if key = Key.ctrlR then modify fun s => { s with ctrlR := bMake }
  else if key = Key.altL then modify fun s => { s with altL := bMake }
  else if key = Key.altR then modify fun s => { s with altR := bMake }
  else
    when (key = Key.capsLock) do
      modify fun s => { s with capsLock := true }
      setLeds
    when (key = Key.capsLock ∨ key = Key.numLock) do
      modify fun s => { s with numLock := true }
      setLeds
    when (key = Key.capsLock ∨ key = Key.numLock ∨ key = Key.scrollLock) do
      modify fun s => { s with scrollLock := true }
      setLeds

/-- A key of the number pad. -/
def padKey (numLock : Bool) (key : Nat) : Nat :=
  if key = Key.padSlash then '/'.toNat
  else if key = Key.padStar then '*'.toNat
  else if key = Key.padMinus then '-'.toNat
  else if key = Key.padPlus then '+'.toNat
  else if key = Key.padEnter then Key.enter
  else if numLock ∧ Key.pad 0 ≤ key ∧ key ≤ Key.pad 9 then key - Key.pad 0 + '0'.toNat
  else if numLock ∧ key = Key.padDot then '.'.toNat
  else if key = Key.padHome then Key.home
  else if key = Key.padEnd then Key.endKey
  else if key = Key.padPageUp then Key.pageUp
  else if key = Key.padPageDown then Key.pageDown
  else if key = Key.padIns then Key.insert
  else if key = Key.padUp then Key.up
  else if key = Key.padDown then Key.down
  else if key = Key.padLeft then Key.left
  else if key = Key.padRight then Key.right
  else if key = Key.padDot then Key.delete
  else key

def inProcess (key : Nat) : Prog Keyboard Unit :=
  modify fun s => { s with processed := s.processed ++ [key] }

/-- A key that is pressed goes to the terminal, with the flags of the keys that are held. -/
def makeKey (key : Nat) : Prog Keyboard Unit := do
  let s ← get
  let isPad := Key.padSlash ≤ key ∧ key ≤ Key.pad 9
  let key := if isPad then padKey s.numLock key else key
  inProcess (key ||| bit s.shiftL flagShiftL ||| bit s.shiftR flagShiftR |||
    bit s.ctrlL flagCtrlL ||| bit s.ctrlR flagCtrlR ||| bit s.altL flagAltL |||
    bit s.altR flagAltR ||| bit (decide isPad) flagPad)

/-- The part of `keyboard_read` for a code that is not part of PrintScreen or Pause. -/
def readKey (scanCode : UInt8) : Prog Keyboard Unit := do
  let bMake := decide (scanCode &&& flagBreak = 0)
  modify fun s => { s with column := if s.shiftL ∨ s.shiftR then 1 else 0 }
  when ((← get).codeWithE0) do
    modify fun s => { s with column := 2, codeWithE0 := false }
  let key := keymap.getD ((scanCode &&& 0x7f).toNat * mapCols + (← get).column) 0
  setModifier key bMake
  when bMake do makeKey key

/-- Whether the next bytes are the given ones; the first that is not ends the comparison. -/
def expect : List UInt8 → Prog Keyboard Bool
  | [] => return true
  | code :: codes => do
    if (← getByteFromKbuf) ≠ code then return false
    else expect codes

def pausebrkScode : List UInt8 := [0xe1, 0x1d, 0x45, 0xe1, 0x9d, 0xc5]

def keyboardRead : Prog Keyboard Unit := do
  interrupts
  when (0 < (← get).kbIn.count) do
    modify fun s => { s with codeWithE0 := false }
    let scanCode ← getByteFromKbuf
    if scanCode = 0xe1 then
      if ← expect pausebrkScode then return ()
      else readKey scanCode
    else if scanCode = 0xe0 then
      let scanCode ← getByteFromKbuf
      let isPrintScreen ←
        if scanCode = 0x2a then expect [0xe0, 0x37]
        else if scanCode = 0xb7 then expect [0xe0, 0xaa]
        else pure false
      if isPrintScreen then return ()
      else
        modify fun s => { s with codeWithE0 := true }
        readKey scanCode
    else readKey scanCode

end KB

end BazingaOS
