import BazingaOS.Kernel.Display
import BazingaOS.Kernel.Proc

/-!
# Reading from a terminal

`put_key`, `tty_do_read` and `tty_dev_write` of `kernel/tty.c` for one terminal: its ring buffer,
the request that is pending, the console that echoes the keys, the memory that the characters go
to and the messages that TTY sends.
-/

namespace BazingaOS

open Prog

def ttyInBytes : Nat := 256

/-- `TTY`; the pointers into `in_buf` are indices. -/
structure TtyRecord where
  inBuf : Nat → Nat := fun _ => 0
  inbufHead : Nat := 0
  inbufTail : Nat := 0
  inbufCount : Nat := 0
  ttyCaller : Endpoint := .proc taskSys
  ttyProNr : Int := 0
  ttyReadBuf : Int := 0
  ttyBytesLeft : Int := 0
  ttyTransBytes : Int := 0

structure TtyDevice where
  tty : TtyRecord := {}
  con : Con
  screen : Screen
  mem : Int → UInt8
  sent : List (Endpoint × Message) := []

namespace TTY

def setTty (f : TtyRecord → TtyRecord) : Prog TtyDevice Unit :=
  modify fun s => { s with tty := f s.tty }

def send (d : Endpoint) (m : Message) : Prog TtyDevice Unit :=
  modify fun s => { s with sent := s.sent ++ [(d, m)] }

/-- `out_char` on the console of the terminal. -/
def echo (fuel : Nat) (ch : UInt8) : Prog TtyDevice Unit := fun s =>
  match CON.outChar fuel ch s.con s.screen with
  | .ok _ scr => .ok () { s with screen := scr }
  | .stop w scr => .stop w { s with screen := scr }

def nextKey (i : Nat) : Nat := if i + 1 = ttyInBytes then 0 else i + 1

def putKey (key : Nat) : Prog TtyDevice Unit := do
  when ((← get).tty.inbufCount < ttyInBytes) do
    setTty fun r => { r with
      inBuf := Function.update r.inBuf r.inbufHead key
      inbufHead := nextKey r.inbufHead
      inbufCount := r.inbufCount + 1 }

/-- `va2la` gives the linear address of an address of a process. -/
def ttyDoRead (va2la : Int → Nat → Int) (msg : Message) : Prog TtyDevice Unit := do
  setTty fun r => { r with
    ttyCaller := msg.source
    ttyProNr := msg.m3i3
    ttyReadBuf := va2la msg.m3i3 msg.m3p2
    ttyBytesLeft := msg.m3i2
    ttyTransBytes := 0 }
  let r := (← get).tty
  send r.ttyCaller { msg with type := .suspendProc, m3i2 := r.ttyBytesLeft }

/-- `phys_copy` of one character to an address. -/
def store (a : Int) (ch : UInt8) : Prog TtyDevice Unit :=
  modify fun s => { s with mem := Function.update s.mem a ch }

def Printable (ch : UInt8) : Prop := 32 ≤ ch ∧ ch ≤ 126

instance (ch : UInt8) : Decidable (Printable ch) := inferInstanceAs (Decidable (_ ∧ _))

/-- A character moves the counters of the request that is pending. -/
def moveChar (fuel : Nat) (ch : UInt8) : Prog TtyDevice Unit := do
  if Printable ch then
    echo fuel ch
    let r := (← get).tty
    store (r.ttyReadBuf + r.ttyTransBytes) ch
    setTty fun r => { r with
      ttyBytesLeft := r.ttyBytesLeft - 1, ttyTransBytes := r.ttyTransBytes + 1 }
  else when (ch = 8) do
    echo fuel ch
    setTty fun r => { r with
      ttyBytesLeft := r.ttyBytesLeft + 1, ttyTransBytes := r.ttyTransBytes - 1 }

/-- The request ends with its last byte or with a newline. -/
def endRead (fuel : Nat) (ch : UInt8) : Prog TtyDevice Unit := do
  when ((← get).tty.ttyBytesLeft = 0 ∨ ch = 10) do
    echo fuel 10
    let r := (← get).tty
    send r.ttyCaller { type := .resumeProc, m3i3 := r.ttyProNr, m3i2 := r.ttyTransBytes }
    setTty fun r => { r with ttyBytesLeft := 0 }

/-- One round of the loop of `tty_dev_write`. -/
def writeKey (fuel : Nat) : Prog TtyDevice Unit := do
  let r := (← get).tty
  let ch := (r.inBuf r.inbufTail).toUInt8
  setTty fun r => { r with inbufTail := nextKey r.inbufTail, inbufCount := r.inbufCount - 1 }
  when (0 < (← get).tty.ttyBytesLeft) do
    moveChar fuel ch
    endRead fuel ch

/-- `fuel` bounds the rounds of the loops. -/
def ttyDevWrite (fuel : Nat) : Prog TtyDevice Unit :=
  whileLoop (fun s => 0 < s.tty.inbufCount) (writeKey fuel) fuel

/-- A key comes from the keyboard, and the loop of `task_tty` gets to `tty_dev_write`. -/
def typeKey (fuel key : Nat) : Prog TtyDevice Unit := do
  putKey key
  ttyDevWrite fuel

end TTY

end BazingaOS
