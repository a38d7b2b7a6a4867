import BazingaOS.Lib.Loop
import BazingaOS.MM.ProcName
import BazingaOS.MM.Segment

/-!
# Executing a file

`do_exec` of `mm/exec.c`: the file is read into `mmbuf` through the file system, whose answers are a
parameter, its segments are copied into the image of the caller, and the arguments are moved to the
end of the image.
-/

namespace BazingaOS

open Prog

def procOriginStack : Nat := 0x400

/-- What `stat`, `open` and `read` give MM for a path. -/
structure ExecFile where
  statRet : Int
  fd : Int
  size : Nat
  content : Bytes

abbrev ExecFiles := List UInt8 → ExecFile

/-- The registers that `do_exec` sets. -/
structure ExecRegs where
  eax : Nat := 0
  ecx : Nat := 0
  eip : Nat := 0
  esp : Nat := 0
deriving DecidableEq, Repr

/-- The memory of the processes, the buffer of MM and what `do_exec` writes of the process table. -/
structure ExecState where
  user : Pid → Bytes := fun _ _ => 0
  mmbuf : Bytes := fun _ => 0
  regs : Pid → ExecRegs := fun _ => {}
  pName : Pid → List UInt8 := fun _ => []

namespace MM

def setUser (p : Pid) (f : Bytes → Bytes) : Prog ExecState Unit :=
  modify fun s => { s with user := Function.update s.user p (f (s.user p)) }

/-- Program header `i` of the file in `mmbuf`; a segment to load is copied before its address is
checked. -/
def loadSegment (p : Pid) (i : Nat) : Prog ExecState Unit := do
  let m := (← get).mmbuf
  let ph := u32At m 28 + i * u16At m 42
  when (u32At m ph = 1) do
    setUser p fun u => copyBytes u (u32At m (ph + 8)) m (u32At m (ph + 4)) (u32At m (ph + 16))
    check (u32At m (ph + 8) < procDefaultImgSize)

/-- The addresses at the start of the argument stack up to the zero behind them move by `delta`;
their number is `argc`. Without a zero among the `len` bytes the loop reads what is behind them. -/
def moveArgs (delta : Int) (len : Nat) (stk : Bytes) : Option (Nat × Bytes) :=
  ((List.range (len / 4)).find? fun j => decide (u32At stk (4 * j) = 0)).map fun argc =>
    (argc, (List.range argc).foldl (fun b j =>
      putBytes b (4 * j) (u32Bytes (((u32At stk (4 * j) + delta) % 0x100000000).toNat))) stk)

def doExec (files : ExecFiles) (p : Pid) (msg : Message) : Prog ExecState Int := do
  check (msg.m3i2 < maxPath)
  if msg.m3i2 < 0 then halt .undefined
  else
    let m := (← get).user p
    let path := cstring (fun i => m (msg.m3p1 + i)) msg.m3i2.toNat
    let file := files path
    if file.statRet ≠ 0 then return -1
    else if file.fd < 0 then return -1
    else
      check (file.size ≤ mmbufSize)
      modify fun s => { s with mmbuf := copyBytes s.mmbuf 0 file.content 0 file.size }
      loop (loadSegment p) (u16At (← get).mmbuf 44) 0
      if msg.m3i3 < 0 ∨ procOriginStack < msg.m3i3.toNat then halt .undefined
      else
        let u := (← get).user p
        let stkPos := procDefaultImgSize - procOriginStack
        let stk := copyBytes (fun _ => 0) 0 u msg.m3p2 msg.m3i3.toNat
        match moveArgs ((stkPos : Int) - msg.m3p2) msg.m3i3.toNat stk with
        | none => halt .undefined
        | some (argc, stk) =>
          setUser p fun u => copyBytes u stkPos stk 0 msg.m3i3.toNat
          let entry := u32At (← get).mmbuf 24
          modify fun s => { s with
            regs := Function.update s.regs p ⟨stkPos, argc, entry, stkPos⟩ }
          if path.length < pNameSize then
            modify fun s => { s with pName := Function.update s.pName p path }
            return 0
          else halt .undefined

end MM

end BazingaOS
