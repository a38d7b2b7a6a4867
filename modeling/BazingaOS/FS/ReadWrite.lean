import BazingaOS.FS.Open

/-!
# Reading, writing and seeking

`fs/read_write.c` and `fs/lseek.c`. A request on a terminal goes to its driver, whose answer is a
parameter. The loop of `do_rdwt` moves `chunk` sectors a round; its number of rounds follows from
the first and the last sector.
-/

namespace BazingaOS

open Prog

/-- The variables of the loop of `do_rdwt` that its rounds hand on. -/
structure Transfer where
  off : Int
  bytesProc : Int
  bytesLeft : Int

namespace FS

/-- `chunk` sectors from `i` on are read into the buffer or written from it. The position on the disk
is an `int`: from sector 2^22 on it is that of no sector. -/
def rdSects (dev : Nat) (i chunk : Int) : Prog Fs Unit :=
  if 0 ≤ i ∧ i * sectorSize < 2 ^ 31 then
    onDev dev (modify fun s => { s with
      fsbuf := copyBytes s.fsbuf 0 s.disk (sectorSize * i.toNat) (sectorSize * chunk.toNat) })
  else halt .undefined

def wrSects (dev : Nat) (i chunk : Int) : Prog Fs Unit :=
  if 0 ≤ i ∧ i * sectorSize < 2 ^ 31 then
    onDev dev (modify fun s => { s with
      disk := copyBytes s.disk (sectorSize * i.toNat) s.fsbuf 0 (sectorSize * chunk.toNat) })
  else halt .undefined

/-- `phys_copy` between the buffer at `off` and the memory of `p` at `a`, in either direction. It goes
on behind the buffer, where that of MM is. -/
def copyOut (p : Pid) (a : Nat) (off bytes : Int) : Prog Fs Unit :=
  if 0 ≤ off ∧ 0 ≤ bytes then
    modify fun s =>
      let m := copyBytes (s.user p) a s.fsbuf off.toNat bytes.toNat
      { s with user := Function.update s.user p m }
  else halt .undefined

def copyIn (p : Pid) (a : Nat) (off bytes : Int) : Prog Fs Unit :=
  if 0 ≤ off ∧ 0 ≤ bytes then
    modify fun s => { s with fsbuf := copyBytes s.fsbuf off.toNat (s.user p) a bytes.toNat }
  else halt .undefined

def rdwtRound (p : Pid) (buf : Nat) (isRead : Bool) (f : Fin nrFileDesc) (dev : Nat)
    (posEnd chunk i : Int) (a : Transfer) : Prog Fs (ForInStep Transfer) := do
  rdSects dev i chunk
  let bytes := min (chunk * sectorSize) a.bytesLeft
  let pos := ((← get).fdTable f).fdPos
  if isRead then
    if posEnd ≤ pos then return .done a
    else
      let bytes := min (posEnd - pos) bytes
      copyOut p (buf + a.bytesProc.toNat) a.off bytes
      setDesc f fun d => { d with fdPos := d.fdPos + bytes }
      return .yield ⟨0, a.bytesProc + bytes, a.bytesLeft - bytes⟩
  else
    copyIn p (buf + a.bytesProc.toNat) a.off bytes
    wrSects dev i chunk
    setDesc f fun d => { d with fdPos := d.fdPos + bytes }
    return .yield ⟨0, a.bytesProc + bytes, a.bytesLeft - bytes⟩

/-- `do_rdwt` on a file with sectors. The sum of position and count may wrap, but the comparisons with
`i_size` and with the size of the sectors are unsigned. -/
def rdwtFile (p : Pid) (msg : Message) (f : Fin nrFileDesc) (n : Fin nrInode) : Prog Fs Int := do
  let i := (← get).inodeTable n
  let pos := ((← get).fdTable f).fdPos
  let cnt := msg.m3i2
  let isRead := decide (msg.type = .read)
  let limit := if isRead then i.iSize else i.iNrSects * sectorSize % 2 ^ 32
  let posEnd := toI32 (min limit (toU32 (pos + cnt)))
  let sectBeg := toI32 (i.iStartSect + pos / sectorSize)
  let sectEnd := toI32 (i.iStartSect + posEnd / sectorSize)
  let chunk := min (sectEnd - sectBeg + 1) (fsbufSize / sectorSize)
  let rounds := (sectEnd - sectBeg) / chunk + 1
  let a ← iter (fun r a => rdwtRound p msg.m3p2 isRead f i.iDev posEnd chunk
      (sectBeg + r * chunk) a)
    (if sectBeg ≤ sectEnd then rounds.toNat else 0) 0 ⟨pos.tmod sectorSize, 0, cnt⟩
  let pos := ((← get).fdTable f).fdPos
  when (i.iSize < toU32 pos) do
    setInode n fun i => { i with iSize := toU32 pos }
    syncInode n
  return a.bytesProc

/-- The answer of a driver to a message. -/
abbrev Drivers := Pid → Message → Message

/-- `do_rdwt` on a terminal: the driver gets the request and its answer is the message. -/
def rdwtDevice (drv : Drivers) (p : Pid) (msg : Message) (dev : Nat) :
    Prog Fs (Int × Message) := do
  let d ← driverOf dev
  let msg := drv d { msg with
    type := if msg.type = .read then .devRead else .devWrite
    m3i4 := dev % 256
    m3i3 := p.val }
  return (msg.m3i2, msg)

/-- Returns the count and the message, which the driver of a terminal has changed. -/
def doRdwt (drv : Drivers) (p : Pid) (msg : Message) : Prog Fs (Int × Message) := do
  match fdIndex msg.m3i1 with
  | none => return (-1, msg)
  | some fd =>
    match (← get).filp p fd with
    | none => halt .assertion
    | some f =>
      let d := (← get).fdTable f
      match d.fdInode with
      | none => halt .assertion
      | some n =>
        let mode := iTypeMask &&& ((← get).inodeTable n).iMode
        if ¬ oRdwr d.fdMode then return (-2, msg)
        else if mode = iCharSpecial then
          rdwtDevice drv p msg ((← get).inodeTable n).iStartSect
        else
          check (mode = iDirectory ∨ mode = iRegular)
          return (← rdwtFile p msg f n, msg)

/-- Where `do_lseek` sets the position, before it is put into the range of the file. -/
def seekTarget (whence offset pos size : Int) : Prog Fs Int :=
  if whence = 1 then return offset
  else if whence = 2 then if InI32 (pos + offset) then return pos + offset else halt .undefined
  else if whence = 3 then if InI32 (size + offset) then return size + offset else halt .undefined
  else halt .assertion

def doLseek (p : Pid) (msg : Message) : Prog Fs Int := do
  match fdIndex msg.m3i1 with
  | none => return -1
  | some fd =>
    match (← get).filp p fd with
    | none => halt .assertion
    | some f =>
      match ((← get).fdTable f).fdInode with
      | none => halt .assertion
      | some n =>
        let i := (← get).inodeTable n
        let posEnd := toI32 (i.iNrSects * sectorSize - 1)
        if i.iMode ≠ iRegular then return -1
        else
          let pos ← seekTarget msg.m3i3 msg.m3i2 ((← get).fdTable f).fdPos (toI32 i.iSize)
          setDesc f fun d => { d with fdPos := min (max pos 0) posEnd }
          return min (max pos 0) posEnd

/-- An open descriptor of a process that `fs_fork` and `fs_exit` meet. -/
def openAt (q : Pid) (i : Fin nrFiles) : Prog Fs (Option (Fin nrFileDesc × Fin nrInode)) := do
  match (← get).filp q i with
  | none => return none
  | some f =>
    match ((← get).fdTable f).fdInode with
    | none => halt .undefined
    | some n => return some (f, n)

def forkDesc (q : Pid) (i : Fin nrFiles) : Prog Fs Unit := do
  match ← openAt q i with
  | none => return ()
  | some (f, n) =>
    setDesc f fun d => { d with fdCnt := d.fdCnt + 1 }
    setInode n fun i => { i with iCnt := i.iCnt + 1 }

def exitDesc (q : Pid) (i : Fin nrFiles) : Prog Fs Unit := do
  match ← openAt q i with
  | none => return ()
  | some (f, n) =>
    setInode n fun i => { i with iCnt := i.iCnt - 1 }
    setDesc f fun d =>
      { d with fdCnt := d.fdCnt - 1, fdInode := if d.fdCnt - 1 = 0 then none else d.fdInode }
    setFilp q i none

def forFiles (body : Fin nrFiles → Prog Fs Unit) : List (Fin nrFiles) → Prog Fs Unit
  | [] => return ()
  | i :: is => do
    body i
    forFiles body is

/-- `proc_table[nr]`. -/
def procAt (nr : Int) : Option Pid :=
  if h : 0 ≤ nr ∧ nr.toNat < nrSlots then some ⟨nr.toNat, h.2⟩ else none

def fsFork (msg : Message) : Prog Fs Unit :=
  match procAt msg.m3i2 with
  | none => halt .undefined
  | some q => forFiles (forkDesc q) (List.finRange nrFiles)

def fsExit (msg : Message) : Prog Fs Unit :=
  match procAt msg.m3i2 with
  | none => halt .undefined
  | some q => forFiles (exitDesc q) (List.finRange nrFiles)

/-- The switch of `task_fs` for a message from `p`: `src` and the message behind it. -/
def handle (drv : Drivers) (p : Pid) (msg : Message) : Prog Fs (Int × Message) :=
  match msg.type with
  | .open => do return (p.val, { msg with m3i1 := ← doOpen p msg })
  | .close => do return (p.val, { msg with m3i1 := ← doClose p msg })
  | .read | .write => do
    let (cnt, msg) ← doRdwt drv p msg
    return (p.val, { msg with m3i2 := cnt })
  | .unlink => do return (p.val, { msg with m3i1 := ← doUnlink p msg })
  | .lseek => do return (p.val, { msg with m3i2 := ← doLseek p msg })
  | .resumeProc => return (msg.m3i3, msg)
  | .fork => do
    fsFork msg
    return (p.val, msg)
  | .exit => do
    fsExit msg
    return (p.val, msg)
  | .stat => do return (p.val, { msg with m3i1 := ← doStat p msg })
  | _ => halt .panic

/-- The body of the loop of `task_fs` for a message from `p`: the process number that a reply is
sent to and the reply. A request that a terminal keeps is not answered. -/
def serve (drv : Drivers) (p : Pid) (msg : Message) : Prog Fs (Option (Int × Message)) := do
  let (src, msg) ← handle drv p msg
  if msg.type = .suspendProc then return none
  else return some (src, { msg with type := .syscallRet })

end FS

end BazingaOS
