import BazingaOS.FS.Inode

/-!
# Opening, creating, closing and removing files

`fs/open.c`, `fs/link.c` and `do_stat` of `fs/misc.c`. `p` is the process that `pcaller` points to.
A null pointer that is followed, an index outside an array and a negative count for `phys_copy` are
undefined.
-/

namespace BazingaOS

open Prog

/-- Bit `k` of a signed integer. -/
def intBit (x : Int) (k : Nat) : Bool := decide (x / 2 ^ k % 2 = 1)

/-- `O_CREAT`, `O_RDWR` and `O_TRUNC` among the flags of a message. -/
def oCreat (flags : Int) : Bool := intBit flags 0
def oRdwr (flags : Int) : Bool := intBit flags 1
def oTrunc (flags : Int) : Bool := intBit flags 2

/-- `dd_map`; `none` is `INVALID_DRIVER`. -/
def ddMap : List (Option Pid) := [none, none, none, some taskHd, some taskTty, none]

namespace FS

def driverOf (dev : Nat) : Prog Fs Pid :=
  match ddMap[dev / 256 % 256]? with
  | none => halt .undefined
  | some none => halt .assertion
  | some (some d) => return d

/-- The path of `len` bytes at address `a` of process `p`, in an array of `MAX_PATH` bytes. -/
def copyPath (p : Pid) (a : Nat) (len : Int) : Prog Fs (List UInt8) := do
  if 0 ≤ len ∧ len < maxPath then
    let m := (← get).user p
    return cstring (fun i => m (a + i)) len.toNat
  else halt .undefined

def newInode (dev nr startSect : Nat) : Prog Fs (Fin nrInode) := do
  let p ← getInode dev nr
  setInode p fun i => { i with
    iMode := iRegular, iSize := 0, iStartSect := startSect, iNrSects := nrDefaultFileSects,
    iDev := dev, iNum := nr, iCnt := 1 }
  syncInode p
  return p

/-- The first entry of the directory that is free, as sector and index in it, and whether the
directory grows by it. An index of 32 is behind the sector. -/
def freeEntry (dev start nrDir : Nat) (i : Nat) : Prog Fs (Option (Nat × Nat × Bool)) := do
  onDev dev (rdSect (start + i))
  let b := (← get).fsbuf
  let left := nrDir - entriesPerSect * i
  let n := min entriesPerSect left
  match (List.range n).find? fun j => decide (entryNr b j = 0) with
  | some j => return some (i, j, false)
  | none => return if left ≤ entriesPerSect then some (i, n, true) else none

def newDirectoryEntry (de : Fin nrInode) (name : List UInt8) (nr : Nat) : Prog Fs Unit := do
  let d := (← get).inodeTable de
  match ← scan (freeEntry d.iDev d.iStartSect (d.iSize / dirEntSize)) d.iNrSects 0 with
  | none => halt .undefined
  | some (i, j, grows) =>
    when (grows = true) (setInode de fun d => { d with iSize := (d.iSize + dirEntSize) % 2 ^ 32 })
    setBuf fun b => putBytes b (dirEntSize * j) (u32Bytes nr ++ name ++ [0])
    onDev d.iDev (wrSect (i + d.iStartSect))
    syncInode de

def createFile (path : List UInt8) : Prog Fs (Option (Fin nrInode)) := do
  match stripPath path with
  | none => return none
  | some name =>
    fitsFilename name
    let dir ← rootNode
    let dev := ((← get).inodeTable dir).iDev
    let nr ← allocImapBit dev
    let sect ← allocSmapBit dev nrDefaultFileSects
    let p ← newInode dev nr sect
    newDirectoryEntry dir name nr
    return some p

/-- The first free index in the `filp` array of `p`. -/
def freeFilp (p : Pid) : Prog Fs (Fin nrFiles) := do
  let a := (← get).filp p
  match (List.finRange nrFiles).find? fun i => (a i).isNone with
  | none => halt .panic
  | some i => return i

def freeDesc : Prog Fs (Fin nrFileDesc) := do
  let t := (← get).fdTable
  match (List.finRange nrFileDesc).find? fun f => (t f).fdInode.isNone with
  | none => halt .panic
  | some f => return f

/-- The inode that `do_open` opens, if it opens one. Its assertion on the flags cannot fail: `|`
binds less than `==`. -/
def openInode (path : List UInt8) (flags : Int) : Prog Fs (Option (Fin nrInode)) := do
  let nr ← searchFile path
  if nr = 0 then
    if oCreat flags then
      match ← createFile path with
      | none => halt .undefined
      | some n => return some n
    else return none
  else if oRdwr flags then
    if oCreat flags && !oTrunc flags then return none
    else
      let dir ← rootNode
      return some (← getInode ((← get).inodeTable dir).iDev nr)
  else return none

/-- The end of `do_open`: a terminal is opened by its driver, which answers every request. -/
def openDevice (n : Fin nrInode) : Prog Fs Unit := do
  let i := (← get).inodeTable n
  if i.iMode = iCharSpecial then
    let _ ← driverOf i.iStartSect
  else if i.iMode = iDirectory then check (i.iNum = rootInodeNr)
  else check (i.iMode = iRegular)

def doOpen (p : Pid) (msg : Message) : Prog Fs Int := do
  let flags := msg.m3i1
  let path ← copyPath p msg.m3p1 msg.m3i2
  let fd ← freeFilp p
  let f ← freeDesc
  match ← openInode path flags with
  | none => return -1
  | some n =>
    when (oTrunc flags = true) do
      setInode n fun i => { i with iSize := 0 }
      syncInode n
    setFilp p fd (some f)
    setDesc f fun d => { d with fdInode := some n, fdCnt := 1, fdMode := flags, fdPos := 0 }
    openDevice n
    return fd.val

/-- The index that a descriptor number names, if it is a valid one. -/
def fdIndex (fd : Int) : Option (Fin nrFiles) :=
  if h : 0 ≤ fd ∧ fd.toNat < nrFiles then some ⟨fd.toNat, h.2⟩ else none

def doClose (p : Pid) (msg : Message) : Prog Fs Int := do
  match fdIndex msg.m3i1 with
  | none => return -1
  | some fd =>
    match (← get).filp p fd with
    | none => halt .undefined
    | some f =>
      match ((← get).fdTable f).fdInode with
      | none => halt .undefined
      | some n =>
        putInode n
        setDesc f fun d =>
          { d with fdCnt := d.fdCnt - 1, fdInode := if d.fdCnt - 1 = 0 then none else d.fdInode }
        setFilp p fd none
        return 0

/-- Clears bit `nr` of the inode map. -/
def clearImapBit (dev nr : Nat) : Prog Fs Unit := do
  onDev dev (rdSect 2)
  check (nr / 8 < sectorSize)
  check ((← get).fsbuf (nr / 8) &&& bitMask (nr % 8) ≠ 0)
  setBuf fun b => clearBit b (nr / 8) (nr % 8)
  onDev dev (wrSect 2)

/-- The place in the sector map behind a byte: its sector and the index of the byte there. At the
end of a sector the next one is read. -/
def nextSmapByte (dev sect i : Nat) : Prog Fs (Nat × Nat) := do
  if i = sectorSize then
    onDev dev (wrSect sect)
    onDev dev (rdSect (sect + 1))
    return (sect + 1, 0)
  else return (sect, i)

/-- Clears the `nrSects` bits of the sector map from `bitIdx` on: the first byte, the whole bytes
behind it and the rest. -/
def clearSmapBits (dev bitIdx nrSects : Nat) : Prog Fs Unit := do
  let byteIdx := bitIdx / 8
  let first := min (8 - bitIdx % 8) nrSects
  let byteCnt := (nrSects - (8 - bitIdx % 8)) / 8
  let sect := 1 + 1 + 1 + byteIdx / sectorSize
  onDev dev (rdSect sect)
  loop (fun i => do
    check ((← get).fsbuf (byteIdx % sectorSize) &&& bitMask i ≠ 0)
    setBuf fun b => clearBit b (byteIdx % sectorSize) i) first (bitIdx % 8)
  let (sect, i) ← iter (fun _ a => do
    let (sect, i) ← nextSmapByte dev a.1 a.2
    check ((← get).fsbuf i = 0xff)
    setBuf fun b => Function.update b i 0
    return .yield (sect, i + 1)) byteCnt 0 (sect, byteIdx % sectorSize + 1)
  let (sect, i) ← nextSmapByte dev sect i
  let left := nrSects - first - 8 * byteCnt
  check (left < 8)
  -- `&` binds less than `==`, so this is the lowest bit
  check ((← get).fsbuf i &&& bitMask 0 ≠ 0)
  loop (fun k => setBuf fun b => clearBit b i k) left 0
  onDev dev (wrSect sect)

/-- One entry of the directory in the last loop of `do_unlink`: `dirSize` counts the bytes of the
entries in use in front of the one that is cleared. -/
def unlinkEntry (dev start : Nat) (nr : Int) (t : Nat) (a : Option Nat × Nat) :
    Prog Fs (ForInStep (Option Nat × Nat)) := do
  let j := t % entriesPerSect
  when (j = 0) (onDev dev (rdSect (start + t / entriesPerSect)))
  let b := (← get).fsbuf
  if entryNr b j = nr then
    setBuf fun b => putBytes b (dirEntSize * j) (List.replicate dirEntSize 0)
    onDev dev (wrSect (start + t / entriesPerSect))
    return .done (some t, a.2)
  else return .yield (none, if entryNr b j ≠ 0 then a.2 + dirEntSize else a.2)

/-- Clears the entry of inode `nr`; if it was the last one, the directory gets shorter. -/
def clearEntry (dir : Fin nrInode) (dev : Nat) (nr : Int) : Prog Fs Unit := do
  let d := (← get).inodeTable dir
  let nrDir := d.iSize / dirEntSize
  let (found, dirSize) ← iter (unlinkEntry dev d.iStartSect nr)
    (min nrDir (entriesPerSect * d.iNrSects)) 0 (none, 0)
  match found with
  | none => halt .assertion
  | some t =>
    when (t + 1 = nrDir) do
      setInode dir fun d => { d with iSize := dirSize }
      syncInode dir

def removeFile (dir n : Fin nrInode) (dev : Nat) (nr : Int) : Prog Fs Unit := do
  if nr < 0 then halt .undefined
  else
    clearImapBit dev nr.toNat
    let sb ← getSuperBlock dev
    let i := (← get).inodeTable n
    if i.iStartSect + 1 < sb.n1stSect then halt .undefined
    else
      clearSmapBits dev (i.iStartSect + 1 - sb.n1stSect) i.iNrSects
      setInode n fun i => { i with iMode := 0, iSize := 0, iStartSect := 0, iNrSects := 0 }
      putInode n
      syncInode n
      clearEntry dir dev nr

def doUnlink (p : Pid) (msg : Message) : Prog Fs Int := do
  check (msg.m3i2 < maxPath)
  let path ← copyPath p msg.m3p1 msg.m3i2
  if path = [47] then return -1
  else
    let nr ← searchFile path
    if nr = 0 then return -1
    else
      match stripPath path with
      | none => return -1
      | some _ =>
        let dir ← rootNode
        let dev := ((← get).inodeTable dir).iDev
        let n ← getInode dev nr
        let i := (← get).inodeTable n
        if i.iMode ≠ iRegular then return -1
        else if 1 < i.iCnt then return -1
        else
          removeFile dir n dev nr
          return 0

/-- `struct stat`, as the bytes that are copied to the caller. -/
def statBytes (i : Inode) : List UInt8 :=
  let special := i.iMode &&& iTypeMask = iBlockSpecial ∨ i.iMode &&& iTypeMask = iCharSpecial
  u32Bytes i.iDev ++ u32Bytes (toU32 i.iNum) ++ u32Bytes i.iMode ++
    u32Bytes (if special then i.iStartSect else 0) ++ u32Bytes i.iSize

def doStat (p : Pid) (msg : Message) : Prog Fs Int := do
  check (msg.m3i2 < maxPath)
  let path ← copyPath p msg.m3p1 msg.m3i2
  let nr ← searchFile path
  if nr = 0 then return -1
  else
    match stripPath path with
    | none => halt .assertion
    | some _ =>
      let dir ← rootNode
      let n ← getInode ((← get).inodeTable dir).iDev nr
      let i := (← get).inodeTable n
      putInode n
      modify fun s => { s with
        user := Function.update s.user p (putBytes (s.user p) msg.m3p2 (statBytes i)) }
      return 0

end FS

end BazingaOS
