import BazingaOS.FS.Disk
import BazingaOS.Lib.Int32

/-!
# Inodes, maps and directory entries

`get_inode`, `put_inode` and `sync_inode` of `fs/main.c`, the two allocators of `fs/open.c`, and
`strip_path` and `search_file` of `fs/misc.c`. Two nested loops over the sectors and the entries of
the directory are one loop over its entries that reads a sector in front of its first entry.
-/

namespace BazingaOS

open Prog

def entriesPerSect : Nat := 32

/-- The inode number and the name in entry `j` of the buffer. -/
def entryNr (m : Bytes) (j : Nat) : Int := toI32 (u32At m (dirEntSize * j))
def entryName (m : Bytes) (j : Nat) : List UInt8 :=
  cstring (fun i => m (dirEntSize * j + 4 + i)) maxFilenameLen

/-- The sector that holds inode `nr`, and where in it. -/
def inodeSect (sb : SuperBlock) (nr : Nat) : Nat :=
  1 + 1 + sb.nrImapSects + sb.nrSmapSects + (nr - 1) * inodeSize / sectorSize
def inodeOff (nr : Nat) : Nat := (nr - 1) % (sectorSize / inodeSize) * inodeSize

/-- The name in a path, unless it has a slash behind its first character. A longer name is cut. -/
def stripPath (path : List UInt8) : Option (List UInt8) :=
  let src := if path.head? = some 47 then path.tail else path
  let name := src.take maxFilenameLen
  if 47 ∈ name then none else some name

namespace FS

/-- Only the partition of `ROOT_DEV` is part of the state. -/
def onDev (dev : Nat) (p : Prog Fs Unit) : Prog Fs Unit :=
  if dev = rootDev then p else halt .undefined

/-- The test assigns, so the first super block is found whatever `dev` is. -/
def getSuperBlock (dev : Nat) : Prog Fs SuperBlock := do
  modify fun s => { s with sb := { s.sb with sbDev := dev } }
  if dev = 0 then halt .panic
  else return (← get).sb

def setInode (p : Fin nrInode) (f : Inode → Inode) : Prog Fs Unit :=
  modify fun s => { s with inodeTable := Function.update s.inodeTable p (f (s.inodeTable p)) }

def setDesc (f : Fin nrFileDesc) (g : FileDesc → FileDesc) : Prog Fs Unit :=
  modify fun s => { s with fdTable := Function.update s.fdTable f (g (s.fdTable f)) }

def setFilp (p : Pid) (i : Fin nrFiles) (f : Option (Fin nrFileDesc)) : Prog Fs Unit :=
  modify fun s => { s with filp := Function.update s.filp p (Function.update (s.filp p) i f) }

/-- The slot in use of the inode cache that holds inode `nr` of `dev`. -/
def cachedInode (t : Fin nrInode → Inode) (dev : Nat) (nr : Int) : Option (Fin nrInode) :=
  (List.finRange nrInode).find? fun p =>
    decide ((t p).iCnt ≠ 0 ∧ (t p).iDev = dev ∧ (t p).iNum = nr)

def freeInode (t : Fin nrInode → Inode) : Option (Fin nrInode) :=
  (List.finRange nrInode).find? fun p => decide ((t p).iCnt = 0)

/-- An inode number below 1 gives a place in front of the buffer. -/
def getInode (dev : Nat) (nr : Int) : Prog Fs (Fin nrInode) := do
  let t := (← get).inodeTable
  match cachedInode t dev nr with
  | some p =>
    setInode p fun i => { i with iCnt := i.iCnt + 1 }
    return p
  | none =>
    match freeInode t with
    | none => halt .panic
    | some q =>
      setInode q fun i => { i with iDev := dev, iNum := nr, iCnt := 1 }
      let sb ← getSuperBlock dev
      if nr < 1 then halt .undefined
      else
        onDev dev (rdSect (inodeSect sb nr.toNat))
        let d := diskInodeAt (← get).fsbuf (inodeOff nr.toNat)
        setInode q fun i =>
          { i with iMode := d.mode, iSize := d.size, iStartSect := d.startSect, iNrSects := d.nrSects }
        return q

def putInode (p : Fin nrInode) : Prog Fs Unit := do
  check (((← get).inodeTable p).iCnt > 0)
  setInode p fun i => { i with iCnt := i.iCnt - 1 }

end FS

def Inode.disk (i : Inode) : DiskInode := ⟨i.iMode, i.iSize, i.iStartSect, i.iNrSects⟩

namespace FS

def syncInode (p : Fin nrInode) : Prog Fs Unit := do
  let i := (← get).inodeTable p
  let sb ← getSuperBlock i.iDev
  if i.iNum < 1 then halt .undefined
  else
    onDev i.iDev (rdSect (inodeSect sb i.iNum.toNat))
    setBuf fun b => putBytes b (inodeOff i.iNum.toNat) i.disk.bytes
    onDev i.iDev (wrSect (inodeSect sb i.iNum.toNat))

/-- Dereferences `root_inode`, the directory of every path. -/
def rootNode : Prog Fs (Fin nrInode) := do
  match (← get).rootInode with
  | none => halt .undefined
  | some r => return r

/-- The copy of a name into an array of `MAX_FILENAME_LEN` characters, with its final zero. -/
def fitsFilename (name : List UInt8) : Prog Fs Unit :=
  if name.length < maxFilenameLen then pure () else halt .undefined

/-- `m` of the source is the number of entries behind this one: the search also looks at the entry
behind the last one. -/
def searchEntry (start nrDirEntries : Nat) (name : List UInt8) (t : Nat) :
    Prog Fs (Option Int) := do
  when (t % entriesPerSect = 0) (rdSect (start + t / entriesPerSect))
  let b := (← get).fsbuf
  if entryName b (t % entriesPerSect) = name then return some (entryNr b (t % entriesPerSect))
  else if nrDirEntries < t + 1 then return some 0
  else return none

def searchFile (path : List UInt8) : Prog Fs Int := do
  match stripPath path with
  | none => return 0
  | some name =>
    fitsFilename name
    let dir := (← get).inodeTable (← rootNode)
    if name = [] then return dir.iNum
    else
      check (dir.iDev = rootDev)
      let nrDirBlks := (dir.iSize + sectorSize - 1) % 2 ^ 32 / sectorSize
      let nrDirEntries := dir.iSize / dirEntSize
      let r ← scan (searchEntry dir.iStartSect nrDirEntries name) (nrDirBlks * entriesPerSect) 0
      return r.getD 0

def allocImapBit (dev : Nat) : Prog Fs Nat := do
  let sb ← getSuperBlock dev
  let r ← scan (fun i => do
    onDev dev (rdSect (2 + i))
    scan (fun j => do
      if (← get).fsbuf j = 0xff then return none
      else
        scan (fun k => do
          if (← get).fsbuf j &&& bitMask k = 0 then
            setBuf fun b => setBit b j k
            onDev dev (wrSect (2 + i))
            return some ((j + i * sectorSize) * 8 + k)
          else return none) 8 0) sectorSize 0) sb.nrImapSects 0
  match r with
  | some nr => return nr
  | none => halt .panic

/-- The number of the first sector found, 0 while there is none, and how many are still to be
allocated. -/
structure SmapScan where
  sectNr : Nat
  left : Nat

/-- One bit of byte `j` of sector `i` of the map. -/
def allocSmapStep (sb : SuperBlock) (i j k : Nat) (a : SmapScan) :
    Prog Fs (ForInStep SmapScan) := do
  if (← get).fsbuf j &&& bitMask k ≠ 0 then return .yield a
  else
    let sectNr := if a.sectNr = 0 then
      toU32 ((j + i * sectorSize) * 8 + k - 1 + sb.n1stSect) else a.sectNr
    if 0 < a.left then
      setBuf fun b => setBit b j k
      return .yield ⟨sectNr, a.left - 1⟩
    else return .done ⟨sectNr, a.left⟩

def allocSmapBit (dev nrSectsToAlloc : Nat) : Prog Fs Nat := do
  let sb ← getSuperBlock dev
  let smap := 1 + 1 + sb.nrImapSects
  let a ← iter (fun i a => do
    onDev dev (rdSect (smap + i))
    let a ← iter (fun j a => do
      if (← get).fsbuf j = 0xff then return .yield a
      else return .yield (← iter (allocSmapStep sb i j) 8 0 a)) sectorSize 0 a
    when (a.sectNr ≠ 0) (onDev dev (wrSect (smap + i)))
    if a.left = 0 then return .done a else return .yield a) sb.nrSmapSects 0
      ⟨0, nrSectsToAlloc⟩
  check (a.left = 0)
  return a.sectNr

end FS

end BazingaOS
