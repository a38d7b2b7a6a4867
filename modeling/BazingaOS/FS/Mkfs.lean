import BazingaOS.FS.Disk

/-!
# Formatting a partition

`mkfs` of `fs/main.c`: the five routines that write the super block, the two maps, the inode array
and the root directory. They share `fsbuf` and read the layout from the super block.
-/

namespace BazingaOS

open Prog

namespace FS

/-- The super block that `set_superblock` fills in for a partition of `size` sectors. -/
def makeSuperBlock (size : Nat) : SuperBlock :=
  let bitsPerSects := sectorSize * 8
  let nrSmapSects := size / bitsPerSects + 1
  let nrInodeSects := bitsPerSects * inodeSize / sectorSize
  { magic := magicV1
    nrInodes := bitsPerSects
    nrSects := size
    nrImapSects := 1
    nrSmapSects := nrSmapSects
    nrInodeSects := nrInodeSects
    n1stSect := 1 + 1 + 1 + nrSmapSects + nrInodeSects
    rootInode := rootInodeNr
    inodeSize := BazingaOS.inodeSize
    inodeIsizeOff := 4
    inodeStartOff := 8
    dirEntInodeOff := 0
    dirEntFnameOff := 4 }

/-- `size` is the answer of the disk driver to `DIOCTL_GET_GEO`. -/
def setSuperblock (size : Nat) : Prog Fs Unit := do
  modify fun s => { s with sb := makeSuperBlock size }
  setBuf fun b => copyBytes b 0 (fun _ => 0xF0) 0 sectorSize
  let sb := (← get).sb
  setBuf fun b => putBytes b 0 sb.bytes
  wrSect 1

def setImap : Prog Fs Unit := do
  clearBuf
  loop (fun i => setBuf fun b => setBit b 0 i) (nrConsoles + 3) 0
  -- the assertion assigns
  setBuf fun b => Function.update b 0 0x3F
  wrSect 2

/-- The loop of `set_smap` that marks the sectors of `cmd.tar`; `left` is `bit_left`. -/
def markCmdTar (smap : Nat) : Nat → Nat → Nat → Nat → Prog Fs Nat
  | 0, sect, _, _ => return sect
  | left + 1, sect, byteOff, bitOff => do
    setBuf fun b => setBit b byteOff bitOff
    if bitOff + 1 = 8 then
      if byteOff + 1 = sectorSize then
        wrSect (smap + sect)
        rdSect (smap + (sect + 1))
        markCmdTar smap left (sect + 1) 0 0
      else markCmdTar smap left sect (byteOff + 1) 0
    else markCmdTar smap left sect byteOff (bitOff + 1)

def setSmap : Prog Fs Unit := do
  let sb := (← get).sb
  let smap := 2 + sb.nrImapSects
  let nrSects := nrDefaultFileSects + 1
  clearBuf
  loop (fun i => setBuf fun b => Function.update b i 0xFF) (nrSects / 8) 0
  loop (fun i => setBuf fun b => setBit b (nrSects / 8) i) (nrSects % 8) 0
  wrSect smap
  clearBuf
  loop (fun i => wrSect (smap + i)) (sb.nrSmapSects - 1) 1
  -- a negative bit offset indexes in front of the buffer
  if installStartSect + 1 < sb.n1stSect then halt .undefined
  else
    let bitOff := installStartSect + 1 - sb.n1stSect
    let sectBeg := bitOff / 8 / sectorSize
    rdSect (smap + sectBeg)
    let sect ← markCmdTar smap installNrSects sectBeg (bitOff / 8 % sectorSize) (bitOff % 8)
    wrSect (smap + sect)

def storeInode (k : Nat) (i : DiskInode) : Prog Fs Unit :=
  setBuf fun b => putBytes b k i.bytes

def setInodeArray : Prog Fs Unit := do
  let sb := (← get).sb
  clearBuf
  storeInode 0 ⟨iDirectory, 5 * dirEntSize, sb.n1stSect, nrDefaultFileSects⟩
  loop (fun i => storeInode ((i + 1) * inodeSize) ⟨iCharSpecial, 0, ttyDev i, 0⟩) nrConsoles 0
  storeInode ((nrConsoles + 1) * inodeSize)
    ⟨iRegular, installNrSects * sectorSize, installStartSect, installNrSects⟩
  wrSect (2 + sb.nrImapSects + sb.nrSmapSects)

/-- A directory entry: the number of the inode and the name, over the zeros of the buffer. -/
def putDirEntry (k nr : Nat) (name : List UInt8) : Prog Fs Unit :=
  setBuf fun b => putBytes b k (u32Bytes nr ++ name)

/-- The bytes of `dev_tty`, followed by the digit of `i`. -/
def ttyName (i : Nat) : List UInt8 :=
  [100, 101, 118, 95, 116, 116, 121, UInt8.ofNat (48 + i)]

def cmdTarName : List UInt8 := [99, 109, 100, 46, 116, 97, 114]

def setRootDe : Prog Fs Unit := do
  let sb := (← get).sb
  clearBuf
  putDirEntry 0 rootInodeNr [46, 0]
  loop (fun i => putDirEntry ((i + 1) * dirEntSize) (i + 2) (ttyName i)) nrConsoles 0
  putDirEntry ((nrConsoles + 1) * dirEntSize) (nrConsoles + 2) cmdTarName
  wrSect sb.n1stSect

def mkfs (size : Nat) : Prog Fs Unit := do
  setSuperblock size
  setImap
  setSmap
  setInodeArray
  setRootDe

end FS

end BazingaOS
