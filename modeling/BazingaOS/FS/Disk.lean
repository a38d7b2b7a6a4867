import BazingaOS.Kernel.Proc
import BazingaOS.Lib.Bitmap
import BazingaOS.Lib.Loop

/-!
# The disk and the tables of the file system

The state of the FS task: the partition of `ROOT_DEV`, the buffer `fsbuf`, the super block, the
inode cache, the file descriptors, the `filp` arrays of the processes and their memory. A sector
is read into `fsbuf` or written from it as a whole; a byte position that does not fit a signed
integer is an overflow, which the language leaves undefined.
-/

namespace BazingaOS

open Prog

def sectorSize : Nat := 512
def inodeSize : Nat := 32
def dirEntSize : Nat := 16
def maxFilenameLen : Nat := 12
def nrConsoles : Nat := 3
def nrFiles : Nat := 64
def nrFileDesc : Nat := 64
def nrInode : Nat := 64
def nrDefaultFileSects : Nat := 2048
def installStartSect : Nat := 0x8000
def installNrSects : Nat := 0x800
def fsbufSize : Nat := 0x100000
def magicV1 : Nat := 0x111
def rootInodeNr : Nat := 1
def rootDev : Nat := 0x320

theorem nrInode_pos : 0 < nrInode := by decide

theorem nrFileDesc_pos : 0 < nrFileDesc := by decide

def iTypeMask : Nat := 0o170000
def iRegular : Nat := 0o100000
def iDirectory : Nat := 0o040000
def iCharSpecial : Nat := 0o020000
def iBlockSpecial : Nat := 0o060000

/-- `MAKE_DEV(DEV_CHAR_TTY, i)`. -/
def ttyDev (i : Nat) : Nat := 0x400 + i

structure SuperBlock where
  magic : Nat := 0
  nrInodes : Nat := 0
  nrSects : Nat := 0
  nrImapSects : Nat := 0
  nrSmapSects : Nat := 0
  n1stSect : Nat := 0
  nrInodeSects : Nat := 0
  rootInode : Nat := 0
  inodeSize : Nat := 0
  inodeIsizeOff : Nat := 0
  inodeStartOff : Nat := 0
  dirEntSize : Nat := 0
  dirEntInodeOff : Nat := 0
  dirEntFnameOff : Nat := 0
  sbDev : Nat := 0
deriving DecidableEq, Repr

structure Inode where
  iMode : Nat := 0
  iSize : Nat := 0
  iStartSect : Nat := 0
  iNrSects : Nat := 0
  iDev : Nat := 0
  iCnt : Int := 0
  iNum : Int := 0
deriving DecidableEq, Repr

structure FileDesc where
  fdMode : Int := 0
  fdPos : Int := 0
  fdCnt : Int := 0
  fdInode : Option (Fin nrInode) := none
deriving DecidableEq, Repr

structure Fs where
  disk : Bytes
  fsbuf : Bytes
  sb : SuperBlock := {}
  inodeTable : Fin nrInode → Inode := fun _ => {}
  fdTable : Fin nrFileDesc → FileDesc := fun _ => {}
  rootInode : Option (Fin nrInode) := none
  filp : Pid → Fin nrFiles → Option (Fin nrFileDesc) := fun _ _ => none
  user : Pid → Bytes := fun _ _ => 0

namespace FS

def rdSect (n : Nat) : Prog Fs Unit :=
  if sectorSize * n < 2 ^ 31 then
    modify fun s => { s with fsbuf := copyBytes s.fsbuf 0 s.disk (sectorSize * n) sectorSize }
  else halt .undefined

def wrSect (n : Nat) : Prog Fs Unit :=
  if sectorSize * n < 2 ^ 31 then
    modify fun s => { s with disk := copyBytes s.disk (sectorSize * n) s.fsbuf 0 sectorSize }
  else halt .undefined

def setBuf (f : Bytes → Bytes) : Prog Fs Unit := modify fun s => { s with fsbuf := f s.fsbuf }

/-- `memset(fsbuf, 0, SECTOR_SIZE)`. -/
def clearBuf : Prog Fs Unit := setBuf fun b => copyBytes b 0 (fun _ => 0) 0 sectorSize

end FS

/-- The bytes of a super block, in the order of its fields. -/
def SuperBlock.bytes (sb : SuperBlock) : List UInt8 :=
  [sb.magic, sb.nrInodes, sb.nrSects, sb.nrImapSects, sb.nrSmapSects, sb.n1stSect,
    sb.nrInodeSects, sb.rootInode, sb.inodeSize, sb.inodeIsizeOff, sb.inodeStartOff,
    sb.dirEntSize, sb.dirEntInodeOff, sb.dirEntFnameOff, sb.sbDev].flatMap u32Bytes

/-- The super block in the bytes from `a` on. -/
def superBlockAt (m : Bytes) (a : Nat) : SuperBlock where
  magic := u32At m a
  nrInodes := u32At m (a + 4)
  nrSects := u32At m (a + 8)
  nrImapSects := u32At m (a + 12)
  nrSmapSects := u32At m (a + 16)
  n1stSect := u32At m (a + 20)
  nrInodeSects := u32At m (a + 24)
  rootInode := u32At m (a + 28)
  inodeSize := u32At m (a + 32)
  inodeIsizeOff := u32At m (a + 36)
  inodeStartOff := u32At m (a + 40)
  dirEntSize := u32At m (a + 44)
  dirEntInodeOff := u32At m (a + 48)
  dirEntFnameOff := u32At m (a + 52)
  sbDev := u32At m (a + 56)

/-- The part of an inode that is on disk. -/
structure DiskInode where
  mode : Nat
  size : Nat
  startSect : Nat
  nrSects : Nat
deriving DecidableEq, Repr

def DiskInode.bytes (i : DiskInode) : List UInt8 :=
  u32Bytes i.mode ++ u32Bytes i.size ++ u32Bytes i.startSect ++ u32Bytes i.nrSects

def diskInodeAt (m : Bytes) (a : Nat) : DiskInode where
  mode := u32At m a
  size := u32At m (a + 4)
  startSect := u32At m (a + 8)
  nrSects := u32At m (a + 12)

end BazingaOS
