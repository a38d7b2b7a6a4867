import BazingaOS.Kernel.Proc
import BazingaOS.Lib.Bytes
import BazingaOS.Lib.Loop

/-!
# The disk driver

`kernel/hd.c`: the partition tables and the transfer of sectors. The drive is part of the state. It
answers a command with one interrupt for each sector of the count in its register, where 0 stands
for 256, from the sector that its address registers give; a wait for an interrupt that does not
come never ends.
-/

namespace BazingaOS

open Prog

def nrPartPerDrive : Nat := 4
def nrPrimPerDrive : Nat := nrPartPerDrive + 1
def nrSubPerPart : Nat := 16
def nrSubPerDrive : Nat := nrSubPerPart * nrPartPerDrive
def maxPrim : Int := 9
def minorHd1a : Int := 0x10
def extPart : UInt8 := 0x05
def ataIdentify : UInt8 := 0xec
def ataRead : UInt8 := 0x20
def ataWrite : UInt8 := 0x30

structure PartInfo where
  base : Nat := 0
  size : Nat := 0
deriving DecidableEq, Repr

/-- The registers of the drive that a command sets. -/
structure HdCmd where
  features : UInt8 := 0
  count : UInt8 := 0
  lbaLow : UInt8 := 0
  lbaMid : UInt8 := 0
  lbaHigh : UInt8 := 0
  device : UInt8 := 0
  command : UInt8 := 0
deriving DecidableEq, Repr

/-- The sector that the registers address: the low four bits of `device` are its highest ones. -/
def HdCmd.lba (c : HdCmd) : Nat :=
  c.lbaLow.toNat + 2 ^ 8 * c.lbaMid.toNat + 2 ^ 16 * c.lbaHigh.toNat +
    2 ^ 24 * (c.device.toNat % 16)

def HdCmd.sectorsMoved (c : HdCmd) : Nat := if c.count = 0 then 256 else c.count.toNat

/-- `hd_info[0]`, the drive and the memory that sectors are moved to and from. `ready` says that the
drive is not busy for longer than `HD_TIMEOUT`, `identify` is the size that it reports. -/
structure Hd where
  openCnt : Nat := 0
  primary : Fin nrPrimPerDrive → PartInfo := fun _ => {}
  logical : Fin nrSubPerDrive → PartInfo := fun _ => {}
  sectors : Nat → Bytes
  regs : HdCmd := {}
  identify : Nat := 0
  ready : Bool := true
  mem : Pid → Bytes := fun _ _ => 0

namespace HD

def drvOfDev (dev : Int) : Int :=
  if dev ≤ maxPrim then dev.tdiv nrPrimPerDrive else (dev - minorHd1a).tdiv nrSubPerDrive

def hdCmdOut (cmd : HdCmd) : Prog Hd Unit := do
  if (← get).ready then modify fun s => { s with regs := cmd } else halt .panic

/-- The command for `count` sectors from `secNr` on. -/
def sectorCmd (command : UInt8) (drive count secNr : Nat) : HdCmd where
  count := count.toUInt8
  lbaLow := (secNr &&& 0xff).toUInt8
  lbaMid := (secNr >>> 8 &&& 0xff).toUInt8
  lbaHigh := (secNr >>> 16 &&& 0xff).toUInt8
  device := (1 <<< 6 ||| drive <<< 4 ||| (secNr >>> 24 &&& 0xf) ||| 0xa0).toUInt8
  command := command

def setPrimary (i : Fin nrPrimPerDrive) (v : PartInfo) : Prog Hd Unit :=
  modify fun s => { s with primary := Function.update s.primary i v }

def setLogical (i : Fin nrSubPerDrive) (v : PartInfo) : Prog Hd Unit :=
  modify fun s => { s with logical := Function.update s.logical i v }

/-- The registers that the source leaves unset mean nothing to this command. -/
def hdIdentify : Prog Hd Unit := do
  hdCmdOut { device := 0xa0, command := ataIdentify }
  setPrimary ⟨0, by decide⟩ ⟨0, (← get).identify⟩

/-- Entry `i` of the partition table of a sector: `sys_id`, `start_sect` and `nr_sects`. -/
structure PartEnt where
  sysId : UInt8
  startSect : Nat
  nrSects : Nat

def partEnt (m : Bytes) (i : Nat) : PartEnt where
  sysId := m (0x1be + 16 * i + 4)
  startSect := u32At m (0x1be + 16 * i + 8)
  nrSects := u32At m (0x1be + 16 * i + 12)

def getPartTable (secNr : Nat) : Prog Hd (Nat → PartEnt) := do
  hdCmdOut (sectorCmd ataRead 0 1 secNr)
  return partEnt ((← get).sectors (← get).regs.lba)

/-- `partition` for the extended partition `j + 1`: a chain of tables, the second entry of each of
which leads to the next one. -/
def partitionExtended (j : Fin nrPartPerDrive) : Prog Hd Unit := do
  let secBase := ((← get).primary j.succ).base
  let _ ← iter (fun i extStart => do
    let ents ← getPartTable extStart
    if h : j.val * nrSubPerPart + i < nrSubPerDrive then
      setLogical ⟨_, h⟩ ⟨(extStart + (ents 0).startSect) % 2 ^ 32, (ents 0).nrSects⟩
    let next := (secBase + (ents 1).startSect) % 2 ^ 32
    if (ents 1).sysId = 0 then return .done next else return .yield next) nrSubPerPart 0 secBase

/-- `partition` for the primary partitions of the drive. -/
def partitionPrimary : Prog Hd Unit := do
  let ents ← getPartTable 0
  let n ← iter (fun i n => do
    if h : i < nrPartPerDrive then
      if (ents i).sysId = 0 then return .yield n
      else
        let j : Fin nrPartPerDrive := ⟨i, h⟩
        setPrimary j.succ ⟨(ents i).startSect, (ents i).nrSects⟩
        when ((ents i).sysId = extPart) (partitionExtended j)
        return .yield (n + 1)
    else return .yield n) nrPartPerDrive 0 0
  check (n ≠ 0)

def hdOpen (device : Int) : Prog Hd Unit := do
  check (drvOfDev device = 0)
  hdIdentify
  let cnt := (← get).openCnt
  modify fun s => { s with openCnt := (s.openCnt + 1) % 2 ^ 32 }
  when (cnt = 0) partitionPrimary

def hdClose (device : Int) : Prog Hd Unit := do
  check (drvOfDev device = 0)
  modify fun s => { s with openCnt := (s.openCnt + (2 ^ 32 - 1)) % 2 ^ 32 }

/-- The partition of a minor device number; an index outside the arrays is undefined. -/
def partOf (device : Int) : Prog Hd PartInfo := do
  if device ≤ maxPrim then
    if h : 0 ≤ device ∧ device.toNat < nrPrimPerDrive then
      return (← get).primary ⟨device.toNat, h.2⟩
    else halt .undefined
  else
    let i := (device - minorHd1a).tmod nrSubPerDrive
    if h : 0 ≤ i ∧ i.toNat < nrSubPerDrive then return (← get).logical ⟨i.toNat, h.2⟩
    else halt .undefined

/-- The process whose memory a message names. -/
def procOf (nr : Int) : Prog Hd Pid :=
  if h : 0 ≤ nr ∧ nr.toNat < nrSlots then return ⟨nr.toNat, toNat_lt_nrSlots h⟩
  else halt .undefined

/-- Round `i` of the loop of `hd_rdwt`: without a further sector from the drive a read waits for
ever and a write times out. The drive takes whole sectors only. -/
def rdwtSector (isRead : Bool) (p : Pid) (buf cnt i : Nat) : Prog Hd Unit := do
  let bytes := min 512 (cnt - 512 * i)
  let regs := (← get).regs
  if isRead then
    if i < regs.sectorsMoved then
      modify fun s =>
        let m := copyBytes (s.mem p) (buf + 512 * i) (s.sectors (regs.lba + i)) 0 bytes
        { s with mem := Function.update s.mem p m }
    else halt .hang
  else
    if regs.sectorsMoved ≤ i then halt .panic
    else if bytes < 512 then halt .hang
    else modify fun s =>
      let m := copyBytes (s.sectors (regs.lba + i)) 0 (s.mem p) (buf + 512 * i) 512
      { s with sectors := Function.update s.sectors (regs.lba + i) m }

/-- `1 << 31` is negative, and in the comparison with an unsigned number of 64 bits it stands for
a large one. -/
def maxSectorNr : Nat := 2 ^ 64 - 2 ^ 31

def hdRdwt (msg : Message) : Prog Hd Unit := do
  check (msg.m3l1 / 512 < maxSectorNr)
  check (msg.m3l1 % 512 = 0)
  let part ← partOf msg.m3i4
  let p ← procOf msg.m3i3
  if drvOfDev msg.m3i4 ≠ 0 ∨ msg.m3i2 < 0 then halt .undefined
  else
    let cnt := msg.m3i2.toNat
    let command := if msg.type = .devRead then ataRead else ataWrite
    hdCmdOut (sectorCmd command 0 ((cnt + 511) / 512) ((msg.m3l1 / 512 + part.base) % 2 ^ 32))
    loop (rdwtSector (decide (msg.type = .devRead)) p msg.m3p2 cnt) ((cnt + 511) / 512) 0

def hdIoctl (msg : Message) : Prog Hd Unit := do
  if drvOfDev msg.m3i4 ≠ 0 then halt .undefined
  else
    check (msg.m3i2 = 1)
    let p ← procOf msg.m3i3
    let part ← partOf msg.m3i4
    modify fun s =>
      let m := putBytes (s.mem p) msg.m3p2 (u32Bytes part.base ++ u32Bytes part.size)
      { s with mem := Function.update s.mem p m }

theorem device_nibble (x : Nat) (hx : x < 16) :
    ((1 <<< 6 ||| 0 <<< 4 ||| (x &&& 0xf) ||| 0xa0 : Nat).toUInt8).toNat % 16 = x := by
  revert x
  decide

theorem lba_sectorCmd (command : UInt8) (count secNr : Nat) :
    (sectorCmd command 0 count secNr).lba = secNr % 2 ^ 28 := by
  have hbyte : ∀ x : Nat, (x &&& 0xff).toUInt8.toNat = x % 256 := by
    intro x
    have hand : x &&& 0xff = x % 256 := Nat.and_two_pow_sub_one_eq_mod x 8
    rw [hand, Nat.toUInt8, UInt8.toNat_ofNat']
    omega
  have hnibble : (1 <<< 6 ||| 0 <<< 4 ||| (secNr >>> 24 &&& 0xf) ||| 0xa0 : Nat).toUInt8.toNat % 16
      = secNr >>> 24 % 16 := by
    have hand : secNr >>> 24 &&& 0xf = secNr >>> 24 % 16 &&& 0xf := by
      have h1 := Nat.and_two_pow_sub_one_eq_mod (secNr >>> 24) 4
      have h2 := Nat.and_two_pow_sub_one_eq_mod (secNr >>> 24 % 16) 4
      norm_num at h1 h2
      rw [h1, h2]
    rw [hand]
    exact device_nibble _ (Nat.mod_lt _ (by decide))
  simp only [sectorCmd, HdCmd.lba, hbyte, hnibble]
  simp only [Nat.shiftRight_eq_div_pow]
  omega

end HD

end BazingaOS
