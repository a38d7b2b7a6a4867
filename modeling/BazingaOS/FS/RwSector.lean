import BazingaOS.FS.Inode
import BazingaOS.Kernel.Hd

/-!
# From sector numbers to the registers of the drive

`RD_SECT`, `WR_SECT` and the calls of `rw_sector` in `do_rdwt` multiply a sector number into a byte
position, and `hd_rdwt` turns the position back into a sector number, adds the start of the
partition and cuts the sum into registers. A signed product overflows from `2 ^ 22` on, an unsigned
one is reduced from `2 ^ 23` on, and no assertion looks at the sum.
-/

namespace BazingaOS

open Prog

/-- The type of the sector number that is multiplied by `SECTOR_SIZE`. -/
inductive Operand where
  | int
  | unsigned
deriving DecidableEq, Repr

namespace FS

/-- `(sect_nr) * SECTOR_SIZE` as the `u64` that `rw_sector` takes. The overflow of a signed product
is undefined. -/
def sectPos : Operand → Nat → Option Nat
  | .int, n =>
    if InI32 (toI32 n * sectorSize) then some (toI32 n * sectorSize % 2 ^ 64).toNat else none
  | .unsigned, n => some (n * sectorSize % 2 ^ 32)

/-- The message of `rw_sector`. -/
def rwSector (ioType : MsgType) (dev pos : Nat) (bytes : Int) (procNr : Pid) (buf : Nat) :
    Message where
  type := ioType
  m3i4 := dev % 256
  m3l1 := pos
  m3i2 := bytes
  m3i3 := procNr.val
  m3p2 := buf

end FS

/-- The calls of `rw_sector` for a sector number: the two macros and the two calls of `do_rdwt`,
whose counter is signed. -/
inductive SectorCall where
  | rdSect (op : Operand)
  | wrSect (op : Operand)
  | rdwt (ioType : MsgType) (chunk : Nat)
deriving DecidableEq, Repr

namespace SectorCall

def operand : SectorCall → Operand
  | .rdSect op => op
  | .wrSect op => op
  | .rdwt _ _ => .int

def ioType : SectorCall → MsgType
  | .rdSect _ => .devRead
  | .wrSect _ => .devWrite
  | .rdwt t _ => t

def bytes : SectorCall → Nat
  | .rdSect _ => sectorSize
  | .wrSect _ => sectorSize
  | .rdwt _ chunk => chunk * sectorSize

/-- The request of the call at sector `n` of `ROOT_DEV`; `buf` is the address of `fsbuf`. -/
def request (c : SectorCall) (buf n : Nat) : Option Message :=
  (FS.sectPos c.operand n).map fun pos =>
    FS.rwSector c.ioType rootDev pos c.bytes taskFs buf

/-- From where on the byte position is not that of the sector. -/
def limit (c : SectorCall) : Nat :=
  match c.operand with
  | .int => 2 ^ 22
  | .unsigned => 2 ^ 23

end SectorCall

namespace HD

def rootPart (hd : Hd) : PartInfo := hd.logical ⟨16, by decide⟩

/-- The driver gets past its assertions and programs the address registers with `lba`. -/
def Programs (hd : Hd) (msg : Message) (lba : Nat) : Prop :=
  wp (hdRdwt msg) (fun _ s => s.regs.lba = lba)
    (fun w s => (w = .hang ∨ w = .panic) ∧ s.regs.lba = lba) hd

def Addressed (hd : Hd) (c : SectorCall) (buf n : Nat) : Prop :=
  ∃ msg, c.request buf n = some msg ∧ Programs hd msg ((rootPart hd).base + n)

def Refused (hd : Hd) (c : SectorCall) (buf n : Nat) : Prop :=
  ∃ msg, c.request buf n = some msg ∧ (hdRdwt msg hd).stopOf = some .assertion

/-- A request inside an addressable partition goes to its own sector, and one in a partition that
reaches beyond the registers goes to no other one. -/
def SectorOk (hd : Hd) (c : SectorCall) (buf n : Nat) : Prop :=
  ((rootPart hd).base + (rootPart hd).size ≤ 2 ^ 28 → Addressed hd c buf n) ∧
  (2 ^ 28 < (rootPart hd).base + (rootPart hd).size →
    Addressed hd c buf n ∨ Refused hd c buf n)

theorem rdwtSector_regs (isRead : Bool) (p : Pid) (buf cnt i : Nat) (hd : Hd) :
    wp (rdwtSector isRead p buf cnt i) (fun _ s => s.regs = hd.regs)
      (fun w s => (w = .hang ∨ w = .panic) ∧ s.regs = hd.regs) hd := by
  simp only [rdwtSector, wp_bind, wp_get, wp_ite, wp_modify, wp_halt]
  simp

theorem wp_partOf_root {Q : PartInfo → Hd → Prop} {E : Stop → Hd → Prop} {hd : Hd} :
    wp (partOf ((rootDev : Int) % 256)) Q E hd ↔ Q (rootPart hd) hd := by
  rfl

theorem wp_procOf_taskFs {Q : Pid → Hd → Prop} {E : Stop → Hd → Prop} {hd : Hd} :
    wp (procOf taskFs.val) Q E hd ↔ Q taskFs hd := by
  rfl

theorem hdRdwt_programs {hd : Hd} (hready : hd.ready = true) (ioType : MsgType) {pos : Nat}
    (bytes buf : Nat) (hmax : pos / 512 < maxSectorNr) (hpos : pos % 512 = 0) :
    Programs hd (FS.rwSector ioType rootDev pos bytes taskFs buf)
      ((pos / 512 + (rootPart hd).base) % 2 ^ 28) := by
  have hdrv : ¬ (drvOfDev ((rootDev : Int) % 256) ≠ 0 ∨ (bytes : Int) < 0) := by
    rintro (h | h)
    · exact h rfl
    · omega
  have hmod : ∀ x : Nat, x % 2 ^ 32 % 2 ^ 28 = x % 2 ^ 28 := by
    intro x
    omega
  unfold Programs hdRdwt FS.rwSector
  dsimp only
  rw [wp_bind, wp_check]
  refine ⟨fun _ => ?_, fun h => absurd hmax h⟩
  rw [wp_bind, wp_check]
  refine ⟨fun _ => ?_, fun h => absurd hpos h⟩
  rw [wp_bind, wp_partOf_root, wp_bind, wp_procOf_taskFs, if_neg hdrv]
  simp only [hdCmdOut, wp_bind, wp_get, hready, if_true, wp_modify]
  generalize hcmd : sectorCmd _ _ _ _ = cmd
  have hlba : cmd.lba = (pos / 512 + (rootPart hd).base) % 2 ^ 28 := by
    rw [← hcmd, lba_sectorCmd, hmod]
  apply wp_loop (I := fun _ s => s.regs = cmd) rfl
  · intro j s _ _ hs
    refine wp_mono (rdwtSector_regs _ _ _ _ _ _) ?_ ?_
    · intro _ s' hs'
      rw [hs', hs]
    · rintro w s' ⟨hw, hs'⟩
      exact ⟨hw, by rw [hs', hs, hlba]⟩
  · intro s hs
    rw [hs, hlba]

theorem Programs.eq {hd : Hd} {msg : Message} {lba lba' : Nat} (h : Programs hd msg lba)
    (h' : Programs hd msg lba') : lba = lba' := by
  have h1 := wp_state (wp_mono h (fun _ _ h => h) (fun _ _ h => h.2))
  have h2 := wp_state (wp_mono h' (fun _ _ h => h) (fun _ _ h => h.2))
  rw [← h1, h2]

theorem Programs.not_assertion {hd : Hd} {msg : Message} {lba : Nat} (h : Programs hd msg lba) :
    (hdRdwt msg hd).stopOf ≠ some .assertion := by
  intro hstop
  obtain ⟨s, hs⟩ := Result.eq_stop_of_stopOf hstop
  unfold Programs wp at h
  rw [hs] at h
  rcases h.1 with h | h <;> cases h

/-- The driver's assertions hold for every position that FS computes. -/
theorem sectPos_asserts {op : Operand} {n pos : Nat} (h : FS.sectPos op n = some pos) :
    pos / 512 < maxSectorNr ∧ pos % 512 = 0 := by
  have hs : sectorSize = 512 := rfl
  have hm : maxSectorNr = 2 ^ 64 - 2 ^ 31 := rfl
  cases op with
  | int =>
    simp only [FS.sectPos, hs, Option.ite_none_right_eq_some, Option.some.injEq] at h
    omega
  | unsigned =>
    simp only [FS.sectPos, hs, Option.some.injEq] at h
    omega

theorem sectPos_eq {op : Operand} {n : Nat} (hn : n < 2 ^ 28) :
    FS.sectPos op n = match op with
      | .int => if n < 2 ^ 22 then some (512 * n) else none
      | .unsigned => some (512 * (n % 2 ^ 23)) := by
  have hs : sectorSize = 512 := rfl
  cases op with
  | int =>
    have hi : toI32 n = n := by
      unfold toI32
      omega
    simp only [FS.sectPos, hi, hs]
    by_cases h : n < 2 ^ 22
    · rw [if_pos h, if_pos (by unfold InI32; omega)]
      congr 1
      omega
    · rw [if_neg h, if_neg (by unfold InI32; omega)]
  | unsigned =>
    simp only [FS.sectPos, hs]
    congr 1
    omega

theorem request_programs {hd : Hd} (hready : hd.ready = true) {c : SectorCall} {buf n : Nat}
    {msg : Message} (hmsg : c.request buf n = some msg) :
    ∃ pos, FS.sectPos c.operand n = some pos ∧
      Programs hd msg ((pos / 512 + (rootPart hd).base) % 2 ^ 28) := by
  obtain ⟨pos, hpos, rfl⟩ := Option.map_eq_some_iff.mp hmsg
  obtain ⟨hmax, hmod⟩ := sectPos_asserts hpos
  exact ⟨pos, hpos, hdRdwt_programs hready c.ioType c.bytes buf hmax hmod⟩

theorem Addressed.limits {hd : Hd} (hready : hd.ready = true) {c : SectorCall} {buf n : Nat}
    (h : Addressed hd c buf n) : n < c.limit ∧ (rootPart hd).base + n < 2 ^ 28 := by
  obtain ⟨msg, hmsg, haddr⟩ := h
  obtain ⟨pos, hpos, hp⟩ := request_programs hready hmsg
  have heq := haddr.eq hp
  have hn : n < 2 ^ 28 := by omega
  rw [sectPos_eq hn] at hpos
  refine ⟨?_, by omega⟩
  unfold SectorCall.limit
  cases hop : c.operand with
  | int =>
    simp only [hop, Option.ite_none_right_eq_some] at hpos
    exact hpos.1
  | unsigned =>
    simp only [hop, Option.some.injEq] at hpos
    dsimp only
    omega

theorem SectorOk.limits {hd : Hd} (hready : hd.ready = true) {c : SectorCall} {buf n : Nat}
    (h : SectorOk hd c buf n) : n < c.limit ∧ (rootPart hd).base + n < 2 ^ 28 := by
  have hor : Addressed hd c buf n ∨ Refused hd c buf n := by
    rcases Nat.lt_or_ge (2 ^ 28) ((rootPart hd).base + (rootPart hd).size) with hlt | hge
    · exact h.2 hlt
    · exact .inl (h.1 hge)
  rcases hor with haddr | ⟨msg, hmsg, hstop⟩
  · exact haddr.limits hready
  · obtain ⟨pos, -, hp⟩ := request_programs hready hmsg
    exact absurd hstop hp.not_assertion

theorem addressed_of_limits {hd : Hd} (hready : hd.ready = true) {c : SectorCall} {n : Nat}
    (buf : Nat) (hlimit : n < c.limit) (hfits : (rootPart hd).base + n < 2 ^ 28) :
    Addressed hd c buf n := by
  have hpos : FS.sectPos c.operand n = some (512 * n) := by
    rw [sectPos_eq (by omega)]
    unfold SectorCall.limit at hlimit
    cases hop : c.operand with
    | int =>
      rw [hop] at hlimit
      exact if_pos hlimit
    | unsigned =>
      rw [hop] at hlimit
      dsimp only at hlimit ⊢
      rw [Nat.mod_eq_of_lt hlimit]
  have hmsg : c.request buf n =
      some (FS.rwSector c.ioType rootDev (512 * n) c.bytes taskFs buf) := by
    rw [SectorCall.request, hpos]
    rfl
  obtain ⟨pos, hpos', hp⟩ := request_programs hready hmsg
  rw [hpos] at hpos'
  cases hpos'
  have he : (512 * n / 512 + (rootPart hd).base) % 2 ^ 28 = (rootPart hd).base + n := by omega
  rw [he] at hp
  exact ⟨_, hmsg, hp⟩

/-- A request is addressed or refused as it should be exactly where the byte position is that of
the sector and the sum with the start of the partition fits the registers. -/
theorem sectorOk_iff {hd : Hd} (hready : hd.ready = true) (c : SectorCall) (buf n : Nat) :
    SectorOk hd c buf n ↔ n < c.limit ∧ (rootPart hd).base + n < 2 ^ 28 := by
  constructor
  · intro h
    exact h.limits hready
  · rintro ⟨hlimit, hfits⟩
    have haddr := addressed_of_limits hready buf hlimit hfits
    exact ⟨fun _ => haddr, fun _ => .inl haddr⟩

/-- A drive with one partition of `size` sectors from `base` on. -/
private def onePartition (base size : Nat) : Hd where
  sectors := fun _ _ => 0
  logical := fun _ => ⟨base, size⟩

theorem sectorOk_boot : SectorOk (onePartition 0x4fff 0x10000) (.rdwt .devWrite 4) 0x600000 0x8000 :=
  (sectorOk_iff rfl _ _ _).mpr ⟨by decide, by decide⟩

/-- In a partition of 4 GiB the counter of `do_rdwt` overflows, and in one that begins at the end of
the address range the first sector of the disk is addressed. -/
theorem sector_overflow_and_wrap :
    ¬ SectorOk (onePartition 0 0x800000) (.rdwt .devRead 1) 0x600000 0x400000 ∧
    ¬ SectorOk (onePartition 0x10000000 1) (.wrSect .unsigned) 0x600000 0 ∧
    Programs (onePartition 0x10000000 1) (FS.rwSector .devWrite rootDev 0 512 taskFs 0x600000) 0 := by
  refine ⟨?_, ?_, ?_⟩
  · intro h
    exact absurd (h.limits rfl).1 (by decide)
  · intro h
    exact absurd (h.limits rfl).2 (by decide)
  · exact hdRdwt_programs rfl .devWrite 512 0x600000 (by decide) rfl

end HD

end BazingaOS
