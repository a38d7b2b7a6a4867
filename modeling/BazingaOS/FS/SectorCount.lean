import BazingaOS.FS.RwSector

/-!
# How many sectors a request moves

`hd_rdwt` puts the number of sectors of a request into a register of 8 bits, where 0 stands for 256,
and then waits for one block after the other until all bytes are moved. FS asks for as many sectors as
its buffer takes, which are 2048.
-/

namespace BazingaOS

open Prog

namespace HD

def rounds (bytesLeft : Nat) : Nat :=
  if bytesLeft = 0 then 0
  else rounds (bytesLeft - min sectorSize bytesLeft) + 1
termination_by bytesLeft
decreasing_by
  have hs : sectorSize = 512 := rfl
  omega

theorem rounds_eq (n : Nat) : rounds n = (n + 511) / 512 := by
  have hs : sectorSize = 512 := rfl
  induction n using rounds.induct with
  | case1 => simp [rounds]
  | case2 n hn ih =>
    rw [rounds, if_neg hn, ih, hs]
    omega

/-- The request is carried out, with a command for as many sectors as the loop has rounds. -/
def CountsAgree (hd : Hd) (msg : Message) : Prop :=
  wp (hdRdwt msg) (fun _ s => s.regs.sectorsMoved = rounds msg.m3i2.toNat) (fun _ _ => False) hd

theorem sectorsMoved_sectorCmd (command : UInt8) {n : Nat} (secNr : Nat) (hpos : 0 < n)
    (hle : n ≤ 256) : (sectorCmd command 0 n secNr).sectorsMoved = n := by
  have hcount : n.toUInt8.toNat = n % 256 := UInt8.toNat_ofNat'
  have hzero : n.toUInt8 = 0 ↔ n % 256 = 0 := by
    rw [← UInt8.toNat_inj, hcount]
    rfl
  change (if n.toUInt8 = 0 then 256 else n.toUInt8.toNat) = n
  split
  · next h =>
    rw [hzero] at h
    omega
  · next h =>
    rw [hzero] at h
    omega

theorem sectorsMoved_le (c : HdCmd) : c.sectorsMoved ≤ 256 := by
  have h := c.count.toNat_lt
  unfold HdCmd.sectorsMoved
  split <;> omega

/-- With a command for all of its sectors, a transfer of whole sectors does not wait in vain. -/
theorem rdwtSector_moves {hd : Hd} {isRead : Bool} {p : Pid} {buf n i : Nat} (hi : i < n)
    (hmoved : hd.regs.sectorsMoved = n) :
    wp (rdwtSector isRead p buf (512 * n) i) (fun _ s => s.regs = hd.regs) (fun _ _ => False) hd := by
  have hbytes : ¬ min 512 (512 * n - 512 * i) < 512 := by omega
  simp only [rdwtSector, wp_bind, wp_get, wp_ite, wp_modify, wp_halt, hmoved]
  refine ⟨fun _ => ⟨fun _ => trivial, fun h => h hi⟩, fun _ => ⟨fun h => ?_, fun _ => ⟨fun h => ?_,
    fun _ => trivial⟩⟩⟩
  · omega
  · exact hbytes h

theorem SectorCall.bytes_eq (c : SectorCall) : ∃ n, c.bytes = 512 * n := by
  cases c with
  | rdSect op => exact ⟨1, rfl⟩
  | wrSect op => exact ⟨1, rfl⟩
  | rdwt ioType chunk => exact ⟨chunk, Nat.mul_comm _ _⟩

theorem CountsAgree.le {hd : Hd} {ioType : MsgType} {pos n buf : Nat}
    (h : CountsAgree hd (FS.rwSector ioType rootDev pos (512 * n : Nat) taskFs buf)) : n ≤ 256 := by
  obtain ⟨_, s, -, hmoved⟩ := exists_ok_of_wp h
  have hle := sectorsMoved_le s.regs
  change s.regs.sectorsMoved = rounds ((512 * n : Nat) : Int).toNat at hmoved
  rw [Int.toNat_natCast, rounds_eq] at hmoved
  omega

/-- The command is for as many sectors as the loop handles exactly when they are 256 at most. -/
theorem countsAgree_iff {hd : Hd} (hready : hd.ready = true) {c : SectorCall} {buf nr : Nat}
    {msg : Message} (hpos : 0 < c.bytes) (hmsg : c.request buf nr = some msg) :
    CountsAgree hd msg ↔ c.bytes ≤ 256 * sectorSize := by
  have hs : sectorSize = 512 := rfl
  obtain ⟨n, hn⟩ := SectorCall.bytes_eq c
  obtain ⟨pos, hsect, rfl⟩ := Option.map_eq_some_iff.mp hmsg
  obtain ⟨hmax, hmod⟩ := sectPos_asserts hsect
  have hsum : (512 * n + 511) / 512 = n := by omega
  rw [hn]
  constructor
  · intro h
    have hle := h.le
    omega
  · intro hle
    have hdrv : ¬ (drvOfDev ((rootDev : Int) % 256) ≠ 0 ∨ ((512 * n : Nat) : Int) < 0) := by
      rintro (h | h)
      · exact h rfl
      · omega
    unfold CountsAgree hdRdwt FS.rwSector
    dsimp only
    rw [wp_bind, wp_check]
    refine ⟨fun _ => ?_, fun h => absurd hmax h⟩
    rw [wp_bind, wp_check]
    refine ⟨fun _ => ?_, fun h => absurd hmod h⟩
    rw [wp_bind, wp_partOf_root, wp_bind, wp_procOf_taskFs, if_neg hdrv]
    simp only [hdCmdOut, wp_bind, wp_get, hready, if_true, wp_modify, Int.toNat_natCast, rounds_eq,
      hsum]
    generalize hcmd : sectorCmd _ _ _ _ = cmd
    have hmoved : cmd.sectorsMoved = n := by
      rw [← hcmd]
      exact sectorsMoved_sectorCmd _ _ (by omega) (by omega)
    apply wp_loop (I := fun _ s => s.regs = cmd) rfl
    · intro j s _ hj hreg
      refine wp_mono (rdwtSector_moves (by omega) (by rw [hreg, hmoved])) ?_ (fun _ _ h => h)
      intro _ s' hs'
      rw [hs', hreg]
    · intro s hreg
      rw [hreg, hmoved]

private def bigDisk : Hd where
  sectors := fun _ _ => 0
  logical := fun _ => ⟨0x4fff, 0x10000⟩

theorem countsAgree_iff_page : CountsAgree bigDisk
    (FS.rwSector .devRead rootDev 0 (8 * 512 : Nat) taskFs 0x600000) ↔ 8 * 512 ≤ 256 * sectorSize := by
  have hpos : FS.sectPos .int 0 = some 0 := (sectPos_eq (by decide)).trans (if_pos (by decide))
  have hmsg : (SectorCall.rdwt .devRead 8).request 0x600000 0 =
      some (FS.rwSector .devRead rootDev 0 (8 * 512 : Nat) taskFs 0x600000) := by
    change (FS.sectPos .int 0).map _ = _
    rw [hpos]
    rfl
  exact countsAgree_iff rfl (by decide) hmsg

/-- A read of 257 sectors asks the drive for one. -/
theorem counts_differ : ¬ CountsAgree bigDisk
    (FS.rwSector .devRead rootDev 0 (512 * 257 : Nat) taskFs 0x600000) :=
  fun h => absurd h.le (by decide)

end HD

end BazingaOS
