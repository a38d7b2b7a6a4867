import BazingaOS.FS.Disk

/-!
# Sectors

The rules for reading and writing a sector, and what a written sector has at each of its bits and
inodes.
-/

namespace BazingaOS

open Prog

section Primitives

variable {s : Fs} {Q : Unit → Fs → Prop} {E : Stop → Fs → Prop} {n : Nat}

theorem wp_rdSect (h : sectorSize * n < 2 ^ 31) : wp (FS.rdSect n) Q E s ↔
    Q () { s with fsbuf := copyBytes s.fsbuf 0 s.disk (sectorSize * n) sectorSize } := by
  rw [FS.rdSect, if_pos h, wp_modify]

theorem wp_rdSect_of_ge (h : ¬ sectorSize * n < 2 ^ 31) :
    wp (FS.rdSect n) Q E s ↔ E .undefined s := by
  rw [FS.rdSect, if_neg h, wp_halt]

theorem wp_wrSect (h : sectorSize * n < 2 ^ 31) : wp (FS.wrSect n) Q E s ↔
    Q () { s with disk := copyBytes s.disk (sectorSize * n) s.fsbuf 0 sectorSize } := by
  rw [FS.wrSect, if_pos h, wp_modify]

@[simp] theorem wp_setBuf {f : Bytes → Bytes} : wp (FS.setBuf f) Q E s ↔
    Q () { s with fsbuf := f s.fsbuf } := Iff.rfl

end Primitives

/-- Two memories agree outside the `n` bytes from `a` on. -/
def SameOutside (a n : Nat) (m m' : Bytes) : Prop := ∀ i, i < a ∨ a + n ≤ i → m' i = m i

theorem SameOutside.copy {a n j : Nat} {m src : Bytes} :
    SameOutside a n m (copyBytes m a src j n) := by
  intro i hi
  rcases hi with hi | hi
  · exact copyBytes_of_lt hi
  · exact copyBytes_of_ge hi

theorem SameOutside.bitAt {a n b : Nat} {m m' : Bytes} (h : SameOutside a n m m')
    (hb : b < 8 * a ∨ 8 * (a + n) ≤ b) : bitAt m' b = bitAt m b := by
  apply bitAt_congr
  apply h
  omega

section Bits

theorem clearBuf_apply (b : Bytes) {i : Nat} (hi : i < sectorSize) :
    copyBytes b 0 (fun _ => 0) 0 sectorSize i = 0 :=
  copyBytes_zero hi

theorem bitAt_written {d buf : Bytes} {n b : Nat} (hb : b < 8 * sectorSize) :
    bitAt (copyBytes d (sectorSize * n) buf 0 sectorSize) (8 * (sectorSize * n) + b) =
      bitAt buf b := by
  have hd : (8 * (sectorSize * n) + b) / 8 = sectorSize * n + b / 8 := by omega
  have hm : (8 * (sectorSize * n) + b) % 8 = b % 8 := by omega
  have hlt : b / 8 < sectorSize := by omega
  rw [bitAt, hd, hm, copyBytes_add hlt, Nat.zero_add]
  rfl

/-- The disk as it will be once the buffer has been written to sector `n`. -/
def flushed (d buf : Bytes) (n : Nat) : Bytes :=
  copyBytes d (sectorSize * n) buf 0 sectorSize

theorem flushed_update (d buf : Bytes) {n a : Nat} (v : UInt8) (ha : a < sectorSize) :
    flushed d (Function.update buf a v) n =
      Function.update (flushed d buf n) (sectorSize * n + a) v := by
  funext i
  by_cases hi : i = sectorSize * n + a
  · subst hi
    rw [flushed, copyBytes_add ha, Nat.zero_add, Function.update_self, Function.update_self]
  · rw [Function.update_of_ne hi]
    rcases Nat.lt_or_ge i (sectorSize * n) with hlt | hge
    · rw [flushed, flushed, copyBytes_of_lt hlt, copyBytes_of_lt hlt]
    · rcases Nat.lt_or_ge i (sectorSize * n + sectorSize) with hlt' | hge'
      · obtain ⟨j, rfl⟩ := Nat.exists_eq_add_of_le hge
        have hj : j < sectorSize := by omega
        have hja : 0 + j ≠ a := by omega
        rw [flushed, flushed, copyBytes_add hj, copyBytes_add hj]
        exact Function.update_of_ne hja _ _
      · rw [flushed, flushed, copyBytes_of_ge hge', copyBytes_of_ge hge']

theorem flushed_apply (d buf : Bytes) {n a : Nat} (ha : a < sectorSize) :
    flushed d buf n (sectorSize * n + a) = buf a := by
  rw [flushed, copyBytes_add ha, Nat.zero_add]

theorem flushed_setBit (d buf : Bytes) {n a k : Nat} (ha : a < sectorSize) :
    flushed d (setBit buf a k) n = setBit (flushed d buf n) (sectorSize * n + a) k := by
  rw [setBit, flushed_update d buf _ ha, setBit, flushed_apply d buf ha]

theorem flushed_read (d buf : Bytes) (n : Nat) :
    flushed d (copyBytes buf 0 d (sectorSize * n) sectorSize) n = d :=
  copyBytes_copyBytes buf

end Bits

section Inodes

variable {m m' : Bytes} {a b : Nat}

theorem diskInodeAt_shift (h : ∀ i, i < 16 → m' (b + i) = m (a + i)) :
    diskInodeAt m' b = diskInodeAt m a := by
  have hk : ∀ k, k + 4 ≤ 16 → u32At m' (b + k) = u32At m (a + k) := by
    intro k hk
    apply u32At_shift
    intro i hi
    rw [Nat.add_assoc, Nat.add_assoc]
    exact h (k + i) (by omega)
  have h₀ := hk 0 (by omega)
  rw [Nat.add_zero, Nat.add_zero] at h₀
  rw [diskInodeAt, diskInodeAt, h₀, hk 4 (by omega), hk 8 (by omega), hk 12 (by omega)]

theorem DiskInode.bytes_eq (i : DiskInode) :
    i.bytes = [i.mode, i.size, i.startSect, i.nrSects].flatMap u32Bytes := rfl

@[simp] theorem DiskInode.bytes_length (i : DiskInode) : i.bytes.length = 16 := rfl

def DiskInode.Fits (i : DiskInode) : Prop :=
  i.mode < 2 ^ 32 ∧ i.size < 2 ^ 32 ∧ i.startSect < 2 ^ 32 ∧ i.nrSects < 2 ^ 32

theorem diskInodeAt_putBytes {i : DiskInode} (h : i.Fits) :
    diskInodeAt (putBytes m a i.bytes) a = i := by
  rw [DiskInode.bytes_eq]
  have hk : ∀ k (hk : k < 4), [i.mode, i.size, i.startSect, i.nrSects][k] < 2 ^ 32 →
      u32At (putBytes m a ([i.mode, i.size, i.startSect, i.nrSects].flatMap u32Bytes))
        (a + 4 * k) = [i.mode, i.size, i.startSect, i.nrSects][k] :=
    fun k hk hl => u32At_flatMap hk hl
  obtain ⟨hm, hs, hst, hn⟩ := h
  cases i
  simp only [diskInodeAt, DiskInode.mk.injEq]
  exact ⟨hk 0 (by omega) hm, hk 1 (by omega) hs, hk 2 (by omega) hst, hk 3 (by omega) hn⟩

theorem diskInodeAt_putBytes_of_disjoint {l : List UInt8} (h : b + l.length ≤ a ∨ a + 16 ≤ b) :
    diskInodeAt (putBytes m b l) a = diskInodeAt m a := by
  apply diskInodeAt_shift
  intro i hi
  rcases h with h | h
  · exact putBytes_of_ge (by omega)
  · exact putBytes_of_lt (by omega)

end Inodes

end BazingaOS
