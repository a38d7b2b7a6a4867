import BazingaOS.FS.Mkfs
import BazingaOS.FS.Sector

/-!
# What formatting leaves on the disk

One specification for each routine of `mkfs`, and from them the contents of a formatted partition.
-/

namespace BazingaOS

open Prog

section Superblock

variable {size : Nat}

theorem makeSuperBlock_n1stSect : (FS.makeSuperBlock size).n1stSect =
    size / (sectorSize * 8) + 260 := by
  change 1 + 1 + 1 + (size / (sectorSize * 8) + 1) + 256 = _
  omega

theorem makeSuperBlock_nrSmapSects : (FS.makeSuperBlock size).nrSmapSects =
    size / (sectorSize * 8) + 1 := rfl

theorem bitsPerSect_eq : sectorSize * 8 = 4096 := rfl

theorem superBlockAt_bytes (m : Bytes) (a : Nat) (sb : SuperBlock)
    (h : ∀ x ∈ [sb.magic, sb.nrInodes, sb.nrSects, sb.nrImapSects, sb.nrSmapSects, sb.n1stSect,
      sb.nrInodeSects, sb.rootInode, sb.inodeSize, sb.inodeIsizeOff, sb.inodeStartOff,
      sb.dirEntSize, sb.dirEntInodeOff, sb.dirEntFnameOff, sb.sbDev], x < 2 ^ 32) :
    superBlockAt (putBytes m a sb.bytes) a = sb := by
  have hk : ∀ k (hk : k < 15), u32At (putBytes m a sb.bytes) (a + 4 * k) = _ :=
    fun k hk => u32At_flatMap hk (h _ (List.getElem_mem hk))
  cases sb
  simp only [superBlockAt, SuperBlock.mk.injEq]
  exact ⟨hk 0 (by omega), hk 1 (by omega), hk 2 (by omega), hk 3 (by omega), hk 4 (by omega),
    hk 5 (by omega), hk 6 (by omega), hk 7 (by omega), hk 8 (by omega), hk 9 (by omega),
    hk 10 (by omega), hk 11 (by omega), hk 12 (by omega), hk 13 (by omega), hk 14 (by omega)⟩

theorem superBlockAt_shift {m m' : Bytes} {a b : Nat} (h : ∀ i, i < 60 → m' (b + i) = m (a + i)) :
    superBlockAt m' b = superBlockAt m a := by
  have hk : ∀ k, k + 4 ≤ 60 → u32At m' (b + k) = u32At m (a + k) := by
    intro k hk
    apply u32At_shift
    intro i hi
    rw [Nat.add_assoc, Nat.add_assoc]
    exact h (k + i) (by omega)
  simp only [superBlockAt, SuperBlock.mk.injEq]
  exact ⟨hk 0 (by omega), hk 4 (by omega), hk 8 (by omega), hk 12 (by omega), hk 16 (by omega),
    hk 20 (by omega), hk 24 (by omega), hk 28 (by omega), hk 32 (by omega), hk 36 (by omega),
    hk 40 (by omega), hk 44 (by omega), hk 48 (by omega), hk 52 (by omega), hk 56 (by omega)⟩

theorem makeSuperBlock_fields (hsize : size < 2 ^ 32) :
    ∀ x ∈ [(FS.makeSuperBlock size).magic, (FS.makeSuperBlock size).nrInodes,
      (FS.makeSuperBlock size).nrSects, (FS.makeSuperBlock size).nrImapSects,
      (FS.makeSuperBlock size).nrSmapSects, (FS.makeSuperBlock size).n1stSect,
      (FS.makeSuperBlock size).nrInodeSects, (FS.makeSuperBlock size).rootInode,
      (FS.makeSuperBlock size).inodeSize, (FS.makeSuperBlock size).inodeIsizeOff,
      (FS.makeSuperBlock size).inodeStartOff, (FS.makeSuperBlock size).dirEntSize,
      (FS.makeSuperBlock size).dirEntInodeOff, (FS.makeSuperBlock size).dirEntFnameOff,
      (FS.makeSuperBlock size).sbDev], x < 2 ^ 32 := by
  have hq : size / (sectorSize * 8) ≤ size := Nat.div_le_self _ _
  have hq' : size / (sectorSize * 8) < 2 ^ 20 := by
    rw [bitsPerSect_eq]
    omega
  intro x hx
  simp only [FS.makeSuperBlock, List.mem_cons, List.not_mem_nil, or_false, sectorSize, magicV1,
    BazingaOS.inodeSize, rootInodeNr] at hx hq'
  omega

theorem setSuperblock_spec (hsize : size < 2 ^ 32) (s : Fs) :
    wp (FS.setSuperblock size) (fun _ s' => s'.sb = FS.makeSuperBlock size ∧
      SameOutside sectorSize sectorSize s.disk s'.disk ∧
      superBlockAt s'.disk sectorSize = FS.makeSuperBlock size) (fun _ _ => False) s := by
  simp only [FS.setSuperblock, wp_bind, wp_modify, wp_setBuf, wp_get]
  rw [wp_wrSect (by decide), Nat.mul_one]
  refine ⟨rfl, SameOutside.copy, ?_⟩
  have hbytes := superBlockAt_bytes (copyBytes s.fsbuf 0 (fun _ => 0xF0) 0 sectorSize) 0 _
    (makeSuperBlock_fields hsize)
  refine Eq.trans (superBlockAt_shift ?_) hbytes
  intro i hi
  have hlt : i < sectorSize := Nat.lt_of_lt_of_le hi (by decide)
  exact copyBytes_add hlt

end Superblock

section Imap

theorem setImap_spec (s : Fs) :
    wp FS.setImap (fun _ s' => s'.sb = s.sb ∧
      SameOutside (sectorSize * 2) sectorSize s.disk s'.disk ∧
      ∀ b, b < 8 * sectorSize → bitAt s'.disk (8 * (sectorSize * 2) + b) = decide (b < 6))
      (fun _ _ => False) s := by
  simp only [FS.setImap, FS.clearBuf, wp_bind, wp_setBuf]
  apply wp_loop (I := fun _ t => t.sb = s.sb ∧ t.disk = s.disk ∧
    ∀ i, 1 ≤ i → i < sectorSize → t.fsbuf i = 0)
  · refine ⟨rfl, rfl, ?_⟩
    intro i _ hi
    exact clearBuf_apply s.fsbuf hi
  · intro j t _ _ ht
    refine ⟨ht.1, ht.2.1, ?_⟩
    intro i hi hi'
    have hne : i ≠ 0 := by omega
    change setBit t.fsbuf 0 j i = 0
    rw [setBit, Function.update_of_ne hne]
    exact ht.2.2 i hi hi'
  · intro t ht
    rw [wp_wrSect (by decide)]
    refine ⟨ht.1, ?_, ?_⟩
    · rw [← ht.2.1]
      exact SameOutside.copy
    · intro b hb
      rw [bitAt_written hb]
      dsimp only
      by_cases h8 : b / 8 = 0
      · rw [bitAt, h8, Function.update_self]
        have hall : ∀ j : Fin 8, byteBit 0x3F j.val = decide (j.val < 6) := by decide
        have hm : b % 8 = b := by omega
        rw [hm]
        exact hall ⟨b, by omega⟩
      · have hlt : b / 8 < sectorSize := by omega
        have h6 : ¬ b < 6 := by omega
        rw [bitAt, Function.update_of_ne h8, ht.2.2 _ (by omega) hlt, byteBit_zero]
        simp [h6]

end Imap

section Smap

theorem markCmdTar_spec {smap left sect byteOff bitOff : Nat} {s : Fs}
    (hbyte : byteOff < sectorSize) (hbit : bitOff < 8)
    (hpos : sectorSize * (smap + (sect + left)) < 2 ^ 31) :
    wp (FS.markCmdTar smap left sect byteOff bitOff) (fun sect' s' => s'.sb = s.sb ∧
      sectorSize * (smap + sect') < 2 ^ 31 ∧
      ∀ n, bitAt (flushed s'.disk s'.fsbuf (smap + sect')) n =
        (bitAt (flushed s.disk s.fsbuf (smap + sect)) n ||
          decide (8 * (sectorSize * (smap + sect) + byteOff) + bitOff ≤ n ∧
            n < 8 * (sectorSize * (smap + sect) + byteOff) + bitOff + left)))
      (fun _ _ => False) s := by
  induction left generalizing sect byteOff bitOff s with
  | zero =>
    refine ⟨rfl, hpos, ?_⟩
    intro n
    have hn : ¬ (8 * (sectorSize * (smap + sect) + byteOff) + bitOff ≤ n ∧
        n < 8 * (sectorSize * (smap + sect) + byteOff) + bitOff + 0) := by omega
    rw [decide_eq_false hn, Bool.or_false]
  | succ left ih =>
    -- the bit that this round sets, and the rest of the run behind it
    have hround : ∀ n, (bitAt (flushed s.disk (setBit s.fsbuf byteOff bitOff) (smap + sect)) n ||
        decide (8 * (sectorSize * (smap + sect) + byteOff) + bitOff + 1 ≤ n ∧
          n < 8 * (sectorSize * (smap + sect) + byteOff) + bitOff + (left + 1))) =
        (bitAt (flushed s.disk s.fsbuf (smap + sect)) n ||
          decide (8 * (sectorSize * (smap + sect) + byteOff) + bitOff ≤ n ∧
            n < 8 * (sectorSize * (smap + sect) + byteOff) + bitOff + (left + 1))) := by
      intro n
      rw [flushed_setBit _ _ hbyte, bitAt_setBit hbit, Bool.or_assoc, ← Bool.decide_or]
      congr 2
      apply propext
      omega
    have hpos' : sectorSize * (smap + (sect + 1 + left)) < 2 ^ 31 := by
      rw [show sect + 1 + left = sect + (left + 1) by omega]
      exact hpos
    have hmono : ∀ x, x ≤ sect + (left + 1) → sectorSize * (smap + x) < 2 ^ 31 := by
      intro x hx
      exact lt_of_le_of_lt (Nat.mul_le_mul_left _ (Nat.add_le_add_left hx smap)) hpos
    have hnext : sectorSize * (smap + (sect + 1)) = sectorSize * (smap + sect) + sectorSize := by
      rw [← Nat.add_assoc, Nat.mul_add, Nat.mul_one]
    simp only [FS.markCmdTar, wp_bind, wp_setBuf, wp_ite]
    refine ⟨fun h8 => ⟨fun hend => ?_, fun hend => ?_⟩, fun h8 => ?_⟩
    · rw [wp_wrSect (hmono sect (by omega)), wp_rdSect (hmono (sect + 1) (by omega))]
      refine wp_mono (ih (by decide) (by decide) hpos') ?_ (fun _ _ hf => hf)
      rintro sect' s' ⟨hsb, hlt, hbits⟩
      refine ⟨hsb, hlt, ?_⟩
      intro n
      have hb := hbits n
      dsimp only at hb
      rw [hb, flushed_read, ← hround n]
      congr 2
      apply propext
      rw [hnext]
      omega
    · refine wp_mono (ih (by omega) (by decide) (hmono _ (by omega))) ?_ (fun _ _ hf => hf)
      rintro sect' s' ⟨hsb, hlt, hbits⟩
      refine ⟨hsb, hlt, ?_⟩
      intro n
      rw [hbits n, ← hround n]
      congr 2
      apply propext
      omega
    · refine wp_mono (ih hbyte (by omega) (hmono _ (by omega))) ?_ (fun _ _ hf => hf)
      rintro sect' s' ⟨hsb, hlt, hbits⟩
      refine ⟨hsb, hlt, ?_⟩
      intro n
      rw [hbits n, ← hround n]
      congr 2
      apply propext
      omega

/-- The end of `set_smap`: a run of `len` bits is set from bit `off` of the map on. -/
theorem markRun_spec {smap off len : Nat} {s : Fs}
    (hpos : sectorSize * (smap + (off / 8 / sectorSize + len)) < 2 ^ 31) :
    wp (do
        FS.rdSect (smap + off / 8 / sectorSize)
        let sect ← FS.markCmdTar smap len (off / 8 / sectorSize) (off / 8 % sectorSize) (off % 8)
        FS.wrSect (smap + sect))
      (fun _ s' => s'.sb = s.sb ∧ ∀ n, bitAt s'.disk n = (bitAt s.disk n ||
        decide (8 * (sectorSize * smap) + off ≤ n ∧ n < 8 * (sectorSize * smap) + off + len)))
      (fun _ _ => False) s := by
  have hle := Nat.mul_le_mul_left sectorSize
    (show smap + off / 8 / sectorSize ≤ smap + (off / 8 / sectorSize + len) by omega)
  have hstart : 8 * (sectorSize * (smap + off / 8 / sectorSize) + off / 8 % sectorSize) +
      off % 8 = 8 * (sectorSize * smap) + off := by
    unfold sectorSize
    omega
  simp only [wp_bind]
  rw [wp_rdSect (lt_of_le_of_lt hle hpos)]
  refine wp_mono (markCmdTar_spec (Nat.mod_lt _ (by decide)) (Nat.mod_lt _ (by decide)) hpos) ?_
    (fun _ _ h => h)
  rintro sect t ⟨hsb, hlt, hbits⟩
  rw [wp_wrSect hlt]
  refine ⟨hsb, ?_⟩
  intro n
  have hb := hbits n
  dsimp only at hb
  rw [flushed_read, hstart] at hb
  exact hb

/-- The bits of the map that formatting sets: the reserved one, those of the root directory and
those of `cmd.tar`. -/
def smapAfter (size b : Nat) : Bool :=
  decide (b ≤ nrDefaultFileSects) ||
    decide (installStartSect + 1 ≤ b + (FS.makeSuperBlock size).n1stSect ∧
      b + (FS.makeSuperBlock size).n1stSect < installStartSect + 1 + installNrSects)

theorem fillBytes_spec {n : Nat} (s : Fs) :
    wp (loop (fun i => FS.setBuf fun b => Function.update b i 0xFF) n 0)
      (fun _ s' => s'.sb = s.sb ∧ s'.disk = s.disk ∧
        ∀ b, bitAt s'.fsbuf b = (bitAt s.fsbuf b || decide (b < 8 * n)))
      (fun _ _ => False) s := by
  apply wp_loop (I := fun j t => t.sb = s.sb ∧ t.disk = s.disk ∧
    ∀ b, bitAt t.fsbuf b = (bitAt s.fsbuf b || decide (b < 8 * j)))
  · simp
  · intro j t _ _ ht
    refine ⟨ht.1, ht.2.1, ?_⟩
    intro b
    change bitAt (Function.update t.fsbuf j 0xff) b = _
    by_cases hb : b / 8 = j
    · have hlt : b < 8 * (j + 1) := by omega
      rw [bitAt, hb, Function.update_self, byteBit_full (Nat.mod_lt _ (by decide)),
        decide_eq_true hlt, Bool.or_true]
    · have hiff : b < 8 * (j + 1) ↔ b < 8 * j := by omega
      simp only [hiff]
      rw [← ht.2.2 b]
      apply bitAt_congr
      exact Function.update_of_ne hb _ _
  · intro t ht
    rw [Nat.zero_add] at ht
    exact ht

theorem fillBits_spec {a n : Nat} (hn : n ≤ 8) (s : Fs) :
    wp (loop (fun i => FS.setBuf fun b => setBit b a i) n 0)
      (fun _ s' => s'.sb = s.sb ∧ s'.disk = s.disk ∧
        ∀ b, bitAt s'.fsbuf b = (bitAt s.fsbuf b || decide (8 * a ≤ b ∧ b < 8 * a + n)))
      (fun _ _ => False) s := by
  apply wp_loop (I := fun j t => t.sb = s.sb ∧ t.disk = s.disk ∧
    ∀ b, bitAt t.fsbuf b = (bitAt s.fsbuf b || decide (8 * a ≤ b ∧ b < 8 * a + j)))
  · refine ⟨rfl, rfl, ?_⟩
    intro b
    have hb : ¬ (8 * a ≤ b ∧ b < 8 * a + 0) := by omega
    rw [decide_eq_false hb, Bool.or_false]
  · intro j t _ hj ht
    refine ⟨ht.1, ht.2.1, ?_⟩
    intro b
    change bitAt (setBit t.fsbuf a j) b = _
    rw [bitAt_setBit (by omega), ht.2.2 b, Bool.or_assoc, ← Bool.decide_or]
    congr 2
    apply propext
    omega
  · intro t ht
    rw [Nat.zero_add] at ht
    exact ht

theorem zeroSects_spec {smap n : Nat} {s : Fs} (hpos : sectorSize * (smap + n) < 2 ^ 31)
    (hzero : ∀ b, b < 8 * sectorSize → bitAt s.fsbuf b = false) :
    wp (loop (fun i => FS.wrSect (smap + i)) n 1)
      (fun _ s' => s'.sb = s.sb ∧
        SameOutside (sectorSize * (smap + 1)) (sectorSize * n) s.disk s'.disk ∧
        ∀ b, b < 8 * (sectorSize * n) →
          bitAt s'.disk (8 * (sectorSize * (smap + 1)) + b) = false)
      (fun _ _ => False) s := by
  apply wp_loop (I := fun j t => t.sb = s.sb ∧ t.fsbuf = s.fsbuf ∧
    SameOutside (sectorSize * (smap + 1)) (sectorSize * (j - 1)) s.disk t.disk ∧
      ∀ b, b < 8 * (sectorSize * (j - 1)) →
        bitAt t.disk (8 * (sectorSize * (smap + 1)) + b) = false)
  · refine ⟨rfl, rfl, fun i _ => rfl, ?_⟩
    intro b hb
    exact absurd hb (by omega)
  · intro j t hj hjn ht
    have hle : sectorSize * (smap + j) ≤ sectorSize * (smap + n) :=
      Nat.mul_le_mul_left _ (by omega)
    rw [wp_wrSect (lt_of_le_of_lt hle hpos)]
    obtain ⟨k, rfl⟩ := Nat.exists_eq_add_of_le' hj
    rw [Nat.add_sub_cancel] at ht ⊢
    have hmul : sectorSize * (smap + (k + 1)) = sectorSize * (smap + 1) + sectorSize * k := by
      rw [← Nat.mul_add]
      congr 1
      omega
    have hnext : sectorSize * (k + 1) = sectorSize * k + sectorSize := Nat.mul_succ _ _
    refine ⟨ht.1, ht.2.1, ?_, ?_⟩
    · intro i hi
      dsimp only
      rw [SameOutside.copy i (by omega)]
      exact ht.2.2.1 i (by omega)
    · intro b hb
      dsimp only
      rcases Nat.lt_or_ge b (8 * (sectorSize * k)) with hlt | hge
      · rw [SameOutside.copy.bitAt (by omega)]
        exact ht.2.2.2 b hlt
      · obtain ⟨c, rfl⟩ := Nat.exists_eq_add_of_le hge
        have hc : 8 * (sectorSize * (smap + 1)) + (8 * (sectorSize * k) + c) =
            8 * (sectorSize * (smap + (k + 1))) + c := by omega
        rw [hc, bitAt_written (by omega), ht.2.1]
        exact hzero c (by omega)
  · intro t ht
    rw [Nat.add_sub_cancel_left] at ht
    exact ⟨ht.1, ht.2.2⟩

/-- On a partition that ends in front of `cmd.tar` the bits of its sectors are behind the map, but not
behind sector 12. -/
theorem setSmap_spec {size : Nat} (hsize : size < 2 ^ 32) {s : Fs}
    (hsb : s.sb = FS.makeSuperBlock size) :
    wp FS.setSmap (fun _ s' => s'.sb = s.sb ∧
      (FS.makeSuperBlock size).n1stSect ≤ installStartSect + 1 ∧
      (∀ i, i < sectorSize * 3 → s'.disk i = s.disk i) ∧
      (∀ i, sectorSize * 12 ≤ i →
        sectorSize * 3 + sectorSize * (FS.makeSuperBlock size).nrSmapSects ≤ i →
          s'.disk i = s.disk i) ∧
      ∀ b, b < 8 * (sectorSize * (FS.makeSuperBlock size).nrSmapSects) →
        bitAt s'.disk (8 * (sectorSize * 3) + b) = smapAfter size b)
      (fun _ _ => installStartSect + 1 < (FS.makeSuperBlock size).n1stSect) s := by
  have h3 : 2 + s.sb.nrImapSects = 3 := by
    rw [hsb]
    rfl
  have hn := @makeSuperBlock_nrSmapSects size
  have hn1 := @makeSuperBlock_n1stSect size
  have hq : size / (sectorSize * 8) < 2 ^ 20 := by
    rw [bitsPerSect_eq]
    omega
  generalize size / (sectorSize * 8) = n at hn hn1 hq
  have hout : ∀ i, i < sectorSize * 3 ∨ sectorSize * 3 + sectorSize * (n + 1) ≤ i →
      (i < sectorSize * 3 ∨ sectorSize * 3 + sectorSize ≤ i) ∧
        (i < sectorSize * (3 + 1) ∨ sectorSize * (3 + 1) + sectorSize * n ≤ i) := by
    intro i hi
    unfold sectorSize at hi ⊢
    omega
  simp only [FS.setSmap, wp_bind, wp_get, h3, FS.clearBuf, wp_setBuf]
  generalize hbytes : (nrDefaultFileSects + 1) / 8 = q
  generalize hrest : (nrDefaultFileSects + 1) % 8 = r
  refine wp_mono (fillBytes_spec _) ?_ (fun _ _ h => h.elim)
  rintro - t ⟨htsb, htd, htbits⟩
  refine wp_mono (fillBits_spec (by omega) _) ?_ (fun _ _ h => h.elim)
  rintro - u ⟨husb, hud, hubits⟩
  rw [wp_wrSect (by decide)]
  have hfirst : ∀ b, b < 8 * sectorSize → bitAt u.fsbuf b = decide (b ≤ nrDefaultFileSects) := by
    intro b hb
    have hclear : bitAt (copyBytes s.fsbuf 0 (fun _ => 0) 0 sectorSize) b = false := by
      rw [bitAt, clearBuf_apply s.fsbuf (by omega), byteBit_zero]
    rw [hubits b, htbits b, hclear, Bool.false_or, ← Bool.decide_or]
    congr 1
    apply propext
    omega
  have hzero : ∀ b, b < 8 * sectorSize →
      bitAt (copyBytes u.fsbuf 0 (fun _ => 0) 0 sectorSize) b = false := by
    intro b hb
    rw [bitAt, clearBuf_apply u.fsbuf (by omega), byteBit_zero]
  rw [hsb, hn, Nat.add_sub_cancel, hn1]
  have hpos : ∀ k, k ≤ 3 + n → sectorSize * k < 2 ^ 31 := by
    intro k hk
    have hle := Nat.mul_le_mul_left sectorSize hk
    unfold sectorSize at hle ⊢
    omega
  refine wp_mono (zeroSects_spec (hpos _ (Nat.le_refl _)) hzero) ?_ (fun _ _ h => h.elim)
  rintro - v ⟨hvsb, hvout, hvzero⟩
  have hvbits : ∀ b, b < 8 * (sectorSize * (n + 1)) →
      bitAt v.disk (8 * (sectorSize * 3) + b) = decide (b ≤ nrDefaultFileSects) := by
    intro b hb
    rcases Nat.lt_or_ge b (8 * sectorSize) with hlt | hge
    · rw [hvout.bitAt (by unfold sectorSize at hlt ⊢; omega), bitAt_written hlt, hfirst b hlt]
    · obtain ⟨c, rfl⟩ := Nat.exists_eq_add_of_le hge
      have hc : c < 8 * (sectorSize * n) := by
        rw [Nat.mul_succ] at hb
        omega
      have hnot : ¬ 8 * sectorSize + c ≤ nrDefaultFileSects := by
        unfold sectorSize nrDefaultFileSects
        omega
      rw [decide_eq_false hnot, ← hvzero c hc]
      congr 1
      unfold sectorSize
      omega
  rw [wp_ite]
  refine ⟨fun hneg => hneg, fun hneg => ?_⟩
  generalize hoff : installStartSect + 1 - (n + 260) = off
  have hoffle : off ≤ 32509 := by
    unfold installStartSect at hoff
    omega
  refine wp_mono (@markRun_spec _ _ installNrSects _ ?_) ?_ (fun _ _ h => h.elim)
  · unfold sectorSize installNrSects
    omega
  rintro - w ⟨hwsb, hwbits⟩
  -- a byte that is neither in the map nor in the run of `cmd.tar`
  have hkeep : ∀ i, (i < sectorSize * 3 ∨ sectorSize * 3 + sectorSize * (n + 1) ≤ i) →
      (i < sectorSize * 3 ∨ sectorSize * 12 ≤ i) → w.disk i = s.disk i := by
    intro i hi hrun
    have hd : u.disk = s.disk := hud.trans htd
    have hc : copyBytes u.disk (sectorSize * 3) u.fsbuf 0 sectorSize i = u.disk i :=
      SameOutside.copy i (hout i hi).1
    have hv : v.disk i = s.disk i :=
      (hvout i (hout i hi).2).trans (hc.trans (congrFun hd i))
    rw [← hv]
    apply byteBit_ext
    intro j hj
    rw [← bitAt_mul_add hj, ← bitAt_mul_add hj, hwbits]
    have hnot : ¬ (8 * (sectorSize * 3) + off ≤ 8 * i + j ∧
        8 * i + j < 8 * (sectorSize * 3) + off + installNrSects) := by
      unfold sectorSize at hi hrun ⊢
      unfold installNrSects
      omega
    rw [decide_eq_false hnot, Bool.or_false]
  refine ⟨?_, Nat.le_of_not_lt hneg, ?_, ?_, ?_⟩
  · rw [hwsb, hvsb, husb, htsb, hsb]
  · intro i hi
    exact hkeep i (.inl hi) (.inl hi)
  · intro i hend hi
    exact hkeep i (.inr hi) (.inr hend)
  · intro b hb
    have hiff : (8 * (sectorSize * 3) + off ≤ 8 * (sectorSize * 3) + b ∧
        8 * (sectorSize * 3) + b < 8 * (sectorSize * 3) + off + installNrSects) ↔
        (installStartSect + 1 ≤ b + (n + 260) ∧
          b + (n + 260) < installStartSect + 1 + installNrSects) := by
      omega
    rw [hwbits, hvbits b hb, smapAfter, hn1, decide_eq_decide.mpr hiff]

end Smap

section Inodes

/-- The inodes that formatting writes, by their number. -/
def inodeAfter (size : Nat) : Nat → DiskInode
  | 1 => ⟨iDirectory, 5 * dirEntSize, (FS.makeSuperBlock size).n1stSect, nrDefaultFileSects⟩
  | 5 => ⟨iRegular, installNrSects * sectorSize, installStartSect, installNrSects⟩
  | nr => ⟨iCharSpecial, 0, ttyDev (nr - 2), 0⟩

theorem inodeAfter_fits {size nr : Nat} (hsize : size < 2 ^ 32) (h1 : 1 ≤ nr) (h5 : nr ≤ 5) :
    (inodeAfter size nr).Fits := by
  have hq : size / (sectorSize * 8) < 2 ^ 20 := by
    rw [bitsPerSect_eq]
    omega
  have hn1 := @makeSuperBlock_n1stSect size
  have hs : sectorSize = 512 := rfl
  interval_cases nr <;>
    simp only [DiskInode.Fits, inodeAfter, iDirectory, iCharSpecial, iRegular, ttyDev, dirEntSize,
      nrDefaultFileSects, installNrSects, installStartSect] <;>
    omega

theorem inodeAfter_tty {size j : Nat} (hj : j < nrConsoles) :
    inodeAfter size (j + 2) = ⟨iCharSpecial, 0, ttyDev j, 0⟩ := by
  unfold nrConsoles at hj
  interval_cases j <;> rfl

theorem setInodeArray_spec {size : Nat} (hsize : size < 2 ^ 32) {s : Fs}
    (hsb : s.sb = FS.makeSuperBlock size) :
    wp FS.setInodeArray (fun _ s' => s'.sb = s.sb ∧
      SameOutside (sectorSize * (3 + (FS.makeSuperBlock size).nrSmapSects)) sectorSize
        s.disk s'.disk ∧
      ∀ nr, 1 ≤ nr → nr ≤ 5 → diskInodeAt s'.disk
        (sectorSize * (3 + (FS.makeSuperBlock size).nrSmapSects) + inodeSize * (nr - 1)) =
          inodeAfter size nr) (fun _ _ => False) s := by
  have hn := @makeSuperBlock_nrSmapSects size
  have hn1 := @makeSuperBlock_n1stSect size
  have hq : size / (sectorSize * 8) < 2 ^ 20 := by
    rw [bitsPerSect_eq]
    omega
  have h3 : 2 + s.sb.nrImapSects + s.sb.nrSmapSects =
      3 + (FS.makeSuperBlock size).nrSmapSects := by
    rw [hsb]
    rfl
  have hpos : sectorSize * (3 + (FS.makeSuperBlock size).nrSmapSects) < 2 ^ 31 := by
    rw [hn]
    unfold sectorSize at hq ⊢
    omega
  have hroot : s.sb.n1stSect = (FS.makeSuperBlock size).n1stSect := by rw [hsb]
  simp only [FS.setInodeArray, FS.clearBuf, FS.storeInode, wp_bind, wp_get, wp_setBuf, h3, hroot]
  generalize hc : nrConsoles = c
  apply wp_loop (I := fun j t => t.sb = s.sb ∧ t.disk = s.disk ∧
    ∀ nr, 1 ≤ nr → nr ≤ 1 + j → diskInodeAt t.fsbuf (inodeSize * (nr - 1)) = inodeAfter size nr)
  · refine ⟨rfl, rfl, ?_⟩
    intro nr h1 h2
    obtain rfl : nr = 1 := by omega
    exact diskInodeAt_putBytes (inodeAfter_fits hsize h1 (by decide))
  · intro j t _ hj ht
    refine ⟨ht.1, ht.2.1, ?_⟩
    intro nr h1 h2
    dsimp only
    rcases Nat.lt_or_ge nr (j + 2) with hlt | hge
    · rw [diskInodeAt_putBytes_of_disjoint (by unfold inodeSize; omega)]
      exact ht.2.2 nr h1 (by omega)
    · obtain rfl : nr = j + 2 := by omega
      have hk : (j + 1) * inodeSize = inodeSize * (j + 2 - 1) := by
        rw [Nat.mul_comm]
        rfl
      rw [← @inodeAfter_tty size _ (by omega), hk]
      exact diskInodeAt_putBytes (inodeAfter_fits hsize h1 (by unfold nrConsoles at hc; omega))
  · intro t ht
    rw [wp_wrSect hpos]
    refine ⟨ht.1, ?_, ?_⟩
    · rw [← ht.2.1]
      exact SameOutside.copy
    · intro nr h1 h2
      have hbuf : ∀ nr, 1 ≤ nr → nr ≤ 5 → diskInodeAt (putBytes t.fsbuf ((c + 1) * inodeSize)
          (inodeAfter size 5).bytes) (inodeSize * (nr - 1)) = inodeAfter size nr := by
        intro nr h1 h2
        unfold nrConsoles at hc
        rcases Nat.lt_or_ge nr 5 with hlt | hge
        · rw [diskInodeAt_putBytes_of_disjoint (by unfold inodeSize; omega)]
          exact ht.2.2 nr h1 (by omega)
        · obtain rfl : nr = 5 := by omega
          have hk : (c + 1) * inodeSize = inodeSize * (5 - 1) := by
            rw [← hc]
            rfl
          rw [hk]
          exact diskInodeAt_putBytes (inodeAfter_fits hsize h1 h2)
      rw [← hbuf nr h1 h2]
      apply diskInodeAt_shift
      intro i hi
      dsimp only
      rw [Nat.add_assoc, copyBytes_add (by unfold inodeSize sectorSize; omega), Nat.zero_add]
      rfl

end Inodes

section RootDir

/-- The sector of the new root directory, with `j` of the terminals. -/
def rootDirBytes : Nat → Bytes
  | 0 => putBytes (fun _ => 0) 0 (u32Bytes rootInodeNr ++ [46, 0])
  | j + 1 => putBytes (rootDirBytes j) ((j + 1) * dirEntSize) (u32Bytes (j + 2) ++ FS.ttyName j)

/-- With all terminals and `cmd.tar`. -/
def newDirBytes : Bytes :=
  putBytes (rootDirBytes nrConsoles) ((nrConsoles + 1) * dirEntSize)
    (u32Bytes (nrConsoles + 2) ++ FS.cmdTarName)

theorem putBytes_agree {m m' : Bytes} {a i : Nat} {l : List UInt8} (h : m' i = m i) :
    putBytes m' a l i = putBytes m a l i := by
  rw [putBytes, putBytes, h]

theorem setRootDe_bytes {size : Nat} (hsize : size < 2 ^ 32) {s : Fs}
    (hsb : s.sb = FS.makeSuperBlock size) :
    wp FS.setRootDe (fun _ s' => ∀ i, i < sectorSize →
      s'.disk (sectorSize * (FS.makeSuperBlock size).n1stSect + i) = newDirBytes i)
      (fun _ _ => False) s := by
  have hpos : sectorSize * (FS.makeSuperBlock size).n1stSect < 2 ^ 31 := by
    have hs : sectorSize = 512 := rfl
    rw [makeSuperBlock_n1stSect, hs]
    omega
  have hroot : s.sb.n1stSect = (FS.makeSuperBlock size).n1stSect := by rw [hsb]
  simp only [FS.setRootDe, FS.clearBuf, FS.putDirEntry, wp_bind, wp_get, wp_setBuf, hroot]
  apply wp_loop (I := fun j t => ∀ i, i < sectorSize → t.fsbuf i = rootDirBytes j i)
  · intro i hi
    exact putBytes_agree (m := fun _ => 0) (a := 0) (l := u32Bytes rootInodeNr ++ [46, 0])
      (clearBuf_apply s.fsbuf hi)
  · intro j t _ _ ht i hi
    exact putBytes_agree (ht i hi)
  · intro t ht
    rw [wp_wrSect hpos]
    intro i hi
    refine (copyBytes_add hi).trans ?_
    rw [Nat.zero_add]
    exact putBytes_agree (ht i hi)

theorem setRootDe_spec {size : Nat} (hsize : size < 2 ^ 32) {s : Fs}
    (hsb : s.sb = FS.makeSuperBlock size) :
    wp FS.setRootDe (fun _ s' => s'.sb = s.sb ∧
      SameOutside (sectorSize * (FS.makeSuperBlock size).n1stSect) sectorSize s.disk s'.disk ∧
      ∀ k, k < 5 →
        u32At s'.disk (sectorSize * (FS.makeSuperBlock size).n1stSect + dirEntSize * k) = k + 1)
      (fun _ _ => False) s := by
  have hn1 := @makeSuperBlock_n1stSect size
  have hq : size / (sectorSize * 8) < 2 ^ 20 := by
    rw [bitsPerSect_eq]
    omega
  have hpos : sectorSize * (FS.makeSuperBlock size).n1stSect < 2 ^ 31 := by
    rw [hn1]
    unfold sectorSize at hq ⊢
    omega
  have hroot : s.sb.n1stSect = (FS.makeSuperBlock size).n1stSect := by rw [hsb]
  simp only [FS.setRootDe, FS.clearBuf, FS.putDirEntry, wp_bind, wp_get, wp_setBuf, hroot]
  generalize hc : nrConsoles = c
  have hentry : ∀ (m : Bytes) (a nr : Nat) (name : List UInt8), nr < 2 ^ 32 →
      u32At (putBytes m a (u32Bytes nr ++ name)) a = nr := by
    intro m a nr name hnr
    rw [putBytes_append, u32Bytes_length, u32At_putBytes_of_disjoint (.inr (Nat.le_refl _)),
      u32At_putBytes hnr]
  apply wp_loop (I := fun j t => t.sb = s.sb ∧ t.disk = s.disk ∧
    ∀ k, k < 1 + j → u32At t.fsbuf (dirEntSize * k) = k + 1)
  · refine ⟨rfl, rfl, ?_⟩
    intro k hk
    obtain rfl : k = 0 := by omega
    exact hentry _ _ _ _ (by decide)
  · intro j t _ hj ht
    refine ⟨ht.1, ht.2.1, ?_⟩
    intro k hk
    dsimp only
    rcases Nat.lt_or_ge k (1 + j) with hlt | hge
    · rw [u32At_putBytes_of_disjoint (by unfold dirEntSize; omega)]
      exact ht.2.2 k hlt
    · obtain rfl : k = j + 1 := by omega
      rw [Nat.mul_comm]
      exact hentry _ _ _ _ (by unfold nrConsoles at hc; omega)
  · intro t ht
    rw [wp_wrSect hpos]
    refine ⟨ht.1, ?_, ?_⟩
    · rw [← ht.2.1]
      exact SameOutside.copy
    · intro k hk
      have hbuf : u32At (putBytes t.fsbuf ((c + 1) * dirEntSize)
          (u32Bytes (c + 2) ++ FS.cmdTarName)) (dirEntSize * k) = k + 1 := by
        unfold nrConsoles at hc
        rcases Nat.lt_or_ge k 4 with hlt | hge
        · rw [u32At_putBytes_of_disjoint (by unfold dirEntSize; omega)]
          exact ht.2.2 k (by omega)
        · have hkc : k = c + 1 := by omega
          rw [hkc, Nat.mul_comm]
          exact hentry _ _ _ _ (by omega)
      rw [← hbuf]
      apply u32At_shift
      intro i hi
      dsimp only
      rw [Nat.add_assoc, copyBytes_add (by unfold dirEntSize sectorSize; omega), Nat.zero_add]

end RootDir

/-- The contents of a partition of `size` sectors behind `mkfs`. -/
structure Formatted (size : Nat) (d : Bytes) : Prop where
  superBlock : superBlockAt d sectorSize = FS.makeSuperBlock size
  imap : ∀ b, b < 8 * sectorSize → bitAt d (8 * (sectorSize * 2) + b) = decide (b < 6)
  smap : ∀ b, b < 8 * (sectorSize * (FS.makeSuperBlock size).nrSmapSects) →
    bitAt d (8 * (sectorSize * 3) + b) = smapAfter size b
  inode : ∀ nr, 1 ≤ nr → nr ≤ 5 → diskInodeAt d
    (sectorSize * (3 + (FS.makeSuperBlock size).nrSmapSects) + inodeSize * (nr - 1)) =
      inodeAfter size nr
  rootDir : ∀ k, k < 5 →
    u32At d (sectorSize * (FS.makeSuperBlock size).n1stSect + dirEntSize * k) = k + 1

theorem mkfs_spec {size : Nat} (hsize : size < 2 ^ 32) (s : Fs) :
    wp (FS.mkfs size) (fun _ s' => s'.sb = FS.makeSuperBlock size ∧
      (FS.makeSuperBlock size).n1stSect ≤ installStartSect + 1 ∧ Formatted size s'.disk ∧
      (∀ i, i < sectorSize →
        s'.disk (sectorSize * (FS.makeSuperBlock size).n1stSect + i) = newDirBytes i) ∧
      ∀ i, sectorSize * ((FS.makeSuperBlock size).n1stSect + 1) ≤ i → s'.disk i = s.disk i)
      (fun _ _ => installStartSect + 1 < (FS.makeSuperBlock size).n1stSect) s := by
  have hn := @makeSuperBlock_nrSmapSects size
  have hn1 := @makeSuperBlock_n1stSect size
  simp only [FS.mkfs, wp_bind]
  refine wp_mono (setSuperblock_spec hsize s) ?_ (fun _ _ h => h.elim)
  rintro - s₁ ⟨hsb₁, hout₁, hsuper⟩
  refine wp_mono (setImap_spec s₁) ?_ (fun _ _ h => h.elim)
  rintro - s₂ ⟨hsb₂, hout₂, himap⟩
  refine wp_mono (setSmap_spec hsize (hsb₂.trans hsb₁)) ?_ (fun _ _ h => h)
  rintro - s₃ ⟨hsb₃, hle, hlow₃, hout₃, hsmap⟩
  have hmk₃ := hsb₃.trans (hsb₂.trans hsb₁)
  refine wp_mono (setInodeArray_spec hsize hmk₃) ?_ (fun _ _ h => h.elim)
  rintro - s₄ ⟨hsb₄, hout₄, hinode⟩
  refine wp_mono (wp_and (setRootDe_spec hsize (hsb₄.trans hmk₃))
    (setRootDe_bytes hsize (hsb₄.trans hmk₃))) ?_ (fun _ _ h => h.1.elim)
  rintro - s₅ ⟨⟨hsb₅, hout₅, hdir⟩, hbytes⟩
  -- each routine leaves everything alone that the routines before it have written
  rw [hn] at hout₃ hsmap hout₄ hinode
  rw [hn1] at hout₅ hdir
  generalize hq : size / (sectorSize * 8) = q at *
  refine ⟨hsb₅.trans (hsb₄.trans hmk₃), hle, ⟨?_, ?_, ?_, ?_, ?_⟩, hbytes, ?_⟩
  · rw [← hsuper]
    apply superBlockAt_shift
    intro i hi
    unfold sectorSize at *
    rw [hout₅ _ (by omega), hout₄ _ (by omega), hlow₃ _ (by omega), hout₂ _ (by omega)]
  · intro b hb
    unfold sectorSize at *
    rw [← himap b hb, hout₅.bitAt (by omega), hout₄.bitAt (by omega),
      bitAt_congr (hlow₃ _ (by omega))]
  · intro b hb
    rw [hn] at hb
    unfold sectorSize at *
    rw [← hsmap b hb, hout₅.bitAt (by omega), hout₄.bitAt (by omega)]
  · intro nr h1 h5
    rw [hn, ← hinode nr h1 h5]
    apply diskInodeAt_shift
    intro i hi
    unfold sectorSize inodeSize at *
    exact hout₅ _ (by omega)
  · intro k hk
    rw [hn1]
    exact hdir k hk
  · intro i hi
    rw [hn1] at hi
    have hfar : sectorSize * 261 ≤ i :=
      Nat.le_trans (Nat.mul_le_mul_left _ (Nat.le_add_left 261 q)) hi
    have hends : sectorSize * 3 + sectorSize * (q + 1) ≤ i ∧
        sectorSize * (3 + (q + 1)) + sectorSize ≤ i ∧
        sectorSize * (q + 260) + sectorSize ≤ i := by
      unfold sectorSize at hi ⊢
      omega
    have h₁ : s₁.disk i = s.disk i := hout₁ i (.inr (Nat.le_trans (by decide) hfar))
    have h₂ : s₂.disk i = s₁.disk i := hout₂ i (.inr (Nat.le_trans (by decide) hfar))
    have h₃ : s₃.disk i = s₂.disk i := hout₃ i (Nat.le_trans (by decide) hfar) hends.1
    have h₄ : s₄.disk i = s₃.disk i := hout₄ i (.inr hends.2.1)
    rw [hout₅ i (.inr hends.2.2), h₄, h₃, h₂, h₁]

end BazingaOS
