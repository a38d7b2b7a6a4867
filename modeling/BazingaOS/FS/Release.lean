import BazingaOS.FS.Alloc
import BazingaOS.FS.Unlink

/-!
# Release of the sectors of a file

`do_unlink` clears a run of bits of the sector map: the bits of the first byte one by one, whole
bytes, and the bits of the last byte. Its assertions look at the bits in front of clearing them,
but the last one only at the lowest bit of the byte behind the whole bytes.
-/

namespace BazingaOS

open Prog

namespace FS

/-- An assertion that is made or left out. -/
def assertIf (strict : Bool) (b : Prop) [Decidable b] : Prog Fs Unit :=
  when (strict = true) (check b)

/-- The clearing of the sector map in `do_unlink`, with its assertions or without them. -/
def clearSmap (strict : Bool) (dev bitIdx nrSects : Nat) : Prog Fs Unit := do
  let byteIdx := bitIdx / 8
  let first := min (8 - bitIdx % 8) nrSects
  let byteCnt := (nrSects - (8 - bitIdx % 8)) / 8
  let sect := 1 + 1 + 1 + byteIdx / sectorSize
  onDev dev (rdSect sect)
  loop (fun i => do
    assertIf strict ((← get).fsbuf (byteIdx % sectorSize) &&& bitMask i ≠ 0)
    setBuf fun b => clearBit b (byteIdx % sectorSize) i) first (bitIdx % 8)
  let (sect, i) ← iter (fun _ a => do
    let (sect, i) ← nextSmapByte dev a.1 a.2
    assertIf strict ((← get).fsbuf i = 0xff)
    setBuf fun b => Function.update b i 0
    return .yield (sect, i + 1)) byteCnt 0 (sect, byteIdx % sectorSize + 1)
  let (sect, i) ← nextSmapByte dev sect i
  let left := nrSects - first - 8 * byteCnt
  assertIf strict (left < 8)
  assertIf strict ((← get).fsbuf i &&& bitMask 0 ≠ 0)
  loop (fun k => setBuf fun b => clearBit b i k) left 0
  onDev dev (wrSect sect)

theorem clearSmap_strict (dev bitIdx nrSects : Nat) :
    clearSmap true dev bitIdx nrSects = clearSmapBits dev bitIdx nrSects := rfl

end FS

/-- From `d` to `m` the bits of the sector map from `lo` up to `c` have been cleared. -/
def Cleared (lo c : Nat) (d m : Bytes) : Prop :=
  ∀ x, bitAt m x = (bitAt d x && !decide (sectBit 3 + lo ≤ x ∧ x < sectBit 3 + c))

/-- The bits of the sector map from `lo` up to `c` are set. -/
def AllSet (lo c : Nat) (d : Bytes) : Prop :=
  ∀ b, lo ≤ b → b < c → bitAt d (sectBit 3 + b) = true

theorem flushed_clearBit (d buf : Bytes) {n a k : Nat} (ha : a < sectorSize) :
    flushed d (clearBit buf a k) n = clearBit (flushed d buf n) (sectorSize * n + a) k := by
  rw [clearBit, flushed_update d buf _ ha, clearBit, flushed_apply d buf ha]

namespace Cleared

variable {lo c i k sect : Nat} {d disk buf : Bytes}

theorem refl (lo : Nat) (d : Bytes) : Cleared lo lo d d := by
  intro x
  rw [decide_eq_false (by omega), Bool.not_false, Bool.and_true]

theorem bit_iff (h : Cleared lo c d (flushed disk buf sect)) {b : Nat} (hi : i < sectorSize)
    (hk : k < 8) (hb : c ≤ b) (hplace : sectBit 3 + b = 8 * (sectorSize * sect + i) + k) :
    buf i &&& bitMask k ≠ 0 ↔ bitAt d (sectBit 3 + b) = true := by
  have hbit := h (sectBit 3 + b)
  rw [decide_eq_false (by omega), Bool.not_false, Bool.and_true, hplace, bitAt_mul_add hk,
    flushed_apply _ _ hi] at hbit
  rw [ne_eq, and_mask_eq_zero hk, hbit, hplace]
  simp

theorem clear (h : Cleared lo c d (flushed disk buf sect)) (hlo : lo ≤ c) (hi : i < sectorSize)
    (hk : k < 8) (hplace : sectBit 3 + c = 8 * (sectorSize * sect + i) + k) :
    Cleared lo (c + 1) d (flushed disk (clearBit buf i k) sect) := by
  intro x
  rw [flushed_clearBit _ _ hi, bitAt_clearBit hk, h x, ← hplace, Bool.and_assoc]
  simp only [← decide_not, ← Bool.decide_and]
  congr 2
  apply propext
  omega

theorem zero (h : Cleared lo c d (flushed disk buf sect)) (hlo : lo ≤ c) (hi : i < sectorSize)
    (hplace : sectBit 3 + c = 8 * (sectorSize * sect + i)) :
    Cleared lo (c + 8) d (flushed disk (Function.update buf i 0) sect) := by
  intro x
  rw [flushed_update _ _ _ hi]
  by_cases hx : x / 8 = sectorSize * sect + i
  · rw [bitAt, hx, Function.update_self, byteBit_zero, decide_eq_true (by omega), Bool.not_true,
      Bool.and_false]
  · rw [bitAt, Function.update_of_ne hx, ← bitAt, h x]
    congr 3
    apply propext
    omega

end Cleared

/-- What the assertions of the clearing look at: the bits of the first byte and of the whole bytes,
and the lowest bit of the byte behind them. -/
structure ReleaseChecks (lo nr : Nat) (d : Bytes) : Prop where
  set : AllSet lo (lo + min (8 - lo % 8) nr + 8 * ((nr - (8 - lo % 8)) / 8)) d
  last : bitAt d (sectBit 3 + 8 * (lo / 8 + 1 + (nr - (8 - lo % 8)) / 8)) = true

namespace FS

variable {s : Fs} {m lo nr c : Nat} {strict : Bool} {d : Bytes}

/-- The bits from `lo` up to `c` have been cleared on the disk as it will be, with sector `sect` in
the buffer, and the assertions about them have held. -/
def Clearing (strict : Bool) (s : Fs) (lo c sect : Nat) (s' : Fs) : Prop :=
  ∃ disk buf, s' = { s with disk, fsbuf := buf } ∧
    Cleared lo c s.disk (flushed disk buf sect) ∧ (strict = true → AllSet lo c s.disk)

theorem wp_assertIf {b : Prop} [Decidable b] {Q : Unit → Fs → Prop} {E : Stop → Fs → Prop} :
    wp (assertIf strict b) Q E s ↔ (strict = false ∨ b → Q () s) ∧
      (strict = true → ¬ b → E .assertion s) := by
  cases strict with
  | false => simp [assertIf]
  | true => simp [assertIf]

theorem allSet_succ (h : AllSet lo c d) (hc : bitAt d (sectBit 3 + c) = true) :
    AllSet lo (c + 1) d := by
  intro b hb hbc
  rcases Nat.lt_or_ge b c with hlt | hge
  · exact h b hb hlt
  · obtain rfl : b = c := by omega
    exact hc

theorem nextSmapByte_flushed {a : Nat × Nat} (ha : SmapPlace c a)
    (hc : c < sectorSize * (m + 1)) (haddr : sectorSize * (3 + m) < 2 ^ 31) :
    wp (nextSmapByte rootDev a.1 a.2) (fun a' s' => SmapPlace c a' ∧ a'.2 < sectorSize ∧
      sectorSize * a'.1 < 2 ^ 31 ∧ ∃ disk buf, s' = { s with disk, fsbuf := buf } ∧
        flushed disk buf a'.1 = flushed s.disk s.fsbuf a.1) (fun _ _ => False) s := by
  have hs : sectorSize = 512 := rfl
  have hle := ha.sect_le hc
  obtain ⟨h₃, hat, hend⟩ := ha
  have hpos : sectorSize * a.1 < 2 ^ 31 := by
    rw [hs] at haddr ⊢
    omega
  rw [nextSmapByte, wp_ite]
  constructor
  · intro heq
    have hpos' : sectorSize * (a.1 + 1) < 2 ^ 31 := by
      rw [heq] at hat
      rw [hs] at haddr hat hc ⊢
      omega
    rw [wp_bind, onDev, if_pos rfl, wp_wrSect hpos, wp_bind, onDev, if_pos rfl, wp_rdSect hpos',
      wp_pure]
    refine ⟨⟨?_, ?_, Nat.zero_le _⟩, by rw [hs]; omega, hpos', _, _, rfl, ?_⟩
    · exact Nat.le_succ_of_le h₃
    · dsimp only
      rw [heq] at hat
      rw [hs] at hat ⊢
      omega
    · exact flushed_read _ _ _
  · intro hne
    exact ⟨⟨h₃, hat, hend⟩, Nat.lt_of_le_of_ne hend hne, hpos, s.disk, s.fsbuf, rfl, rfl⟩

theorem clearHead_spec {s' : Fs} {n : Nat} (hn : lo % 8 + n ≤ 8)
    (h : Clearing strict s lo lo (3 + lo / 8 / sectorSize) s') :
    wp (loop (fun i => do
        assertIf strict ((← get).fsbuf (lo / 8 % sectorSize) &&& bitMask i ≠ 0)
        setBuf fun b => clearBit b (lo / 8 % sectorSize) i) n (lo % 8))
      (fun _ s' => Clearing strict s lo (lo + n) (3 + lo / 8 / sectorSize) s')
      (fun w _ => w = .assertion ∧ strict = true ∧ ¬ AllSet lo (lo + n) s.disk) s' := by
  have hs : sectorSize = 512 := rfl
  have hbyte : lo / 8 % sectorSize < sectorSize := Nat.mod_lt _ (by decide)
  apply @wp_loop _ _ _ _ _ (fun i s' =>
    Clearing strict s lo (8 * (lo / 8) + i) (3 + lo / 8 / sectorSize) s')
  · rw [Nat.div_add_mod]
    exact h
  · rintro i s₁ hge hlt ⟨disk, buf, rfl, hcl, hset⟩
    have hi : i < 8 := by omega
    have hplace : sectBit 3 + (8 * (lo / 8) + i) =
        8 * (sectorSize * (3 + lo / 8 / sectorSize) + lo / 8 % sectorSize) + i := by
      rw [sectBit, hs]
      omega
    have hbit := hcl.bit_iff hbyte hi (Nat.le_refl _) hplace
    simp only [wp_bind, wp_get, wp_assertIf, wp_setBuf]
    refine ⟨fun hok => ⟨disk, _, rfl, hcl.clear (by omega) hbyte hi hplace, fun hst => ?_⟩,
      fun hst hbad => ⟨trivial, hst, fun hall => ?_⟩⟩
    · rcases hok with hf | hb
      · rw [hst] at hf
        cases hf
      · exact allSet_succ (hset hst) (hbit.mp hb)
    · exact hbad (hbit.mpr (hall _ (by omega) (by omega)))
  · intro s₁ h₁
    have he : 8 * (lo / 8) + (lo % 8 + n) = lo + n := by omega
    rw [← he]
    exact h₁

theorem allSet_byte {sect i : Nat} {disk buf : Bytes}
    (hcl : Cleared lo c d (flushed disk buf sect)) (hi : i < sectorSize)
    (hplace : sectBit 3 + c = 8 * (sectorSize * sect + i)) :
    buf i = 0xff ↔ ∀ k, k < 8 → bitAt d (sectBit 3 + (c + k)) = true := by
  have hbit : ∀ k, k < 8 → (byteBit (buf i) k = true ↔ bitAt d (sectBit 3 + (c + k)) = true) := by
    intro k hk
    rw [← hcl.bit_iff hi hk (Nat.le_add_right c k) (by omega), ne_eq, and_mask_eq_zero hk]
    simp
  rw [eq_full_iff]
  exact ⟨fun h k hk => (hbit k hk).mp (h k hk), fun h k hk => (hbit k hk).mpr (h k hk)⟩

theorem allSet_add (h : AllSet lo c d) (hfull : ∀ k, k < 8 → bitAt d (sectBit 3 + (c + k)) = true) :
    AllSet lo (c + 8) d := by
  intro b hb hbc
  rcases Nat.lt_or_ge b c with hlt | hge
  · exact h b hb hlt
  · obtain ⟨k, rfl⟩ := Nat.exists_eq_add_of_le hge
    exact hfull k (by omega)

/-- The whole bytes: in front of a round the place is that of the next byte. -/
theorem clearBytes_spec {s' : Fs} {n first : Nat} {a : Nat × Nat} (hlo : lo ≤ c)
    (hstart : n = 0 ∨ c = 8 * first) (hplace : SmapPlace first a)
    (hend : first + n < sectorSize * (m + 1)) (haddr : sectorSize * (3 + m) < 2 ^ 31)
    (h : Clearing strict s lo c a.1 s') :
    wp (iter (fun _ (a : Nat × Nat) => do
        let (sect, i) ← nextSmapByte rootDev a.1 a.2
        assertIf strict ((← get).fsbuf i = 0xff)
        setBuf fun b => Function.update b i 0
        return .yield (sect, i + 1)) n 0 a)
      (fun a s' => SmapPlace (first + n) a ∧ Clearing strict s lo (c + 8 * n) a.1 s')
      (fun w _ => w = .assertion ∧ strict = true ∧ ¬ AllSet lo (c + 8 * n) s.disk) s' := by
  have hs : sectorSize = 512 := rfl
  apply @wp_iter _ _ _ _ _ _ (fun j a s' => SmapPlace (first + j) a ∧
    Clearing strict s lo (c + 8 * j) a.1 s')
  · exact ⟨hplace, h⟩
  · rintro j a s₁ - hj ⟨hat, disk, buf, rfl, hcl, hset⟩
    rw [wp_bind]
    refine wp_mono (nextSmapByte_flushed hat (by omega) haddr) ?_ (fun _ _ h => h.elim)
    rintro a' s₂ ⟨⟨h₃, hbyte, -⟩, hlt, -, disk', buf', rfl, hsame⟩
    have hcl' : Cleared lo (c + 8 * j) s.disk (flushed disk' buf' a'.1) := by
      rw [hsame]
      exact hcl
    have hbit : sectBit 3 + (c + 8 * j) = 8 * (sectorSize * a'.1 + a'.2) := by
      rw [sectBit, hs] at *
      omega
    have hfull := allSet_byte hcl' hlt hbit
    simp only [wp_bind, wp_get, wp_assertIf, wp_setBuf]
    refine ⟨fun hok => ⟨⟨h₃, ?_, hlt⟩, disk', _, rfl, hcl'.zero (by omega) hlt hbit,
      fun hst => ?_⟩, fun hst hbad => ⟨trivial, hst, fun hall => hbad (hfull.mpr fun k hk => ?_)⟩⟩
    · change sectorSize * (a'.1 - 3) + (a'.2 + 1) = first + (j + 1)
      omega
    · rcases hok with hf | hb
      · rw [hst] at hf
        cases hf
      · exact allSet_add (hset hst) (hfull.mp hb)
    · exact hall _ (by omega) (by omega)
  · rintro a s₁ ⟨hat, hcl⟩
    rw [Nat.zero_add] at hat hcl
    exact ⟨hat, hcl⟩

theorem clearTail_spec {s' : Fs} {n place : Nat} {a : Nat × Nat} (hlo : lo ≤ c) (hn : n < 8)
    (hc : c ≤ 8 * place) (hstart : n = 0 ∨ c = 8 * place) (hplace : SmapPlace place a)
    (hend : place < sectorSize * (m + 1)) (haddr : sectorSize * (3 + m) < 2 ^ 31)
    (h : Clearing strict s lo c a.1 s') :
    wp (do
        let (sect, i) ← nextSmapByte rootDev a.1 a.2
        assertIf strict (n < 8)
        assertIf strict ((← get).fsbuf i &&& bitMask 0 ≠ 0)
        loop (fun k => setBuf fun b => clearBit b i k) n 0
        onDev rootDev (wrSect sect))
      (fun _ s' => (∃ disk buf, s' = { s with disk, fsbuf := buf } ∧
        Cleared lo (c + n) s.disk disk) ∧
        (strict = true → AllSet lo c s.disk ∧ bitAt s.disk (sectBit 3 + 8 * place) = true))
      (fun w _ => w = .assertion ∧ strict = true ∧
        ¬ bitAt s.disk (sectBit 3 + 8 * place) = true) s' := by
  have hs : sectorSize = 512 := rfl
  obtain ⟨disk, buf, rfl, hcl, hset⟩ := h
  rw [wp_bind]
  refine wp_mono (nextSmapByte_flushed hplace hend haddr) ?_ (fun _ _ h => h.elim)
  rintro a' s₂ ⟨⟨h₃, hbyte, -⟩, hlt, hpos, disk', buf', rfl, hsame⟩
  have hcl' : Cleared lo c s.disk (flushed disk' buf' a'.1) := by
    rw [hsame]
    exact hcl
  have hbit : sectBit 3 + 8 * place = 8 * (sectorSize * a'.1 + a'.2) := by
    rw [hs] at hbyte
    rw [sectBit, hs]
    omega
  have hlow := hcl'.bit_iff hlt (show 0 < 8 by decide) hc hbit
  simp only [wp_bind, wp_get, wp_assertIf]
  refine ⟨fun _ => ⟨fun hok => ?_, fun hst hbad => ⟨trivial, hst, fun hb => hbad (hlow.mpr hb)⟩⟩,
    fun _ hbad => absurd hn hbad⟩
  have hchecked : strict = true → AllSet lo c s.disk ∧
      bitAt s.disk (sectBit 3 + 8 * place) = true := by
    intro hst
    refine ⟨hset hst, hlow.mp ?_⟩
    rcases hok with hf | hb
    · rw [hst] at hf
      cases hf
    · exact hb
  apply @wp_loop _ _ _ _ _ (fun k s' => ∃ b, s' = { s with disk := disk', fsbuf := b } ∧
    Cleared lo (c + k) s.disk (flushed disk' b a'.1))
  · exact ⟨buf', rfl, hcl'⟩
  · rintro k s₃ - hk ⟨b, rfl, hb⟩
    rw [wp_setBuf]
    refine ⟨_, rfl, hb.clear (by omega) hlt (by omega) ?_⟩
    rcases hstart with hz | hat
    · omega
    · rw [hat, ← Nat.add_assoc, hbit]
  · rintro s₃ ⟨b, rfl, hb⟩
    rw [Nat.zero_add] at hb
    rw [onDev, if_pos rfl, wp_wrSect hpos]
    exact ⟨⟨_, _, rfl, hb⟩, hchecked⟩

/-- The bits of a file in the map are cleared and no other bit of the disk changes. The assertions
fail exactly if one of the bits they look at is clear. -/
theorem clearSmap_spec (hnr : 1 ≤ nr) (hmap : lo + nr ≤ 8 * sectorSize * m)
    (haddr : sectorSize * (3 + m) < 2 ^ 31) :
    wp (clearSmap strict rootDev lo nr)
      (fun _ s' => (∃ disk buf, s' = { s with disk, fsbuf := buf } ∧
        Cleared lo (lo + nr) s.disk disk) ∧ (strict = true → ReleaseChecks lo nr s.disk))
      (fun w _ => w = .assertion ∧ strict = true ∧ ¬ ReleaseChecks lo nr s.disk) s := by
  have hs : sectorSize = 512 := rfl
  have hpos : sectorSize * (1 + 1 + 1 + lo / 8 / sectorSize) < 2 ^ 31 := by
    rw [hs] at hmap haddr ⊢
    omega
  have hsum : lo + min (8 - lo % 8) nr + 8 * ((nr - (8 - lo % 8)) / 8) +
      (nr - min (8 - lo % 8) nr - 8 * ((nr - (8 - lo % 8)) / 8)) = lo + nr := by omega
  simp only [clearSmap, wp_bind]
  rw [onDev, if_pos rfl, wp_rdSect hpos]
  refine wp_mono (@clearHead_spec s lo strict _ (min (8 - lo % 8) nr) (by omega) ?_) ?_ ?_
  · refine ⟨s.disk, _, rfl, ?_, fun _ b hb hlt => absurd hb (Nat.not_le.mpr hlt)⟩
    rw [flushed_read]
    exact Cleared.refl lo s.disk
  · intro _ s₁ h₁
    refine wp_mono (@clearBytes_spec s m lo (lo + min (8 - lo % 8) nr) strict s₁
      ((nr - (8 - lo % 8)) / 8) (lo / 8 + 1) _ (Nat.le_add_right _ _) (by omega) ?_ ?_ haddr h₁)
      ?_ ?_
    · refine ⟨Nat.le_add_right _ _, ?_, ?_⟩
      · change sectorSize * (3 + lo / 8 / sectorSize - 3) + (lo / 8 % sectorSize + 1) = _
        rw [hs]
        omega
      · exact Nat.mod_lt _ (by decide)
    · rw [hs] at hmap ⊢
      omega
    · rintro a s₂ ⟨hplace, h₂⟩
      have htail := wp_mono (@clearTail_spec s m lo _ strict s₂
        (nr - min (8 - lo % 8) nr - 8 * ((nr - (8 - lo % 8)) / 8)) _ a
        (show lo ≤ lo + min (8 - lo % 8) nr + 8 * ((nr - (8 - lo % 8)) / 8) by omega) (by omega)
        (by omega) (by omega) hplace (by rw [hs] at hmap ⊢; omega) haddr h₂)
        (fun _ s₃ h => (show (∃ disk buf, s₃ = { s with disk, fsbuf := buf } ∧
          Cleared lo (lo + nr) s.disk disk) ∧ (strict = true → ReleaseChecks lo nr s.disk) from
            hsum ▸ ⟨h.1, fun hst => ⟨(h.2 hst).1, (h.2 hst).2⟩⟩))
        (fun w _ h => (show w = .assertion ∧ strict = true ∧ ¬ ReleaseChecks lo nr s.disk from
          ⟨h.1, h.2.1, fun hchecks => h.2.2 hchecks.last⟩))
      simp only [wp_bind] at htail
      exact htail
    · rintro w s₂ ⟨rfl, hst, hbad⟩
      exact ⟨rfl, hst, fun h => hbad h.set⟩
  · rintro w s₁ ⟨rfl, hst, hbad⟩
    exact ⟨rfl, hst, fun h => hbad fun b hb hlt => h.set b hb (by omega)⟩

/-- A file system with a sector map of two sectors in which every bit is set. -/
def twoMaps : Fs where
  disk := fun _ => 0xff
  fsbuf := fun _ => 0
  sb := { nrImapSects := 1, nrSmapSects := 2, n1stSect := 8 }

/-- The code that clears the bits of a file, taken without its assertions, clears the bits of its
sectors and no other bit of the disk. -/
theorem clear_exact_range {start nr : Nat} (himap : s.sb.nrImapSects = 1)
    (haddr : sectorSize * (s.sb.smapSect + s.sb.nrSmapSects) < 2 ^ 31)
    (hstart : s.sb.n1stSect ≤ start) (hnr : 1 ≤ nr)
    (hmap : start - s.sb.n1stSect + nr < s.sb.smapBits) :
    ∃ s', clearSmap false rootDev (start + 1 - s.sb.n1stSect) nr s = .ok () s' ∧
      ∀ x, bitAt s'.disk x = true ↔ bitAt s.disk x = true ∧
        ¬ ∃ b, start - s.sb.n1stSect + 1 ≤ b ∧ b ≤ start - s.sb.n1stSect + nr ∧
          x = sectBit s.sb.smapSect + b := by
  have hsect : s.sb.smapSect = 3 := by rw [SuperBlock.smapSect, himap]
  have hs : sectorSize = 512 := rfl
  rw [hsect] at haddr ⊢
  have hrange : start + 1 - s.sb.n1stSect + nr ≤ 8 * sectorSize * s.sb.nrSmapSects := by
    rw [SuperBlock.smapBits, hs] at hmap
    rw [hs]
    omega
  have hspec := @clearSmap_spec s s.sb.nrSmapSects _ nr false hnr hrange haddr
  obtain ⟨u, s', hrun, ⟨disk, buf, rfl, hcl⟩, -⟩ := exists_ok_of_wp
    (wp_mono hspec (fun _ _ h => h) fun _ _ h => Bool.noConfusion h.2.1)
  refine ⟨_, hrun, fun x => ?_⟩
  change bitAt disk x = true ↔ _
  rw [hcl x, Bool.and_eq_true, Bool.not_eq_true', decide_eq_false_iff_not]
  refine and_congr_right fun _ => not_congr ⟨?_, ?_⟩
  · rintro ⟨hge, hlt⟩
    exact ⟨x - sectBit 3, by omega, by omega, by omega⟩
  · rintro ⟨b, hge, hle, rfl⟩
    omega

/-- Bits from the middle of a byte on, over the whole rest of the first sector and further. -/
theorem clear_range_twoMaps : ∃ s', clearSmap false rootDev 13 5000 twoMaps = .ok () s' ∧
    ∀ x, bitAt s'.disk x = true ↔ bitAt twoMaps.disk x = true ∧
      ¬ ∃ b, 13 ≤ b ∧ b ≤ 5012 ∧ x = sectBit 3 + b :=
  @clear_exact_range twoMaps 20 5000 rfl (by decide) (by decide)
    (by decide) (by decide)

end FS

end BazingaOS
