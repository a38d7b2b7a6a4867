import BazingaOS.Kernel.Hd

/-!
# The partition tables

The first sector has the four primary partitions. An extended one of them begins with a chain of boot
records: the second entry of each leads to the next, relative to the start of the extended partition,
and the first one is a logical partition, relative to the record it stands in. `partition` reads the
table of any disk, of each chain the first sixteen records.
-/

namespace BazingaOS

open Prog

namespace HD

/-- Entry `i` of the table in sector 0. -/
def primaryEnt (sectors : Nat → Bytes) (i : Fin nrPartPerDrive) : PartEnt := partEnt (sectors 0) i

def infoOf (e : PartEnt) : PartInfo := ⟨e.startSect, e.nrSects⟩

def Used (sectors : Nat → Bytes) (i : Fin nrPartPerDrive) : Prop := (primaryEnt sectors i).sysId ≠ 0

def Extended (sectors : Nat → Bytes) (i : Fin nrPartPerDrive) : Prop :=
  (primaryEnt sectors i).sysId = extPart

instance (sectors : Nat → Bytes) : DecidablePred (Used sectors) := fun _ =>
  inferInstanceAs (Decidable (_ ≠ _))

instance (sectors : Nat → Bytes) : DecidablePred (Extended sectors) := fun _ =>
  inferInstanceAs (Decidable (_ = _))

/-- The sector of record `k` in the chain of an extended partition that begins at `base`. -/
def bootRecord (sectors : Nat → Bytes) (base : Nat) : Nat → Nat
  | 0 => base
  | k + 1 => (base + (partEnt (sectors (bootRecord sectors base k)) 1).startSect) % 2 ^ 32

/-- The chain has a record `k`: the second entries in front of it are used. -/
def InChain (sectors : Nat → Bytes) (base k : Nat) : Prop :=
  ∀ i < k, (partEnt (sectors (bootRecord sectors base i)) 1).sysId ≠ 0

instance (sectors : Nat → Bytes) (base k : Nat) : Decidable (InChain sectors base k) :=
  inferInstanceAs (Decidable (∀ i < k, _))

def logicalPart (sectors : Nat → Bytes) (base k : Nat) : PartInfo :=
  let record := bootRecord sectors base k
  ⟨(record + (partEnt (sectors record) 0).startSect) % 2 ^ 32, (partEnt (sectors record) 0).nrSects⟩

def primarySlot (i : Fin nrPartPerDrive) : Fin nrPrimPerDrive := i.succ

theorem primarySlot_inj {i j : Fin nrPartPerDrive} : primarySlot i = primarySlot j ↔ i = j :=
  Fin.succ_inj

theorem primarySlot_ne_zero (i : Fin nrPartPerDrive) : primarySlot i ≠ ⟨0, by decide⟩ :=
  Fin.succ_ne_zero i

/-- The slot of logical partition `k` of the primary partition `i + 1`. -/
def logicalSlot (i : Fin nrPartPerDrive) (k : Fin nrSubPerPart) : Fin nrSubPerDrive :=
  ⟨i.val * nrSubPerPart + k.val, by
    have hi : i.val < 4 := i.isLt
    have hk : k.val < 16 := k.isLt
    unfold nrSubPerDrive nrSubPerPart nrPartPerDrive
    omega⟩

/-- What `partition` leaves in `hd_info`: the partitions of the disk, and in the slots of those that
it does not have what was there. -/
structure Partitioned (s s' : Hd) : Prop where
  whole : s'.primary ⟨0, by decide⟩ = s.primary ⟨0, by decide⟩
  primary : ∀ i, s'.primary (primarySlot i) = if Used s.sectors i then
    infoOf (primaryEnt s.sectors i) else s.primary (primarySlot i)
  logical : ∀ i k, s'.logical (logicalSlot i k) =
    if Extended s.sectors i ∧ InChain s.sectors (primaryEnt s.sectors i).startSect k then
      logicalPart s.sectors (primaryEnt s.sectors i).startSect k else s.logical (logicalSlot i k)

/-- The boot records that `partition` reads can be addressed. -/
def TablesBelow (sectors : Nat → Bytes) (limit : Nat) : Prop :=
  ∀ i, Extended sectors i → ∀ k < nrSubPerPart,
    InChain sectors (primaryEnt sectors i).startSect k →
      bootRecord sectors (primaryEnt sectors i).startSect k < limit

section

variable {E : Stop → Hd → Prop} {s s' : Hd} {base : Nat} {j : Fin nrPartPerDrive}

theorem InChain.succ_iff {sectors : Nat → Bytes} {k : Nat} : InChain sectors base (k + 1) ↔
    InChain sectors base k ∧ (partEnt (sectors (bootRecord sectors base k)) 1).sysId ≠ 0 :=
  Nat.forall_lt_succ_right

theorem InChain.mono {sectors : Nat → Bytes} {k l : Nat} (h : InChain sectors base l) (hk : k ≤ l) :
    InChain sectors base k := fun i hi => h i (Nat.lt_of_lt_of_le hi hk)

theorem logicalSlot_inj {i i' : Fin nrPartPerDrive} {k k' : Fin nrSubPerPart} :
    logicalSlot i k = logicalSlot i' k' ↔ i = i' ∧ k = k' := by
  have hk : k.val < 16 := k.isLt
  have hk' : k'.val < 16 := k'.isLt
  unfold logicalSlot
  rw [Fin.mk.injEq, Fin.ext_iff, Fin.ext_iff]
  change i.val * 16 + k.val = i'.val * 16 + k'.val ↔ i.val = i'.val ∧ k.val = k'.val
  omega

theorem getPartTable_spec (hready : s.ready = true) {secNr : Nat} (hsec : secNr < 2 ^ 28) :
    wp (getPartTable secNr) (fun ents s' => ents = partEnt (s.sectors secNr) ∧
      s' = { s with regs := sectorCmd ataRead 0 1 secNr }) E s := by
  simp only [getPartTable, hdCmdOut, wp_bind, wp_get, hready, if_true, wp_modify, wp_pure]
  rw [lba_sectorCmd, Nat.mod_eq_of_lt hsec]
  exact ⟨rfl, trivial⟩

/-- What `partition` leaves alone. -/
structure SameDrive (s s' : Hd) : Prop where
  sectors : s'.sectors = s.sectors
  ready : s'.ready = s.ready

/-- The invariant of the chain of partition `j + 1`: the records in front of record `i` are in their
slots. -/
structure ChainInv (s : Hd) (j : Fin nrPartPerDrive) (i ext : Nat) (s' : Hd) : Prop
    extends SameDrive s s' where
  ext_eq : ext = bootRecord s.sectors (s.primary (primarySlot j)).base i
  inChain : InChain s.sectors (s.primary (primarySlot j)).base i
  primary : s'.primary = s.primary
  logical : ∀ (m : Fin nrPartPerDrive) (k : Fin nrSubPerPart), s'.logical (logicalSlot m k) =
    if m = j ∧ k.val < i then logicalPart s.sectors (s.primary (primarySlot j)).base k
    else s.logical (logicalSlot m k)

/-- A whole chain. -/
structure ChainRead (s : Hd) (j : Fin nrPartPerDrive) (s' : Hd) : Prop extends SameDrive s s' where
  primary : s'.primary = s.primary
  logical : ∀ (m : Fin nrPartPerDrive) (k : Fin nrSubPerPart), s'.logical (logicalSlot m k) =
    if m = j ∧ InChain s.sectors (s.primary (primarySlot j)).base k then
      logicalPart s.sectors (s.primary (primarySlot j)).base k else s.logical (logicalSlot m k)

/-- The invariant gives the whole chain once record `i` is the first that does not exist or has no
slot. -/
theorem ChainInv.read {i ext : Nat} (h : ChainInv s j i ext s')
    (hend : ∀ k < nrSubPerPart, InChain s.sectors (s.primary (primarySlot j)).base k ↔ k < i) :
    ChainRead s j s' where
  toSameDrive := h.toSameDrive
  primary := h.primary
  logical m k := by
    rw [h.logical m k]
    simp only [hend k.val k.isLt]

theorem partitionExtended_spec (hready : s.ready = true)
    (hbelow : ∀ k < nrSubPerPart, InChain s.sectors (s.primary (primarySlot j)).base k →
      bootRecord s.sectors (s.primary (primarySlot j)).base k < 2 ^ 28) :
    wp (partitionExtended j) (fun _ s' => ChainRead s j s') E s := by
  rw [partitionExtended, wp_bind, wp_get, wp_bind]
  apply wp_iter (I := ChainInv s j)
  · exact {
      sectors := rfl
      ready := rfl
      ext_eq := rfl
      inChain := fun i hi => absurd hi (Nat.not_lt_zero i)
      primary := rfl
      logical := fun m k => by simp }
  · intro i ext u _ hi hu
    have hi' : i < nrSubPerPart := by omega
    have hn : nrSubPerPart = 16 := rfl
    have hj : j.val < 4 := j.isLt
    have hext := hu.ext_eq
    have hslot : j.val * nrSubPerPart + i < nrSubPerDrive := (logicalSlot j ⟨i, hi'⟩).isLt
    have hready' : u.ready = true := hu.ready.trans hready
    have hsec : ext < 2 ^ 28 := by
      rw [hext]
      exact hbelow i hi' hu.inChain
    rw [wp_bind]
    refine wp_mono (getPartTable_spec hready' hsec) ?_ (fun _ _ h => h)
    rintro ents v ⟨rfl, rfl⟩
    rw [hu.sectors, dif_pos hslot]
    simp only [wp_bind, setLogical, wp_modify, wp_ite, wp_pure]
    -- the record is in its slot, the others are where they were
    have hlog : ∀ (m : Fin nrPartPerDrive) (k : Fin nrSubPerPart),
        Function.update u.logical (logicalSlot j ⟨i, hi'⟩)
          (logicalPart s.sectors (s.primary (primarySlot j)).base i) (logicalSlot m k) =
        if m = j ∧ k.val < i + 1 then logicalPart s.sectors (s.primary (primarySlot j)).base k
        else s.logical (logicalSlot m k) := by
      intro m k
      by_cases hmk : m = j ∧ k = ⟨i, hi'⟩
      · obtain ⟨rfl, rfl⟩ := hmk
        rw [Function.update_self, if_pos ⟨rfl, Nat.lt_succ_self i⟩]
      · rw [Function.update_of_ne (mt logicalSlot_inj.mp hmk), hu.logical m k]
        have hne : m = j → k.val ≠ i := fun hm hk => hmk ⟨hm, Fin.ext hk⟩
        have hiff : (m = j ∧ k.val < i) ↔ (m = j ∧ k.val < i + 1) := by
          constructor
          · exact fun h => ⟨h.1, by omega⟩
          · intro h
            have hk := hne h.1
            exact ⟨h.1, by omega⟩
        simp only [hiff]
    have hrecord : (⟨(ext + (partEnt (s.sectors ext) 0).startSect) % 2 ^ 32,
        (partEnt (s.sectors ext) 0).nrSects⟩ : PartInfo) =
        logicalPart s.sectors (s.primary (primarySlot j)).base i := by
      rw [hext]
      rfl
    rw [hrecord]
    refine ⟨fun hlast => ?_, fun hnext => ?_⟩
    · have hend : ¬ InChain s.sectors (s.primary (primarySlot j)).base (i + 1) := by
        rw [InChain.succ_iff, ← hext]
        exact fun h => h.2 hlast
      exact {
        sectors := rfl
        ready := hu.ready
        primary := hu.primary
        logical := fun m k => by
          have hiff : InChain s.sectors (s.primary (primarySlot j)).base k ↔ k.val < i + 1 := by
            constructor
            · intro hk
              by_contra hge
              exact hend (hk.mono (by omega))
            · exact fun hk => hu.inChain.mono (by omega)
          simp only [hiff]
          exact hlog m k }
    · exact {
        sectors := rfl
        ready := hu.ready
        ext_eq := by
          rw [hext, bootRecord]
          rfl
        inChain := by
          rw [InChain.succ_iff, ← hext]
          exact ⟨hu.inChain, hnext⟩
        primary := hu.primary
        logical := hlog }
  · intro ext u hu
    apply hu.read
    intro k hk
    refine ⟨fun _ => by omega, fun hlt => hu.inChain.mono (by omega)⟩

/-- The invariant of the loop over the table in sector 0. -/
structure TableInv (s : Hd) (i n : Nat) (s' : Hd) : Prop extends SameDrive s s' where
  count : n ≠ 0 ↔ ∃ m : Fin nrPartPerDrive, m.val < i ∧ Used s.sectors m
  whole : s'.primary ⟨0, by decide⟩ = s.primary ⟨0, by decide⟩
  primary : ∀ m, s'.primary (primarySlot m) = if m.val < i ∧ Used s.sectors m then
    infoOf (primaryEnt s.sectors m) else s.primary (primarySlot m)
  logical : ∀ m k, s'.logical (logicalSlot m k) =
    if m.val < i ∧ Extended s.sectors m ∧
        InChain s.sectors (primaryEnt s.sectors m).startSect k then
      logicalPart s.sectors (primaryEnt s.sectors m).startSect k else s.logical (logicalSlot m k)

def withPrimary (s : Hd) (i : Fin nrPartPerDrive) (v : PartInfo) : Hd :=
  { s with primary := Function.update s.primary (primarySlot i) v }

theorem Extended.used {sectors : Nat → Bytes} {i : Fin nrPartPerDrive} (h : Extended sectors i) :
    Used sectors i := by
  unfold Used
  rw [h]
  decide

theorem TableInv.skip {i n : Nat} {u : Hd} (h : TableInv s i n u) (hi : i < nrPartPerDrive)
    (hunused : ¬ Used s.sectors ⟨i, hi⟩) : TableInv s (i + 1) n u := by
  have hlt : ∀ m : Fin nrPartPerDrive, Used s.sectors m → (m.val < i + 1 ↔ m.val < i) := by
    intro m hm
    have hne : m.val ≠ i := by
      rintro rfl
      exact hunused hm
    omega
  have hused : ∀ m : Fin nrPartPerDrive,
      (m.val < i + 1 ∧ Used s.sectors m) ↔ (m.val < i ∧ Used s.sectors m) :=
    fun m => and_congr_left (hlt m)
  have hext : ∀ (m : Fin nrPartPerDrive) (p : Prop),
      (m.val < i + 1 ∧ Extended s.sectors m ∧ p) ↔ (m.val < i ∧ Extended s.sectors m ∧ p) :=
    fun m p => and_congr_left fun hm => hlt m hm.1.used
  exact {
    toSameDrive := h.toSameDrive
    count := by
      rw [h.count]
      exact exists_congr fun m => (hused m).symm
    whole := h.whole
    primary := fun m => by simpa only [hused m] using h.primary m
    logical := fun m k => by simpa only [hext m] using h.logical m k }

theorem TableInv.take {i n : Nat} {u v : Hd} (h : TableInv s i n u) (hi : i < nrPartPerDrive)
    (hused : Used s.sectors ⟨i, hi⟩) (hsame : SameDrive u v)
    (hprim : v.primary = Function.update u.primary (primarySlot ⟨i, hi⟩)
      (infoOf (primaryEnt s.sectors ⟨i, hi⟩)))
    (hlog : ∀ m k, v.logical (logicalSlot m k) = if m = ⟨i, hi⟩ ∧ Extended s.sectors ⟨i, hi⟩ ∧
        InChain s.sectors (primaryEnt s.sectors ⟨i, hi⟩).startSect k then
      logicalPart s.sectors (primaryEnt s.sectors ⟨i, hi⟩).startSect k
      else u.logical (logicalSlot m k)) : TableInv s (i + 1) (n + 1) v where
  sectors := hsame.sectors.trans h.sectors
  ready := hsame.ready.trans h.ready
  count := ⟨fun _ => ⟨⟨i, hi⟩, Nat.lt_succ_self i, hused⟩, fun _ => Nat.succ_ne_zero n⟩
  whole := by
    rw [hprim, Function.update_of_ne (primarySlot_ne_zero _).symm, h.whole]
  primary m := by
    rw [hprim]
    by_cases hm : m = ⟨i, hi⟩
    · subst hm
      rw [Function.update_self, if_pos ⟨Nat.lt_succ_self i, hused⟩]
    · have hne : m.val ≠ i := fun heq => hm (Fin.ext heq)
      have hlt : m.val < i + 1 ↔ m.val < i := by omega
      rw [Function.update_of_ne (mt primarySlot_inj.mp hm), h.primary m]
      simp only [hlt]
  logical m k := by
    rw [hlog m k]
    by_cases hm : m = ⟨i, hi⟩
    · subst hm
      simp only [true_and, Nat.lt_succ_self]
      split
      · rfl
      · rw [h.logical, if_neg (fun hc => absurd hc.1 (Nat.lt_irrefl i))]
    · have hne : m.val ≠ i := fun heq => hm (Fin.ext heq)
      have hlt : m.val < i + 1 ↔ m.val < i := by omega
      rw [if_neg (fun hc => hm hc.1), h.logical m k]
      simp only [hlt]

theorem partitionPrimary_spec (hready : s.ready = true) (hused : ∃ i, Used s.sectors i)
    (hbelow : TablesBelow s.sectors (2 ^ 28)) :
    wp partitionPrimary (fun _ s' => Partitioned s s') E s := by
  rw [partitionPrimary, wp_bind]
  refine wp_mono (getPartTable_spec hready (by decide)) ?_ (fun _ _ h => h)
  rintro ents v ⟨rfl, rfl⟩
  rw [wp_bind]
  apply wp_iter (I := TableInv s)
  · exact {
      sectors := rfl
      ready := rfl
      count := by simp
      whole := rfl
      primary := fun m => by simp
      logical := fun m k => by simp }
  · intro i n u _ hi hu
    have hi' : i < nrPartPerDrive := by omega
    rw [dif_pos hi']
    by_cases hunused : (partEnt (s.sectors 0) i).sysId = 0
    · rw [if_pos hunused]
      exact hu.skip hi' (not_not.mpr hunused)
    · rw [if_neg hunused]
      simp only [setPrimary, wp_bind, wp_modify, wp_when, wp_pure]
      -- the state behind the assignments to the slot
      obtain ⟨v, hv⟩ : ∃ v, v = withPrimary u ⟨i, hi'⟩
          (infoOf (primaryEnt s.sectors ⟨i, hi'⟩)) := ⟨_, rfl⟩
      have hsame : SameDrive u v := by
        rw [hv]
        exact ⟨rfl, rfl⟩
      have hvlog : v.logical = u.logical := by rw [hv, withPrimary]
      have hprim : v.primary = Function.update u.primary (primarySlot ⟨i, hi'⟩)
          (infoOf (primaryEnt s.sectors ⟨i, hi'⟩)) := by rw [hv, withPrimary]
      refine ⟨fun hext => ?_, fun hext => ?_⟩
      · change wp (partitionExtended ⟨i, hi'⟩) _ _
          (withPrimary u ⟨i, hi'⟩ (infoOf (primaryEnt s.sectors ⟨i, hi'⟩)))
        rw [← hv]
        have hsec : v.sectors = s.sectors := hsame.sectors.trans hu.sectors
        have hbase : (v.primary (primarySlot ⟨i, hi'⟩)).base =
            (primaryEnt s.sectors ⟨i, hi'⟩).startSect := by
          rw [hprim, Function.update_self, infoOf]
        have hready' : v.ready = true := (hsame.ready.trans hu.ready).trans hready
        refine wp_mono (partitionExtended_spec hready' ?_) ?_ (fun _ _ h => h)
        · rw [hsec, hbase]
          exact hbelow _ hext
        · intro _ w hw
          refine hu.take hi' hunused ⟨hw.sectors.trans hsame.sectors, hw.ready.trans hsame.ready⟩
            (hw.primary.trans hprim) fun m k => ?_
          have hlog := hw.logical m k
          rw [hsec, hbase, hvlog] at hlog
          rw [hlog]
          have hext' : Extended s.sectors ⟨i, hi'⟩ := hext
          simp only [hext', true_and]
      · change TableInv s (i + 1) (n + 1)
          (withPrimary u ⟨i, hi'⟩ (infoOf (primaryEnt s.sectors ⟨i, hi'⟩)))
        rw [← hv]
        refine hu.take hi' hunused hsame hprim fun m k => ?_
        rw [hvlog, if_neg (fun hc => hext hc.2.1)]
  · intro n u hu
    have hlt : ∀ m : Fin nrPartPerDrive, m.val < 0 + nrPartPerDrive := fun m => by omega
    rw [wp_check]
    refine ⟨fun _ => ?_, fun hn => absurd (hu.count.mpr ?_) hn⟩
    · exact {
        whole := hu.whole
        primary := fun m => by simpa [hlt m] using hu.primary m
        logical := fun m k => by simpa [hlt m] using hu.logical m k }
    · obtain ⟨m, hm⟩ := hused
      exact ⟨m, hlt m, hm⟩

/-- `partition(0, P_PRIMARY)` returns and has placed every partition of the disk, long and cyclic chains
included. -/
theorem partitionPrimary_reads (hready : s.ready = true) (hused : ∃ i, Used s.sectors i)
    (hbelow : TablesBelow s.sectors (2 ^ 28)) :
    ∃ s', partitionPrimary s = .ok () s' ∧ Partitioned s s' := by
  obtain ⟨_, s', hrun, hs'⟩ :=
    exists_ok_of_wp (@partitionPrimary_spec (fun _ _ => False) s hready hused hbelow)
  exact ⟨s', hrun, hs'⟩

/-- An extended partition at sector 100 whose record leads back to itself. -/
private def cyclic : Hd where
  sectors n := match n with
    | 0 => putBytes (putBytes (fun _ => 0) (0x1be + 4) [extPart]) (0x1be + 8) (u32Bytes 100)
    | 100 => putBytes (putBytes (fun _ => 0) (0x1be + 16 + 4) [extPart]) (0x1be + 8) (u32Bytes 1)
    | _ => fun _ => 0

theorem partitionPrimary_reads_cyclic :
    ∃ s', partitionPrimary cyclic = .ok () s' ∧ Partitioned cyclic s' := by
  apply partitionPrimary_reads rfl
  · exact ⟨⟨0, by decide⟩, by decide +kernel⟩
  · unfold TablesBelow
    decide +kernel

end

end HD

end BazingaOS
