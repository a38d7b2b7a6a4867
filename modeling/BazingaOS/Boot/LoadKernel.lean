import BazingaOS.Lib.Linked
import BazingaOS.Lib.Packed12
import BazingaOS.Lib.Prog

/-!
# Loading the kernel file

How `boot/loader.asm` reads `KERNEL.BIN` from the floppy disk: `LOAD_ONE_SEC` reads the sector of a
cluster and asks `GET_FAT_ENT` for the next one. Registers are numbers below `0x10000`; int 13h
reads the sectors that it is asked for.
-/

namespace BazingaOS

open Prog

def bytesPerSec : Nat := 512
def secPerTrk : Nat := 18
def numHeads : Nat := 2
def rootDirSectors : Nat := 14
def sectorNoOfFat1 : Nat := 1
def deltaSecNo : Nat := 17
def baseOfKernel : Nat := 0x2000
def offsetOfKernel : Nat := 0
def baseOfKernelPhyAddr : Nat := baseOfKernel * 0x10
def baseOfLoaderPhyAddr : Nat := 0x9000 * 0x10

/-- A call of int 13h: how many sectors are read, from which one on, and to which linear address. -/
structure SectorRead where
  sector : Nat
  count : Nat
  addr : Nat
deriving DecidableEq, Repr

structure Loader where
  disk : Bytes
  mem : Bytes
  reads : List SectorRead := []

def add16 (a b : Nat) : Nat := (a + b) % 0x10000

namespace Loader

/-- int 13h with `ah = 2`; what is read over the stack and the code of the loader itself is
undefined. -/
def int13 (ch dh cl al es bx : Nat) : Prog Loader Unit :=
  if baseOfLoaderPhyAddr < 16 * es + bx + bytesPerSec * al then halt .undefined
  else modify fun s => { s with
    mem := copyBytes s.mem (16 * es + bx) s.disk
      (bytesPerSec * ((ch * numHeads + dh) * secPerTrk + (cl - 1))) (bytesPerSec * al)
    reads := s.reads ++ [⟨(ch * numHeads + dh) * secPerTrk + (cl - 1), al, 16 * es + bx⟩] }

/-- A quotient that does not fit into `al` is a divide error. -/
def readSector (ax cl es bx : Nat) : Prog Loader Unit :=
  if 0x100 ≤ ax / secPerTrk then halt .undefined
  else int13 (ax / secPerTrk / 2) (ax / secPerTrk % 2) (ax % secPerTrk + 1) cl es bx

def getFatEnt (ax : Nat) : Prog Loader Nat := do
  let es := baseOfKernel - 0x100
  if 0x10000 ≤ ax * 3 / 2 then halt .undefined
  else
    let bOdd := ax * 3 % 2
    readSector (add16 (ax * 3 / 2 / bytesPerSec) sectorNoOfFat1) 2 es 0
    let word := u16At (← get).mem (16 * es + ax * 3 / 2 % bytesPerSec)
    return (if bOdd = 0 then word else word / 16) % 0x1000

/-- `ax` is the sector to read and `es:bx` its place; the cluster is on the stack. -/
def loadOneSec : Nat → Nat → Nat → Nat → Nat → Prog Loader Unit
  | 0, _, _, _, _ => halt .hang
  | fuel + 1, ax, es, bx, cluster => do
    readSector ax 1 es bx
    let ent ← getFatEnt cluster
    if ent = 0xFFF then return ()
    else
      let es := if 0x10000 ≤ bx + bytesPerSec then add16 es 0x1000 else es
      loadOneSec fuel (add16 (add16 ent rootDirSectors) deltaSecNo) es (add16 bx bytesPerSec) ent

/-- From the directory entry on, whose first cluster is `cluster`. -/
def loaderFound (fuel cluster : Nat) : Prog Loader Unit :=
  loadOneSec fuel (add16 (add16 rootDirSectors cluster) deltaSecNo) baseOfKernel offsetOfKernel
    cluster

end Loader

/-- The first table of the disk. -/
def fat (disk : Bytes) : Bytes := fun i => disk (bytesPerSec * sectorNoOfFat1 + i)

/-- The cluster behind `c` in a chain; from `0xFF8` on an entry ends it. -/
def fatNext (disk : Bytes) (c : Nat) : Option Nat :=
  if 0xFF8 ≤ entry12 (fat disk) c then none else some (entry12 (fat disk) c)

/-- The cluster that the loader takes to be behind `c`. -/
def nextLoaded (disk : Bytes) (c : Nat) : Option Nat :=
  if entry12 (fat disk) c = 0xFFF then none else some (entry12 (fat disk) c)

def dataSector (c : Nat) : Nat := c + rootDirSectors + deltaSecNo

/-- Where the sector at `k` of the file is read to. -/
def sectorPlace (k : Nat) : Nat := baseOfKernelPhyAddr + bytesPerSec * k

/-- The sectors that fit in front of the loader. -/
def sectorRoom : Nat := (baseOfLoaderPhyAddr - baseOfKernelPhyAddr) / bytesPerSec

theorem sectorPlace_eq (k : Nat) : sectorPlace k = 0x20000 + 512 * k := rfl

namespace Loader

variable {s s' : Loader} {ax cl es bx c k fuel : Nat}

def afterRead (s : Loader) (r : SectorRead) : Loader :=
  { s with
    mem := copyBytes s.mem r.addr s.disk (bytesPerSec * r.sector) (bytesPerSec * r.count)
    reads := s.reads ++ [r] }

theorem readSector_eq (hax : ax / secPerTrk < 0x100)
    (hroom : 16 * es + bx + bytesPerSec * cl ≤ baseOfLoaderPhyAddr) :
    readSector ax cl es bx s = .ok () (s.afterRead ⟨ax, cl, 16 * es + bx⟩) := by
  have hchs : (ax / secPerTrk / 2 * numHeads + ax / secPerTrk % 2) * secPerTrk +
      (ax % secPerTrk + 1 - 1) = ax := by
    unfold secPerTrk numHeads
    omega
  rw [readSector, if_neg (Nat.not_le.mpr hax), int13, if_neg (Nat.not_lt.mpr hroom), hchs]
  rfl

theorem readSector_over (hax : ax / secPerTrk < 0x100)
    (hroom : baseOfLoaderPhyAddr < 16 * es + bx + bytesPerSec * cl) :
    readSector ax cl es bx s = .stop .undefined s := by
  rw [readSector, if_neg (Nat.not_le.mpr hax), int13, if_pos hroom]
  rfl

/-- The two sectors of the table in which the entry of `c` begins. -/
def fatRead (c : Nat) : SectorRead :=
  ⟨c * 3 / 2 / bytesPerSec + sectorNoOfFat1, 2, 16 * (baseOfKernel - 0x100)⟩

theorem u16At_afterRead_fatRead (s : Loader) (c : Nat) :
    u16At (s.afterRead (fatRead c)).mem (16 * (baseOfKernel - 0x100) + c * 3 / 2 % bytesPerSec) =
      u16At (fat s.disk) (c * 3 / 2) := by
  have hdisk : ∀ i < 2, bytesPerSec * (c * 3 / 2 / bytesPerSec + sectorNoOfFat1) +
      (c * 3 / 2 % bytesPerSec + i) = bytesPerSec * sectorNoOfFat1 + (c * 3 / 2 + i) := by
    intro i _
    unfold bytesPerSec sectorNoOfFat1
    omega
  have hin : ∀ i < 2, c * 3 / 2 % bytesPerSec + i < bytesPerSec * 2 := by
    intro i hi
    unfold bytesPerSec
    omega
  have hbyte : ∀ i < 2,
      (s.afterRead (fatRead c)).mem (16 * (baseOfKernel - 0x100) + (c * 3 / 2 % bytesPerSec + i)) =
        fat s.disk (c * 3 / 2 + i) := by
    intro i hi
    rw [fat, ← hdisk i hi]
    exact copyBytes_add (hin i hi)
  have h₀ := hbyte 0 (by omega)
  have h₁ := hbyte 1 (by omega)
  rw [Nat.add_zero, Nat.add_zero] at h₀
  rw [u16At, u16At, h₀, Nat.add_assoc, h₁]

theorem getFatEnt_eq (hc : c < 0x1000) :
    getFatEnt c s = .ok (entry12 (fat s.disk) c) (s.afterRead (fatRead c)) := by
  have hsmall : ¬ 0x10000 ≤ c * 3 / 2 := by omega
  have hsector : add16 (c * 3 / 2 / bytesPerSec) sectorNoOfFat1 =
      c * 3 / 2 / bytesPerSec + sectorNoOfFat1 := by
    unfold add16 bytesPerSec sectorNoOfFat1
    omega
  have hread : readSector (c * 3 / 2 / bytesPerSec + sectorNoOfFat1) 2 (baseOfKernel - 0x100) 0 s =
      .ok () (s.afterRead (fatRead c)) := by
    apply readSector_eq
    · unfold bytesPerSec sectorNoOfFat1 secPerTrk
      omega
    · decide
  have hget : (get : Prog Loader Loader) (s.afterRead (fatRead c)) =
      .ok (s.afterRead (fatRead c)) (s.afterRead (fatRead c)) := rfl
  have hlt := entry12_lt (fat s.disk) c
  rw [getFatEnt, if_neg hsmall, hsector, bind_of_ok hread, bind_of_ok hget,
    u16At_afterRead_fatRead]
  rcases Nat.mod_two_eq_zero_or_one c with h | h
  · have hodd : c * 3 % 2 = 0 := by omega
    rw [if_pos hodd, ← entry12_even h]
    rfl
  · have hodd : ¬ c * 3 % 2 = 0 := by omega
    rw [if_neg hodd, ← entry12_odd h, Nat.mod_eq_of_lt hlt]
    rfl

end Loader

def dataReads (rs : List SectorRead) : List SectorRead :=
  rs.filter fun r => baseOfKernelPhyAddr ≤ r.addr

/-- The sectors of the clusters in order, from place `k` on. -/
def chainReads : Nat → List Nat → List SectorRead
  | _, [] => []
  | k, c :: l => ⟨dataSector c, 1, sectorPlace k⟩ :: chainReads (k + 1) l

/-- The clusters `l` have been read from place `k` on, and nothing else besides the buffer for the
table has been written. -/
structure Loaded (k : Nat) (l : List Nat) (s s' : Loader) : Prop where
  disk : s'.disk = s.disk
  reads : dataReads s'.reads = dataReads s.reads ++ chainReads k l
  mem : ∀ i (hi : i < l.length), ∀ j < bytesPerSec,
    s'.mem (sectorPlace (k + i) + j) = s.disk (bytesPerSec * dataSector l[i] + j)
  outside : ∀ a, a < 0x1F000 ∨ 0x1F400 ≤ a ∧ a < sectorPlace k ∨ sectorPlace (k + l.length) ≤ a →
    s'.mem a = s.mem a

namespace Loader

variable {s s' : Loader} {es bx c e k fuel : Nat} {l : List Nat}

/-- The state when the sector of a cluster and its entry have been read. -/
def afterCluster (s : Loader) (k c : Nat) : Loader :=
  (s.afterRead ⟨dataSector c, 1, sectorPlace k⟩).afterRead (fatRead c)

theorem loaded_afterCluster (s : Loader) (k c : Nat) : Loaded k [c] s (s.afterCluster k c) := by
  have hfront : ∀ a, 0x1F400 ≤ a → (s.afterCluster k c).mem a =
      (s.afterRead ⟨dataSector c, 1, sectorPlace k⟩).mem a := by
    intro a ha
    apply copyBytes_of_ge
    simpa [fatRead, baseOfKernel, bytesPerSec] using ha
  refine ⟨rfl, ?_, ?_, ?_⟩
  · have hdata : baseOfKernelPhyAddr ≤ sectorPlace k := Nat.le_add_right _ _
    have htable : ¬ baseOfKernelPhyAddr ≤ (fatRead c).addr := by
      change ¬ baseOfKernelPhyAddr ≤ 16 * (baseOfKernel - 0x100)
      decide
    simp [dataReads, afterCluster, afterRead, chainReads, hdata, htable]
  · intro i hi j hj
    have hi0 : i = 0 := by simpa using hi
    subst hi0
    rw [Nat.add_zero, hfront]
    · exact copyBytes_add (by simpa using hj)
    · rw [sectorPlace_eq]
      omega
  · intro a ha
    have hplace := sectorPlace_eq k
    have hnext := sectorPlace_eq (k + 1)
    have hsector : a < sectorPlace k ∨ sectorPlace (k + 1) ≤ a →
        (s.afterRead ⟨dataSector c, 1, sectorPlace k⟩).mem a = s.mem a := by
      rintro (hlt | hge)
      · exact copyBytes_of_lt hlt
      · apply copyBytes_of_ge
        change sectorPlace k + 512 * 1 ≤ a
        omega
    rcases ha with hlt | ⟨hge, hlt⟩ | hge
    · have htable : (s.afterCluster k c).mem a =
          (s.afterRead ⟨dataSector c, 1, sectorPlace k⟩).mem a := by
        apply copyBytes_of_lt
        simpa [fatRead, baseOfKernel] using hlt
      rw [htable, hsector (.inl (by omega))]
    · rw [hfront a hge, hsector (.inl hlt)]
    · have hge' : sectorPlace (k + 1) ≤ a := hge
      rw [hfront a (by omega), hsector (.inr hge')]

theorem loaded_cons (h : Loaded k [c] s s') {s'' : Loader} (hrest : Loaded (k + 1) l s' s'') :
    Loaded k (c :: l) s s'' := by
  have hplace := sectorPlace_eq k
  have hnext := sectorPlace_eq (k + 1)
  refine ⟨hrest.disk.trans h.disk, ?_, ?_, ?_⟩
  · rw [hrest.reads, h.reads, List.append_assoc]
    rfl
  · intro i hi j hj
    cases i with
    | zero =>
      have hj' : j < 512 := hj
      rw [Nat.add_zero, hrest.outside _ (.inr (.inl ⟨by omega, by omega⟩))]
      exact h.mem 0 (by simp) j hj
    | succ i =>
      have hk : k + (i + 1) = k + 1 + i := by omega
      rw [hk, hrest.mem i (by simpa using hi) j hj, h.disk]
      rfl
  · intro a ha
    have hlen : k + (c :: l).length = k + 1 + l.length := by
      rw [List.length_cons]
      omega
    have hend := sectorPlace_eq (k + 1 + l.length)
    rw [hlen] at ha
    rw [hrest.outside a, h.outside a]
    · change a < 0x1F000 ∨ 0x1F400 ≤ a ∧ a < sectorPlace k ∨ sectorPlace (k + 1) ≤ a
      omega
    · omega

theorem add16_sector (he : e < 0x1000) :
    add16 (add16 e rootDirSectors) deltaSecNo = dataSector e := by
  unfold add16 dataSector rootDirSectors deltaSecNo
  omega

theorem cluster_run (hc : c < 0x1000) (hplace : 16 * es + bx = sectorPlace k)
    (hk : k < sectorRoom) :
    ∀ {α : Type} (f : Nat → Prog Loader α),
      ((readSector (dataSector c) 1 es bx) >>= fun _ => (getFatEnt c >>= f)) s =
        f (entry12 (fat s.disk) c) (s.afterCluster k c) := by
  intro α f
  have hroom : k < 896 := hk
  have hsector : dataSector c / secPerTrk < 0x100 := by
    unfold dataSector rootDirSectors deltaSecNo secPerTrk
    omega
  have hfits : 16 * es + bx + bytesPerSec * 1 ≤ baseOfLoaderPhyAddr := by
    change 16 * es + bx + 512 * 1 ≤ 0x90000
    rw [hplace, sectorPlace_eq]
    omega
  rw [bind_of_ok (readSector_eq hsector hfits), bind_of_ok (getFatEnt_eq hc), hplace]
  rfl

/-- By induction on the fuel: a run that returns has followed a chain of clusters that fits, and a
chain that fits stops it only where the fuel is short. -/
theorem loadOneSec_spec (hc : c < 0x1000) (hplace : 16 * es + bx = sectorPlace k)
    (hbx : bx < 0x10000) (hk : k ≤ sectorRoom) :
    wp (loadOneSec fuel (dataSector c) es bx c)
      (fun _ s' => ∃ l, Linked (nextLoaded s.disk) (some c) l ∧ k + l.length ≤ sectorRoom ∧
        Loaded k l s s')
      (fun w _ => ∀ l, Linked (nextLoaded s.disk) (some c) l →
        w = .hang ∧ fuel < l.length ∨ w = .undefined ∧ sectorRoom < k + l.length) s := by
  have hnonempty : ∀ {d l}, Linked (nextLoaded s.disk) (some d) l → 0 < l.length := by
    intro d l hl
    cases l with
    | nil => cases hl
    | cons _ _ => exact Nat.succ_pos _
  induction fuel generalizing s c es bx k with
  | zero =>
    intro l hl
    exact .inl ⟨rfl, hnonempty hl⟩
  | succ fuel ih =>
    rcases Nat.lt_or_ge k sectorRoom with hroom | hfull
    · rw [loadOneSec, wp_of_run_eq (cluster_run hc hplace hroom _)]
      have hloaded := loaded_afterCluster s k c
      have hent := entry12_lt (fat s.disk) c
      by_cases hend : entry12 (fat s.disk) c = 0xFFF
      · have hnone : nextLoaded s.disk c = none := if_pos hend
        rw [if_pos hend, wp_pure]
        exact ⟨[c], ⟨rfl, hnone⟩, hroom, hloaded⟩
      · have hnext : nextLoaded s.disk c = some (entry12 (fat s.disk) c) := if_neg hend
        have hk' : k < 896 := hroom
        have hplace' : 16 * es + bx = 0x20000 + 512 * k := hplace
        rw [if_neg hend, add16_sector hent]
        have hstep : 16 * (if 0x10000 ≤ bx + bytesPerSec then add16 es 0x1000 else es) +
            add16 bx bytesPerSec = sectorPlace (k + 1) := by
          rw [sectorPlace_eq]
          unfold add16 bytesPerSec
          split <;> omega
        have hbx' : add16 bx bytesPerSec < 0x10000 := Nat.mod_lt _ (by decide)
        have hrest := @ih (s.afterCluster k c) _ _ (entry12 (fat s.disk) c) _ hent hstep hbx'
          (Nat.succ_le_of_lt hroom) fun hl => hnonempty hl
        apply wp_mono hrest
        · rintro _ s' ⟨l, hl, hlen, hl'⟩
          refine ⟨c :: l, ⟨rfl, hnext ▸ hl⟩, ?_, loaded_cons hloaded hl'⟩
          rw [List.length_cons]
          omega
        · intro w _ hE l hl
          cases l with
          | nil => cases hl
          | cons d l =>
            have hd : d = c := (Option.some.inj hl.1).symm
            have hl' : Linked (nextLoaded s.disk) (some (entry12 (fat s.disk) c)) l := by
              rw [← hnext, ← hd]
              exact hl.2
            rw [List.length_cons]
            rcases hE l hl' with ⟨hw, hlt⟩ | ⟨hw, hlt⟩
            · exact .inl ⟨hw, by omega⟩
            · exact .inr ⟨hw, by omega⟩
    · have hk' : k = sectorRoom := Nat.le_antisymm hk hfull
      have hsector : dataSector c / secPerTrk < 0x100 := by
        unfold dataSector rootDirSectors deltaSecNo secPerTrk
        omega
      have hover : baseOfLoaderPhyAddr < 16 * es + bx + bytesPerSec * 1 := by
        rw [hplace, hk']
        decide
      rw [loadOneSec, wp_bind]
      unfold wp
      rw [readSector_over hsector hover]
      intro l hl
      have hpos := hnonempty hl
      exact .inr ⟨rfl, by omega⟩

theorem chainReads_inj {l' : List Nat} (h : chainReads k l = chainReads k l') : l = l' := by
  induction l generalizing k l' with
  | nil =>
    cases l' with
    | nil => rfl
    | cons _ _ => cases h
  | cons c l ih =>
    cases l' with
    | nil => cases h
    | cons d l' =>
      obtain ⟨hread, hrest⟩ := List.cons.inj h
      have hsector : dataSector c = dataSector d := congrArg SectorRead.sector hread
      unfold dataSector at hsector
      have hcd : c = d := by omega
      rw [hcd, ih hrest]

/-- The loader runs along the whole chain and no further if its last entry is `0xFFF`. -/
theorem linked_nextLoaded_iff {disk : Bytes} (hl : Linked (fatNext disk) (some c) l) :
    Linked (nextLoaded disk) (some c) l ↔
      l.getLast?.map (entry12 (fat disk)) = some 0xFFF := by
  induction l generalizing c with
  | nil => cases hl
  | cons d l ih =>
    obtain ⟨hd, hl⟩ := hl
    have hcd : c = d := Option.some.inj hd
    subst hcd
    cases l with
    | nil =>
      have hlast : nextLoaded disk c = none ↔ entry12 (fat disk) c = 0xFFF := by
        unfold nextLoaded
        split <;> simp_all
      simpa using hlast
    | cons e l =>
      have hnext : fatNext disk c = some e := hl.1
      have hent : ¬ 0xFF8 ≤ entry12 (fat disk) c := by
        intro hend
        rw [fatNext, if_pos hend] at hnext
        cases hnext
      have he : entry12 (fat disk) c = e := by
        rw [fatNext, if_neg hent] at hnext
        exact Option.some.inj hnext
      have hloaded : nextLoaded disk c = some e := by
        rw [nextLoaded, if_neg (by omega), he]
      rw [hnext] at hl
      rw [List.getLast?_cons_cons, ← ih hl, linked_cons, hloaded]
      exact and_iff_right rfl

/-- The loader reads the sectors of the chain to their places and stops. -/
def LoadsChain (s : Loader) (c : Nat) (l : List Nat) : Prop :=
  ∃ fuel s', loaderFound fuel c s = .ok () s' ∧ Loaded 0 l s s'

theorem loadsChain_iff (hc : c < 0x1000) (hl : Linked (fatNext s.disk) (some c) l) :
    LoadsChain s c l ↔
      l.getLast?.map (entry12 (fat s.disk)) = some 0xFFF ∧ l.length ≤ sectorRoom := by
  have hstart : add16 (add16 rootDirSectors c) deltaSecNo = dataSector c := by
    unfold add16 dataSector rootDirSectors deltaSecNo
    omega
  have hspec := fun fuel => @loadOneSec_spec s baseOfKernel offsetOfKernel c 0 fuel hc rfl
    (by decide) (Nat.zero_le _)
  constructor
  · rintro ⟨fuel, s', hrun, hloaded⟩
    rw [loaderFound, hstart] at hrun
    obtain ⟨l', hl', hlen, hloaded'⟩ := wp_ok (hspec fuel) hrun
    have hreads := hloaded.reads
    rw [hloaded'.reads] at hreads
    have heq : l' = l := chainReads_inj (List.append_cancel_left hreads)
    rw [heq] at hl' hlen
    rw [Nat.zero_add] at hlen
    exact ⟨(linked_nextLoaded_iff hl).mp hl', hlen⟩
  · rintro ⟨hlast, hlen⟩
    have hl' := (linked_nextLoaded_iff hl).mpr hlast
    have hok : wp (loadOneSec l.length (dataSector c) baseOfKernel offsetOfKernel c)
        (fun _ s' => ∃ l, Linked (nextLoaded s.disk) (some c) l ∧ Loaded 0 l s s')
        (fun _ _ => False) s := by
      apply wp_mono (hspec l.length)
      · rintro _ s' ⟨l', hl', -, hloaded⟩
        exact ⟨l', hl', hloaded⟩
      · intro w _ hE
        rcases hE l hl' with ⟨-, hlt⟩ | ⟨-, hlt⟩ <;> omega
    obtain ⟨_, s', hrun, l', hl'', hloaded⟩ := exists_ok_of_wp hok
    rw [hl''.unique hl'] at hloaded
    refine ⟨l.length, s', ?_, hloaded⟩
    rw [loaderFound, hstart]
    exact hrun

/-- `GET_FAT_ENT` finds every entry of the table, and a chain of clusters is loaded if and only if
its end is marked by `0xFFF` and it fits in front of the loader. -/
theorem loader_follows_chain (s : Loader) :
    (∀ c < 0x1000, getFatEnt c s = .ok (entry12 (fat s.disk) c) (s.afterRead (fatRead c))) ∧
      ∀ c l, c < 0x1000 → Linked (fatNext s.disk) (some c) l →
        (LoadsChain s c l ↔
          l.getLast?.map (entry12 (fat s.disk)) = some 0xFFF ∧ l.length ≤ sectorRoom) :=
  ⟨fun _ hc => getFatEnt_eq hc, fun _ _ hc hl => loadsChain_iff hc hl⟩

def tableDisk (f : Nat → Nat) : Bytes := fun i => pack12 f (i - bytesPerSec * sectorNoOfFat1)

theorem entry12_tableDisk (f : Nat → Nat) (c : Nat) :
    entry12 (fat (tableDisk f)) c = f c % 4096 := by
  have hfat : fat (tableDisk f) = pack12 f := by
    funext i
    rw [fat, tableDisk, Nat.add_sub_cancel_left]
  rw [hfat, entry12_pack12]

def booted (f : Nat → Nat) : Loader := { disk := tableDisk f, mem := fun _ => 0 }

theorem booted_disk (f : Nat → Nat) : (booted f).disk = tableDisk f := by
  rw [booted]

theorem fatNext_tableDisk (f : Nat → Nat) (c : Nat) :
    fatNext (tableDisk f) c = if 0xFF8 ≤ f c % 4096 then none else some (f c % 4096) := by
  rw [fatNext, entry12_tableDisk]

def shortTable (c : Nat) : Nat := if c = 2 then 3 else 0xFFF

theorem loads_shortTable : LoadsChain (booted shortTable) 2 [2, 3] := by
  have hnext : fatNext (tableDisk shortTable) 2 = some 3 := by
    rw [fatNext_tableDisk]
    decide
  have hend : fatNext (tableDisk shortTable) 3 = none := by
    rw [fatNext_tableDisk]
    decide
  have hlast : entry12 (fat (booted shortTable).disk) 3 = 0xFFF := by
    rw [booted_disk, entry12_tableDisk]
    decide
  have hl : Linked (fatNext (booted shortTable).disk) (some 2) [2, 3] := by
    rw [booted_disk, linked_cons, hnext, linked_cons, hend]
    exact ⟨rfl, rfl, rfl⟩
  apply ((loader_follows_chain (booted shortTable)).2 2 [2, 3] (by decide) hl).mpr
  exact ⟨congrArg some hlast, by decide⟩

def longTable (c : Nat) : Nat := if c < 898 then c + 1 else 0xFFF

theorem linked_longTable (n : Nat) (c : Nat) (hn : c + n = 898) :
    Linked (fatNext (tableDisk longTable)) (some c) (List.range' c (n + 1)) := by
  induction n generalizing c with
  | zero =>
    have hval : longTable c = 0xFFF := if_neg (by omega)
    have hend : fatNext (tableDisk longTable) c = none := by
      rw [fatNext_tableDisk, hval]
      decide
    exact ⟨rfl, hend⟩
  | succ n ih =>
    have hval : longTable c = c + 1 := if_pos (by omega)
    have hmod : (c + 1) % 4096 = c + 1 := Nat.mod_eq_of_lt (by omega)
    have hnext : fatNext (tableDisk longTable) c = some (c + 1) := by
      rw [fatNext_tableDisk, hval, hmod, if_neg (by omega)]
    rw [List.range'_succ, linked_cons, hnext]
    exact ⟨rfl, ih (c + 1) (by omega)⟩

/-- The end mark `0xFF8` is taken for a cluster, and a sector more than there is room for goes over
the loader. -/
theorem chains_not_loaded :
    (Linked (fatNext (tableDisk fun _ => 0xFF8)) (some 2) [2] ∧
      ¬ LoadsChain (booted fun _ => 0xFF8) 2 [2]) ∧
    (Linked (fatNext (tableDisk longTable)) (some 2) (List.range' 2 897) ∧
      ¬ LoadsChain (booted longTable) 2 (List.range' 2 897)) := by
  have hshort : Linked (fatNext (tableDisk fun _ => 0xFF8)) (some 2) [2] := by
    rw [linked_cons, fatNext_tableDisk]
    exact ⟨rfl, rfl⟩
  have hlong := linked_longTable 896 2 rfl
  refine ⟨⟨hshort, ?_⟩, hlong, ?_⟩
  · intro h
    rw [← booted_disk] at hshort
    have hlast := ((loadsChain_iff (by decide) hshort).mp h).1
    have hent : entry12 (fat (booted fun _ => 0xFF8).disk) 2 = 0xFFF := Option.some.inj hlast
    rw [booted_disk, entry12_tableDisk] at hent
    exact absurd hent (by decide)
  · intro h
    rw [← booted_disk] at hlong
    have hlen := ((loadsChain_iff (by decide) hlong).mp h).2
    rw [List.length_range'] at hlen
    exact absurd hlen (by decide)

end Loader

end BazingaOS
