import BazingaOS.FS.Mkfs
import BazingaOS.FS.RwSector
import BazingaOS.FS.Sector

/-!
# The size of the partition

`set_superblock` asks the disk driver for the position and the size of the partition. Its message
and the `struct part_info` for the answer are on its stack, and the message keeps what was there in
the fields that are not set. The driver writes the answer to a linear address: that of `BUF` in the
data segment of the process that `PROC_NR` names.
-/

namespace BazingaOS

open Prog

/-- The linear memory. -/
abbrev LinearMem := BitVec 32 → UInt8

namespace LinearMem

/-- `l` in the memory from `a` on; addresses wrap around. -/
def put (m : LinearMem) (a : BitVec 32) (l : List UInt8) : LinearMem :=
  fun x => (l[(x - a).toNat]?).getD (m x)

def view (m : LinearMem) (a : BitVec 32) : Bytes := fun i => m (a + BitVec.ofNat 32 i)

end LinearMem

/-- `hd_info`, the memory, and the base of the segment `INDEX_LDT_RW` of each process. -/
structure HdMemory where
  hd : Hd
  mem : LinearMem
  ldtBase : Pid → BitVec 32

namespace HD

def onHd {α : Type} (q : Prog Hd α) : Prog HdMemory α := fun s =>
  match q s.hd with
  | .ok a hd => .ok a { s with hd }
  | .stop w hd => .stop w { s with hd }

/-- An entry in front of the process table or behind it is undefined. -/
def va2la (pid : Int) (va : BitVec 32) : Prog HdMemory (BitVec 32) := do
  let p ← onHd (procOf pid)
  let la := va + (← get).ldtBase p
  when (pid < nrTasks + nrNativeProcs) (check (la = va))
  return la

/-- `hd_ioctl`, with its addresses; `hdi` is the address of the partition in `hd_info`. -/
def hdIoctlAt (hdi : BitVec 32) (msg : Message) : Prog HdMemory Unit := do
  if drvOfDev msg.m3i4 ≠ 0 then halt .undefined
  else
    check (msg.m3i2 = 1)
    let dst ← va2la msg.m3i3 (BitVec.ofNat 32 msg.m3p2)
    let part ← onHd (partOf msg.m3i4)
    let _ ← va2la taskHd.val hdi
    modify fun s => { s with mem := s.mem.put dst (u32Bytes part.base ++ u32Bytes part.size) }

end HD

def partInfoAt (m : Bytes) (a : Nat) : PartInfo := ⟨u32At m a, u32At m (a + 4)⟩

namespace FS

/-- The message of `set_superblock`, on top of what the stack had in its place. -/
def geoRequest (stack : Message) (geo : BitVec 32) : Message :=
  { stack with
    type := .devIoctl
    m3i2 := 1
    m3p2 := geo.toNat
    m3i4 := rootDev % 256 }

/-- The exchange with the driver: what it leaves in `geo`. -/
def askGeo (hdi : BitVec 32) (stack : Message) (geo : BitVec 32) : Prog HdMemory PartInfo := do
  HD.hdIoctlAt hdi (geoRequest stack geo)
  return partInfoAt ((← get).mem.view geo) 0

/-- A run of `set_superblock` from the file system `s` to `s'` whose `geo` is `g` in between. -/
def Superblocks (hdi : BitVec 32) (m : HdMemory) (stack : Message) (geo : BitVec 32) (s s' : Fs)
    (g : PartInfo) : Prop :=
  ∃ m', askGeo hdi stack geo m = .ok g m' ∧ setSuperblock g.size s = .ok () s'

end FS

namespace LinearMem

variable {m : LinearMem} {a b : BitVec 32} {l : List UInt8}

theorem put_add {i : Nat} (hi : i < l.length) (hlen : l.length < 2 ^ 32) :
    m.put a l (a + BitVec.ofNat 32 i) = l[i] := by
  have hsub : (a + BitVec.ofNat 32 i - a).toNat = i := by
    bv_omega
  rw [put, hsub, List.getElem?_eq_getElem hi, Option.getD_some]

theorem put_of_ge {x : BitVec 32} (h : l.length ≤ (x - a).toNat) : m.put a l x = m x := by
  rw [put, List.getElem?_eq_none h, Option.getD_none]

theorem view_put (hlen : l.length < 2 ^ 32) {i : Nat} (hi : i < l.length) :
    (m.put a l).view a i = l[i] := put_add hi hlen

end LinearMem

namespace HD

variable {α : Type} {s : HdMemory} {E : Stop → HdMemory → Prop}

theorem wp_onHd {q : Prog Hd α} {Q : α → HdMemory → Prop} : wp (onHd q) Q E s ↔
    wp q (fun a hd => Q a { s with hd }) (fun w hd => E w { s with hd }) s.hd := by
  unfold wp onHd
  cases q s.hd <;> rfl

/-- The segments of the tasks and of the native processes begin at 0. -/
def Flat (ldtBase : Pid → BitVec 32) : Prop :=
  ∀ p : Pid, p.val < nrTasks + nrNativeProcs → ldtBase p = 0

theorem va2la_ok (h : Flat s.ldtBase) (p : Pid) (va : BitVec 32) :
    wp (va2la p.val va) (fun la s' => la = va + s.ldtBase p ∧ s' = s) (fun _ _ => False) s := by
  have hproc : procOf p.val s.hd = .ok p s.hd := by
    have hlt : 0 ≤ (p.val : Int) ∧ (p.val : Int).toNat < nrSlots := ⟨by omega, p.isLt⟩
    rw [procOf, dif_pos hlt]
    rfl
  rw [va2la, wp_bind, wp_onHd, wp, hproc]
  dsimp only
  simp only [wp_bind, wp_get, wp_when, wp_check, wp_pure]
  refine ⟨fun hp => ⟨fun _ => ⟨trivial, trivial⟩, fun hne => hne ?_⟩, fun _ => ⟨trivial, trivial⟩⟩
  rw [h p (by omega)]
  exact BitVec.add_zero va

theorem va2la_outside {nr : Int} (h : ¬ ∃ p : Pid, nr = p.val) (va : BitVec 32) :
    wp (va2la nr va) (fun _ _ => False) (fun _ _ => True) s := by
  have hproc : procOf nr s.hd = .stop .undefined s.hd := by
    have hlt : ¬ (0 ≤ nr ∧ nr.toNat < nrSlots) := by
      rintro ⟨hz, hlt⟩
      exact h ⟨⟨nr.toNat, hlt⟩, (Int.toNat_of_nonneg hz).symm⟩
    rw [procOf, dif_neg hlt]
    rfl
  rw [va2la, wp_bind, wp_onHd, wp, hproc]
  trivial

end HD

namespace FS

variable {s : HdMemory} {hdi geo : BitVec 32} {stack : Message}

theorem askGeo_ok (h : HD.Flat s.ldtBase) (p : Pid) (hp : stack.m3i3 = p.val) :
    wp (askGeo hdi stack geo) (fun g _ =>
      g = partInfoAt ((s.mem.put (geo + s.ldtBase p)
        (u32Bytes (HD.rootPart s.hd).base ++ u32Bytes (HD.rootPart s.hd).size)).view geo) 0)
      (fun _ _ => False) s := by
  unfold askGeo HD.hdIoctlAt geoRequest
  dsimp only
  rw [wp_bind, wp_ite]
  refine ⟨fun hdrv => absurd rfl hdrv, fun _ => ?_⟩
  rw [wp_bind, wp_check]
  refine ⟨fun _ => ?_, fun h => absurd rfl h⟩
  rw [hp, wp_bind]
  refine wp_mono (HD.va2la_ok h p _) ?_ (fun _ _ h => h)
  rintro dst s₁ ⟨rfl, rfl⟩
  rw [wp_bind, HD.wp_onHd, HD.wp_partOf_root, wp_bind]
  refine wp_mono (HD.va2la_ok h taskHd hdi) ?_ (fun _ _ h => h)
  rintro _ s₂ ⟨-, rfl⟩
  simp only [wp_modify, wp_bind, wp_get, wp_pure, BitVec.ofNat_toNat, BitVec.setWidth_eq]

theorem askGeo_outside (hp : ¬ ∃ p : Pid, stack.m3i3 = p.val) :
    wp (askGeo hdi stack geo) (fun _ _ => False) (fun _ _ => True) s := by
  unfold askGeo HD.hdIoctlAt geoRequest
  dsimp only
  rw [wp_bind, wp_ite]
  refine ⟨fun hdrv => absurd rfl hdrv, fun _ => ?_⟩
  rw [wp_bind, wp_check]
  refine ⟨fun _ => ?_, fun h => absurd rfl h⟩
  rw [wp_bind]
  exact wp_mono (HD.va2la_outside hp _) (fun _ _ h => h.elim) (fun _ _ _ => trivial)

/-- The process that the message names has a data segment that begins at 0. -/
def NamesFlat (ldtBase : Pid → BitVec 32) (stack : Message) : Prop :=
  ∃ p : Pid, stack.m3i3 = p.val ∧ ldtBase p = 0

theorem u32Bytes_u32At (m : Bytes) (a : Nat) :
    u32Bytes (u32At m a) = [m a, m (a + 1), m (a + 2), m (a + 3)] := by
  have h₀ := (m a).toNat_lt
  have h₁ := (m (a + 1)).toNat_lt
  have h₂ := (m (a + 2)).toNat_lt
  have h₃ := (m (a + 3)).toNat_lt
  simp only [u32Bytes, u32At, List.cons.injEq, and_true, ← UInt8.toNat_inj, UInt8.toNat_ofNat']
  omega

theorem partInfoAt_iff {i : PartInfo} (hbase : i.base < 2 ^ 32) (hsize : i.size < 2 ^ 32)
    (m : Bytes) : partInfoAt m 0 = i ↔
      ∀ k (hk : k < 8), m k = (u32Bytes i.base ++ u32Bytes i.size)[k] := by
  constructor
  · intro h k hk
    rw [← h, partInfoAt]
    simp only [u32Bytes_u32At]
    interval_cases k <;> rfl
  · intro h
    have hbytes : ∀ k, k < 8 → m k = putBytes m 0 ([i.base, i.size].flatMap u32Bytes) k := by
      intro k hk
      have hput := putBytes_add (m := m) (k := 0) (l := [i.base, i.size].flatMap u32Bytes) hk
      rw [Nat.zero_add] at hput
      rw [hput, h k hk]
      rfl
    have hfirst := @u32At_flatMap m 0 [i.base, i.size] 0 (Nat.zero_lt_two) hbase
    have hsecond := @u32At_flatMap m 0 [i.base, i.size] 1 (Nat.one_lt_two) hsize
    have hb : u32At m 0 = i.base := by
      refine Eq.trans ?_ hfirst
      exact u32At_congr fun k _ hk => hbytes k (by omega)
    have hs : u32At m 4 = i.size := by
      refine Eq.trans ?_ hsecond
      exact u32At_congr fun k _ hk => hbytes k (by omega)
    rw [partInfoAt, hb, hs]

theorem exists_kept_byte {base : BitVec 32} (h : base ≠ 0) :
    ∃ k, k < 8 ∧ 8 ≤ (geo + BitVec.ofNat 32 k - (geo + base)).toNat := by
  by_cases hlow : 8 ≤ (0 - base).toNat
  · refine ⟨0, by omega, ?_⟩
    bv_omega
  · refine ⟨7, by omega, ?_⟩
    bv_omega

/-- Whatever the memory holds, `geo` is the partition behind the exchange exactly if the message
names a process whose data segment begins at 0. -/
theorem askGeo_iff {hd : Hd} {ldtBase : Pid → BitVec 32} (hflat : HD.Flat ldtBase)
    (hbase : (HD.rootPart hd).base < 2 ^ 32) (hsize : (HD.rootPart hd).size < 2 ^ 32) :
    (∀ mem, ∃ m', askGeo hdi stack geo ⟨hd, mem, ldtBase⟩ = .ok (HD.rootPart hd) m') ↔
      NamesFlat ldtBase stack := by
  have hlen : (u32Bytes (HD.rootPart hd).base ++ u32Bytes (HD.rootPart hd).size).length = 8 := rfl
  constructor
  · intro h
    by_cases hp : ∃ p : Pid, stack.m3i3 = p.val
    · obtain ⟨p, hp⟩ := hp
      refine ⟨p, hp, ?_⟩
      by_contra hne
      obtain ⟨k, hk, hkept⟩ := @exists_kept_byte geo _ hne
      -- a memory whose byte `k` of `geo` is not that of the partition
      obtain ⟨m', hok⟩ := h fun _ =>
        (u32Bytes (HD.rootPart hd).base ++ u32Bytes (HD.rootPart hd).size)[k] + 1
      have hg := wp_ok (@askGeo_ok ⟨hd, _, ldtBase⟩ hdi geo stack hflat p hp) hok
      have hbyte := (partInfoAt_iff hbase hsize _).mp hg.symm k hk
      rw [LinearMem.view, LinearMem.put_of_ge (by rw [hlen]; exact hkept)] at hbyte
      simp at hbyte
    · obtain ⟨m', hok⟩ := h fun _ => 0
      exact (wp_ok (askGeo_outside hp) hok).elim
  · rintro ⟨p, hp, hzero⟩ mem
    obtain ⟨g, m', hok, hg⟩ :=
      exists_ok_of_wp (@askGeo_ok ⟨hd, mem, ldtBase⟩ hdi geo stack hflat p hp)
    refine ⟨m', ?_⟩
    rw [hok, hg]
    congr 1
    refine (partInfoAt_iff hbase hsize _).mpr ?_
    intro k hk
    have haddr : geo + ldtBase p = geo := by
      rw [hzero]
      exact BitVec.add_zero geo
    dsimp only
    rw [haddr, LinearMem.view_put (by rw [hlen]; decide) hk]

def noDisk : Fs := { disk := fun _ => 0, fsbuf := fun _ => 0 }

theorem setSuperblock_ok (size : Nat) (s : Fs) : ∃ s', setSuperblock size s = .ok () s' := by
  have h : wp (setSuperblock size) (fun _ _ => True) (fun _ _ => False) s := by
    have hpos : sectorSize * 1 < 2 ^ 31 := by decide
    simp only [setSuperblock, wp_bind, wp_modify, wp_setBuf, wp_get, wp_wrSect hpos]
  obtain ⟨_, s', hok, -⟩ := exists_ok_of_wp h
  exact ⟨s', hok⟩

/-- Whatever two stacks hold besides their messages, both runs see the partition and leave the same
file system. -/
def SameFormat (hd : Hd) (ldtBase : Pid → BitVec 32) (hdi geo : BitVec 32) (x y : Message) : Prop :=
  ∀ memx memy s, ∃ s', Superblocks hdi ⟨hd, memx, ldtBase⟩ x geo s s' (HD.rootPart hd) ∧
    Superblocks hdi ⟨hd, memy, ldtBase⟩ y geo s s' (HD.rootPart hd)

/-- Two runs format alike exactly if what is left in the field `PROC_NR` of each message names a
process whose data segment begins at 0. -/
theorem sameFormat_iff {hd : Hd} {ldtBase : Pid → BitVec 32}
    (hflat : HD.Flat ldtBase) (hbase : (HD.rootPart hd).base < 2 ^ 32)
    (hsize : (HD.rootPart hd).size < 2 ^ 32) (x y : Message) :
    SameFormat hd ldtBase hdi geo x y ↔ NamesFlat ldtBase x ∧ NamesFlat ldtBase y := by
  rw [← @askGeo_iff hdi geo x _ _ hflat hbase hsize, ← @askGeo_iff hdi geo y _ _ hflat hbase hsize]
  constructor
  · intro h
    constructor
    · intro mem
      obtain ⟨_, ⟨m', hok, -⟩, -⟩ := h mem mem noDisk
      exact ⟨m', hok⟩
    · intro mem
      obtain ⟨_, -, m', hok, -⟩ := h mem mem noDisk
      exact ⟨m', hok⟩
  · rintro ⟨hx, hy⟩ memx memy s
    obtain ⟨mx, hokx⟩ := hx memx
    obtain ⟨my, hoky⟩ := hy memy
    obtain ⟨s', hs'⟩ := setSuperblock_ok (HD.rootPart hd).size s
    exact ⟨s', ⟨mx, hokx, hs'⟩, my, hoky, hs'⟩

def geoHd : Hd where
  logical := fun _ => ⟨2048, 65536⟩
  sectors := fun _ _ => 0

/-- One stack holds the number of the file system task where `PROC_NR` is, the other that of the
memory manager. -/
theorem sameFormat_tasks :
    SameFormat geoHd (fun _ => 0) 0 0x1000 { m3i3 := 3 } { m3i3 := 4 } :=
  (sameFormat_iff (fun _ _ => rfl) (by decide) (by decide) _ _).mpr
    ⟨⟨taskFs, rfl, rfl⟩, ⟨taskMm, rfl, rfl⟩⟩

/-- One stack holds 1000 where `PROC_NR` is, an entry far behind the process table. -/
theorem stale_proc_nr_not_sameFormat :
    ¬ SameFormat geoHd (fun _ => 0) 0 0x1000 { m3i3 := 3 } { m3i3 := 1000 } := by
  intro h
  obtain ⟨_, -, m', hok, -⟩ := h (fun _ => 0) (fun _ => 0) noDisk
  refine (wp_ok (askGeo_outside ?_) hok).elim
  rintro ⟨p, hp⟩
  have hlt : p.val < 37 := p.isLt
  dsimp only at hp
  omega

end FS

end BazingaOS
