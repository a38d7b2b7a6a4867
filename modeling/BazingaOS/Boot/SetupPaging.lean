import BazingaOS.Lib.Int32
import BazingaOS.Lib.PageWalk
import BazingaOS.Lib.Prog

/-!
# Paging

`SetupPaging` of `boot/loader.asm` fills one page directory and as many page tables as the memory
needs, a last one included that it only needs in part. Registers are numbers below `2 ^ 32`; the
number of the tables is on the stack of the loader, which is apart from the memory.
-/

namespace BazingaOS

open Prog

def pageDirBase : Nat := 0x200000
def pageTblBase : Nat := 0x201000
def pgP : Nat := 1
def pgRww : Nat := 2
def pgUsu : Nat := 4

/-- `stored` has the addresses of the entries that have been written, in order. -/
structure Paging where
  mem : Bytes
  cr0 : Nat
  cr3 : Nat
  stored : List Nat := []

namespace SetupPaging

def stosd (edi eax : Nat) : Prog Paging Unit :=
  modify fun s => { s with
    mem := putBytes s.mem edi (u32Bytes eax)
    stored := s.stored ++ [edi] }

/-- The two loops of the routine, which differ in their registers only. -/
def fill : Nat → Nat → Nat → Prog Paging Unit
  | 0, _, _ => pure ()
  | ecx + 1, edi, eax => do
    stosd edi eax
    fill ecx (add32 edi 4) (add32 eax 4096)

/-- `loop` decrements its counter before it tests it. -/
def rounds (ecx : Nat) : Nat := if ecx = 0 then 0x100000000 else ecx

def setupPaging (dwMemSize : Nat) : Prog Paging Unit := do
  let eax := dwMemSize / 0x400000
  let edx := dwMemSize % 0x400000
  let ecx := if edx = 0 then eax else add32 eax 1
  fill (rounds ecx) pageDirBase (pageTblBase ||| pgP ||| pgUsu ||| pgRww)
  fill (rounds (ecx * 1024 % 2 ^ 32)) pageTblBase (pgP ||| pgUsu ||| pgRww)
  modify fun s => { s with cr3 := pageDirBase, cr0 := s.cr0 ||| 0x80000000 }

end SetupPaging

/-- The address `a` is that of none of the `n` words from `base` on. -/
def OutsideWords (base n a : Nat) : Prop := a < base ∨ base + 4 * n ≤ a

/-- Paging is on, and every address below `memSize` is mapped to itself with all rights, by one
directory entry for 4 MB and 1024 table entries for each of them. -/
structure IdentityPaged (memSize : Nat) (s s' : Paging) : Prop where
  enabled : s'.cr0.testBit 31 = true
  translate : ∀ la < memSize, pageWalk s'.mem s'.cr3 la = some ⟨la, true, true⟩
  stored : s'.stored = s.stored ++ List.range' pageDirBase (memSize ⌈/⌉ 0x400000) 4 ++
    List.range' pageTblBase (1024 * (memSize ⌈/⌉ 0x400000)) 4
  others : ∀ a, OutsideWords pageDirBase (memSize ⌈/⌉ 0x400000) a →
    OutsideWords pageTblBase (1024 * (memSize ⌈/⌉ 0x400000)) a → s'.mem a = s.mem a

def Paging.filled (s : Paging) (base : Nat) (l : List Nat) : Paging :=
  { s with
    mem := putBytes s.mem base (l.flatMap u32Bytes)
    stored := s.stored ++ List.range' base l.length 4 }

section Words

variable {base a k : Nat} {l : List Nat} {m : Bytes}

theorem flatMap_u32Bytes_length (l : List Nat) : (l.flatMap u32Bytes).length = 4 * l.length := by
  induction l with
  | nil => rfl
  | cons x l ih =>
    rw [List.flatMap_cons, List.length_append, u32Bytes_length, ih, List.length_cons]
    omega

theorem putBytes_outsideWords (h : OutsideWords base l.length a) :
    putBytes m base (l.flatMap u32Bytes) a = m a := by
  rcases h with hlt | hge
  · exact putBytes_of_lt hlt
  · apply putBytes_of_ge
    rw [flatMap_u32Bytes_length]
    exact hge

theorem u32At_range' {first n step : Nat} (hk : k < n) (hlt : first + step * k < 2 ^ 32) :
    u32At (putBytes m base ((List.range' first n step).flatMap u32Bytes)) (base + 4 * k) =
      first + step * k := by
  have hlen : k < (List.range' first n step).length := by rwa [List.length_range']
  have hget : (List.range' first n step)[k] = first + step * k := List.getElem_range' hlen
  rw [u32At_flatMap hlen (hget ▸ hlt), hget]

end Words

namespace SetupPaging

/-- A loop whose registers do not wrap around while there are entries to store. -/
theorem fill_eq {ecx edi eax : Nat} {s : Paging} (hedi : edi + 4 * ecx < 2 ^ 32)
    (heax : ∀ k < ecx, eax + 4096 * k < 2 ^ 32) :
    fill ecx edi eax s = .ok () (s.filled edi (List.range' eax ecx 4096)) := by
  induction ecx generalizing edi eax s with
  | zero =>
    simp only [Paging.filled, List.range'_zero, List.flatMap_nil, putBytes_nil, List.length_nil,
      List.append_nil]
    rfl
  | succ ecx ih =>
    have hnext : add32 edi 4 = edi + 4 := Nat.mod_eq_of_lt (by omega)
    -- behind the last entry `eax` may wrap around
    have hrest : fill ecx (edi + 4) (add32 eax 4096) = fill ecx (edi + 4) (eax + 4096) := by
      cases ecx with
      | zero => simp only [fill]
      | succ ecx =>
        rw [add32, Nat.mod_eq_of_lt (heax 1 (by omega))]
    have hstep : stosd edi eax s = .ok () { s with
        mem := putBytes s.mem edi (u32Bytes eax), stored := s.stored ++ [edi] } := rfl
    have hlater : ∀ k < ecx, eax + 4096 + 4096 * k < 2 ^ 32 := by
      intro k hk
      have hk' := heax (k + 1) (by omega)
      rwa [Nat.mul_add, Nat.mul_one, ← Nat.add_assoc, Nat.add_right_comm] at hk'
    rw [fill, bind_of_ok hstep, hnext, hrest, ih (by omega) hlater]
    simp only [Paging.filled, List.range'_succ, List.flatMap_cons, putBytes_append, u32Bytes_length,
      List.length_cons, List.length_range', List.append_assoc, List.singleton_append]

theorem tables_eq {memSize : Nat} (hlt : memSize < 2 ^ 32) :
    (if memSize % 0x400000 = 0 then memSize / 0x400000 else add32 (memSize / 0x400000) 1) =
      memSize ⌈/⌉ 0x400000 := by
  rw [Nat.ceilDiv_eq_add_pred_div, add32]
  split <;> omega

theorem tables_pos {memSize : Nat} (hpos : 0 < memSize) : 0 < memSize ⌈/⌉ 0x400000 := by
  rw [Nat.ceilDiv_eq_add_pred_div]
  omega

theorem tables_le {memSize : Nat} (hlt : memSize < 2 ^ 32) : memSize ⌈/⌉ 0x400000 ≤ 1024 := by
  rw [Nat.ceilDiv_eq_add_pred_div]
  omega

theorem le_tables (memSize : Nat) : memSize ≤ 0x400000 * (memSize ⌈/⌉ 0x400000) := by
  rw [Nat.ceilDiv_eq_add_pred_div]
  omega

def tabled (s : Paging) (n : Nat) : Paging :=
  ((s.filled pageDirBase (List.range' (pageTblBase + 7) n 4096)).filled pageTblBase
    (List.range' 7 (1024 * n) 4096))

theorem setupPaging_eq {memSize : Nat} (hpos : 0 < memSize) (hlt : memSize < 2 ^ 32) (s : Paging) :
    setupPaging memSize s = .ok () { tabled s (memSize ⌈/⌉ 0x400000) with
      cr3 := pageDirBase
      cr0 := s.cr0 ||| 0x80000000 } := by
  have htables := tables_eq hlt
  have hn := tables_pos hpos
  have hle := tables_le hlt
  have hdir : pageTblBase ||| pgP ||| pgUsu ||| pgRww = pageTblBase + 7 := by decide
  have htbl : pgP ||| pgUsu ||| pgRww = 7 := by decide
  rw [setupPaging]
  simp only [htables, hdir, htbl]
  generalize memSize ⌈/⌉ 0x400000 = n at hn hle
  have hrounds : rounds n = n := if_neg (by omega)
  have hrounds' : rounds (n * 1024 % 2 ^ 32) = 1024 * n := by
    rw [Nat.mod_eq_of_lt (by omega), rounds, if_neg (by omega), Nat.mul_comm]
  have hbase : pageDirBase = 0x200000 := rfl
  have hbase' : pageTblBase = 0x201000 := rfl
  rw [hrounds, hrounds', bind_of_ok (fill_eq (by omega) fun k hk => by omega),
    bind_of_ok (fill_eq (by omega) fun k hk => by omega)]
  rfl

theorem linearTables_tabled (s : Paging) {n : Nat} (hle : n ≤ 1024) :
    LinearTables (tabled s n).mem 0x200 0x201 7 n := by
  have hdir : pageDirBase = 4096 * 0x200 := rfl
  have htbl : pageTblBase = 4096 * 0x201 := rfl
  constructor
  · intro k hk
    change u32At (putBytes (putBytes s.mem pageDirBase _) pageTblBase _) _ = _
    rw [u32At_putBytes_of_disjoint (.inr (by rw [htbl]; omega)), ← hdir, u32At_range' hk, htbl]
    · omega
    · omega
  · intro k hk
    change u32At (putBytes (putBytes s.mem pageDirBase _) pageTblBase _) _ = _
    rw [← htbl, u32At_range' hk (by omega), Nat.add_comm]

/-- Linear addresses are physical addresses, for every size of the memory. -/
theorem setupPaging_identity {memSize : Nat} (hpos : 0 < memSize) (hlt : memSize < 2 ^ 32)
    (s : Paging) : ∃ s', setupPaging memSize s = .ok () s' ∧ IdentityPaged memSize s s' := by
  refine ⟨_, setupPaging_eq hpos hlt s, ?_, ?_, ?_, ?_⟩
  · rw [Nat.testBit_or, Bool.or_eq_true]
    exact .inr (by decide)
  · intro la hla
    have hbelow := Nat.lt_of_lt_of_le hla (le_tables memSize)
    exact (linearTables_tabled s (tables_le hlt)).pageWalk (by decide) (by decide) hbelow
  · simp only [tabled, Paging.filled, List.length_range']
  · intro a hdir htbl
    change putBytes (putBytes s.mem pageDirBase _) pageTblBase _ a = s.mem a
    rw [putBytes_outsideWords, putBytes_outsideWords]
    · rwa [List.length_range']
    · rwa [List.length_range']

/-- A machine with 33 MB, whose last table is used in part. -/
theorem setupPaging_33mb : ∃ s', setupPaging 0x2100000 ⟨fun _ => 0, 1, 0, []⟩ = .ok () s' ∧
    IdentityPaged 0x2100000 ⟨fun _ => 0, 1, 0, []⟩ s' :=
  setupPaging_identity (by decide) (by decide) _

end SetupPaging

end BazingaOS
