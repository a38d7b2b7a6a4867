import BazingaOS.Lib.Bytes

/-!
# Two-level paging

How a processor of 32 bits translates a linear address: its highest ten bits select an entry of the
page directory, the next ten an entry of the page table that this one names, and the last twelve are
the offset in a page. The rule at the end is for tables that stand one behind the other and name the
pages in order.
-/

namespace BazingaOS

/-- The attributes of an entry of the page directory or of a page table. -/
def entryPresent (e : Nat) : Bool := e.testBit 0
def entryWritable (e : Nat) : Bool := e.testBit 1
def entryUser (e : Nat) : Bool := e.testBit 2

/-- The page that an entry names. -/
def entryPage (e : Nat) : Nat := e / 4096 * 4096

/-- A physical address with the rights of its page. -/
structure Translation where
  addr : Nat
  writable : Bool
  user : Bool
deriving DecidableEq, Repr

/-- The entries for `la` are read from the memory; there is no translation if one of them is not
present. -/
def pageWalk (m : Bytes) (cr3 la : Nat) : Option Translation :=
  let pde := u32At m (entryPage cr3 + 4 * (la / 0x400000))
  if entryPresent pde then
    let pte := u32At m (entryPage pde + 4 * (la / 0x1000 % 1024))
    if entryPresent pte then
      some ⟨entryPage pte + la % 0x1000, entryWritable pde && entryWritable pte,
        entryUser pde && entryUser pte⟩
    else none
  else none

/-- From `dir` on, the directory names `n` tables from `tbl` on, whose entries name the pages from
page 0 on; every entry has the attributes `attr`. Both addresses are given as pages. -/
structure LinearTables (m : Bytes) (dir tbl attr n : Nat) : Prop where
  directory : ∀ k < n, u32At m (4096 * dir + 4 * k) = 4096 * (tbl + k) + attr
  table : ∀ k < 1024 * n, u32At m (4096 * tbl + 4 * k) = 4096 * k + attr

section Entries

variable {attr i k n la dir tbl : Nat} {m : Bytes}

theorem entryPage_add (h : attr < 4096) : entryPage (4096 * k + attr) = 4096 * k := by
  rw [entryPage]
  omega

theorem testBit_entry (hattr : attr < 4096) (hi : i < 12) :
    (4096 * k + attr).testBit i = attr.testBit i := by
  have hpow : (4096 : Nat) = 2 ^ 12 := rfl
  rw [hpow] at hattr ⊢
  rw [Nat.testBit_two_pow_mul_add k hattr, if_pos hi]

theorem LinearTables.pageWalk (h : LinearTables m dir tbl attr n) (hattr : attr < 4096)
    (hpresent : entryPresent attr = true) (hla : la < 0x400000 * n) :
    pageWalk m (4096 * dir) la = some ⟨la, entryWritable attr, entryUser attr⟩ := by
  have hdir : entryPage (4096 * dir) = 4096 * dir := @entryPage_add 0 dir (by omega)
  have hpde := h.directory (la / 0x400000) (by omega)
  -- the table of the address and the entry in it are its number among all entries
  have hplace : 4096 * (tbl + la / 0x400000) + 4 * (la / 0x1000 % 1024) =
      4096 * tbl + 4 * (la / 0x1000) := by omega
  have hpte := h.table (la / 0x1000) (by omega)
  have haddr : 4096 * (la / 0x1000) + la % 0x1000 = la := by omega
  have hbit : ∀ k i, i < 12 → (4096 * k + attr).testBit i = attr.testBit i :=
    fun _ _ hi => testBit_entry hattr hi
  rw [BazingaOS.pageWalk, hdir, hpde]
  simp only [entryPage_add hattr, hplace, hpte, haddr, entryPresent, entryWritable, entryUser] at *
  simp only [hbit _ 0 (by omega), hbit _ 1 (by omega), hbit _ 2 (by omega), hpresent, if_true,
    Bool.and_self]

end Entries

end BazingaOS
