import BazingaOS.FS.Cache
import BazingaOS.Lib.Slots

/-!
# The root directory

The sectors of the directory are a table of slots of 16 bytes. A slot is free when its inode number
is 0. `search_file` finds the first slot with a name; while no name is in two slots, the directory
is a map from names to inode numbers, and a new entry extends this map at its name.
-/

namespace BazingaOS

open Prog
open FS (BufHolds bufHolds_read)

/-- Where slot `t` of the directory that begins with sector `start` begins. -/
def slotAt (start t : Nat) : Nat := sectorSize * start + dirEntSize * t

/-- The inode number and the name in a slot. -/
def slotNr (d : Bytes) (start t : Nat) : Int := toI32 (u32At d (slotAt start t))
def slotName (d : Bytes) (start t : Nat) : List UInt8 :=
  cstring (fun i => d (slotAt start t + 4 + i)) maxFilenameLen

def dirSlots (d : Bytes) (start : Nat) : Slots (List UInt8) Int := fun t =>
  if slotNr d start t = 0 then none else some (slotName d start t, slotNr d start t)

section Slot

variable {d d' : Bytes} {start t : Nat} {name : List UInt8} {nr : Int}

theorem slot_congr (h : ∀ i, slotAt start t ≤ i → i < slotAt start t + dirEntSize → d' i = d i) :
    slotNr d' start t = slotNr d start t ∧ slotName d' start t = slotName d start t := by
  have hd : dirEntSize = 16 := rfl
  constructor
  · have hu : u32At d' (slotAt start t) = u32At d (slotAt start t) := by
      apply u32At_congr
      intro i hi hi'
      exact h i hi (by omega)
    rw [slotNr, slotNr, hu]
  · apply cstring_congr
    intro i hi
    have hm : maxFilenameLen = 12 := rfl
    exact h _ (by omega) (by omega)

theorem dirSlots_eq_none_iff : dirSlots d start t = none ↔ slotNr d start t = 0 := by
  by_cases h : slotNr d start t = 0
  · simp [dirSlots, h]
  · simp [dirSlots, h]

theorem dirSlots_eq_some_iff : dirSlots d start t = some (name, nr) ↔
    slotNr d start t ≠ 0 ∧ slotName d start t = name ∧ slotNr d start t = nr := by
  by_cases h : slotNr d start t = 0
  · simp [dirSlots, h]
  · simp [dirSlots, h]

theorem slot_putBytes {a : Nat} {l : List UInt8}
    (h : a + l.length ≤ slotAt start t ∨ slotAt start t + dirEntSize ≤ a) :
    slotNr (putBytes d a l) start t = slotNr d start t ∧
      slotName (putBytes d a l) start t = slotName d start t := by
  apply slot_congr
  intro i hi hi'
  rcases h with h | h
  · exact putBytes_of_ge (by omega)
  · exact putBytes_of_lt (by omega)

theorem slotAt_le (start t : Nat) : sectorSize * start ≤ slotAt start t := Nat.le_add_right _ _

theorem slotAt_apart {u : Nat} (h : u ≠ t) :
    slotAt start u + dirEntSize ≤ slotAt start t ∨ slotAt start t + dirEntSize ≤ slotAt start u := by
  have hd : dirEntSize = 16 := rfl
  rw [slotAt, slotAt, hd]
  omega

theorem slotAt_add (start i j : Nat) :
    slotAt start (entriesPerSect * i + j) = sectorSize * (start + i) + dirEntSize * j := by
  have he : entriesPerSect = 32 := rfl
  have hd : dirEntSize = 16 := rfl
  have hs : sectorSize = 512 := rfl
  rw [slotAt, he, hd, hs]
  omega

end Slot

section Buffer

variable {b d : Bytes} {start i j : Nat}

theorem FS.BufHolds.entryNr_eq (h : BufHolds b d (start + i)) (hj : j < entriesPerSect) :
    entryNr b j = slotNr d start (entriesPerSect * i + j) := by
  have hu : u32At b (dirEntSize * j) = u32At d (slotAt start (entriesPerSect * i + j)) := by
    apply u32At_shift
    intro x hx
    rw [slotAt_add, Nat.add_assoc]
    apply h
    have he : entriesPerSect = 32 := rfl
    have hd : dirEntSize = 16 := rfl
    have hs : sectorSize = 512 := rfl
    rw [hd, hs]
    omega
  rw [entryNr, slotNr, hu]

theorem FS.BufHolds.entryName_eq (h : BufHolds b d (start + i)) (hj : j < entriesPerSect) :
    entryName b j = slotName d start (entriesPerSect * i + j) := by
  apply cstring_congr
  intro x hx
  have hplace : slotAt start (entriesPerSect * i + j) + 4 + x =
      sectorSize * (start + i) + (dirEntSize * j + 4 + x) := by
    rw [slotAt_add]
    omega
  rw [hplace]
  apply h
  have he : entriesPerSect = 32 := rfl
  have hd : dirEntSize = 16 := rfl
  have hs : sectorSize = 512 := rfl
  have hm : maxFilenameLen = 12 := rfl
  rw [hd, hs]
  omega

end Buffer

attribute [irreducible] slotNr slotName

/-- How far `search_file` looks: the entry behind the last one too, but not behind the sector. -/
def searchBound (size : Nat) : Nat :=
  min ((size + sectorSize - 1) / sectorSize * entriesPerSect) (size / dirEntSize + 1)

/-- `nr` is the number in the first slot below `bound` that has the name; 0 if there is none. -/
def FirstNamed (d : Bytes) (start bound : Nat) (name : List UInt8) (nr : Int) : Prop :=
  (∃ t, t < bound ∧ slotName d start t = name ∧ (∀ u, u < t → slotName d start u ≠ name) ∧
    nr = slotNr d start t) ∨
  ((∀ t, t < bound → slotName d start t ≠ name) ∧ nr = 0)

namespace FS

variable {s : Fs} {start n blks : Nat} {name path : List UInt8} {r : Fin nrInode}

theorem scan_search (haddr : ∀ i, i < blks → sectorSize * (start + i) < 2 ^ 31) :
    wp (scan (searchEntry start n name) (blks * entriesPerSect) 0) (fun o _ =>
      FirstNamed s.disk start (min (blks * entriesPerSect) (n + 1)) name (o.getD 0))
      (fun _ _ => False) s := by
  have he : entriesPerSect = 32 := rfl
  apply @wp_scan _ _ _ _ _ _ (fun t s' => s'.disk = s.disk ∧ t ≤ n ∧
    (t % entriesPerSect ≠ 0 → BufHolds s'.fsbuf s.disk (start + t / entriesPerSect)) ∧
    ∀ u, u < t → slotName s.disk start u ≠ name)
  · exact ⟨rfl, Nat.zero_le _, fun h => absurd rfl h, fun u hu => absurd hu (Nat.not_lt_zero u)⟩
  · rintro t s' - ht ⟨hdisk, htn, hbuf, hbefore⟩
    rw [Nat.zero_add] at ht
    have hdiv : t / entriesPerSect < blks := by
      rw [he] at ht ⊢
      omega
    -- in front of the test the buffer holds the sector of slot `t`
    have hread : wp (when (t % entriesPerSect = 0) (rdSect (start + t / entriesPerSect)))
        (fun _ s₁ => s₁.disk = s.disk ∧
          BufHolds s₁.fsbuf s.disk (start + t / entriesPerSect)) (fun _ _ => False) s' := by
      rw [wp_when]
      refine ⟨fun _ => ?_, fun h => ⟨hdisk, hbuf h⟩⟩
      rw [wp_rdSect (haddr _ hdiv)]
      refine ⟨hdisk, ?_⟩
      rw [← hdisk]
      exact bufHolds_read _ _ _
    rw [searchEntry, wp_bind]
    refine wp_mono hread ?_ (fun _ _ h => h)
    rintro - s₁ ⟨hdisk₁, hbuf₁⟩
    have hj : t % entriesPerSect < entriesPerSect := Nat.mod_lt _ (by decide)
    have hslot : entriesPerSect * (t / entriesPerSect) + t % entriesPerSect = t :=
      Nat.div_add_mod t entriesPerSect
    have hname := hbuf₁.entryName_eq hj
    have hnr := hbuf₁.entryNr_eq hj
    rw [hslot] at hname hnr
    simp only [wp_bind, wp_get, wp_ite, wp_pure, hname, hnr]
    refine ⟨fun h => ?_, fun h => ⟨fun hn => ?_, fun hn => ?_⟩⟩
    · rw [if_neg (by simp)]
      exact Or.inl ⟨t, by omega, h, hbefore, Option.getD_some⟩
    · rw [if_neg (by simp)]
      refine Or.inr ⟨fun u hun => ?_, rfl⟩
      rcases Nat.lt_or_ge u t with hlt | hge
      · exact hbefore u hlt
      · obtain rfl : u = t := by omega
        exact h
    · rw [if_pos trivial]
      refine ⟨hdisk₁, by omega, fun hmod => ?_, fun u hu => ?_⟩
      · have hsame : (t + 1) / entriesPerSect = t / entriesPerSect := by
          rw [he] at hmod ⊢
          omega
        rw [hsame]
        exact hbuf₁
      · rcases Nat.lt_or_ge u t with hlt | hge
        · exact hbefore u hlt
        · obtain rfl : u = t := by omega
          exact h
  · rintro s' ⟨-, -, -, hbefore⟩
    refine Or.inr ⟨fun t ht => hbefore t (by omega), rfl⟩

end FS

/-- The root directory is in the cache, its inode is in front of its sectors, and their positions
on the disk are in the range of a signed integer. -/
structure RootAt (s : Fs) (r : Fin nrInode) : Prop where
  root : s.rootInode = some r
  dev : (s.inodeTable r).iDev = rootDev
  num : 1 ≤ (s.inodeTable r).iNum
  inode : inodeSect s.sb (s.inodeTable r).iNum.toNat < (s.inodeTable r).iStartSect
  addr : sectorSize * ((s.inodeTable r).iStartSect + (s.inodeTable r).iNrSects) < 2 ^ 31

/-- The number of slots of the directory, and how many of them its size covers. -/
def Inode.slots (d : Inode) : Nat := entriesPerSect * d.iNrSects
def Inode.entries (d : Inode) : Nat := d.iSize / dirEntSize

section Lookup

variable {s s' : Fs} {r : Fin nrInode} {name path : List UInt8}

theorem lookup_of_wp {Q : Int → Prop}
    (h : wp (FS.searchFile path) (fun nr _ => Q nr) (fun _ _ => False) s) : Q (s.lookup path) := by
  obtain ⟨nr, s', hr, hnr⟩ := exists_ok_of_wp h
  rw [Fs.lookup, hr]
  exact hnr

theorem lookup_of_slash (h : stripPath path = none) : s.lookup path = 0 := by
  apply lookup_of_wp (Q := fun nr => nr = 0)
  rw [FS.searchFile, h]
  rfl

/-- The search for a name that fits looks at the slots below `searchBound`, if the sectors that the
size covers have positions in the range of a signed integer. -/
theorem searchFile_firstNamed (hroot : s.rootInode = some r)
    (hdev : (s.inodeTable r).iDev = rootDev)
    (haddr : sectorSize * ((s.inodeTable r).iStartSect +
      ((s.inodeTable r).iSize + sectorSize - 1) / sectorSize) ≤ 2 ^ 31)
    (hp : stripPath path = some name) (hne : name ≠ []) (hlen : name.length < maxFilenameLen) :
    wp (FS.searchFile path) (fun nr _ => FirstNamed s.disk (s.inodeTable r).iStartSect
      (searchBound (s.inodeTable r).iSize) name nr) (fun _ _ => False) s := by
  have hs : sectorSize = 512 := rfl
  have hd : dirEntSize = 16 := rfl
  generalize hst : (s.inodeTable r).iStartSect = start at *
  generalize hz : (s.inodeTable r).iSize = size at *
  have hmod : (size + sectorSize - 1) % 2 ^ 32 = size + sectorSize - 1 := by
    apply Nat.mod_eq_of_lt
    rw [hs] at haddr ⊢
    omega
  have hblk : ∀ i, i < (size + sectorSize - 1) / sectorSize → sectorSize * (start + i) < 2 ^ 31 := by
    intro i hi
    rw [hs] at haddr hi ⊢
    omega
  have hscan := @FS.scan_search s start (size / dirEntSize) _ name hblk
  rw [FS.searchFile, hp]
  simp only [FS.fitsFilename, FS.rootNode, if_pos hlen, wp_bind, wp_pure, wp_get, hroot]
  rw [if_neg hne, wp_bind, wp_check]
  refine ⟨fun _ => ?_, fun hn => absurd hdev hn⟩
  rw [hst, hz, hmod, wp_bind]
  refine wp_mono hscan ?_ (fun _ _ hE => hE)
  intro o s' ho
  exact ho

theorem lookup_firstNamed (hroot : s.rootInode = some r) (hdev : (s.inodeTable r).iDev = rootDev)
    (haddr : sectorSize * ((s.inodeTable r).iStartSect +
      ((s.inodeTable r).iSize + sectorSize - 1) / sectorSize) ≤ 2 ^ 31)
    (hp : stripPath path = some name) (hne : name ≠ []) (hlen : name.length < maxFilenameLen) :
    FirstNamed s.disk (s.inodeTable r).iStartSect (searchBound (s.inodeTable r).iSize) name
      (s.lookup path) :=
  lookup_of_wp (searchFile_firstNamed hroot hdev haddr hp hne hlen)

theorem RootAt.lookup_spec (h : RootAt s r)
    (hsize : (s.inodeTable r).iSize < sectorSize * (s.inodeTable r).iNrSects + 2 * dirEntSize)
    (hp : stripPath path = some name) (hne : name ≠ []) (hlen : name.length < maxFilenameLen) :
    FirstNamed s.disk (s.inodeTable r).iStartSect (searchBound (s.inodeTable r).iSize) name
      (s.lookup path) := by
  apply lookup_firstNamed h.root h.dev _ hp hne hlen
  have hs : sectorSize = 512 := rfl
  have hd : dirEntSize = 16 := rfl
  have haddr := h.addr
  rw [hs] at haddr hsize ⊢
  rw [hd] at hsize
  omega

end Lookup

/-- The first `m` slots: their entries have distinct names of 1 to 11 characters and are among the
first `n`, and a free slot has no name. -/
structure TableOk (d : Bytes) (start m n : Nat) : Prop where
  covers : ∀ t, t < m → slotNr d start t ≠ 0 → t < n
  name_length : ∀ t, t < m → slotNr d start t ≠ 0 →
    slotName d start t ≠ [] ∧ (slotName d start t).length < maxFilenameLen
  free_name : ∀ t, t < m → slotNr d start t = 0 → slotName d start t = []
  distinct : (dirSlots d start).Distinct m

/-- The size of the directory is that of a number of its slots, and the slots with an entry are
among them. -/
structure DirOk (s : Fs) (r : Fin nrInode) : Prop extends RootAt s r where
  size : (s.inodeTable r).iSize ≤ sectorSize * (s.inodeTable r).iNrSects
  whole : (s.inodeTable r).iSize % dirEntSize = 0
  table : TableOk s.disk (s.inodeTable r).iStartSect (s.inodeTable r).slots
    (s.inodeTable r).entries

/-- The map from names to inode numbers that the directory is. -/
def Fs.dirMap (s : Fs) (r : Fin nrInode) (name : List UInt8) : Option Int :=
  (dirSlots s.disk (s.inodeTable r).iStartSect).find (s.inodeTable r).slots name

section Lookup

variable {s s' : Fs} {r : Fin nrInode} {name path : List UInt8} {t : Nat}

/-- The search sees every slot with an entry and none behind the sectors of the directory. -/
theorem lt_searchBound {d : Inode} (ht : t < d.entries) : t < searchBound d.iSize := by
  have hs : sectorSize = 512 := rfl
  have hd : dirEntSize = 16 := rfl
  have he : entriesPerSect = 32 := rfl
  rw [Inode.entries, hd] at ht
  rw [searchBound, hs, hd, he]
  omega

theorem lt_slots_of_searchBound {d : Inode} (hsize : d.iSize ≤ sectorSize * d.iNrSects)
    (ht : t < searchBound d.iSize) : t < d.slots := by
  have hs : sectorSize = 512 := rfl
  have he : entriesPerSect = 32 := rfl
  rw [searchBound, hs, he] at ht
  rw [hs] at hsize
  rw [Inode.slots, he]
  omega

/-- `search_file` reads the map. -/
theorem DirOk.lookup_eq (h : DirOk s r) (hp : stripPath path = some name) (hne : name ≠ [])
    (hlen : name.length < maxFilenameLen) : s.lookup path = (s.dirMap r name).getD 0 := by
  have hsize := h.size
  have hbound : (s.inodeTable r).iSize <
      sectorSize * (s.inodeTable r).iNrSects + 2 * dirEntSize :=
    Nat.lt_of_le_of_lt hsize (Nat.lt_add_of_pos_right (by decide))
  have hspec := h.lookup_spec hbound hp hne hlen
  -- a slot that the search finds has an entry
  have hlive : ∀ t, t < searchBound (s.inodeTable r).iSize →
      slotName s.disk (s.inodeTable r).iStartSect t = name →
      dirSlots s.disk (s.inodeTable r).iStartSect t =
        some (name, slotNr s.disk (s.inodeTable r).iStartSect t) := by
    intro t ht hname
    rw [dirSlots_eq_some_iff]
    refine ⟨fun hz => hne ?_, hname, rfl⟩
    rw [← hname, h.table.free_name t (lt_slots_of_searchBound hsize ht) hz]
  rcases hspec with ⟨t, ht, hname, -, hnr⟩ | ⟨hall, hnr⟩
  · have hfind : s.dirMap r name = some (slotNr s.disk (s.inodeTable r).iStartSect t) :=
      h.table.distinct.find_eq_some_iff.mpr ⟨t, lt_slots_of_searchBound hsize ht, hlive t ht hname⟩
    rw [hnr, hfind, Option.getD_some]
  · have hfind : s.dirMap r name = none := by
      apply Slots.find_eq_none_iff.mpr
      intro t v ht hT
      obtain ⟨hz, hname, -⟩ := dirSlots_eq_some_iff.mp hT
      exact hall t (lt_searchBound (h.table.covers t ht hz)) hname
    rw [hnr, hfind, Option.getD_none]

theorem RootAt.searchFile_nil (h : RootAt s r) (hp : stripPath path = some []) :
    wp (FS.searchFile path) (fun nr _ => nr = (s.inodeTable r).iNum) (fun _ _ => False) s := by
  rw [FS.searchFile, hp]
  have hlen : ([] : List UInt8).length < maxFilenameLen := by decide
  simp only [FS.fitsFilename, FS.rootNode, if_pos hlen, wp_bind, wp_pure, wp_get, h.root]
  rw [if_pos trivial, wp_pure]

theorem RootAt.lookup_nil (h : RootAt s r) (hp : stripPath path = some []) :
    s.lookup path = (s.inodeTable r).iNum := lookup_of_wp (h.searchFile_nil hp)

/-- A name that does not fit overflows the array of the search. -/
theorem lookup_of_long (hp : stripPath path = some name) (hlen : ¬ name.length < maxFilenameLen) :
    s.lookup path = 0 := by
  have hstop : FS.searchFile path s = .stop .undefined s := by
    rw [FS.searchFile, hp]
    simp only [FS.fitsFilename, if_neg hlen]
    rfl
  rw [Fs.lookup, hstop]

theorem DirOk.lookup_congr (h : DirOk s r) (h' : DirOk s' r)
    (hnum : (s'.inodeTable r).iNum = (s.inodeTable r).iNum)
    (hmap : ∀ name, stripPath path = some name → s'.dirMap r name = s.dirMap r name) :
    s'.lookup path = s.lookup path := by
  cases hp : stripPath path with
  | none => rw [lookup_of_slash hp, lookup_of_slash hp]
  | some name =>
    by_cases hne : name = []
    · subst hne
      rw [h'.lookup_nil hp, h.lookup_nil hp, hnum]
    · by_cases hlen : name.length < maxFilenameLen
      · rw [h'.lookup_eq hp hne hlen, h.lookup_eq hp hne hlen, hmap name hp]
      · rw [lookup_of_long hp hlen, lookup_of_long hp hlen]

end Lookup

section Letters

/-- A disk with a directory in sectors 8 and 9: slot `t` has inode `t + 2` and a name of one
character where `live t` is true, and is free elsewhere. All bits of the maps in sectors 2 and 3
are set, and the inodes in front of the directory are regular files of 4 sectors. -/
def letterDisk (live : Nat → Bool) : Bytes := fun a =>
  if 4096 ≤ a then
    if live ((a - 4096) / 16) then
      if a % 16 = 0 then UInt8.ofNat ((a - 4096) / 16 + 2)
      else if a % 16 = 4 then UInt8.ofNat ((a - 4096) / 16 + 65)
      else 0
    else 0
  else if a < 2048 then 0xff
  else if a % 32 = 1 then 0x80
  else if a % 32 = 8 then 10
  else if a % 32 = 12 then 4
  else 0

def letterRoot : Fin nrInode := ⟨0, nrInode_pos⟩

/-- This disk with its directory in the cache, `n` slots long. The name in slot `t` is at address
`t` of the processes too. -/
def letterFs (live : Nat → Bool) (n : Nat) : Fs where
  disk := letterDisk live
  fsbuf := fun _ => 0
  sb := { nrImapSects := 1, nrSmapSects := 1, n1stSect := 8 }
  inodeTable := Function.update (fun _ => {}) letterRoot
    { iMode := iDirectory, iSize := dirEntSize * n, iStartSect := 8, iNrSects := 2,
      iDev := rootDev, iCnt := 1, iNum := 1 }
  rootInode := some letterRoot
  user := fun _ a => UInt8.ofNat (a + 65)

variable {live : Nat → Bool} {n t : Nat}

theorem letterDisk_apply (t : Nat) {x : Nat} (hx : x < 16) :
    letterDisk live (slotAt 8 t + x) =
      if live t then
        if x = 0 then UInt8.ofNat (t + 2) else if x = 4 then UInt8.ofNat (t + 65) else 0
      else 0 := by
  have hat : slotAt 8 t = 4096 + 16 * t := rfl
  have hdiv : (4096 + 16 * t + x - 4096) / 16 = t := by omega
  have hmod : (4096 + 16 * t + x) % 16 = x := by omega
  have hge : 4096 ≤ 4096 + 16 * t + x := by omega
  rw [letterDisk, hat, hdiv, hmod, if_pos hge]

theorem slotNr_letterDisk (ht : t < 64) :
    slotNr (letterDisk live) 8 t = if live t then (t : Int) + 2 else 0 := by
  have hzero : toI32 0 = 0 := toI32_of_inI32 (by decide)
  have hnr : toI32 (t + 2) = t + 2 := toI32_of_inI32 ⟨by omega, by omega⟩
  have h₀ := @letterDisk_apply live t 0 (by omega)
  rw [Nat.add_zero] at h₀
  rw [slotNr, u32At, h₀, letterDisk_apply t (by omega), letterDisk_apply t (by omega),
    letterDisk_apply t (by omega)]
  cases hl : live t with
  | false => simpa using hzero
  | true =>
    have hmod : (t + 2) % 256 = t + 2 := by omega
    simpa [hmod] using hnr

theorem slotName_letterDisk (ht : t < 64) :
    slotName (letterDisk live) 8 t = if live t then [UInt8.ofNat (t + 65)] else [] := by
  have hbyte : ∀ i, i < maxFilenameLen → letterDisk live (slotAt 8 t + 4 + i) =
      if live t then if i = 0 then UInt8.ofNat (t + 65) else 0 else 0 := by
    intro i hi
    have hm : maxFilenameLen = 12 := rfl
    rw [Nat.add_assoc, letterDisk_apply t (by omega)]
    by_cases h₀ : i = 0
    · simp [h₀]
    · simp [h₀]
  have hlen : maxFilenameLen = 12 := rfl
  rw [slotName]
  cases hl : live t with
  | false =>
    apply cstring_of_zero (by simp) (by simp [hlen])
    · intro i hi
      simp at hi
    · rw [hbyte _ (by simp [hlen])]
      simp [hl]
  | true =>
    have hne : (0 : UInt8) ≠ UInt8.ofNat (t + 65) := by
      intro hz
      have hn := congrArg UInt8.toNat hz
      simp only [UInt8.toNat_ofNat', UInt8.toNat_zero] at hn
      omega
    apply cstring_of_zero (by simpa using hne) (by simp [hlen])
    · intro i hi
      have hi₀ : i = 0 := by simpa using hi
      subst hi₀
      rw [hbyte 0 (by omega)]
      simp [hl]
    · rw [hbyte _ (by simp [hlen])]
      simp [hl]

theorem tableOk_letterDisk (hlive : ∀ t, live t = true → t < n) :
    TableOk (letterDisk live) 8 64 n := by
  constructor
  · intro t ht hz
    rw [slotNr_letterDisk ht] at hz
    by_contra hn
    have hfree : ¬ live t = true := fun hl => hn (hlive t hl)
    simp [hfree] at hz
  · intro t ht hz
    rw [slotNr_letterDisk ht] at hz
    have hl : live t = true := by
      by_contra hfree
      simp [hfree] at hz
    rw [slotName_letterDisk ht, if_pos hl]
    exact ⟨List.cons_ne_nil _ _, by simp [maxFilenameLen]⟩
  · intro t ht hz
    rw [slotNr_letterDisk ht] at hz
    have hl : ¬ live t = true := by
      intro hl
      rw [if_pos hl] at hz
      omega
    rw [slotName_letterDisk ht, if_neg hl]
  · intro t u x v w ht hu hT hU
    obtain ⟨hzt, hxt, -⟩ := dirSlots_eq_some_iff.mp hT
    obtain ⟨hzu, hxu, -⟩ := dirSlots_eq_some_iff.mp hU
    rw [slotNr_letterDisk ht] at hzt
    rw [slotNr_letterDisk hu] at hzu
    have hlt : live t = true := by
      by_contra hfree
      simp [hfree] at hzt
    have hlu : live u = true := by
      by_contra hfree
      simp [hfree] at hzu
    rw [slotName_letterDisk ht, if_pos hlt] at hxt
    rw [slotName_letterDisk hu, if_pos hlu, ← hxt, List.cons.injEq] at hxu
    have hn := congrArg UInt8.toNat hxu.1
    simp only [UInt8.toNat_ofNat'] at hn
    omega

theorem letterFs_entries : ((letterFs live n).inodeTable letterRoot).entries = n :=
  @Nat.mul_div_cancel_left n dirEntSize (by decide)

theorem dirOk_letterFs (hn : n ≤ 64) (hlive : ∀ t, live t = true → t < n) :
    DirOk (letterFs live n) letterRoot where
  root := rfl
  dev := rfl
  num := Int.le_refl 1
  inode := by simp [letterFs, inodeSect]
  addr := by
    change 512 * (8 + 2) < 2 ^ 31
    decide
  size := by
    change 16 * n ≤ 512 * 2
    omega
  whole := Nat.mul_mod_right _ _
  table := by
    rw [letterFs_entries]
    exact tableOk_letterDisk hlive

end Letters

section Exact

variable {s : Fs} {d : Bytes} {start n : Nat} {name path : List UInt8} {nr : Int} {r : Fin nrInode}

theorem FirstNamed.of_succ (h : FirstNamed d start (n + 1) name nr) : FirstNamed d start n name nr ↔
    (∃ t, t < n ∧ slotName d start t = name) ∨ slotName d start n ≠ name ∨
      slotNr d start n = 0 := by
  rcases h with ⟨t, ht, hname, hfirst, hnr⟩ | ⟨hall, hnr⟩
  · rcases Nat.lt_or_ge t n with hlt | hge
    · exact ⟨fun _ => Or.inl ⟨t, hlt, hname⟩, fun _ => Or.inl ⟨t, hlt, hname, hfirst, hnr⟩⟩
    · obtain rfl : t = n := by omega
      constructor
      · rintro (⟨u, hu, hnu, -⟩ | ⟨-, hz⟩)
        · exact absurd hnu (hfirst u hu)
        · exact Or.inr (Or.inr (hnr.symm.trans hz))
      · rintro (⟨u, hu, hnu⟩ | hne | hz)
        · exact absurd hnu (hfirst u hu)
        · exact absurd hname hne
        · exact Or.inr ⟨hfirst, hnr.trans hz⟩
  · exact ⟨fun _ => Or.inr (Or.inl (hall n (Nat.lt_succ_self n))),
      fun _ => Or.inr ⟨fun t ht => hall t (Nat.lt_succ_of_lt ht), hnr⟩⟩

/-- In front of a sector edge the search ends with the directory, elsewhere one slot behind it. -/
theorem searchBound_eq {size : Nat} (h : size % dirEntSize = 0) : searchBound size =
    if size % sectorSize = 0 then size / dirEntSize else size / dirEntSize + 1 := by
  have hs : sectorSize = 512 := rfl
  have hd : dirEntSize = 16 := rfl
  have he : entriesPerSect = 32 := rfl
  rw [hd] at h
  rw [searchBound, hs, hd, he]
  split
  · omega
  · omega

/-- The search looks at exactly the slots that the size covers if the size ends with a sector, or
the slot behind it does not decide the search. -/
theorem lookup_exact_iff (hroot : s.rootInode = some r) (hdev : (s.inodeTable r).iDev = rootDev)
    (hwhole : (s.inodeTable r).iSize % dirEntSize = 0)
    (haddr : sectorSize * ((s.inodeTable r).iStartSect +
      ((s.inodeTable r).iSize + sectorSize - 1) / sectorSize) ≤ 2 ^ 31)
    (hp : stripPath path = some name) (hne : name ≠ []) (hlen : name.length < maxFilenameLen) :
    FirstNamed s.disk (s.inodeTable r).iStartSect (s.inodeTable r).entries name (s.lookup path) ↔
      (s.inodeTable r).iSize % sectorSize = 0 ∨
      (∃ t, t < (s.inodeTable r).entries ∧
        slotName s.disk (s.inodeTable r).iStartSect t = name) ∨
      slotName s.disk (s.inodeTable r).iStartSect (s.inodeTable r).entries ≠ name ∨
      slotNr s.disk (s.inodeTable r).iStartSect (s.inodeTable r).entries = 0 := by
  have hspec := lookup_firstNamed hroot hdev haddr hp hne hlen
  rw [searchBound_eq hwhole, ← Inode.entries] at hspec
  by_cases hedge : (s.inodeTable r).iSize % sectorSize = 0
  · rw [if_pos hedge] at hspec
    exact ⟨fun _ => Or.inl hedge, fun _ => hspec⟩
  · rw [if_neg hedge] at hspec
    rw [hspec.of_succ, or_iff_right hedge]

/-- Three files in a directory of three slots. -/
theorem lookup_exact_letters : FirstNamed (letterFs (fun t => t < 3) 3).disk 8 3 [66]
    ((letterFs (fun t => t < 3) 3).lookup [66]) :=
  (@lookup_exact_iff (letterFs (fun t => t < 3) 3) [66] [66] letterRoot rfl rfl (by decide)
    (by decide) (by decide) (by decide) (by decide)).mpr
      (Or.inr (Or.inl ⟨1, by decide, by decide +kernel⟩))

/-- The directory has two slots, and the search finds the third. -/
theorem lookup_stale_slot :
    (letterFs (fun t => t < 3) 2).lookup [67] = 4 ∧ ((letterFs (fun t => t < 3) 2).inodeTable
      letterRoot).iSize = 2 * dirEntSize ∧
    ¬ FirstNamed (letterFs (fun t => t < 3) 2).disk 8 2 [67]
      ((letterFs (fun t => t < 3) 2).lookup [67]) := by
  have hfour : (letterFs (fun t => t < 3) 2).lookup [67] = 4 := by decide +kernel
  refine ⟨hfour, rfl, ?_⟩
  rw [hfour]
  rintro (⟨t, ht, hname, -⟩ | ⟨-, hz⟩)
  · have hother : ∀ t, t < 2 → slotName (letterFs (fun t => t < 3) 2).disk 8 t ≠ [67] := by
      decide +kernel
    exact hother t ht hname
  · cases hz

end Exact

end BazingaOS
