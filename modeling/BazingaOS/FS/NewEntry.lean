import BazingaOS.FS.Directory

/-!
# New directory entries

`new_directory_entry` takes the first free slot, or the slot behind the last one and grows the
directory. At the edge of a sector it stays in the sector that is full: the entry then goes behind
the part of the buffer that is written back.
-/

namespace BazingaOS

open Prog
open FS (BufHolds bufHolds_read)

/-- `32 * i + j` is the slot that the search for a free one ends with, as entry `j` of sector `i`. -/
structure NewSlot (d : Bytes) (start n i j : Nat) : Prop where
  before : ∀ u, u < entriesPerSect * i + j → slotNr d start u ≠ 0
  here : entriesPerSect * i + j < n → slotNr d start (entriesPerSect * i + j) = 0
  le : entriesPerSect * i + j ≤ n
  index : j ≤ entriesPerSect
  edge : j = entriesPerSect ↔ entriesPerSect * i + j = n ∧ 0 < n ∧ n % entriesPerSect = 0

namespace FS

variable {s : Fs} {start n k : Nat} {name : List UInt8} {r : Fin nrInode}

/-- What the search for a free slot finds. -/
def FreeFound (d b : Bytes) (start n k : Nat) : Option (Nat × Nat × Bool) → Prop
  | some (i, j, grows) => i < k ∧ BufHolds b d (start + i) ∧ NewSlot d start n i j ∧
      (grows = true ↔ entriesPerSect * i + j = n)
  | none => k = 0 ∨ entriesPerSect * k < n

theorem freeEntry_spec {i : Nat} (hi : i < k) (haddr : sectorSize * (start + i) < 2 ^ 31)
    (hbefore : ∀ u, u < entriesPerSect * i → slotNr s.disk start u ≠ 0)
    (hn : i = 0 ∨ entriesPerSect * i < n) :
    wp (freeEntry rootDev start n i) (fun o s' => ∃ b, s' = { s with fsbuf := b } ∧
      if o = none then entriesPerSect * (i + 1) < n ∧
        ∀ u, u < entriesPerSect * (i + 1) → slotNr s.disk start u ≠ 0
      else FreeFound s.disk b start n k o) (fun _ _ => False) s := by
  have he : entriesPerSect = 32 := rfl
  have hnext : entriesPerSect * (i + 1) = entriesPerSect * i + entriesPerSect := Nat.mul_succ _ _
  have hle : entriesPerSect * i ≤ n := by
    rw [he] at hn ⊢
    omega
  simp only [freeEntry, wp_bind]
  apply wp_onDev _ _ _ (fun h => absurd rfl h)
  intro _
  rw [wp_rdSect haddr, wp_get]
  have hbuf := bufHolds_read s.fsbuf s.disk (start + i)
  generalize copyBytes s.fsbuf 0 s.disk (sectorSize * (start + i)) sectorSize = b at hbuf ⊢
  simp only []
  generalize hm : min entriesPerSect (n - entriesPerSect * i) = m
  have hnr : ∀ j, j < m → entryNr b j = slotNr s.disk start (entriesPerSect * i + j) :=
    fun j hj => hbuf.entryNr_eq (by omega)
  cases hf : (List.range m).find? fun j => decide (entryNr b j = 0) with
  | some j =>
    rw [List.find?_range_eq_some] at hf
    obtain ⟨hz, hj, hfirst⟩ := hf
    have hjm : j < m := List.mem_range.mp hj
    have hz' : slotNr s.disk start (entriesPerSect * i + j) = 0 := by
      rw [← hnr j hjm]
      simpa using hz
    refine ⟨b, rfl, ?_⟩
    rw [if_neg (by simp)]
    refine ⟨hi, hbuf, ⟨fun u hu => ?_, fun _ => hz', by omega, by omega, ?_⟩, ?_⟩
    · rcases Nat.lt_or_ge u (entriesPerSect * i) with hlt | hge
      · exact hbefore u hlt
      · obtain ⟨x, rfl⟩ := Nat.exists_eq_add_of_le hge
        have hx := hfirst x (by omega)
        rw [← hnr x (by omega)]
        simpa using hx
    · constructor
      · intro h
        omega
      · intro h
        omega
    · constructor
      · intro h
        cases h
      · intro h
        omega
  | none =>
    have hfull : ∀ u, u < entriesPerSect * i + m → slotNr s.disk start u ≠ 0 := by
      intro u hu
      rcases Nat.lt_or_ge u (entriesPerSect * i) with hlt | hge
      · exact hbefore u hlt
      · obtain ⟨x, rfl⟩ := Nat.exists_eq_add_of_le hge
        have hx := List.find?_eq_none.mp hf x (List.mem_range.mpr (by omega))
        rw [← hnr x (by omega)]
        simpa using hx
    refine ⟨b, rfl, ?_⟩
    by_cases hleft : n - entriesPerSect * i ≤ entriesPerSect
    · rw [if_pos hleft, if_neg (by simp)]
      refine ⟨hi, hbuf, ⟨hfull, fun h => ?_, ?_, by omega, ?_⟩, ?_⟩
      · omega
      · omega
      · rw [he] at hm hn hle hleft ⊢
        omega
      · simp only [true_iff]
        omega
    · rw [if_neg hleft, if_pos rfl]
      refine ⟨by omega, fun u hu => hfull u (by omega)⟩

theorem scan_freeEntry (haddr : ∀ i, i < k → sectorSize * (start + i) < 2 ^ 31) :
    wp (scan (freeEntry rootDev start n) k 0) (fun o s' => ∃ b, s' = { s with fsbuf := b } ∧
      FreeFound s.disk b start n k o) (fun _ _ => False) s := by
  apply @wp_scan _ _ _ _ _ _ (fun i s' => (∃ b, s' = { s with fsbuf := b }) ∧
    (i = 0 ∨ entriesPerSect * i < n) ∧
    ∀ u, u < entriesPerSect * i → slotNr s.disk start u ≠ 0)
  · exact ⟨⟨s.fsbuf, rfl⟩, Or.inl rfl, fun u hu => absurd hu (Nat.not_lt_zero u)⟩
  · rintro i s' - hi ⟨⟨b, rfl⟩, hn, hbefore⟩
    rw [Nat.zero_add] at hi
    refine wp_mono (freeEntry_spec hi (haddr i hi) hbefore hn) ?_ (fun _ _ h => h)
    rintro o s' ⟨b', rfl, ho⟩
    by_cases hnone : o = none
    · rw [if_pos hnone] at ho ⊢
      exact ⟨⟨b', rfl⟩, Or.inr ho.1, ho.2⟩
    · rw [if_neg hnone] at ho ⊢
      exact ⟨b', rfl, ho⟩
  · rintro s' ⟨⟨b, rfl⟩, hn, -⟩
    rw [Nat.zero_add] at hn
    exact ⟨b, rfl, hn⟩

end FS

/-- The bytes that a new entry fills: its inode number, its name and a zero. -/
def entryBytes (nr : Nat) (name : List UInt8) : List UInt8 := u32Bytes nr ++ name ++ [0]

/-- The inode of the directory once slot `t` has an entry. -/
def Inode.grown (d : Inode) (t : Nat) : Inode :=
  { d with iSize := if t = d.entries then (d.iSize + dirEntSize) % 2 ^ 32 else d.iSize }

/-- The state with a new entry in slot `32 * i + j`. What is behind sector `i` is not written. -/
def Fs.withEntry (s : Fs) (r : Fin nrInode) (i j : Nat) (name : List UInt8) (nr : Nat) (b : Bytes) :
    Fs :=
  let d := s.inodeTable r
  let t := entriesPerSect * i + j
  { s with
    fsbuf := b
    sb := { s.sb with sbDev := rootDev }
    inodeTable := Function.update s.inodeTable r (d.grown t)
    disk := putBytes
      (putBytes s.disk (slotAt d.iStartSect t)
        ((entryBytes nr name).take (sectorSize - dirEntSize * j)))
      (inodePlace s.sb d.iNum.toNat) (d.grown t).disk.bytes }

namespace FS

variable {s : Fs} {r : Fin nrInode} {name : List UInt8} {nr : Nat}

theorem RootAt.syncable (h : RootAt s r) : Syncable s (s.inodeTable r) := by
  refine ⟨h.dev, h.num, ?_⟩
  have hin := h.inode
  have haddr := h.addr
  have hs : sectorSize = 512 := rfl
  rw [hs] at haddr ⊢
  omega

/-- `new_directory_entry` fills one slot, unless it runs out of sectors. -/
theorem newDirectoryEntry_spec (h : RootAt s r) :
    wp (newDirectoryEntry r name nr) (fun _ s' => ∃ i j b, i < (s.inodeTable r).iNrSects ∧
        NewSlot s.disk (s.inodeTable r).iStartSect (s.inodeTable r).entries i j ∧
        s' = s.withEntry r i j name nr b)
      (fun _ _ => (s.inodeTable r).iNrSects = 0 ∨ (s.inodeTable r).slots < (s.inodeTable r).entries)
      s := by
  have hs : sectorSize = 512 := rfl
  have haddr : ∀ i, i < (s.inodeTable r).iNrSects →
      sectorSize * ((s.inodeTable r).iStartSect + i) < 2 ^ 31 := by
    intro i hi
    have hend := h.addr
    rw [hs] at hend ⊢
    omega
  simp only [newDirectoryEntry, wp_bind, wp_get, h.dev]
  refine wp_mono (scan_freeEntry haddr) ?_ (fun _ _ hE => hE.elim)
  rintro o s₁ ⟨b, rfl, ho⟩
  cases o with
  | none => exact ho
  | some place =>
    obtain ⟨i, j, grows⟩ := place
    obtain ⟨hi, hbuf, hslot, hg⟩ := ho
    have hgrows : grows = true ↔ entriesPerSect * i + j = (s.inodeTable r).entries := hg
    have hjle : dirEntSize * j ≤ sectorSize := by
      have hj := hslot.index
      have he : entriesPerSect = 32 := rfl
      have hd : dirEntSize = 16 := rfl
      rw [hs, hd]
      omega
    have hdisk := @copyBytes_putBytes s.disk _ (dirEntSize * j) _ b (entryBytes nr name) hbuf hjle
    rw [← slotAt_add] at hdisk
    have htable : wp (when (grows = true) (setInode r fun d =>
          { d with iSize := (d.iSize + dirEntSize) % 2 ^ 32 }))
        (fun _ s₂ => s₂ = { s with
          fsbuf := b
          inodeTable := Function.update s.inodeTable r
            ((s.inodeTable r).grown (entriesPerSect * i + j)) })
        (fun _ _ => False) { s with fsbuf := b } := by
      rw [wp_when]
      constructor
      · intro hg
        rw [Inode.grown, if_pos (hgrows.mp hg)]
        rfl
      · intro hg
        rw [Inode.grown, if_neg (fun ht => hg (hgrows.mpr ht)), Function.update_eq_self]
    simp only [wp_bind]
    refine wp_mono htable ?_ (fun _ _ hE => hE.elim)
    rintro - s₂ rfl
    rw [wp_setBuf]
    apply wp_onDev _ _ _ (fun hdev => absurd rfl hdev)
    intro _
    rw [Nat.add_comm i, wp_wrSect (haddr i hi)]
    have hdisk' : copyBytes s.disk (sectorSize * ((s.inodeTable r).iStartSect + i))
        (putBytes b (dirEntSize * j) (u32Bytes nr ++ name ++ [0])) 0 sectorSize = _ := hdisk
    simp only [hdisk']
    refine wp_mono (syncInode_spec r) ?_ ?_
    · rintro - s₃ ⟨-, b', rfl⟩
      refine ⟨i, j, b', hi, hslot, ?_⟩
      simp only [Function.update_self]
      rfl
    · rintro _ _ ⟨hnot, -⟩
      refine absurd ?_ hnot
      simp only [Function.update_self]
      exact RootAt.syncable h

end FS

section Stored

variable {d : Bytes} {start t nr : Nat} {name : List UInt8}

theorem entryBytes_length (nr : Nat) (name : List UInt8) :
    (entryBytes nr name).length = name.length + 5 := by
  rw [entryBytes, List.length_append, List.length_append, u32Bytes_length, List.length_singleton]
  omega

theorem slot_stored_self (hnr : nr < 2 ^ 31) (hname : 0 ∉ name)
    (hlen : name.length < maxFilenameLen) :
    slotNr (putBytes d (slotAt start t) (entryBytes nr name)) start t = nr ∧
      slotName (putBytes d (slotAt start t) (entryBytes nr name)) start t = name := by
  have hsplit : putBytes d (slotAt start t) (entryBytes nr name) =
      putBytes (putBytes d (slotAt start t) (u32Bytes nr)) (slotAt start t + 4) (name ++ [0]) := by
    rw [entryBytes, List.append_assoc, putBytes_append, u32Bytes_length]
  rw [hsplit]
  constructor
  · have hu : u32At (putBytes (putBytes d (slotAt start t) (u32Bytes nr)) (slotAt start t + 4)
        (name ++ [0])) (slotAt start t) = nr := by
      rw [u32At_putBytes_of_disjoint (.inr (Nat.le_refl _)), u32At_putBytes (by omega)]
    rw [slotNr, hu]
    apply toI32_of_inI32
    constructor
    · omega
    · omega
  · rw [slotName]
    apply cstring_of_zero hname hlen
    · intro i hi
      rw [putBytes_add (by rw [List.length_append]; omega), List.getElem_append_left hi]
    · rw [putBytes_add (by simp), List.getElem_append_right (Nat.le_refl _)]
      simp

theorem slot_stored_of_ne {u : Nat} (hlen : name.length < maxFilenameLen) (hu : u ≠ t) :
    slotNr (putBytes d (slotAt start t) (entryBytes nr name)) start u = slotNr d start u ∧
      slotName (putBytes d (slotAt start t) (entryBytes nr name)) start u =
        slotName d start u := by
  apply slot_putBytes
  have hapart := @slotAt_apart start t u hu
  have hlength := entryBytes_length nr name
  have hd : dirEntSize = 16 := rfl
  have hm : maxFilenameLen = 12 := rfl
  omega

theorem dirSlots_stored (hnr : nr < 2 ^ 31) (hpos : 0 < nr) (hname : 0 ∉ name)
    (hlen : name.length < maxFilenameLen) :
    dirSlots (putBytes d (slotAt start t) (entryBytes nr name)) start =
      Function.update (dirSlots d start) t (some (name, (nr : Int))) := by
  funext u
  by_cases hu : u = t
  · subst hu
    obtain ⟨hself, hself'⟩ := @slot_stored_self d start u nr name hnr hname hlen
    rw [Function.update_self, dirSlots_eq_some_iff, hself, hself']
    exact ⟨by omega, rfl, rfl⟩
  · obtain ⟨hne, hne'⟩ := @slot_stored_of_ne d start t nr name u hlen hu
    rw [Function.update_of_ne hu, dirSlots, dirSlots, hne, hne']

variable {m n n' : Nat}

theorem TableOk.congr {d' : Bytes} (h : TableOk d start m n) (hn : n ≤ n')
    (hd : ∀ u, slotNr d' start u = slotNr d start u ∧ slotName d' start u = slotName d start u) :
    TableOk d' start m n' := by
  have hslots : dirSlots d' start = dirSlots d start := by
    funext u
    rw [dirSlots, dirSlots, (hd u).1, (hd u).2]
  constructor
  · intro u hu hz
    rw [(hd u).1] at hz
    exact Nat.lt_of_lt_of_le (h.covers u hu hz) hn
  · intro u hu hz
    rw [(hd u).1] at hz
    rw [(hd u).2]
    exact h.name_length u hu hz
  · intro u hu hz
    rw [(hd u).1] at hz
    rw [(hd u).2]
    exact h.free_name u hu hz
  · rw [hslots]
    exact h.distinct

theorem TableOk.fill (h : TableOk d start m n) (hn : n ≤ n') (ht : t < n') (hnr : nr < 2 ^ 31)
    (hpos : 0 < nr) (hname : 0 ∉ name) (hne : name ≠ []) (hlen : name.length < maxFilenameLen)
    (hfresh : (dirSlots d start).find m name = none) :
    TableOk (putBytes d (slotAt start t) (entryBytes nr name)) start m n' := by
  obtain ⟨hself, hself'⟩ := @slot_stored_self d start t nr name hnr hname hlen
  constructor
  · intro u hu hz
    by_cases hut : u = t
    · rw [hut]
      exact ht
    · rw [(slot_stored_of_ne hlen hut).1] at hz
      exact Nat.lt_of_lt_of_le (h.covers u hu hz) hn
  · intro u hu hz
    by_cases hut : u = t
    · rw [hut, hself']
      exact ⟨hne, hlen⟩
    · rw [(slot_stored_of_ne hlen hut).1] at hz
      rw [(slot_stored_of_ne hlen hut).2]
      exact h.name_length u hu hz
  · intro u hu hz
    by_cases hut : u = t
    · rw [hut, hself] at hz
      omega
    · rw [(slot_stored_of_ne hlen hut).1] at hz
      rw [(slot_stored_of_ne hlen hut).2]
      exact h.free_name u hu hz
  · rw [dirSlots_stored hnr hpos hname hlen]
    apply h.distinct.fill
    intro u w hu
    exact Slots.find_eq_none_iff.mp hfresh u w hu

end Stored

section Created

variable {s : Fs} {r : Fin nrInode} {name : List UInt8} {nr i j : Nat} {b : Bytes}

theorem inodePlace_le (h : RootAt s r) (t : Nat) (d : Inode) :
    inodePlace s.sb (s.inodeTable r).iNum.toNat + d.disk.bytes.length ≤
      slotAt (s.inodeTable r).iStartSect t := by
  have hin := h.inode
  have hoff := inodeOff_le (s.inodeTable r).iNum.toNat
  have hstart := slotAt_le (s.inodeTable r).iStartSect t
  have hs : sectorSize = 512 := rfl
  have hi : inodeSize = 32 := rfl
  rw [DiskInode.bytes_length, inodePlace]
  rw [hs] at hoff hstart ⊢
  omega

theorem slot_withEntry (h : RootAt s r) (t : Nat) :
    let d := putBytes s.disk (slotAt (s.inodeTable r).iStartSect (entriesPerSect * i + j))
      ((entryBytes nr name).take (sectorSize - dirEntSize * j))
    slotNr (s.withEntry r i j name nr b).disk (s.inodeTable r).iStartSect t =
        slotNr d (s.inodeTable r).iStartSect t ∧
      slotName (s.withEntry r i j name nr b).disk (s.inodeTable r).iStartSect t =
        slotName d (s.inodeTable r).iStartSect t :=
  slot_putBytes (Or.inl (inodePlace_le h t _))

@[simp] theorem withEntry_inode :
    (s.withEntry r i j name nr b).inodeTable r =
      (s.inodeTable r).grown (entriesPerSect * i + j) := by
  simp [Fs.withEntry]

theorem RootAt.withEntry (h : RootAt s r) : RootAt (s.withEntry r i j name nr b) r where
  root := h.root
  dev := by
    rw [withEntry_inode]
    exact h.dev
  num := by
    rw [withEntry_inode]
    exact h.num
  inode := by
    rw [withEntry_inode]
    exact h.inode
  addr := by
    rw [withEntry_inode]
    exact h.addr

theorem grown_size {d : Inode} (hsize : d.iSize + dirEntSize < 2 ^ 32) (t : Nat) :
    (d.grown t).iSize = if t = d.entries then d.iSize + dirEntSize else d.iSize := by
  by_cases ht : t = d.entries
  · rw [Inode.grown, if_pos ht, if_pos ht, Nat.mod_eq_of_lt hsize]
  · rw [Inode.grown, if_neg ht, if_neg ht]

theorem grown_entries {d : Inode} (hsize : d.iSize + dirEntSize < 2 ^ 32) (t : Nat) :
    (d.grown t).entries = if t = d.entries then d.entries + 1 else d.entries := by
  rw [Inode.entries, grown_size hsize]
  by_cases ht : t = d.entries
  · rw [if_pos ht, if_pos ht, Nat.add_div_right _ (by decide)]
    rfl
  · rw [if_neg ht, if_neg ht]
    rfl

theorem DirOk.size_lt (h : DirOk s r) : (s.inodeTable r).iSize + dirEntSize < 2 ^ 32 := by
  have haddr := h.addr
  have hsize := h.size
  have hs : sectorSize = 512 := rfl
  have hd : dirEntSize = 16 := rfl
  rw [hs] at haddr hsize
  omega

theorem DirOk.grown_le (h : DirOk s r) {t : Nat} (ht : t < (s.inodeTable r).slots) :
    ((s.inodeTable r).grown t).iSize ≤ sectorSize * (s.inodeTable r).iNrSects ∧
      ((s.inodeTable r).grown t).iSize % dirEntSize = 0 := by
  have hsize := h.size
  have hwhole := h.whole
  have hs : sectorSize = 512 := rfl
  have hd : dirEntSize = 16 := rfl
  have he : entriesPerSect = 32 := rfl
  rw [grown_size h.size_lt]
  rw [Inode.slots, he] at ht
  rw [hs] at hsize ⊢
  by_cases hn : t = (s.inodeTable r).entries
  · rw [if_pos hn]
    rw [Inode.entries] at hn
    rw [hd] at hn hwhole ⊢
    omega
  · rw [if_neg hn]
    exact ⟨hsize, hwhole⟩

theorem DirOk.entries_le_grown (h : DirOk s r) (t : Nat) :
    (s.inodeTable r).entries ≤ ((s.inodeTable r).grown t).entries := by
  rw [grown_entries h.size_lt]
  by_cases hn : t = (s.inodeTable r).entries
  · rw [if_pos hn]
    omega
  · rw [if_neg hn]

theorem NewSlot.lt_grown_entries (h : DirOk s r)
    (hslot : NewSlot s.disk (s.inodeTable r).iStartSect (s.inodeTable r).entries i j) :
    entriesPerSect * i + j <
      ((s.inodeTable r).grown (entriesPerSect * i + j)).entries := by
  have hle := hslot.le
  rw [grown_entries h.size_lt]
  by_cases hn : entriesPerSect * i + j = (s.inodeTable r).entries
  · rw [if_pos hn]
    omega
  · rw [if_neg hn]
    omega

theorem NewSlot.free (h : DirOk s r)
    (hslot : NewSlot s.disk (s.inodeTable r).iStartSect (s.inodeTable r).entries i j)
    (ht : entriesPerSect * i + j < (s.inodeTable r).slots) :
    slotNr s.disk (s.inodeTable r).iStartSect (entriesPerSect * i + j) = 0 := by
  by_contra hz
  exact hz (hslot.here (h.table.covers _ ht hz))

theorem DirOk.withEntry (h : DirOk s r) (ht : entriesPerSect * i + j < (s.inodeTable r).slots)
    (htable : TableOk (s.withEntry r i j name nr b).disk (s.inodeTable r).iStartSect
      (s.inodeTable r).slots ((s.inodeTable r).grown (entriesPerSect * i + j)).entries) :
    DirOk (s.withEntry r i j name nr b) r := by
  obtain ⟨hsize, hwhole⟩ := h.grown_le ht
  refine ⟨h.toRootAt.withEntry, ?_, ?_, ?_⟩
  · rw [withEntry_inode]
    exact hsize
  · rw [withEntry_inode]
    exact hwhole
  · rw [withEntry_inode]
    exact htable

theorem dirMap_withEntry (x : List UInt8) :
    (s.withEntry r i j name nr b).dirMap r x =
      (dirSlots (s.withEntry r i j name nr b).disk (s.inodeTable r).iStartSect).find
        (s.inodeTable r).slots x := by
  rw [Fs.dirMap, withEntry_inode]
  rfl

/-- An entry inside its sector extends the map of the directory. -/
theorem DirOk.fill (h : DirOk s r) (hi : i < (s.inodeTable r).iNrSects)
    (hslot : NewSlot s.disk (s.inodeTable r).iStartSect (s.inodeTable r).entries i j)
    (hj : j < entriesPerSect) (hnr : nr < 2 ^ 31) (hpos : 0 < nr) (hname : 0 ∉ name)
    (hne : name ≠ []) (hlen : name.length < maxFilenameLen) (hfresh : s.dirMap r name = none) :
    DirOk (s.withEntry r i j name nr b) r ∧
      (s.withEntry r i j name nr b).dirMap r name = some (nr : Int) ∧
      ∀ x, x ≠ name → (s.withEntry r i j name nr b).dirMap r x = s.dirMap r x := by
  have hs : sectorSize = 512 := rfl
  have hd : dirEntSize = 16 := rfl
  have he : entriesPerSect = 32 := rfl
  have hm : maxFilenameLen = 12 := rfl
  have ht : entriesPerSect * i + j < (s.inodeTable r).slots := by
    rw [Inode.slots, he]
    omega
  have htake : (entryBytes nr name).take (sectorSize - dirEntSize * j) = entryBytes nr name := by
    apply List.take_of_length_le
    rw [entryBytes_length, hs, hd]
    omega
  have hdisk := fun u => @slot_withEntry s r name nr i j b h.toRootAt u
  simp only [htake] at hdisk
  have hslots : dirSlots (s.withEntry r i j name nr b).disk (s.inodeTable r).iStartSect =
      Function.update (dirSlots s.disk (s.inodeTable r).iStartSect) (entriesPerSect * i + j)
        (some (name, (nr : Int))) := by
    rw [← dirSlots_stored hnr hpos hname hlen]
    funext u
    rw [dirSlots, dirSlots, (hdisk u).1, (hdisk u).2]
  have hnew := Slots.find_eq_none_iff.mp hfresh
  refine ⟨h.withEntry ht ?_, ?_, fun x hx => ?_⟩
  · exact (h.table.fill (h.entries_le_grown _) (hslot.lt_grown_entries h) hnr hpos hname hne hlen
      hfresh).congr (Nat.le_refl _) hdisk
  · rw [dirMap_withEntry, hslots]
    exact h.table.distinct.find_fill_self ht fun u w hu => hnew u w hu
  · rw [dirMap_withEntry, hslots]
    exact h.table.distinct.find_fill_of_ne (dirSlots_eq_none_iff.mpr (hslot.free h ht))
      (fun u w hu => hnew u w hu) hx

/-- An entry behind its sector is not written: only the size of the directory changes. -/
theorem DirOk.edge (h : DirOk s r)
    (hj : j = entriesPerSect) (ht : entriesPerSect * i + j < (s.inodeTable r).slots) :
    DirOk (s.withEntry r i j name nr b) r ∧
      ∀ x, (s.withEntry r i j name nr b).dirMap r x = s.dirMap r x := by
  have htake : (entryBytes nr name).take (sectorSize - dirEntSize * j) = [] := by
    rw [hj]
    rfl
  have hput : ∀ a, putBytes s.disk a [] = s.disk := by
    intro a
    funext x
    simp [putBytes]
  have hdisk := fun u => @slot_withEntry s r name nr i j b h.toRootAt u
  simp only [htake, hput] at hdisk
  refine ⟨h.withEntry ht (h.table.congr (h.entries_le_grown _) hdisk), fun x => ?_⟩
  have hslots : dirSlots (s.withEntry r i j name nr b).disk (s.inodeTable r).iStartSect =
      dirSlots s.disk (s.inodeTable r).iStartSect := by
    funext u
    rw [dirSlots, dirSlots, (hdisk u).1, (hdisk u).2]
  rw [dirMap_withEntry, hslots]
  rfl

end Created

/-- A file name: 1 to 11 characters, none of them a slash. -/
structure FileName (name : List UInt8) : Prop where
  ne_nil : name ≠ []
  length : name.length < maxFilenameLen
  slash : 47 ∉ name
  zero : 0 ∉ name

/-- After the creation the search finds the new name, every other path names what it named before,
and the size of the directory covers its entries. -/
def Added (s : Fs) (r : Fin nrInode) (name : List UInt8) (nr : Nat) : Prop :=
  ∃ s', FS.newDirectoryEntry r name nr s = .ok () s' ∧
    (∀ path, stripPath path = some name → s'.lookup path = nr) ∧
    (∀ path, stripPath path ≠ some name → s'.lookup path = s.lookup path) ∧
    ∀ t, t < (s'.inodeTable r).slots → slotNr s'.disk (s'.inodeTable r).iStartSect t ≠ 0 →
      t < (s'.inodeTable r).entries

section Added

variable {s : Fs} {r : Fin nrInode} {name : List UInt8} {nr : Nat}

theorem stripPath_of_fileName (h : FileName name) : stripPath name = some name := by
  have htake : name.take maxFilenameLen = name := List.take_of_length_le (Nat.le_of_lt h.length)
  have hhead : name.head? ≠ some 47 := fun hs => h.slash (List.mem_of_head? hs)
  rw [stripPath]
  simp only [hhead, if_false, htake, h.slash]

theorem NewSlot.inside_iff {d : Bytes} {start n i j : Nat} (h : NewSlot d start n i j) :
    j < entriesPerSect ↔
      (∃ t, t < n ∧ slotNr d start t = 0) ∨ n = 0 ∨ n % entriesPerSect ≠ 0 := by
  have hedge := h.edge
  have hindex := h.index
  have hle := h.le
  constructor
  · intro hj
    by_cases hn : entriesPerSect * i + j < n
    · exact Or.inl ⟨_, hn, h.here hn⟩
    · omega
  · rintro (⟨t, ht, hz⟩ | hn)
    · have hfirst : entriesPerSect * i + j ≤ t := by
        by_contra hlt
        exact h.before t (by omega) hz
      omega
    · omega

theorem newDirectoryEntry_ok (h : DirOk s r)
    (hroom : ∃ t, t < (s.inodeTable r).slots ∧ slotNr s.disk (s.inodeTable r).iStartSect t = 0) :
    ∃ i j b, i < (s.inodeTable r).iNrSects ∧
      NewSlot s.disk (s.inodeTable r).iStartSect (s.inodeTable r).entries i j ∧
      entriesPerSect * i + j < (s.inodeTable r).slots ∧
      FS.newDirectoryEntry r name nr s = .ok () (s.withEntry r i j name nr b) := by
  obtain ⟨t, ht, hz⟩ := hroom
  have hsize := h.size
  have hs : sectorSize = 512 := rfl
  have hd : dirEntSize = 16 := rfl
  have he : entriesPerSect = 32 := rfl
  have hspec := @FS.newDirectoryEntry_spec s r name nr h.toRootAt
  have hnever : ¬ ((s.inodeTable r).iNrSects = 0 ∨
      (s.inodeTable r).slots < (s.inodeTable r).entries) := by
    rw [Inode.slots, he] at ht ⊢
    rw [Inode.entries, hd]
    rw [hs] at hsize
    omega
  obtain ⟨⟨⟩, s', hok, i, j, b, hi, hslot, rfl⟩ :=
    exists_ok_of_wp (wp_mono hspec (fun _ _ hQ => hQ) (fun _ _ hE => hnever hE))
  refine ⟨i, j, b, hi, hslot, ?_, hok⟩
  -- no slot in front of the new one is free
  have hfirst : entriesPerSect * i + j ≤ t := by
    by_contra hlt
    exact hslot.before t (by omega) hz
  omega

variable (h : DirOk s r)
  (hroom : ∃ t, t < (s.inodeTable r).slots ∧ slotNr s.disk (s.inodeTable r).iStartSect t = 0)
  (hname : FileName name) (hfresh : s.dirMap r name = none) (hpos : 0 < nr) (hnr : nr < 2 ^ 31)
include h hroom hname hfresh hpos hnr

theorem added_of_inside
    (hin : (∃ t, t < (s.inodeTable r).entries ∧
        slotNr s.disk (s.inodeTable r).iStartSect t = 0) ∨
      (s.inodeTable r).entries = 0 ∨ (s.inodeTable r).entries % entriesPerSect ≠ 0) :
    Added s r name nr := by
  obtain ⟨i, j, b, hi, hslot, ht, hok⟩ := @newDirectoryEntry_ok s r name nr h hroom
  have hj := hslot.inside_iff.mpr hin
  obtain ⟨h', hself, hother⟩ := @DirOk.fill s r name nr i j b h hi hslot hj hnr hpos hname.zero
    hname.ne_nil hname.length hfresh
  refine ⟨_, hok, fun path hp => ?_, fun path hp => ?_, h'.table.covers⟩
  · rw [h'.lookup_eq hp hname.ne_nil hname.length, hself, Option.getD_some]
  · apply h.lookup_congr h'
    · rw [withEntry_inode]
      rfl
    · intro x hx
      exact hother x fun hxn => hp (hxn ▸ hx)

theorem not_added_of_edge
    (hfull : ∀ t, t < (s.inodeTable r).entries →
      slotNr s.disk (s.inodeTable r).iStartSect t ≠ 0)
    (hn : 0 < (s.inodeTable r).entries) (hmod : (s.inodeTable r).entries % entriesPerSect = 0) :
    ¬ Added s r name nr := by
  rintro ⟨s', hok', hfind, -⟩
  obtain ⟨i, j, b, hi, hslot, ht, hok⟩ := @newDirectoryEntry_ok s r name nr h hroom
  rw [hok] at hok'
  cases hok'
  have hj : j = entriesPerSect := by
    have hle := hslot.index
    have hnot : ¬ j < entriesPerSect := by
      rw [hslot.inside_iff]
      rintro (⟨t, htn, hz⟩ | hn' | hmod')
      · exact hfull t htn hz
      · omega
      · exact hmod' hmod
    omega
  obtain ⟨h', hmap⟩ := @DirOk.edge s r name nr i j b h hj ht
  have hlookup := hfind name (stripPath_of_fileName hname)
  rw [h'.lookup_eq (stripPath_of_fileName hname) hname.ne_nil hname.length, hmap, hfresh,
    Option.getD_none] at hlookup
  omega

/-- A created file is found, and nothing else changes, unless the slots of the directory are all
taken and end at the edge of a sector. -/
theorem added_iff : Added s r name nr ↔
    (∃ t, t < (s.inodeTable r).entries ∧ slotNr s.disk (s.inodeTable r).iStartSect t = 0) ∨
      (s.inodeTable r).entries = 0 ∨ (s.inodeTable r).entries % entriesPerSect ≠ 0 := by
  constructor
  · intro hadd
    by_contra hnot
    push Not at hnot
    obtain ⟨hfull, hn, hmod⟩ := hnot
    exact not_added_of_edge h hroom hname hfresh hpos hnr hfull (by omega) hmod hadd
  · exact added_of_inside h hroom hname hfresh hpos hnr

end Added

section Letters

variable {live : Nat → Bool} {n : Nat}

theorem dirMap_letterFs (c c' : UInt8) (name : List UInt8) :
    (letterFs live n).dirMap letterRoot (c :: c' :: name) = none := by
  apply Slots.find_eq_none_iff.mpr
  intro t v ht hT
  obtain ⟨-, hname, -⟩ := dirSlots_eq_some_iff.mp hT
  have hslot := @slotName_letterDisk live t ht
  rw [show (letterFs live n).disk = letterDisk live from rfl] at hname
  rw [show ((letterFs live n).inodeTable letterRoot).iStartSect = 8 from rfl, hslot] at hname
  cases hl : live t with
  | false => simp [hl] at hname
  | true => simp [hl] at hname

def nameAb : List UInt8 := [97, 98]

theorem fileName_ab : FileName nameAb where
  ne_nil := by decide
  length := by decide
  slash := by decide
  zero := by decide

/-- A directory of 34 slots with a hole: the new entry fills it. -/
theorem added_letters : Added (letterFs (fun t => t < 34 && t ≠ 20) 34) letterRoot nameAb 77 := by
  have h : DirOk (letterFs (fun t => t < 34 && t ≠ 20) 34) letterRoot := by
    apply dirOk_letterFs (by omega)
    intro t ht
    simp at ht
    omega
  have hroom : slotNr (letterDisk fun t => t < 34 && t ≠ 20) 8 60 = 0 :=
    (slotNr_letterDisk (by decide)).trans (by decide)
  refine (added_iff h ⟨60, by decide, hroom⟩ fileName_ab (dirMap_letterFs _ _ _) (by decide)
    (by decide)).mpr (Or.inr (Or.inr ?_))
  rw [letterFs_entries]
  decide

/-- 32 entries fill the first sector; the entry for the next file is lost. -/
theorem entry_lost_behind_full_sector :
    DirOk (letterFs (fun t => t < 32) 32) letterRoot ∧
      (∃ t, t < ((letterFs (fun t => t < 32) 32).inodeTable letterRoot).slots ∧
        slotNr (letterFs (fun t => t < 32) 32).disk
          ((letterFs (fun t => t < 32) 32).inodeTable letterRoot).iStartSect t = 0) ∧
      (letterFs (fun t => t < 32) 32).dirMap letterRoot nameAb = none ∧
      ¬ Added (letterFs (fun t => t < 32) 32) letterRoot nameAb 77 := by
  have h : DirOk (letterFs (fun t => t < 32) 32) letterRoot := by
    apply dirOk_letterFs (by omega)
    intro t ht
    simpa using ht
  have hroom : slotNr (letterDisk fun t => t < 32) 8 60 = 0 :=
    (slotNr_letterDisk (by decide)).trans (by decide)
  have hfresh := @dirMap_letterFs (fun t => t < 32) 32 97 98 []
  refine ⟨h, ⟨60, by decide, hroom⟩, hfresh, ?_⟩
  apply not_added_of_edge h ⟨60, by decide, hroom⟩ fileName_ab hfresh (by decide) (by decide)
  · intro t ht
    rw [letterFs_entries] at ht
    have hslot := @slotNr_letterDisk (fun t => t < 32) t (by omega)
    rw [if_pos (by simpa using ht)] at hslot
    intro hz
    have hz' : slotNr (letterDisk fun t => t < 32) 8 t = 0 := hz
    omega
  · rw [letterFs_entries]
    decide
  · rw [letterFs_entries]
    decide

end Letters

end BazingaOS
