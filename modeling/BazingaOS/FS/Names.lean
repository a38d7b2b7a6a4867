import BazingaOS.FS.NewEntry
import BazingaOS.Lib.Run

/-!
# Names in directory entries

A name goes through `strip_path`, which cuts it at 12 characters, and is copied with its final zero
into a field of 12 bytes. The search compares up to the first zero of that field. A name of at most
11 characters passes unchanged; a longer one loses its end or its final zero, which then is the
lowest byte of the inode number in the slot behind.
-/

namespace BazingaOS

open Prog

/-- A name that `do_open` takes: not empty, without a slash, and shorter than `MAX_PATH`. -/
structure Accepted (name : List UInt8) : Prop where
  ne_nil : name ≠ []
  slash : 47 ∉ name
  zero : 0 ∉ name
  length : name.length < maxPath

/-- The slot that the next entry goes to, where it goes to a slot at all. -/
structure NextSlot (s : Fs) (r : Fin nrInode) (t : Nat) : Prop where
  before : ∀ u, u < t → slotNr s.disk (s.inodeTable r).iStartSect u ≠ 0
  here : t < (s.inodeTable r).entries → slotNr s.disk (s.inodeTable r).iStartSect t = 0
  le : t ≤ (s.inodeTable r).entries
  inside : t = (s.inodeTable r).entries →
    (s.inodeTable r).entries = 0 ∨ (s.inodeTable r).entries % entriesPerSect ≠ 0

/-- The creation of the entry `c` in the directory of `r`. -/
def Creation (r : Fin nrInode) (s : Fs) (c : List UInt8 × Nat) (s' : Fs) : Prop :=
  FS.newDirectoryEntry r c.1 c.2 s = .ok () s'

/-- Two disks that differ in slot `t` at most. -/
def SameButSlot (start t : Nat) (d d' : Bytes) : Prop :=
  SameOutside (slotAt start t) dirEntSize d d'

/-- Slot `t` has the entry, the name is in no slot in front of it, and no slot up to it is free. -/
structure EntryAt (s : Fs) (r : Fin nrInode) (t : Nat) (name : List UInt8) (nr : Int) : Prop where
  rootAt : RootAt s r
  size : (s.inodeTable r).iSize < sectorSize * (s.inodeTable r).iNrSects + 2 * dirEntSize
  covered : t < (s.inodeTable r).entries
  taken : ∀ u, u ≤ t → slotNr s.disk (s.inodeTable r).iStartSect u ≠ 0
  first : ∀ u, u < t → slotName s.disk (s.inodeTable r).iStartSect u ≠ name
  name_eq : slotName s.disk (s.inodeTable r).iStartSect t = name
  nr_eq : slotNr s.disk (s.inodeTable r).iStartSect t = nr

section Entry

variable {s s' : Fs} {r : Fin nrInode} {t : Nat} {name path : List UInt8} {nr : Int}

theorem EntryAt.lookup (h : EntryAt s r t name nr) (hp : stripPath path = some name)
    (hne : name ≠ []) (hlen : name.length < maxFilenameLen) : s.lookup path = nr := by
  have hbound := lt_searchBound h.covered
  rcases h.rootAt.lookup_spec h.size hp hne hlen with ⟨u, hu, hname, hfirst, hnr⟩ | ⟨hall, -⟩
  · have hle : u ≤ t := by
      by_contra hlt
      exact hfirst t (by omega) h.name_eq
    have hge : t ≤ u := by
      by_contra hlt
      exact h.first u (by omega) hname
    obtain rfl : u = t := by omega
    rw [hnr, h.nr_eq]
  · exact absurd h.name_eq (hall t hbound)

theorem EntryAt.congr (h : EntryAt s r t name nr) (hr : RootAt s' r)
    (hstart : (s'.inodeTable r).iStartSect = (s.inodeTable r).iStartSect)
    (hsize : (s'.inodeTable r).iSize <
      sectorSize * (s'.inodeTable r).iNrSects + 2 * dirEntSize)
    (hcov : t < (s'.inodeTable r).entries)
    (hslot : ∀ u, u ≤ t →
      slotNr s'.disk (s.inodeTable r).iStartSect u = slotNr s.disk (s.inodeTable r).iStartSect u ∧
      slotName s'.disk (s.inodeTable r).iStartSect u =
        slotName s.disk (s.inodeTable r).iStartSect u) : EntryAt s' r t name nr where
  rootAt := hr
  size := hsize
  covered := hcov
  taken u hu := by
    rw [hstart, (hslot u hu).1]
    exact h.taken u hu
  first u hu := by
    rw [hstart, (hslot u (by omega)).2]
    exact h.first u hu
  name_eq := by rw [hstart, (hslot t (Nat.le_refl t)).2, h.name_eq]
  nr_eq := by rw [hstart, (hslot t (Nat.le_refl t)).1, h.nr_eq]

theorem EntryAt.following (h : EntryAt s r t name nr) {d : Bytes}
    (hd : SameButSlot (s.inodeTable r).iStartSect (t + 1) s.disk d) :
    EntryAt { s with disk := d } r t name nr := by
  have hr : RootAt { s with disk := d } r :=
    ⟨h.rootAt.root, h.rootAt.dev, h.rootAt.num, h.rootAt.inode, h.rootAt.addr⟩
  apply h.congr hr rfl h.size h.covered
  intro u hu
  apply slot_congr
  intro i _ hi
  apply hd
  have hde : dirEntSize = 16 := rfl
  rw [slotAt, hde] at hi ⊢
  omega

theorem Creation.spec {c : List UInt8 × Nat} (h : RootAt s r) (hc : Creation r s c s') :
    ∃ i j b, i < (s.inodeTable r).iNrSects ∧
      NewSlot s.disk (s.inodeTable r).iStartSect (s.inodeTable r).entries i j ∧
      s' = s.withEntry r i j c.1 c.2 b :=
  wp_ok (FS.newDirectoryEntry_spec h) hc

theorem size_lt_of_lt (h : RootAt s r)
    (hsize : (s.inodeTable r).iSize < sectorSize * (s.inodeTable r).iNrSects + 2 * dirEntSize) :
    (s.inodeTable r).iSize + dirEntSize < 2 ^ 32 := by
  have haddr := h.addr
  have hs : sectorSize = 512 := rfl
  have hd : dirEntSize = 16 := rfl
  rw [hs] at haddr
  rw [hs, hd] at hsize
  rw [hd]
  omega

theorem grown_size_lt (h : RootAt s r)
    (hsize : (s.inodeTable r).iSize < sectorSize * (s.inodeTable r).iNrSects + 2 * dirEntSize)
    {i j : Nat} (hi : i < (s.inodeTable r).iNrSects) (hj : j ≤ entriesPerSect) :
    ((s.inodeTable r).grown (entriesPerSect * i + j)).iSize <
      sectorSize * (s.inodeTable r).iNrSects + 2 * dirEntSize := by
  have hs : sectorSize = 512 := rfl
  have hd : dirEntSize = 16 := rfl
  have he : entriesPerSect = 32 := rfl
  rw [grown_size (size_lt_of_lt h hsize)]
  by_cases ht : entriesPerSect * i + j = (s.inodeTable r).entries
  · rw [if_pos ht]
    rw [Inode.entries, he, hd] at ht
    rw [hs, hd]
    omega
  · rw [if_neg ht]
    exact hsize

theorem EntryAt.creation {c : List UInt8 × Nat} (h : EntryAt s r t name nr)
    (hc : Creation r s c s') : EntryAt s' r t name nr := by
  obtain ⟨i, j, b, hi, hslot, rfl⟩ := hc.spec h.rootAt
  have hcov := h.covered
  have hbehind : t < entriesPerSect * i + j := by
    by_contra hle
    exact h.taken _ (by omega) (hslot.here (by omega))
  apply h.congr h.rootAt.withEntry
  · rw [withEntry_inode]
    rfl
  · rw [withEntry_inode]
    exact grown_size_lt h.rootAt h.size hi hslot.index
  · rw [withEntry_inode, grown_entries (size_lt_of_lt h.rootAt h.size)]
    by_cases ht : entriesPerSect * i + j = (s.inodeTable r).entries
    · rw [if_pos ht]
      omega
    · rw [if_neg ht]
      exact hcov
  · intro u hu
    obtain ⟨hnr, hname⟩ := @slot_withEntry s r c.1 c.2 i j b h.rootAt u
    rw [hnr, hname]
    apply slot_putBytes
    right
    have hd : dirEntSize = 16 := rfl
    rw [slotAt, slotAt, hd]
    omega

theorem EntryAt.of_run {cs : List (List UInt8 × Nat)} (hr : Run (Creation r) s cs s')
    (h : EntryAt s r t name nr) : EntryAt s' r t name nr :=
  Run.invariant (I := fun u => EntryAt u r t name nr) hr h fun _ _ _ hc hu => hu.creation hc

end Entry

section Stored

variable {s s' : Fs} {r : Fin nrInode} {t nr : Nat} {name : List UInt8}

theorem NextSlot.eq {i j : Nat} (h : NextSlot s r t)
    (hslot : NewSlot s.disk (s.inodeTable r).iStartSect (s.inodeTable r).entries i j) :
    entriesPerSect * i + j = t ∧ j < entriesPerSect := by
  have hle := h.le
  have hle' := hslot.le
  have heq : entriesPerSect * i + j = t := by
    rcases Nat.lt_trichotomy (entriesPerSect * i + j) t with hlt | heq | hgt
    · exact absurd (hslot.here (by omega)) (h.before _ hlt)
    · exact heq
    · exact absurd (h.here (by omega)) (hslot.before _ hgt)
  refine ⟨heq, hslot.inside_iff.mpr ?_⟩
  by_cases hn : t < (s.inodeTable r).entries
  · exact Or.inl ⟨t, hn, h.here hn⟩
  · exact Or.inr (h.inside (by omega))

variable (hr : RootAt s r)
  (hsize : (s.inodeTable r).iSize ≤ sectorSize * (s.inodeTable r).iNrSects)
  (hnext : NextSlot s r t) (hpos : 0 < nr) (hnr : nr < 2 ^ 31) (hzero : 0 ∉ name)
  (hlen : name.length < maxFilenameLen) (hc : Creation r s (name, nr) s')
include hr hnext hlen hc

theorem stored_disk : ∃ i j b, i < (s.inodeTable r).iNrSects ∧ j < entriesPerSect ∧
    entriesPerSect * i + j = t ∧ s' = s.withEntry r i j name nr b ∧
    s'.disk = putBytes (putBytes s.disk (slotAt (s.inodeTable r).iStartSect t)
      (entryBytes nr name)) (inodePlace s.sb (s.inodeTable r).iNum.toNat)
      ((s.inodeTable r).grown t).disk.bytes := by
  obtain ⟨i, j, b, hi, hslot, rfl⟩ := hc.spec hr
  obtain ⟨ht, hj⟩ := hnext.eq hslot
  have htake : (entryBytes nr name).take (sectorSize - dirEntSize * j) = entryBytes nr name := by
    apply List.take_of_length_le
    have hs : sectorSize = 512 := rfl
    have hd : dirEntSize = 16 := rfl
    have he : entriesPerSect = 32 := rfl
    have hm : maxFilenameLen = 12 := rfl
    rw [entryBytes_length, hs, hd]
    omega
  refine ⟨i, j, b, hi, hj, ht, rfl, ?_⟩
  rw [Fs.withEntry]
  simp only [ht, htake]

theorem following_kept :
    ∀ a, slotAt (s.inodeTable r).iStartSect (t + 1) ≤ a → s'.disk a = s.disk a := by
  intro a ha
  obtain ⟨i, j, b, -, -, -, -, hdisk⟩ := stored_disk hr hnext hlen hc
  have hplace := inodePlace_le hr t ((s.inodeTable r).grown t)
  have hlength := entryBytes_length nr name
  have hd : dirEntSize = 16 := rfl
  have hm : maxFilenameLen = 12 := rfl
  rw [slotAt, hd] at ha
  rw [slotAt, hd] at hplace
  rw [hdisk, putBytes_of_ge (by omega), putBytes_of_ge]
  rw [slotAt, hd]
  omega

include hsize hpos hnr hzero

theorem entryAt_stored
    (hfresh : ∀ u, u < t → slotName s.disk (s.inodeTable r).iStartSect u ≠ name) :
    EntryAt s' r t name nr := by
  obtain ⟨i, j, b, hi, hj, ht, rfl, hdisk⟩ := stored_disk hr hnext hlen hc
  have hs : sectorSize = 512 := rfl
  have hd : dirEntSize = 16 := rfl
  have hsize' : (s.inodeTable r).iSize <
      sectorSize * (s.inodeTable r).iNrSects + 2 * dirEntSize :=
    Nat.lt_of_le_of_lt hsize (Nat.lt_add_of_pos_right (by decide))
  have hplace := fun u => inodePlace_le hr u ((s.inodeTable r).grown t)
  have hne : (nr : Int) ≠ 0 := by omega
  have hother : ∀ u, u ≠ t →
      slotNr (s.withEntry r i j name nr b).disk (s.inodeTable r).iStartSect u =
        slotNr s.disk (s.inodeTable r).iStartSect u ∧
      slotName (s.withEntry r i j name nr b).disk (s.inodeTable r).iStartSect u =
        slotName s.disk (s.inodeTable r).iStartSect u := by
    intro u hu
    rw [hdisk, (slot_putBytes (Or.inl (hplace u))).1, (slot_putBytes (Or.inl (hplace u))).2]
    exact slot_stored_of_ne hlen hu
  have hself : slotNr (s.withEntry r i j name nr b).disk (s.inodeTable r).iStartSect t = nr ∧
      slotName (s.withEntry r i j name nr b).disk (s.inodeTable r).iStartSect t = name := by
    rw [hdisk, (slot_putBytes (Or.inl (hplace t))).1, (slot_putBytes (Or.inl (hplace t))).2]
    exact slot_stored_self hnr hzero hlen
  have hstart : ((s.withEntry r i j name nr b).inodeTable r).iStartSect =
      (s.inodeTable r).iStartSect := by
    rw [withEntry_inode]
    rfl
  constructor
  · exact hr.withEntry
  · rw [withEntry_inode]
    exact grown_size_lt hr hsize' hi (Nat.le_of_lt hj)
  · have hle := hnext.le
    rw [withEntry_inode, ht, grown_entries (size_lt_of_lt hr hsize')]
    by_cases hn : t = (s.inodeTable r).entries
    · rw [if_pos hn]
      omega
    · rw [if_neg hn]
      omega
  · intro u hu
    rw [hstart]
    by_cases hut : u = t
    · rw [hut, hself.1]
      exact hne
    · rw [(hother u hut).1]
      exact hnext.before u (by omega)
  · intro u hu
    rw [hstart, (hother u (by omega)).2]
    exact hfresh u hu
  · rw [hstart, hself.2]
  · rw [hstart, hself.1]

end Stored

/-- What `strip_path` makes of `name` is stored in the next slot without a change of the slot
behind it, and the path is found whatever that slot holds, now or after later creations; no other
name is stripped to the same. -/
def StoredFaithfully (name : List UInt8) : Prop :=
  (∀ file, stripPath name = some file → ∀ (s s' : Fs) (r : Fin nrInode) (t nr : Nat),
    RootAt s r → (s.inodeTable r).iSize ≤ sectorSize * (s.inodeTable r).iNrSects →
    NextSlot s r t → (∀ u, u < t → slotName s.disk (s.inodeTable r).iStartSect u ≠ file) →
    0 < nr → nr < 2 ^ 31 → Creation r s (file, nr) s' →
    (∀ a, slotAt (s.inodeTable r).iStartSect (t + 1) ≤ a →
      a < slotAt (s.inodeTable r).iStartSect (t + 2) → s'.disk a = s.disk a) ∧
    ∀ cs s'' d, Run (Creation r) s' cs s'' →
      SameButSlot (s''.inodeTable r).iStartSect (t + 1) s''.disk d →
      Fs.lookup { s'' with disk := d } name = nr) ∧
  ∀ name', Accepted name' → name' ≠ name → stripPath name' ≠ stripPath name

section Faithful

variable {name : List UInt8}

theorem stripPath_of_accepted (h : Accepted name) :
    stripPath name = some (name.take maxFilenameLen) := by
  have hhead : name.head? ≠ some 47 := fun hs => h.slash (List.mem_of_head? hs)
  have hslash : 47 ∉ name.take maxFilenameLen := fun hs => h.slash (List.mem_of_mem_take hs)
  rw [stripPath]
  simp only [hhead, if_false, hslash]

theorem exists_same_stripPath (h : Accepted name) (hlen : ¬ name.length < maxFilenameLen) :
    ∃ name', Accepted name' ∧ name' ≠ name ∧ stripPath name' = stripPath name := by
  have hm : maxFilenameLen = 12 := rfl
  by_cases hexact : name.length = maxFilenameLen
  · have hacc : Accepted (name ++ [97]) := by
      refine ⟨by simp, ?_, ?_, ?_⟩
      · simpa using h.slash
      · simpa using h.zero
      · have hp : maxPath = 128 := rfl
        rw [List.length_append, List.length_singleton]
        omega
    refine ⟨name ++ [97], hacc, by simp, ?_⟩
    rw [stripPath_of_accepted hacc, stripPath_of_accepted h,
      List.take_append_of_le_length (by omega)]
  · have hlength : (name.take maxFilenameLen).length = maxFilenameLen := by
      rw [List.length_take]
      omega
    have hacc : Accepted (name.take maxFilenameLen) := by
      refine ⟨?_, fun hs => h.slash (List.mem_of_mem_take hs),
        fun hz => h.zero (List.mem_of_mem_take hz), ?_⟩
      · intro hnil
        rw [hnil] at hlength
        cases hlength
      · have hp := h.length
        omega
    refine ⟨name.take maxFilenameLen, hacc, ?_, ?_⟩
    · intro heq
      rw [heq] at hlength
      exact hexact hlength
    · rw [stripPath_of_accepted hacc, stripPath_of_accepted h, List.take_take, Nat.min_self]

theorem storedFaithfully_of_lt (h : Accepted name) (hlen : name.length < maxFilenameLen) :
    StoredFaithfully name := by
  have hstrip := stripPath_of_accepted h
  rw [List.take_of_length_le (Nat.le_of_lt hlen)] at hstrip
  refine ⟨fun file hfile s s' r t nr hr hsize hnext hfresh hpos hnr hc => ?_, ?_⟩
  · rw [hstrip, Option.some.injEq] at hfile
    subst hfile
    have hentry := entryAt_stored hr hsize hnext hpos hnr h.zero hlen hc hfresh
    refine ⟨fun a ha _ => following_kept hr hnext hlen hc a ha, fun cs s'' d hrun hd => ?_⟩
    exact ((EntryAt.of_run hrun hentry).following hd).lookup hstrip h.ne_nil hlen
  · intro name' h' hne heq
    rw [hstrip, stripPath_of_accepted h', Option.some.injEq] at heq
    have hlength : (name'.take maxFilenameLen).length < maxFilenameLen := by
      rw [heq]
      exact hlen
    rw [List.length_take] at hlength
    rw [List.take_of_length_le (by omega)] at heq
    exact hne heq

/-- A name is stored faithfully exactly if it has at most 11 characters. -/
theorem storedFaithfully_iff (h : Accepted name) :
    StoredFaithfully name ↔ name.length < maxFilenameLen := by
  constructor
  · rintro ⟨-, hinj⟩
    by_contra hlen
    obtain ⟨name', hacc, hne, heq⟩ := exists_same_stripPath h hlen
    exact hinj name' hacc hne heq
  · exact storedFaithfully_of_lt h

end Faithful

theorem accepted_ab : Accepted nameAb where
  ne_nil := by decide
  slash := by decide
  zero := by decide
  length := by decide

theorem storedFaithfully_ab : Accepted nameAb ∧ StoredFaithfully nameAb :=
  ⟨accepted_ab, (storedFaithfully_iff accepted_ab).mpr (by decide)⟩

def nameLong : List UInt8 := List.replicate 12 97

def holeFs : Fs := letterFs (fun t => t = 1) 2

theorem dirOk_holeFs : DirOk holeFs letterRoot := by
  apply dirOk_letterFs (by decide)
  intro t ht
  have ht' : t = 1 := by simpa using ht
  omega

theorem slotNr_holeFs {t : Nat} (ht : t < 64) :
    slotNr holeFs.disk 8 t = if t = 1 then (t : Int) + 2 else 0 := by
  have h := @slotNr_letterDisk (fun t => t = 1) t ht
  simp only [decide_eq_true_eq] at h
  exact h

theorem slotNr_holeFs_zero : slotNr holeFs.disk 8 0 = 0 := slotNr_holeFs (by decide)

/-- The creation of a name of 12 characters clears the inode number of the next slot. -/
theorem creation_long : ∃ s', Creation letterRoot holeFs (nameLong, 77) s' ∧
    slotNr holeFs.disk 8 1 = 3 ∧ slotNr s'.disk 8 1 = 0 := by
  obtain ⟨i, j, b, -, hslot, -, hok⟩ :=
    @newDirectoryEntry_ok holeFs letterRoot nameLong 77 dirOk_holeFs
      ⟨0, by decide, slotNr_holeFs_zero⟩
  have hzero : entriesPerSect * i + j = 0 := by
    by_contra hpos
    exact hslot.before 0 (Nat.pos_of_ne_zero hpos) slotNr_holeFs_zero
  have he : entriesPerSect = 32 := rfl
  obtain ⟨rfl, rfl⟩ : i = 0 ∧ j = 0 := by
    rw [he] at hzero
    omega
  refine ⟨_, hok, slotNr_holeFs (by decide), ?_⟩
  refine (@slot_withEntry holeFs letterRoot nameLong 77 0 0 b dirOk_holeFs.toRootAt 1).1.trans ?_
  decide +kernel

/-- A name of 12 characters is accepted, and storing it removes the file in the next slot. -/
theorem long_name_clears_next_slot : Accepted nameLong ∧ DirOk holeFs letterRoot ∧
    (∃ s', Creation letterRoot holeFs (nameLong, 77) s' ∧ slotNr holeFs.disk 8 1 = 3 ∧
      slotNr s'.disk 8 1 = 0) ∧ ¬ StoredFaithfully nameLong := by
  have hacc : Accepted nameLong := ⟨by decide, by decide, by decide, by decide⟩
  refine ⟨hacc, dirOk_holeFs, creation_long, ?_⟩
  rintro ⟨hstore, -⟩
  obtain ⟨s', hc, hbefore, hafter⟩ := creation_long
  have hnext : NextSlot holeFs letterRoot 0 :=
    ⟨fun u hu => absurd hu (Nat.not_lt_zero u), fun _ => slotNr_holeFs_zero, Nat.zero_le _,
      fun h => Or.inl h.symm⟩
  obtain ⟨hkept, -⟩ := hstore nameLong (stripPath_of_accepted hacc) holeFs s' letterRoot 0 77
    dirOk_holeFs.toRootAt dirOk_holeFs.size hnext (fun u hu => absurd hu (Nat.not_lt_zero u))
    (by decide) (by decide) hc
  have hsame : slotNr s'.disk 8 1 = slotNr holeFs.disk 8 1 :=
    (slot_congr fun a ha ha' => hkept a ha ha').1
  rw [hafter, hbefore] at hsame
  omega

end BazingaOS
