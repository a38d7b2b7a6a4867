import BazingaOS.FS.NewEntry

/-!
# Removing a directory entry

`do_unlink` clears the bits of the file in the two maps and its inode, all of which are in front of
the directory, and then the entry with the file's inode number. Only when this was the last slot
does the directory get shorter: by the free slots in front of it too, wherever they are.
-/

namespace BazingaOS

open Prog
open FS (BufHolds bufHolds_read)

/-- What of the super block does not depend on the device that was asked for last. -/
def SuperBlock.layout (sb : SuperBlock) : SuperBlock := { sb with sbDev := 0 }

/-- What the directory of `r` is read from: the disk from sector `start` on, the cached inode and
the layout in the super block. -/
def Fs.dirView (start : Nat) (r : Fin nrInode) (s : Fs) :
    Bytes × Inode × Option (Fin nrInode) × SuperBlock :=
  (fun a => s.disk (sectorSize * start + a), s.inodeTable r, s.rootInode, s.sb.layout)

/-- The same with the whole cache. -/
def Fs.behindView (start : Nat) (s : Fs) :
    Bytes × (Fin nrInode → Inode) × Option (Fin nrInode) × SuperBlock :=
  (fun a => s.disk (sectorSize * start + a), s.inodeTable, s.rootInode, s.sb.layout)

theorem Fs.behindView_ext {start : Nat} {s s' : Fs}
    (hd : ∀ a, sectorSize * start ≤ a → s'.disk a = s.disk a)
    (hi : s'.inodeTable = s.inodeTable) (hr : s'.rootInode = s.rootInode)
    (hsb : s'.sb.layout = s.sb.layout) : Fs.behindView start s' = Fs.behindView start s := by
  have hbytes : (fun a => s'.disk (sectorSize * start + a)) =
      fun a => s.disk (sectorSize * start + a) := by
    funext a
    exact hd _ (Nat.le_add_right _ _)
  rw [Fs.behindView, Fs.behindView, hbytes, hi, hr, hsb]

theorem Fs.dirView_of_behindView {start : Nat} {s s' : Fs} (r : Fin nrInode)
    (h : Fs.behindView start s' = Fs.behindView start s) :
    Fs.dirView start r s' = Fs.dirView start r s :=
  congrArg (fun v => (v.1, v.2.1 r, v.2.2.1, v.2.2.2)) h

theorem Fs.table_of_behindView {start : Nat} {s s' : Fs}
    (h : Fs.behindView start s' = Fs.behindView start s) : s'.inodeTable = s.inodeTable :=
  congrArg (fun v => v.2.1) h

theorem Fs.layout_of_behindView {start : Nat} {s s' : Fs}
    (h : Fs.behindView start s' = Fs.behindView start s) : s'.sb.layout = s.sb.layout :=
  congrArg (fun v => v.2.2.2) h

theorem Fs.dirView_ext {start : Nat} {r : Fin nrInode} {s s' : Fs}
    (hd : ∀ a, sectorSize * start ≤ a → s'.disk a = s.disk a)
    (hi : s'.inodeTable r = s.inodeTable r) (hr : s'.rootInode = s.rootInode)
    (hsb : s'.sb.layout = s.sb.layout) : Fs.dirView start r s' = Fs.dirView start r s := by
  have hbytes : (fun a => s'.disk (sectorSize * start + a)) =
      fun a => s.disk (sectorSize * start + a) := by
    funext a
    exact hd _ (Nat.le_add_right _ _)
  rw [Fs.dirView, Fs.dirView, hbytes, hi, hr, hsb]

namespace FS

section Frame

variable (start : Nat)

/-- A program that leaves the cache and the disk from sector `start` on alone. -/
abbrev KeepsBehind (start : Nat) {α : Type} (p : Prog Fs α) : Prop :=
  KeepsView (Fs.behindView start) p

theorem keepsBehind_rdSect (n : Nat) : KeepsBehind start (rdSect n) :=
  .ite (.modify fun _ => rfl) (.halt _)

theorem keepsBehind_setBuf (f : Bytes → Bytes) : KeepsBehind start (setBuf f) := .modify fun _ => rfl

theorem keepsBehind_wrSect {n : Nat} (hn : n < start) : KeepsBehind start (wrSect n) := by
  apply KeepsView.ite _ (.halt _)
  apply KeepsView.modify
  intro s
  refine Fs.behindView_ext (fun a ha => ?_) rfl rfl rfl
  apply copyBytes_of_ge
  have hs : sectorSize = 512 := rfl
  rw [hs] at ha ⊢
  omega

theorem getSuperBlock_spec {s : Fs} (dev : Nat) :
    wp (getSuperBlock dev) (fun sb s' => sb.layout = s.sb.layout ∧
      Fs.behindView start s' = Fs.behindView start s) (fun _ _ => True) s := by
  simp only [getSuperBlock, wp_bind, wp_modify, wp_ite, wp_get, wp_pure]
  exact ⟨fun _ => trivial, fun _ => ⟨rfl, rfl⟩⟩

theorem keepsBehind_clearImapBit (dev nr : Nat) (h : 2 < start) :
    KeepsBehind start (clearImapBit dev nr) :=
  .bind (keepsView_onDev (keepsBehind_rdSect start _)) fun _ => .bind (.check _) fun _ =>
    .bind .get fun _ => .bind (.check _) fun _ => .bind (keepsBehind_setBuf start _) fun _ =>
      keepsView_onDev (keepsBehind_wrSect start h)

end Frame

section Smap

variable {s : Fs} {start m : Nat}

/-- Byte `c` of the sector map, as a sector and an index that may be at its end. -/
def SmapPlace (c : Nat) (a : Nat × Nat) : Prop :=
  3 ≤ a.1 ∧ sectorSize * (a.1 - 3) + a.2 = c ∧ a.2 ≤ sectorSize

theorem SmapPlace.sect_le {c : Nat} {a : Nat × Nat} (h : SmapPlace c a)
    (hc : c < sectorSize * (m + 1)) : a.1 ≤ 3 + m := by
  obtain ⟨h₃, hc', -⟩ := h
  have hs : sectorSize = 512 := rfl
  rw [hs] at hc hc'
  omega

theorem nextSmapByte_spec {c : Nat} {a : Nat × Nat} (dev : Nat) (ha : SmapPlace c a)
    (hc : c < sectorSize * (m + 1)) (hm : 3 + m < start) :
    wp (nextSmapByte dev a.1 a.2) (fun a' s' => SmapPlace c a' ∧ a'.2 < sectorSize ∧
      Fs.behindView start s' = Fs.behindView start s) (fun _ _ => True) s := by
  have hle := ha.sect_le hc
  obtain ⟨h₃, hat, hend⟩ := ha
  have hs : sectorSize = 512 := rfl
  have hlt : a.1 < start := by omega
  rw [nextSmapByte, wp_ite]
  constructor
  · intro heq
    simp only [wp_bind]
    refine (keepsView_onDev (keepsBehind_wrSect start hlt)).wp ?_ (fun _ _ _ => trivial)
    intro _ s₁ h₁
    refine (keepsView_onDev (keepsBehind_rdSect start _)).wp ?_ (fun _ _ _ => trivial)
    intro _ s₂ h₂
    refine ⟨⟨?_, ?_, Nat.zero_le _⟩, Nat.zero_lt_succ _, h₂.trans h₁⟩
    · change 3 ≤ a.1 + 1
      omega
    · change sectorSize * (a.1 + 1 - 3) + 0 = c
      rw [heq] at hat
      rw [hs] at hat ⊢
      omega
  · intro hne
    exact ⟨⟨h₃, hat, hend⟩, Nat.lt_of_le_of_ne hend hne, rfl⟩

theorem clearSmapBits_spec (dev bitIdx nrSects : Nat)
    (hbits : bitIdx + nrSects ≤ 8 * sectorSize * m) (hm : 3 + m < start) :
    wp (clearSmapBits dev bitIdx nrSects) (fun _ s' =>
      Fs.behindView start s' = Fs.behindView start s) (fun _ _ => True) s := by
  have hs : sectorSize = 512 := rfl
  have hbyte : ∀ c, c ≤ (nrSects - (8 - bitIdx % 8)) / 8 →
      bitIdx / 8 + 1 + c < sectorSize * (m + 1) := by
    intro c hc
    rw [hs] at hbits ⊢
    omega
  simp only [clearSmapBits, wp_bind]
  refine (keepsView_onDev (keepsBehind_rdSect start _)).wp ?_ (fun _ _ _ => trivial)
  intro _ s₁ h₁
  refine (KeepsView.loop (fun _ => .bind .get fun _ => .bind (.check _) fun _ =>
    keepsBehind_setBuf start _) _ _).wp ?_ (fun _ _ _ => trivial)
  intro _ s₂ h₂
  -- in front of round `c` the place is that of byte `c` behind the first one
  apply @wp_iter _ _ _ _ _ _ (fun c a s' => SmapPlace (bitIdx / 8 + 1 + c) a ∧
    Fs.behindView start s' = Fs.behindView start s)
  · refine ⟨⟨?_, ?_, ?_⟩, h₂.trans h₁⟩
    · exact Nat.le_add_right _ _
    · change sectorSize * (1 + 1 + 1 + bitIdx / 8 / sectorSize - 3) +
        (bitIdx / 8 % sectorSize + 1) = bitIdx / 8 + 1 + 0
      rw [hs]
      omega
    · change bitIdx / 8 % sectorSize + 1 ≤ sectorSize
      rw [hs]
      omega
  · rintro c a s₃ - hc ⟨hplace, hview⟩
    rw [wp_bind]
    refine wp_mono (nextSmapByte_spec dev hplace (hbyte c (by omega)) hm) ?_
      (fun _ _ _ => trivial)
    rintro a' s₄ ⟨⟨h₃, hat, -⟩, hlt, hview'⟩
    simp only [wp_bind, wp_get, wp_check]
    refine ⟨fun _ => ?_, fun _ => trivial⟩
    refine ⟨⟨h₃, ?_, hlt⟩, hview'.trans hview⟩
    change sectorSize * (a'.1 - 3) + (a'.2 + 1) = bitIdx / 8 + 1 + (c + 1)
    omega
  · rintro a s₃ ⟨hplace, hview⟩
    rw [Nat.zero_add] at hplace
    refine wp_mono (nextSmapByte_spec dev hplace (hbyte _ (Nat.le_refl _)) hm) ?_
      (fun _ _ _ => trivial)
    rintro a' s₄ ⟨hplace', -, hview'⟩
    have hlt : a'.1 < start := by
      have hle := hplace'.sect_le (hbyte _ (Nat.le_refl _))
      omega
    refine (wp_check _).mpr ⟨fun _ => ?_, fun _ => trivial⟩
    refine (wp_check _).mpr ⟨fun _ => ?_, fun _ => trivial⟩
    refine (KeepsView.loop (fun _ => keepsBehind_setBuf start _) _ _).wp ?_ (fun _ _ _ => trivial)
    intro _ s₅ h₅
    refine (keepsView_onDev (keepsBehind_wrSect start hlt)).wp ?_ (fun _ _ _ => trivial)
    intro _ s₆ h₆
    rw [h₆, h₅, hview', hview]

end Smap

end FS

/-- How many of the first `t` slots have an entry. -/
def liveBefore (d : Bytes) (start t : Nat) : Nat := Nat.count (fun u => slotNr d start u ≠ 0) t

def clearedSlot (d : Bytes) (start t : Nat) : Bytes :=
  putBytes d (slotAt start t) (List.replicate dirEntSize 0)

/-- The first slot with inode number `nr`. -/
structure FirstSlot (d : Bytes) (start : Nat) (nr : Int) (t : Nat) : Prop where
  nr_eq : slotNr d start t = nr
  before : ∀ u, u < t → slotNr d start u ≠ nr

/-- The inode of the directory once the entry in slot `t` is gone. -/
def Inode.shrunk (i : Inode) (d : Bytes) (t : Nat) : Inode :=
  { i with iSize :=
      if t + 1 = i.entries then dirEntSize * liveBefore d i.iStartSect t else i.iSize }

namespace FS

section Clear

variable {s : Fs} {start n k : Nat} {nr : Int}

/-- The state of the loop over the entries: `none` while the entry has not been found. -/
def EntryCleared (s : Fs) (start n : Nat) (nr : Int) (a : Option Nat × Nat) (s' : Fs) : Prop :=
  ∀ t, a.1 = some t → t < n ∧ FirstSlot s.disk start nr t ∧
    a.2 = dirEntSize * liveBefore s.disk start t ∧
    ∃ b, s' = { s with fsbuf := b, disk := clearedSlot s.disk start t }

theorem iter_unlinkEntry (haddr : ∀ i, i < k → sectorSize * (start + i) < 2 ^ 31)
    (hn : n ≤ entriesPerSect * k) :
    wp (iter (unlinkEntry rootDev start nr) n 0 (none, 0))
      (fun a s' => EntryCleared s start n nr a s' ∧
        (a.1 = none → ∀ u, u < n → slotNr s.disk start u ≠ nr)) (fun _ _ => False) s := by
  have he : entriesPerSect = 32 := rfl
  have hd : dirEntSize = 16 := rfl
  have hs : sectorSize = 512 := rfl
  apply @wp_iter _ _ _ _ _ _ (fun t a s' => (∃ b, s' = { s with fsbuf := b } ∧
    (t % entriesPerSect ≠ 0 → BufHolds b s.disk (start + t / entriesPerSect))) ∧
    a = (none, dirEntSize * liveBefore s.disk start t) ∧ ∀ u, u < t → slotNr s.disk start u ≠ nr)
  · exact ⟨⟨s.fsbuf, rfl, fun h => absurd rfl h⟩, by rw [liveBefore, Nat.count_zero, Nat.mul_zero],
      fun u hu => absurd hu (Nat.not_lt_zero u)⟩
  · rintro t a s' - ht ⟨⟨b, rfl, hbuf⟩, rfl, hbefore⟩
    rw [Nat.zero_add] at ht
    have hdiv : t / entriesPerSect < k := by
      rw [he] at hn ⊢
      omega
    have hread : wp (when (t % entriesPerSect = 0)
        (onDev rootDev (rdSect (start + t / entriesPerSect))))
        (fun _ s₁ => ∃ b, s₁ = { s with fsbuf := b } ∧
          BufHolds b s.disk (start + t / entriesPerSect)) (fun _ _ => False)
        { s with fsbuf := b } := by
      rw [wp_when]
      refine ⟨fun _ => ?_, fun h => ⟨b, rfl, hbuf h⟩⟩
      apply wp_onDev _ _ _ (fun h => absurd rfl h)
      intro _
      rw [wp_rdSect (haddr _ hdiv)]
      exact ⟨_, rfl, bufHolds_read _ _ _⟩
    rw [unlinkEntry, wp_bind]
    refine wp_mono hread ?_ (fun _ _ h => h)
    rintro - s₁ ⟨b₁, rfl, hbuf₁⟩
    have hj : t % entriesPerSect < entriesPerSect := Nat.mod_lt _ (by decide)
    have hslot : entriesPerSect * (t / entriesPerSect) + t % entriesPerSect = t :=
      Nat.div_add_mod t entriesPerSect
    have hnr := hbuf₁.entryNr_eq hj
    rw [hslot] at hnr
    rw [wp_bind, wp_get]
    dsimp only
    rw [hnr, wp_ite]
    constructor
    · intro heq
      have hplace : sectorSize * (start + t / entriesPerSect) + dirEntSize * (t % entriesPerSect) =
          slotAt start t := by rw [← slotAt_add, hslot]
      have hjle : dirEntSize * (t % entriesPerSect) + dirEntSize ≤ sectorSize := by
        rw [he] at hj ⊢
        rw [hd, hs]
        omega
      have hdisk := @copyBytes_putBytes s.disk _ (dirEntSize * (t % entriesPerSect)) _ b₁
        (List.replicate dirEntSize 0) hbuf₁ (by omega)
      rw [hplace, List.take_of_length_le (by rw [List.length_replicate]; omega),
        ← clearedSlot] at hdisk
      simp only [wp_bind, wp_setBuf]
      apply wp_onDev _ _ _ (fun h => absurd rfl h)
      intro _
      rw [wp_wrSect (haddr _ hdiv)]
      refine ⟨fun t' ht' => ?_, fun hnone => absurd hnone (Option.some_ne_none t)⟩
      cases ht'
      refine ⟨ht, ⟨heq, hbefore⟩, rfl, ?_⟩
      rw [← hdisk]
      exact ⟨_, rfl⟩
    · intro hne
      refine ⟨⟨b₁, rfl, fun hmod => ?_⟩, ?_, fun u hu => ?_⟩
      · have hsame : (t + 1) / entriesPerSect = t / entriesPerSect := by
          rw [he] at hmod ⊢
          omega
        rw [hsame]
        exact hbuf₁
      · rw [liveBefore, liveBefore, Nat.count_succ]
        by_cases hz : slotNr s.disk start t = 0
        · simp only [hz, ne_eq, not_true_eq_false, if_false, Nat.add_zero]
        · simp only [hz, ne_eq, not_false_eq_true, if_true, Nat.mul_add, Nat.mul_one]
      · rcases Nat.lt_or_ge u t with hlt | hge
        · exact hbefore u hlt
        · obtain rfl : u = t := by omega
          exact hne
  · rintro a s' ⟨-, rfl, hbefore⟩
    rw [Nat.zero_add] at hbefore
    exact ⟨fun t ht => absurd ht.symm (Option.some_ne_none t), fun _ => hbefore⟩

end Clear

end FS

/-- The state once the entry in slot `t` is gone. -/
def Fs.withoutEntry (s : Fs) (r : Fin nrInode) (t : Nat) : Fs :=
  { s with
    disk := clearedSlot s.disk (s.inodeTable r).iStartSect t
    inodeTable := Function.update s.inodeTable r ((s.inodeTable r).shrunk s.disk t) }

section View

variable {s s' : Fs} {start t : Nat} {r : Fin nrInode}

theorem disk_of_view (h : Fs.dirView start r s' = Fs.dirView start r s) {a : Nat}
    (ha : sectorSize * start ≤ a) : s'.disk a = s.disk a := by
  obtain ⟨x, rfl⟩ := Nat.exists_eq_add_of_le ha
  exact congrFun (congrArg Prod.fst h) x

theorem inode_of_view (h : Fs.dirView start r s' = Fs.dirView start r s) :
    s'.inodeTable r = s.inodeTable r := congrArg (fun v => v.2.1) h

theorem root_of_view (h : Fs.dirView start r s' = Fs.dirView start r s) :
    s'.rootInode = s.rootInode := congrArg (fun v => v.2.2.1) h

theorem sb_of_view (h : Fs.dirView start r s' = Fs.dirView start r s) :
    s'.sb.layout = s.sb.layout := congrArg (fun v => v.2.2.2) h

theorem slot_of_view (h : Fs.dirView start r s' = Fs.dirView start r s) (u : Nat) :
    slotNr s'.disk start u = slotNr s.disk start u ∧
      slotName s'.disk start u = slotName s.disk start u := by
  apply slot_congr
  intro i hi _
  exact disk_of_view h (Nat.le_trans (slotAt_le start u) hi)

theorem RootAt.of_view (h : RootAt s r) (hv : Fs.dirView start r s' = Fs.dirView start r s) :
    RootAt s' r where
  root := (root_of_view hv).trans h.root
  dev := by
    rw [inode_of_view hv]
    exact h.dev
  num := by
    rw [inode_of_view hv]
    exact h.num
  inode := by
    have hsect : ∀ nr, inodeSect s'.sb nr = inodeSect s.sb nr := fun nr =>
      show inodeSect s'.sb.layout nr = inodeSect s.sb.layout nr by rw [sb_of_view hv]
    rw [inode_of_view hv, hsect]
    exact h.inode
  addr := by
    rw [inode_of_view hv]
    exact h.addr

theorem DirOk.of_view (h : DirOk s r)
    (hv : Fs.dirView (s.inodeTable r).iStartSect r s' =
      Fs.dirView (s.inodeTable r).iStartSect r s) : DirOk s' r where
  toRootAt := h.toRootAt.of_view hv
  size := by
    rw [inode_of_view hv]
    exact h.size
  whole := by
    rw [inode_of_view hv]
    exact h.whole
  table := by
    rw [inode_of_view hv]
    exact h.table.congr (Nat.le_refl _) (slot_of_view hv)

theorem dirMap_of_view (hv : Fs.dirView (s.inodeTable r).iStartSect r s' =
      Fs.dirView (s.inodeTable r).iStartSect r s) (x : List UInt8) :
    s'.dirMap r x = s.dirMap r x := by
  have hslots : dirSlots s'.disk (s.inodeTable r).iStartSect =
      dirSlots s.disk (s.inodeTable r).iStartSect := by
    funext u
    rw [dirSlots, dirSlots, (slot_of_view hv u).1, (slot_of_view hv u).2]
  rw [Fs.dirMap, Fs.dirMap, inode_of_view hv, hslots]

theorem withoutEntry_view (hv : Fs.dirView (s.inodeTable r).iStartSect r s' =
      Fs.dirView (s.inodeTable r).iStartSect r s) (t : Nat) :
    Fs.dirView (s.inodeTable r).iStartSect r (s'.withoutEntry r t) =
      Fs.dirView (s.inodeTable r).iStartSect r (s.withoutEntry r t) := by
  have hlive : ∀ u, slotNr s'.disk (s.inodeTable r).iStartSect u =
      slotNr s.disk (s.inodeTable r).iStartSect u := fun u => (slot_of_view hv u).1
  have hbytes : ∀ a, clearedSlot s'.disk (s.inodeTable r).iStartSect t
      (sectorSize * (s.inodeTable r).iStartSect + a) =
      clearedSlot s.disk (s.inodeTable r).iStartSect t
        (sectorSize * (s.inodeTable r).iStartSect + a) := by
    intro a
    simp only [clearedSlot, putBytes, disk_of_view hv (Nat.le_add_right _ a)]
  simp only [Fs.dirView, Fs.withoutEntry, Function.update_self, inode_of_view hv,
    root_of_view hv, hbytes, Inode.shrunk, liveBefore, hlive, sb_of_view hv]

end View

namespace FS

variable {s : Fs} {r : Fin nrInode} {nr : Int}

theorem clearEntry_spec (h : RootAt s r)
    (hsize : (s.inodeTable r).iSize ≤ sectorSize * (s.inodeTable r).iNrSects) :
    wp (clearEntry r rootDev nr) (fun _ s' => ∃ t, t < (s.inodeTable r).entries ∧
        FirstSlot s.disk (s.inodeTable r).iStartSect nr t ∧
        Fs.dirView (s.inodeTable r).iStartSect r s' =
          Fs.dirView (s.inodeTable r).iStartSect r (s.withoutEntry r t)) (fun _ _ => True) s := by
  have hs : sectorSize = 512 := rfl
  have he : entriesPerSect = 32 := rfl
  have hd : dirEntSize = 16 := rfl
  have haddr : ∀ i, i < (s.inodeTable r).iNrSects →
      sectorSize * ((s.inodeTable r).iStartSect + i) < 2 ^ 31 := by
    intro i hi
    have hend := h.addr
    rw [hs] at hend ⊢
    omega
  have hle : (s.inodeTable r).entries ≤ entriesPerSect * (s.inodeTable r).iNrSects := by
    rw [Inode.entries, he, hd]
    rw [hs] at hsize
    omega
  have hmin : min ((s.inodeTable r).iSize / dirEntSize)
      (entriesPerSect * (s.inodeTable r).iNrSects) = (s.inodeTable r).entries :=
    Nat.min_eq_left hle
  simp only [clearEntry, wp_bind, wp_get, hmin]
  refine wp_mono (iter_unlinkEntry haddr hle) ?_ (fun _ _ hE => hE.elim)
  rintro ⟨found, dirSize⟩ s₁ ⟨hfound, -⟩
  cases found with
  | none => trivial
  | some t =>
    obtain ⟨ht, hfirst, hcount, b, rfl⟩ := hfound t rfl
    have hcount' : dirSize = dirEntSize * liveBefore s.disk (s.inodeTable r).iStartSect t := hcount
    simp only [wp_when, wp_bind]
    constructor
    · intro hlast
      have hlast' : t + 1 = (s.inodeTable r).entries := hlast
      rw [setInode, wp_modify]
      refine wp_mono (syncInode_spec r) ?_ (fun _ _ _ => trivial)
      rintro - s₂ ⟨-, b', rfl⟩
      refine ⟨t, ht, hfirst, ?_⟩
      -- the inode is written in front of the directory
      have hplace : ∀ l : DiskInode, inodePlace s.sb (s.inodeTable r).iNum.toNat +
          l.bytes.length ≤ sectorSize * (s.inodeTable r).iStartSect :=
        fun l => inodePlace_le h 0 (s.inodeTable r)
      refine Fs.dirView_ext (fun a ha => ?_) ?_ rfl rfl
      · simp only [Function.update_self]
        exact putBytes_of_ge (Nat.le_trans (hplace _) ha)
      · simp only [Fs.withoutEntry, Function.update_self, Inode.shrunk, if_pos hlast', hcount']
    · intro hlast
      have hlast' : t + 1 ≠ (s.inodeTable r).entries := hlast
      refine ⟨t, ht, hfirst, Fs.dirView_ext (fun _ _ => rfl) ?_ rfl rfl⟩
      simp only [Fs.withoutEntry, Function.update_self, Inode.shrunk, if_neg hlast']

/-- The entry of inode `nr` is gone, and the directory is otherwise as it was. -/
def EntryGone (s : Fs) (r : Fin nrInode) (nr : Int) (s' : Fs) : Prop :=
  ∃ t, t < (s.inodeTable r).entries ∧ FirstSlot s.disk (s.inodeTable r).iStartSect nr t ∧
    Fs.dirView (s.inodeTable r).iStartSect r s' =
      Fs.dirView (s.inodeTable r).iStartSect r (s.withoutEntry r t)

theorem EntryGone.of_view {s₁ s' : Fs} (h : EntryGone s₁ r nr s')
    (hv : Fs.dirView (s.inodeTable r).iStartSect r s₁ =
      Fs.dirView (s.inodeTable r).iStartSect r s) : EntryGone s r nr s' := by
  obtain ⟨t, ht, hfirst, hview⟩ := h
  rw [inode_of_view hv] at ht hfirst hview
  refine ⟨t, ht, ⟨?_, fun u hu => ?_⟩, hview.trans (withoutEntry_view hv t)⟩
  · rw [← (slot_of_view hv t).1]
    exact hfirst.nr_eq
  · rw [← (slot_of_view hv u).1]
    exact hfirst.before u hu

/-- The maps and inode `nr` are in front of the directory, and the bits of the file are in the
sector map. -/
structure FileAt (s : Fs) (r : Fin nrInode) (nr : Int) (i : DiskInode) : Prop where
  maps : 3 + s.sb.nrSmapSects < (s.inodeTable r).iStartSect
  inode : inodeSect s.sb nr.toNat < (s.inodeTable r).iStartSect
  bits : i.startSect + 1 - s.sb.n1stSect + i.nrSects ≤ 8 * sectorSize * s.sb.nrSmapSects

theorem FileAt.of_view {s' : Fs} {i : DiskInode} (h : FileAt s r nr i)
    (hv : Fs.dirView (s.inodeTable r).iStartSect r s' =
      Fs.dirView (s.inodeTable r).iStartSect r s) : FileAt s' r nr i := by
  have hsb := sb_of_view hv
  have hsmap : s'.sb.nrSmapSects = s.sb.nrSmapSects := by
    have heq := congrArg SuperBlock.nrSmapSects hsb
    exact heq
  have hfirst : s'.sb.n1stSect = s.sb.n1stSect := by
    have heq := congrArg SuperBlock.n1stSect hsb
    exact heq
  have hsect : inodeSect s'.sb nr.toNat = inodeSect s.sb nr.toNat := by
    have heq := congrArg (fun sb => inodeSect sb nr.toNat) hsb
    exact heq
  constructor
  · rw [hsmap, inode_of_view hv]
    exact h.maps
  · rw [hsect, inode_of_view hv]
    exact h.inode
  · rw [hsmap, hfirst]
    exact h.bits

theorem inodePlace_layout {sb sb' : SuperBlock} (h : sb'.layout = sb.layout) (nr : Nat) :
    inodePlace sb' nr = inodePlace sb nr := by
  change inodePlace sb'.layout nr = inodePlace sb.layout nr
  rw [h]

theorem clearEntry_of_view {s₁ : Fs} (h : RootAt s r)
    (hsize : (s.inodeTable r).iSize ≤ sectorSize * (s.inodeTable r).iNrSects)
    (hv : Fs.dirView (s.inodeTable r).iStartSect r s₁ =
      Fs.dirView (s.inodeTable r).iStartSect r s) :
    wp (clearEntry r rootDev nr) (fun _ s' => EntryGone s r nr s') (fun _ _ => True) s₁ := by
  have hsize₁ : (s₁.inodeTable r).iSize ≤ sectorSize * (s₁.inodeTable r).iNrSects := by
    rw [inode_of_view hv]
    exact hsize
  refine wp_mono (clearEntry_spec (h.of_view hv) hsize₁) ?_ (fun _ _ hE => hE)
  intro _ s' hgone
  exact EntryGone.of_view hgone hv

theorem removeFile_spec {n : Fin nrInode} (h : RootAt s r)
    (hsize : (s.inodeTable r).iSize ≤ sectorSize * (s.inodeTable r).iNrSects) (hn : n ≠ r)
    (hnum : (s.inodeTable n).iNum = nr) (hfile : FileAt s r nr (s.inodeTable n).disk) :
    wp (removeFile r n rootDev nr) (fun _ s' => EntryGone s r nr s') (fun _ _ => True) s := by
  have hs : sectorSize = 512 := rfl
  rw [removeFile, wp_ite]
  refine ⟨fun _ => trivial, fun _ => ?_⟩
  simp only [wp_bind]
  have htwo : 2 < (s.inodeTable r).iStartSect := by
    have hmaps := hfile.maps
    omega
  refine (keepsBehind_clearImapBit _ rootDev nr.toNat htwo).wp ?_ (fun _ _ _ => trivial)
  intro _ s₁ h₁
  refine wp_mono (getSuperBlock_spec (s.inodeTable r).iStartSect rootDev) ?_
    (fun _ _ _ => trivial)
  rintro sb s₂ ⟨hsb, h₂⟩
  rw [wp_get, wp_ite]
  refine ⟨fun _ => trivial, fun _ => ?_⟩
  simp only [wp_bind]
  have h₂₀ := h₂.trans h₁
  have hn1 : sb.n1stSect = s.sb.n1stSect := by
    have hlayout := congrArg SuperBlock.n1stSect (hsb.trans (Fs.layout_of_behindView h₁))
    exact hlayout
  have hbits := hfile.bits
  rw [Fs.table_of_behindView h₂₀, hn1]
  refine wp_mono (clearSmapBits_spec rootDev _ _ hbits hfile.maps) ?_ (fun _ _ _ => trivial)
  intro _ s₃ h₃
  have h₃₀ := h₃.trans h₂₀
  simp only [setInode, putInode, wp_bind, wp_modify, wp_get, wp_check]
  refine ⟨fun _ => ?_, fun _ => trivial⟩
  refine wp_mono (syncInode_spec n) ?_ (fun _ _ _ => trivial)
  rintro - s₄ ⟨-, b, rfl⟩
  -- the inode is written in front of the directory
  have hplace : inodePlace s₃.sb nr.toNat + 16 ≤ sectorSize * (s.inodeTable r).iStartSect := by
    have hsect := inodePlace_layout (Fs.layout_of_behindView h₃₀) nr.toNat
    have hoff := inodeOff_le nr.toNat
    have hin := hfile.inode
    have hi : inodeSize = 32 := rfl
    rw [hsect, inodePlace]
    rw [hs] at hoff ⊢
    omega
  have hnum₃ : (s₃.inodeTable n).iNum = nr := by
    rw [Fs.table_of_behindView h₃₀]
    exact hnum
  simp only [Function.update_self, Function.update_idem, hnum₃]
  apply clearEntry_of_view h hsize
  rw [← Fs.dirView_of_behindView r h₃₀]
  refine Fs.dirView_ext (fun a ha => ?_) ?_ rfl rfl
  · exact putBytes_of_ge (by rw [DiskInode.bytes_length]; omega)
  · exact Function.update_of_ne (Ne.symm hn) _ _

end FS

/-- Inode `nr` of the disk, as the cache has it if it is there. -/
def Fs.inodeOf (s : Fs) (nr : Int) : DiskInode :=
  match FS.cachedInode s.inodeTable rootDev nr with
  | some n => (s.inodeTable n).disk
  | none => diskInodeAt s.disk (inodePlace s.sb nr.toNat)

namespace FS

section Unlink

variable {s : Fs} {r : Fin nrInode} {nr : Int}

theorem getInode_file (hmode : (s.inodeTable r).iMode = iDirectory)
    (hcnt : (s.inodeTable r).iCnt ≠ 0) :
    wp (getInode rootDev nr) (fun n s' => (s'.inodeTable n).iMode = iRegular →
      n ≠ r ∧ (s'.inodeTable n).iNum = nr ∧ (s'.inodeTable n).disk = s.inodeOf nr ∧
      ∀ start, Fs.dirView start r s' = Fs.dirView start r s) (fun _ _ => True) s := by
  refine wp_mono (getInode_spec rootDev nr) ?_ (fun _ _ _ => trivial)
  rintro n s' (⟨hcached, rfl⟩ | ⟨hnone, hfree, -, -, b, rfl⟩) hreg
  · simp only [Function.update_self] at hreg ⊢
    have hne : n ≠ r := by
      rintro rfl
      rw [hmode] at hreg
      exact absurd hreg (by decide)
    refine ⟨hne, (cachedInode_spec hcached).2.2, ?_, fun start => ?_⟩
    · rw [Fs.inodeOf, hcached]
      rfl
    · exact Fs.dirView_ext (fun _ _ => rfl) (Function.update_of_ne (Ne.symm hne) _ _) rfl rfl
  · have hne : n ≠ r := by
      rintro rfl
      exact hcnt (freeInode_cnt hfree)
    simp only [Function.update_self]
    refine ⟨hne, rfl, ?_, fun start => ?_⟩
    · rw [Fs.inodeOf, hnone]
      rfl
    · exact Fs.dirView_ext (fun _ _ => rfl) (Function.update_of_ne (Ne.symm hne) _ _) rfl rfl

/-- What a removal that succeeds has done to the directory. -/
theorem doUnlink_spec (p : Pid) (msg : Message) (h : RootAt s r)
    (hsize : (s.inodeTable r).iSize ≤ sectorSize * (s.inodeTable r).iNrSects)
    (hmode : (s.inodeTable r).iMode = iDirectory) (hcnt : (s.inodeTable r).iCnt ≠ 0)
    (hfile : FileAt s r (s.lookup (s.pathOf p msg)) (s.inodeOf (s.lookup (s.pathOf p msg)))) :
    wp (doUnlink p msg) (fun v s' => v = 0 → EntryGone s r (s.lookup (s.pathOf p msg)) s')
      (fun _ _ => True) s := by
  simp only [doUnlink, wp_bind, wp_check]
  refine ⟨fun _ => ?_, fun _ => trivial⟩
  refine wp_mono (copyPath_spec p msg) ?_ (fun _ _ h => h)
  rintro path s' ⟨rfl, rfl⟩
  rw [wp_ite]
  refine ⟨fun _ hv => absurd hv (by decide), fun _ => ?_⟩
  rw [wp_bind]
  refine wp_mono (searchFile_spec _) ?_ (fun _ _ h => h)
  rintro nr s₁ ⟨⟨b, rfl⟩, hnr, -⟩
  rw [wp_ite]
  refine ⟨fun _ hv => absurd hv (by decide), fun _ => ?_⟩
  cases stripPath (s'.pathOf p msg) with
  | none => exact fun hv => absurd hv (by decide)
  | some name =>
    have hroot : wp rootNode (fun d s₁ => d = r ∧ s₁ = { s' with fsbuf := b })
        (fun _ _ => True) { s' with fsbuf := b } := by
      rw [rootNode, wp_bind, wp_get, h.root]
      exact ⟨rfl, rfl⟩
    rw [wp_bind]
    refine wp_mono hroot ?_ (fun _ _ h => h)
    rintro d s₁ ⟨hdir, rfl⟩
    rw [hdir]
    simp only [wp_bind, wp_get, h.dev]
    have hget := @getInode_file { s' with fsbuf := b } r nr hmode hcnt
    refine wp_mono hget ?_ (fun _ _ h => h)
    intro n s₂ hn
    rw [wp_ite]
    refine ⟨fun _ hv => absurd hv (by decide), fun hreg => ?_⟩
    obtain ⟨hne, hnum, hdisk, hview⟩ := hn (not_not.mp hreg)
    rw [wp_ite]
    refine ⟨fun _ hv => absurd hv (by decide), fun _ => ?_⟩
    have hv : Fs.dirView (s'.inodeTable r).iStartSect r s₂ =
        Fs.dirView (s'.inodeTable r).iStartSect r s' := hview _
    have hsize₂ : (s₂.inodeTable r).iSize ≤ sectorSize * (s₂.inodeTable r).iNrSects := by
      rw [inode_of_view hv]
      exact hsize
    have hfile₂ : FileAt s₂ r nr (s₂.inodeTable n).disk := by
      rw [hdisk, hnr]
      exact hfile.of_view hv
    rw [wp_bind]
    refine wp_mono (removeFile_spec (h.of_view hv) hsize₂ hne hnum hfile₂) ?_ (fun _ _ h => h)
    intro _ s₃ hgone _
    rw [← hnr]
    exact EntryGone.of_view hgone hv

end Unlink

end FS

section Cleared

variable {d : Bytes} {start t m n n' : Nat}

theorem slot_cleared_self (d : Bytes) (start t : Nat) :
    slotNr (clearedSlot d start t) start t = 0 ∧ slotName (clearedSlot d start t) start t = [] := by
  have hd : dirEntSize = 16 := rfl
  have hbyte : ∀ i, i < dirEntSize → clearedSlot d start t (slotAt start t + i) = 0 := by
    intro i hi
    rw [clearedSlot, putBytes_add (by rw [List.length_replicate]; exact hi), List.getElem_replicate]
  constructor
  · have hu : u32At (clearedSlot d start t) (slotAt start t) = 0 := by
      have h₀ := hbyte 0 (by omega)
      rw [Nat.add_zero] at h₀
      rw [u32At, h₀, hbyte 1 (by omega), hbyte 2 (by omega), hbyte 3 (by omega)]
      rfl
    rw [slotNr, hu]
    exact toI32_of_inI32 (by decide)
  · rw [slotName]
    apply cstring_of_zero (by simp) (by decide)
    · intro i hi
      simp at hi
    · rw [Nat.add_assoc]
      exact hbyte _ (by simp [hd])

theorem slot_cleared_of_ne {u : Nat} (hu : u ≠ t) :
    slotNr (clearedSlot d start t) start u = slotNr d start u ∧
      slotName (clearedSlot d start t) start u = slotName d start u := by
  apply slot_putBytes
  have hapart := @slotAt_apart start t u hu
  rw [List.length_replicate]
  omega

theorem dirSlots_cleared :
    dirSlots (clearedSlot d start t) start = Function.update (dirSlots d start) t none := by
  funext u
  by_cases hu : u = t
  · rw [hu, Function.update_self, dirSlots_eq_none_iff]
    exact (slot_cleared_self d start t).1
  · rw [Function.update_of_ne hu, dirSlots, dirSlots, (slot_cleared_of_ne hu).1,
      (slot_cleared_of_ne hu).2]

theorem TableOk.clear (h : TableOk d start m n)
    (hcov : ∀ u, u < m → slotNr (clearedSlot d start t) start u ≠ 0 → u < n') :
    TableOk (clearedSlot d start t) start m n' := by
  obtain ⟨hself, hself'⟩ := slot_cleared_self d start t
  constructor
  · exact hcov
  · intro u hu hz
    by_cases hut : u = t
    · rw [hut] at hz
      exact absurd hself hz
    · rw [(slot_cleared_of_ne hut).1] at hz
      rw [(slot_cleared_of_ne hut).2]
      exact h.name_length u hu hz
  · intro u hu hz
    by_cases hut : u = t
    · rw [hut]
      exact hself'
    · rw [(slot_cleared_of_ne hut).1] at hz
      rw [(slot_cleared_of_ne hut).2]
      exact h.free_name u hu hz
  · rw [dirSlots_cleared]
    exact h.distinct.free t

/-- No free slot is in front of one of the first `t` slots that has an entry. -/
def Packed (d : Bytes) (start t : Nat) : Prop :=
  ∀ u v, u < v → v < t → slotNr d start v ≠ 0 → slotNr d start u ≠ 0

/-- As many slots as there are entries have all of them exactly if there is no hole. -/
theorem packed_iff : Packed d start t ↔
    ∀ v, v < t → slotNr d start v ≠ 0 → v < liveBefore d start t := by
  constructor
  · intro h v hv hz
    have hall : ∀ u, u < v + 1 → slotNr d start u ≠ 0 := by
      intro u hu
      rcases Nat.lt_or_ge u v with hlt | hge
      · exact h u v hlt hv hz
      · obtain rfl : u = v := by omega
        exact hz
    have hcount : liveBefore d start (v + 1) = v + 1 := Nat.count_iff_forall.mpr hall
    have hmono : liveBefore d start (v + 1) ≤ liveBefore d start t := Nat.count_monotone _ hv
    omega
  · intro h u v huv hv hz
    -- the entries of the first `t` slots are those of the first `liveBefore t`
    have hle : liveBefore d start t ≤ t := Nat.count_le _
    have hsame : liveBefore d start (liveBefore d start t) = liveBefore d start t := by
      generalize hc : liveBefore d start t = c at h hle ⊢
      obtain ⟨x, rfl⟩ := Nat.exists_eq_add_of_le hle
      have hsum : liveBefore d start (c + x) = liveBefore d start c +
          Nat.count (fun k => slotNr d start (c + k) ≠ 0) x := Nat.count_add _ _ _
      have hnone : Nat.count (fun k => slotNr d start (c + k) ≠ 0) x = 0 := by
        rw [Nat.count_iff_forall_not]
        intro k hk hz
        have hlt := h (c + k) (by omega) hz
        omega
      omega
    have hall := Nat.count_iff_forall.mp hsame
    have hvc := h v hv hz
    exact hall u (by omega)

end Cleared

section Removed

variable {s s' : Fs} {r : Fin nrInode} {t : Nat} {name : List UInt8}

@[simp] theorem withoutEntry_inode :
    (s.withoutEntry r t).inodeTable r = (s.inodeTable r).shrunk s.disk t := by
  simp [Fs.withoutEntry]

theorem shrunk_entries (i : Inode) (d : Bytes) (t : Nat) : (i.shrunk d t).entries =
    if t + 1 = i.entries then liveBefore d i.iStartSect t else i.entries := by
  by_cases h : t + 1 = i.entries
  · rw [if_pos h, Inode.entries, Inode.shrunk, if_pos h]
    exact Nat.mul_div_cancel_left _ (by decide)
  · rw [if_neg h, Inode.entries, Inode.shrunk, if_neg h]
    rfl

theorem RootAt.withoutEntry (h : RootAt s r) : RootAt (s.withoutEntry r t) r where
  root := h.root
  dev := by
    rw [withoutEntry_inode]
    exact h.dev
  num := by
    rw [withoutEntry_inode]
    exact h.num
  inode := by
    rw [withoutEntry_inode]
    exact h.inode
  addr := by
    rw [withoutEntry_inode]
    exact h.addr

/-- The size of the directory covers the entries that are left. -/
def Covered (s : Fs) (r : Fin nrInode) : Prop :=
  ∀ u, u < (s.inodeTable r).slots → slotNr s.disk (s.inodeTable r).iStartSect u ≠ 0 →
    u < (s.inodeTable r).entries

theorem DirOk.withoutEntry (h : DirOk s r) (hcov : Covered (s.withoutEntry r t) r)
    (ht : t < (s.inodeTable r).entries) : DirOk (s.withoutEntry r t) r := by
  have hs : sectorSize = 512 := rfl
  have hd : dirEntSize = 16 := rfl
  have hle : liveBefore s.disk (s.inodeTable r).iStartSect t ≤ t := Nat.count_le _
  have hsize := h.size
  have hshrunk : ((s.inodeTable r).shrunk s.disk t).iSize ≤
      sectorSize * (s.inodeTable r).iNrSects ∧
      ((s.inodeTable r).shrunk s.disk t).iSize % dirEntSize = 0 := by
    by_cases hlast : t + 1 = (s.inodeTable r).entries
    · rw [Inode.shrunk, if_pos hlast]
      refine ⟨?_, Nat.mul_mod_right _ _⟩
      rw [Inode.entries, hd] at ht
      change dirEntSize * liveBefore s.disk (s.inodeTable r).iStartSect t ≤ _
      rw [hs] at hsize ⊢
      rw [hd]
      omega
    · rw [Inode.shrunk, if_neg hlast]
      exact ⟨hsize, h.whole⟩
  refine ⟨h.toRootAt.withoutEntry, ?_, ?_, ?_⟩
  · rw [withoutEntry_inode]
    exact hshrunk.1
  · rw [withoutEntry_inode]
    exact hshrunk.2
  · rw [Covered, withoutEntry_inode] at hcov
    rw [withoutEntry_inode]
    exact h.table.clear hcov

theorem dirMap_withoutEntry (x : List UInt8) : (s.withoutEntry r t).dirMap r x =
    Slots.find (Function.update (dirSlots s.disk (s.inodeTable r).iStartSect) t none)
      (s.inodeTable r).slots x := by
  rw [← dirSlots_cleared, Fs.dirMap, withoutEntry_inode]
  rfl

/-- When the size covers what is left: the slot was not the last one, or there is no hole. -/
theorem covered_withoutEntry_iff (h : DirOk s r) : Covered (s.withoutEntry r t) r ↔
    (t + 1 = (s.inodeTable r).entries → Packed s.disk (s.inodeTable r).iStartSect t) := by
  have hslots : ((s.withoutEntry r t).inodeTable r).slots = (s.inodeTable r).slots := by
    rw [withoutEntry_inode]
    rfl
  have hstart : ((s.withoutEntry r t).inodeTable r).iStartSect = (s.inodeTable r).iStartSect := by
    rw [withoutEntry_inode]
    rfl
  have hdisk : (s.withoutEntry r t).disk = clearedSlot s.disk (s.inodeTable r).iStartSect t := rfl
  have hself := (slot_cleared_self s.disk (s.inodeTable r).iStartSect t).1
  have hother : ∀ u, u ≠ t → slotNr (clearedSlot s.disk (s.inodeTable r).iStartSect t)
      (s.inodeTable r).iStartSect u = slotNr s.disk (s.inodeTable r).iStartSect u :=
    fun u hu => (slot_cleared_of_ne hu).1
  have hsize := h.size
  have hs : sectorSize = 512 := rfl
  have hd : dirEntSize = 16 := rfl
  have he : entriesPerSect = 32 := rfl
  have hle : (s.inodeTable r).entries ≤ (s.inodeTable r).slots := by
    rw [Inode.entries, Inode.slots, he, hd]
    rw [hs] at hsize
    omega
  rw [Covered, hslots, hstart, hdisk, withoutEntry_inode, shrunk_entries]
  by_cases hlast : t + 1 = (s.inodeTable r).entries
  · simp only [hlast, true_imp_iff]
    rw [packed_iff]
    constructor
    · intro hcov v hv hz
      apply hcov v (by omega)
      rw [hother v (by omega)]
      exact hz
    · intro hcov u hu hz
      have hut : u ≠ t := by
        rintro rfl
        exact hz hself
      rw [hother u hut] at hz
      have hlt := h.table.covers u hu hz
      exact hcov u (by omega) hz
  · simp only [hlast, false_imp_iff, iff_true]
    intro u hu hz
    have hut : u ≠ t := by
      rintro rfl
      exact hz hself
    rw [hother u hut] at hz
    exact h.table.covers u hu hz

end Removed

/-- The name is gone, every other path names what it named before, and the size of the directory
covers the entries that are left. -/
def Unlinked (s s' : Fs) (r : Fin nrInode) (path : List UInt8) : Prop :=
  s'.lookup path = 0 ∧ (∀ g, stripPath g ≠ stripPath path → s'.lookup g = s.lookup g) ∧
    Covered s' r

section Unlinked

variable {s s' : Fs} {r : Fin nrInode} {t : Nat} {name path : List UInt8} {nr : Int}

theorem covered_of_view (hv : Fs.dirView (s.inodeTable r).iStartSect r s' =
    Fs.dirView (s.inodeTable r).iStartSect r s) : Covered s' r ↔ Covered s r := by
  simp only [Covered, inode_of_view hv, (slot_of_view hv _).1]

theorem DirOk.lookup_slot (h : DirOk s r) (ht : t < (s.inodeTable r).slots)
    (hslot : dirSlots s.disk (s.inodeTable r).iStartSect t = some (name, nr))
    (hp : stripPath path = some name) : s.lookup path = nr := by
  obtain ⟨hz, hname, -⟩ := dirSlots_eq_some_iff.mp hslot
  obtain ⟨hne, hlen⟩ := h.table.name_length t ht hz
  rw [hname] at hne hlen
  have hfind : s.dirMap r name = some nr := h.table.distinct.find_eq_some_iff.mpr ⟨t, ht, hslot⟩
  rw [h.lookup_eq hp hne hlen, hfind, Option.getD_some]

variable (h : DirOk s r) (ht : t < (s.inodeTable r).slots)
  (hslot : dirSlots s.disk (s.inodeTable r).iStartSect t = some (name, nr))
  (hp : stripPath path = some name)
include h ht hslot hp

theorem unlinked_of_own (hcov : Covered (s.withoutEntry r t) r)
    (hv : Fs.dirView (s.inodeTable r).iStartSect r s' =
      Fs.dirView (s.inodeTable r).iStartSect r (s.withoutEntry r t)) : Unlinked s s' r path := by
  obtain ⟨hz, hname, -⟩ := dirSlots_eq_some_iff.mp hslot
  have hlt := h.table.covers t ht hz
  obtain ⟨hne, hlen⟩ := h.table.name_length t ht hz
  rw [hname] at hne hlen
  have hstart : ((s.withoutEntry r t).inodeTable r).iStartSect = (s.inodeTable r).iStartSect := by
    rw [withoutEntry_inode]
    rfl
  rw [← hstart] at hv
  have h₁ := h.withoutEntry hcov hlt
  have h' := h₁.of_view hv
  have hmap : ∀ x, s'.dirMap r x = Slots.find
      (Function.update (dirSlots s.disk (s.inodeTable r).iStartSect) t none)
        (s.inodeTable r).slots x := by
    intro x
    rw [dirMap_of_view hv, dirMap_withoutEntry]
  refine ⟨?_, fun g hg => ?_, (covered_of_view hv).mpr hcov⟩
  · rw [h'.lookup_eq hp hne hlen, hmap, h.table.distinct.find_free_self ht hslot, Option.getD_none]
  · apply h.lookup_congr h'
    · rw [inode_of_view hv, withoutEntry_inode]
      rfl
    · intro x hx
      rw [hmap]
      apply h.table.distinct.find_free_of_ne hslot
      rintro rfl
      exact hg (hx.trans hp.symm)

/-- The entry of another file with the same inode number has been cleared. -/
theorem not_unlinked_of_other {u : Nat} (hu : u < t)
    (hv : Fs.dirView (s.inodeTable r).iStartSect r s' =
      Fs.dirView (s.inodeTable r).iStartSect r (s.withoutEntry r u)) : ¬ Unlinked s s' r path := by
  rintro ⟨hgone, -⟩
  obtain ⟨hz, -, hnr⟩ := dirSlots_eq_some_iff.mp hslot
  have hlt := h.table.covers t ht hz
  have hcov : Covered (s.withoutEntry r u) r :=
    (covered_withoutEntry_iff h).mpr fun hlast => by omega
  have hstart : ((s.withoutEntry r u).inodeTable r).iStartSect = (s.inodeTable r).iStartSect := by
    rw [withoutEntry_inode]
    rfl
  rw [← hstart] at hv
  have h' := (h.withoutEntry hcov (by omega)).of_view hv
  have hstart' : (s'.inodeTable r).iStartSect = (s.inodeTable r).iStartSect := by
    rw [inode_of_view hv, hstart]
  have hslots' : (s'.inodeTable r).slots = (s.inodeTable r).slots := by
    rw [inode_of_view hv, withoutEntry_inode]
    rfl
  -- the slot of the file is as it was
  have hkept : dirSlots s'.disk (s'.inodeTable r).iStartSect t = some (name, nr) := by
    have hsame := slot_of_view hv t
    have hother := @slot_cleared_of_ne s.disk (s.inodeTable r).iStartSect u t (by omega)
    rw [hstart] at hsame
    have hnr' : slotNr s'.disk (s.inodeTable r).iStartSect t =
        slotNr s.disk (s.inodeTable r).iStartSect t := hsame.1.trans hother.1
    have hname' : slotName s'.disk (s.inodeTable r).iStartSect t =
        slotName s.disk (s.inodeTable r).iStartSect t := hsame.2.trans hother.2
    rw [hstart', ← hslot, dirSlots, dirSlots, hnr', hname']
  have hfound := h'.lookup_slot (by rw [hslots']; exact ht) hkept hp
  rw [hgone] at hfound
  exact hz (hnr.trans hfound.symm)

/-- A removal that succeeds removes only its own name exactly if no slot in front has the same
inode number and, when the slot is the last one, no free slot is in front of an entry. -/
theorem unlinked_iff {p : Pid} {msg : Message} (hmode : (s.inodeTable r).iMode = iDirectory)
    (hcnt : (s.inodeTable r).iCnt ≠ 0) (hfile : FS.FileAt s r nr (s.inodeOf nr))
    (hpath : s.pathOf p msg = path) (hok : FS.doUnlink p msg s = .ok 0 s') :
    Unlinked s s' r path ↔
      (∀ u, u < t → slotNr s.disk (s.inodeTable r).iStartSect u ≠ nr) ∧
      (t + 1 = (s.inodeTable r).entries → Packed s.disk (s.inodeTable r).iStartSect t) := by
  obtain ⟨hz, -, hnr⟩ := dirSlots_eq_some_iff.mp hslot
  have hlookup : s.lookup (s.pathOf p msg) = nr := by
    rw [hpath]
    exact h.lookup_slot ht hslot hp
  have hspec := FS.doUnlink_spec p msg h.toRootAt h.size hmode hcnt (by rw [hlookup]; exact hfile)
  rw [hlookup] at hspec
  obtain ⟨u, -, hfirst, hv⟩ := wp_ok hspec hok rfl
  have hle : u ≤ t := by
    by_contra hlt
    exact hfirst.before t (by omega) hnr
  by_cases hut : u = t
  · subst hut
    have hstart : ((s.withoutEntry r u).inodeTable r).iStartSect =
        (s.inodeTable r).iStartSect := by
      rw [withoutEntry_inode]
      rfl
    constructor
    · intro hun
      refine ⟨hfirst.before, (covered_withoutEntry_iff h).mp ?_⟩
      rw [← hstart] at hv
      exact (covered_of_view hv).mp hun.2.2
    · rintro ⟨-, hpacked⟩
      exact unlinked_of_own h ht hslot hp ((covered_withoutEntry_iff h).mpr hpacked) hv
  · constructor
    · intro hun
      exact absurd hun (not_unlinked_of_other h ht hslot hp (by omega) hv)
    · rintro ⟨hbefore, -⟩
      exact absurd hfirst.nr_eq (hbefore u (by omega))

end Unlinked

section Letters

/-- The request to remove the file in slot `t` of a directory of one-character names. -/
def unlinkLetter (t : Nat) : Message := { type := .unlink, m3p1 := t, m3i2 := 1 }

theorem fileAt_letterFs {live : Nat → Bool} {n : Nat} {nr : Int}
    (hinode : inodeSect (letterFs live n).sb nr.toNat < 8)
    (hdisk : (letterFs live n).inodeOf nr = ⟨iRegular, 0, 10, 4⟩) :
    FS.FileAt (letterFs live n) letterRoot nr ((letterFs live n).inodeOf nr) := by
  rw [hdisk]
  refine ⟨?_, hinode, ?_⟩
  · change 3 + 1 < 8
    decide
  · change 10 + 1 - 8 + 4 ≤ 8 * 512 * 1
    decide

/-- Three files, of which the one in the middle is removed. -/
theorem unlinked_middle : ∃ s', FS.doUnlink init (unlinkLetter 1) (letterFs (fun t => t < 3) 3) =
    .ok 0 s' ∧ Unlinked (letterFs (fun t => t < 3) 3) s' letterRoot [66] := by
  have hok := @Result.eq_ok_of_valueOf _ _
    (FS.doUnlink init (unlinkLetter 1) (letterFs (fun t => t < 3) 3)) 0 (by decide +kernel)
  have h : DirOk (letterFs (fun t => t < 3) 3) letterRoot := by
    apply dirOk_letterFs (by decide)
    intro t ht
    simpa using ht
  have hslot : dirSlots (letterFs (fun t => t < 3) 3).disk 8 1 = some ([66], 3) := by
    decide +kernel
  refine ⟨_, hok, (@unlinked_iff _ _ _ 1 [66] _ 3 h (by decide) hslot (by decide) _ _ rfl
    (by decide) (fileAt_letterFs (by decide) (by decide +kernel)) (by decide +kernel) hok).mpr ?_⟩
  refine ⟨?_, fun hlast => ?_⟩
  · decide +kernel
  · rw [letterFs_entries] at hlast
    cases hlast

/-- Slot 0 is free and the file in slot 2, the last one, is removed: the size then covers one slot
and not the file in slot 1. -/
theorem unlink_uncovers_entry : DirOk (letterFs (fun t => t = 1 || t = 2) 3) letterRoot ∧
    ∃ s', FS.doUnlink init (unlinkLetter 2) (letterFs (fun t => t = 1 || t = 2) 3) = .ok 0 s' ∧
      (s'.inodeTable letterRoot).entries = 1 ∧ slotNr s'.disk 8 1 = 3 ∧
      ¬ Unlinked (letterFs (fun t => t = 1 || t = 2) 3) s' letterRoot [67] := by
  have h : DirOk (letterFs (fun t => t = 1 || t = 2) 3) letterRoot := by
    apply dirOk_letterFs (by decide)
    intro t ht
    have ht' : t = 1 ∨ t = 2 := by simpa using ht
    omega
  have hok := @Result.eq_ok_of_valueOf _ _
    (FS.doUnlink init (unlinkLetter 2) (letterFs (fun t => t = 1 || t = 2) 3)) 0
    (by decide +kernel)
  refine ⟨h, _, hok, by decide +kernel, by decide +kernel, ?_⟩
  rintro ⟨-, -, hcov⟩
  exact absurd (hcov 1 (by decide +kernel) (by decide +kernel)) (by decide +kernel)

end Letters

end BazingaOS
