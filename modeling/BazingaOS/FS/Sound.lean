import BazingaOS.FS.Reached

/-!
# Inodes and their sectors

What the disk and the cache of a file system have to do with each other: an inode that is in use has
its sectors marked in the sector map, and the cache has the inodes as the disk has them. A number may
be left out while its inode is being made.
-/

namespace BazingaOS

open Prog

/-- The maps and the inode array are where `mkfs` puts them, and the directory behind them has
positions on the disk; the numbers of the sectors fit in 32 bits. -/
structure SuperBlock.Laid (sb : SuperBlock) : Prop where
  imap : sb.nrImapSects = 1
  smap : 1 ≤ sb.nrSmapSects
  first : sb.n1stSect = sb.nrSmapSects + 259
  addr : sectorSize * (sb.n1stSect + nrDefaultFileSects + 1) ≤ 2 ^ 31
  fits : sb.n1stSect + sb.smapBits ≤ 2 ^ 32

/-- Inode `nr` as the inode array has it. -/
def storedInode (sb : SuperBlock) (d : Bytes) (nr : Nat) : DiskInode :=
  diskInodeAt d (inodePlace sb nr)

/-- The bits of the inode map, of which bit 0 stands for no inode. -/
def nrNumbers : Nat := 8 * sectorSize

def InUse (d : Bytes) (nr : Nat) : Prop := 1 ≤ nr ∧ nr < nrNumbers ∧ ¬ Free d 2 nr

/-- An inode that has sectors. -/
def DiskInode.Owner (i : DiskInode) : Prop := i.mode = iRegular ∨ i.mode = iDirectory

/-- The bit of the first sector of an inode in the sector map. -/
def SuperBlock.firstBit (sb : SuperBlock) (i : DiskInode) : Nat := i.startSect + 1 - sb.n1stSect

/-- The sectors of an inode are in the data area, and their bits are in the sector map and set. -/
structure Marked (sb : SuperBlock) (d : Bytes) (i : DiskInode) : Prop where
  start : sb.n1stSect ≤ i.startSect
  sects : i.nrSects = nrDefaultFileSects
  inMap : sb.firstBit i + i.nrSects ≤ sb.smapBits
  set : AllSet (sb.firstBit i) (sb.firstBit i + i.nrSects) d

theorem Marked.resize {sb : SuperBlock} {d : Bytes} {i j : DiskInode} (h : Marked sb d i)
    (hstart : j.startSect = i.startSect) (hsects : j.nrSects = i.nrSects) : Marked sb d j := by
  obtain ⟨h₁, h₂, h₃, h₄⟩ := h
  have hbit : sb.firstBit j = sb.firstBit i := by rw [SuperBlock.firstBit, hstart, SuperBlock.firstBit]
  constructor
  · rw [hstart]
    exact h₁
  · rw [hsects]
    exact h₂
  · rw [hbit, hsects]
    exact h₃
  · rw [hbit, hsects]
    exact h₄

/-- The first bit of each map is reserved, and the sectors of every inode in use are marked, but for
inode `x`. -/
structure DiskOk (sb : SuperBlock) (x : Nat) (d : Bytes) : Prop where
  imap : ¬ Free d 2 0
  smap : ¬ Free d 3 0
  root : InUse d rootInodeNr
  marked : ∀ nr, InUse d nr → nr ≠ x → (storedInode sb d nr).Owner →
    Marked sb d (storedInode sb d nr)

/-- The cache has every inode once, and as the disk has it. -/
structure CacheOk (sb : SuperBlock) (d : Bytes) (t : Fin nrInode → Inode) : Prop where
  cnt : ∀ n, 0 ≤ (t n).iCnt
  dev : ∀ n, (t n).iCnt ≠ 0 → (t n).iDev = rootDev
  num : ∀ n, (t n).iCnt ≠ 0 → 1 ≤ (t n).iNum
  inj : ∀ m n, (t m).iCnt ≠ 0 → (t n).iCnt ≠ 0 → (t m).iNum = (t n).iNum → m = n
  stored : ∀ n (nr : Nat), (t n).iCnt ≠ 0 → (t n).iNum = nr → nr < nrNumbers →
    (t n).disk = storedInode sb d nr

section Places

variable {sb : SuperBlock} {d d' : Bytes} {i : DiskInode} {k m nr x b : Nat}

theorem inodePlace_linear (sb : SuperBlock) (nr : Nat) : inodePlace sb nr =
    sectorSize * (2 + sb.nrImapSects + sb.nrSmapSects) + inodeSize * (nr - 1) := by
  have hs : sectorSize = 512 := rfl
  have hi : inodeSize = 32 := rfl
  have hper : sectorSize / inodeSize = 16 := rfl
  rw [inodePlace, inodeSect, inodeOff, hper, hs, hi]
  omega

theorem inodePlace_eq (h : sb.Laid) (nr : Nat) :
    inodePlace sb nr = sectorSize * (3 + sb.nrSmapSects) + inodeSize * (nr - 1) := by
  rw [inodePlace_linear, h.imap]

theorem smapSect_eq (h : sb.Laid) : sb.smapSect = 3 := by rw [SuperBlock.smapSect, h.imap]

theorem imapBits_eq (h : sb.Laid) : sb.imapBits = nrNumbers := by
  rw [SuperBlock.imapBits, h.imap, nrNumbers, Nat.mul_one]

theorem smapBits_pos (h : sb.Laid) : 0 < sb.smapBits :=
  Nat.mul_pos (by decide) (Nat.mul_pos (by decide) h.smap)

theorem inodePlace_lt (h : sb.Laid) (hnr : nr < nrNumbers) :
    inodePlace sb nr + 16 ≤ sectorSize * sb.n1stSect := by
  have hs : sectorSize = 512 := rfl
  have hi : inodeSize = 32 := rfl
  rw [nrNumbers, hs] at hnr
  rw [inodePlace_eq h, h.first, hs, hi]
  omega

theorem inodePlace_apart (hm : 1 ≤ m) (hnr : 1 ≤ nr) (hne : m ≠ nr) :
    inodePlace sb m + 16 ≤ inodePlace sb nr ∨ inodePlace sb nr + 16 ≤ inodePlace sb m := by
  have hi : inodeSize = 32 := rfl
  rw [inodePlace_linear, inodePlace_linear, hi]
  omega

theorem maps_le_inodePlace (h : sb.Laid) (nr : Nat) :
    sectorSize * (3 + sb.nrSmapSects) ≤ inodePlace sb nr := by
  rw [inodePlace_eq h]
  exact Nat.le_add_right _ _

theorem diskInodeAt_fits (d : Bytes) (a : Nat) : (diskInodeAt d a).Fits :=
  ⟨u32At_lt _ _, u32At_lt _ _, u32At_lt _ _, u32At_lt _ _⟩

theorem storedInode_put (hfits : i.Fits) :
    storedInode sb (putBytes d (inodePlace sb k) i.bytes) k = i :=
  diskInodeAt_putBytes hfits

theorem storedInode_put_of_ne (hk : 1 ≤ k) (hnr : 1 ≤ nr) (hne : nr ≠ k) :
    storedInode sb (putBytes d (inodePlace sb k) i.bytes) nr = storedInode sb d nr := by
  apply diskInodeAt_putBytes_of_disjoint
  rw [DiskInode.bytes_length]
  exact inodePlace_apart hk hnr (Ne.symm hne)

theorem bitAt_put (h : sb.Laid) (hb : b < 8 * (sectorSize * (3 + sb.nrSmapSects))) :
    bitAt (putBytes d (inodePlace sb k) i.bytes) b = bitAt d b := by
  apply bitAt_congr
  apply putBytes_of_lt
  have hle := maps_le_inodePlace h k
  omega

theorem storedInode_congr (h : sb.Laid)
    (hd : ∀ a, sectorSize * (3 + sb.nrSmapSects) ≤ a → d' a = d a) (nr : Nat) :
    storedInode sb d' nr = storedInode sb d nr := by
  have hle := maps_le_inodePlace h nr
  apply diskInodeAt_shift
  intro j _
  exact hd _ (Nat.le_trans hle (Nat.le_add_right _ _))

theorem sectBit_imap (hnr : nr < nrNumbers) : sectBit 2 + nr < 8 * (sectorSize * 3) := by
  have hs : sectorSize = 512 := rfl
  rw [nrNumbers, hs] at hnr
  rw [sectBit, hs]
  omega

theorem sectBit_smap (hb : b < sb.smapBits) :
    sectBit 3 + b < 8 * (sectorSize * (3 + sb.nrSmapSects)) := by
  have hs : sectorSize = 512 := rfl
  rw [SuperBlock.smapBits, hs] at hb
  rw [sectBit, hs]
  omega

end Places

namespace DiskOk

variable {sb : SuperBlock} {d d' : Bytes} {i : DiskInode} {k nr x : Nat}

theorem weaken (h : DiskOk sb 0 d) (x : Nat) : DiskOk sb x d :=
  ⟨h.imap, h.smap, h.root, fun nr huse _ => h.marked nr huse (Nat.ne_of_gt huse.1)⟩

theorem congr (h : DiskOk sb x d) (hl : sb.Laid)
    (hd : ∀ a, a < sectorSize * sb.n1stSect → d' a = d a) : DiskOk sb x d' := by
  have hs : sectorSize = 512 := rfl
  have hfirst := hl.first
  have hfree : ∀ m, m < nrNumbers → (Free d' 2 m ↔ Free d 2 m) := by
    intro m hm
    have hbit := sectBit_imap hm
    rw [Free, Free, bitAt_congr (hd _ (by rw [hs] at hbit ⊢; omega))]
  have huse : ∀ m, InUse d' m ↔ InUse d m := fun m =>
    and_congr_right fun _ => and_congr_right fun hm => not_congr (hfree m hm)
  have hbits : ∀ b, b < sb.smapBits → bitAt d' (sectBit 3 + b) = bitAt d (sectBit 3 + b) := by
    intro b hb
    have hbit := sectBit_smap hb
    exact bitAt_congr (hd _ (by rw [hs] at hbit ⊢; omega))
  have hstored : ∀ m, m < nrNumbers → storedInode sb d' m = storedInode sb d m := by
    intro m hm
    have hlt := inodePlace_lt hl hm
    apply diskInodeAt_shift
    intro j hj
    exact hd _ (by omega)
  refine ⟨fun hz => h.imap ((hfree 0 (by decide)).mp hz), ?_, (huse _).mpr h.root, ?_⟩
  · rw [Free, hbits 0 (smapBits_pos hl)]
    exact h.smap
  · intro m hm hmx hown
    rw [hstored m hm.2.1] at hown ⊢
    obtain ⟨hstart, hsects, hmap, hset⟩ := h.marked m ((huse m).mp hm) hmx hown
    refine ⟨hstart, hsects, hmap, fun b hb hlt => ?_⟩
    rw [hbits b (by omega)]
    exact hset b hb hlt

theorem store (h : DiskOk sb k d) (hl : sb.Laid) (hk : 1 ≤ k) (hfits : k < nrNumbers → i.Fits)
    (hi : InUse d k → i.Owner → Marked sb d i) :
    DiskOk sb 0 (putBytes d (inodePlace sb k) i.bytes) := by
  have hs : sectorSize = 512 := rfl
  have hfree : ∀ m, m < nrNumbers →
      (Free (putBytes d (inodePlace sb k) i.bytes) 2 m ↔ Free d 2 m) := by
    intro m hm
    have hbit := sectBit_imap hm
    rw [Free, Free, bitAt_put hl (by rw [hs] at hbit ⊢; omega)]
  have huse : ∀ m, InUse (putBytes d (inodePlace sb k) i.bytes) m ↔ InUse d m := fun m =>
    and_congr_right fun _ => and_congr_right fun hm => not_congr (hfree m hm)
  have hmarked : ∀ {j : DiskInode}, Marked sb d j →
      Marked sb (putBytes d (inodePlace sb k) i.bytes) j := by
    rintro j ⟨hstart, hsects, hmap, hset⟩
    refine ⟨hstart, hsects, hmap, fun b hb hlt => ?_⟩
    rw [bitAt_put hl (sectBit_smap (by omega))]
    exact hset b hb hlt
  refine ⟨fun hz => h.imap ((hfree 0 (by decide)).mp hz), ?_, (huse _).mpr h.root, ?_⟩
  · rw [Free, bitAt_put hl (sectBit_smap (smapBits_pos hl))]
    exact h.smap
  · intro m hm _ hown
    by_cases hmk : m = k
    · subst hmk
      rw [storedInode_put (hfits hm.2.1)] at hown ⊢
      exact hmarked (hi ((huse m).mp hm) hown)
    · rw [storedInode_put_of_ne hk hm.1 hmk] at hown ⊢
      exact hmarked (h.marked m ((huse m).mp hm) hmk hown)

theorem renumber (h : DiskOk sb 0 d) (hl : sb.Laid) (hd : ∀ a, sectorSize * 3 ≤ a → d' a = d a)
    (hzero : ¬ Free d' 2 0) (hroot : InUse d' rootInodeNr)
    (huse : ∀ m, m ≠ x → InUse d' m → InUse d m) : DiskOk sb x d' := by
  have hs : sectorSize = 512 := rfl
  have hbits : ∀ b, bitAt d' (sectBit 3 + b) = bitAt d (sectBit 3 + b) := by
    intro b
    exact bitAt_congr (hd _ (by rw [sectBit, hs]; omega))
  refine ⟨hzero, ?_, hroot, fun m hm hmx hown => ?_⟩
  · rw [Free, hbits]
    exact h.smap
  have hstored : storedInode sb d' m = storedInode sb d m :=
    storedInode_congr hl (fun a ha => hd a (by rw [hs] at ha ⊢; omega)) m
  rw [hstored] at hown ⊢
  obtain ⟨hstart, hsects, hmap, hset⟩ :=
    h.marked m (huse m hmx hm) (Nat.ne_of_gt hm.1) hown
  refine ⟨hstart, hsects, hmap, fun b hb hlt => ?_⟩
  rw [hbits b]
  exact hset b hb hlt

theorem remap (h : DiskOk sb x d) (hl : sb.Laid)
    (hd : ∀ a, a < sectorSize * 3 ∨ sectorSize * (3 + sb.nrSmapSects) ≤ a → d' a = d a)
    (hzero : ¬ Free d' 3 0) (hset : ∀ m, InUse d m → m ≠ x → (storedInode sb d m).Owner →
      AllSet (sb.firstBit (storedInode sb d m))
        (sb.firstBit (storedInode sb d m) + (storedInode sb d m).nrSects) d') :
    DiskOk sb x d' := by
  have hs : sectorSize = 512 := rfl
  have hfree : ∀ m, m < nrNumbers → (Free d' 2 m ↔ Free d 2 m) := by
    intro m hm
    have hbit := sectBit_imap hm
    rw [Free, Free, bitAt_congr (hd _ (by rw [hs] at hbit ⊢; omega))]
  have huse : ∀ m, InUse d' m ↔ InUse d m := fun m =>
    and_congr_right fun _ => and_congr_right fun hm => not_congr (hfree m hm)
  refine ⟨fun hz => h.imap ((hfree 0 (by decide)).mp hz), hzero, (huse _).mpr h.root, ?_⟩
  intro m hm hmx hown
  have hstored : storedInode sb d' m = storedInode sb d m :=
    storedInode_congr hl (fun a ha => hd a (.inr ha)) m
  rw [hstored] at hown ⊢
  obtain ⟨hstart, hsects, hmap, -⟩ := h.marked m ((huse m).mp hm) hmx hown
  exact ⟨hstart, hsects, hmap, hset m ((huse m).mp hm) hmx hown⟩

end DiskOk

section Numbers

variable {s s' : Fs} {d : Bytes} {n m nr x : Nat} {sb : SuperBlock}

theorem free_setBit : Free (setBit d (sectorSize * 2 + nr / 8) (nr % 8)) 2 m ↔
    Free d 2 m ∧ m ≠ nr := by
  have hplace : sectBit 2 + m = 8 * (sectorSize * 2 + nr / 8) + nr % 8 ↔ m = nr := by
    rw [sectBit]
    omega
  rw [Free, bitAt_setBit (Nat.mod_lt _ (by decide)), Bool.or_eq_false_iff,
    decide_eq_false_iff_not, hplace, Free]

theorem free_clearBit : Free (clearBit d (sectorSize * 2 + nr / 8) (nr % 8)) 2 m ↔
    Free d 2 m ∨ m = nr := by
  have hplace : sectBit 2 + m = 8 * (sectorSize * 2 + nr / 8) + nr % 8 ↔ m = nr := by
    rw [sectBit]
    omega
  rw [Free, bitAt_clearBit (Nat.mod_lt _ (by decide)), Bool.and_eq_false_iff,
    decide_eq_false_iff_not, not_not, hplace, Free]

theorem ImapAllocated.inUse_iff (h : ImapAllocated s nr s') (hl : s.sb.Laid)
    (hzero : ¬ Free s.disk 2 0) : InUse s'.disk m ↔ m = nr ∨ InUse s.disk m := by
  have hlt := h.lt
  have hfree := h.free
  rw [imapBits_eq hl] at hlt
  obtain ⟨buf, rfl⟩ := h.state
  have hpos : 1 ≤ nr := by
    by_contra hz
    obtain rfl : nr = 0 := by omega
    exact hzero hfree
  change 1 ≤ m ∧ m < nrNumbers ∧ ¬ Free (setBit s.disk _ _) 2 m ↔ _
  rw [free_setBit, InUse]
  constructor
  · rintro ⟨hone, hm, hset⟩
    by_cases hmn : m = nr
    · exact .inl hmn
    · exact .inr ⟨hone, hm, fun hf => hset ⟨hf, hmn⟩⟩
  · rintro (rfl | ⟨hone, hm, hset⟩)
    · exact ⟨hpos, hlt, fun hf => hf.2 rfl⟩
    · exact ⟨hone, hm, fun hf => hset hf.1⟩

theorem ImapAllocated.behind (h : ImapAllocated s nr s') (hl : s.sb.Laid) {a : Nat}
    (ha : sectorSize * 3 ≤ a) : s'.disk a = s.disk a := by
  have hlt := h.lt
  rw [imapBits_eq hl] at hlt
  obtain ⟨buf, rfl⟩ := h.state
  apply Function.update_of_ne
  have hs : sectorSize = 512 := rfl
  rw [nrNumbers, hs] at hlt
  rw [hs] at ha ⊢
  omega

theorem ImapAllocated.diskOk (h : ImapAllocated s nr s') (hl : s.sb.Laid)
    (hok : DiskOk s.sb 0 s.disk) : DiskOk s.sb nr s'.disk := by
  have huse : ∀ m, InUse s'.disk m ↔ m = nr ∨ InUse s.disk m := fun m => h.inUse_iff hl hok.imap
  have hbehind : ∀ a, sectorSize * 3 ≤ a → s'.disk a = s.disk a := fun a ha => h.behind hl ha
  obtain ⟨buf, rfl⟩ := h.state
  exact hok.renumber hl hbehind (fun hz => hok.imap (free_setBit.mp hz).1)
    ((huse _).mpr (.inr hok.root)) fun m hm hu => ((huse m).mp hu).resolve_left hm

theorem inUse_clearBit : InUse (clearBit d (sectorSize * 2 + nr / 8) (nr % 8)) m ↔
    InUse d m ∧ m ≠ nr := by
  rw [InUse, InUse, free_clearBit]
  tauto

theorem clearBit_behind (hnr : nr < nrNumbers) {a : Nat} (ha : sectorSize * 3 ≤ a) :
    clearBit d (sectorSize * 2 + nr / 8) (nr % 8) a = d a := by
  apply Function.update_of_ne
  have hs : sectorSize = 512 := rfl
  rw [nrNumbers, hs] at hnr
  rw [hs] at ha ⊢
  omega

theorem DiskOk.releaseNumber (h : DiskOk sb 0 d) (hl : sb.Laid) (hnr : nr < nrNumbers)
    (hne : rootInodeNr < nr) :
    DiskOk sb 0 (clearBit d (sectorSize * 2 + nr / 8) (nr % 8)) := by
  have hone : rootInodeNr = 1 := rfl
  refine h.renumber hl (fun a ha => clearBit_behind hnr ha) (fun hz => ?_)
    (inUse_clearBit.mpr ⟨h.root, by omega⟩) fun m _ hu => (inUse_clearBit.mp hu).1
  · rcases free_clearBit.mp hz with hf | hf
    · exact h.imap hf
    · omega

end Numbers

section Sectors

variable {s s' : Fs} {d d' : Bytes} {n nr x lo c : Nat} {sb : SuperBlock}

theorem byte_eq_of_bits {a : Nat} (h : ∀ k, k < 8 → bitAt d' (8 * a + k) = bitAt d (8 * a + k)) :
    d' a = d a := by
  apply byteBit_ext
  intro k hk
  rw [← bitAt_mul_add hk, ← bitAt_mul_add hk]
  exact h k hk

theorem SmapAllocated.outside (h : SmapAllocated s n nr s') (hl : s.sb.Laid) {a : Nat}
    (ha : a < sectorSize * 3 ∨ sectorSize * (3 + s.sb.nrSmapSects) ≤ a) :
    s'.disk a = s.disk a := by
  have hs : sectorSize = 512 := rfl
  have htaken := h.taken
  rw [SmapTaken, smapSect_eq hl] at htaken
  refine byte_eq_of_bits fun k hk => ?_
  rw [Bool.eq_iff_iff, htaken]
  refine or_iff_left ?_
  rintro ⟨b, hb, -, heq⟩
  have hbit := sectBit_smap hb
  rw [sectBit, hs] at heq
  rw [sectBit] at hbit
  rw [hs] at ha hbit
  omega

theorem SmapAllocated.diskOk (h : SmapAllocated s n nr s') (hl : s.sb.Laid)
    (hok : DiskOk s.sb x s.disk) : DiskOk s.sb x s'.disk := by
  have hmono : ∀ b, bitAt s.disk b = true → bitAt s'.disk b = true :=
    fun b hb => (h.taken b).mpr (.inl hb)
  refine hok.remap hl (fun a ha => h.outside hl ha) (fun hz => ?_) ?_
  · rw [Free, hmono _ (by simpa [Free] using hok.smap)] at hz
    cases hz
  · intro m hm hmx hown b hb hlt
    exact hmono _ ((hok.marked m hm hmx hown).set b hb hlt)

theorem SmapAllocated.exists_first (h : SmapAllocated s n nr s') (hl : s.sb.Laid) (hn : 1 ≤ n) :
    ∃ f, Free s.disk 3 f ∧ (∀ g, g < f → ¬ Free s.disk 3 g) ∧ nr = s.sb.n1stSect - 1 + f := by
  have henough := h.enough
  rw [smapSect_eq hl] at henough
  obtain ⟨c, -, hc⟩ := Nat.count_ne_iff_exists.mp
    (show Nat.count (Free s.disk 3) s.sb.smapBits ≠ 0 by omega)
  have hex : ∃ f, Free s.disk 3 f := ⟨c, hc⟩
  have hfree := Nat.find_spec hex
  have hbelow : ∀ g, g < Nat.find hex → ¬ Free s.disk 3 g := fun g hg => Nat.find_min hex hg
  refine ⟨Nat.find hex, hfree, hbelow, ?_⟩
  have hfirst := h.first (Nat.find hex)
  rw [smapSect_eq hl] at hfirst
  exact hfirst hfree hbelow

/-- The first clear bit, from which on there are enough bits for all that are allocated. -/
theorem SmapAllocated.first_fits (h : SmapAllocated s n nr s') (hl : s.sb.Laid) (hn : 1 ≤ n) :
    ∃ f, Free s.disk 3 f ∧ (∀ g, g < f → ¬ Free s.disk 3 g) ∧ nr = s.sb.n1stSect - 1 + f ∧
      f + n ≤ s.sb.smapBits := by
  obtain ⟨f, hfree, hbelow, hnr⟩ := h.exists_first hl hn
  refine ⟨f, hfree, hbelow, hnr, ?_⟩
  have henough := h.enough
  rw [smapSect_eq hl] at henough
  by_contra hlt
  rcases Nat.le_total f s.sb.smapBits with hf | hf
  · have hcount : Nat.count (Free s.disk 3) (f + (s.sb.smapBits - f)) ≤ s.sb.smapBits - f := by
      rw [Nat.count_add, Nat.count_iff_forall_not.mpr hbelow, Nat.zero_add]
      exact Nat.count_le _
    rw [Nat.add_sub_cancel' hf] at hcount
    omega
  · have hzero := Nat.count_monotone (Free s.disk 3) hf
    rw [Nat.count_iff_forall_not.mpr hbelow] at hzero
    omega

/-- Whether or not they are next to each other, the bits from the first one on are then set. -/
theorem SmapAllocated.marked (h : SmapAllocated s nrDefaultFileSects nr s') (hl : s.sb.Laid)
    (hok : DiskOk s.sb x s.disk) (mode size : Nat) :
    Marked s.sb s'.disk ⟨mode, size, nr, nrDefaultFileSects⟩ := by
  have hn : 1 ≤ nrDefaultFileSects := by decide
  generalize hnum : nrDefaultFileSects = n at h hn ⊢
  obtain ⟨f, hfree, hbelow, hnr, hend⟩ := h.first_fits hl hn
  have htaken := h.taken
  rw [SmapTaken, smapSect_eq hl] at htaken
  have hpos : 1 ≤ f := by
    by_contra hz
    obtain rfl : f = 0 := by omega
    exact hok.smap hfree
  -- no bit in front of `f` is clear, so there are at most `k` clear ones in front of `f + k`
  have hcount : ∀ k, Nat.count (Free s.disk 3) (f + k) ≤ k := by
    intro k
    rw [Nat.count_add, Nat.count_iff_forall_not.mpr hbelow, Nat.zero_add]
    exact Nat.count_le _
  have hbit : s.sb.firstBit ⟨mode, size, nr, n⟩ = f := by
    have hlaid := hl.first
    rw [SuperBlock.firstBit, hnr]
    dsimp only
    omega
  have hlaid := hl.first
  refine ⟨?_, hnum.symm, ?_, ?_⟩
  · change s.sb.n1stSect ≤ nr
    omega
  · rw [hbit]
    exact hend
  · rw [hbit]
    intro b hb hlt
    rw [htaken]
    by_cases hset : Free s.disk 3 b
    · refine .inr ⟨b, ?_, ⟨hset, ?_⟩, rfl⟩
      · exact Nat.lt_of_lt_of_le hlt hend
      · obtain ⟨k, rfl⟩ := Nat.exists_eq_add_of_le hb
        have hle := hcount k
        change f + k < f + n at hlt
        omega
    · left
      simpa [Free] using hset

theorem Cleared.byte_eq (h : Cleared lo c d d') {a : Nat}
    (ha : 8 * a + 8 ≤ sectBit 3 + lo ∨ sectBit 3 + c ≤ 8 * a) : d' a = d a := by
  refine byte_eq_of_bits fun k hk => ?_
  rw [h, decide_eq_false (by omega), Bool.not_false, Bool.and_true]

theorem Cleared.outside (h : Cleared lo c d d') (hend : c ≤ sb.smapBits) {a : Nat}
    (ha : a < sectorSize * 3 ∨ sectorSize * (3 + sb.nrSmapSects) ≤ a) : d' a = d a := by
  have hs : sectorSize = 512 := rfl
  refine h.byte_eq ?_
  rw [SuperBlock.smapBits, hs] at hend
  rw [hs] at ha
  rw [sectBit, hs]
  omega

theorem DiskOk.releaseSects (h : DiskOk sb 0 d) (hl : sb.Laid) (hc : Cleared lo c d d')
    (hlo : 1 ≤ lo) (hend : c ≤ sb.smapBits)
    (hapart : ∀ m, InUse d m → (storedInode sb d m).Owner →
      sb.firstBit (storedInode sb d m) + (storedInode sb d m).nrSects ≤ lo ∨
        c ≤ sb.firstBit (storedInode sb d m)) : DiskOk sb 0 d' := by
  refine h.remap hl (fun a ha => hc.outside hend ha) (fun hz => ?_) ?_
  · rw [Free, hc, decide_eq_false (by omega), Bool.not_false, Bool.and_true] at hz
    exact h.smap hz
  · intro m hm hmx hown b hb hlt
    rw [hc, decide_eq_false, Bool.not_false, Bool.and_true]
    · exact (h.marked m hm hmx hown).set b hb hlt
    · have hout := hapart m hm hown
      omega

end Sectors

/-- From `d` to `d'` no inode but `x` has come into use or has got other sectors. -/
def KeepsOwners (sb : SuperBlock) (x : Nat) (d d' : Bytes) : Prop :=
  ∀ m, m ≠ x → InUse d' m → (storedInode sb d' m).Owner →
    InUse d m ∧ (storedInode sb d m).Owner ∧
      (storedInode sb d' m).startSect = (storedInode sb d m).startSect ∧
      (storedInode sb d' m).nrSects = (storedInode sb d m).nrSects

namespace KeepsOwners

variable {sb : SuperBlock} {d d' d'' : Bytes} {i : DiskInode} {k nr x lo c : Nat} {s s' : Fs}

theorem refl (sb : SuperBlock) (x : Nat) (d : Bytes) : KeepsOwners sb x d d :=
  fun _ _ huse hown => ⟨huse, hown, rfl, rfl⟩

theorem trans (h : KeepsOwners sb x d d') (h' : KeepsOwners sb x d' d'') :
    KeepsOwners sb x d d'' := by
  intro m hm huse hown
  obtain ⟨huse', hown', hstart', hsects'⟩ := h' m hm huse hown
  obtain ⟨huse₀, hown₀, hstart, hsects⟩ := h m hm huse' hown'
  exact ⟨huse₀, hown₀, hstart'.trans hstart, hsects'.trans hsects⟩

theorem weaken (h : KeepsOwners sb 0 d d') (x : Nat) : KeepsOwners sb x d d' :=
  fun m _ huse hown => h m (Nat.ne_of_gt huse.1) huse hown

theorem of_stored (huse : ∀ m, m ≠ x → InUse d' m → InUse d m)
    (hstored : ∀ m, m < nrNumbers → storedInode sb d' m = storedInode sb d m) :
    KeepsOwners sb x d d' := by
  intro m hm hm' hown
  rw [hstored m hm'.2.1] at hown ⊢
  exact ⟨huse m hm hm', hown, rfl, rfl⟩

theorem congr (hl : sb.Laid) (hd : ∀ a, a < sectorSize * sb.n1stSect → d' a = d a) :
    KeepsOwners sb x d d' := by
  have hs : sectorSize = 512 := rfl
  have hfirst := hl.first
  refine of_stored (fun m _ hm => ⟨hm.1, hm.2.1, fun hfree => hm.2.2 ?_⟩) fun m hm => ?_
  · have hbit := sectBit_imap hm.2.1
    rw [Free, bitAt_congr (hd _ (by rw [hs] at hbit ⊢; omega))]
    exact hfree
  · have hlt := inodePlace_lt hl hm
    apply diskInodeAt_shift
    intro j hj
    exact hd _ (by omega)

theorem store (hl : sb.Laid) (hk : 1 ≤ k) (hfits : k < nrNumbers → i.Fits)
    (hi : k ≠ x → k < nrNumbers → i.Owner → (storedInode sb d k).Owner ∧
      i.startSect = (storedInode sb d k).startSect ∧ i.nrSects = (storedInode sb d k).nrSects) :
    KeepsOwners sb x d (putBytes d (inodePlace sb k) i.bytes) := by
  have hs : sectorSize = 512 := rfl
  intro m hmx hm hown
  have huse : InUse d m := by
    refine ⟨hm.1, hm.2.1, fun hfree => hm.2.2 ?_⟩
    have hbit := sectBit_imap hm.2.1
    rw [Free, bitAt_put hl (by rw [hs] at hbit ⊢; omega)]
    exact hfree
  refine ⟨huse, ?_⟩
  by_cases hmk : m = k
  · subst hmk
    rw [storedInode_put (hfits hm.2.1)] at hown ⊢
    exact hi hmx hm.2.1 hown
  · rw [storedInode_put_of_ne hk hm.1 hmk] at hown ⊢
    exact ⟨hown, rfl, rfl⟩

theorem allocNumber (h : ImapAllocated s nr s') (hl : s.sb.Laid) (hok : DiskOk s.sb x s.disk) :
    KeepsOwners s.sb nr s.disk s'.disk := by
  have hs : sectorSize = 512 := rfl
  refine of_stored (fun m hm huse => ((h.inUse_iff hl hok.imap).mp huse).resolve_left hm)
    fun m _ => ?_
  exact storedInode_congr hl (fun a ha => h.behind hl (Nat.le_trans (by rw [hs]; omega) ha)) m

theorem remap (hl : sb.Laid)
    (hd : ∀ a, a < sectorSize * 3 ∨ sectorSize * (3 + sb.nrSmapSects) ≤ a → d' a = d a) :
    KeepsOwners sb x d d' := by
  have hs : sectorSize = 512 := rfl
  refine of_stored (fun m _ hm => ⟨hm.1, hm.2.1, fun hfree => hm.2.2 ?_⟩) fun m _ =>
    storedInode_congr hl (fun a ha => hd a (.inr ha)) m
  have hbit := sectBit_imap hm.2.1
  rw [Free, bitAt_congr (hd _ (.inl (by rw [hs] at hbit ⊢; omega)))]
  exact hfree

theorem releaseNumber (hl : sb.Laid) (hnr : nr < nrNumbers) :
    KeepsOwners sb x d (clearBit d (sectorSize * 2 + nr / 8) (nr % 8)) := by
  have hs : sectorSize = 512 := rfl
  refine of_stored (fun m _ huse => (inUse_clearBit.mp huse).1) fun m _ => ?_
  exact storedInode_congr hl (fun a ha => clearBit_behind hnr (Nat.le_trans (by rw [hs]; omega) ha)) m

end KeepsOwners

namespace CacheOk

variable {sb : SuperBlock} {d d' : Bytes} {t : Fin nrInode → Inode} {n : Fin nrInode} {i : Inode}

theorem update (h : CacheOk sb d t)
    (hd : ∀ nr : Nat, 1 ≤ nr → nr < nrNumbers → (nr : Int) ≠ i.iNum →
      storedInode sb d' nr = storedInode sb d nr)
    (hother : ∀ m, m ≠ n → (t m).iCnt ≠ 0 → (t m).iNum ≠ i.iNum)
    (hcnt : 0 ≤ i.iCnt) (hi : i.iCnt ≠ 0 → i.iDev = rootDev ∧ 1 ≤ i.iNum ∧
      ∀ nr : Nat, i.iNum = nr → nr < nrNumbers → i.disk = storedInode sb d' nr) :
    CacheOk sb d' (Function.update t n i) := by
  constructor
  · intro m
    exact update_cases (P := fun i : Inode => 0 ≤ i.iCnt) (fun _ => hcnt) fun _ => h.cnt m
  · intro m
    exact update_cases (P := fun i : Inode => i.iCnt ≠ 0 → i.iDev = rootDev) (fun _ hc => (hi hc).1)
      fun _ => h.dev m
  · intro m
    exact update_cases (P := fun i : Inode => i.iCnt ≠ 0 → 1 ≤ i.iNum) (fun _ hc => (hi hc).2.1)
      fun _ => h.num m
  · intro l m hl hm heq
    by_cases hln : l = n <;> by_cases hmn : m = n
    · rw [hln, hmn]
    · subst hln
      rw [Function.update_of_ne hmn] at hm heq
      rw [Function.update_self] at heq
      exact absurd heq.symm (hother m hmn hm)
    · subst hmn
      rw [Function.update_of_ne hln] at hl heq
      rw [Function.update_self] at heq
      exact absurd heq (hother l hln hl)
    · rw [Function.update_of_ne hln] at hl heq
      rw [Function.update_of_ne hmn] at hm heq
      exact h.inj l m hl hm heq
  · intro m nr
    refine update_cases (P := fun j : Inode => j.iCnt ≠ 0 → j.iNum = nr → nr < nrNumbers →
      j.disk = storedInode sb d' nr) (fun _ hc => (hi hc).2.2 nr) fun hmn hc hnum hlt => ?_
    have hpos := h.num m hc
    rw [hd nr (by omega) hlt (hnum ▸ hother m hmn hc)]
    exact h.stored m nr hc hnum hlt

theorem congr (h : CacheOk sb d t)
    (hd : ∀ nr, 1 ≤ nr → nr < nrNumbers → storedInode sb d' nr = storedInode sb d nr) :
    CacheOk sb d' t := by
  refine ⟨h.cnt, h.dev, h.num, h.inj, fun m nr hc hnum hlt => ?_⟩
  have hpos := h.num m hc
  rw [hd nr (by omega) hlt]
  exact h.stored m nr hc hnum hlt

theorem setCnt (h : CacheOk sb d t) (hn : (t n).iCnt ≠ 0) {c : Int} (hc : 0 ≤ c) :
    CacheOk sb d (Function.update t n { t n with iCnt := c }) :=
  h.update (fun _ _ _ _ => rfl) (fun m hmn hm heq => hmn (h.inj m n hm hn heq)) hc fun _ =>
    ⟨h.dev n hn, h.num n hn, fun nr => h.stored n nr hn⟩

theorem load {nr : Int} (h : CacheOk sb d t) (hnone : FS.cachedInode t rootDev nr = none)
    (hnr : 1 ≤ nr) :
    CacheOk sb d (Function.update t n
      (.loaded rootDev nr (diskInodeAt d (inodePlace sb nr.toNat)))) := by
  refine h.update (fun _ _ _ _ => rfl) (fun m _ hm heq => ?_) (show (0 : Int) ≤ 1 by decide)
    fun _ => ⟨rfl, hnr, ?_⟩
  · have hcached := List.find?_eq_none.mp hnone m (List.mem_finRange m)
    simp only [decide_eq_true_eq] at hcached
    exact hcached ⟨hm, h.dev m hm, heq⟩
  · intro k hk _
    have hto : nr.toNat = k := by
      change nr = k at hk
      omega
    rw [hto]
    rfl

theorem store (h : CacheOk sb d t) (hn : (t n).iCnt ≠ 0)
    (hnum : i.iNum = (t n).iNum) (hdev : i.iDev = rootDev) (hcnt : 0 ≤ i.iCnt)
    (hfits : i.iNum.toNat < nrNumbers → i.disk.Fits) :
    CacheOk sb (putBytes d (inodePlace sb i.iNum.toNat) i.disk.bytes) (Function.update t n i) := by
  have hpos := h.num n hn
  rw [← hnum] at hpos
  refine h.update (fun nr hone _ hne => ?_) (fun m hmn hm heq => ?_) hcnt
    fun _ => ⟨hdev, hpos, ?_⟩
  · exact storedInode_put_of_ne (by omega) hone (by omega)
  · exact hmn (h.inj m n hm hn (heq.trans hnum))
  · intro nr hnr hlt
    have hto : i.iNum.toNat = nr := by omega
    rw [hto] at hfits ⊢
    rw [storedInode_put (hfits hlt)]

end CacheOk

end BazingaOS
