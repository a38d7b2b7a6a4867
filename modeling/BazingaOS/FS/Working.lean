import BazingaOS.FS.Head
import BazingaOS.FS.References
import BazingaOS.FS.Transfer

/-!
# Transfers on shared files

The rounds of `do_rdwt` begin at a sector of the file, whatever the count is, and never end in front of
where they began. So a transfer leaves what is in front of the file alone: the maps, the inode array
and the directory. A file whose contents have grown has its size written to the inode array.
-/

namespace BazingaOS

open Prog

/-- What a transfer through descriptor `f` can do: behind the first `lim` bytes the disk may have
changed, besides the buffer and the memory of the processes, and the position is where it was or
further on. -/
structure Moved (s : Fs) (f : Fin nrFileDesc) (lim : Nat) (s' : Fs) : Prop where
  state : ∃ disk fsbuf user pos, s' = { s with
    disk, fsbuf, user
    fdTable := Function.update s.fdTable f { s.fdTable f with fdPos := pos } }
  front : ∀ a, a < lim → s'.disk a = s.disk a
  lower : (s.fdTable f).fdPos ≤ (s'.fdTable f).fdPos
  upper : (s'.fdTable f).fdPos < 2 ^ 31

namespace FS

section Rounds

variable {s s₁ : Fs} {p : Pid} {f : Fin nrFileDesc} {lim : Nat}

theorem copyOut_moves (p : Pid) (a : Nat) (off bytes : Int) :
    wp (copyOut p a off bytes) (fun _ s' => 0 ≤ bytes ∧ ∃ user, s' = { s with user })
      (fun _ _ => True) s := by
  rw [copyOut, wp_ite]
  exact ⟨fun h => ⟨h.2, _, rfl⟩, fun _ => trivial⟩

theorem copyIn_moves (p : Pid) (a : Nat) (off bytes : Int) :
    wp (copyIn p a off bytes) (fun _ s' => 0 ≤ bytes ∧ ∃ fsbuf, s' = { s with fsbuf })
      (fun _ _ => True) s := by
  rw [copyIn, wp_ite]
  exact ⟨fun h => ⟨h.2, _, rfl⟩, fun _ => trivial⟩

theorem wrSects_moves (dev : Nat) (i chunk : Int) :
    wp (wrSects dev i chunk) (fun _ s' => 0 ≤ i ∧ ∃ disk, s' = { s with disk } ∧
        ∀ a, a < sectorSize * i.toNat → disk a = s.disk a) (fun _ _ => True) s := by
  rw [wrSects, wp_ite]
  refine ⟨fun h => ?_, fun _ => trivial⟩
  apply wp_onDev
  · intro _
    exact ⟨h.1, _, rfl, fun a ha => copyBytes_of_lt ha⟩
  · intro _
    trivial

theorem Moved.advance (h : Moved s f lim s₁) {bytes : Int} (hbytes : 0 ≤ bytes)
    (hlt : (s₁.fdTable f).fdPos + bytes < 2 ^ 31) :
    wp (setDesc f fun d => { d with fdPos := d.fdPos + bytes })
      (fun _ s' => Moved s f lim s' ∧ (s'.fdTable f).fdPos = (s₁.fdTable f).fdPos + bytes)
      (fun _ _ => True) s₁ := by
  obtain ⟨⟨disk, fsbuf, user, pos, rfl⟩, hfront, hlower, -⟩ := h
  simp only [Function.update_self] at hlower hlt
  simp only [setDesc, wp_modify, Function.update_self, Function.update_idem]
  refine ⟨⟨⟨disk, fsbuf, user, pos + bytes, rfl⟩, hfront, ?_, ?_⟩, trivial⟩
  · simp only [Function.update_self]
    omega
  · simp only [Function.update_self]
    exact hlt

/-- One round at a sector that is not in front of the limit. A read stops at the end, and a write
moves on by the sectors of the round at most. -/
theorem rdwtRound_moved {buf dev : Nat} {isRead : Bool} {posEnd chunk i : Int} {a : Transfer}
    (h : Moved s f lim s₁) (hi : 0 ≤ i → lim ≤ sectorSize * i.toNat) (hend : posEnd < 2 ^ 31)
    (hroom : isRead = true ∨ (s₁.fdTable f).fdPos + chunk * sectorSize < 2 ^ 31) :
    wp (rdwtRound p buf isRead f dev posEnd chunk i a)
      (fun o s' => Moved s f lim s' ∧ match o with
        | .done _ => True
        | .yield _ => (s'.fdTable f).fdPos ≤ (s₁.fdTable f).fdPos + chunk * sectorSize)
      (fun _ _ => True) s₁ := by
  rw [rdwtRound, wp_bind]
  refine wp_mono (rdSects_buffer _ _ _) ?_ fun _ _ h => h
  rintro - s₂ ⟨b, rfl⟩
  obtain ⟨⟨disk, fsbuf, user, pos, rfl⟩, hfront, hlower, hupper⟩ := h
  have h₂ : ∀ user' buf', Moved s f lim { s with
      disk, fsbuf := buf', user := user'
      fdTable := Function.update s.fdTable f { s.fdTable f with fdPos := pos } } :=
    fun user' buf' => ⟨⟨disk, buf', user', pos, rfl⟩, hfront, hlower, hupper⟩
  simp only [Function.update_self] at hroom ⊢
  rw [wp_bind, wp_get, wp_ite]
  refine ⟨fun _ => ?_, fun hwrite => ?_⟩
  · simp only [Function.update_self]
    rw [wp_ite]
    refine ⟨fun _ => ⟨h₂ _ _, trivial⟩, fun _ => ?_⟩
    rw [wp_bind]
    refine wp_mono (copyOut_moves _ _ _ _) ?_ fun _ _ h => h
    rintro - s₃ ⟨hbytes, user', rfl⟩
    rw [wp_bind]
    refine wp_mono (Moved.advance (h₂ user' b) hbytes ?_) ?_ fun _ _ h => h
    · simp only [Function.update_self]
      omega
    · rintro - s₄ ⟨h₄, hpos⟩
      refine ⟨h₄, ?_⟩
      simp only [hpos, Function.update_self]
      omega
  · rw [wp_bind]
    refine wp_mono (copyIn_moves _ _ _ _) ?_ fun _ _ h => h
    rintro - s₃ ⟨hbytes, fsbuf', rfl⟩
    rw [wp_bind]
    refine wp_mono (wrSects_moves _ _ _) ?_ fun _ _ h => h
    rintro - s₄ ⟨hsect, disk', rfl, hdisk⟩
    rw [wp_bind]
    have h₄ : Moved s f lim { s with
        disk := disk', fsbuf := fsbuf', user
        fdTable := Function.update s.fdTable f { s.fdTable f with fdPos := pos } } :=
      ⟨⟨disk', fsbuf', user, pos, rfl⟩,
        fun x hx => (hdisk x (Nat.lt_of_lt_of_le hx (hi hsect))).trans (hfront x hx), hlower, hupper⟩
    have hlt := hroom.resolve_left hwrite
    refine wp_mono (Moved.advance h₄ hbytes ?_) ?_ fun _ _ h => h
    · simp only [Function.update_self]
      omega
    · rintro - s₅ ⟨h₅, hpos⟩
      refine ⟨h₅, ?_⟩
      simp only [hpos, Function.update_self]
      omega

/-- All rounds, for a file that begins behind the limit. A write begins its last round within the
sectors of the file, and takes `fsbuf` at most from there. -/
theorem rdwtLoop_moved {msg : Message} {i : Inode} (hpos : 0 ≤ (s.fdTable f).fdPos)
    (hlt : (s.fdTable f).fdPos < 2 ^ 31) (hstart : i.iStartSect < 2 ^ 30)
    (hlim : lim ≤ sectorSize * i.iStartSect) (hsects : i.iNrSects ≤ nrDefaultFileSects) :
    wp (rdwtLoop p msg f i (s.fdTable f).fdPos) (fun _ => Moved s f lim) (fun _ _ => True) s := by
  have hs : sectorSize = 512 := rfl
  have hf : fsbufSize = 1048576 := rfl
  have hdef : nrDefaultFileSects = 2048 := rfl
  rw [rdwtLoop]
  generalize hend : toI32 (min (rdwtLimit msg.type i) _) = posEnd
  have hrange : -2 ^ 31 ≤ posEnd ∧ posEnd < 2 ^ 31 := hend ▸ inI32_toI32 _
  have hwrite : msg.type ≠ .read → posEnd ≤ fsbufSize := by
    intro hkind
    rw [rdwtLimit, if_neg hkind] at hend
    have hsmall : min (i.iNrSects * sectorSize % 2 ^ 32) (toU32 ((s.fdTable f).fdPos + msg.m3i2)) ≤
        fsbufSize :=
      Nat.le_trans (Nat.min_le_left _ _) (Nat.le_trans (Nat.mod_le _ _) (by rw [hf, hs]; omega))
    rw [toI32_of_inI32 ⟨by omega, by omega⟩] at hend
    omega
  have hsect : ∀ v : Int, -2 ^ 31 ≤ v → v < 2 ^ 31 →
      toI32 ((i.iStartSect : Int) + v / sectorSize) = i.iStartSect + v / sectorSize := by
    intro v hlow hhigh
    apply toI32_of_inI32
    unfold InI32
    rw [hs]
    omega
  simp only [hsect _ (by omega) hlt, hsect _ hrange.1 hrange.2]
  generalize hchunk : min (_ - _ + 1) ((fsbufSize : Int) / sectorSize) = chunk
  apply wp_iter (I := fun r (_ : Transfer) s' => Moved s f lim s' ∧
    (s'.fdTable f).fdPos ≤ (s.fdTable f).fdPos + r * (chunk * sectorSize))
  · refine ⟨⟨⟨s.disk, s.fsbuf, s.user, _, by rw [Function.update_eq_self]⟩, fun _ _ => rfl,
      Int.le_refl _, hlt⟩, ?_⟩
    omega
  · rintro r a s₁ - hr ⟨hmoved, hupto⟩
    split at hr
    · rename_i hle
      have hchunk₀ : 0 < chunk ∧ chunk ≤ 2048 := by
        rw [hf, hs] at hchunk
        rw [hs] at hle
        omega
      -- the round begins at a sector of the file
      have hround : (r : Int) * chunk ≤ posEnd / 512 - (s.fdTable f).fdPos / 512 := by
        have hdiv : (r : Int) ≤ (posEnd / 512 - (s.fdTable f).fdPos / 512) / chunk := by
          have heq : ((i.iStartSect : Int) + posEnd / sectorSize -
              (i.iStartSect + (s.fdTable f).fdPos / sectorSize)) =
              posEnd / 512 - (s.fdTable f).fdPos / 512 := by
            rw [hs]
            omega
          rw [heq] at hr
          omega
        exact (Int.le_ediv_iff_mul_le hchunk₀.1).mp hdiv
      have hmul := Int.mul_nonneg (Int.natCast_nonneg r) (Int.le_of_lt hchunk₀.1)
      rw [← Int.mul_assoc, hs] at hupto
      refine wp_mono (rdwtRound_moved hmoved (fun _ => ?_) hrange.2 ?_) ?_ fun _ _ h => h
      · -- no round begins in front of the first one
        have hdiv : 0 ≤ (s.fdTable f).fdPos / (sectorSize : Int) := by
          rw [hs]
          omega
        refine Nat.le_trans hlim (Nat.mul_le_mul_left _ ?_)
        omega
      · by_cases hkind : msg.type = .read
        · exact .inl (decide_eq_true hkind)
        · have hsmall := hwrite hkind
          rw [hs]
          right
          omega
      · rintro o s₂ ⟨h₂, ho⟩
        cases o with
        | done a => exact h₂
        | yield a =>
          refine ⟨h₂, ?_⟩
          dsimp only at ho
          rw [← Int.mul_assoc, Nat.cast_add, Nat.cast_one, Int.add_mul, hs]
          rw [hs] at ho
          omega
    · omega
  · rintro a s₁ ⟨h₁, -⟩
    exact h₁

end Rounds

end FS

/-- A file system at work. No descriptor is open for the directory, every position is that of a signed
integer that is not negative, and so is every sector of the data area. -/
structure Fs.Working (s : Fs) (r : Fin nrInode) (k : Fin nrInode → Int) : Prop where
  shared : s.Shared r (nrDefaultFileSects + 1) k
  small : s.sb.n1stSect + s.sb.smapBits ≤ 2 ^ 30
  files : ∀ f, (s.fdTable f).fdInode ≠ some r
  pos : ∀ f, 0 ≤ (s.fdTable f).fdPos ∧ (s.fdTable f).fdPos < 2 ^ 31

theorem Fs.Working.of_shared {s s' : Fs} {r : Fin nrInode} {k k' : Fin nrInode → Int}
    (h : s.Working r k) (hshared : s'.Shared r (nrDefaultFileSects + 1) k')
    (hhead : s'.head = s.head) (hfiles : ∀ f, (s'.fdTable f).fdInode ≠ some r)
    (hpos : ∀ f, 0 ≤ (s'.fdTable f).fdPos ∧ (s'.fdTable f).fdPos < 2 ^ 31) : s'.Working r k' := by
  refine ⟨hshared, ?_, hfiles, hpos⟩
  have hsb : s'.sb.layout = s.sb.layout := congrArg Prod.fst hhead
  rw [SuperBlock.eq_of_layout hsb]
  exact h.small

namespace FS

section Requests

variable {drv : Drivers} {s s' s₁ : Fs} {r n : Fin nrInode} {k : Fin nrInode → Int} {p : Pid}
  {msg : Message} {f : Fin nrFileDesc}

theorem regular_start (h : s.Working r k) (hn : (s.inodeTable n).iCnt ≠ 0)
    (hmode : (s.inodeTable n).iMode = iRegular) :
    s.sb.n1stSect + nrDefaultFileSects ≤ (s.inodeTable n).iStartSect ∧
      (s.inodeTable n).iStartSect < 2 ^ 30 ∧ (s.inodeTable n).iNrSects = nrDefaultFileSects := by
  have hsmall := h.small
  have hdef : nrDefaultFileSects = 2048 := rfl
  have hstart : (s.inodeTable n).disk.startSect = (s.inodeTable n).iStartSect := rfl
  rcases (h.shared.steady.kindOf hn).mapped hmode with hmap | hmap
  · have hbase := hmap.base
    have hin := hmap.inMap
    have hnr : (s.inodeTable n).iNrSects = nrDefaultFileSects := hmap.sects
    rw [hmap.sects, hdef] at hin
    rw [SuperBlock.firstBit, hstart] at hbase hin
    rw [hdef] at hbase hnr ⊢
    omega
  · have hbase := hmap.base
    have hplace := hmap.start
    have hnr : (s.inodeTable n).iNrSects = nrDefaultFileSects := hmap.sects
    have hinst : installStartSect = 32768 := rfl
    rw [SuperBlock.firstBit, hstart, hdef] at hbase
    rw [hstart, hinst] at hplace
    rw [hdef] at hnr ⊢
    omega

theorem moved_steady {P : Nat → Prop} (h : s.Steady r (nrDefaultFileSects + 1) P)
    (hmoved : Moved s f (sectorSize * (s.sb.n1stSect + nrDefaultFileSects)) s₁) :
    s₁.Steady r (nrDefaultFileSects + 1) P ∧ s₁.head = s.head ∧
      ∀ m, InUse s₁.disk m ↔ InUse s.disk m := by
  have hs : sectorSize = 512 := rfl
  have hd : dirEntSize = 16 := rfl
  have hdef : nrDefaultFileSects = 2048 := rfl
  have hroot : rootSlots = 65536 := rfl
  have hfirst := h.laid.first
  obtain ⟨disk, fsbuf, user, pos, rfl⟩ := hmoved.state
  have hfront : ∀ a, a < sectorSize * (s.sb.n1stSect + nrDefaultFileSects) → disk a = s.disk a :=
    hmoved.front
  have hdisk : ∀ a, a < sectorSize * s.sb.n1stSect → disk a = s.disk a := fun a ha =>
    hfront a (Nat.lt_of_lt_of_le ha (Nat.mul_le_mul_left _ (Nat.le_add_right _ _)))
  have hlisted : Listed P disk s.sb.n1stSect := by
    refine h.disk.listed.congr fun t ht => (slot_congr fun a _ ha => hfront a ?_).1
    rw [slotAt, hs, hd] at ha
    rw [hs, hdef]
    omega
  have hsteady := h.disk.rewrite h.laid h.bits (fun m hm => (h.number m hm).2) hdisk
    (fun _ hm => hm) hlisted
  refine ⟨h.of_disk rfl rfl rfl hsteady fun m hm => diskInodeAt_shift fun j hj => hdisk _ ?_,
    Fs.head_eq rfl fun a ha => hdisk a ?_, fun m => inUse_front h.laid hdisk⟩
  · have hplace := inodePlace_lt h.laid (h.number m hm).2
    omega
  · rw [hs] at ha ⊢
    omega

theorem rdwtEnd_steady {P : Nat → Prop} {size : Nat} {a : Transfer} {base : Nat}
    (h : s.Steady r base P) (hn : 0 < (s.inodeTable n).iCnt) (hne : n ≠ r) :
    wp (rdwtEnd f n size a) (fun _ s' => s'.Steady r base P ∧ s'.head = s.head ∧
        s'.fdTable = s.fdTable ∧ ∀ m, InUse s'.disk m ↔ InUse s.disk m) (fun _ _ => True) s := by
  have hsize : toU32 (s.fdTable f).fdPos < 2 ^ 32 := by
    unfold toU32
    omega
  simp only [rdwtEnd, wp_bind, wp_get, wp_when, wp_pure, setInode, wp_modify]
  refine ⟨fun _ => ?_, fun _ => ⟨h, trivial, trivial, fun _ => trivial⟩⟩
  refine wp_mono (wp_and (syncInode_steady h (by omega)
    (replaces_size h hn hsize fun heq => absurd heq hne))
    ((keepsHead_syncInode (v := Fs.head) n).keeps s.head _ rfl)) ?_ fun _ _ _ => trivial
  rintro - s' ⟨⟨h', -, hdisk, hsame⟩, hhead⟩
  refine ⟨h', hhead, hsame.1, fun m => ?_⟩
  rw [hdisk]
  exact inUse_put h.laid

theorem rdwtFile_working (h : s.Working r k) (hn : 0 < (s.inodeTable n).iCnt) (hne : n ≠ r)
    (hmode : (s.inodeTable n).iMode = iRegular) :
    wp (rdwtFile p msg f n) (fun _ s' => s'.Steady r (nrDefaultFileSects + 1) (InUse s'.disk) ∧
        s'.head = s.head ∧ ∀ g, 0 ≤ (s'.fdTable g).fdPos ∧ (s'.fdTable g).fdPos < 2 ^ 31)
      (fun _ _ => True) s := by
  obtain ⟨hstart, hbound, hsects⟩ := regular_start h (by omega) hmode
  have hpos := h.pos f
  rw [wp, rdwtFile_eq, ← wp, wp_bind]
  refine wp_mono (rdwtLoop_moved hpos.1 hpos.2 hbound (Nat.mul_le_mul_left _ hstart)
    (Nat.le_of_eq hsects)) ?_ fun _ _ _ => trivial
  intro a s₁ hmoved
  obtain ⟨h₁, hhead₁, huse₁⟩ := moved_steady h.shared.steady hmoved
  obtain ⟨⟨disk, fsbuf, user, pos, rfl⟩, -, hlower, hupper⟩ := hmoved
  simp only [Function.update_self] at hlower hupper
  have hpos₁ : 0 ≤ pos ∧ pos < 2 ^ 31 := ⟨Int.le_trans hpos.1 hlower, hupper⟩
  refine wp_mono (rdwtEnd_steady h₁ hn hne) ?_ fun _ _ _ => trivial
  rintro v s₂ ⟨h₂, hhead₂, hdesc, huse₂⟩
  refine ⟨h₂.congr fun m => (huse₂ m).trans (huse₁ m), hhead₂.trans hhead₁, fun g => ?_⟩
  rw [hdesc]
  exact update_cases (P := fun d : FileDesc => 0 ≤ d.fdPos ∧ d.fdPos < 2 ^ 31)
    (fun _ => hpos₁) fun _ => h.pos g

theorem live_of_open (h : s.Working r k) {fd : Fin nrFiles} (hfd : s.filp p fd = some f)
    (hf : (s.fdTable f).fdInode = some n) : 0 < (s.inodeTable n).iCnt ∧ n ≠ r :=
  ⟨h.shared.refs.os_pos (extraRefs_nonneg h.shared.left) hfd hf, fun heq => h.files f (heq ▸ hf)⟩

theorem regular_of_mode (h : s.Working r k) (hn : (s.inodeTable n).iCnt ≠ 0) (hne : n ≠ r)
    (hchar : iTypeMask &&& (s.inodeTable n).iMode ≠ iCharSpecial)
    (hkind : iTypeMask &&& (s.inodeTable n).iMode = iDirectory ∨
      iTypeMask &&& (s.inodeTable n).iMode = iRegular) : (s.inodeTable n).iMode = iRegular := by
  have hsteady := h.shared.steady
  have hmode : (s.inodeTable n).disk.mode = (s.inodeTable n).iMode := rfl
  cases hsteady.kindOf hn with
  | file hreg _ => exact hreg
  | beyond hreg _ => exact hreg
  | dir _ hroot =>
    have hheld := hsteady.held
    have hpos := hsteady.cache.num n hn
    refine absurd (hsteady.cache.inj n r hn (by omega) ?_) hne
    rw [hsteady.dir.num, ← hroot]
    exact (Int.toNat_of_nonneg (by omega)).symm
  | special hspecial =>
    rw [← hmode, hspecial] at hchar
    exact absurd (by decide) hchar
  | gone hgone =>
    rw [← hmode, hgone] at hkind
    exact absurd hkind (by decide)

theorem doRdwt_working (h : s.Working r k) :
    wp (doRdwt drv p msg) (fun _ s' => s'.Working r k ∧ s'.refs = s.refs ∧ s'.head = s.head)
      (fun _ _ => True) s := by
  refine wp_mono (wp_and (Q := fun _ s' => s'.Steady r (nrDefaultFileSects + 1) (InUse s'.disk) ∧
    s'.head = s.head ∧ ∀ g, 0 ≤ (s'.fdTable g).fdPos ∧ (s'.fdTable g).fdPos < 2 ^ 31)
    (E := fun _ _ => True) ?_ ((keepsView_doRdwt (v := Fs.refs) drv p msg).keeps s.refs s rfl)) ?_
    fun _ _ _ => trivial
  · have hsame : s.Steady r (nrDefaultFileSects + 1) (InUse s.disk) ∧
        ∀ g, 0 ≤ (s.fdTable g).fdPos ∧ (s.fdTable g).fdPos < 2 ^ 31 :=
      ⟨h.shared.steady, h.pos⟩
    unfold doRdwt
    cases fdIndex msg.m3i1 with
    | none => exact ⟨hsame.1, rfl, hsame.2⟩
    | some fd =>
      rw [wp_bind, wp_get]
      cases hfd : s.filp p fd with
      | none => trivial
      | some f =>
        simp only [wp_bind, wp_get]
        cases hf : (s.fdTable f).fdInode with
        | none => trivial
        | some n =>
          obtain ⟨hcnt, hne⟩ := live_of_open h hfd hf
          simp only [wp_bind, wp_get, wp_ite, wp_pure, wp_check, true_and]
          refine ⟨fun _ => hsame, fun _ =>
            ⟨fun _ => ?_, fun hchar => ⟨fun hkind => ?_, fun _ => trivial⟩⟩⟩
          · refine (keepsView_rdwtDevice (v := id) drv p msg _).wp ?_ fun _ _ _ => trivial
            rintro _ s' rfl
            exact ⟨hsame.1, rfl, hsame.2⟩
          · exact rdwtFile_working h hcnt hne (regular_of_mode h (by omega) hne hchar hkind)
  · rintro v s' ⟨⟨h', hhead, hpos⟩, hrefs⟩
    refine ⟨h.of_shared ⟨h', hrefs ▸ h.shared.refs, h.shared.left⟩ hhead (fun f hf => ?_) hpos,
      hrefs, hhead⟩
    exact h.files f ((congrFun (congrArg Refs.fdInode hrefs) f).symm.trans hf)

theorem doLseek_working (h : s.Working r k) :
    wp (doLseek p msg) (fun _ s' => s'.Working r k ∧ s'.refs = s.refs ∧ s'.head = s.head)
      (fun _ _ => True) s := by
  unfold doLseek
  cases fdIndex msg.m3i1 with
  | none => exact ⟨h, rfl, rfl⟩
  | some fd =>
    rw [wp_bind, wp_get]
    cases hfd : s.filp p fd with
    | none => trivial
    | some f =>
      simp only [wp_bind, wp_get]
      cases hf : (s.fdTable f).fdInode with
      | none => trivial
      | some n =>
        simp only [wp_bind, wp_get, wp_ite, wp_pure]
        refine ⟨fun _ => ⟨h, trivial, trivial⟩, fun hmode => ?_⟩
        refine (keepsView_seekTarget (v := id) _ _ _ _).wp ?_ fun _ _ _ => trivial
        intro pos s' hs
        obtain rfl : s' = s := hs
        have hcnt := (live_of_open h hfd hf).1
        have hend : toI32 ((s'.inodeTable n).iNrSects * sectorSize - 1) = 1048575 := by
          have hsects := (h.shared.steady.kindOf (by omega)).mapped (not_not.mp hmode)
          have hnr : (s'.inodeTable n).disk.nrSects = 2048 :=
            hsects.elim (fun h => h.sects) fun h => h.sects
          change (s'.inodeTable n).iNrSects = 2048 at hnr
          rw [hnr]
          exact toI32_of_inI32 ⟨by decide, by decide⟩
        rw [hend, setDesc, wp_modify]
        have hrefs : Fs.refs { s' with
            fdTable := Function.update s'.fdTable f
              { s'.fdTable f with fdPos := min (max pos 0) 1048575 } } = s'.refs :=
          CountView.desc s' f (fun d => { d with fdPos := min (max pos 0) 1048575 })
            fun _ => ⟨rfl, rfl⟩
        refine ⟨h.of_shared ⟨h.shared.steady.of_disk rfl rfl rfl h.shared.steady.disk fun _ _ => rfl,
          hrefs ▸ h.shared.refs, h.shared.left⟩ rfl (fun g => ?_) fun g => ?_, hrefs, rfl⟩
        · exact update_cases (P := fun d : FileDesc => d.fdInode ≠ some r) (fun _ => h.files f)
            fun _ => h.files g
        · refine update_cases (P := fun d : FileDesc => 0 ≤ d.fdPos ∧ d.fdPos < 2 ^ 31) (fun _ => ?_)
            fun _ => h.pos g
          dsimp only
          omega

end Requests

end FS

end BazingaOS
