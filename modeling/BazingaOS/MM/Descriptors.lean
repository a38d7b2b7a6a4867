import BazingaOS.MM.Image

/-!
# Descriptors and their readers

`init_descriptor` spreads a base and a limit over the fields of a descriptor; `ldt_seg_linear`,
`seg2addr` and `do_fork` put them together again, each in its own way. Every descriptor that
`kernel_main` and `do_fork` install reads back as what it was made from.
-/

namespace BazingaOS

open Prog

/-- `seg2addr`; `gdt` by index. -/
def seg2addr (gdt : Nat → Descriptor) (seg : Nat) : Nat :=
  let pDes := gdt (seg >>> 3)
  pDes.baseLow.toNat ||| pDes.baseMid.toNat <<< 16 ||| pDes.baseHigh.toNat <<< 24

/-- The assertion of `do_fork` on the segments of the parent. -/
def ForkAssert (l : Ldt) : Prop :=
  toI32 l.code.base = toI32 l.data.base ∧ toI32 l.code.limitT = toI32 l.data.limitD ∧
    callerSize l.code = callerSize l.data

/-- The segments that `kernel_main` and `do_fork` install. -/
inductive Installed : Ldt → Prop where
  | kernelMain (kernelEnd : Nat) (p : Pid) : Installed (kernelMainLdt kernelEnd p)
  | doFork (childBase : Nat) :
      Installed (userLdt childBase ((procDefaultImgSize - 1) >>> limit4kShift))

section Encoding

variable {base limit attr : Nat}

theorem toU32_toI32 (n : Nat) : toU32 (toI32 n) = n % 0x100000000 := by
  unfold toU32 toI32
  omega

theorem base_initDescriptor_mod :
    (initDescriptor base limit attr).base = base % 0x100000000 := by
  simp only [Descriptor.base, initDescriptor, reassembly, Nat.shiftLeft_eq,
    Nat.shiftRight_eq_div_pow, UInt8.toNat_ofNat', UInt16.toNat_ofNat']
  omega

theorem seg2addr_eq (gdt : Nat → Descriptor) (seg : Nat) :
    seg2addr gdt seg = (gdt (seg >>> 3)).base := by
  have hseg := ldtSegLinear_eq { data := gdt (seg >>> 3) }
  rw [← hseg, seg2addr, ldtSegLinear, Nat.or_comm _ ((gdt (seg >>> 3)).baseHigh.toNat <<< 24),
    Nat.or_comm (gdt (seg >>> 3)).baseLow.toNat, Nat.or_assoc]

theorem and_two_pow_ne_zero (n i : Nat) : n &&& 2 ^ i ≠ 0 ↔ n.testBit i = true := by
  rw [Nat.and_two_pow]
  cases n.testBit i <;> simp

theorem attr2_and_iff : UInt8.ofNat (attr >>> 8) &&& 0x80 ≠ 0 ↔ attr &&& daLimit4k ≠ 0 := by
  have hbyte : (UInt8.ofNat (attr >>> 8) &&& 0x80).toNat = (attr >>> 8 % 2 ^ 8) &&& 2 ^ 7 := by
    rw [UInt8.toNat_and, UInt8.toNat_ofNat']
    rfl
  have hdec : daLimit4k = 2 ^ 15 := rfl
  have hzero : (UInt8.ofNat (attr >>> 8) &&& 0x80) = 0 ↔
      (UInt8.ofNat (attr >>> 8) &&& 0x80).toNat = 0 := by
    rw [← UInt8.toNat_inj]
    rfl
  rw [ne_eq, hzero, ← ne_eq, hbyte, hdec, and_two_pow_ne_zero, and_two_pow_ne_zero,
    Nat.testBit_mod_two_pow, Nat.testBit_shiftRight]
  simp

theorem granularity_iff :
    (initDescriptor base limit attr).granularity = 4096 ↔ attr &&& daLimit4k ≠ 0 := by
  rw [← attr2_and_iff, Descriptor.granularity, initDescriptor, Descriptor.highAttr2_and_attr]
  split
  · rename_i h
    exact iff_of_true rfl h
  · rename_i h
    exact iff_of_false (by decide) h

/-- All that is read back from a descriptor `d` made from a base, a limit and attributes. -/
structure ReadsBack (base limit attr : Nat) (d : Descriptor) : Prop where
  ldtSegLinear : ∀ c, toU32 (toI32 (ldtSegLinear ⟨c, d⟩)) = base % 0x100000000
  seg2addr : ∀ gdt seg, gdt (seg >>> 3) = d → seg2addr gdt seg = base % 0x100000000
  callerBase : toU32 (toI32 d.base) = base % 0x100000000
  callerTLimit : toI32 d.limitT = limit
  callerDLimit : toI32 d.limitD = limit
  granularity : d.granularity = 4096 ↔ attr &&& daLimit4k ≠ 0

theorem readsBack_initDescriptor (h : limit < 0x100000) :
    ReadsBack base limit attr (initDescriptor base limit attr) := by
  have hmod : base % 0x100000000 % 0x100000000 = base % 0x100000000 := Nat.mod_mod _ _
  have hlimit : toI32 (initDescriptor base limit attr).limitT = limit := by
    rw [Descriptor.limitT_initDescriptor, Nat.mod_eq_of_lt h]
    exact toI32_of_inI32 ⟨by omega, by omega⟩
  refine ⟨fun c => ?_, ?_, ?_, hlimit, ?_, granularity_iff⟩
  · rw [toU32_toI32, ldtSegLinear_eq, base_initDescriptor_mod, hmod]
  · intro gdt seg hd
    rw [seg2addr_eq, hd, base_initDescriptor_mod]
  · rw [toU32_toI32, base_initDescriptor_mod, hmod]
  · rw [Descriptor.limitD_eq]
    exact hlimit

end Encoding

section Installed

variable {ldts : Pid → Ldt} {p : Pid} {σ : Type} {s : σ}

/-- `va2la` for a process with a data segment from `base` on; its assertion is about the processes
whose segments begin at 0. -/
theorem procVa2la_spec {base limit attr : Nat} (va : Nat)
    (hd : (ldts p).data = initDescriptor base limit attr) :
    wp (procVa2la ldts p va) (fun la s' => la = (base + va) % 0x100000000 ∧ s' = s)
      (fun w _ => w = .assertion ∧ p.val < nrTasks + nrNativeProcs ∧ (base + va) % 0x100000000 ≠ va)
      s := by
  have hla : va2la (ldts p) va = (base + va) % 0x100000000 := by
    rw [va2la, ldtSegLinear_eq, hd, base_initDescriptor_mod, Nat.add_mod_mod, Nat.add_comm]
  rw [procVa2la, wp_bind, wp_when, hla]
  refine ⟨fun hp => ?_, fun _ => ⟨rfl, rfl⟩⟩
  rw [wp_check]
  exact ⟨fun _ => ⟨rfl, rfl⟩, fun hne => ⟨rfl, hp, hne⟩⟩

theorem forkAssert_of_eq {l : Ldt} (hbase : l.code.base = l.data.base)
    (hlimit : l.code.limitT = l.data.limitT) (hgran : l.code.granularity = l.data.granularity) :
    ForkAssert l := by
  refine ⟨congrArg toI32 (congrArg Nat.cast hbase), ?_, ?_⟩
  · rw [Descriptor.limitD_eq, hlimit]
  · rw [callerSize, callerSize, Descriptor.size, Descriptor.size, hlimit, hgran]

theorem forkAssert_initDescriptor {base limit attr attr' : Nat}
    (h : attr &&& daLimit4k ≠ 0 ↔ attr' &&& daLimit4k ≠ 0) :
    ForkAssert ⟨initDescriptor base limit attr, initDescriptor base limit attr'⟩ := by
  apply forkAssert_of_eq
  · rw [base_initDescriptor_mod, base_initDescriptor_mod]
  · rw [Descriptor.limitT_initDescriptor, Descriptor.limitT_initDescriptor]
  · rw [← attr2_and_iff, ← attr2_and_iff] at h
    simp only [Descriptor.granularity, initDescriptor, Descriptor.highAttr2_and_attr]
    exact if_congr h rfl rfl

theorem Installed.forkAssert {l : Ldt} (h : Installed l) : ForkAssert l := by
  cases h with
  | doFork childBase => exact forkAssert_initDescriptor (by decide)
  | kernelMain kernelEnd p =>
    unfold kernelMainLdt
    split
    · exact forkAssert_of_eq rfl rfl rfl
    · split
      · exact forkAssert_initDescriptor (by decide)
      · exact forkAssert_of_eq rfl rfl rfl

theorem kernelMainLdt_base {kernelEnd : Nat} (hp : p.val < nrTasks + nrNativeProcs) :
    (kernelMainLdt kernelEnd p).data.base = 0 := by
  unfold kernelMainLdt
  rw [if_neg (Nat.not_le.mpr hp)]
  split
  · exact Descriptor.base_initDescriptor (by decide)
  · have hflat : ∀ privilege, (flatLdt privilege).data.base =
        (initDescriptor 0 0xFFFFF (da32 ||| daDrw ||| daLimit4k)).base := by
      intro privilege
      simp only [flatLdt, Descriptor.base]
    rw [hflat]
    exact Descriptor.base_initDescriptor (by decide)

theorem procVa2la_ok {va : Nat} (hva : va < 0x100000000)
    (h : p.val < nrTasks + nrNativeProcs → (ldts p).data.base = 0) :
    wp (procVa2la ldts p va) (fun la s' => la = ((ldts p).data.base + va) % 0x100000000 ∧ s' = s)
      (fun _ _ => False) s := by
  have hla : va2la (ldts p) va = ((ldts p).data.base + va) % 0x100000000 := by
    rw [va2la, ldtSegLinear_eq, Nat.add_comm]
  rw [procVa2la, wp_bind, wp_when, hla]
  refine ⟨fun hp => ?_, fun _ => ⟨rfl, rfl⟩⟩
  rw [wp_check]
  refine ⟨fun _ => ⟨rfl, rfl⟩, fun hne => hne ?_⟩
  rw [h hp, Nat.zero_add, Nat.mod_eq_of_lt hva]

/-- A process of a run of MM has segments that `kernel_main` or `do_fork` has installed, and `va2la`
returns for it. -/
structure Addressed (s : Images) (p : Pid) : Prop where
  installed : Installed (s.ldts p)
  va2la : ∀ va, va < 0x100000000 → ∀ {σ : Type} (u : σ), wp (procVa2la s.ldts p va)
    (fun la u' => la = ((s.ldts p).data.base + va) % 0x100000000 ∧ u' = u) (fun _ _ => False) u

theorem addressed_of_run {kernelEnd memorySize : Nat} {memory : Bytes} {acts : List MmAction}
    {s : Images} (hr : Run ImageStep (imagesInit kernelEnd memorySize memory) acts s)
    (hlive : ¬ s.mm.IsFree p) : Addressed s p := by
  have hinv := imagesInv_of_run hr
  rcases Nat.lt_or_ge p.val (nrTasks + nrNativeProcs) with hp | hp
  · have hldt := hinv.native p hp
    refine ⟨hldt ▸ .kernelMain kernelEnd p, fun va hva _ u => procVa2la_ok hva fun _ => ?_⟩
    rw [hldt]
    exact kernelMainLdt_base hp
  · refine ⟨hinv.child p hp hlive ▸ .doFork (imageBase p), fun va hva _ u => ?_⟩
    exact procVa2la_ok hva fun hlt => absurd hlt (Nat.not_lt.mpr hp)

/-- What `init_descriptor` encodes is what every reader gives back, `va2la` adds the base to an
address, and the segments that `kernel_main` and `do_fork` install pass the assertion of `do_fork`;
in a run all processes have such segments. -/
theorem descriptors_agree {base limit attr : Nat} (h : limit < 0x100000) :
    ReadsBack base limit attr (initDescriptor base limit attr) ∧
    (∀ (ldts : Pid → Ldt) (p : Pid) (va : Nat), (ldts p).data = initDescriptor base limit attr →
      wp (procVa2la ldts p va) (fun la _ => la = (base + va) % 0x100000000)
        (fun w _ => w = .assertion ∧ p.val < nrTasks + nrNativeProcs ∧
          (base + va) % 0x100000000 ≠ va) ()) ∧
    (∀ l, Installed l → ForkAssert l) ∧
    ∀ kernelEnd memorySize memory acts s,
      Run ImageStep (imagesInit kernelEnd memorySize memory) acts s →
        ∀ p, ¬ s.mm.IsFree p → Addressed s p := by
  refine ⟨readsBack_initDescriptor h, ?_, fun l hl => hl.forkAssert, ?_⟩
  · intro ldts p va hd
    apply wp_mono (procVa2la_spec va hd)
    · rintro la _ ⟨hla, -⟩
      exact hla
    · intro _ _ hE
      exact hE
  · intro _ _ _ _ s hr p hlive
    exact addressed_of_run hr hlive

theorem descriptors_agree_at_image :
    ReadsBack 0xA00000 0xFF 0xC092 (initDescriptor 0xA00000 0xFF 0xC092) :=
  (@descriptors_agree 0xA00000 0xFF 0xC092 (by decide)).1

/-- For a task whose data segment does not begin at 0 `va2la` stops in its assertion. -/
theorem va2la_asserts : ¬ ∀ (base limit attr : Nat) (ldts : Pid → Ldt) (p : Pid) (va : Nat),
    limit < 0x100000 → (ldts p).data = initDescriptor base limit attr →
      ∃ u, procVa2la ldts p va () = .ok ((base + va) % 0x100000000) u := by
  intro h
  let d := initDescriptor 0x10 0xFF 0xC092
  obtain ⟨u, hu⟩ := h 0x10 0xFF 0xC092 (fun _ => ⟨d, d⟩) taskTty 0 (by decide) rfl
  have hstop : (procVa2la (fun _ => ⟨d, d⟩) taskTty 0 ()).stopOf = some .assertion := by decide
  rw [hu] at hstop
  cases hstop

end Installed

end BazingaOS
