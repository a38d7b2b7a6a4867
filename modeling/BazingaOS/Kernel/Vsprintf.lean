import BazingaOS.Lib.CString
import BazingaOS.Lib.Int32
import BazingaOS.Lib.Numeral
import BazingaOS.Lib.Prog

/-!
# Numbers in formats

`i2a` and `vsprintf` of `lib/vsprintf.c`, with `strcpy` and `strlen`. The recursion of `i2a` divides
with signs: a number below zero gets digits below `'0'`. For `%d` the sign is written apart, for
`%x` it is not.
-/

namespace BazingaOS

open Prog

/-- The variables of `vsprintf`; `fmtReads` are the addresses from which the format has been
read. -/
structure Formatting where
  mem : Bytes
  p : Nat := 0
  fmt : Nat := 0
  nextArg : Nat := 0
  fmtReads : List Nat := []

namespace Formatting

def emit (s : Formatting) (l : List UInt8) : Formatting :=
  { s with mem := putBytes s.mem s.p l, p := s.p + l.length }

/-- The next argument, as an `int` and as an address. -/
def intArg (s : Formatting) : Int := toI32 (u32At s.mem s.nextArg)
def ptrArg (s : Formatting) : Nat := u32At s.mem s.nextArg

theorem emit_emit (s : Formatting) (l l' : List UInt8) : (s.emit l).emit l' = s.emit (l ++ l') := by
  simp only [emit, putBytes_append, List.length_append, Nat.add_assoc]

end Formatting

namespace KLIB

def putc (c : Int) : Prog Formatting Unit := modify fun s => s.emit [UInt8.ofInt c]

def i2aChar (m : Int) : Int := if m < 10 then m + 48 else m - 10 + 65

def i2a : Nat → Int → Int → Prog Formatting Unit
  | 0, _, _ => halt .hang
  | fuel + 1, val, base => do
    let m := val.tmod base
    let q := val.tdiv base
    when (q ≠ 0) (i2a fuel q base)
    putc (i2aChar m)

def strcpy : Nat → Nat → Nat → Prog Formatting Unit
  | 0, _, _ => halt .hang
  | fuel + 1, dst, src => do
    let al := (← get).mem src
    modify fun s => { s with mem := putBytes s.mem dst [al] }
    if al ≠ 0 then strcpy fuel (dst + 1) (src + 1) else return ()

def strlen : Nat → Nat → Prog Formatting Nat
  | 0, _ => halt .hang
  | fuel + 1, str => do
    if (← get).mem str ≠ 0 then return (← strlen fuel (str + 1)) + 1 else return 0

def fmtByte : Prog Formatting UInt8 := do
  modify fun s => { s with fmtReads := s.fmtReads ++ [s.fmt] }
  let s ← get
  return s.mem s.fmt

def nextFmt : Prog Formatting Unit := modify fun s => { s with fmt := s.fmt + 1 }

def nextArg : Prog Formatting Unit := modify fun s => { s with nextArg := s.nextArg + 4 }

/-- `'%'`, and the characters behind it that are recognised. -/
def percent : UInt8 := 37
def charX : UInt8 := 120
def charS : UInt8 := 115
def charC : UInt8 := 99
def charD : UInt8 := 100

/-- The digits for `%d`. A product that leaves the range of an `int` is undefined. -/
def putInt (fuel : Nat) (m : Int) : Prog Formatting Unit :=
  if m < 0 then
    if InI32 (m * -1) then do
      putc 45
      i2a fuel (m * -1) 10
    else halt .undefined
  else i2a fuel m 10

def directive (fuel : Nat) (c : UInt8) : Prog Formatting Unit := do
  if c = charX then
    i2a fuel (← get).intArg 16
    nextArg
  else if c = charS then
    strcpy fuel (← get).p (← get).ptrArg
    let n ← strlen fuel (← get).ptrArg
    modify fun s => { s with p := s.p + n }
    nextArg
  else if c = charC then
    modify fun s => s.emit [s.mem s.nextArg]
    nextArg
  else if c = charD then
    putInt fuel (← get).intArg
    nextArg
  else return ()

def vsprintfBody (fuel : Nat) (c : UInt8) : Prog Formatting Unit := do
  if c ≠ percent then modify fun s => s.emit [c]
  else
    nextFmt
    directive fuel (← fmtByte)

def vsprintfLoop (fuel : Nat) : Nat → Prog Formatting Unit
  | 0 => halt .hang
  | n + 1 => do
    let c ← fmtByte
    if c ≠ 0 then
      vsprintfBody fuel c
      nextFmt
      vsprintfLoop fuel n
    else return ()

def vsprintf (fuel buf fmt args : Nat) : Prog Formatting Int := do
  modify fun s => { s with p := buf, fmt := fmt, nextArg := args }
  vsprintfLoop fuel fuel
  return (((← get).p : Int) - buf)

/-- The characters of the digits for a number with the sign `σ`. -/
def signedChar (σ : Int) (d : Nat) : UInt8 := UInt8.ofInt (i2aChar (σ * d))

variable {s : Formatting} {fuel b n d : Nat} {σ v : Int}

theorem signedChar_one (h : d < 36) : signedChar 1 d = digitChar d := by
  unfold signedChar i2aChar digitChar UInt8.ofInt
  rw [Int.one_mul]
  congr 1
  split <;> split <;> omega

theorem signedChar_neg_lt (h : 0 < d) (hd : d < 36) : (signedChar (-1) d).toNat < 48 := by
  have hlt : (-1 * (d : Int)) < 10 := by omega
  rw [signedChar, i2aChar, if_pos hlt, UInt8.ofInt, UInt8.toNat_ofNat']
  omega

theorem digitText_signedChar_one (hb : 2 ≤ b) (hb' : b ≤ 36) :
    digitText (signedChar 1) b n = numeral b n := by
  unfold numeral digitText
  split
  · rw [signedChar_one (by omega)]
  · congr 1
    apply List.map_congr_left
    intro d hd
    exact signedChar_one (Nat.lt_of_lt_of_le (Nat.digits_lt_base hb hd) hb')

theorem sign_tmod (hσ : σ = 1 ∨ σ = -1) : (σ * n).tmod b = σ * (n % b : Nat) := by
  rcases hσ with rfl | rfl
  · rw [Int.one_mul, Int.one_mul]
    rfl
  · rw [Int.neg_one_mul, Int.neg_one_mul, Int.neg_tmod]
    rfl

theorem sign_tdiv (hσ : σ = 1 ∨ σ = -1) : (σ * n).tdiv b = σ * (n / b : Nat) := by
  rcases hσ with rfl | rfl
  · rw [Int.one_mul, Int.one_mul]
    rfl
  · rw [Int.neg_one_mul, Int.neg_one_mul, Int.neg_tdiv]
    rfl

theorem i2a_spec (hσ : σ = 1 ∨ σ = -1) (hb : 2 ≤ b) :
    wp (i2a fuel (σ * n) b) (fun _ s' => s' = s.emit (digitText (signedChar σ) b n))
      (fun w _ => w = .hang ∧ fuel < (digitText (signedChar σ) b n).length) s := by
  induction fuel generalizing n s with
  | zero => exact ⟨rfl, List.length_pos_iff.mpr digitText_ne_nil⟩
  | succ fuel ih =>
    have hσ0 : σ ≠ 0 := by omega
    rw [i2a, sign_tmod hσ, sign_tdiv hσ, wp_bind, wp_when]
    constructor
    · intro hq
      have hne : n / b ≠ 0 := fun h0 => hq (by rw [h0]; simp)
      have hle : b ≤ n := by
        by_contra hlt
        exact hne (Nat.div_eq_of_lt (by omega))
      rw [digitText_step hb hle]
      apply wp_mono ih
      · rintro _ _ rfl
        rw [putc, wp_modify, Formatting.emit_emit]
        rfl
      · rintro w _ ⟨hw, hlt⟩
        refine ⟨hw, ?_⟩
        rw [List.length_append]
        exact Nat.succ_lt_succ hlt
    · intro hq
      have hz : n / b = 0 := by
        by_contra hne
        apply hq
        intro h0
        rcases Int.mul_eq_zero.mp h0 with h | h
        · exact hσ0 h
        · exact hne (by exact_mod_cast h)
      have hlt : n < b := by
        by_contra hge
        exact absurd hz (Nat.div_pos (by omega) (by omega)).ne'
      rw [putc, wp_modify, Nat.mod_eq_of_lt hlt, digitText_of_lt hlt]
      rfl

/-- What `i2a` writes in base 16. -/
def hexText (v : Int) : List UInt8 :=
  digitText (signedChar (if v < 0 then -1 else 1)) 16 v.natAbs

/-- The numeral of `v` read as unsigned. -/
def hexNumeral (v : Int) : List UInt8 := numeral 16 (toU32 v)

/-- The numeral of `v` read as signed. -/
def decNumeral (v : Int) : List UInt8 :=
  if v < 0 then 45 :: numeral 10 v.natAbs else numeral 10 v.natAbs

/-- What is left of a state after a directive that has written `l` for its argument. -/
def written (s : Formatting) (l : List UInt8) : Formatting :=
  { s.emit l with nextArg := s.nextArg + 4 }

theorem hexText_of_nonneg (h : 0 ≤ v) (hv : InI32 v) : hexText v = hexNumeral v := by
  obtain ⟨n, rfl⟩ := Int.eq_ofNat_of_zero_le h
  have hlt : n < 0x100000000 := by
    have hhigh := hv.2
    omega
  rw [hexText, hexNumeral, if_neg (Int.not_lt.mpr h), digitText_signedChar_one (by omega) (by omega),
    toU32_of_lt hlt]
  rfl

/-- The highest digit of a number below zero is written below `'0'`. -/
theorem hexText_of_neg (h : v < 0) : ∃ c ∈ hexText v, c.toNat < 48 := by
  have hne : v.natAbs ≠ 0 := by omega
  have hdigits := Nat.digits_ne_nil_iff_ne_zero (b := 16).mpr hne
  have hlast := Nat.getLast_digit_ne_zero 16 hne
  have hmem := List.getLast_mem hdigits
  refine ⟨signedChar (-1) ((Nat.digits 16 v.natAbs).getLast hdigits), ?_, ?_⟩
  · rw [hexText, digitText, if_neg hne, if_pos h, List.mem_reverse]
    exact List.mem_map_of_mem hmem
  · have hlt : (Nat.digits 16 v.natAbs).getLast hdigits < 16 := Nat.digits_lt_base (by omega) hmem
    exact signedChar_neg_lt (Nat.pos_of_ne_zero hlast) (by omega)

theorem hexText_length_le (hv : InI32 v) : (hexText v).length ≤ 8 := by
  obtain ⟨hlow, hhigh⟩ := hv
  apply digitText_length_le (by omega) (by omega)
  omega

theorem hexNumeral_length_of_neg (h : v < 0) (hv : InI32 v) : 8 ≤ (hexNumeral v).length := by
  have hge : 16 ^ 7 ≤ toU32 v := by
    unfold toU32
    have hlow := hv.1
    omega
  exact digitText_length_of_ge (by omega) hge

theorem not_digit_of_lt {c : UInt8} (h : c.toNat < 48) (hb : b ≤ 36) : ¬ ∃ d < b, c = digitChar d := by
  rintro ⟨d, hd, rfl⟩
  rw [digitChar_toNat (by omega)] at h
  split at h <;> omega

theorem hexText_eq_iff (hv : InI32 v) : hexText v = hexNumeral v ↔ 0 ≤ v := by
  constructor
  · intro heq
    by_contra hneg
    obtain ⟨c, hc, hlt⟩ := hexText_of_neg (Int.not_le.mp hneg)
    rw [heq] at hc
    exact not_digit_of_lt hlt (by omega) (mem_digitText (b := 16) (by omega) hc)
  · intro h
    exact hexText_of_nonneg h hv

theorem decNumeral_ne_nil : decNumeral v ≠ [] := by
  unfold decNumeral
  split
  · simp
  · exact digitText_ne_nil

theorem i2a_dec (h : 0 ≤ v) :
    wp (i2a fuel v 10) (fun _ s' => s' = s.emit (numeral 10 v.natAbs))
      (fun w _ => w = .hang ∧ fuel < (numeral 10 v.natAbs).length) s := by
  have hspec := @i2a_spec s fuel 10 v.natAbs 1 (.inl rfl) (by omega)
  have hv : (1 : Int) * (v.natAbs : Int) = v := by omega
  rw [hv, digitText_signedChar_one (by omega) (by omega)] at hspec
  exact hspec

theorem i2a_hex : wp (i2a fuel v 16) (fun _ s' => s' = s.emit (hexText v))
    (fun w _ => w = .hang ∧ fuel < (hexText v).length) s := by
  have hσ : (if v < 0 then (-1 : Int) else 1) = 1 ∨ (if v < 0 then (-1 : Int) else 1) = -1 := by
    split <;> simp
  have hspec := @i2a_spec s fuel 16 v.natAbs _ hσ (by omega)
  have hv : (if v < 0 then (-1 : Int) else 1) * (v.natAbs : Int) = v := by
    split <;> omega
  rw [hv] at hspec
  exact hspec

theorem directive_hex : wp (directive fuel charX) (fun _ s' => s' = written s (hexText s.intArg))
    (fun w _ => w = .hang ∧ fuel ≤ (hexText s.intArg).length) s := by
  rw [directive, if_pos rfl, wp_bind, wp_get, wp_bind]
  apply wp_mono i2a_hex
  · rintro _ _ rfl
    rfl
  · rintro w _ ⟨hw, hlt⟩
    exact ⟨hw, Nat.le_of_lt hlt⟩

theorem putInt_spec (h : InI32 (v * -1) ∨ 0 ≤ v) :
    wp (putInt fuel v) (fun _ s' => s' = s.emit (decNumeral v))
      (fun w _ => w = .hang ∧ fuel ≤ (decNumeral v).length) s := by
  unfold decNumeral putInt
  by_cases hneg : v < 0
  · have hin := h.resolve_right (Int.not_le.mpr hneg)
    have habs : (v * -1).natAbs = v.natAbs := by omega
    rw [if_pos hneg, if_pos hneg, if_pos hin, wp_bind, putc, wp_modify]
    apply wp_mono (i2a_dec (by omega))
    · rintro _ _ rfl
      rw [habs, Formatting.emit_emit]
      rfl
    · rintro w _ ⟨hw, hlt⟩
      rw [habs] at hlt
      exact ⟨hw, Nat.le_succ_of_le (Nat.le_of_lt hlt)⟩
  · rw [if_neg hneg, if_neg hneg]
    apply wp_mono (i2a_dec (by omega))
    · intro _ _ heq
      exact heq
    · rintro w _ ⟨hw, hlt⟩
      exact ⟨hw, Nat.le_of_lt hlt⟩

theorem directive_dec (h : InI32 (s.intArg * -1) ∨ 0 ≤ s.intArg) :
    wp (directive fuel charD) (fun _ s' => s' = written s (decNumeral s.intArg))
      (fun w _ => w = .hang ∧ fuel ≤ (decNumeral s.intArg).length) s := by
  rw [directive, if_neg (by decide), if_neg (by decide), if_neg (by decide), if_pos rfl, wp_bind,
    wp_get, wp_bind]
  apply wp_mono (putInt_spec h)
  · rintro _ _ rfl
    rfl
  · intro _ _ hE
    exact hE

/-- The least number cannot be negated. -/
theorem directive_dec_undefined (h : s.intArg = -0x80000000) :
    wp (directive fuel charD) (fun _ _ => False) (fun w _ => w = .undefined) s := by
  rw [directive, if_neg (by decide), if_neg (by decide), if_neg (by decide), if_pos rfl, wp_bind,
    wp_get, wp_bind, h, putInt, if_pos (by decide), if_neg (by decide)]
  rfl

/-- The state in which the character behind a `'%'` has been read. -/
def atDirective (s : Formatting) : Formatting :=
  { s with fmt := s.fmt + 1, fmtReads := s.fmtReads ++ [s.fmt + 1] }

theorem wp_body_percent {Q : Unit → Formatting → Prop} {E : Stop → Formatting → Prop} :
    wp (vsprintfBody fuel percent) Q E s ↔
      wp (directive fuel (s.mem (s.fmt + 1))) Q E (atDirective s) := by
  rw [vsprintfBody, if_neg (by simp), wp_bind, nextFmt, wp_modify, wp_bind, fmtByte, wp_bind,
    wp_modify, wp_bind, wp_get, wp_pure]
  rfl

/-- The directive at `fmt` puts the text `l` into the buffer. -/
def Emits (s : Formatting) (l : List UInt8) : Prop :=
  ∃ fuel s', vsprintfBody fuel percent s = .ok () s' ∧ s'.mem = putBytes s.mem s.p l ∧
    s'.p = s.p + l.length

/-- The text `l` is the canonical decimal numeral of `v`. -/
def IsDecimal (v : Int) (l : List UInt8) : Prop :=
  if v < 0 then ∃ t, l = 45 :: t ∧ IsNumeral 10 v.natAbs t else IsNumeral 10 v.natAbs l

variable {l t : List UInt8}

theorem isDecimal_iff : IsDecimal v l ↔ l = decNumeral v := by
  unfold IsDecimal decNumeral
  split
  · simp [isNumeral_iff]
  · exact isNumeral_iff (by omega) (by omega)

theorem emits_iff_eq (h : ∀ fuel, wp (directive fuel (s.mem (s.fmt + 1)))
    (fun _ s' => s' = written (atDirective s) t) (fun w _ => w = .hang ∧ fuel ≤ t.length)
    (atDirective s)) : Emits s l ↔ l = t := by
  constructor
  · rintro ⟨fuel, s', hrun, hmem, hp⟩
    have hs' := wp_ok (wp_body_percent.mpr (h fuel)) hrun
    rw [hs'] at hmem hp
    have hlen : t.length = l.length := Nat.add_left_cancel hp
    exact (putBytes_inj hlen hmem).symm
  · rintro rfl
    have hend : wp (vsprintfBody (l.length + 1) percent)
        (fun _ s' => s' = written (atDirective s) l) (fun _ _ => False) s := by
      rw [wp_body_percent]
      apply wp_mono (h (l.length + 1))
      · intro _ _ heq
        exact heq
      · rintro _ _ ⟨-, hle⟩
        exact Nat.not_succ_le_self _ hle
    obtain ⟨_, s', hrun, rfl⟩ := exists_ok_of_wp hend
    exact ⟨_, _, hrun, rfl, rfl⟩

theorem emits_hex (hx : s.mem (s.fmt + 1) = charX) : Emits s l ↔ l = hexText s.intArg := by
  apply emits_iff_eq
  intro fuel
  rw [hx]
  exact directive_hex

theorem emits_dec (hd : s.mem (s.fmt + 1) = charD) (hr : InI32 (s.intArg * -1) ∨ 0 ≤ s.intArg) :
    Emits s l ↔ l = decNumeral s.intArg := by
  apply emits_iff_eq
  intro fuel
  rw [hd]
  exact directive_dec hr

theorem not_emits_least (hd : s.mem (s.fmt + 1) = charD) (h : s.intArg = -0x80000000) :
    ¬ Emits s l := by
  rintro ⟨fuel, s', hrun, -⟩
  have hspec := @directive_dec_undefined (atDirective s) fuel h
  rw [← hd] at hspec
  exact wp_ok (wp_body_percent.mpr hspec) hrun

theorem intArg_range (s : Formatting) : InI32 s.intArg := by
  unfold Formatting.intArg toI32 InI32
  omega

/-- The text of `%d` is the canonical numeral of its argument unless that is the least number, and
the text of `%x` that of an argument read as unsigned if the argument is not below zero. -/
theorem number_texts_iff (s : Formatting) :
    (s.mem (s.fmt + 1) = charD →
      ((∃ l, Emits s l ∧ IsDecimal s.intArg l) ↔ s.intArg ≠ -0x80000000)) ∧
    (s.mem (s.fmt + 1) = charX →
      ((∃ l, Emits s l ∧ IsNumeral 16 (toU32 s.intArg) l) ↔ 0 ≤ s.intArg)) := by
  obtain ⟨hlow, hhigh⟩ := intArg_range s
  constructor
  · intro hd
    constructor
    · rintro ⟨l, hl, -⟩ hleast
      exact not_emits_least hd hleast hl
    · intro hne
      have hr : InI32 (s.intArg * -1) ∨ 0 ≤ s.intArg := by
        unfold InI32
        omega
      exact ⟨decNumeral s.intArg, (emits_dec hd hr).mpr rfl, isDecimal_iff.mpr rfl⟩
  · intro hx
    rw [← hexText_eq_iff ⟨hlow, hhigh⟩]
    constructor
    · rintro ⟨l, hl, hnum⟩
      rw [← (emits_hex hx).mp hl]
      exact (isNumeral_iff (by omega) (by omega)).mp hnum
    · intro heq
      exact ⟨hexText s.intArg, (emits_hex hx).mpr rfl,
        (isNumeral_iff (by omega) (by omega)).mpr heq⟩

/-- A directive with its argument. -/
def sampleDirective (c : UInt8) (v : Nat) : Formatting where
  mem := putBytes (putBytes (fun _ => 0) 0 [percent, c]) 8 (u32Bytes v)
  p := 16
  nextArg := 8

theorem number_texts_iff_at_ten :
    ((∃ l, Emits (sampleDirective charD 10) l ∧ IsDecimal 10 l) ↔ (10 : Int) ≠ -0x80000000) ∧
    ((∃ l, Emits (sampleDirective charX 10) l ∧ IsNumeral 16 10 l) ↔ (0 : Int) ≤ 10) := by
  have harg : ∀ c, (sampleDirective c 10).intArg = 10 := by
    intro c
    change toI32 (u32At (putBytes _ 8 (u32Bytes 10)) 8) = 10
    rw [u32At_putBytes (by omega)]
    decide +kernel
  have hd := (number_texts_iff (sampleDirective charD 10)).1 rfl
  have hx := (number_texts_iff (sampleDirective charX 10)).2 rfl
  rw [harg] at hd hx
  have hten : toU32 10 = 10 := toU32_of_lt (n := 10) (by omega)
  rw [hten] at hx
  exact ⟨hd, hx⟩

/-- `%d` of the least number writes nothing, and `%x` of `0xFFFFFFFF` writes `/`. -/
theorem number_texts_wrong :
    (¬ ∃ l, Emits (sampleDirective charD 0x80000000) l ∧ IsDecimal (-0x80000000) l) ∧
    (∀ l, Emits (sampleDirective charX 0xFFFFFFFF) l ↔ l = [47]) ∧
    ¬ ∃ l, Emits (sampleDirective charX 0xFFFFFFFF) l ∧ IsNumeral 16 0xFFFFFFFF l := by
  have harg : ∀ c v, v < 2 ^ 32 → (sampleDirective c v).intArg = toI32 v := by
    intro c v hv
    change toI32 (u32At (putBytes _ 8 (u32Bytes v)) 8) = toI32 v
    rw [u32At_putBytes hv]
  have hslash : ∀ l, Emits (sampleDirective charX 0xFFFFFFFF) l ↔ l = [47] := by
    intro l
    rw [emits_hex rfl, harg _ _ (by omega)]
    have htext : hexText (toI32 (0xFFFFFFFF : Nat)) = [47] := by
      have hone : toI32 (0xFFFFFFFF : Nat) = -1 := by
        unfold toI32
        omega
      rw [hone, hexText, digitText_of_lt (by decide)]
      rfl
    rw [htext]
  refine ⟨?_, hslash, ?_⟩
  · rintro ⟨l, hl, -⟩
    refine not_emits_least rfl ?_ hl
    rw [harg _ _ (by omega)]
    unfold toI32
    omega
  · rintro ⟨l, hl, hnum⟩
    rw [(hslash l).mp hl] at hnum
    have hvalue := hnum.value
    exact absurd hvalue (by decide)

end KLIB

end BazingaOS
