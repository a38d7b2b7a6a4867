import BazingaOS.Kernel.Vsprintf

/-!
# Formats

What a whole format makes of its arguments. A format is cut into items; `Expands` relates items,
arguments and the text that they stand for. `vsprintf` reads on behind a format that ends in a
single `%`, and leaves a zero behind the text only where `%s` comes last.
-/

namespace BazingaOS

open Prog

namespace KLIB

inductive Item where
  | lit (c : UInt8)
  | hex | str | chr | dec
  | other
  | incomplete
deriving DecidableEq, Repr

namespace Item

/-- The item of a `%` with the character `c` behind it. -/
def ofChar (c : UInt8) : Item :=
  if c = charX then hex else if c = charS then str else if c = charC then chr
  else if c = charD then dec else other

/-- The item takes an argument. -/
def TakesArg : Item → Prop
  | hex | str | chr | dec => True
  | lit _ | other | incomplete => False

instance : DecidablePred TakesArg
  | hex | str | chr | dec => isTrue trivial
  | lit _ | other | incomplete => isFalse id

/-- The item stores something, if only a zero. -/
def Stores : Item → Prop
  | lit _ | hex | str | chr | dec => True
  | other | incomplete => False

instance : DecidablePred Stores
  | lit _ | hex | str | chr | dec => isTrue trivial
  | other | incomplete => isFalse id

end Item

def items : List UInt8 → List Item
  | [] => []
  | c :: l =>
    if c = percent then
      match l with
      | [] => [.incomplete]
      | d :: l => .ofChar d :: items l
    else .lit c :: items l

/-- The address of the argument behind that of the item. -/
def Item.argAfter (it : Item) (a : Nat) : Nat := if it.TakesArg then a + 4 else a

/-- With its argument at `a`, the item stands for the text, where `hex` writes the arguments of
`%x`. No byte of the argument lies in `R`. -/
inductive Text (m : Bytes) (R : Set Nat) (hex : Int → List UInt8) :
    Item → Nat → List UInt8 → Prop where
  | lit (c : UInt8) (a : Nat) : Text m R hex (.lit c) a [c]
  | other (a : Nat) : Text m R hex .other a []
  | incomplete (a : Nat) : Text m R hex .incomplete a []
  | hex {a} (hR : ∀ i < 4, a + i ∉ R) : Text m R hex .hex a (hex (toI32 (u32At m a)))
  | dec {a} (hR : ∀ i < 4, a + i ∉ R) : Text m R hex .dec a (decNumeral (toI32 (u32At m a)))
  | chr {a} (hR : ∀ i < 4, a + i ∉ R) : Text m R hex .chr a [m a]
  | str {a t} (hR : ∀ i < 4, a + i ∉ R) (ht : IsCString m (u32At m a) t)
      (htR : ∀ i ≤ t.length, u32At m a + i ∉ R) : Text m R hex .str a t

/-- With the arguments from `a` on, the items stand for the text. -/
inductive Expands (m : Bytes) (R : Set Nat) (hex : Int → List UInt8) :
    List Item → Nat → List UInt8 → Prop where
  | nil (a : Nat) : Expands m R hex [] a []
  | cons {it is a t l} (ht : Text m R hex it a t) (hl : Expands m R hex is (it.argAfter a) l) :
      Expands m R hex (it :: is) a (t ++ l)

/-- The arguments of `%d` can be negated. -/
def DecDefined (m : Bytes) : List Item → Nat → Prop
  | [], _ => True
  | it :: is, a =>
    (it = .dec → toI32 (u32At m a) ≠ -0x80000000) ∧ DecDefined m is (it.argAfter a)

/-- The arguments of `%x` are not below zero. -/
def HexNonneg (m : Bytes) : List Item → Nat → Prop
  | [], _ => True
  | it :: is, a => (it = .hex → 0 ≤ toI32 (u32At m a)) ∧ HexNonneg m is (it.argAfter a)

/-- The last item that stores something is `%s`. -/
def EndsInStr : List Item → Prop
  | [] => False
  | it :: is => EndsInStr is ∨ (it = .str ∧ ∀ jt ∈ is, ¬ jt.Stores)

instance decidableEndsInStr : DecidablePred EndsInStr
  | [] => isFalse id
  | _ :: is => @instDecidableOr _ _ (decidableEndsInStr is) inferInstance

/-- The zero that is left behind the text. -/
def terminator (is : List Item) : List UInt8 := if EndsInStr is then [0] else []

def argCount (is : List Item) : Nat := (is.filter (·.TakesArg)).length

variable {m : Bytes} {R : Set Nat} {hex : Int → List UInt8} {it : Item} {is : List Item}
  {a fuel n : Nat} {t l f : List UInt8} {s s' : Formatting}

theorem Text.eq_nil (h : Text m R hex it a t) (hs : ¬ it.Stores) : t = [] := by
  cases h with
  | other | incomplete => rfl
  | _ => exact absurd trivial hs

theorem Text.ne_nil (h : Text m R hexText it a t) (hs : it.Stores) (hstr : it ≠ .str) : t ≠ [] := by
  cases h with
  | lit => exact List.cons_ne_nil _ _
  | hex => exact digitText_ne_nil
  | dec => exact decNumeral_ne_nil
  | chr => exact List.cons_ne_nil _ _
  | str => exact absurd rfl hstr
  | other | incomplete => exact hs.elim

theorem terminator_cons (h : it ≠ .str ∨ ∃ jt ∈ is, jt.Stores) :
    terminator (it :: is) = terminator is := by
  have hiff : EndsInStr (it :: is) ↔ EndsInStr is := by
    constructor
    · rintro (hends | ⟨hstr, hnone⟩)
      · exact hends
      · rcases h with hne | ⟨jt, hmem, hs⟩
        · exact absurd hstr hne
        · exact absurd hs (hnone jt hmem)
    · exact .inl
  simp only [terminator, hiff]

theorem Expands.stores_nothing (h : Expands m R hexText is a l) :
    l ++ terminator is = [] ↔ ∀ it ∈ is, ¬ it.Stores := by
  induction h with
  | nil a => simp [terminator, EndsInStr]
  | cons ht hl ih =>
    rename_i it is a t l
    rw [List.forall_mem_cons, ← ih, List.append_assoc]
    by_cases hs : it.Stores
    · refine ⟨fun hnil => ?_, fun hnot => absurd hs hnot.1⟩
      obtain ⟨ht0, hrest⟩ := List.append_eq_nil_iff.mp hnil
      by_cases hstr : it = .str
      · by_cases hnone : ∀ jt ∈ is, ¬ jt.Stores
        · have hends : EndsInStr (it :: is) := .inr ⟨hstr, hnone⟩
          rw [terminator, if_pos hends] at hrest
          simp at hrest
        · rw [terminator_cons (.inr (by simpa using hnone))] at hrest
          exact absurd (ih.mp hrest) hnone
      · exact absurd ht0 (ht.ne_nil hs hstr)
    · have hstr : it ≠ .str := fun h => hs (h ▸ trivial)
      rw [ht.eq_nil hs, terminator_cons (.inl hstr), List.nil_append]
      exact (and_iff_right hs).symm

section Strings

variable {dst src : Nat}

theorem frame_putBytes {m' : Bytes} {k : Nat} (hm : ∀ x ∉ R, m' x = m x)
    (hR : ∀ i < l.length, k + i ∈ R) : ∀ x ∉ R, putBytes m' k l x = m x := by
  intro x hx
  rcases Nat.lt_or_ge x k with hlt | hge
  · rw [putBytes_of_lt hlt, hm x hx]
  · obtain ⟨i, rfl⟩ := Nat.exists_eq_add_of_le hge
    rcases Nat.lt_or_ge i l.length with hi | hi
    · exact absurd (hR i hi) hx
    · rw [putBytes_of_ge (by omega), hm _ hx]

theorem strcpy_spec (ht : IsCString s.mem src t) (hsrc : ∀ i ≤ t.length, src + i ∉ R)
    (hdst : ∀ i ≤ t.length, dst + i ∈ R) :
    wp (strcpy fuel dst src) (fun _ s' => s' = { s with mem := putBytes s.mem dst (t ++ [0]) })
      (fun w _ => w = .hang ∧ fuel ≤ t.length) s := by
  induction t generalizing fuel dst src s with
  | nil =>
    cases fuel with
    | zero => exact ⟨rfl, Nat.le_refl _⟩
    | succ fuel =>
      have hz : s.mem src = 0 := IsCString.nil_iff.mp ht
      rw [strcpy, wp_bind, wp_get, hz, wp_bind, wp_modify, if_neg (by simp)]
      rfl
  | cons c t ih =>
    cases fuel with
    | zero => exact ⟨rfl, Nat.zero_le _⟩
    | succ fuel =>
      obtain ⟨hc, hne, htail⟩ := IsCString.cons_iff.mp ht
      have hadd : ∀ k i, k + 1 + i = k + (i + 1) := by
        intro k i
        omega
      have hsrc' : ∀ i ≤ t.length, src + 1 + i ∉ R := by
        intro i hi
        rw [hadd]
        exact hsrc (i + 1) (Nat.succ_le_succ hi)
      have hdst' : ∀ i ≤ t.length, dst + 1 + i ∈ R := by
        intro i hi
        rw [hadd]
        exact hdst (i + 1) (Nat.succ_le_succ hi)
      have hone : ∀ i < [c].length, dst + i ∈ R := fun i hi => hdst i (Nat.le_of_lt_succ
        (Nat.lt_of_lt_of_le hi (Nat.le_add_left _ _)))
      rw [strcpy, wp_bind, wp_get, hc, wp_bind, wp_modify, if_pos hne]
      apply wp_mono (ih (s := { s with mem := putBytes s.mem dst [c] }) ?_ hsrc' hdst')
      · rintro _ _ rfl
        have hcons : c :: t ++ [0] = [c] ++ (t ++ [0]) := rfl
        rw [hcons, putBytes_append _ (l := [c])]
        rfl
      · rintro w _ ⟨hw, hle⟩
        exact ⟨hw, Nat.succ_le_succ hle⟩
      · apply htail.congr
        intro i hi
        exact frame_putBytes (fun _ _ => rfl) hone _ (hsrc' i hi)

theorem strlen_spec (ht : IsCString s.mem src t) :
    wp (strlen fuel src) (fun n s' => n = t.length ∧ s' = s)
      (fun w _ => w = .hang ∧ fuel ≤ t.length) s := by
  induction t generalizing fuel src with
  | nil =>
    cases fuel with
    | zero => exact ⟨rfl, Nat.le_refl _⟩
    | succ fuel =>
      have hz : s.mem src = 0 := IsCString.nil_iff.mp ht
      rw [strlen, wp_bind, wp_get, hz, if_neg (by simp)]
      exact ⟨rfl, rfl⟩
  | cons c t ih =>
    cases fuel with
    | zero => exact ⟨rfl, Nat.zero_le _⟩
    | succ fuel =>
      obtain ⟨hc, hne, htail⟩ := IsCString.cons_iff.mp ht
      rw [strlen, wp_bind, wp_get, hc, if_pos hne, wp_bind]
      apply wp_mono (ih htail)
      · rintro n s' ⟨rfl, rfl⟩
        exact ⟨rfl, rfl⟩
      · rintro w _ ⟨hw, hle⟩
        exact ⟨hw, Nat.succ_le_succ hle⟩

end Strings

def after (s : Formatting) (it : Item) (t : List UInt8) : Formatting :=
  { s with
    mem := putBytes s.mem s.p (t ++ if it = .str then [0] else [])
    p := s.p + t.length
    nextArg := it.argAfter s.nextArg }

/-- A place for `l` and a zero in `R`, outside of which the memory is `m`. -/
structure Room (m : Bytes) (R : Set Nat) (s : Formatting) (l : List UInt8) : Prop where
  frame : ∀ x ∉ R, s.mem x = m x
  place : ∀ i ≤ l.length, s.p + i ∈ R

theorem u32At_of_frame {m' : Bytes} (hm : ∀ x ∉ R, m' x = m x) (hR : ∀ i < 4, a + i ∉ R) :
    u32At m' a = u32At m a :=
  u32At_shift fun i hi => hm _ (hR i hi)

theorem directive_str (hr : Room m R s t) (hR : ∀ i < 4, s.nextArg + i ∉ R)
    (ht : IsCString m (u32At m s.nextArg) t) (htR : ∀ i ≤ t.length, u32At m s.nextArg + i ∉ R) :
    wp (directive fuel charS) (fun _ s' => s' = after s .str t)
      (fun w _ => w = .hang ∧ fuel ≤ t.length) s := by
  have hptr : s.ptrArg = u32At m s.nextArg := u32At_of_frame hr.frame hR
  have hcong : ∀ m' : Bytes, (∀ x ∉ R, m' x = m x) → IsCString m' (u32At m s.nextArg) t := by
    intro m' hm'
    exact ht.congr fun i hi => hm' _ (htR i hi)
  have hput : ∀ x ∉ R, putBytes s.mem s.p (t ++ [0]) x = m x := by
    apply frame_putBytes hr.frame
    intro i hi
    rw [List.length_append] at hi
    exact hr.place i (Nat.le_of_lt_succ hi)
  rw [directive, if_neg (by decide), if_pos rfl, wp_bind, wp_get, wp_bind, wp_get, wp_bind, hptr]
  apply wp_mono (strcpy_spec (hcong _ hr.frame) htR hr.place)
  · rintro _ _ rfl
    have hptr' : Formatting.ptrArg { s with mem := putBytes s.mem s.p (t ++ [0]) } =
        u32At m s.nextArg := u32At_of_frame hput hR
    rw [wp_bind, wp_get, wp_bind, hptr']
    apply wp_mono (strlen_spec (hcong _ hput))
    · rintro n s' ⟨rfl, rfl⟩
      rfl
    · intro _ _ hE
      exact hE
  · intro _ _ hE
    exact hE

theorem Item.ofChar_cases (d : UInt8) : (d = charX ∧ ofChar d = .hex) ∨
    (d = charS ∧ ofChar d = .str) ∨ (d = charC ∧ ofChar d = .chr) ∨
    (d = charD ∧ ofChar d = .dec) ∨
    ((d ≠ charX ∧ d ≠ charS ∧ d ≠ charC ∧ d ≠ charD) ∧ ofChar d = .other) := by
  unfold ofChar
  by_cases hx : d = charX
  · simp [hx]
  · by_cases hs : d = charS
    · simp [hs, charS, charX]
    · by_cases hc : d = charC
      · simp [hc, charC, charX, charS]
      · by_cases hd : d = charD
        · simp [hd, charD, charX, charS, charC]
        · simp [hx, hs, hc, hd]

theorem directive_spec {d : UInt8} (hr : Room m R s t)
    (ht : Text m R hexText (.ofChar d) s.nextArg t)
    (hdec : Item.ofChar d = .dec → toI32 (u32At m s.nextArg) ≠ -0x80000000) :
    wp (directive fuel d) (fun _ s' => s' = after s (.ofChar d) t)
      (fun w _ => w = .hang ∧ fuel ≤ t.length) s := by
  have hint : (∀ i < 4, s.nextArg + i ∉ R) → s.intArg = toI32 (u32At m s.nextArg) := fun hR => by
    rw [Formatting.intArg, u32At_of_frame hr.frame hR]
  have hwritten : ∀ it : Item, ∀ u, it.TakesArg → it ≠ .str → written s u = after s it u := by
    intro it u harg hstr
    rw [after, if_neg hstr, List.append_nil, Item.argAfter, if_pos harg]
    rfl
  rcases Item.ofChar_cases d with ⟨rfl, hit⟩ | ⟨rfl, hit⟩ | ⟨rfl, hit⟩ | ⟨rfl, hit⟩ | ⟨hne, hit⟩
  · rw [hit] at ht ⊢
    cases ht with
    | hex hR =>
      rw [← hint hR, ← hwritten .hex _ trivial (by decide)]
      exact directive_hex
  · rw [hit] at ht ⊢
    cases ht with
    | str hR hstr htR => exact directive_str hr hR hstr htR
  · rw [hit] at ht ⊢
    cases ht with
    | chr hR =>
      have hbyte : s.mem s.nextArg = m s.nextArg := hr.frame _ (hR 0 (by omega))
      rw [directive, if_neg (by decide), if_neg (by decide), if_pos rfl, wp_bind, wp_modify, hbyte,
        ← hwritten .chr _ trivial (by decide)]
      rfl
  · rw [hit] at ht ⊢
    have hneg := hdec hit
    cases ht with
    | dec hR =>
      rw [← hint hR] at hneg ⊢
      rw [← hwritten .dec _ trivial (by decide)]
      apply directive_dec
      obtain ⟨hlow, hhigh⟩ := intArg_range s
      unfold InI32
      omega
  · rw [hit] at ht ⊢
    obtain ⟨hx, hs, hc, hd⟩ := hne
    rw [ht.eq_nil id, directive, if_neg hx, if_neg hs, if_neg hc, if_neg hd]
    simp [after, Item.argAfter, Item.TakesArg]

/-- A round of the loop that has written `t` for an item of `w` characters. -/
structure Round (s : Formatting) (it : Item) (t : List UInt8) (w : Nat) (s' : Formatting) :
    Prop where
  mem : s'.mem = putBytes s.mem s.p (t ++ if it = .str then [0] else [])
  p : s'.p = s.p + t.length
  nextArg : s'.nextArg = it.argAfter s.nextArg
  fmt : s'.fmt = s.fmt + w
  fmtReads : ∀ x ∈ s'.fmtReads, x ∈ s.fmtReads ∨ x < s.fmt + w

section Rounds

variable {Q : Unit → Formatting → Prop} {E : Stop → Formatting → Prop} {c d : UInt8}

theorem wp_loop_end (h : s.mem s.fmt = 0) : wp (vsprintfLoop fuel (n + 1)) Q E s ↔
    Q () { s with fmtReads := s.fmtReads ++ [s.fmt] } := by
  rw [vsprintfLoop, wp_bind, fmtByte, wp_bind, wp_modify, wp_bind, wp_get, wp_pure, h,
    if_neg (by simp), wp_pure]

theorem wp_loop_round (h : s.mem s.fmt = c) (hc : c ≠ 0) :
    wp (vsprintfLoop fuel (n + 1)) Q E s ↔ wp (vsprintfBody fuel c)
      (fun _ s' => wp (vsprintfLoop fuel n) Q E { s' with fmt := s'.fmt + 1 }) E
      { s with fmtReads := s.fmtReads ++ [s.fmt] } := by
  rw [vsprintfLoop, wp_bind, fmtByte, wp_bind, wp_modify, wp_bind, wp_get, wp_pure, h, if_pos hc,
    wp_bind]
  simp only [wp_bind, nextFmt, wp_modify]

theorem wp_loop_lit (h : s.mem s.fmt = c) (hc : c ≠ 0) (hp : c ≠ percent)
    (hnext : ∀ s', Round s (.lit c) [c] 1 s' → wp (vsprintfLoop fuel n) Q E s') :
    wp (vsprintfLoop fuel (n + 1)) Q E s := by
  rw [wp_loop_round h hc, vsprintfBody, if_pos hp, wp_modify]
  apply hnext
  refine ⟨rfl, rfl, rfl, rfl, ?_⟩
  intro x hx
  rcases List.mem_append.mp hx with hx | hx
  · exact .inl hx
  · rw [List.mem_singleton.mp hx]
    exact .inr (Nat.lt_succ_self _)

theorem wp_loop_directive (h : s.mem s.fmt = percent) (hd : s.mem (s.fmt + 1) = d)
    (hdir : ∀ s₁ : Formatting, s₁.mem = s.mem → s₁.p = s.p → s₁.nextArg = s.nextArg →
      wp (directive fuel d) (fun _ s' => s' = after s₁ (.ofChar d) t) E s₁)
    (hnext : ∀ s', Round s (.ofChar d) t 2 s' → wp (vsprintfLoop fuel n) Q E s') :
    wp (vsprintfLoop fuel (n + 1)) Q E s := by
  rw [wp_loop_round h (by decide), wp_body_percent, hd]
  have hspec := hdir (atDirective { s with fmtReads := s.fmtReads ++ [s.fmt] }) rfl rfl rfl
  apply wp_mono hspec
  · rintro _ _ rfl
    apply hnext
    refine ⟨rfl, rfl, rfl, rfl, ?_⟩
    intro x hx
    have hx' : x ∈ s.fmtReads ++ [s.fmt] ++ [s.fmt + 1] := hx
    rw [List.mem_append, List.mem_append, List.mem_singleton, List.mem_singleton] at hx'
    rcases hx' with (hx | rfl) | rfl
    · exact .inl hx
    · exact .inr (by omega)
    · exact .inr (by omega)
  · intro _ _ hE
    exact hE

end Rounds

/-- What the loop leaves of a format `f` that stands for `l`. -/
structure Ends (s : Formatting) (f l : List UInt8) (s' : Formatting) : Prop where
  mem : s'.mem = putBytes s.mem s.p (l ++ terminator (items f))
  p : s'.p = s.p + l.length
  nextArg : s'.nextArg = s.nextArg + 4 * argCount (items f)
  fmtReads : ∀ x ∈ s'.fmtReads, x ∈ s.fmtReads ∨ x ≤ s.fmt + f.length

theorem argCount_cons (it : Item) (is : List Item) (a : Nat) :
    a + 4 * argCount (it :: is) = it.argAfter a + 4 * argCount is := by
  unfold argCount Item.argAfter
  by_cases h : it.TakesArg
  · rw [List.filter_cons_of_pos (by simpa using h), if_pos h, List.length_cons]
    omega
  · rw [List.filter_cons_of_neg (by simpa using h), if_neg h]

/-- The text of the first item, and behind it what the others stand for. -/
theorem putBytes_terminator {m' : Bytes} {k : Nat}
    (hl : Expands m R hexText is (it.argAfter a) l) :
    putBytes (putBytes m' k (t ++ if it = .str then [0] else [])) (k + t.length)
      (l ++ terminator is) = putBytes m' k (t ++ l ++ terminator (it :: is)) := by
  by_cases hstr : it = .str
  · rw [if_pos hstr, List.append_assoc]
    rcases hrest : l ++ terminator is with _ | ⟨c, u⟩
    · have hnone := hl.stores_nothing.mp hrest
      have hends : EndsInStr (it :: is) := .inr ⟨hstr, hnone⟩
      rw [putBytes_nil, (List.append_eq_nil_iff.mp hrest).1, terminator, if_pos hends,
        List.nil_append]
    · have hsome : ∃ jt ∈ is, jt.Stores := by
        by_contra hnone
        rw [hl.stores_nothing.mpr (by simpa using hnone)] at hrest
        cases hrest
      rw [terminator_cons (.inr hsome), hrest]
      exact putBytes_overwrite
  · rw [if_neg hstr, terminator_cons (.inl hstr), List.append_nil, List.append_assoc,
      putBytes_append (l := t)]

theorem Round.ends {w : Nat} {g : List UInt8} {s₁ : Formatting} (hround : Round s it t w s₁)
    (hitems : items f = it :: items g) (hlen : f.length = w + g.length)
    (hl : Expands m R hexText (items g) (it.argAfter s.nextArg) l) (h : Ends s₁ g l s') :
    Ends s f (t ++ l) s' where
  mem := by
    rw [h.mem, hround.mem, hround.p, hitems]
    exact putBytes_terminator hl
  p := by
    rw [h.p, hround.p, List.length_append, Nat.add_assoc]
  nextArg := by
    rw [h.nextArg, hround.nextArg, hitems, argCount_cons]
  fmtReads := by
    intro x hx
    have hfmt := hround.fmt
    rcases h.fmtReads x hx with hx | hx
    · rcases hround.fmtReads x hx with hx | hx
      · exact .inl hx
      · exact .inr (by omega)
    · exact .inr (by omega)

theorem Round.room {w : Nat} {s₁ : Formatting} (hround : Round s it t w s₁)
    (hr : Room m R s (t ++ l)) : Room m R s₁ l where
  frame := by
    rw [hround.mem]
    apply frame_putBytes hr.frame
    intro i hi
    apply hr.place
    rw [List.length_append] at hi ⊢
    split at hi <;> simp at hi <;> omega
  place := by
    intro i hi
    rw [hround.p, Nat.add_assoc]
    apply hr.place
    rw [List.length_append]
    omega

theorem Item.ofChar_ne_incomplete (d : UInt8) : Item.ofChar d ≠ .incomplete := by
  rcases ofChar_cases d with ⟨-, h⟩ | ⟨-, h⟩ | ⟨-, h⟩ | ⟨-, h⟩ | ⟨-, h⟩ <;> simp [h]

theorem eq_charD_of_dec {d : UInt8} (h : Item.ofChar d = .dec) : d = charD := by
  rcases Item.ofChar_cases d with ⟨-, h'⟩ | ⟨-, h'⟩ | ⟨-, h'⟩ | ⟨hd, -⟩ | ⟨-, h'⟩
  · simp [h] at h'
  · simp [h] at h'
  · simp [h] at h'
  · exact hd
  · simp [h] at h'

theorem items_lit {c : UInt8} (h : c ≠ percent) : items (c :: f) = .lit c :: items f := by
  rw [items.eq_def]
  exact if_neg h

theorem items_directive (d : UInt8) : items (percent :: d :: f) = .ofChar d :: items f := by
  rw [items.eq_def]
  exact if_pos rfl

/-- A format stands in a memory apart from the place for its text. -/
structure Format (m : Bytes) (R : Set Nat) (a : Nat) (f : List UInt8) : Prop where
  text : IsCString m a f
  apart : ∀ i ≤ f.length, a + i ∉ R

theorem Format.cons_iff {c : UInt8} :
    Format m R a (c :: f) ↔ m a = c ∧ c ≠ 0 ∧ a ∉ R ∧ Format m R (a + 1) f := by
  constructor
  · intro h
    obtain ⟨hc, hne, htail⟩ := IsCString.cons_iff.mp h.text
    refine ⟨hc, hne, h.apart 0 (Nat.zero_le _), htail, fun i hi => ?_⟩
    rw [Nat.add_right_comm]
    exact h.apart (i + 1) (Nat.succ_le_succ hi)
  · rintro ⟨hc, hne, ha, h⟩
    refine ⟨IsCString.cons_iff.mpr ⟨hc, hne, h.text⟩, fun i hi => ?_⟩
    cases i with
    | zero => exact ha
    | succ i =>
      have hi' := h.apart i (Nat.le_of_succ_le_succ hi)
      rwa [Nat.add_right_comm] at hi'

theorem vsprintfLoop_spec (hf : Format m R s.fmt f) (hr : Room m R s l)
    (hl : Expands m R hexText (items f) s.nextArg l) (hdec : DecDefined m (items f) s.nextArg)
    (hc : .incomplete ∉ items f) :
    wp (vsprintfLoop fuel n) (fun _ s' => Ends s f l s')
      (fun w _ => w = .hang ∧ (fuel ≤ l.length ∨ n ≤ f.length)) s := by
  induction f using items.induct generalizing n s l with
  | case1 =>
    cases n with
    | zero => exact ⟨rfl, .inr (Nat.le_refl _)⟩
    | succ n =>
      have hz : s.mem s.fmt = 0 := by
        have hfR : s.fmt ∉ R := hf.apart 0 (Nat.le_refl _)
        rw [hr.frame _ hfR]
        exact hf.text.zero
      cases hl
      rw [wp_loop_end hz]
      refine ⟨by simp [items, terminator, EndsInStr], rfl, by simp [items, argCount], ?_⟩
      intro x hx
      rcases List.mem_append.mp hx with hx | hx
      · exact .inl hx
      · rw [List.mem_singleton.mp hx]
        exact .inr (Nat.le_refl _)
  | case2 => exact absurd (List.mem_cons_self) hc
  | case3 d f ih =>
    cases n with
    | zero => exact ⟨rfl, .inr (Nat.zero_le _)⟩
    | succ n =>
      rw [items_directive] at hl hdec hc
      obtain ⟨hp, -, hpR, hrest⟩ := Format.cons_iff.mp hf
      obtain ⟨hd, -, hdR, hg⟩ := Format.cons_iff.mp hrest
      cases hl with
      | cons ht hl =>
        rename_i t l
        have hrt : Room m R s t := ⟨hr.frame, fun i hi => hr.place i (by simp; omega)⟩
        apply wp_loop_directive (t := t) ((hr.frame _ hpR).trans hp) ((hr.frame _ hdR).trans hd)
        · intro s₁ hm hp₁ harg
          obtain ⟨hneg, -⟩ := hdec
          rw [← harg] at ht hneg
          apply wp_mono (directive_spec ⟨hm ▸ hrt.frame, hp₁ ▸ hrt.place⟩ ht hneg)
          · intro _ _ heq
            exact heq
          · rintro w _ ⟨hw, hle⟩
            exact ⟨hw, .inl (by simp; omega)⟩
        · intro s₁ hround
          obtain ⟨-, hrest⟩ := hdec
          have hl' := hl
          rw [← hround.nextArg] at hl' hrest
          apply wp_mono (ih (n := n) (hround.fmt ▸ hg) (hround.room hr) hl' hrest
            fun h => hc (List.mem_cons_of_mem _ h))
          · intro _ s' hends
            exact hround.ends (items_directive d) (by simp; omega) hl hends
          · rintro w _ ⟨hw, hle⟩
            exact ⟨hw, by simp; omega⟩
  | case4 c f hne ih =>
    cases n with
    | zero => exact ⟨rfl, .inr (Nat.zero_le _)⟩
    | succ n =>
      rw [items_lit hne] at hl hdec hc
      obtain ⟨hchar, hc0, hcR, hg⟩ := Format.cons_iff.mp hf
      cases hl with
      | cons ht hl =>
        cases ht
        rename_i l
        apply wp_loop_lit ((hr.frame _ hcR).trans hchar) hc0 hne
        intro s₁ hround
        obtain ⟨-, hrest⟩ := hdec
        have hl' := hl
        rw [← hround.nextArg] at hl' hrest
        apply wp_mono (ih (n := n) (hround.fmt ▸ hg) (hround.room hr) hl' hrest
          fun h => hc (List.mem_cons_of_mem _ h))
        · intro _ s' hends
          exact hround.ends (items_lit hne) (by simp; omega) hl hends
        · rintro w _ ⟨hw, hle⟩
          exact ⟨hw, by simp; omega⟩

section Reads

variable {x : Nat}

theorem keeps_fmtByte : Keeps (fun s => x ∈ s.fmtReads) fmtByte :=
  keeps_bind (keeps_modify fun _ h => List.mem_append_left _ h)
    fun _ => keeps_bind keeps_get fun _ => keeps_pure _

theorem keeps_i2a (fuel : Nat) (v b : Int) : Keeps (fun s => x ∈ s.fmtReads) (i2a fuel v b) := by
  induction fuel generalizing v with
  | zero => exact keeps_halt _
  | succ fuel ih => exact keeps_bind (keeps_when (ih _)) fun _ => keeps_modify fun _ h => h

theorem keeps_strcpy (fuel dst src : Nat) :
    Keeps (fun s => x ∈ s.fmtReads) (strcpy fuel dst src) := by
  induction fuel generalizing dst src with
  | zero => exact keeps_halt _
  | succ fuel ih =>
    exact keeps_bind keeps_get fun _ => keeps_bind (keeps_modify fun _ h => h)
      fun _ => keeps_ite (fun _ => ih _ _) fun _ => keeps_pure _

theorem keeps_strlen (fuel str : Nat) : Keeps (fun s => x ∈ s.fmtReads) (strlen fuel str) := by
  induction fuel generalizing str with
  | zero => exact keeps_halt _
  | succ fuel ih =>
    exact keeps_bind keeps_get fun _ => keeps_ite
      (fun _ => keeps_bind (ih _) fun _ => keeps_pure _) fun _ => keeps_pure _

theorem keeps_putInt (fuel : Nat) (v : Int) : Keeps (fun s => x ∈ s.fmtReads) (putInt fuel v) :=
  keeps_ite
    (fun _ => keeps_ite
      (fun _ => keeps_bind (keeps_modify fun _ h => h) fun _ => keeps_i2a _ _ _)
      fun _ => keeps_halt _)
    fun _ => keeps_i2a _ _ _

theorem keeps_nextArg : Keeps (fun s => x ∈ s.fmtReads) nextArg := keeps_modify fun _ h => h

theorem keeps_directive (fuel : Nat) (c : UInt8) :
    Keeps (fun s => x ∈ s.fmtReads) (directive fuel c) := by
  apply keeps_ite
  · intro _
    exact keeps_bind keeps_get fun _ => keeps_bind (keeps_i2a _ _ _) fun _ => keeps_nextArg
  · intro _
    apply keeps_ite
    · intro _
      exact keeps_bind keeps_get fun _ => keeps_bind keeps_get fun _ =>
        keeps_bind (keeps_strcpy _ _ _) fun _ => keeps_bind keeps_get fun _ =>
          keeps_bind (keeps_strlen _ _) fun _ => keeps_bind (keeps_modify fun _ h => h)
            fun _ => keeps_nextArg
    · intro _
      apply keeps_ite
      · intro _
        exact keeps_bind (keeps_modify fun _ h => h) fun _ => keeps_nextArg
      · intro _
        apply keeps_ite
        · intro _
          exact keeps_bind keeps_get fun _ => keeps_bind (keeps_putInt _ _) fun _ => keeps_nextArg
        · intro _
          exact keeps_pure _

theorem keeps_loop (fuel n : Nat) : Keeps (fun s => x ∈ s.fmtReads) (vsprintfLoop fuel n) := by
  induction n with
  | zero => exact keeps_halt _
  | succ n ih =>
    apply keeps_bind keeps_fmtByte
    intro c
    apply keeps_ite
    · intro _
      refine keeps_bind (keeps_ite (fun _ => keeps_modify fun _ h => h) fun _ => ?_)
        fun _ => keeps_bind (keeps_modify fun _ h => h) fun _ => ih
      exact keeps_bind (keeps_modify fun _ h => h)
        fun _ => keeps_bind keeps_fmtByte fun _ => keeps_directive _ _
    · intro _
      exact keeps_pure _

theorem wp_loop_reads (fuel n : Nat) (s : Formatting) :
    wp (vsprintfLoop fuel n) (fun _ s' => s.fmt ∈ s'.fmtReads) (fun _ _ => True) s := by
  cases n with
  | zero => trivial
  | succ n =>
    by_cases hz : s.mem s.fmt = 0
    · rw [wp_loop_end hz]
      simp
    · rw [wp_loop_round rfl hz]
      have hmem : s.fmt ∈ s.fmtReads ++ [s.fmt] := by simp
      have hbody : Keeps (fun t => s.fmt ∈ t.fmtReads) (vsprintfBody fuel (s.mem s.fmt)) :=
        keeps_ite (fun _ => keeps_modify fun _ h => h) fun _ => keeps_bind
          (keeps_modify fun _ h => h) fun _ => keeps_bind keeps_fmtByte fun _ => keeps_directive _ _
      apply wp_mono (hbody { s with fmtReads := s.fmtReads ++ [s.fmt] } hmem)
      · intro _ s' hs'
        exact wp_mono (keeps_loop fuel n { s' with fmt := s'.fmt + 1 } hs') (fun _ _ h => h)
          (fun _ _ _ => trivial)
      · intro _ _ _
        trivial

end Reads

/-- The loop on a format that is incomplete or has an argument of `%d` that cannot be negated does
not return without having read behind the format. -/
theorem vsprintfLoop_beyond (hf : Format m R s.fmt f) (hr : Room m R s l)
    (hl : Expands m R hexText (items f) s.nextArg l)
    (hbad : ¬ (DecDefined m (items f) s.nextArg ∧ .incomplete ∉ items f)) :
    wp (vsprintfLoop fuel n) (fun _ s' => s.fmt + f.length + 1 ∈ s'.fmtReads) (fun _ _ => True) s := by
  induction f using items.induct generalizing n s l with
  | case1 => exact absurd ⟨trivial, List.not_mem_nil⟩ hbad
  | case2 =>
    cases n with
    | zero => trivial
    | succ n =>
      obtain ⟨hp, -, hpR, hrest⟩ := Format.cons_iff.mp hf
      have hz : s.mem (s.fmt + 1) = 0 := by
        have hzR : s.fmt + 1 ∉ R := hrest.apart 0 (Nat.le_refl _)
        rw [hr.frame _ hzR]
        exact hrest.text.zero
      apply wp_loop_directive (t := []) ((hr.frame _ hpR).trans hp) hz
      · intro s₁ _ _ _
        have hother : Item.ofChar 0 = .other := rfl
        rw [hother, directive, if_neg (by decide), if_neg (by decide), if_neg (by decide),
          if_neg (by decide)]
        simp [after, Item.argAfter, Item.TakesArg]
      · intro s₁ hround
        have hreads := wp_loop_reads fuel n s₁
        rw [hround.fmt] at hreads
        exact hreads
  | case3 d f ih =>
    cases n with
    | zero => trivial
    | succ n =>
      rw [items_directive] at hl hbad
      obtain ⟨hp, -, hpR, hrest⟩ := Format.cons_iff.mp hf
      obtain ⟨hd, -, hdR, hg⟩ := Format.cons_iff.mp hrest
      cases hl with
      | cons ht hl =>
        rename_i t l
        have hrt : Room m R s t := ⟨hr.frame, fun i hi => hr.place i (by simp; omega)⟩
        by_cases hneg : Item.ofChar d = .dec → toI32 (u32At m s.nextArg) ≠ -0x80000000
        · apply wp_loop_directive (t := t) ((hr.frame _ hpR).trans hp) ((hr.frame _ hdR).trans hd)
          · intro s₁ hm hp₁ harg
            rw [← harg] at ht hneg
            apply wp_mono (directive_spec ⟨hm ▸ hrt.frame, hp₁ ▸ hrt.place⟩ ht hneg)
            · intro _ _ heq
              exact heq
            · intro _ _ _
              trivial
          · intro s₁ hround
            have hlen : s.fmt + (percent :: d :: f).length + 1 = s₁.fmt + f.length + 1 := by
              rw [hround.fmt]
              simp
              omega
            rw [hlen]
            rw [← hround.nextArg] at hl
            refine ih (hround.fmt ▸ hg) (hround.room hr) hl fun hgood => hbad ⟨⟨hneg, ?_⟩, ?_⟩
            · rw [← hround.nextArg]
              exact hgood.1
            · rw [List.mem_cons, not_or]
              exact ⟨(Item.ofChar_ne_incomplete d).symm, hgood.2⟩
        · -- the product is undefined, and the loop does not get any further
          obtain ⟨hit, hleast⟩ := Classical.not_imp.mp hneg
          rw [hit] at ht
          cases ht with
          | dec hR =>
            rw [wp_loop_round ((hr.frame _ hpR).trans hp) (by decide), wp_body_percent,
              (hr.frame _ hdR).trans hd, eq_charD_of_dec hit]
            refine wp_mono (directive_dec_undefined ?_) (fun _ _ h => h.elim) fun _ _ _ => trivial
            rw [Formatting.intArg]
            exact (congrArg toI32 (congrArg Nat.cast (u32At_of_frame hr.frame hR))).trans
              (not_not.mp hleast)
  | case4 c f hne ih =>
    cases n with
    | zero => trivial
    | succ n =>
      rw [items_lit hne] at hl hbad
      obtain ⟨hchar, hc0, hcR, hg⟩ := Format.cons_iff.mp hf
      cases hl with
      | cons ht hl =>
        cases ht
        rename_i l
        apply wp_loop_lit ((hr.frame _ hcR).trans hchar) hc0 hne
        intro s₁ hround
        have hlen : s.fmt + (c :: f).length + 1 = s₁.fmt + f.length + 1 := by
          rw [hround.fmt]
          simp
          omega
        rw [hlen]
        rw [← hround.nextArg] at hl
        refine ih (hround.fmt ▸ hg) (hround.room hr) hl fun hgood => hbad ⟨⟨by simp, ?_⟩, ?_⟩
        · rw [← hround.nextArg]
          exact hgood.1
        · rw [List.mem_cons, not_or]
          exact ⟨by simp, hgood.2⟩

theorem hexText_length_le_hexNumeral {v : Int} (hv : InI32 v) :
    (hexText v).length ≤ (hexNumeral v).length := by
  rcases Int.lt_or_le v 0 with hneg | hpos
  · exact Nat.le_trans (hexText_length_le hv) (hexNumeral_length_of_neg hneg hv)
  · rw [hexText_of_nonneg hpos hv]

/-- What an item really writes is no longer than its text, and is its text unless the item is `%x`
with an argument below zero. -/
theorem Text.actual (h : Text m R hexNumeral it a t) : ∃ t', Text m R hexText it a t' ∧
    t'.length ≤ t.length ∧ (t' = t ↔ (it = .hex → 0 ≤ toI32 (u32At m a))) := by
  cases h with
  | hex hR =>
    refine ⟨_, .hex hR, hexText_length_le_hexNumeral (inI32_toI32 _), ?_⟩
    rw [hexText_eq_iff (inI32_toI32 _)]
    simp
  | lit => exact ⟨_, .lit _ _, Nat.le_refl _, by simp⟩
  | other => exact ⟨_, .other _, Nat.le_refl _, by simp⟩
  | incomplete => exact ⟨_, .incomplete _, Nat.le_refl _, by simp⟩
  | dec hR => exact ⟨_, .dec hR, Nat.le_refl _, by simp⟩
  | chr hR => exact ⟨_, .chr hR, Nat.le_refl _, by simp⟩
  | str hR ht htR => exact ⟨_, .str hR ht htR, Nat.le_refl _, by simp⟩

theorem Expands.actual (h : Expands m R hexNumeral is a l) : ∃ l', Expands m R hexText is a l' ∧
    l'.length ≤ l.length ∧ (l' = l ↔ HexNonneg m is a) := by
  induction h with
  | nil a => exact ⟨[], .nil a, Nat.le_refl _, by simp [HexNonneg]⟩
  | cons ht hl ih =>
    rename_i it is a t l
    obtain ⟨t', ht', hle, heq⟩ := ht.actual
    obtain ⟨l', hl', hle', heq'⟩ := ih
    refine ⟨t' ++ l', .cons ht' hl', ?_, ?_⟩
    · rw [List.length_append, List.length_append]
      omega
    · rw [HexNonneg, ← heq, ← heq']
      constructor
      · intro happend
        have hlen := congrArg List.length happend
        rw [List.length_append, List.length_append] at hlen
        exact List.append_inj happend (by omega)
      · rintro ⟨rfl, rfl⟩
        rfl

/-- A call of `vsprintf` whose format and arguments stand for the text `l`; its buffer has room for
the text and a zero, and neither the format nor an argument lies in it. -/
structure VsprintfCall (m : Bytes) (buf fmt args : Nat) (f l : List UInt8) : Prop where
  format : Format m (Set.Ico buf (buf + l.length + 1)) fmt f
  text : Expands m (Set.Ico buf (buf + l.length + 1)) hexNumeral (items f) args l

/-- `vsprintf` returns with the text `l` and a zero in its buffer, has taken one argument for each
directive and has not read behind the format `f`. -/
def FormatsTo (m : Bytes) (buf fmt args : Nat) (f l : List UInt8) : Prop :=
  ∃ fuel s', vsprintf fuel buf fmt args { mem := m } = .ok l.length s' ∧
    (∀ i (h : i < l.length), s'.mem (buf + i) = l[i]) ∧ s'.mem (buf + l.length) = 0 ∧
    s'.nextArg = args + 4 * argCount (items f) ∧ ∀ x ∈ s'.fmtReads, x ≤ fmt + f.length

section Calls

variable {buf fmt args : Nat} {l' : List UInt8}

/-- The variables of `vsprintf` at its loop. -/
def vsprintfStart (m : Bytes) (buf fmt args : Nat) : Formatting :=
  { mem := m, p := buf, fmt := fmt, nextArg := args }

theorem wp_vsprintf {Q : Int → Formatting → Prop} {E : Stop → Formatting → Prop} :
    wp (vsprintf fuel buf fmt args) Q E { mem := m } ↔
      wp (vsprintfLoop fuel fuel) (fun _ s' => Q ((s'.p : Int) - buf) s') E
        (vsprintfStart m buf fmt args) := by
  rw [vsprintf, wp_bind, wp_modify, wp_bind]
  simp only [wp_bind, wp_get, wp_pure]
  rfl

theorem room_vsprintfStart (hle : l'.length ≤ l.length) :
    Room m (Set.Ico buf (buf + l.length + 1)) (vsprintfStart m buf fmt args) l' where
  frame _ _ := rfl
  place i hi := by
    change buf + i ∈ _
    rw [Set.mem_Ico]
    omega

theorem FormatsTo.complete (hf : FormatsTo m buf fmt args f l)
    (h : VsprintfCall m buf fmt args f l) :
    .incomplete ∉ items f ∧ DecDefined m (items f) args := by
  by_contra hbad
  obtain ⟨l', hl', hle, -⟩ := h.text.actual
  obtain ⟨fuel, s', hrun, -, -, -, hreads⟩ := hf
  have hbeyond := @vsprintfLoop_beyond _ _ fuel fuel _ _ _ h.format
    (room_vsprintfStart hle) hl' fun hgood => hbad hgood.symm
  have hmem := wp_ok ((wp_vsprintf (Q := fun _ s' => fmt + f.length + 1 ∈ s'.fmtReads)).mpr
    hbeyond) hrun
  have hlast := hreads _ hmem
  change fmt + f.length + 1 ≤ _ at hlast
  omega

theorem VsprintfCall.spec (h : VsprintfCall m buf fmt args f l)
    (hc : .incomplete ∉ items f ∧ DecDefined m (items f) args)
    (hl' : Expands m (Set.Ico buf (buf + l.length + 1)) hexText (items f) args l')
    (hle : l'.length ≤ l.length) :
    wp (vsprintf fuel buf fmt args)
      (fun r s' => r = l'.length ∧ Ends (vsprintfStart m buf fmt args) f l' s')
      (fun w _ => w = .hang ∧ (fuel ≤ l'.length ∨ fuel ≤ f.length)) { mem := m } := by
  rw [wp_vsprintf]
  apply wp_mono (vsprintfLoop_spec h.format (room_vsprintfStart hle) hl' hc.2 hc.1)
  · intro _ s' hends
    refine ⟨?_, hends⟩
    rw [hends.p]
    change ((buf + l'.length : Nat) : Int) - buf = _
    omega
  · intro _ _ hE
    exact hE

theorem Ends.getElem {i : Nat} (h : Ends (vsprintfStart m buf fmt args) f l s')
    (hi : i < l.length) : s'.mem (buf + i) = l[i] := by
  have hi' : i < (l ++ terminator (items f)).length := by
    rw [List.length_append]
    omega
  rw [h.mem]
  change putBytes m buf _ (buf + i) = _
  rw [putBytes_add hi', List.getElem_append_left hi]

theorem Ends.zero_iff (h : Ends (vsprintfStart m buf fmt args) f l s') :
    s'.mem (buf + l.length) = 0 ↔ EndsInStr (items f) ∨ m (buf + l.length) = 0 := by
  rw [h.mem]
  change putBytes m buf _ (buf + l.length) = 0 ↔ _
  by_cases hends : EndsInStr (items f)
  · have hlt : l.length < (l ++ [0]).length := by simp
    rw [terminator, if_pos hends, putBytes_add hlt]
    simp [hends]
  · rw [terminator, if_neg hends, List.append_nil, putBytes_of_ge (Nat.le_refl _)]
    simp [hends]

theorem VsprintfCall.formatsTo_iff_of_complete (h : VsprintfCall m buf fmt args f l)
    (hc : .incomplete ∉ items f ∧ DecDefined m (items f) args) :
    FormatsTo m buf fmt args f l ↔
      HexNonneg m (items f) args ∧ (EndsInStr (items f) ∨ m (buf + l.length) = 0) := by
  obtain ⟨l', hl', hle, heq⟩ := h.text.actual
  constructor
  · rintro ⟨fuel, s', hrun, hbytes, hzero, -, -⟩
    obtain ⟨hlen, hends⟩ := wp_ok (h.spec hc hl' hle) hrun
    have hlen' : l'.length = l.length := by exact_mod_cast hlen.symm
    have htext : l' = l := by
      apply List.ext_getElem hlen'
      intro i hi hi'
      rw [← hends.getElem hi, hbytes i hi']
    refine ⟨heq.mp htext, ?_⟩
    rw [htext] at hends
    exact hends.zero_iff.mp hzero
  · rintro ⟨hhex, hzero⟩
    obtain rfl := heq.mpr hhex
    have hend : wp (vsprintf (l'.length + f.length + 1) buf fmt args)
        (fun r s' => r = l'.length ∧ Ends (vsprintfStart m buf fmt args) f l' s')
        (fun _ _ => False) { mem := m } := by
      apply wp_mono (h.spec hc hl' hle)
      · intro _ _ hQ
        exact hQ
      · rintro _ _ ⟨-, hfuel⟩
        omega
    obtain ⟨_, s', hrun, rfl, hends⟩ := exists_ok_of_wp hend
    refine ⟨_, s', hrun, fun i hi => hends.getElem hi, hends.zero_iff.mpr hzero, hends.nextArg, ?_⟩
    intro x hx
    rcases hends.fmtReads x hx with hx | hx
    · exact absurd hx List.not_mem_nil
    · exact hx

/-- A call expands its format exactly if the format does not end in a single `%`, every argument of
`%d` can be negated, no argument of `%x` is below zero, and `%s` comes last or the buffer has a zero
behind the text. -/
theorem formatsTo_iff (h : VsprintfCall m buf fmt args f l) : FormatsTo m buf fmt args f l ↔
    .incomplete ∉ items f ∧ DecDefined m (items f) args ∧ HexNonneg m (items f) args ∧
      (EndsInStr (items f) ∨ m (buf + l.length) = 0) := by
  constructor
  · intro hf
    have hc := hf.complete h
    exact ⟨hc.1, hc.2, (h.formatsTo_iff_of_complete hc).mp hf⟩
  · rintro ⟨hc, hdec, hrest⟩
    exact (h.formatsTo_iff_of_complete ⟨hc, hdec⟩).mpr hrest

/-- The format `"%s"` with the text `"b"`. -/
def strMemory : Bytes := putBytes (fun _ => 0) 0 [percent, charS, 0, 0, 12, 0, 0, 0, 0, 0, 0, 0, 98]

theorem strMemory_call : VsprintfCall strMemory 32 0 4 [percent, charS] [98] where
  format := by
    refine ⟨by simp only [IsCString.cons_iff, IsCString.nil_iff]; decide, fun i hi => ?_⟩
    simp at hi ⊢
    omega
  text := by
    have hptr : u32At strMemory 4 = 12 := by decide
    refine .cons (t := [98]) (.str ?_ ?_ ?_) (.nil _)
    · intro i hi
      simp
      omega
    · rw [hptr]
      simp only [IsCString.cons_iff, IsCString.nil_iff]
      decide
    · intro i hi
      rw [hptr]
      simp at hi ⊢
      omega

theorem formatsTo_iff_at_str : FormatsTo strMemory 32 0 4 [percent, charS] [98] ↔
    .incomplete ∉ items [percent, charS] ∧ DecDefined strMemory (items [percent, charS]) 4 ∧
      HexNonneg strMemory (items [percent, charS]) 4 ∧
      (EndsInStr (items [percent, charS]) ∨ strMemory (32 + 1) = 0) :=
  formatsTo_iff strMemory_call

/-- The format `"a"` with a buffer that has not been cleared. -/
def dirtyMemory : Bytes := putBytes (fun _ => 255) 0 [97, 0]

/-- The text of `"a"` has no zero behind it, and `"%"` is read beyond its end. -/
theorem not_formatsTo : ¬ FormatsTo dirtyMemory 16 0 4 [97] [97] ∧
    ¬ FormatsTo (putBytes (fun _ => 0) 0 [percent]) 16 0 4 [percent] [] := by
  constructor
  · have hcall : VsprintfCall dirtyMemory 16 0 4 [97] [97] := by
      refine ⟨⟨?_, ?_⟩, .cons (.lit 97 4) (.nil _)⟩
      · simp only [IsCString.cons_iff, IsCString.nil_iff]
        decide
      · intro i hi
        simp at hi ⊢
        omega
    rw [hcall.formatsTo_iff_of_complete ⟨by decide, by simp [items, DecDefined, percent]⟩]
    rintro ⟨-, hends | hzero⟩
    · revert hends
      decide
    · revert hzero
      decide
  · have hcall : VsprintfCall (putBytes (fun _ => 0) 0 [percent]) 16 0 4 [percent] [] := by
      refine ⟨⟨?_, ?_⟩, .cons (.incomplete 4) (.nil _)⟩
      · simp only [IsCString.cons_iff, IsCString.nil_iff]
        decide
      · intro i hi
        simp at hi ⊢
        omega
    intro hf
    exact (hf.complete hcall).1 (by decide)

end Calls

end KLIB

end BazingaOS
