import BazingaOS.Kernel.Console
import BazingaOS.Kernel.Proc
import BazingaOS.Lib.CString
import BazingaOS.MM.Segment

/-!
# Kernel log

`sys_printx` of `kernel/tty.c`: a text whose first character reports a panic, or a failed assertion
of a task, fills the video memory and stops the machine; any other text goes to `out_char`, whose
effect on the console is in `Kernel/Console`. The loop that prints looks for the marker characters
behind the character that it prints, and so drops the character in front of a marker.
-/

namespace BazingaOS

open Prog

def magChPanic : UInt8 := 2
def magChAssert : UInt8 := 3

/-- `MAKE_COLOR(BLUE, RED) | BRIGHT`. -/
def redChar : UInt8 := (0x1 ||| 0x4) ||| 0x08

/-- `MAKE_COLOR(BLACK, BLACK) | BRIGHT`. -/
def grayChar : UInt8 := (0x0 ||| 0x0) ||| 0x08

def reenterErr : List UInt8 :=
  magChPanic :: (" k_reenter is incorrect for unknown reason".toList.map fun c => c.toNat.toUInt8)

/-- The video memory apart, since no text stands in it; `out` is what has been passed to
`out_char`. -/
structure KernelLog where
  mem : Bytes
  vMem : Bytes
  ldts : Pid → Ldt
  kReenter : Int
  procReady : Pid
  out : List UInt8 := []

/-- The characters that stop the machine or are to be left out. -/
def IsMarker (c : UInt8) : Prop := c = magChPanic ∨ c = magChAssert

instance : DecidablePred IsMarker := fun _ => inferInstanceAs (Decidable (_ ∨ _))

namespace TTY

/-- What `p` points to. -/
def printxText (proc : Pid) (s : Nat) : Prog KernelLog Bytes := do
  let log ← get
  if log.kReenter = 0 then
    let la ← procVa2la log.ldts proc s
    return fun i => log.mem ((la + i) % 0x100000000)
  else if 0 < log.kReenter then return fun i => log.mem ((s + i) % 0x100000000)
  else return fun i => reenterErr.getD i 0

def outCharLog (ch : UInt8) : Prog KernelLog Unit :=
  modify fun log => { log with out := log.out ++ [ch] }

def putVideo (v : Nat) (l : List UInt8) : Prog KernelLog Unit :=
  modify fun log => { log with vMem := putBytes log.vMem v l }

/-- Fills up sixteen rows; every other byte stays as it is. -/
def fillRows : Nat → Nat → Prog KernelLog Nat
  | 0, _ => halt .hang
  | fuel + 1, v => do
    if (v - vMemBase) % (screenWidth * 16) ≠ 0 then
      putVideo (v + 1) [grayChar]
      fillRows fuel (v + 2)
    else return v

def fillScreen (text : Bytes) : Nat → Nat → Nat → Prog KernelLog Unit
  | 0, _, _ => halt .hang
  | fuel + 1, v, q => do
    if v < vMemBase + vMemSize then
      putVideo v [text q, redChar]
      if text (q + 1) = 0 then
        let v ← fillRows fuel (v + 2)
        fillScreen text fuel v 1
      else fillScreen text fuel (v + 2) (q + 1)
    else return ()

/-- The loop that prints, from the character `i` on. -/
def printLoop (text : Bytes) : Nat → Nat → Prog KernelLog Unit
  | 0, _ => halt .hang
  | fuel + 1, i => do
    let ch := text i
    let i := i + 1
    if ch ≠ 0 then
      if IsMarker (text i) then printLoop text fuel i
      else
        outCharLog ch
        printLoop text fuel i
    else return ()

/-- The text is a report of the kernel or of a task. -/
def Triggers (log : KernelLog) (text : Bytes) : Prop :=
  text 0 = magChPanic ∨ (text 0 = magChAssert ∧ log.procReady.val < nrTasks)

instance (log : KernelLog) (text : Bytes) : Decidable (Triggers log text) :=
  inferInstanceAs (Decidable (_ ∨ _))

def sysPrintx (fuel : Nat) (s : Nat) (proc : Pid) : Prog KernelLog Unit := do
  let text ← printxText proc s
  if Triggers (← get) text then
    fillScreen text fuel vMemBase 1
    halt .panic
  else printLoop text fuel 0

/-- What the loop prints of a text. -/
def printed : List UInt8 → List UInt8
  | [] => []
  | c :: l => if IsMarker (l.headD 0) then printed l else c :: printed l

variable {text : Bytes} {l : List UInt8} {log : KernelLog} {fuel : Nat}

theorem printLoop_spec {i : Nat} (ht : IsCString text i l) :
    wp (printLoop text fuel i) (fun _ log' => log'.out = log.out ++ printed l)
      (fun w _ => w = .hang ∧ fuel ≤ l.length) log := by
  induction l generalizing fuel i log with
  | nil =>
    cases fuel with
    | zero => exact ⟨rfl, Nat.le_refl _⟩
    | succ fuel =>
      have hz : text i = 0 := IsCString.nil_iff.mp ht
      simp [printLoop, hz, printed]
  | cons c l ih =>
    cases fuel with
    | zero => exact ⟨rfl, Nat.zero_le _⟩
    | succ fuel =>
      obtain ⟨hc, hne, hl⟩ := IsCString.cons_iff.mp ht
      have hround : ∀ log : KernelLog, wp (printLoop text fuel (i + 1))
          (fun _ log' => log'.out = log.out ++ printed l)
          (fun w _ => w = .hang ∧ fuel + 1 ≤ (c :: l).length) log := by
        intro log
        apply wp_mono (ih hl)
        · intro _ _ hout
          exact hout
        · rintro w _ ⟨hw, hle⟩
          exact ⟨hw, Nat.succ_le_succ hle⟩
      simp only [printLoop, hc, hl.head, printed]
      rw [if_pos hne]
      by_cases hm : IsMarker (l.headD 0)
      · rw [if_pos hm, if_pos hm]
        exact hround log
      · rw [if_neg hm, if_neg hm, List.append_cons, wp_bind, outCharLog, wp_modify]
        exact hround _

theorem exists_marker_printed (h : ∃ c ∈ l, IsMarker c) : ∃ c ∈ printed l, IsMarker c := by
  induction l with
  | nil =>
    obtain ⟨c, hc, -⟩ := h
    exact absurd hc List.not_mem_nil
  | cons c l ih =>
    rw [printed]
    by_cases hl : ∃ d ∈ l, IsMarker d
    · obtain ⟨d, hd, hm⟩ := ih hl
      refine ⟨d, ?_, hm⟩
      split
      · exact hd
      · exact List.mem_cons_of_mem c hd
    · have hhead : ¬ IsMarker (l.headD 0) := by
        cases l with
        | nil => decide
        | cons d l => exact fun hm => hl ⟨d, List.mem_cons_self, hm⟩
      rw [if_neg hhead]
      obtain ⟨d, hd, hm⟩ := h
      rcases List.mem_cons.mp hd with rfl | hd
      · exact ⟨d, List.mem_cons_self, hm⟩
      · exact absurd ⟨d, hd, hm⟩ hl

theorem printed_of_no_marker (h : ∀ c ∈ l, ¬ IsMarker c) : printed l = l := by
  induction l with
  | nil => rfl
  | cons c l ih =>
    have hhead : ¬ IsMarker (l.headD 0) := by
      cases l with
      | nil => decide
      | cons d l => exact h d (by simp)
    rw [printed, if_neg hhead, ih fun d hd => h d (List.mem_cons_of_mem c hd)]

theorem printed_eq_filter_iff :
    printed l = l.filter (fun c => ¬ IsMarker c) ↔ ∀ c ∈ l, ¬ IsMarker c := by
  constructor
  · intro heq c hc hm
    obtain ⟨d, hd, hmarker⟩ := exists_marker_printed ⟨c, hc, hm⟩
    rw [heq, List.mem_filter] at hd
    exact (of_decide_eq_true hd.2) hmarker
  · intro h
    rw [printed_of_no_marker h, List.filter_eq_self.mpr]
    intro c hc
    exact decide_eq_true (h c hc)

/-- The text that `s` points to goes to `out_char` without its markers. -/
def Faithful (log : KernelLog) (s : Nat) (proc : Pid) (l : List UInt8) : Prop :=
  ∃ fuel log', sysPrintx fuel s proc log = .ok () log' ∧
    log'.out = log.out ++ l.filter (fun c => ¬ IsMarker c)

theorem sysPrintx_of_not_triggers {s : Nat} {proc : Pid}
    (hp : printxText proc s log = .ok text log) (hfirst : ¬ Triggers log text) :
    sysPrintx fuel s proc log = printLoop text fuel 0 log := by
  have hget : (get : Prog KernelLog KernelLog) log = .ok log log := rfl
  rw [sysPrintx, bind_of_ok hp, bind_of_ok hget, if_neg hfirst]

theorem faithful_iff_printed {s : Nat} {proc : Pid} (hp : printxText proc s log = .ok text log)
    (ht : IsCString text 0 l) (hfirst : ¬ Triggers log text) :
    Faithful log s proc l ↔ printed l = l.filter (fun c => ¬ IsMarker c) := by
  constructor
  · rintro ⟨fuel, log', hrun, hout⟩
    rw [sysPrintx_of_not_triggers hp hfirst] at hrun
    have hprinted := wp_ok (printLoop_spec ht) hrun
    exact List.append_cancel_left (hprinted.symm.trans hout)
  · intro heq
    have hend : wp (printLoop text (l.length + 1) 0) (fun _ log' => log'.out = log.out ++ printed l)
        (fun _ _ => False) log := by
      apply wp_mono (printLoop_spec ht)
      · intro _ _ hout
        exact hout
      · rintro _ _ ⟨-, hle⟩
        exact Nat.not_succ_le_self _ hle
    obtain ⟨_, log', hrun, hout⟩ := exists_ok_of_wp hend
    refine ⟨l.length + 1, log', ?_, ?_⟩
    · rw [sysPrintx_of_not_triggers hp hfirst]
      exact hrun
    · rw [hout, heq]

/-- A text that does not stop the machine is printed faithfully exactly if it has no markers. -/
theorem faithful_iff {s : Nat} {proc : Pid} (hp : printxText proc s log = .ok text log)
    (ht : IsCString text 0 l) (hfirst : ¬ Triggers log text) :
    Faithful log s proc l ↔ magChPanic ∉ l ∧ magChAssert ∉ l := by
  rw [faithful_iff_printed hp ht hfirst, printed_eq_filter_iff]
  constructor
  · intro h
    exact ⟨fun hc => h _ hc (.inl rfl), fun hc => h _ hc (.inr rfl)⟩
  · rintro ⟨hpanic, hassert⟩ c hc (rfl | rfl)
    · exact hpanic hc
    · exact hassert hc

def assertLog : KernelLog where
  mem := putBytes (fun _ => 0) 0x1000 [magChAssert, 97]
  vMem := fun _ => 0
  ldts := fun _ => {}
  kReenter := 0
  procReady := init

def assertText : Bytes := fun i => assertLog.mem ((0x1000 + i) % 0x100000000)

theorem assertLog_text : printxText init 0x1000 assertLog = .ok assertText assertLog := rfl

theorem assertText_isCString : IsCString assertText 0 [magChAssert, 97] := by
  simp only [IsCString.cons_iff, IsCString.nil_iff]
  decide

theorem assertText_not_triggers : ¬ Triggers assertLog assertText := by decide

theorem faithful_iff_at_no_marker :
    Faithful { assertLog with mem := putBytes (fun _ => 0) 0x1000 [97] } 0x1000 init [97] ↔
      magChPanic ∉ [(97 : UInt8)] ∧ magChAssert ∉ [(97 : UInt8)] := by
  have htext : printxText init 0x1000 { assertLog with mem := putBytes (fun _ => 0) 0x1000 [97] } =
      .ok (fun i => putBytes (fun _ => 0) 0x1000 [97] ((0x1000 + i) % 0x100000000)) _ := rfl
  refine faithful_iff htext ?_ (by decide)
  simp only [IsCString.cons_iff, IsCString.nil_iff]
  decide

/-- The marker in front of the text is not left out. -/
theorem assert_marker_printed :
    (sysPrintx 3 0x1000 init assertLog).state.out = [magChAssert, 97] ∧
      ¬ Faithful assertLog 0x1000 init [magChAssert, 97] := by
  refine ⟨by decide, ?_⟩
  rw [faithful_iff_printed assertLog_text assertText_isCString assertText_not_triggers]
  decide

end TTY

end BazingaOS
