import BazingaOS.Lib.Bytes
import BazingaOS.MM.LifeCycle

/-!
# Process names

`p_name` is a field of 16 bytes in front of `p_flags`. `kernel_main` and `do_exec` fill it with
`strcpy`, and `do_fork` with `sprintf`, over a copy of the parent's field. A store that leaves the
field goes into fields that the program does not name there, so the machine stops at it; `reach`
is how far stores into `p_name` have come.
-/

namespace BazingaOS

open Prog

def pNameSize : Nat := 16

structure Names where
  mm : Mm
  pName : Pid → Bytes
  reach : Nat := 0

def Names.text (t : Names) (p : Pid) : List UInt8 := cstring (t.pName p) pNameSize

/-- `i2a` of `lib/vsprintf.c`; the first argument bounds the number of digits. -/
def i2a (base : Nat) : Nat → Nat → List UInt8
  | 0, _ => []
  | fuel + 1, val =>
    let m := val % base
    let q := val / base
    (if q = 0 then [] else i2a base fuel q) ++
      [(if m < 10 then m + 48 else m - 10 + 65).toUInt8]

/-- The digits of `%d` for a process number. -/
def pidDigits (p : Pid) : List UInt8 := i2a 10 nrSlots p.val

namespace MM

def liftMm {α : Type} (f : Prog Mm α) : Prog Names α := fun t =>
  match f t.mm with
  | .ok a u => .ok a { t with mm := u }
  | .stop w u => .stop w { t with mm := u }

/-- Store bytes into `p_name` of `p` from its byte `k` on. -/
def storeName (p : Pid) (k : Nat) (l : List UInt8) : Prog Names Unit := do
  modify fun t => { t with reach := max t.reach (k + l.length) }
  if k + l.length ≤ pNameSize then
    modify fun t => { t with pName := Function.update t.pName p (putBytes (t.pName p) k l) }
  else halt .undefined

/-- Read the text of `p_name`; without a zero in the field the read goes on behind it. -/
def loadName (p : Pid) : Prog Names (List UInt8) := do
  let s := (← get).text p
  if s.length < pNameSize then return s else halt .undefined

/-- `strcpy(p_name, s)`, for the text `s` of a buffer. -/
def strcpyName (p : Pid) (s : List UInt8) : Prog Names Unit := storeName p 0 (s ++ [0])

/-- `sprintf(p_name, "%s_%d", parent's p_name, pid)`: `%s` is a `strcpy`, whose zero the next
character overwrites, and no zero is stored behind the digits. -/
def sprintfName (pid parent : Pid) : Prog Names Unit := do
  let s ← loadName parent
  strcpyName pid s
  storeName pid s.length [95]
  storeName pid (s.length + 1) (pidDigits pid)

/-- `do_fork` with the names: the record is copied and named before memory is allocated. -/
def forkName (parent : Pid) : Prog Names Unit := do
  match (← get).mm.freeSlot with
  | none => return
  | some pid =>
    check (nrTasks + nrNativeProcs ≤ pid.val)
    modify fun t => { t with pName := Function.update t.pName pid (t.pName parent) }
    sprintfName pid parent

/-- `do_exec` from the point where FS has found and opened the file; `path` is what `phys_copy`
brought into the local array, and a zero in it ends the text. -/
def execName (p : Pid) (path : List UInt8) : Prog Names Unit := do
  check (path.length < maxPath)
  strcpyName p (path.takeWhile (· ≠ 0))

end MM

inductive NameAction where
  | request (q : MmRequest)
  | exec (p : Pid) (path : List UInt8)
  | ipc (table : Pid → Process)

namespace NameAction

def handle : NameAction → Prog Names Unit
  | .request (.fork p) => do
    MM.forkName p
    let _ ← MM.liftMm (MM.doFork p)
  | .request q => MM.liftMm q.handle
  | .exec p path => MM.execName p path
  | .ipc table => modify fun t => { t with mm := { t.mm with procTable := table } }

def Enabled (t : Names) : NameAction → Prop
  | .request q => q.Enabled t.mm
  | .exec p _ => (MmRequest.fork p).Enabled t.mm
  | .ipc table => SameLife t.mm.procTable table

/-- The name to be stored leaves a byte of the field for a zero. -/
def Fits (t : Names) : NameAction → Prop
  | .request (.fork p) => ∀ pid, t.mm.freeSlot = some pid → nrTasks + nrNativeProcs ≤ pid.val →
      (t.text p).length + 1 + (pidDigits pid).length < pNameSize
  | .exec _ path => path.length < maxPath → (path.takeWhile (· ≠ 0)).length < pNameSize
  | _ => True

end NameAction

/-- A machine that has not stopped takes a request or an exchange of messages. -/
def NameStep (m : Machine Names) (act : NameAction) (m' : Machine Names) : Prop :=
  m.stopped = none ∧ act.Enabled m.state ∧ m' = m.exec act.handle

def stringBytes (s : String) : List UInt8 := s.toList.map fun c => c.toNat.toUInt8

/-- The names of `task_table` and `user_procs`. -/
def taskNames : List String :=
  ["task_sys", "task_tty", "task_hd", "task_fs", "task_mm", "INIT", "testA"]

/-- The names that `kernel_main` stores over the zeros of `.bss`. -/
def kernelMainNames (p : Pid) : Bytes :=
  putBytes (fun _ => 0) 0 (stringBytes (taskNames.getD p.val ""))

def namesInit (imageSize : Pid → Nat) (memorySize : Nat) : Machine Names where
  state := { mm := mmInit imageSize memorySize, pName := kernelMainNames }

/-- Every name has its terminating zero inside the field, and no store went behind the field. -/
def Names.Ok (t : Names) : Prop :=
  (∀ p, (t.text p).length + 1 ≤ pNameSize) ∧ t.reach ≤ pNameSize

/-- The last byte of every name field is zero. -/
structure NameInv (t : Names) : Prop where
  last : ∀ p, t.pName p 15 = 0
  reach : t.reach ≤ pNameSize

theorem NameInv.ok {t : Names} (h : NameInv t) : t.Ok := by
  constructor
  · intro p
    have hle := cstring_length_le_of_zero (n := pNameSize) (h.last p)
    change (cstring (t.pName p) pNameSize).length + 1 ≤ 16
    omega
  · exact h.reach

section Stores

variable {t : Names} {p q parent pid : Pid} {k : Nat} {l : List UInt8}

theorem wp_storeName {Q : Unit → Names → Prop} {E : Stop → Names → Prop} :
    wp (MM.storeName p k l) Q E t ↔
      (k + l.length ≤ pNameSize → Q () { t with
        reach := max t.reach (k + l.length)
        pName := Function.update t.pName p (putBytes (t.pName p) k l) }) ∧
      (¬ k + l.length ≤ pNameSize →
        E .undefined { t with reach := max t.reach (k + l.length) }) := by
  simp [MM.storeName]

theorem wp_loadName {Q : List UInt8 → Names → Prop} {E : Stop → Names → Prop}
    (h : (t.text p).length < pNameSize) : wp (MM.loadName p) Q E t ↔ Q (t.text p) t := by
  simp [MM.loadName, h]

theorem wp_liftMm {α : Type} {f : Prog Mm α} {I : Names → Prop}
    (hI : ∀ u, I { t with mm := u }) :
    wp (MM.liftMm f) (fun _ => I) (fun _ => I) t := by
  unfold wp MM.liftMm
  cases f t.mm with
  | ok a u => exact hI u
  | stop w u => exact hI u

/-- The text that `sprintf` leaves in the field, followed by what the copied record holds. -/
def forkedName (t : Names) (parent pid : Pid) : Bytes :=
  let s := t.text parent
  putBytes (putBytes (putBytes (t.pName parent) 0 (s ++ [0])) s.length [95]) (s.length + 1)
    (pidDigits pid)

theorem i2a_ne_zero {base fuel val : Nat} (hb : 0 < base) (hb' : base ≤ 36) {c : UInt8}
    (h : c ∈ i2a base fuel val) : c ≠ 0 := by
  induction fuel generalizing val with
  | zero => cases h
  | succ fuel ih =>
    rw [i2a] at h
    rcases List.mem_append.mp h with h | h
    · split at h
      · cases h
      · exact ih h
    · have hm := Nat.mod_lt val hb
      have hchar : ∀ n, 48 ≤ n → n < 256 → n.toUInt8 ≠ 0 := by
        intro n hlow hhigh hzero
        have hn : n % 256 = 0 := congrArg UInt8.toNat hzero
        omega
      rw [List.mem_singleton.mp h]
      apply hchar <;> split <;> omega

theorem pidDigits_ne_zero (p : Pid) {c : UInt8} (h : c ∈ pidDigits p) : c ≠ 0 :=
  i2a_ne_zero (by decide) (by decide) h

theorem sprintfName_ok (hs : (t.text parent).length < pNameSize)
    (hcopy : t.pName pid = t.pName parent)
    (hd : (t.text parent).length + 1 + (pidDigits pid).length ≤ pNameSize) :
    wp (MM.sprintfName pid parent) (fun _ u => u = { t with
        reach := max t.reach ((t.text parent).length + 1 + (pidDigits pid).length)
        pName := Function.update t.pName pid (forkedName t parent pid) })
      (fun _ _ => False) t := by
  have h₁ : 0 + (t.text parent ++ [0]).length ≤ pNameSize := by
    simp only [List.length_append, List.length_singleton]
    omega
  have h₂ : (t.text parent).length + [(95 : UInt8)].length ≤ pNameSize := by
    simp only [List.length_singleton]
    omega
  simp only [MM.sprintfName, MM.strcpyName, wp_bind, wp_loadName hs, wp_storeName, h₁, h₂, hd,
    not_true, false_implies, true_implies, and_true]
  simp [forkedName, hcopy]

/-- Otherwise it stores behind the field. -/
theorem sprintfName_overflow (hs : (t.text parent).length < pNameSize)
    (hd : pNameSize < (t.text parent).length + 1 + (pidDigits pid).length) :
    wp (MM.sprintfName pid parent) (fun _ _ => False) (fun _ u => pNameSize < u.reach) t := by
  have h₁ : 0 + (t.text parent ++ [0]).length ≤ pNameSize := by
    simp only [List.length_append, List.length_singleton]
    omega
  have h₂ : (t.text parent).length + [(95 : UInt8)].length ≤ pNameSize := by
    simp only [List.length_singleton]
    omega
  have hn : ¬ (t.text parent).length + 1 + (pidDigits pid).length ≤ pNameSize := by omega
  simp only [MM.sprintfName, MM.strcpyName, wp_bind, wp_loadName hs, wp_storeName, h₁, h₂, hn,
    not_true, not_false_eq_true, false_implies, true_implies, and_true, true_and]
  exact lt_of_lt_of_le hd (le_max_right _ _)

theorem forkedName_last
    (hd : (t.text parent).length + 1 + (pidDigits pid).length < pNameSize) :
    forkedName t parent pid 15 = t.pName parent 15 := by
  have hn : (t.text parent).length + 1 + (pidDigits pid).length ≤ 15 := Nat.le_of_lt_succ hd
  rw [forkedName, putBytes_of_ge hn, putBytes_of_ge (by simp only [List.length_singleton]; omega),
    putBytes_of_ge (by simp only [List.length_append, List.length_singleton]; omega)]

theorem forkedName_ne_zero
    (hd : (t.text parent).length + 1 + (pidDigits pid).length = pNameSize) {i : Nat}
    (hi : i < pNameSize) : forkedName t parent pid i ≠ 0 := by
  rcases Nat.lt_or_ge i ((t.text parent).length + 1) with hlt | hge
  · rw [forkedName, putBytes_of_lt hlt]
    rcases Nat.lt_or_ge i (t.text parent).length with hlt' | hge'
    · have hi' : i < (t.text parent ++ [0]).length := by
        simp only [List.length_append, List.length_singleton]
        omega
      have hget := putBytes_add (m := t.pName parent) (k := 0) hi'
      rw [Nat.zero_add] at hget
      rw [putBytes_of_lt hlt', hget, List.getElem_append_left hlt']
      exact cstring_ne_zero (List.getElem_mem hlt')
    · have hmem := putBytes_mem (m := putBytes (t.pName parent) 0 (t.text parent ++ [0])) (l := [95])
        hge' hlt
      rw [List.mem_singleton] at hmem
      rw [hmem]
      decide
  · exact pidDigits_ne_zero pid (putBytes_mem hge (by omega))

end Stores

section Steps

variable {t : Names} {p : Pid}

private def copied (t : Names) (pid parent : Pid) : Names :=
  { t with pName := Function.update t.pName pid (t.pName parent) }

private theorem copied_parent (t : Names) (pid parent : Pid) :
    (copied t pid parent).pName parent = t.pName parent := by
  by_cases h : parent = pid
  · subst h
    simp [copied]
  · simp [copied, h]

private theorem copied_child (t : Names) (pid parent : Pid) :
    (copied t pid parent).pName pid = (copied t pid parent).pName parent := by
  rw [copied_parent]
  simp [copied]

private theorem copied_text (t : Names) (pid parent : Pid) :
    (copied t pid parent).text parent = t.text parent := by
  rw [Names.text, copied_parent]
  rfl

private theorem NameInv.text_lt (h : NameInv t) (p : Pid) : (t.text p).length < pNameSize :=
  h.ok.1 p

theorem NameInv.setName (h : NameInv t) {pid : Pid} {b : Bytes} (hb : b 15 = 0) {n : Nat}
    (hn : n ≤ pNameSize) :
    NameInv { t with reach := n, pName := Function.update t.pName pid b } := by
  constructor
  · intro q
    change Function.update t.pName pid b q 15 = 0
    by_cases hq : q = pid
    · subst hq
      rw [Function.update_self]
      exact hb
    · rw [Function.update_of_ne hq]
      exact h.last q
  · exact hn

theorem forkName_fits (h : NameInv t) (hfit : (NameAction.request (.fork p)).Fits t) :
    wp (MM.forkName p) (fun _ => NameInv) (fun _ => NameInv) t := by
  simp only [MM.forkName, wp_bind, wp_get]
  cases hslot : t.mm.freeSlot with
  | none => exact h
  | some pid =>
    simp only [wp_bind, wp_check, wp_modify]
    constructor
    · intro hpid
      have hlt := hfit pid hslot hpid
      have hc : NameInv (copied t pid p) := h.setName (h.last p) h.reach
      rw [← copied_text t pid p] at hlt
      have hw := sprintfName_ok (hc.text_lt p) (copied_child t pid p) (Nat.le_of_lt hlt)
      apply wp_mono hw
      · rintro _ u rfl
        apply hc.setName
        · rw [forkedName_last hlt]
          exact hc.last p
        · exact max_le hc.reach (Nat.le_of_lt hlt)
      · intro _ _ hf
        exact hf.elim
    · intro _
      exact h

theorem forkName_unfit (h : NameInv t) (hfit : ¬ (NameAction.request (.fork p)).Fits t) :
    wp (MM.forkName p) (fun _ u => ¬ u.Ok) (fun _ u => ¬ u.Ok) t := by
  simp only [NameAction.Fits, not_forall] at hfit
  obtain ⟨pid, hslot, hpid, hlen⟩ := hfit
  have hc : NameInv (copied t pid p) := h.setName (h.last p) h.reach
  rw [← copied_text t pid p] at hlen
  simp only [MM.forkName, wp_bind, wp_get, hslot, wp_check, wp_modify, hpid, true_implies, not_true,
    false_implies, and_true]
  rcases Nat.lt_or_ge pNameSize
    (((copied t pid p).text p).length + 1 + (pidDigits pid).length) with hlt | hge
  · apply wp_mono (sprintfName_overflow (hc.text_lt p) hlt)
    · intro _ _ hf
      exact hf.elim
    · intro _ u hu hok
      exact absurd hok.2 (Nat.not_le.mpr hu)
  · have heq : ((copied t pid p).text p).length + 1 + (pidDigits pid).length = pNameSize := by
      omega
    apply wp_mono (sprintfName_ok (hc.text_lt p) (copied_child t pid p) hge)
    · rintro _ u rfl hok
      have hpid := hok.1 pid
      rw [Names.text] at hpid
      simp only [Function.update_self] at hpid
      rw [cstring_length_of_ne_zero fun i hi => forkedName_ne_zero heq hi] at hpid
      omega
    · intro _ _ hf
      exact hf.elim

theorem execName_fits (h : NameInv t) {path : List UInt8}
    (hfit : (NameAction.exec p path).Fits t) :
    wp (MM.execName p path) (fun _ => NameInv) (fun _ => NameInv) t := by
  simp only [MM.execName, MM.strcpyName, wp_bind, wp_check, wp_storeName]
  constructor
  · intro hpath
    have hlt : (path.takeWhile (· ≠ 0)).length < pNameSize := hfit hpath
    have hle : (path.takeWhile (· ≠ 0)).length ≤ 15 := Nat.le_of_lt_succ hlt
    have hlen : 0 + (path.takeWhile (· ≠ 0) ++ [0]).length ≤ pNameSize := by
      simp only [List.length_append, List.length_singleton]
      omega
    simp only [hlen, true_implies, not_true, false_implies, and_true]
    apply h.setName
    · -- the text ends at byte 15 or in front of it
      rcases Nat.lt_or_ge 15 (path.takeWhile (· ≠ 0) ++ [(0 : UInt8)]).length with hlt | hge
      · have hget := putBytes_add (m := t.pName p) (k := 0) hlt
        rw [Nat.zero_add] at hget
        rw [hget, List.getElem_append_right hle]
        simp
      · rw [putBytes_of_ge (by omega)]
        exact h.last p
    · exact max_le h.reach hlen
  · intro _
    exact h

theorem execName_unfit {path : List UInt8} (hfit : ¬ (NameAction.exec p path).Fits t) :
    wp (MM.execName p path) (fun _ u => ¬ u.Ok) (fun _ u => ¬ u.Ok) t := by
  simp only [NameAction.Fits, Classical.not_imp, Nat.not_lt] at hfit
  obtain ⟨hpath, hlen⟩ := hfit
  have hover : ¬ 0 + (path.takeWhile (· ≠ 0) ++ [0]).length ≤ pNameSize := by
    simp only [List.length_append, List.length_singleton]
    omega
  simp only [MM.execName, MM.strcpyName, wp_bind, wp_check, wp_storeName, hpath, hover, true_implies,
    not_true, not_false_eq_true, false_implies, and_true, true_and]
  intro hok
  have hreach := (le_max_right t.reach _).trans hok.2
  exact hover hreach

theorem NameInv.handle (h : NameInv t) {act : NameAction} (hfit : act.Fits t) :
    wp act.handle (fun _ => NameInv) (fun _ => NameInv) t := by
  have hlift : ∀ {α : Type} (f : Prog Mm α) (u : Names), NameInv u →
      wp (MM.liftMm f) (fun _ => NameInv) (fun _ => NameInv) u := by
    intro α f u hu
    apply wp_liftMm
    intro v
    exact ⟨hu.last, hu.reach⟩
  cases act with
  | request q =>
    cases q with
    | fork p =>
      simp only [NameAction.handle, wp_bind, wp_pure]
      apply wp_mono (forkName_fits h hfit)
      · intro _ u hu
        exact hlift _ u hu
      · intro _ _ hu
        exact hu
    | exit p status => exact hlift _ t h
    | wait p => exact hlift _ t h
  | exec p path => exact execName_fits h hfit
  | ipc table => exact ⟨h.last, h.reach⟩

theorem NameInv.handle_unfit (h : NameInv t) {act : NameAction} (hfit : ¬ act.Fits t) :
    wp act.handle (fun _ u => ¬ u.Ok) (fun _ u => ¬ u.Ok) t := by
  cases act with
  | request q =>
    cases q with
    | fork p =>
      simp only [NameAction.handle, wp_bind, wp_pure]
      apply wp_mono (forkName_unfit h hfit)
      · intro _ u hu
        apply wp_liftMm
        intro v hok
        exact hu hok
      · intro _ _ hu
        exact hu
    | exit p status => exact (hfit trivial).elim
    | wait p => exact (hfit trivial).elim
  | exec p path => exact execName_unfit hfit
  | ipc table => exact (hfit trivial).elim

end Steps

/-- A step whose name fits. -/
def FitStep (m : Machine Names) (act : NameAction) (m' : Machine Names) : Prop :=
  NameStep m act m' ∧ act.Fits m.state

theorem namesInit_inv (imageSize : Pid → Nat) (memorySize : Nat) :
    NameInv (namesInit imageSize memorySize).state := by
  constructor
  · have hall : ∀ p : Pid, kernelMainNames p 15 = 0 := by decide +kernel
    exact hall
  · exact Nat.zero_le _

theorem nameInv_of_run {imageSize : Pid → Nat} {memorySize : Nat} {acts : List NameAction}
    {m : Machine Names} (hr : Run FitStep (namesInit imageSize memorySize) acts m) :
    NameInv m.state := by
  apply hr.invariant (I := fun m => NameInv m.state) (namesInit_inv imageSize memorySize)
  rintro m act m' ⟨⟨_, _, rfl⟩, hfit⟩ h
  rw [Machine.exec_state]
  exact wp_state (h.handle hfit)

/-- In every run whose stores fit, every name fits, and a further step keeps this exactly where
its own name fits. -/
theorem names_of_run {imageSize : Pid → Nat} {memorySize : Nat} {acts : List NameAction}
    {m : Machine Names} (hr : Run FitStep (namesInit imageSize memorySize) acts m) :
    m.state.Ok ∧ ∀ act m', NameStep m act m' → (m'.state.Ok ↔ act.Fits m.state) := by
  have h := nameInv_of_run hr
  refine ⟨h.ok, ?_⟩
  rintro act m' ⟨_, _, rfl⟩
  rw [Machine.exec_state]
  constructor
  · intro hok
    by_contra hfit
    exact wp_state (h.handle_unfit hfit) hok
  · intro hfit
    exact (wp_state (h.handle hfit)).ok

private def bootImage : Machine Names := namesInit (fun _ => 0x100000) 0x2000000

private def forkChain : List NameAction :=
  [init, ⟨7, by decide⟩, ⟨8, by decide⟩, ⟨8, by decide⟩, ⟨10, by decide⟩, ⟨11, by decide⟩].map
    fun p => .request (.fork p)

private def canFork (m : Machine Names) (p : Pid) : Bool :=
  m.stopped = none ∧ nrTasks ≤ p.val ∧ (m.state.mm.procTable p).pFlags.freeSlot = false ∧
    (m.state.mm.procTable p).pFlags.hanging = false ∧
    (m.state.mm.procTable p).pFlags.waiting = false

private def nextFork (m : Machine Names) : NameAction → Option (Machine Names)
  | .request (.fork p) =>
    if canFork m p then some (m.exec (NameAction.request (.fork p)).handle) else none
  | _ => none

private theorem nameStep_of_nextFork (m : Machine Names) (act : NameAction) (m' : Machine Names)
    (h : nextFork m act = some m') : NameStep m act m' := by
  unfold nextFork at h
  split at h
  · rename_i p
    split at h
    · rename_i hc
      cases h
      obtain ⟨hs, hp⟩ := of_decide_eq_true hc
      refine ⟨hs, ⟨hp.1, hp.2.1, hp.2.2.1, hp.2.2.2, ?_⟩, rfl⟩
      intro status hq
      cases hq
    · cases h
  · cases h

/-- INIT forks once; whoever forks or executes next, the names fit exactly where they should. -/
theorem names_of_run_init :
    ∃ m, Run FitStep (namesInit (fun _ => 0x100000) 0x2000000) [.request (.fork init)] m ∧
      (m.state.Ok ∧ ∀ act m', NameStep m act m' → (m'.state.Ok ↔ act.Fits m.state)) := by
  have hnext : nextFork bootImage (.request (.fork init)) =
      some (bootImage.exec (NameAction.request (.fork init)).handle) := by
    have hc : canFork bootImage init = true := by decide +kernel
    rw [nextFork, if_pos hc]
  have hfit : (NameAction.request (.fork init)).Fits bootImage.state := by
    have hall : ∀ pid : Pid, (bootImage.state.text init).length + 1 + (pidDigits pid).length <
        pNameSize := by decide +kernel
    intro pid _ _
    exact hall pid
  have hr : Run FitStep bootImage [.request (.fork init)] _ :=
    .snoc .nil ⟨nameStep_of_nextFork _ _ _ hnext, hfit⟩
  exact ⟨_, hr, names_of_run hr⟩

/-- Six forks deep in a family: the name `INIT_7_8_10_11_12` has 17 characters, and its last one
is stored into `p_flags`. -/
theorem forked_name_overflow : ∃ acts m,
    Run NameStep (namesInit (fun _ => 0x100000) 0x2000000) acts m ∧ ¬ m.state.Ok ∧
      pNameSize < m.state.reach := by
  have hany : (forkChain.foldlM nextFork bootImage).any
      (fun m => pNameSize < m.state.reach) = true := by
    decide +kernel
  obtain ⟨m, hm, hlt⟩ := (Option.any_eq_true _ _).mp hany
  have hr : Run NameStep bootImage forkChain m :=
    Run.of_foldlM nameStep_of_nextFork hm
  have hlt : pNameSize < m.state.reach := of_decide_eq_true hlt
  exact ⟨forkChain, m, hr, fun hok => absurd hok.2 (Nat.not_le.mpr hlt), hlt⟩

end BazingaOS
