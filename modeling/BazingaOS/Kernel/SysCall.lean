import BazingaOS.Lib.Loop
import BazingaOS.Lib.Stack32

/-!
# The way of a system call

The stubs of `lib/syscall.asm` put their arguments into registers, `sys_call` of `kernel/kernel.asm`
pushes registers, and the C functions `sys_sendrec` and `sys_printx` take their parameters from the
stack. `sys_call` pushes `edx` for the third parameter, where `sys_printx` expects its text; the stub
`printx` sets `ebx` only. An interrupt between two instructions leaves the registers as they were.
-/

namespace BazingaOS

open Prog

/-- The processor, and the variables of the kernel that the trap uses: `k_reenter`, `p_proc_ready`
and `sp0` of the task state segment. That `eip` moves on is left out. -/
structure Cpu where
  eax : Word
  ebx : Word
  ecx : Word
  edx : Word
  esi : Word
  edi : Word
  ebp : Word
  esp : Word
  eip : Word
  eflags : Word
  cs : BitVec 16
  ss : BitVec 16
  ds : BitVec 16
  es : BitVec 16
  fs : BitVec 16
  gs : BitVec 16
  ssBase : Word
  ring : Fin 4
  mem : Mem32
  kReenter : Int
  pProcReady : Word
  sp0 : Word

/-- The stack segment of the kernel, the end of its stack, and the two addresses that `save` leaves
for the end of a call. -/
structure Linkage where
  ss0 : BitVec 16
  stackTop : Word
  restart : Word
  restartReenter : Word

/-- A function of the kernel, called with the parameters in its declaration. -/
inductive KernelCall where
  | sysSendrec (function srcDest m p : Word)
  | sysPrintx (unused1 unused2 s proc : Word)
deriving DecidableEq

/-- `syscall_table`, whose other entries are null. -/
def syscallTable (n : Word) : Option (Word → Word → Word → Word → KernelCall) :=
  if n = 0 then some .sysSendrec
  else if n = 1 then some .sysPrintx
  else none

namespace Trap

def push (v : Word) : Prog Cpu Unit :=
  modify fun c => { c with
    esp := c.esp - 4
    mem := store32 c.mem (c.ssBase + (c.esp - 4)) v }

/-- `[esp + k]` -/
def stackWord (k : Word) : Prog Cpu Word := do
  let c ← get
  return load32 c.mem (c.ssBase + (c.esp + k))

def call : Prog Cpu Unit := do push (← get).eip

/-- `int 90h`. A caller in another ring than 0 gets the stack that the task state segment names. -/
def int90 (k : Linkage) : Prog Cpu Unit := do
  let c ← get
  when (c.ring ≠ 0) do
    modify fun c => { c with ss := k.ss0, ssBase := 0, esp := c.sp0, ring := 0 }
    push (c.ss.setWidth 32)
    push c.esp
  push c.eflags
  push (c.cs.setWidth 32)
  push c.eip

def pushad : Prog Cpu Unit := do
  let c ← get
  push c.eax
  push c.ecx
  push c.edx
  push c.ebx
  push c.esp
  push c.ebp
  push c.esi
  push c.edi

/-- The data segments become that of the stack by way of `dx`, while `esi` keeps `edx`. -/
def flatSegments : Prog Cpu Unit := do
  modify fun c => { c with esi := c.edx }
  modify fun c => { c with edx := c.edx.extractLsb' 16 16 ++ c.ss }
  modify fun c => { c with ds := c.edx.setWidth 16, es := c.edx.setWidth 16, fs := c.edx.setWidth 16 }
  modify fun c => { c with edx := c.esi }

def save (k : Linkage) : Prog Cpu Unit := do
  pushad
  push ((← get).ds.setWidth 32)
  push ((← get).es.setWidth 32)
  push ((← get).fs.setWidth 32)
  push ((← get).gs.setWidth 32)
  flatSegments
  modify fun c => { c with esi := c.esp }
  modify fun c => { c with kReenter := c.kReenter + 1 }
  if (← get).kReenter = 0 then
    modify fun c => { c with esp := k.stackTop }
    push k.restart
  else push k.restartReenter

/-- The call that `sys_call` makes. -/
def sysCall (k : Linkage) : Prog Cpu KernelCall := do
  call
  save k
  push (← get).esi
  push (← get).pProcReady
  push (← get).edx
  push (← get).ecx
  push (← get).ebx
  match syscallTable (← get).eax with
  | none => halt .undefined
  | some f =>
    call
    return f (← stackWord 4) (← stackWord 8) (← stackWord 12) (← stackWord 16)

def sendrec (k : Linkage) : Prog Cpu KernelCall := do
  modify fun c => { c with eax := 0 }
  let v ← stackWord 4
  modify fun c => { c with ebx := v }
  let v ← stackWord 8
  modify fun c => { c with ecx := v }
  let v ← stackWord 12
  modify fun c => { c with edx := v }
  int90 k
  sysCall k

def printx (k : Linkage) : Prog Cpu KernelCall := do
  modify fun c => { c with eax := 1 }
  let v ← stackWord 4
  modify fun c => { c with ebx := v }
  int90 k
  sysCall k

/-- A C function calls a stub: the arguments are on the stack, the first one on top. -/
def callSendrec (k : Linkage) (function srcDest m : Word) : Prog Cpu KernelCall := do
  push m
  push srcDest
  push function
  call
  sendrec k

def callPrintx (k : Linkage) (s : Word) : Prog Cpu KernelCall := do
  push s
  call
  printx k

end Trap

/-- What a handler is called with. -/
structure CallRegs where
  eax : Word
  ebx : Word
  ecx : Word
  edx : Word
  pProcReady : Word

def Cpu.callRegs (c : Cpu) : CallRegs := ⟨c.eax, c.ebx, c.ecx, c.edx, c.pProcReady⟩

/-- The words of `l` have been pushed. -/
def Cpu.pushed (c : Cpu) (l : List Word) : Cpu :=
  { c with
    esp := c.esp - BitVec.ofNat 32 (4 * l.length)
    mem := pushWords c.mem (c.ssBase + c.esp) l }

/-- A call of a stub reaches the function of the kernel with its arguments. -/
def ArgumentsReach (k : Linkage) (c : Cpu) (function srcDest m s : Word) : Prop :=
  (∃ p c', Trap.callSendrec k function srcDest m c = .ok (.sysSendrec function srcDest m p) c') ∧
    ∃ u v p c', Trap.callPrintx k s c = .ok (.sysPrintx u v s p) c'

section Pushed

variable (c : Cpu) (l : List Word)

@[simp] theorem Cpu.pushed_eax : (c.pushed l).eax = c.eax := rfl
@[simp] theorem Cpu.pushed_ebx : (c.pushed l).ebx = c.ebx := rfl
@[simp] theorem Cpu.pushed_ecx : (c.pushed l).ecx = c.ecx := rfl
@[simp] theorem Cpu.pushed_edx : (c.pushed l).edx = c.edx := rfl
@[simp] theorem Cpu.pushed_esi : (c.pushed l).esi = c.esi := rfl
@[simp] theorem Cpu.pushed_eip : (c.pushed l).eip = c.eip := rfl
@[simp] theorem Cpu.pushed_pProcReady : (c.pushed l).pProcReady = c.pProcReady := rfl

theorem Cpu.pushed_nil : c.pushed [] = c := by
  rw [Cpu.pushed, pushWords, List.length_nil, Nat.mul_zero, BitVec.sub_zero]

end Pushed

namespace Trap

section Stack

variable {c : Cpu} {l : List Word} {i : Nat} {v : Word}

theorem wp_push_pushed {Q : Unit → Cpu → Prop} {E : Stop → Cpu → Prop} :
    wp (push v) Q E (c.pushed l) ↔ Q () (c.pushed (v :: l)) := by
  have hesp : c.esp - BitVec.ofNat 32 (4 * l.length) - 4 =
      c.esp - BitVec.ofNat 32 (4 * (l.length + 1)) := by bv_omega
  have hplace : c.ssBase + (c.esp - BitVec.ofNat 32 (4 * (l.length + 1))) =
      c.ssBase + c.esp - BitVec.ofNat 32 (4 * (l.length + 1)) := by bv_omega
  have hrun : push v (c.pushed l) = .ok () (c.pushed (v :: l)) := by
    rw [Cpu.pushed, Cpu.pushed, pushWords, List.length_cons, ← hplace, ← hesp]
    rfl
  rw [wp, hrun]

/-- The stack pointer may have wrapped around. -/
theorem wp_stackWord_pushed {k : Word} {Q : Word → Cpu → Prop} {E : Stop → Cpu → Prop}
    (hl : 4 * l.length < 2 ^ 32) (hi : i < l.length) (hk : k = BitVec.ofNat 32 (4 * i)) :
    wp (stackWord k) Q E (c.pushed l) ↔ Q l[i] (c.pushed l) := by
  have hplace : c.ssBase + (c.esp - BitVec.ofNat 32 (4 * l.length) + BitVec.ofNat 32 (4 * i)) =
      c.ssBase + c.esp - BitVec.ofNat 32 (4 * l.length) + BitVec.ofNat 32 (4 * i) := by bv_omega
  have hload := @load32_pushWords c.mem (c.ssBase + c.esp) l i hl hi
  rw [← hplace] at hload
  subst hk
  rw [← hload]
  rfl

end Stack

/-- `p` returns with what a handler is called with as it was. -/
def KeepsCall {α : Type} (p : Prog Cpu α) : Prop :=
  ∀ c, wp p (fun _ c' => c'.callRegs = c.callRegs) (fun _ _ => False) c

namespace KeepsCall

variable {α β : Type}

theorem get : KeepsCall (Prog.get : Prog Cpu Cpu) := fun _ => rfl

theorem modify {f : Cpu → Cpu} (h : ∀ c, (f c).callRegs = c.callRegs) :
    KeepsCall (Prog.modify f) := h

theorem bind {p : Prog Cpu α} {f : α → Prog Cpu β} (hp : KeepsCall p)
    (hf : ∀ a, KeepsCall (f a)) : KeepsCall (p >>= f) := by
  intro c
  rw [wp_bind]
  refine wp_mono (hp c) ?_ fun _ _ h => h
  intro a c₁ h₁
  exact wp_mono (hf a c₁) (fun _ _ h => h.trans h₁) fun _ _ h => h

theorem ite {b : Prop} [Decidable b] {p q : Prog Cpu α} (hp : KeepsCall p) (hq : KeepsCall q) :
    KeepsCall (if b then p else q) := by
  intro c
  rw [wp_ite]
  exact ⟨fun _ => hp c, fun _ => hq c⟩

theorem push (v : Word) : KeepsCall (Trap.push v) := modify fun _ => rfl

theorem call : KeepsCall Trap.call := bind get fun _ => push _

theorem int90 (k : Linkage) : KeepsCall (Trap.int90 k) := by
  refine bind get fun c => bind (ite ?_ fun _ => rfl) fun _ => ?_
  · exact bind (modify fun _ => rfl) fun _ => bind (push _) fun _ => push _
  · exact bind (push _) fun _ => bind (push _) fun _ => push _

theorem pushad : KeepsCall Trap.pushad := by
  refine bind get fun c => bind (push _) fun _ => bind (push _) fun _ => bind (push _) fun _ =>
    bind (push _) fun _ => bind (push _) fun _ => bind (push _) fun _ => bind (push _) fun _ => ?_
  exact push _

theorem flatSegments : KeepsCall Trap.flatSegments := fun _ => rfl

theorem save (k : Linkage) : KeepsCall (Trap.save k) := by
  refine bind pushad fun _ => bind get fun _ => bind (push _) fun _ => bind get fun _ =>
    bind (push _) fun _ => bind get fun _ => bind (push _) fun _ => bind get fun _ =>
    bind (push _) fun _ => bind flatSegments fun _ => bind (modify fun _ => rfl) fun _ =>
    bind (modify fun _ => rfl) fun _ => bind get fun _ => ite ?_ (push _)
  exact bind (modify fun _ => rfl) fun _ => push _

end KeepsCall

section Calls

variable {k : Linkage} {c : Cpu} {f : Word → Word → Word → Word → KernelCall}

/-- The parameters of the handler are what `sys_call` has pushed. -/
theorem sysCall_spec (h : syscallTable c.eax = some f) :
    wp (sysCall k) (fun r _ => r = f c.ebx c.ecx c.edx c.pProcReady) (fun _ _ => False) c := by
  rw [sysCall, wp_bind]
  refine wp_mono (KeepsCall.call c) ?_ fun _ _ h => h
  intro _ c₁ h₁
  rw [wp_bind]
  refine wp_mono (KeepsCall.save k c₁) ?_ fun _ _ h => h
  intro _ c₂ h₂
  have hregs := CallRegs.mk.inj (h₂.trans h₁)
  obtain ⟨heax, hebx, hecx, hedx, hproc⟩ := hregs
  rw [← c₂.pushed_nil]
  simp only [call, wp_bind, wp_get, wp_push_pushed, Cpu.pushed_esi, Cpu.pushed_pProcReady,
    Cpu.pushed_edx, Cpu.pushed_ecx, Cpu.pushed_ebx, Cpu.pushed_eax, heax, h, Cpu.pushed_eip]
  rw [wp_stackWord_pushed (k := 4) (i := 1) (by simp) (by simp) rfl,
    wp_stackWord_pushed (k := 8) (i := 2) (by simp) (by simp) rfl,
    wp_stackWord_pushed (k := 12) (i := 3) (by simp) (by simp) rfl,
    wp_stackWord_pushed (k := 16) (i := 4) (by simp) (by simp) rfl]
  change f c₂.ebx c₂.ecx c₂.edx c₂.pProcReady = _
  rw [hebx, hecx, hedx, hproc]

theorem trap_spec (h : syscallTable c.eax = some f) :
    wp (do int90 k; sysCall k) (fun r _ => r = f c.ebx c.ecx c.edx c.pProcReady)
      (fun _ _ => False) c := by
  rw [wp_bind]
  refine wp_mono (KeepsCall.int90 k c) ?_ fun _ _ h => h
  intro _ c₁ h₁
  obtain ⟨heax, hebx, hecx, hedx, hproc⟩ := CallRegs.mk.inj h₁
  rw [← hebx, ← hecx, ← hedx, ← hproc]
  exact sysCall_spec (heax ▸ h)

/-- The stub `sendrec` sets all registers that `sys_call` pushes for its parameters. -/
theorem callSendrec_eq (k : Linkage) (c : Cpu) (function srcDest m : Word) : ∃ c',
    callSendrec k function srcDest m c = .ok (.sysSendrec function srcDest m c.pProcReady) c' := by
  have hrun : wp (callSendrec k function srcDest m)
      (fun r _ => r = .sysSendrec function srcDest m c.pProcReady) (fun _ _ => False) c := by
    rw [← c.pushed_nil]
    simp only [callSendrec, call, sendrec, wp_bind, wp_get, wp_push_pushed, Cpu.pushed_eip,
      wp_modify]
    change wp (stackWord 4) _ _ (Cpu.pushed { c with eax := 0 } [c.eip, function, srcDest, m])
    rw [wp_stackWord_pushed (k := 4) (i := 1) (by simp) (by simp) rfl]
    change wp (stackWord 8) _ _
      (Cpu.pushed { c with eax := 0, ebx := function } [c.eip, function, srcDest, m])
    rw [wp_stackWord_pushed (k := 8) (i := 2) (by simp) (by simp) rfl]
    change wp (stackWord 12) _ _ (Cpu.pushed { c with eax := 0, ebx := function, ecx := srcDest }
      [c.eip, function, srcDest, m])
    rw [wp_stackWord_pushed (k := 12) (i := 3) (by simp) (by simp) rfl]
    exact (wp_bind _ _).mp (@trap_spec k (Cpu.pushed
      { c with eax := 0, ebx := function, ecx := srcDest, edx := m } [c.eip, function, srcDest, m])
      .sysSendrec rfl)
  obtain ⟨r, c', hok, rfl⟩ := exists_ok_of_wp hrun
  exact ⟨c', hok⟩

/-- The stub `printx` leaves `ecx` and `edx` as its caller had them. -/
theorem callPrintx_eq (k : Linkage) (c : Cpu) (s : Word) :
    ∃ c', callPrintx k s c = .ok (.sysPrintx s c.ecx c.edx c.pProcReady) c' := by
  have hrun : wp (callPrintx k s) (fun r _ => r = .sysPrintx s c.ecx c.edx c.pProcReady)
      (fun _ _ => False) c := by
    rw [← c.pushed_nil]
    simp only [callPrintx, call, printx, wp_bind, wp_get, wp_push_pushed, Cpu.pushed_eip, wp_modify]
    change wp (stackWord 4) _ _ (Cpu.pushed { c with eax := 1 } [c.eip, s])
    rw [wp_stackWord_pushed (k := 4) (i := 1) (by simp) (by simp) rfl]
    exact (wp_bind _ _).mp
      (@trap_spec k (Cpu.pushed { c with eax := 1, ebx := s } [c.eip, s]) .sysPrintx rfl)
  obtain ⟨r, c', hok, rfl⟩ := exists_ok_of_wp hrun
  exact ⟨c', hok⟩

end Calls

end Trap

/-- The text reaches `sys_printx` exactly where `edx` happens to point to it. -/
theorem argumentsReach_iff (k : Linkage) (c : Cpu) (function srcDest m s : Word) :
    ArgumentsReach k c function srcDest m s ↔ c.edx = s := by
  obtain ⟨c₁, hsend⟩ := Trap.callSendrec_eq k c function srcDest m
  obtain ⟨c₂, hprint⟩ := Trap.callPrintx_eq k c s
  constructor
  · rintro ⟨-, u, v, p, c', hreach⟩
    rw [hprint] at hreach
    injection hreach with hcall
    injection hcall
  · rintro rfl
    exact ⟨⟨_, c₁, hsend⟩, _, _, _, c₂, hprint⟩

def clearCpu : Cpu where
  eax := 0
  ebx := 0
  ecx := 0
  edx := 0
  esi := 0
  edi := 0
  ebp := 0
  esp := 0
  eip := 0
  eflags := 0
  cs := 0
  ss := 0
  ds := 0
  es := 0
  fs := 0
  gs := 0
  ssBase := 0
  ring := 1
  mem := fun _ => 0
  kReenter := -1
  pProcReady := 0
  sp0 := 0

/-- It asks for the text at `0x1000`, and `sys_printx` gets the one at 0. -/
theorem not_argumentsReach_clear : ¬ ArgumentsReach ⟨0, 0, 0, 0⟩ clearCpu 0 0 0 0x1000 := by
  rintro ⟨-, u, v, p, c', hreach⟩
  obtain ⟨c₂, hprint⟩ := Trap.callPrintx_eq ⟨0, 0, 0, 0⟩ clearCpu 0x1000
  rw [hprint] at hreach
  injection hreach with hcall
  injection hcall with _ _ hs
  exact absurd hs (by decide)

end BazingaOS
