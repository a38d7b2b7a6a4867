import BazingaOS.Kernel.Effect
import BazingaOS.MM.ForkExit

/-!
# Message passing and the life cycle

The IPC primitives write the message fields and the sending and receiving flags of processes and
nothing else of their records.
-/

namespace BazingaOS

open Prog

section Ipc

variable {table : Pid → Process} {p : Pid}

theorem SameLife.refl (table : Pid → Process) : SameLife table table :=
  ⟨fun _ => rfl, fun _ => rfl, fun _ => rfl, fun _ => rfl, fun _ => rfl, fun _ h => h⟩

/-- The life-cycle fields are those of `table`, and the caller `p` is no free slot. -/
def LifeKept (table : Pid → Process) (p : Pid) (k : Kernel) : Prop :=
  SameLife table k.procTable ∧ (k.procTable p).pFlags.freeSlot = false

/-- A record change that message passing may make. -/
structure LifeFree (g : Process → Process) (r : Process) : Prop where
  waiting : (g r).pFlags.waiting = r.pFlags.waiting
  hanging : (g r).pFlags.hanging = r.pFlags.hanging
  freeSlot : (g r).pFlags.freeSlot = r.pFlags.freeSlot
  parent : (g r).pParent = r.pParent
  exitStatus : (g r).exitStatus = r.exitStatus
  free : r.pFlags = Flags.free → (g r).pFlags = Flags.free

theorem LifeKept.setProc {k : Kernel} {q : Pid} {g : Process → Process} (h : LifeKept table p k)
    (hg : LifeFree g (k.procTable q)) : LifeKept table p (k.setProc q g) := by
  obtain ⟨h, hp⟩ := h
  have happly := k.setProc_apply q
  refine ⟨⟨fun c => ?_, fun c => ?_, fun c => ?_, fun c => ?_, fun c => ?_, fun c hc => ?_⟩, ?_⟩
  all_goals rw [happly]
  all_goals split
  · next hc => rw [hg.waiting, ← hc, h.waiting]
  · exact h.waiting c
  · next hc => rw [hg.hanging, ← hc, h.hanging]
  · exact h.hanging c
  · next hc => rw [hg.freeSlot, ← hc, h.freeSlot]
  · exact h.freeSlot c
  · next hc => rw [hg.parent, ← hc, h.parent]
  · exact h.parent c
  · next hc => rw [hg.exitStatus, ← hc, h.exitStatus]
  · exact h.exitStatus c
  · next hcq => exact hg.free (hcq ▸ h.free c hc)
  · exact h.free c hc
  · next hc => rw [hg.freeSlot, ← hc, hp]
  · exact hp

theorem keeps_setProc {q : Pid} {g : Process → Process} (hg : ∀ r, LifeFree g r) :
    Keeps (LifeKept table p) (setProc q g) :=
  keeps_modify fun _ h => h.setProc (hg _)

theorem keeps_setProc_caller {g : Process → Process}
    (hg : ∀ r, r.pFlags.freeSlot = false → LifeFree g r) :
    Keeps (LifeKept table p) (setProc p g) :=
  keeps_modify fun _ h => h.setProc (hg _ h.2)

theorem keeps_storeMessage (q : Pid) (a : Option Addr) (v : Message) :
    Keeps (LifeKept table p) (storeMessage q a v) := by
  cases a with
  | none => exact keeps_halt _
  | some a => exact keeps_modify fun _ h => h

theorem keeps_copyMessage (q r : Pid) (a b : Option Addr) :
    Keeps (LifeKept table p) (copyMessage q a r b) :=
  keeps_bind (keeps_loadMessage r b) fun _ => keeps_storeMessage q a _

theorem lifeFree_fields {g : Process → Process} (hf : ∀ r, (g r).pFlags = r.pFlags)
    (hp : ∀ r, (g r).pParent = r.pParent) (he : ∀ r, (g r).exitStatus = r.exitStatus)
    (r : Process) : LifeFree g r where
  waiting := by rw [hf]
  hanging := by rw [hf]
  freeSlot := by rw [hf]
  parent := hp r
  exitStatus := he r
  free := by rw [hf]; exact id

theorem lifeFree_clear {g : Process → Process}
    (hf : ∀ r, (g r).pFlags = { r.pFlags with sending := false } ∨
      (g r).pFlags = { r.pFlags with receiving := false })
    (hp : ∀ r, (g r).pParent = r.pParent) (he : ∀ r, (g r).exitStatus = r.exitStatus)
    (r : Process) : LifeFree g r := by
  constructor
  case parent => exact hp r
  case exitStatus => exact he r
  case free =>
    intro h
    rcases hf r with hr | hr <;> rw [hr, h] <;> rfl
  all_goals rcases hf r with hr | hr <;> rw [hr]

theorem lifeFree_set {g : Process → Process}
    (hf : ∀ r, (g r).pFlags = { r.pFlags with sending := true } ∨
      (g r).pFlags = { r.pFlags with receiving := true })
    (hp : ∀ r, (g r).pParent = r.pParent) (he : ∀ r, (g r).exitStatus = r.exitStatus)
    (r : Process) (hr : r.pFlags.freeSlot = false) : LifeFree g r := by
  constructor
  case parent => exact hp r
  case exitStatus => exact he r
  case free =>
    intro h
    rw [h] at hr
    cases hr
  all_goals rcases hf r with hr | hr <;> rw [hr]

theorem keeps_sendDirect (dst : Pid) (m : Option Addr) :
    Keeps (LifeKept table p) (sendDirect p dst m) := by
  unfold sendDirect
  repeat' first
    | exact keeps_procOf _
    | exact keeps_check _
    | exact keeps_unblock _
    | exact keeps_copyMessage _ _ _ _
    | exact keeps_setProc (lifeFree_fields (fun _ => rfl) (fun _ => rfl) (fun _ => rfl))
    | exact keeps_setProc (lifeFree_clear (fun _ => .inr rfl) (fun _ => rfl) (fun _ => rfl))
    | refine keeps_bind ?_ fun _ => ?_

theorem keeps_sendQueue (dst : Pid) (m : Option Addr) :
    Keeps (LifeKept table p) (sendQueue p dst m) := by
  unfold sendQueue
  refine keeps_bind (keeps_procOf _) fun d => ?_
  refine keeps_bind (keeps_setProc_caller
    (lifeFree_set (fun _ => .inl rfl) (fun _ => rfl) (fun _ => rfl))) fun _ => ?_
  repeat' first
    | exact keeps_procOf _
    | exact keeps_check _
    | exact keeps_block _
    | exact keeps_findTail _ _
    | exact keeps_setProc (lifeFree_fields (fun _ => rfl) (fun _ => rfl) (fun _ => rfl))
    | refine keeps_bind ?_ fun _ => ?_
    | split

theorem keeps_msgSend (dst : Pid) (m : Option Addr) :
    Keeps (LifeKept table p) (msgSend p dst m) := by
  refine keeps_bind (keeps_check _) fun _ => keeps_bind (keeps_deadlockWalk _ _ _) fun _ =>
    keeps_ite (fun _ => keeps_halt _) fun _ => keeps_bind (keeps_procOf _) fun _ =>
    keeps_ite (fun _ => keeps_sendDirect _ _) fun _ => keeps_sendQueue _ _

theorem keeps_takeMessage (fr : Pid) (prev : Option Pid) (m : Option Addr) :
    Keeps (LifeKept table p) (takeMessage p fr prev m) := by
  unfold takeMessage
  repeat' first
    | exact keeps_procOf _
    | exact keeps_check _
    | exact keeps_halt _
    | exact keeps_unblock _
    | exact keeps_copyMessage _ _ _ _
    | exact keeps_setProc (lifeFree_fields (fun _ => rfl) (fun _ => rfl) (fun _ => rfl))
    | exact keeps_setProc (lifeFree_clear (fun _ => .inl rfl) (fun _ => rfl) (fun _ => rfl))
    | refine keeps_bind ?_ fun _ => ?_
    | refine keeps_ite (fun _ => ?_) (fun _ => ?_)
    | split

theorem keeps_waitMessage (src : Endpoint) (m : Option Addr) :
    Keeps (LifeKept table p) (waitMessage p src m) := by
  unfold waitMessage
  repeat' first
    | exact keeps_procOf _
    | exact keeps_check _
    | exact keeps_block _
    | exact keeps_setProc (lifeFree_fields (fun _ => rfl) (fun _ => rfl) (fun _ => rfl))
    | exact keeps_setProc_caller (lifeFree_set (fun _ => .inr rfl) (fun _ => rfl) (fun _ => rfl))
    | refine keeps_bind ?_ fun _ => ?_

theorem keeps_takeInterrupt (m : Option Addr) :
    Keeps (LifeKept table p) (takeInterrupt p m) := by
  unfold takeInterrupt
  repeat' first
    | exact keeps_procOf _
    | exact keeps_check _
    | exact keeps_storeMessage _ _ _
    | exact keeps_setProc (lifeFree_fields (fun _ => rfl) (fun _ => rfl) (fun _ => rfl))
    | refine keeps_bind ?_ fun _ => ?_

theorem keeps_waitInterrupt (m : Option Addr) :
    Keeps (LifeKept table p) (waitInterrupt p m) := by
  unfold waitInterrupt
  repeat' first
    | exact keeps_block _
    | exact keeps_setProc (lifeFree_fields (fun _ => rfl) (fun _ => rfl) (fun _ => rfl))
    | exact keeps_setProc_caller (lifeFree_set (fun _ => .inr rfl) (fun _ => rfl) (fun _ => rfl))
    | refine keeps_bind ?_ fun _ => ?_

theorem keeps_msgReceive (src : Endpoint) (m : Option Addr) :
    Keeps (LifeKept table p) (msgReceive p src m) := by
  refine keeps_bind (keeps_check _) fun _ => keeps_bind (keeps_procOf _) fun w =>
    keeps_ite (fun _ => keeps_takeInterrupt _) fun _ => ?_
  cases src with
  | interrupt => exact keeps_waitInterrupt _
  | any =>
    dsimp only
    split
    · exact keeps_bind (keeps_checkReceive _ _) fun _ => keeps_takeMessage _ _ _
    · exact keeps_waitMessage _ _
  | proc s =>
    refine keeps_bind (keeps_procOf _) fun f => keeps_ite (fun _ => ?_)
      fun _ => keeps_waitMessage _ _
    exact keeps_bind (keeps_check _) fun _ => keeps_bind (keeps_findSender _ _ _ _) fun _ =>
      keeps_bind (keeps_checkReceive _ _) fun _ => keeps_takeMessage _ _ _
  | noTask => exact keeps_halt _

/-- A call of `sys_sendrec` by a slot in use leaves the life cycle alone: it is one of the steps
that `MmStep` allows between two requests. -/
theorem sysSendrec_sameLife (k : Kernel) (f : SysFunction) (e : Endpoint) (m : Option Addr)
    (hp : (k.procTable p).pFlags.freeSlot = false) :
    SameLife k.procTable ((sysSendrec f e m p) k).state.procTable := by
  have hk : Keeps (LifeKept k.procTable p) (sysSendrec f e m p) := by
    refine keeps_bind (keeps_check _) fun _ => keeps_bind (keeps_loadMessage _ _) fun v =>
      keeps_bind (keeps_storeMessage _ _ _) fun _ => ?_
    cases f with
    | send =>
      cases e with
      | proc d => exact keeps_msgSend _ _
      | any => exact keeps_halt _
      | interrupt => exact keeps_halt _
      | noTask => exact keeps_halt _
    | receive => exact keeps_msgReceive _ _
    | other => exact keeps_halt _
  exact (wp_state (hk k ⟨SameLife.refl _, hp⟩)).1

end Ipc

end BazingaOS
