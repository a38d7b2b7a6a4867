import BazingaOS.Kernel.Effect
import BazingaOS.Kernel.IpcSystem

/-!
# The handshake between processes and MM

`send_rec(BOTH, TASK_MM, m)` is two system calls, and the scheduler may run any process between
them. This is the system of MM's loop, the processes that call it and every other use of the IPC
primitives. The exchanges of MM with FS inside a handler are no steps here: they end with MM
runnable and touch no other record. `do_exit` and `do_wait` appear through what they may do: they
answer a pending `WAIT`, change life-cycle fields, and free the slots of exited processes.
-/

namespace BazingaOS

open Prog

/-- Where a process stands in `send_rec(BOTH, TASK_MM, m)`: outside, between the two calls, in
the second call, or exited. -/
inductive UserPc where
  | user
  | between (a : Addr)
  | waiting
  | dead
deriving DecidableEq, Repr

/-- Where MM stands in its loop. -/
inductive MmPc where
  | top
  | receive
  | fork (parent child : Pid)
  | exec (p : Pid)
  | reply (p : Pid)
  | other
deriving DecidableEq, Repr

/-- The addresses of `msg` in `task_mm`, of `child_msg` in `do_fork` and of the replies of
`do_wait` and `cleanup`. -/
def mmMsg : Addr := 0
def mmChildMsg : Addr := 1
def mmOtherMsg : Addr := 2

/-- `request p` is the type of the request of `p` that MM has not answered. -/
structure Handshake where
  kernel : Kernel
  pc : Pid → UserPc
  request : Pid → Option MsgType
  mm : MmPc

inductive HsAction where
  | call (p : Pid) (a : Addr) (v : Message)
  | receive (p : Pid) (a : Addr)
  | resume (p : Pid)
  | ipc (act : IpcAction)
  | mmReceive
  | mmTake
  | mmChild
  | execDone (ok : Bool)
  | mmReply
  | otherSend (q : Pid) (v : Message)
  | otherLife (z : Pid) (r : Process)
  | otherFree (z : Pid)
  | otherDone

namespace Handshake

def flags (t : Handshake) (p : Pid) : Flags := (t.kernel.procTable p).pFlags

/-- `p` is blocked in a `RECEIVE` from MM. -/
def Blocked (t : Handshake) (p : Pid) : Prop :=
  (t.flags p).receiving = true ∧ (t.kernel.procTable p).pRecvfrom = .proc taskMm

instance (t : Handshake) (p : Pid) : Decidable (t.Blocked p) :=
  inferInstanceAs (Decidable (_ ∧ _))

/-- The first half of `send_rec(BOTH, TASK_MM, a)`. -/
def callProg (p : Pid) (a : Addr) (v : Message) : Prog Kernel Unit := do
  modify fun k => k.setMem p a v
  sysSendrec .send (.proc taskMm) (some a) p

/-- `send_rec(RECEIVE, ANY, &msg)`, with the `memset` of the buffer. -/
def mmReceiveProg : Prog Kernel Unit := do
  modify fun k => k.setMem taskMm mmMsg {}
  sysSendrec .receive .any (some mmMsg) taskMm

/-- A `SEND` of MM from one of its buffers. -/
def mmSendProg (d : Pid) (a : Addr) (v : Message) : Prog Kernel Unit := do
  modify fun k => k.setMem taskMm a v
  sysSendrec .send (.proc d) (some a) taskMm

/-- The copies that `do_fork` makes for the child in slot `c`. -/
def copySlot (k : Kernel) (p c : Pid) : Kernel where
  procTable := Function.update k.procTable c { k.procTable p with pParent := .proc p }
  mem := Function.update k.mem c (k.mem p)

def freeSlot (k : Kernel) : Option Pid :=
  (List.finRange nrSlots).find? fun i => (k.procTable i).pFlags = Flags.free

/-- MM goes on from its `RECEIVE` into a handler; `none` is its panic. -/
def take (t : Handshake) : Option Handshake :=
  let m := t.kernel.mem taskMm mmMsg
  match m.source with
  | .proc p =>
    match m.type with
    | .fork =>
      match freeSlot t.kernel with
      | none => some { t with mm := .reply p }
      | some c => some
        { kernel := copySlot t.kernel p c
          pc := Function.update t.pc c (t.pc p)
          request := Function.update t.request c (some .fork)
          mm := .fork p c }
    | .exec => some { t with mm := .exec p }
    | .exit => some
      { t with
        pc := Function.update t.pc p .dead
        request := Function.update t.request p none
        mm := .other }
    | .wait => some { t with mm := .other }
    | _ => none
  | _ => none

/-- A successful `do_exec` overwrites the saved registers: a process outside the kernel goes on
in its new program. -/
def execPc (ok : Bool) : UserPc → UserPc
  | .between a => if ok then .user else .between a
  | pc => pc

/-- Message fields that the life-cycle functions leave alone. -/
def SameIpc (r r' : Process) : Prop :=
  r'.pFlags.sending = r.pFlags.sending ∧ r'.pFlags.receiving = r.pFlags.receiving ∧
    r'.pMsg = r.pMsg ∧ r'.pRecvfrom = r.pRecvfrom ∧ r'.pSendto = r.pSendto

end Handshake

open Handshake

/-- The IPC calls of processes that are not talking to MM. -/
def OtherIpc (t : Handshake) : IpcAction → Prop
  | .send s d _ _ => s ≠ taskMm ∧ d ≠ taskMm ∧ t.pc s = .user ∧ t.flags s = 0
  | .receive r _ _ _ => r ≠ taskMm ∧ t.pc r = .user ∧ t.flags r = 0
  | .inform u => u.val < nrTasks

/-- One step of a process, of MM or of an interrupt. A process runs only while its flags are 0;
a call that stops the machine is no step. -/
inductive HsStep : Handshake → HsAction → Handshake → Prop
  | call {t : Handshake} {p : Pid} {a : Addr} {v : Message} {k' : Kernel}
      (hp : p ≠ taskMm) (hpc : t.pc p = .user) (hf : t.flags p = 0)
      (hrun : callProg p a v t.kernel = .ok () k') :
      HsStep t (.call p a v)
        { t with
          kernel := k'
          pc := Function.update t.pc p (.between a)
          request := Function.update t.request p (some v.type) }
  | receive {t : Handshake} {p : Pid} {a : Addr} {k' : Kernel}
      (hpc : t.pc p = .between a) (hf : t.flags p = 0)
      (hrun : sysSendrec .receive (.proc taskMm) (some a) p t.kernel = .ok () k') :
      HsStep t (.receive p a)
        { t with kernel := k', pc := Function.update t.pc p .waiting }
  | resume {t : Handshake} {p : Pid} (hpc : t.pc p = .waiting) (hf : t.flags p = 0) :
      HsStep t (.resume p) { t with pc := Function.update t.pc p .user }
  | ipc {t : Handshake} {act : IpcAction} {k' : Kernel} (hact : OtherIpc t act)
      (hrun : act.prog t.kernel = .ok () k') : HsStep t (.ipc act) { t with kernel := k' }
  | mmReceive {t : Handshake} {k' : Kernel} (hmm : t.mm = .top) (hf : t.flags taskMm = 0)
      (hrun : mmReceiveProg t.kernel = .ok () k') :
      HsStep t .mmReceive { t with kernel := k', mm := .receive }
  | mmTake {t t' : Handshake} (hmm : t.mm = .receive) (hf : t.flags taskMm = 0)
      (ht : t.take = some t') : HsStep t .mmTake t'
  | mmChild {t : Handshake} {p c : Pid} {k' : Kernel} (hmm : t.mm = .fork p c)
      (hf : t.flags taskMm = 0)
      (hrun : mmSendProg c mmChildMsg { type := .syscallRet } t.kernel = .ok () k') :
      HsStep t .mmChild
        { t with kernel := k', request := Function.update t.request c none, mm := .reply p }
  | execDone {t : Handshake} {p : Pid} {ok : Bool} (hmm : t.mm = .exec p)
      (hf : t.flags taskMm = 0) :
      HsStep t (.execDone ok)
        { t with pc := Function.update t.pc p (execPc ok (t.pc p)), mm := .reply p }
  | mmReply {t : Handshake} {p : Pid} {k' : Kernel} (hmm : t.mm = .reply p)
      (hf : t.flags taskMm = 0)
      (hrun : mmSendProg p mmMsg { t.kernel.mem taskMm mmMsg with type := .syscallRet } t.kernel =
        .ok () k') :
      HsStep t .mmReply
        { t with kernel := k', request := Function.update t.request p none, mm := .top }
  | otherSend {t : Handshake} {q : Pid} {v : Message} {k' : Kernel} (hmm : t.mm = .other)
      (hf : t.flags taskMm = 0) (hq : t.request q = some .wait)
      (hs : (t.flags q).sending = false)
      (hrun : mmSendProg q mmOtherMsg v t.kernel = .ok () k') :
      HsStep t (.otherSend q v)
        { t with kernel := k', request := Function.update t.request q none }
  | otherLife {t : Handshake} {z : Pid} {r : Process} (hmm : t.mm = .other)
      (hf : t.flags taskMm = 0) (hr : SameIpc (t.kernel.procTable z) r)
      (hz : t.request z = some .wait ∨ t.pc z = .dead ∨ r.pFlags = t.flags z) :
      HsStep t (.otherLife z r) { t with kernel := t.kernel.setProc z fun _ => r }
  | otherFree {t : Handshake} {z : Pid} (hmm : t.mm = .other) (hf : t.flags taskMm = 0)
      (hz : t.pc z = .dead) :
      HsStep t (.otherFree z)
        { t with kernel := t.kernel.setProc z fun r => { r with pFlags := Flags.free } }
  | otherDone {t : Handshake} (hmm : t.mm = .other) (hf : t.flags taskMm = 0) :
      HsStep t .otherDone { t with mm := .top }

/-- The system that `kernel_main` starts. -/
def hsInit (mem : Pid → Addr → Message) : Handshake where
  kernel := kernelMain mem
  pc _ := .user
  request _ := none
  mm := .top

def MmPc.serves (mm : MmPc) (p : Pid) : Prop :=
  mm = .exec p ∨ mm = .reply p ∨ ∃ c, mm = .fork p c

/-- The message that MM has received: the unanswered request of a process that has not yet
returned from its call, or the report of an interrupt. -/
def Taken (core : Pid → Process) (mem : Pid → Addr → Message) (pc : Pid → UserPc)
    (request : Pid → Option MsgType) : Prop :=
  (mem taskMm mmMsg).source = .interrupt ∨
    ∃ p, (mem taskMm mmMsg).source = .proc p ∧ p ≠ taskMm ∧
      request p = some (mem taskMm mmMsg).type ∧ (core p).pFlags.sending = false ∧
      (pc p = .waiting ∨ ∃ a, pc p = .between a)

structure HsInv (core : Pid → Process) (mem : Pid → Addr → Message) (pc : Pid → UserPc)
    (request : Pid → Option MsgType) (mm : MmPc) : Prop where
  mmUser : pc taskMm = .user
  user : ∀ p, pc p = .user → request p = none
  dead : ∀ p, pc p = .dead → request p = none
  waiting : ∀ p, pc p = .waiting → request p ≠ none →
    (core p).pFlags.receiving = true ∧ (core p).pRecvfrom = .proc taskMm
  reply : ∀ p, (core taskMm).pFlags.sending = true → (core taskMm).pSendto = .proc p →
    request p = none ∧ ∃ a, pc p = .between a
  queued : ∀ f, (core f).pFlags.sending = true → (core f).pSendto = .proc taskMm →
    (core f).pFlags.receiving = false ∧ ∃ a b, pc f = .between a ∧ (core f).pMsg = some b ∧
      (mem f b).source = .proc f ∧ request f = some (mem f b).type
  idle : mm ≠ .receive → (core taskMm).pFlags.receiving = false
  blocked : (core taskMm).pFlags.receiving = true → (core taskMm).pFlags.sending = false ∧
    (core taskMm).pRecvfrom = .any ∧ (core taskMm).pMsg = some mmMsg
  taken : mm = .receive → (core taskMm).pFlags.receiving = false → Taken core mem pc request
  handler : ∀ p, mm.serves p → pc p = .waiting ∧ request p ≠ none
  child : ∀ p c, mm = .fork p c → c ≠ p ∧ pc c = .waiting ∧ request c ≠ none

def Handshake.Inv (t : Handshake) : Prop :=
  HsInv t.kernel.cores t.kernel.mem t.pc t.request t.mm

section Steps

variable {core core' : Pid → Process} {mem mem' : Pid → Addr → Message} {pc : Pid → UserPc}
variable {request : Pid → Option MsgType} {mm : MmPc} {p q d f : Pid} {a b : Addr}

namespace HsInv

theorem congr (h : HsInv core mem pc request mm) (hc : ∀ p, SameIpc (core p) (core' p)) :
    HsInv core' mem pc request mm := by
  have h₁ : ∀ p, (core' p).pFlags.sending = (core p).pFlags.sending := fun p => (hc p).1
  have h₂ : ∀ p, (core' p).pFlags.receiving = (core p).pFlags.receiving := fun p => (hc p).2.1
  have h₃ : ∀ p, (core' p).pMsg = (core p).pMsg := fun p => (hc p).2.2.1
  have h₄ : ∀ p, (core' p).pRecvfrom = (core p).pRecvfrom := fun p => (hc p).2.2.2.1
  have h₅ : ∀ p, (core' p).pSendto = (core p).pSendto := fun p => (hc p).2.2.2.2
  refine ⟨h.mmUser, h.user, h.dead, ?_, ?_, ?_, ?_, ?_, ?_, h.handler, h.child⟩
  all_goals simp only [Taken, h₁, h₂, h₃, h₄, h₅]
  · exact h.waiting
  · exact h.reply
  · exact h.queued
  · exact h.idle
  · exact h.blocked
  · exact h.taken

theorem setMem (h : HsInv core mem pc request mm) (hq : q ≠ taskMm)
    (hs : (core q).pFlags.sending = true → (core q).pSendto ≠ .proc taskMm) (g : Addr → Message) :
    HsInv core (Function.update mem q g) pc request mm where
  mmUser := h.mmUser
  user := h.user
  dead := h.dead
  waiting := h.waiting
  reply := h.reply
  queued f hf ht := by
    have hfq : f ≠ q := by
      rintro rfl
      exact hs hf ht
    rw [Function.update_of_ne hfq]
    exact h.queued f hf ht
  idle := h.idle
  blocked := h.blocked
  taken hm hr := by
    unfold Taken
    rw [Function.update_of_ne (Ne.symm hq)]
    exact h.taken hm hr
  handler := h.handler
  child := h.child

theorem setMem_mm (h : HsInv core mem pc request mm) (hmm : mm ≠ .receive) (g : Addr → Message)
    (hs : (core taskMm).pFlags.sending = false) :
    HsInv core (Function.update mem taskMm g) pc request mm where
  mmUser := h.mmUser
  user := h.user
  dead := h.dead
  waiting := h.waiting
  reply := h.reply
  queued f hf ht := by
    have hfq : f ≠ taskMm := by
      rintro rfl
      rw [hs] at hf
      cases hf
    rw [Function.update_of_ne hfq]
    exact h.queued f hf ht
  idle := h.idle
  blocked := h.blocked
  taken hm := absurd hm hmm
  handler := h.handler
  child := h.child

theorem setCore (h : HsInv core mem pc request mm) (hq : q ≠ taskMm) {r : Process}
    (hr : pc q = .waiting → request q ≠ none → r.pFlags.receiving = true ∧
      r.pRecvfrom = .proc taskMm)
    (hs : r.pFlags.sending = true → r.pSendto ≠ .proc taskMm)
    (ht : (pc q = .waiting ∨ ∃ a, pc q = .between a) → (core q).pFlags.sending = false →
      r.pFlags.sending = false) :
    HsInv (Function.update core q r) mem pc request mm where
  mmUser := h.mmUser
  user := h.user
  dead := h.dead
  waiting p hp hreq := by
    by_cases hpq : p = q
    · subst hpq
      rw [Function.update_self]
      exact hr hp hreq
    · rw [Function.update_of_ne hpq]
      exact h.waiting p hp hreq
  reply := by
    rw [Function.update_of_ne (Ne.symm hq)]
    exact h.reply
  queued f hf hto := by
    by_cases hfq : f = q
    · subst hfq
      rw [Function.update_self] at hf hto
      exact absurd hto (hs hf)
    · rw [Function.update_of_ne hfq] at hf hto ⊢
      exact h.queued f hf hto
  idle := by
    rw [Function.update_of_ne (Ne.symm hq)]
    exact h.idle
  blocked := by
    rw [Function.update_of_ne (Ne.symm hq)]
    exact h.blocked
  taken hm hrec := by
    rw [Function.update_of_ne (Ne.symm hq)] at hrec
    rcases h.taken hm hrec with hint | ⟨p, h₁, h₂, h₃, h₄, h₅⟩
    · exact .inl hint
    · refine .inr ⟨p, h₁, h₂, h₃, ?_, h₅⟩
      by_cases hpq : p = q
      · subst hpq
        rw [Function.update_self]
        exact ht h₅ h₄
      · rw [Function.update_of_ne hpq]
        exact h₄
  handler := h.handler
  child := h.child

theorem setPc (h : HsInv core mem pc request mm) (hp : p ≠ taskMm) {v : UserPc}
    {w : Option MsgType} (huser : v = .user → w = none) (hdead : v = .dead → w = none)
    (hwait : v = .waiting → w ≠ none → (core p).pFlags.receiving = true ∧
      (core p).pRecvfrom = .proc taskMm)
    (hreply : (core taskMm).pFlags.sending = true → (core taskMm).pSendto = .proc p →
      w = none ∧ ∃ a, v = .between a)
    (hs : (core p).pFlags.sending = true → (core p).pSendto ≠ .proc taskMm)
    (htaken : mm = .receive → (mem taskMm mmMsg).source = .proc p →
      request p = some (mem taskMm mmMsg).type →
      w = request p ∧ (v = .waiting ∨ ∃ a, v = .between a))
    (hserve : mm.serves p ∨ (∃ q, mm = .fork q p) → v = .waiting ∧ w ≠ none) :
    HsInv core mem (Function.update pc p v) (Function.update request p w) mm where
  mmUser := by
    rw [Function.update_of_ne (Ne.symm hp)]
    exact h.mmUser
  user q hq := by
    by_cases hqp : q = p
    · subst hqp
      rw [Function.update_self] at hq ⊢
      exact huser hq
    · rw [Function.update_of_ne hqp] at hq ⊢
      exact h.user q hq
  dead q hq := by
    by_cases hqp : q = p
    · subst hqp
      rw [Function.update_self] at hq ⊢
      exact hdead hq
    · rw [Function.update_of_ne hqp] at hq ⊢
      exact h.dead q hq
  waiting q hq hreq := by
    by_cases hqp : q = p
    · subst hqp
      rw [Function.update_self] at hq hreq
      exact hwait hq hreq
    · rw [Function.update_of_ne hqp] at hq hreq
      exact h.waiting q hq hreq
  reply q hsend hto := by
    by_cases hqp : q = p
    · subst hqp
      rw [Function.update_self, Function.update_self]
      exact hreply hsend hto
    · rw [Function.update_of_ne hqp, Function.update_of_ne hqp]
      exact h.reply q hsend hto
  queued f hf hto := by
    have hfp : f ≠ p := by
      rintro rfl
      exact hs hf hto
    rw [Function.update_of_ne hfp, Function.update_of_ne hfp]
    exact h.queued f hf hto
  idle := h.idle
  blocked := h.blocked
  taken hm hr := by
    rcases h.taken hm hr with hint | ⟨q, h₁, h₂, h₃, h₄, h₅⟩
    · exact .inl hint
    · refine .inr ⟨q, h₁, h₂, ?_, h₄, ?_⟩
      all_goals
        by_cases hqp : q = p
        · subst hqp
          obtain ⟨hw, hv⟩ := htaken hm h₁ h₃
          rw [Function.update_self]
          first
            | exact hw.trans h₃
            | exact hv
        · rw [Function.update_of_ne hqp]
          first
            | exact h₃
            | exact h₅
  handler q hq := by
    by_cases hqp : q = p
    · subst hqp
      rw [Function.update_self, Function.update_self]
      exact hserve (.inl hq)
    · rw [Function.update_of_ne hqp, Function.update_of_ne hqp]
      exact h.handler q hq
  child q c hc := by
    obtain ⟨h₁, h₂, h₃⟩ := h.child q c hc
    by_cases hcp : c = p
    · subst hcp
      rw [Function.update_self, Function.update_self]
      exact ⟨h₁, hserve (.inr ⟨q, hc⟩)⟩
    · rw [Function.update_of_ne hcp, Function.update_of_ne hcp]
      exact ⟨h₁, h₂, h₃⟩

theorem setMm (h : HsInv core mem pc request mm) (mm' : MmPc) {r : Process}
    (hsend : r.pFlags.sending = true → ∀ p, r.pSendto = .proc p →
      request p = none ∧ ∃ a, pc p = .between a)
    (hs : r.pFlags.sending = true → r.pSendto ≠ .proc taskMm)
    (hr : r.pFlags.receiving = false)
    (htaken : mm' = .receive → Taken core mem pc request)
    (hhandler : ∀ p, mm'.serves p → pc p = .waiting ∧ request p ≠ none)
    (hchild : ∀ p c, mm' = .fork p c → c ≠ p ∧ pc c = .waiting ∧ request c ≠ none) :
    HsInv (Function.update core taskMm r) mem pc request mm' where
  mmUser := h.mmUser
  user := h.user
  dead := h.dead
  waiting p hp hreq := by
    have hpm : p ≠ taskMm := by
      rintro rfl
      rw [h.mmUser] at hp
      cases hp
    rw [Function.update_of_ne hpm]
    exact h.waiting p hp hreq
  reply p := by
    rw [Function.update_self]
    exact fun hf => hsend hf p
  queued f hf hto := by
    by_cases hfm : f = taskMm
    · subst hfm
      rw [Function.update_self] at hf hto
      exact absurd hto (hs hf)
    · rw [Function.update_of_ne hfm] at hf hto ⊢
      exact h.queued f hf hto
  idle _ := by rw [Function.update_self, hr]
  blocked hrec := by
    rw [Function.update_self, hr] at hrec
    cases hrec
  taken hm _ := by
    rcases htaken hm with hint | ⟨q, h₁, h₂, h₃, h₄, h₅⟩
    · exact .inl hint
    · refine .inr ⟨q, h₁, h₂, h₃, ?_, h₅⟩
      rw [Function.update_of_ne h₂]
      exact h₄
  handler := hhandler
  child := hchild

theorem moveMm (h : HsInv core mem pc request mm) (mm' : MmPc)
    (hf : (core taskMm).pFlags = 0) (htaken : mm' = .receive → Taken core mem pc request)
    (hhandler : ∀ p, mm'.serves p → pc p = .waiting ∧ request p ≠ none)
    (hchild : ∀ p c, mm' = .fork p c → c ≠ p ∧ pc c = .waiting ∧ request c ≠ none) :
    HsInv core mem pc request mm' := by
  have hs : (core taskMm).pFlags.sending = true → False := by
    intro hs
    rw [hf] at hs
    cases hs
  have hmm := h.setMm mm' (r := core taskMm) (fun hs' => (hs hs').elim)
    (fun hs' => (hs hs').elim) (by rw [hf]; rfl) htaken hhandler hchild
  rwa [Function.update_eq_self] at hmm

theorem wakeMm (h : HsInv core mem pc request mm) (hr : (core taskMm).pFlags.receiving = true)
    {r : Process} {g : Addr → Message} (hs : r.pFlags.sending = (core taskMm).pFlags.sending)
    (hrec : r.pFlags.receiving = false)
    (htaken : Taken core (Function.update mem taskMm g) pc request) :
    HsInv (Function.update core taskMm r) (Function.update mem taskMm g) pc request mm := by
  have hmm : mm = .receive := by
    by_contra hne
    rw [h.idle hne] at hr
    cases hr
  have hsend : r.pFlags.sending = true → False := by
    intro hs'
    rw [hs, (h.blocked hr).1] at hs'
    cases hs'
  have hcore := h.setMm .top (r := r) (fun hs' => (hsend hs').elim)
    (fun hs' => (hsend hs').elim) hrec (by simp) (by simp [MmPc.serves]) (by simp)
  have hmem := hcore.setMem_mm (by simp) g (by
    rw [Function.update_self]
    exact Bool.eq_false_iff.mpr hsend)
  have htaken' : Taken (Function.update core taskMm r) (Function.update mem taskMm g) pc
      request := by
    rcases htaken with hint | ⟨q, h₁, h₂, h₃, h₄, h₅⟩
    · exact .inl hint
    · exact .inr ⟨q, h₁, h₂, h₃, by rw [Function.update_of_ne h₂]; exact h₄, h₅⟩
  have hback := hmem.setMm mm (r := r) (fun hs' => (hsend hs').elim)
    (fun hs' => (hsend hs').elim) hrec (fun _ => htaken') h.handler h.child
  rwa [Function.update_idem] at hback

theorem blockMm (h : HsInv core mem pc request mm) {r : Process}
    (hs : r.pFlags.sending = false) (hr : r.pFlags.receiving = true)
    (hfrom : r.pRecvfrom = .any) (hmsg : r.pMsg = some mmMsg) :
    HsInv (Function.update core taskMm r) mem pc request .receive := by
  refine ⟨h.mmUser, h.user, h.dead, fun p hp hreq => ?_, fun p hs' => ?_, fun f hf hto => ?_,
    by simp, fun _ => ?_, fun _ hrec => ?_, by simp [MmPc.serves], by simp⟩
  · have hpm : p ≠ taskMm := by
      rintro rfl
      rw [h.mmUser] at hp
      cases hp
    rw [Function.update_of_ne hpm]
    exact h.waiting p hp hreq
  · rw [Function.update_self, hs] at hs'
    cases hs'
  · have hfm : f ≠ taskMm := by
      rintro rfl
      rw [Function.update_self, hs] at hf
      cases hf
    rw [Function.update_of_ne hfm] at hf hto ⊢
    exact h.queued f hf hto
  · rw [Function.update_self]
    exact ⟨hs, hfrom, hmsg⟩
  · rw [Function.update_self, hr] at hrec
    cases hrec

theorem enqueue (h : HsInv core mem pc request mm) (hp : p ≠ taskMm) {a' : Addr}
    (hpc : pc p = .between a') {r : Process} (hr : r.pFlags.receiving = false)
    (hmsg : r.pMsg = some a) (hsrc : (mem p a).source = .proc p)
    (hreq : request p = some (mem p a).type)
    (hnt : mm = .receive → (core taskMm).pFlags.receiving = false →
      (mem taskMm mmMsg).source ≠ .proc p) :
    HsInv (Function.update core p r) mem pc request mm := by
  have hpm := Ne.symm hp
  refine ⟨h.mmUser, h.user, h.dead, fun q hq hreq => ?_, ?_, fun f hf hto => ?_, ?_, ?_,
    fun hm hrec => ?_, h.handler, h.child⟩
  · have hqp : q ≠ p := by
      rintro rfl
      rw [hpc] at hq
      cases hq
    rw [Function.update_of_ne hqp]
    exact h.waiting q hq hreq
  · rw [Function.update_of_ne hpm]
    exact h.reply
  · by_cases hfp : f = p
    · subst hfp
      rw [Function.update_self]
      exact ⟨hr, a', a, hpc, hmsg, hsrc, hreq⟩
    · rw [Function.update_of_ne hfp] at hf hto ⊢
      exact h.queued f hf hto
  · rw [Function.update_of_ne hpm]
    exact h.idle
  · rw [Function.update_of_ne hpm]
    exact h.blocked
  · rw [Function.update_of_ne hpm] at hrec
    rcases h.taken hm hrec with hint | ⟨q, h₁, h₂, h₃, h₄, h₅⟩
    · exact .inl hint
    · have hqp : q ≠ p := by
        rintro rfl
        exact hnt hm hrec h₁
      exact .inr ⟨q, h₁, h₂, h₃, by rw [Function.update_of_ne hqp]; exact h₄, h₅⟩

end HsInv

end Steps

section Actions

variable {t t' : Handshake} {k k' : Kernel} {p q d : Pid} {a : Addr} {v : Message}

theorem Kernel.mem_setMem (k : Kernel) (p : Pid) (a : Addr) (v : Message) :
    (k.setMem p a v).mem = Function.update k.mem p (Function.update (k.mem p) a v) := rfl

theorem Kernel.stamp_mem (k : Kernel) (p : Pid) (a : Addr) :
    ∃ g, (k.stamp p a).mem = Function.update k.mem p g ∧
      g a = { k.mem p a with source := .proc p } :=
  ⟨_, rfl, by simp⟩

theorem Kernel.setMem_stamp_mem (k : Kernel) (p : Pid) (a : Addr) (v : Message) :
    ∃ g, ((k.setMem p a v).stamp p a).mem = Function.update k.mem p g ∧
      g a = { v with source := .proc p } := by
  refine ⟨Function.update (k.mem p) a { v with source := .proc p }, ?_, by simp⟩
  simp [Kernel.stamp, Kernel.setMem]

private theorem sending_of_flags {r : Process} (h : r.pFlags = 0) :
    r.pFlags.sending = true → r.pSendto ≠ .proc taskMm := by
  intro hs
  rw [h] at hs
  cases hs

theorem Handshake.Inv.not_taken (h : t.Inv) (hpc : t.pc p = .user) :
    t.mm = .receive → (t.kernel.cores taskMm).pFlags.receiving = false →
      (t.kernel.mem taskMm mmMsg).source ≠ .proc p := by
  intro hm hr hsrc
  rcases h.taken hm hr with hint | ⟨q, h₁, -, -, -, h₅⟩
  · rw [hsrc] at hint
    cases hint
  · rw [hsrc] at h₁
    cases h₁
    rcases h₅ with h₅ | ⟨b, h₅⟩ <;> rw [hpc] at h₅ <;> cases h₅

theorem inv_call (h : t.Inv) (hp : p ≠ taskMm) (hpc : t.pc p = .user) (hf : t.flags p = 0)
    (he : SendEffect ((t.kernel.setMem p a v).stamp p a) p taskMm a k') :
    Handshake.Inv
      { t with
        kernel := k'
        pc := Function.update t.pc p (.between a)
        request := Function.update t.request p (some v.type) } := by
  obtain ⟨g, hg, hga⟩ := t.kernel.setMem_stamp_mem p a v
  have hnt := h.not_taken hpc
  have hmem := HsInv.setMem h hp (sending_of_flags (r := t.kernel.cores p) hf) g
  have hpc' := hmem.setPc (p := p) (v := .between a) (w := some v.type) hp (by simp) (by simp)
    (by simp) ?_ (sending_of_flags (r := t.kernel.cores p) hf) ?_ ?_
  · have hsrc : (Function.update t.kernel.mem p g p a).source = .proc p := by
      rw [Function.update_self, hga]
    have htype : some v.type = some (Function.update t.kernel.mem p g p a).type := by
      rw [Function.update_self, hga]
    cases he with
    | direct b he =>
      have hcore := Kernel.cores_eq_update he.record
      change HsInv k'.cores k'.mem _ _ _
      rw [hcore, he.mem, Kernel.mem_setMem, hg]
      have hr : (t.kernel.cores taskMm).pFlags.receiving = true := he.receiving
      obtain rfl : b = mmMsg := by
        have hb : (t.kernel.cores taskMm).pMsg = some b := he.buffer
        rw [(h.blocked hr).2.2] at hb
        exact (Option.some.inj hb).symm
      refine HsInv.wakeMm hpc' hr ?_ ?_ ?_
      · rfl
      · rfl
      refine .inr ⟨p, ?_, hp, ?_, ?_, .inr ⟨a, by simp⟩⟩
      · simpa using hsrc
      · simpa using htype
      · change (t.flags p).sending = false
        rw [hf]
        rfl
    | queue hn he =>
      have hcore := Kernel.cores_eq_update he.record
      change HsInv k'.cores k'.mem _ _ _
      rw [hcore, he.mem, hg]
      have hbetween : Function.update t.pc p (.between a) p = .between a := Function.update_self ..
      refine HsInv.enqueue (a := a) hpc' hp hbetween ?_ ?_ hsrc (by simpa using htype) ?_
      · change (t.flags p).receiving = false
        rw [hf]
        rfl
      · rfl
      · intro hm hr
        rw [Function.update_of_ne (Ne.symm hp)]
        exact hnt hm hr
  · intro hs hto
    obtain ⟨-, b, hb⟩ := h.reply p hs hto
    rw [hpc] at hb
    cases hb
  · intro hm hsrc hreq
    rw [h.user p hpc] at hreq
    cases hreq
  · rintro (hs | ⟨q, hq⟩)
    · have hw := (h.handler p hs).1
      rw [hpc] at hw
      cases hw
    · have hw := (h.child q p hq).2.1
      rw [hpc] at hw
      cases hw

theorem inv_receive (h : t.Inv) (hpc : t.pc p = .between a) (hf : t.flags p = 0)
    (he : ReceiveEffect (t.kernel.stamp p a) p (.proc taskMm) a k') :
    Handshake.Inv { t with kernel := k', pc := Function.update t.pc p .waiting } := by
  have hp : p ≠ taskMm := by
    rintro rfl
    rw [h.mmUser] at hpc
    cases hpc
  have hsp := sending_of_flags (r := t.kernel.cores p) hf
  obtain ⟨g, hg, -⟩ := t.kernel.stamp_mem p a
  have hmem := HsInv.setMem h hp hsp g
  have hreq : Function.update t.request p (t.request p) = t.request := Function.update_eq_self ..
  have hserve : t.mm.serves p ∨ (∃ q, t.mm = .fork q p) →
      UserPc.waiting = .waiting ∧ t.request p ≠ none := by
    rintro (hs | ⟨q, hq⟩)
    · exact ⟨rfl, (h.handler p hs).2⟩
    · exact ⟨rfl, (h.child q p hq).2.2⟩
  change HsInv k'.cores k'.mem _ t.request _
  rw [← hreq]
  cases he with
  | interrupt hs he =>
    rcases hs with hs | hs <;> cases hs
  | take f b hs he =>
    obtain rfl : f = taskMm := by
      rcases hs with hs | hs <;> cases hs
      rfl
    have hnone := (h.reply p he.sending he.sendto).1
    have hrec : (t.kernel.cores taskMm).pFlags.receiving = false := by
      by_contra hne
      have hs' := (h.blocked (by simpa using hne)).1
      rw [show (t.kernel.cores taskMm).pFlags.sending = true from he.sending] at hs'
      cases hs'
    rw [Kernel.cores_eq_update he.record, he.mem, Kernel.mem_setMem, hg]
    have hmm := hmem.setMm t.mm (r := { (t.kernel.cores taskMm) with
      pMsg := none
      pFlags := { (t.kernel.cores taskMm).pFlags with sending := false }
      pSendto := .noTask }) (by simp) (by simp) hrec (fun hm => hmem.taken hm hrec) h.handler h.child
    have hmem' := hmm.setMem hp (by rw [Function.update_of_ne hp]; exact hsp)
      (Function.update (Function.update t.kernel.mem p g p) a
        (Function.update t.kernel.mem p g taskMm b))
    refine HsInv.setPc (v := .waiting) (w := t.request p) hmem' hp (by simp) (by simp) ?_ ?_ ?_ ?_
      hserve
    · intro _ hne
      exact absurd hnone hne
    · rw [Function.update_self]
      simp
    · rw [Function.update_of_ne hp]
      exact hsp
    · exact fun _ _ _ => ⟨rfl, .inl rfl⟩
  | wait hs he =>
    rw [Kernel.cores_eq_update he.record, he.mem, hg]
    have hs0 : (t.flags p).sending = false := by
      rw [hf]
      rfl
    have hcore := hmem.setCore (q := p) (r := { (t.kernel.cores p) with
      pFlags := { (t.kernel.cores p).pFlags with receiving := true }
      pRecvfrom := .proc taskMm
      pMsg := some a }) hp (by simp [hpc]) hsp (fun _ _ => hs0)
    refine HsInv.setPc (v := .waiting) (w := t.request p) hcore hp (by simp) (by simp) ?_ ?_ ?_ ?_
      hserve
    · rw [Function.update_self]
      exact fun _ _ => ⟨rfl, rfl⟩
    · rw [Function.update_of_ne (Ne.symm hp)]
      intro hs' hto
      exact absurd ⟨hs', hto⟩ (hs taskMm rfl)
    · rw [Function.update_self]
      exact hsp
    · exact fun _ _ _ => ⟨rfl, .inl rfl⟩

theorem inv_resume (h : t.Inv) (hpc : t.pc p = .waiting) (hf : t.flags p = 0) :
    Handshake.Inv { t with pc := Function.update t.pc p .user } := by
  have hp : p ≠ taskMm := by
    rintro rfl
    rw [h.mmUser] at hpc
    cases hpc
  have hnone : t.request p = none := by
    by_contra hne
    have hr := (h.waiting p hpc hne).1
    rw [show (t.kernel.cores p).pFlags = 0 from hf] at hr
    cases hr
  have hreq : Function.update t.request p (t.request p) = t.request := Function.update_eq_self ..
  change HsInv _ _ _ t.request _
  rw [← hreq]
  refine HsInv.setPc (v := .user) (w := t.request p) h hp (fun _ => hnone) (by simp) (by simp) ?_
    (sending_of_flags (r := t.kernel.cores p) hf) ?_ ?_
  · intro hs hto
    obtain ⟨-, b, hb⟩ := h.reply p hs hto
    rw [hpc] at hb
    cases hb
  · intro _ _ hreq'
    rw [hnone] at hreq'
    cases hreq'
  · rintro (hs | ⟨q, hq⟩)
    · exact absurd hnone (h.handler p hs).2
    · exact absurd hnone (h.child q p hq).2.2

theorem Handshake.Inv.not_queued (h : t.Inv) (hr : (t.kernel.cores d).pFlags.receiving = true) :
    (t.kernel.cores d).pFlags.sending = true → (t.kernel.cores d).pSendto ≠ .proc taskMm := by
  intro hs hto
  rw [(h.queued d hs hto).1] at hr
  cases hr

theorem inv_otherSend {s : Pid} (h : t.Inv) (hs : s ≠ taskMm) (hd : d ≠ taskMm)
    (hpc : t.pc s = .user) (hf : t.flags s = 0)
    (he : SendEffect ((t.kernel.setMem s a v).stamp s a) s d a k') :
    Handshake.Inv { t with kernel := k' } := by
  obtain ⟨g, hg, -⟩ := t.kernel.setMem_stamp_mem s a v
  have hmem := HsInv.setMem h hs (sending_of_flags (r := t.kernel.cores s) hf) g
  change HsInv k'.cores k'.mem _ _ _
  cases he with
  | direct b he =>
    have hnq := h.not_queued (d := d) he.receiving
    rw [Kernel.cores_eq_update he.record, he.mem, Kernel.mem_setMem, hg]
    refine HsInv.setCore (HsInv.setMem hmem hd hnq _) hd ?_ ?_ ?_
    · intro hw hreq
      have hfrom := (h.waiting d hw hreq).2
      rcases he.recvfrom with hr | hr
      · rw [show (t.kernel.cores d).pRecvfrom = .any from hr] at hfrom
        cases hfrom
      · rw [show (t.kernel.cores d).pRecvfrom = .proc s from hr] at hfrom
        cases hfrom
        exact absurd rfl hs
    · exact hnq
    · exact fun _ h => h
  | queue hn he =>
    rw [Kernel.cores_eq_update he.record, he.mem, hg]
    refine HsInv.setCore hmem hs ?_ ?_ ?_
    · intro hw
      rw [hpc] at hw
      cases hw
    · intro _ hto
      cases hto
      exact hd rfl
    · rintro (hw | ⟨c, hw⟩) <;> rw [hpc] at hw <;> cases hw

theorem inv_otherReceive {r : Pid} {src : Endpoint} (h : t.Inv) (hr : r ≠ taskMm)
    (hpc : t.pc r = .user) (hf : t.flags r = 0)
    (he : ReceiveEffect ((t.kernel.setMem r a v).stamp r a) r src a k') :
    Handshake.Inv { t with kernel := k' } := by
  obtain ⟨g, hg, -⟩ := t.kernel.setMem_stamp_mem r a v
  have hsr := sending_of_flags (r := t.kernel.cores r) hf
  have hmem := HsInv.setMem h hr hsr g
  have hnw : t.pc r = .waiting → False := by
    rw [hpc]
    simp
  change HsInv k'.cores k'.mem _ _ _
  cases he with
  | interrupt hs he =>
    rw [Kernel.cores_eq_update he.record, he.mem, Kernel.mem_setMem, hg]
    refine HsInv.setCore (HsInv.setMem hmem hr hsr _) hr (fun hw => (hnw hw).elim) ?_ ?_
    · exact hsr
    · exact fun _ h => h
  | take f b hs he =>
    have hfm : f ≠ taskMm := by
      rintro rfl
      obtain ⟨-, c, hc⟩ := h.reply r he.sending he.sendto
      rw [hpc] at hc
      cases hc
    rw [Kernel.cores_eq_update he.record, he.mem, Kernel.mem_setMem, hg]
    refine HsInv.setCore (HsInv.setMem hmem hr hsr _) hfm ?_ ?_ ?_
    · exact h.waiting f
    · simp
    · simp
  | wait hs he =>
    rw [Kernel.cores_eq_update he.record, he.mem, hg]
    refine HsInv.setCore hmem hr (fun hw => (hnw hw).elim) ?_ ?_
    · exact hsr
    · exact fun _ h => h

theorem inv_inform {u : Pid} (h : t.Inv)
    (he : (∃ b, WakeEffect t.kernel u b k') ∨ RememberEffect t.kernel u k') :
    Handshake.Inv { t with kernel := k' } := by
  change HsInv k'.cores k'.mem _ _ _
  rcases he with ⟨b, he⟩ | he
  · have hnq := h.not_queued (d := u) he.receiving
    rw [Kernel.cores_eq_update he.record, he.mem, Kernel.mem_setMem]
    by_cases hum : u = taskMm
    · subst hum
      obtain rfl : b = mmMsg := by
        have hb : (t.kernel.cores taskMm).pMsg = some b := he.buffer
        rw [(h.blocked he.receiving).2.2] at hb
        exact (Option.some.inj hb).symm
      refine HsInv.wakeMm h he.receiving ?_ ?_ ?_
      · rfl
      · rfl
      · left
        simp
    · refine HsInv.setCore (HsInv.setMem h hum hnq _) hum ?_ ?_ ?_
      · intro hw hreq
        have hfrom := (h.waiting u hw hreq).2
        rcases he.recvfrom with hr | hr
        all_goals
          rw [show (t.kernel.cores u).pRecvfrom = _ from hr] at hfrom
          cases hfrom
      · exact hnq
      · exact fun _ h => h
  · rw [he.mem]
    refine HsInv.congr h fun p => ?_
    rw [Kernel.cores_eq_update he.record]
    by_cases hpu : p = u
    · subst hpu
      rw [Function.update_self]
      exact ⟨rfl, rfl, rfl, rfl, rfl⟩
    · rw [Function.update_of_ne hpu]
      exact ⟨rfl, rfl, rfl, rfl, rfl⟩

theorem inv_mmReceive (h : t.Inv) (hmm : t.mm = .top) (hf : t.flags taskMm = 0)
    (he : ReceiveEffect ((t.kernel.setMem taskMm mmMsg {}).stamp taskMm mmMsg) taskMm .any mmMsg
      k') : Handshake.Inv { t with kernel := k', mm := .receive } := by
  obtain ⟨g, hg, -⟩ := t.kernel.setMem_stamp_mem taskMm mmMsg {}
  have hs0 : (t.kernel.cores taskMm).pFlags.sending = false := by
    rw [show (t.kernel.cores taskMm).pFlags = 0 from hf]
    rfl
  have hr0 : (t.kernel.cores taskMm).pFlags.receiving = false := by
    rw [show (t.kernel.cores taskMm).pFlags = 0 from hf]
    rfl
  have hns : ∀ {P : Prop}, (t.kernel.cores taskMm).pFlags.sending = true → P := by
    intro P hs
    rw [hs0] at hs
    cases hs
  have hmem := HsInv.setMem_mm h (by simp [hmm]) g hs0
  change HsInv k'.cores k'.mem _ _ _
  cases he with
  | interrupt hs he =>
    rw [Kernel.cores_eq_update he.record, he.mem, Kernel.mem_setMem, hg]
    refine HsInv.setMm (HsInv.setMem_mm hmem (by simp [hmm]) _ hs0) .receive hns hns hr0 ?_
      (by simp [MmPc.serves]) (by simp)
    intro _
    left
    simp [intMessage]
  | take f b hs he =>
    have hfs : (t.kernel.cores f).pFlags.sending = true := he.sending
    have hfm : f ≠ taskMm := by
      rintro rfl
      exact hns hfs
    obtain ⟨-, c, b', hpc, hb, hsrc, hreq⟩ := h.queued f hfs he.sendto
    obtain rfl : b' = b := by
      rw [show (t.kernel.cores f).pMsg = some b from he.buffer] at hb
      exact (Option.some.inj hb).symm
    rw [Kernel.cores_eq_update he.record, he.mem, Kernel.mem_setMem, hg]
    have hcore := hmem.setCore (q := f) (r := { (t.kernel.cores f) with
      pMsg := none
      pFlags := { (t.kernel.cores f).pFlags with sending := false }
      pSendto := .noTask }) hfm (h.waiting f) (by simp) (by simp)
    have hf' : (Function.update t.kernel.cores f { (t.kernel.cores f) with
        pMsg := none
        pFlags := { (t.kernel.cores f).pFlags with sending := false }
        pSendto := .noTask } taskMm) = t.kernel.cores taskMm := Function.update_of_ne hfm.symm _ _
    have hmem' := HsInv.setMem_mm hcore (by simp [hmm]) (Function.update
      (Function.update t.kernel.mem taskMm g taskMm) mmMsg
      (Function.update t.kernel.mem taskMm g f b')) (by rw [hf', hs0])
    refine HsInv.moveMm hmem' .receive (by rw [hf']; exact hf) ?_ (by simp [MmPc.serves]) (by simp)
    intro _
    refine .inr ⟨f, ?_, hfm, ?_, ?_, .inr ⟨c, hpc⟩⟩
    · simpa [hfm] using hsrc
    · simpa [hfm] using hreq
    · simp
  | wait hs he =>
    rw [Kernel.cores_eq_update he.record, he.mem, hg]
    exact HsInv.blockMm hmem hs0 rfl rfl rfl

theorem inv_answer {mm' : MmPc} (h : t.Inv) (hmm : t.mm ≠ .receive) (hf : t.flags taskMm = 0)
    (hmm' : mm' ≠ .receive) (hfork : ∀ p c, mm' ≠ .fork p c)
    (hserve : ∀ p, mm'.serves p → p ≠ d ∧ t.pc p = .waiting ∧ t.request p ≠ none)
    (hnd : (t.kernel.cores d).pFlags.sending = true → (t.kernel.cores d).pSendto ≠ .proc taskMm)
    (hreq : t.request d ≠ none)
    (he : SendEffect ((t.kernel.setMem taskMm a v).stamp taskMm a) taskMm d a k') :
    HsInv k'.cores k'.mem t.pc (Function.update t.request d none) mm' := by
  have hpc : t.pc d = .waiting ∨ ∃ c, t.pc d = .between c := by
    cases hpc : t.pc d with
    | user => exact absurd (h.user d hpc) hreq
    | dead => exact absurd (h.dead d hpc) hreq
    | waiting => exact .inl rfl
    | between c => exact .inr ⟨c, rfl⟩
  have hdm : d ≠ taskMm := by
    rintro rfl
    rw [h.mmUser] at hpc
    rcases hpc with hpc | ⟨c, hpc⟩ <;> cases hpc
  obtain ⟨g, hg, -⟩ := t.kernel.setMem_stamp_mem taskMm a v
  have hs0 : (t.kernel.cores taskMm).pFlags.sending = false := by
    rw [show (t.kernel.cores taskMm).pFlags = 0 from hf]
    rfl
  have hns : ∀ {P : Prop}, (t.kernel.cores taskMm).pFlags.sending = true → P := by
    intro P hs
    rw [hs0] at hs
    cases hs
  have hmove := (HsInv.setMem_mm h hmm g hs0).moveMm mm' hf (fun hm => absurd hm hmm')
    (fun p hp => (hserve p hp).2) (fun p c hc => absurd hc (hfork p c))
  have hset := hmove.setPc (p := d) (v := t.pc d) (w := none) hdm (fun _ => rfl) (fun _ => rfl)
    (by simp) hns hnd (fun hm => absurd hm hmm') (by
      rintro (hs | ⟨q, hq⟩)
      · exact absurd rfl (hserve d hs).1
      · exact absurd hq (hfork q d))
  rw [Function.update_eq_self] at hset
  cases he with
  | direct b he =>
    rw [Kernel.cores_eq_update he.record, he.mem, Kernel.mem_setMem, hg]
    refine HsInv.setCore (HsInv.setMem hset hdm hnd _) hdm ?_ ?_ ?_
    · simp
    · exact hnd
    · exact fun _ h => h
  | queue hn he =>
    rw [Kernel.cores_eq_update he.record, he.mem, hg]
    refine HsInv.setMm hset mm' ?_ ?_ ?_ (fun hm => absurd hm hmm') hset.handler hset.child
    · intro _ p hto
      cases hto
      refine ⟨Function.update_self .., ?_⟩
      rcases hpc with hw | hb
      · by_contra hne
        apply hn
        exact ⟨(h.waiting d hw hreq).1, .inr (h.waiting d hw hreq).2⟩
      · exact hb
    · intro _ hto
      cases hto
      exact hdm rfl
    · change (t.flags taskMm).receiving = false
      rw [hf]
      rfl

/-- The condition on a step in which MM goes on from its `RECEIVE` to a `FORK` or an `EXEC`: the
process that made the request has made the second call of its `send_rec`. -/
def Handshake.CallerReady (t : Handshake) : Prop :=
  ∀ p, (t.kernel.mem taskMm mmMsg).source = .proc p →
    ((t.kernel.mem taskMm mmMsg).type = .fork ∨ (t.kernel.mem taskMm mmMsg).type = .exec) →
    t.pc p = .waiting

theorem inv_copySlot {c : Pid} (h : t.Inv) (hf : t.flags taskMm = 0)
    (hmm : t.mm = .receive) (hsrc : (t.kernel.mem taskMm mmMsg).source = .proc p)
    (hc : t.flags c = Flags.free) (hpc : t.pc p = .waiting) (hreq : t.request p ≠ none)
    (hs : (t.flags p).sending = false) :
    Handshake.Inv
      { kernel := copySlot t.kernel p c
        pc := Function.update t.pc c (t.pc p)
        request := Function.update t.request c (some .fork)
        mm := .fork p c } := by
  have hblocked := h.waiting p hpc hreq
  have hcm : c ≠ taskMm := by
    rintro rfl
    rw [hf] at hc
    cases hc
  have hcp : c ≠ p := by
    rintro rfl
    rw [show (t.kernel.cores c).pFlags = Flags.free from hc] at hblocked
    cases hblocked.1
  have hcs : (t.kernel.cores c).pFlags.sending = true → (t.kernel.cores c).pSendto ≠
      .proc taskMm := by
    intro hs'
    rw [show (t.kernel.cores c).pFlags = Flags.free from hc] at hs'
    cases hs'
  have hcores : (copySlot t.kernel p c).cores =
      Function.update t.kernel.cores c { t.kernel.cores p with pParent := .proc p } := by
    apply Kernel.cores_eq_update
    intro q
    change (Function.update t.kernel.procTable c _ q).core = _
    rw [Function.update_apply]
    split <;> rfl
  have hps : (t.kernel.cores p).pFlags.sending = true → (t.kernel.cores p).pSendto ≠
      .proc taskMm := by
    intro hs'
    rw [show (t.kernel.cores p).pFlags.sending = false from hs] at hs'
    cases hs'
  change HsInv (copySlot t.kernel p c).cores (Function.update t.kernel.mem c (t.kernel.mem p)) _ _ _
  rw [hcores, hpc]
  have hcore := (HsInv.setMem h hcm hcs (t.kernel.mem p)).setCore (q := c)
    (r := { t.kernel.cores p with pParent := .proc p }) hcm (fun _ _ => hblocked) hps
    (fun _ _ => hs)
  have hmmf : (Function.update t.kernel.cores c { t.kernel.cores p with pParent := .proc p }
      taskMm).pFlags = 0 := by
    rw [Function.update_of_ne hcm.symm]
    exact hf
  have hset := hcore.setPc (p := c) (v := .waiting) (w := some .fork) hcm (by simp) (by simp)
    (by rw [Function.update_self]; exact fun _ _ => hblocked)
    (by rw [hmmf]; simp)
    (by rw [Function.update_self]; exact hps)
    (by
      intro _ hsrc'
      rw [Function.update_of_ne hcm.symm, hsrc] at hsrc'
      cases hsrc'
      exact absurd rfl hcp)
    (by simp [hmm, MmPc.serves])
  refine HsInv.moveMm hset (.fork p c) hmmf (by simp) ?_ ?_
  · intro q hq
    have hqp : q = p := by
      rcases hq with hq | hq | ⟨c', hq⟩ <;> cases hq
      rfl
    subst hqp
    rw [Function.update_of_ne hcp.symm, Function.update_of_ne hcp.symm]
    exact ⟨hpc, hreq⟩
  · intro q c' hq
    cases hq
    rw [Function.update_self, Function.update_self]
    exact ⟨hcp, rfl, by simp⟩

theorem inv_take (h : t.Inv) (hmm : t.mm = .receive) (hf : t.flags taskMm = 0)
    (hready : t.CallerReady) (ht : t.take = some t') : t'.Inv := by
  have hr0 : (t.kernel.cores taskMm).pFlags.receiving = false := by
    rw [show (t.kernel.cores taskMm).pFlags = 0 from hf]
    rfl
  rcases h.taken hmm hr0 with hint | ⟨p, hsrc, hpm, hreq, hs, hpc⟩
  · simp only [Handshake.take, hint, reduceCtorEq] at ht
  · have hreq' : t.request p ≠ none := by simp [hreq]
    have hserve : ∀ {mm' : MmPc}, t.pc p = .waiting → (∀ q, mm'.serves q → q = p) →
        ∀ q, mm'.serves q → t.pc q = .waiting ∧ t.request q ≠ none := by
      intro mm' hw hmm' q hq
      rw [hmm' q hq]
      exact ⟨hw, hreq'⟩
    simp only [Handshake.take, hsrc] at ht
    split at ht
    · next htype =>
      have hw := hready p hsrc (.inl htype)
      split at ht
      · cases ht
        refine HsInv.moveMm h (.reply p) hf (by simp) (hserve hw ?_) (by simp)
        rintro q (hq | hq | ⟨c, hq⟩) <;> cases hq
        rfl
      · next c hfind =>
        cases ht
        have hc : (t.kernel.procTable c).pFlags = Flags.free := by
          simpa using List.find?_some hfind
        exact inv_copySlot h hf hmm hsrc hc hw hreq' hs
    · next htype =>
      have hw := hready p hsrc (.inr htype)
      cases ht
      refine HsInv.moveMm h (.exec p) hf (by simp) (hserve hw ?_) (by simp)
      rintro q (hq | hq | ⟨c, hq⟩) <;> cases hq
      rfl
    · cases ht
      have hmove := HsInv.moveMm h .other hf (by simp) (by simp [MmPc.serves]) (by simp)
      refine HsInv.setPc (v := .dead) (w := none) hmove hpm (by simp) (by simp) (by simp) ?_ ?_
        (by simp) (by simp [MmPc.serves])
      · rw [show (t.kernel.cores taskMm).pFlags = 0 from hf]
        simp
      · intro hs'
        rw [hs] at hs'
        cases hs'
    · cases ht
      exact HsInv.moveMm h .other hf (by simp) (by simp [MmPc.serves]) (by simp)
    · cases ht

/-- A step in which MM handles a `FORK` or an `EXEC` only of a caller that is ready. -/
def ReadyStep (t : Handshake) (act : HsAction) (t' : Handshake) : Prop :=
  HsStep t act t' ∧ (act = .mmTake → t.CallerReady)

theorem effect_call (hrun : callProg p a v k = .ok () k') :
    SendEffect ((k.setMem p a v).stamp p a) p taskMm a k' := by
  have hw : wp (callProg p a v) (fun _ k' => SendEffect ((k.setMem p a v).stamp p a) p taskMm a k')
      (fun _ _ => True) k := by
    simp only [callProg, wp_bind, wp_modify]
    exact sysSend_effect
  have he := wp_ok hw hrun
  exact he

theorem effect_mmSend (hrun : mmSendProg d a v k = .ok () k') :
    SendEffect ((k.setMem taskMm a v).stamp taskMm a) taskMm d a k' := by
  have hw : wp (mmSendProg d a v)
      (fun _ k' => SendEffect ((k.setMem taskMm a v).stamp taskMm a) taskMm d a k')
      (fun _ _ => True) k := by
    simp only [mmSendProg, wp_bind, wp_modify]
    exact sysSend_effect
  have he := wp_ok hw hrun
  exact he

theorem inv_ipc {act : IpcAction} (h : t.Inv) (hact : OtherIpc t act)
    (hrun : act.prog t.kernel = .ok () k') : Handshake.Inv { t with kernel := k' } := by
  cases act with
  | send s d a v =>
    obtain ⟨hs, hd, hpc, hf⟩ := hact
    have hw : wp (IpcAction.send s d a v).prog
        (fun _ k' => SendEffect ((t.kernel.setMem s a v).stamp s a) s d a k')
        (fun _ _ => True) t.kernel := by
      simp only [IpcAction.prog, wp_bind, wp_modify]
      exact sysSend_effect
    have he := wp_ok hw hrun
    exact inv_otherSend h hs hd hpc hf he
  | receive r src a v =>
    obtain ⟨hr, hpc, hf⟩ := hact
    have hw : wp (IpcAction.receive r src a v).prog
        (fun _ k' => ReceiveEffect ((t.kernel.setMem r a v).stamp r a) r src.endpoint a k')
        (fun _ _ => True) t.kernel := by
      simp only [IpcAction.prog, wp_bind, wp_modify]
      exact sysReceive_effect _
    have he := wp_ok hw hrun
    exact inv_otherReceive h hr hpc hf he
  | inform u =>
    have he := wp_ok (p := (IpcAction.inform u).prog) (informInt_effect (k := t.kernel) (t := u))
      hrun
    exact inv_inform h he

theorem ReadyStep.inv {act : HsAction} (hstep : ReadyStep t act t') (h : t.Inv) : t'.Inv := by
  obtain ⟨hstep, hready⟩ := hstep
  cases hstep with
  | call hp hpc hf hrun => exact inv_call h hp hpc hf (effect_call hrun)
  | @receive p a k' hpc hf hrun =>
    have hw : wp (sysSendrec .receive (.proc taskMm) (some a) p)
        (fun _ k' => ReceiveEffect (t.kernel.stamp p a) p (.proc taskMm) a k')
        (fun _ _ => True) t.kernel := sysReceive_effect _
    have he := wp_ok hw hrun
    exact inv_receive h hpc hf he
  | resume hpc hf => exact inv_resume h hpc hf
  | ipc hact hrun => exact inv_ipc h hact hrun
  | mmReceive hmm hf hrun =>
    have hw : wp mmReceiveProg (fun _ k' => ReceiveEffect ((t.kernel.setMem taskMm mmMsg {}).stamp
        taskMm mmMsg) taskMm .any mmMsg k') (fun _ _ => True) t.kernel := by
      simp only [mmReceiveProg, wp_bind, wp_modify]
      exact sysReceive_effect _
    have he := wp_ok hw hrun
    exact inv_mmReceive h hmm hf he
  | mmTake hmm hf ht => exact inv_take h hmm hf (hready rfl) ht
  | @mmChild p c k' hmm hf hrun =>
    obtain ⟨hcp, hcw, hcr⟩ := h.child p c hmm
    have hp := h.handler p (.inr (.inr ⟨c, hmm⟩))
    apply inv_answer h (by simp [hmm]) hf (by simp) (by simp) ?_
      (h.not_queued (h.waiting c hcw hcr).1) hcr (effect_mmSend hrun)
    rintro q (hq | hq | ⟨c', hq⟩) <;> cases hq
    exact ⟨hcp.symm, hp⟩
  | @execDone p ok hmm hf =>
    have hp := h.handler p (.inl hmm)
    have hpc : Function.update t.pc p (execPc ok (t.pc p)) = t.pc := by
      rw [hp.1]
      change Function.update t.pc p .waiting = t.pc
      rw [← hp.1, Function.update_eq_self]
    change HsInv _ _ (Function.update t.pc p (execPc ok (t.pc p))) _ _
    rw [hpc]
    refine HsInv.moveMm h (.reply p) hf (by simp) ?_ (by simp)
    rintro q (hq | hq | ⟨c', hq⟩) <;> cases hq
    exact hp
  | @mmReply p k' hmm hf hrun =>
    have hp := h.handler p (.inr (.inl hmm))
    exact inv_answer h (by simp [hmm]) hf (by simp) (by simp) (by simp [MmPc.serves])
      (h.not_queued (h.waiting p hp.1 hp.2).1) hp.2 (effect_mmSend hrun)
  | @otherSend q v k' hmm hf hq hs hrun =>
    change HsInv _ _ _ _ t.mm
    rw [hmm]
    apply inv_answer h (by simp [hmm]) hf (by simp) (by simp) (by simp [MmPc.serves]) ?_
      (by simp [hq]) (effect_mmSend hrun)
    intro hs'
    rw [show (t.kernel.cores q).pFlags.sending = false from hs] at hs'
    cases hs'
  | @otherLife z r hmm hf hr hz =>
    refine HsInv.congr h fun p => ?_
    change SameIpc _ ((t.kernel.setProc z fun _ => r).procTable p).core
    rw [core_setProc]
    split
    · next hp =>
      rw [hp]
      exact hr
    · exact ⟨rfl, rfl, rfl, rfl, rfl⟩
  | @otherFree z hmm hf hz =>
    have hzm : z ≠ taskMm := by
      rintro rfl
      rw [h.mmUser] at hz
      cases hz
    change HsInv (t.kernel.setProc z fun r => { r with pFlags := Flags.free }).cores _ _ _ _
    rw [Kernel.cores_eq_update (fun p => core_setProc z p)]
    refine HsInv.setCore h hzm (by simp [hz]) ?_ ?_
    · intro hs
      cases hs
    · exact fun _ _ => rfl
  | otherDone hmm hf =>
    exact HsInv.moveMm h .top hf (by simp) (by simp [MmPc.serves]) (by simp)

/-- A `SEND` of MM to a process that is blocked in a `RECEIVE` from it delivers at once. -/
theorem accepted_of_blocked (hf : t.flags taskMm = 0) (hd : d ≠ taskMm) (hb : t.Blocked d)
    (he : SendEffect ((t.kernel.setMem taskMm a v).stamp taskMm a) taskMm d a k') :
    (k'.procTable taskMm).pFlags = 0 ∧ (k'.procTable d).pFlags.receiving = false := by
  cases he with
  | direct b he =>
    have hmm := he.record taskMm
    have hdd := he.record d
    rw [if_neg hd.symm] at hmm
    rw [if_pos rfl] at hdd
    have h₁ : (k'.procTable taskMm).core.pFlags = 0 := by
      rw [hmm]
      exact hf
    have h₂ : (k'.procTable d).core.pFlags.receiving = false := by rw [hdd]
    exact ⟨h₁, h₂⟩
  | queue hn _ => exact absurd ⟨hb.1, .inr hb.2⟩ hn

/-- The reply of MM to `p` has been accepted: MM is not left blocked and `p` has been woken. -/
def Handshake.Accepted (t : Handshake) (p : Pid) : Prop :=
  t.flags taskMm = 0 ∧ (t.flags p).receiving = false

theorem Handshake.Inv.blocked_of_waiting (h : t.Inv) (hp : t.pc p = .waiting)
    (hreq : t.request p ≠ none) : t.Blocked p :=
  h.waiting p hp hreq

theorem Handshake.Inv.ne_mm (h : t.Inv) (hp : t.pc p = .waiting) : p ≠ taskMm := by
  intro hpm
  rw [hpm, h.mmUser] at hp
  cases hp

theorem accepted_reply (hstep : HsStep t .mmReply t') (h : t.Inv) (hmm : t.mm = .reply p) :
    t'.Accepted p := by
  cases hstep with
  | mmReply hmm' hf hrun =>
    rw [hmm] at hmm'
    cases hmm'
    have hp := h.handler p (.inr (.inl hmm))
    exact accepted_of_blocked hf (h.ne_mm hp.1) (h.blocked_of_waiting hp.1 hp.2)
      (effect_mmSend hrun)

theorem accepted_child {c : Pid} (hstep : HsStep t .mmChild t') (h : t.Inv)
    (hmm : t.mm = .fork p c) : t'.Accepted c := by
  cases hstep with
  | mmChild hmm' hf hrun =>
    rw [hmm] at hmm'
    cases hmm'
    have hc := (h.child p c hmm).2
    exact accepted_of_blocked hf (h.ne_mm hc.1) (h.blocked_of_waiting hc.1 hc.2)
      (effect_mmSend hrun)

end Actions

theorem hsInit_inv (mem : Pid → Addr → Message) : (hsInit mem).Inv := by
  have hs : ∀ p, ((kernelMain mem).cores p).pFlags.sending = false := by
    intro p
    change (kernelMainTable p).pFlags.sending = false
    unfold kernelMainTable
    split <;> rfl
  have hr : ((kernelMain mem).cores taskMm).pFlags.receiving = false := rfl
  refine ⟨rfl, fun _ _ => rfl, fun _ _ => rfl, fun _ _ h => absurd rfl h, ?_, ?_, fun _ => hr, ?_,
    ?_, ?_, ?_⟩
  · intro p h
    change ((kernelMain mem).cores taskMm).pFlags.sending = true at h
    rw [hs] at h
    cases h
  · intro f h
    change ((kernelMain mem).cores f).pFlags.sending = true at h
    rw [hs] at h
    cases h
  · intro h
    change ((kernelMain mem).cores taskMm).pFlags.receiving = true at h
    rw [hr] at h
    cases h
  · intro h
    cases h
  · intro p h
    rcases h with h | h | ⟨c, h⟩ <;> cases h
  · intro p c h
    cases h

theorem inv_of_readyRun {mem : Pid → Addr → Message} {acts : List HsAction} {t : Handshake}
    (hr : Run ReadyStep (hsInit mem) acts t) : t.Inv :=
  hr.invariant (hsInit_inv mem) fun _ _ _ hstep h => hstep.inv h

/-- In every run in which MM goes on to a `FORK` or an `EXEC` only once the caller has made the
second call of its `send_rec`, the process that MM serves is blocked in a `RECEIVE` from MM, the
child of a `FORK` is too, and the replies to both are accepted. -/
theorem handshake_of_run {mem : Pid → Addr → Message} {acts : List HsAction} {t : Handshake}
    (hr : Run ReadyStep (hsInit mem) acts t) :
    (∀ p, t.mm.serves p → t.Blocked p) ∧ (∀ p c, t.mm = .fork p c → t.Blocked c) ∧
      ∀ act t', ReadyStep t act t' →
        (act = .mmReply → ∀ p, t.mm = .reply p → t'.Accepted p) ∧
        (act = .mmChild → ∀ p c, t.mm = .fork p c → t'.Accepted c) := by
  have h := inv_of_readyRun hr
  refine ⟨?_, ?_, ?_⟩
  · intro p hp
    exact h.blocked_of_waiting (h.handler p hp).1 (h.handler p hp).2
  · intro p c hc
    exact h.blocked_of_waiting (h.child p c hc).2.1 (h.child p c hc).2.2
  · intro act t' hstep
    constructor
    · intro hact p hp
      subst hact
      exact accepted_reply hstep.1 h hp
    · intro hact p c hc
      subst hact
      exact accepted_child hstep.1 h hc

section Traces

private abbrev blank : Pid → Addr → Message := fun _ _ => {}

/-- MM waits for a request. -/
private def listening : Handshake :=
  { hsInit blank with kernel := (mmReceiveProg (kernelMain blank)).state, mm := .receive }

/-- INIT has made the first call of an `exec`. -/
private def asked : Handshake :=
  { listening with
    kernel := (callProg init 0 { type := .exec } listening.kernel).state
    pc := Function.update listening.pc init (.between 0)
    request := Function.update listening.request init (some .exec) }

private theorem step_listening : HsStep (hsInit blank) .mmReceive listening :=
  .mmReceive rfl rfl (Result.eq_ok_of_isOk (by decide +kernel))

private theorem step_asked : HsStep listening (.call init 0 { type := .exec }) asked :=
  .call (by decide) rfl (by decide +kernel) (Result.eq_ok_of_isOk (by decide +kernel))

/-- INIT has made the second call as well. -/
private def ready : Handshake :=
  { asked with
    kernel := (sysSendrec .receive (.proc taskMm) (some 0) init asked.kernel).state
    pc := Function.update asked.pc init .waiting }

private theorem step_ready : HsStep asked (.receive init 0) ready :=
  .receive (by decide +kernel) (by decide +kernel) (Result.eq_ok_of_isOk (by decide +kernel))

private theorem step_take {t : Handshake} (hmm : t.mm = .receive) (hf : t.flags taskMm = 0)
    (hsrc : (t.kernel.mem taskMm mmMsg).source = .proc init)
    (htype : (t.kernel.mem taskMm mmMsg).type = .exec) :
    HsStep t .mmTake { t with mm := .exec init } := by
  apply HsStep.mmTake hmm hf
  simp only [Handshake.take, hsrc, htype]

theorem handshake_of_run_exec : ∃ acts t, Run ReadyStep (hsInit fun _ _ => {}) acts t ∧
    t.mm = .exec init ∧ (∀ p, t.mm.serves p → t.Blocked p) ∧
    (∀ p c, t.mm = .fork p c → t.Blocked c) ∧
      ∀ act t', ReadyStep t act t' →
        (act = .mmReply → ∀ p, t.mm = .reply p → t'.Accepted p) ∧
        (act = .mmChild → ∀ p c, t.mm = .fork p c → t'.Accepted c) := by
  have htake : HsStep ready .mmTake { ready with mm := .exec init } :=
    step_take rfl (by decide +kernel) (by decide +kernel) (by decide +kernel)
  have hready : ready.CallerReady := by
    intro p hp _
    have hsrc : (ready.kernel.mem taskMm mmMsg).source = .proc init := by decide +kernel
    rw [hsrc] at hp
    cases hp
    rfl
  have hrun : Run ReadyStep (hsInit fun _ _ => {}) _ { ready with mm := .exec init } :=
    (((Run.nil.snoc ⟨step_listening, by simp⟩).snoc ⟨step_asked, by simp⟩).snoc
      ⟨step_ready, by simp⟩).snoc ⟨htake, fun _ => hready⟩
  exact ⟨_, _, hrun, rfl, handshake_of_run hrun⟩

/-- MM runs between the two calls of an `exec`: it handles the request of a process that is not
blocked, and its reply leaves it blocked in a `SEND` to a process that goes on in its new
program. -/
theorem handshake_broken_between_calls : ∃ acts acts' t t',
    Run HsStep (hsInit fun _ _ => {}) acts t ∧ t.mm = .exec init ∧ ¬ t.Blocked init ∧
    Run HsStep (hsInit fun _ _ => {}) (acts ++ acts') t' ∧ t'.pc init = .user ∧
    (t'.flags taskMm).sending = true ∧ (t'.kernel.procTable taskMm).pSendto = .proc init := by
  let t : Handshake := { asked with mm := .exec init }
  let u : Handshake := { t with
    pc := Function.update t.pc init (execPc true (t.pc init)), mm := .reply init }
  let t' : Handshake := { u with
    kernel := (mmSendProg init mmMsg { u.kernel.mem taskMm mmMsg with type := .syscallRet }
      u.kernel).state
    request := Function.update u.request init none
    mm := .top }
  have htake : HsStep asked .mmTake t :=
    step_take rfl (by decide +kernel) (by decide +kernel) (by decide +kernel)
  have hdone : HsStep t (.execDone true) u := .execDone rfl (by decide +kernel)
  have hreply : HsStep u .mmReply t' :=
    .mmReply rfl (by decide +kernel) (Result.eq_ok_of_isOk (by decide +kernel))
  have hrun : Run HsStep (hsInit fun _ _ => {}) _ t :=
    ((Run.nil.snoc step_listening).snoc step_asked).snoc htake
  have hrun' := (hrun.snoc hdone).snoc hreply
  rw [List.append_assoc] at hrun'
  exact ⟨_, _, t, t', hrun, rfl, by decide +kernel, hrun', by decide +kernel, by decide +kernel,
    by decide +kernel⟩

end Traces

end BazingaOS
