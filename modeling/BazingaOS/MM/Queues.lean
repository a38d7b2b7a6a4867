import BazingaOS.Kernel.Chains
import BazingaOS.Kernel.IpcSystem
import BazingaOS.MM.IpcFrame
import BazingaOS.MM.LifeCycle

/-!
# Queues across fork and exit

Processes call `sys_sendrec` in any order, naming any process, and between two calls MM may
handle a request. `do_fork` copies the whole record of the parent, its chain of senders included,
and `do_exit` and `cleanup` do not look at the chain of the slot they free.
-/

namespace BazingaOS

open Prog

structure Queues where
  mm : Mm
  mem : Pid → Addr → Message

def Mm.kernel (t : Mm) (mem : Pid → Addr → Message) : Kernel :=
  { procTable := t.procTable, mem := mem }

def Queues.kernel (t : Queues) : Kernel := t.mm.kernel t.mem

inductive QueueAction where
  | ipc (act : IpcAction)
  | request (q : MmRequest)

/-- A runnable process calls `sys_sendrec`, an interrupt is reported, or MM handles a request. A
call on which the machine stops is no step. -/
def QueueStep (t : Queues) (act : QueueAction) (t' : Queues) : Prop :=
  match act with
  | .ipc act => act.Callable t.kernel ∧ ∃ k, act.prog t.kernel = .ok () k ∧
      t' = { mm := { t.mm with procTable := k.procTable }, mem := k.mem }
  | .request q => q.Enabled t.mm ∧ ∃ u, q.handle t.mm = .ok () u ∧ t' = { t with mm := u }

/-- The process that last lived in the slot has exited. -/
def hasExited (log : List MmEvent) (p : Pid) : Bool :=
  log.foldl (fun b e =>
    match e with
    | .exit q _ => b || q = p
    | .fork _ c => b && c ≠ p
    | _ => b) false

/-- `s` is in the `q_sending` chain of `d`. -/
def Kernel.InChain (k : Kernel) (s d : Pid) : Prop :=
  ∃ p, k.head d = some p ∧ Relation.ReflTransGen (fun a b => k.next a = some b) p s

structure QueuesOk (t : Queues) : Prop where
  chain : ∀ s d, ((t.mm.procTable s).pFlags.sending = true ∧
    (t.mm.procTable s).pSendto = .proc d) ↔ t.kernel.InChain s d
  one : ∀ s d d', t.kernel.InChain s d → t.kernel.InChain s d' → d = d'
  alive : ∀ s d, (t.mm.procTable s).pFlags.sending = true → (t.mm.procTable s).pSendto = .proc d →
    hasExited t.mm.log d = false

/-- Nobody is blocked in a send to `d`. -/
def Queues.NoSender (t : Queues) (d : Pid) : Prop := ∀ s, t.kernel.sendsTo s ≠ some (.proc d)

/-- A send is not queued at a slot whose process has exited; at a fork nobody sends to the parent
or to the slot of the child, and at an exit nobody sends to the process, which itself does not
send. -/
def QueueAction.Clear (t : Queues) : QueueAction → Prop
  | .ipc (.send s d _ _) => hasExited t.mm.log d = true →
      (t.mm.procTable d).pFlags.receiving = true ∧
        ((t.mm.procTable d).pRecvfrom = .any ∨ (t.mm.procTable d).pRecvfrom = .proc s)
  | .request (.fork p) => t.kernel.sendsTo p = none ∧ t.NoSender p ∧
      ∀ c, t.mm.freeSlot = some c → t.NoSender c
  | .request (.exit p _) => t.kernel.sendsTo p = none ∧ t.NoSender p
  | _ => True

def ClearStep (t : Queues) (act : QueueAction) (t' : Queues) : Prop :=
  QueueStep t act t' ∧ act.Clear t

def queuesInit (imageSize : Pid → Nat) (memorySize : Nat) (mem : Pid → Addr → Message) : Queues :=
  { mm := mmInit imageSize memorySize, mem := mem }

/-- What every state of a run has in which each step is clear. -/
structure QueueInv (t : Queues) : Prop where
  chained : Chained t.kernel
  zombie : ∀ p, (t.mm.procTable p).pFlags.hanging = true → t.kernel.sendsTo p = none
  alive : ∀ s d, t.kernel.sendsTo s = some (.proc d) → hasExited t.mm.log d = false

theorem Kernel.sendsTo_eq_some {k : Kernel} {s d : Pid} : k.sendsTo s = some (.proc d) ↔
    (k.procTable s).pFlags.sending = true ∧ (k.procTable s).pSendto = .proc d := by
  unfold Kernel.sendsTo Process.sendsTo
  split <;> simp_all

theorem QueueInv.ok {t : Queues} (h : QueueInv t) : QueuesOk t := by
  obtain ⟨q, hq⟩ := h.chained
  have hmem : ∀ s d, t.kernel.InChain s d ↔ t.kernel.sendsTo s = some (.proc d) := by
    intro s d
    rw [← hq.mem d s]
    exact ((hq.link d).mem_iff_reach s).symm
  constructor
  · intro s d
    rw [hmem]
    exact (Kernel.sendsTo_eq_some (k := t.kernel)).symm
  · intro s d d' hd hd'
    rw [hmem] at hd hd'
    rw [hd] at hd'
    exact Endpoint.proc.inj (Option.some.inj hd')
  · intro s d hs hd
    exact h.alive s d ((Kernel.sendsTo_eq_some (k := t.kernel)).mpr ⟨hs, hd⟩)

section Ipc

variable {k k' : Kernel} {act : IpcAction} {p : Pid}

private theorem sendsTo_of_record {r : Process} (h : (k'.procTable p).core = r) :
    k'.sendsTo p = r.sendsTo := by
  rw [← h]
  rfl

theorem IpcAction.sendsTo_of_ok (hrun : act.prog k = .ok () k') {e : Endpoint}
    (he : k'.sendsTo p = some e) : k.sendsTo p = some e ∨
      ∃ d a v, act = .send p d a v ∧ e = .proc d ∧
        ¬ ((k.procTable d).pFlags.receiving = true ∧
          ((k.procTable d).pRecvfrom = .any ∨ (k.procTable d).pRecvfrom = .proc p)) := by
  cases act with
  | send s d a v =>
    have hw : wp (IpcAction.send s d a v).prog
        (fun _ k' => SendEffect ((k.setMem s a v).stamp s a) s d a k') (fun _ _ => True) k :=
      sysSend_effect
    have heff := wp_ok hw hrun
    cases heff with
    | direct b h =>
      have hp := sendsTo_of_record (h.record p)
      left
      rw [← he, hp]
      split
      · next hpd =>
        subst hpd
        rfl
      · rfl
    | queue hn h =>
      have hp := sendsTo_of_record (h.record p)
      by_cases hps : p = s
      · subst hps
        rw [if_pos rfl] at hp
        rw [hp] at he
        cases he
        exact .inr ⟨d, a, v, rfl, rfl, hn⟩
      · rw [if_neg hps] at hp
        left
        rw [← he, hp]
        rfl
  | receive r src a v =>
    have hw : wp (IpcAction.receive r src a v).prog
        (fun _ k' => ReceiveEffect ((k.setMem r a v).stamp r a) r src.endpoint a k')
        (fun _ _ => True) k :=
      sysReceive_effect _
    have heff := wp_ok hw hrun
    left
    cases heff with
    | interrupt hs h =>
      have hp := sendsTo_of_record (h.record p)
      rw [← he, hp]
      split
      · next hpr =>
        subst hpr
        rfl
      · rfl
    | take f b hs h =>
      have hp := sendsTo_of_record (h.record p)
      by_cases hpf : p = f
      · rw [if_pos hpf] at hp
        rw [hp] at he
        cases he
      · rw [if_neg hpf] at hp
        rw [← he, hp]
        rfl
    | wait hs h =>
      have hp := sendsTo_of_record (h.record p)
      rw [← he, hp]
      split
      · next hpr =>
        subst hpr
        rfl
      · rfl
  | inform t =>
    have hw : wp (IpcAction.inform t).prog
        (fun _ k' => (∃ b, WakeEffect k t b k') ∨ RememberEffect k t k') (fun _ _ => True) k :=
      informInt_effect
    have heff := wp_ok hw hrun
    left
    rcases heff with ⟨b, h⟩ | h
    · have hp := sendsTo_of_record (h.record p)
      rw [← he, hp]
      split
      · next hpt =>
        subst hpt
        rfl
      · rfl
    · have hp := sendsTo_of_record (h.record p)
      rw [← he, hp]
      split
      · next hpt =>
        subst hpt
        rfl
      · rfl

theorem IpcAction.chained_of_ok (h : Chained k) (hc : act.Callable k)
    (hrun : act.prog k = .ok () k') : Chained k' := by
  cases act with
  | send s d a v =>
    have hs : ((k.setMem s a v).setMem s a { v with source := .proc s }).sendsTo s = none := by
      change (if (k.procTable s).pFlags.sending then _ else _) = none
      rw [hc.1]
      rfl
    rw [IpcAction.send_prog] at hrun
    have hw := msgSend_chained (d := d) (a := a) ((h.setMem s a v).setMem s a _) hs
    exact wp_ok hw hrun
  | receive r src a v =>
    have hw : wp (IpcAction.receive r src a v).prog (fun _ => Chained) (fun _ _ => True) k := by
      simp only [IpcAction.prog, sysSendrec, wp_bind, wp_modify, wp_check, wp_loadMessage,
        wp_storeMessage, implies_true, and_true]
      intro _
      exact msgReceive_chained ((h.setMem r a v).setMem r a _) _
    exact wp_ok hw hrun
  | inform t => exact wp_ok (informInt_chained h t) hrun

theorem IpcAction.hanging_of_ok (hc : act.Callable k) (hrun : act.prog k = .ok () k') (p : Pid) :
    (k'.procTable p).pFlags.hanging = (k.procTable p).pFlags.hanging := by
  cases act with
  | send s d a v =>
    have hlife := sysSendrec_sameLife (k.setMem s a v) .send (.proc d) (some a) (p := s)
      (by rw [Kernel.setMem_procTable, hc.1]; rfl)
    have hstate : sysSendrec .send (.proc d) (some a) s (k.setMem s a v) = .ok () k' := hrun
    rw [hstate] at hlife
    exact hlife.hanging p
  | receive r src a v =>
    have hlife := sysSendrec_sameLife (k.setMem r a v) .receive src.endpoint (some a) (p := r)
      (by rw [Kernel.setMem_procTable, hc.1]; rfl)
    have hstate : sysSendrec .receive src.endpoint (some a) r (k.setMem r a v) = .ok () k' := hrun
    rw [hstate] at hlife
    exact hlife.hanging p
  | inform t =>
    have hcore : (k'.procTable p).core.pFlags.hanging = (k.procTable p).core.pFlags.hanging := by
      rcases wp_ok informInt_effect hrun with ⟨b, h⟩ | h
      · rw [h.record p]
        split
        · next hpt =>
          subst hpt
          rfl
        · rfl
      · rw [h.record p]
        split
        · next hpt =>
          subst hpt
          rfl
        · rfl
    exact hcore

end Ipc

/-- A call keeps the invariant where it is clear. -/
theorem QueueInv.ipc {t : Queues} {act : IpcAction} {k : Kernel} (h : QueueInv t)
    (hc : act.Callable t.kernel) (hclear : (QueueAction.ipc act).Clear t)
    (hrun : act.prog t.kernel = .ok () k) :
    QueueInv { mm := { t.mm with procTable := k.procTable }, mem := k.mem } := by
  constructor
  · exact IpcAction.chained_of_ok h.chained hc hrun
  · intro p hp
    have hp' : (t.kernel.procTable p).pFlags.hanging = true := by
      rw [← IpcAction.hanging_of_ok hc hrun p]
      exact hp
    change k.sendsTo p = none
    cases he : k.sendsTo p with
    | none => rfl
    | some e =>
      rcases IpcAction.sendsTo_of_ok hrun he with hold | ⟨d, a, v, rfl, -, -⟩
      · have hz := h.zombie p hp'
        rw [hold] at hz
        cases hz
      · rw [hc.1] at hp'
        cases hp'
  · intro s d hs
    rcases @IpcAction.sendsTo_of_ok _ k _ _ hrun _ hs with hold | ⟨d', a, v, rfl, he, hn⟩
    · exact h.alive s d hold
    · cases he
      by_contra hex
      exact hn (hclear (by simpa using hex))

/-- What MM has kept of the queues while it handles a request in which the processes in `gone`
exit. -/
structure Calm (k : Kernel) (log : List MmEvent) (gone : Pid → Prop) (t : Mm) : Prop where
  next : (t.kernel k.mem).next = k.next
  head : (t.kernel k.mem).head = k.head
  sendsTo : (t.kernel k.mem).sendsTo = k.sendsTo
  zombie : ∀ i, (t.procTable i).pFlags.hanging = true → k.sendsTo i = none
  exited : ∀ d, hasExited t.log d = true → hasExited log d = true ∨ gone d

section Requests

variable {k : Kernel} {log : List MmEvent} {gone : Pid → Prop} {p i : Pid} {t : Mm}

theorem hasExited_append (log : List MmEvent) (e : MmEvent) (p : Pid) :
    hasExited (log ++ [e]) p =
      match e with
      | .exit q _ => hasExited log p || q = p
      | .fork _ c => hasExited log p && c ≠ p
      | _ => hasExited log p := by
  simp only [hasExited, List.foldl_append, List.foldl_cons, List.foldl_nil]

theorem Calm.setProc (h : Calm k log gone t) {g : Process → Process}
    (hn : ∀ r, (g r).nextSending = r.nextSending) (hh : ∀ r, (g r).qSending = r.qSending)
    (hs : (g (t.procTable i)).sendsTo = (t.procTable i).sendsTo)
    (hz : (g (t.procTable i)).pFlags.hanging = true → k.sendsTo i = none) :
    Calm k log gone (t.setProc i g) := by
  have hset : (t.setProc i g).kernel k.mem = (t.kernel k.mem).setProc i g := rfl
  constructor
  · rw [hset, Kernel.next_setProc_same _ _ hn]
    exact h.next
  · rw [hset, Kernel.head_setProc_same _ _ hh]
    exact h.head
  · have hsame : (g ((t.kernel k.mem).procTable i)).sendsTo = (t.kernel k.mem).sendsTo i := hs
    rw [hset, Kernel.sendsTo_setProc, hsame, Function.update_eq_self]
    exact h.sendsTo
  · intro j hj
    rw [Mm.setProc_apply] at hj
    by_cases hji : j = i
    · rw [if_pos hji] at hj
      rw [hji]
      exact hz hj
    · rw [if_neg hji] at hj
      exact h.zombie j hj
  · exact h.exited

theorem Calm.addLog (h : Calm k log gone t) {e : MmEvent} (he : ∀ q s, e = .exit q s → gone q) :
    Calm k log gone (t.addLog e) := by
  refine ⟨h.next, h.head, h.sendsTo, h.zombie, ?_⟩
  intro d hd
  rw [Mm.addLog_log, hasExited_append] at hd
  cases e with
  | exit q s =>
    simp only [Bool.or_eq_true, decide_eq_true_eq] at hd
    rcases hd with hd | hd
    · exact h.exited d hd
    · subst hd
      exact .inr (he q s rfl)
  | fork q c =>
    simp only [Bool.and_eq_true] at hd
    exact h.exited d hd.1
  | wait q => exact h.exited d hd
  | adopt q => exact h.exited d hd
  | reap q s e => exact h.exited d hd
  | noChild q e s => exact h.exited d hd

theorem Calm.sendsTo_apply (h : Calm k log gone t) (i : Pid) :
    (t.procTable i).sendsTo = k.sendsTo i :=
  congrFun h.sendsTo i

theorem Calm.cleanup (h : Calm k log gone t) (hi : k.sendsTo i = none) :
    wp (MM.cleanup i) (fun _ => Calm k log gone) (fun _ _ => True) t := by
  simp only [MM.cleanup, wp_bind, wp_mmProcOf]
  cases (t.procTable i).pParent with
  | proc d =>
    apply Calm.setProc
    · exact h.addLog (by simp)
    · exact fun _ => rfl
    · exact fun _ => rfl
    · have hs := h.sendsTo_apply i
      rw [hi] at hs
      exact hs.symm
    · intro _
      exact hi
  | any => trivial
  | interrupt => trivial
  | noTask => trivial

theorem Calm.setWaiting (h : Calm k log gone t) (i : Pid) (b : Bool) :
    Calm k log gone (t.setProc i fun r => { r with pFlags := { r.pFlags with waiting := b } }) := by
  apply h.setProc
  · exact fun _ => rfl
  · exact fun _ => rfl
  · rfl
  · exact h.zombie i

theorem Calm.adoptChildren (l : List Pid) {t : Mm} (h : Calm k log gone t) :
    wp (MM.adoptChildren p l) (fun _ => Calm k log gone) (fun _ _ => True) t := by
  induction l generalizing t with
  | nil => exact h
  | cons i l ih =>
    simp only [MM.adoptChildren, wp_bind, wp_mmProcOf, wp_ite, wp_mmSetProc, wp_mmAddLog]
    constructor
    · intro _
      have h₁ : Calm k log gone
          ((t.setProc i fun r => { r with pParent := .proc init }).addLog (.adopt i)) := by
        apply Calm.addLog
        · apply h.setProc
          · exact fun _ => rfl
          · exact fun _ => rfl
          · rfl
          · exact h.zombie i
        · simp
      constructor
      · intro hi
        refine wp_mono ((h₁.setWaiting init false).cleanup ?_) (fun _ _ h' => ih h')
          (fun _ _ _ => trivial)
        exact h₁.zombie i hi.1
      · intro _
        exact ih h₁
    · intro _
      exact ih h

theorem Calm.doExit (h : Calm k log gone t) (hgone : gone p) (hp : k.sendsTo p = none)
    (status : Int) :
    wp (MM.doExit p status) (fun _ => Calm k log gone) (fun _ _ => True) t := by
  simp only [MM.doExit, wp_bind, wp_mmAddLog, wp_mmSetProc, wp_mmProcOf]
  have h₁ : Calm k log gone ((t.addLog (.exit p status)).setProc p
      fun r => { r with exitStatus := status }) := by
    apply Calm.setProc
    · apply h.addLog
      intro q s he
      cases he
      exact hgone
    · exact fun _ => rfl
    · exact fun _ => rfl
    · rfl
    · intro _
      exact hp
  generalize (t.addLog (.exit p status)).setProc p (fun r => { r with exitStatus := status }) = t₁
    at h₁
  cases (t₁.procTable p).pParent with
  | proc parent =>
    simp only [wp_bind, wp_mmProcOf, wp_ite, wp_mmSetProc]
    constructor
    · intro _
      exact wp_mono ((h₁.setWaiting parent false).cleanup hp)
        (fun _ _ h' => Calm.adoptChildren _ h') (fun _ _ _ => trivial)
    · intro _
      apply Calm.adoptChildren
      apply h₁.setProc
      · exact fun _ => rfl
      · exact fun _ => rfl
      · rfl
      · intro _
        exact hp
  | any => trivial
  | interrupt => trivial
  | noTask => trivial

theorem Calm.doWait (h : Calm k log gone t) :
    wp (MM.doWait p) (fun _ => Calm k log gone) (fun _ _ => True) t := by
  simp only [MM.doWait, wp_bind, wp_mmAddLog]
  have h₁ : Calm k log gone (t.addLog (.wait p)) := h.addLog (by simp)
  apply waitScan_spec
  · intro i _ _ hi
    exact h₁.cleanup (h₁.zombie i hi)
  · intro _
    split
    · next heq => cases heq
    · exact h₁.setWaiting p true
    · exact h₁.addLog (by simp)

end Requests

theorem QueueInv.of_calm {t : Queues} {u : Mm} {gone : Pid → Prop} (h : QueueInv t)
    (hgone : ∀ d, gone d → t.NoSender d) (hu : Calm t.kernel t.mm.log gone u) :
    QueueInv { t with mm := u } := by
  obtain ⟨q, hq⟩ := h.chained
  constructor
  · exact ⟨q, hq.congr hu.next hu.head hu.sendsTo⟩
  · intro i hi
    exact (hu.sendsTo_apply i).trans (hu.zombie i hi)
  · intro s d hs
    have hs' : t.kernel.sendsTo s = some (.proc d) := (hu.sendsTo_apply s).symm.trans hs
    by_contra hne
    rcases hu.exited d (by simpa using hne) with hold | hd
    · rw [h.alive s d hs'] at hold
      cases hold
    · exact hgone d hd s hs'

theorem Calm.refl {t : Queues} (h : QueueInv t) (gone : Pid → Prop) :
    Calm t.kernel t.mm.log gone t.mm :=
  ⟨rfl, rfl, rfl, h.zombie, fun _ hd => .inl hd⟩

/-- The child starts with an empty chain where its parent's is empty. -/
theorem QueueInv.fork {t : Queues} {p : Pid} (h : QueueInv t)
    (hlive : (t.mm.procTable p).pFlags.hanging = false)
    (hclear : (QueueAction.request (.fork p)).Clear t) :
    wp (MM.doFork p) (fun _ u => QueueInv { t with mm := u }) (fun _ _ => True) t.mm := by
  obtain ⟨hp, hno, hchild⟩ := hclear
  obtain ⟨q, hq⟩ := h.chained
  simp only [MM.doFork, wp_bind, wp_get]
  cases hfind : (List.finRange nrSlots).find? fun i => (t.mm.procTable i).pFlags = Flags.free with
  | none => exact h
  | some c =>
    have hfree : (t.mm.procTable c).pFlags = Flags.free := by simpa using List.find?_some hfind
    have hc : t.kernel.sendsTo c = none := by
      change (if (t.mm.procTable c).pFlags.sending then _ else _) = none
      rw [hfree]
      rfl
    have hnil : q c = [] := hq.eq_nil (hchild c hfind)
    have hhead : t.kernel.head p = none := by
      have hl := hq.link p
      rw [hq.eq_nil hno] at hl
      exact hl
    simp only [wp_bind, wp_check, wp_mmSetProc, implies_true, and_true]
    intro _
    generalize hu : (t.mm.setProc c fun _ => t.mm.procTable p).setProc c
      (fun r => { r with pParent := .proc p }) = u
    have hkernel : u.kernel t.mem = t.kernel.setProc c fun _ =>
        { t.mm.procTable p with pParent := .proc p } := by
      rw [← hu]
      exact Kernel.setProc_setProc t.kernel c (fun _ => t.mm.procTable p)
        fun r => { r with pParent := .proc p }
    have hsends : (u.kernel t.mem).sendsTo = t.kernel.sendsTo := by
      have hsame : ({ t.mm.procTable p with pParent := .proc p } : Process).sendsTo =
          t.kernel.sendsTo c := hp.trans hc.symm
      rw [hkernel, Kernel.sendsTo_setProc, hsame, Function.update_eq_self]
    have hchains : Chains (u.kernel t.mem) q := by
      constructor
      · intro d
        rw [hkernel, Kernel.next_setProc, Kernel.head_setProc]
        have hnext := (hq.link d).update_of_notMem (p := c) (v := t.kernel.next p) (hq.notMem hc d)
        by_cases hdc : d = c
        · subst hdc
          rw [Function.update_self, hnil]
          exact hhead
        · rw [Function.update_of_ne hdc]
          exact hnext
      · rw [hsends]
        exact hq.mem
    have hlog : u.log = t.mm.log := by
      rw [← hu]
      rfl
    -- the memory that MM allocates is not part of the queues
    have hend : ∀ sizes : Pid → Nat, QueueInv
        { t with mm := ({ u with imageSize := sizes }).addLog (.fork p c) } := by
      intro sizes
      refine ⟨⟨q, hchains⟩, ?_, ?_⟩
      · intro i hi
        have hi' : (u.procTable i).pFlags.hanging = true := hi
        have hold : (t.mm.procTable i).pFlags.hanging = true := by
          have htable : u.procTable i = if i = c then { t.mm.procTable p with pParent := .proc p }
              else t.mm.procTable i := by
            have happ := congrArg (fun k => Kernel.procTable k i) hkernel
            simp only [Kernel.setProc_apply] at happ
            exact happ
          rw [htable] at hi'
          by_cases hic : i = c
          · rw [if_pos hic] at hi'
            rw [hlive] at hi'
            cases hi'
          · rw [if_neg hic] at hi'
            exact hi'
        exact (congrFun hsends i).trans (h.zombie i hold)
      · intro s d hs
        have hold := h.alive s d ((congrFun hsends s).symm.trans hs)
        rw [Mm.addLog_log, hasExited_append]
        have hlog' : ({ u with imageSize := sizes } : Mm).log = t.mm.log := hlog
        rw [hlog', hold]
        rfl
    simp only [MM.allocMem, wp_bind, wp_check, wp_ite, wp_halt, wp_get, wp_pure, wp_modify,
      wp_mmAddLog, implies_true, and_true, true_and]
    intros
    exact hend _

theorem ClearStep.inv {t t' : Queues} {act : QueueAction} (hstep : ClearStep t act t')
    (h : QueueInv t) : QueueInv t' := by
  obtain ⟨hstep, hclear⟩ := hstep
  cases act with
  | ipc act =>
    obtain ⟨hc, k, hrun, rfl⟩ := hstep
    exact h.ipc hc hclear hrun
  | request q =>
    obtain ⟨hen, u, hrun, rfl⟩ := hstep
    cases q with
    | fork p =>
      have hw : wp (MmRequest.fork p).handle (fun _ u => QueueInv { t with mm := u })
          (fun _ _ => True) t.mm := by
        simp only [MmRequest.handle, wp_bind, wp_pure]
        exact h.fork hen.2.2.1 hclear
      exact wp_ok hw hrun
    | exit p status =>
      have hw := (Calm.refl h (· = p)).doExit rfl hclear.1 status
      have hcalm : Calm t.kernel t.mm.log (· = p) u := wp_ok (a := ()) hw hrun
      apply h.of_calm _ hcalm
      rintro d rfl
      exact hclear.2
    | wait p =>
      have hw := (Calm.refl h fun _ => False).doWait (p := p)
      have hcalm : Calm t.kernel t.mm.log (fun _ => False) u := wp_ok (a := ()) hw hrun
      apply h.of_calm _ hcalm
      intro _ hf
      exact hf.elim

theorem queuesInit_inv (imageSize : Pid → Nat) (memorySize : Nat)
    (mem : Pid → Addr → Message) : QueueInv (queuesInit imageSize memorySize mem) := by
  have hfields : ∀ p, (kernelMainTable p).nextSending = none ∧
      (kernelMainTable p).qSending = none ∧ (kernelMainTable p).sendsTo = none := by
    intro p
    by_cases hp : nrTasks + nrNativeProcs ≤ p.val
    · simp [kernelMainTable, hp, Process.sendsTo, Flags.free]
    · simp [kernelMainTable, hp, Process.sendsTo, nativeProcess]
  have hsends : ∀ p, (queuesInit imageSize memorySize mem).kernel.sendsTo p = none :=
    fun p => (hfields p).2.2
  refine ⟨⟨fun _ => [], fun d => (hfields d).2.1, ?_⟩, fun p _ => hsends p, ?_⟩
  · intro d s
    rw [hsends]
    simp
  · intro s d hs
    rw [hsends] at hs
    cases hs

/-- In every run whose steps are clear, the queues hold exactly the blocked senders, each of them
in one queue, and nobody is blocked in a send to a process that has exited. -/
theorem queuesOk_of_run {imageSize : Pid → Nat} {memorySize : Nat} {mem : Pid → Addr → Message}
    {acts : List QueueAction} {t : Queues}
    (hr : Run ClearStep (queuesInit imageSize memorySize mem) acts t) : QueuesOk t := by
  have h := hr.invariant (I := QueueInv) (queuesInit_inv imageSize memorySize mem)
    fun _ _ _ hstep hu => hstep.inv hu
  exact h.ok

private def bootQueues : Queues := queuesInit (fun _ => 0x100000) 0x2000000 fun _ _ => {}

private def callable (k : Kernel) : IpcAction → Bool
  | .send s d _ _ => (k.procTable s).pFlags = 0 ∧ d ≠ s
  | .receive r src _ _ => (k.procTable r).pFlags = 0 ∧ src ≠ .only r
  | .inform _ => true

private def enabled (t : Mm) : MmRequest → Bool
  | .fork p => nrTasks ≤ p.val ∧ (t.procTable p).pFlags.freeSlot = false ∧
      (t.procTable p).pFlags.hanging = false ∧ (t.procTable p).pFlags.waiting = false
  | _ => false

/-- A function that takes the steps of the examples below. -/
private def queueNext (t : Queues) : QueueAction → Option Queues
  | .ipc act =>
    if callable t.kernel act then
      match act.prog t.kernel with
      | .ok _ k => some { mm := { t.mm with procTable := k.procTable }, mem := k.mem }
      | .stop _ _ => none
    else none
  | .request q =>
    if enabled t.mm q then
      match q.handle t.mm with
      | .ok _ u => some { t with mm := u }
      | .stop _ _ => none
    else none

private theorem queueStep_of_next (t : Queues) (act : QueueAction) (t' : Queues)
    (h : queueNext t act = some t') : QueueStep t act t' := by
  cases act with
  | ipc act =>
    simp only [queueNext] at h
    split at h
    · rename_i hc
      split at h
      · rename_i k hrun
        cases h
        refine ⟨?_, k, hrun, rfl⟩
        cases act with
        | send s d a v =>
          simp only [callable, decide_eq_true_eq] at hc
          exact hc
        | receive r src a v =>
          simp only [callable, decide_eq_true_eq] at hc
          exact hc
        | inform t => trivial
      · cases h
    · cases h
  | request q =>
    simp only [queueNext] at h
    split at h
    · rename_i hc
      split at h
      · rename_i u hrun
        cases h
        refine ⟨?_, u, hrun, rfl⟩
        cases q with
        | fork p =>
          obtain ⟨h₁, h₂, h₃, h₄⟩ := of_decide_eq_true hc
          exact ⟨h₁, h₂, h₃, h₄, by simp⟩
        | exit p status => cases hc
        | wait p => cases hc
      · cases h
    · cases h

/-- INIT forks while nobody sends to it. -/
theorem queuesOk_of_run_fork : ∃ t,
    Run ClearStep (queuesInit (fun _ => 0x100000) 0x2000000 fun _ _ => {})
      [.request (.fork init)] t ∧ QueuesOk t := by
  have hnext : (queueNext bootQueues (.request (.fork init))).isSome = true := by decide +kernel
  obtain ⟨t, ht⟩ := Option.isSome_iff_exists.mp hnext
  have hsends : ∀ s, bootQueues.kernel.sendsTo s = none := by decide +kernel
  have hno : ∀ d, bootQueues.NoSender d := by
    intro d s hs
    rw [hsends] at hs
    cases hs
  have hr : Run ClearStep bootQueues [.request (.fork init)] t :=
    .snoc .nil ⟨queueStep_of_next _ _ _ ht, hsends init, hno init, fun c _ => hno c⟩
  exact ⟨t, hr, queuesOk_of_run hr⟩

private def testA : Pid := ⟨6, six_lt_nrSlots⟩
private def firstChild : Pid := ⟨7, seven_lt_nrSlots⟩

/-- INIT waits for the answer of MM to its fork when another process sends to it. -/
private def forkWithSender : List QueueAction :=
  [.ipc (.receive taskMm .any 0 {}), .ipc (.send init taskMm 0 { type := .fork }),
    .ipc (.receive init (.only taskMm) 0 {}), .ipc (.send testA init 0 {}),
    .request (.fork init)]

/-- The child of INIT gets a copy of INIT's queue: the sender is in two chains. -/
theorem fork_copies_chain : ∃ acts s d c t,
    Run QueueStep (queuesInit (fun _ => 0x100000) 0x2000000 fun _ _ => {}) acts t ∧
      d ≠ c ∧ t.kernel.InChain s d ∧ t.kernel.InChain s c ∧ ¬ QueuesOk t := by
  have hsome : (forkWithSender.foldlM queueNext bootQueues).isSome = true := by decide +kernel
  have hall : (forkWithSender.foldlM queueNext bootQueues).all (fun t =>
      t.kernel.head init = some testA ∧ t.kernel.head firstChild = some testA) = true := by
    decide +kernel
  obtain ⟨t, ht⟩ := Option.isSome_iff_exists.mp hsome
  have hr : Run QueueStep bootQueues forkWithSender t := Run.of_foldlM queueStep_of_next ht
  rw [ht] at hall
  obtain ⟨hinit, hchild⟩ := of_decide_eq_true hall
  have h₁ : t.kernel.InChain testA init := ⟨testA, hinit, .refl⟩
  have h₂ : t.kernel.InChain testA firstChild := ⟨testA, hchild, .refl⟩
  have hne : init ≠ firstChild := by decide
  exact ⟨forkWithSender, testA, init, firstChild, t, hr, hne, h₁, h₂,
    fun hok => hne (hok.one _ _ _ h₁ h₂)⟩

end BazingaOS
