import BazingaOS.Kernel.IpcRefine

/-!
# Receiving and interrupts refine the rendezvous machine

The queue surgery of `msg_receive`, its blocking branches and `inform_int`.
-/

namespace BazingaOS

open Prog

variable {k : Kernel} {x : Ipc} {r f t z : Pid} {a b : Addr}

/-- The record of a sender whose message has been taken. -/
def Process.unblockSending (p : Process) : Process :=
  { p with
    nextSending := none
    pMsg := none
    pFlags := { p.pFlags with sending := false }
    pSendto := .noTask }

private theorem unblockSending_eq :
    Process.unblockSending = fun p =>
      { p with
        nextSending := none
        pMsg := none
        pFlags := { p.pFlags with sending := false }
        pSendto := .noTask } := rfl

/-- The table after `f` has left the queue of `r`; `z` is the element before it. -/
def Kernel.dequeue (k : Kernel) (r f : Pid) (z : Option Pid) : Kernel :=
  (match z with
    | some z => k.setProc z fun p => { p with nextSending := k.next f }
    | none => k.setProc r fun p => { p with qSending := k.next f }).setProc f
      Process.unblockSending

theorem Kernel.setMem_setProc (k : Kernel) (p q : Pid) (a : Addr) (v : Message)
    (g : Process → Process) : (k.setMem q a v).setProc p g = (k.setProc p g).setMem q a v := rfl

namespace Refines

variable (h : Refines k x)
include h

private theorem unblockSending_encodes (hf : x.status f = .sending r b) :
    Encodes (k.procTable f).unblockSending .idle := by
  obtain ⟨hf1, -, -, hf4⟩ := h.sending_fields hf
  exact ⟨by rw [Process.unblockSending, hf1]; rfl, rfl, rfl, hf4⟩

private theorem wf_dequeue (hf : x.status f = .sending r b) :
    ((x.setStatus f .idle).setQueue r ((x.queue r).erase f)).WF := by
  have hm : f ∈ x.queue r := (h.wf.mem_queue r f).mpr ⟨b, hf⟩
  have hw := Rendezvous.wf_take (a := b) h.wf hm
  simp only [Rendezvous.take, hf] at hw
  exact ⟨hw.mem_queue, hw.nodup⟩

theorem dequeue_head (hf : x.status f = .sending r b) (hfr : f ≠ r) {l : List Pid}
    (hq : x.queue r = f :: l) :
    Refines (k.dequeue r f none) ((x.setStatus f .idle).setQueue r ((x.queue r).erase f)) := by
  have hk : ∀ p, (k.dequeue r f none).procTable p =
      if p = f then (k.procTable f).unblockSending
      else if p = r then { k.procTable r with qSending := k.next f } else k.procTable p := by
    intro p
    simp [Kernel.dequeue, Kernel.setProc_apply, hfr]
  have hnext : (k.dequeue r f none).next = Function.update k.next f none := by
    have hr : Function.update k.next r (k.procTable r).nextSending = k.next :=
      Function.update_eq_self r k.next
    simp only [Kernel.dequeue, Kernel.next_setProc, Process.unblockSending, hr]
  have hfq : f ∈ x.queue r := by simp [hq]
  refine h.relink (p := f) (v := .idle) (fun q hqf => ?_) ?_ ?_ rfl rfl h.mem
    (fun q hq' => ?_) (fun e => ?_) (h.wf_dequeue hf)
  · rw [hk, if_neg hqf]
    by_cases hqr : q = r
    · subst hqr; simp only [if_true]; constructor <;> rfl
    · rw [if_neg hqr]; constructor <;> rfl
  · rw [hk, if_pos rfl]
    exact h.unblockSending_encodes hf
  · simp [hk, Process.unblockSending]
  · rw [hnext]
    by_cases hqf : q = f
    · subst hqf; simp
    · rw [Function.update_of_ne hqf]
      apply h.next_none
      simpa [Rendezvous.setStatus, Rendezvous.setQueue, hqf] using hq'
  · have hle := h.queue e
    rw [hnext, hk]
    change Linked _ _ (Function.update x.queue r ((x.queue r).erase f) e)
    by_cases her : e = r
    · subst her
      rw [hq] at hle
      have hfl : f ∉ l := (List.nodup_cons.mp hle.nodup).1
      simpa [hfr.symm, hq] using hle.2.update_of_notMem hfl
    · rw [Function.update_of_ne her]
      have hfe := h.notMem_queue_of_ne hfq her
      by_cases hef : e = f
      · subst hef
        simpa [Process.unblockSending] using hle.update_of_notMem hfe
      · simpa [hef, her] using hle.update_of_notMem hfe

theorem dequeue_mid (hf : x.status f = .sending r b) (l₁ l₂ : List Pid)
    (hq : x.queue r = l₁ ++ z :: f :: l₂) :
    Refines (k.dequeue r f (some z))
      ((x.setStatus f .idle).setQueue r ((x.queue r).erase f)) := by
  have hnd := h.wf.nodup r
  have hzf : z ≠ f := by
    intro he
    have htail := (List.nodup_append.mp (hq ▸ hnd)).2.1
    simp [he] at htail
  have hf₁ : f ∉ l₁ := by
    intro hm
    rw [hq, List.nodup_append] at hnd
    exact hnd.2.2 f hm f (by simp) rfl
  have herase : (x.queue r).erase f = l₁ ++ z :: l₂ := by
    rw [hq, List.erase_append_right _ hf₁, List.erase_cons_tail (by simpa using hzf)]
    simp
  have hk : ∀ p, (k.dequeue r f (some z)).procTable p =
      if p = f then (k.procTable f).unblockSending
      else if p = z then { k.procTable z with nextSending := k.next f } else k.procTable p := by
    intro p
    simp [Kernel.dequeue, Kernel.setProc_apply, hzf.symm]
  have hnext : (k.dequeue r f (some z)).next =
      Function.update (Function.update k.next z (k.next f)) f none := by
    simp only [Kernel.dequeue, Kernel.next_setProc, Process.unblockSending]
  have hhead : ∀ e, ((k.dequeue r f (some z)).procTable e).qSending =
      (k.procTable e).qSending := by
    intro e
    rw [hk]
    by_cases hef : e = f
    · subst hef; simp [Process.unblockSending]
    · by_cases hez : e = z
      · subst hez; simp [hef]
      · simp [hef, hez]
  have hfq : f ∈ x.queue r := by simp [hq]
  have hzq : z ∈ x.queue r := by simp [hq]
  refine h.relink (p := f) (v := .idle) (fun q hqf => ?_) ?_ ?_ rfl rfl h.mem
    (fun q hq' => ?_) (fun e => ?_) (h.wf_dequeue hf)
  · rw [hk, if_neg hqf]
    by_cases hqz : q = z
    · subst hqz; simp only [if_true]; constructor <;> rfl
    · rw [if_neg hqz]; constructor <;> rfl
  · rw [hk, if_pos rfl]
    exact h.unblockSending_encodes hf
  · simp [hk, Process.unblockSending]
  · rw [hnext]
    by_cases hqf : q = f
    · subst hqf; simp
    · have hns : ∀ e c, x.status q ≠ .sending e c := by
        simpa [Rendezvous.setStatus, Rendezvous.setQueue, hqf] using hq'
      have hqz : q ≠ z := by
        intro he
        subst he
        obtain ⟨c, hc⟩ := (h.wf.mem_queue r q).mp hzq
        exact hns r c hc
      rw [Function.update_of_ne hqf, Function.update_of_ne hqz]
      exact h.next_none q hns
  · have hle := h.queue e
    rw [hnext, hhead]
    change Linked _ _ (Function.update x.queue r ((x.queue r).erase f) e)
    by_cases her : e = r
    · subst her
      rw [hq] at hle
      rw [Function.update_self, herase]
      exact hle.unlink
    · rw [Function.update_of_ne her]
      exact (hle.update_of_notMem (h.notMem_queue_of_ne hzq her)).update_of_notMem
        (h.notMem_queue_of_ne hfq her)

end Refines

theorem findSender_spec {n : Nat} {h : Option Pid} (prev : Option Pid) {l : List Pid}
    (hl : Linked k.next h l) (hf : f ∈ l) (hs : (k.procTable f).pFlags.sending = true)
    (hn : l.length < n) :
    wp (findSender f n prev h) (fun p k' => k' = k ∧ ∃ l₁ l₂, l = l₁ ++ f :: l₂ ∧
      p = l₁.getLast?.or prev) (fun _ _ => False) k := by
  induction l generalizing n h prev with
  | nil => cases hf
  | cons q l ih =>
    obtain ⟨n, rfl⟩ : ∃ m, n = m + 1 := ⟨n - 1, by simp at hn; omega⟩
    obtain ⟨rfl, hl⟩ := hl
    by_cases hqf : q = f
    · subst hqf
      simp only [findSender, wp_bind, wp_procOf, wp_check, hs, if_true, wp_pure]
      exact ⟨fun _ => ⟨trivial, [], l, rfl, rfl⟩, fun hne => hne trivial⟩
    · have hf' : f ∈ l := by
        rcases List.mem_cons.mp hf with he | he
        · exact (hqf he.symm).elim
        · exact he
      have hrec := ih (some q) hl hf' (by simpa using hn)
      simp only [findSender, wp_bind, wp_procOf, wp_check, hs, hqf, if_false]
      refine ⟨fun _ => wp_mono hrec ?_ (fun _ _ hE => hE), fun hne => hne trivial⟩
      rintro p k' ⟨rfl, l₁, l₂, rfl, rfl⟩
      refine ⟨rfl, q :: l₁, l₂, rfl, ?_⟩
      cases l₁ <;> simp [List.getLast?_cons]

theorem checkReceive_spec (h : Refines k x) (hr : x.status r = .idle)
    (hf : x.status f = .sending r b) :
    wp (checkReceive r f) (fun _ k' => k' = k) (fun _ _ => False) k := by
  obtain ⟨hr1, hr2, hr3, hr4⟩ := h.idle_fields hr
  obtain ⟨hf1, hf2, hf3, hf4⟩ := h.sending_fields hf
  have hq : (k.procTable r).qSending ≠ none := by
    intro hnone
    have hl := h.queue r
    have hm : f ∈ x.queue r := (h.wf.mem_queue r f).mpr ⟨b, hf⟩
    rw [hnone] at hl
    cases hx : x.queue r with
    | nil => simp [hx] at hm
    | cons q l => simp [hx] at hl
  simp [checkReceive, hr1, hr2, hr3, hr4, hf1, hf2, hf3, hf4, hq]

theorem takeMessage_refines (h : Refines k x) (hr : x.status r = .idle)
    (hf : x.status f = .sending r b) {prev : Option Pid} (l₁ : List Pid) {l₂ : List Pid}
    (hq : x.queue r = l₁ ++ f :: l₂) (hp : prev = l₁.getLast?) :
    wp (takeMessage r f prev (some a)) (fun _ k' => Refines k' (x.take r f a))
      (fun _ _ => False) k := by
  have hfr : f ≠ r := by intro he; rw [he, hr] at hf; cases hf
  obtain ⟨hf1, hf2, -, -⟩ := h.sending_fields hf
  have hl := h.queue r
  have hx : x.take r f a =
      ((x.setStatus f .idle).setQueue r ((x.queue r).erase f)).setMem r a (x.mem f b) := by
    simp [Rendezvous.take, hf, Rendezvous.setMem, Rendezvous.setStatus, Rendezvous.setQueue]
  rw [hx]
  rcases List.eq_nil_or_concat l₁ with hnil | ⟨l, z, hlz⟩
  · subst hnil
    rw [hq] at hl
    have hhead : (k.procTable r).qSending = some f := hl.1
    have hk := (h.dequeue_head hf hfr hq).setMem r a (x.mem f b)
    simpa [takeMessage, hhead, hf1, hf2, h.mem, Kernel.dequeue, Kernel.next,
      unblockSending_eq, Kernel.setMem_setProc, Kernel.setProc_of_ne _ _ hfr] using hk
  · rw [List.concat_eq_append] at hlz
    subst hlz
    have hprev : prev = some z := by simpa using hp
    have hzf : z ≠ f := by
      intro he
      have hnd := h.wf.nodup r
      rw [hq, List.append_assoc] at hnd
      have htail := (List.nodup_append.mp hnd).2.1
      simp [he] at htail
    have hhead : (k.procTable r).qSending ≠ some f := by
      intro he
      rw [he, hq] at hl
      cases l with
      | nil => exact hzf (Option.some.inj hl.1.symm)
      | cons y l =>
        have hnd := hl.nodup
        have hyf : f = y := Option.some.inj hl.1
        simp [hyf] at hnd
    have hk := (h.dequeue_mid hf l l₂ (by simpa using hq)).setMem r a (x.mem f b)
    simpa [takeMessage, hhead, hprev, hf1, hf2, h.mem, Kernel.dequeue, Kernel.next,
      unblockSending_eq, Kernel.setMem_setProc, Kernel.setProc_of_ne _ _ hzf.symm] using hk

/-- A receiver that blocks with an interrupt pending fails the last assertion of `msg_receive`;
the table is the same either way. -/
theorem waitMessage_refines (h : Refines k x) (hr : x.status r = .idle) (src : Source Pid) :
    wp (waitMessage r src.endpoint (some a))
      (fun _ k' => Refines k' (x.setStatus r (.receiving src a)))
      (fun w k' => w = .assertion ∧ x.pending r = true ∧
        Refines k' (x.setStatus r (.receiving src a))) k := by
  obtain ⟨hr1, -, hr3, -⟩ := h.idle_fields hr
  have hk : Refines (k.setProc r fun p => { p with
      pMsg := some a
      pRecvfrom := src.endpoint
      pFlags := { p.pFlags with receiving := true } }) (x.setStatus r (.receiving src a)) := by
    apply h.setStatus (by simp [hr]) (by simp)
    · exact ⟨by rw [hr1]; rfl, rfl, hr3, rfl⟩
    all_goals rfl
  have hf : ({ receiving := true } : Flags) ≠ 0 := by decide
  have hsrc : src.endpoint ≠ .noTask := by cases src <;> simp [Source.endpoint]
  have hint := h.pending r
  cases hp : x.pending r with
  | false =>
    rw [hp] at hint
    simpa [waitMessage, hr1, hr3, hf, hsrc, hint] using hk
  | true =>
    rw [hp] at hint
    simpa [waitMessage, hr1, hr3, hf, hsrc, hint] using hk

theorem waitInterrupt_refines (h : Refines k x) (hr : x.status r = .idle) :
    wp (waitInterrupt r (some a))
      (fun _ k' => Refines k' (x.setStatus r (.receiving .interrupt a))) (fun _ _ => False) k := by
  obtain ⟨hr1, -, hr3, -⟩ := h.idle_fields hr
  have hk : Refines (k.setProc r fun p => { p with
      pFlags := { p.pFlags with receiving := true }
      pRecvfrom := .interrupt
      pMsg := some a }) (x.setStatus r (.receiving .interrupt a)) := by
    apply h.setStatus (by simp [hr]) (by simp)
    · exact ⟨by rw [hr1]; rfl, rfl, hr3, rfl⟩
    all_goals rfl
  have hf : ({ receiving := true } : Flags) ≠ 0 := by decide
  simpa [waitInterrupt, hr1, hf] using hk

theorem takeInterrupt_refines (h : Refines k x) (hr : x.status r = .idle) :
    wp (takeInterrupt r (some a))
      (fun _ k' => Refines k' ((x.setMem r a intMessage).setPending r false))
      (fun _ _ => False) k := by
  obtain ⟨hr1, hr2, hr3, -⟩ := h.idle_fields hr
  have hk := (h.setMem r a intMessage).setPending r false
  simpa [takeInterrupt, hr1, hr2, hr3] using hk

theorem sender_iff (h : Refines k x) (s : Pid) :
    ((k.procTable s).pFlags.sending = true ∧ (k.procTable s).pSendto = .proc r) ↔
      s ∈ x.queue r := by
  rw [h.wf.mem_queue r s]
  constructor
  · rintro ⟨hs, hto⟩
    obtain ⟨d, b, hd⟩ := (h.sending_iff s).mp hs
    have hd' := (h.sending_fields hd).2.2.1
    rw [hto] at hd'
    cases hd'
    exact ⟨b, hd⟩
  · rintro ⟨b, hb⟩
    exact ⟨(h.sending_iff s).mpr ⟨r, b, hb⟩, (h.sending_fields hb).2.2.1⟩

private theorem receiveAny_refines (h : Refines k x) (hr : x.status r = .idle)
    (hi : x.interrupted r .any = false) :
    wp (match (k.procTable r).qSending with
        | some f => do checkReceive r f; takeMessage r f none (some a)
        | none => waitMessage r .any (some a))
      (fun _ k' => Refines k' (x.receive intMessage r .any a))
      (fun w k' => w = .assertion ∧ (x.pending r = true ∧ x.candidate r .any = none) ∧
        Refines k' (x.receive intMessage r .any a)) k := by
  have hl := h.queue r
  cases hq : x.queue r with
  | nil =>
    rw [hq] at hl
    have hx : x.receive intMessage r .any a = x.setStatus r (.receiving .any a) := by
      simp [Rendezvous.receive, hi, Rendezvous.candidate, hq]
    rw [show (k.procTable r).qSending = none from hl, hx]
    exact wp_mono (waitMessage_refines h hr .any) (fun _ _ hQ => hQ)
      (fun _ _ hE => ⟨hE.1, ⟨hE.2.1, by simp [Rendezvous.candidate, hq]⟩, hE.2.2⟩)
  | cons f l =>
    rw [hq] at hl
    obtain ⟨b, hf⟩ := (h.wf.mem_queue r f).mp (by simp [hq])
    have hx : x.receive intMessage r .any a = x.take r f a := by
      simp [Rendezvous.receive, hi, Rendezvous.candidate, hq]
    rw [hl.1, hx]
    rw [wp_bind]
    refine wp_mono (checkReceive_spec h hr hf) ?_ (fun _ _ hE => hE.elim)
    rintro _ k' rfl
    exact wp_mono (takeMessage_refines h hr hf [] hq rfl) (fun _ _ hQ => hQ)
      (fun _ _ hE => hE.elim)

private theorem receiveOnly_refines (h : Refines k x) (hr : x.status r = .idle) (s : Pid) :
    wp (if (k.procTable s).pFlags.sending ∧ (k.procTable s).pSendto = .proc r then do
          check ((k.procTable r).qSending ≠ none)
          let prev ← findSender s (nrSlots + 1) none (k.procTable r).qSending
          checkReceive r s
          takeMessage r s prev (some a)
        else waitMessage r (.proc s) (some a))
      (fun _ k' => Refines k' (x.receive intMessage r (.only s) a))
      (fun w k' => w = .assertion ∧ (x.pending r = true ∧ x.candidate r (.only s) = none) ∧
        Refines k' (x.receive intMessage r (.only s) a)) k := by
  have hl := h.queue r
  rw [wp_ite, sender_iff h s]
  refine ⟨fun hs => ?_, fun hs => ?_⟩
  · obtain ⟨b, hf⟩ := (h.wf.mem_queue r s).mp hs
    have hx : x.receive intMessage r (.only s) a = x.take r s a := by
      simp [Rendezvous.receive, Rendezvous.interrupted, Rendezvous.candidate, hs]
    have hhead : (k.procTable r).qSending ≠ none := by
      intro hnone
      rw [hnone] at hl
      cases hq : x.queue r with
      | nil => simp [hq] at hs
      | cons q l => simp [hq] at hl
    have hlen : (x.queue r).length < nrSlots + 1 := Nat.lt_succ_of_le (h.length_queue_le r)
    have hsend := (h.sending_iff s).mpr ⟨r, b, hf⟩
    simp only [wp_bind, wp_check]
    refine ⟨fun _ => ?_, fun hne => (hne hhead).elim⟩
    refine wp_mono (findSender_spec none hl hs hsend hlen) ?_ (fun _ _ hE => hE.elim)
    rintro prev k' ⟨rfl, l₁, l₂, hq, hprev⟩
    refine wp_mono (checkReceive_spec h hr hf) ?_ (fun _ _ hE => hE.elim)
    rintro _ k' rfl
    rw [hx]
    exact wp_mono (takeMessage_refines h hr hf l₁ hq (by simpa using hprev)) (fun _ _ hQ => hQ)
      (fun _ _ hE => hE.elim)
  · have hx : x.receive intMessage r (.only s) a = x.setStatus r (.receiving (.only s) a) := by
      simp [Rendezvous.receive, Rendezvous.interrupted, Rendezvous.candidate, hs]
    rw [hx]
    exact wp_mono (waitMessage_refines h hr (.only s)) (fun _ _ hQ => hQ)
      (fun _ _ hE => ⟨hE.1, ⟨hE.2.1, by simp [Rendezvous.candidate, hs]⟩, hE.2.2⟩)

theorem msgReceive_refines (h : Refines k x) (hr : x.status r = .idle) (src : Source Pid)
    (hsrc : src ≠ .only r) :
    wp (msgReceive r src.endpoint (some a))
      (fun _ k' => Refines k' (x.receive intMessage r src a))
      (fun w k' => w = .assertion ∧
        (x.pending r = true ∧ x.candidate r src = none ∧ x.interrupted r src = false) ∧
        Refines k' (x.receive intMessage r src a)) k := by
  have hne : src.endpoint ≠ .proc r := by
    cases src with
    | only q => simpa [Source.endpoint] using hsrc
    | any => simp [Source.endpoint]
    | interrupt => simp [Source.endpoint]
  have hint := h.pending r
  simp only [msgReceive, wp_bind, wp_check, wp_procOf, wp_ite]
  refine ⟨fun _ => ⟨fun hc => ?_, fun hc => ?_⟩, fun hcon => (hcon hne).elim⟩
  · have hi : x.interrupted r src = true := by
      rw [hint] at hc
      cases src with
      | only q => simp [Source.endpoint] at hc
      | any => exact hc.1
      | interrupt => exact hc.1
    have hx : x.receive intMessage r src a = (x.setMem r a intMessage).setPending r false := by
      simp [Rendezvous.receive, hi]
    rw [hx]
    exact wp_mono (takeInterrupt_refines h hr) (fun _ _ hQ => hQ) (fun _ _ hE => hE.elim)
  · cases src with
    | any =>
      have hi : x.interrupted r .any = false := by
        simpa [Source.endpoint, hint, Rendezvous.interrupted] using hc
      exact wp_mono (receiveAny_refines h hr hi) (fun _ _ hQ => hQ)
        (fun _ _ hE => ⟨hE.1, ⟨hE.2.1.1, hE.2.1.2, hi⟩, hE.2.2⟩)
    | interrupt =>
      have hi : x.interrupted r .interrupt = false := by
        simpa [Source.endpoint, hint, Rendezvous.interrupted] using hc
      have hx : x.receive intMessage r .interrupt a =
          x.setStatus r (.receiving .interrupt a) := by
        simp [Rendezvous.receive, hi, Rendezvous.candidate]
      rw [hx]
      exact wp_mono (waitInterrupt_refines h hr) (fun _ _ hQ => hQ) (fun _ _ hE => hE.elim)
    | only s =>
      rw [show (Source.only s).endpoint = .proc s from rfl]
      simp only [wp_bind, wp_procOf]
      exact wp_mono (receiveOnly_refines h hr s) (fun _ _ hQ => hQ)
        (fun _ _ hE => ⟨hE.1, ⟨hE.2.1.1, hE.2.1.2, rfl⟩, hE.2.2⟩)

/-- What `inform_int` writes into the buffer of a task that waits for an interrupt. -/
def markInt (v : Message) : Message := { v with source := .interrupt, type := .hardInt }

private theorem awaits_iff (h : Refines k x) :
    ((k.procTable t).pFlags.receiving = true ∧ ((k.procTable t).pRecvfrom = .interrupt ∨
      (k.procTable t).pRecvfrom = .any)) ↔ ∃ b, x.awaits t = some b := by
  have he := h.record t
  cases ht : x.status t with
  | free =>
    rw [ht] at he
    simp [show (k.procTable t).pFlags = Flags.free from he, Flags.free, Rendezvous.awaits, ht]
  | idle => simp [(h.idle_fields ht).1, Rendezvous.awaits, ht]
  | sending d a => simp [(h.sending_fields ht).1, Rendezvous.awaits, ht]
  | receiving src a =>
    obtain ⟨h1, -, -, h4⟩ := h.receiving_fields ht
    cases src <;> simp [h1, h4, Rendezvous.awaits, ht, Source.endpoint]

theorem informInt_refines (h : Refines k x) (t : Pid) :
    wp (informInt t) (fun _ k' => Refines k' (x.inform markInt t)) (fun _ _ => False) k := by
  simp only [informInt, wp_bind, wp_procOf, wp_ite]
  rw [awaits_iff h]
  refine ⟨?_, fun hn => ?_⟩
  · rintro ⟨b, hb⟩
    obtain ⟨src, ht⟩ : ∃ src, x.status t = .receiving src b := by
      rcases Rendezvous.status_of_awaits hb with ht | ht <;> exact ⟨_, ht⟩
    obtain ⟨ht1, ht2, ht3, -⟩ := h.receiving_fields ht
    have hx : x.inform markInt t =
        ((x.setMem t b (markInt (x.mem t b))).setStatus t .idle).setPending t false := by
      simp [Rendezvous.inform, hb]
    rw [hx]
    have hk : Refines ((k.setMem t b (markInt (x.mem t b))).setProc t fun p => { p with
        pMsg := none
        pFlags := { p.pFlags with receiving := false }
        pRecvfrom := .noTask }) ((x.setMem t b (markInt (x.mem t b))).setStatus t .idle) := by
      apply (h.setMem t b (markInt (x.mem t b))).setStatus (by simp [Rendezvous.setMem, ht])
        (by simp)
      · exact ⟨by simp [ht1], rfl, ht3, rfl⟩
      all_goals rfl
    have hk' := hk.setPending t false
    have hz : ({ } : Flags) = 0 := rfl
    simpa [ht1, ht2, ht3, h.mem, markInt, hz, Kernel.setMem_setProc] using hk'
  · have hb : x.awaits t = none := by
      rw [not_exists] at hn
      exact Option.eq_none_iff_forall_ne_some.mpr hn
    have hx : x.inform markInt t = x.setPending t true := by
      simp [Rendezvous.inform, hb]
    rw [hx]
    exact h.setPending t true

end BazingaOS
