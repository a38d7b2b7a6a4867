import BazingaOS.MM.Family

/-!
# The life cycle of processes

The log of MM is a history of the family that the process table shows, in every state that
requests and messages can reach.
-/

namespace BazingaOS

open Prog

/-- The phase that a record shows. -/
def Process.phase (r : Process) : Phase :=
  if r.pFlags.freeSlot then .free
  else if r.pFlags.hanging then .zombie r.exitStatus
  else .live

/-- The family that a process table shows. -/
def Mm.family (t : Mm) : Family where
  phase p := (t.procTable p).phase
  parent p := (t.procTable p).pParent
  inWait p := (t.procTable p).pFlags.waiting

/-- `t'` continues the history of `t` by events of the life cycle. -/
def Mm.Extends (t t' : Mm) : Prop :=
  ∃ evs, t'.log = t.log ++ evs ∧ t.family.after evs = some t'.family

theorem Mm.Extends.refl (t : Mm) : t.Extends t := ⟨[], by simp, rfl⟩

theorem Mm.Extends.trans {t t' t'' : Mm} (h : t.Extends t') (h' : t'.Extends t'') :
    t.Extends t'' := by
  obtain ⟨l, hl, hf⟩ := h
  obtain ⟨l', hl', hf'⟩ := h'
  refine ⟨l ++ l', ?_, ?_⟩
  · rw [hl', hl, List.append_assoc]
  · rw [Family.after_append hf, hf']

theorem Mm.Extends.event {t t' : Mm} {e : MmEvent} (hl : t'.log = t.log ++ [e])
    (hf : t.family.apply e = some t'.family) : t.Extends t' := by
  refine ⟨[e], hl, ?_⟩
  simp [Family.after, hf]

section Basic

variable {t t' : Mm} {p q : Pid} {f : Process → Process} {e : MmEvent}

@[simp] theorem Mm.setProc_self : (t.setProc p f).procTable p = f (t.procTable p) := by
  simp [Mm.setProc]

theorem Mm.setProc_of_ne (h : q ≠ p) : (t.setProc p f).procTable q = t.procTable q := by
  simp [Mm.setProc, h]

theorem Mm.setProc_apply : (t.setProc p f).procTable q =
    if q = p then f (t.procTable p) else t.procTable q := by
  by_cases h : q = p <;> simp [Mm.setProc, h]

@[simp] theorem Mm.setProc_log : (t.setProc p f).log = t.log := rfl
@[simp] theorem Mm.addLog_procTable : (t.addLog e).procTable = t.procTable := rfl
@[simp] theorem Mm.addLog_log : (t.addLog e).log = t.log ++ [e] := rfl
@[simp] theorem Mm.addLog_family : (t.addLog e).family = t.family := rfl

@[simp] theorem wp_mmProcOf {Q : Process → Mm → Prop} {E : Stop → Mm → Prop} :
    wp (MM.procOf p) Q E t ↔ Q (t.procTable p) t := by simp [MM.procOf]

@[simp] theorem wp_mmSetProc {Q : Unit → Mm → Prop} {E : Stop → Mm → Prop} :
    wp (MM.setProc p f) Q E t ↔ Q () (t.setProc p f) := Iff.rfl

@[simp] theorem wp_mmAddLog {Q : Unit → Mm → Prop} {E : Stop → Mm → Prop} :
    wp (MM.addLog e) Q E t ↔ Q () (t.addLog e) := Iff.rfl

theorem Process.phase_eq_free {r : Process} : r.phase = .free ↔ r.pFlags.freeSlot = true := by
  unfold Process.phase
  split <;> rename_i h
  · simp [h]
  · split <;> simp_all

theorem Process.phase_eq_live {r : Process} :
    r.phase = .live ↔ r.pFlags.freeSlot = false ∧ r.pFlags.hanging = false := by
  unfold Process.phase
  cases r.pFlags.freeSlot <;> cases r.pFlags.hanging <;> simp

theorem Process.phase_eq_zombie {r : Process} {status : Int} : r.phase = .zombie status ↔
    r.pFlags.freeSlot = false ∧ r.pFlags.hanging = true ∧ r.exitStatus = status := by
  unfold Process.phase
  cases r.pFlags.freeSlot <;> cases r.pFlags.hanging <;> simp

theorem Mm.setProc_family : (t.setProc p f).family =
    ((t.family.setPhase p (f (t.procTable p)).phase).setParent p (f (t.procTable p)).pParent).setWait
      p (f (t.procTable p)).pFlags.waiting := by
  ext q
  all_goals
    by_cases h : q = p
    · subst h
      simp [Mm.family, Family.setPhase, Family.setParent, Family.setWait]
    · simp [Mm.family, Family.setPhase, Family.setParent, Family.setWait, Mm.setProc_of_ne h, h]

theorem wp_cleanup {Q : Unit → Mm → Prop} {E : Stop → Mm → Prop} {d : Pid}
    (hp : (t.procTable p).pParent = .proc d) :
    wp (MM.cleanup p) Q E t ↔ Q () ((t.addLog (.reap p (t.procTable p).exitStatus d)).setProc p
      fun r => { r with pFlags := Flags.free }) := by
  simp [MM.cleanup, hp]

end Basic

/-- A free slot has no other flag. -/
def Mm.FreeOk (t : Mm) : Prop :=
  ∀ p, (t.procTable p).pFlags.freeSlot = true → (t.procTable p).pFlags = Flags.free

/-- The invariant between two requests. -/
structure MmInv (t : Mm) : Prop where
  free : t.FreeOk
  family : FamilyInv (fun _ _ => False) (fun _ => False) t.family

section Handlers

variable {t t' : Mm} {p q i d : Pid} {l : List Pid}

theorem Mm.FreeOk.setProc (h : t.FreeOk) {f : Process → Process}
    (hf : (f (t.procTable p)).pFlags.freeSlot = true → (f (t.procTable p)).pFlags = Flags.free) :
    (t.setProc p f).FreeOk := by
  intro q
  rw [Mm.setProc_apply]
  by_cases hq : q = p
  · rw [if_pos hq]
    exact hf
  · rw [if_neg hq]
    exact h q

theorem Mm.setProc_waiting_family (d : Pid) (b : Bool) :
    (t.setProc d fun r => { r with pFlags := { r.pFlags with waiting := b } }).family =
      t.family.setWait d b := by
  rw [Mm.setProc_family]
  ext q
  all_goals
    by_cases hq : q = d
    · subst hq
      simp [Family.setPhase, Family.setParent, Family.setWait, Mm.family, Process.phase]
    · simp [Family.setPhase, Family.setParent, Family.setWait, hq]

theorem Mm.setProc_free_family (hi : (t.procTable i).pFlags.waiting = false) :
    (t.setProc i fun r => { r with pFlags := Flags.free }).family = t.family.setPhase i .free := by
  rw [Mm.setProc_family]
  ext q
  all_goals
    by_cases hq : q = i
    · subst hq
      simp [Family.setPhase, Family.setParent, Family.setWait, Mm.family, Process.phase,
        Flags.free, hi]
    · simp [Family.setPhase, Family.setParent, Family.setWait, hq]

theorem Mm.setProc_parent_family (v : Endpoint) :
    (t.setProc i fun r => { r with pParent := v }).family = t.family.setParent i v := by
  rw [Mm.setProc_family]
  ext q
  all_goals
    by_cases hq : q = i
    · subst hq
      simp [Family.setPhase, Family.setParent, Family.setWait, Mm.family, Process.phase]
    · simp [Family.setPhase, Family.setParent, Family.setWait, hq]

theorem cleanup_spec (hfree : t.FreeOk) (hid : i ≠ d) (hp : t.family.parent i = .proc d)
    (hw : t.family.inWait i = false) {Q : Unit → Mm → Prop} {E : Stop → Mm → Prop}
    (hQ : ∀ t', t'.log = t.log ++ [.reap i (t.procTable i).exitStatus d] → t'.FreeOk →
      t'.family = (t.family.setPhase i .free).setWait d false → Q () t') :
    wp (MM.cleanup i) Q E
      (t.setProc d fun r => { r with pFlags := { r.pFlags with waiting := false } }) := by
  have hi : (t.setProc d fun r => { r with pFlags := { r.pFlags with waiting := false } }).procTable
      i = t.procTable i := Mm.setProc_of_ne hid
  rw [wp_cleanup (d := d) (by rw [hi]; exact hp), hi]
  apply hQ
  · simp
  · have h₁ : (t.setProc d fun r => { r with pFlags := { r.pFlags with waiting := false }
        }).FreeOk := by
      apply hfree.setProc
      intro h
      simp [hfree d h, Flags.free]
    refine Mm.FreeOk.setProc ?_ (fun _ => rfl)
    exact h₁
  · rw [Mm.setProc_free_family (by rw [Mm.addLog_procTable, hi]; exact hw), Mm.addLog_family,
      Mm.setProc_waiting_family]
    rfl

theorem adoptChildren_spec (l : List Pid) {t : Mm} (hfree : t.FreeOk)
    (hf : FamilyInv (fun c d => d = p ∧ c ∈ l) (fun _ => False) t.family)
    (hp : t.family.phase p ≠ .live) :
    wp (MM.adoptChildren p l)
      (fun _ t' => t.Extends t' ∧ MmInv t' ∧ t.family.Frame p t'.family) (fun _ _ => False) t := by
  induction l generalizing t with
  | nil =>
    refine ⟨Mm.Extends.refl t, ⟨hfree, hf.mono ?_ ?_⟩,
      ⟨fun _ h => h, fun _ _ h => h, fun _ _ _ h => h⟩⟩
    · intro c d _ h
      cases h.2
    · intro q d s h
      exact h.elim
  | cons i l ih =>
    simp only [MM.adoptChildren, wp_bind, wp_mmProcOf, wp_ite]
    refine ⟨fun hi => ?_, fun hi => ?_⟩
    · have hn : nrTasks + nrNativeProcs ≤ i.val := by
        by_contra hlt
        have hnt := (hf.native i (by omega)).2
        rw [show t.family.parent i = .proc p from hi] at hnt
        cases hnt
      simp only [wp_mmSetProc, wp_mmAddLog]
      generalize ht₁ : (t.setProc i fun r => { r with pParent := .proc init }).addLog (.adopt i) = t₁
      have hfam : t₁.family = t.family.setParent i (.proc init) := by
        rw [← ht₁, Mm.addLog_family, Mm.setProc_parent_family]
      have hflags : ∀ q, (t₁.procTable q).pFlags = (t.procTable q).pFlags := by
        intro q
        rw [← ht₁, Mm.addLog_procTable, Mm.setProc_apply]
        split
        · next hq => rw [hq]
        · rfl
      have hfree₁ : t₁.FreeOk := by
        intro q
        rw [hflags]
        exact hfree q
      have hext : t.Extends t₁ := by
        apply Mm.Extends.event (e := .adopt i)
        · rw [← ht₁]
          simp
        · rw [hfam]
          apply if_pos
          simp [Family.orphan, show t.family.parent i = .proc p from hi, hp]
      have hf₁ := hf.adopt hn
      rw [← hfam] at hf₁
      have hp₁ : t₁.family.phase p ≠ .live := by
        rw [hfam]
        exact hp
      have hpar₁ : t₁.family.parent i = .proc init := by
        simp [hfam, Family.setParent]
      have hframe₁ : t.family.Frame p t₁.family := by
        rw [hfam]
        refine ⟨fun _ h => h, fun _ _ h => h, fun q w hw hq => ?_⟩
        have hqi : q ≠ i := by
          rintro rfl
          rw [show t.family.parent q = .proc p from hi] at hq
          cases hq
          exact hw rfl
        simpa [Family.setParent, hqi] using hq
      refine ⟨fun hz => ?_, fun hz => ?_⟩
      · have hii : i ≠ init := by
          rintro rfl
          revert hn
          decide
        have hfi : (t₁.procTable i).pFlags.freeSlot = false := by
          by_contra hne
          rw [hfree₁ i (by simpa using hne)] at hz
          cases hz.1
        have hph : t₁.family.phase i = .zombie (t₁.procTable i).exitStatus :=
          Process.phase_eq_zombie.mpr ⟨hfi, hz.1, rfl⟩
        have hwi : t₁.family.inWait i = false := by
          by_contra hne
          have hlive := hf₁.live i (by simpa using hne)
          rw [hph] at hlive
          cases hlive
        apply cleanup_spec hfree₁ hii hpar₁ hwi
        intro t₂ hlog₂ hfree₂ hfam₂
        have hext₂ : t₁.Extends t₂ := by
          apply Mm.Extends.event hlog₂
          rw [hfam₂]
          exact if_pos ⟨hph, hpar₁, hz.2⟩
        have hf₂ := hf₁.reap hph init
        rw [← hfam₂] at hf₂
        have hp₂ : t₂.family.phase p ≠ .live := by
          rw [hfam₂]
          by_cases hpi : p = i
          · simp [Family.setWait, Family.setPhase, hpi]
          · simpa [Family.setWait, Family.setPhase, hpi] using hp₁
        refine wp_mono (ih hfree₂ (hf₂.mono ?_ ?_) hp₂) ?_ (fun _ _ h => h)
        · rintro c d - ⟨⟨rfl, hmem⟩, hci⟩
          exact ⟨rfl, (List.mem_cons.mp hmem).resolve_left hci⟩
        · rintro q d s ⟨hq | hq, hqi⟩
          · exact hq.elim
          · exact absurd hq hqi
        · rintro _ t' ⟨hext', hinv, hframe⟩
          have hframe₂ : t₁.family.Frame p t₂.family := hfam₂ ▸ Family.frame_reap p (.inl hph)
          exact ⟨hext.trans (hext₂.trans hext'), hinv, hframe₁.trans (hframe₂.trans hframe)⟩
      · refine wp_mono (ih hfree₁ (hf₁.mono ?_ ?_) hp₁) ?_ (fun _ _ h => h)
        · rintro c d - ⟨⟨rfl, hmem⟩, hci⟩
          exact ⟨rfl, (List.mem_cons.mp hmem).resolve_left hci⟩
        · rintro q d s (hq | rfl) hqd hd hs
          · exact hq.elim
          · rw [hpar₁] at hqd
            cases hqd
            exact absurd ⟨(Process.phase_eq_zombie.mp hs).2.1, hd⟩ hz
        · rintro _ t' ⟨hext', hinv, hframe⟩
          exact ⟨hext.trans hext', hinv, hframe₁.trans hframe⟩
    · apply ih hfree _ hp
      apply hf.mono
      · rintro c d hc ⟨rfl, hmem⟩
        refine ⟨rfl, ?_⟩
        rcases List.mem_cons.mp hmem with rfl | hmem
        · exact absurd hc hi
        · exact hmem
      · intro q d s h
        exact h.elim

theorem Mm.setProc_exitStatus_family (hp : t.family.phase p = .live) (status : Int) :
    (t.setProc p fun r => { r with exitStatus := status }).family = t.family := by
  obtain ⟨h₁, h₂⟩ := Process.phase_eq_live.mp hp
  rw [Mm.setProc_family]
  ext q
  all_goals
    by_cases hq : q = p
    · subst hq
      simp [Family.setPhase, Family.setParent, Family.setWait, Mm.family, Process.phase, h₁, h₂]
    · simp [Family.setPhase, Family.setParent, Family.setWait, hq]

theorem Mm.setProc_hanging_family (hp : (t.procTable p).pFlags.freeSlot = false) :
    (t.setProc p fun r => { r with pFlags := { r.pFlags with hanging := true } }).family =
      t.family.setPhase p (.zombie (t.procTable p).exitStatus) := by
  rw [Mm.setProc_family]
  ext q
  all_goals
    by_cases hq : q = p
    · subst hq
      simp [Family.setPhase, Family.setParent, Family.setWait, Mm.family, Process.phase, hp]
    · simp [Family.setPhase, Family.setParent, Family.setWait, hq]

theorem doExit_spec (h : MmInv t) (hp : t.family.phase p = .live)
    (hw : t.family.inWait p = false) (status : Int) :
    wp (MM.doExit p status) (fun _ t' => t.Extends t' ∧ MmInv t' ∧ t.family.Frame p t'.family ∧
        ∀ q, t.family.parent p = .proc q → t'.family.inWait q = false)
      (fun _ _ => ∀ q, t.family.parent p ≠ .proc q) t := by
  simp only [MM.doExit, wp_bind, wp_mmAddLog, wp_mmSetProc, wp_mmProcOf]
  generalize ht₁ : (t.addLog (.exit p status)).setProc p
    (fun r => { r with exitStatus := status }) = t₁
  have hlog₁ : t₁.log = t.log ++ [.exit p status] := by rw [← ht₁]; rfl
  have hfam₁ : t₁.family = t.family := by
    rw [← ht₁]
    exact Mm.setProc_exitStatus_family (t := t.addLog _) hp status
  have hfree₁ : t₁.FreeOk := by
    rw [← ht₁]
    exact Mm.FreeOk.setProc (t := t.addLog _) h.free (h.free p)
  have hstatus₁ : (t₁.procTable p).exitStatus = status := by rw [← ht₁]; simp
  have hexit : t.family.apply (.exit p status) = some (t.family.setPhase p (.zombie status)) :=
    if_pos ⟨hp, hw⟩
  have hpar : (t₁.procTable p).pParent = t.family.parent p := by
    rw [← hfam₁]
    rfl
  rw [hpar]
  cases hq : t.family.parent p with
  | proc q =>
    have hn : nrTasks + nrNativeProcs ≤ p.val := by
      by_contra hlt
      have hnt := (h.family.native p (by omega)).2
      rw [hq] at hnt
      cases hnt
    have hf := @FamilyInv.exit _ _ _ _ status h.family hn hw hp
    simp only [wp_bind, wp_mmProcOf, wp_ite, wp_mmSetProc]
    have hadopt : ∀ t₂ : Mm, t.Extends t₂ → t₂.FreeOk → t₂.family.phase p ≠ .live →
        FamilyInv (fun c d => False ∨ d = p) (fun _ => False) t₂.family →
        t.family.Frame p t₂.family → t₂.family.inWait q = false →
        wp (MM.adoptChildren p (List.finRange nrSlots))
          (fun _ t' => t.Extends t' ∧ MmInv t' ∧ t.family.Frame p t'.family ∧
            ∀ r, Endpoint.proc q = .proc r → t'.family.inWait r = false)
          (fun _ _ => ∀ r, Endpoint.proc q ≠ .proc r) t₂ := by
      intro t₂ hext hfree hp₂ hf₂ hframe hwq
      refine wp_mono (adoptChildren_spec _ hfree (hf₂.mono ?_ fun _ _ _ h => h.elim) hp₂) ?_
        (fun _ _ hE => hE.elim)
      · rintro c d - (hc | rfl)
        · exact hc.elim
        · exact ⟨rfl, List.mem_finRange c⟩
      · rintro _ t' ⟨hext', hinv, hframe'⟩
        refine ⟨hext.trans hext', hinv, hframe.trans hframe', ?_⟩
        rintro r hr
        cases hr
        by_contra hne
        rw [hframe'.inWait q (by simpa using hne)] at hwq
        cases hwq
    refine ⟨fun hwq => ?_, fun hwq => ?_⟩
    · have hwq' : t.family.inWait q = true := by
        rw [← hfam₁]
        exact hwq
      have hpq : p ≠ q := by
        rintro rfl
        rw [hw] at hwq'
        cases hwq'
      apply cleanup_spec hfree₁ hpq (hfam₁ ▸ hq) (hfam₁ ▸ hw)
      intro t₂ hlog₂ hfree₂ hfam₂
      have hz : (t.family.setPhase p (.zombie status)).phase p = .zombie status := by
        simp [Family.setPhase]
      have hsame : t₂.family = ((t.family.setPhase p (.zombie status)).setPhase p .free).setWait
          q false := by
        rw [hfam₂, hfam₁]
        simp [Family.setPhase]
      have hreap : (t.family.setPhase p (.zombie status)).apply (.reap p status q) =
          some t₂.family := by
        rw [hsame]
        exact if_pos ⟨hz, hq, hwq'⟩
      apply hadopt t₂ _ hfree₂
      · simp [hfam₂, Family.setPhase, Family.setWait]
      · rw [hsame]
        apply (hf.reap hz q).mono (fun _ _ _ h => h)
        rintro c d s ⟨hc | hc, hcp⟩
        · exact hc.elim
        · exact absurd hc hcp
      · rw [hfam₂, hfam₁]
        exact @Family.frame_reap p _ _ _ 0 (.inr rfl)
      · simp [hfam₂, Family.setWait]
      · refine ⟨[.exit p status, .reap p status q], ?_, ?_⟩
        · rw [hlog₂, hlog₁, hstatus₁, List.append_assoc]
          rfl
        · simp [Family.after, hexit, hreap]
    · have hfree : (t₁.procTable p).pFlags.freeSlot = false := by
        rw [← hfam₁] at hp
        exact (Process.phase_eq_live.mp hp).1
      have hfam₂ := Mm.setProc_hanging_family hfree
      rw [hstatus₁, hfam₁] at hfam₂
      apply hadopt
      · refine ⟨[.exit p status], by rw [Mm.setProc_log, hlog₁], ?_⟩
        rw [hfam₂]
        simp [Family.after, hexit]
      · apply hfree₁.setProc
        intro hf
        change (t₁.procTable p).pFlags.freeSlot = true at hf
        rw [hfree] at hf
        cases hf
      · rw [hfam₂]
        simp [Family.setPhase]
      · rw [hfam₂]
        apply hf.mono (fun _ _ _ h => h)
        rintro c d s (hc | rfl) hcd hd -
        · exact hc.elim
        · change t.family.parent c = .proc d at hcd
          rw [hq] at hcd
          cases hcd
          rw [← hfam₁] at hd
          exact absurd hd hwq
      · rw [hfam₂]
        refine ⟨fun _ h => h, fun c hc hl => ?_, fun _ _ _ h => h⟩
        simpa [Family.setPhase, hc] using hl
      · rw [hfam₂]
        change t.family.inWait q = false
        rw [← hfam₁]
        exact Bool.eq_false_iff.mpr hwq
  | any => simp
  | interrupt => simp
  | noTask => simp

theorem waitScan_spec (l : List Pid) (b : Bool) {Q : Option Bool → Mm → Prop}
    {E : Stop → Mm → Prop}
    (hclean : ∀ i ∈ l, (t.procTable i).pParent = .proc p → (t.procTable i).pFlags.hanging = true →
      wp (MM.cleanup i) (fun _ => Q none) E t)
    (hscan : (∀ i ∈ l, (t.procTable i).pParent = .proc p →
      (t.procTable i).pFlags.hanging = false) →
        Q (some (b || l.any fun i => (t.procTable i).pParent = .proc p)) t) :
    wp (MM.waitScan p l b) Q E t := by
  induction l generalizing b with
  | nil => simpa [MM.waitScan] using hscan
  | cons i l ih =>
    simp only [MM.waitScan, wp_bind, wp_mmProcOf, wp_ite, wp_pure]
    have hl : ∀ c ∈ l, (t.procTable c).pParent = .proc p →
        (t.procTable c).pFlags.hanging = true → wp (MM.cleanup c) (fun _ => Q none) E t :=
      fun c hc => hclean c (List.mem_cons_of_mem _ hc)
    refine ⟨fun hi => ?_, fun hi => ⟨fun hz => ?_, fun hz => ?_⟩⟩
    · apply ih b hl
      intro hnone
      have hq := hscan (by
        intro c hc hcp
        rcases List.mem_cons.mp hc with rfl | hc
        · exact absurd hcp hi
        · exact hnone c hc hcp)
      simpa [hi] using hq
    · exact hclean i List.mem_cons_self (by simpa using hi) hz
    · apply ih true hl
      intro hnone
      have hq := hscan (by
        intro c hc hcp
        rcases List.mem_cons.mp hc with rfl | hc
        · simpa using hz
        · exact hnone c hc hcp)
      have hi' : (t.procTable i).pParent = .proc p := by simpa using hi
      simpa [hi'] using hq

/-- `do_wait` collects a zombie child, waits for a child, or reports that there is none. Every
slot that names the caller as parent counts as a child. -/
inductive WaitResult (t : Mm) (p : Pid) (t' : Mm) : Prop
  | reaped (i : Pid) (hp : (t.procTable i).pParent = .proc p)
      (hi : (t.procTable i).pFlags.hanging = true)
      (ht : t' = ((t.addLog (.wait p)).addLog (.reap i (t.procTable i).exitStatus p)).setProc i
        fun r => { r with pFlags := Flags.free })
  | waits (i : Pid) (hp : (t.procTable i).pParent = .proc p)
      (hn : ∀ i, (t.procTable i).pParent = .proc p → (t.procTable i).pFlags.hanging = false)
      (ht : t' = (t.addLog (.wait p)).setProc p
        fun r => { r with pFlags := { r.pFlags with waiting := true } })
  | noChild (hn : ∀ i, (t.procTable i).pParent ≠ .proc p)
      (ht : t' = (t.addLog (.wait p)).addLog (.noChild p .noTask (-1)))

theorem doWait_result (t : Mm) (p : Pid) :
    wp (MM.doWait p) (fun _ t' => WaitResult t p t') (fun _ _ => False) t := by
  simp only [MM.doWait, wp_bind, wp_mmAddLog]
  apply waitScan_spec
  · intro i _ hp hi
    rw [wp_cleanup hp]
    exact .reaped i hp hi rfl
  · intro hn
    have hn' : ∀ i, (t.procTable i).pParent = .proc p → (t.procTable i).pFlags.hanging = false :=
      fun i => hn i (List.mem_finRange i)
    cases hany : (List.finRange nrSlots).any fun i =>
        decide (((t.addLog (.wait p)).procTable i).pParent = .proc p) with
    | true =>
      obtain ⟨i, -, hi⟩ := List.any_eq_true.mp hany
      exact .waits i (of_decide_eq_true hi) hn' rfl
    | false =>
      apply WaitResult.noChild _ rfl
      intro i hi
      exact List.any_eq_false.mp hany i (List.mem_finRange i) (decide_eq_true hi)

theorem doWait_spec (h : MmInv t) (hp : t.family.phase p = .live)
    (hw : t.family.inWait p = false) (hr : WaitResult t p t') : t.Extends t' ∧ MmInv t' := by
  have hwait : t.family.apply (.wait p) = some (t.family.setWait p true) := if_pos ⟨hp, hw⟩
  have hflags := Process.phase_eq_live.mp hp
  cases hr with
  | reaped i hpi hi ht =>
    have hfi : (t.procTable i).pFlags.freeSlot = false := by
      by_contra hne
      rw [h.free i (by simpa using hne)] at hi
      cases hi
    have hz : t.family.phase i = .zombie (t.procTable i).exitStatus :=
      Process.phase_eq_zombie.mpr ⟨hfi, hi, rfl⟩
    have hwi : t.family.inWait i = false := by
      by_contra hne
      have hlive := h.family.live i (by simpa using hne)
      rw [hz] at hlive
      cases hlive
    have hfam : t'.family = t.family.setPhase i .free := by
      rw [ht]
      exact Mm.setProc_free_family (t := Mm.addLog (Mm.addLog t _) _) hwi
    have hsame : ((t.family.setWait p true).setPhase i .free).setWait p false = t'.family := by
      rw [hfam]
      ext q
      · rfl
      · rfl
      · by_cases hq : q = p
        · subst hq
          simpa [Family.setWait, Family.setPhase] using hw.symm
        · simp [Family.setWait, Family.setPhase, hq]
    refine ⟨⟨[.wait p, .reap i (t.procTable i).exitStatus p], ?_, ?_⟩, ?_, ?_⟩
    · rw [ht]
      simp
    · have hreap : (t.family.setWait p true).apply (.reap i (t.procTable i).exitStatus p) =
          some t'.family := by
        rw [← hsame]
        exact if_pos ⟨hz, hpi, by simp [Family.setWait]⟩
      simp [Family.after, hwait, hreap]
    · rw [ht]
      exact Mm.FreeOk.setProc (t := Mm.addLog (Mm.addLog t _) _) h.free (fun _ => rfl)
    · have hf := (h.family.reap hz p).mono (fun _ _ _ h => h) (fun _ _ _ h _ _ _ => h.1)
      have hsame' : (t.family.setPhase i .free).setWait p false = t'.family := by
        rw [← hsame]
        ext q
        · rfl
        · rfl
        · simp [Family.setWait, Family.setPhase]
      rw [← hsame']
      exact hf
  | waits i hpi hn ht =>
    have hfam : t'.family = t.family.setWait p true := by
      rw [ht, Mm.setProc_waiting_family, Mm.addLog_family]
    refine ⟨Mm.Extends.event (e := .wait p) (by rw [ht]; rfl) (by rw [hfam, hwait]), ?_, ?_⟩
    · rw [ht]
      refine Mm.FreeOk.setProc (t := t.addLog _) h.free ?_
      intro hf
      change (t.procTable p).pFlags.freeSlot = true at hf
      rw [hflags.1] at hf
      cases hf
    · rw [hfam]
      apply (h.family.setWait_true hp).mono (fun _ _ _ h => h)
      rintro q d s (hq | hq) - - hz
      · exact hq.elim
      · have hhang := (Process.phase_eq_zombie.mp hz).2.1
        rw [hn q hq] at hhang
        cases hhang
  | noChild hn ht =>
    have hfam : t'.family = t.family := by rw [ht]; rfl
    refine ⟨⟨[.wait p, .noChild p .noTask (-1)], ?_, ?_⟩, ?_, hfam ▸ h.family⟩
    · rw [ht]
      simp
    · have hno : (t.family.setWait p true).apply (.noChild p .noTask (-1)) = some t'.family := by
        have hsame : (t.family.setWait p true).setWait p false = t'.family := by
          rw [hfam]
          ext q
          · rfl
          · rfl
          · by_cases hq : q = p
            · subst hq
              simpa [Family.setWait] using hw.symm
            · simp [Family.setWait, hq]
        rw [← hsame]
        exact if_pos (by simp [Family.setWait])
      simp [Family.after, hwait, hno]
    · rw [ht]
      exact h.free

theorem wp_allocMem {Q : Nat → Mm → Prop} {E : Stop → Mm → Prop} {n : Nat}
    (hQ : nrTasks + nrNativeProcs ≤ p.val → ∀ b, Q b t) (hE : ∀ w, E w t) :
    wp (MM.allocMem p n) Q E t := by
  simp only [MM.allocMem, wp_bind, wp_check, wp_ite, wp_get, wp_halt, wp_pure]
  exact ⟨fun hp => ⟨fun _ => hE _, fun _ => ⟨fun _ => hE _, fun _ => hQ hp _⟩⟩, fun _ => hE _⟩

theorem doFork_spec (h : MmInv t) (hp : t.family.phase p = .live)
    (hw : t.family.inWait p = false) :
    wp (MM.doFork p)
      (fun _ t' => t.Extends t' ∧ MmInv t' ∧ ForkResult p t.family t'.family)
      (fun _ _ => True) t := by
  simp only [MM.doFork, wp_bind, wp_get]
  cases hfind : (List.finRange nrSlots).find? fun i => (t.procTable i).pFlags = Flags.free with
  | none => exact ⟨Mm.Extends.refl t, h, .inl rfl⟩
  | some i =>
    have hi : (t.procTable i).pFlags = Flags.free := by
      simpa using List.find?_some hfind
    have hfam : ((t.setProc i fun _ => t.procTable p).setProc i fun r =>
        { r with pParent := .proc p }).family =
          (t.family.setPhase i .live).setParent i (.proc p) := by
      rw [Mm.setProc_parent_family, Mm.setProc_family]
      have hwi : t.family.inWait i = false := by
        change (t.procTable i).pFlags.waiting = false
        rw [hi]
        rfl
      ext q
      all_goals
        by_cases hq : q = i
        · subst hq
          simp_all [Family.setPhase, Family.setParent, Family.setWait, Mm.family]
        · simp [Family.setPhase, Family.setParent, Family.setWait, hq]
    have hfree : ((t.setProc i fun _ => t.procTable p).setProc i fun r =>
        { r with pParent := .proc p }).FreeOk := by
      apply Mm.FreeOk.setProc
      · exact h.free.setProc (h.free p)
      · simpa using h.free p
    simp only [wp_bind, wp_check, wp_mmSetProc]
    refine ⟨fun hn => wp_allocMem (fun _ _ => ?_) (fun _ => trivial), fun _ => trivial⟩
    have hphase : t.family.phase i = .free := Process.phase_eq_free.mpr (by rw [hi]; rfl)
    have happly : t.family.apply (.fork p i) =
        some ((t.family.setPhase i .live).setParent i (.proc p)) := if_pos ⟨hp, hw, hphase⟩
    have hinv := h.family.fork hn hp hphase
    rw [← hfam] at happly hinv
    exact ⟨Mm.Extends.event (e := .fork p i) rfl happly, ⟨hfree, hinv⟩, .inr ⟨i, hphase, hfam⟩⟩

theorem handleFork_spec (h : MmInv t) (hp : t.family.phase p = .live)
    (hw : t.family.inWait p = false) :
    wp (MmRequest.fork p).handle
      (fun _ t' => t.Extends t' ∧ MmInv t' ∧ ForkResult p t.family t'.family)
      (fun _ _ => True) t := by
  simp only [MmRequest.handle, wp_bind]
  exact doFork_spec h hp hw

end Handlers

/-- The life cycle of processes in the state `t` of a run from `t₀`: no process waits that has a
zombie child; an exited process is a zombie with its status until one message with that status
goes to its parent of that moment, which is in `wait`, and only then is its slot forked again;
every parent is alive. -/
structure LifeCycle (t₀ t : Mm) : Prop where
  history : t₀.family.after t.log = some t.family
  waiting : ∀ p q, (t.procTable p).pFlags.waiting = true → (t.procTable q).pParent = .proc p →
    (t.procTable q).pFlags.hanging = false
  exited : ∀ l₁ p status l₂, t.log = l₁ ++ .exit p status :: l₂ →
    (l₂.filter (·.slot = some p) = [] ∧ (t.procTable p).pFlags.hanging = true ∧
      (t.procTable p).exitStatus = status) ∨
    ∃ d l, l₂.filter (·.slot = some p) = .reap p status d :: l ∧
      (l = [] ∨ ∃ q l', l = .fork q p :: l')
  reaped : ∀ l₁ p status d l₂, t.log = l₁ ++ .reap p status d :: l₂ →
    ∃ f, t₀.family.after l₁ = some f ∧ f.parent p = .proc d ∧ f.inWait d = true
  parent : ∀ p : Pid, nrTasks + nrNativeProcs ≤ p.val → (t.procTable p).pFlags.freeSlot = false →
    ∃ q, (t.procTable p).pParent = .proc q ∧ (t.procTable q).pFlags.freeSlot = false ∧
      (t.procTable q).pFlags.hanging = false

section Runs

variable {t t' t₀ : Mm} {act : MmAction} {p q : Pid}

theorem SameLife.family {table : Pid → Process} (h : SameLife t.procTable table) :
    Mm.family { t with procTable := table } = t.family := by
  ext q
  · simp [Mm.family, Process.phase, h.freeSlot, h.hanging, h.exitStatus]
  · simp [Mm.family, h.parent]
  · simp [Mm.family, h.waiting]

theorem MmStep.spec (hstep : MmStep t act t') (h : MmInv t) : t.Extends t' ∧ MmInv t' := by
  cases act with
  | request r =>
    obtain ⟨⟨-, hfree, hhang, hwait, -⟩, hrun⟩ := hstep
    have hlive : t.family.phase r.source = .live := Process.phase_eq_live.mpr ⟨hfree, hhang⟩
    cases r with
    | fork p =>
      obtain ⟨hext, hinv, -⟩ := wp_ok (handleFork_spec h hlive hwait) hrun
      exact ⟨hext, hinv⟩
    | exit p status =>
      obtain ⟨hext, hinv, -⟩ := wp_ok (doExit_spec h hlive hwait status) hrun
      exact ⟨hext, hinv⟩
    | wait p =>
      have hw : wp (MmRequest.wait p).handle (fun _ t' => WaitResult t p t') (fun _ _ => False) t :=
        doWait_result t p
      have hres := wp_ok hw hrun
      exact doWait_spec h hlive hwait hres
  | ipc table =>
    obtain ⟨hsame, rfl⟩ := hstep
    have hfam := hsame.family
    refine ⟨⟨[], by simp, by rw [hfam]; rfl⟩, fun q hq => ?_, hfam ▸ h.family⟩
    change (table q).pFlags.freeSlot = true at hq
    rw [hsame.freeSlot] at hq
    exact hsame.free q (h.free q hq)

theorem mmInit_inv (imageSize : Pid → Nat) (memorySize : Nat) :
    MmInv (mmInit imageSize memorySize) := by
  have hnative : ∀ p : Pid, p.val < nrTasks + nrNativeProcs → kernelMainTable p = nativeProcess :=
    fun p hp => if_neg (by omega)
  have hfree : ∀ p : Pid, nrTasks + nrNativeProcs ≤ p.val →
      kernelMainTable p = { pFlags := Flags.free } := fun p hp => if_pos hp
  have hflags : ∀ p, (kernelMainTable p).pFlags = 0 ∨ (kernelMainTable p).pFlags = Flags.free := by
    intro p
    rcases Nat.lt_or_ge p.val (nrTasks + nrNativeProcs) with hp | hp
    · exact .inl (by rw [hnative p hp]; rfl)
    · exact .inr (by rw [hfree p hp])
  have hwait : ∀ p, (kernelMainTable p).pFlags.waiting = false := by
    intro p
    rcases hflags p with hp | hp <;> rw [hp] <;> rfl
  refine ⟨fun p hp => ?_, fun p hp => ?_, fun p hp => ?_, fun p q s hp => ?_, fun p hp hf => ?_⟩
  · rcases hflags p with h0 | h0
    · change (kernelMainTable p).pFlags.freeSlot = true at hp
      rw [h0] at hp
      cases hp
    · exact h0
  · change (kernelMainTable p).phase = .live ∧ (kernelMainTable p).pParent = .noTask
    rw [hnative p hp]
    exact ⟨rfl, rfl⟩
  · exact absurd hp (by simp [Mm.family, mmInit, hwait])
  · exact absurd hp (by simp [Mm.family, mmInit, hwait])
  · change (kernelMainTable p).phase ≠ .free at hf
    rw [hfree p hp] at hf
    exact absurd rfl hf

theorem MmInv.lifeCycle (h : MmInv t) (hh : t₀.family.after t.log = some t.family) :
    LifeCycle t₀ t := by
  refine ⟨hh, fun p q hp hq => ?_, fun l₁ p s l₂ hl => ?_, fun l₁ p s d l₂ hl => ?_,
    fun p hp hf => ?_⟩
  · by_contra hne
    have hhang : (t.procTable q).pFlags.hanging = true := by simpa using hne
    have hfree : (t.procTable q).pFlags.freeSlot = false := by
      by_contra hne'
      rw [h.free q (by simpa using hne')] at hhang
      cases hhang
    exact h.family.waiting p q _ hp hq (Process.phase_eq_zombie.mpr ⟨hfree, hhang, rfl⟩)
  · rw [hl] at hh
    obtain ⟨f, -, hf⟩ := Family.after_split hh
    obtain ⟨f', hexit, hl₂⟩ := Family.after_cons hf
    simp only [Family.apply, Option.ite_none_right_eq_some, Option.some.injEq] at hexit
    have hz : f'.phase p = .zombie s := by
      rw [← hexit.2]
      simp [Family.setPhase]
    rcases Family.after_zombie hl₂ hz with ⟨hnil, hp⟩ | hreap
    · exact .inl ⟨hnil, (Process.phase_eq_zombie.mp hp).2⟩
    · exact .inr hreap
  · rw [hl] at hh
    obtain ⟨f, hf, hf'⟩ := Family.after_split hh
    obtain ⟨f', hreap, -⟩ := Family.after_cons hf'
    simp only [Family.apply, Option.ite_none_right_eq_some] at hreap
    exact ⟨f, hf, hreap.1.2⟩
  · have hphase : t.family.phase p ≠ .free := by
      intro hp'
      rw [Process.phase_eq_free.mp hp'] at hf
      cases hf
    obtain ⟨q, hq, hlive | hor⟩ := h.family.parent p hp hphase
    · exact ⟨q, hq, Process.phase_eq_live.mp hlive⟩
    · exact hor.elim

theorem MmStep.run_inv {imageSize : Pid → Nat} {memorySize : Nat} {acts : List MmAction}
    (hr : Run MmStep (mmInit imageSize memorySize) acts t) :
    MmInv t ∧ (mmInit imageSize memorySize).family.after t.log = some t.family := by
  apply hr.invariant (I := fun t => MmInv t ∧
    (mmInit imageSize memorySize).family.after t.log = some t.family)
  · exact ⟨mmInit_inv imageSize memorySize, rfl⟩
  · rintro u act v hstep ⟨hinv, hhist⟩
    obtain ⟨⟨evs, hlog, hevs⟩, hinv'⟩ := hstep.spec hinv
    refine ⟨hinv', ?_⟩
    rw [hlog, Family.after_append hhist, hevs]

theorem lifeCycle_of_run {imageSize : Pid → Nat} {memorySize : Nat} {acts : List MmAction}
    (hr : Run MmStep (mmInit imageSize memorySize) acts t) :
    LifeCycle (mmInit imageSize memorySize) t := by
  obtain ⟨hinv, hhist⟩ := MmStep.run_inv hr
  exact hinv.lifeCycle hhist

/-- INIT forks, its child exits with status 3, and INIT collects it. -/
theorem lifeCycle_of_run_reap : ∃ t, Run MmStep (mmInit (fun _ => 0x100000) 0x4000000)
      [.request (.fork init), .request (.exit ⟨7, by decide⟩ 3), .request (.wait init)] t ∧
    t.log = [.fork init ⟨7, by decide⟩, .exit ⟨7, by decide⟩ 3, .wait init,
      .reap ⟨7, by decide⟩ 3 init] ∧
    LifeCycle (mmInit (fun _ => 0x100000) 0x4000000) t := by
  let t₀ : Mm := mmInit (fun _ => 0x100000) 0x4000000
  let t₁ : Mm := ((MmRequest.fork init).handle t₀).state
  let t₂ : Mm := ((MmRequest.exit ⟨7, by decide⟩ 3).handle t₁).state
  let t₃ : Mm := ((MmRequest.wait init).handle t₂).state
  have h₁ : MmStep t₀ (.request (.fork init)) t₁ := ⟨⟨by decide, rfl, rfl, rfl, by simp⟩,
    Result.eq_ok_of_isOk (by decide +kernel)⟩
  have h₂ : MmStep t₁ (.request (.exit ⟨7, by decide⟩ 3)) t₂ :=
    ⟨⟨by decide, rfl, rfl, rfl, by simp [init]⟩, Result.eq_ok_of_isOk (by decide +kernel)⟩
  have h₃ : MmStep t₂ (.request (.wait init)) t₃ := ⟨⟨by decide, by decide +kernel, by decide +kernel,
    by decide +kernel, by simp⟩, Result.eq_ok_of_isOk (by decide +kernel)⟩
  have hr : Run MmStep t₀ [.request (.fork init), .request (.exit ⟨7, by decide⟩ 3),
      .request (.wait init)] t₃ := .snoc (.snoc (.snoc .nil h₁) h₂) h₃
  exact ⟨t₃, hr, by decide +kernel, lifeCycle_of_run hr⟩

end Runs

end BazingaOS
