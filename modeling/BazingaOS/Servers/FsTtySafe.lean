import BazingaOS.Servers.FsTtyInv

/-!
# FS and TTY reach no cycle of sends

In every run in which FS sends to TTY only while TTY waits for it, or while no read is pending,
every enabled step returns from its system call. Without that condition the two servers can send
to each other.
-/

namespace BazingaOS

open Prog

/-- The invariant of a state of the system. -/
def FsTty.Inv (t : FsTty) : Prop :=
  ∃ x owed, Refines t.kernel x ∧ FtInv x t.pc owed t.ttyTable t.tty t.fs

/-- Whether a step is a `SEND` of FS to TTY. -/
def Move.sendsToTty (m : Move) : Bool :=
  match m.call with
  | some (.send s d _ _) => s = taskFs ∧ d = taskTty
  | _ => false

/-- The condition on a step in which FS sends to TTY. -/
def Move.QuietAt (m : Move) (t : FsTty) : Prop := m.sendsToTty = true → t.Quiet

/-- A step returns and keeps the invariant. -/
def Move.Safe (m : Move) (t : FsTty) : Prop :=
  (m.prog t.kernel).isOk = true ∧ ∀ k', m.prog t.kernel = .ok () k' → (m.next k').Inv

section Moves

variable {t t' : FsTty} {x : Ipc} {owed : Pid → Owed} {s d r p : Pid} {a : Addr} {v : Message}

theorem safe_goto (h : ∃ x owed, Refines t.kernel x ∧ FtInv x t'.pc owed t'.ttyTable t'.tty t'.fs) :
    t'.goto.Safe t := by
  refine ⟨rfl, ?_⟩
  intro k' hk
  cases hk
  exact h

theorem safe_send (hx : Refines t.kernel x) (hs : t.flags s = 0) (hds : d ≠ s)
    (hd : ∀ e b, x.status d = .sending e b → e ≠ s ∧ ∀ f c, x.status e ≠ .sending f c)
    (h : ∀ x', (x.setMem s a { v with source := .proc s }).SendCase s d a x' →
      ∃ owed, FtInv x' t'.pc owed t'.ttyTable t'.tty t'.fs) :
    (t'.issue (.send s d a v)).Safe t := by
  refine ⟨IpcAction.send_returns hx hs (Ne.symm hds) a v hd, ?_⟩
  intro k' hk
  have hen : (IpcAction.send s d a v).Callable t.kernel := ⟨hs, hds⟩
  obtain ⟨owed, ho⟩ := h _ (Rendezvous.send_case _ s d a)
  exact ⟨_, owed, IpcAction.refines_of_ok hx hen hk, ho⟩

theorem safe_receive {src : Source Pid} (hx : Refines t.kernel x) (hr : t.flags r = 0)
    (hsrc : src ≠ .only r)
    (hp : x.pending r = true → src = .any)
    (h : ∀ x', (x.setMem r a { v with source := .proc r }).ReceiveCase intMessage r src a x' →
      ∃ owed, FtInv x' t'.pc owed t'.ttyTable t'.tty t'.fs) :
    (t'.issue (.receive r src a v)).Safe t := by
  refine ⟨IpcAction.receive_returns hx hr hsrc a v ?_, ?_⟩
  · intro hpend
    rw [hp hpend]
    exact hpend
  · intro k' hk
    have hen : (IpcAction.receive r src a v).Callable t.kernel := ⟨hr, hsrc⟩
    have hwf : (x.setMem r a { v with source := .proc r }).WF := ⟨hx.wf.mem_queue, hx.wf.nodup⟩
    obtain ⟨owed, ho⟩ := h _ (hwf.receive_case intMessage r src a)
    exact ⟨_, owed, IpcAction.refines_of_ok hx hen hk, ho⟩

theorem safe_clock (hx : Refines t.kernel x)
    (h : FtInv (x.inform markInt taskTty) t'.pc owed t'.ttyTable t'.tty t'.fs) :
    (t'.issue (.inform taskTty)).Safe t := by
  refine ⟨isOk_of_wp (informInt_refines hx taskTty), ?_⟩
  intro k' hk
  have hen : (IpcAction.inform taskTty).Callable t.kernel := trivial
  exact ⟨_, owed, IpcAction.refines_of_ok hx hen hk, h⟩

end Moves

section Targets

variable {x : Ipc} {pc : Pid → ClientPc} {owed : Pid → Owed} {table : Fin nrTtys → Tty}
variable {tty : TtyPc} {fs : FsPc} {p : Pid}

/-- The target of FS's sends to clients is in no cycle. -/
theorem FtInv.client_target (h : FtInv x pc owed table tty fs) (hp : nrTasks ≤ p.val)
    (ho : owed p ≠ .asked) (s e : Pid) (b : Addr) (hs : x.status p = .sending e b) :
    e ≠ s ∧ ∀ f c, x.status e ≠ .sending f c :=
  absurd hs (h.not_sending_of_owed hp ho e b)

/-- FS is never in a cycle with a process that it is not sending to. -/
theorem FtInv.fs_target (h : FtInv x pc owed table tty fs) {s : Pid}
    (hs : ∀ b, x.status taskFs ≠ .sending s b) (e : Pid) (b : Addr)
    (he : x.status taskFs = .sending e b) : e ≠ s ∧ ∀ f c, x.status e ≠ .sending f c := by
  refine ⟨fun hes => hs b (hes ▸ he), ?_⟩
  cases h.phase with
  | replying d hd hcl ho _ _ =>
    rw [hd] at he
    cases he
    exact h.not_sending_of_owed hcl (by simp [ho])
  | asking q hq _ _ _ hns _ =>
    rw [hq] at he
    cases he
    exact hns
  | top hi => rw [hi] at he; cases he
  | receiving hi => rw [hi] at he; cases he
  | taken hi => rw [hi] at he; cases he
  | asked q hq =>
    rcases hq with ⟨-, hi⟩ | ⟨-, hi⟩
    · rw [hi] at he; cases he
    · rw [hi] at he; cases he
  | answering q _ _ hi => rw [hi] at he; cases he
  | answered q hi => rw [hi] at he; cases he

end Targets

section Servers

variable {t : FsTty} {x : Ipc} {owed : Pid → Owed} {p : Pid} {a : Addr} {v : Message}
variable {m : Move} {i : Fin nrTtys}

theorem FtInv.taken (h : FtInv x t.pc owed t.ttyTable t.tty t.fs)
    (hfs : x.status taskFs = .idle) (hpc : t.fs = .receive) :
    FsTaken x owed ∧ TtyFree x owed t.tty := by
  have hph := h.phase
  rw [hpc] at hph
  cases hph with
  | receiving hs => rw [hfs] at hs; cases hs
  | taken _ hm ht => exact ⟨hm, ht⟩
  | asked q hq => rcases hq with ⟨hq, -⟩ | ⟨hq, -⟩ <;> cases hq

theorem quiet_cases (hx : Refines t.kernel x) (hq : t.Quiet) :
    (∃ src a, x.status taskTty = .receiving src a) ∨
      (∀ d a, x.status taskTty ≠ .sending d a) ∧ NoneLeft t.ttyTable t.tty := by
  rcases hq with hr | ⟨hs, hn⟩
  · left
    have he := hx.record taskTty
    cases hst : x.status taskTty with
    | receiving src a => exact ⟨src, a, rfl⟩
    | free =>
      rw [hst] at he
      rw [FsTty.flags, show (t.kernel.procTable taskTty).pFlags = Flags.free from he] at hr
      cases hr
    | idle =>
      rw [FsTty.flags, (hx.idle_fields hst).1] at hr
      cases hr
    | sending d a =>
      rw [FsTty.flags, (hx.sending_fields hst).1] at hr
      cases hr
  · right
    refine ⟨?_, hn⟩
    intro d a hst
    rw [FsTty.flags, (hx.sending_fields hst).1] at hs
    cases hs

theorem safe_serve {ttyFile : Pid → Int → Fin nrTtys} (hx : Refines t.kernel x)
    (h : FtInv x t.pc owed t.ttyTable t.tty t.fs) (hf : t.flags taskFs = 0)
    (hpc : t.fs = .receive) (hm : t.serve ttyFile = some m) (hq : m.QuietAt t) : m.Safe t := by
  have hidle := hx.status_of_flags hf
  obtain ⟨htk, ht⟩ := h.taken hidle hpc
  have hmem : t.kernel.mem taskFs fsMsg = x.mem taskFs fsMsg := by rw [hx.mem]
  have hsend : ∀ {w : Message} {q : Pid}, owed q = .asked →
      (∀ d a, x.status q ≠ .sending d a) → DevMsg { w with source := .proc taskFs } q → t.Quiet →
      (FsTty.issue { t with fs := .ttySent q } (.send taskFs taskTty fsMsg w)).Safe t := by
    intro w q ho hns hw hquiet
    have hcases := quiet_cases hx hquiet
    refine safe_send hx hf (by decide) ?_ fun x' hx' =>
      ⟨_, h.serveRequest hidle ht ho hns hw hcases hx'⟩
    intro e b hs
    rcases hcases with ⟨src, c, hr⟩ | ⟨hns', -⟩
    · rw [hr] at hs
      cases hs
    · exact absurd hs (hns' e b)
  rcases htk with ⟨q, htype, hsrc, ho, hns⟩ | ⟨q, htype, hproc, ho⟩
  · rcases htype with htype | htype
    · simp only [FsTty.serve, hmem, htype, hsrc, Option.some.injEq] at hm
      subst hm
      exact hsend ho hns ⟨.inl rfl, rfl, rfl, _, rfl⟩ (hq rfl)
    · simp only [FsTty.serve, hmem, htype, hsrc, Option.some.injEq] at hm
      subst hm
      exact hsend ho hns ⟨.inr rfl, rfl, rfl, _, rfl⟩ (hq rfl)
  · simp only [FsTty.serve, hmem, htype, hproc, pidOf_val, Option.map_some,
      Option.some.injEq] at hm
    subst hm
    have hcl := h.client_of_owed (p := q) (by simp [ho])
    exact safe_send hx hf (ne_fs_of_client hcl) (h.client_target hcl (by simp [ho]) _)
      fun x' hx' => ⟨_, h.answer hidle ht (.inr ho) hx'⟩

theorem safe_reply (hx : Refines t.kernel x)
    (h : FtInv x t.pc owed t.ttyTable t.tty t.fs) (hf : t.flags taskFs = 0)
    (hpc : t.fs = .ttyWait p) : (t.reply p).Safe t := by
  have hidle := hx.status_of_flags hf
  have hmem : t.kernel.mem taskFs fsMsg = x.mem taskFs fsMsg := by rw [hx.mem]
  have hph := h.phase
  rw [hpc] at hph
  obtain ⟨hm, ht⟩ : ((x.mem taskFs fsMsg).type = .suspendProc ∨ owed p = .serving) ∧
      TtyFree x owed t.tty := by
    cases hph with
    | answered _ _ hm ht => exact ⟨hm, ht⟩
    | asked q hq =>
      rcases hq with ⟨hq, -⟩ | ⟨-, hr⟩
      · cases hq
      · rw [hidle] at hr
        cases hr
  unfold FsTty.reply
  simp only
  split
  · exact safe_goto ⟨x, owed, hx, h.client, h.record, h.pending, .top hidle ht⟩
  · next hne =>
    have ho : owed p = .serving := by
      rw [hmem] at hne
      exact hm.resolve_left hne
    have hcl := h.client_of_owed (p := p) (by simp [ho])
    exact safe_send hx hf (ne_fs_of_client hcl) (h.client_target hcl (by simp [ho]) _)
      fun x' hx' => ⟨_, h.answer hidle ht (.inl ho) hx'⟩

/-- Only a pending read may go on being pending, for the same process. -/
def Keeping (r r' : Tty) : Prop :=
  0 < r'.ttyBytesLeft → 0 < r.ttyBytesLeft ∧ r'.ttyCaller = r.ttyCaller ∧ r'.ttyProNr = r.ttyProNr

theorem keeping_putKey (r : Tty) (n : Nat) : Keeping r (r.putKey n) := by
  intro hb
  unfold Tty.putKey at hb ⊢
  split at hb <;> exact ⟨hb, by split <;> rfl, by split <;> rfl⟩

theorem transfer_proNr (r : Tty) (ch : Nat) :
    (r.transfer ch).ttyProNr = r.ttyProNr ∧ (r.transfer ch).ttyCaller = r.ttyCaller := by
  unfold Tty.transfer
  split
  · exact ⟨rfl, rfl⟩
  · split <;> exact ⟨rfl, rfl⟩

theorem safe_ttyMove {tty : TtyPc} {table : Fin nrTtys → Tty} (hx : Refines t.kernel x)
    (h : FtInv x t.pc owed t.ttyTable t.tty t.fs) (hf : t.flags taskTty = 0)
    (hna : t.tty = .receive → (x.mem taskTty ttyMsg).type = .hardInt) (htty : tty ≠ .receive)
    (hold : ∀ j, 0 < (table j).ttyBytesLeft → t.tty ≠ .resumed j)
    (hk : ∀ j, Keeping (t.ttyTable j) (table j)) (c : Fin nrTtys) :
    (FsTty.goto { t with tty := tty, ttyTable := table, curCon := c }).Safe t := by
  refine safe_goto ⟨x, owed, hx, h.ttyMove (hx.status_of_flags hf) hna htty ?_ ?_⟩
  · intro j hb _
    obtain ⟨hb', hc, hp⟩ := hk j hb
    rw [hc, hp]
    exact h.record j hb' (hold j hb)
  · intro hn j hb
    exact hn j ⟨(hk j hb.1).1, hold j hb.1⟩

theorem keeping_update {r : Tty} (h : Keeping (t.ttyTable i) r) (j : Fin nrTtys) :
    Keeping (t.ttyTable j) (Function.update t.ttyTable i r j) := by
  by_cases hj : j = i
  · subst hj
    rw [Function.update_self]
    exact h
  · rw [Function.update_of_ne hj]
    exact fun hb => ⟨hb, rfl, rfl⟩

theorem safe_devRead (hx : Refines t.kernel x) (h : FtInv x t.pc owed t.ttyTable t.tty t.fs)
    (hf : t.flags taskTty = 0) (hpc : t.tty = .read i) (e : KeyEvent) :
    (t.devRead i e).goto.Safe t := by
  have hmove : ∀ (table : Fin nrTtys → Tty) (c : Fin nrTtys),
      (∀ j, Keeping (t.ttyTable j) (table j)) →
      (FsTty.goto { t with tty := .write i, ttyTable := table, curCon := c }).Safe t := by
    intro table c hk
    exact safe_ttyMove hx h hf (by simp [hpc]) (by simp) (by simp [hpc]) hk c
  have hsame : ∀ j, Keeping (t.ttyTable j) (t.ttyTable j) := fun j hb => ⟨hb, rfl, rfl⟩
  unfold FsTty.devRead
  simp only
  split
  · cases e with
    | none => exact hmove t.ttyTable t.curCon hsame
    | key n => exact hmove _ t.curCon (keeping_update (keeping_putKey _ n))
    | console c => exact hmove t.ttyTable c hsame
  · exact hmove t.ttyTable t.curCon hsame

theorem safe_devWrite (hx : Refines t.kernel x) (h : FtInv x t.pc owed t.ttyTable t.tty t.fs)
    (hf : t.flags taskTty = 0) (hpc : t.tty = .write i) (hm : t.devWrite i = some m) :
    m.Safe t := by
  have hidle := hx.status_of_flags hf
  have hmove : ∀ (tty : TtyPc) (table : Fin nrTtys → Tty), tty ≠ .receive →
      (∀ j, Keeping (t.ttyTable j) (table j)) →
      (FsTty.goto { t with tty := tty, ttyTable := table }).Safe t := by
    intro tty table htty hk
    exact safe_ttyMove hx h hf (by simp [hpc]) htty (by simp [hpc]) hk t.curCon
  unfold FsTty.devWrite at hm
  simp only at hm
  split at hm
  · cases hm
    refine hmove (FsTty.nextTty i) t.ttyTable ?_ (fun j hb => ⟨hb, rfl, rfl⟩)
    unfold FsTty.nextTty
    split <;> simp
  · next key rest hbuf =>
    split at hm
    · next hb =>
      obtain ⟨hpro, hcaller⟩ := transfer_proNr { t.ttyTable i with inBuf := rest } (key % 256)
      obtain ⟨hc, p, hp, hop⟩ := h.record i hb (by simp [hpc])
      have hpro' := hpro.trans hp
      have hcaller' := hcaller.trans hc
      split at hm
      · simp only [hcaller', Option.some.injEq] at hm
        subst hm
        have hfs : ∀ b, x.status taskFs ≠ .sending taskTty b := fun b hs =>
          h.phase.noneLeft hs i ⟨hb, by simp [hpc]⟩
        refine safe_send hx hf (by decide) (h.fs_target hfs) fun x' hx' => ?_
        rw [hpc] at h
        refine h.ttyResume hidle hb hp hop ?_ rfl ?_ hx'
        · exact fun j hj => Function.update_of_ne hj _ _
        · exact hpro'
      · cases hm
        have hset := hmove t.tty (Function.update t.ttyTable i
          (Tty.transfer { t.ttyTable i with inBuf := rest } (key % 256))) (by simp [hpc])
          (keeping_update fun _ => ⟨hb, hcaller, hpro⟩)
        exact hset
    · cases hm
      exact hmove t.tty (Function.update t.ttyTable i { t.ttyTable i with inBuf := rest })
        (by simp [hpc]) (keeping_update fun hb => ⟨hb, rfl, rfl⟩)

/-- Where the answer to a request comes from once TTY has taken a read of terminal `i` for `q`:
a read that was pending there is forgotten. -/
def owedAfterRead (owed : Pid → Owed) (i : Fin nrTtys) (q : Pid) (cnt : Int) (r : Pid) : Owed :=
  if r = q then if 0 < cnt then .suspended i else .lost
  else if owed r = .suspended i then .lost else owed r

theorem owedAfterRead_moves {q : Pid} (hq : owed q = .serving) (i : Fin nrTtys) (cnt : Int)
    (r : Pid) : OwedMoves (owed r) (owedAfterRead owed i q cnt r) := by
  unfold owedAfterRead
  split
  · next hr =>
    subst hr
    exact .inr ⟨by simp [hq], by simp [hq], by split <;> simp⟩
  · split
    · next hs => exact .inr ⟨by simp [hs], by simp [hs], by simp⟩
    · exact .inl rfl

theorem safe_handle (hx : Refines t.kernel x) (h : FtInv x t.pc owed t.ttyTable t.tty t.fs)
    (hf : t.flags taskTty = 0) (hpc : t.tty = .receive) (hm : t.handle = some m) : m.Safe t := by
  have hidle := hx.status_of_flags hf
  have hmem : t.kernel.mem taskTty ttyMsg = x.mem taskTty ttyMsg := by rw [hx.mem]
  have hph : (x.mem taskTty ttyMsg).type = .hardInt ∨ ∃ q,
      (t.fs = .ttySent q ∧ x.status taskFs = .idle ∨
        t.fs = .ttyWait q ∧ x.status taskFs = .receiving (.only taskTty) fsMsg) ∧
      DevMsg (x.mem taskTty ttyMsg) q ∧ owed q = .serving := by
    have hfree : TtyFree x owed t.tty → (x.mem taskTty ttyMsg).type = .hardInt := by
      rw [hpc]
      intro ht
      cases ht with
      | running hne => exact absurd rfl hne
      | listening hl => rw [hidle] at hl; cases hl
      | woken _ htype => exact htype
    have hph := h.phase
    revert hph
    generalize t.fs = fs
    intro hph
    cases hph with
    | asked q hq _ _ hm ho => exact .inr ⟨q, hq, hm, ho⟩
    | answering q _ hs => rw [hidle] at hs; cases hs
    | top _ ht => exact .inl (hfree ht)
    | replying _ _ _ _ _ ht => exact .inl (hfree ht)
    | receiving _ ht => exact .inl (hfree ht)
    | taken _ _ ht => exact .inl (hfree ht)
    | asking _ _ _ _ ht => exact .inl (hfree ht)
    | answered _ _ _ ht => exact .inl (hfree ht)
  rcases hph with htype | ⟨q, hq, hdev, ho⟩
  · simp only [FsTty.handle, hmem, htype, Option.some.injEq] at hm
    subst hm
    exact safe_ttyMove hx h hf (fun _ => htype) (by simp) (by simp [hpc])
      (fun j hb => ⟨hb, rfl, rfl⟩) t.curCon
  · have hfs : ∀ b, x.status taskFs ≠ .sending taskTty b := by
      intro b hs
      rcases hq with ⟨-, hi⟩ | ⟨-, hi⟩ <;> rw [hi] at hs <;> cases hs
    obtain ⟨i, hi⟩ := hdev.device
    rw [hpc] at h
    rcases hdev.type with htype | htype
    · simp only [FsTty.handle, hmem, htype, hdev.source, hi, ttyOf_val, Option.map_some,
        Option.some.injEq] at hm
      subst hm
      refine safe_send hx hf (by decide) (h.fs_target hfs) fun x' hx' =>
        ⟨_, h.ttyAnswer hidle hq (owedAfterRead_moves ho i (x.mem taskTty ttyMsg).m3i2) ?_
          (.inl rfl) hx'⟩
      intro j hb _
      change 0 < (Function.update t.ttyTable i _ j).ttyBytesLeft at hb
      change (Function.update t.ttyTable i _ j).ttyCaller = _ ∧
        ∃ p : Pid, (Function.update t.ttyTable i _ j).ttyProNr = _ ∧ _
      by_cases hj : j = i
      · subst hj
        rw [Function.update_self] at hb ⊢
        refine ⟨hdev.source, q, hdev.procNr, ?_⟩
        unfold owedAfterRead
        rw [if_pos rfl]
        exact if_pos hb
      · rw [Function.update_of_ne hj] at hb ⊢
        obtain ⟨hc, p, hp, hop⟩ := h.record j hb (by simp)
        refine ⟨hc, p, hp, ?_⟩
        have hpq : p ≠ q := by
          rintro rfl
          rw [ho] at hop
          cases hop
        have hpi : owed p ≠ .suspended i := by
          rw [hop]
          intro he
          cases he
          exact hj rfl
        unfold owedAfterRead
        rw [if_neg hpq, if_neg hpi, hop]
    · simp only [FsTty.handle, hmem, htype, hdev.source, Option.some.injEq] at hm
      subst hm
      refine safe_send hx hf (by decide) (h.fs_target hfs) fun x' hx' =>
        ⟨owed, h.ttyAnswer hidle hq (fun _ => .inl rfl) ?_ (.inr ho) hx'⟩
      exact fun j hb _ => h.record j hb (by simp)

end Servers

section Runs

variable {ttyFile : Pid → Int → Fin nrTtys} {t t' : FsTty} {act : FsTtyAction} {m : Move}

/-- Every enabled step returns and keeps the invariant. -/
theorem safe_of_move (h : t.Inv) (hm : t.move ttyFile act = some m) (hq : m.QuietAt t) :
    m.Safe t := by
  obtain ⟨x, owed, hx, h⟩ := h
  cases act with
  | call p a v =>
    simp only [FsTty.move, Option.ite_none_right_eq_some] at hm
    obtain ⟨⟨hp, hf, hpc, hv⟩, hm⟩ := hm
    cases hm
    refine safe_send hx hf (ne_fs_of_client hp).symm (h.fs_target ?_) fun x' hx' =>
      ⟨_, h.call hp (hx.status_of_flags hf) hpc hv hx'⟩
    intro b hs
    obtain ⟨-, -, -, ⟨c, hc⟩, -⟩ := h.phase.sends (ne_tty_of_client hp) hs
    rw [hpc] at hc
    cases hc
  | receive p =>
    simp only [FsTty.move, Option.ite_none_right_eq_some] at hm
    obtain ⟨hf, hm⟩ := hm
    split at hm
    · next a hpc =>
      cases hm
      have hcl := h.client_of_ne_user (p := p) (by simp [hpc])
      refine safe_receive hx hf ?_ ?_ fun x' hx' =>
        ⟨_, h.receive (hx.status_of_flags hf) hpc hx'⟩
      · intro hq
        cases hq
        exact ne_fs_of_client hcl rfl
      · intro hp
        rw [h.pending p (ne_tty_of_client hcl)] at hp
        cases hp
    · cases hm
  | resume p =>
    simp only [FsTty.move, Option.ite_none_right_eq_some] at hm
    obtain ⟨⟨hf, hpc⟩, hm⟩ := hm
    cases hm
    exact safe_goto ⟨x, owed, hx, h.resume (hx.status_of_flags hf) hpc⟩
  | clock =>
    cases hm
    exact safe_clock hx h.clock
  | fsReceive =>
    simp only [FsTty.move, Option.ite_none_right_eq_some] at hm
    obtain ⟨⟨hf, hpc⟩, hm⟩ := hm
    cases hm
    refine safe_receive hx hf (by simp) (fun _ => rfl) fun x' hx' => ?_
    rw [hpc] at h
    exact h.fsReceive (hx.status_of_flags hf) hx'
  | fsServe =>
    simp only [FsTty.move, Option.ite_none_right_eq_some] at hm
    exact safe_serve hx h hm.1.1 hm.1.2 hm.2 hq
  | fsTtyReceive =>
    simp only [FsTty.move, Option.ite_none_right_eq_some] at hm
    obtain ⟨hf, hm⟩ := hm
    split at hm
    · next src hpc =>
      cases hm
      rw [hpc] at h
      refine safe_receive hx hf ?_ ?_ fun x' hx' =>
        ⟨_, h.fsTtyReceive (hx.status_of_flags hf) hx'⟩
      · simp [taskTty, taskFs]
      · intro hp
        rw [h.pending taskFs (by decide)] at hp
        cases hp
    · cases hm
  | fsReply =>
    simp only [FsTty.move, Option.ite_none_right_eq_some] at hm
    obtain ⟨hf, hm⟩ := hm
    split at hm
    · next src hpc =>
      cases hm
      exact safe_reply hx h hf hpc
    · cases hm
  | ttyRead e =>
    simp only [FsTty.move, Option.ite_none_right_eq_some] at hm
    obtain ⟨hf, hm⟩ := hm
    split at hm
    · next i hpc =>
      cases hm
      exact safe_devRead hx h hf hpc e
    · cases hm
  | ttyWrite =>
    simp only [FsTty.move, Option.ite_none_right_eq_some] at hm
    obtain ⟨hf, hm⟩ := hm
    split at hm
    · next i hpc => exact safe_devWrite hx h hf hpc hm
    · cases hm
  | ttyResumed =>
    simp only [FsTty.move, Option.ite_none_right_eq_some] at hm
    obtain ⟨hf, hm⟩ := hm
    split at hm
    · next i hpc =>
      cases hm
      refine safe_ttyMove hx h hf (by simp [hpc]) (by simp) ?_ ?_ t.curCon
      · intro j hb hj
        rw [hpc] at hj
        cases hj
        change 0 < (Function.update t.ttyTable i _ i).ttyBytesLeft at hb
        rw [Function.update_self] at hb
        simp at hb
      · exact keeping_update fun hb => absurd hb (by simp)
    · cases hm
  | ttyReceive =>
    simp only [FsTty.move, Option.ite_none_right_eq_some] at hm
    obtain ⟨⟨hf, hpc⟩, hm⟩ := hm
    cases hm
    refine safe_receive hx hf (by simp) (fun _ => rfl) fun x' hx' => ?_
    rw [hpc] at h
    exact ⟨_, h.ttyReceive (hx.status_of_flags hf) hx'⟩
  | ttyHandle =>
    simp only [FsTty.move, Option.ite_none_right_eq_some] at hm
    exact safe_handle hx h hm.1.1 hm.1.2 hm.2

/-- A step that meets the condition on the sends of FS to TTY. -/
def QuietStep (ttyFile : Pid → Int → Fin nrTtys) (t : FsTty) (act : FsTtyAction) (t' : FsTty) :
    Prop :=
  ∃ m k', t.move ttyFile act = some m ∧ m.QuietAt t ∧ m.prog t.kernel = .ok () k' ∧ t' = m.next k'

theorem fsTtyInit_inv (mem : Pid → Addr → Message) : (fsTtyInit mem).Inv := by
  have hidle : ∀ p : Pid, p.val < nrTasks → (ipcInit mem).status p = .idle := by
    intro p hp
    exact if_neg (by simp only [nrNativeProcs]; omega)
  have hstat : ∀ p d a, (ipcInit mem).status p ≠ .sending d a := by
    intro p d a
    unfold ipcInit
    simp only
    split <;> simp
  refine ⟨ipcInit mem, fun _ => .none, kernelMain_refines mem, ?_, ?_, fun _ _ => rfl, ?_⟩
  · intro p
    refine ⟨fun _ => rfl, fun _ => rfl, fun h => absurd rfl h, fun _ h => absurd rfl h, ?_⟩
    intro d a _ _ hs
    exact absurd hs (hstat p d a)
  · intro i hb
    exact absurd hb (by simp [fsTtyInit])
  · exact .top (hidle taskFs (by decide)) (.running (by simp [fsTtyInit]) (hidle taskTty (by decide)))

theorem inv_of_quietRun {mem : Pid → Addr → Message} {acts : List FsTtyAction}
    (hr : Run (QuietStep ttyFile) (fsTtyInit mem) acts t) : t.Inv := by
  apply hr.invariant (fsTtyInit_inv mem)
  rintro u act v ⟨m, k', hm, hq, hrun, rfl⟩ hu
  exact (safe_of_move hu hm hq).2 k' hrun

/-- In every run in which FS sends to TTY only while TTY waits for a message, or while TTY is not
sending and no read is pending, every such step returns from its system call, and TTY never sends
to FS while FS is blocked in a send to TTY. -/
theorem fsTty_of_run {mem : Pid → Addr → Message} {acts : List FsTtyAction}
    (hr : Run (QuietStep ttyFile) (fsTtyInit mem) acts t) (hm : t.move ttyFile act = some m)
    (hq : m.QuietAt t) :
    (m.prog t.kernel).isOk = true ∧ ∀ a v, m.call = some (.send taskTty taskFs a v) →
      ¬ ((t.flags taskFs).sending = true ∧
        (t.kernel.procTable taskFs).pSendto = .proc taskTty) := by
  have hok := (safe_of_move (inv_of_quietRun hr) hm hq).1
  refine ⟨hok, ?_⟩
  intro a v hcall hcycle
  have hprog : m.prog = (IpcAction.send taskTty taskFs a v).prog := by
    unfold Move.prog
    rw [hcall]
  rw [hprog, IpcAction.send_stops a v hcycle.1 hcycle.2] at hok
  cases hok

end Runs

section Traces

private abbrev firstTty : Pid → Int → Fin nrTtys := fun _ _ => ⟨0, nrTtys_pos⟩

/-- The state to which an action leads, if it is enabled and returns. -/
private def after (t : FsTty) (act : FsTtyAction) : Option FsTty :=
  match t.move firstTty act with
  | none => none
  | some m =>
    match m.prog t.kernel with
    | .ok _ k' => some (m.next k')
    | .stop _ _ => none

private theorem step_of_after {t t' : FsTty} {act : FsTtyAction} (h : after t act = some t') :
    FsTtyStep firstTty t act t' := by
  unfold after at h
  split at h
  · cases h
  · next m hm =>
    split at h
    · next k' hk =>
      cases h
      exact ⟨m, k', hm, hk, rfl⟩
    · cases h

private def quietAfter (t : FsTty) (act : FsTtyAction) : Option FsTty :=
  match t.move firstTty act with
  | none => none
  | some m => if m.sendsToTty = true → t.Quiet then after t act else none

private theorem step_of_quietAfter {t t' : FsTty} {act : FsTtyAction}
    (h : quietAfter t act = some t') : QuietStep firstTty t act t' := by
  unfold quietAfter at h
  split at h
  · cases h
  · next m hm =>
    split at h
    · next hq =>
      obtain ⟨m', k', hm', hk, rfl⟩ := step_of_after h
      rw [hm] at hm'
      cases hm'
      exact ⟨m, k', hm, hq, hk, rfl⟩
    · cases h

/-- TTY waits for a message, and the read of INIT on its first terminal is suspended. -/
private def suspendTrace : List FsTtyAction :=
  [.ttyRead .none, .ttyWrite, .ttyRead .none, .ttyWrite, .ttyRead .none, .ttyWrite, .ttyReceive,
    .fsReceive, .call init 0 { type := .read, m3i2 := 1 }, .fsServe, .fsTtyReceive, .ttyHandle,
    .fsReply, .fsReceive]

private theorem isSome_suspendTrace :
    (suspendTrace.foldlM quietAfter (fsTtyInit fun _ _ => {})).isSome = true := by
  decide +kernel

private def suspended : FsTty :=
  (suspendTrace.foldlM quietAfter (fsTtyInit fun _ _ => {})).get isSome_suspendTrace

private theorem isSome_typing :
    (suspended.move firstTty (.ttyRead (.key 10))).isSome = true := by
  decide +kernel

theorem fsTty_of_run_suspend : ∃ acts t m, Run (QuietStep fun _ _ => ⟨0, by decide⟩)
      (fsTtyInit fun _ _ => {}) acts t ∧
    t.move (fun _ _ => ⟨0, by decide⟩) (.ttyRead (.key 10)) = some m ∧
    (m.prog t.kernel).isOk = true ∧ ∀ a v, m.call = some (.send taskTty taskFs a v) →
      ¬ ((t.flags taskFs).sending = true ∧
        (t.kernel.procTable taskFs).pSendto = .proc taskTty) := by
  have hrun : Run (QuietStep firstTty) (fsTtyInit fun _ _ => {}) suspendTrace suspended :=
    Run.of_foldlM (fun _ _ _ => step_of_quietAfter) (Option.eq_some_of_isSome isSome_suspendTrace)
  have hquiet : ((suspended.move firstTty (.ttyRead (.key 10))).get isSome_typing).sendsToTty =
      false := by
    decide +kernel
  have hm := Option.eq_some_of_isSome isSome_typing
  refine ⟨_, suspended, _, hrun, hm, fsTty_of_run hrun hm ?_⟩
  intro hs
  rw [hquiet] at hs
  cases hs

/-- While that read is pending, another process writes to the terminal, FS sends the request to
TTY, which is scanning its terminals, and the read ends. -/
private def cycleTrace : List FsTtyAction :=
  suspendTrace ++ [.call ⟨6, six_lt_nrSlots⟩ 0 { type := .write, m3i2 := 1 }, .fsServe,
    .ttyRead (.key 10)]

private theorem isSome_cycleTrace :
    (cycleTrace.foldlM after (fsTtyInit fun _ _ => {})).isSome = true := by
  decide +kernel

private def typed : FsTty :=
  (cycleTrace.foldlM after (fsTtyInit fun _ _ => {})).get isSome_cycleTrace

private theorem isSome_ending : (typed.move firstTty .ttyWrite).isSome = true := by
  decide +kernel

private def ending : Move := (typed.move firstTty .ttyWrite).get isSome_ending

private def reported : Option IpcAction → Option Message
  | some (.send s d a v) =>
    if s = taskTty ∧ d = taskFs ∧ a = ttyResumeMsg then some v else none
  | _ => none

private theorem call_of_reported {c : Option IpcAction} {v : Message} (h : reported c = some v) :
    c = some (.send taskTty taskFs ttyResumeMsg v) := by
  unfold reported at h
  split at h
  · split at h
    · next hs =>
      obtain ⟨rfl, rfl, rfl⟩ := hs
      cases h
      rfl
    · cases h
  · cases h

/-- FS is blocked in a send to TTY, TTY sends to FS, and the machine stops. -/
theorem fsTty_send_cycle : ∃ acts t m v, Run (FsTtyStep fun _ _ => ⟨0, by decide⟩)
      (fsTtyInit fun _ _ => {}) acts t ∧
    t.move (fun _ _ => ⟨0, by decide⟩) .ttyWrite = some m ∧
    m.call = some (.send taskTty taskFs ttyResumeMsg v) ∧ (t.flags taskFs).sending = true ∧
    (t.kernel.procTable taskFs).pSendto = .proc taskTty ∧ (m.prog t.kernel).isOk = false := by
  have hrun : Run (FsTtyStep firstTty) (fsTtyInit fun _ _ => {}) cycleTrace typed :=
    Run.of_foldlM (fun _ _ _ => step_of_after) (Option.eq_some_of_isSome isSome_cycleTrace)
  have hcall : reported ending.call =
      some { type := .resumeProc, m3i3 := 5, m3i2 := 0 } := by
    decide +kernel
  exact ⟨cycleTrace, typed, ending, _, hrun, Option.eq_some_of_isSome isSome_ending,
    call_of_reported hcall, by decide +kernel, by decide +kernel, by decide +kernel⟩

end Traces

end BazingaOS
