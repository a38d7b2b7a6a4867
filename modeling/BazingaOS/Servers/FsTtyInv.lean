import BazingaOS.Servers.FsTty

/-!
# The invariant of FS and TTY

The state of the two servers is read in the rendezvous machine that the kernel refines. Every
request of a client is answered at most once: `Owed` says where its answer is to come from.
-/

namespace BazingaOS

/-- Where the answer to the request of a client is to come from: it has none to expect, its
request waits for FS, FS serves it, the read of a terminal suspends it, TTY reports the end of
that read, FS has that report, or no one will answer. -/
inductive Owed where
  | none
  | asked
  | serving
  | suspended (i : Fin nrTtys)
  | resuming
  | resumed
  | lost
deriving DecidableEq

/-- TTY outside its exchange with FS about a request. -/
inductive TtyFree (x : Ipc) (owed : Pid → Owed) : TtyPc → Prop
  | running {tty : TtyPc} (hpc : tty ≠ .receive) (hs : x.status taskTty = .idle) :
      TtyFree x owed tty
  | resuming {i : Fin nrTtys} (p : Pid) (hs : x.status taskTty = .sending taskFs ttyResumeMsg)
      (htype : (x.mem taskTty ttyResumeMsg).type = .resumeProc)
      (hproc : (x.mem taskTty ttyResumeMsg).m3i3 = p.val) (ho : owed p = .resuming) :
      TtyFree x owed (.resumed i)
  | listening (hs : x.status taskTty = .receiving .any ttyMsg) : TtyFree x owed .receive
  | woken (hs : x.status taskTty = .idle) (htype : (x.mem taskTty ttyMsg).type = .hardInt) :
      TtyFree x owed .receive

/-- The message that FS has received. -/
def FsTaken (x : Ipc) (owed : Pid → Owed) : Prop :=
  (∃ p, ((x.mem taskFs fsMsg).type = .read ∨ (x.mem taskFs fsMsg).type = .write) ∧
    (x.mem taskFs fsMsg).source = .proc p ∧ owed p = .asked ∧
    ∀ d a, x.status p ≠ .sending d a) ∨
  ∃ p : Pid, (x.mem taskFs fsMsg).type = .resumeProc ∧ (x.mem taskFs fsMsg).m3i3 = p.val ∧
    owed p = .resumed

/-- The request that FS makes of TTY for `q`. -/
structure DevMsg (m : Message) (q : Pid) : Prop where
  type : m.type = .devRead ∨ m.type = .devWrite
  source : m.source = .proc taskFs
  procNr : m.m3i3 = q.val
  device : ∃ i : Fin nrTtys, m.m3i4 = i.val

/-- No read is pending whose end TTY has still to report. -/
def NoneLeft (table : Fin nrTtys → Tty) (tty : TtyPc) : Prop :=
  ∀ i, ¬ (0 < (table i).ttyBytesLeft ∧ tty ≠ .resumed i)

/-- Where the two servers stand. -/
inductive ServerPhase (x : Ipc) (pc : Pid → ClientPc) (owed : Pid → Owed) (table : Fin nrTtys → Tty)
    (tty : TtyPc) : FsPc → Prop
  | top (hs : x.status taskFs = .idle) (ht : TtyFree x owed tty) : ServerPhase x pc owed table tty .top
  | replying (d : Pid) (hs : x.status taskFs = .sending d fsMsg) (hd : nrTasks ≤ d.val)
      (ho : owed d = .none) (hpc : ∃ a, pc d = .between a) (ht : TtyFree x owed tty) :
      ServerPhase x pc owed table tty .top
  | receiving (hs : x.status taskFs = .receiving .any fsMsg) (ht : TtyFree x owed tty) :
      ServerPhase x pc owed table tty .receive
  | taken (hs : x.status taskFs = .idle) (hm : FsTaken x owed) (ht : TtyFree x owed tty) :
      ServerPhase x pc owed table tty .receive
  | asking (q : Pid) (hs : x.status taskFs = .sending taskTty fsMsg)
      (hm : DevMsg (x.mem taskFs fsMsg) q) (ho : owed q = .serving) (ht : TtyFree x owed tty)
      (hns : ∀ d a, x.status taskTty ≠ .sending d a) (hn : NoneLeft table tty) :
      ServerPhase x pc owed table tty (.ttySent q)
  | asked {fs : FsPc} (q : Pid)
      (hfs : fs = .ttySent q ∧ x.status taskFs = .idle ∨
        fs = .ttyWait q ∧ x.status taskFs = .receiving (.only taskTty) fsMsg)
      (htty : tty = .receive) (hs : x.status taskTty = .idle)
      (hm : DevMsg (x.mem taskTty ttyMsg) q) (ho : owed q = .serving) :
      ServerPhase x pc owed table tty fs
  | answering (q : Pid) (htty : tty = .read ⟨0, by decide⟩)
      (hs : x.status taskTty = .sending taskFs ttyMsg) (hfs : x.status taskFs = .idle)
      (hm : (x.mem taskTty ttyMsg).type = .suspendProc ∨ owed q = .serving) :
      ServerPhase x pc owed table tty (.ttySent q)
  | answered (q : Pid) (hs : x.status taskFs = .idle)
      (hm : (x.mem taskFs fsMsg).type = .suspendProc ∨ owed q = .serving)
      (ht : TtyFree x owed tty) : ServerPhase x pc owed table tty (.ttyWait q)

/-- What holds of each process that is no server. -/
structure ClientOk (p : Pid) (st : Status Pid Addr) (mem : Addr → Message) (pc : ClientPc)
    (o : Owed) : Prop where
  task : p.val < nrTasks → pc = .user
  user : pc = .user → o = .none
  alive : pc ≠ .user → st ≠ .free
  waiting : pc = .waiting → o ≠ .none → ∃ a, st = .receiving (.only taskFs) a
  sending : ∀ d a, p ≠ taskFs → p ≠ taskTty → st = .sending d a →
    d = taskFs ∧ o = .asked ∧ (∃ b, pc = .between b) ∧ (mem a).source = .proc p ∧
      ((mem a).type = .read ∨ (mem a).type = .write)

/-- A pending read belongs to a client that it suspends. -/
def RecordOk (owed : Pid → Owed) (table : Fin nrTtys → Tty) (tty : TtyPc) : Prop :=
  ∀ i, 0 < (table i).ttyBytesLeft → tty ≠ .resumed i →
    (table i).ttyCaller = .proc taskFs ∧ ∃ p : Pid, (table i).ttyProNr = p.val ∧
      owed p = .suspended i

structure FtInv (x : Ipc) (pc : Pid → ClientPc) (owed : Pid → Owed) (table : Fin nrTtys → Tty)
    (tty : TtyPc) (fs : FsPc) : Prop where
  client : ∀ p, ClientOk p (x.status p) (x.mem p) (pc p) (owed p)
  record : RecordOk owed table tty
  pending : ∀ p, p ≠ taskTty → x.pending p = false
  phase : ServerPhase x pc owed table tty fs

theorem pidOf_val (p : Pid) : pidOf (p.val : Int) = some p := by
  simp [pidOf]

theorem ttyOf_val (i : Fin nrTtys) : ttyOf (i.val : Int) = some i := by
  simp [ttyOf]

section Frame

variable {x x' : Ipc} {pc pc' : Pid → ClientPc} {owed owed' : Pid → Owed}
variable {table : Fin nrTtys → Tty} {tty : TtyPc} {fs : FsPc} {p : Pid}

theorem TtyFree.frame (h : TtyFree x owed tty) (hs : x'.status taskTty = x.status taskTty)
    (hm : x'.mem taskTty = x.mem taskTty)
    (ho : ∀ p, owed p = .resuming → owed' p = .resuming) : TtyFree x' owed' tty := by
  cases h with
  | running hpc hidle => exact .running hpc (hs.trans hidle)
  | resuming p hsend htype hproc hp =>
    exact .resuming p (hs.trans hsend) (hm ▸ htype) (hm ▸ hproc) (ho p hp)
  | listening hl => exact .listening (hs.trans hl)
  | woken hidle htype => exact .woken (hs.trans hidle) (hm ▸ htype)

theorem FsTaken.frame (h : FsTaken x owed) (hm : x'.mem taskFs = x.mem taskFs)
    (ho : ∀ p, owed p ≠ .none → owed' p = owed p)
    (hs : ∀ p, owed p = .asked → (∀ d a, x.status p ≠ .sending d a) →
      ∀ d a, x'.status p ≠ .sending d a) : FsTaken x' owed' := by
  unfold FsTaken
  rw [hm]
  rcases h with ⟨p, htype, hsrc, hp, hn⟩ | ⟨p, htype, hproc, hp⟩
  · exact .inl ⟨p, htype, hsrc, (ho p (by simp [hp])).trans hp, hs p hp hn⟩
  · exact .inr ⟨p, htype, hproc, (ho p (by simp [hp])).trans hp⟩

theorem ServerPhase.frame (h : ServerPhase x pc owed table tty fs)
    (hfs : x'.status taskFs = x.status taskFs) (htty : x'.status taskTty = x.status taskTty)
    (hmf : x'.mem taskFs = x.mem taskFs) (hmt : x'.mem taskTty = x.mem taskTty)
    (ho : ∀ p, owed p ≠ .none → owed' p = owed p)
    (hs : ∀ p, owed p = .asked → (∀ d a, x.status p ≠ .sending d a) →
      ∀ d a, x'.status p ≠ .sending d a)
    (hpc : ∀ d, x.status taskFs = .sending d fsMsg → owed d = .none → (∃ a, pc d = .between a) →
      owed' d = .none ∧ ∃ a, pc' d = .between a) : ServerPhase x' pc' owed' table tty fs := by
  have hfree : TtyFree x owed tty → TtyFree x' owed' tty := fun ht =>
    ht.frame htty hmt fun p hp => (ho p (by simp [hp])).trans hp
  cases h with
  | top hi ht => exact .top (hfs.trans hi) (hfree ht)
  | replying d hd hcl hod hb ht =>
    obtain ⟨ho', hb'⟩ := hpc d hd hod hb
    exact .replying d (hfs.trans hd) hcl ho' hb' (hfree ht)
  | receiving hr ht => exact .receiving (hfs.trans hr) (hfree ht)
  | taken hi hm ht => exact .taken (hfs.trans hi) (hm.frame hmf ho hs) (hfree ht)
  | asking q hq hm hoq ht hns hn =>
    exact .asking q (hfs.trans hq) (hmf ▸ hm) ((ho q (by simp [hoq])).trans hoq) (hfree ht)
      (htty ▸ hns) hn
  | asked q hq htt hi hm hoq =>
    exact .asked q (hfs ▸ hq) htt (htty.trans hi) (hmt ▸ hm) ((ho q (by simp [hoq])).trans hoq)
  | answering q htt hq hi hm =>
    refine .answering q htt (htty.trans hq) (hfs.trans hi) ?_
    rw [hmt]
    exact hm.imp id fun hoq => (ho q (by simp [hoq])).trans hoq
  | answered q hi hm ht =>
    refine .answered q (hfs.trans hi) ?_ (hfree ht)
    rw [hmf]
    exact hm.imp id fun hoq => (ho q (by simp [hoq])).trans hoq

/-- FS waits for a message of a process other than TTY in its main loop only. -/
theorem ServerPhase.accepts (h : ServerPhase x pc owed table tty fs) {b : Addr} (hp : p ≠ taskTty)
    (hd : x.status taskFs = .receiving .any b ∨ x.status taskFs = .receiving (.only p) b) :
    b = fsMsg ∧ fs = .receive ∧ TtyFree x owed tty := by
  have hno : ∀ {st : Status Pid Addr}, x.status taskFs = st → (∀ src c, st ≠ .receiving src c) →
      b = fsMsg ∧ fs = .receive ∧ TtyFree x owed tty := by
    intro st hst hne
    rw [hst] at hd
    rcases hd with hd | hd <;> exact absurd hd (hne _ _)
  cases h with
  | receiving hs ht =>
    rw [hs] at hd
    rcases hd with hd | hd <;> cases hd
    exact ⟨rfl, rfl, ht⟩
  | asked q hq =>
    rcases hq with ⟨-, hi⟩ | ⟨-, hr⟩
    · exact hno hi (by simp)
    · rw [hr] at hd
      rcases hd with hd | hd <;> cases hd
      exact absurd rfl hp
  | top hs => exact hno hs (by simp)
  | replying d hs => exact hno hs (by simp)
  | taken hs => exact hno hs (by simp)
  | asking q hs => exact hno hs (by simp)
  | answering q _ _ hs => exact hno hs (by simp)
  | answered q hs => exact hno hs (by simp)

/-- FS is blocked in a send to a client only when it answers it. -/
theorem ServerPhase.sends (h : ServerPhase x pc owed table tty fs) {b : Addr} (hp : p ≠ taskTty)
    (hd : x.status taskFs = .sending p b) :
    b = fsMsg ∧ fs = .top ∧ owed p = .none ∧ (∃ a, pc p = .between a) ∧ TtyFree x owed tty := by
  have hno : ∀ {st : Status Pid Addr}, x.status taskFs = st → (∀ d c, st ≠ .sending d c) →
      b = fsMsg ∧ fs = .top ∧ owed p = .none ∧ (∃ a, pc p = .between a) ∧ TtyFree x owed tty := by
    intro st hst hne
    rw [hst] at hd
    exact absurd hd (hne _ _)
  cases h with
  | replying d hs _ ho hb ht =>
    rw [hs] at hd
    cases hd
    exact ⟨rfl, rfl, ho, hb, ht⟩
  | asking q hs =>
    rw [hs] at hd
    cases hd
    exact absurd rfl hp
  | asked q hq =>
    rcases hq with ⟨-, hi⟩ | ⟨-, hr⟩
    · exact hno hi (by simp)
    · exact hno hr (by simp)
  | top hs => exact hno hs (by simp)
  | receiving hs => exact hno hs (by simp)
  | taken hs => exact hno hs (by simp)
  | answering q _ _ hs => exact hno hs (by simp)
  | answered q hs => exact hno hs (by simp)

/-- FS is blocked in a send to TTY only while no read is pending. -/
theorem ServerPhase.noneLeft (h : ServerPhase x pc owed table tty fs) {b : Addr}
    (hs : x.status taskFs = .sending taskTty b) : NoneLeft table tty := by
  cases h with
  | asking _ _ _ _ _ _ hn => exact hn
  | replying d hd hcl =>
    rw [hd] at hs
    cases hs
    exact absurd hcl (by decide)
  | asked _ hq => rcases hq with ⟨-, hi⟩ | ⟨-, hi⟩ <;> rw [hi] at hs <;> cases hs
  | top hi => rw [hi] at hs; cases hs
  | receiving hi => rw [hi] at hs; cases hs
  | taken hi => rw [hi] at hs; cases hs
  | answering _ _ _ hi => rw [hi] at hs; cases hs
  | answered _ hi => rw [hi] at hs; cases hs

end Frame

section Clients

variable {x x' : Ipc} {pc pc' : Pid → ClientPc} {owed owed' : Pid → Owed}
variable {table : Fin nrTtys → Tty} {tty : TtyPc} {fs : FsPc} {p : Pid} {a : Addr} {v : Message}

theorem ne_fs_of_client (hp : nrTasks ≤ p.val) : p ≠ taskFs := by
  rintro rfl
  exact absurd hp (by decide)

theorem ne_tty_of_client (hp : nrTasks ≤ p.val) : p ≠ taskTty := by
  rintro rfl
  exact absurd hp (by decide)

theorem ClientOk.server {st : Status Pid Addr} {mem : Addr → Message}
    (hp : p = taskFs ∨ p = taskTty) : ClientOk p st mem .user .none where
  task _ := rfl
  user _ := rfl
  alive h := absurd rfl h
  waiting h := by cases h
  sending d a hf ht := by rcases hp with rfl | rfl <;> contradiction

/-- The answer to a request comes from another place than before. -/
def OwedMoves (o o' : Owed) : Prop := o' = o ∨ o ≠ .none ∧ o ≠ .asked ∧ o' ≠ .none

theorem ClientOk.moves {st : Status Pid Addr} {mem : Addr → Message} {c : ClientPc} {o o' : Owed}
    (h : ClientOk p st mem c o) (ho : OwedMoves o o') : ClientOk p st mem c o' := by
  rcases ho with rfl | ⟨hn, ha, hn'⟩
  · exact h
  · refine ⟨h.task, fun hu => absurd (h.user hu) hn, h.alive, fun hw _ => h.waiting hw hn, ?_⟩
    intro d a hf ht hs
    exact absurd (h.sending d a hf ht hs).2.1 ha

theorem RecordOk.frame (h : RecordOk owed table tty)
    (ho : ∀ p i, owed p = .suspended i → owed' p = .suspended i) : RecordOk owed' table tty := by
  intro i hi ht
  obtain ⟨hc, q, hq, hoq⟩ := h i hi ht
  exact ⟨hc, q, hq, ho q i hoq⟩

namespace FtInv

theorem client_of_ne_user (h : FtInv x pc owed table tty fs) (hp : pc p ≠ .user) :
    nrTasks ≤ p.val := by
  by_contra hlt
  exact hp ((h.client p).task (by omega))

theorem client_of_owed (h : FtInv x pc owed table tty fs) (hp : owed p ≠ .none) :
    nrTasks ≤ p.val :=
  h.client_of_ne_user fun hu => hp ((h.client p).user hu)

theorem pc_server (h : FtInv x pc owed table tty fs) (hp : p = taskFs ∨ p = taskTty) :
    pc p = .user ∧ owed p = .none := by
  have hu : pc p = .user := (h.client p).task (by rcases hp with rfl | rfl <;> decide)
  exact ⟨hu, (h.client p).user hu⟩

theorem clients_update (h : FtInv x pc owed table tty fs) (q : Pid)
    (hq : ClientOk q (x'.status q) (x'.mem q) (pc' q) (owed' q))
    (hpc : ∀ r, r ≠ q → pc' r = pc r) (ho : ∀ r, r ≠ q → OwedMoves (owed r) (owed' r))
    (hs : ∀ r, r ≠ q → r ≠ taskFs → r ≠ taskTty → x'.status r = x.status r ∧ x'.mem r = x.mem r)
    (r : Pid) : ClientOk r (x'.status r) (x'.mem r) (pc' r) (owed' r) := by
  by_cases hrq : r = q
  · subst hrq
    exact hq
  · have hrow := ho r hrq
    rw [hpc r hrq]
    by_cases hr : r = taskFs ∨ r = taskTty
    · have hno := (h.pc_server hr).2
      have ho' : owed' r = .none := by
        rcases hrow with hrow | ⟨hn, -⟩
        · exact hrow.trans hno
        · exact absurd hno hn
      rw [(h.pc_server hr).1, ho']
      exact .server hr
    · rw [not_or] at hr
      rw [(hs r hrq hr.1 hr.2).1, (hs r hrq hr.1 hr.2).2]
      exact (h.client r).moves hrow

theorem call (h : FtInv x pc owed table tty fs) (hp : nrTasks ≤ p.val)
    (hs : x.status p = .idle) (hpc : pc p = .user) (hv : v.type = .read ∨ v.type = .write)
    (hx : (x.setMem p a { v with source := .proc p }).SendCase p taskFs a x') :
    FtInv x' (Function.update pc p (.between a)) (Function.update owed p .asked) table tty fs := by
  have hpf := ne_fs_of_client hp
  have hpt := ne_tty_of_client hp
  have hop := (h.client p).user hpc
  have howed : ∀ q, owed q ≠ .none → Function.update owed p .asked q = owed q := by
    intro q hq
    apply Function.update_of_ne
    rintro rfl
    exact hq hop
  have hself := Rendezvous.mem_setMem_self x p a { v with source := .proc p }
  have hmem : ∀ q, q ≠ p → (x.setMem p a { v with source := .proc p }).mem q = x.mem q :=
    fun q hq => Rendezvous.mem_setMem_of_ne x a _ hq
  have hrec : RecordOk (Function.update owed p .asked) table tty :=
    h.record.frame fun q i hq => (howed q (by simp [hq])).trans hq
  have hst : (x.setMem p a { v with source := .proc p }).status = x.status := rfl
  cases hx with
  | direct b hd status mem pending =>
    rw [hst] at hd status
    obtain ⟨rfl, rfl, ht⟩ := h.phase.accepts hpt hd
    refine ⟨h.clients_update p ?_ ?_ ?_ ?_, hrec, pending ▸ h.pending, ?_⟩
    · rw [status, if_neg hpf, hs, Function.update_self, Function.update_self]
      exact ⟨by omega, by simp, by simp, by simp, by simp⟩
    · exact fun r hr => Function.update_of_ne hr _ _
    · exact fun r hr => .inl (Function.update_of_ne hr _ _)
    · intro r hr hrf _
      rw [status, if_neg hrf, mem, Rendezvous.mem_setMem_of_ne _ _ _ hrf, hmem r hr]
      exact ⟨rfl, rfl⟩
    · have hm : x'.mem taskFs fsMsg = { v with source := .proc p } := by
        rw [mem, Rendezvous.mem_setMem_self, hself]
      refine .taken (by rw [status, if_pos rfl]) (.inl ⟨p, ?_⟩) (ht.frame ?_ ?_ ?_)
      · rw [hm, Function.update_self, status, if_neg hpf, hs]
        exact ⟨hv, rfl, rfl, by simp⟩
      · rw [status, if_neg (by decide)]
      · rw [mem, Rendezvous.mem_setMem_of_ne _ _ _ (by decide), hmem _ hpt.symm]
      · exact fun q hq => (howed q (by simp [hq])).trans hq
  | queue hd status mem pending =>
    rw [hst] at hd status
    refine ⟨h.clients_update p ?_ ?_ ?_ ?_, hrec, pending ▸ h.pending, h.phase.frame ?_ ?_ ?_ ?_
      howed ?_ ?_⟩
    · rw [status, if_pos rfl, Function.update_self, Function.update_self, mem]
      refine ⟨by omega, by simp, by simp, by simp, ?_⟩
      intro d c _ _ hdc
      cases hdc
      rw [hself]
      exact ⟨rfl, rfl, ⟨a, rfl⟩, rfl, hv⟩
    · exact fun r hr => Function.update_of_ne hr _ _
    · exact fun r hr => .inl (Function.update_of_ne hr _ _)
    · intro r hr _ _
      rw [status, if_neg hr, mem, hmem r hr]
      exact ⟨rfl, rfl⟩
    · rw [status, if_neg hpf.symm]
    · rw [status, if_neg hpt.symm]
    · rw [mem, hmem _ hpf.symm]
    · rw [mem, hmem _ hpt.symm]
    · intro q hq hn
      rw [status, if_neg (by rintro rfl; rw [hop] at hq; cases hq)]
      exact hn
    · intro d _ hod hb
      have hdp : d ≠ p := by
        rintro rfl
        rw [hpc] at hb
        obtain ⟨c, hc⟩ := hb
        cases hc
      rw [Function.update_of_ne hdp, Function.update_of_ne hdp]
      exact ⟨hod, hb⟩

theorem receive (h : FtInv x pc owed table tty fs) (hs : x.status p = .idle)
    (hpc : pc p = .between a)
    (hx : (x.setMem p a { v with source := .proc p }).ReceiveCase intMessage p (.only taskFs) a
      x') :
    FtInv x' (Function.update pc p .waiting) owed table tty fs := by
  have hp : nrTasks ≤ p.val := h.client_of_ne_user (by simp [hpc])
  have hpf := ne_fs_of_client hp
  have hpt := ne_tty_of_client hp
  have hmem : ∀ q, q ≠ p → (x.setMem p a { v with source := .proc p }).mem q = x.mem q :=
    fun q hq => Rendezvous.mem_setMem_of_ne x a _ hq
  have hst : (x.setMem p a { v with source := .proc p }).status = x.status := rfl
  cases hx with
  | interrupt hn => exact absurd rfl (hn taskFs)
  | take f b hsrc hf status mem pending =>
    rcases hsrc with hsrc | hsrc <;> cases hsrc
    rw [hst] at hf status
    obtain ⟨rfl, rfl, hop, -, ht⟩ := h.phase.sends hpt hf
    refine ⟨h.clients_update p ?_ ?_ (fun _ _ => .inl rfl) ?_, h.record, pending ▸ h.pending, ?_⟩
    · rw [status, if_neg hpf, hs, Function.update_self, hop]
      exact ⟨by omega, by simp, by simp, by simp, by simp⟩
    · exact fun r hr => Function.update_of_ne hr _ _
    · intro r hr hrf _
      rw [status, if_neg hrf, mem, Rendezvous.mem_setMem_of_ne _ _ _ hr, hmem r hr]
      exact ⟨rfl, rfl⟩
    · refine .top (by rw [status, if_pos rfl]) (ht.frame ?_ ?_ (fun _ hq => hq))
      · rw [status, if_neg (by decide)]
      · rw [mem, Rendezvous.mem_setMem_of_ne _ _ _ hpt.symm, hmem _ hpt.symm]
  | wait hsrc status mem pending =>
    rw [hst] at hsrc status
    refine ⟨h.clients_update p ?_ ?_ (fun _ _ => .inl rfl) ?_, h.record, pending ▸ h.pending,
      h.phase.frame ?_ ?_ ?_ ?_ (fun _ _ => rfl) ?_ ?_⟩
    · rw [status, if_pos rfl, Function.update_self]
      exact ⟨by omega, by simp, by simp, fun _ _ => ⟨a, rfl⟩, by simp⟩
    · exact fun r hr => Function.update_of_ne hr _ _
    · intro r hr _ _
      rw [status, if_neg hr, mem, hmem r hr]
      exact ⟨rfl, rfl⟩
    · rw [status, if_neg hpf.symm]
    · rw [status, if_neg hpt.symm]
    · rw [mem, hmem _ hpf.symm]
    · rw [mem, hmem _ hpt.symm]
    · intro q _ hn d c
      rw [status]
      split
      · simp
      · exact hn d c
    · intro d hd hod hb
      have hdp : d ≠ p := by
        rintro rfl
        exact hsrc taskFs (.inr rfl) fsMsg hd
      rw [Function.update_of_ne hdp]
      exact ⟨hod, hb⟩

theorem resume (h : FtInv x pc owed table tty fs) (hs : x.status p = .idle)
    (hpc : pc p = .waiting) : FtInv x (Function.update pc p .user) owed table tty fs := by
  have hop : owed p = .none := by
    by_contra hne
    obtain ⟨a, ha⟩ := (h.client p).waiting hpc hne
    rw [hs] at ha
    cases ha
  refine ⟨h.clients_update p ?_ ?_ (fun _ _ => .inl rfl) (fun _ _ _ _ => ⟨rfl, rfl⟩), h.record,
    h.pending, h.phase.frame rfl rfl rfl rfl (fun _ _ => rfl) (fun _ _ hn => hn) ?_⟩
  · rw [Function.update_self, hs, hop]
    exact ⟨fun _ => rfl, fun _ => rfl, fun hn => absurd rfl hn, by simp, by simp⟩
  · exact fun r hr => Function.update_of_ne hr _ _
  · intro d _ hod hb
    have hdp : d ≠ p := by
      rintro rfl
      rw [hpc] at hb
      obtain ⟨c, hc⟩ := hb
      cases hc
    rw [Function.update_of_ne hdp]
    exact ⟨hod, hb⟩

end FtInv

end Clients

section Fs

variable {x x' : Ipc} {pc : Pid → ClientPc} {owed : Pid → Owed} {table : Fin nrTtys → Tty}
variable {tty : TtyPc} {fs : FsPc} {p q : Pid} {w : Message}

namespace FtInv

theorem not_sending_of_owed (h : FtInv x pc owed table tty fs) (hp : nrTasks ≤ p.val)
    (ho : owed p ≠ .asked) (d : Pid) (a : Addr) : x.status p ≠ .sending d a := by
  intro hs
  exact ho ((h.client p).sending d a (ne_fs_of_client hp) (ne_tty_of_client hp) hs).2.1

theorem answer (h : FtInv x pc owed table tty fs) (hfs : x.status taskFs = .idle)
    (ht : TtyFree x owed tty) (ho : owed p = .serving ∨ owed p = .resumed)
    (hx : (x.setMem taskFs fsMsg w).SendCase taskFs p fsMsg x') :
    FtInv x' pc (Function.update owed p .none) table tty .top := by
  have hne : owed p ≠ .none := by rcases ho with ho | ho <;> simp [ho]
  have hp := h.client_of_owed hne
  have hpf := ne_fs_of_client hp
  have hpt := ne_tty_of_client hp
  have hst : (x.setMem taskFs fsMsg w).status = x.status := rfl
  have hrec : RecordOk (Function.update owed p .none) table tty := by
    apply h.record.frame
    intro r i hr
    rw [Function.update_of_ne (by rintro rfl; simp [hr] at ho)]
    exact hr
  have hres : ∀ r, owed r = .resuming → Function.update owed p .none r = .resuming := by
    intro r hr
    rw [Function.update_of_ne (by rintro rfl; simp [hr] at ho)]
    exact hr
  have hmem : ∀ r, r ≠ taskFs → (x.setMem taskFs fsMsg w).mem r = x.mem r :=
    fun r hr => Rendezvous.mem_setMem_of_ne x _ _ hr
  have hold := h.client p
  have hpc : pc p ≠ .user := fun hu => hne (hold.user hu)
  cases hx with
  | direct b hd status mem pending =>
    rw [hst] at hd status
    refine ⟨h.clients_update p ?_ (fun _ _ => rfl) ?_ ?_, hrec, pending ▸ h.pending, ?_⟩
    · rw [status, if_pos rfl, Function.update_self]
      exact ⟨hold.task, by simp, by simp, by simp, by simp⟩
    · exact fun r hr => .inl (Function.update_of_ne hr _ _)
    · intro r hr hrf _
      rw [status, if_neg hr, mem, Rendezvous.mem_setMem_of_ne _ _ _ hr, hmem r hrf]
      exact ⟨rfl, rfl⟩
    · refine .top (by rw [status, if_neg hpf.symm, hfs]) (ht.frame ?_ ?_ hres)
      · rw [status, if_neg hpt.symm]
      · rw [mem, Rendezvous.mem_setMem_of_ne _ _ _ hpt.symm, hmem _ (by decide)]
  | queue hd status mem pending =>
    rw [hst] at hd status
    have hb : ∃ a, pc p = .between a := by
      cases hpc' : pc p with
      | user => exact absurd hpc' hpc
      | between a => exact ⟨a, rfl⟩
      | waiting =>
        obtain ⟨a, ha⟩ := hold.waiting hpc' hne
        exact absurd ha (hd a).2
    refine ⟨h.clients_update p ?_ (fun _ _ => rfl) ?_ ?_, hrec, pending ▸ h.pending, ?_⟩
    · rw [status, if_neg hpf, Function.update_self, mem, hmem p hpf]
      refine ⟨hold.task, by simp, hold.alive, by simp, ?_⟩
      intro d a _ _ hs
      exact absurd hs (h.not_sending_of_owed hp (by rcases ho with ho | ho <;> simp [ho]) d a)
    · exact fun r hr => .inl (Function.update_of_ne hr _ _)
    · intro r hr hrf _
      rw [status, if_neg hrf, mem, hmem r hrf]
      exact ⟨rfl, rfl⟩
    · refine .replying p (by rw [status, if_pos rfl]) hp (Function.update_self ..) hb
        (ht.frame ?_ ?_ hres)
      · rw [status, if_neg (by decide)]
      · rw [mem, hmem _ (by decide)]

theorem fsReceive (h : FtInv x pc owed table tty .top) (hfs : x.status taskFs = .idle)
    (hx : (x.setMem taskFs fsMsg w).ReceiveCase intMessage taskFs .any fsMsg x') :
    ∃ owed', FtInv x' pc owed' table tty .receive := by
  have ht : TtyFree x owed tty := by
    cases h.phase with
    | top _ ht => exact ht
    | replying d hs _ _ _ ht => exact ht
    | asked q hq => rcases hq with ⟨hq, -⟩ | ⟨hq, -⟩ <;> cases hq
  have hst : (x.setMem taskFs fsMsg w).status = x.status := rfl
  have hmem : ∀ r, r ≠ taskFs → (x.setMem taskFs fsMsg w).mem r = x.mem r :=
    fun r hr => Rendezvous.mem_setMem_of_ne x _ _ hr
  have hsame : ∀ r, OwedMoves (owed r) (owed r) := fun r => .inl rfl
  cases hx with
  | interrupt _ hp =>
    rw [show (x.setMem taskFs fsMsg w).pending = x.pending from rfl,
      h.pending _ (by decide)] at hp
    cases hp
  | take f b _ hf status mem pending =>
    rw [hst] at hf status
    have hff : f ≠ taskFs := by
      rintro rfl
      rw [hfs] at hf
      cases hf
    have hm : x'.mem taskFs fsMsg = x.mem f b := by
      rw [mem, Rendezvous.mem_setMem_self, hmem f hff]
    have hmo : ∀ r, r ≠ taskFs → x'.mem r = x.mem r := by
      intro r hr
      rw [mem, Rendezvous.mem_setMem_of_ne _ _ _ hr, hmem r hr]
    by_cases hft : f = taskTty
    · subst hft
      cases ht with
      | running _ hi => rw [hi] at hf; cases hf
      | listening hl => rw [hl] at hf; cases hf
      | woken hi => rw [hi] at hf; cases hf
      | resuming p hs htype hproc hop =>
        rw [hs] at hf
        cases hf
        have hres : ∀ r, r ≠ p → Function.update owed p .resumed r = owed r :=
          fun r hr => Function.update_of_ne hr _ _
        refine ⟨Function.update owed p .resumed, h.clients_update p ?_ (fun _ _ => rfl)
          (fun r hr => .inl (hres r hr)) ?_, ?_, pending ▸ h.pending, ?_⟩
        · have hp := h.client_of_owed (p := p) (by simp [hop])
          rw [status, if_neg (ne_tty_of_client hp), hmo p (ne_fs_of_client hp),
            Function.update_self]
          exact (h.client p).moves (.inr ⟨by simp [hop], by simp [hop], by simp⟩)
        · intro r hr hrf hrt
          rw [status, if_neg hrt, hmo r hrf]
          exact ⟨rfl, rfl⟩
        · apply h.record.frame
          intro r i hr
          rw [hres r (by rintro rfl; rw [hop] at hr; cases hr)]
          exact hr
        · refine .taken (by rw [status, if_neg (by decide), hfs]) (.inr ⟨p, ?_⟩)
            (.running (by simp) (by rw [status, if_pos rfl]))
          rw [hm, Function.update_self]
          exact ⟨htype, hproc, rfl⟩
    · obtain ⟨-, hof, -, hsrc, htype⟩ := (h.client f).sending taskFs b hff hft hf
      refine ⟨owed, h.clients_update f ?_ (fun _ _ => rfl) (fun r _ => hsame r) ?_, h.record,
        pending ▸ h.pending, ?_⟩
      · have hold := h.client f
        rw [status, if_pos rfl]
        refine ⟨hold.task, hold.user, by simp, ?_, by simp⟩
        intro hw hne
        obtain ⟨c, hc⟩ := hold.waiting hw hne
        rw [hf] at hc
        cases hc
      · intro r hr hrf _
        rw [status, if_neg hr, hmo r hrf]
        exact ⟨rfl, rfl⟩
      · refine .taken (by rw [status, if_neg hff.symm, hfs]) (.inl ⟨f, ?_⟩)
          (ht.frame ?_ (hmo _ (by decide)) (fun _ hr => hr))
        · rw [hm, status, if_pos rfl]
          exact ⟨htype, hsrc, hof, by simp⟩
        · rw [status, if_neg (Ne.symm hft)]
  | wait _ status mem pending =>
    rw [hst] at status
    refine ⟨owed, h.clients_update taskFs ?_ (fun _ _ => rfl) (fun r _ => hsame r) ?_, h.record,
      pending ▸ h.pending, .receiving (by rw [status, if_pos rfl]) (ht.frame ?_ ?_
        (fun _ hr => hr))⟩
    · rw [(h.pc_server (.inl rfl)).1, (h.pc_server (.inl rfl)).2]
      exact .server (.inl rfl)
    · intro r hr hrf _
      rw [status, if_neg hr, mem, hmem r hrf]
      exact ⟨rfl, rfl⟩
    · rw [status, if_neg (by decide)]
    · rw [mem, hmem _ (by decide)]

theorem serveRequest (h : FtInv x pc owed table tty fs) (hfs : x.status taskFs = .idle)
    (ht : TtyFree x owed tty) (hop : owed p = .asked) (hns : ∀ d a, x.status p ≠ .sending d a)
    (hw : DevMsg w p)
    (hq : (∃ src a, x.status taskTty = .receiving src a) ∨
      (∀ d a, x.status taskTty ≠ .sending d a) ∧ NoneLeft table tty)
    (hx : (x.setMem taskFs fsMsg w).SendCase taskFs taskTty fsMsg x') :
    FtInv x' pc (Function.update owed p .serving) table tty (.ttySent p) := by
  have hp := h.client_of_owed (p := p) (by simp [hop])
  have hpf := ne_fs_of_client hp
  have hpt := ne_tty_of_client hp
  have hst : (x.setMem taskFs fsMsg w).status = x.status := rfl
  have hmem : ∀ r, r ≠ taskFs → (x.setMem taskFs fsMsg w).mem r = x.mem r :=
    fun r hr => Rendezvous.mem_setMem_of_ne x _ _ hr
  have hserve : ∀ r, r ≠ p → Function.update owed p .serving r = owed r :=
    fun r hr => Function.update_of_ne hr _ _
  have hrec : RecordOk (Function.update owed p .serving) table tty := by
    apply h.record.frame
    intro r i hr
    rw [hserve r (by rintro rfl; rw [hop] at hr; cases hr)]
    exact hr
  have hcl : ClientOk p (x.status p) (x.mem p) (pc p) .serving := by
    have hold := h.client p
    refine ⟨hold.task, ?_, hold.alive, fun hw _ => hold.waiting hw (by simp [hop]), ?_⟩
    · intro hu
      rw [hold.user hu] at hop
      cases hop
    · intro d a _ _ hs
      exact absurd hs (hns d a)
  cases hx with
  | direct b hd status mem pending =>
    rw [hst] at hd status
    obtain ⟨rfl, rfl⟩ : b = ttyMsg ∧ tty = .receive := by
      cases ht with
      | running _ hi => rw [hi] at hd; rcases hd with hd | hd <;> cases hd
      | resuming q hs => rw [hs] at hd; rcases hd with hd | hd <;> cases hd
      | woken hi => rw [hi] at hd; rcases hd with hd | hd <;> cases hd
      | listening hl =>
        rw [hl] at hd
        rcases hd with hd | hd <;> cases hd
        exact ⟨rfl, rfl⟩
    refine ⟨h.clients_update p ?_ (fun _ _ => rfl) (fun r hr => .inl (hserve r hr)) ?_, hrec,
      pending ▸ h.pending, .asked p (.inl ⟨rfl, ?_⟩) rfl (by rw [status, if_pos rfl]) ?_
        (Function.update_self ..)⟩
    · rw [status, if_neg hpt, mem, Rendezvous.mem_setMem_of_ne _ _ _ hpt, hmem p hpf,
        Function.update_self]
      exact hcl
    · intro r hr hrf hrt
      rw [status, if_neg hrt, mem, Rendezvous.mem_setMem_of_ne _ _ _ hrt, hmem r hrf]
      exact ⟨rfl, rfl⟩
    · rw [status, if_neg (by decide), hfs]
    · rw [mem, Rendezvous.mem_setMem_self, Rendezvous.mem_setMem_self]
      exact hw
  | queue hd status mem pending =>
    rw [hst] at hd status
    obtain ⟨htns, hnone⟩ : (∀ d a, x.status taskTty ≠ .sending d a) ∧ NoneLeft table tty := by
      rcases hq with ⟨src, a, hr⟩ | hq
      · cases ht with
        | running _ hi => rw [hi] at hr; cases hr
        | resuming q hs => rw [hs] at hr; cases hr
        | woken hi => rw [hi] at hr; cases hr
        | listening hl => exact absurd hl (hd _).1
      · exact hq
    have htty : x'.status taskTty = x.status taskTty := by rw [status, if_neg (by decide)]
    refine ⟨h.clients_update p ?_ (fun _ _ => rfl) (fun r hr => .inl (hserve r hr)) ?_, hrec,
      pending ▸ h.pending, .asking p (by rw [status, if_pos rfl]) ?_ (Function.update_self ..)
        (ht.frame htty ?_ ?_) (htty ▸ htns) hnone⟩
    · rw [status, if_neg hpf, mem, hmem p hpf, Function.update_self]
      exact hcl
    · intro r hr hrf _
      rw [status, if_neg hrf, mem, hmem r hrf]
      exact ⟨rfl, rfl⟩
    · rw [mem, Rendezvous.mem_setMem_self]
      exact hw
    · rw [mem, hmem _ (by decide)]
    · intro r hr
      rw [hserve r (by rintro rfl; rw [hop] at hr; cases hr)]
      exact hr

theorem fsTtyReceive (h : FtInv x pc owed table tty (.ttySent q)) (hfs : x.status taskFs = .idle)
    (hx : (x.setMem taskFs fsMsg w).ReceiveCase intMessage taskFs (.only taskTty) fsMsg x') :
    FtInv x' pc owed table tty (.ttyWait q) := by
  have hst : (x.setMem taskFs fsMsg w).status = x.status := rfl
  have hmem : ∀ r, r ≠ taskFs → (x.setMem taskFs fsMsg w).mem r = x.mem r :=
    fun r hr => Rendezvous.mem_setMem_of_ne x _ _ hr
  have hserver : ∀ {st : Status Pid Addr} {mem : Addr → Message},
      ClientOk taskFs st mem (pc taskFs) (owed taskFs) := by
    intro st mem
    rw [(h.pc_server (.inl rfl)).1, (h.pc_server (.inl rfl)).2]
    exact .server (.inl rfl)
  cases hx with
  | interrupt hn => exact absurd rfl (hn taskTty)
  | take f b hsrc hf status mem pending =>
    rcases hsrc with hsrc | hsrc <;> cases hsrc
    rw [hst] at hf status
    refine ⟨h.clients_update taskFs hserver (fun _ _ => rfl) (fun r _ => .inl rfl) ?_, h.record,
      pending ▸ h.pending, ?_⟩
    · intro r _ hrf hrt
      rw [status, if_neg hrt, mem, Rendezvous.mem_setMem_of_ne _ _ _ hrf, hmem r hrf]
      exact ⟨rfl, rfl⟩
    · cases h.phase with
      | asking _ hs => rw [hfs] at hs; cases hs
      | asked _ _ _ hi => rw [hi] at hf; cases hf
      | answering _ htty hs _ hm =>
        rw [hs] at hf
        cases hf
        refine .answered q (by rw [status, if_neg (by decide), hfs]) ?_
          (.running (by rw [htty]; simp) (by rw [status, if_pos rfl]))
        rw [mem, Rendezvous.mem_setMem_self, hmem _ (by decide)]
        exact hm
  | wait hsrc status mem pending =>
    rw [hst] at hsrc status
    refine ⟨h.clients_update taskFs hserver (fun _ _ => rfl) (fun r _ => .inl rfl) ?_, h.record,
      pending ▸ h.pending, ?_⟩
    · intro r _ hrf _
      rw [status, if_neg hrf, mem, hmem r hrf]
      exact ⟨rfl, rfl⟩
    · cases h.phase with
      | asking _ hs => rw [hfs] at hs; cases hs
      | answering _ _ hs => exact absurd hs (hsrc taskTty (.inr rfl) ttyMsg)
      | asked r hr htty hi hm ho =>
        obtain rfl : r = q := by
          rcases hr with ⟨hr, -⟩ | ⟨hr, -⟩ <;> cases hr
          rfl
        refine .asked r (.inr ⟨rfl, by rw [status, if_pos rfl]⟩) htty ?_ ?_ ho
        · rw [status, if_neg (by decide), hi]
        · rw [mem, hmem _ (by decide)]
          exact hm

end FtInv

end Fs

section Tty

variable {x x' : Ipc} {pc : Pid → ClientPc} {owed owed' : Pid → Owed}
variable {table table' : Fin nrTtys → Tty} {tty tty' : TtyPc} {fs : FsPc} {p q : Pid}
variable {w : Message} {i : Fin nrTtys}

theorem ServerPhase.moveTty (h : ServerPhase x pc owed table tty fs)
    (hna : tty = .receive → x.status taskTty = .idle → (x.mem taskTty ttyMsg).type = .hardInt)
    (hnb : x.status taskTty ≠ .sending taskFs ttyMsg) (hot : owed taskTty = .none)
    (ht : TtyFree x' owed' tty')
    (hs : ∀ p, p ≠ taskTty → x'.status p = x.status p) (hm : x'.mem taskFs = x.mem taskFs)
    (ho : ∀ p, (∀ i, owed p ≠ .suspended i) → owed' p = owed p)
    (hask : (∀ d a, x.status taskTty ≠ .sending d a) → NoneLeft table tty →
      (∀ d a, x'.status taskTty ≠ .sending d a) ∧ NoneLeft table' tty') :
    ServerPhase x' pc owed' table' tty' fs := by
  have hfs := hs taskFs (by decide)
  cases h with
  | top hi _ => exact .top (hfs.trans hi) ht
  | replying d hd hcl hod hb _ =>
    exact .replying d (hfs.trans hd) hcl ((ho d (by simp [hod])).trans hod) hb ht
  | receiving hr _ => exact .receiving (hfs.trans hr) ht
  | taken hi htk _ =>
    refine .taken (hfs.trans hi) ?_ ht
    unfold FsTaken
    rw [hm]
    rcases htk with ⟨p, htype, hsrc, hop, hns⟩ | ⟨p, htype, hproc, hop⟩
    · refine .inl ⟨p, htype, hsrc, (ho p (by simp [hop])).trans hop, ?_⟩
      rw [hs p (by rintro rfl; rw [hot] at hop; cases hop)]
      exact hns
    · exact .inr ⟨p, htype, hproc, (ho p (by simp [hop])).trans hop⟩
  | asking q hq hmq hoq _ hns hn =>
    obtain ⟨hns', hn'⟩ := hask hns hn
    exact .asking q (hfs.trans hq) (hm ▸ hmq) ((ho q (by simp [hoq])).trans hoq) ht hns' hn'
  | asked q _ htty hi hmq _ =>
    have htype := hmq.type
    rw [hna htty hi] at htype
    rcases htype with htype | htype <;> cases htype
  | answering q _ hq => exact absurd hq hnb
  | answered q hi hmq _ =>
    refine .answered q (hfs.trans hi) ?_ ht
    rw [hm]
    exact hmq.imp id fun hoq => (ho q (by simp [hoq])).trans hoq

theorem TtyFree.listens (h : TtyFree x owed tty) {src : Source Pid} {b : Addr}
    (hs : x.status taskTty = .receiving src b) : tty = .receive ∧ b = ttyMsg := by
  cases h with
  | running _ hi => rw [hi] at hs; cases hs
  | resuming p hp => rw [hp] at hs; cases hs
  | woken hi => rw [hi] at hs; cases hs
  | listening hl =>
    rw [hl] at hs
    cases hs
    exact ⟨rfl, rfl⟩

theorem ServerPhase.listens (h : ServerPhase x pc owed table tty fs) {src : Source Pid} {b : Addr}
    (hs : x.status taskTty = .receiving src b) : tty = .receive ∧ b = ttyMsg := by
  cases h with
  | asked q _ _ hi => rw [hi] at hs; cases hs
  | answering q _ hq => rw [hq] at hs; cases hs
  | top _ ht => exact ht.listens hs
  | replying _ _ _ _ _ ht => exact ht.listens hs
  | receiving _ ht => exact ht.listens hs
  | taken _ _ ht => exact ht.listens hs
  | asking _ _ _ _ ht => exact ht.listens hs
  | answered _ _ _ ht => exact ht.listens hs

namespace FtInv

theorem clients_server (h : FtInv x pc owed table tty fs)
    (ho : ∀ r, OwedMoves (owed r) (owed' r))
    (hs : ∀ r, r ≠ taskFs → r ≠ taskTty → x'.status r = x.status r ∧ x'.mem r = x.mem r) (r : Pid) :
    ClientOk r (x'.status r) (x'.mem r) (pc r) (owed' r) := by
  have hserver := h.pc_server (p := taskTty) (.inr rfl)
  refine h.clients_update taskTty ?_ (fun _ _ => rfl) (fun r _ => ho r)
    (fun r _ hrf hrt => hs r hrf hrt) r
  have ho' : owed' taskTty = .none := by
    rcases ho taskTty with ho' | ⟨hn, -⟩
    · exact ho'.trans hserver.2
    · exact absurd hserver.2 hn
  rw [hserver.1, ho']
  exact .server (.inr rfl)

theorem ttyMove (h : FtInv x pc owed table tty fs) (hi : x.status taskTty = .idle)
    (hna : tty = .receive → (x.mem taskTty ttyMsg).type = .hardInt) (htty : tty' ≠ .receive)
    (hrec : RecordOk owed table' tty') (hn : NoneLeft table tty → NoneLeft table' tty') :
    FtInv x pc owed table' tty' fs where
  client := h.client
  record := hrec
  pending := h.pending
  phase := h.phase.moveTty (fun hr _ => hna hr) (by simp [hi]) (h.pc_server (.inr rfl)).2
    (.running htty hi) (fun _ _ => rfl) rfl (fun _ _ => rfl) fun hs hl => ⟨hs, hn hl⟩

theorem ttyReceive (h : FtInv x pc owed table .listen fs) (hi : x.status taskTty = .idle)
    (hx : (x.setMem taskTty ttyMsg w).ReceiveCase intMessage taskTty .any ttyMsg x') :
    FtInv x' pc owed table .receive fs := by
  have hst : (x.setMem taskTty ttyMsg w).status = x.status := rfl
  have hmem : ∀ r, r ≠ taskTty → (x.setMem taskTty ttyMsg w).mem r = x.mem r :=
    fun r hr => Rendezvous.mem_setMem_of_ne x _ _ hr
  have hrec : RecordOk owed table .receive := fun i hb _ => h.record i hb (by simp)
  have hnone : NoneLeft table .listen → NoneLeft table .receive :=
    fun hn i hb => hn i ⟨hb.1, by simp⟩
  have hot := (h.pc_server (p := taskTty) (.inr rfl)).2
  cases hx with
  | interrupt _ _ status mem pending =>
    rw [hst] at status
    have hmo : ∀ r, r ≠ taskTty → x'.mem r = x.mem r := by
      intro r hr
      rw [mem, Rendezvous.mem_setMem_of_ne _ _ _ hr, hmem r hr]
    refine ⟨h.clients_server (fun _ => .inl rfl) ?_, hrec, ?_,
      h.phase.moveTty (by simp) (by simp [hi]) hot (.woken (by rw [status, hi]) ?_) ?_
        (hmo _ (by decide)) (fun _ _ => rfl) ?_⟩
    · intro r _ hrt
      rw [status, hmo r hrt]
      exact ⟨rfl, rfl⟩
    · intro r hr
      rw [pending, Function.update_of_ne hr]
      exact h.pending r hr
    · rw [mem, Rendezvous.mem_setMem_self]
      rfl
    · exact fun r _ => by rw [status]
    · intro hs hn
      rw [status]
      exact ⟨hs, hnone hn⟩
  | take f b _ hf status mem pending =>
    rw [hst] at hf status
    have hft : f ≠ taskTty := by
      rintro rfl
      rw [hi] at hf
      cases hf
    obtain rfl : f = taskFs := by
      by_contra hff
      have hd := ((h.client f).sending taskTty b hff hft hf).1
      exact absurd hd (by decide)
    refine ⟨h.clients_server (fun _ => .inl rfl) ?_, hrec, pending ▸ h.pending, ?_⟩
    · intro r hrf hrt
      rw [status, if_neg hrf, mem, Rendezvous.mem_setMem_of_ne _ _ _ hrt, hmem r hrt]
      exact ⟨rfl, rfl⟩
    · cases h.phase with
      | asking q hs hm ho _ _ _ =>
        rw [hs] at hf
        cases hf
        refine .asked q (.inl ⟨rfl, by rw [status, if_pos rfl]⟩) rfl ?_ ?_ ho
        · rw [status, if_neg (by decide), hi]
        · rw [mem, Rendezvous.mem_setMem_self, hmem _ (by decide)]
          exact hm
      | replying d hs hd =>
        rw [hs] at hf
        cases hf
        exact absurd hd (by decide)
      | top hs => rw [hs] at hf; cases hf
      | receiving hs => rw [hs] at hf; cases hf
      | taken hs => rw [hs] at hf; cases hf
      | asked q _ htty => cases htty
      | answering q htty => cases htty
      | answered q hs => rw [hs] at hf; cases hf
  | wait _ status mem pending =>
    rw [hst] at status
    refine ⟨h.clients_server (fun _ => .inl rfl) ?_, hrec, pending ▸ h.pending,
      h.phase.moveTty (by simp) (by simp [hi]) hot (.listening (by rw [status, if_pos rfl])) ?_ ?_
        (fun _ _ => rfl) ?_⟩
    · intro r _ hrt
      rw [status, if_neg hrt, mem, hmem r hrt]
      exact ⟨rfl, rfl⟩
    · exact fun r hr => by rw [status, if_neg hr]
    · rw [mem, hmem _ (by decide)]
    · intro _ hn
      rw [status, if_pos rfl]
      exact ⟨by simp, hnone hn⟩

theorem ttyResume (h : FtInv x pc owed table (.write i) fs) (hi : x.status taskTty = .idle)
    (hb : 0 < (table i).ttyBytesLeft) (hp : (table i).ttyProNr = p.val)
    (hop : owed p = .suspended i) (ht : ∀ j, j ≠ i → table' j = table j)
    (htype : w.type = .resumeProc) (hproc : w.m3i3 = p.val)
    (hx : (x.setMem taskTty ttyResumeMsg w).SendCase taskTty taskFs ttyResumeMsg x') :
    ∃ owed', FtInv x' pc owed' table' (.resumed i) fs := by
  have hst : (x.setMem taskTty ttyResumeMsg w).status = x.status := rfl
  have hmem : ∀ r, r ≠ taskTty → (x.setMem taskTty ttyResumeMsg w).mem r = x.mem r :=
    fun r hr => Rendezvous.mem_setMem_of_ne x _ _ hr
  have hrec : ∀ o, RecordOk (Function.update owed p o) table' (.resumed i) := by
    intro o j hj hji
    have hne : j ≠ i := fun he => hji (by rw [he])
    rw [ht j hne] at hj ⊢
    obtain ⟨hc, r, hr, hor⟩ := h.record j hj (by simp)
    refine ⟨hc, r, hr, ?_⟩
    rw [Function.update_of_ne]
    · exact hor
    · rintro rfl
      rw [hop] at hor
      cases hor
      exact hne rfl
  have hmoves : ∀ o, o ≠ .none → ∀ r, OwedMoves (owed r) (Function.update owed p o r) := by
    intro o ho r
    by_cases hrp : r = p
    · subst hrp
      rw [Function.update_self]
      exact .inr ⟨by simp [hop], by simp [hop], ho⟩
    · exact .inl (Function.update_of_ne hrp _ _)
  cases hx with
  | direct b hd status mem pending =>
    rw [hst] at hd status
    have hfs : fs = .receive ∧ b = fsMsg := by
      cases h.phase with
      | receiving hs =>
        rw [hs] at hd
        rcases hd with hd | hd <;> cases hd
        exact ⟨rfl, rfl⟩
      | asked _ _ htty => cases htty
      | answering _ htty => cases htty
      | top hs => rw [hs] at hd; rcases hd with hd | hd <;> cases hd
      | replying _ hs => rw [hs] at hd; rcases hd with hd | hd <;> cases hd
      | taken hs => rw [hs] at hd; rcases hd with hd | hd <;> cases hd
      | asking _ hs => rw [hs] at hd; rcases hd with hd | hd <;> cases hd
      | answered _ hs => rw [hs] at hd; rcases hd with hd | hd <;> cases hd
    obtain ⟨rfl, rfl⟩ := hfs
    refine ⟨_, h.clients_server (hmoves .resumed (by simp)) ?_, hrec _, pending ▸ h.pending,
      .taken (by rw [status, if_pos rfl]) (.inr ⟨p, ?_⟩) (.running (by simp) ?_)⟩
    · intro r hrf hrt
      rw [status, if_neg hrf, mem, Rendezvous.mem_setMem_of_ne _ _ _ hrf, hmem r hrt]
      exact ⟨rfl, rfl⟩
    · rw [mem, Rendezvous.mem_setMem_self, Rendezvous.mem_setMem_self, Function.update_self]
      exact ⟨htype, hproc, rfl⟩
    · rw [status, if_neg (by decide), hi]
  | queue hd status mem pending =>
    rw [hst] at hd status
    have hself : x'.mem taskTty ttyResumeMsg = w := by rw [mem, Rendezvous.mem_setMem_self]
    refine ⟨_, h.clients_server (hmoves .resuming (by simp)) ?_, hrec _, pending ▸ h.pending,
      h.phase.moveTty (by simp) (by simp [hi]) (h.pc_server (.inr rfl)).2
        (.resuming p (by rw [status, if_pos rfl]) (hself ▸ htype) (hself ▸ hproc)
          (Function.update_self ..)) ?_ ?_ ?_ ?_⟩
    · intro r _ hrt
      rw [status, if_neg hrt, mem, hmem r hrt]
      exact ⟨rfl, rfl⟩
    · exact fun r hr => by rw [status, if_neg hr]
    · rw [mem, hmem _ (by decide)]
    · intro r hr
      rw [Function.update_of_ne]
      rintro rfl
      exact hr i hop
    · intro _ hn
      exact absurd ⟨hb, by simp⟩ (hn i)

theorem ttyAnswer (h : FtInv x pc owed table .receive fs) (hi : x.status taskTty = .idle)
    (hfs : fs = .ttySent q ∧ x.status taskFs = .idle ∨
      fs = .ttyWait q ∧ x.status taskFs = .receiving (.only taskTty) fsMsg)
    (ho : ∀ r, OwedMoves (owed r) (owed' r))
    (hrec : RecordOk owed' table' (.read ⟨0, by decide⟩))
    (hw : w.type = .suspendProc ∨ owed' q = .serving)
    (hx : (x.setMem taskTty ttyMsg w).SendCase taskTty taskFs ttyMsg x') :
    FtInv x' pc owed' table' (.read ⟨0, by decide⟩) fs := by
  have hst : (x.setMem taskTty ttyMsg w).status = x.status := rfl
  have hmem : ∀ r, r ≠ taskTty → (x.setMem taskTty ttyMsg w).mem r = x.mem r :=
    fun r hr => Rendezvous.mem_setMem_of_ne x _ _ hr
  cases hx with
  | direct b hd status mem pending =>
    rw [hst] at hd status
    rcases hfs with ⟨-, hidle⟩ | ⟨rfl, hr⟩
    · rw [hidle] at hd
      rcases hd with hd | hd <;> cases hd
    · obtain rfl : b = fsMsg := by
        rw [hr] at hd
        rcases hd with hd | hd <;> cases hd
        rfl
      refine ⟨h.clients_server ho ?_, hrec, pending ▸ h.pending,
        .answered q (by rw [status, if_pos rfl]) ?_ (.running (by simp) ?_)⟩
      · intro r hrf hrt
        rw [status, if_neg hrf, mem, Rendezvous.mem_setMem_of_ne _ _ _ hrf, hmem r hrt]
        exact ⟨rfl, rfl⟩
      · rw [mem, Rendezvous.mem_setMem_self, Rendezvous.mem_setMem_self]
        exact hw
      · rw [status, if_neg (by decide), hi]
  | queue hd status mem pending =>
    rw [hst] at hd status
    rcases hfs with ⟨rfl, hidle⟩ | ⟨-, hr⟩
    · refine ⟨h.clients_server ho ?_, hrec, pending ▸ h.pending,
        .answering q rfl (by rw [status, if_pos rfl]) ?_ ?_⟩
      · intro r _ hrt
        rw [status, if_neg hrt, mem, hmem r hrt]
        exact ⟨rfl, rfl⟩
      · rw [status, if_neg (by decide), hidle]
      · rw [mem, Rendezvous.mem_setMem_self]
        exact hw
    · exact absurd hr (hd _).2

theorem clock (h : FtInv x pc owed table tty fs) :
    FtInv (x.inform markInt taskTty) pc owed table tty fs := by
  have hot := (h.pc_server (p := taskTty) (.inr rfl)).2
  unfold Rendezvous.inform
  split
  · next b hb =>
    obtain ⟨src, hs⟩ : ∃ src, x.status taskTty = .receiving src b := by
      rcases Rendezvous.status_of_awaits hb with hs | hs <;> exact ⟨_, hs⟩
    obtain ⟨rfl, rfl⟩ := h.phase.listens hs
    generalize hx : ((x.setMem taskTty ttyMsg (markInt (x.mem taskTty ttyMsg))).setStatus taskTty
      .idle).setPending taskTty false = x'
    have hst : ∀ r, x'.status r = if r = taskTty then .idle else x.status r := by
      intro r
      rw [← hx]
      exact Function.update_apply ..
    have hmem : ∀ r, r ≠ taskTty → x'.mem r = x.mem r := by
      intro r hr
      rw [← hx]
      exact Function.update_of_ne hr _ _
    refine ⟨h.clients_server (fun _ => .inl rfl) ?_, h.record, ?_,
      h.phase.moveTty (by simp [hs]) (by simp [hs]) hot (.woken (by rw [hst, if_pos rfl]) ?_) ?_
        (hmem _ (by decide)) (fun _ _ => rfl) ?_⟩
    · intro r _ hr
      rw [hst, if_neg hr]
      exact ⟨rfl, hmem r hr⟩
    · intro r hr
      rw [← hx]
      exact (Function.update_of_ne hr _ _).trans (h.pending r hr)
    · rw [← hx]
      change ((x.setMem taskTty ttyMsg _).mem taskTty ttyMsg).type = _
      rw [Rendezvous.mem_setMem_self]
      rfl
    · exact fun r hr => by rw [hst, if_neg hr]
    · intro _ hn
      rw [hst, if_pos rfl]
      exact ⟨by simp, hn⟩
  · refine ⟨h.client, h.record, ?_, ?_⟩
    · intro r hr
      exact (Function.update_of_ne hr _ _).trans (h.pending r hr)
    · exact h.phase.frame rfl rfl rfl rfl (fun _ _ => rfl) (fun _ _ hn => hn)
        (fun _ _ ho hb => ⟨ho, hb⟩)

end FtInv

end Tty

end BazingaOS
