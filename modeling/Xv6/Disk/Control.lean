import Xv6.Disk.Abs

/-!
# Who is where: the control invariant of the log

`log.outstanding` counts the operations in progress, `log.committing` is set exactly while one
process is in its commit, and a commit has the log for itself. The `sync` system call respects
neither, so the invariant is kept by the steps that meet `SyncAlone`: `sys_sync` goes past its test
only while no operation runs and none is being copied to the log, and no operation begins until that
`sys_sync` is done. Runs without `sys_sync` meet the condition by themselves.
-/

namespace Xv6.Disk

open Function (update update_self update_of_ne)

variable {c : Pc}

namespace Pc

/-- Between `log.committing = 1` and `log.committing = 0`. -/
def inCommit : Pc → Bool
  | .commit => true
  | .writeLog _ => true
  | .commitHead => true
  | .fullTest => true
  | .sync .endOp => true
  | .install .endOp _ => true
  | .reset .endOp => true
  | .clearHead .endOp => true
  | .endCommit => true
  | _ => false

/-- In a commit whose transaction is not completely in the log area yet. -/
def writing : Pc → Bool
  | .commit => true
  | .writeLog _ => true
  | _ => false

/-- Past the tests of `sync` (or in `recover_from_log`): blocks are being installed. -/
def syncing : Pc → Bool
  | .install _ _ => true
  | .reset _ => true
  | .clearHead _ => true
  | _ => false

/-- The same, in the system call. -/
def sysSyncing : Pc → Bool
  | .install .sysSync _ => true
  | .reset .sysSync => true
  | .clearHead .sysSync => true
  | _ => false

lemma not_writing_of_syncing (h : c.syncing) : c.writing = false := by
  cases c <;> first | rfl | exact absurd h (by simp [syncing])

lemma inCommit_of_writing (h : c.writing) : c.inCommit := by
  cases c <;> first | rfl | exact absurd h (by simp [writing])

/-- Whoever installs blocks is in its commit, in the system call or in recovery. -/
lemma syncing_cases (h : c.syncing) : c.inCommit ∨ c.sysSyncing ∨ c.recovering := by
  cases c with
  | install c _ | reset c | clearHead c => cases c <;> simp [inCommit, sysSyncing, recovering]
  | _ => cases h

/-- Moving from `old` to `new` stays within the same region of the code, up to leaving `write_log`,
`install_trans` or recovery. -/
def Follows (old new : Pc) : Prop :=
  (old ≠ .inOp ∧ old ≠ .user ∧ new ≠ .inOp) ∧ new.inCommit = old.inCommit ∧
    (new.writing = true → old.writing = true) ∧ (new.syncing = true → old.syncing = true) ∧
    (new.recovering = true → old.recovering = true)

instance (old new : Pc) : Decidable (Follows old new) := by
  unfold Follows
  infer_instance

lemma follows_ret_of_sync (c : Caller) : Follows (.sync c) c.ret := by
  cases c <;> decide

lemma follows_install (c : Caller) (t : Nat) : Follows (.install c t) (.install c (t + 1)) := by
  cases c <;> simp [Follows, inCommit, writing, syncing, recovering]

lemma follows_reset (c : Caller) (t : Nat) : Follows (.install c t) (.reset c) := by
  cases c <;> simp [Follows, inCommit, writing, syncing, recovering]

lemma follows_clearHead (c : Caller) : Follows (.reset c) (.clearHead c) := by
  cases c <;> decide

lemma follows_ret (c : Caller) : Follows (.clearHead c) c.ret := by
  cases c <;> decide

end Pc

/-- The operations in progress. -/
def ops (pc : ProcId → Pc) : Finset ProcId := Finset.univ.filter fun p => pc p = .inOp

variable {pc : ProcId → Pc}

lemma mem_ops {p : ProcId} : p ∈ ops pc ↔ pc p = .inOp := by
  simp [ops]

lemma ops_enter (p : ProcId) : ops (update pc p .inOp) = insert p (ops pc) := by
  ext q
  rw [mem_ops, Finset.mem_insert, mem_ops]
  by_cases hq : q = p
  · simp [hq]
  · simp [hq]

lemma ops_leave (p : ProcId) (hc : c ≠ .inOp) : ops (update pc p c) = (ops pc).erase p := by
  ext q
  rw [mem_ops, Finset.mem_erase, mem_ops]
  by_cases hq : q = p
  · simp [hq, hc]
  · simp [hq]

/-- The control invariant. -/
structure Ctl (l : Log) (pc : ProcId → Pc) : Prop where
  outstanding : (ops pc).card = l.outstanding
  commitOne : ∀ p q, (pc p).inCommit = true → (pc q).inCommit = true → p = q
  committing : l.committing = true ↔ ∃ p, (pc p).inCommit = true
  commitIdle : l.committing = true → l.outstanding = 0
  syncIdle : ∀ p, (pc p).syncing = true → l.outstanding = 0 ∧ ∀ q, (pc q).writing = false
  recoverFirst : ∀ p, (pc p).recovering = true → p = initProc
  recoverAlone : (pc initProc).recovering = true → ∀ q, q ≠ initProc → pc q = .user

/-- The condition on `sys_sync`: it goes past its test only while no operation is in progress or
being copied to the log, and no operation begins before it is done. -/
def SyncAlone (l : Log) (pc : ProcId → Pc) : Act → Prop
  | .beginOp _ => ∀ q, (pc q).sysSyncing = false
  | .run p => pc p = .sync .sysSync → l.lh.length = logSize - 1 →
      l.outstanding = 0 ∧ ∀ q, (pc q).writing = false
  | _ => True

instance (l : Log) (pc : ProcId → Pc) : (a : Act) → Decidable (SyncAlone l pc a)
  | .beginOp _ => inferInstanceAs (Decidable (∀ q, (pc q).sysSyncing = false))
  | .run p => inferInstanceAs (Decidable (pc p = .sync .sysSync → l.lh.length = logSize - 1 →
      l.outstanding = 0 ∧ ∀ q, (pc q).writing = false))
  | .bread _ _ => isTrue trivial
  | .logWrite _ _ _ => isTrue trivial
  | .brelse _ _ => isTrue trivial
  | .endOp _ => isTrue trivial
  | .sysSync _ => isTrue trivial

variable {old : Pc}

namespace Ctl

variable {l l' : Log} {pc : ProcId → Pc} {p : ProcId} {c : Pc}

section

variable (h : Ctl l pc)
include h

lemma outstanding_pos (hp : pc p = .inOp) : 0 < l.outstanding := by
  rw [← h.outstanding]
  exact Finset.card_pos.mpr ⟨p, mem_ops.mpr hp⟩

lemma not_inCommit_of_pos (hpos : 0 < l.outstanding) (q : ProcId) : (pc q).inCommit = false := by
  by_contra hq
  have := h.commitIdle (h.committing.mpr ⟨q, by simpa using hq⟩)
  omega

lemma not_syncing_of_pos (hpos : 0 < l.outstanding) (q : ProcId) : (pc q).syncing = false := by
  by_contra hq
  have := (h.syncIdle q (by simpa using hq)).1
  omega

lemma first_of_ne_user (hp : pc p ≠ .user) (hrec : (pc initProc).recovering) : p = initProc := by
  by_contra hne
  exact hp (h.recoverAlone hrec p hne)

/-- A process moves on within the same region of the code. -/
lemma move (hout : l'.outstanding = l.outstanding)
    (hcom : l'.committing = l.committing) (hold : pc p ≠ .inOp) (hnew : c ≠ .inOp)
    (hin : c.inCommit = (pc p).inCommit) (hwr : c.writing → (pc p).writing)
    (hsync : c.syncing → l.outstanding = 0 ∧ ∀ q ≠ p, (pc q).writing = false)
    (hrec : c.recovering → (pc p).recovering)
    (hfirst : (pc initProc).recovering → p = initProc) : Ctl l' (update pc p c) := by
  have hincommit : ∀ q, (update pc p c q).inCommit = (pc q).inCommit := by
    intro q
    by_cases hq : q = p
    · rw [hq, update_self, hin]
    · rw [update_of_ne hq]
  have hwriting : ∀ q, (update pc p c q).writing → (pc q).writing := by
    intro q
    by_cases hq : q = p
    · rw [hq, update_self]; exact hwr
    · rw [update_of_ne hq]; exact id
  have hrecovering : ∀ q, (update pc p c q).recovering →
      (pc q).recovering := by
    intro q
    by_cases hq : q = p
    · rw [hq, update_self]; exact hrec
    · rw [update_of_ne hq]; exact id
  refine ⟨?_, ?_, ?_, ?_, ?_, ?_, ?_⟩
  · rw [hout, ← h.outstanding, ops_leave p hnew,
      Finset.erase_eq_of_notMem (fun hm => hold (mem_ops.mp hm))]
  · intro q r hq hr
    rw [hincommit] at hq hr
    exact h.commitOne q r hq hr
  · rw [hcom, h.committing]
    simp only [hincommit]
  · rw [hcom, hout]
    exact h.commitIdle
  · intro q hq
    rw [hout]
    by_cases hqp : q = p
    · rw [hqp, update_self] at hq
      refine ⟨(hsync hq).1, fun r => ?_⟩
      by_cases hr : r = p
      · rw [hr, update_self]; exact Pc.not_writing_of_syncing hq
      · rw [update_of_ne hr]; exact (hsync hq).2 r hr
    · rw [update_of_ne hqp] at hq
      refine ⟨(h.syncIdle q hq).1, fun r => ?_⟩
      by_contra hr
      have := (h.syncIdle q hq).2 r
      rw [hwriting r (by simpa using hr)] at this
      cases this
  · intro q hq
    exact h.recoverFirst q (hrecovering q hq)
  · intro hi q hq
    have hi' := hrecovering _ hi
    rw [update_of_ne (by rw [hfirst hi']; exact hq)]
    exact h.recoverAlone hi' q hq

lemma not_recovering (hrec : (pc initProc).recovering = false) (q : ProcId) : (pc q).recovering = false := by
  by_contra hq
  have hq : (pc q).recovering := by simpa using hq
  rw [h.recoverFirst q hq, hrec] at hq
  cases hq

lemma beginOp (hrec : (pc initProc).recovering = false) (hp : pc p = .user)
    (hcom : l.committing = false) (halone : ∀ q, (pc q).sysSyncing = false) :
    Ctl { l with outstanding := l.outstanding + 1 } (update pc p .inOp) := by
  have hin : ∀ q, (update pc p .inOp q).inCommit = false := by
    intro q
    by_cases hq : q = p
    · rw [hq, update_self]; rfl
    · rw [update_of_ne hq]
      by_contra hin
      rw [h.committing.mpr ⟨q, by simpa using hin⟩] at hcom
      cases hcom
  have hnr : ∀ q, (update pc p .inOp q).recovering = false := by
    intro q
    by_cases hq : q = p
    · rw [hq, update_self]; rfl
    · rw [update_of_ne hq]; exact h.not_recovering hrec q
  refine ⟨?_, ?_, ?_, ?_, ?_, ?_, ?_⟩
  · rw [ops_enter, Finset.card_insert_of_notMem, h.outstanding]
    intro hm
    rw [mem_ops, hp] at hm
    cases hm
  · intro q r hq
    rw [hin q] at hq
    cases hq
  · simp [hcom, hin]
  · simp [hcom]
  · intro q hq
    rcases Pc.syncing_cases hq with hc | hs | hr
    · rw [hin q] at hc
      cases hc
    · by_cases hqp : q = p
      · rw [hqp, update_self] at hs
        cases hs
      · rw [update_of_ne hqp, halone q] at hs
        cases hs
    · rw [hnr q] at hr
      cases hr
  · intro q hq
    rw [hnr q] at hq
    cases hq
  · intro hi
    rw [hnr initProc] at hi
    cases hi

/-- An operation ends: the last one starts the commit, any other just leaves. -/
lemma endOp (hrec : (pc initProc).recovering = false) (hp : pc p = .inOp) (last : Bool)
    (hlast : last ↔ l.outstanding - 1 = 0) :
    Ctl { l with outstanding := l.outstanding - 1, committing := last }
      (update pc p (if last then .commit else .user)) := by
  have hpos := h.outstanding_pos hp
  have hother : ∀ q, q ≠ p →
      update pc p (if last then .commit else .user) q = pc q := by
    intro q hq
    rw [update_of_ne hq]
  have hself : update pc p (if last then Pc.commit else .user) p =
      if last then .commit else .user := update_self ..
  have hin : ∀ q, (update pc p (if last then .commit else .user) q).inCommit →
      q = p := by
    intro q hq
    by_contra hne
    rw [hother q hne, h.not_inCommit_of_pos hpos q] at hq
    cases hq
  have hnr : ∀ q, (update pc p (if last then .commit else .user) q).recovering =
      false := by
    intro q
    by_cases hq : q = p
    · rw [hq, hself]; cases last <;> rfl
    · rw [hother q hq]; exact h.not_recovering hrec q
  refine ⟨?_, ?_, ?_, ?_, ?_, ?_, ?_⟩
  · rw [ops_leave p (by cases last <;> simp), Finset.card_erase_of_mem (mem_ops.mpr hp),
      h.outstanding]
  · intro q r hq hr
    rw [hin q hq, hin r hr]
  · constructor
    · intro hl
      have hl : last := hl
      exact ⟨p, by rw [hself, hl]; rfl⟩
    · rintro ⟨q, hq⟩
      have hqp := hin q hq
      rw [hqp, hself] at hq
      cases last with
      | true => rfl
      | false => cases hq
  · exact hlast.mp
  · intro q hq
    by_cases hqp : q = p
    · rw [hqp, hself] at hq
      cases last <;> exact absurd hq (by simp [Pc.syncing])
    · rw [hother q hqp, h.not_syncing_of_pos hpos q] at hq
      cases hq
  · intro q hq
    rw [hnr q] at hq
    cases hq
  · intro hi
    rw [hnr initProc] at hi
    cases hi

lemma endCommit (hp : pc p = .endCommit) : Ctl { l with committing := false } (update pc p .user) := by
  have hpin : (pc p).inCommit := by rw [hp]; rfl
  have hin : ∀ q, (update pc p .user q).inCommit = false := by
    intro q
    by_cases hq : q = p
    · rw [hq, update_self]; rfl
    · rw [update_of_ne hq]
      by_contra hin
      exact hq (h.commitOne q p (by simpa using hin) hpin)
  have hold : ∀ q, (update pc p .user q).syncing → (pc q).syncing := by
    intro q hq
    by_cases hqp : q = p
    · rw [hqp, update_self] at hq
      cases hq
    · rwa [update_of_ne hqp] at hq
  have hnr : (pc initProc).recovering = false := by
    by_contra hrec
    have hfirst := h.first_of_ne_user (p := p) (by rw [hp]; simp) (by simpa using hrec)
    rw [← hfirst, hp] at hrec
    exact absurd hrec (by simp [Pc.recovering])
  have hrec : ∀ q, (update pc p .user q).recovering = false := by
    intro q
    by_cases hq : q = p
    · rw [hq, update_self]; rfl
    · rw [update_of_ne hq]; exact h.not_recovering hnr q
  refine ⟨?_, ?_, ?_, ?_, ?_, ?_, ?_⟩
  · rw [ops_leave p (by simp), Finset.erase_eq_of_notMem, h.outstanding]
    rw [mem_ops, hp]
    simp
  · intro q r hq
    rw [hin q] at hq
    cases hq
  · simp [hin]
  · simp
  · intro q hq
    refine ⟨(h.syncIdle q (hold q hq)).1, fun r => ?_⟩
    by_cases hr : r = p
    · rw [hr, update_self]; rfl
    · rw [update_of_ne hr]; exact (h.syncIdle q (hold q hq)).2 r
  · intro q hq
    rw [hrec q] at hq
    cases hq
  · intro hi
    rw [hrec initProc] at hi
    cases hi

lemma congr_log (hout : l'.outstanding = l.outstanding) (hcom : l'.committing = l.committing) : Ctl l' pc :=
  ⟨by rw [hout]; exact h.outstanding, h.commitOne, by rw [hcom]; exact h.committing,
    by rw [hcom, hout]; exact h.commitIdle, by rw [hout]; exact h.syncIdle, h.recoverFirst,
    h.recoverAlone⟩

/-- A piece of `commit`, `sync` or recovery moves its process on. -/
lemma follow (hout : l'.outstanding = l.outstanding)
    (hcom : l'.committing = l.committing) (hp : pc p = old) (hf : old.Follows c) : Ctl l' (update pc p c) := by
  subst hp
  obtain ⟨⟨hold, huser, hnew⟩, hin, hwr, hsync, hrec⟩ := hf
  refine h.move hout hcom hold hnew hin hwr (fun hc => ?_) hrec (h.first_of_ne_user huser)
  exact ⟨(h.syncIdle p (hsync hc)).1, fun q _ => (h.syncIdle p (hsync hc)).2 q⟩

lemma install (hout : l'.outstanding = l.outstanding)
    (hcom : l'.committing = l.committing) (hp : pc p = old) (hold : old ≠ .inOp)
    (huser : old ≠ .user) (c : Caller) (hin : (Pc.install c 0).inCommit = old.inCommit)
    (hrec : (Pc.install c 0).recovering → old.recovering)
    (hidle : l.outstanding = 0 ∧ ∀ q ≠ p, (pc q).writing = false) : Ctl l' (update pc p (.install c 0)) := by
  subst hp
  exact h.move hout hcom hold (by simp) hin (by simp [Pc.writing]) (fun _ => hidle) hrec
    (h.first_of_ne_user huser)

lemma alone_in_commit (hp : (pc p).inCommit) : l.outstanding = 0 ∧ ∀ q ≠ p, (pc q).writing = false := by
  refine ⟨h.commitIdle (h.committing.mpr ⟨p, hp⟩), fun q hq => ?_⟩
  by_contra hw
  exact hq (h.commitOne q p (Pc.inCommit_of_writing (by simpa using hw)) hp)

lemma idle_of_recovering (hp : (pc p).recovering) : l.outstanding = 0 ∧ ∀ q ≠ p, (pc q).writing = false := by
  have hfirst := h.recoverFirst p hp
  have hother : ∀ q ≠ p, pc q = .user := by
    rw [hfirst] at hp ⊢
    exact h.recoverAlone hp
  refine ⟨?_, fun q hq => by rw [hother q hq]; rfl⟩
  rw [← h.outstanding, Finset.card_eq_zero]
  refine Finset.eq_empty_of_forall_notMem fun q hq => ?_
  rw [mem_ops] at hq
  by_cases hqp : q = p
  · rw [hqp] at hq
    rw [hq] at hp
    cases hp
  · rw [hother q hqp] at hq
    cases hq

lemma syncStart {c : Caller} (hp : pc p = .sync c)
    (hlen : l.lh.length = logSize - 1) (halone : SyncAlone l pc (.run p)) :
    l.outstanding = 0 ∧ ∀ q ≠ p, (pc q).writing = false := by
  cases c with
  | endOp => exact h.alone_in_commit (by rw [hp]; rfl)
  | sysSync => exact ⟨(halone hp hlen).1, fun q _ => (halone hp hlen).2 q⟩
  | recover => exact h.idle_of_recovering (by rw [hp]; rfl)

end

/-- Every step keeps the control invariant, provided that `sys_sync` is alone. -/
lemma step {A A' : Abs} {a : Act} (h : Ctl A.log A.pc) (halone : SyncAlone A.log A.pc a)
    (hs : A.Step a A') : Ctl A'.log A'.pc := by
  cases hs with
  | beginOp hrec hp hcom _ => exact h.beginOp hrec hp hcom halone
  | bread | brelse => exact h
  | logWrite => exact h.congr_log (Log.add_outstanding _ _) (Log.add_committing _ _)
  | endOpLast hrec hp hcom hlast =>
    have := h.endOp hrec hp true (by simp [hlast])
    rwa [hlast] at this
  | endOp hrec hp hcom hlast =>
    exact (h.endOp hrec hp false (by simp [hlast])).congr_log rfl hcom
  | sysSync hrec hp =>
    refine h.move rfl rfl (by rw [hp]; simp) (by simp) (by rw [hp]; rfl) (by simp [Pc.writing])
      (by simp [Pc.syncing]) (by simp [Pc.recovering]) ?_
    intro hr
    rw [hrec] at hr
    cases hr
  | commitSome hp | commitNone hp | commitHead hp | isFull hp | notFull hp =>
    exact h.follow rfl rfl hp (by decide)
  | logSlot hp | logDone hp => exact h.follow rfl rfl hp (by simp [Pc.Follows, Pc.inCommit, Pc.writing,
      Pc.syncing, Pc.recovering])
  | syncSkip hp => exact h.follow rfl rfl hp (Pc.follows_ret_of_sync _)
  | @syncStart _ c hp hlen =>
    refine h.install rfl rfl hp (by simp) (by simp) c ?_ ?_ (h.syncStart hp hlen halone)
    · cases c <;> rfl
    · cases c <;> simp [Pc.recovering]
  | installSlot hp => exact h.follow rfl rfl hp (Pc.follows_install _ _)
  | installDone hp => exact h.follow rfl rfl hp (Pc.follows_reset _ _)
  | reset hp => exact h.follow rfl rfl hp (Pc.follows_clearHead _)
  | clearHead hp => exact h.follow rfl rfl hp (Pc.follows_ret _)
  | endCommit hp => exact h.endCommit hp
  | readHead hp =>
    have hidle := h.idle_of_recovering (p := _) (by rw [hp]; rfl)
    refine h.install ?_ ?_ hp (by simp) (by simp) .recover rfl (fun _ => rfl) hidle
    · rfl
    · rfl

end Ctl

lemma ctl_boot (disk : Nat → Block) : Ctl (Abs.boot disk).log (Abs.boot disk).pc := by
  have hpc : ∀ p, (Abs.boot disk).pc p = if p = initProc then .readHead else .user := fun _ => rfl
  have hne : ∀ p, (Abs.boot disk).pc p ≠ .inOp ∧ ((Abs.boot disk).pc p).inCommit = false ∧
      ((Abs.boot disk).pc p).syncing = false := by
    intro p
    rw [hpc]
    split <;> decide
  refine ⟨?_, ?_, ?_, ?_, ?_, ?_, ?_⟩
  · rw [Finset.card_eq_zero.mpr (Finset.eq_empty_of_forall_notMem fun p hp => ?_)]
    · rfl
    · exact (hne p).1 (mem_ops.mp hp)
  · intro p q hp
    rw [(hne p).2.1] at hp
    cases hp
  · constructor
    · intro h
      cases h
    · rintro ⟨p, hp⟩
      rw [(hne p).2.1] at hp
      cases hp
  · intro h
    cases h
  · intro p hp
    rw [(hne p).2.2] at hp
    cases hp
  · intro p hp
    rw [hpc] at hp
    by_contra hne
    rw [if_neg hne] at hp
    cases hp
  · intro _ q hq
    rw [hpc, if_neg hq]

end Xv6.Disk
