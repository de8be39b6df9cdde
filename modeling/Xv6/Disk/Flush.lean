import Xv6.Disk.BlockStore
import Xv6.Disk.Recovery

/-!
# What the `sync` system call leaves on disk

`commit` writes the header and installs nothing; the modified blocks stay in the cache until `sync`
copies them home and erases the header. But `sync` gives up unless the log lists exactly
`LOGSIZE - 1` blocks, and `sys_sync` returns 0 whatever `sync` returned: with any other number of
pending blocks nothing is flushed. `sync_flushes` says so for every state in which no operation is
in progress, on machines switched on with any sound disk.

The proof needs what the on-disk header says between operations: `HeadOk`, kept by every step.
-/

namespace Xv6.Disk

open Function (update_self update_of_ne)
open Lib

/-! ### The header on disk and the header in memory -/

namespace Pc

/-- Before the `write_head` that erases the header (recovery included). -/
def erasing : Pc → Bool
  | .clearHead _ => true
  | .readHead => true
  | .install .recover _ => true
  | .reset .recover => true
  | _ => false

/-- Before the `write_head` of `commit`. -/
def committingHead : Pc → Bool
  | .commit => true
  | .writeLog _ => true
  | .commitHead => true
  | _ => false

end Pc

/-- When nobody is about to erase the header, an empty log has an empty header, and so has a log of
any length its own, between operations. -/
def HeadOk (A : Abs) : Prop :=
  (∀ q, (A.pc q).erasing = false) →
    (A.log.lh = [] ∨ A.log.outstanding = 0 ∧ ∀ q, (A.pc q).committingHead = false) →
    (A.want logStart).word 0 = A.log.lh.length

variable {a : Act}

namespace HeadOk

variable {A A' : Abs} {view : Nat → Block} {p : ProcId} {c : Pc}

lemma of_erasing (hp : (A.pc p).erasing) : HeadOk A := by
  intro he
  rw [he p] at hp
  cases hp

lemma of_written (hlen : A.log.lh.length < logSize) : HeadOk (A.writeHead.jump p c) := by
  intro _ _
  simp only [Abs.jump_want, Abs.writeHead, Abs.write_want, update_self, Abs.jump_log,
    Abs.write_log]
  exact word_putHeader _ (by unfold logSize at hlen; omega)

/-- A process moves on; header and list stay. -/
lemma move (h : HeadOk A) (hhead : A'.want logStart = A.want logStart)
    (hlh : A'.log.lh = A.log.lh) (hpc : A'.pc = Function.update A.pc p c) (herase : (A.pc p).erasing → c.erasing)
    (hcommit : A'.log.outstanding = 0 → c.committingHead = false →
      A.log.lh = [] ∨ A.log.outstanding = 0 ∧ (A.pc p).committingHead = false) : HeadOk A' := by
  intro he hidle
  have hother : ∀ q ≠ p, A'.pc q = A.pc q := by
    intro q hq
    rw [hpc, update_of_ne hq]
  have hself : A'.pc p = c := by rw [hpc, update_self]
  rw [hhead, hlh]
  refine h (fun q => ?_) ?_
  · by_cases hq : q = p
    · have hc := he p
      rw [hself] at hc
      rw [hq]
      by_contra hne
      rw [herase (by simpa using hne)] at hc
      cases hc
    · rw [← hother q hq]
      exact he q
  · rcases hidle with hnil | ⟨hout, hno⟩
    · exact .inl (hlh ▸ hnil)
    · rcases hcommit hout (hself ▸ hno p) with hnil | ⟨hout', hp⟩
      · exact .inl hnil
      · refine .inr ⟨hout', fun q => ?_⟩
        by_cases hq : q = p
        · rw [hq]; exact hp
        · rw [← hother q hq]; exact hno q

/-- **One step.** -/
lemma step (h : HeadOk A) (hinv : Inv A view) (hs : A.Step a A') : HeadOk A' := by
  cases hs with
  | bread | brelse => exact h
  | beginOp _ hp =>
    exact h.move rfl rfl rfl (by rw [hp]; simp [Pc.erasing]) nofun
  | @logWrite p b v _ _ _ hout _ =>
    -- the list is not empty and an operation is in progress
    intro _ hidle
    rcases hidle with hnil | ⟨hout', -⟩
    · simp only [Abs.setLog_log, Log.add_lh] at hnil
      by_cases hb : b ∈ A.log.lh
      · rw [if_pos hb] at hnil
        rw [hnil] at hb
        cases hb
      · rw [if_neg hb] at hnil
        exact absurd hnil (by simp)
    · simp only [Abs.setLog_log, Log.add_outstanding] at hout'
      omega
  | endOpLast _ hp | commitSome hp _ | logDone hp _ =>
    exact h.move rfl rfl rfl (by rw [hp]; simp [Pc.erasing])
      nofun
  | endOp _ hp _ hlast =>
    exact h.move rfl rfl rfl (by rw [hp]; simp [Pc.erasing]) (fun hout => absurd hout hlast)
  | sysSync _ hp | isFull hp _ | notFull hp _ | syncSkip hp _ | syncStart hp _ | endCommit hp =>
    exact h.move rfl rfl rfl (by rw [hp]; simp [Pc.erasing])
      (fun hout _ => .inr ⟨hout, by rw [hp]; rfl⟩)
  | commitNone hp hnil =>
    exact h.move rfl rfl rfl (by rw [hp]; simp [Pc.erasing]) (fun _ _ => .inl hnil)
  | @logSlot p t b hp hb _ =>
    refine h.move ?_ rfl rfl (by rw [hp]; simp [Pc.erasing])
      nofun
    simp only [Abs.jump_want, Abs.write_want]
    exact update_of_ne (slot_ne_logStart t).symm _ _
  | @commitHead p hp =>
    obtain ⟨hout, hothers⟩ := hinv.ctl.alone_in_commit (show (A.pc p).inCommit = true by rw [hp]; rfl)
    refine of_written (hinv.settled ⟨hout, fun q => ?_⟩).1
    by_cases hq : q = p
    · rw [hq, hp]; rfl
    · exact hothers q hq
  | @installSlot p c t b hp hb =>
    refine h.move ?_ rfl rfl (by rw [hp]; cases c <;> simp [Pc.erasing])
      (fun hout _ => .inr ⟨hout, by rw [hp]; rfl⟩)
    have hne : logStart ≠ b := by
      intro heq
      exact not_home_logStart (heq ▸ hinv.home b (List.mem_of_getElem? hb))
    simp only [Abs.jump_want, Abs.write_want]
    exact update_of_ne hne _ _
  | @installDone p c t hp _ =>
    exact h.move rfl rfl rfl (by rw [hp]; cases c <;> simp [Pc.erasing])
      (fun hout _ => .inr ⟨hout, by rw [hp]; rfl⟩)
  | @reset p c hp | @readHead p hp => exact of_erasing (p := p) (by simp [Pc.erasing])
  | @clearHead p c hp =>
    have hnil : A.log.lh = [] := by
      have := hinv.phase p
      rwa [hp] at this
    exact of_written (by simp [hnil, logSize])

end HeadOk

/-! ### From switching on, through recovery -/

/-- With an empty log and nobody inside `log.c` the invariant holds of whatever the blocks hold. -/
lemma Inv.of_idle {B : Abs} (huser : ∀ q, B.pc q = .user) (hpin : B.pin = ∅)
    (hlh : B.log.lh = []) (hout : B.log.outstanding = 0) (hcom : B.log.committing = false) : Inv B B.want := by
  refine ⟨⟨?_, ?_, ?_, ?_, ?_, ?_, ?_⟩, ?_, ?_, ?_, ?_, ?_, ?_, ?_, ?_⟩
  · rw [hout, Finset.card_eq_zero]
    exact Finset.eq_empty_of_forall_notMem fun q hq => by simp [mem_ops, huser] at hq
  · intro q r hq
    simp [huser, Pc.inCommit] at hq
  · simp [hcom, huser, Pc.inCommit]
  · simp [hcom]
  · intro q hq
    simp [huser, Pc.syncing] at hq
  · intro q hq
    simp [huser, Pc.recovering] at hq
  · intro hq
    simp [huser, Pc.recovering] at hq
  · exact fun _ _ => rfl
  · simp [hlh]
  · simp [hlh]
  · simp [hlh]
  · simp [hpin]
  · simp [hlh]
  · intro _
    exact ⟨by simp [hlh, logSize], by simp [Abs.SlotOk, hlh]⟩
  · intro q
    rw [huser q]
    trivial

variable {d : Nat → Block} {s : Sys} {A : Abs}

lemma Rec.inv_of_cleared (h : Rec d s A)
    (hlh : A.log.lh = []) (hout : A.log.outstanding = 0) (hcom : A.log.committing = false) :
    Inv (A.writeHead.jump initProc .user) (A.writeHead.jump initProc .user).want ∧
      HeadOk (A.writeHead.jump initProc .user) := by
  refine ⟨Inv.of_idle (fun q => ?_) (by simp [Abs.writeHead, h.pin]) hlh hout hcom,
    HeadOk.of_written (by simp [hlh, logSize])⟩
  by_cases hq : q = initProc
  · rw [hq, Abs.jump_pc, update_self]
  · rw [Abs.jump_pc, update_of_ne hq]
    exact h.alone q hq

/-- What holds of a running machine: it recovers, alone, or the invariants of the log hold. -/
def Tracked (d : Nat → Block) (s : Sys) : Prop :=
  (∃ A, Rec d s A ∧ s.recovering = true ∧ A.log.outstanding = 0 ∧ A.log.committing = false) ∨
    ∃ A view, Shows s A ∧ Inv A view ∧ HeadOk A

variable {t : Sys}

/-- During recovery the only step is one of the first process. -/
lemma Rec.act_eq (h : Rec d s A) (hrec : s.recovering) (ht : s.step a = some t) : a = .run initProc := by
  unfold Sys.step at ht
  simp only [h.shows_.running, Option.isSome_none, Bool.false_eq_true, if_false, hrec] at ht
  cases a with
  | run p =>
    by_contra hne
    have hp : p ≠ initProc := fun heq => hne (by rw [heq])
    simp [Sys.runStep, h.shows_.pc, h.alone p hp] at ht
  | _ => simp at ht

lemma Rec.tracked (hd : HeaderOk d) (h : Rec d s A)
    (hrec : s.recovering) (hout : A.log.outstanding = 0) (hcom : A.log.committing = false)
    (ht : s.step (.run initProc) = some t) (hrunning : t.stopped = none) : Tracked d t := by
  obtain ⟨t', B, ht', hB, -⟩ := h.step hd hrec
  obtain rfl : t' = t := Option.mem_unique ht' ht
  rcases h.shows_.step ht with ⟨A', hs, hshow⟩ | ⟨hstop, -⟩
  swap
  · exact absurd hrunning hstop
  have hphase := h.phase
  have hlog : B.log = A'.log := hB.shows_.log.symm.trans hshow.log
  -- as long as recovery goes on, it leaves the counters alone
  have hgoes : t'.recovering → A'.log.outstanding = 0 → A'.log.committing = false →
      Tracked d t' := by
    intro hr ho hc
    exact .inl ⟨B, hB, hr, by rw [hlog]; exact ho, by rw [hlog]; exact hc⟩
  have hpc : t'.recovering = (A'.pc initProc).recovering := by
    unfold Sys.recovering
    rw [hshow.pc]
  cases hs with
  | readHead hp =>
    exact hgoes (by rw [hpc, Abs.jump_pc, update_self]; rfl) hout hcom
  | @installSlot _ c t b hp _ | @installDone _ c t hp _ | @reset _ c hp =>
    rw [hp] at hphase
    cases c with
    | recover => exact hgoes (by rw [hpc, Abs.jump_pc, update_self]; rfl) hout hcom
    | endOp | sysSync => exact hphase.elim
  | @clearHead _ c hp =>
    rw [hp] at hphase
    cases c with
    | recover =>
      obtain ⟨hinv, hhead⟩ := h.inv_of_cleared hphase.1 hout hcom
      exact .inr ⟨_, _, hshow, hinv, hhead⟩
    | endOp | sysSync => exact hphase.elim
  | commitSome hp _ | commitNone hp _ | logSlot hp _ _ | logDone hp _ | commitHead hp
  | isFull hp _ | notFull hp _ | syncSkip hp _ | syncStart hp _ | endCommit hp =>
    rw [hp] at hphase; exact hphase.elim

variable {as : List Act}

/-- **Whole runs**, from any sound disk. -/
lemma tracked_run (hd : HeaderOk d)
    (hrun : Run Sys.step FsStep (Sys.boot d) as s) (hs : s.stopped = none) : Tracked d s := by
  refine hrun.inv (I := fun s => s.stopped = none → Tracked d s) ?_ ?_ hs
  · intro _
    exact .inl ⟨_, Rec.boot d, rfl, rfl, rfl⟩
  · intro s a t ih hstep ht hrunning
    rcases ih (Sys.running_of_step ht) with ⟨A, hA, hrec, hout, hcom⟩ | ⟨A, view, hshow, hA, hhead⟩
    · obtain rfl := hA.act_eq hrec ht
      exact hA.tracked hd hrec hout hcom ht hrunning
    · rcases hshow.step ht with ⟨A', hs', hshow'⟩ | ⟨hstop, -⟩
      · obtain ⟨hhome, halone⟩ := hstep
        rw [hshow.log, hshow.pc] at halone
        exact .inr ⟨A', _, hshow', hA.step hhome halone hs', hhead.step hA hs'⟩
      · exact absurd hrunning hstop

/-! ### The system call -/

/-- No process is in an operation, in a commit, in `sync` or in recovery. -/
def Sys.Quiet (s : Sys) : Prop := s.stopped = none ∧ ∀ q, s.pc q = .user

/-- `sys_sync`, called by process `p` in state `s`, returns `r` in state `t`. It calls `sync` and
returns 0, whatever that returned. -/
structure SysSyncReturns (p : ProcId) (s : Sys) (r : Int) (t : Sys) : Prop where
  run : ∃ n, Run Sys.step anyStep s (.sysSync p :: runActs p n) t
  running : t.stopped = none
  back : t.pc p = .user
  value : r = 0

/-- Everything is home: the on-disk header says `n = 0`, and every cached block is on disk as it is
in the cache. -/
def Flushed (k : Kernel) : Prop :=
  (k.disk logStart).word 0 = 0 ∧
    ∀ i, (k.buf i).dev = rootDev → k.disk (k.buf i).blockno = (k.buf i).data

lemma Tracked.quiet (h : Tracked d s) (hq : s.Quiet) :
    ∃ A view, Shows s A ∧ Inv A view ∧ HeadOk A ∧ (∀ q, A.pc q = .user) ∧
      A.log.outstanding = 0 := by
  rcases h with ⟨A, -, hrec, -⟩ | ⟨A, view, hshow, hA, hhead⟩
  · unfold Sys.recovering at hrec
    rw [hq.2] at hrec
    cases hrec
  · have hpc : ∀ q, A.pc q = .user := fun q => hshow.pc ▸ hq.2 q
    refine ⟨A, view, hshow, hA, hhead, hpc, ?_⟩
    rw [← hA.ctl.outstanding, Finset.card_eq_zero]
    exact Finset.eq_empty_of_forall_notMem fun q hm => by simp [mem_ops, hpc] at hm

/-- Between operations everything is home exactly if no block is pending. -/
lemma flushed_iff (h : Tracked d s) (hq : s.Quiet) : Flushed s.k ↔ s.k.log.lh = [] := by
  obtain ⟨A, view, hshow, hA, hhead, hpc, hout⟩ := h.quiet hq
  have hword := hhead (fun q => by rw [hpc q]; rfl) (.inr ⟨hout, fun q => by rw [hpc q]; rfl⟩)
  -- the header block is never pinned
  have hdisk : s.k.disk logStart = A.want logStart := hshow.cache.onDisk logStart fun hm =>
    not_home_logStart (hA.home _ (hA.listed _ hm))
  unfold Flushed
  rw [hdisk, hword, hshow.log, List.length_eq_zero_iff]
  constructor
  · exact fun h => h.1
  · intro hnil
    refine ⟨hnil, fun i hi => ?_⟩
    rw [hshow.cache.data i hi]
    refine hshow.cache.onDisk _ fun hm => ?_
    have := hA.listed _ hm
    rw [hnil] at this
    cases this

/-- Where a call of `sys_sync` has got to that found the log `l₀`: the program point and the log. -/
inductive SyncStage (l₀ : Log) : Pc → Log → Prop
  | called : SyncStage l₀ (.sync .sysSync) l₀
  | skipped : l₀.lh.length ≠ logSize - 1 → SyncStage l₀ .user l₀
  | installing {t : Nat} {l : Log} : l₀.lh.length = logSize - 1 →
      SyncStage l₀ (.install .sysSync t) l
  | installed {l : Log} : l₀.lh.length = logSize - 1 → SyncStage l₀ (.reset .sysSync) l
  | reset {l : Log} : l₀.lh.length = logSize - 1 → l.lh = [] → SyncStage l₀ (.clearHead .sysSync) l
  | erased {l : Log} : l₀.lh.length = logSize - 1 → l.lh = [] → SyncStage l₀ .user l

variable {l₀ : Log} {p : ProcId}

lemma SyncStage.step {A' : Abs} (h : SyncStage l₀ (A.pc p) A.log)
    (hs : A.Step (.run p) A') : SyncStage l₀ (A'.pc p) A'.log ∧ ∀ q ≠ p, A'.pc q = A.pc q := by
  have hjump : ∀ {B : Abs} {c : Pc}, B.pc = A.pc → SyncStage l₀ c B.log →
      SyncStage l₀ ((B.jump p c).pc p) (B.jump p c).log ∧ ∀ q ≠ p, (B.jump p c).pc q = A.pc q := by
    intro B c hpc hc
    refine ⟨?_, fun q hq => ?_⟩
    · rw [Abs.jump_pc, update_self]
      exact hc
    · rw [Abs.jump_pc, update_of_ne hq, hpc]
  cases hs with
  | syncSkip hp hlen =>
    refine hjump rfl ?_
    generalize A.log = l at *
    rw [hp] at h
    cases h
    exact .skipped hlen
  | syncStart hp hlen =>
    refine hjump rfl ?_
    generalize A.log = l at *
    rw [hp] at h
    cases h
    exact .installing hlen
  | installSlot hp _ =>
    refine hjump rfl ?_
    rw [hp] at h
    cases h with
    | installing hlen => exact .installing hlen
  | installDone hp _ =>
    refine hjump rfl ?_
    rw [hp] at h
    cases h with
    | installing hlen => exact .installed hlen
  | reset hp =>
    refine hjump rfl ?_
    rw [hp] at h
    cases h with
    | installed hlen => exact .reset hlen rfl
  | clearHead hp =>
    refine hjump rfl ?_
    rw [hp] at h
    cases h with
    | reset hlen hnil => exact .erased hlen hnil
  | commitSome hp _ | commitNone hp _ | logSlot hp _ _ | logDone hp _ | commitHead hp
  | isFull hp _ | notFull hp _ | endCommit hp | readHead hp => rw [hp] at h; cases h

lemma SyncStage.not_recovering {l : Log} {c : Pc} (h : SyncStage l₀ c l) : c.recovering = false := by
  cases h <;> rfl

/-- A call of `sys_sync` between operations is alone, so its steps extend the run. -/
lemma sysSync_run (hd : HeaderOk d) (hrun : Run Sys.step FsStep (Sys.boot d) as s) (hq : s.Quiet) (n : Nat) :
    ∀ {t : Sys}, Run Sys.step anyStep s (.sysSync p :: runActs p n) t → t.stopped = none →
      ∃ bs, Run Sys.step FsStep (Sys.boot d) bs t ∧ SyncStage s.k.log (t.pc p) t.k.log ∧
        ∀ q ≠ p, t.pc q = .user := by
  obtain ⟨A, -, hshow, -, -, -, hout⟩ := (tracked_run hd hrun hq.1).quiet hq
  induction n with
  | zero =>
    intro t hcall _
    obtain ⟨s', hnil, -, hstep⟩ := Run.last (show Run Sys.step anyStep s ([] ++ [.sysSync p]) t from hcall)
    rw [hnil.eq_of_nil] at hstep
    have hst := hstep
    unfold Sys.step at hst
    simp only [hq.1, Option.isSome_none, Bool.false_eq_true, if_false, Sys.move] at hst
    split at hst
    · cases hst
      refine ⟨_, .snoc hrun (show FsStep s (.sysSync p) from ⟨trivial, trivial⟩) hstep, ?_,
        fun q hqp => ?_⟩
      · simp only [update_self]
        exact .called
      · simp only [update_of_ne hqp]
        exact hq.2 q
    · cases hst
  | succ n ih =>
    intro u hcall hrunning
    have hsplit : Act.sysSync p :: runActs p (n + 1) = (.sysSync p :: runActs p n) ++ [.run p] := by
      rw [runActs, List.replicate_succ']
      rfl
    rw [hsplit] at hcall
    obtain ⟨t, hcall, -, hstep⟩ := hcall.last
    obtain ⟨bs, hbs, hstage, hothers⟩ := ih hcall (Sys.running_of_step hstep)
    have hfs : FsStep t (.run p) := by
      refine ⟨trivial, fun hp _ => ⟨?_, fun q => ?_⟩⟩
      · rw [hp] at hstage
        generalize t.k.log = l at hstage
        cases hstage
        rw [hshow.log]
        exact hout
      · by_cases hqp : q = p
        · rw [hqp, hp]; rfl
        · rw [hothers q hqp]; rfl
    refine ⟨_, .snoc hbs hfs hstep, ?_⟩
    have hrec : t.recovering = false := by
      unfold Sys.recovering
      by_cases hp : initProc = p
      · rw [hp]
        exact hstage.not_recovering
      · rw [hothers _ hp]
        rfl
    rcases tracked_run hd hbs (Sys.running_of_step hstep) with ⟨_, -, hr, -⟩ | ⟨B, _, hB, -⟩
    · rw [hrec] at hr
      cases hr
    rcases hB.step hstep with ⟨B', hs', hB'⟩ | ⟨hstop, -⟩
    · rw [hB.pc, hB.log] at hstage
      obtain ⟨hstage', hsame⟩ := hstage.step hs'
      rw [hB'.pc, hB'.log]
      refine ⟨hstage', fun q hqp => ?_⟩
      rw [hsame q hqp, ← hB.pc]
      exact hothers q hqp
    · exact absurd hrunning hstop

/-- **The `sync` system call flushes exactly a log of no or of `LOGSIZE - 1` blocks.** On a machine
switched on with any sound disk, whatever operations have run (with earlier calls of `sys_sync`
alone): `sys_sync` called while no operation is in progress returns 0, and then the on-disk header is
empty and every cached block is on disk exactly if `log.lh.n` was 0 or `LOGSIZE - 1`. -/
theorem sync_flushes {d : Nat → Block} {as : List Act} {s t : Sys} {p : ProcId} {r : Int}
    (hd : HeaderOk d) (hrun : Run Sys.step FsStep (Sys.boot d) as s) (hq : s.Quiet)
    (hret : SysSyncReturns p s r t) :
    r = 0 ∧ (Flushed t.k ↔ s.k.log.lh.length = 0 ∨ s.k.log.lh.length = logSize - 1) := by
  refine ⟨hret.value, ?_⟩
  obtain ⟨n, hcall⟩ := hret.run
  obtain ⟨bs, hbs, hstage, hothers⟩ := sysSync_run hd hrun hq n hcall hret.running
  have hqt : t.Quiet := by
    refine ⟨hret.running, fun q => ?_⟩
    by_cases hqp : q = p
    · rw [hqp]; exact hret.back
    · exact hothers q hqp
  rw [flushed_iff (tracked_run hd hbs hret.running) hqt]
  rw [hret.back] at hstage
  generalize t.k.log = l at hstage ⊢
  cases hstage with
  | skipped hlen => rw [List.length_eq_zero_iff, or_iff_left hlen]
  | erased hlen hnil => exact iff_of_true hnil (.inr hlen)

instance (s : Sys) : Decidable s.Quiet :=
  inferInstanceAs (Decidable (s.stopped = none ∧ ∀ q, s.pc q = .user))

lemma sysSyncReturns_of_check (n : Nat) (P : Sys → Prop) [DecidablePred P]
    (h : (exec Sys.step anyStep s (.sysSync p :: runActs p n)).any (fun t =>
      t.stopped = none ∧ t.pc p = .user ∧ P t)) : ∃ t, SysSyncReturns p s 0 t ∧ P t := by
  obtain ⟨t, hrun, hs, hpc, hP⟩ := run_of_check Sys.step anyStep s _
    (fun t => t.stopped = none ∧ t.pc p = .user ∧ P t) h
  exact ⟨t, ⟨⟨n, hrun⟩, hs, hpc, rfl⟩, hP⟩

/-- An operation of process 1 that logs `n` blocks from `lo` on, with the `r` steps of its commit. -/
def logOp (lo n r : Nat) : List Act :=
  [.beginOp 1] ++ logActs 1 ((List.range' lo n).map fun b => (b, stamp b)) ++ [.endOp 1] ++ runActs 1 r

/-- Three operations fill the log; the last commit brings the blocks home. -/
def fullLog : List Act := bootActs ++ logOp 100 10 15 ++ logOp 110 10 25 ++ logOp 120 9 67

theorem sync_flushes_fullLog :
    ∃ s t, Run Sys.step FsStep (Sys.boot zeroDisk) fullLog s ∧ s.Quiet ∧ (s.k.disk 128).word 0 = 128 ∧
      SysSyncReturns 2 s 0 t ∧ Flushed t.k := by
  obtain ⟨s, hrun, hq, hlh, hdisk, hcheck⟩ := run_of_check Sys.step FsStep (Sys.boot zeroDisk) fullLog
    (fun s => s.Quiet ∧ s.k.log.lh.length = 0 ∧ (s.k.disk 128).word 0 = 128 ∧
      (exec Sys.step anyStep s (.sysSync 2 :: runActs 2 1)).any (fun t =>
        t.stopped = none ∧ t.pc 2 = .user ∧ True) = true) (by decide +kernel)
  obtain ⟨t, hret, -⟩ := sysSyncReturns_of_check 1 (fun _ => True) hcheck
  exact ⟨s, t, hrun, hq, hdisk, hret, (sync_flushes headerOk_zeroDisk hrun hq hret).2.mpr (.inl hlh)⟩

/-- With one block pending, `sys_sync` returns 0 and flushes nothing: the on-disk header still lists
the block, whose home on disk is not what the cache holds. -/
theorem sync_leaves_pending :
    ∃ s t, Run Sys.step FsStep (Sys.boot zeroDisk) oneCommit s ∧ s.Quiet ∧
      s.k.log.lh = [100] ∧ SysSyncReturns 2 s 0 t ∧ (t.k.disk logStart).word 0 = 1 ∧
      (t.k.disk 100).word 0 = 0 ∧
      ∃ i, (t.k.buf i).dev = rootDev ∧ (t.k.buf i).blockno = 100 ∧
        ((t.k.buf i).data).word 0 = 7 := by
  obtain ⟨s, hrun, hq, hlh, hcheck⟩ := run_of_check Sys.step FsStep (Sys.boot zeroDisk) oneCommit
    (fun s => s.Quiet ∧ s.k.log.lh = [100] ∧
      (exec Sys.step anyStep s (.sysSync 2 :: runActs 2 1)).any (fun t =>
        t.stopped = none ∧ t.pc 2 = .user ∧ (t.k.disk logStart).word 0 = 1 ∧
        (t.k.disk 100).word 0 = 0 ∧
        ∃ i, (t.k.buf i).dev = rootDev ∧ (t.k.buf i).blockno = 100 ∧
          ((t.k.buf i).data).word 0 = 7) = true) (by decide +kernel)
  obtain ⟨t, hret, h⟩ := sysSyncReturns_of_check 1 (fun t => (t.k.disk logStart).word 0 = 1 ∧
    (t.k.disk 100).word 0 = 0 ∧ ∃ i, (t.k.buf i).dev = rootDev ∧ (t.k.buf i).blockno = 100 ∧
      ((t.k.buf i).data).word 0 = 7) hcheck
  exact ⟨s, t, hrun, hq, hlh, hret, h⟩

end Xv6.Disk
