import Xv6.Process.Parents
import Xv6.Process.Parts

/-!
# Free slots are not marked killed

`allocproc` does not reset `killed`, so a process is born killed if its slot was marked while it was
free. Three calls mark slots, by numbers that a free slot may still carry: `kill` by pid or by the
mere presence of an LWP number, `exit` by `lwppid`, and the `exit` of an LWP by its parent pointer.
`kill(0)` marks the first slot that was never used (`kill_zero_marks_free_slot`).

The numbers of a free slot are stale in known ways: a pid there is nobody else's, and a manager is
named there only after a `wait` that reaped an LWP. So free slots stay unmarked in runs that avoid
this and in which `kill` is called for a process that is there (`free_slots_clean`).
-/

namespace Xv6.Process

open Lib Table

/-- The action marks slot `q`, in use or not. -/
def Marks (s : Table) (q : ProcId) : Act → Prop
  | .exit p => (s.proc p).Used ∧ (s.proc p).parent = some q
  | .exitScan p => (s.proc p).Used ∧ (s.proc q).lwppid = (s.proc p).pid
  | .kill p pid =>
    if 0 < (s.proc p).lwpid then 0 < (s.proc q).lwpid
    else s.findSlot (fun pr => pr.pid = pid) = some q
  | _ => False

/-- What an action of `s` that leads to `t` makes of slot `q`, if the slot is free afterwards. -/
inductive Emptied (s t : Table) (q : ProcId) (a : Act) : Prop
  /-- it was free before; it may have been marked -/
  | stays (hs : ¬ (s.proc q).Used) (hpid : (t.proc q).pid = (s.proc q).pid)
      (hl : (t.proc q).lwppid = (s.proc q).lwppid)
      (hk : (t.proc q).killed = (s.proc q).killed ∨ Marks s q a)
  /-- an attempt to fill it failed -/
  | failed (hs : ¬ (s.proc q).Used) (hpid : (t.proc q).pid = s.nextpid)
      (hn : t.nextpid = s.nextpid + 1) (hl : (t.proc q).lwppid = 0 ∨ t.locked = true)
      (hk : (t.proc q).killed = (s.proc q).killed)
  | reaped (hr : Reaps s q a) (hpid : (t.proc q).pid = 0) (hk : (t.proc q).killed = false)
      (hl : (t.proc q).lwppid = 0 ∨
        ((∃ p, a = .wait p) ∧ (t.proc q).lwppid = (s.proc q).lwppid))

variable {pid : Nat}

section

variable {s t : Table} {a : Act} {p q : ProcId}

lemma Emptied.of_eq (h : t.proc q = s.proc q) (hq : ¬ (t.proc q).Used) : Emptied s t q a :=
  .stays (h ▸ hq) (by rw [h]) (by rw [h]) (.inl (by rw [h]))

lemma Emptied.of_modify {f : Proc → Proc} (hf : (f (s.proc p)).Used)
    (hq : ¬ ((s.modify p f).proc q).Used) : Emptied s (s.modify p f) q a := by
  by_cases hqp : q = p
  · subst hqp
    exact absurd hf (by rwa [modify_self] at hq)
  · exact .of_eq (modify_of_ne hqp) hq

/-! ### The calls that fill a slot -/

lemma allocproc_none_emptied {stack : Bool} (h : s.allocproc stack = (none, t))
    (hq : ¬ (t.proc q).Used) : Emptied s t q a := by
  unfold Table.allocproc at h
  split at h
  · cases h
    exact .of_eq rfl hq
  · rename_i r hfind
    have hr : (s.proc r).state = .unused := by simpa using findSlot_some hfind
    split at h
    · cases h
    · cases h
      by_cases hqr : q = r
      · subst hqr
        refine .failed (by simp [Proc.Used, hr]) ?_ rfl (.inl ?_) ?_ <;>
          simp [Table.modify, embryo]
      · exact .of_eq (by simp [Table.modify, embryo, hqr]) hq

lemma fork_emptied (mem : ForkMem) (hq : ¬ ((s.fork p mem).proc q).Used) : Emptied s (s.fork p mem) q a := by
  revert hq
  unfold Table.fork
  split
  · rename_i h
    exact allocproc_none_emptied h
  · rename_i r s' h
    obtain ⟨hr, rfl⟩ := allocproc_some h
    simp only
    split
    · intro hq
      by_cases hqr : q = r
      · subst hqr
        exact absurd hq (by simp [Table.modify, Proc.Used])
      · refine .of_eq ?_ hq
        by_cases hl : 0 < (s.proc p).lwpid <;> simp [hl, hqr, Table.modify, setPages, embryo]
    · exact fun hq => .of_eq rfl hq
    all_goals
      intro hq
      by_cases hqr : q = r
      · subst hqr
        by_cases hl : 0 < (s.proc p).lwpid <;>
          refine .failed hr ?_ ?_ (.inl ?_) ?_ <;>
            simp [hl, Table.modify, freevm, setPages, embryo]
      · refine .of_eq ?_ hq
        by_cases hl : 0 < (s.proc p).lwpid <;>
          simp [hl, hqr, Table.modify, freevm, setPages, embryo]

lemma threadCreate_emptied (stack : Bool) (avail : Nat)
    (hq : ¬ ((s.threadCreate p stack avail).proc q).Used) : Emptied s (s.threadCreate p stack avail) q a := by
  revert hq
  have hcases := threadCreate_cases s p stack avail
  generalize s.threadCreate p stack avail = t at hcases ⊢
  cases hcases with
  | noSlot h => exact allocproc_none_emptied h
  | @done r i d sz pg hr hi hd hpg =>
    intro hq
    by_cases hqr : q = r
    · subst hqr
      exact absurd hq (by simp [withLwp, lwp, Proc.Used])
    · exact .of_eq (by simp [withLwp, hqr]) hq
  | @failed r i d pg hr hi hd hpg =>
    intro hq
    by_cases hqr : q = r
    · subst hqr
      refine .failed (allocproc_some hr).1 ?_ ?_ (.inr rfl) ?_ <;> simp [withLwp, lwp]
    · exact .of_eq (by simp [withLwp, hqr]) hq
  | remap | noBase | noDir => exact fun hq => .of_eq rfl hq

lemma exec_emptied (hp : s.calls p) (how : ExecEnd) (hq : ¬ ((s.exec p how).proc q).Used) :
    Emptied s (s.exec p how) q a := by
  cases how with
  | early | bad => exact .of_eq rfl hq
  | done sz =>
    revert hq
    unfold Table.exec
    simp only
    split
    · intro hq
      by_cases hqp : q = p
      · subst hqp
        refine absurd ?_ hq
        simpa [Table.modify, freevm, setPages, Proc.Used] using used_of_calls hp
      · exact .of_eq (by simp [Table.modify, freevm, setPages, hqp]) hq
    · exact fun hq => .of_eq rfl hq

/-! ### The calls that mark or empty a slot -/

lemma wakeup1_fields (s : Table) (p q : ProcId) : ((s.wakeup1 p).proc q).pid = (s.proc q).pid ∧
      ((s.wakeup1 p).proc q).lwppid = (s.proc q).lwppid ∧
      ((s.wakeup1 p).proc q).killed = (s.proc q).killed := by
  simp only [Table.wakeup1]
  split <;> exact ⟨rfl, rfl, rfl⟩

lemma wakeParent_fields (s : Table) (p q : ProcId) : ((s.wakeParent p).proc q).pid = (s.proc q).pid ∧
      ((s.wakeParent p).proc q).lwppid = (s.proc q).lwppid ∧
      ((s.wakeParent p).proc q).killed = (s.proc q).killed := by
  unfold Table.wakeParent
  split
  · exact wakeup1_fields s _ q
  · exact ⟨rfl, rfl, rfl⟩

lemma reparent_fields (s : Table) (p q : ProcId) : ((s.reparent p).proc q).pid = (s.proc q).pid ∧
      ((s.reparent p).proc q).lwppid = (s.proc q).lwppid ∧
      ((s.reparent p).proc q).killed = (s.proc q).killed := by
  have hadopt : ((s.adopt p).proc q).pid = (s.proc q).pid ∧
      ((s.adopt p).proc q).lwppid = (s.proc q).lwppid ∧
      ((s.adopt p).proc q).killed = (s.proc q).killed := by
    simp only [Table.adopt]
    split <;> exact ⟨rfl, rfl, rfl⟩
  unfold Table.reparent
  split
  · obtain ⟨h1, h2, h3⟩ := wakeup1_fields (s.adopt p) initproc q
    exact ⟨h1.trans hadopt.1, h2.trans hadopt.2.1, h3.trans hadopt.2.2⟩
  · exact hadopt

lemma exit_other (hqp : q ≠ p) :
    (s.exit p).proc q = s.proc q ∨ ((s.proc p).parent = some q ∧
      (s.exit p).proc q = { s.proc q with killed := true }) := by
  unfold Table.exit
  split
  · exact .inl rfl
  split
  · exact .inl (modify_of_ne hqp)
  · simp only [modify_of_ne hqp]
    split
    · rename_i m hm
      split
      · exact .inl rfl
      · by_cases hqm : q = m
        · subst hqm
          exact .inr ⟨hm, modify_self⟩
        · exact .inl (modify_of_ne hqm)
    · exact .inl rfl

lemma exit_emptied (hp : (s.proc p).Used) (hqp : q ≠ p) (hq : ¬ ((s.exit p).proc q).Used) :
    Emptied s (s.exit p) q (.exit p) := by
  rcases exit_other (s := s) hqp with he | ⟨hm, he⟩
  · exact .of_eq he hq
  · rw [he] at hq
    refine .stays hq ?_ ?_ (.inr ⟨hp, hm⟩) <;> rw [he]

/-- What the loop of `exit` makes of a slot, for the process `pid`. -/
def Visited (pid : Nat) (a b : Proc) : Prop :=
  ((a.lwppid = pid ∧ a.state = .zombie) ∧ ¬ b.Used ∧ b.pid = 0 ∧ b.lwppid = 0 ∧ b.killed = false) ∨
    (Stirred a b ∧ (b.killed = a.killed ∨ a.lwppid = pid))

lemma Visited.refl (pid : Nat) (a : Proc) : Visited pid a a := .inr ⟨.refl a, .inl rfl⟩

lemma Visited.trans {a b c : Proc} (h0 : pid ≠ 0) (h : Visited pid a b)
    (h' : Visited pid b c) : Visited pid a c := by
  rcases h with ⟨hz, hu, hpid, hl, hk⟩ | ⟨hst, hk⟩
  · -- a slot that was emptied names nobody any more
    rcases h' with ⟨⟨hl', -⟩, -⟩ | ⟨hst', hk'⟩
    · exact absurd (hl'.symm.trans hl) h0
    · refine .inl ⟨hz, fun hc => hu (hst'.used.mp hc), ?_, hst'.lwppid.trans hl, ?_⟩
      · obtain ⟨k, st, rfl, -⟩ := hst'
        exact hpid
      · rcases hk' with hk' | hl'
        · exact hk'.trans hk
        · exact absurd (hl'.symm.trans hl) h0
  · rcases h' with ⟨⟨hl', hz'⟩, hrest⟩ | ⟨hst', hk'⟩
    · exact .inl ⟨⟨hst.lwppid ▸ hl', hst.zombie.mp hz'⟩, hrest⟩
    · refine .inr ⟨hst.trans hst', ?_⟩
      rcases hk' with hk' | hl'
      · exact hk.imp_left hk'.trans
      · exact .inr (hst.lwppid ▸ hl')

lemma exitVisit_visited (pid : Nat) (s : Table) (r q : ProcId) :
    Visited pid (s.proc q) ((exitVisit pid s r).proc q) := by
  unfold Table.exitVisit
  split
  · rename_i hown
    split
    · rename_i hz
      obtain ⟨pg, he, -⟩ := deallocStack_eq s r
      rw [he]
      by_cases hqr : q = r
      · subst hqr
        refine .inl ⟨⟨hown, hz⟩, ?_⟩
        simp [Table.modify, Proc.reaped, Proc.Used]
      · simp only [Table.modify, Function.update_of_ne hqr]
        exact .refl _ _
    · refine .inr ⟨?_, ?_⟩
      · refine .trans ?_ (wakeup1_stirred _ r q)
        by_cases hqr : q = r
        · subst hqr
          rw [modify_self]
          exact ⟨_, _, rfl, .inl rfl⟩
        · rw [modify_of_ne hqr]
          exact .refl _
      · rw [(wakeup1_fields _ r q).2.2]
        by_cases hqr : q = r
        · exact .inr (hqr ▸ hown)
        · rw [modify_of_ne hqr]
          exact .inl rfl
  · exact .refl _ _

lemma foldl_visited (h0 : pid ≠ 0) (l : List ProcId) (s : Table) (q : ProcId) :
    Visited pid (s.proc q) ((l.foldl (exitVisit pid) s).proc q) := by
  induction l generalizing s with
  | nil => exact .refl _ _
  | cons r l ih => exact .trans h0 (exitVisit_visited pid s r q) (ih _)

lemma exitScan_emptied (hp : (s.proc p).Used) (h0 : (s.proc p).pid ≠ 0) (hqp : q ≠ p)
    (hq : ¬ ((s.exitScan p).proc q).Used) : Emptied s (s.exitScan p) q (.exitScan p) := by
  have hv := foldl_visited h0 (List.finRange nProc) s q
  have he : (s.exitScan p).proc q =
      ((List.finRange nProc).foldl (exitVisit (s.proc p).pid) s).proc q := by
    unfold Table.exitScan
    simp only
    split
    · rw [modify_of_ne hqp]
    · rw [Table.sleep, modify_of_ne hqp]
  rw [← he] at hv
  rcases hv with ⟨hz, -, hpid, hl, hk⟩ | ⟨hst, hk⟩
  · exact .reaped ⟨hp, hz⟩ hpid hk (.inl hl)
  · have hs : ¬ (s.proc q).Used := fun h => hq (hst.used.mpr h)
    refine .stays hs ?_ hst.lwppid (hk.imp_right fun hl => ⟨hp, hl⟩)
    obtain ⟨k, st, h, -⟩ := hst
    rw [h]

lemma exitEnd_emptied (hqp : q ≠ p) (hs : ¬ (s.proc q).Used) : Emptied s (s.exitEnd p) q a := by
  have he : (s.exitEnd p).proc q = ((s.wakeParent p).reparent p).proc q := modify_of_ne hqp
  obtain ⟨h1, h2, h3⟩ := wakeParent_fields s p q
  obtain ⟨h1', h2', h3'⟩ := reparent_fields (s.wakeParent p) p q
  refine .stays hs ?_ ?_ (.inl ?_) <;> rw [he]
  · exact h1'.trans h1
  · exact h2'.trans h2
  · exact h3'.trans h3

lemma wait_emptied (hqp : q ≠ p) (hq : ¬ ((s.wait p).proc q).Used) : Emptied s (s.wait p) q (.wait p) := by
  revert hq
  unfold Table.wait
  split
  · rename_i r hfind
    split
    · intro hq
      by_cases hqr : q = r
      · subst hqr
        refine .reaped hfind ?_ ?_ (.inr ⟨⟨p, rfl⟩, ?_⟩) <;>
          simp [Table.ret, Table.modify, freevm, setPages, hqp]
      · refine .of_eq ?_ hq
        simp [Table.ret, Table.modify, freevm, setPages, hqp, hqr]
    · exact fun hq => .of_eq rfl hq
  · split
    · exact fun hq => .of_eq (modify_of_ne hqp) hq
    · exact fun hq => .of_eq (modify_of_ne hqp) hq

lemma kill_emptied (pid : Nat) (hq : ¬ ((s.kill p pid).proc q).Used) :
    Emptied s (s.kill p pid) q (.kill p pid) := by
  have hs : ¬ (s.proc q).Used := fun h => hq (((kill_quiet pid).kept q).keeps.1.mpr h)
  by_cases hl : 0 < (s.proc p).lwpid
  · by_cases hlq : 0 < (s.proc q).lwpid
    · refine .stays hs ?_ ?_ (.inr (by simp [Marks, hl, hlq])) <;> simp [Table.kill, Proc.hit, hl, hlq]
    · exact .of_eq (by simp [Table.kill, hl, hlq]) hq
  · revert hq
    unfold Table.kill
    simp only [hl, if_false]
    split
    · rename_i r hfind
      intro hq
      by_cases hqr : q = r
      · subst hqr
        refine .stays hs ?_ ?_ (.inr (by simp [Marks, hl, hfind])) <;> rw [modify_self, Proc.hit]
      · exact .of_eq (modify_of_ne hqr) hq
    · exact fun hq => .of_eq rfl hq

lemma threadExit_emptied (hqp : q ≠ p) (retval : Nat) (hs : ¬ (s.proc q).Used) :
    Emptied s (s.threadExit p retval) q a := by
  unfold Table.threadExit
  split
  · exact .of_eq rfl hs
  · obtain ⟨h1, h2, h3⟩ := wakeParent_fields s p q
    refine .stays hs ?_ ?_ (.inl ?_) <;> simp only [modify_of_ne hqp]
    · exact h1
    · exact h2
    · exact h3

lemma threadJoin_emptied {thread : Nat} (hp : (s.proc p).Used) (hqp : q ≠ p)
    (hq : ¬ ((s.threadJoin p thread).proc q).Used) :
    Emptied s (s.threadJoin p thread) q (.threadJoin p thread) := by
  revert hq
  unfold Table.threadJoin
  split
  · exact fun hq => .of_eq rfl hq
  rename_i hl
  unfold Table.joinScan
  split
  · rename_i r hfind
    intro hq
    obtain ⟨pg, hd, -⟩ := deallocStack_eq s r
    rw [hd] at hq ⊢
    by_cases hqr : q = r
    · subst hqr
      refine .reaped ⟨hp, by simpa using hl, hfind⟩ ?_ ?_ (.inl ?_) <;>
        simp [Table.ret, Table.modify, Proc.reaped, hqp]
    · refine .of_eq ?_ hq
      simp [Table.ret, Table.modify, hqp, hqr]
  · split
    · exact fun hq => .of_eq (modify_of_ne hqp) hq
    · exact fun hq => .of_eq (modify_of_ne hqp) hq

lemma growproc_emptied (n : Int) (avail : Nat) (hq : ¬ ((s.growproc p n avail).proc q).Used) :
    Emptied s (s.growproc p n avail) q a := by
  rcases growproc_proc s p n avail with h | ⟨o, j, sz, h⟩
  · exact .of_eq (by rw [h]) hq
  · rw [h] at hq
    refine .stays hq ?_ ?_ (.inl ?_) <;> rw [h] <;> rfl

lemma sched_emptied {st : ProcState} (h : s.sched p st = some t) (hq : ¬ (t.proc q).Used) : Emptied s t q a := by
  unfold Table.sched at h
  split at h
  · obtain ⟨-, rfl⟩ := of_guard h
    exact .of_modify (by simp [Proc.Used]) hq
  · obtain ⟨-, rfl⟩ := of_guard h
    exact .of_modify (by simp [Proc.Used]) hq
  · obtain ⟨-, rfl⟩ := of_guard h
    exact .of_modify (by simp [Proc.Used]) hq
  · cases h

end

variable {s t : Table} {a : Act} {q : ProcId}

lemma step_emptied (hi : Ids s) (h : s.step a = some t) (hq : ¬ (t.proc q).Used) : Emptied s t q a := by
  -- who acts is running, so its slot is in use afterwards
  have other : ∀ {p}, (s.proc p).state = .running → q ≠ p := fun hp he => by
    subst he
    rcases used_of_step h (show (s.proc q).Used by simp [Proc.Used, hp]) with hu | hr
    · exact hq hu
    · exact absurd (hp.symm.trans hr.zombie) (by simp)
  have hstep := h
  unfold Table.step at h
  split at h
  · cases h
  cases a with
  | sched p st => exact sched_emptied h hq
  | fork p mem =>
    obtain ⟨hp, rfl⟩ := of_guard h
    exact fork_emptied mem hq
  | exec p how =>
    obtain ⟨hp, rfl⟩ := of_guard h
    exact exec_emptied hp.1 how hq
  | exit p =>
    obtain ⟨hp, rfl⟩ := of_guard h
    exact exit_emptied (used_of_stands hp) (other hp.1) hq
  | exitScan p =>
    obtain ⟨hp, rfl⟩ := of_guard h
    have h0 := Nat.pos_iff_ne_zero.mp (hi.pid_pos (used_of_stands hp))
    exact exitScan_emptied (used_of_stands hp) h0 (other hp.1) hq
  | exitEnd p =>
    obtain ⟨hp, rfl⟩ := of_guard h
    refine exitEnd_emptied (other hp.1) fun hs => ?_
    exact hq (((exitEnd_quiet hp).kept q).keeps.1.mpr hs)
  | wait p =>
    obtain ⟨hp, rfl⟩ := of_guard h
    exact wait_emptied (other (hp.elim (fun h => h.1.1) fun h => h.1)) hq
  | kill p pid =>
    obtain ⟨hp, rfl⟩ := of_guard h
    exact kill_emptied pid hq
  | threadCreate p stack avail =>
    obtain ⟨hp, rfl⟩ := of_guard h
    exact threadCreate_emptied stack avail hq
  | threadExit p retval =>
    obtain ⟨hp, rfl⟩ := of_guard h
    refine threadExit_emptied (other hp.1.1) retval fun hs => ?_
    exact (used_of_step hstep hs).elim hq id
  | threadJoin p thread =>
    obtain ⟨hp, rfl⟩ := of_guard h
    exact threadJoin_emptied (hp.elim used_of_calls used_of_stands)
      (other (hp.elim (fun h => h.1.1) fun h => h.1)) hq
  | sbrk p n avail =>
    obtain ⟨hp, rfl⟩ := of_guard h
    exact growproc_emptied n avail hq

/-! ### The invariant -/

/-- A manager calls `kill` for a process that is there, or for a pid that no slot carries; an LWP
calls it while no free slot carries an LWP number; `wait` reaps no slot that names a manager; and the
caller of `thread_exit` is nobody's parent. -/
def MarksLive (s : Table) : Act → Prop
  | .kill p pid =>
    if 0 < (s.proc p).lwpid then ∀ q, ¬ (s.proc q).Used → (s.proc q).lwpid = 0
    else (∃ r, (s.proc r).Used ∧ (s.proc r).pid = pid) ∨ ∀ r, (s.proc r).pid ≠ pid
  | .wait p => ∀ q ∈ s.waitFinds p, (s.proc q).lwppid = 0
  | a => LeavesNoChild s a

instance (s : Table) : DecidablePred (MarksLive s) := by
  intro a
  apply Act.casesOn (motive := fun a => Decidable (MarksLive s a)) a <;> intros <;> dsimp only [MarksLive] <;>
    infer_instance

lemma MarksLive.leavesNoChild (h : MarksLive s a) : LeavesNoChild s a := by
  cases a with
  | wait | kill => trivial
  | _ => exact h

/-- A free slot carries a pid that no process has, and that none will be given. -/
structure StalePids (s : Table) : Prop where
  ids : Ids s
  stale : ∀ {q r}, ¬ (s.proc q).Used → (s.proc r).Used → (s.proc q).pid ≠ (s.proc r).pid
  stale_lt : ∀ {q}, ¬ (s.proc q).Used → (s.proc q).pid < s.nextpid

namespace StalePids

variable {s t : Table} {a : Act} {q r : ProcId}

lemma stale_step (hi : StalePids s) (h : s.step a = some t) (hq : ¬ (t.proc q).Used)
    (hr : (t.proc r).Used) : (t.proc q).pid ≠ (t.proc r).pid := by
  by_cases hrs : (s.proc r).Used
  · have hpid := ((step_moved h hr).sameIds hrs).pid
    rw [hpid]
    cases step_emptied hi.ids h hq with
    | stays hs hp => exact hp ▸ hi.stale hs hrs
    | failed _ hp => exact hp ▸ (hi.ids.pid_lt hrs).ne'
    | reaped _ hp => exact hp ▸ (hi.ids.pid_pos hrs).ne'.symm
  · -- the new process has the next pid, and the free slot is as it was
    have hqr : q ≠ r := fun he => hq (he ▸ hr)
    have new : ∀ {np : Proc}, t.proc = Function.update s.proc r np → np.pid = s.nextpid →
        (t.proc q).pid ≠ (t.proc r).pid := by
      intro np ht hp
      rw [ht, Function.update_of_ne hqr] at hq ⊢
      rw [Function.update_self, hp]
      exact (hi.stale_lt hq).ne
    cases filled_of_step h hrs hr with
    | fork _ ht | create _ ht => exact new ht rfl

lemma step (hi : StalePids s) (h : s.step a = some t) : StalePids t where
  ids := hi.ids.step h
  stale hq hr := hi.stale_step h hq hr
  stale_lt {q} hq := by
    have hle := (next_le_of_step h).1
    cases step_emptied hi.ids h hq with
    | stays hs hp => exact hp ▸ (hi.stale_lt hs).trans_le hle
    | failed _ hp hn => omega
    | reaped _ hp =>
      have := hi.ids.nextpid_pos
      omega

lemma boot : StalePids Table.boot := by
  have hp : ∀ q, ¬ (Table.boot.proc q).Used → (Table.boot.proc q).pid = 0 := by decide
  refine ⟨Ids.boot, fun {q r} hq hr => ?_, fun {q} hq => ?_⟩
  · rw [hp q hq]
    exact (Ids.boot.pid_pos hr).ne'.symm
  · rw [hp q hq]
    exact Ids.boot.nextpid_pos

end StalePids

/-- The invariant: a free slot is not marked, names no manager, and carries a pid that no process
has. -/
structure Clean (s : Table) : Prop where
  ids : Ids s
  parents : ParentLives s
  clean : ∀ {q}, ¬ (s.proc q).Used → (s.proc q).killed = false
  unowned : ∀ {q}, ¬ (s.proc q).Used → s.locked = false → (s.proc q).lwppid = 0
  stale : ∀ {q r}, ¬ (s.proc q).Used → (s.proc r).Used → (s.proc q).pid ≠ (s.proc r).pid
  stale_lt : ∀ {q}, ¬ (s.proc q).Used → (s.proc q).pid < s.nextpid

namespace Clean

variable {s t : Table} {a : Act} {q r : ProcId}

lemma not_marked (hi : Clean s) (hc : MarksLive s a) (h : s.step a = some t)
    (hq : ¬ (s.proc q).Used) : ¬ Marks s q a := by
  intro hm
  cases a with
  | exit p => exact hq (hi.parents.parent hm.1 hm.2).1
  | exitScan p =>
    have h0 := hi.unowned hq (unlocked_of_step h rfl)
    have := hi.ids.pid_pos hm.1
    rw [← hm.2, h0] at this
    exact absurd this (Nat.lt_irrefl 0)
  | kill p pid =>
    simp only [Marks] at hm
    simp only [MarksLive] at hc
    split at hm
    · rename_i hl
      rw [if_pos hl] at hc
      have := hc q hq
      omega
    · rename_i hl
      rw [if_neg hl] at hc
      have hpid : (s.proc q).pid = pid := by simpa using findSlot_some hm
      rcases hc with ⟨r, hr, hrp⟩ | hnone
      · exact hi.stale hq hr (hpid.trans hrp.symm)
      · exact hnone q hpid
  | _ => exact hm

lemma clean_step (hi : Clean s) (hc : MarksLive s a) (h : s.step a = some t)
    (hq : ¬ (t.proc q).Used) : (t.proc q).killed = false := by
  cases step_emptied hi.ids h hq with
  | stays hs _ _ hk => rw [hk.resolve_right (hi.not_marked hc h hs), hi.clean hs]
  | failed hs _ _ _ hk => rw [hk, hi.clean hs]
  | reaped _ _ hk => exact hk

lemma unowned_step (hi : Clean s) (hc : MarksLive s a) (h : s.step a = some t)
    (hq : ¬ (t.proc q).Used) (ht : t.locked = false) : (t.proc q).lwppid = 0 := by
  cases step_emptied hi.ids h hq with
  | stays hs _ hl _ => rw [hl, hi.unowned hs (unlocked_before h ht)]
  | failed _ _ _ hl _ => exact hl.resolve_right (by simp [ht])
  | reaped hr _ _ hl =>
    rcases hl with hl | ⟨⟨p, rfl⟩, hl⟩
    · exact hl
    · rw [hl]
      exact hc q hr

lemma stalePids (hi : Clean s) : StalePids s := ⟨hi.ids, hi.stale, hi.stale_lt⟩

lemma step (hi : Clean s) (hc : MarksLive s a) (h : s.step a = some t) : Clean t where
  ids := hi.ids.step h
  parents := hi.parents.step hc.leavesNoChild h
  clean hq := hi.clean_step hc h hq
  unowned hq ht := hi.unowned_step hc h hq ht
  stale := (hi.stalePids.step h).stale
  stale_lt := (hi.stalePids.step h).stale_lt

lemma boot : Clean Table.boot := by
  have hk : ∀ q, (Table.boot.proc q).killed = false ∧ (Table.boot.proc q).lwppid = 0 := by decide
  exact ⟨Ids.boot, ParentLives.boot, fun {q} _ => (hk q).1, fun {q} _ _ => (hk q).2,
    StalePids.boot.stale, StalePids.boot.stale_lt⟩

end Clean

lemma Clean.unused (hi : Clean s) (hq : (s.proc q).state = .unused) :
    (s.proc q).killed = false := hi.clean (by simp [Proc.Used, hq])

lemma Clean.filled (hi : Clean s) (ht : s.step a = some t)
    (hs : (s.proc q).state = .unused) (hq : (t.proc q).state ≠ .unused) : (t.proc q).killed = false := by
  cases filled_of_step ht (by simp [Proc.Used, hs]) hq with
  | fork _ he | create _ he =>
    rw [he, Function.update_self]
    exact hi.unused hs

/-- A slot that an action brings into use is not marked then if it was not before. -/
lemma Kernel.call_fills {k k' : Kernel} (h : k.step (.call a) = some k')
    (hs : (k.table.proc q).state = .unused) (hq : (k'.table.proc q).state ≠ .unused) :
    (k'.table.proc q).killed = (k.table.proc q).killed := by
  have entered : ∀ p pl, ((k.enter p pl).table.proc q).state ≠ .unused →
      ((k.enter p pl).table.proc q).killed = (k.table.proc q).killed := by
    intro p pl hq
    unfold Kernel.enter at hq ⊢
    split at hq
    · exact absurd hs hq
    · rename_i r _
      by_cases hr : q = r
      · simp [Table.embryo, Table.modify, hr]
      · simp [Table.embryo, Table.modify, hr]
  unfold Kernel.step at h
  obtain ⟨-, h⟩ := Option.ite_none_left_eq_some.mp h
  cases a with
  | fork p mem =>
    obtain ⟨-, -, rfl⟩ := of_step h
    exact entered _ _ hq
  | threadCreate p stack avail =>
    obtain ⟨-, -, rfl⟩ := of_step h
    exact entered _ _ hq
  | _ =>
    obtain ⟨t, ht, rfl⟩ := Option.map_eq_some_iff.mp h
    cases filled_of_step ht (by simp [Proc.Used, hs]) hq

/-- A process is killed by its parent, exits and is reaped. -/
def killedChild : List Act :=
  [.sched 0 .running, .fork 0 .enough, .kill 0 2, .sched 1 .running, .exit 1, .exitScan 1,
   .exitEnd 1, .wait 0]

end Xv6.Process
