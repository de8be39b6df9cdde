import Xv6.Process.Ids

/-!
# What one action makes of one slot

`Effect` says what an action does to the table and leaves open who is whose parent, who has been
killed and what an LWP returned. The statements about these fields are proved from a second inversion,
slot by slot: `step_moved` gives the record that a slot in use holds after an action, and
`used_of_step` says which slots the action takes out of use.
-/

namespace Xv6.Process

open Function (update_self update_of_ne)
open Table

/-- The process is in `exit`, or has left through `exit` or `thread_exit`. -/
def Cont.exits : Cont → Bool
  | .exitLoop | .exitTail | .exited | .threadExited => true
  | _ => false

/-- The process ran, slept, was woken or was marked killed, nothing else. -/
def Ran (a b : Proc) : Prop :=
  ∃ st ch k c, b = { a with state := st, chan := ch, killed := k, cont := c } ∧
    (st = .unused ↔ a.state = .unused) ∧ (st = .zombie ↔ a.state = .zombie) ∧
    (c.exits = true → a.cont.exits = true)

namespace Ran

variable {a b c : Proc}

lemma refl (a : Proc) : Ran a a := ⟨_, _, _, _, rfl, .rfl, .rfl, id⟩

lemma trans (h : Ran a b) (h' : Ran b c) : Ran a c := by
  obtain ⟨st, ch, k, co, rfl, hu, hz, hc⟩ := h
  obtain ⟨st', ch', k', co', rfl, hu', hz', hc'⟩ := h'
  exact ⟨st', ch', k', co', rfl, hu'.trans hu, hz'.trans hz, fun h => hc (hc' h)⟩

lemma used (h : Ran a b) : b.Used ↔ a.Used := by
  obtain ⟨st, ch, k, c, rfl, hu, -⟩ := h
  exact not_congr hu

lemma zombie (h : Ran a b) : b.state = .zombie ↔ a.state = .zombie := by
  obtain ⟨st, ch, k, c, rfl, -, hz, -⟩ := h
  exact hz

lemma exits (h : Ran a b) (hb : b.cont.exits) : a.cont.exits := by
  obtain ⟨st, ch, k, c, rfl, -, -, hc⟩ := h
  exact hc hb

lemma same (h : Ran a b) : b.pid = a.pid ∧ b.lwpid = a.lwpid ∧ b.lwppid = a.lwppid ∧
    b.forked = a.forked ∧ b.parent = a.parent ∧ b.pgdir = a.pgdir ∧ b.retval = a.retval := by
  obtain ⟨st, ch, k, c, rfl, -⟩ := h
  exact ⟨rfl, rfl, rfl, rfl, rfl, rfl, rfl⟩

lemma of_stirred (h : Stirred a b) : Ran a b := by
  have hu := h.used
  have hz := h.zombie
  obtain ⟨k, st, rfl, -⟩ := h
  exact ⟨st, _, k, _, rfl, not_iff_not.mp hu, hz, id⟩

end Ran

/-- What an action of `s` makes of slot `r`, if the slot is in use afterwards. -/
inductive Moved (s : Table) : Act → ProcId → Proc → Prop
  | run {a : Act} {r : ProcId} {b : Proc} (h : Ran (s.proc r) b) : Moved s a r b
  /-- `exit`, up to its loop: `init` does not get there -/
  | exit {p : ProcId} {k : Bool} {c : Cont} (hp : s.stands p .user) (hi : p ≠ initproc) :
      Moved s (.exit p) p { s.proc p with killed := k, cont := c }
  /-- the last critical section of `exit`, for its caller -/
  | exitEnd {p : ProcId} {k : Bool} (hp : s.stands p .exitTail) :
      Moved s (.exitEnd p) p
        { s.proc p with
          parent := if (s.proc p).parent = some p then some initproc else (s.proc p).parent
          state := .zombie, killed := k, cont := .exited }
  /-- the same, for the other slots: `init` adopts the children of the caller -/
  | adopt {p r : ProcId} {b : Proc} (hp : s.stands p .exitTail) (hr : r ≠ p)
      (h : Ran (s.proc r) b) :
      Moved s (.exitEnd p) r
        { b with parent := if (s.proc r).parent = some p then some initproc
                           else (s.proc r).parent }
  | threadExit {p : ProcId} {retval : Nat} {k : Bool} (hp : s.calls p) (hi : p ≠ initproc) :
      Moved s (.threadExit p retval) p
        { s.proc p with retval := retval, state := .zombie, killed := k, cont := .threadExited }
  | fork {p q : ProcId} (hp : s.calls p) (hq : ¬ (s.proc q).Used) :
      Moved s (.fork p .enough) q (s.child p q)
  | create {p q : ProcId} {stack : Bool} {avail i sz : Nat} (hp : s.calls p)
      (hq : ¬ (s.proc q).Used) :
      Moved s (.threadCreate p stack avail) q (s.lwp p q i sz .runnable)
  | exec {p : ProcId} {sz : Nat} (hp : s.calls p) :
      Moved s (.exec p (.done sz)) p { s.proc p with pgdir := some s.nextdir, sz := sz }
  | grow {p o r : ProcId} {n : Int} {avail j sz : Nat} :
      Moved s (.sbrk p n avail) r (s.grownProc p o j sz r)

/-- The actions that take slot `q` out of use. -/
def Reaps (s : Table) (q : ProcId) : Act → Prop
  | .exitScan p => (s.proc p).Used ∧ s.OwnZombie (s.proc p).pid q
  | .wait p => s.waitFinds p = some q
  | .threadJoin p thread => (s.proc p).Used ∧ (s.proc p).lwpid = 0 ∧ s.joinFinds p thread = some q
  | _ => False

variable {s : Table} {p q : ProcId}

lemma waitFinds_some (h : s.waitFinds p = some q) : (s.proc q).parent = some p ∧ (s.proc q).state = .zombie := by
  simpa using findSlot_some h

variable {thread : Nat}

lemma joinFinds_some (h : s.joinFinds p thread = some q) :
    (s.proc q).lwpid = thread ∧ (s.proc q).lwppid = (s.proc p).pid ∧
      (s.proc q).state = .zombie := by
  simpa using findSlot_some h

variable {a : Act}

lemma Reaps.zombie (h : Reaps s q a) : (s.proc q).state = .zombie := by
  unfold Reaps at h
  split at h
  · exact h.2.2
  · exact (waitFinds_some h).2
  · exact (joinFinds_some h.2.2).2.2
  · exact h.elim

variable {t : Table} {r : ProcId}

lemma used_of_step (h : s.step a = some t) (hr : (s.proc r).Used) : (t.proc r).Used ∨ Reaps s r a := by
  cases step_effect h with
  | quiet _ hq => exact .inl ((hq.kept r).keeps.1.mpr hr)
  | stop _ msg _ | grow => exact .inl hr
  | @fork p q d hp hq hd =>
    simp only [update_of_ne (show r ≠ q from fun h => hq (h ▸ hr))]
    exact .inl hr
  | @exec p d sz hp hd =>
    by_cases hrp : r = p
    · simp only [hrp, update_self]
      exact .inl (hrp ▸ hr)
    · simp only [update_of_ne hrp]
      exact .inl hr
  | @create p q stack avail i d sz pg hp hq hd | @createFail p q stack avail i d pg hp hq hd =>
    simp only [withLwp, update_of_ne (show r ≠ q from fun h => hq (h ▸ hr))]
    exact .inl hr
  | @threadExit p retval f hp hf =>
    by_cases hrp : r = p
    · simp only [hrp, update_self]
      exact .inl (by simp [Proc.Used])
    · simp only [update_of_ne hrp]
      exact .inl ((hf r).keeps.1.mpr hr)
  | @exitScan p f pg hp hz hk hkp =>
    by_cases hrz : r ∈ s.ownZombies p
    · exact .inr ⟨used_of_stands hp, mem_ownZombies.mp hrz⟩
    · by_cases hrp : r = p
      · exact .inl (hrp ▸ hkp.1.mpr (hrp ▸ hr))
      · exact .inl ((hk r hrz hrp).keeps.1.mpr hr)
  | @wait p q d f hfind hz hd hq hf =>
    by_cases hrq : r = q
    · exact .inr (hrq ▸ hfind)
    · exact .inl ((hf r hrq).keeps.1.mpr hr)
  | @join p q thread f pg hp hfind hl hown hq hf =>
    by_cases hrq : r = q
    · exact .inr ⟨hp, hl, hrq ▸ hfind⟩
    · exact .inl ((hf r hrq).keeps.1.mpr hr)

/-! ### Slots that only run -/

/-- Every slot that is in use afterwards only ran. -/
def RanAll (s t : Table) : Prop := ∀ r, (t.proc r).Used → Ran (s.proc r) (t.proc r)

namespace RanAll

variable {s t u : Table} {p q : ProcId}

lemma of_eq (h : t.proc = s.proc) : RanAll s t := fun _ _ => h ▸ .refl _

lemma trans (h : RanAll s t) (h' : RanAll t u) : RanAll s u := fun r hr =>
  (h r ((h' r hr).used.mp hr)).trans (h' r hr)

lemma modify {f : Proc → Proc} (h : (f (s.proc p)).Used → Ran (s.proc p) (f (s.proc p))) :
    RanAll s (s.modify p f) := by
  intro r hr
  by_cases hrp : r = p
  · subst hrp
    rw [modify_self] at hr ⊢
    exact h hr
  · rw [modify_of_ne hrp]
    exact .refl _

lemma sleep {c : Cont} (hp : (s.proc p).state = .running)
    (hc : c.exits → (s.proc p).cont.exits) : RanAll s (s.sleep p c) :=
  modify fun _ => ⟨_, _, _, _, rfl, by simp [hp], by simp [hp], hc⟩

lemma ret (s : Table) (p : ProcId) : RanAll s (s.ret p) :=
  modify fun _ => ⟨_, _, _, _, rfl, .rfl, .rfl, fun h => absurd h (by simp [Cont.exits])⟩

lemma moved (h : RanAll s t) (hr : (t.proc r).Used) : Moved s a r (t.proc r) := .run (h r hr)

end RanAll

/-! ### Call by call -/

section

variable {s t : Table} {p q r : ProcId}

lemma Moved.of_other (h : ∀ r ≠ q, t.proc r = s.proc r)
    (hq : (t.proc q).Used → Moved s a q (t.proc q)) (hr : (t.proc r).Used) : Moved s a r (t.proc r) := by
  by_cases hrq : r = q
  · subst hrq
    exact hq hr
  · rw [h r hrq]
    exact .run (.refl _)

lemma sched_ran {st : ProcState} (h : s.sched p st = some t) : RanAll s t := by
  unfold Table.sched at h
  split at h
  · obtain ⟨hr, rfl⟩ := of_guard h
    exact .modify fun _ => ⟨_, _, _, _, rfl, by simp [hr], by simp [hr], id⟩
  · obtain ⟨hr, rfl⟩ := of_guard h
    refine .modify fun _ => ⟨_, _, _, _, rfl, ?_, ?_, id⟩ <;>
      rcases hr with hr | hr <;> simp [hr]
  · obtain ⟨hr, rfl⟩ := of_guard h
    have hr : (s.proc p).state = .running := hr.elim (fun h => h.1) fun h => h.1
    exact .modify fun _ => ⟨_, _, _, _, rfl, by simp [hr], by simp [hr], id⟩
  · cases h

lemma allocproc_none_moved {stack : Bool} (h : s.allocproc stack = (none, t))
    (hr : (t.proc r).Used) : Moved s a r (t.proc r) := by
  unfold Table.allocproc at h
  split at h
  · cases h
    exact .run (.refl _)
  · rename_i q _
    split at h
    · cases h
    · cases h
      refine .of_other (q := q) (fun r hrq => ?_) (fun hu => ?_) hr
      · simp [Table.modify, embryo, hrq]
      · exact absurd hu (by simp [Table.modify, Proc.Used])

lemma fork_moved (hp : s.calls p) (mem : ForkMem) (hr : ((s.fork p mem).proc r).Used) :
    Moved s (.fork p mem) r ((s.fork p mem).proc r) := by
  revert hr
  unfold Table.fork
  split
  · rename_i h
    exact allocproc_none_moved h
  · rename_i q s' h
    obtain ⟨hq, rfl⟩ := allocproc_some h
    simp only
    split
    · rename_i d hd
      refine .of_other (q := q) (fun r hrq => ?_) (fun _ => ?_)
      · by_cases hl : 0 < (s.proc p).lwpid <;> simp [hl, hrq, Table.modify, setPages, embryo]
      · convert Moved.fork hp hq using 1
        by_cases hl : 0 < (s.proc p).lwpid <;>
          simp [hl, Table.modify, setPages, embryo, child]
    · exact .of_other (q := q) (fun _ _ => rfl) fun _ => .run (.refl _)
    all_goals
      refine .of_other (q := q) (fun r hrq => ?_) (fun hu => ?_)
      · by_cases hl : 0 < (s.proc p).lwpid <;>
          simp [hl, hrq, Table.modify, freevm, setPages, embryo]
      · exact absurd hu (by simp [Table.modify, Proc.Used])

lemma exec_moved (hp : s.calls p) (how : ExecEnd) (hr : ((s.exec p how).proc r).Used) :
    Moved s (.exec p how) r ((s.exec p how).proc r) := by
  cases how with
  | early | bad => exact .run (.refl _)
  | done sz =>
    revert hr
    unfold Table.exec
    simp only
    split
    · refine .of_other (q := p) (fun r hrp => ?_) (fun _ => ?_)
      · simp [hrp, Table.modify, freevm, setPages]
      · convert Moved.exec hp using 1
        simp [Table.modify, freevm, setPages]
    · exact .of_other (q := p) (fun _ _ => rfl) fun _ => .run (.refl _)

lemma exit_moved (hp : s.stands p .user) (hr : ((s.exit p).proc r).Used) :
    Moved s (.exit p) r ((s.exit p).proc r) := by
  revert hr
  unfold Table.exit
  split
  · exact .of_other (q := p) (fun _ _ => rfl) fun _ => .run (.refl _)
  rename_i hi
  split
  · refine .of_other (q := p) (fun r hrp => modify_of_ne hrp) fun _ => ?_
    rw [modify_self]
    exact .exit hp hi
  · intro hr
    -- the manager may have been marked before the caller moves on
    have mark : ∀ u : Table, RanAll s u → (∃ k, u.proc p = { s.proc p with killed := k }) →
        ((u.modify p fun pr => { pr with cont := .exitTail }).proc r).Used →
        Moved s (.exit p) r ((u.modify p fun pr => { pr with cont := .exitTail }).proc r) := by
      intro u hu hpu hr
      obtain ⟨k, hk⟩ := hpu
      by_cases hrp : r = p
      · subst hrp
        rw [modify_self, hk]
        exact .exit hp hi
      · rw [modify_of_ne hrp] at hr ⊢
        exact .run (hu r hr)
    revert hr
    split
    · rename_i m _
      split
      · exact mark s (.of_eq rfl) ⟨_, rfl⟩
      · refine mark _ (.modify fun _ => ⟨_, _, _, _, rfl, .rfl, .rfl, id⟩) ?_
        by_cases hpm : p = m
        · subst hpm
          exact ⟨true, modify_self⟩
        · exact ⟨(s.proc p).killed, modify_of_ne hpm⟩
    · exact mark s (.of_eq rfl) ⟨_, rfl⟩

lemma exitScan_ran (hp : s.stands p .exitLoop) : RanAll s (s.exitScan p) := by
  have hscan := foldl_scanned (s.proc p).pid _ (List.nodup_finRange nProc) s
  have hst : ∀ q, ¬ s.OwnZombie (s.proc p).pid q → Stirred (s.proc q) (_ : Proc) := fun q hq =>
    hscan.stirred q fun _ => hq
  have hran : RanAll s _ := fun q hq =>
    .of_stirred (hst q fun h => hscan.reaped q (List.mem_finRange q) h hq)
  have hpz := hst p fun h => absurd (hp.1.symm.trans h.2) (by simp)
  unfold Table.exitScan
  simp only
  split
  · refine hran.trans (.modify fun _ => ⟨_, _, _, _, rfl, .rfl, .rfl, fun _ => ?_⟩)
    rw [hpz.cont, hp.2]
    rfl
  · refine hran.trans (.modify fun _ => ⟨_, _, _, _, rfl, ?_, ?_, fun _ => ?_⟩)
    · exact iff_of_false (by simp) (hpz.used.mpr (used_of_stands hp))
    · exact iff_of_false (by simp) fun h => by simp [hp.1, hpz.zombie] at h
    · rw [hpz.cont, hp.2]
      rfl

lemma wakeParent_stirred (s : Table) (p r : ProcId) : Stirred (s.proc r) ((s.wakeParent p).proc r) := by
  unfold Table.wakeParent
  split
  · exact wakeup1_stirred s _ r
  · exact .refl _

lemma reparent_proc (s : Table) (p r : ProcId) :
    ∃ b, Stirred (s.proc r) b ∧ ((s.wakeParent p).reparent p).proc r =
      { b with parent := if (s.proc r).parent = some p then some initproc
                         else (s.proc r).parent } := by
  have hwake := wakeParent_stirred s p r
  have hadopt : ((s.wakeParent p).adopt p).proc r = { (s.wakeParent p).proc r with
      parent := if (s.proc r).parent = some p then some initproc else (s.proc r).parent } := by
    have hpar : ((s.wakeParent p).proc r).parent = (s.proc r).parent := by
      obtain ⟨k, st, hb, -⟩ := hwake
      rw [hb]
    simp only [Table.adopt, hpar]
    split
    · rfl
    · rw [← hpar]
  unfold Table.reparent
  split
  · obtain ⟨k, st, hb, hst⟩ := wakeup1_stirred ((s.wakeParent p).adopt p) initproc r
    rw [hb, hadopt]
    refine ⟨{ (s.wakeParent p).proc r with killed := k, state := st }, hwake.trans ?_, rfl⟩
    rw [hadopt] at hst
    exact ⟨k, st, rfl, hst⟩
  · exact ⟨_, hwake, hadopt⟩

lemma exitEnd_moved (hp : s.stands p .exitTail) : Moved s (.exitEnd p) r ((s.exitEnd p).proc r) := by
  obtain ⟨b, hb, he⟩ := reparent_proc s p r
  unfold Table.exitEnd
  by_cases hrp : r = p
  · subst hrp
    rw [modify_self, he]
    obtain ⟨k, st, rfl, -⟩ := hb
    exact .exitEnd hp
  · rw [modify_of_ne hrp, he]
    exact .adopt hp hrp (.of_stirred hb)

lemma wait_ran (hp : s.calls p ∨ s.stands p .waitLoop) : RanAll s (s.wait p) := by
  have hr : (s.proc p).state = .running := hp.elim (fun h => h.1.1) fun h => h.1
  unfold Table.wait
  split
  · split
    · refine .trans (.trans (t := s.freevm _) (.of_eq rfl) (.modify fun h => ?_)) (.ret _ _)
      exact absurd h (by simp [Proc.Used])
    · exact .of_eq rfl
  · split
    · exact .ret _ _
    · exact .sleep hr (fun h => by cases h)

lemma kill_ran (pid : Nat) : RanAll s (s.kill p pid) := by
  have hit : ∀ pr : Proc, Ran pr pr.hit := by
    intro pr
    refine ⟨_, _, _, _, rfl, ?_, ?_, id⟩ <;> by_cases h : pr.state = .sleeping <;> simp [h]
  unfold Table.kill
  split
  · intro q _
    simp only
    split
    · exact hit _
    · exact .refl _
  · split
    · exact .modify fun _ => hit _
    · exact .of_eq rfl

lemma threadCreate_moved (hp : s.calls p) (stack : Bool) (avail : Nat)
    (hr : ((s.threadCreate p stack avail).proc r).Used) :
    Moved s (.threadCreate p stack avail) r ((s.threadCreate p stack avail).proc r) := by
  revert hr
  have same : ∀ {msg : String}, ((s.panic msg).proc r).Used →
      Moved s (.threadCreate p stack avail) r ((s.panic msg).proc r) := fun _ => .run (.refl _)
  have hcases := threadCreate_cases s p stack avail
  generalize s.threadCreate p stack avail = t at hcases ⊢
  cases hcases with
  | noSlot h => exact allocproc_none_moved h
  | @done q i d sz pg hq hi hd hpg =>
    exact .of_other (q := q) (fun r hrq => by simp [withLwp, hrq]) fun _ => by
      simpa [withLwp] using Moved.create hp (allocproc_some hq).1
  | @failed q i d pg hq hi hd hpg =>
    refine .of_other (q := q) (fun r hrq => by simp [withLwp, hrq]) fun hu => ?_
    exact absurd hu (by simp [withLwp, lwp, Proc.Used])
  | remap | noBase | noDir => exact same

lemma threadExit_moved (hp : s.calls p) (retval : Nat) :
    Moved s (.threadExit p retval) r ((s.threadExit p retval).proc r) := by
  unfold Table.threadExit
  split
  · exact .run (.refl _)
  · rename_i hi
    have hst := wakeParent_stirred s p r
    by_cases hrp : r = p
    · subst hrp
      obtain ⟨k, st, hb, -⟩ := hst
      simp only [modify_self, hb]
      exact .threadExit hp hi
    · simp only [modify_of_ne hrp]
      exact .run (.of_stirred hst)

lemma threadJoin_ran (hp : s.calls p ∨ s.stands p (.joinLoop thread)) : RanAll s (s.threadJoin p thread) := by
  have hr : (s.proc p).state = .running := hp.elim (fun h => h.1.1) fun h => h.1
  unfold Table.threadJoin
  split
  · exact .of_eq rfl
  unfold Table.joinScan
  split
  · rename_i q _
    obtain ⟨pg, hd, -⟩ := deallocStack_eq s q
    rw [hd]
    refine .trans (t := s.modify q Proc.reaped) (.modify fun h => ?_) (.trans (.of_eq ?_) (.ret _ _))
    · exact absurd h (by simp [Proc.Used, Proc.reaped])
    · rfl
  · split
    · exact .ret _ _
    · exact .sleep hr (fun h => by cases h)

lemma growproc_proc (s : Table) (p : ProcId) (n : Int) (avail : Nat) : (s.growproc p n avail).proc = s.proc ∨
      ∃ o j sz, (s.growproc p n avail).proc = s.grownProc p o j sz := by
  unfold Table.growproc
  split
  · rename_i s' o d hs ho hd
    obtain ⟨j, u, rfl, -⟩ := getBases_some hs
    simp only
    split
    · simp only [setPages, Table.modify, grownProc_eq]
      exact .inr ⟨o, j, _, rfl⟩
    · rw [setPages, grownProc_sz (o := o)]
      exact .inr ⟨o, j, _, rfl⟩
    · exact .inl rfl
  · exact .inl rfl
  · exact .inl rfl

lemma growproc_moved (n : Int) (avail : Nat) : Moved s (.sbrk p n avail) r ((s.growproc p n avail).proc r) := by
  rcases growproc_proc s p n avail with h | ⟨o, j, sz, h⟩
  · rw [h]
    exact .run (.refl _)
  · rw [h]
    exact .grow

end

lemma step_moved (h : s.step a = some t) (hr : (t.proc r).Used) : Moved s a r (t.proc r) := by
  unfold Table.step at h
  split at h
  · cases h
  cases a with
  | sched p st => exact (sched_ran h).moved hr
  | fork p mem =>
    obtain ⟨hp, rfl⟩ := of_guard h
    exact fork_moved hp mem hr
  | exec p how =>
    obtain ⟨hp, rfl⟩ := of_guard h
    exact exec_moved hp.1 how hr
  | exit p =>
    obtain ⟨hp, rfl⟩ := of_guard h
    exact exit_moved hp hr
  | exitScan p =>
    obtain ⟨hp, rfl⟩ := of_guard h
    exact (exitScan_ran hp).moved hr
  | exitEnd p =>
    obtain ⟨hp, rfl⟩ := of_guard h
    exact exitEnd_moved hp
  | wait p =>
    obtain ⟨hp, rfl⟩ := of_guard h
    exact (wait_ran hp).moved hr
  | kill p pid =>
    obtain ⟨hp, rfl⟩ := of_guard h
    exact (kill_ran pid).moved hr
  | threadCreate p stack avail =>
    obtain ⟨hp, rfl⟩ := of_guard h
    exact threadCreate_moved hp stack avail hr
  | threadExit p retval =>
    obtain ⟨hp, rfl⟩ := of_guard h
    exact threadExit_moved hp retval
  | threadJoin p thread =>
    obtain ⟨hp, rfl⟩ := of_guard h
    exact (threadJoin_ran hp).moved hr
  | sbrk p n avail =>
    obtain ⟨hp, rfl⟩ := of_guard h
    exact growproc_moved n avail

/-! ### What follows for every slot -/

section

variable {s t : Table} {a : Act} {r : ProcId} {b : Proc}

lemma Moved.sameIds (h : Moved s a r b) (hr : (s.proc r).Used) : SameIds (s.proc r) b := by
  cases h with
  | run h | adopt _ _ h => exact ⟨hr, h.same.1, h.same.2.1, h.same.2.2.1, h.same.2.2.2.1⟩
  | fork _ hq | create _ hq => exact absurd hr hq
  | _ => exact ⟨hr, rfl, rfl, rfl, rfl⟩

lemma Moved.retval (h : Moved s a r b) (hr : (s.proc r).Used) :
    b.retval = (s.proc r).retval ∨ ∃ v, a = .threadExit r v ∧ b.retval = v := by
  cases h with
  | run h | adopt _ _ h => exact .inl h.same.2.2.2.2.2.2
  | fork _ hq | create _ hq => exact absurd hr hq
  | threadExit => exact .inr ⟨_, rfl, rfl⟩
  | _ => exact .inl rfl

lemma Moved.parent (h : Moved s a r b) (hr : (s.proc r).Used) :
    b.parent = (s.proc r).parent ∨ ∃ p, a = .exitEnd p ∧ s.stands p .exitTail ∧
      (s.proc r).parent = some p ∧ b.parent = some initproc := by
  cases h with
  | run h => exact .inl h.same.2.2.2.2.1
  | exitEnd hp =>
    by_cases hpa : (s.proc r).parent = some r
    · exact .inr ⟨r, rfl, hp, hpa, if_pos hpa⟩
    · exact .inl (if_neg hpa)
  | @adopt p r b hp hrp h =>
    by_cases hpa : (s.proc r).parent = some p
    · exact .inr ⟨p, rfl, hp, hpa, if_pos hpa⟩
    · exact .inl (if_neg hpa)
  | fork _ hq | create _ hq => exact absurd hr hq
  | _ => exact .inl rfl

lemma Moved.pgdir (h : Moved s a r b) (hr : (s.proc r).Used) :
    b.pgdir = (s.proc r).pgdir ∨ ∃ sz, a = .exec r (.done sz) := by
  cases h with
  | run h | adopt _ _ h => exact .inl h.same.2.2.2.2.2.1
  | fork _ hq | create _ hq => exact absurd hr hq
  | exec => exact .inr ⟨_, rfl⟩
  | _ => exact .inl rfl

lemma Moved.zombie (h : Moved s a r b) (hb : b.state = .zombie) :
    (s.proc r).state = .zombie ∨ a = .exitEnd r ∨ ∃ v, a = .threadExit r v := by
  cases h with
  | run h | adopt _ _ h => exact .inl (h.zombie.mp hb)
  | exit hp => exact absurd (hp.1.symm.trans hb) (by simp)
  | exitEnd => exact .inr (.inl rfl)
  | threadExit => exact .inr (.inr ⟨_, rfl⟩)
  | fork => cases hb
  | create => cases hb
  | exec | grow => exact .inl hb

lemma Moved.still_zombie (h : Moved s a r b) (hz : (s.proc r).state = .zombie) : b.state = .zombie := by
  cases h with
  | run h | adopt _ _ h => exact h.zombie.mpr hz
  | exitEnd | threadExit => rfl
  | fork _ hq | create _ hq => exact absurd (used_of_zombie hz) hq
  | _ => exact hz

lemma exitEnd_childless (h : s.step (.exitEnd p) = some t) (hr : (t.proc r).parent = some p) : p = initproc := by
  obtain ⟨-, -, rfl⟩ := of_step h
  obtain ⟨b, -, he⟩ := reparent_proc s p r
  have hpar : ((s.exitEnd p).proc r).parent =
      if (s.proc r).parent = some p then some initproc else (s.proc r).parent := by
    unfold Table.exitEnd
    by_cases hrp : r = p
    · subst hrp
      rw [modify_self, he]
    · rw [modify_of_ne hrp, he]
  rw [hpar] at hr
  split at hr
  · exact (Option.some.inj hr).symm
  · exact absurd hr ‹_›

lemma exitEnd_zombie (h : s.step (.exitEnd p) = some t) : (t.proc p).state = .zombie := by
  obtain ⟨-, -, rfl⟩ := of_step h
  rw [Table.exitEnd, modify_self]

/-- The ways in which slot `r` comes into use. -/
inductive Filled (s : Table) (r : ProcId) : Act → Table → Prop
  | fork {p : ProcId} {t : Table} (hp : s.calls p)
      (ht : t.proc = Function.update s.proc r (s.child p r)) (hn : t.nextpid = s.nextpid + 1)
      (hl : t.nextlwpid = if 0 < (s.proc p).lwpid then s.nextlwpid + 1 else s.nextlwpid) :
      Filled s r (.fork p .enough) t
  | create {p : ProcId} {stack : Bool} {avail i sz : Nat} {t : Table} (hp : s.calls p)
      (ht : t.proc = Function.update s.proc r (s.lwp p r i sz .runnable))
      (hn : t.nextpid = s.nextpid + 1) (hl : t.nextlwpid = s.nextlwpid + 1)
      (hk : t.locked = s.locked) : Filled s r (.threadCreate p stack avail) t

lemma filled_of_step (h : s.step a = some t) (hs : ¬ (s.proc r).Used) (hr : (t.proc r).Used) :
    Filled s r a t := by
  -- every other effect leaves the slot empty
  have old : ∀ {b}, Keeps (s.proc r) b → ¬ b.Used := fun hk hb => hs (hk.1.mp hb)
  cases step_effect h with
  | quiet _ hq => exact absurd hr (old (hq.kept r).keeps)
  | stop _ msg _ | grow => exact absurd hr hs
  | @fork p q d hp hq hd =>
    by_cases hrq : r = q
    · subst hrq
      exact .fork hp rfl rfl rfl
    · exact absurd hr (by simp only [update_of_ne hrq]; exact hs)
  | @exec p d sz hp hd =>
    have hrp : r ≠ p := fun h => hs (h ▸ used_of_calls hp)
    exact absurd hr (by simp only [update_of_ne hrp]; exact hs)
  | @create p q stack avail i d sz pg hp hq hd =>
    by_cases hrq : r = q
    · subst hrq
      exact .create hp rfl rfl rfl rfl
    · exact absurd hr (by simp only [withLwp, update_of_ne hrq]; exact hs)
  | @createFail p q stack avail i d pg hp hq hd =>
    exact absurd hr (old (kept_of_unused hq (by simp [Proc.Used, lwp]) r).keeps)
  | @threadExit p retval f hp hf =>
    have hrp : r ≠ p := fun h => hs (h ▸ used_of_calls hp)
    exact absurd hr (by simp only [update_of_ne hrp]; exact old (hf r).keeps)
  | @exitScan p f pg hp hz hk hkp =>
    by_cases hrz : r ∈ s.ownZombies p
    · exact absurd hr (hz r hrz)
    · have hrp : r ≠ p := fun h => hs (h ▸ used_of_stands hp)
      exact absurd hr (old (hk r hrz hrp).keeps)
  | @wait p q d f hfind hz hd hq hf =>
    have hrq : r ≠ q := fun h => hs (h ▸ used_of_zombie hz)
    exact absurd hr (old (hf r hrq).keeps)
  | @join p q thread f pg hp hfind hl hown hq hf =>
    have hrq : r ≠ q := fun h => hs (h ▸ used_of_zombie hown.2)
    exact absurd hr (old (hf r hrq).keeps)

lemma unlocked_of_step (h : s.step a = some t) (ha : a.takesLock) : s.locked = false := by
  unfold Table.step at h
  split at h
  · cases h
  · rename_i hg
    simpa [ha] using fun hs => hg (.inr ⟨hs, ha⟩)

lemma unlocked_before (h : s.step a = some t) (ht : t.locked = false) : s.locked = false := by
  cases ha : a.takesLock with
  | true => exact unlocked_of_step h ha
  | false =>
    unfold Table.step at h
    split at h
    · cases h
    cases a with
    | exec p how =>
      obtain ⟨-, rfl⟩ := of_guard h
      cases how with
      | early | bad => exact ht
      | done sz =>
        revert ht
        unfold Table.exec
        simp only
        split <;> exact id
    | exit p =>
      obtain ⟨-, rfl⟩ := of_guard h
      revert ht
      unfold Table.exit
      split
      · exact id
      split
      · exact id
      · simp only
        split
        · split <;> exact id
        · exact id
    | _ => cases ha

lemma calls_of_threadExit {v : Nat} (h : s.step (.threadExit p v) = some t) : s.calls p := by
  exact (of_step h).2.1

lemma used_of_threadJoin (h : s.step (.threadJoin p thread) = some t) : (s.proc p).Used := by
  exact (of_step h).2.1.elim used_of_calls used_of_stands

lemma next_le_of_step (h : s.step a = some t) : s.nextpid ≤ t.nextpid ∧ s.nextlwpid ≤ t.nextlwpid := by
  cases step_effect h with
  | quiet _ hq => exact ⟨hq.nextpid, hq.nextlwpid⟩
  | @fork p q d hp hq hd =>
    refine ⟨Nat.le_succ _, ?_⟩
    show s.nextlwpid ≤ if 0 < (s.proc p).lwpid then s.nextlwpid + 1 else s.nextlwpid
    split <;> omega
  | create | createFail => exact ⟨Nat.le_succ _, Nat.le_succ _⟩
  | _ => exact ⟨le_rfl, le_rfl⟩

end

/-! ### The numbers of LWPs -/

/-- LWP numbers are handed out once. -/
structure LwpIds (s : Table) : Prop where
  lt : ∀ {q}, (s.proc q).Used → (s.proc q).lwpid < s.nextlwpid
  inj : ∀ {q r}, (s.proc q).Used → (s.proc r).Used → (s.proc q).lwpid ≠ 0 →
    (s.proc q).lwpid = (s.proc r).lwpid → q = r

namespace LwpIds

variable {s t : Table}

/-- The number of a slot after a step: the one it had, or a new one. -/
lemma slot (h : s.step a = some t) (hr : (t.proc r).Used) :
    ((s.proc r).Used ∧ (t.proc r).lwpid = (s.proc r).lwpid) ∨ (t.proc r).lwpid = 0 ∨
      ((t.proc r).lwpid = s.nextlwpid ∧ s.nextlwpid < t.nextlwpid ∧
        ∀ q ≠ r, t.proc q = s.proc q) := by
  by_cases hs : (s.proc r).Used
  · exact .inl ⟨hs, ((step_moved h hr).sameIds hs).lwpid⟩
  · cases filled_of_step h hs hr with
    | @fork p t hp ht hn hl =>
      by_cases hp0 : 0 < (s.proc p).lwpid
      · refine .inr (.inr ⟨?_, ?_, fun q hq => ?_⟩)
        · simp [ht, child, hp0]
        · simp [hl, hp0]
        · rw [ht, update_of_ne hq]
      · refine .inr (.inl ?_)
        simp [ht, child, hp0]
    | @create p stack avail i sz t hp ht hn hl =>
      refine .inr (.inr ⟨?_, ?_, fun q hq => ?_⟩)
      · simp [ht, lwp]
      · simp [hl]
      · rw [ht, update_of_ne hq]

lemma step (hi : LwpIds s) (h0 : 0 < s.nextlwpid) (h : s.step a = some t) : LwpIds t where
  lt {r} hr := by
    have hn := (next_le_of_step h).2
    rcases slot h hr with ⟨hs, he⟩ | he | ⟨he, hlt, -⟩
    · have := hi.lt hs
      omega
    · omega
    · omega
  inj {q r} hq hr hne he := by
    rcases slot h hq with ⟨hsq, heq⟩ | heq | ⟨heq, hlt, hother⟩
    · rcases slot h hr with ⟨hsr, her⟩ | her | ⟨her, hlt, -⟩
      · exact hi.inj hsq hsr (heq ▸ hne) (by rw [← heq, ← her, he])
      · exact absurd (he.trans her) hne
      · have := hi.lt hsq
        omega
    · exact absurd heq hne
    · by_contra hqr
      rw [hother r (Ne.symm hqr)] at hr he
      have := hi.lt hr
      omega

lemma boot : LwpIds Table.boot := by
  have h : ∀ q, (Table.boot.proc q).lwpid = 0 := by decide
  exact ⟨fun {q} _ => by rw [h q]; decide, fun {q r} _ _ hne => absurd (h q) hne⟩

end LwpIds

/-! ### The first process -/

/-- `init` never ends. -/
structure InitLives (s : Table) : Prop where
  used : (s.proc initproc).Used
  alive : (s.proc initproc).state ≠ .zombie
  process : (s.proc initproc).lwpid = 0
  stays : (s.proc initproc).cont.exits = false

namespace InitLives

variable {s t : Table}

lemma slot {b : Proc} (hi : InitLives s) (h : Moved s a initproc b) :
    b.state ≠ .zombie ∧ b.cont.exits = false := by
  have ran : ∀ {b}, Ran (s.proc initproc) b → b.state ≠ .zombie ∧ b.cont.exits = false :=
    fun h => ⟨fun hz => hi.alive (h.zombie.mp hz),
      Bool.eq_false_iff.mpr fun hb => absurd (h.exits hb) (by simp [hi.stays])⟩
  generalize hr : initproc = r at h
  cases h with
  | run h => exact ran (hr ▸ h)
  | adopt _ _ h =>
    obtain ⟨hz, hc⟩ := ran (hr ▸ h)
    exact ⟨hz, hc⟩
  | exit _ hne | threadExit _ hne => exact absurd hr.symm hne
  | exitEnd hp =>
    have := hi.stays
    rw [hr, hp.2] at this
    cases this
  | fork _ hq | create _ hq => exact absurd hi.used (hr ▸ hq)
  | exec | grow => exact hr ▸ ⟨hi.alive, hi.stays⟩

lemma step (hi : InitLives s) (h : s.step a = some t) : InitLives t := by
  have hu : (t.proc initproc).Used := by
    rcases used_of_step h hi.used with h' | h'
    · exact h'
    · exact absurd h'.zombie hi.alive
  have hm := step_moved h hu
  obtain ⟨hz, hc⟩ := hi.slot hm
  exact ⟨hu, hz, (hm.sameIds hi.used).lwpid.trans hi.process, hc⟩

lemma boot : InitLives Table.boot := ⟨by decide, by decide, by decide, by decide⟩

end InitLives

end Xv6.Process
