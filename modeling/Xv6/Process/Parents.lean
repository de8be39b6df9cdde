import Xv6.Process.History

/-!
# Whose child a process is

A parent is a pointer to a slot, and slots are used again. `exit` hands the children of its caller
to `init` before the slot can be reused; `thread_exit` does not, so that the child of an LWP may end
up as the child of a stranger (`stranger_reaped`). An LWP has the same `parent` field as a forked
child, and `wait` does not tell them apart.

Where an LWP has no children left when it calls `thread_exit`, the parent of every process is there
and has not ended (`ParentLives`). Where moreover the caller of `wait` has no LWPs, `wait` returns a
process that its caller forked, or, for `init`, one whose creator has ended
(`wait_reaps_own_children`).
-/

namespace Xv6.Process

open Function (update_self update_of_ne)
open Lib Table

/-- What `wait` by `p` returns, if this round of its loop returns a pid. -/
def Table.waited (s : Table) (p : ProcId) : Option Nat :=
  (s.waitFinds p).map fun q => (s.proc q).pid

/-- The caller of `thread_exit` is nobody's parent. -/
def LeavesNoChild (s : Table) : Act → Prop
  | .threadExit p _ => ∀ q, (s.proc q).Used → (s.proc q).parent ≠ some p
  | _ => True

instance (s : Table) : DecidablePred (LeavesNoChild s) := by
  intro a
  apply Act.casesOn (motive := fun a => Decidable (LeavesNoChild s a)) a <;> intros <;> dsimp only [LeavesNoChild] <;>
    infer_instance

/-- The invariant: whoever is named as a parent is there and has not ended. -/
structure ParentLives (s : Table) : Prop where
  init : InitLives s
  parent : ∀ {q x}, (s.proc q).Used → (s.proc q).parent = some x →
    (s.proc x).Used ∧ (s.proc x).state ≠ .zombie

namespace ParentLives

variable {s t : Table} {a : Act} {q x : ProcId}

lemma filled (hi : ParentLives s) (h : s.step a = some t) (hs : ¬ (s.proc q).Used)
    (hq : (t.proc q).Used) (hx : (t.proc q).parent = some x) : (t.proc x).Used ∧ (t.proc x).state ≠ .zombie := by
  have there : ∀ {p np}, (s.proc p).Used → (s.proc p).state ≠ .zombie →
      t.proc = Function.update s.proc q np → (t.proc p).Used ∧ (t.proc p).state ≠ .zombie := by
    intro p np hu hz ht
    have hne : p ≠ q := fun he => hs (he ▸ hu)
    rw [ht, update_of_ne hne]
    exact ⟨hu, hz⟩
  have caller : ∀ {p}, s.calls p → (s.proc p).state ≠ .zombie := fun hp => by simp [hp.1.1]
  cases filled_of_step h hs hq with
  | @fork p t hp ht =>
    rw [ht, update_self] at hx
    obtain rfl : p = x := Option.some.inj hx
    exact there (used_of_calls hp) (caller hp) ht
  | @create p stack avail i sz t hp ht =>
    rw [ht, update_self] at hx
    simp only [lwp] at hx
    split at hx
    · obtain ⟨hu, hz⟩ := hi.parent (used_of_calls hp) hx
      exact there hu hz ht
    · cases hx
      exact there (used_of_calls hp) (caller hp) ht

lemma kept (hi : ParentLives s) (hc : LeavesNoChild s a) (h : s.step a = some t)
    (hs : (s.proc q).Used) (hq : (t.proc q).Used) (hx : (t.proc q).parent = some x) :
    (t.proc x).Used ∧ (t.proc x).state ≠ .zombie := by
  have hinit := hi.init.step h
  rcases (step_moved h hq).parent hs with he | ⟨p, -, -, -, he⟩
  · obtain ⟨hu, hz⟩ := hi.parent hs (he ▸ hx)
    have hut : (t.proc x).Used :=
      (used_of_step h hu).resolve_right fun hr => hz hr.zombie
    refine ⟨hut, fun hzt => ?_⟩
    rcases (step_moved h hut).zombie hzt with hzs | rfl | ⟨v, rfl⟩
    · exact hz hzs
    · -- the children of a process that exits are those of `init` now
      obtain rfl := exitEnd_childless h hx
      exact hinit.alive hzt
    · exact hc q hs (he ▸ hx)
  · obtain rfl : initproc = x := Option.mem_unique he hx
    exact ⟨hinit.used, hinit.alive⟩

lemma step (hi : ParentLives s) (hc : LeavesNoChild s a) (h : s.step a = some t) : ParentLives t where
  init := hi.init.step h
  parent {q x} hq hx := by
    by_cases hs : (s.proc q).Used
    · exact hi.kept hc h hs hq hx
    · exact hi.filled h hs hq hx

lemma boot : ParentLives Table.boot := by
  have h : ∀ q, (Table.boot.proc q).parent = none := by decide
  exact ⟨InitLives.boot, fun {q x} _ hx => absurd (hx.symm.trans (h q)) (by simp)⟩

end ParentLives

/-! ### Who forked whom -/

/-- No process or LWP of the pid `c` is left, but for a zombie. -/
def Table.Ended (s : Table) (c : Nat) : Prop :=
  ∀ r, (s.proc r).Used → (s.proc r).state ≠ .zombie → (s.proc r).pid ≠ c

instance (s : Table) (c : Nat) : Decidable (s.Ended c) := inferInstanceAs (Decidable (∀ _, _))

lemma Table.Ended.step {s t : Table} {a : Act} {c : Nat} (he : s.Ended c) (hc : c < s.nextpid)
    (h : s.step a = some t) : t.Ended c := by
  intro r hr hz
  by_cases hs : (s.proc r).Used
  · have hm := step_moved h hr
    rw [(hm.sameIds hs).pid]
    exact he r hs fun hzs => hz (hm.still_zombie hzs)
  · cases filled_of_step h hs hr with
    | fork hp ht | create hp ht =>
      rw [ht, update_self]
      exact hc.ne'

/-- The caller of `thread_exit` is nobody's parent, and the caller of `wait` is the parent of no
LWP. -/
def ReapsOwn (s : Table) : Act → Prop
  | .wait p => ∀ q, (s.proc q).IsLwp → (s.proc q).parent ≠ some p
  | a => LeavesNoChild s a

instance (s : Table) : DecidablePred (ReapsOwn s) := by
  intro a
  apply Act.casesOn (motive := fun a => Decidable (ReapsOwn s a)) a <;> intros <;> dsimp only [ReapsOwn] <;>
    infer_instance

lemma ReapsOwn.leavesNoChild {s : Table} {a : Act} (h : ReapsOwn s a) : LeavesNoChild s a := by
  cases a with
  | wait => trivial
  | _ => exact h

/-- The invariant of the history: a process that is not an LWP was forked by its parent, or `init`
has it from a creator that has ended. -/
structure Lineage (g : History) : Prop where
  ids : Ids g.table
  parents : ParentLives g.table
  earlier : ∀ {q x}, (g.table.proc q).Used → ¬ (g.table.proc q).IsLwp →
    (g.table.proc q).parent = some x → g.creator (g.table.proc q).pid < g.table.nextpid
  creator : ∀ {q x}, (g.table.proc q).Used → ¬ (g.table.proc q).IsLwp →
    (g.table.proc q).parent = some x → g.creator (g.table.proc q).pid = (g.table.proc x).pid ∨
      (x = initproc ∧ g.table.Ended (g.creator (g.table.proc q).pid))

namespace Lineage

variable {g : History} {a : Act} {t : Table} {q x : ProcId}

/-- A process that was there: its parent is the one it had, or `init` now. -/
lemma kept (hi : Lineage g) (hc : LeavesNoChild g.table a) (h : g.table.step a = some t)
    (hs : (g.table.proc q).Used) (hq : (t.proc q).Used) (hn : ¬ (t.proc q).IsLwp)
    (hx : (t.proc q).parent = some x) :
    g.creator (t.proc q).pid < g.table.nextpid ∧
      (g.creator (t.proc q).pid = (t.proc x).pid ∨
        (x = initproc ∧ t.Ended (g.creator (t.proc q).pid))) := by
  have hm := step_moved h hq
  have hid := hm.sameIds hs
  have hns : ¬ (g.table.proc q).IsLwp := fun hl => hn (hid.isLwp hq hl)
  have hut := ((hi.parents.step hc h).parent hq hx).1
  rw [hid.pid]
  rcases hm.parent hs with he | ⟨p, rfl, hp, hpar, he⟩
  · have hxs := he.symm.trans hx
    have hlt := hi.earlier hs hns hxs
    refine ⟨hlt, ?_⟩
    rcases hi.creator hs hns hxs with hcr | ⟨rfl, hend⟩
    · left
      rw [hcr, ((step_moved h hut).sameIds (hi.parents.parent hs hxs).1).pid]
    · exact .inr ⟨rfl, hend.step hlt h⟩
  · -- adopted by `init`, since the parent has ended
    obtain rfl : initproc = x := Option.mem_unique he hx
    have hlt := hi.earlier hs hns hpar
    refine ⟨hlt, .inr ⟨rfl, ?_⟩⟩
    rcases hi.creator hs hns hpar with hcr | ⟨-, hend⟩
    · rw [hcr]
      intro r hr hz hpid
      have hup := used_of_stands hp
      by_cases hrs : (g.table.proc r).Used
      · rw [((step_moved h hr).sameIds hrs).pid] at hpid
        obtain rfl := hi.ids.pid_inj hrs hup hpid
        exact hz (exitEnd_zombie h)
      · cases filled_of_step h hrs hr
    · exact hend.step hlt h

lemma filled (hi : Lineage g) (h : g.table.step a = some t) (hs : ¬ (g.table.proc q).Used)
    (hq : (t.proc q).Used) (hn : ¬ (t.proc q).IsLwp) (hx : (t.proc q).parent = some x) :
    (g.record a t).creator (t.proc q).pid < t.nextpid ∧
      (g.record a t).creator (t.proc q).pid = (t.proc x).pid := by
  cases filled_of_step h hs hq with
  | @fork p t hp ht hnext =>
    have hne : p ≠ q := fun he => hs (he ▸ used_of_calls hp)
    have hlt := hi.ids.pid_lt (used_of_calls hp)
    rw [ht, update_self] at hx
    obtain rfl : p = x := Option.some.inj hx
    rw [ht, update_self, update_of_ne hne, hnext]
    simp only [History.record, child, update_self]
    exact ⟨by omega, trivial⟩
  | @create p stack avail i sz t hp ht =>
    refine absurd ?_ hn
    rw [ht, update_self]
    exact ⟨by simp [Proc.Used, lwp], hi.ids.nextlwpid_pos, rfl⟩

lemma step (hi : Lineage g) (hc : LeavesNoChild g.table a) (h : g.table.step a = some t) :
    Lineage (g.record a t) := by
  -- the pid of a process that was there is older than what the action writes down
  have hold : ∀ {q}, (g.table.proc q).Used → (t.proc q).Used →
      (g.record a t).creator (t.proc q).pid = g.creator (t.proc q).pid := by
    intro q hs hq
    rw [((step_moved h hq).sameIds hs).pid]
    exact History.record_creator (hi.ids.pid_lt hs)
  have hmono := (next_le_of_step h).1
  constructor
  case ids => exact (History.record_table g a t).symm ▸ hi.ids.step h
  case parents => exact (History.record_table g a t).symm ▸ hi.parents.step hc h
  case earlier =>
    intro q x hq hn hx
    rw [History.record_table] at hq hn hx ⊢
    by_cases hs : (g.table.proc q).Used
    · rw [hold hs hq]
      exact Nat.lt_of_lt_of_le (hi.kept hc h hs hq hn hx).1 hmono
    · exact (hi.filled h hs hq hn hx).1
  case creator =>
    intro q x hq hn hx
    rw [History.record_table] at hq hn hx ⊢
    by_cases hs : (g.table.proc q).Used
    · rw [hold hs hq]
      exact (hi.kept hc h hs hq hn hx).2
    · exact .inl (hi.filled h hs hq hn hx).2

lemma boot : Lineage History.boot := by
  have h : ∀ q, (Table.boot.proc q).parent = none := by decide
  refine ⟨Ids.boot, ParentLives.boot, fun {q x} _ _ hx => ?_, fun {q x} _ _ hx => ?_⟩
  all_goals exact absurd (hx.symm.trans (h q)) (by simp)

end Lineage

/-- In every run in which the caller of `thread_exit` is nobody's parent and the caller of `wait` the
parent of no LWP: what `wait` returns to `p` is the pid of a process that is not an LWP and that `p`
forked, or `p` is `init` and who forked it has ended. -/
theorem wait_reaps_own_children {as : List Act} {s : Table}
    (h : Run Table.step ReapsOwn Table.boot as s) :
    ∃ g, Run History.step (fun g => ReapsOwn g.table) History.boot as g ∧ g.table = s ∧
      ∀ p c t, ReapsOwn s (.wait p) → s.step (.wait p) = some t → s.waited p = some c →
        ∃ q, (s.proc q).pid = c ∧ (s.proc q).Used ∧ ¬ (s.proc q).IsLwp ∧
          (g.creator c = (s.proc p).pid ∨ (p = initproc ∧ s.Ended (g.creator c))) := by
  obtain ⟨g, hrun, rfl⟩ := History.run_lift h
  have hi : Lineage g := hrun.inv Lineage.boot fun g a g' hi hc hs => by
    obtain ⟨t, ht, rfl⟩ := Option.map_eq_some_iff.mp hs
    exact hi.step hc.leavesNoChild ht
  refine ⟨g, hrun, rfl, fun p c t hc _ hw => ?_⟩
  obtain ⟨q, hq, rfl⟩ := Option.map_eq_some_iff.mp hw
  obtain ⟨hpar, hz⟩ := waitFinds_some hq
  have hn : ¬ (g.table.proc q).IsLwp := fun hl => hc q hl hpar
  exact ⟨q, rfl, used_of_zombie hz, hn, hi.creator (used_of_zombie hz) hn hpar⟩

/-- A process forks, its child exits, and it is about to wait. -/
def exitedChild : List Act :=
  [.sched 0 .running, .fork 0 .enough, .sched 1 .running, .fork 1 .enough, .sched 2 .running,
   .exit 2, .exitScan 2, .exitEnd 2]

theorem wait_reaps_own_children_exitedChild :
    ∃ s g, Run Table.step ReapsOwn Table.boot exitedChild s ∧
      Run History.step (fun g => ReapsOwn g.table) History.boot exitedChild g ∧ g.table = s ∧
      s.waited 1 = some 3 ∧
      ∃ q, (s.proc q).pid = 3 ∧ (s.proc q).Used ∧ ¬ (s.proc q).IsLwp ∧
        (g.creator 3 = (s.proc 1).pid ∨ ((1 : ProcId) = initproc ∧ s.Ended (g.creator 3))) := by
  obtain ⟨s, hrun, hc, hs, hw⟩ := run_of_check Table.step ReapsOwn Table.boot exitedChild
    (fun s => ReapsOwn s (.wait 1) ∧ (s.step (.wait 1)).isSome ∧ s.waited 1 = some 3)
    (by decide +kernel)
  obtain ⟨t, ht⟩ := Option.isSome_iff_exists.mp hs
  obtain ⟨g, hgrun, hg, hall⟩ := wait_reaps_own_children hrun
  exact ⟨s, g, hrun, hgrun, hg, hw, hall 1 3 t hc ht hw⟩

/-- An LWP ends in `thread_exit`; its manager is about to wait. -/
def lwpEnded : List Act :=
  [.sched 0 .running, .fork 0 .enough, .sched 1 .running, .threadCreate 1 true 9,
   .sched 2 .running, .threadExit 2 0]

/-- An LWP forks, ends in `thread_exit` and is joined; its slot goes to a new process, and then the
child of the LWP exits. -/
def orphan : List Act :=
  [.sched 0 .running, .fork 0 .enough, .sched 1 .running, .threadCreate 1 true 9,
   .sched 2 .running, .fork 2 .enough, .threadExit 2 0, .threadJoin 1 1, .fork 1 .enough,
   .sched 2 .running, .sched 3 .running, .exit 3, .exitEnd 3]

/-- `wait` returns an LWP to its manager; and it returns to the new owner of a slot the child that
the LWP there had forked. -/
theorem stranger_reaped :
    (∃ s, Run Table.step anyStep Table.boot lwpEnded s ∧ (s.step (.wait 1)).isSome ∧
      s.waited 1 = some 3 ∧ (s.proc 2).pid = 3 ∧ (s.proc 2).IsLwp) ∧
    ∃ g, Run History.step anyStep History.boot orphan g ∧ (g.table.step (.wait 2)).isSome ∧
      g.table.waited 2 = some 4 ∧ g.creator 4 = 3 ∧ (g.table.proc 2).pid = 5 :=
  ⟨run_of_check _ _ _ _ _ (by decide +kernel), run_of_check _ _ _ _ _ (by decide +kernel)⟩

end Xv6.Process
