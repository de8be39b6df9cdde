import Xv6.Process.Slots
import Xv6.Process.PageDir

/-!
# Thread groups

An LWP names its manager three times: `lwppid` is the manager's pid, `parent` its slot, and `pgdir`
is shared with it. `thread_create` copies these from its caller, so they are right if they were
right there. They are not for the forked child of an LWP, which has an LWP number but no manager
(`forked_creator_ungrouped`); and `exec`, the reparenting of `exit` and `wait` may take one of the
three away from an LWP later. Where none of this happens, every LWP has its manager
(`lwp_has_manager`).
-/

namespace Xv6.Process

open Lib Table

/-- Slot `m` holds the manager of the LWP in slot `q`. -/
def Table.Manages (s : Table) (m q : ProcId) : Prop :=
  (s.proc m).Used ∧ (s.proc m).lwpid = 0 ∧ (s.proc m).pid = (s.proc q).lwppid ∧
    (s.proc q).parent = some m ∧ (s.proc q).pgdir = (s.proc m).pgdir

instance (s : Table) (m q : ProcId) : Decidable (s.Manages m q) :=
  inferInstanceAs (Decidable (_ ∧ _ ∧ _ ∧ _ ∧ _))

/-- The forked child of an LWP creates no LWP, `exec` goes through only for a process that shares its
page directory with nobody, a process ends in `exit` only when it is parent of no LWP, and `wait`
reaps no process that is the manager of an LWP. -/
def KeepsGroups (s : Table) : Act → Prop
  | .threadCreate p _ _ => (s.proc p).forked = false
  | .exec p (.done _) => s.Unshared p
  | .exitEnd p => ∀ q, (s.proc q).IsLwp → (s.proc q).parent ≠ some p
  | .wait p => ∀ m ∈ s.waitFinds p, ∀ q, (s.proc q).IsLwp → (s.proc q).lwppid ≠ (s.proc m).pid
  | _ => True

instance (s : Table) : DecidablePred (KeepsGroups s) := by
  intro a
  apply Act.casesOn (motive := fun a => Decidable (KeepsGroups s a)) a <;> intros
  case exec p how =>
    apply ExecEnd.casesOn (motive := fun how => Decidable (KeepsGroups s (.exec p how))) how <;> intros <;>
      dsimp only [KeepsGroups] <;> infer_instance
  all_goals
    dsimp only [KeepsGroups]
    infer_instance

/-- The invariant. -/
structure Grouped (s : Table) : Prop where
  ids : Ids s
  manager : ∀ {q}, (s.proc q).IsLwp → ∃ m, s.Manages m q

namespace Grouped

variable {s t : Table} {a : Act} {m q : ProcId}

lemma not_reaped (hi : Grouped s) (hc : KeepsGroups s a) (hq : (s.proc q).IsLwp)
    (hm : s.Manages m q) : ¬ Reaps s m a := by
  obtain ⟨hu, h0, hpid, -⟩ := hm
  have own : ∀ {p : ProcId}, (s.proc p).Used → (s.proc m).lwppid ≠ (s.proc p).pid := by
    intro p hp he
    have := (hi.ids.lwp hu (he ▸ Nat.pos_iff_ne_zero.mp (hi.ids.pid_pos hp))).2.1
    omega
  intro hr
  cases a with
  | exitScan p => exact own hr.1 hr.2.1
  | threadJoin p thread => exact own hr.1 (joinFinds_some hr.2.2).2.1
  | wait p => exact hc m hr q hq hpid.symm
  | _ => exact hr

lemma kept (hi : Grouped s) (hc : KeepsGroups s a) (h : s.step a = some t)
    (hq : (s.proc q).IsLwp) (hqt : (t.proc q).Used) : ∃ m, t.Manages m q := by
  obtain ⟨m, hm⟩ := hi.manager hq
  have hkept := hi.not_reaped hc hq hm
  obtain ⟨hu, h0, hpid, hpar, hdir⟩ := hm
  have hmt : (t.proc m).Used := (used_of_step h hu).resolve_right hkept
  have hmm := step_moved h hmt
  have hmq := step_moved h hqt
  have hmid := hmm.sameIds hu
  have hqid := hmq.sameIds hq.1
  have hne : m ≠ q := fun he => by
    have := hq.2.1
    rw [← he, h0] at this
    exact absurd this (Nat.lt_irrefl 0)
  refine ⟨m, hmt, hmid.lwpid.trans h0, ?_, ?_, ?_⟩
  · rw [hmid.pid, hqid.lwppid, hpid]
  · rcases hmq.parent hq.1 with he | ⟨p, rfl, -, hp, -⟩
    · rw [he, hpar]
    · exact absurd hp (hc q hq)
  · -- `exec` by either of the two would leave a shared page directory
    rcases hmq.pgdir hq.1 with hdq | ⟨sz, rfl⟩
    · rcases hmm.pgdir hu with hdm | ⟨sz, rfl⟩
      · rw [hdq, hdm, hdir]
      · exact absurd hdir (hc q hne.symm hq.1)
    · exact absurd hdir.symm (hc m hne hu)

lemma filled (hi : Grouped s) (hc : KeepsGroups s a) (h : s.step a = some t)
    (hs : ¬ (s.proc q).Used) (hq : (t.proc q).IsLwp) : ∃ m, t.Manages m q := by
  cases filled_of_step h hs hq.1 with
  | @fork p t hp ht =>
    -- the child of an LWP is marked, that of a manager has no LWP number
    obtain ⟨-, h0, hf⟩ := hq
    simp only [ht, Function.update_self, child] at h0 hf
    split at h0
    · simp_all
    · exact absurd h0 (Nat.lt_irrefl 0)
  | @create p stack avail i sz t hp ht =>
    have hup := used_of_calls hp
    have other : ∀ {m}, (s.proc m).Used → t.proc m = s.proc m := fun {m} hm => by
      have hne : m ≠ q := fun he => hs (he ▸ hm)
      rw [ht, Function.update_of_ne hne]
    have hnew : t.proc q = s.lwp p q i sz .runnable := by rw [ht, Function.update_self]
    by_cases h0 : 0 < (s.proc p).lwpid
    · obtain ⟨m, hu, hm0, hpid, hpar, hdir⟩ := hi.manager ⟨hup, h0, hc⟩
      refine ⟨m, ?_⟩
      simp only [Table.Manages, other hu, hnew, lwp, h0, if_true]
      exact ⟨hu, hm0, hpid, hpar, hdir⟩
    · refine ⟨p, ?_⟩
      simp only [Table.Manages, other hup, hnew, lwp, h0, if_false]
      exact ⟨hup, by omega, trivial, trivial, trivial⟩

lemma step (hi : Grouped s) (hc : KeepsGroups s a) (h : s.step a = some t) : Grouped t where
  ids := hi.ids.step h
  manager {q} hq := by
    by_cases hs : (s.proc q).Used
    · have hid := (step_moved h hq.1).sameIds hs
      exact hi.kept hc h ⟨hs, hid.lwpid ▸ hq.2.1, hid.forked ▸ hq.2.2⟩ hq.1
    · exact hi.filled hc h hs hq

lemma boot : Grouped Table.boot := by
  have h : ∀ q, ¬ (Table.boot.proc q).IsLwp := by decide
  exact ⟨Ids.boot, fun {q} hq => absurd hq (h q)⟩

end Grouped

/-- In every run whose steps all keep the groups, every LWP has a manager: a slot in use that is not
an LWP, with the pid, the slot and the page directory that the LWP names. -/
theorem lwp_has_manager {as : List Act} {s : Table}
    (h : Run Table.step KeepsGroups Table.boot as s) :
    ∀ q, (s.proc q).IsLwp → ∃ m, s.Manages m q := by
  have hi : Grouped s := h.inv Grouped.boot fun _ _ _ hi hc hs => hi.step hc hs
  exact fun q hq => hi.manager hq

/-- A manager creates an LWP, which creates another. -/
def twoLwps : List Act :=
  [.sched 0 .running, .fork 0 .enough, .sched 1 .running, .threadCreate 1 true 9,
   .sched 2 .running, .threadCreate 2 true 9]

theorem lwp_has_manager_twoLwps :
    ∃ s, Run Table.step KeepsGroups Table.boot twoLwps s ∧ (s.proc 3).IsLwp ∧
      ∃ m, s.Manages m 3 := by
  obtain ⟨s, hrun, hs⟩ := run_of_check Table.step KeepsGroups Table.boot twoLwps
    (fun s => (s.proc 3).IsLwp) (by decide +kernel)
  exact ⟨s, hrun, hs, lwp_has_manager hrun 3 hs⟩

/-- An LWP forks, and its child creates an LWP. -/
def forkedCreator : List Act :=
  [.sched 0 .running, .fork 0 .enough, .sched 1 .running, .threadCreate 1 true 9,
   .sched 2 .running, .fork 2 .enough, .sched 3 .running, .threadCreate 3 true 9]

/-- The new LWP has `lwppid = 0`, which is nobody's pid, and the parent of its creator. -/
theorem forked_creator_ungrouped :
    ∃ s, Run Table.step anyStep Table.boot forkedCreator s ∧ (s.proc 4).IsLwp ∧
      (s.proc 4).lwppid = 0 ∧ (s.proc 4).parent = some 2 ∧ ¬ ∃ m, s.Manages m 4 :=
  run_of_check _ _ _ _ _ (by decide +kernel)

end Xv6.Process
