import Xv6.Process.Slots

/-!
# The table and its history

The table forgets: a slot is used again and again, and what a process was told when its child or its
LWP was made is nowhere in it. `History` writes this down beside the table, by the numbers that are
handed out once: within which process each pid and each LWP was made and by whom, what an LWP passed
to `thread_exit`, and how often it was joined. Every run has exactly one history
(`History.run_lift`).
-/

namespace Xv6.Process

open Function (update_of_ne)

open Lib Table

/-- What a round of `thread_join(thread, &r)` by `p` stores in `r`, if it returns `0`. -/
def Table.joined (s : Table) (p : ProcId) (thread : Nat) : Option Nat :=
  if (s.proc p).lwpid ≠ 0 then none else (s.joinFinds p thread).map fun q => (s.proc q).retval

/-- The table and its history. -/
structure History where
  table : Table
  /-- the pid of the process within which a pid was given -/
  process : Nat → Nat
  /-- the pid of the process or LWP that forked a pid -/
  creator : Nat → Nat
  /-- the process within which `thread_create` made an LWP number -/
  made : Nat → Option Nat
  /-- the value passed to `thread_exit` -/
  passed : Nat → Option Nat
  /-- how many calls of `thread_join` returned `0` for an LWP number -/
  joins : Nat → Nat

namespace History

/-- What is written down of the action `a` that led to the table `t`. -/
def record (g : History) (a : Act) (t : Table) : History :=
  let s := g.table
  match a with
  | .fork p _ =>
    { g with
      table := t
      process := Function.update g.process s.nextpid s.nextpid
      creator := Function.update g.creator s.nextpid (s.proc p).pid }
  | .threadCreate p _ _ =>
    let here := g.process (s.proc p).pid
    { g with
      table := t
      process := Function.update g.process s.nextpid here
      -- a call that returned `-1` made no LWP
      made := if s.nextlwpid < t.nextlwpid ∧ t.locked = false
        then Function.update g.made s.nextlwpid (some here) else g.made }
  | .threadExit p v =>
    { g with table := t, passed := Function.update g.passed (s.proc p).lwpid (some v) }
  | .threadJoin p thread =>
    { g with
      table := t
      joins := if (s.joined p thread).isSome
        then Function.update g.joins thread (g.joins thread + 1) else g.joins }
  | _ => { g with table := t }

def step (g : History) (a : Act) : Option History := (g.table.step a).map (g.record a)

def boot : History where
  table := Table.boot
  process pid := pid
  creator _ := 0
  made _ := none
  passed _ := none
  joins _ := 0

@[simp] lemma record_table (g : History) (a : Act) (t : Table) : (g.record a t).table = t := by
  unfold record
  split <;> rfl

lemma run_lift {C : Table → Act → Prop} {as : List Act} {s : Table} (h : Run Table.step C Table.boot as s) :
    ∃ g, Run step (fun g a => C g.table a) boot as g ∧ g.table = s :=
  h.lift History.table (fun g a t ht => ⟨g.record a t, by simp [step, ht], by simp⟩) rfl

section

variable {g : History} {a : Act} {t : Table}

lemma record_process {pid : Nat} (h : pid < g.table.nextpid) : (g.record a t).process pid = g.process pid := by
  unfold record
  split <;> simp only [update_of_ne h.ne]

lemma record_creator {pid : Nat} (h : pid < g.table.nextpid) : (g.record a t).creator pid = g.creator pid := by
  unfold record
  split <;> simp only [update_of_ne h.ne]

lemma record_made {i : Nat} (h : i < g.table.nextlwpid) : (g.record a t).made i = g.made i := by
  unfold record
  split <;> try rfl
  simp only
  split
  · exact update_of_ne h.ne ..
  · rfl

lemma record_passed {i : Nat} (h : ∀ p v, a = .threadExit p v → i ≠ (g.table.proc p).lwpid) :
    (g.record a t).passed i = g.passed i := by
  unfold record
  split <;> try rfl
  exact update_of_ne (h _ _ rfl) ..

lemma record_joins {i : Nat} (h : ∀ p, a = .threadJoin p i → g.table.joined p i = none) :
    (g.record a t).joins i = g.joins i := by
  unfold record
  split <;> try rfl
  rename_i p thread
  simp only
  split
  · rename_i hj
    refine update_of_ne (fun hi => ?_) ..
    subst hi
    simp [h p rfl] at hj
  · rfl

end

end History

end Xv6.Process
