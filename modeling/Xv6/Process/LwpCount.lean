import Xv6.Process.Ids
import Xv6.Process.Parts
import Xv6.Lib.Ledger

/-!
# The counter `num_lwp`

`num_lwp` is to be the number of LWPs: `thread_create` counts one up, and `thread_exit` or the loop
of `exit` counts one down. The two ways down do not exclude each other: an LWP that ended in
`thread_exit` and is reaped by the `exit` of its manager is counted down twice, and one that ended
in `exit` and is joined is never counted down (`lwp_counted_twice_or_never`). `num_lwp++` itself is
done without a lock, so that two `thread_create` at a time may count one. A run in which each LWP meets
one of the ways down (`CountedOnce`) and `thread_create` is not divided keeps the books: the LWPs are the
members of a `Lib.Ledger` whose counter is `num_lwp` (`lwps_counted_once`).
-/

namespace Xv6.Process

open Function (update_self update_of_ne)
open Lib Table

/-- Each LWP is counted down in one way: it ends in `thread_exit` and is joined, or it ends in `exit`
and the `exit` of its manager reaps it. Only LWPs call `thread_exit`, `wait` finds no LWP, and no
`thread_create` fails after it has counted. -/
def CountedOnce (s : Table) : Act → Prop
  | .threadCreate p _ avail =>
    2 ≤ avail ∧ ∀ i ∈ s.freeBase, stackBase (s.proc p).sz i + 2 * pgSize < kernBase
  | .threadExit p _ => (s.proc p).IsLwp
  | .threadJoin p thread => ∀ q ∈ s.joinFinds p thread, (s.proc q).cont = .threadExited
  | .exitScan p => ∀ q ∈ s.ownZombies p, (s.proc q).cont ≠ .threadExited
  | .wait p => ∀ q ∈ s.waitFinds p, ¬ (s.proc q).IsLwp
  | _ => True

instance (s : Table) : DecidablePred (CountedOnce s) := by
  intro a
  apply Act.casesOn (motive := fun a => Decidable (CountedOnce s a)) a <;> intros <;>
    dsimp only [CountedOnce] <;> infer_instance

/-! ### The books

The table with two columns beside it: how often each LWP number was counted up and down. -/

structure Counted where
  table : Table
  inc : Nat → Nat
  dec : Nat → Nat

/-- To which LWP number the action from `s` to `t` counts up. -/
def countsUp (s t : Table) : Act → Nat → Nat
  | .threadCreate _ _ _, l => if t.numLwp ≠ s.numLwp ∧ l = s.nextlwpid then 1 else 0
  | _, _ => 0

/-- For which LWP numbers the action from `s` to `t` counts down. -/
def countsDown (s t : Table) : Act → Nat → Nat
  | .threadExit p _, l => if t.numLwp ≠ s.numLwp ∧ l = (s.proc p).lwpid then 1 else 0
  | .exitScan p, l =>
    if t.numLwp ≠ s.numLwp then ((s.ownZombies p).filter fun q => (s.proc q).lwpid = l).card else 0
  | _, _ => 0

namespace Counted

/-- The table `t` after the action `a`, with the entries that `a` makes in the books. -/
def after (g : Counted) (a : Act) (t : Table) : Counted where
  table := t
  inc l := g.inc l + countsUp g.table t a l
  dec l := g.dec l + countsDown g.table t a l

def step (g : Counted) (a : Act) : Option Counted := (g.table.step a).map (g.after a)

def boot : Counted := ⟨Table.boot, fun _ => 0, fun _ => 0⟩

end Counted

/-! ### LWPs as members of the ledger -/

/-- An LWP is a member; it has left if it ended in `thread_exit`. -/
def Proc.member (p : Proc) : Option (Nat × Bool) :=
  if p.IsLwp then some (p.lwpid, decide (p.cont = .threadExited)) else none

variable {p : Proc}

lemma Proc.member_of_isLwp (h : p.IsLwp) :
    p.member = some (p.lwpid, decide (p.cont = .threadExited)) := if_pos h

lemma Proc.member_of_not (h : ¬ p.IsLwp) : p.member = none := if_neg h

lemma Proc.member_of_unused (h : ¬ p.Used) : p.member = none :=
  member_of_not fun hl => h hl.1

lemma Proc.member_eq_some {l : Nat} {e : Bool} (h : p.member = some (l, e)) :
    p.IsLwp ∧ p.lwpid = l ∧ decide (p.cont = .threadExited) = e := by
  by_cases hl : p.IsLwp
  · rw [member_of_isLwp hl] at h
    exact ⟨hl, Prod.mk.inj (Option.some.inj h)⟩
  · rw [member_of_not hl] at h
    cases h

lemma Keeps.member {a b : Proc} (h : Keeps a b) : b.member = a.member := by
  by_cases hl : a.IsLwp
  · have hs := h.2 hl.1
    rw [Proc.member_of_isLwp hl, Proc.member_of_isLwp (h.isLwp.mpr hl), hs.lwpid]
    simp [hs.ended]
  · rw [Proc.member_of_not hl, Proc.member_of_not fun hb => hl (h.isLwp.mp hb)]

/-- The ledger that the table and the books show. -/
def Counted.ledger (g : Counted) : Ledger ProcId where
  member q := (g.table.proc q).member
  next := g.table.nextlwpid
  count := g.table.numLwp
  inc := g.inc
  dec := g.dec

section

variable {g : Counted} {a : Act} {t : Table}

lemma ledger_skip (hnum : t.numLwp = g.table.numLwp) (hm : ∀ q, (t.proc q).member = (g.table.proc q).member) :
    (g.after a t).ledger = g.ledger.skip t.nextlwpid := by
  have hup : ∀ l, countsUp g.table t a l = 0 := by
    intro l
    unfold countsUp
    split <;> simp [hnum]
  have hdown : ∀ l, countsDown g.table t a l = 0 := by
    intro l
    unfold countsDown
    split <;> simp [hnum]
  simp [Counted.ledger, Counted.after, Ledger.skip, hm, hnum, hup, hdown]

lemma member_update_none {q : ProcId} {np : Proc} (hold : (g.table.proc q).member = none)
    (hnew : np.member = none) (r : ProcId) :
    (Function.update g.table.proc q np r).member = (g.table.proc r).member := by
  by_cases hr : r = q
  · rw [hr, update_self, hnew, hold]
  · rw [update_of_ne hr]

lemma child_member (s : Table) (p q : ProcId) : (s.child p q).member = none := by
  refine Proc.member_of_not fun h => ?_
  have hlwpid : 0 < (s.child p q).lwpid := h.2.1
  have hforked : (s.child p q).forked = false := h.2.2
  simp only [child] at hlwpid hforked
  split at hlwpid
  · rename_i hl
    simp [hl] at hforked
  · exact absurd hlwpid (Nat.lt_irrefl _)

lemma ledger_create {p q : ProcId} {stack : Bool} {avail i d sz : Nat} {pg : Pages}
    (hpos : 0 < g.table.nextlwpid) :
    (g.after (.threadCreate p stack avail)
      (g.table.withLwp q (g.table.lwp p q i sz .runnable) i d pg)).ledger = g.ledger.enter q := by
  have hnew : (g.table.lwp p q i sz .runnable).member = some (g.table.nextlwpid, false) :=
    Proc.member_of_isLwp ⟨by simp [Proc.Used, Table.lwp], hpos, rfl⟩
  simp only [Counted.ledger, Counted.after, Ledger.enter, Ledger.mk.injEq, withLwp]
  refine ⟨?_, trivial, trivial, ?_, ?_⟩
  · funext r
    by_cases hr : r = q
    · rw [hr, update_self, update_self, hnew]
    · rw [update_of_ne hr, update_of_ne hr]
  · funext l
    by_cases hl : l = g.table.nextlwpid
    · rw [hl, update_self]
      simp [countsUp]
    · rw [update_of_ne hl]
      simp [countsUp, hl]
  · funext l
    simp [countsDown]

variable {f : ProcId → Proc}

lemma ledger_threadExit {p : ProcId} {retval : Nat}
    (hp : (g.table.proc p).IsLwp) (hf : ∀ q, Kept (g.table.proc q) (f q)) :
    (g.after (.threadExit p retval)
      { g.table with
        proc := Function.update f p
          { f p with retval := retval, state := .zombie, cont := .threadExited }
        numLwp := g.table.numLwp - 1 }).ledger =
      g.ledger.leave p (g.table.proc p).lwpid := by
  have hfp : (f p).IsLwp := (hf p).keeps.isLwp.mpr hp
  have hid : (f p).lwpid = (g.table.proc p).lwpid := ((hf p).keeps.2 hp.1).lwpid
  simp only [Counted.ledger, Counted.after, Ledger.leave, Ledger.mk.injEq]
  refine ⟨?_, trivial, trivial, ?_, ?_⟩
  · funext r
    by_cases hr : r = p
    · rw [hr, update_self, update_self, Proc.member_of_isLwp]
      · simp [hid]
      · exact ⟨by simp [Proc.Used], hfp.2⟩
    · rw [update_of_ne hr, update_of_ne hr, (hf r).keeps.member]
  · funext l
    simp [countsUp]
  · funext l
    by_cases hl : l = (g.table.proc p).lwpid
    · rw [hl, update_self]
      simp [countsDown]
    · rw [update_of_ne hl]
      simp [countsDown, hl]

lemma ledger_exitScan {p : ProcId} {pg : Nat → Pages} (hz : ∀ q ∈ g.table.ownZombies p, ¬ (f q).Used)
    (hk : ∀ q ∉ g.table.ownZombies p, Keeps (g.table.proc q) (f q))
    (hl : ∀ q ∈ g.table.ownZombies p, (g.table.proc q).IsLwp) :
    (g.after (.exitScan p)
      { g.table with proc := f, numLwp := g.table.numLwp - (g.table.ownZombies p).card
                     pages := pg }).ledger = g.ledger.purge (g.table.ownZombies p) := by
  have hnum : ∀ q ∈ g.table.ownZombies p, g.ledger.num q = (g.table.proc q).lwpid := fun q hq =>
    Ledger.num_eq (Proc.member_of_isLwp (hl q hq))
  have hfilter : ∀ l, ((g.table.ownZombies p).filter fun q => (g.table.proc q).lwpid = l) =
      (g.table.ownZombies p).filter fun q => g.ledger.num q = l := fun l =>
    Finset.filter_congr fun q hq => by rw [hnum q hq]
  simp only [Counted.ledger, Counted.after, Ledger.purge, Ledger.mk.injEq]
  refine ⟨?_, trivial, trivial, ?_, ?_⟩
  · funext q
    by_cases hq : q ∈ g.table.ownZombies p
    · rw [if_pos hq, Proc.member_of_unused (hz q hq)]
    · rw [if_neg hq, (hk q hq).member]
  · funext l
    simp [countsUp]
  · funext l
    -- with nobody to reap the counter stays, and no number is discharged
    by_cases h0 : g.table.ownZombies p = ∅
    · simp [countsDown, h0]
    · have hne : ((g.table.ownZombies p).card : Int) ≠ 0 := by simpa using h0
      have : g.table.numLwp - (g.table.ownZombies p).card ≠ g.table.numLwp := by omega
      simp only [countsDown, this, ne_eq, not_false_eq_true, if_true, hfilter]
      rfl

lemma ledger_join {p q : ProcId} {thread : Nat} {pg : Nat → Pages}
    {u : Nat → Bool} (hq : ¬ (f q).Used) (hf : ∀ r ≠ q, Kept (g.table.proc r) (f r)) :
    (g.after (.threadJoin p thread) { g.table with proc := f, use := u, pages := pg }).ledger =
      g.ledger.drop q := by
  simp only [Counted.ledger, Counted.after, Ledger.drop, Ledger.mk.injEq]
  refine ⟨?_, trivial, trivial, ?_, ?_⟩
  · funext r
    by_cases hr : r = q
    · rw [hr, update_self, Proc.member_of_unused hq]
    · rw [update_of_ne hr, (hf r hr).keeps.member]
  · funext l
    simp [countsUp]
  · funext l
    simp [countsDown]

end

/-- The invariant: the books are in order. -/
structure CountInv (g : Counted) : Prop where
  ids : Ids g.table
  ok : g.ledger.Ok

namespace CountInv

variable {g : Counted} {a : Act} {t : Table}

lemma isLwp_of_own (hi : CountInv g) {p q : ProcId} (hp : (g.table.proc p).Used)
    (hq : g.table.OwnZombie (g.table.proc p).pid q) : (g.table.proc q).IsLwp := by
  refine hi.ids.lwp (used_of_zombie hq.2) ?_
  rw [hq.1]
  exact (hi.ids.pid_pos hp).ne'

lemma ledger_step (hi : CountInv g) (hc : CountedOnce g.table a) (h : g.table.step a = some t) :
    (g.after a t).ledger.Ok := by
  have skip : ∀ {t : Table}, t.numLwp = g.table.numLwp → g.table.nextlwpid ≤ t.nextlwpid →
      (∀ q, (t.proc q).member = (g.table.proc q).member) → (g.after a t).ledger.Ok := by
    intro t hnum hn hm
    rw [ledger_skip hnum hm]
    exact hi.ok.skip hn
  cases step_effect h with
  | quiet _ hq => exact skip hq.numLwp hq.nextlwpid fun q => (hq.kept q).keeps.member
  | stop _ msg _ | grow hp hn ho hd => exact skip rfl le_rfl fun _ => rfl
  | @fork p q d hp hq hd =>
    refine skip rfl ?_ (member_update_none (Proc.member_of_unused hq) (child_member _ p q))
    show g.table.nextlwpid ≤
      if 0 < (g.table.proc p).lwpid then g.table.nextlwpid + 1 else g.table.nextlwpid
    split <;> omega
  | @exec p d sz hp hd =>
    refine skip rfl le_rfl fun r => ?_
    by_cases hr : r = p
    · rw [hr]
      simp only [update_self]
      rfl
    · simp only [update_of_ne hr]
  | @create p q stack avail i d sz pg hp hq hd =>
    rw [ledger_create hi.ids.nextlwpid_pos]
    exact hi.ok.enter (Proc.member_of_unused hq)
  | @createFail p q stack avail i d pg hp hq hd hfree hpg =>
    -- there is memory for the two pages of the stack
    refine absurd hpg (allocuvm_ne_failed (hc.2 i hfree) ?_)
    rw [pgUp_add_pages]
    have := hc.1
    omega
  | @threadExit p retval f hp hf =>
    rw [ledger_threadExit hc hf]
    refine hi.ok.leave ?_
    show (g.table.proc p).member = _
    rw [Proc.member_of_isLwp hc]
    simp [hp.1.2]
  | @exitScan p f pg hp hz hk hkp =>
    have hlwp : ∀ q ∈ g.table.ownZombies p, (g.table.proc q).IsLwp := fun q hq =>
      hi.isLwp_of_own (used_of_stands hp) (mem_ownZombies.mp hq)
    rw [ledger_exitScan hz (fun q hq => ?_) hlwp]
    · refine hi.ok.purge fun q hq => ⟨(g.table.proc q).lwpid, ?_⟩
      show (g.table.proc q).member = _
      rw [Proc.member_of_isLwp (hlwp q hq)]
      simp [hc q hq]
    · by_cases hqp : q = p
      · rw [hqp]
        exact hkp
      · exact (hk q hq hqp).keeps
  | @wait p q d f hfind hz hd hq hf =>
    refine skip rfl le_rfl fun r => ?_
    by_cases hr : r = q
    · rw [hr, Proc.member_of_not (hc q hfind)]
      exact Proc.member_of_unused hq
    · exact (hf r hr).keeps.member
  | @join p q thread f pg hp hfind hl hown hq hf =>
    rw [ledger_join hq hf]
    refine hi.ok.drop (l := (g.table.proc q).lwpid) ?_
    show (g.table.proc q).member = _
    rw [Proc.member_of_isLwp (hi.isLwp_of_own hp hown)]
    simp [hc q hfind]

lemma step {g' : Counted} (hi : CountInv g) (hc : CountedOnce g.table a)
    (h : g.step a = some g') : CountInv g' := by
  obtain ⟨t, ht, rfl⟩ := Option.map_eq_some_iff.mp h
  exact ⟨hi.ids.step ht, hi.ledger_step hc ht⟩

lemma boot : CountInv Counted.boot := by
  have hnone : ∀ q, (Table.boot.proc q).member = none := by
    intro q
    refine Proc.member_of_not fun h => absurd h.2.1 ?_
    by_cases hq : q = initproc <;> simp [Table.boot, hq, Proc.zero]
  refine ⟨Ids.boot, ?_⟩
  refine ⟨fun {q l e} hq => ?_, fun {q r l e e'} hq => ?_, fun _ => rfl, fun _ => zero_le,
    fun _ _ => rfl, ?_⟩
  · exact absurd ((hnone q).symm.trans hq) (by simp)
  · exact absurd ((hnone q).symm.trans hq) (by simp)
  · simp [Counted.ledger, Counted.boot, Table.boot, Ledger.owed]

end CountInv

lemma countInv_run {as : List Act} {g : Counted}
    (h : Run Counted.step (fun g a => CountedOnce g.table a) Counted.boot as g) : CountInv g :=
  h.inv CountInv.boot fun _ _ _ hi hc hs => hi.step hc hs

/-- A run of the table is a run with books. -/
lemma counted_of_run {C : Table → Act → Prop} {as : List Act} {s : Table}
    (h : Run Table.step C Table.boot as s) :
    ∃ g, Run Counted.step (fun g a => C g.table a) Counted.boot as g ∧ g.table = s := by
  refine h.lift Counted.table (fun g a t ht => ?_) rfl
  exact ⟨g.after a t, by rw [Counted.step, ht, Option.map_some], rfl⟩

/-- In every run in which each LWP is counted down in one way and no step falls between the parts of a
`fork` or `thread_create`, `num_lwp` is never negative. When nobody is inside these calls, the books of
the calls made show: an LWP was counted up once; no LWP number is counted up or down more than once, or
down without having been counted up; the number of an LWP that is no longer there was counted down as it
was counted up; `num_lwp` is the sum of the entries, and is zero once every LWP has been reclaimed. -/
theorem lwps_counted_once {as : List Part} {k : Kernel}
    (h : Run Kernel.step (Kernel.Undivided CountedOnce) Kernel.boot as k) :
    0 ≤ k.table.numLwp ∧
    (k.Outside → ∃ g, Run Counted.step (fun g a => CountedOnce g.table a) Counted.boot (wholeCalls as) g ∧
      g.table = k.table ∧
      (∀ q, (g.table.proc q).IsLwp → g.inc (g.table.proc q).lwpid = 1) ∧
      (∀ l, g.inc l ≤ 1 ∧ g.dec l ≤ g.inc l) ∧
      (∀ l, (∀ q, (g.table.proc q).IsLwp → (g.table.proc q).lwpid ≠ l) → g.dec l = g.inc l) ∧
      g.table.numLwp = ∑ l ∈ Finset.range g.table.nextlwpid, ((g.inc l : Int) - g.dec l) ∧
      ((∀ q, ¬ (g.table.proc q).IsLwp) → g.table.numLwp = 0)) := by
  obtain ⟨bs, s, hrun, hk⟩ := reduces h
  obtain ⟨g, hg, rfl⟩ := counted_of_run hrun
  have hok := (countInv_run hg).ok
  have hpos : 0 ≤ g.table.numLwp := hok.count_nonneg
  rcases hk with ⟨-, htable, rfl⟩ | ⟨p, q, a, hin, -⟩
  · refine ⟨htable ▸ hpos, fun _ => ⟨g, hg, htable.symm, fun q hq => ?_, fun l =>
      ⟨hok.inc_le l, hok.dec_le l⟩, fun l hl => ?_, hok.count, fun hnone => ?_⟩⟩
    · exact (hok.member (Proc.member_of_isLwp hq)).2.1
    · refine hok.settled fun q e hq => ?_
      obtain ⟨hlwp, hid, -⟩ := Proc.member_eq_some hq
      exact hl q hlwp hid
    · refine hok.count_eq_zero.mpr fun q l hq => ?_
      exact hnone q (Proc.member_eq_some hq).1
  · exact ⟨hpos.trans hin.within.numLwp, fun hout => absurd (hout p) hin.mid.ne_outside⟩

/-- Two LWPs: the first ends in `thread_exit` and is joined, the second ends in `exit` and is reaped
by the `exit` of the manager. -/
def bothEnds : List Act :=
  [.sched 0 .running, .fork 0 .enough, .sched 1 .running, .threadCreate 1 true 9,
   .threadCreate 1 true 9, .sched 2 .running, .threadExit 2 0, .threadJoin 1 1,
   .sched 3 .running, .exit 3, .exitEnd 3, .exit 1, .exitScan 1]

theorem lwps_counted_once_bothEnds :
    ∃ k, Run Kernel.step (Kernel.Undivided CountedOnce) Kernel.boot (bothEnds.flatMap Act.parts) k ∧
      k.Outside ∧ (∀ q, ¬ (k.table.proc q).IsLwp) ∧ k.table.nextlwpid = 3 ∧ k.table.numLwp = 0 := by
  obtain ⟨k, hrun, hout, hnone, hnext⟩ := run_of_check Kernel.step (Kernel.Undivided CountedOnce)
    Kernel.boot (bothEnds.flatMap Act.parts)
    (fun k => k.Outside ∧ (∀ q, ¬ (k.table.proc q).IsLwp) ∧ k.table.nextlwpid = 3) (by decide +kernel)
  obtain ⟨g, -, htable, -, -, -, -, hzero⟩ := (lwps_counted_once hrun).2 hout
  rw [htable] at hzero
  exact ⟨k, hrun, hout, hnone, hnext, hzero hnone⟩

/-- The LWP ends in `thread_exit`, then its manager exits without having joined it. -/
def exitUnjoined : List Act :=
  [.sched 0 .running, .fork 0 .enough, .sched 1 .running, .threadCreate 1 true 9,
   .sched 2 .running, .threadExit 2 0, .exit 1, .exitScan 1]

/-- The LWP ends in `exit` while its manager waits for it in `thread_join`. -/
def joinExited : List Act :=
  [.sched 0 .running, .fork 0 .enough, .sched 1 .running, .threadCreate 1 true 9,
   .threadJoin 1 1, .sched 2 .running, .exit 2, .exitEnd 2, .sched 1 .running, .threadJoin 1 1]

/-- In the first run the one LWP is counted down twice, and `num_lwp` is `-1`; in the second it is
never counted down, and `num_lwp` is `1` when every LWP has been reclaimed. -/
theorem lwp_counted_twice_or_never :
    (∃ g, Run Counted.step anyStep Counted.boot exitUnjoined g ∧
      g.inc 1 = 1 ∧ g.dec 1 = 2 ∧ g.table.numLwp = -1) ∧
    ∃ g, Run Counted.step anyStep Counted.boot joinExited g ∧
      (∀ q, ¬ (g.table.proc q).IsLwp) ∧ g.inc 1 = 1 ∧ g.dec 1 = 0 ∧ g.table.numLwp = 1 :=
  ⟨run_of_check _ _ _ _ _ (by decide +kernel), run_of_check _ _ _ _ _ (by decide +kernel)⟩

end Xv6.Process
