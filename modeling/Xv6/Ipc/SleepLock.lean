import Xv6.Lib.Run

/-!
# Sleep locks (`sleeplock.c`)

The steps are the parts of `acquiresleep` and `releasesleep` under the spin lock `lk->lk`. A process that
finds the lock taken gives `lk->lk` up by going to sleep; `wakeup` and `kill` let it test `lk->locked` again.
`brelse` and `iunlock`, which call `releasesleep`, panic where `holdingsleep` is false, so that only a process
that has the lock comes to it.
-/

namespace Xv6.Ipc

open Lib
open Function (update update_self update_of_ne)

/-- Where a process is with respect to a sleep lock. -/
inductive LockPlace
  | outside
  /-- in `acquiresleep`, before the test of `lk->locked` -/
  | testing
  /-- in `acquiresleep`, asleep -/
  | asleep
  /-- behind `acquiresleep` -/
  | holds
  deriving DecidableEq

/-- `struct sleeplock`, and the processes that use it. -/
structure SleepLock (Proc : Type) where
  locked : Bool
  pid : Nat
  place : Proc → LockPlace

inductive LockAct
  | acquiresleep
  | test
  | releasesleep
  | kill

namespace SleepLock

variable {Proc : Type} [DecidableEq Proc]

/-- `initsleeplock` -/
def init : SleepLock Proc := ⟨false, 0, fun _ => .outside⟩

/-- One step of a process; `pid` is `p->pid`. -/
def step (pid : Proc → Nat) (s : SleepLock Proc) (a : Proc × LockAct) : Option (SleepLock Proc) :=
  match a.2, s.place a.1 with
  | .acquiresleep, .outside => some { s with place := update s.place a.1 .testing }
  | .test, .testing =>
    if s.locked then some { s with place := update s.place a.1 .asleep }
    else some ⟨true, pid a.1, update s.place a.1 .holds⟩
  | .releasesleep, .holds =>
    -- `wakeup(lk)`
    some ⟨false, 0, fun q => if q = a.1 then .outside
      else if s.place q = .asleep then .testing else s.place q⟩
  | .kill, .asleep => some { s with place := update s.place a.1 .testing }
  | _, _ => none

def holdingsleep (pid : Proc → Nat) (s : SleepLock Proc) (p : Proc) : Bool :=
  s.locked && s.pid == pid p

/-- The lock is taken while a process has it, which is the one that it names, and while one sleeps. -/
structure Ok (pid : Proc → Nat) (s : SleepLock Proc) : Prop where
  locked : s.locked ↔ ∃ p, s.place p = .holds
  holder : ∀ p, s.place p = .holds → s.pid = pid p
  asleep : ∀ p, s.place p = .asleep → s.locked

variable {pid : Proc → Nat} {s t : SleepLock Proc} {a : Proc × LockAct}

/-- A process that does not have the lock goes on without it. -/
lemma Ok.move (h : s.Ok pid) {p : Proc} {x : LockPlace} (hp : s.place p ≠ .holds) (hx : x ≠ .holds)
    (hasleep : x = .asleep → s.locked) : Ok pid { s with place := update s.place p x } := by
  have hsame : ∀ q, update s.place p x q = .holds ↔ s.place q = .holds := fun q => by
    by_cases hq : q = p
    · simp [hq, hp, hx]
    · rw [update_of_ne hq]
  refine ⟨by simp only [hsame, h.locked], fun q hq => h.holder q ((hsame q).mp hq), fun q hq => ?_⟩
  by_cases hqp : q = p
  · subst hqp
    exact hasleep (update_self q x s.place ▸ hq)
  · exact h.asleep q (update_of_ne hqp x s.place ▸ hq)

lemma Ok.take (h : s.Ok pid) (p : Proc) (hfree : s.locked = false) :
    Ok pid ⟨true, pid p, update s.place p .holds⟩ := by
  refine ⟨⟨fun _ => ⟨p, update_self ..⟩, fun _ => rfl⟩, fun q hq => ?_, fun _ _ => rfl⟩
  by_cases hqp : q = p
  · rw [hqp]
  · have hlocked := h.locked.mpr ⟨q, update_of_ne hqp .holds s.place ▸ hq⟩
    rw [hfree] at hlocked
    cases hlocked

/-- Only one process has the lock, so nobody has it when that one has released it. -/
lemma Ok.give (hpid : pid.Injective) (h : s.Ok pid) {p : Proc} (hp : s.place p = .holds) :
    Ok pid ⟨false, 0, fun q => if q = p then .outside
      else if s.place q = .asleep then .testing else s.place q⟩ := by
  have hnone : ∀ q, q ≠ p → s.place q ≠ .holds := fun q hqp hq =>
    hqp (hpid ((h.holder q hq).symm.trans (h.holder p hp)))
  constructor <;> grind

lemma Ok.step (hpid : pid.Injective) (h : s.Ok pid) (hs : s.step pid a = some t) : t.Ok pid := by
  obtain ⟨p, a⟩ := a
  cases a with
  | acquiresleep | kill =>
    cases hp : s.place p <;> simp only [SleepLock.step, hp, reduceCtorEq] at hs
    cases hs
    exact h.move (by simp [hp]) (by decide) (by simp)
  | test =>
    cases hp : s.place p <;> simp only [SleepLock.step, hp, reduceCtorEq] at hs
    cases hl : s.locked <;> simp only [hl, if_true, Bool.false_eq_true, if_false] at hs <;> cases hs
    · exact h.take p hl
    · exact hl ▸ h.move (by simp [hp]) (by decide) fun _ => hl
  | releasesleep =>
    cases hp : s.place p <;> simp only [SleepLock.step, hp, reduceCtorEq] at hs
    cases hs
    exact h.give hpid hp

/-- **A sleep lock excludes.** However the calls interleave, at most one process is behind `acquiresleep`,
`holdingsleep` tells whether it is the caller, and nobody sleeps while the lock is free. -/
theorem sleeplock_excludes {as : List (Proc × LockAct)} (hpid : pid.Injective)
    (hrun : Run (SleepLock.step pid) anyStep init as s) :
    (∀ p q, s.place p = .holds → s.place q = .holds → p = q) ∧
      (∀ p, s.holdingsleep pid p ↔ s.place p = .holds) ∧
      (s.locked = false → ∀ p, s.place p ≠ .asleep) := by
  have h : s.Ok pid := hrun.inv ⟨by simp [init], by simp [init], by simp [init]⟩
    fun _ _ _ h _ hs => h.step hpid hs
  refine ⟨fun p q hp hq => hpid ((h.holder p hp).symm.trans (h.holder q hq)), fun p => ?_,
    fun hfree p hp => ?_⟩
  · rw [holdingsleep, Bool.and_eq_true, beq_iff_eq]
    refine ⟨fun ⟨hl, hp⟩ => ?_, fun hp => ⟨h.locked.mpr ⟨p, hp⟩, h.holder p hp⟩⟩
    obtain ⟨q, hq⟩ := h.locked.mp hl
    rwa [← hpid ((h.holder q hq).symm.trans hp)]
  · rw [h.asleep p hp] at hfree
    cases hfree

theorem sleeplock_excludes_two : ∃ s : SleepLock (Fin 2), Run (SleepLock.step Fin.val) anyStep init
      [(0, .acquiresleep), (0, .test), (1, .acquiresleep), (1, .test)] s ∧
    s.place 1 = .asleep ∧ s.holdingsleep Fin.val 0 ∧ s.locked := by
  obtain ⟨s, hrun, h0, h1⟩ := run_of_check (SleepLock.step Fin.val) anyStep init
    [((0 : Fin 2), .acquiresleep), (0, .test), (1, .acquiresleep), (1, .test)]
    (fun s => s.place 0 = .holds ∧ s.place 1 = .asleep) (by decide)
  obtain ⟨-, hholding, hfree⟩ := sleeplock_excludes Fin.val_injective hrun
  exact ⟨s, hrun, h1, (hholding 0).mpr h0, Bool.eq_true_of_not_eq_false fun hf => hfree hf 1 h1⟩

end SleepLock

end Xv6.Ipc
