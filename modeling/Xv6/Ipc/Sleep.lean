import Xv6.Lib.Run

/-!
# `sleep` and `wakeup` (`proc.c`)

Processes wait for conditions. A condition belongs to a channel, and each channel has a lock: the lock of
a pipe for `&p->nread` and `&p->nwrite`, `lk->lk` for a sleep lock, `ptable.lock` itself for the channels
of `wait`. A process tests the condition under the lock and, where it is false, calls `sleep(chan, lk)`;
a process that changes the condition does so under the lock, and calls `wakeup(chan)`.

Every step is between two operations on locks. `sleep` takes `ptable.lock`, then releases `lk`, then marks
the process as `SLEEPING` and gives the processor away, by which `ptable.lock` is released; a process that
is scheduled again has `ptable.lock`, releases it and takes `lk`. Where `lk` is `ptable.lock` there is no
hand-over. `wakeup` takes `ptable.lock`, goes over the table (`wakeup1`) and releases it; a process that
has `ptable.lock` calls `wakeup1` itself.

The clock counts steps. It is there to say when a condition has been tested and changed and when a wakeup
has been issued.
-/

namespace Xv6.Ipc

open Function (update update_self update_of_ne update_apply)
open Lib

/-- `p->state`, of those that matter here. -/
inductive RunState
  | running
  | runnable
  | sleeping
  deriving DecidableEq

/-- A call of `wakeup`. -/
structure Wakeup (Chan : Type) where
  chan : Chan
  /-- when it was called -/
  issued : Nat
  /-- when the process that calls it last changed the condition -/
  changed : Nat
  /-- it is called under the lock of the channel -/
  underLock : Bool
  /-- the condition is true when it is called -/
  holds : Bool
  deriving DecidableEq

/-- The wakeup is older than time `x`, at which the condition has been tested. Of a wakeup that is called
without the lock, when the condition has been made false again, only the change need be. -/
def Wakeup.Before {Chan : Type} (w : Wakeup Chan) (x : Nat) : Prop :=
  (w.underLock = true ∨ w.holds = true → w.issued ≤ x) ∧ w.changed ≤ x

/-- Where a process is. -/
inductive Place (Chan Lock : Type)
  /-- it holds none of the locks -/
  | outside
  /-- it holds the lock, in code of its own -/
  | inside (l : Lock)
  /-- in `wakeup`, before `acquire(&ptable.lock)`; `back` is the lock it holds -/
  | waking (w : Wakeup Chan) (back : Option Lock)
  /-- in `wakeup`, after `wakeup1` -/
  | woke (w : Wakeup Chan) (back : Option Lock)
  /-- in `sleep`, before `acquire(&ptable.lock)` -/
  | sleepAcquire (c : Chan)
  /-- in `sleep`, before `release(lk)` -/
  | sleepRelease (c : Chan)
  /-- in `sleep`, before it goes to sleep -/
  | sleepSched (c : Chan)
  /-- in `sched` -/
  | asleep (c : Chan)
  /-- in `sleep`, before `release(&ptable.lock)` -/
  | wakeRelease (c : Chan)
  /-- in `sleep`, before `acquire(lk)` -/
  | wakeAcquire (c : Chan)
  deriving DecidableEq

/-- The locks that a process holds where it is. -/
def Place.Holds {Chan Lock : Type} (ptable : Lock) (lockOf : Chan → Lock) (l : Lock) :
    Place Chan Lock → Prop
  | .outside | .asleep _ | .wakeAcquire _ => False
  | .inside m => l = m
  | .waking _ back => back = some l
  | .woke _ back => back = some l ∨ l = ptable
  | .sleepAcquire c => l = lockOf c
  | .sleepRelease c => l = lockOf c ∨ l = ptable
  | .sleepSched _ | .wakeRelease _ => l = ptable

/-- The lock that a process holds in its own code, where it is not `sleep` that has given it up. -/
def Place.lock {Chan Lock : Type} (lockOf : Chan → Lock) : Place Chan Lock → Option Lock
  | .inside m => some m
  | .waking _ back | .woke _ back => back
  | .sleepAcquire c | .sleepRelease c => some (lockOf c)
  | _ => none

lemma Place.Holds.of_lock {Chan Lock : Type} {ptable : Lock} {lockOf : Chan → Lock} {l : Lock} :
    ∀ {x : Place Chan Lock}, x.lock lockOf = some l → x.Holds ptable lockOf l
  | .inside _, h => (Option.some.inj h).symm
  | .waking _ _, h => h
  | .woke _ _, h => .inl h
  | .sleepAcquire _, h => (Option.some.inj h).symm
  | .sleepRelease _, h => .inl (Option.some.inj h).symm

/-- A lock is handed over only to another one. -/
def Place.TwoLocks {Chan Lock : Type} (ptable : Lock) (lockOf : Chan → Lock) :
    Place Chan Lock → Prop
  | .waking _ back | .woke _ back => back ≠ some ptable
  | .sleepAcquire c | .sleepRelease c | .wakeRelease c | .wakeAcquire c => lockOf c ≠ ptable
  | _ => True

/-- The call of `wakeup` in which a process is. -/
def Place.wakeup {Chan Lock : Type} : Place Chan Lock → Option (Wakeup Chan × Option Lock)
  | .waking w back | .woke w back => some (w, back)
  | _ => none

/-- The channel of the call of `sleep` in which a process is, up to where it sleeps. -/
def Place.sleep {Chan Lock : Type} : Place Chan Lock → Option Chan
  | .sleepAcquire c | .sleepRelease c | .sleepSched c => some c
  | _ => none

lemma Place.wakeup_eq_none {Chan Lock : Type} {c : Chan} :
    ∀ {x : Place Chan Lock}, x.sleep = some c → x.wakeup = none
  | .sleepAcquire _, _ | .sleepRelease _, _ | .sleepSched _, _ => rfl

structure SleepState (Proc Chan Lock : Type) where
  clock : Nat
  holder : Lock → Option Proc
  cond : Chan → Bool
  place : Proc → Place Chan Lock
  state : Proc → RunState
  chan : Proc → Option Chan
  /-- the channel whose condition the process has found false, under the lock that it still holds -/
  tested : Proc → Option Chan
  lastTest : Proc → Nat
  lastChange : Proc → Chan → Nat
  /-- the calls of `wakeup` that have returned -/
  done : List (Wakeup Chan)

/-- What processes do. -/
inductive SleepAct (Chan Lock : Type)
  | acquire (l : Lock)
  | test (c : Chan)
  | change (c : Chan) (b : Bool)
  | wakeup (c : Chan)
  | sleep (c : Chan)
  | release
  /-- go on in `sleep` or `wakeup` -/
  | go
  /-- be scheduled, after having slept -/
  | resume
  | kill
  deriving DecidableEq

namespace SleepState

section

variable {Proc Chan Lock : Type} [DecidableEq Proc] [DecidableEq Chan] [DecidableEq Lock]

/-- No lock is held, and nobody sleeps. -/
def init (cond : Chan → Bool) : SleepState Proc Chan Lock where
  clock := 0
  holder _ := none
  cond := cond
  place _ := .outside
  state _ := .running
  chan _ := none
  tested _ := none
  lastTest _ := 0
  lastChange _ _ := 0
  done := []

def setHolder (s : SleepState Proc Chan Lock) (l : Lock) (h : Option Proc) : SleepState Proc Chan Lock :=
  { s with holder := Function.update s.holder l h }

def setPlace (s : SleepState Proc Chan Lock) (p : Proc) (x : Place Chan Lock) :
    SleepState Proc Chan Lock :=
  { s with place := Function.update s.place p x }

def setTested (s : SleepState Proc Chan Lock) (p : Proc) (c : Option Chan) : SleepState Proc Chan Lock :=
  { s with tested := Function.update s.tested p c }

/-- `wakeup1` -/
def wakeup1 (s : SleepState Proc Chan Lock) (c : Chan) : SleepState Proc Chan Lock :=
  { s with state := fun q =>
      if s.state q = .sleeping ∧ s.chan q = some c then .runnable else s.state q }

/-- The call of `wakeup(c)` that process `p` makes now, with the lock `back`. -/
def wakeupOf (lockOf : Chan → Lock) (s : SleepState Proc Chan Lock) (p : Proc) (c : Chan)
    (back : Option Lock) : Wakeup Chan :=
  ⟨c, s.clock + 1, s.lastChange p c, decide (back = some (lockOf c)), s.cond c⟩

/-- What a process has tested is void when it changes the condition or wakes the channel itself. -/
def forget (s : SleepState Proc Chan Lock) (p : Proc) (c : Chan) : SleepState Proc Chan Lock :=
  s.setTested p (if s.tested p = some c then none else s.tested p)

/-- One step of process `p`, without the clock. -/
def move (ptable : Lock) (lockOf : Chan → Lock) (s : SleepState Proc Chan Lock) (p : Proc) :
    SleepAct Chan Lock → Option (SleepState Proc Chan Lock)
  | .acquire l =>
    if s.place p = .outside ∧ s.holder l = none then
      some ((s.setHolder l (some p)).setPlace p (.inside l))
    else none
  | .test c =>
    if s.place p = .inside (lockOf c) then
      some { s.setTested p (if s.cond c = true then none else some c) with
        lastTest := Function.update s.lastTest p (s.clock + 1) }
    else none
  | .change c b =>
    if s.place p = .inside (lockOf c) then
      some { s.forget p c with
        cond := Function.update s.cond c b
        lastChange := Function.update s.lastChange p
          (Function.update (s.lastChange p) c (s.clock + 1)) }
    else none
  | .wakeup c =>
    match s.place p with
    | .outside => some (s.setPlace p (.waking (wakeupOf lockOf s p c none) none))
    | .inside l =>
      let s' := s.forget p c
      if l = ptable then some { s'.wakeup1 c with done := wakeupOf lockOf s p c (some l) :: s.done }
      else some (s'.setPlace p (.waking (wakeupOf lockOf s p c (some l)) (some l)))
    | _ => none
  | .sleep c =>
    if s.place p = .inside (lockOf c) ∧ s.tested p = some c then
      if lockOf c = ptable then some (s.setPlace p (.sleepSched c))
      else some (s.setPlace p (.sleepAcquire c))
    else none
  | .release =>
    match s.place p with
    | .inside l => some (((s.setHolder l none).setPlace p .outside).setTested p none)
    | _ => none
  | .go =>
    match s.place p with
    | .waking w back =>
      if s.holder ptable = none then
        some (((s.setHolder ptable (some p)).wakeup1 w.chan).setPlace p (.woke w back))
      else none
    | .woke w back =>
      some { (s.setHolder ptable none).setPlace p (back.elim .outside .inside) with
        done := w :: s.done }
    | .sleepAcquire c =>
      if s.holder ptable = none then
        some ((s.setHolder ptable (some p)).setPlace p (.sleepRelease c))
      else none
    | .sleepRelease c => some ((s.setHolder (lockOf c) none).setPlace p (.sleepSched c))
    | .sleepSched c =>
      some { (s.setHolder ptable none).setPlace p (.asleep c) with
        state := Function.update s.state p .sleeping
        chan := Function.update s.chan p (some c)
        tested := Function.update s.tested p none }
    | .wakeRelease c => some ((s.setHolder ptable none).setPlace p (.wakeAcquire c))
    | .wakeAcquire c =>
      if s.holder (lockOf c) = none then
        some ((s.setHolder (lockOf c) (some p)).setPlace p (.inside (lockOf c)))
      else none
    | _ => none
  | .resume =>
    match s.place p with
    | .asleep c =>
      if s.state p = .runnable ∧ s.holder ptable = none then
        some { (s.setHolder ptable (some p)).setPlace p
            (if lockOf c = ptable then .inside ptable else .wakeRelease c) with
          state := Function.update s.state p .running
          chan := Function.update s.chan p none }
      else none
    | _ => none
  | .kill =>
    if s.holder ptable = none ∧ s.state p = .sleeping then
      some { s with state := Function.update s.state p .runnable }
    else none

/-- One step. -/
def step (ptable : Lock) (lockOf : Chan → Lock) (s : SleepState Proc Chan Lock)
    (a : Proc × SleepAct Chan Lock) : Option (SleepState Proc Chan Lock) :=
  (s.move ptable lockOf a.1 a.2).map fun t => { t with clock := s.clock + 1 }

end

/-! ### The invariant -/

section

variable {Proc Chan Lock : Type}

/-- The process sleeps on the channel. -/
def SleepsOn (s : SleepState Proc Chan Lock) (p : Proc) (c : Chan) : Prop :=
  s.state p = .sleeping ∧ s.chan p = some c

instance [DecidableEq Chan] (s : SleepState Proc Chan Lock) (p : Proc) (c : Chan) :
    Decidable (s.SleepsOn p c) :=
  inferInstanceAs (Decidable (_ ∧ _))

/-- Locks are held where they have been taken. -/
structure Locked (ptable : Lock) (lockOf : Chan → Lock) (s : SleepState Proc Chan Lock) : Prop where
  holds : ∀ l p, s.holder l = some p ↔ (s.place p).Holds ptable lockOf l
  two : ∀ p, (s.place p).TwoLocks ptable lockOf

/-- The process has found the condition false and still has the lock. -/
def Tests (lockOf : Chan → Lock) (s : SleepState Proc Chan Lock) (p : Proc) (c : Chan) : Prop :=
  s.tested p = some c ∧ (s.place p).lock lockOf = some (lockOf c)

/-- A call of `wakeup` that process `p` is in, with the lock `back`. -/
structure Calls (lockOf : Chan → Lock) (s : SleepState Proc Chan Lock) (p : Proc) (w : Wakeup Chan)
    (back : Option Lock) : Prop where
  changed : w.changed ≤ s.lastChange p w.chan
  lock : w.underLock = true → back = some (lockOf w.chan)
  tested : s.tested p ≠ some w.chan
  issued : w.issued ≤ s.clock
  /-- where the condition was true, nobody has found it false since but later -/
  late : w.holds = true → ∀ q, s.Tests lockOf q w.chan → w.issued ≤ s.lastTest q

/-- No wakeup has been missed. -/
structure Awake (ptable : Lock) (lockOf : Chan → Lock) (s : SleepState Proc Chan Lock) : Prop
    extends Locked ptable lockOf s where
  /-- from the test to where it sleeps, a process has the lock of the channel or `ptable.lock` -/
  tested : ∀ p c, s.tested p = some c →
    s.place p = .sleepSched c ∨ (s.place p).lock lockOf = some (lockOf c)
  sleep : ∀ p c, (s.place p).sleep = some c → s.tested p = some c
  asleep : ∀ p, s.state p = .sleeping → ∃ c, s.place p = .asleep c
  calls : ∀ p w back, (s.place p).wakeup = some (w, back) → Calls lockOf s p w back
  /-- after `wakeup1`, until `ptable.lock` is released, nobody sleeps on the channel -/
  woke : ∀ p q w back, s.place q = .woke w back → ¬ s.SleepsOn p w.chan
  /-- the condition does not change while the process that has tested it has the lock -/
  unchanged : ∀ p c, s.Tests lockOf p c → s.cond c = false ∧ ∀ q, s.lastChange q c ≤ s.lastTest p
  before : ∀ p c, s.tested p = some c ∨ s.SleepsOn p c → ∀ w ∈ s.done, w.chan = c →
    w.Before (s.lastTest p)
  lastChange_le : ∀ q c, s.lastChange q c ≤ s.clock
  done_le : ∀ w ∈ s.done, w.issued ≤ s.clock ∧ w.changed ≤ s.clock

variable {ptable : Lock} {lockOf : Chan → Lock} {s : SleepState Proc Chan Lock} {p : Proc}

lemma init_awake (cond : Chan → Bool) : Awake ptable lockOf (init cond : SleepState Proc Chan Lock) := by
  constructor
  · constructor <;> simp [init, Place.Holds, Place.TwoLocks]
  all_goals simp [init, Place.sleep, Place.wakeup, SleepsOn, Tests]

lemma Awake.not_sleeping (h : Awake ptable lockOf s) (hp : ∀ c, s.place p ≠ .asleep c) :
    s.state p ≠ .sleeping := fun hs => by
  obtain ⟨c, hc⟩ := h.asleep p hs
  exact hp c hc

lemma Awake.untested (h : Awake ptable lockOf s) (hplace : ∀ c, s.place p ≠ .sleepSched c)
    (hlock : (s.place p).lock lockOf = none) : s.tested p = none := by
  cases htested : s.tested p with
  | none => rfl
  | some c =>
    obtain hc | hc := h.tested p c htested
    · exact absurd hc (hplace c)
    · cases hlock.symm.trans hc

/-- A call of `wakeup` that is made now. A process that has found the condition false and still has the
lock is not there if the condition is true. -/
lemma Awake.calls_now [DecidableEq Lock] (h : Awake ptable lockOf s) {c : Chan}
    (back : Option Lock) (htested : s.tested p ≠ some c) :
    Calls lockOf s p ⟨c, s.clock, s.lastChange p c, decide (back = some (lockOf c)), s.cond c⟩ back where
  changed := le_rfl
  lock := of_decide_eq_true
  tested := htested
  issued := le_rfl
  late hholds q hq := by
    have hfalse := (h.unchanged q c hq).1
    rw [hfalse] at hholds
    cases hholds

lemma Locked.exclusive (h : Locked ptable lockOf s) {l : Lock} {q : Proc}
    (hp : (s.place p).Holds ptable lockOf l) (hq : (s.place q).Holds ptable lockOf l) : p = q := by
  have hpq := (h.holds l p).mpr hp
  rw [(h.holds l q).mpr hq, Option.some.injEq] at hpq
  exact hpq.symm

lemma Awake.tick (h : Awake ptable lockOf s) : Awake ptable lockOf { s with clock := s.clock + 1 } where
  holds := h.holds
  two := h.two
  tested := h.tested
  sleep := h.sleep
  asleep := h.asleep
  calls q w back hq :=
    have hw := h.calls q w back hq
    ⟨hw.changed, hw.lock, hw.tested, Nat.le_succ_of_le hw.issued, hw.late⟩
  woke := h.woke
  unchanged := h.unchanged
  before := h.before
  lastChange_le q c := Nat.le_succ_of_le (h.lastChange_le q c)
  done_le w hw := ⟨Nat.le_succ_of_le (h.done_le w hw).1, Nat.le_succ_of_le (h.done_le w hw).2⟩

lemma Awake.rouse (h : Awake ptable lockOf s) {state : Proc → RunState} {chan : Proc → Option Chan}
    (hsame : ∀ q, state q = .sleeping → s.state q = .sleeping ∧ chan q = s.chan q) :
    Awake ptable lockOf { s with state := state, chan := chan } := by
  have hsleeps : ∀ q c, state q = .sleeping ∧ chan q = some c → s.SleepsOn q c := fun q c hq =>
    ⟨(hsame q hq.1).1, (hsame q hq.1).2 ▸ hq.2⟩
  exact
    { holds := h.holds
      two := h.two
      tested := h.tested
      sleep := h.sleep
      asleep := fun q hq => h.asleep q (hsame q hq).1
      calls := fun q w back hq =>
        have hw := h.calls q w back hq
        ⟨hw.changed, hw.lock, hw.tested, hw.issued, hw.late⟩
      woke := fun q r w back hr hq => h.woke q r w back hr (hsleeps q w.chan hq)
      unchanged := h.unchanged
      before := fun q c hq => h.before q c (hq.imp_right (hsleeps q c))
      lastChange_le := h.lastChange_le
      done_le := h.done_le }

/-- A call of `wakeup` returns. The process has `ptable.lock` and nobody sleeps on the channel, so that a
process that has tested the condition still has the lock of the channel. -/
lemma Awake.returns (h : Awake ptable lockOf s) {w : Wakeup Chan} {back : Option Lock}
    (hw : Calls lockOf s p w back) (hback : ∀ l, back = some l → (s.place p).Holds ptable lockOf l)
    (hptable : (s.place p).Holds ptable lockOf ptable) (hnone : ∀ q, ¬ s.SleepsOn q w.chan) :
    Awake ptable lockOf { s with done := w :: s.done } := by
  have hnew : ∀ q, s.tested q = some w.chan → w.Before (s.lastTest q) := fun q hq => by
    have hqp : q ≠ p := fun heq => hw.tested (heq ▸ hq)
    obtain hsched | hheld := h.tested q w.chan hq
    · have hpt : (s.place q).Holds ptable lockOf ptable := by
        rw [hsched]
        exact rfl
      exact absurd (h.exclusive hpt hptable) hqp
    · have htests : s.Tests lockOf q w.chan := ⟨hq, hheld⟩
      refine ⟨fun hproper => ?_, hw.changed.trans ((h.unchanged q w.chan htests).2 p)⟩
      obtain hunder | hholds := hproper
      · exact absurd (h.exclusive (.of_lock hheld) (hback _ (hw.lock hunder))) hqp
      · exact hw.late hholds q htests
  exact
    { holds := h.holds
      two := h.two
      tested := h.tested
      sleep := h.sleep
      asleep := h.asleep
      calls := fun q v back hq =>
        have hv := h.calls q v back hq
        ⟨hv.changed, hv.lock, hv.tested, hv.issued, hv.late⟩
      woke := h.woke
      unchanged := h.unchanged
      before := fun q c hq v hv hvc => by
        obtain hv | hv := List.mem_cons.mp hv
        · subst hv
          subst hvc
          exact hq.elim (hnew q) fun hs => absurd hs (hnone q)
        · exact h.before q c hq v hv hvc
      lastChange_le := h.lastChange_le
      done_le := fun v hv => by
        obtain hv | hv := List.mem_cons.mp hv
        · subst hv
          exact ⟨hw.issued, hw.changed.trans (h.lastChange_le p _)⟩
        · exact h.done_le v hv }

end

section

variable {Proc Chan Lock : Type} [DecidableEq Proc] {ptable : Lock} {lockOf : Chan → Lock}
  {s : SleepState Proc Chan Lock} {p : Proc} {y : Place Chan Lock}

variable {holder : Lock → Option Proc}

lemma Locked.place (h : Locked ptable lockOf s) (hself : ∀ l, holder l = some p ↔ y.Holds ptable lockOf l)
    (hothers : ∀ l q, q ≠ p → (holder l = some q ↔ s.holder l = some q)) (htwo : y.TwoLocks ptable lockOf) :
    Locked ptable lockOf { s with holder := holder, place := update s.place p y } := by
  refine ⟨fun l q => ?_, fun q => ?_⟩
  · by_cases hq : q = p
    · simp only [hq, update_self, hself]
    · simp only [update_of_ne hq, hothers l q hq, h.holds]
  · by_cases hq : q = p
    · simpa only [hq, update_self] using htwo
    · simpa only [update_of_ne hq] using h.two q

lemma Locked.stay (h : Locked ptable lockOf s)
    (hy : ∀ l, y.Holds ptable lockOf l ↔ (s.place p).Holds ptable lockOf l)
    (htwo : y.TwoLocks ptable lockOf) : Locked ptable lockOf (s.setPlace p y) :=
  h.place (fun l => (h.holds l p).trans (hy l).symm) (fun _ _ _ => Iff.rfl) htwo

lemma Locked.take [DecidableEq Lock] (h : Locked ptable lockOf s) {l : Lock} (hfree : s.holder l = none)
    (hy : ∀ m, y.Holds ptable lockOf m ↔ m = l ∨ (s.place p).Holds ptable lockOf m)
    (htwo : y.TwoLocks ptable lockOf) : Locked ptable lockOf ((s.setHolder l (some p)).setPlace p y) := by
  refine h.place (fun m => ?_) (fun m q hq => ?_) htwo
  · simp only [hy, ← h.holds, setHolder, update_apply]
    grind
  · simp only [setHolder, update_apply]
    grind

lemma Locked.give [DecidableEq Lock] (h : Locked ptable lockOf s) {l : Lock}
    (hheld : (s.place p).Holds ptable lockOf l)
    (hy : ∀ m, y.Holds ptable lockOf m ↔ m ≠ l ∧ (s.place p).Holds ptable lockOf m)
    (htwo : y.TwoLocks ptable lockOf) : Locked ptable lockOf ((s.setHolder l none).setPlace p y) := by
  have hholder := (h.holds l p).mpr hheld
  refine h.place (fun m => ?_) (fun m q hq => ?_) htwo
  · simp only [hy, ← h.holds, setHolder, update_apply]
    grind
  · simp only [setHolder, update_apply]
    grind

lemma Awake.relocate (h : Awake ptable lockOf s)
    (hlocked : Locked ptable lockOf { s with holder := holder, place := update s.place p y })
    (hstate : s.state p ≠ .sleeping)
    (htested : ∀ c, s.tested p = some c → y = .sleepSched c ∨
      y.lock lockOf = some (lockOf c) ∧ (s.place p).lock lockOf = some (lockOf c))
    (hsleep : ∀ c, y.sleep = some c → s.tested p = some c)
    (hcalls : ∀ w back, y.wakeup = some (w, back) → Calls lockOf s p w back)
    (hwoke : ∀ w back, y = .woke w back → ∀ q, ¬ s.SleepsOn q w.chan) :
    Awake ptable lockOf { s with holder := holder, place := update s.place p y } := by
  have hplace : ∀ q ≠ p, update s.place p y q = s.place q := fun q hq =>
    update_of_ne hq ..
  have hself : update s.place p y p = y := update_self ..
  have htests : ∀ q c, Tests lockOf { s with
      holder := holder, place := update s.place p y } q c → s.Tests lockOf q c := by
    intro q c ⟨hq, hlock⟩
    by_cases hqp : q = p
    · subst hqp
      simp only [hself] at hlock
      obtain hy | ⟨-, hold⟩ := htested c hq
      · rw [hy] at hlock
        cases hlock
      · exact ⟨hq, hold⟩
    · simp only [hplace q hqp] at hlock
      exact ⟨hq, hlock⟩
  refine ⟨hlocked, fun q c hq => ?_, fun q c hq => ?_, fun q hq => ?_, fun q w back hq => ?_,
    fun q r w back hr => ?_, fun q c hq => h.unchanged q c (htests q c hq), h.before,
    h.lastChange_le, h.done_le⟩
  all_goals by_cases hqp : q = p
  · subst hqp
    simp only [hself]
    exact (htested c hq).imp_right And.left
  · simp only [hplace q hqp]
    exact h.tested q c hq
  · subst hqp
    simp only [hself] at hq
    exact hsleep c hq
  · simp only [hplace q hqp] at hq
    exact h.sleep q c hq
  · exact absurd (hqp ▸ hq) hstate
  · simp only [hplace q hqp]
    exact h.asleep q hq
  · subst hqp
    simp only [hself] at hq
    have hw := hcalls w back hq
    exact ⟨hw.changed, hw.lock, hw.tested, hw.issued, fun hh r hr => hw.late hh r (htests r _ hr)⟩
  · simp only [hplace q hqp] at hq
    have hw := h.calls q w back hq
    exact ⟨hw.changed, hw.lock, hw.tested, hw.issued, fun hh r hr => hw.late hh r (htests r _ hr)⟩
  · exact fun hq => hstate (hqp ▸ hq.1)
  · by_cases hrp : r = p
    · subst hrp
      simp only [hself] at hr
      exact hwoke w back hr q
    · simp only [hplace r hrp] at hr
      exact h.woke q r w back hr

lemma Awake.relocate_plain (h : Awake ptable lockOf s)
    (hlocked : Locked ptable lockOf { s with holder := holder, place := update s.place p y })
    (hstate : s.state p ≠ .sleeping) (htested : s.tested p = none) (hsleep : y.sleep = none)
    (hwakeup : y.wakeup = none) :
    Awake ptable lockOf { s with holder := holder, place := update s.place p y } := by
  refine h.relocate hlocked hstate (fun c hc => ?_) (fun c hc => ?_) (fun w back hw => ?_)
    fun w back hy => ?_
  · cases htested.symm.trans hc
  · cases hsleep.symm.trans hc
  · cases hwakeup.symm.trans hw
  · rw [hy] at hwakeup
    cases hwakeup

lemma Awake.untest (h : Awake ptable lockOf s) {x : Option Chan}
    (hx : ∀ c, x = some c → s.tested p = some c) (hp : (s.place p).sleep = none) :
    Awake ptable lockOf (s.setTested p x) := by
  have hle : ∀ q c, update s.tested p x q = some c → s.tested q = some c := fun q c hq => by
    by_cases hqp : q = p
    · subst hqp
      rw [update_self] at hq
      exact hx c hq
    · rwa [update_of_ne hqp] at hq
  refine ⟨⟨h.holds, h.two⟩, fun q c hq => h.tested q c (hle q c hq), fun q c hq => ?_, h.asleep,
    fun q w back hq => ?_, h.woke, fun q c hq => h.unchanged q c ⟨hle q c hq.1, hq.2⟩,
    fun q c hq => h.before q c (hq.imp_left (hle q c)), h.lastChange_le, h.done_le⟩
  · have hq : (s.place q).sleep = some c := hq
    have hqp : q ≠ p := fun heq => by
      rw [heq, hp] at hq
      cases hq
    show update s.tested p x q = some c
    rw [update_of_ne hqp]
    exact h.sleep q c hq
  · have hw := h.calls q w back hq
    exact ⟨hw.changed, hw.lock, fun heq => hw.tested (hle q _ heq), hw.issued,
      fun hh r hr => hw.late hh r ⟨hle r _ hr.1, hr.2⟩⟩

variable {c : Chan}

lemma Awake.test (h : Awake ptable lockOf s) {x : Option Chan}
    (hp : s.place p = .inside (lockOf c)) (hx : ∀ c', x = some c' → c' = c ∧ s.cond c = false) :
    Awake ptable lockOf { s.setTested p x with
      lastTest := update s.lastTest p s.clock } := by
  have hheld : (s.place p).lock lockOf = some (lockOf c) := by rw [hp]; rfl
  have hsleep : (s.place p).sleep = none := by rw [hp]; rfl
  have hwakeup : (s.place p).wakeup = none := by rw [hp]; rfl
  refine ⟨⟨h.holds, h.two⟩, fun q c' hq => ?_, fun q c' hq => ?_, h.asleep, fun q w back hq => ?_,
    h.woke, fun q c' hq => ?_, fun q c' hq w hw hwc => ?_, h.lastChange_le, h.done_le⟩
  all_goals by_cases hqp : q = p
  · simp only [setTested, hqp, update_self] at hq ⊢
    exact .inr ((hx c' hq).1 ▸ hheld)
  · simp only [setTested, update_of_ne hqp] at hq
    exact h.tested q c' hq
  · simp only [setTested, hqp, hsleep] at hq
    cases hq
  · simp only [setTested, update_of_ne hqp]
    exact h.sleep q c' hq
  · simp only [setTested, hqp, hwakeup] at hq
    cases hq
  · have hw := h.calls q w back hq
    refine ⟨hw.changed, hw.lock, ?_, hw.issued, fun hh r hr => ?_⟩
    · simpa only [setTested, update_of_ne hqp] using hw.tested
    · by_cases hrp : r = p
      · simp only [hrp, update_self]
        exact hw.issued
      · simp only [Tests, setTested, update_of_ne hrp] at hr ⊢
        exact hw.late hh r hr
  · simp only [Tests, setTested, hqp, update_self] at hq ⊢
    obtain ⟨rfl, hfalse⟩ := hx c' hq.1
    exact ⟨hfalse, fun r => h.lastChange_le r c'⟩
  · simp only [Tests, setTested, update_of_ne hqp] at hq ⊢
    exact h.unchanged q c' hq
  · simp only [hqp, update_self]
    exact ⟨fun _ => (h.done_le w hw).1, (h.done_le w hw).2⟩
  · simp only [setTested, update_of_ne hqp, SleepsOn] at hq ⊢
    exact h.before q c' hq w hw hwc

lemma Awake.change [DecidableEq Chan] (h : Awake ptable lockOf s) {b : Bool}
    (hp : s.place p = .inside (lockOf c)) (hne : s.tested p ≠ some c) :
    Awake ptable lockOf { s with
      cond := update s.cond c b
      lastChange := update s.lastChange p (update (s.lastChange p) c s.clock) } := by
  have hheld : (s.place p).Holds ptable lockOf (lockOf c) := by rw [hp]; exact rfl
  have hother : ∀ q c', c' ≠ c → update s.lastChange p
      (update (s.lastChange p) c s.clock) q c' = s.lastChange q c' := fun q c' hc => by
    by_cases hq : q = p
    · rw [hq, update_self, update_of_ne hc]
    · rw [update_of_ne hq]
  have hbounds : ∀ q c', s.lastChange q c' ≤ update s.lastChange p
      (update (s.lastChange p) c s.clock) q c' ∧ update s.lastChange p
      (update (s.lastChange p) c s.clock) q c' ≤ s.clock := fun q c' => by
    have := h.lastChange_le q c'
    simp only [update_apply]
    grind
  refine ⟨⟨h.holds, h.two⟩, h.tested, h.sleep, h.asleep, fun q w back hq => ?_, h.woke,
    fun q c' hq => ?_, h.before, fun q c' => (hbounds q c').2, h.done_le⟩
  · have hw := h.calls q w back hq
    exact ⟨hw.changed.trans (hbounds q w.chan).1, hw.lock, hw.tested, hw.issued, hw.late⟩
  · have hc : c' ≠ c := fun heq => by
      subst heq
      exact hne (h.exclusive (.of_lock hq.2) hheld ▸ hq.1)
    simp only [update_of_ne hc, hother _ c' hc]
    exact h.unchanged q c' hq

/-- A process goes to sleep on the channel whose condition it has tested. It has `ptable.lock`, so that
nobody is between `wakeup1` and the return from `wakeup`. -/
lemma Awake.sleeps [DecidableEq Lock] (h : Awake ptable lockOf s)
    (hp : s.place p = .sleepSched c) :
    Awake ptable lockOf { (s.setHolder ptable none).setPlace p (.asleep c) with
      state := update s.state p .sleeping
      chan := update s.chan p (some c)
      tested := update s.tested p none } := by
  have hptable : (s.place p).Holds ptable lockOf ptable := by rw [hp]; exact rfl
  have hlocked : Locked ptable lockOf ((s.setHolder ptable none).setPlace p (.asleep c)) :=
    h.give hptable (fun m => by simp [hp, Place.Holds]) trivial
  have htested : s.tested p = some c := h.sleep p c (by rw [hp]; rfl)
  have hplace : ∀ q ≠ p, update s.place p (.asleep c) q = s.place q := fun q hq =>
    update_of_ne hq ..
  have hself : update s.place p (.asleep c) p = .asleep c := update_self ..
  refine ⟨⟨hlocked.holds, hlocked.two⟩, fun q c' hq => ?_, fun q c' hq => ?_, fun q hq => ?_,
    fun q w back hq => ?_, fun q r w back hr => ?_, fun q c' hq => ?_,
    fun q c' hq => ?_, h.lastChange_le, h.done_le⟩
  all_goals by_cases hqp : q = p
  all_goals simp only [setHolder, setPlace, SleepsOn, Tests] at *
  · simp only [hqp, update_self] at hq
    cases hq
  · simp only [update_of_ne hqp] at hq ⊢
    exact h.tested q c' hq
  · simp only [hqp, hself] at hq
    cases hq
  · simp only [update_of_ne hqp] at hq ⊢
    exact h.sleep q c' hq
  · exact ⟨c, by rw [hqp, hself]⟩
  · simp only [update_of_ne hqp] at hq ⊢
    exact h.asleep q hq
  · simp only [hqp, hself] at hq
    cases hq
  · simp only [update_of_ne hqp] at hq
    have hw := h.calls q w back hq
    refine ⟨hw.changed, hw.lock, ?_, hw.issued, fun hh r hr => ?_⟩
    · simpa only [update_of_ne hqp] using hw.tested
    · have hrp : r ≠ p := fun heq => by
        simp only [Tests, heq, update_self] at hr
        cases hr.1
      simp only [Tests, update_of_ne hrp] at hr
      exact hw.late hh r hr
  · have hrp : r ≠ p := fun heq => by
      simp only [heq, hself] at hr
      cases hr
    simp only [hplace r hrp] at hr
    have hr' : (s.place r).Holds ptable lockOf ptable := by rw [hr]; exact .inr rfl
    exact absurd (h.exclusive hr' hptable) hrp
  · have hrp : r ≠ p := fun heq => by
      simp only [heq, hself] at hr
      cases hr
    simp only [hplace r hrp, update_of_ne hqp] at hr ⊢
    exact h.woke q r w back hr
  · simp only [hqp, update_self] at hq
    cases hq.1
  · simp only [update_of_ne hqp] at hq
    exact h.unchanged q c' hq
  · simp only [hqp, update_self] at hq ⊢
    obtain hq | ⟨-, hq⟩ := hq
    · cases hq
    · cases hq
      exact h.before p c (.inl htested)
  · simp only [update_of_ne hqp] at hq
    exact h.before q c' hq

lemma Awake.falls (h : Awake ptable lockOf s)
    (hlocked : Locked ptable lockOf { s with holder := holder, place := update s.place p y })
    (hstate : s.state p ≠ .sleeping) (htested : s.tested p = some c) (hy : y.sleep = some c)
    (hlock : y ≠ .sleepSched c → (s.place p).lock lockOf = some (lockOf c)) :
    Awake ptable lockOf { s with holder := holder, place := update s.place p y } := by
  refine h.relocate hlocked hstate (fun c' hc => ?_) (fun c' hc => ?_) (fun w back hw => ?_)
    fun w back hw => ?_
  · cases htested.symm.trans hc
    cases y with
    | sleepSched d => exact .inl (by cases hy; rfl)
    | sleepAcquire d | sleepRelease d =>
      cases hy
      exact .inr ⟨rfl, hlock (fun heq => by cases heq)⟩
    | _ => cases hy
  · cases hy.symm.trans hc
    exact htested
  · cases (Place.wakeup_eq_none hy).symm.trans hw
  · rw [hw] at hy
    cases hy

lemma Awake.wakeupCall (h : Awake ptable lockOf s) {w : Wakeup Chan} {back : Option Lock}
    (hp : s.place p = back.elim .outside .inside) (hback : back ≠ some ptable)
    (hw : Calls lockOf s p w back) : Awake ptable lockOf (s.setPlace p (.waking w back)) := by
  have hlock : (s.place p).lock lockOf = back := by
    rw [hp]
    cases back <;> rfl
  refine h.relocate (h.stay (fun m => ?_) hback) (h.not_sleeping fun c => ?_) (fun c hc => ?_)
    (fun c hc => by cases hc) (fun v b hv => ?_) fun v b hv => by cases hv
  · rw [hp]
    cases back <;> simp [Place.Holds, eq_comm]
  · rw [hp]
    cases back <;> exact fun heq => by cases heq
  · obtain hsched | hc := h.tested p c hc
    · rw [hsched] at hp
      cases back <;> cases hp
    · exact .inr ⟨hlock ▸ hc, hc⟩
  · cases hv
    exact hw

end

section

variable {Proc Chan Lock : Type} [DecidableEq Chan] {ptable : Lock} {lockOf : Chan → Lock}
  {s : SleepState Proc Chan Lock} {p : Proc}

lemma Awake.wakeup1 (h : Awake ptable lockOf s) (c : Chan) : Awake ptable lockOf (s.wakeup1 c) := by
  refine h.rouse fun q hq => ?_
  split at hq
  · cases hq
  · exact ⟨hq, rfl⟩

lemma not_sleepsOn_wakeup1 (s : SleepState Proc Chan Lock) (c : Chan) (q : Proc) :
    ¬ (s.wakeup1 c).SleepsOn q c := by
  rintro ⟨hstate, hchan⟩
  simp only [SleepState.wakeup1] at hstate hchan
  split at hstate
  · cases hstate
  next hne => exact hne ⟨hstate, hchan⟩

lemma forget_tested [DecidableEq Proc] (s : SleepState Proc Chan Lock) (p : Proc) (c : Chan) :
    (s.forget p c).tested p ≠ some c := by
  show update s.tested p _ p ≠ some c
  rw [update_self]
  split
  · exact fun heq => by cases heq
  · assumption

lemma Awake.forget [DecidableEq Proc] (h : Awake ptable lockOf s) {l : Lock}
    (hp : s.place p = .inside l) (c : Chan) : Awake ptable lockOf (s.forget p c) := by
  refine h.untest (fun c' hc => ?_) (by rw [hp]; rfl)
  split at hc
  · cases hc
  · exact hc

end

section

variable {Proc Chan Lock : Type} [DecidableEq Proc] [DecidableEq Lock] {ptable : Lock}
  {lockOf : Chan → Lock} {s t : SleepState Proc Chan Lock} {p : Proc}

lemma Awake.acquire (h : Awake ptable lockOf s) {l : Lock} (hp : s.place p = .outside)
    (hfree : s.holder l = none) : Awake ptable lockOf ((s.setHolder l (some p)).setPlace p (.inside l)) := by
  refine h.relocate_plain (h.take hfree (fun m => ?_) trivial) (h.not_sleeping ?_) (h.untested ?_ ?_)
    rfl rfl
  all_goals simp [hp, Place.Holds, Place.lock]

lemma Awake.release (h : Awake ptable lockOf s) {l : Lock} (hp : s.place p = .inside l) :
    Awake ptable lockOf (((s.setHolder l none).setPlace p .outside).setTested p none) := by
  have h' : Awake ptable lockOf (s.setTested p none) :=
    h.untest (fun c hc => by cases hc) (by rw [hp]; rfl)
  have hp' : (s.setTested p none).place p = .inside l := hp
  refine h'.relocate_plain (h'.give (l := l) ?_ (fun m => ?_) trivial) (h'.not_sleeping ?_)
    (update_self ..) rfl rfl
  all_goals simp [hp', Place.Holds]

variable {c : Chan}

section

variable (h : Awake ptable lockOf s)
include h

lemma Awake.wakeAcquire (hp : s.place p = .wakeAcquire c) (hfree : s.holder (lockOf c) = none) :
    Awake ptable lockOf ((s.setHolder (lockOf c) (some p)).setPlace p (.inside (lockOf c))) := by
  refine h.relocate_plain (h.take hfree (fun m => ?_) trivial) (h.not_sleeping ?_) (h.untested ?_ ?_)
    rfl rfl
  all_goals simp [hp, Place.Holds, Place.lock]

lemma Awake.wakeRelease (hp : s.place p = .wakeRelease c) :
    Awake ptable lockOf ((s.setHolder ptable none).setPlace p (.wakeAcquire c)) := by
  have htwo : (s.place p).TwoLocks ptable lockOf := h.two p
  rw [hp] at htwo
  refine h.relocate_plain (h.give ?_ (fun m => ?_) htwo) (h.not_sleeping ?_) (h.untested ?_ ?_)
    rfl rfl
  all_goals simp [hp, Place.Holds, Place.lock]

lemma Awake.sleepCall (hp : s.place p = .inside (lockOf c)) (htested : s.tested p = some c) :
    Awake ptable lockOf
      (s.setPlace p (if lockOf c = ptable then .sleepSched c else .sleepAcquire c)) := by
  have hstate : s.state p ≠ .sleeping := h.not_sleeping (by simp [hp])
  split
  next heq =>
    refine h.falls (h.stay (fun m => ?_) trivial) hstate htested rfl fun hne => absurd rfl hne
    simp [hp, Place.Holds, heq]
  next hne =>
    refine h.falls (h.stay (fun m => ?_) hne) hstate htested rfl fun _ => ?_
    · simp [hp, Place.Holds]
    · simp [hp, Place.lock]

lemma Awake.sleepAcquire (hp : s.place p = .sleepAcquire c) (hfree : s.holder ptable = none) :
    Awake ptable lockOf ((s.setHolder ptable (some p)).setPlace p (.sleepRelease c)) := by
  have htwo : (s.place p).TwoLocks ptable lockOf := h.two p
  rw [hp] at htwo
  refine h.falls (h.take hfree (fun m => ?_) htwo) (h.not_sleeping ?_) (h.sleep p c ?_) rfl fun _ => ?_
  all_goals simp [hp, Place.Holds, Place.lock, Place.sleep, or_comm]

lemma Awake.sleepRelease (hp : s.place p = .sleepRelease c) :
    Awake ptable lockOf ((s.setHolder (lockOf c) none).setPlace p (.sleepSched c)) := by
  have htwo : (s.place p).TwoLocks ptable lockOf := h.two p
  rw [hp] at htwo
  have hne : lockOf c ≠ ptable := htwo
  refine h.falls (h.give ?_ (fun m => ?_) trivial) (h.not_sleeping ?_) (h.sleep p c ?_) rfl
    fun hne => absurd rfl hne
  · simp [hp, Place.Holds]
  · simp only [hp, Place.Holds]
    grind
  · simp [hp]
  · simp [hp, Place.sleep]

lemma Awake.woken {w : Wakeup Chan} {back : Option Lock}
    (hp : s.place p = .woke w back) :
    Awake ptable lockOf { (s.setHolder ptable none).setPlace p (back.elim .outside .inside) with
      done := w :: s.done } := by
  have htwo : (s.place p).TwoLocks ptable lockOf := h.two p
  rw [hp] at htwo
  have hback : back ≠ some ptable := htwo
  have h' : Awake ptable lockOf { s with done := w :: s.done } :=
    h.returns (h.calls p w back (by rw [hp]; rfl)) (fun l hl => by rw [hp]; exact .inl hl)
      (by rw [hp]; exact .inr rfl) fun q => h.woke q p w back hp
  have hlock : Place.lock lockOf (back.elim .outside .inside : Place Chan Lock) = back := by
    cases back <;> rfl
  refine h'.relocate (h'.give ?_ (fun m => ?_) ?_) (h'.not_sleeping ?_) (fun c hc => ?_)
    (fun c hc => ?_) (fun v b hv => ?_) fun v b hv => ?_
  · simp [hp, Place.Holds]
  · simp only [hp, Place.Holds]
    cases back with
    | none => simp
    | some l => simp only [Option.elim]; grind
  · cases back <;> trivial
  · simp [hp]
  · obtain hsched | hc := h'.tested p c hc
    · cases hp.symm.trans hsched
    · exact .inr ⟨by rw [hlock]; simpa [hp, Place.lock] using hc, hc⟩
  all_goals cases back
  all_goals first | cases hc | cases hv

lemma Awake.resume (hp : s.place p = .asleep c)
    (hfree : s.holder ptable = none) :
    Awake ptable lockOf { (s.setHolder ptable (some p)).setPlace p
        (if lockOf c = ptable then .inside ptable else .wakeRelease c) with
      state := update s.state p .running
      chan := update s.chan p none } := by
  have hawake : ∀ q, update s.state p .running q = .sleeping → q ≠ p := fun q hq heq => by
    rw [heq, update_self] at hq
    cases hq
  have h' : Awake ptable lockOf { s with state := update s.state p .running
                                         chan := update s.chan p none } :=
    h.rouse fun q hq => by
      have hqp := hawake q hq
      rw [update_of_ne hqp] at hq ⊢
      exact ⟨hq, rfl⟩
  have htested : s.tested p = none := h.untested (by simp [hp]) (by simp [hp, Place.lock])
  refine h'.relocate_plain (h'.take hfree (fun m => ?_) ?_) (fun hq => hawake p hq rfl) htested ?_ ?_
  all_goals split
  all_goals simp [Place.Holds, Place.TwoLocks, Place.sleep, Place.wakeup, *]

lemma Awake.wakes [DecidableEq Chan] {w : Wakeup Chan} {back : Option Lock}
    (hp : s.place p = .waking w back) (hfree : s.holder ptable = none) :
    Awake ptable lockOf
      (((s.setHolder ptable (some p)).wakeup1 w.chan).setPlace p (.woke w back)) := by
  have htwo : (s.place p).TwoLocks ptable lockOf := h.two p
  rw [hp] at htwo
  have h' := h.wakeup1 w.chan
  have hp' : (s.wakeup1 w.chan).place p = .waking w back := hp
  refine h'.relocate (h'.take hfree (fun m => ?_) htwo) (h'.not_sleeping ?_) (fun c hc => ?_)
    (fun c hc => by cases hc) (fun v b hv => ?_) fun v b hv => ?_
  · simp [hp', Place.Holds, or_comm]
  · simp [hp']
  · obtain hsched | hc := h'.tested p c hc
    · cases hp'.symm.trans hsched
    · rw [hp'] at hc ⊢
      exact .inr ⟨hc, hc⟩
  · cases hv
    exact h'.calls p w back (by rw [hp']; rfl)
  · cases hv
    exact not_sleepsOn_wakeup1 s w.chan

lemma Awake.step [DecidableEq Chan] {a : Proc × SleepAct Chan Lock}
    (hstep : s.step ptable lockOf a = some t) : Awake ptable lockOf t := by
  obtain ⟨p, a⟩ := a
  obtain ⟨u, hmove, rfl⟩ := Option.map_eq_some_iff.mp hstep
  have h := h.tick
  cases a with
  | acquire l =>
    obtain ⟨⟨hp, hfree⟩, hu⟩ := Option.ite_none_right_eq_some.mp hmove
    cases hu
    exact h.acquire hp hfree
  | test c =>
    obtain ⟨hp, hu⟩ := Option.ite_none_right_eq_some.mp hmove
    cases hu
    refine h.test hp fun c' hc => ?_
    split at hc
    · cases hc
    next hcond => exact ⟨(Option.some.inj hc).symm, Bool.eq_false_iff.mpr hcond⟩
  | change c b =>
    obtain ⟨hp, hu⟩ := Option.ite_none_right_eq_some.mp hmove
    cases hu
    exact (h.forget hp c).change hp (forget_tested _ p c)
  | wakeup c =>
    simp only [move] at hmove
    split at hmove
    next hp =>
      cases hmove
      have htested : s.tested p = none :=
        h.untested (fun c => by simp [hp]) (by simp only [hp, Place.lock])
      refine h.wakeupCall hp (fun heq => by cases heq) (h.calls_now none ?_)
      rw [htested]
      exact fun heq => by cases heq
    next l hp =>
      have hforget := h.forget hp c
      have hcalls := hforget.calls_now (some l) (forget_tested _ p c)
      split at hmove
      next hl =>
        -- the process has `ptable.lock` already and calls `wakeup1`
        cases hmove
        have hheld : (s.place p).Holds ptable lockOf l := by rw [hp]; exact rfl
        refine (hforget.wakeup1 c).returns
          ⟨hcalls.changed, hcalls.lock, hcalls.tested, hcalls.issued, hcalls.late⟩ (fun m hm => ?_)
          (hl ▸ hheld) (not_sleepsOn_wakeup1 _ c)
        cases hm
        exact hheld
      next hl =>
        cases hmove
        exact hforget.wakeupCall hp (fun heq => hl (Option.some.inj heq)) hcalls
    · cases hmove
  | sleep c =>
    obtain ⟨⟨hp, htested⟩, hmove⟩ := Option.ite_none_right_eq_some.mp hmove
    have h' := h.sleepCall hp htested
    split at hmove
    next heq =>
      cases hmove
      rw [if_pos heq] at h'
      exact h'
    next hne =>
      cases hmove
      rw [if_neg hne] at h'
      exact h'
  | release =>
    simp only [move] at hmove
    split at hmove
    next l hp =>
      cases hmove
      exact h.release hp
    · cases hmove
  | go =>
    simp only [move] at hmove
    split at hmove
    next w back hp =>
      obtain ⟨hfree, hu⟩ := Option.ite_none_right_eq_some.mp hmove
      cases hu
      exact h.wakes hp hfree
    next w back hp =>
      cases hmove
      exact h.woken hp
    next c hp =>
      obtain ⟨hfree, hu⟩ := Option.ite_none_right_eq_some.mp hmove
      cases hu
      exact h.sleepAcquire hp hfree
    next c hp =>
      cases hmove
      exact h.sleepRelease hp
    next c hp =>
      cases hmove
      exact h.sleeps hp
    next c hp =>
      cases hmove
      exact h.wakeRelease hp
    next c hp =>
      obtain ⟨hfree, hu⟩ := Option.ite_none_right_eq_some.mp hmove
      cases hu
      exact h.wakeAcquire hp hfree
    · cases hmove
  | resume =>
    simp only [move] at hmove
    split at hmove
    next c hp =>
      obtain ⟨⟨-, hfree⟩, hu⟩ := Option.ite_none_right_eq_some.mp hmove
      cases hu
      exact h.resume hp hfree
    · cases hmove
  | kill =>
    obtain ⟨⟨hfree, hp⟩, hu⟩ := Option.ite_none_right_eq_some.mp hmove
    cases hu
    refine h.rouse fun q hq => ⟨?_, rfl⟩
    have hq : update s.state p .runnable q = .sleeping := hq
    by_cases hqp : q = p
    · exact hqp ▸ hp
    · rwa [update_of_ne hqp] at hq

end

end

end SleepState

/-! ### Runs -/

open SleepState

section

variable {Proc Chan Lock : Type} [DecidableEq Proc] [DecidableEq Chan] [DecidableEq Lock]

/-- **No wakeup is lost.** Whatever processes do, a process that sleeps on a channel has tested the
condition after every wakeup of the channel that has returned: after the wakeup was called, where this was
done under the lock or while the condition was true, and in any case after the change that it reports. -/
theorem no_lost_wakeup (ptable : Lock) (lockOf : Chan → Lock) (cond : Chan → Bool)
    {acts : List (Proc × SleepAct Chan Lock)} {t : SleepState Proc Chan Lock}
    (hrun : Run (SleepState.step ptable lockOf) anyStep (SleepState.init cond) acts t) {p : Proc}
    {c : Chan} (hsleep : t.SleepsOn p c) {w : Wakeup Chan} (hdone : w ∈ t.done) (hchan : w.chan = c) :
    (w.underLock = true ∨ w.holds = true → ¬ t.lastTest p < w.issued) ∧
      ¬ t.lastTest p < w.changed := by
  have hawake : Awake ptable lockOf t :=
    hrun.inv (init_awake cond) fun _ _ _ h _ hstep => h.step hstep
  obtain ⟨hissued, hchanged⟩ := hawake.before p c (.inr hsleep) w hdone hchan
  exact ⟨fun hproper => Nat.not_lt.mpr (hissued hproper), Nat.not_lt.mpr hchanged⟩

end

/-- Process `true` makes the condition true, wakes the channel and makes the condition false again. After
that process `false` tests the condition and goes to sleep. -/
def wakeThenSleep : List (Bool × SleepAct Unit Bool) :=
  [(true, .acquire false), (true, .change () true), (true, .wakeup ()), (true, .go), (true, .go),
   (true, .change () false), (true, .release), (false, .acquire false), (false, .test ()),
   (false, .sleep ()), (false, .go), (false, .go), (false, .go)]

theorem no_lost_wakeup_wakeThenSleep :
    ∃ t, Run (SleepState.step true fun _ => false) anyStep (SleepState.init fun _ => false)
      wakeThenSleep t ∧ t.SleepsOn false () ∧
      ∃ w ∈ t.done, w.underLock = true ∧ ¬ t.lastTest false < w.issued := by
  obtain ⟨t, hrun, hsleep, w, hdone, hlock⟩ := run_of_check (SleepState.step true fun _ => false)
    anyStep (SleepState.init fun _ => false) wakeThenSleep
    (fun t => t.SleepsOn false () ∧ ∃ w ∈ t.done, w.underLock = true) (by decide +kernel)
  exact ⟨t, hrun, hsleep, w, hdone, hlock,
    (no_lost_wakeup true (fun _ => false) (fun _ => false) hrun hsleep hdone rfl).1 (.inl hlock)⟩

end Xv6.Ipc
