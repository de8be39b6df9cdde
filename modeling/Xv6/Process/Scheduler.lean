import Xv6.Process.Effect

/-!
# `scheduler` and `sched` (`proc.c`)

Every processor runs `scheduler`: it takes `ptable.lock`, goes over the process table and switches to each
process that it finds `RUNNABLE`. The lock is held across the switch. The process releases it, in `forkret`
or behind its own call of `sched`, and takes it again before it calls `sched`, which switches back to the
scheduler of the processor on which the process is by then.

A step is what one processor does between two points where another can come in. Which call a process is in
is left open: `sched st` is the end of `yield`, `sleep`, `exit` and `thread_exit`, and `change q st` what
`allocproc`, `fork`, `thread_create`, `wait`, `thread_join`, `wakeup1` and `kill` do to the state of a slot
under the lock. An interrupt handler takes the lock itself (`wake q`), and a `fork` or `thread_create` that
fails gives its slot back without it (`giveUp q`).
-/

namespace Xv6.Process.Sched

open Lib
open Function (update update_apply update_self update_of_ne)

/-- One of the `NCPU` processors. -/
abbrev CpuId := Fin 8

/-- What a processor executes. -/
inductive Code
  /-- `scheduler`, before it takes the lock -/
  | idle
  /-- the loop of `scheduler`, at slot `i` -/
  | scan (i : Nat)
  /-- process `p`, which does not hold the lock; `p` is `c->proc`, and the slot at which the loop is -/
  | outside (p : ProcId)
  /-- process `p`, which holds the lock -/
  | inside (p : ProcId)

/-- `c->proc` -/
def Code.proc : Code → Option ProcId
  | .outside p | .inside p => some p
  | _ => none

/-- The lock is held. -/
def Code.locked : Code → Bool
  | .scan _ | .inside _ => true
  | _ => false

/-- The slot to which `scheduler` comes next. -/
def Code.next : Code → Nat
  | .idle => 0
  | .scan i => i
  | .outside p | .inside p => p.val + 1

/-- How many slots there are before `scheduler` comes to that of `p`. -/
def Code.rank (x : Code) (p : ProcId) : Nat :=
  if x.next ≤ p.val then p.val - x.next else nProc - x.next + p.val

structure Machine where
  code : CpuId → Code
  state : ProcId → ProcState
  /-- `ptable.lock.cpu`, while it is locked -/
  holder : Option CpuId

inductive SchedAct
  /-- `scheduler` takes the lock -/
  | acquire
  /-- it passes over a slot -/
  | skip
  /-- it switches to the process of a slot -/
  | dispatch (p : ProcId)
  /-- it is through with the table -/
  | release
  /-- the process takes the lock -/
  | enter
  /-- the process releases the lock -/
  | leave
  /-- the process gives the processor away -/
  | sched (st : ProcState)
  /-- the process changes the state of a slot -/
  | change (q : ProcId) (st : ProcState)
  /-- an interrupt handler wakes a process up -/
  | wake (q : ProcId)
  /-- the process frees the slot of its new process -/
  | giveUp (q : ProcId)
  deriving DecidableEq

def SchedAct.isDispatch : SchedAct → Bool
  | .dispatch _ => true
  | _ => false

/-- What processes do to the state of a slot other than by `sched`. -/
def changes : ProcState → ProcState → Bool
  | .unused, .embryo | .embryo, .runnable | .embryo, .unused | .zombie, .unused
  | .sleeping, .runnable => true
  | _, _ => false

namespace Machine

/-- `userinit` has made the first process, and no processor has come to its loop. -/
def boot : Machine where
  code _ := .idle
  state p := if p = 0 then .runnable else .unused
  holder := none

def go (m : Machine) (c : CpuId) (x : Code) : Machine := { m with code := update m.code c x }

def step (m : Machine) (a : CpuId × SchedAct) : Option Machine :=
  match a.2, m.code a.1 with
  | .acquire, .idle =>
    if m.holder = none then some { m.go a.1 (.scan 0) with holder := some a.1 } else none
  | .skip, .scan i =>
    if ∃ q : ProcId, q.val = i ∧ m.state q ≠ .runnable then some (m.go a.1 (.scan (i + 1))) else none
  | .dispatch q, .scan i =>
    if q.val = i ∧ m.state q = .runnable then
      some { m.go a.1 (.inside q) with state := update m.state q .running }
    else none
  | .release, .scan i => if i = nProc then some { m.go a.1 .idle with holder := none } else none
  | .enter, .outside p =>
    if m.holder = none then some { m.go a.1 (.inside p) with holder := some a.1 } else none
  | .leave, .inside p => some { m.go a.1 (.outside p) with holder := none }
  | .sched st, .inside p =>
    if st = .runnable ∨ st = .sleeping ∨ st = .zombie then
      some { m.go a.1 (.scan (p.val + 1)) with state := update m.state p st }
    else none
  | .change q st, .inside _ =>
    if changes (m.state q) st then some { m with state := update m.state q st } else none
  | .wake q, x =>
    if x.locked = false ∧ m.holder = none ∧ m.state q = .sleeping then
      some { m with state := update m.state q .runnable }
    else none
  | .giveUp q, .outside _ =>
    if m.state q = .embryo then some { m with state := update m.state q .unused } else none
  | _, _ => none

/-! ### The invariant -/

structure Ok (m : Machine) : Prop where
  lock : ∀ c, m.holder = some c ↔ (m.code c).locked
  running : ∀ c, ∀ p ∈ (m.code c).proc, m.state p = .running
  one : ∀ c d, ∀ p ∈ (m.code c).proc, p ∈ (m.code d).proc → c = d
  onCpu : ∀ p, m.state p = .running → ∃ c, p ∈ (m.code c).proc

variable {m t : Machine} {a : CpuId × SchedAct}

lemma Ok.boot : boot.Ok := by
  refine ⟨fun _ => by simp [Machine.boot, Code.locked], by simp [Machine.boot, Code.proc],
    by simp [Machine.boot, Code.proc], fun p h => ?_⟩
  simp only [Machine.boot] at h
  split at h <;> cases h

lemma changes_ne {u v : ProcState} (h : changes u v) : u ≠ .running ∧ u ≠ .runnable ∧ v ≠ .running := by
  cases u <;> cases v <;> simp_all [changes]

/-- What a step of processor `c` can be. The slot of a `change` is not on a processor. -/
inductive Moves (m : Machine) (c : CpuId) : SchedAct → Machine → Prop
  | go {a : SchedAct} {y : Code} (x : Code) (hcode : m.code c = y) (ha : a.isDispatch = false)
      (hself : m.holder = none ∨ m.holder = some c) (hproc : x.proc = y.proc)
      (hrank : ∀ p, m.state p = .runnable → x.rank p ≤ y.rank p) :
      Moves m c a { m.go c x with holder := if x.locked then some c else none }
  | dispatch (q : ProcId) (hcode : m.code c = .scan q.val) (hq : m.state q = .runnable) :
      Moves m c (.dispatch q) { m.go c (.inside q) with state := update m.state q .running }
  | sched (p : ProcId) (st : ProcState) (hcode : m.code c = .inside p) (hst : st ≠ .running) :
      Moves m c (.sched st) { m.go c (.scan (p.val + 1)) with state := update m.state p st }
  | change {a : SchedAct} (q : ProcId) (st : ProcState) (ha : a.isDispatch = false)
      (hold : m.state q ≠ .running ∧ m.state q ≠ .runnable) (hst : st ≠ .running) :
      Moves m c a { m with state := update m.state q st }

lemma Ok.holder_eq (h : m.Ok) {c : CpuId} {x : Code} (hcode : m.code c = x) (hx : x.locked) :
    m.holder = some c := (h.lock c).mpr (hcode ▸ hx)

/-- Every step is one of these moves. -/
lemma Ok.moves (h : m.Ok) {c : CpuId} {a : SchedAct} (hs : m.step (c, a) = some t) : m.Moves c a t := by
  cases a with
  | acquire =>
    cases hcode : m.code c <;> simp only [Machine.step, hcode, reduceCtorEq] at hs
    obtain ⟨hfree, rfl⟩ := of_guard hs
    exact .go (.scan 0) hcode rfl (.inl hfree) rfl fun _ _ => le_rfl
  | skip =>
    cases hcode : m.code c <;> simp only [Machine.step, hcode, reduceCtorEq] at hs
    rename_i i
    obtain ⟨⟨q, rfl, hq⟩, rfl⟩ := of_guard hs
    have hheld := h.holder_eq hcode rfl
    have := Moves.go (a := .skip) (.scan (q.val + 1)) hcode rfl (.inr hheld) rfl fun p hp => by
      have hpq : p.val ≠ q.val := fun heq => hq (Fin.ext heq ▸ hp)
      grind [Code.rank, Code.next]
    rw [show (if (Code.scan (q.val + 1)).locked then some c else none) = m.holder from hheld.symm] at this
    exact this
  | dispatch q =>
    cases hcode : m.code c <;> simp only [Machine.step, hcode, reduceCtorEq] at hs
    obtain ⟨⟨rfl, hq⟩, rfl⟩ := of_guard hs
    exact .dispatch q hcode hq
  | release =>
    cases hcode : m.code c <;> simp only [Machine.step, hcode, reduceCtorEq] at hs
    obtain ⟨rfl, rfl⟩ := of_guard hs
    exact .go .idle hcode rfl (.inr (h.holder_eq hcode rfl)) rfl fun p _ => by grind [Code.rank, Code.next]
  | enter =>
    cases hcode : m.code c <;> simp only [Machine.step, hcode, reduceCtorEq] at hs
    obtain ⟨hfree, rfl⟩ := of_guard hs
    exact .go (.inside _) hcode rfl (.inl hfree) rfl fun _ _ => le_rfl
  | leave =>
    cases hcode : m.code c <;> simp only [Machine.step, hcode, reduceCtorEq] at hs
    cases hs
    exact .go (.outside _) hcode rfl (.inr (h.holder_eq hcode rfl)) rfl fun _ _ => le_rfl
  | sched st =>
    cases hcode : m.code c <;> simp only [Machine.step, hcode, reduceCtorEq] at hs
    obtain ⟨hst, rfl⟩ := of_guard hs
    exact .sched _ st hcode (by rcases hst with rfl | rfl | rfl <;> decide)
  | change q st =>
    cases hcode : m.code c <;> simp only [Machine.step, hcode, reduceCtorEq] at hs
    obtain ⟨hch, rfl⟩ := of_guard hs
    obtain ⟨hne, hne', hst⟩ := changes_ne hch
    exact .change q st rfl ⟨hne, hne'⟩ hst
  | wake q =>
    obtain ⟨⟨-, -, hq⟩, rfl⟩ := of_guard hs
    exact .change q .runnable rfl (by simp [hq]) (by decide)
  | giveUp q =>
    cases hcode : m.code c <;> simp only [Machine.step, hcode, reduceCtorEq] at hs
    obtain ⟨hq, rfl⟩ := of_guard hs
    exact .change q .unused rfl (by simp [hq]) (by decide)

section

variable {c : CpuId} {p q : ProcId} {x : Code} {st : ProcState}

lemma Ok.go (h : m.Ok) (hself : m.holder = none ∨ m.holder = some c) (hproc : x.proc = (m.code c).proc) :
    Ok { m.go c x with holder := if x.locked then some c else none } := by
  obtain ⟨hlock, hrun, hone, hon⟩ := h
  have hsame : ∀ d, (update m.code c x d).proc = (m.code d).proc := fun d => by
    by_cases hd : d = c
    · rw [hd, update_self, hproc]
    · rw [update_of_ne hd]
  constructor <;> simp only [Machine.go, hsame] <;> grind

lemma Ok.dispatch (h : m.Ok) (hcode : m.code c = .scan q.val) (hq : m.state q = .runnable) :
    Ok { m.go c (.inside q) with state := update m.state q .running } := by
  obtain ⟨hlock, hrun, hone, hon⟩ := h
  have hc := hlock c
  constructor <;> simp only [Machine.go, update_apply] <;> grind [Code.proc, Code.locked]

lemma Ok.sched (h : m.Ok) (hcode : m.code c = .inside p) (hst : st ≠ .running) :
    Ok { m.go c (.scan (p.val + 1)) with state := update m.state p st } := by
  obtain ⟨hlock, hrun, hone, hon⟩ := h
  have hc := hlock c
  constructor <;> simp only [Machine.go, update_apply] <;> grind [Code.proc, Code.locked]

lemma Ok.change (h : m.Ok) (hq : m.state q ≠ .running) (hst : st ≠ .running) :
    Ok { m with state := update m.state q st } := by
  obtain ⟨hlock, hrun, hone, hon⟩ := h
  constructor <;> simp only [update_apply] <;> grind

end

/-- **One step** keeps the invariant: the lock goes where the code says, and a process comes to a processor
only when it is `RUNNABLE`, so that no other one has it. -/
lemma Ok.step (h : m.Ok) (hs : m.step a = some t) : t.Ok := by
  obtain ⟨c, a⟩ := a
  cases h.moves hs with
  | go x hcode _ hself hproc => exact h.go hself (hproc.trans (by rw [hcode]))
  | dispatch q hcode hq => exact h.dispatch hcode hq
  | sched p st hcode hst => exact h.sched hcode hst
  | change q st _ hold hst => exact h.change hold.1 hst

lemma ok_of_run {as : List (CpuId × SchedAct)} (hrun : Run step anyStep boot as m) : m.Ok :=
  hrun.inv .boot fun _ _ _ h _ hs => h.step hs

/-- **No process is on two processors**, and none is `RUNNING` on no processor: in every reachable state the
processes in state `RUNNING` are those of the processors, and `ptable.lock` is held by at most one of them. -/
theorem running_on_one_cpu {as : List (CpuId × SchedAct)} (hrun : Run step anyStep boot as m) :
    (∀ p, m.state p = .running ↔ ∃! c, (m.code c).proc = some p) ∧
      ∀ c d, (m.code c).locked → (m.code d).locked → c = d := by
  have h := ok_of_run hrun
  refine ⟨fun p => ⟨fun hp => ?_, fun ⟨c, hc, _⟩ => h.running c p hc⟩, fun c d hc hd => ?_⟩
  · obtain ⟨c, hc⟩ := h.onCpu p hp
    exact ⟨c, hc, fun d hd => h.one d c p hd hc⟩
  · exact Option.mem_unique ((h.lock c).mpr hc) ((h.lock d).mpr hd)

theorem running_on_one_cpu_first : ∃ t, Run step anyStep boot [(0, .acquire), (0, .dispatch 0)] t ∧
    ∃! c, (t.code c).proc = some 0 := by
  obtain ⟨t, hrun, ht⟩ := run_of_check step anyStep boot [(0, .acquire), (0, .dispatch 0)]
    (fun t => t.state 0 = .running) (by decide)
  exact ⟨t, hrun, ((running_on_one_cpu hrun).1 0).mp ht⟩

end Machine

/-! ### How long a process waits -/

/-- How often processor `c` has switched to a process. -/
def dispatches (c : CpuId) (as : List (CpuId × SchedAct)) : Nat :=
  as.countP fun a => decide (a.1 = c) && a.2.isDispatch

namespace Machine

variable {m t : Machine} {p : ProcId} {a : CpuId × SchedAct}

/-- A processor comes nearer to the slot of `p` with each process to which it switches; at the slot itself
it cannot pass over `p`. -/
lemma rank_step (h : m.Ok) (hp : m.state p = .runnable) (ha : a.2 ≠ .dispatch p) (hs : m.step a = some t) :
    t.state p = .runnable ∧ ∀ c, (t.code c).rank p + dispatches c [a] ≤ (m.code c).rank p := by
  obtain ⟨c, a⟩ := a
  cases h.moves hs with
  | go x hcode hnot _ _ hrank =>
    refine ⟨hp, fun d => ?_⟩
    obtain rfl | hd := eq_or_ne c d
    · simpa [Machine.go, dispatches, hnot, hcode] using hrank p hp
    · simp [Machine.go, dispatches, hd, hd.symm]
  | dispatch q hcode hq =>
    have hpq : p ≠ q := fun heq => ha (by rw [heq])
    refine ⟨by simpa [hpq] using hp, fun d => ?_⟩
    obtain rfl | hd := eq_or_ne c d
    · have hval : p.val ≠ q.val := fun heq => hpq (Fin.ext heq)
      simp only [Machine.go, update_self, hcode, dispatches, Code.rank, Code.next]
      grind [SchedAct.isDispatch]
    · simp [Machine.go, dispatches, hd, hd.symm]
  | sched q st hcode hst =>
    have hpq : p ≠ q := by
      rintro rfl
      have := h.running c p (by rw [hcode]; rfl)
      rw [hp] at this
      cases this
    refine ⟨by simpa [hpq] using hp, fun d => ?_⟩
    obtain rfl | hd := eq_or_ne c d
    · simp [Machine.go, hcode, dispatches, SchedAct.isDispatch, Code.rank, Code.next]
    · simp [Machine.go, dispatches, hd, hd.symm]
  | change q st hnot hold =>
    have hpq : p ≠ q := fun heq => hold.2 (heq ▸ hp)
    exact ⟨by simpa [hpq] using hp, fun d => by simp [dispatches, hnot]⟩

/-- **No process waits for ever.** From the moment at which a process is `RUNNABLE` until some processor
switches to it, whatever the processes do meanwhile, it stays `RUNNABLE` and each processor switches to fewer
than `NPROC` others. -/
theorem bypassed_lt_nProc {as₀ as : List (CpuId × SchedAct)} (h₀ : Run step anyStep boot as₀ m)
    (hp : m.state p = .runnable) (hrun : Run step (fun _ a => a.2 ≠ .dispatch p) m as t) (c : CpuId) :
    t.state p = .runnable ∧ dispatches c as < nProc := by
  have hfirst : ∀ d, (m.code d).rank p < nProc := fun d => by
    unfold Code.rank
    split <;> omega
  obtain ⟨-, hstill, hrank⟩ := hrun.inv_trace
    (I := fun bs u => u.Ok ∧ u.state p = .runnable ∧
      ∀ d, (u.code d).rank p + dispatches d bs ≤ (m.code d).rank p)
    ⟨ok_of_run h₀, hp, fun d => by simp [dispatches]⟩ fun bs u a v ⟨hu, hup, hr⟩ ha hs => by
      obtain ⟨hvp, hv⟩ := rank_step hu hup ha hs
      refine ⟨hu.step hs, hvp, fun d => ?_⟩
      have happ : dispatches d (bs ++ [a]) = dispatches d bs + dispatches d [a] := List.countP_append
      have := hr d
      have := hv d
      omega
  have := hrank c
  have := hfirst c
  exact ⟨hstill, by omega⟩

/-- The first process makes two others. -/
def madeTwo : List (CpuId × SchedAct) :=
  [(0, .acquire), (0, .dispatch 0), (0, .change 1 .embryo), (0, .change 1 .runnable),
    (0, .change 2 .embryo), (0, .change 2 .runnable)]

def switched : List (CpuId × SchedAct) := [(0, .sched .runnable), (0, .dispatch 1), (0, .leave)]

/-- The third process waits while the processor goes from the first to the second. -/
theorem bypassed_lt_nProc_switched : ∃ m t, Run step anyStep boot madeTwo m ∧ m.state 2 = .runnable ∧
    Run step (fun _ a => a.2 ≠ .dispatch 2) m switched t ∧ t.state 2 = .runnable ∧
    dispatches 0 switched = 1 ∧ dispatches 0 switched < nProc := by
  obtain ⟨m, h₀, hp, h⟩ := run_of_check step anyStep boot madeTwo
    (fun m => m.state 2 = .runnable ∧
      (exec step (fun _ a => a.2 ≠ .dispatch 2) m switched).any (fun _ => True) = true) (by decide +kernel)
  obtain ⟨t, hrun, -⟩ := run_of_check _ _ _ _ _ h
  obtain ⟨hstill, hlt⟩ := bypassed_lt_nProc h₀ hp hrun 0
  exact ⟨m, t, h₀, hp, hrun, hstill, by decide, hlt⟩

end Machine

end Xv6.Process.Sched
