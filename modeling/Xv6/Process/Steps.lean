import Xv6.Process.Table
import Xv6.Lib.Run

/-!
# The processes as one system

Every process is at its kernel continuation; an action names the process that takes it and, for a
system call, its arguments and how far the memory goes that it asks for. Any process that is
`RUNNING` may act, so the runs of the system are all the interleavings of all the processes on any
number of CPUs.

A process that has been killed makes no more system calls: `trap` has it call `exit`. A call that
returned with `ptable.lock` held leaves the machine to the calls that do without the lock.
-/

namespace Xv6.Process

open Table (ForkMem ExecEnd)

inductive Act
  /-- the scheduler, a timer tick, or sleeping and waking on a channel that is not a process -/
  | sched (p : ProcId) (st : ProcState)
  | fork (p : ProcId) (mem : ForkMem)
  | exec (p : ProcId) (how : ExecEnd)
  /-- `exit`, up to its first critical section -/
  | exit (p : ProcId)
  /-- one round of the loop of `exit` -/
  | exitScan (p : ProcId)
  /-- the last critical section of `exit` -/
  | exitEnd (p : ProcId)
  /-- one round of the loop of `wait`, the first or a later one -/
  | wait (p : ProcId)
  | kill (p : ProcId) (pid : Nat)
  | threadCreate (p : ProcId) (stack : Bool) (avail : Nat)
  | threadExit (p : ProcId) (retval : Nat)
  /-- `thread_join`, one round of its loop, the first or a later one -/
  | threadJoin (p : ProcId) (thread : Nat)
  | sbrk (p : ProcId) (n : Int) (avail : Nat)
  deriving DecidableEq, Repr

/-- Does the action need `ptable.lock`? -/
def Act.takesLock : Act → Bool
  | .exec _ _ => false
  | .exit _ => false
  | _ => true

/-- The image `exec` lays out: whole pages, two of them the stack, below the kernel. -/
def Table.ExecEnd.Fits : ExecEnd → Prop
  | .done sz => sz % pgSize = 0 ∧ 2 * pgSize ≤ sz ∧ sz < kernBase
  | _ => True

instance : DecidablePred ExecEnd.Fits
  | .early => inferInstanceAs (Decidable True)
  | .bad => inferInstanceAs (Decidable True)
  | .done _ => inferInstanceAs (Decidable (_ ∧ _ ∧ _))

namespace Table

variable (s : Table)

/-- `p` runs on a CPU and is at `c`. -/
def stands (p : ProcId) (c : Cont) : Prop := (s.proc p).state = .running ∧ (s.proc p).cont = c

instance (p : ProcId) (c : Cont) : Decidable (s.stands p c) :=
  inferInstanceAs (Decidable (_ ∧ _))

/-- `p` may make a system call. -/
def calls (p : ProcId) : Prop := s.stands p .user ∧ (s.proc p).killed = false

instance (p : ProcId) : Decidable (s.calls p) := inferInstanceAs (Decidable (_ ∧ _))

/-- The scheduler runs `p` (which, in `sleep`, then resets `chan`), `p` yields, or `p` sleeps and is
woken on a channel that is not a process. -/
def sched (p : ProcId) : ProcState → Option Table
  | .running =>
    if (s.proc p).state = .runnable then
      some (s.modify p fun pr => { pr with state := .running, chan := none })
    else none
  | .runnable =>
    if (s.proc p).state = .running ∨
        ((s.proc p).state = .sleeping ∧ (s.proc p).chan = some .other) then
      some (s.modify p fun pr => { pr with state := .runnable })
    else none
  | .sleeping =>
    if s.stands p .user ∨ s.stands p .exitTail then
      some (s.modify p fun pr => { pr with state := .sleeping, chan := some .other })
    else none
  | _ => none

/-- One action. -/
def step (a : Act) : Option Table :=
  if s.stopped.isSome ∨ (s.locked ∧ a.takesLock) then none
  else
    match a with
    | .sched p st => s.sched p st
    | .fork p mem => if s.calls p then some (s.fork p mem) else none
    | .exec p how => if s.calls p ∧ how.Fits then some (s.exec p how) else none
    | .exit p => if s.stands p .user then some (s.exit p) else none
    | .exitScan p => if s.stands p .exitLoop then some (s.exitScan p) else none
    | .exitEnd p => if s.stands p .exitTail then some (s.exitEnd p) else none
    | .wait p => if s.calls p ∨ s.stands p .waitLoop then some (s.wait p) else none
    | .kill p pid => if s.calls p then some (s.kill p pid) else none
    | .threadCreate p stack avail =>
      if s.calls p then some (s.threadCreate p stack avail) else none
    | .threadExit p retval => if s.calls p then some (s.threadExit p retval) else none
    | .threadJoin p thread =>
      -- a later round repeats the test that the caller is a manager, which its first round passed
      if s.calls p ∨ s.stands p (.joinLoop thread) then some (s.threadJoin p thread) else none
    | .sbrk p n avail => if s.calls p then some (s.growproc p n avail) else none

/-- The table after `userinit`: `init` is the only process, with one page of `initcode`. -/
def boot : Table where
  proc p :=
    if p = initproc then
      { Proc.zero with state := .runnable, pid := 1, sz := pgSize, pgdir := some 0 }
    else Proc.zero
  numLwp := 0
  nextpid := 2
  nextlwpid := 1
  use _ := false
  nextdir := 1
  pages d i := decide (d = 0 ∧ i = 0)
  freed := []
  locked := false
  stopped := none

end Table

end Xv6.Process
