import Xv6.Process.Vm

/-!
# The process table and the calls that change it

The model of `proc.c` (with `exec` of `exec.c`): the `NPROC` slots of `ptable`, the globals
`num_lwp`, `nextpid` and `nextlwpid`, the stack slots `stable`, and the page directories. A page
directory is numbered by the order in which `setupkvm` hands them out, so that two slots share one
exactly if they have the same number; `freed` records every call of `freevm`.

A light-weight process (LWP) is a slot that `thread_create` filled in: it has its own stack and
kernel thread and shares the page directory of its manager. `fork` marks the child of an LWP
(`forked`), gives it an LWP number too, and leaves its `lwppid` at `0`.

Each call below is one step, except where it sleeps or closes files: the loops of `exit`, `wait` and
`thread_join` sleep between two scans of the table, and `exit` closes files between its loop and its
last critical section. Where a process is in such a call is its kernel continuation `Cont`. `fork` and
`thread_create` hold `ptable.lock` only in places (`allocproc` gives it up at once, and `num_lwp++` and
the `nextlwpid++` of `fork` are made without it): `Xv6.Process.Parts` divides them there. `nextpid`
has no bound here; the `int` has its value up to `2 ^ 31 - 1`.

A call that panics stops the machine; what it had changed before is dropped.
-/

namespace Xv6.Process

/-- `enum procstate`. -/
inductive ProcState
  | unused | embryo | sleeping | runnable | running | zombie
  deriving DecidableEq, Repr

/-- What a sleeping process waits for: `exit`, `wait` and `thread_join` sleep on the process itself;
all other channels (disk, pipes, ticks) are one. -/
inductive Chan
  | proc (p : ProcId)
  | other
  deriving DecidableEq, Repr

/-- Where a process is in the kernel. -/
inductive Cont
  /-- in user mode, or in a call that does not touch the process table -/
  | user
  /-- in the reaping loop of `exit` -/
  | exitLoop
  /-- in `exit`, past the loop, before the last critical section -/
  | exitTail
  /-- in the loop of `wait` -/
  | waitLoop
  /-- in the loop of `thread_join(thread, …)` -/
  | joinLoop (thread : Nat)
  /-- in the final `sched()` of `exit` -/
  | exited
  /-- in the final `sched()` of `thread_exit` -/
  | threadExited
  deriving DecidableEq, Repr

/-- The fields of `struct proc` that the calls below read, and the kernel continuation. -/
structure Proc where
  sz : Nat
  pgdir : Option Nat
  state : ProcState
  pid : Nat
  parent : Option ProcId
  chan : Option Chan
  killed : Bool
  lwpid : Nat
  lwppid : Nat
  retval : Nat
  /-- stack base of an LWP -/
  sbase : Nat
  /-- index into `stable` -/
  snum : Nat
  forked : Bool
  cont : Cont
  deriving DecidableEq, Repr

/-- A slot of the zero-initialised table. -/
def Proc.zero : Proc where
  sz := 0
  pgdir := none
  state := .unused
  pid := 0
  parent := none
  chan := none
  killed := false
  lwpid := 0
  lwppid := 0
  retval := 0
  sbase := 0
  snum := 0
  forked := false
  cont := .user

/-- What `exit` (for its LWPs) and `thread_join` leave in a slot. -/
def Proc.reaped (p : Proc) : Proc :=
  { p with pid := 0, parent := none, killed := false, state := .unused, lwpid := 0, lwppid := 0,
           sbase := 0, snum := 0, forked := false, retval := 0 }

/-- What `kill` does to a slot. -/
def Proc.hit (p : Proc) : Proc :=
  { p with killed := true, state := if p.state = .sleeping then .runnable else p.state }

/-- The kernel state the calls work on. -/
structure Table where
  proc : ProcId → Proc
  numLwp : Int
  nextpid : Nat
  nextlwpid : Nat
  /-- `stable.st[i].use` -/
  use : Nat → Bool
  /-- the number of the next page directory -/
  nextdir : Nat
  /-- the present pages of each page directory -/
  pages : Nat → Pages
  /-- the page directories passed to `freevm`, latest first -/
  freed : List Nat
  /-- `ptable.lock` was left held by a call that returned -/
  locked : Bool
  /-- the message of the panic that stopped the machine -/
  stopped : Option String

namespace Table

variable (s : Table)

/-- Update one slot. -/
def modify (p : ProcId) (f : Proc → Proc) : Table :=
  { s with proc := Function.update s.proc p (f (s.proc p)) }

/-- Replace the present pages of a page directory. -/
def setPages (d : Nat) (pg : Pages) : Table :=
  { s with pages := Function.update s.pages d pg }

/-- `panic(msg)`. -/
def panic (msg : String) : Table := { s with stopped := some msg }

/-! ### `allocproc`, `get_base`, `freevm`, `wakeup1` -/

/-- The first slot in table order with a property. -/
def findSlot (P : Proc → Bool) : Option ProcId :=
  (List.finRange nProc).find? fun p => P (s.proc p)

/-- Slot `q` as `allocproc` sets it up. `killed`, `parent` and the page directory keep what the
slot's last use left there. -/
def embryo (q : ProcId) : Table :=
  { s.modify q fun p =>
      { p with state := .embryo, pid := s.nextpid, lwpid := 0, lwppid := 0, retval := 0,
               sbase := 0, snum := 0, forked := false, cont := .user }
    with nextpid := s.nextpid + 1 }

/-- `allocproc`. The kernel stack is the one thing it allocates (`stack`: `kalloc` succeeds). -/
def allocproc (stack : Bool) : Option ProcId × Table :=
  match s.findSlot fun p => p.state = .unused with
  | none => (none, s)
  | some q =>
    if stack then (some q, s.embryo q)
    else (none, (s.embryo q).modify q fun p => { p with state := .unused })

/-- The first stack slot that is not in use. -/
def freeBase : Option Nat := (List.range (nProc * 50)).find? fun i => !s.use i

/-- `get_base(p)`: the first free stack slot, now in use and recorded in `p->snum`; `none` where the
source panics. -/
def getBase (p : ProcId) : Option (Nat × Table) :=
  match s.freeBase with
  | none => none
  | some i =>
    some (i, { s.modify p (fun p => { p with snum := i }) with use := Function.update s.use i true })

/-- `freevm(pgdir)`. -/
def freevm (d : Nat) : Table :=
  { s.setPages d fun _ => false with freed := d :: s.freed }

/-- Where the stack of stack slot `i` starts, for a creator of size `sz`. -/
def stackBase (sz i : Nat) : Nat := sz + 2 * pgSize * (i + 1)

/-- `sz + n` in the 32 bits of a `uint`. -/
def newSize (sz : Nat) (n : Int) : Nat := (((sz : Int) + n) % 2 ^ 32).toNat

/-- `wakeup1(p)` for a channel that is a process. -/
def wakeup1 (p : ProcId) : Table :=
  { s with proc := fun q =>
    if (s.proc q).state = .sleeping ∧ (s.proc q).chan = some (.proc p)
    then { s.proc q with state := .runnable } else s.proc q }

/-- `wakeup1(curproc->parent)`. -/
def wakeParent (p : ProcId) : Table :=
  match (s.proc p).parent with
  | some q => s.wakeup1 q
  | none => s

/-- `sleep(curproc, &ptable.lock)`, from the loop `c`. -/
def sleep (p : ProcId) (c : Cont) : Table :=
  s.modify p fun pr => { pr with state := .sleeping, chan := some (.proc p), cont := c }

/-- Return to user mode. -/
def ret (p : ProcId) : Table := s.modify p fun pr => { pr with cont := .user }

/-! ### `fork` and `exec` -/

/-- How far the memory goes that `fork` asks for. -/
inductive ForkMem
  /-- no kernel stack -/
  | noStack
  /-- `setupkvm` fails in `copyuvm` -/
  | noDir
  /-- `copyuvm` runs out of memory and frees the new directory -/
  | noPage
  | enough
  deriving DecidableEq, Repr

/-- `fork`. -/
def fork (p : ProcId) (mem : ForkMem) : Table :=
  let cur := s.proc p
  match s.allocproc (mem != .noStack) with
  | (none, s) => s
  | (some q, s') =>
    let s' :=
      if 0 < cur.lwpid then
        { s'.modify q fun np => { np with forked := true, lwpid := s'.nextlwpid }
          with nextlwpid := s'.nextlwpid + 1 }
      else s'
    match mem, cur.pgdir with
    | .enough, some d =>
      { (s'.setPages s'.nextdir (copyuvm (s'.pages d) cur.sz)).modify q fun np =>
          { np with pgdir := some s'.nextdir, sz := cur.sz, parent := some p, state := .runnable }
        with nextdir := s'.nextdir + 1 }
    | .enough, none => s.panic "trap"
    | .noPage, _ =>
      { (s'.freevm s'.nextdir).modify q fun np => { np with pgdir := none, state := .unused }
        with nextdir := s'.nextdir + 1 }
    | _, _ => s'.modify q fun np => { np with pgdir := none, state := .unused }

/-- How `exec` ends. -/
inductive ExecEnd
  /-- an error before there is a new page directory -/
  | early
  /-- an error after that: `bad` frees the new page directory -/
  | bad
  /-- the new image, of size `sz`, is committed to -/
  | done (sz : Nat)
  deriving DecidableEq, Repr

/-- `exec`: the new image is mapped from `0` to its size, which is page-aligned; the old page
directory is freed. -/
def exec (p : ProcId) : ExecEnd → Table
  | .early => s
  | .bad => { s.freevm s.nextdir with nextdir := s.nextdir + 1 }
  | .done sz =>
    match (s.proc p).pgdir with
    | some d =>
      { ((s.setPages s.nextdir fun i => decide (i < pgUp sz)).modify p fun pr =>
          { pr with pgdir := some s.nextdir, sz := sz }).freevm d
        with nextdir := s.nextdir + 1 }
    | none => s.panic "freevm: no pgdir"

/-! ### `exit` and `wait` -/

/-- The slot whose process is `init`: `userinit` runs first. -/
def initproc : ProcId := 0

/-- `deallocuvm(p->pgdir, p->sbase+2*PGSIZE, p->sbase)`. -/
def deallocStack (q : ProcId) : Table :=
  match (s.proc q).pgdir with
  | some d =>
    s.setPages d
      (deallocuvm (s.pages d) ((s.proc q).sbase + 2 * pgSize) (s.proc q).sbase).2
  | none => s

/-- `exit` up to its first critical section. -/
def exit (p : ProcId) : Table :=
  if p = initproc then s.panic "init exiting"
  else if (s.proc p).lwpid = 0 then
    s.modify p fun pr => { pr with killed := true, cont := .exitLoop }
  else
    -- if called from a LWP, kill master proc
    let s := match (s.proc p).parent with
      | some m => if (s.proc p).forked then s else s.modify m fun pr => { pr with killed := true }
      | none => s
    s.modify p fun pr => { pr with cont := .exitTail }

/-- One iteration of the inner loop of `exit`: slot `q`, for a manager whose pid is `pid`. -/
def exitVisit (pid : Nat) (s : Table) (q : ProcId) : Table :=
  if (s.proc q).lwppid = pid then
    if (s.proc q).state = .zombie then
      { (s.deallocStack q).modify q Proc.reaped with numLwp := s.numLwp - 1 }
    else (s.modify q fun pr => { pr with killed := true }).wakeup1 q
  else s

/-- One round of the outer loop of `exit`: a scan of the table, then the test of `num_lwp`. -/
def exitScan (p : ProcId) : Table :=
  let s := (List.finRange nProc).foldl (exitVisit (s.proc p).pid) s
  if s.numLwp = 0 then s.modify p fun pr => { pr with cont := .exitTail } else s.sleep p .exitLoop

/-- `p->parent = initproc` for every child of `p`. -/
def adopt (p : ProcId) : Table :=
  { s with
    proc := fun q =>
      if (s.proc q).parent = some p then { s.proc q with parent := some initproc } else s.proc q }

/-- Pass abandoned children to init. -/
def reparent (p : ProcId) : Table :=
  if ∃ q, (s.proc q).parent = some p ∧ (s.proc q).state = .zombie
  then (s.adopt p).wakeup1 initproc
  else s.adopt p

/-- The last critical section of `exit`. -/
def exitEnd (p : ProcId) : Table :=
  ((s.wakeParent p).reparent p).modify p fun pr => { pr with state := .zombie, cont := .exited }

/-- The exited child that a scan of `wait` by `p` finds first. -/
def waitFinds (p : ProcId) : Option ProcId :=
  s.findSlot fun pr => pr.parent = some p ∧ pr.state = .zombie

/-- One round of the loop of `wait`. -/
def wait (p : ProcId) : Table :=
  match s.waitFinds p with
  | some q =>
    match (s.proc q).pgdir with
    | some d =>
      ((s.freevm d).modify q fun pr =>
        { pr with pid := 0, parent := none, killed := false, state := .unused }).ret p
    | none => s.panic "freevm: no pgdir"
  | none =>
    if (s.findSlot fun pr => pr.parent = some p).isNone ∨ (s.proc p).killed then s.ret p
    else s.sleep p .waitLoop

/-- `kill(pid)`. -/
def kill (p : ProcId) (pid : Nat) : Table :=
  if 0 < (s.proc p).lwpid then
    { s with proc := fun q => if 0 < (s.proc q).lwpid then (s.proc q).hit else s.proc q }
  else
    match s.findSlot fun pr => pr.pid = pid with
    | some q => s.modify q Proc.hit
    | none => s

/-! ### LWPs -/

/-- The section of `thread_create` that holds `ptable.lock`, for the caller `p`, whose slot is `cur`; an
error is a panic. Where `allocuvm` fails the source returns with the lock held. -/
@[irreducible]
def fillLwp (p : ProcId) (cur : Proc) (q : ProcId) (avail : Nat) : Except String Table :=
  let s' := { s.modify q fun np =>
      { np with lwppid := if 0 < cur.lwpid then cur.lwppid else cur.pid
                parent := if 0 < cur.lwpid then cur.parent else some p
                lwpid := s.nextlwpid
                pgdir := cur.pgdir }
    with nextlwpid := s.nextlwpid + 1 }
  match s'.getBase q, cur.pgdir with
  | some (i, s'), some d =>
    let sbase := stackBase cur.sz i
    match allocuvm (s.pages d) sbase (sbase + 2 * pgSize) avail with
    | .size sz pg =>
      .ok ((s'.setPages d pg).modify q fun np => { np with sbase := sbase, sz := sz, state := .runnable })
    | .failed pg =>
      .ok { (s'.setPages d pg).modify q fun np => { np with sbase := sbase, sz := 0, state := .unused }
        with locked := true }
    | .remap => .error "remap"
  | none, _ => .error "get_base() panic"
  | _, none => .error "trap"

/-- `thread_create`. -/
def threadCreate (p : ProcId) (stack : Bool) (avail : Nat) : Table :=
  match s.allocproc stack with
  | (none, s) => s
  | (some q, s') =>
    match fillLwp { s' with numLwp := s'.numLwp + 1 } p (s.proc p) q avail with
    | .ok s' => s'
    | .error msg => s.panic msg

/-- `thread_exit`. -/
def threadExit (p : ProcId) (retval : Nat) : Table :=
  if p = initproc then s.panic "init exiting\n"
  else
    { (s.wakeParent p).modify p fun pr =>
        { pr with retval := retval, state := .zombie, cont := .threadExited }
      with numLwp := s.numLwp - 1 }

/-- The ended LWP that a scan of `thread_join(thread, …)` by `p` finds. -/
def joinFinds (p : ProcId) (thread : Nat) : Option ProcId :=
  s.findSlot fun pr => pr.lwpid = thread ∧ pr.lwppid = (s.proc p).pid ∧ pr.state = .zombie

/-- One round of the loop of `thread_join(thread, …)`. -/
def joinScan (p : ProcId) (thread : Nat) : Table :=
  match s.joinFinds p thread with
  | some q =>
    ({ (s.deallocStack q).modify q Proc.reaped
        with use := Function.update s.use (s.proc q).snum false }).ret p
  | none => if (s.proc p).killed then s.ret p else s.sleep p (.joinLoop thread)

/-- `thread_join`: only a manager may call it. -/
def threadJoin (p : ProcId) (thread : Nat) : Table :=
  if (s.proc p).lwpid ≠ 0 then s else s.joinScan p thread

/-- `k` calls of `get_base(p)`. -/
def getBases (p : ProcId) : Nat → Table → Option Table
  | 0, s => some s
  | k + 1, s => (s.getBase p).bind fun (_, s) => getBases p k s

/-- The process whose `sz` a `sbrk` of `p` moves: an LWP grows its parent. -/
def owner (p : ProcId) : Option ProcId :=
  if 0 < (s.proc p).lwpid then (s.proc p).parent else some p

/-- `growproc(n)`, the body of `sbrk`. Where the source returns `-1` it returns with `ptable.lock`
held. -/
def growproc (p : ProcId) (n : Int) (avail : Nat) : Table :=
  match getBases p (n.toNat / (2 * pgSize)) s, s.owner p, (s.proc p).pgdir with
  | some s', some o, some d =>
    let sz := (s.proc o).sz
    let r :=
      if 0 < n then allocuvm (s.pages d) sz (newSize sz n) avail
      else if n < 0 then
        match deallocuvm (s.pages d) sz (newSize sz n) with
        | (0, pg) => .failed pg
        | (sz, pg) => .size sz pg
      else .size sz (s.pages d)
    match r with
    | .size sz pg => (s'.setPages d pg).modify o fun pr => { pr with sz := sz }
    | .failed pg => { s'.setPages d pg with locked := true }
    | .remap => s.panic "remap"
  | none, _, _ => s.panic "get_base() panic"
  | _, _, _ => s.panic "trap"

end Table

end Xv6.Process
