import Xv6.Disk.Log
import Xv6.Lib.Run

/-!
# Processes that use the log

Any number of processes run file-system operations: each is a `begin_op`, any `bread`s, modifications
with `log_write` and `brelse`s, and an `end_op`; reads also happen outside of operations. The last
outstanding `end_op` runs `commit` and, when the log is full, `sync`; any process may call the `sync`
system call at any time; the first process runs `recover_from_log` before anything else happens.

A process is at a program point `Pc`. A step of the system is one piece of `Xv6.Disk.Log` of one
process: the test of a loop together with the iteration behind it, an assignment, a call of
`write_head`. A step that would sleep is not enabled; a step that panics stops the machine.
-/

namespace Xv6.Disk

open Lib

/-- Where `install_trans` and the code behind it were called from. -/
inductive Caller
  | endOp
  | sysSync
  | recover
  deriving Repr, DecidableEq

/-- Where a process is. -/
inductive Pc
  /-- outside of `log.c` and of any operation -/
  | user
  /-- between `begin_op` and `end_op` -/
  | inOp
  /-- `commit`: about to test `log.lh.n > 0` -/
  | commit
  /-- in the loop of `write_log` -/
  | writeLog (tail : Nat)
  /-- in `commit`, before `write_head` -/
  | commitHead
  /-- in `end_op`, before `if(log.full)` -/
  | fullTest
  /-- in `sync`, before the tests of `log.lh.n` -/
  | sync (c : Caller)
  /-- in the loop of `install_trans` -/
  | install (c : Caller) (tail : Nat)
  /-- before `log.lh.n = 0` -/
  | reset (c : Caller)
  /-- before the `write_head` that erases the transaction from the log -/
  | clearHead (c : Caller)
  /-- in `end_op`, before `log.committing = 0` -/
  | endCommit
  /-- in `recover_from_log`, before `read_head` -/
  | readHead
  deriving Repr, DecidableEq

/-- Where `sync` and `recover_from_log` return to. -/
def Caller.ret : Caller → Pc
  | .endOp => .endCommit
  | .sysSync => .user
  | .recover => .user

/-- In `recover_from_log` (which never is at `sync`; the case completes the type). -/
def Pc.recovering : Pc → Bool
  | .readHead => true
  | .sync .recover => true
  | .install .recover _ => true
  | .reset .recover => true
  | .clearHead .recover => true
  | _ => false

/-- What a process can do next. -/
inductive Act
  | beginOp (p : ProcId)
  | bread (p : ProcId) (b : Nat)
  /-- modify the held buffer of block `b` to `v` and call `log_write` -/
  | logWrite (p : ProcId) (b : Nat) (v : Block)
  | brelse (p : ProcId) (b : Nat)
  | endOp (p : ProcId)
  /-- the next piece of the commit, `sync` or recovery that `p` is in -/
  | run (p : ProcId)
  | sysSync (p : ProcId)

/-- The kernel and its processes; `stopped` is the message of the `panic` that stopped it. -/
structure Sys where
  k : Kernel
  pc : ProcId → Pc
  stopped : Option String

/-- The process that runs `initlog` (in `forkret`): the first one, made by `userinit`. -/
def initProc : ProcId := 0

namespace Sys

/-- The machine switched on with a given disk. -/
def boot (disk : Nat → Block) : Sys where
  k := Kernel.boot disk
  pc := fun p => if p = initProc then .readHead else .user
  stopped := none

/-- Run a piece for process `p` and move it on. -/
def go {α : Type} (s : Sys) (p : ProcId) (c : KM α) (next : α → Pc) : Option Sys :=
  match c s.k with
  | .ok a k => some { s with k := k, pc := Function.update s.pc p (next a) }
  | .error .blocked _ => none
  | .error (.panic m) k => some { s with k := k, stopped := some m }

/-- Move process `p` on without touching the kernel state. -/
def move (s : Sys) (p : ProcId) (next : Pc) : Option Sys :=
  some { s with pc := Function.update s.pc p next }

/-- The buffer in which `p` holds block `b`. -/
def held (s : Sys) (p : ProcId) (b : Nat) : Option (Fin nBuf) :=
  match s.k.cached rootDev b with
  | some i => if (s.k.buf i).lock = some p then some i else none
  | none => none

/-- Assign to the in-memory log. -/
def assignLog (f : Log → Log) : KM Unit := do
  let k ← get
  set (k.setLog (f k.log))

/-- The next piece of `commit`, `sync` or `recover_from_log`. -/
def runStep (s : Sys) (p : ProcId) : Option Sys :=
  let lh := s.k.log.lh
  match s.pc p with
  | .commit => if 0 < lh.length then s.move p (.writeLog 0) else s.move p .fullTest
  | .writeLog t =>
    if t < lh.length then s.go p (writeLogBlock p t (lh.getD t 0)) fun _ => .writeLog (t + 1)
    else s.move p .commitHead
  | .commitHead => s.go p (writeHead p) fun _ => .fullTest
  | .fullTest => if s.k.log.full = true then s.move p (.sync .endOp) else s.move p .endCommit
  | .sync c =>
    if lh.length < logSize - 1 then s.move p c.ret
    else if logSize - 1 < lh.length then s.move p c.ret
    else s.move p (.install c 0)
  | .install c t =>
    if t < lh.length then s.go p (installBlock p t (lh.getD t 0)) fun _ => .install c (t + 1)
    else s.move p (.reset c)
  | .reset c => s.go p (assignLog fun l => { l with lh := [] }) fun _ => .clearHead c
  | .clearHead c => s.go p (writeHead p) fun _ => c.ret
  | .endCommit => s.go p (assignLog fun l => { l with committing := false }) fun _ => .user
  | .readHead => s.go p (readHead p) fun _ => .install .recover 0
  | .user => none
  | .inOp => none

/-- Recovery has not finished: nothing but recovery runs yet. -/
def recovering (s : Sys) : Bool := (s.pc initProc).recovering

/-- One step of the system. -/
def step (s : Sys) (a : Act) : Option Sys :=
  if s.stopped.isSome then none
  else match a with
  | .run p => s.runStep p
  | .beginOp p =>
    if s.recovering = false ∧ s.pc p = .user then s.go p beginOp fun _ => .inOp else none
  | .bread p b =>
    if s.recovering = false ∧ (s.pc p = .user ∨ s.pc p = .inOp) then
      s.go p (Disk.bread p rootDev b) fun _ => s.pc p
    else none
  | .logWrite p b v =>
    if s.recovering = false ∧ s.pc p = .inOp then
      match s.held p b with
      | some i => s.go p (do setData i v; Disk.logWrite i) fun _ => .inOp
      | none => none
    else none
  | .brelse p b =>
    if s.recovering = false ∧ (s.pc p = .user ∨ s.pc p = .inOp) then
      match s.held p b with
      | some i => s.go p (Disk.brelse p i) fun _ => s.pc p
      | none => none
    else none
  | .endOp p =>
    if s.recovering = false ∧ s.pc p = .inOp then
      s.go p Disk.endOp fun doCommit => if doCommit then .commit else .user
    else none
  | .sysSync p =>
    if s.recovering = false ∧ s.pc p = .user then s.move p (.sync .sysSync) else none

end Sys

/-! ### Runs of one operation -/

/-- Log the given contents, one block after the other. -/
def logActs (p : ProcId) (writes : List (Nat × Block)) : List Act :=
  writes.flatMap fun w => [.bread p w.1, .logWrite p w.1 w.2, .brelse p w.1]

/-- `n` steps of the commit, `sync` or recovery that `p` is in. -/
def runActs (p : ProcId) (n : Nat) : List Act := List.replicate n (.run p)

/-- Recovery with an empty log: `read_head`, the end of the loop, `n = 0` and `write_head`. -/
def bootActs : List Act := runActs initProc 4

/-- A disk of zeros: its log is empty. -/
def zeroDisk : Nat → Block := fun _ => Lib.Bytes.zero

/-- A block with a recognisable first word. -/
def stamp (n : Nat) : Block := Lib.Bytes.zero.setWord 0 n

end Xv6.Disk
