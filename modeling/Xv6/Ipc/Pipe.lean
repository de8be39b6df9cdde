import Xv6.Lib.Ring
import Xv6.Lib.Run

/-!
# Pipes (`pipe.c`)

A pipe is a ring of `PIPESIZE` bytes with the two counters `nread` and `nwrite`, under one lock. Any
number of processes write to it and read from it. A call runs under the lock until it returns or sleeps;
`sleep` gives the lock up, and when the process is woken the call goes on in the middle of its loop. So
the unit of interleaving is a *section* of a call, from where it takes the lock to where it returns or
sleeps, and a state says of each process in which call it sleeps and how far that call has come.

Writers sleep on `&p->nwrite` and readers on `&p->nread`; a process that has been woken, or killed, goes
on when it is scheduled. `accepted` and `returned` record what has been written into the pipe and what
reads have returned.
-/

namespace Xv6.Ipc

open Lib

/-- `PIPESIZE` -/
def pipeSize : Nat := 512

/-- `struct pipe`, without its lock. -/
structure Pipe extends Lib.Ring UInt8 where
  readopen : Bool
  writeopen : Bool

/-- Where a process is in a call on the pipe. -/
inductive PipeCall
  /-- in no call -/
  | none
  /-- in `pipewrite`, with `i` bytes of `addr` written; asleep on `&p->nwrite`, or woken -/
  | writing (addr : List UInt8) (i : Nat) (asleep : Bool)
  /-- in `piperead`; asleep on `&p->nread`, or woken -/
  | reading (n : Nat) (asleep : Bool)
  deriving DecidableEq

/-- What a section comes to. -/
inductive Outcome (α : Type)
  /-- the process sleeps -/
  | sleeps
  /-- the call returns `-1` -/
  | failed
  | returns (a : α)
  deriving DecidableEq

structure PipeState (Proc : Type) where
  pipe : Pipe
  killed : Proc → Bool
  call : Proc → PipeCall
  /-- the bytes written into the pipe so far -/
  accepted : List UInt8
  /-- the bytes returned by reads so far -/
  returned : List UInt8

/-- What processes do. -/
inductive PipeAct
  | write (addr : List UInt8)
  | read (n : Nat)
  /-- a process that has been woken is scheduled -/
  | resume
  | close (writable : Bool)
  | kill
  deriving DecidableEq

namespace PipeState

variable {Proc : Type} [DecidableEq Proc]

/-- After `pipealloc`. The memory comes from `kalloc`, with anything in it. -/
def pipealloc (data : Nat → UInt8) : PipeState Proc where
  pipe := ⟨⟨data, 0, 0⟩, true, true⟩
  killed _ := false
  call _ := .none
  accepted := []
  returned := []

def setCall (s : PipeState Proc) (p : Proc) (c : PipeCall) : PipeState Proc :=
  { s with call := Function.update s.call p c }

/-- `wakeup(&p->nread)` -/
def wakeReaders (s : PipeState Proc) : PipeState Proc :=
  { s with call := fun q => match s.call q with
    | .reading n _ => .reading n false
    | c => c }

/-- `wakeup(&p->nwrite)` -/
def wakeWriters (s : PipeState Proc) : PipeState Proc :=
  { s with call := fun q => match s.call q with
    | .writing addr i _ => .writing addr i false
    | c => c }

/-- The loop of `pipewrite` from byte `i` on, until the pipe is full. Returns how many bytes of `addr`
have been written. -/
def copyIn (s : PipeState Proc) (addr : List UInt8) (i : Nat) : PipeState Proc × Nat :=
  let (ring, k) := s.pipe.toRing.putAll pipeSize (addr.drop i)
  ({ s with pipe := { s.pipe with toRing := ring }, accepted := s.accepted ++ (addr.drop i).take k }, i + k)

/-- A section of `pipewrite`, with `i` bytes written before it. -/
def pipewrite (s : PipeState Proc) (p : Proc) (addr : List UInt8) (i : Nat) : Outcome Nat × PipeState Proc :=
  let (s, i) := s.copyIn addr i
  if i < addr.length then
    if s.pipe.readopen = false ∨ s.killed p = true then (.failed, s.setCall p .none)
    else (.sleeps, s.wakeReaders.setCall p (.writing addr i true))
  else (.returns addr.length, s.wakeReaders.setCall p .none)

/-- The loop of `piperead`. -/
def copyOut (s : PipeState Proc) (n : Nat) : PipeState Proc × List UInt8 :=
  let (ring, addr) := s.pipe.toRing.takeUpTo pipeSize n
  ({ s with pipe := { s.pipe with toRing := ring }, returned := s.returned ++ addr }, addr)

/-- A section of `piperead`. -/
def piperead (s : PipeState Proc) (p : Proc) (n : Nat) : Outcome (List UInt8) × PipeState Proc :=
  if s.pipe.empty = true ∧ s.pipe.writeopen = true then
    if s.killed p = true then (.failed, s.setCall p .none)
    else (.sleeps, s.setCall p (.reading n true))
  else
    let (s, addr) := s.copyOut n
    (.returns addr, s.wakeWriters.setCall p .none)

/-- `pipeclose` -/
def pipeclose (s : PipeState Proc) (writable : Bool) : PipeState Proc :=
  if writable = true then { s with pipe := { s.pipe with writeopen := false } }.wakeReaders
  else { s with pipe := { s.pipe with readopen := false } }.wakeWriters

/-- `kill` sets the flag and wakes the process. -/
def kill (s : PipeState Proc) (p : Proc) : PipeState Proc :=
  { s with
    killed := Function.update s.killed p true
    call := Function.update s.call p (match s.call p with
      | .writing addr i _ => .writing addr i false
      | .reading n _ => .reading n false
      | .none => .none) }

/-- When both ends are closed, the memory is given back. -/
def Freed (s : PipeState Proc) : Prop := s.pipe.readopen = false ∧ s.pipe.writeopen = false

instance (s : PipeState Proc) : Decidable s.Freed := inferInstanceAs (Decidable (_ ∧ _))

/-- One section of a call, or a `pipeclose` or `kill` as a whole. -/
def step (s : PipeState Proc) (a : Proc × PipeAct) : Option (PipeState Proc) :=
  if s.Freed then none
  else
    match a.2, s.call a.1 with
    | .write addr, .none => some (s.pipewrite a.1 addr 0).2
    | .read n, .none => some (s.piperead a.1 n).2
    | .resume, .writing addr i false => some (s.pipewrite a.1 addr i).2
    | .resume, .reading n false => some (s.piperead a.1 n).2
    | .close true, .none => if s.pipe.writeopen = true then some (s.pipeclose true) else none
    | .close false, .none => if s.pipe.readopen = true then some (s.pipeclose false) else none
    | .kill, _ => some (s.kill a.1)
    | _, _ => none

/-! ### First in, first out -/

/-- The pipe holds what has been accepted and not yet returned. -/
def Fifo (s : PipeState Proc) : Prop := s.pipe.toRing.Holds pipeSize s.accepted s.returned

variable {s t : PipeState Proc}

lemma pipeSize_dvd : pipeSize ∣ 2 ^ 32 := by decide

lemma pipeSize_lt : pipeSize < 2 ^ 32 := by decide

omit [DecidableEq Proc] in
lemma copyIn_spec (h : s.Fifo) (addr : List UInt8) (i : Nat) : (s.copyIn addr i).1.Fifo ∧
    ∃ k, (s.copyIn addr i).1.accepted = s.accepted ++ (addr.drop i).take k ∧
      (s.copyIn addr i).2 = i + k := by
  exact ⟨(Ring.Holds.putAll pipeSize_dvd pipeSize_lt (addr.drop i) h).1, _, rfl, rfl⟩

omit [DecidableEq Proc] in
lemma copyOut_fifo (h : s.Fifo) (n : Nat) : (s.copyOut n).1.Fifo :=
  h.takeUpTo pipeSize_dvd pipeSize_lt

/-- A section of a write appends the next bytes of `addr`, and the call returns when it has come to their
end. -/
lemma pipewrite_spec (h : s.Fifo) {p : Proc} {addr : List UInt8} {i : Nat} {o : Outcome Nat}
    (hwrite : s.pipewrite p addr i = (o, t)) :
    t.Fifo ∧ t.returned = s.returned ∧ ∃ k, t.accepted = s.accepted ++ (addr.drop i).take k ∧
      (o = .sleeps → t.call p = .writing addr (i + k) true) ∧
      ∀ n, o = .returns n → n = addr.length ∧ n ≤ i + k := by
  obtain ⟨hfifo, k, hacc, hk⟩ := copyIn_spec h addr i
  unfold pipewrite at hwrite
  dsimp only at hwrite
  split at hwrite
  · split at hwrite
    · rw [Prod.mk.injEq] at hwrite
      obtain ⟨rfl, rfl⟩ := hwrite
      exact ⟨hfifo, rfl, k, hacc, fun heq => (by cases heq), fun n heq => (by cases heq)⟩
    · rw [Prod.mk.injEq] at hwrite
      obtain ⟨rfl, rfl⟩ := hwrite
      refine ⟨hfifo, rfl, k, hacc, fun _ => ?_, fun n heq => (by cases heq)⟩
      show Function.update _ p _ p = _
      rw [Function.update_self, hk]
  · rename_i hend
    rw [Prod.mk.injEq] at hwrite
    obtain ⟨rfl, rfl⟩ := hwrite
    refine ⟨hfifo, rfl, k, hacc, fun heq => (by cases heq), fun n heq => ?_⟩
    injection heq with heq
    exact ⟨heq.symm, by omega⟩

/-- A section of a read returns the next bytes. Where it returns none although some are asked for, the
write end is closed and everything has been read. -/
lemma piperead_spec (h : s.Fifo) {p : Proc} {n : Nat} {o : Outcome (List UInt8)}
    (hread : s.piperead p n = (o, t)) :
    t.Fifo ∧ t.accepted = s.accepted ∧
      (∀ bytes, o = .returns bytes → t.returned = s.returned ++ bytes) ∧
      (0 < n → o = .returns [] → t.pipe.writeopen = false ∧ t.returned = t.accepted) := by
  unfold piperead at hread
  split at hread
  · split at hread
    · rw [Prod.mk.injEq] at hread
      obtain ⟨rfl, rfl⟩ := hread
      exact ⟨h, rfl, fun _ heq => (by cases heq), fun _ heq => (by cases heq)⟩
    · rw [Prod.mk.injEq] at hread
      obtain ⟨rfl, rfl⟩ := hread
      exact ⟨h, rfl, fun _ heq => (by cases heq), fun _ heq => (by cases heq)⟩
  · rename_i hdata
    rw [Prod.mk.injEq] at hread
    obtain ⟨rfl, rfl⟩ := hread
    refine ⟨copyOut_fifo h n, rfl, fun bytes heq => ?_, fun hn heq => ?_⟩
    · injection heq with heq
      rw [← heq]
      rfl
    · injection heq with hnothing
      have hempty : s.pipe.empty := Ring.empty_of_takeUpTo hn hnothing
      have hall := (h.empty_iff pipeSize_lt).mp hempty
      constructor
      · show s.pipe.writeopen = false
        simpa [hempty] using hdata
      · show s.returned ++ (s.copyOut n).2 = s.accepted
        rw [hnothing, List.append_nil, hall]

omit [DecidableEq Proc] in
lemma pipeclose_fifo (h : s.Fifo) (writable : Bool) : (s.pipeclose writable).Fifo := by
  unfold pipeclose
  split
  · exact h
  · exact h

lemma step_fifo (h : s.Fifo) {a : Proc × PipeAct} (hstep : s.step a = some t) : t.Fifo := by
  unfold step at hstep
  split at hstep
  · cases hstep
  split at hstep
  · exact Option.some.inj hstep ▸ (pipewrite_spec h rfl).1
  · exact Option.some.inj hstep ▸ (piperead_spec h rfl).1
  · exact Option.some.inj hstep ▸ (pipewrite_spec h rfl).1
  · exact Option.some.inj hstep ▸ (piperead_spec h rfl).1
  · split at hstep
    · exact Option.some.inj hstep ▸ pipeclose_fifo h true
    · cases hstep
  · split at hstep
    · exact Option.some.inj hstep ▸ pipeclose_fifo h false
    · cases hstep
  · exact Option.some.inj hstep ▸ h
  · cases hstep

end PipeState

section Fifo

variable {Proc : Type} [DecidableEq Proc] {data : Nat → UInt8} {as : List (Proc × PipeAct)}
  {t : PipeState Proc}

/-- A pipe is a queue, in every state that any number of readers and writers reach.

Between zero and `PIPESIZE` bytes are in it, what reads have returned is a prefix of what writers have put
in, and the rest is in the pipe, in this order. A section of a write puts in the next bytes of its buffer,
all of them by the time it returns their number; a section of a read that returns bytes takes them out. A
read that asks for bytes and returns none has found the write end closed and everything read. -/
theorem pipe_fifo (hrun : Run PipeState.step anyStep (PipeState.pipealloc data) as t) :
    (t.pipe.nwrite - t.pipe.nread).toNat ≤ pipeSize ∧
    t.returned <+: t.accepted ∧
    t.accepted = t.returned ++ t.pipe.content pipeSize ∧
    (∀ p addr i o u, t.pipewrite p addr i = (o, u) → u.returned = t.returned ∧
      ∃ k, u.accepted = t.accepted ++ (addr.drop i).take k ∧
        (o = .sleeps → u.call p = .writing addr (i + k) true) ∧
        ∀ n, o = .returns n → n = addr.length ∧ n ≤ i + k) ∧
    ∀ p n o u, t.piperead p n = (o, u) → u.accepted = t.accepted ∧
      (∀ bytes, o = .returns bytes → u.returned = t.returned ++ bytes) ∧
      (0 < n → o = .returns [] → u.pipe.writeopen = false ∧ u.returned = u.accepted) := by
  have h : t.Fifo := hrun.inv (Ring.holds_nil data) fun _ _ _ h _ hstep => PipeState.step_fifo h hstep
  refine ⟨?_, h.got_prefix, h.eq_append_content PipeState.pipeSize_dvd PipeState.pipeSize_lt,
    fun p addr i o u hwrite => (PipeState.pipewrite_spec h hwrite).2,
    fun p n o u hread => (PipeState.piperead_spec h hread).2⟩
  rw [h.toNat_sub PipeState.pipeSize_lt]
  have := h.bounded
  omega

end Fifo

/-- A reader waits for a writer, and gets two of its three bytes. -/
def readThenWrite : List (Bool × PipeAct) :=
  [(true, .read 2), (false, .write [1, 2, 3]), (true, .resume)]

theorem pipe_fifo_readThenWrite : ∃ t, Run PipeState.step anyStep
    (PipeState.pipealloc fun _ => 0) readThenWrite t ∧
    t.returned = [1, 2] ∧ t.accepted = [1, 2, 3] ∧ t.accepted = t.returned ++ t.pipe.content pipeSize := by
  obtain ⟨t, hrun, hret, hacc⟩ := run_of_check PipeState.step anyStep
    (PipeState.pipealloc fun _ => 0) readThenWrite
    (fun t => t.returned = [1, 2] ∧ t.accepted = [1, 2, 3]) (by decide +kernel)
  exact ⟨t, hrun, hret, hacc, (pipe_fifo hrun).2.2.1⟩

end Xv6.Ipc
