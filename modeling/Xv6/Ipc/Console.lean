import Xv6.Lib.Ring
import Xv6.Lib.Run

/-!
# The line buffer of the console (`console.c`)

`consoleintr` puts typed characters into a ring of `INPUT_BUF` bytes. A line can be edited until it is
committed, by its end, by `^D`, or because the ring is full: then `w` is moved up to `e`, and readers are
woken. `consoleread` takes bytes up to `w`. It ends at the end of a line; `^D` ends it too, and stays in the
buffer if the read has got anything before, so that the next read returns 0.

Both run under the lock of the console. A read that finds nothing sleeps, which gives the lock up, and goes
on in the middle of its loop when it is woken. As for pipes, the unit of interleaving is a section of a
call. The counters `r` and `e` of the source are those of the ring.

`committed` records the bytes committed so far, `consumed` those that `r` has passed, `copied` those that
have been stored for readers, and `reads` the calls that have returned, with what was asked for and what
was returned.
-/

namespace Xv6.Ipc

open List (append_assoc append_cancel_left append_nil length_append mem_cons not_mem_nil)
open Lib

/-- `INPUT_BUF` -/
def inputBuf : Nat := 128

/-- `C('D')` -/
def ctrlD : UInt8 := 4

/-- `C('H')` -/
def ctrlH : UInt8 := 8

/-- `'\n'` -/
def newline : UInt8 := 10

/-- `'\r'` -/
def carriageReturn : UInt8 := 13

/-- `C('P')` -/
def ctrlP : UInt8 := 16

/-- `C('U')` -/
def ctrlU : UInt8 := 21

/-- `'\x7f'` -/
def delete : UInt8 := 127

/-- `input` -/
structure Input extends Lib.Ring UInt8 where
  w : UInt32

namespace Input

/-- The bytes from `r` up to `w`. -/
def unread (s : Input) : List UInt8 := Ring.content inputBuf { s.toRing with nwrite := s.w }

/-- The bytes from `w` up to `e`. -/
def line (s : Input) : List UInt8 := Ring.content inputBuf { s.toRing with nread := s.w }

/-- `input.e--` -/
def erase (s : Input) : Input := { s with nwrite := s.nwrite - 1 }

/-- The loop of `^U`, in at most the given number of rounds. -/
def killLine : Nat → Input → Input
  | 0, s => s
  | k + 1, s =>
    if s.nwrite ≠ s.w ∧ s.data ((s.nwrite - 1).toNat % inputBuf) ≠ newline then killLine k s.erase
    else s

lemma killLine_ends (k : Nat) (s : Input) (hk : (s.nwrite - s.w).toNat ≤ k) :
    (s.killLine k).nwrite = (s.killLine k).w ∨
      (s.killLine k).data (((s.killLine k).nwrite - 1).toNat % inputBuf) = newline := by
  induction k generalizing s with
  | zero =>
    refine .inl (UInt32.toNat_inj.mp ?_)
    rw [UInt32.toNat_sub] at hk
    have := s.nwrite.toNat_lt
    have := s.w.toNat_lt
    rw [killLine]
    omega
  | succ k ih =>
    rw [killLine]
    split
    next hgo =>
      refine ih s.erase ?_
      have hne : s.nwrite.toNat ≠ s.w.toNat := fun heq => hgo.1 (UInt32.toNat_inj.mp heq)
      show (s.nwrite - 1 - s.w).toNat ≤ k
      rw [UInt32.toNat_sub] at hk
      rw [UInt32.toNat_sub, UInt32.toNat_sub, show (1 : UInt32).toNat = 1 from rfl]
      have := s.nwrite.toNat_lt
      have := s.w.toNat_lt
      omega
    next hstop =>
      rwa [not_and_or, not_not, not_not] at hstop

/-- How the loop of `consoleread` ends. -/
inductive ReadEnd
  /-- there is nothing more to read -/
  | empty
  /-- `^D` -/
  | eof
  /-- enough bytes, or the end of a line -/
  | done
  deriving DecidableEq

/-- The loop of `consoleread`, with `n` bytes to go; `first` says whether `n` is `target`. Returns the
bytes that it copies. -/
def readBytes : Bool → Nat → Input → Input × List UInt8 × ReadEnd
  | _, 0, s => (s, [], .done)
  | first, n + 1, s =>
    if s.nread = s.w then (s, [], .empty)
    else
      let c := s.front inputBuf
      let s := { s with toRing := s.drop }
      if c = ctrlD then (if first then s else { s with nread := s.nread - 1 }, [], .eof)
      else if c = newline then (s, [c], .done)
      else
        let (s, cs, e) := readBytes false n s
        (s, c :: cs, e)

end Input

/-- A call of `consoleread` that sleeps, or has been woken, with `n` of `target` bytes to go. -/
structure Reading where
  target : Nat
  n : Nat
  asleep : Bool
  deriving DecidableEq

/-- What a section of `consoleread` comes to. -/
inductive ReadOutcome
  | sleeps
  /-- the call returns `-1` -/
  | failed
  | returns (k : Nat)
  deriving DecidableEq

structure Console (Proc : Type) where
  input : Input
  killed : Proc → Bool
  call : Proc → Option Reading
  committed : List UInt8
  consumed : List UInt8
  copied : List UInt8
  reads : List (Nat × Nat)

inductive ConsoleAct (Proc : Type)
  /-- an interrupt, with the characters that `getc` returns -/
  | intr (cs : List UInt8)
  | read (p : Proc) (n : Nat)
  /-- a process that has been woken is scheduled -/
  | resume (p : Proc)
  | kill (p : Proc)

namespace Console

variable {Proc : Type} [DecidableEq Proc]

/-- Before anything has been typed. -/
def start (data : Nat → UInt8) : Console Proc where
  input := ⟨⟨data, 0, 0⟩, 0⟩
  killed _ := false
  call _ := none
  committed := []
  consumed := []
  copied := []
  reads := []

/-- `input.w = input.e; wakeup(&input.r);` -/
def commit (s : Console Proc) : Console Proc :=
  { s with
    input := { s.input with w := s.input.nwrite }
    call := fun p => (s.call p).map fun c => { c with asleep := false }
    committed := s.committed ++ s.input.line }

/-- One round of the loop of `consoleintr`. -/
def intrChar (s : Console Proc) (c : UInt8) : Console Proc :=
  if c = ctrlP then s
  else if c = ctrlU then
    { s with input := s.input.killLine (s.input.nwrite - s.input.w).toNat }
  else if c = ctrlH ∨ c = delete then
    if s.input.nwrite ≠ s.input.w then { s with input := s.input.erase } else s
  else if c ≠ 0 ∧ (s.input.nwrite - s.input.nread).toNat < inputBuf then
    let c := if c = carriageReturn then newline else c
    let s := { s with input := { s.input with toRing := s.input.put inputBuf c } }
    if c = newline ∨ c = ctrlD ∨ s.input.nwrite = s.input.nread + UInt32.ofNat inputBuf then s.commit
    else s
  else s

def consoleintr (s : Console Proc) (cs : List UInt8) : Console Proc := cs.foldl intrChar s

/-- A section of `consoleread`, with `n` of `target` bytes to go. -/
def consoleread (s : Console Proc) (p : Proc) (target n : Nat) : ReadOutcome × Console Proc :=
  let (input, cs, e) := s.input.readBytes (decide (n = target)) n
  let n' := n - cs.length
  let s := { s with
    input := input
    consumed := s.consumed ++ cs ++ if e = Input.ReadEnd.eof ∧ n' = target then [ctrlD] else []
    copied := s.copied ++ cs }
  match e with
  | .empty =>
    if s.killed p = true then (.failed, { s with call := Function.update s.call p none })
    else (.sleeps, { s with call := Function.update s.call p (some ⟨target, n', true⟩) })
  | _ =>
    (.returns (target - n'),
      { s with call := Function.update s.call p none, reads := s.reads ++ [(target, target - n')] })

/-- `kill` sets the flag and wakes the process. -/
def kill (s : Console Proc) (p : Proc) : Console Proc :=
  { s with
    killed := Function.update s.killed p true
    call := Function.update s.call p ((s.call p).map fun c => { c with asleep := false }) }

/-- An interrupt as a whole, one section of a read, or a `kill`. -/
def step (s : Console Proc) : ConsoleAct Proc → Option (Console Proc)
  | .intr cs => some (s.consoleintr cs)
  | .read p n =>
    match s.call p with
    | none => some (s.consoleread p n n).2
    | some _ => none
  | .resume p =>
    match s.call p with
    | some ⟨target, n, false⟩ => some (s.consoleread p target n).2
    | _ => none
  | .kill p => some (s.kill p)

end Console

/-! ### The indices and the history -/

lemma inputBuf_dvd : inputBuf ∣ 2 ^ 32 := by decide

lemma inputBuf_lt : inputBuf < 2 ^ 32 := by decide

/-- The ring holds what has been committed and not yet consumed, and after it a line that can still be
edited. -/
structure Input.Ok (committed consumed line : List UInt8) (s : Input) : Prop where
  holds : Ring.Holds inputBuf (committed ++ line) consumed s.toRing
  w : s.w.toNat = committed.length % 2 ^ 32
  le : consumed.length ≤ committed.length

namespace Input.Ok

variable {s : Input} {committed consumed line : List UInt8}

section

variable (h : s.Ok committed consumed line)
include h

lemma edit : Ring.Holds inputBuf (committed ++ line) committed { s.toRing with nread := s.w } :=
  h.holds.skip h.le h.w

lemma committed_holds : Ring.Holds inputBuf committed consumed { s.toRing with nwrite := s.w } :=
  h.holds.cut h.le h.w

lemma unread_eq : committed = consumed ++ s.unread :=
  h.committed_holds.eq_append_content inputBuf_dvd inputBuf_lt

lemma line_eq : s.line = line :=
  (append_cancel_left (h.edit.eq_append_content inputBuf_dvd inputBuf_lt)).symm

/-- `0 <= w - r <= e - r <= INPUT_BUF` -/
lemma order : (s.w - s.nread).toNat ≤ (s.nwrite - s.nread).toNat ∧ (s.nwrite - s.nread).toNat ≤ inputBuf := by
  have hw := h.committed_holds.toNat_sub inputBuf_lt
  have he := h.holds.toNat_sub inputBuf_lt
  have hb := h.holds.bounded
  rw [length_append] at he hb
  simp only at hw
  omega

lemma nwrite_eq_w : s.nwrite = s.w ↔ line = [] := by
  have he := h.edit.empty_iff inputBuf_lt
  rw [Ring.empty, beq_iff_eq] at he
  simp only at he
  rw [eq_comm, he]
  simp

lemma nread_eq_w : s.nread = s.w ↔ s.unread = [] := by
  have hr := h.committed_holds.empty_iff inputBuf_lt
  rw [Ring.empty, beq_iff_eq] at hr
  rw [hr]
  have heq := h.unread_eq
  constructor
  · intro hc
    rw [hc] at heq
    simpa using heq
  · intro hu
    rw [hu, append_nil] at heq
    exact heq.symm

end

lemma erase (h : s.Ok committed consumed (line ++ [c])) : s.erase.Ok committed consumed line := by
  have hw : (s.nwrite - 1).toNat = (committed ++ line).length % 2 ^ 32 := by
    rw [UInt32.toNat_sub, h.holds.nwrite]
    simp only [length_append, List.length_singleton, UInt32.reduceToNat]
    omega
  refine ⟨?_, h.w, h.le⟩
  have hh := h.holds
  rw [← append_assoc] at hh
  exact hh.cut (by rw [length_append]; have := h.le; omega) hw

lemma killLine (h : s.Ok committed consumed line) (k : Nat) :
    ∃ line', (s.killLine k).Ok committed consumed line' := by
  induction k generalizing s line with
  | zero => exact ⟨line, h⟩
  | succ k ih =>
    rw [Input.killLine]
    split
    next hgo =>
      have hne : line ≠ [] := fun heq => hgo.1 (h.nwrite_eq_w.mpr heq)
      rw [← List.dropLast_concat_getLast hne] at h
      exact ih h.erase
    next => exact ⟨line, h⟩

lemma put (h : s.Ok committed consumed line) (hroom : (s.nwrite - s.nread).toNat < inputBuf) (c : UInt8) :
    Input.Ok committed consumed (line ++ [c]) { s with toRing := s.put inputBuf c } := by
  refine ⟨?_, h.w, h.le⟩
  rw [← append_assoc]
  refine h.holds.put inputBuf_dvd inputBuf_lt ?_ c
  rw [h.holds.full_iff inputBuf_lt]
  rw [h.holds.toNat_sub inputBuf_lt] at hroom
  have := h.holds.le
  omega

lemma commit (h : s.Ok committed consumed line) :
    Input.Ok (committed ++ line) consumed [] { s with w := s.nwrite } := by
  refine ⟨?_, h.holds.nwrite, ?_⟩
  · rw [append_nil]
    exact h.holds
  · rw [length_append]
    have := h.le
    omega

lemma take (h : s.Ok committed consumed line) (hne : s.nread ≠ s.w) :
    ∃ rest, s.unread = s.front inputBuf :: rest ∧
      Input.Ok committed (consumed ++ [s.front inputBuf]) line { s with toRing := s.drop } ∧
      Input.unread { s with toRing := s.drop } = rest := by
  have hempty : ¬ Ring.empty { s.toRing with nwrite := s.w } = true := by
    rw [Ring.empty, beq_iff_eq]
    exact hne
  have htake := h.committed_holds.take inputBuf_dvd inputBuf_lt hempty
  have hfull : ¬ s.toRing.empty := by
    rw [h.holds.empty_iff inputBuf_lt]
    rw [h.committed_holds.empty_iff inputBuf_lt] at hempty
    intro heq
    have hlen := congrArg List.length heq
    rw [length_append] at hlen
    exact hempty (h.committed_holds.got_prefix.eq_of_length (by have := h.le; omega))
  have hok : Input.Ok committed (consumed ++ [s.front inputBuf]) line { s with toRing := s.drop } :=
    ⟨h.holds.take inputBuf_dvd inputBuf_lt hfull, h.w, htake.le⟩
  refine ⟨_, ?_, hok, rfl⟩
  have heq := h.unread_eq.symm.trans hok.unread_eq
  rw [append_assoc] at heq
  exact append_cancel_left heq

end Input.Ok

/-! ### Reading -/

namespace Input

variable {s : Input} {committed consumed line : List UInt8}

/-- What the loop of `consoleread` takes: no `^D`, and the end of a line only as the last byte. -/
structure Takes (first : Bool) (n : Nat) (s : Input) (committed consumed line : List UInt8)
    (r : Input × List UInt8 × ReadEnd) (rest : List UInt8) : Prop where
  unread : s.unread = r.2.1 ++ rest
  noEof : ctrlD ∉ r.2.1
  oneLine : newline ∉ r.2.1.dropLast
  length : r.2.1.length ≤ n
  ends : match r.2.2 with
    | .empty => rest = [] ∧ newline ∉ r.2.1 ∧ r.2.1.length < n ∧
        r.1.Ok committed (consumed ++ r.2.1) line
    | .eof => rest.head? = some ctrlD ∧ r.2.1.length < n ∧
        r.1.Ok committed (consumed ++ r.2.1 ++ if first = true ∧ r.2.1 = [] then [ctrlD] else []) line
    | .done => (r.2.1.length = n ∨ r.2.1.getLast? = some newline) ∧
        r.1.Ok committed (consumed ++ r.2.1) line

lemma readBytes_takes (h : s.Ok committed consumed line) (first : Bool) (n : Nat) :
    ∃ rest, Takes first n s committed consumed line (s.readBytes first n) rest := by
  induction n generalizing s consumed first with
  | zero => exact ⟨s.unread, rfl, not_mem_nil, not_mem_nil, Nat.le_refl 0, .inl rfl,
      by rw [readBytes, append_nil]; exact h⟩
  | succ n ih =>
    rw [readBytes]
    by_cases hempty : s.nread = s.w
    · rw [if_pos hempty]
      refine ⟨[], h.nread_eq_w.mp hempty, not_mem_nil, not_mem_nil, zero_le,
        rfl, not_mem_nil, Nat.succ_pos n, ?_⟩
      rw [append_nil]
      exact h
    · rw [if_neg hempty]
      obtain ⟨rest, hunread, hok, hrest⟩ := h.take hempty
      dsimp only
      generalize s.front inputBuf = c at hunread hok ⊢
      by_cases heof : c = ctrlD
      · rw [if_pos heof]
        refine ⟨c :: rest, hunread, not_mem_nil, not_mem_nil, zero_le, ?_⟩
        refine ⟨congrArg some heof, Nat.succ_pos n, ?_⟩
        rw [append_nil]
        cases first with
        | true =>
          rw [heof] at hok
          exact hok
        | false =>
          -- the counter is back where it was
          have hback : s.drop.nread - 1 = s.nread := UInt32.add_sub_cancel ..
          simp only [Bool.false_eq_true, false_and, if_false, append_nil, hback]
          exact h
      · rw [if_neg heof]
        by_cases hnl : c = newline
        · rw [if_pos hnl]
          refine ⟨rest, hunread, ?_, not_mem_nil, Nat.succ_le_succ (Nat.zero_le n),
            .inr (congrArg some hnl), hok⟩
          rw [List.mem_singleton]
          exact fun heq => heof heq.symm
        · rw [if_neg hnl]
          obtain ⟨rest', htakes⟩ := ih hok false
          generalize readBytes false n _ = r at htakes
          obtain ⟨s', cs, e⟩ := r
          refine ⟨rest', ?_, ?_, ?_, Nat.succ_le_succ htakes.length, ?_⟩
          · rw [hunread, ← hrest, htakes.unread]
            rfl
          · rw [mem_cons, not_or]
            exact ⟨fun heq => heof heq.symm, htakes.noEof⟩
          · cases cs with
            | nil => exact not_mem_nil
            | cons d ds =>
              show newline ∉ c :: (d :: ds).dropLast
              rw [mem_cons, not_or]
              exact ⟨fun heq => hnl heq.symm, htakes.oneLine⟩
          · have hends := htakes.ends
            cases e with
            | empty =>
              obtain ⟨hnone, hline, hlt, hok'⟩ := hends
              refine ⟨hnone, ?_, Nat.succ_lt_succ hlt, ?_⟩
              · rw [mem_cons, not_or]
                exact ⟨fun heq => hnl heq.symm, hline⟩
              · rwa [append_assoc] at hok'
            | eof =>
              obtain ⟨hhead, hlt, hok'⟩ := hends
              refine ⟨hhead, Nat.succ_lt_succ hlt, ?_⟩
              simpa using hok'
            | done =>
              obtain ⟨hlast, hok'⟩ := hends
              refine ⟨hlast.imp (congrArg Nat.succ) fun hlast => ?_, ?_⟩
              · cases cs with
                | nil => cases hlast
                | cons d ds => rwa [List.getLast?_cons_cons]
              · rwa [append_assoc] at hok'

end Input

namespace Console

variable {Proc : Type} {s t : Console Proc}

/-- The indices and the history of a console. -/
structure Ok (s : Console Proc) : Prop where
  input : ∃ line, s.input.Ok s.committed s.consumed line
  copied : s.copied = s.consumed.filter (· ≠ ctrlD)
  zeroes : s.reads.countP (fun r => decide (0 < r.1 ∧ r.2 = 0)) = s.consumed.count ctrlD
  calls : ∀ p c, s.call p = some c → c.n ≤ c.target

/-- What typing does not change. -/
structure Typed (s t : Console Proc) : Prop where
  committed : s.committed <+: t.committed
  consumed : t.consumed = s.consumed
  copied : t.copied = s.copied
  reads : t.reads = s.reads
  calls : ∀ p c, t.call p = some c → ∃ c', s.call p = some c' ∧ c.n = c'.n ∧ c.target = c'.target

lemma Typed.edit (s : Console Proc) (input : Input) : Typed s { s with input := input } :=
  ⟨List.prefix_rfl, rfl, rfl, rfl, fun _ c hc => ⟨c, hc, rfl, rfl⟩⟩

lemma Typed.trans {u : Console Proc} (h : Typed s t) (h' : Typed t u) : Typed s u where
  committed := h.committed.trans h'.committed
  consumed := h'.consumed.trans h.consumed
  copied := h'.copied.trans h.copied
  reads := h'.reads.trans h.reads
  calls p c hc := by
    obtain ⟨c₁, hc₁, hn₁, ht₁⟩ := h'.calls p c hc
    obtain ⟨c₂, hc₂, hn₂, ht₂⟩ := h.calls p c₁ hc₁
    exact ⟨c₂, hc₂, hn₁.trans hn₂, ht₁.trans ht₂⟩

lemma intrChar_spec {line : List UInt8} (h : s.input.Ok s.committed s.consumed line) (c : UInt8) :
    (∃ line', (s.intrChar c).input.Ok (s.intrChar c).committed (s.intrChar c).consumed line') ∧
      Typed s (s.intrChar c) := by
  unfold intrChar
  split
  next => exact ⟨⟨line, h⟩, .edit s _⟩
  split
  next => exact ⟨h.killLine _, .edit s _⟩
  split
  next =>
    split
    next hne =>
      have hline : line ≠ [] := fun heq => hne (h.nwrite_eq_w.mpr heq)
      rw [← List.dropLast_concat_getLast hline] at h
      exact ⟨⟨_, h.erase⟩, .edit s _⟩
    next => exact ⟨⟨line, h⟩, .edit s _⟩
  split
  next hroom =>
    dsimp only
    generalize (if c = carriageReturn then newline else c) = c
    have hput := h.put hroom.2 c
    split
    next =>
      have hcommit := hput.commit
      rw [← hput.line_eq] at hcommit
      refine ⟨⟨[], hcommit⟩, List.prefix_append .., rfl, rfl, rfl, fun p d hd => ?_⟩
      obtain ⟨d', hd', rfl⟩ := Option.map_eq_some_iff.mp hd
      exact ⟨d', hd', rfl, rfl⟩
    next => exact ⟨⟨_, hput⟩, .edit s _⟩
  next => exact ⟨⟨line, h⟩, .edit s _⟩

lemma consoleintr_spec {line : List UInt8} (h : s.input.Ok s.committed s.consumed line) (cs : List UInt8) :
    (∃ line', (s.consoleintr cs).input.Ok (s.consoleintr cs).committed (s.consoleintr cs).consumed line') ∧
      Typed s (s.consoleintr cs) := by
  unfold consoleintr
  induction cs generalizing s line with
  | nil => exact ⟨⟨line, h⟩, .edit s _⟩
  | cons c cs ih =>
    obtain ⟨⟨line', h'⟩, htyped⟩ := intrChar_spec h c
    obtain ⟨hok, htyped'⟩ := ih h'
    exact ⟨hok, htyped.trans htyped'⟩

lemma consoleintr_ok (h : s.Ok) (cs : List UInt8) : (s.consoleintr cs).Ok := by
  obtain ⟨line, hinput⟩ := h.input
  obtain ⟨hok, htyped⟩ := consoleintr_spec hinput cs
  refine ⟨hok, ?_, ?_, fun p c hc => ?_⟩
  · rw [htyped.copied, htyped.consumed, h.copied]
  · rw [htyped.reads, htyped.consumed, h.zeroes]
  · obtain ⟨c', hc', hn, htarget⟩ := htyped.calls p c hc
    rw [hn, htarget]
    exact h.calls p c' hc'

lemma consoleintr_unread (h : s.Ok) (cs : List UInt8) :
    s.input.unread <+: (s.consoleintr cs).input.unread ∧ (s.consoleintr cs).consumed = s.consumed := by
  obtain ⟨line, hinput⟩ := h.input
  obtain ⟨⟨line', hok⟩, htyped⟩ := consoleintr_spec hinput cs
  have hgrown := htyped.committed
  rw [hinput.unread_eq, hok.unread_eq, htyped.consumed] at hgrown
  exact ⟨(List.prefix_append_right_inj _).mp hgrown, htyped.consumed⟩

variable [DecidableEq Proc]

/-- What a section of a read has done, of which `n` of `target` bytes were to go. -/
structure Reads (s : Console Proc) (target n : Nat) (o : ReadOutcome) (t : Console Proc)
    (cs rest : List UInt8) : Prop where
  committed : t.committed = s.committed
  unread : s.input.unread = cs ++ rest
  copied : t.copied = s.copied ++ cs
  noEof : ctrlD ∉ cs
  oneLine : newline ∉ cs.dropLast
  ends : match o with
    | .returns k => k = target - (n - cs.length) ∧
        ((cs.length = n ∨ cs.getLast? = some newline) ∧ t.input.unread = rest ∨
          -- the first byte of a read, or left for the next read
          rest.head? = some ctrlD ∧ t.input.unread = if k = 0 then rest.tail else rest)
    | _ => newline ∉ cs ∧ rest = [] ∧ t.input.unread = []

lemma consoleread_spec {p : Proc} {target n : Nat} {o : ReadOutcome} (h : s.Ok) (hn : n ≤ target)
    (hread : s.consoleread p target n = (o, t)) : t.Ok ∧ ∃ cs rest, Reads s target n o t cs rest := by
  obtain ⟨line, hinput⟩ := h.input
  obtain ⟨rest, htakes⟩ := Input.readBytes_takes hinput (decide (n = target)) n
  unfold consoleread at hread
  generalize Input.readBytes _ n s.input = r at htakes hread
  obtain ⟨input, cs, e⟩ := r
  have hlen : cs.length ≤ n := htakes.length
  have hcopied : s.copied ++ cs = (s.consumed ++ cs).filter (· ≠ ctrlD) := by
    have hself : cs.filter (· ≠ ctrlD) = cs :=
      List.filter_eq_self.mpr fun c hc => decide_eq_true (ne_of_mem_of_not_mem hc htakes.noEof)
    rw [List.filter_append, hself, h.copied]
  have hcount : (s.consumed ++ cs).count ctrlD = s.consumed.count ctrlD := by
    rw [List.count_append, List.count_eq_zero.mpr htakes.noEof, Nat.add_zero]
  -- the bytes that are left are those after what has been taken
  have hleft : ∀ {input' : Input} {taken : List UInt8}, input'.Ok s.committed (s.consumed ++ taken) line →
      cs ++ rest = taken ++ input'.unread := by
    intro input' taken hok
    have heq := hok.unread_eq
    rw [hinput.unread_eq, htakes.unread, append_assoc] at heq
    exact append_cancel_left heq
  -- a read that returns bytes, or asks for none, is not counted
  have hzeroes : ∀ k, (0 < target → k ≠ 0) → (s.reads ++ [(target, k)]).countP
      (fun r => decide (0 < r.1 ∧ r.2 = 0)) = (s.consumed ++ cs).count ctrlD := by
    intro k hk
    rw [hcount, ← h.zeroes, List.countP_append, List.countP_singleton,
      if_neg (by rw [decide_eq_true_iff]; exact fun hz => hk hz.1 hz.2), Nat.add_zero]
  have hcalls : ∀ (c : Option Reading), (∀ r, c = some r → r.n ≤ r.target) →
      ∀ q r, Function.update s.call p c q = some r → r.n ≤ r.target := by
    intro c hc q r hr
    rw [Function.update_apply] at hr
    split at hr
    next => exact hc r hr
    next => exact h.calls q r hr
  have hends := htakes.ends
  cases e with
  | empty =>
    obtain ⟨hrest, hline, hlt, hok⟩ := hends
    have hunread : input.unread = [] := by
      have heq := hleft hok
      rw [hrest, append_nil, List.self_eq_append_right] at heq
      exact heq
    simp only [reduceCtorEq, false_and, if_false, append_nil] at hread
    split at hread
    next =>
      cases hread
      refine ⟨⟨⟨line, hok⟩, hcopied, h.zeroes.trans hcount.symm, hcalls none nofun⟩, cs, rest,
        rfl, htakes.unread, rfl, htakes.noEof, htakes.oneLine, hline, hrest, hunread⟩
    next =>
      cases hread
      refine ⟨⟨⟨line, hok⟩, hcopied, h.zeroes.trans hcount.symm, hcalls _ ?_⟩, cs, rest,
        rfl, htakes.unread, rfl, htakes.noEof, htakes.oneLine, hline, hrest, hunread⟩
      rintro r ⟨⟩
      show n - cs.length ≤ target
      omega
  | eof =>
    obtain ⟨hhead, hlt, hok⟩ := hends
    simp only [true_and] at hread
    cases hread
    have hnil : cs = [] ↔ cs.length = 0 := List.length_eq_zero_iff.symm
    by_cases hfirst : n = target ∧ cs = []
    · -- the first byte of the call: it is consumed, and the call returns 0
      obtain ⟨rfl, rfl⟩ := hfirst
      simp only [decide_true, true_and, if_true, append_nil] at hok
      simp only [List.length_nil, Nat.sub_zero, if_true, Nat.sub_self, append_nil]
      obtain ⟨rest', rfl⟩ : ∃ rest', rest = ctrlD :: rest' := List.head?_eq_some_iff.mp hhead
      have hunread : input.unread = rest' := (List.cons.inj (hleft hok)).2.symm
      refine ⟨⟨⟨line, hok⟩, ?_, ?_, hcalls none nofun⟩, [], ctrlD :: rest',
        rfl, htakes.unread, (append_nil _).symm, not_mem_nil, not_mem_nil, ?_,
        .inr ⟨hhead, hunread⟩⟩
      · rw [List.filter_append, h.copied]
        exact (append_nil _).symm
      · rw [List.countP_append, List.count_append, h.zeroes, List.countP_singleton,
          if_pos (decide_eq_true ⟨hlt, rfl⟩)]
        rfl
      · rw [List.length_nil, Nat.sub_zero, Nat.sub_self]
    · -- it is left for the next call
      have hne : n - cs.length ≠ target := by
        rw [hnil] at hfirst
        omega
      rw [if_neg (by rwa [decide_eq_true_iff]), append_nil] at hok
      rw [if_neg hne, append_nil]
      refine ⟨⟨⟨line, hok⟩, hcopied, ?_, hcalls none nofun⟩, cs, rest,
        rfl, htakes.unread, rfl, htakes.noEof, htakes.oneLine, rfl, .inr ⟨hhead, ?_⟩⟩
      · exact hzeroes _ fun _ => by omega
      · rw [if_neg (by omega)]
        exact (append_cancel_left (hleft hok)).symm
  | done =>
    obtain ⟨hlast, hok⟩ := hends
    have hunread : input.unread = rest := (append_cancel_left (hleft hok)).symm
    simp only [reduceCtorEq, false_and, if_false, append_nil] at hread
    cases hread
    refine ⟨⟨⟨line, hok⟩, hcopied, ?_, hcalls none nofun⟩, cs, rest,
      rfl, htakes.unread, rfl, htakes.noEof, htakes.oneLine, rfl, .inl ⟨hlast, hunread⟩⟩
    refine hzeroes _ fun hpos hk => ?_
    cases hlast with
    | inl hall =>
      simp only at hall
      omega
    | inr hlast =>
      have hne : cs.length ≠ 0 := fun hz => by
        rw [List.length_eq_zero_iff.mp hz] at hlast
        cases hlast
      omega

lemma kill_ok (h : s.Ok) (p : Proc) : (s.kill p).Ok := by
  refine ⟨h.input, h.copied, h.zeroes, fun q c hc => ?_⟩
  simp only [kill, Function.update_apply] at hc
  split at hc
  next =>
    obtain ⟨c', hc', rfl⟩ := Option.map_eq_some_iff.mp hc
    exact h.calls p c' hc'
  next => exact h.calls q c hc

lemma step_ok (h : s.Ok) {a : ConsoleAct Proc} (hstep : s.step a = some t) : t.Ok := by
  cases a with
  | intr cs =>
    cases hstep
    exact consoleintr_ok h cs
  | kill p =>
    cases hstep
    exact kill_ok h p
  | read p n =>
    rw [step] at hstep
    split at hstep
    next =>
      cases hstep
      exact (consoleread_spec h le_rfl rfl).1
    next => cases hstep
  | resume p =>
    rw [step] at hstep
    split at hstep
    next target n hcall =>
      cases hstep
      exact (consoleread_spec h (h.calls p _ hcall) rfl).1
    next => cases hstep

omit [DecidableEq Proc] in
lemma start_ok (data : Nat → UInt8) : (start data : Console Proc).Ok where
  input := ⟨[], Ring.holds_nil .., rfl, Nat.le_refl 0⟩
  copied := rfl
  zeroes := rfl
  calls _ _ hc := by cases hc

/-- Whatever is typed and read. The indices stay in order; the readers have consumed a prefix of what
has been committed, of which they copied all but the `^D`s, and there is one read of no bytes for each
`^D`; typing keeps the bytes that wait to be read; and a section of a read takes them from the front, up
to a `^D` or the end of a line. -/
theorem console_line_buffer (data : Nat → UInt8) {as : List (ConsoleAct Proc)} {t : Console Proc}
    (hrun : Run step anyStep (start data) as t) :
    (t.input.w - t.input.nread).toNat ≤ (t.input.nwrite - t.input.nread).toNat ∧
      (t.input.nwrite - t.input.nread).toNat ≤ inputBuf ∧
      t.committed = t.consumed ++ t.input.unread ∧
      t.copied = t.consumed.filter (· ≠ ctrlD) ∧
      t.reads.countP (fun r => decide (0 < r.1 ∧ r.2 = 0)) = t.consumed.count ctrlD ∧
      (∀ cs, t.input.unread <+: (t.consoleintr cs).input.unread ∧
        (t.consoleintr cs).consumed = t.consumed) ∧
      ∀ p target n o u, t.call p = none ∧ n = target ∨ t.call p = some ⟨target, n, false⟩ →
        t.consoleread p target n = (o, u) → ∃ cs rest, Reads t target n o u cs rest := by
  have hok : t.Ok := hrun.inv (start_ok data) fun _ _ _ hs _ hstep => step_ok hs hstep
  obtain ⟨line, hinput⟩ := hok.input
  refine ⟨hinput.order.1, hinput.order.2, hinput.unread_eq, hok.copied, hok.zeroes,
    consoleintr_unread hok, ?_⟩
  intro p target n o u hcall hread
  have hn : n ≤ target := by
    cases hcall with
    | inl hnew => exact Nat.le_of_eq hnew.2
    | inr hold => exact hok.calls p _ hold
  exact (consoleread_spec hok hn hread).2

/-- A reader waits for a line that is typed with a backspace, and is followed by a `^D`. -/
def lineThenEof : List (ConsoleAct Unit) :=
  [.read () 2, .intr [97, 98, 8, 99, 10, 100, 4], .resume (), .read () 5, .read () 5, .read () 5]

theorem console_line_buffer_lineThenEof : ∃ t : Console Unit,
    Run step anyStep (start fun _ => 0) lineThenEof t ∧ t.copied = [97, 99, 10, 100] ∧
      t.reads = [(2, 2), (5, 1), (5, 1), (5, 0)] ∧ t.consumed.count ctrlD = 1 ∧
      t.committed = t.consumed ++ t.input.unread := by
  obtain ⟨t, hrun, hcopied, hreads, hcount⟩ := run_of_check step anyStep
    (start fun _ => 0 : Console Unit) lineThenEof
    (fun t => t.copied = [97, 99, 10, 100] ∧ t.reads = [(2, 2), (5, 1), (5, 1), (5, 0)] ∧
      t.consumed.count ctrlD = 1) (by decide +kernel)
  exact ⟨t, hrun, hcopied, hreads, hcount, (console_line_buffer _ hrun).2.2.1⟩

end Console

end Xv6.Ipc
