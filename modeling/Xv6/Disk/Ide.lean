import Xv6.Lib.Chain
import Xv6.Lib.Run
import Xv6.Param

/-!
# The request queue of the disk (`ide.c`)

A call of `iderw` appends its buffer to `idequeue`, starts the disk if the buffer is now the first, and
sleeps until the buffer is done. An interrupt takes the first buffer off, marks it done, wakes its caller
and starts the disk on the next one. Both run under `idelock`; `sleep` gives the lock up, so a call is a
first section and then one section each time that it is woken.

A buffer is locked by its caller while the call runs. So there is at most one call on each buffer, and
between calls whoever has the buffer may give it another block or change its flags. The disk raises one
interrupt for each command. The contents of buffers and of the disk are left out.
-/

namespace Xv6.Disk

open Function (update update_self update_of_ne update_apply)
open Lib

/-- The fields of a buffer that `ide.c` reads. -/
structure Header where
  valid : Bool
  dirty : Bool
  dev : Nat
  blockno : Nat
  deriving DecidableEq, Repr

/-- `(flags & (B_VALID|B_DIRTY)) == B_VALID` -/
def Header.done (h : Header) : Bool := h.valid && !h.dirty

/-- What `idestart` writes to the ports. -/
structure Command (Buf : Type) where
  buf : Buf
  write : Bool
  drive : Nat
  sector : Nat
  sectors : Nat
  deriving DecidableEq, Repr

/-- A call of `iderw`: the number of its request, and whether it sleeps. -/
structure IdeCall where
  ticket : Nat
  asleep : Bool
  deriving DecidableEq, Repr

/-- A call that has returned, and the buffer's fields at that time. -/
structure IdeReturn (Buf : Type) where
  buf : Buf
  ticket : Nat
  header : Header
  deriving DecidableEq, Repr

structure Ide (Buf : Type) where
  /-- `idequeue`, and the `qnext` of each buffer -/
  queue : Chain Buf
  header : Buf → Header
  call : Buf → Option IdeCall
  /-- the interrupts so far -/
  interrupts : Nat
  /-- the buffers in the order in which they were appended -/
  requests : List Buf
  started : List (Command Buf)
  /-- the buffers that an interrupt has taken off -/
  completed : List Buf
  returned : List (IdeReturn Buf)

inductive IdeAct (Buf : Type)
  | iderw (b : Buf)
  /-- a caller that is awake goes on -/
  | resume (b : Buf)
  /-- somebody else's `wakeup`, or `kill` -/
  | wake (b : Buf)
  | interrupt
  /-- whoever has the buffer changes it -/
  | change (b : Buf) (h : Header)

namespace Ide

variable {Buf : Type} [DecidableEq Buf] [Fintype Buf]

/-- After `ideinit`. -/
def boot (header : Buf → Header) (qnext : Buf → Option Buf) : Ide Buf where
  queue := ⟨none, qnext⟩
  header := header
  call _ := none
  interrupts := 0
  requests := []
  started := []
  completed := []
  returned := []

/-- `BSIZE/SECTOR_SIZE` -/
def sectorPerBlock : Nat := bSize / 512

/-- The command for a buffer. -/
def command (b : Buf) (h : Header) : Command Buf where
  buf := b
  write := h.dirty
  drive := h.dev % 2
  sector := h.blockno * sectorPerBlock
  sectors := sectorPerBlock

/-- `idestart`; nothing if it panics. -/
def idestart (s : Ide Buf) : Option Buf → Option (Ide Buf)
  | none => none
  | some b =>
    if (s.header b).blockno ≥ fsSize then none
    else if sectorPerBlock > 7 then none
    else some { s with started := s.started ++ [command b (s.header b)] }

/-- `wakeup(b)` -/
def wake (s : Ide Buf) (b : Buf) : Ide Buf :=
  { s with call := Function.update s.call b ((s.call b).map fun c => { c with asleep := false }) }

/-- The first buffer is taken off and marked, and its caller is woken. -/
def complete (s : Ide Buf) (b : Buf) : Ide Buf :=
  { s.wake b with
    queue := { s.queue with head := s.queue.next b }
    header := Function.update s.header b { s.header b with valid := true, dirty := false }
    completed := s.completed ++ [b] }

/-- `ideintr` -/
def ideintr (s : Ide Buf) : Option (Ide Buf) :=
  match s.queue.head with
  | none => some s
  | some b =>
    let s := s.complete b
    if s.queue.head ≠ none then s.idestart s.queue.head else some s

/-- The loop at the end of `iderw`: the call sleeps, or returns. -/
def ideWait (s : Ide Buf) (b : Buf) (ticket : Nat) : Ide Buf :=
  if (s.header b).done then
    { s with call := Function.update s.call b none, returned := s.returned ++ [⟨b, ticket, s.header b⟩] }
  else { s with call := Function.update s.call b (some ⟨ticket, true⟩) }

/-- `iderw`, up to where it sleeps; nothing if it panics or if its loop does not end. -/
def iderw (haveDisk1 : Bool) (s : Ide Buf) (b : Buf) : Option (Ide Buf) := do
  if (s.header b).done then none
  else if (s.header b).dev ≠ 0 ∧ haveDisk1 = false then none
  else
    let queue := s.queue.store (some b) none
    let pp ← queue.findEnd (Fintype.card Buf + 1) none
    let ticket := s.requests.length
    let s := { s with queue := queue.store pp (some b), requests := s.requests ++ [b] }
    let s ← if s.queue.head = some b then s.idestart (some b) else some s
    return s.ideWait b ticket

def step (haveDisk1 : Bool) (s : Ide Buf) : IdeAct Buf → Option (Ide Buf)
  | .iderw b => if s.call b = none then s.iderw haveDisk1 b else none
  | .resume b =>
    match s.call b with
    | some ⟨ticket, false⟩ => some (s.ideWait b ticket)
    | _ => none
  | .wake b => some (s.wake b)
  | .interrupt =>
    if s.interrupts < s.started.length then { s with interrupts := s.interrupts + 1 }.ideintr else none
  | .change b h =>
    if s.call b = none then some { s with header := Function.update s.header b h } else none

/-! ### The queue and the history -/

/-- The queue, what has been asked and completed, and where each call is. -/
structure Queued (s : Ide Buf) (q : List Buf) : Prop where
  queue : s.queue.Holds q
  requests : s.requests = s.completed ++ q
  interrupts : s.interrupts = s.completed.length
  waiting : ∀ b ∈ q, (s.header b).done = false ∧ s.call b ≠ none
  ticket : ∀ b c, s.call b = some c → s.requests[c.ticket]? = some b
  queued : ∀ b c, s.call b = some c → b ∈ q → s.completed.length ≤ c.ticket
  served : ∀ b c, s.call b = some c → b ∉ q →
    c.ticket < s.completed.length ∧ (s.header b).done = true ∧ c.asleep = false
  returned : ∀ r ∈ s.returned, s.completed[r.ticket]? = some r.buf ∧ r.header.done = true

/-- The commands are those of the requests up to the first of the queue. -/
structure Ok (s : Ide Buf) (q : List Buf) : Prop extends Queued s q where
  started : s.started.map Command.buf = s.completed ++ q.take 1
  active : ∀ b, q.head? = some b → s.started.getLast? = some (command b (s.header b))

variable {s t : Ide Buf} {q : List Buf} {b : Buf} {haveDisk1 : Bool}

omit [DecidableEq Buf] [Fintype Buf] in
lemma boot_ok (header : Buf → Header) (qnext : Buf → Option Buf) : (boot header qnext).Ok [] where
  queue := ⟨rfl, List.nodup_nil⟩
  requests := rfl
  interrupts := rfl
  waiting _ hb := nomatch hb
  ticket _ _ hc := nomatch hc
  queued _ _ hc := nomatch hc
  served _ _ hc := nomatch hc
  returned _ hr := nomatch hr
  started := rfl
  active _ hb := nomatch hb

/-! ### Starting a command -/

omit [DecidableEq Buf] [Fintype Buf] in
lemma idestart_eq (hno : (s.header b).blockno < fsSize) :
    s.idestart (some b) = some { s with started := s.started ++ [command b (s.header b)] } := by
  rw [idestart, if_neg hno.not_ge, if_neg (by decide)]

omit [DecidableEq Buf] [Fintype Buf] in
lemma idestart_some {p : Option Buf} (h : s.idestart p = some t) : ∃ b, p = some b ∧
    t = { s with started := s.started ++ [command b (s.header b)] } := by
  cases p with
  | none => cases h
  | some b =>
    rw [idestart] at h
    split at h
    next => cases h
    split at h
    next => cases h
    next =>
      cases h
      exact ⟨b, rfl, rfl⟩

namespace Queued

omit [DecidableEq Buf] [Fintype Buf] in
/-- The disk is started on the first buffer. -/
lemma start (h : s.Queued (b :: q)) (hidle : s.started.map Command.buf = s.completed) :
    Ok { s with started := s.started ++ [command b (s.header b)] } (b :: q) where
  queue := h.queue
  requests := h.requests
  interrupts := h.interrupts
  waiting := h.waiting
  ticket := h.ticket
  queued := h.queued
  served := h.served
  returned := h.returned
  started := by
    rw [List.map_append, hidle]
    rfl
  active b' hb' := by
    cases hb'
    exact List.getLast?_concat

omit [DecidableEq Buf] [Fintype Buf] in
lemma rest (h : s.Queued []) (hidle : s.started.map Command.buf = s.completed) : s.Ok [] :=
  ⟨h, by rw [hidle]; exact (List.append_nil _).symm, nofun⟩

omit [DecidableEq Buf] [Fintype Buf] in
lemma ticket_head (h : s.Queued (b :: q)) {c : IdeCall} (hc : s.call b = some c) :
    c.ticket = s.completed.length := by
  have hle := h.queued b c hc (.head _)
  have hget := h.ticket b c hc
  rw [h.requests, List.getElem?_append_right hle] at hget
  cases hk : c.ticket - s.completed.length with
  | zero => omega
  | succ j =>
    rw [hk, List.getElem?_cons_succ] at hget
    exact absurd (List.mem_of_getElem? hget) (List.nodup_cons.mp h.queue.nodup).1

omit [Fintype Buf] in
/-- A `wakeup` of a caller that is still waiting, or is awake. -/
lemma wake (h : s.Queued q) (b : Buf) : (s.wake b).Queued q := by
  have hcall : ∀ b' c, (s.wake b).call b' = some c →
      ∃ c', s.call b' = some c' ∧ c'.ticket = c.ticket ∧ (c'.asleep = false → c.asleep = false) := by
    intro b' c hc
    simp only [Ide.wake, update_apply] at hc
    split at hc
    next heq =>
      obtain ⟨c', hc', rfl⟩ := Option.map_eq_some_iff.mp hc
      exact ⟨c', by rw [heq, hc'], rfl, fun _ => rfl⟩
    next => exact ⟨c, hc, rfl, id⟩
  refine ⟨h.queue, h.requests, h.interrupts, fun b' hb' => ⟨(h.waiting b' hb').1, ?_⟩, ?_, ?_, ?_, h.returned⟩
  · have hne := (h.waiting b' hb').2
    simp only [Ide.wake, update_apply]
    split
    next heq =>
      rw [heq] at hne
      exact fun hnone => hne (Option.map_eq_none_iff.mp hnone)
    next => exact hne
  · intro b' c hc
    obtain ⟨c', hc', ht, -⟩ := hcall b' c hc
    rw [← ht]
    exact h.ticket b' c' hc'
  · intro b' c hc hb'
    obtain ⟨c', hc', ht, -⟩ := hcall b' c hc
    rw [← ht]
    exact h.queued b' c' hc' hb'
  · intro b' c hc hb'
    obtain ⟨c', hc', ht, hsleep⟩ := hcall b' c hc
    obtain ⟨hlt, hdone, hawake⟩ := h.served b' c' hc' hb'
    exact ⟨ht ▸ hlt, hdone, hsleep hawake⟩

omit [Fintype Buf] in
/-- The call of `iderw` on another buffer has appended it, and sleeps. -/
lemma append (h : s.Queued q) {queue : Chain Buf} (hqueue : queue.Holds (q ++ [b]))
    (hdone : (s.header b).done = false) : Queued { s with
      queue := queue
      requests := s.requests ++ [b]
      call := update s.call b (some ⟨s.requests.length, true⟩) } (q ++ [b]) := by
  refine ⟨hqueue, ?_, h.interrupts, fun b' hb' => ?_, ?_, ?_, ?_, h.returned⟩
  · rw [h.requests, List.append_assoc]
  · by_cases heq : b' = b
    · rw [heq]
      exact ⟨hdone, by simp only [update_self]; exact nofun⟩
    · simp only [update_of_ne heq]
      cases List.mem_append.mp hb' with
      | inl hq => exact h.waiting b' hq
      | inr hb => exact absurd (List.mem_singleton.mp hb) heq
  · intro b' c hc
    by_cases heq : b' = b
    · simp only [heq, update_self, Option.some.injEq] at hc ⊢
      rw [← hc]
      exact List.getElem?_concat_length
    · simp only [update_of_ne heq] at hc
      have hget := h.ticket b' c hc
      rw [List.getElem?_append_left (List.getElem?_eq_some_iff.mp hget).1]
      exact hget
  · intro b' c hc hb'
    by_cases heq : b' = b
    · simp only [heq, update_self, Option.some.injEq] at hc
      rw [← hc, h.requests, List.length_append]
      exact Nat.le_add_right ..
    · simp only [update_of_ne heq] at hc
      cases List.mem_append.mp hb' with
      | inl hq => exact h.queued b' c hc hq
      | inr hb => exact absurd (List.mem_singleton.mp hb) heq
  · intro b' c hc hb'
    rw [List.mem_append, not_or, List.mem_singleton] at hb'
    simp only [update_of_ne hb'.2] at hc
    exact h.served b' c hc hb'.1

omit [Fintype Buf] in
lemma complete (h : s.Queued (b :: q)) : Queued ({ s with interrupts := s.interrupts + 1 }.complete b) q := by
  have hw := h.wake b
  obtain ⟨hnot, -⟩ := List.nodup_cons.mp h.queue.nodup
  have hother : ∀ {b'}, b' ∈ q → b' ≠ b := fun hb' heq => hnot (heq ▸ hb')
  have hlen : (s.completed ++ [b]).length = s.completed.length + 1 := by simp
  refine ⟨h.queue.tail, ?_, ?_, fun b' hb' => ⟨?_, ?_⟩, hw.ticket, ?_, ?_, fun r hr => ?_⟩
  · rw [Ide.complete, List.append_assoc]
    exact h.requests
  · rw [Ide.complete, hlen]
    exact congrArg Nat.succ h.interrupts
  · simp only [Ide.complete, update_of_ne (hother hb')]
    exact (h.waiting b' (List.mem_cons_of_mem b hb')).1
  · exact (hw.waiting b' (List.mem_cons_of_mem b hb')).2
  · intro b' c hc hb'
    -- the number of the first request is another buffer's
    have hle := hw.queued b' c hc (List.mem_cons_of_mem b hb')
    have hget : s.requests[c.ticket]? = some b' := hw.ticket b' c hc
    simp only [Ide.complete, hlen]
    refine Nat.lt_of_le_of_ne hle fun heq => hother hb' ?_
    rw [h.requests, ← heq, List.getElem?_append_right le_rfl, Nat.sub_self] at hget
    exact (Option.some.inj hget).symm
  · intro b' c hc hb'
    simp only [Ide.complete, hlen]
    by_cases heq : b' = b
    · subst heq
      have htick := hw.ticket_head hc
      simp only [update_self]
      refine ⟨Nat.lt_succ_of_le (Nat.le_of_eq htick), rfl, ?_⟩
      simp only [Ide.complete, Ide.wake, update_self] at hc
      obtain ⟨c', -, rfl⟩ := Option.map_eq_some_iff.mp hc
      rfl
    · rw [update_of_ne heq]
      obtain ⟨hlt, hdone, hawake⟩ := hw.served b' c hc (List.mem_cons.not.mpr (not_or.mpr ⟨heq, hb'⟩))
      exact ⟨Nat.lt_succ_of_lt hlt, hdone, hawake⟩
  · obtain ⟨hget, hdone⟩ := h.returned r hr
    refine ⟨?_, hdone⟩
    rw [Ide.complete, List.getElem?_append_left (List.getElem?_eq_some_iff.mp hget).1]
    exact hget

end Queued

namespace Ok

omit [DecidableEq Buf] [Fintype Buf] in
/-- A command without an interrupt is that of a request in the queue. -/
lemma ne_nil (h : s.Ok q) (hintr : s.interrupts < s.started.length) : q ≠ [] := by
  intro hnil
  have hlen := congrArg List.length h.started
  rw [hnil, List.length_map, List.take_nil, List.append_nil, ← h.interrupts] at hlen
  omega

omit [Fintype Buf] in
lemma ideintr (h : s.Ok q) (hintr : s.interrupts < s.started.length)
    (ht : { s with interrupts := s.interrupts + 1 }.ideintr = some t) : t.Ok q.tail := by
  cases q with
  | nil => exact absurd rfl (h.ne_nil hintr)
  | cons b q =>
    rw [Ide.ideintr, show s.queue.head = some b from h.queue.path.1] at ht
    have hq := h.complete
    have hidle : s.started.map Command.buf = s.completed ++ [b] := h.started
    generalize hs' : { s with interrupts := s.interrupts + 1 }.complete b = s' at hq ht
    have hidle' : s'.started.map Command.buf = s'.completed := by
      rw [← hs']
      exact hidle
    simp only [hs'] at ht
    split at ht
    next =>
      obtain ⟨b', hb', rfl⟩ := idestart_some ht
      rw [hq.queue.path.head] at hb'
      obtain ⟨q', rfl⟩ := List.head?_eq_some_iff.mp hb'
      exact hq.start hidle'
    next hnone =>
      cases ht
      rw [not_not, hq.queue.path.head, List.head?_eq_none_iff] at hnone
      subst hnone
      exact hq.rest hidle'

lemma iderw (h : s.Ok q) (hfree : s.call b = none) (ht : s.iderw haveDisk1 b = some t) : t.Ok (q ++ [b]) := by
  have hnot : b ∉ q := fun hb => (h.waiting b hb).2 hfree
  have hq : (s.queue.store (some b) none).Holds q := h.queue.setNext hnot none
  have hend := hq.findEnd (Nat.lt_succ_of_le hq.nodup.length_le_card)
  have happ : ((s.queue.store (some b) none).store q.getLast? (some b)).Holds (q ++ [b]) :=
    hq.append hnot (update_self ..)
  rw [Ide.iderw] at ht
  split at ht
  next => cases ht
  next hdone =>
    split at ht
    next => cases ht
    next =>
      simp only [hend, Option.bind_eq_bind, Option.bind_some] at ht
      have hqueued := h.toQueued.append happ (Bool.eq_false_of_not_eq_true hdone)
      generalize (s.queue.store (some b) none).store q.getLast? (some b) = queue at ht happ hqueued
      have hhead := happ.path.head
      split at ht
      next hfirst =>
        have hnil : q = [] := by
          cases q with
          | nil => rfl
          | cons a q =>
            have heq : a = b := Option.mem_unique hhead hfirst
            exact absurd (heq ▸ List.mem_cons_self ..) hnot
        subst hnil
        obtain ⟨s₁, hstart, hwait⟩ := Option.bind_eq_some_iff.mp ht
        obtain ⟨b', hb', rfl⟩ := idestart_some hstart
        cases hb'
        cases hwait
        rw [Ide.ideWait, if_neg hdone]
        exact hqueued.start (h.started.trans (List.append_nil _))
      next hfirst =>
        cases ht
        cases q with
        | nil => exact absurd hhead hfirst
        | cons a q =>
          rw [Ide.ideWait, if_neg hdone]
          exact ⟨hqueued, h.started, h.active⟩

omit [Fintype Buf] in
lemma ideWait (h : s.Ok q) {c : IdeCall} (hc : s.call b = some c) : (s.ideWait b c.ticket).Ok q := by
  rw [Ide.ideWait]
  split
  next hdone =>
    have hnot : b ∉ q := fun hb => by
      rw [(h.waiting b hb).1] at hdone
      cases hdone
    have hcall : ∀ b' c, update s.call b none b' = some c → b' ≠ b ∧ s.call b' = some c := by
      intro b' c hc'
      rw [update_apply] at hc'
      split at hc'
      next => cases hc'
      next hne => exact ⟨hne, hc'⟩
    refine ⟨⟨h.queue, h.requests, h.interrupts, fun b' hb' => ⟨(h.waiting b' hb').1, ?_⟩, ?_, ?_, ?_,
      fun r hr => ?_⟩, h.started, h.active⟩
    · simp only [update_of_ne (ne_of_mem_of_not_mem hb' hnot)]
      exact (h.waiting b' hb').2
    · exact fun b' c hc' => h.ticket b' c (hcall b' c hc').2
    · exact fun b' c hc' => h.queued b' c (hcall b' c hc').2
    · exact fun b' c hc' => h.served b' c (hcall b' c hc').2
    · cases List.mem_append.mp hr with
      | inl hold => exact h.returned r hold
      | inr hnew =>
        rw [List.mem_singleton.mp hnew]
        refine ⟨?_, hdone⟩
        have hget := h.ticket b c hc
        rwa [h.requests, List.getElem?_append_left (h.served b c hc hnot).1] at hget
  next hdone =>
    have hin : b ∈ q := by
      by_contra hnot
      exact hdone (h.served b c hc hnot).2.1
    have hcall : ∀ b' c', update s.call b (some ⟨c.ticket, true⟩) b' = some c' →
        ∃ c'', s.call b' = some c'' ∧ c''.ticket = c'.ticket ∧ (b' ∉ q → c''.asleep = c'.asleep) := by
      intro b' c' hc'
      rw [update_apply] at hc'
      split at hc'
      next heq =>
        cases hc'
        exact ⟨c, by rw [heq, hc], rfl, fun hnot => absurd (heq ▸ hin) hnot⟩
      next => exact ⟨c', hc', rfl, fun _ => rfl⟩
    refine ⟨⟨h.queue, h.requests, h.interrupts, fun b' hb' => ⟨(h.waiting b' hb').1, ?_⟩, ?_, ?_, ?_,
      h.returned⟩, h.started, h.active⟩
    · simp only [update_apply]
      split
      next => exact nofun
      next => exact (h.waiting b' hb').2
    · intro b' c' hc'
      obtain ⟨c'', hc'', ht, -⟩ := hcall b' c' hc'
      rw [← ht]
      exact h.ticket b' c'' hc''
    · intro b' c' hc' hb'
      obtain ⟨c'', hc'', ht, -⟩ := hcall b' c' hc'
      rw [← ht]
      exact h.queued b' c'' hc'' hb'
    · intro b' c' hc' hb'
      obtain ⟨c'', hc'', ht, hsleep⟩ := hcall b' c' hc'
      rw [← ht, ← hsleep hb']
      exact h.served b' c'' hc'' hb'

omit [Fintype Buf] in
lemma change (h : s.Ok q) (hfree : s.call b = none) (hdr : Header) :
    Ok { s with header := update s.header b hdr } q := by
  have hnot : b ∉ q := fun hb => (h.waiting b hb).2 hfree
  have hother : ∀ b' ∈ q, update s.header b hdr b' = s.header b' := fun b' hb' =>
    update_of_ne (ne_of_mem_of_not_mem hb' hnot) ..
  refine ⟨⟨h.queue, h.requests, h.interrupts, fun b' hb' => ?_, h.ticket, h.queued, fun b' c hc hb' => ?_,
    h.returned⟩, h.started, fun b' hb' => ?_⟩
  · simp only [hother b' hb']
    exact h.waiting b' hb'
  · have hne : b' ≠ b := fun heq => by
      rw [heq, hfree] at hc
      cases hc
    simp only [update_of_ne hne]
    exact h.served b' c hc hb'
  · simp only [hother b' (List.mem_of_head? hb')]
    exact h.active b' hb'

lemma step (h : s.Ok q) {a : IdeAct Buf} (ht : s.step haveDisk1 a = some t) : ∃ q', t.Ok q' := by
  cases a with
  | iderw b =>
    rw [Ide.step] at ht
    split at ht
    next hfree => exact ⟨_, h.iderw hfree ht⟩
    next => cases ht
  | resume b =>
    rw [Ide.step] at ht
    split at ht
    next hcall =>
      cases ht
      exact ⟨q, h.ideWait hcall⟩
    next => cases ht
  | wake b =>
    cases ht
    exact ⟨q, h.toQueued.wake b, h.started, h.active⟩
  | interrupt =>
    rw [Ide.step] at ht
    split at ht
    next hintr => exact ⟨_, h.ideintr hintr ht⟩
    next => cases ht
  | change b hdr =>
    rw [Ide.step] at ht
    split at ht
    next hfree =>
      cases ht
      exact ⟨q, h.change hfree hdr⟩
    next => cases ht

lemma iderw_isSome (h : s.Ok q) (hfree : s.call b = none) (hdone : (s.header b).done = false)
    (hdev : (s.header b).dev = 0 ∨ haveDisk1) (hno : (s.header b).blockno < fsSize) :
    (s.step haveDisk1 (.iderw b)).isSome := by
  have hnot : b ∉ q := fun hb => (h.waiting b hb).2 hfree
  have hq : (s.queue.store (some b) none).Holds q := h.queue.setNext hnot none
  have hend := hq.findEnd (Nat.lt_succ_of_le hq.nodup.length_le_card)
  have hdisk : ¬ ((s.header b).dev ≠ 0 ∧ haveDisk1 = false) := by
    intro hbad
    cases hdev with
    | inl hzero => exact hbad.1 hzero
    | inr htrue => exact absurd (hbad.2.symm.trans htrue) nofun
  rw [Ide.step, if_pos hfree, Ide.iderw, if_neg (by rw [hdone]; exact nofun), if_neg hdisk]
  simp only [hend, Option.bind_eq_bind, Option.bind_some]
  split
  next =>
    rw [idestart_eq]
    · rfl
    · exact hno
  next => rfl

lemma ideintr_isSome (h : s.Ok q) (hintr : s.interrupts < s.started.length)
    (hno : ∀ b ∈ q, (s.header b).blockno < fsSize) : (s.step haveDisk1 .interrupt).isSome := by
  obtain ⟨b, q, rfl⟩ := List.exists_cons_of_ne_nil (h.ne_nil hintr)
  rw [Ide.step, if_pos hintr, Ide.ideintr, show s.queue.head = some b from h.queue.path.1]
  have hnext : s.queue.next b = q.head? := h.queue.path.2.head
  simp only [Ide.complete, hnext]
  cases q with
  | nil => rfl
  | cons c q =>
    have hne : c ≠ b := fun heq => (List.nodup_cons.mp h.queue.nodup).1 (heq ▸ List.mem_cons_self ..)
    rw [List.head?_cons, if_pos nofun, idestart_eq]
    · rfl
    · simp only [update_of_ne hne]
      exact hno c (List.mem_cons_of_mem b (.head _))

end Ok

/-- Whatever is asked, changed, woken and interrupted: with `q` what is in the queue,
* every request has been completed or is in the queue, and none twice;
* the commands are those of the requests in their order, up to the first of the queue, whose command is
  the one that has no interrupt yet;
* a call that sleeps is in the queue, and a call whose request has been completed is awake and finds its
  buffer done;
* every call that has returned had its request completed, with a buffer that was valid and not dirty;
* no call hangs in the queue, and an interrupt finds a buffer to start. -/
theorem ide_queue (haveDisk1 : Bool) (header : Buf → Header) (qnext : Buf → Option Buf)
    {as : List (IdeAct Buf)} {t : Ide Buf} (hrun : Run (step haveDisk1) anyStep (boot header qnext) as t) :
    ∃ q, t.queue.Holds q ∧ t.requests = t.completed ++ q ∧
      t.started.map Command.buf = t.completed ++ q.take 1 ∧
      t.started.length = t.interrupts + (q.take 1).length ∧
      (∀ b, q.head? = some b → t.started.getLast? = some (command b (t.header b))) ∧
      (∀ b c, t.call b = some c → t.requests[c.ticket]? = some b ∧
        (b ∉ q → t.completed[c.ticket]? = some b ∧ (t.header b).done = true ∧ c.asleep = false)) ∧
      (∀ r ∈ t.returned, t.completed[r.ticket]? = some r.buf ∧
        r.header.valid = true ∧ r.header.dirty = false) ∧
      (∀ b, t.call b = none → (t.header b).done = false → (t.header b).dev = 0 ∨ haveDisk1 = true →
        (t.header b).blockno < fsSize → (t.step haveDisk1 (.iderw b)).isSome) ∧
      (t.interrupts < t.started.length → (∀ b ∈ q, (t.header b).blockno < fsSize) →
        (t.step haveDisk1 .interrupt).isSome) := by
  obtain ⟨q, h⟩ : ∃ q, t.Ok q :=
    hrun.inv (I := fun t => ∃ q, t.Ok q) ⟨[], boot_ok header qnext⟩
      fun _ _ _ ⟨_, hs⟩ _ hstep => hs.step hstep
  have hlen := congrArg List.length h.started
  rw [List.length_map, List.length_append, ← h.interrupts] at hlen
  refine ⟨q, h.queue, h.requests, h.started, hlen, h.active, fun b c hc => ⟨h.ticket b c hc, fun hnot => ?_⟩,
    fun r hr => ?_, fun b => h.iderw_isSome, h.ideintr_isSome⟩
  · obtain ⟨hlt, hdone, hawake⟩ := h.served b c hc hnot
    have hget := h.ticket b c hc
    rw [h.requests, List.getElem?_append_left hlt] at hget
    exact ⟨hget, hdone, hawake⟩
  · obtain ⟨hget, hdone⟩ := h.returned r hr
    rw [Header.done, Bool.and_eq_true, Bool.not_eq_true'] at hdone
    exact ⟨hget, hdone⟩

/-- Two callers: the second request is started by the interrupt for the first. -/
def twoReads : List (IdeAct Bool) :=
  [.iderw false, .iderw true, .interrupt, .resume false, .interrupt, .resume true]

/-- Empty buffers for the blocks 5 and 7 of disk 1. -/
def emptyBuffers (b : Bool) : Header := ⟨false, false, 1, if b then 7 else 5⟩

theorem ide_queue_twoReads : ∃ t q, Run (step true) anyStep (boot emptyBuffers fun _ => none) twoReads t ∧
    t.started.map Command.sector = [5, 7] ∧ t.returned.map IdeReturn.buf = [false, true] ∧
    t.requests = t.completed ++ q := by
  obtain ⟨t, hrun, hstarted, hreturned⟩ := run_of_check (step true) anyStep
    (boot emptyBuffers fun _ => none) twoReads
    (fun t => t.started.map Command.sector = [5, 7] ∧ t.returned.map IdeReturn.buf = [false, true])
    (by decide +kernel)
  obtain ⟨q, -, hrequests, -⟩ := ide_queue true emptyBuffers (fun _ => none) hrun
  exact ⟨t, q, hrun, hstarted, hreturned, hrequests⟩

end Ide

end Xv6.Disk
