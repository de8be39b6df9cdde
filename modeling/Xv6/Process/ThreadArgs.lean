import Xv6.Process.Args
import Xv6.Process.Create

/-!
# The result words of the thread calls (`sysproc.c`)

`sys_thread_create` and `sys_thread_join` take the address of their result word with `argint`, as a
plain number, and hand it down; `thread_create` and `thread_join` store through it. No check stands
between. So the calls keep to the caller's memory exactly if the address they are given is in it, or
they fail before the store (`thread_stores_in_user`). `argptr` would have refused the other addresses
(`Xv6.Process.argptr_range`).

What a store outside the caller's memory destroys is not modelled: an `Outcome` lists the stores of a
call, and the table is the one that the rest of the call leaves.
-/

namespace Xv6.Process

open Lib Table

/-- The word at `addr` is in the user memory of a process of size `sz`. -/
def InUser (sz addr : Nat) : Prop := addr + 4 ≤ sz ∧ addr + 4 ≤ kernBase

instance (sz addr : Nat) : Decidable (InUser sz addr) := inferInstanceAs (Decidable (_ ∧ _))

/-- How the caller comes out of a call. -/
inductive Ending
  | returns (r : Int)
  /-- asleep, to go on with another round -/
  | sleeps
  | panics
  deriving DecidableEq

structure Outcome where
  /-- the result words that were stored: address and value -/
  stores : List (Nat × Nat)
  ending : Ending
  table : Table

/-! ### The two calls -/

/-- The arguments of `sys_thread_create`: the address for the LWP number. The routine and its argument
are read too, and only used in user mode. -/
def createArgs (sz : Nat) (mem : UserMem) (esp : Nat) : Except Fault (Option Nat) := do
  match ← argint sz mem esp 0 with
  | none => return none
  | some thread =>
    match ← argint sz mem esp 1 with
    | none => return none
    | some _routine =>
      match ← argint sz mem esp 2 with
      | none => return none
      | some _arg => return some thread

/-- The arguments of `sys_thread_join`: the LWP number and the address for the return value. -/
def joinArgs (sz : Nat) (mem : UserMem) (esp : Nat) : Except Fault (Option (Nat × Nat)) := do
  match ← argint sz mem esp 0 with
  | none => return none
  | some thread =>
    match ← argint sz mem esp 1 with
    | none => return none
    | some retval => return some (thread, retval)

namespace Table

variable (s : Table)

/-- A call whose arguments are `args`, and which goes on with `body`. -/
def withArgs {α : Type} (args : Except Fault (Option α)) (body : α → Outcome) : Outcome :=
  match args with
  | .error _ => ⟨[], .panics, s.panic "trap"⟩
  | .ok none => ⟨[], .returns (-1), s⟩
  | .ok (some a) => body a

/-- `thread_create(thread, …)`: `*thread = np->lwpid` comes after `allocproc`, and before the pages of
the stack. Where a store would fault, here and in `thread_join`, the call does not go on; it is recorded
with its address, and what follows is as if it had been made. -/
def createInto (p : ProcId) (stack : Bool) (avail thread : Nat) : Outcome where
  stores :=
    match s.findSlot (fun pr => pr.state = .unused), stack with
    | some _, true => [(thread, s.nextlwpid)]
    | _, _ => []
  ending :=
    match s.threadCreateRet p stack avail with
    | some r => .returns r
    | none => .panics
  table := s.threadCreate p stack avail

/-- One round of `thread_join(thread, retval)`, the first or a later one. -/
def joinInto (p : ProcId) (thread retval : Nat) : Outcome :=
  let t := s.threadJoin p thread
  if (s.proc p).lwpid ≠ 0 then ⟨[], .returns (-1), t⟩
  else match s.joinFinds p thread with
    | some q => ⟨[(retval, (s.proc q).retval)], .returns 0, t⟩
    | none => ⟨[], if (s.proc p).killed then .returns (-1) else .sleeps, t⟩

end Table

/-- A thread call, as the caller's user memory and stack pointer give it. -/
inductive ThreadCall
  | create (mem : UserMem) (esp : Nat) (stack : Bool) (avail : Nat)
  | join (mem : UserMem) (esp : Nat)
  /-- a later round of a `sys_thread_join` that has slept -/
  | joinAgain (thread retval : Nat)

/-- The arguments, if they could be read. -/
def readArgs {α : Type} : Except Fault (Option α) → Option α
  | .ok a => a
  | .error _ => none

namespace ThreadCall

variable (s : Table) (p : ProcId)

/-- May `p` be at this point? A later round of `thread_join` is one of a manager: its first round has
made the test. -/
def Can : ThreadCall → Prop
  | .create .. | .join .. => s.calls p
  | .joinAgain thread _ => s.stands p (.joinLoop thread) ∧ (s.proc p).lwpid = 0

/-- `sys_thread_create` and `sys_thread_join`. -/
def outcome : ThreadCall → Outcome
  | .create mem esp stack avail =>
    s.withArgs (createArgs (s.proc p).sz mem esp) fun thread => s.createInto p stack avail thread
  | .join mem esp =>
    s.withArgs (joinArgs (s.proc p).sz mem esp) fun a => s.joinInto p a.1 a.2
  | .joinAgain thread retval => s.joinInto p thread retval

/-- The address for the result word. -/
def pointer : ThreadCall → Option Nat
  | .create mem esp _ _ => readArgs (createArgs (s.proc p).sz mem esp)
  | .join mem esp => (readArgs (joinArgs (s.proc p).sz mem esp)).map Prod.snd
  | .joinAgain _ retval => some retval

/-- The address is in the caller's memory, or `thread_create` finds no slot, or `thread_join` is
called by an LWP or finds nobody to join. -/
def Safe : ThreadCall → Prop
  | .create mem esp _ _ => ∀ thread ∈ readArgs (createArgs (s.proc p).sz mem esp),
    InUser (s.proc p).sz thread ∨ ∀ q, (s.proc q).Used
  | .join mem esp => ∀ a ∈ readArgs (joinArgs (s.proc p).sz mem esp),
    InUser (s.proc p).sz a.2 ∨ (s.proc p).lwpid ≠ 0 ∨ s.joinFinds p a.1 = none
  | .joinAgain thread retval =>
    InUser (s.proc p).sz retval ∨ (s.proc p).lwpid ≠ 0 ∨ s.joinFinds p thread = none

end ThreadCall

/-- A call by `p` with result address `ptr` came out as `o`, and has kept to the memory of `p`. -/
structure InMemory (s : Table) (p : ProcId) (ptr : Option Nat) (o : Outcome) : Prop where
  inside : ∀ w ∈ o.stores, InUser (s.proc p).sz w.1
  /-- with any other address it returns `-1` and has changed nothing, unless it is still asleep -/
  refused : ∀ a ∈ ptr, ¬ InUser (s.proc p).sz a →
    o.ending = .sleeps ∨ o.ending = .returns (-1) ∧ o.table = s.ret p

/-! ### What each call does with the address -/

section

variable {s : Table} {p : ProcId}

lemma ret_eq_self (h : (s.proc p).cont = .user) : s.ret p = s := by
  have hproc : (fun pr : Proc => { pr with cont := .user }) (s.proc p) = s.proc p := by
    simp only [← h]
  unfold Table.ret Table.modify
  rw [hproc, Function.update_eq_self]

lemma calls_user (h : s.calls p) : (s.proc p).cont = .user := by
  simp only [Table.calls, Table.stands] at h
  exact h.1.2

lemma findSlot_unused_none : s.findSlot (fun pr => pr.state = .unused) = none ↔ ∀ q, (s.proc q).Used := by
  simp [Table.findSlot, Proc.Used]

lemma withArgs_inMemory {α : Type} (args : Except Fault (Option α)) {body : α → Outcome}
    {ptr : α → Nat} {C : α → Prop} (h : ∀ a, InMemory s p (some (ptr a)) (body a) ↔ C a) :
    InMemory s p ((readArgs args).map ptr) (s.withArgs args body) ↔ ∀ a ∈ readArgs args, C a := by
  cases args with
  | error e =>
    exact iff_of_true ⟨by simp [Table.withArgs], by simp [readArgs]⟩ (by simp [readArgs])
  | ok r =>
    cases r with
    | none => exact iff_of_true ⟨by simp [Table.withArgs], by simp [readArgs]⟩ (by simp [readArgs])
    | some a => simpa [readArgs, Table.withArgs] using h a

lemma threadCreate_noSlot {stack : Bool} {avail : Nat} (h : ∀ q, (s.proc q).Used) :
    s.threadCreateRet p stack avail = some (-1) ∧ s.threadCreate p stack avail = s := by
  have hsafe : CreateSafe s p stack avail := .inl h
  have hret : s.threadCreateRet p stack avail = some (-1) := by
    unfold threadCreateRet
    rw [findSlot_unused_none.mpr h]
  rcases threadCreate_ret s p stack avail with ⟨-, -, -, hs⟩ | ⟨-, hno, -⟩ | ⟨-, hno, -⟩ | ⟨hne, -⟩
  · exact ⟨hret, hs⟩
  · exact absurd hsafe hno
  · exact absurd hsafe hno
  · exact absurd hret hne

lemma threadCreate_noStack {q : ProcId} {avail : Nat} (hq : s.findSlot (fun pr => pr.state = .unused) = some q) :
    (s.threadCreate p false avail).nextpid = s.nextpid + 1 := by
  have hcases := threadCreate_cases s p false avail
  generalize s.threadCreate p false avail = t at hcases ⊢
  cases hcases with
  | noSlot h =>
    unfold allocproc at h
    rw [hq] at h
    rw [← (Prod.mk.inj h).2]
    rfl
  | failed h _ _ _ | done h _ _ _ | remap h _ _ _ | noBase h _ | noDir h _ =>
    exact absurd (allocproc_some_slot h).2 (by simp)

lemma createInto_inMemory {stack : Bool} {avail thread : Nat} (hp : (s.proc p).cont = .user) :
    InMemory s p (some thread) (s.createInto p stack avail thread) ↔
      InUser (s.proc p).sz thread ∨ ∀ q, (s.proc q).Used := by
  cases hq : s.findSlot (fun pr => pr.state = .unused) with
  | none =>
    have hused := findSlot_unused_none.mp hq
    obtain ⟨hret, htable⟩ : s.threadCreateRet p stack avail = some (-1) ∧
        s.threadCreate p stack avail = s := threadCreate_noSlot hused
    refine iff_of_true ⟨?_, fun _ _ _ => .inr ⟨?_, ?_⟩⟩ (.inr hused)
    · simp [createInto, hq]
    · simp [createInto, hret]
    · exact htable.trans (ret_eq_self hp).symm
  | some q =>
    have hunused : ¬ ∀ q, (s.proc q).Used := fun hall => by
      rw [findSlot_unused_none.mpr hall] at hq
      cases hq
    rw [or_iff_left hunused]
    cases stack with
    | true =>
      -- the store is made
      refine ⟨fun h => h.inside (thread, s.nextlwpid) (by simp [createInto, hq]), fun hin => ⟨?_, ?_⟩⟩
      · simpa [createInto, hq] using hin
      · rintro a ⟨⟩ hout
        exact absurd hin hout
    | false =>
      refine ⟨fun h => by_contra fun hout => ?_, fun hin => ⟨by simp [createInto, hq], ?_⟩⟩
      · have hpid : (s.threadCreate p false avail).nextpid = s.nextpid + 1 := threadCreate_noStack hq
        have hret : s.threadCreateRet p false avail = some (-1) := by
          unfold threadCreateRet
          rw [hq]
        rcases h.refused thread rfl hout with hsl | ⟨-, htable⟩
        · simp [createInto, hret] at hsl
        · have hsame : s.threadCreate p false avail = s.ret p := htable
          rw [hsame] at hpid
          exact absurd hpid (Nat.lt_succ_self _).ne
      · rintro a ⟨⟩ hout
        exact absurd hin hout

lemma joinInto_inMemory {thread retval : Nat} (hp : (s.proc p).cont = .user ∨ (s.proc p).lwpid = 0) :
    InMemory s p (some retval) (s.joinInto p thread retval) ↔
      InUser (s.proc p).sz retval ∨ (s.proc p).lwpid ≠ 0 ∨ s.joinFinds p thread = none := by
  by_cases hl : (s.proc p).lwpid ≠ 0
  · -- the caller is an LWP
    have htable : s.threadJoin p thread = s.ret p := by
      rw [Table.threadJoin, if_pos hl, ret_eq_self (hp.resolve_right hl)]
    refine iff_of_true ⟨?_, fun _ _ _ => .inr ⟨?_, ?_⟩⟩ (.inr (.inl hl))
    · simp [joinInto, hl]
    · simp [joinInto, hl]
    · simp [joinInto, hl, htable]
  cases hq : s.joinFinds p thread with
  | some q =>
    have hstores : (s.joinInto p thread retval).stores = [(retval, (s.proc q).retval)] := by
      simp [joinInto, hl, hq]
    simp only [hl, reduceCtorEq, or_false]
    refine ⟨fun h => h.inside _ (by rw [hstores]; exact List.mem_singleton_self _), fun hin => ?_⟩
    refine ⟨by simpa [hstores] using hin, ?_⟩
    rintro a ⟨⟩ hout
    exact absurd hin hout
  | none =>
    refine iff_of_true ⟨by simp [joinInto, hl, hq], fun _ _ _ => ?_⟩ (.inr (.inr rfl))
    by_cases hk : (s.proc p).killed = true
    · exact .inr (by simp [joinInto, hl, hq, hk, Table.threadJoin, joinScan])
    · exact .inl (by simp [joinInto, hl, hq, hk])

end

/-- **The thread calls keep to the caller's memory, exactly if the address they are given lies there
or they fail before they use it.** For every state of the table, every content of the caller's memory
and every stack pointer, and wherever `kalloc` fails. -/
theorem thread_stores_in_user {s : Table} {p : ProcId} {c : ThreadCall} (hc : c.Can s p) :
    InMemory s p (c.pointer s p) (c.outcome s p) ↔ c.Safe s p := by
  cases c with
  | create mem esp stack avail =>
    have hbody : ∀ thread, InMemory s p (some (id thread)) (s.createInto p stack avail thread) ↔
        InUser (s.proc p).sz thread ∨ ∀ q, (s.proc q).Used :=
      fun thread => createInto_inMemory (calls_user hc)
    have hcall := withArgs_inMemory (createArgs (s.proc p).sz mem esp) hbody
    rw [Option.map_id] at hcall
    exact hcall
  | join mem esp =>
    exact withArgs_inMemory _ fun a => joinInto_inMemory (.inl (calls_user hc))
  | joinAgain thread retval => exact joinInto_inMemory (.inr hc.2)

/-- One page of user memory, with the words of `ws` from address `100` on. -/
def argPage (ws : List Nat) : UserMem := fun x =>
  if pgSize ≤ x then none
  else if x < 100 then some 0
  else some (UInt8.ofNat (ws.getD ((x - 100) / 4) 0 / 2 ^ (8 * ((x - 100) % 4))))

/-- The address `40` is in order for `sys_thread_create`, and `KERNBASE` is not. -/
theorem thread_stores_in_user_onePage :
    ∃ s, Run Table.step anyStep Table.boot onePage s ∧
      InMemory s 1 (some 40) ((ThreadCall.create (argPage [40]) 96 true 2).outcome s 1) ∧
      ¬ InMemory s 1 (some kernBase)
        ((ThreadCall.create (argPage [kernBase]) 96 true 2).outcome s 1) := by
  obtain ⟨s, hrun, hc, hp, hp', hsafe, hno⟩ := run_of_check Table.step anyStep Table.boot onePage
    (fun s => s.calls 1 ∧ (ThreadCall.create (argPage [40]) 96 true 2).pointer s 1 = some 40 ∧
      (ThreadCall.create (argPage [kernBase]) 96 true 2).pointer s 1 = some kernBase ∧
      InUser (s.proc 1).sz 40 ∧ ¬ (InUser (s.proc 1).sz kernBase ∨ ∀ q, (s.proc q).Used))
    (by decide +kernel)
  have hgood := thread_stores_in_user (c := .create (argPage [40]) 96 true 2) hc
  have hbad := thread_stores_in_user (c := .create (argPage [kernBase]) 96 true 2) hc
  rw [hp] at hgood
  rw [hp'] at hbad
  refine ⟨s, hrun, hgood.mpr fun a ha => ?_, fun h => hno (hbad.mp h kernBase hp')⟩
  obtain rfl := Option.some.inj (hp.symm.trans ha)
  exact .inl hsafe

/-- A process passes `KERNBASE` for the result word: `sys_thread_create` stores the number of its new
LWP there and returns `0`, and when that LWP has ended, `sys_thread_join` does the same with its
return value. -/
theorem thread_stores_in_kernel :
    (∃ s, Run Table.step anyStep Table.boot onePage s ∧ s.calls 1 ∧ (s.proc 1).sz = pgSize ∧
      let o := (ThreadCall.create (argPage [kernBase]) 96 true 2).outcome s 1
      o.stores = [(kernBase, 1)] ∧ o.ending = .returns 0) ∧
    ∃ s, Run Table.step anyStep Table.boot
        (onePage ++ [.threadCreate 1 true 9, .sched 2 .running, .threadExit 2 7]) s ∧
      s.calls 1 ∧ (s.proc 1).sz = pgSize ∧
      let o := (ThreadCall.join (argPage [1, kernBase]) 96).outcome s 1
      o.stores = [(kernBase, 7)] ∧ o.ending = .returns 0 :=
  ⟨run_of_check _ _ _ _ _ (by decide +kernel), run_of_check _ _ _ _ _ (by decide +kernel)⟩

end Xv6.Process
