import Xv6.Process.Effect

/-!
# `fork` and `thread_create` in parts

`Table.step` takes `fork` and `thread_create` as one step. The source does not: `allocproc` gives
`ptable.lock` up as soon as a slot is `EMBRYO`, and what follows is done without the lock but for the
last section of each call. Here the two calls are divided at every access to what other processes see:
the failure of `allocproc`, the number of an LWP, the copy of the address space, the second look at
`sz`, and the read and the write of `num_lwp++`. Between two parts any process may take a step.

A run in which no other step falls between the parts of a call (`Undivided`) is a run of whole calls
(`reduces`): when nobody is inside a call it has come to a table that `Table.step` reaches, and else to
one that differs from such a table in a slot which is still `EMBRYO` (`Within`). `copyuvm` is one part, and
so is each last section: after its second look at `sz`, `fork` changes nothing that others see until it
holds the lock.
-/

namespace Xv6.Process

open Function (update)
open Lib Table

/-- Where a process is in `fork` or `thread_create`, with the slot `q` that `allocproc` has found. -/
inductive Place
  | outside
  /-- `fork`, about to allocate the kernel stack -/
  | forkStack (q : ProcId) (mem : ForkMem)
  /-- `nextlwpid++` has read `n` -/
  | forkNumber (q : ProcId) (mem : ForkMem) (n : Nat)
  | forkCopy (q : ProcId) (mem : ForkMem)
  /-- about to read `sz` once more, and to take `ptable.lock` -/
  | forkReady (q : ProcId)
  /-- `thread_create`, about to allocate the kernel stack -/
  | createStack (q : ProcId) (stack : Bool) (avail : Nat)
  /-- `num_lwp++` has read `n` -/
  | createCount (q : ProcId) (avail : Nat) (n : Int)
  /-- about to take `ptable.lock` -/
  | createFill (q : ProcId) (avail : Nat)
  deriving DecidableEq

/-- Does the part at this place need `ptable.lock`? -/
def Place.takesLock : Place → Bool
  | .forkReady _ => true
  | .createFill _ _ => true
  | _ => false

/-- The next part of the call that `p` is in, and the place after it. -/
def Table.part (s : Table) (p : ProcId) : Place → Table × Place
  | .outside => (s, .outside)
  | .forkStack q mem =>
    if mem = .noStack then (s.modify q fun np => { np with state := .unused }, .outside)
    else if 0 < (s.proc p).lwpid then
      (s.modify q fun np => { np with forked := true }, .forkNumber q mem s.nextlwpid)
    else (s, .forkCopy q mem)
  | .forkNumber q mem n =>
    ({ s.modify q fun np => { np with lwpid := n } with nextlwpid := n + 1 }, .forkCopy q mem)
  | .forkCopy q mem =>
    match mem, (s.proc p).pgdir with
    | .enough, some d =>
      ({ (s.setPages s.nextdir (copyuvm (s.pages d) (s.proc p).sz)).modify q fun np =>
          { np with pgdir := some s.nextdir }
        with nextdir := s.nextdir + 1 }, .forkReady q)
    | .enough, none => (s.panic "trap", .forkCopy q mem)
    | .noPage, _ =>
      ({ (s.freevm s.nextdir).modify q fun np => { np with pgdir := none, state := .unused }
        with nextdir := s.nextdir + 1 }, .outside)
    | _, _ => (s.modify q fun np => { np with pgdir := none, state := .unused }, .outside)
  | .forkReady q =>
    (s.modify q fun np => { np with sz := (s.proc p).sz, parent := some p, state := .runnable }, .outside)
  | .createStack q stack avail =>
    if stack then (s, .createCount q avail s.numLwp)
    else (s.modify q fun np => { np with state := .unused }, .outside)
  | .createCount q avail n => ({ s with numLwp := n + 1 }, .createFill q avail)
  | .createFill q avail =>
    match s.fillLwp p (s.proc p) q avail with
    | .ok s' => (s', .outside)
    | .error msg => (s.panic msg, .createFill q avail)

/-- The process that takes an action. -/
def Act.caller : Act → ProcId
  | .sched p _ | .fork p _ | .exec p _ | .exit p | .exitScan p | .exitEnd p | .wait p | .kill p _
  | .threadCreate p _ _ | .threadExit p _ | .threadJoin p _ | .sbrk p _ _ => p

/-- The caller is switched to or away from, which may happen inside a call. -/
def Act.switches : Act → Bool
  | .sched _ .running => true
  | .sched _ .runnable => true
  | _ => false

/-- The table, and where each process is. -/
structure Kernel where
  table : Table
  place : ProcId → Place

inductive Part
  /-- the first part of a `fork` or `thread_create`, or an action that is not divided -/
  | call (a : Act)
  /-- the next part of the call that `p` is in -/
  | resume (p : ProcId)
  deriving DecidableEq

namespace Kernel

variable (k : Kernel)

/-- The locked section of `allocproc`; the call goes on at `place`. -/
def enter (p : ProcId) (place : ProcId → Place) : Kernel :=
  match k.table.findSlot fun pr => pr.state = .unused with
  | none => k
  | some q => ⟨k.table.embryo q, update k.place p (place q)⟩

def step : Part → Option Kernel
  | .call a =>
    if k.place a.caller ≠ .outside ∧ a.switches = false then none
    else
      match a with
      | .fork p mem =>
        if k.table.stopped.isSome ∨ k.table.locked then none
        else if k.table.calls p then some (k.enter p (.forkStack · mem)) else none
      | .threadCreate p stack avail =>
        if k.table.stopped.isSome ∨ k.table.locked then none
        else if k.table.calls p then some (k.enter p (.createStack · stack avail)) else none
      | a => (k.table.step a).map fun t => { k with table := t }
  | .resume p =>
    if k.table.stopped.isSome ∨ (k.table.locked ∧ (k.place p).takesLock) then none
    else if (k.table.proc p).state = .running ∧ k.place p ≠ .outside then
      some ⟨(k.table.part p (k.place p)).1, update k.place p (k.table.part p (k.place p)).2⟩
    else none

def boot : Kernel := ⟨Table.boot, fun _ => .outside⟩

/-- Nobody is inside `fork` or `thread_create`. -/
def Outside : Prop := ∀ p, k.place p = .outside

instance : Decidable k.Outside := inferInstanceAs (Decidable (∀ _, _))

/-- Each action meets `C`, and is taken while nobody is inside a call. -/
def Undivided (C : Table → Act → Prop) (k : Kernel) : Part → Prop
  | .call a => k.Outside ∧ C k.table a
  | .resume _ => True

instance (C : Table → Act → Prop) [∀ s a, Decidable (C s a)] : ∀ a, Decidable (k.Undivided C a)
  | .call _ => inferInstanceAs (Decidable (_ ∧ _))
  | .resume _ => inferInstanceAs (Decidable True)

end Kernel

/-- The actions of a run, without their later parts. -/
def wholeCalls (as : List Part) : List Act :=
  as.filterMap fun
    | .call a => some a
    | .resume _ => none

/-! ### Inside a call -/

/-- The table inside a call that has taken slot `q` of `s`. -/
structure Within (s : Table) (q : ProcId) (t : Table) : Prop where
  unused : (s.proc q).state = .unused
  embryo : (t.proc q).state = .embryo
  noLwp : (t.proc q).lwpid = 0 ∨ (t.proc q).forked = true
  others : ∀ r, r ≠ q → t.proc r = s.proc r
  nextdir : s.nextdir ≤ t.nextdir
  pages : ∀ d, d < s.nextdir → t.pages d = s.pages d
  locked : t.locked = s.locked
  numLwp : s.numLwp ≤ t.numLwp

section

variable {s t : Table} {p q : ProcId} {a : Act} {pl : Place}

lemma modify_modify {f g : Proc → Proc} : (s.modify q f).modify q g = s.modify q fun pr => g (f pr) := by
  simp [Table.modify]

lemma Within.mk_embryo (hq : (s.proc q).state = .unused) : Within s q (s.embryo q) where
  unused := hq
  embryo := by simp [Table.modify, Table.embryo]
  noLwp := .inl (by simp [Table.modify, Table.embryo])
  others r hr := by simp [Table.modify, Table.embryo, hr]
  nextdir := le_rfl
  pages _ _ := rfl
  locked := rfl
  numLwp := le_rfl

/-- A change of the slot that leaves it `EMBRYO`, and no LWP. -/
lemma Within.modify (h : Within s q t) {f : Proc → Proc} (hf : ∀ pr, (f pr).state = pr.state)
    (hl : ∀ pr, pr.lwpid = 0 ∨ pr.forked = true → (f pr).lwpid = 0 ∨ (f pr).forked = true) :
    Within s q (t.modify q f) where
  unused := h.unused
  embryo := by rw [modify_self, hf, h.embryo]
  noLwp := by
    rw [modify_self]
    exact hl _ h.noLwp
  others r hr := (modify_of_ne hr).trans (h.others r hr)
  nextdir := h.nextdir
  pages := h.pages
  locked := h.locked
  numLwp := h.numLwp

/-- A new page directory. -/
lemma Within.newDir (h : Within s q t) (pg : Pages) :
    Within s q { t.setPages t.nextdir pg with nextdir := t.nextdir + 1 } where
  unused := h.unused
  embryo := h.embryo
  noLwp := h.noLwp
  others := h.others
  nextdir := h.nextdir.trans (Nat.le_succ _)
  pages d hd := by
    rw [← h.pages d hd]
    exact Function.update_of_ne (hd.trans_le h.nextdir).ne _ _
  locked := h.locked
  numLwp := h.numLwp

/-- What `fork` has made of the table before `copyuvm`. -/
def Table.marked (s : Table) (p q : ProcId) : Table :=
  if 0 < (s.proc p).lwpid then
    { (s.embryo q).modify q fun np => { np with forked := true, lwpid := s.nextlwpid }
      with nextlwpid := s.nextlwpid + 1 }
  else s.embryo q

/-- What `fork` has made of the table when `copyuvm` has copied the pages of directory `d`. -/
def Table.copied (s : Table) (p q : ProcId) (d : Nat) : Table :=
  { ((s.marked p q).setPages s.nextdir (copyuvm (s.pages d) (s.proc p).sz)).modify q fun np =>
      { np with pgdir := some s.nextdir }
    with nextdir := s.nextdir + 1 }

/-- What `thread_create` has made of the table before it takes the lock. -/
def Table.counted (s : Table) (q : ProcId) : Table :=
  { s.embryo q with numLwp := (s.embryo q).numLwp + 1 }

/-- The places that `p` passes in a call `a` begun at `s`, with the table there. -/
inductive Mid (s : Table) (p q : ProcId) : Act → Place → Table → Prop
  | stack {mem : ForkMem} : Mid s p q (.fork p mem) (.forkStack q mem) (s.embryo q)
  | number {mem : ForkMem} (hmem : mem ≠ .noStack) (hl : 0 < (s.proc p).lwpid) :
      Mid s p q (.fork p mem) (.forkNumber q mem s.nextlwpid)
        ((s.embryo q).modify q fun np => { np with forked := true })
  | copy {mem : ForkMem} (hmem : mem ≠ .noStack) :
      Mid s p q (.fork p mem) (.forkCopy q mem) (s.marked p q)
  | ready {d : Nat} (hd : (s.proc p).pgdir = some d) :
      Mid s p q (.fork p .enough) (.forkReady q) (s.copied p q d)
  | createStack {stack : Bool} {avail : Nat} :
      Mid s p q (.threadCreate p stack avail) (.createStack q stack avail) (s.embryo q)
  | createCount {avail : Nat} :
      Mid s p q (.threadCreate p true avail) (.createCount q avail s.numLwp) (s.embryo q)
  | createFill {avail : Nat} :
      Mid s p q (.threadCreate p true avail) (.createFill q avail) (s.counted q)
  /-- a part has panicked -/
  | stop {a : Act} {pl : Place} {t : Table} (h : Mid s p q a pl t) (msg : String) :
      Mid s p q a pl (t.panic msg)

lemma Within.marked (hq : (s.proc q).state = .unused) : Within s q (s.marked p q) := by
  unfold Table.marked
  split
  · have := (Within.mk_embryo hq).modify
      (f := fun np => { np with forked := true, lwpid := s.nextlwpid }) (fun _ => rfl) fun _ _ => .inr rfl
    exact { this with }
  · exact .mk_embryo hq

lemma marked_same : (s.marked p q).nextdir = s.nextdir ∧ (s.marked p q).pages = s.pages := by
  unfold Table.marked
  split
  · exact ⟨rfl, rfl⟩
  · exact ⟨rfl, rfl⟩

lemma Within.copied {d : Nat} (hq : (s.proc q).state = .unused) : Within s q (s.copied p q d) := by
  have h := ((Within.marked (p := p) hq).newDir (copyuvm (s.pages d) (s.proc p).sz)).modify
    (f := fun np => { np with pgdir := some s.nextdir }) (fun _ => rfl) fun _ => id
  rw [marked_same.1] at h
  exact h

/-- Inside a call the table is as before but for the slot. -/
lemma Mid.within (h : Mid s p q a pl t) (hq : (s.proc q).state = .unused) : Within s q t := by
  induction h with
  | stack => exact .mk_embryo hq
  | number => exact (Within.mk_embryo hq).modify (fun _ => rfl) fun _ _ => .inr rfl
  | copy => exact .marked hq
  | ready => exact .copied hq
  | createStack => exact .mk_embryo hq
  | createCount => exact .mk_embryo hq
  | createFill => exact { Within.mk_embryo hq with numLwp := (Int.lt_add_one_iff.mpr le_rfl).le }
  | stop _ _ ih => exact { ih with }

lemma Mid.ne_outside (h : Mid s p q a pl t) : pl ≠ .outside := by
  induction h with
  | stop _ _ ih => exact ih
  | _ => simp

lemma marked_of_ne {r : ProcId} (hr : r ≠ q) : (s.marked p q).proc r = s.proc r := by
  unfold Table.marked
  split
  · simp [Table.modify, Table.embryo, hr]
  · simp [Table.modify, Table.embryo, hr]

/-- The call `fork` when `allocproc` has found a slot. -/
lemma fork_eq {mem : ForkMem} (hq : s.findSlot (fun pr => pr.state = .unused) = some q)
    (hmem : mem ≠ .noStack) : s.fork p mem =
      match mem, (s.proc p).pgdir with
      | .enough, some d => (s.copied p q d).modify q fun np =>
          { np with sz := (s.proc p).sz, parent := some p, state := .runnable }
      | .enough, none => s.panic "trap"
      | .noPage, _ => { ((s.marked p q).freevm s.nextdir).modify q fun np =>
          { np with pgdir := none, state := .unused } with nextdir := s.nextdir + 1 }
      | _, _ => (s.marked p q).modify q fun np => { np with pgdir := none, state := .unused } := by
  have halloc : s.allocproc (mem != .noStack) = (some q, s.embryo q) := by
    rw [allocproc, hq]
    cases mem <;> first | exact absurd rfl hmem | rfl
  have hmarked : s.marked p q = if 0 < (s.proc p).lwpid then
      { (s.embryo q).modify q fun np => { np with forked := true, lwpid := (s.embryo q).nextlwpid }
        with nextlwpid := (s.embryo q).nextlwpid + 1 }
    else s.embryo q := rfl
  obtain ⟨hdir, hpages⟩ := marked_same (s := s) (p := p) (q := q)
  rw [fork, halloc]
  dsimp only
  rw [← hmarked]
  cases mem with
  | noStack => exact absurd rfl hmem
  | noDir => rfl
  | noPage => rw [hdir]
  | enough =>
    cases hd : (s.proc p).pgdir with
    | none => rfl
    | some d =>
      dsimp only
      rw [hdir, hpages]
      simp [copied, Table.modify]

/-- The next part of a call goes on, or ends it as the whole call would. -/
lemma Mid.part (h : Mid s p q a pl t) (hq : s.findSlot (fun pr => pr.state = .unused) = some q)
    (hpq : p ≠ q) (hs : s.stopped = none) (hl : s.locked = false) (hp : s.calls p) (ht : t.stopped = none) :
    (t.part p pl).2 = .outside ∧ s.step a = some (t.part p pl).1 ∨
      Mid s p q a (t.part p pl).2 (t.part p pl).1 := by
  have hfork : ∀ mem, s.step (.fork p mem) = some (s.fork p mem) := fun mem => by
    simp [Table.step, hs, hl, hp]
  have hcreate : ∀ stack avail, s.step (.threadCreate p stack avail) =
      some (s.threadCreate p stack avail) := fun stack avail => by
    simp [Table.step, hs, hl, hp]
  have hembryo : (s.embryo q).proc p = s.proc p := by simp [Table.modify, Table.embryo, hpq]
  cases h with
  | @stack mem =>
    by_cases hmem : mem = .noStack
    · subst hmem
      exact .inl ⟨rfl, by rw [hfork, fork, allocproc, hq]; rfl⟩
    · simp only [Table.part, if_neg hmem, hembryo]
      by_cases hlwp : 0 < (s.proc p).lwpid
      · rw [if_pos hlwp]
        exact .inr (.number hmem hlwp)
      · have := Mid.copy (s := s) (p := p) (q := q) hmem
        rw [marked, if_neg hlwp] at this
        rw [if_neg hlwp]
        exact .inr this
  | @number mem hmem hlwp =>
    have := Mid.copy (s := s) (p := p) (q := q) hmem
    rw [marked, if_pos hlwp] at this
    simp only [Table.part, modify_modify]
    exact .inr this
  | @copy mem hmem =>
    obtain ⟨hdir, hpages⟩ := marked_same (s := s) (p := p) (q := q)
    simp only [Table.part, marked_of_ne hpq, hdir, hpages]
    cases mem with
    | noStack => exact absurd rfl hmem
    | noDir => exact .inl ⟨rfl, by rw [hfork, fork_eq hq (by decide)]⟩
    | noPage => exact .inl ⟨rfl, by rw [hfork, fork_eq hq (by decide)]⟩
    | enough =>
      cases hd : (s.proc p).pgdir with
      | none => exact .inr (.stop (.copy hmem) _)
      | some d => exact .inr (.ready hd)
  | @ready d hd =>
    have hcur : (s.copied p q d).proc p = s.proc p := by
      simp [Table.copied, Table.modify, Table.setPages, hpq, marked_of_ne hpq]
    refine .inl ⟨rfl, ?_⟩
    simp only [Table.part, hcur, hfork, fork_eq hq (show ForkMem.enough ≠ .noStack by decide), hd]
  | @createStack stack avail =>
    cases stack with
    | false => exact .inl ⟨rfl, by rw [hcreate, threadCreate, allocproc, hq]; rfl⟩
    | true => exact .inr .createCount
  | createCount => exact .inr .createFill
  | @createFill avail =>
    have hcur : (s.counted q).proc p = s.proc p := hembryo
    simp only [Table.part, hcur]
    cases hfill : (s.counted q).fillLwp p (s.proc p) q avail with
    | ok s' =>
      have halloc : s.allocproc true = (some q, s.embryo q) := by
        rw [allocproc, hq]
        rfl
      unfold Table.counted at hfill
      refine .inl ⟨rfl, ?_⟩
      rw [hcreate, threadCreate, halloc]
      dsimp only
      rw [hfill]
    | error msg => exact .inr (.stop .createFill msg)
  | stop h msg => cases ht

end

/-! ### Undivided runs -/

section

variable {C : Table → Act → Prop} {s t : Table} {k k' : Kernel} {p q : ProcId} {a : Act}
  {as : List Part} {bs : List Act}

/-- Process `p`, and nobody else, is inside a call `a` which it has begun at `s`. -/
structure Inside (C : Table → Act → Prop) (s : Table) (k : Kernel) (p q : ProcId) (a : Act) : Prop where
  cond : C s a
  slot : s.findSlot (fun pr => pr.state = .unused) = some q
  calls : s.calls p
  stopped : s.stopped = none
  locked : s.locked = false
  alone : ∀ r, r ≠ p → k.place r = .outside
  mid : Mid s p q a (k.place p) k.table

lemma Inside.unused (h : Inside C s k p q a) : (s.proc q).state = .unused := by
  simpa using findSlot_some h.slot

lemma Inside.within (h : Inside C s k p q a) : Within s q k.table := h.mid.within h.unused

lemma Inside.ne (h : Inside C s k p q a) : p ≠ q := by
  rintro rfl
  exact used_of_calls h.calls h.unused

/-- The next part goes on, or ends the call as the whole call would. -/
lemma Inside.part (h : Inside C s k p q a)
    (hen : ¬(k.table.stopped.isSome ∨ k.table.locked ∧ (k.place p).takesLock)) :
    (k.table.part p (k.place p)).2 = .outside ∧ s.step a = some (k.table.part p (k.place p)).1 ∨
      Mid s p q a (k.table.part p (k.place p)).2 (k.table.part p (k.place p)).1 := by
  have ht : k.table.stopped = none := by
    rw [not_or] at hen
    simpa using hen.1
  exact h.mid.part h.slot h.ne h.stopped h.locked h.calls ht

/-- Where an undivided run has come to: to a table that whole calls reach, or inside a call begun there. -/
def Reached (C : Table → Act → Prop) (as : List Part) (k : Kernel) : Prop :=
  ∃ bs s, Run Table.step C Table.boot bs s ∧
    (k.Outside ∧ k.table = s ∧ wholeCalls as = bs ∨
      ∃ p q a, Inside C s k p q a ∧ wholeCalls as = bs ++ [a])

lemma wholeCalls_call : wholeCalls (as ++ [.call a]) = wholeCalls as ++ [a] := by
  simp [wholeCalls, List.filterMap_append]

lemma wholeCalls_resume : wholeCalls (as ++ [.resume p]) = wholeCalls as := by
  simp [wholeCalls, List.filterMap_append]

/-- A call that begins, for `fork` and `thread_create`. -/
lemma Reached.enter {pl : ProcId → Place} (hrun : Run Table.step C Table.boot (wholeCalls as) k.table)
    (hout : k.Outside) (hc : C k.table a) (hs : k.table.stopped = none) (hl : k.table.locked = false)
    (hp : k.table.calls p)
    (hnone : k.table.findSlot (fun pr => pr.state = .unused) = none → k.table.step a = some k.table)
    (hmid : ∀ q, Mid k.table p q a (pl q) (k.table.embryo q)) : Reached C (as ++ [.call a]) (k.enter p pl) := by
  unfold Kernel.enter
  cases hq : k.table.findSlot fun pr => pr.state = .unused with
  | none => exact ⟨_, _, hrun.snoc hc (hnone hq), .inl ⟨hout, rfl, wholeCalls_call⟩⟩
  | some q =>
    refine ⟨_, _, hrun, .inr ⟨p, q, a, ⟨hc, hq, hp, hs, hl, fun r hr => ?_, ?_⟩, wholeCalls_call⟩⟩
    · exact (Function.update_of_ne hr _ _).trans (hout r)
    · simpa using hmid q

lemma Reached.call (hrun : Run Table.step C Table.boot (wholeCalls as) k.table) (hout : k.Outside)
    (hc : C k.table a) (h : k.step (.call a) = some k') : Reached C (as ++ [.call a]) k' := by
  have whole : ∀ {t}, k.table.step a = some t → Reached C (as ++ [.call a]) { k with table := t } :=
    fun ht => ⟨_, _, hrun.snoc hc ht, .inl ⟨hout, rfl, wholeCalls_call⟩⟩
  unfold Kernel.step at h
  dsimp only at h
  rw [if_neg fun h => h.1 (hout _)] at h
  have enabled : ∀ {P : Prop} [Decidable P] {x : Kernel},
      (if k.table.stopped.isSome ∨ k.table.locked then none else if P then some x else none) = some k' →
      k.table.stopped = none ∧ k.table.locked = false ∧ P ∧ x = k' := fun h => by
    obtain ⟨hen, hP, hx⟩ := of_step h
    simpa [not_or, hP, hx] using hen
  cases a with
  | fork p mem =>
    obtain ⟨hs, hl, hp, rfl⟩ := enabled h
    refine Reached.enter hrun hout hc hs hl hp (fun hq => ?_) fun _ => .stack
    simp [Table.step, hs, hl, hp, Table.fork, allocproc, hq]
  | threadCreate p stack avail =>
    obtain ⟨hs, hl, hp, rfl⟩ := enabled h
    refine Reached.enter hrun hout hc hs hl hp (fun hq => ?_) fun _ => .createStack
    simp [Table.step, hs, hl, hp, Table.threadCreate, allocproc, hq]
  | _ =>
    obtain ⟨t, ht, rfl⟩ := Option.map_eq_some_iff.mp h
    exact whole ht

lemma Reached.resume (hrun : Run Table.step C Table.boot bs s) (hi : Inside C s k p q a)
    (hcalls : wholeCalls as = bs ++ [a]) (h : k.step (.resume p) = some k') :
    Reached C (as ++ [.resume p]) k' := by
  obtain ⟨hen, hp, rfl⟩ := of_step h
  rcases hi.part hen with ⟨hout, hstep⟩ | hmid
  · refine ⟨_, _, hrun.snoc hi.cond hstep, .inl ⟨fun r => ?_, rfl, wholeCalls_resume.trans hcalls⟩⟩
    by_cases hr : r = p
    · simp [hr, hout]
    · simpa [hr] using hi.alone r hr
  · refine ⟨bs, s, hrun, .inr ⟨p, q, a, { hi with alone := fun r hr => ?_, mid := ?_ },
      wholeCalls_resume.trans hcalls⟩⟩
    · exact (Function.update_of_ne hr _ _).trans (hi.alone r hr)
    · simpa using hmid

/-- An undivided run is a run of whole calls. -/
lemma reduces (h : Run Kernel.step (Kernel.Undivided C) Kernel.boot as k) : Reached C as k := by
  refine h.inv_trace (I := Reached C) ⟨[], _, .nil _, .inl ⟨fun _ => rfl, rfl, rfl⟩⟩
    fun as k b k' hr hc hs => ?_
  obtain ⟨bs, s, hrun, ⟨hout, rfl, rfl⟩ | ⟨p, q, a, hi, hcalls⟩⟩ := hr
  · cases b with
    | call a => exact .call hrun hout hc.2 hs
    | resume p => exact absurd (hout p) (of_step hs).2.1.2
  · cases b with
    | call a => exact absurd (hc.1 p) hi.mid.ne_outside
    | resume r =>
      obtain rfl : r = p := by
        by_contra hr
        exact (of_step hs).2.1.2 (hi.alone r hr)
      exact .resume hrun hi hcalls hs

/-- A call with all its parts, by a process that is no LWP, where nothing fails. -/
def Act.parts : Act → List Part
  | .fork p mem => .call (.fork p mem) :: List.replicate 3 (.resume p)
  | .threadCreate p stack avail => .call (.threadCreate p stack avail) :: List.replicate 3 (.resume p)
  | a => [.call a]

end

end Xv6.Process
