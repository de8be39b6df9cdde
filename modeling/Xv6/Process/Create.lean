import Xv6.Process.Grow
import Xv6.Process.Killed

/-!
# When `thread_create` fails

`thread_create` takes a slot, a kernel stack, a number, the lock, a reference to the working directory
and a stack slot, and stores the LWP number through the caller's pointer, before it asks for the pages
of the stack. If these are not to be had it marks the slot `UNUSED` and returns `-1`: everything else
stays taken, the lock included. Already without a kernel stack the slot keeps the pid it was given.
So a call that returns `-1` has changed nothing exactly if there was no slot (`thread_create_atomic`).

The process table is that of `Xv6.Process.Table`; `Kern` adds the other things that the call takes.
-/

namespace Xv6.Process

open Lib Table

/-! ### When `allocuvm` fails -/

lemma mapPages_noMem_iff {is : List Nat} (hnd : is.Nodup) : ∀ (pg : Pages) (k : Nat),
    (∃ pg', mapPages pg is k = .noMem pg') ↔ k < is.length ∧ ∀ i ∈ is.take k, pg i = false := by
  induction is with
  | nil => intro pg k; simp [mapPages]
  | cons j is ih =>
    intro pg k
    cases k with
    | zero => simp [mapPages]
    | succ k =>
      obtain ⟨hj, hnd⟩ := List.nodup_cons.mp hnd
      rw [mapPages]
      by_cases hpg : pg j = true
      · rw [if_pos hpg]
        simp [hpg]
      · rw [if_neg hpg, ih hnd, List.length_cons, List.take_succ_cons, List.forall_mem_cons]
        -- the page just added is not met again
        have hadd : ∀ i ∈ is.take k, (pg.add j i = false ↔ pg i = false) := by
          intro i hi
          have hne : i ≠ j := fun h => hj (h ▸ List.mem_of_mem_take hi)
          rw [Pages.add, if_neg hne]
        rw [forall₂_congr hadd, Nat.add_lt_add_iff_right]
        simp [hpg]

/-- The memory lasts: the range ends below the kernel, and there is a page for each page of it, or
`mappages` panics before they are used up. -/
def Lasts (pg : Pages) (oldsz newsz avail : Nat) : Prop :=
  newsz < kernBase ∧ (oldsz ≤ newsz → pgUp newsz - pgUp oldsz ≤ avail ∨
    ∃ i ∈ (growRange oldsz newsz).take avail, pg i = true)

instance (pg : Pages) (oldsz newsz avail : Nat) : Decidable (Lasts pg oldsz newsz avail) :=
  inferInstanceAs (Decidable (_ ∧ (_ → _ ∨ ∃ _ ∈ _, _)))

lemma allocuvm_failed_iff (pg : Pages) (oldsz newsz avail : Nat) :
    (∃ pg', allocuvm pg oldsz newsz avail = .failed pg') ↔ ¬ Lasts pg oldsz newsz avail := by
  have hnd : (growRange oldsz newsz).Nodup := List.nodup_range'
  have hmem := mapPages_noMem_iff hnd pg avail
  have hlen : (growRange oldsz newsz).length = pgUp newsz - pgUp oldsz := by simp [growRange]
  unfold allocuvm Lasts
  by_cases hk : kernBase ≤ newsz
  · rw [if_pos hk]
    exact iff_of_true ⟨_, rfl⟩ fun h => absurd h.1 (by omega)
  rw [if_neg hk]
  by_cases hlt : newsz < oldsz
  · rw [if_pos hlt]
    exact iff_of_false (by simp) fun h => h ⟨by omega, fun hle => by omega⟩
  rw [if_neg hlt]
  have hiff : ¬ (newsz < kernBase ∧ (oldsz ≤ newsz → pgUp newsz - pgUp oldsz ≤ avail ∨
      ∃ i ∈ (growRange oldsz newsz).take avail, pg i)) ↔
      avail < (growRange oldsz newsz).length ∧
        ∀ i ∈ (growRange oldsz newsz).take avail, pg i = false := by
    rw [hlen]
    simp only [show newsz < kernBase by omega, show oldsz ≤ newsz by omega, true_and, forall_const,
      not_or, Nat.not_le, not_exists, not_and, Bool.not_eq_true]
  rw [hiff, ← hmem]
  cases mapPages pg (growRange oldsz newsz) avail <;> simp

/-! ### What the call returns -/

/-- What `thread_create` returns; `none` where it panics. -/
def Table.threadCreateRet (s : Table) (p : ProcId) (stack : Bool) (avail : Nat) : Option Int :=
  match s.findSlot (fun pr => pr.state = .unused), stack with
  | none, _ => some (-1)
  | some _, false => some (-1)
  | some _, true =>
    match s.freeBase, (s.proc p).pgdir with
    | some i, some d =>
      let sbase := stackBase (s.proc p).sz i
      (allocuvm (s.pages d) sbase (sbase + 2 * pgSize) avail).ret
    | _, _ => none

/-- There is no slot; or there is a kernel stack, and the memory lasts for the stack at the first free
stack slot. -/
def CreateSafe (s : Table) (p : ProcId) (stack : Bool) (avail : Nat) : Prop :=
  (∀ q, (s.proc q).Used) ∨ (stack = true ∧ ∀ i ∈ s.freeBase, ∀ d ∈ (s.proc p).pgdir,
    Lasts (s.pages d) (stackBase (s.proc p).sz i) (stackBase (s.proc p).sz i + 2 * pgSize) avail)

instance (s : Table) (p : ProcId) (stack : Bool) (avail : Nat) :
    Decidable (CreateSafe s p stack avail) :=
  inferInstanceAs (Decidable (_ ∨ (_ ∧ ∀ _ ∈ _, ∀ _ ∈ _, _)))

variable {stack : Bool} {s t : Table}

lemma allocproc_some_slot {q : ProcId} (h : s.allocproc stack = (some q, t)) :
    s.findSlot (fun pr => pr.state = .unused) = some q ∧ stack := by
  unfold allocproc at h
  split at h
  · cases h
  · rename_i r hr
    cases stack with
    | false => cases h
    | true =>
      obtain rfl := Option.some.inj (Prod.mk.inj h).1
      exact ⟨hr, rfl⟩

variable {p q : ProcId}

lemma threadCreateRet_of_slot {avail : Nat}
    (h : s.allocproc stack = (some q, t)) :
    s.threadCreateRet p stack avail =
      match s.freeBase, (s.proc p).pgdir with
      | some i, some d => (s.growStack p i d avail).ret
      | _, _ => none := by
  obtain ⟨hq, rfl⟩ := allocproc_some_slot h
  unfold threadCreateRet
  rw [hq]

lemma threadCreateRet_of_grown {avail i d : Nat} {g : Grown} (h : s.allocproc stack = (some q, t))
    (hi : s.freeBase = some i) (hd : (s.proc p).pgdir = some d) (hg : s.growStack p i d avail = g) :
    s.threadCreateRet p stack avail = g.ret := by
  rw [threadCreateRet_of_slot h, hi, hd]
  exact congrArg Grown.ret hg

lemma createSafe_of_slot {avail : Nat} (h : s.allocproc stack = (some q, t)) :
    CreateSafe s p stack avail ↔ ∀ i, s.freeBase = some i → ∀ d, (s.proc p).pgdir = some d →
      ∀ pg, s.growStack p i d avail ≠ .failed pg := by
  have hunused : ¬ ∀ q, (s.proc q).Used := fun hall => (allocproc_some h).1 (hall q)
  have hlasts : ∀ d i, Lasts (s.pages d) (stackBase (s.proc p).sz i)
      (stackBase (s.proc p).sz i + 2 * pgSize) avail ↔ ∀ pg, s.growStack p i d avail ≠ .failed pg := by
    intro d i
    rw [← not_exists, growStack, allocuvm_failed_iff, not_not]
  unfold CreateSafe
  rw [or_iff_right hunused, and_iff_right (allocproc_some_slot h).2]
  simp only [Option.mem_def, hlasts]

lemma createSafe_of_grown {avail i d : Nat} {g : Grown}
    (h : s.allocproc stack = (some q, t)) (hi : s.freeBase = some i) (hd : (s.proc p).pgdir = some d)
    (hg : s.growStack p i d avail = g) (hne : ∀ pg, g ≠ .failed pg) : CreateSafe s p stack avail := by
  refine (createSafe_of_slot h).mpr fun j hj e he pg => ?_
  rw [← Option.mem_unique hi hj, ← Option.mem_unique hd he, hg]
  exact hne pg

lemma threadCreate_ret (s : Table) (p : ProcId) (stack : Bool) (avail : Nat) :
    (s.threadCreateRet p stack avail = some (-1) ∧ CreateSafe s p stack avail ∧
        s.findSlot (fun pr => pr.state = .unused) = none ∧ s.threadCreate p stack avail = s) ∨
      (s.threadCreateRet p stack avail = some (-1) ∧ ¬ CreateSafe s p stack avail ∧
        ∃ q, ¬ (s.proc q).Used ∧ ((s.threadCreate p stack avail).proc q).pid = s.nextpid) ∨
      (s.threadCreateRet p stack avail = some (-1) ∧ ¬ CreateSafe s p stack avail ∧
        (s.threadCreate p stack avail).locked) ∨
      (s.threadCreateRet p stack avail ≠ some (-1) ∧ CreateSafe s p stack avail) := by
  have hcases := threadCreate_cases s p stack avail
  generalize s.threadCreate p stack avail = t at hcases ⊢
  cases hcases with
  | noSlot h =>
    cases hq : s.findSlot (fun pr => pr.state = .unused) with
    | none =>
      unfold allocproc at h
      rw [hq] at h
      have hused : ∀ q, (s.proc q).Used := by
        intro q
        have := List.find?_eq_none.mp hq q (List.mem_finRange q)
        simpa [Proc.Used] using this
      refine .inl ⟨?_, .inl hused, rfl, (Prod.mk.inj h).2.symm⟩
      unfold threadCreateRet
      rw [hq]
    | some q =>
      have hunused : ¬ (s.proc q).Used := by
        have : (s.proc q).state = .unused := by simpa using findSlot_some hq
        simp [Proc.Used, this]
      unfold allocproc at h
      rw [hq] at h
      cases stack with
      | true => cases h
      | false =>
        cases h
        refine .inr (.inl ⟨?_, fun hs => ?_, q, hunused, by simp [Table.modify, embryo]⟩)
        · unfold threadCreateRet
          rw [hq]
        · exact hs.elim (fun hall => hunused (hall q)) fun hs => absurd hs.1 (by simp)
  | failed h hi hd hpg =>
    refine .inr (.inr (.inl ⟨?_, fun hs => ?_, rfl⟩))
    · rw [threadCreateRet_of_grown h hi hd hpg, Grown.ret]
    · exact (createSafe_of_slot h).mp hs _ hi _ hd _ hpg
  | done h hi hd hpg | remap h hi hd hpg =>
    refine .inr (.inr (.inr ⟨?_, createSafe_of_grown h hi hd hpg (by simp)⟩))
    rw [threadCreateRet_of_grown h hi hd hpg, Grown.ret]
    simp
  | noBase h hi =>
    refine .inr (.inr (.inr ⟨?_, (createSafe_of_slot h).mpr fun j hj => ?_⟩))
    · rw [threadCreateRet_of_slot h, hi]
      simp
    · exact absurd (hi.symm.trans hj) (by simp)
  | noDir h hd =>
    refine .inr (.inr (.inr ⟨?_, (createSafe_of_slot h).mpr fun _ _ e he => ?_⟩))
    · rw [threadCreateRet_of_slot h, hd]
      cases s.freeBase <;> simp
    · exact absurd (hd.symm.trans he) (by simp)

/-! ### The call and all that it takes -/

/-- The process table and what else `thread_create` works on. Physical pages and inodes are named by
numbers. -/
structure Kern where
  table : Table
  /-- the pages on `kmem.freelist`, and those that are page tables: a page that becomes a page table
  stays one -/
  spare : Finset Nat
  /-- the page at `p->kstack` -/
  kstack : ProcId → Option Nat
  /-- the page behind a present page of a page directory -/
  frame : Nat → Nat → Nat
  /-- the inode at `p->cwd` -/
  cwd : ProcId → Nat
  /-- `ip->ref` -/
  ref : Nat → Nat
  /-- memory words, by the address under which the caller has them -/
  word : Nat → Nat

/-- `thread_create(thread, …)` by `p`, where `kalloc` gives `stack` for the kernel stack and then
`pages`, before it fails: what it returns and what it leaves. -/
def Kern.threadCreate (k : Kern) (p : ProcId) (thread : Nat) (stack : Option Nat)
    (pages : List Nat) : Option Int × Kern :=
  let s := k.table
  let cur := s.proc p
  let t := s.threadCreate p stack.isSome pages.length
  let r := s.threadCreateRet p stack.isSome pages.length
  match s.findSlot (fun pr => pr.state = .unused), stack with
  | none, _ => (r, { k with table := t })
  | some q, none => (r, { k with table := t, kstack := Function.update k.kstack q none })
  | some q, some f =>
    -- `p->kstack`, `*thread = np->lwpid` and `np->cwd = idup(curproc->cwd)`
    let k := { k with
      table := t
      spare := k.spare.erase f
      kstack := Function.update k.kstack q (some f)
      word := Function.update k.word thread s.nextlwpid
      cwd := Function.update k.cwd q (k.cwd p)
      ref := Function.update k.ref (k.cwd p) (k.ref (k.cwd p) + 1) }
    match s.freeBase, cur.pgdir with
    | some i, some d =>
      let sbase := stackBase cur.sz i
      let range := growRange sbase (sbase + 2 * pgSize)
      match allocuvm (s.pages d) sbase (sbase + 2 * pgSize) pages.length with
      | .size _ _ =>
        let got := pages.take range.length
        (r, { k with
          spare := k.spare \ got.toFinset
          frame := Function.update k.frame d fun j =>
            if j ∈ range then got.getD (range.idxOf j) 0 else k.frame d j })
      | .failed pg =>
        -- `deallocuvm` gives back what was mapped, and frees what was there before
        let dropped := range.filter fun j => s.pages d j && !pg j
        (r, { k with spare := k.spare ∪ (dropped.map (k.frame d)).toFinset })
      | .remap => (r, k)
    | _, _ => (r, k)

lemma Kern.threadCreate_table (k : Kern) (p : ProcId) (thread : Nat) (stack : Option Nat)
    (pages : List Nat) : (k.threadCreate p thread stack pages).1 =
        k.table.threadCreateRet p stack.isSome pages.length ∧
      (k.threadCreate p thread stack pages).2.table =
        k.table.threadCreate p stack.isSome pages.length := by
  unfold Kern.threadCreate
  cases hq : k.table.findSlot (fun pr => pr.state = .unused) with
  | none => simp only [hq, and_self]
  | some q =>
    cases stack with
    | none => simp only [hq, and_self]
    | some f =>
      cases hi : k.table.freeBase with
      | none => simp only [hq, hi, and_self]
      | some i =>
        cases hd : (k.table.proc p).pgdir with
        | none => simp only [hq, hi, hd, and_self]
        | some d =>
          cases hpg : allocuvm (k.table.pages d) (stackBase (k.table.proc p).sz i)
              (stackBase (k.table.proc p).sz i + 2 * pgSize) pages.length <;>
            simp only [hq, hi, hd, hpg, and_self]

/-- A `thread_create` by `p` that went from `k` to `t` and returned `-1` has left the lock free, and
everything it works on as it was. -/
structure CreateAtomic (k : Kern) (p : ProcId) (thread : Nat) (t : Kern) : Prop where
  unlocked : t.table.locked = false
  proc : t.table.proc = k.table.proc
  numLwp : t.table.numLwp = k.table.numLwp
  use : t.table.use = k.table.use
  spare : t.spare = k.spare
  ref : t.ref (k.cwd p) = k.ref (k.cwd p)
  word : t.word thread = k.word thread

/-- A table with three spare pages, one inode and blank memory around it. -/
def Kern.around (s : Table) : Kern where
  table := s
  spare := {5, 6, 7}
  kstack _ := none
  frame _ _ := 0
  cwd _ := 0
  ref _ := 1
  word _ := 0

end Xv6.Process
