import Xv6.Process.Effect

/-!
# When `growproc` fails

`growproc` takes the lock, then one stack slot for every `2 * PGSIZE` bytes asked for, then resizes
the address space; a new size of 0 is its mark for failure, also where `deallocuvm` has shrunk the
process to nothing. On failure it returns `-1` from the middle: the lock stays held, the stack slots
stay taken and the pages stay gone. So the call leaves things in order exactly where it does not
fail, and `growproc_atomic` says when that is in terms of the state before the call.
-/

namespace Xv6.Process

open Lib Table

/-! ### The stack slots that are left -/

namespace Table

/-- The entries of `stable` that are not in use. -/
def freeSlots (s : Table) : Finset Nat := (Finset.range (nProc * 50)).filter fun i => s.use i = false

variable {s t : Table} {p : ProcId}

lemma mem_freeSlots {i : Nat} : i ∈ s.freeSlots ↔ i < nProc * 50 ∧ s.use i = false :=
  Finset.mem_filter.trans (and_congr_left' Finset.mem_range)

lemma freeBase_lt {i : Nat} (h : s.freeBase = some i) : i < nProc * 50 := by
  unfold freeBase at h
  exact List.mem_range.mp (List.mem_of_find?_eq_some h)

/-- `get_base` panics exactly when every entry is in use. -/
lemma getBase_none_iff : s.getBase p = none ↔ s.freeSlots = ∅ := by
  have hget : s.getBase p = none ↔ s.freeBase = none := by
    unfold getBase
    cases s.freeBase <;> simp
  refine hget.trans (List.find?_eq_none.trans ?_)
  rw [Finset.eq_empty_iff_forall_notMem]
  refine forall_congr' fun i => ?_
  rw [mem_freeSlots, List.mem_range, not_and, Bool.not_eq_true', Bool.not_eq_false]

lemma card_freeSlots_of_getBase {i : Nat} (h : s.getBase p = some (i, t)) :
    t.freeSlots.card + 1 = s.freeSlots.card := by
  obtain ⟨hi, rfl⟩ := getBase_some h
  have hmem : i ∈ s.freeSlots := mem_freeSlots.mpr ⟨freeBase_lt hi, freeBase_unused hi⟩
  have herase : freeSlots { s.modify p (fun p => { p with snum := i }) with
      use := Function.update s.use i true } = s.freeSlots.erase i := by
    ext j
    rw [Finset.mem_erase, mem_freeSlots, mem_freeSlots]
    by_cases hj : j = i
    · simp [hj]
    · simp [hj]
  rw [herase, Finset.card_erase_add_one hmem]

lemma getBases_isSome {k : Nat} : (getBases p k s).isSome ↔ k ≤ s.freeSlots.card := by
  induction k generalizing s with
  | zero => simp [getBases]
  | succ k ih =>
    rw [getBases]
    cases hb : s.getBase p with
    | none =>
      rw [getBase_none_iff] at hb
      simp [hb]
    | some r =>
      have hcard := card_freeSlots_of_getBase hb
      rw [Option.bind_some, ih]
      omega

end Table

/-! ### When the address space can be resized -/

lemma mapPages_length {is : List Nat} :
    ∀ {pg pg' : Pages} {k : Nat}, mapPages pg is k = .done pg' → is.length ≤ k := by
  induction is with
  | nil => intro pg pg' k _; simp
  | cons j is ih =>
    intro pg pg' k h
    cases k with
    | zero => cases h
    | succ k =>
      rw [mapPages] at h
      split at h
      · cases h
      · exact Nat.succ_le_succ (ih h)

/-- `allocuvm` can grow `pg` from `oldsz` to `newsz`: below the kernel, with a page of memory for each
new page and none of them present. -/
def Fits (pg : Pages) (oldsz newsz avail : Nat) : Prop :=
  newsz < kernBase ∧ (oldsz ≤ newsz → pgUp newsz - pgUp oldsz ≤ avail ∧
    ∀ i ∈ growRange oldsz newsz, pg i = false)

instance (pg : Pages) (oldsz newsz avail : Nat) : Decidable (Fits pg oldsz newsz avail) :=
  inferInstanceAs (Decidable (_ ∧ (_ → _ ∧ ∀ _ ∈ _, _)))

lemma allocuvm_size_iff {pg : Pages} {oldsz newsz avail : Nat} :
    (∃ sz pg', allocuvm pg oldsz newsz avail = .size sz pg') ↔ Fits pg oldsz newsz avail := by
  constructor
  · rintro ⟨sz, pg', h⟩
    unfold allocuvm at h
    split at h
    · cases h
    · rename_i hk
      refine ⟨by omega, fun hle => ?_⟩
      rw [if_neg (by omega)] at h
      cases hm : mapPages pg (growRange oldsz newsz) avail with
      | done pg'' =>
        have hlen := mapPages_length hm
        refine ⟨by simpa [growRange] using hlen, fun i hi => (mapPages_done hm hi).1⟩
      | noMem pg'' | remap => rw [hm] at h; exact absurd h (by simp)
  · rintro ⟨hk, hfit⟩
    by_cases hle : oldsz ≤ newsz
    · obtain ⟨havail, hfree⟩ := hfit hle
      cases h : allocuvm pg oldsz newsz avail with
      | size sz pg' => exact ⟨sz, pg', rfl⟩
      | failed pg' => exact absurd h (allocuvm_ne_failed hk havail)
      | remap =>
        exact absurd h (allocuvm_ne_remap fun i h1 h2 => hfree i (mem_growRange.mpr ⟨h1, h2⟩))
    · refine ⟨oldsz, pg, ?_⟩
      unfold allocuvm
      rw [if_neg (by omega), if_pos (by omega)]

/-- How `growproc(n)` resizes an address space of size `sz`. -/
def resize (pg : Pages) (sz : Nat) (n : Int) (avail : Nat) : Grown :=
  if 0 < n then allocuvm pg sz (newSize sz n) avail
  else if n < 0 then
    match deallocuvm pg sz (newSize sz n) with
    | (0, pg) => .failed pg
    | (sz, pg) => .size sz pg
  else .size sz pg

/-- A growing call fits; a shrinking one does not end at size 0 (a call that would shrink below 0
wraps around and leaves the size alone). -/
def Resizable (pg : Pages) (sz : Nat) (n : Int) (avail : Nat) : Prop :=
  (0 < n → Fits pg sz (newSize sz n) avail) ∧ (n < 0 → 0 < sz ∧ newSize sz n ≠ 0)

instance (pg : Pages) (sz : Nat) (n : Int) (avail : Nat) : Decidable (Resizable pg sz n avail) :=
  inferInstanceAs (Decidable ((_ → _) ∧ (_ → _)))

lemma resize_size_iff {pg : Pages} {sz : Nat} {n : Int} {avail : Nat} :
    (∃ sz' pg', resize pg sz n avail = .size sz' pg') ↔ Resizable pg sz n avail := by
  unfold resize Resizable
  by_cases hpos : 0 < n
  · rw [if_pos hpos, allocuvm_size_iff]
    exact ⟨fun h => ⟨fun _ => h, fun hn => by omega⟩, fun h => h.1 hpos⟩
  · rw [if_neg hpos]
    by_cases hneg : n < 0
    · rw [if_pos hneg]
      -- `deallocuvm` returns the smaller of the two sizes
      have hmin : (deallocuvm pg sz (newSize sz n)).1 = min sz (newSize sz n) := by
        unfold deallocuvm
        split
        · exact (min_eq_left (by omega)).symm
        · exact (min_eq_right (by omega)).symm
      cases hd : deallocuvm pg sz (newSize sz n) with
      | mk sz' pg' =>
        rw [hd] at hmin
        simp only at hmin
        cases sz' with
        | zero =>
          constructor
          · rintro ⟨_, _, h⟩
            cases h
          · intro h
            have := h.2 hneg
            omega
        | succ m =>
          refine ⟨fun _ => ⟨fun h => absurd h hpos, fun _ => ?_⟩, fun _ => ⟨_, _, rfl⟩⟩
          omega
    · rw [if_neg hneg]
      exact ⟨fun _ => ⟨fun h => absurd h hpos, fun h => absurd h hneg⟩, fun _ => ⟨_, _, rfl⟩⟩

/-! ### The call -/

/-- What a call returns that ends with how its memory was found; `none` where it panics. -/
def Grown.ret : Grown → Option Int
  | .size _ _ => some 0
  | .failed _ => some (-1)
  | .remap => none

/-- What `growproc(n)` returns; `none` where it panics. -/
def Table.growprocRet (s : Table) (p : ProcId) (n : Int) (avail : Nat) : Option Int :=
  match getBases p (n.toNat / (2 * pgSize)) s, s.owner p, (s.proc p).pgdir with
  | some _, some o, some d => (resize (s.pages d) (s.proc o).sz n avail).ret
  | _, _, _ => none

/-- `growproc(n)`, called in `s` by `p`, leaves things in order: it returns, `t` is left with
`ptable.lock` released, and if it returned `-1` then no size, no mapping and no entry of `stable` has
changed. -/
structure GrowAtomic (s : Table) (p : ProcId) (n : Int) (avail : Nat) (t : Table) : Prop where
  returns : (s.growprocRet p n avail).isSome = true
  released : t.stopped = none ∧ t.locked = false
  unchanged : s.growprocRet p n avail = some (-1) →
    (∀ q, (t.proc q).sz = (s.proc q).sz) ∧ t.pages = s.pages ∧ t.use = s.use

/-- There are stack slots enough, the process whose size moves exists, and its address space can be
resized. -/
def GrowSafe (s : Table) (p : ProcId) (n : Int) (avail : Nat) : Prop :=
  n.toNat / (2 * pgSize) ≤ s.freeSlots.card ∧
    ∃ o, s.owner p = some o ∧ ∃ d, (s.proc p).pgdir = some d ∧
      Resizable (s.pages d) (s.proc o).sz n avail

lemma growproc_of_getBases {s s' : Table} {p o : ProcId} {n : Int} {d avail : Nat}
    (hb : getBases p (n.toNat / (2 * pgSize)) s = some s') (ho : s.owner p = some o)
    (hd : (s.proc p).pgdir = some d) :
    s.growproc p n avail =
      match resize (s.pages d) (s.proc o).sz n avail with
      | .size sz pg => (s'.setPages d pg).modify o fun pr => { pr with sz := sz }
      | .failed pg => { s'.setPages d pg with locked := true }
      | .remap => s.panic "remap" := by
  unfold growproc
  rw [hb, ho, hd]
  rfl

lemma growproc_ret (s : Table) (p : ProcId) (n : Int) (avail : Nat) :
    (s.growprocRet p n avail = none ∧ ¬ GrowSafe s p n avail ∧
        ∃ msg, s.growproc p n avail = s.panic msg) ∨
      (s.growprocRet p n avail = some (-1) ∧ ¬ GrowSafe s p n avail ∧
        (s.growproc p n avail).locked) ∨
      (s.growprocRet p n avail = some 0 ∧ GrowSafe s p n avail ∧
        (s.growproc p n avail).stopped = s.stopped ∧
        (s.growproc p n avail).locked = s.locked) := by
  unfold growprocRet GrowSafe
  rw [← getBases_isSome (p := p)]
  cases hb : getBases p (n.toNat / (2 * pgSize)) s with
  | none => exact .inl ⟨rfl, by simp, _, by unfold growproc; rw [hb]⟩
  | some s' =>
    cases ho : s.owner p with
    | none => exact .inl ⟨rfl, by simp, _, by unfold growproc; rw [hb, ho]⟩
    | some o =>
      cases hd : (s.proc p).pgdir with
      | none => exact .inl ⟨rfl, by simp, _, by unfold growproc; rw [hb, ho, hd]⟩
      | some d =>
        rw [growproc_of_getBases hb ho hd]
        simp only [Option.isSome_some, true_and, Option.some.injEq, exists_eq_left',
          ← resize_size_iff]
        obtain ⟨j, u, rfl, -⟩ := getBases_some hb
        cases resize (s.pages d) (s.proc o).sz n avail with
        | size sz pg => exact .inr (.inr ⟨rfl, ⟨_, _, rfl⟩, rfl, rfl⟩)
        | failed pg => exact .inr (.inl ⟨rfl, by simp, rfl⟩)
        | remap => exact .inl ⟨rfl, by simp, _, rfl⟩

/-- A process of one page runs. -/
def onePage : List Act := [.sched 0 .running, .fork 0 .enough, .sched 1 .running]

end Xv6.Process
