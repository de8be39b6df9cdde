import Xv6.Param

/-!
# User address spaces (`vm.c`)

The user half of a page directory is the set of the virtual pages whose PTE is present: page `i` is
the addresses `[i * PGSIZE, (i + 1) * PGSIZE)`. What is mapped there, and the page-table pages, are
left out: no decision of the process code reads them.

`kalloc` can fail at any call; how many pages it still has to give is an argument of the functions
that allocate.
-/

namespace Xv6.Process

/-- The present pages of a page directory. -/
abbrev Pages := Nat → Bool

/-- `PGROUNDUP(sz) / PGSIZE`: the number of pages that `[0, sz)` touches. -/
def pgUp (sz : Nat) : Nat := (sz + pgSize - 1) / pgSize

/-- The pages that `allocuvm` walks from `PGROUNDUP(oldsz)` while `a < newsz`. -/
def growRange (oldsz newsz : Nat) : List Nat :=
  List.range' (pgUp oldsz) (pgUp newsz - pgUp oldsz)

/-- Add one present page. -/
def Pages.add (pg : Pages) (i : Nat) : Pages := fun j => if j = i then true else pg j

/-- How the loop of `allocuvm` ends. -/
inductive Mapped
  | done (pg : Pages)
  | noMem (pg : Pages)
  | remap

/-- The loop of `allocuvm`: one `kalloc` and one `mappages` a page. `mappages` panics on a page that
is already present. -/
def mapPages (pg : Pages) : List Nat → (avail : Nat) → Mapped
  | [], _ => .done pg
  | _ :: _, 0 => .noMem pg
  | i :: is, k + 1 => if pg i then .remap else mapPages (pg.add i) is k

/-- `deallocuvm`: the size it returns and the pages it leaves. -/
def deallocuvm (pg : Pages) (oldsz newsz : Nat) : Nat × Pages :=
  if oldsz ≤ newsz then (oldsz, pg)
  else (newsz, fun i => pg i && !decide (pgUp newsz ≤ i ∧ i < pgUp oldsz))

/-- How `allocuvm` ends: with the new size, with `0`, or in the `remap` panic. -/
inductive Grown
  | size (sz : Nat) (pg : Pages)
  | failed (pg : Pages)
  | remap

/-- `allocuvm`. -/
def allocuvm (pg : Pages) (oldsz newsz avail : Nat) : Grown :=
  if kernBase ≤ newsz then .failed pg
  else if newsz < oldsz then .size oldsz pg
  else
    match mapPages pg (growRange oldsz newsz) avail with
    | .done pg => .size newsz pg
    | .noMem pg => .failed (deallocuvm pg newsz oldsz).2
    | .remap => .remap

/-- `copyuvm(pgdir, sz)`: a page that is not present is skipped. The source panics where the page table is
missing too; `Xv6.Vm.Fork` has the tables. -/
def copyuvm (pg : Pages) (sz : Nat) : Pages := fun i => decide (i < pgUp sz) && pg i

/-! ### What the functions do to the present pages -/

variable {i newsz oldsz : Nat}

lemma mem_growRange : i ∈ growRange oldsz newsz ↔ pgUp oldsz ≤ i ∧ i < pgUp newsz := by
  rw [growRange, List.mem_range'_1]
  omega

lemma pgUp_mono {a b : Nat} (h : a ≤ b) : pgUp a ≤ pgUp b :=
  Nat.div_le_div_right (by omega)

lemma pgUp_add_pages (a k : Nat) : pgUp (a + k * pgSize) = pgUp a + k := by
  have h : a + k * pgSize + pgSize - 1 = a + pgSize - 1 + k * pgSize := by
    have : 0 < pgSize := by decide
    omega
  rw [pgUp, h, Nat.add_mul_div_right _ _ (by decide)]
  rfl

lemma deallocuvm_sub {pg : Pages} (h : (deallocuvm pg oldsz newsz).2 i) : pg i := by
  unfold deallocuvm at h
  split at h
  · exact h
  · simp only [Bool.and_eq_true] at h
    exact h.1

lemma deallocuvm_range {pg : Pages}
    (h : (deallocuvm pg oldsz newsz).2 i) (hlt : i < pgUp oldsz) : i < pgUp newsz := by
  unfold deallocuvm at h
  split at h
  · rename_i hle
    exact hlt.trans_le (pgUp_mono hle)
  · simp only [Bool.and_eq_true, Bool.not_eq_true', decide_eq_false_iff_not] at h
    omega

variable {is : List Nat}

/-- The loop of `allocuvm` removes no page and adds pages of its range only. -/
lemma mapPages_pages :
    ∀ {pg pg' : Pages} {k : Nat}, mapPages pg is k = .done pg' ∨ mapPages pg is k = .noMem pg' →
      (pg i → pg' i) ∧ (pg' i → pg i ∨ i ∈ is) := by
  induction is with
  | nil =>
    intro pg pg' k h
    simp only [mapPages, Mapped.done.injEq, reduceCtorEq, or_false] at h
    exact ⟨fun hi => h ▸ hi, fun hi => .inl (h ▸ hi)⟩
  | cons j is ih =>
    intro pg pg' k h
    cases k with
    | zero =>
      simp only [mapPages, reduceCtorEq, Mapped.noMem.injEq, false_or] at h
      exact ⟨fun hi => h ▸ hi, fun hi => .inl (h ▸ hi)⟩
    | succ k =>
      rw [mapPages] at h
      split at h
      · exact absurd h (by simp)
      obtain ⟨hkeep, hsub⟩ := ih h
      unfold Pages.add at hkeep hsub
      refine ⟨fun hi => hkeep ?_, fun hi => ?_⟩
      · split
        · rfl
        · exact hi
      · rcases hsub hi with hp | hm
        · split at hp
          · rename_i hij
            exact .inr (hij ▸ (.head _))
          · exact .inl hp
        · exact .inr (.tail _ hm)

lemma mapPages_ne_remap :
    ∀ {pg : Pages} {k : Nat}, is.Nodup → (∀ i ∈ is, pg i = false) → mapPages pg is k ≠ .remap := by
  induction is with
  | nil => intro pg k _ _; simp [mapPages]
  | cons j is ih =>
    intro pg k hnd hfree
    cases k with
    | zero => simp [mapPages]
    | succ k =>
      rw [mapPages, if_neg (by simp [hfree j List.mem_cons_self])]
      obtain ⟨hj, hnd⟩ := List.nodup_cons.mp hnd
      refine ih hnd fun i hi => ?_
      have hne : i ≠ j := fun h => hj (h ▸ hi)
      rw [Pages.add, if_neg hne]
      exact hfree i (.tail _ hi)

variable {pg pg' : Pages}

variable {avail sz : Nat}

lemma allocuvm_size_sub (h : allocuvm pg oldsz newsz avail = .size sz pg') (hi : pg' i) :
    pg i ∨ (pgUp oldsz ≤ i ∧ i < pgUp newsz) := by
  unfold allocuvm at h
  split at h
  · cases h
  split at h
  · cases h
    exact .inl hi
  split at h
  · rename_i hm
    cases h
    exact ((mapPages_pages (.inl hm)).2 hi).imp_right mem_growRange.mp
  · cases h
  · cases h

lemma allocuvm_failed_sub (h : allocuvm pg oldsz newsz avail = .failed pg') (hi : pg' i) : pg i := by
  unfold allocuvm at h
  split at h
  · exact Grown.failed.inj h ▸ hi
  split at h
  · cases h
  split at h
  · cases h
  · rename_i hm
    cases h
    -- what the loop had added before memory ran out lies in the range that is now unmapped
    rcases (mapPages_pages (.inr hm)).2 (deallocuvm_sub hi) with hp | hm
    · exact hp
    · obtain ⟨hlo, hhi⟩ := mem_growRange.mp hm
      exact absurd (deallocuvm_range hi hhi) (by omega)
  · cases h

lemma allocuvm_size (hle : oldsz ≤ newsz)
    (h : allocuvm pg oldsz newsz avail = .size sz pg') : sz = newsz ∧ newsz < kernBase := by
  unfold allocuvm at h
  split at h
  · cases h
  · rename_i hk
    rw [if_neg (by omega)] at h
    split at h
    · exact ⟨(Grown.size.inj h).1.symm, by omega⟩
    · cases h
    · cases h

lemma mapPages_ne_noMem : ∀ {pg pg' : Pages} {k : Nat}, is.length ≤ k → mapPages pg is k ≠ .noMem pg' := by
  induction is with
  | nil => intro pg pg' k _; simp [mapPages]
  | cons j is ih =>
    intro pg pg' k hk
    cases k with
    | zero => cases hk
    | succ k =>
      rw [mapPages]
      split
      · simp
      · exact ih (by simpa using hk)

lemma allocuvm_ne_failed (hk : newsz < kernBase)
    (ha : pgUp newsz - pgUp oldsz ≤ avail) : allocuvm pg oldsz newsz avail ≠ .failed pg' := by
  have hmap : ∀ pg', mapPages pg (growRange oldsz newsz) avail ≠ .noMem pg' :=
    fun pg' => mapPages_ne_noMem (by simpa [growRange] using ha)
  unfold allocuvm
  rw [if_neg (by omega)]
  split
  · simp
  split
  · simp
  · rename_i h
    exact absurd h (hmap _)
  · simp

lemma allocuvm_ne_remap {pg : Pages} (hfree : ∀ i, pgUp oldsz ≤ i → i < pgUp newsz → pg i = false) :
    allocuvm pg oldsz newsz avail ≠ .remap := by
  have hmap : mapPages pg (growRange oldsz newsz) avail ≠ .remap :=
    mapPages_ne_remap List.nodup_range' fun i hi =>
      hfree i (mem_growRange.mp hi).1 (mem_growRange.mp hi).2
  unfold allocuvm
  split
  · simp
  split
  · simp
  split
  · simp
  · simp
  · rename_i h
    exact absurd h hmap

lemma mapPages_done :
    ∀ {pg pg' : Pages} {k : Nat}, mapPages pg is k = .done pg' → i ∈ is →
      pg i = false ∧ pg' i := by
  induction is with
  | nil => intro pg pg' k _ hi; exact absurd hi (by simp)
  | cons j is ih =>
    intro pg pg' k h hi
    cases k with
    | zero => cases h
    | succ k =>
      rw [mapPages] at h
      split at h
      · cases h
      · rename_i hj
        rcases List.mem_cons.mp hi with rfl | hi
        · exact ⟨by simpa using hj, (mapPages_pages (.inl h)).1 (by simp [Pages.add])⟩
        · obtain ⟨hadd, hpg⟩ := ih h hi
          refine ⟨?_, hpg⟩
          unfold Pages.add at hadd
          split at hadd
          · cases hadd
          · exact hadd

lemma allocuvm_size_keeps (h : allocuvm pg oldsz newsz avail = .size sz pg') (hi : pg i) : pg' i := by
  unfold allocuvm at h
  split at h
  · cases h
  split at h
  · cases h
    exact hi
  split at h
  · rename_i hm
    cases h
    exact (mapPages_pages (.inl hm)).1 hi
  · cases h
  · cases h

lemma allocuvm_size_range (hle : oldsz ≤ newsz)
    (h : allocuvm pg oldsz newsz avail = .size sz pg') (hlo : pgUp oldsz ≤ i)
    (hhi : i < pgUp newsz) : pg i = false ∧ pg' i := by
  unfold allocuvm at h
  split at h
  · cases h
  rw [if_neg (by omega)] at h
  split at h
  · rename_i hm
    cases h
    exact mapPages_done hm (mem_growRange.mpr ⟨hlo, hhi⟩)
  · cases h
  · cases h

lemma deallocuvm_keeps {pg : Pages} (hi : pg i)
    (hout : i < pgUp newsz ∨ pgUp oldsz ≤ i) : (deallocuvm pg oldsz newsz).2 i := by
  unfold deallocuvm
  split
  · exact hi
  · simp only [Bool.and_eq_true, Bool.not_eq_true', decide_eq_false_iff_not]
    exact ⟨hi, by omega⟩

lemma allocuvm_failed_keeps
    (h : allocuvm pg oldsz newsz avail = .failed pg') (hi : pg i) (hlt : i < pgUp oldsz) : pg' i := by
  unfold allocuvm at h
  split at h
  · exact Grown.failed.inj h ▸ hi
  split at h
  · cases h
  split at h
  · cases h
  · rename_i hm
    cases h
    exact deallocuvm_keeps ((mapPages_pages (.inr hm)).1 hi) (.inl hlt)
  · cases h

end Xv6.Process
