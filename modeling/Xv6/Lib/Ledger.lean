import Mathlib

/-!
# A counted population

Places `ι` are taken by members, numbered in the order in which they come. A member is charged once
to a common counter when it comes and is to be discharged once, either when it *leaves* (it then
keeps its place until it is *dropped*) or when it is *purged* from its place without having left.
`inc` and `dec` say how often each number was charged and discharged.

* `Ledger.Ok` — every discharge has its charge, and the counter is the sum of what is outstanding;
* `Ok.skip`, `Ok.enter`, `Ok.leave`, `Ok.drop`, `Ok.purge` — the five moves keep it;
* `Ok.count_nonneg`, `Ok.count_eq_zero` — what the counter then says about the members.
-/

namespace Lib

open Function (update_self update_of_ne)

/-- Two sums that differ at one place. -/
lemma sum_add_of_ne {ι M : Type*} [Fintype ι] [DecidableEq ι] [AddCommMonoid M] {f g : ι → M}
    {p : ι} (h : ∀ q ≠ p, g q = f q) : ∑ q, g q + f p = ∑ q, f q + g p := by
  rw [← Finset.add_sum_erase _ g (Finset.mem_univ p), ← Finset.add_sum_erase _ f (Finset.mem_univ p),
    Finset.sum_congr rfl fun q hq => h q (Finset.ne_of_mem_erase hq)]
  abel

/-- A member is its number and whether it has left. -/
structure Ledger (ι : Type*) where
  member : ι → Option (Nat × Bool)
  next : Nat
  count : Int
  inc : Nat → Nat
  dec : Nat → Nat

namespace Ledger

/-- The number of the member at `q`. -/
def num {ι : Type*} (L : Ledger ι) (q : ι) : Nat := ((L.member q).map Prod.fst).getD 0

lemma num_eq {ι : Type*} {L : Ledger ι} {q : ι} {l : Nat} {e : Bool}
    (hq : L.member q = some (l, e)) : L.num q = l := by
  simp [num, hq]

section

variable {ι : Type*} [DecidableEq ι] (L : Ledger ι)

/-- Numbers are used up without a member. -/
def skip (n : Nat) : Ledger ι := { L with next := n }

/-- A member takes the place `q`. -/
def enter (q : ι) : Ledger ι where
  member := Function.update L.member q (some (L.next, false))
  next := L.next + 1
  count := L.count + 1
  inc := Function.update L.inc L.next (L.inc L.next + 1)
  dec := L.dec

/-- Member `l`, at `q`, leaves. -/
def leave (q : ι) (l : Nat) : Ledger ι :=
  { L with
    member := Function.update L.member q (some (l, true)), count := L.count - 1
    dec := Function.update L.dec l (L.dec l + 1) }

/-- The place `q` is given up. -/
def drop (q : ι) : Ledger ι := { L with member := Function.update L.member q none }

/-- The members at `S` are discharged and their places given up. -/
def purge (S : Finset ι) : Ledger ι :=
  { L with
    member := fun q => if q ∈ S then none else L.member q
    count := L.count - S.card
    dec := fun l => L.dec l + (S.filter fun q => L.num q = l).card }

end

variable {ι : Type*} (L : Ledger ι)

/-- The balance of number `l`. -/
def owed (l : Nat) : Int := (L.inc l : Int) - L.dec l

structure Ok : Prop where
  member : ∀ {q l e}, L.member q = some (l, e) →
    l < L.next ∧ L.inc l = 1 ∧ L.dec l = if e then 1 else 0
  inj : ∀ {q r l e e'}, L.member q = some (l, e) → L.member r = some (l, e') → q = r
  /-- a number without a member is settled -/
  settled : ∀ {l}, (∀ q e, L.member q ≠ some (l, e)) → L.dec l = L.inc l
  inc_le : ∀ l, L.inc l ≤ 1
  fresh : ∀ l, L.next ≤ l → L.inc l = 0
  count : L.count = ∑ l ∈ Finset.range L.next, L.owed l

namespace Ok

variable {L} (h : L.Ok)

include h

lemma unborn {l : Nat} (hl : L.next ≤ l) (q : ι) (e : Bool) : L.member q ≠ some (l, e) :=
  fun hq => absurd (h.member hq).1 (by omega)

lemma dec_fresh {l : Nat} (hl : L.next ≤ l) : L.dec l = 0 := by
  rw [h.settled (h.unborn hl), h.fresh l hl]

lemma dec_le (l : Nat) : L.dec l ≤ L.inc l := by
  by_cases hm : ∀ q e, L.member q ≠ some (l, e)
  · exact (h.settled hm).le
  · push Not at hm
    obtain ⟨q, e, hq⟩ := hm
    obtain ⟨-, hi, hd⟩ := h.member hq
    rw [hi, hd]
    split <;> omega

lemma owed_nonneg (l : Nat) : 0 ≤ L.owed l := by
  have := h.dec_le l
  unfold owed
  omega

lemma count_nonneg : 0 ≤ L.count := by
  rw [h.count]
  exact Finset.sum_nonneg fun l _ => h.owed_nonneg l

/-- The counter is zero exactly if every member has left. -/
lemma count_eq_zero : L.count = 0 ↔ ∀ q l, L.member q ≠ some (l, false) := by
  rw [h.count, Finset.sum_eq_zero_iff_of_nonneg fun l _ => h.owed_nonneg l]
  constructor
  · intro hz q l hq
    obtain ⟨hlt, hi, hd⟩ := h.member hq
    have := hz l (Finset.mem_range.mpr hlt)
    simp [owed, hi, hd] at this
  · intro hall l _
    by_cases hm : ∀ q e, L.member q ≠ some (l, e)
    · simp [owed, h.settled hm]
    · push Not at hm
      obtain ⟨q, e, hq⟩ := hm
      cases e with
      | false => exact absurd hq (hall q l)
      | true => simp [owed, (h.member hq).2.1, (h.member hq).2.2]

lemma skip {n : Nat} (hn : L.next ≤ n) : (L.skip n).Ok where
  member hq := ⟨Nat.lt_of_lt_of_le (h.member hq).1 hn, (h.member hq).2⟩
  inj := h.inj
  settled := h.settled
  inc_le := h.inc_le
  fresh l hl := h.fresh l (le_trans hn hl)
  count := by
    show L.count = ∑ l ∈ Finset.range n, L.owed l
    rw [h.count]
    refine Finset.sum_subset (Finset.range_mono hn) fun l _ hl => ?_
    have hl : L.next ≤ l := by simpa using hl
    simp [owed, h.fresh l hl, h.dec_fresh hl]

variable [DecidableEq ι]

lemma enter {q : ι} (hq : L.member q = none) : (L.enter q).Ok where
  member {r l e} hr := by
    by_cases hrq : r = q
    · simp only [Ledger.enter, hrq, update_self, Option.some.injEq, Prod.mk.injEq] at hr ⊢
      obtain ⟨rfl, rfl⟩ := hr
      simp [h.fresh L.next le_rfl, h.dec_fresh le_rfl]
    · simp only [Ledger.enter, update_of_ne hrq] at hr ⊢
      obtain ⟨hlt, hi, hd⟩ := h.member hr
      exact ⟨Nat.lt_succ_of_lt hlt, by rwa [update_of_ne hlt.ne], hd⟩
  inj {r r' l e e'} hr hr' := by
    simp only [Ledger.enter] at hr hr'
    by_cases hrq : r = q <;> by_cases hrq' : r' = q
    · rw [hrq, hrq']
    · rw [hrq, update_self] at hr
      rw [update_of_ne hrq'] at hr'
      obtain ⟨rfl, -⟩ := Prod.mk.inj (Option.some.inj hr)
      exact absurd hr' (h.unborn le_rfl _ _)
    · rw [hrq', update_self] at hr'
      rw [update_of_ne hrq] at hr
      obtain ⟨rfl, -⟩ := Prod.mk.inj (Option.some.inj hr')
      exact absurd hr (h.unborn le_rfl _ _)
    · rw [update_of_ne hrq] at hr
      rw [update_of_ne hrq'] at hr'
      exact h.inj hr hr'
  settled {l} hl := by
    have hne : l ≠ L.next := fun he => hl q false (by simp [Ledger.enter, he])
    simp only [Ledger.enter, update_of_ne hne]
    refine h.settled fun r e hr => hl r e ?_
    have hrq : r ≠ q := fun he => by simp [he, hq] at hr
    simpa [Ledger.enter, update_of_ne hrq] using hr
  inc_le l := by
    by_cases hl : l = L.next
    · simp [Ledger.enter, hl, h.fresh L.next le_rfl]
    · simpa [Ledger.enter, update_of_ne hl] using h.inc_le l
  fresh l hl := by
    have hlt : L.next < l := hl
    simp only [Ledger.enter, update_of_ne hlt.ne']
    exact h.fresh l hlt.le
  count := by
    have hsame : ∀ l ∈ Finset.range L.next, (L.enter q).owed l = L.owed l := by
      intro l hl
      simp [owed, Ledger.enter, update_of_ne (Finset.mem_range.mp hl).ne]
    show L.count + 1 = ∑ l ∈ Finset.range (L.next + 1), (L.enter q).owed l
    have hnew : (L.enter q).owed L.next = 1 := by
      simp [owed, Ledger.enter, h.fresh L.next le_rfl, h.dec_fresh le_rfl]
    rw [Finset.sum_range_succ, Finset.sum_congr rfl hsame, h.count, hnew]

lemma leave {q : ι} {l : Nat} (hq : L.member q = some (l, false)) : (L.leave q l).Ok := by
  obtain ⟨hlt, hi, hd⟩ := h.member hq
  -- another member has another number
  have hne : ∀ {r l' e}, r ≠ q → L.member r = some (l', e) → l' ≠ l := by
    rintro r l' e hr hr' rfl
    exact hr (h.inj hr' hq)
  refine ⟨?_, ?_, ?_, h.inc_le, h.fresh, ?_⟩
  · intro r l' e hr
    by_cases hrq : r = q
    · simp only [Ledger.leave, hrq, update_self, Option.some.injEq, Prod.mk.injEq] at hr ⊢
      obtain ⟨rfl, rfl⟩ := hr
      simp [hlt, hi, hd]
    · simp only [Ledger.leave, update_of_ne hrq] at hr ⊢
      rw [update_of_ne (hne hrq hr)]
      exact h.member hr
  · intro r r' l' e e' hr hr'
    simp only [Ledger.leave] at hr hr'
    by_cases hrq : r = q <;> by_cases hrq' : r' = q
    · rw [hrq, hrq']
    · rw [hrq, update_self] at hr
      rw [update_of_ne hrq'] at hr'
      exact absurd (Prod.mk.inj (Option.some.inj hr)).1.symm (hne hrq' hr')
    · rw [hrq', update_self] at hr'
      rw [update_of_ne hrq] at hr
      exact absurd (Prod.mk.inj (Option.some.inj hr')).1.symm (hne hrq hr)
    · rw [update_of_ne hrq] at hr
      rw [update_of_ne hrq'] at hr'
      exact h.inj hr hr'
  · intro l' hl
    have hl' : l' ≠ l := fun he => hl q true (by simp [Ledger.leave, he])
    simp only [Ledger.leave, update_of_ne hl']
    refine h.settled fun r e hr => ?_
    by_cases hrq : r = q
    · rw [hrq, hq] at hr
      exact hl' (Prod.mk.inj (Option.some.inj hr)).1.symm
    · exact hl r e (by simpa [Ledger.leave, update_of_ne hrq] using hr)
  · have howed : ∀ l', (L.leave q l).owed l' = L.owed l' - if l' = l then 1 else 0 := by
      intro l'
      by_cases hl : l' = l
      · simp only [owed, Ledger.leave, hl, update_self, if_true]
        push_cast
        ring
      · simp [owed, Ledger.leave, hl]
    show L.count - 1 = ∑ l' ∈ Finset.range L.next, (L.leave q l).owed l'
    rw [Finset.sum_congr rfl fun l' _ => howed l', Finset.sum_sub_distrib, ← h.count,
      Finset.sum_ite_eq' _ l, if_pos (Finset.mem_range.mpr hlt)]

lemma drop {q : ι} {l : Nat} (hq : L.member q = some (l, true)) : (L.drop q).Ok := by
  have hof : ∀ {r l' e}, (L.drop q).member r = some (l', e) → r ≠ q ∧ L.member r = some (l', e) := by
    intro r l' e hr
    have hrq : r ≠ q := fun he => by simp [Ledger.drop, he] at hr
    exact ⟨hrq, by simpa [Ledger.drop, update_of_ne hrq] using hr⟩
  refine ⟨fun hr => h.member (hof hr).2, fun hr hr' => h.inj (hof hr).2 (hof hr').2, ?_, h.inc_le,
    h.fresh, h.count⟩
  intro l' hl
  by_cases hl' : l' = l
  · obtain ⟨-, hi, hd⟩ := h.member hq
    rw [hl']
    exact hd.trans hi.symm
  · refine h.settled fun r e hr => hl r e ?_
    have hrq : r ≠ q := fun he => by
      rw [he, hq] at hr
      exact hl' (Prod.mk.inj (Option.some.inj hr)).1.symm
    simpa [Ledger.drop, update_of_ne hrq] using hr

lemma purge {S : Finset ι} (hS : ∀ q ∈ S, ∃ l, L.member q = some (l, false)) : (L.purge S).Ok := by
  have hof : ∀ {r l e}, (L.purge S).member r = some (l, e) → r ∉ S ∧ L.member r = some (l, e) := by
    intro r l e hr
    by_cases hrS : r ∈ S
    · simp [Ledger.purge, hrS] at hr
    · exact ⟨hrS, by simpa [Ledger.purge, hrS] using hr⟩
  -- a number is discharged as often as it has a member in `S`
  have hnone : ∀ l, (∀ q ∈ S, L.num q ≠ l) → (L.purge S).dec l = L.dec l := by
    intro l hl
    have : (S.filter fun q => L.num q = l) = ∅ := Finset.filter_eq_empty_iff.mpr hl
    simp [Ledger.purge, this]
  have hone : ∀ q ∈ S, ∀ l, L.member q = some (l, false) → (L.purge S).dec l = L.dec l + 1 := by
    intro q hqS l hq
    have : (S.filter fun r => L.num r = l) = {q} := by
      ext r
      simp only [Finset.mem_filter, Finset.mem_singleton]
      constructor
      · rintro ⟨hrS, hr⟩
        obtain ⟨l', hl'⟩ := hS r hrS
        rw [num_eq hl'] at hr
        exact h.inj (hr ▸ hl') hq
      · rintro rfl
        exact ⟨hqS, num_eq hq⟩
    simp [Ledger.purge, this]
  refine ⟨?_, fun hr hr' => h.inj (hof hr).2 (hof hr').2, ?_, h.inc_le, h.fresh, ?_⟩
  · intro r l e hr
    obtain ⟨hrS, hr⟩ := hof hr
    obtain ⟨hlt, hi, hd⟩ := h.member hr
    refine ⟨hlt, hi, ?_⟩
    rw [hnone l fun q hqS hq => ?_, hd]
    obtain ⟨l', hl'⟩ := hS q hqS
    rw [num_eq hl'] at hq
    exact hrS (h.inj hr (hq ▸ hl') ▸ hqS)
  · intro l hl
    by_cases hm : ∃ q ∈ S, L.num q = l
    · obtain ⟨q, hqS, hq⟩ := hm
      obtain ⟨l', hl'⟩ := hS q hqS
      obtain rfl : l' = l := (num_eq hl').symm.trans hq
      obtain ⟨-, hi, hd⟩ := h.member hl'
      rw [hone q hqS l' hl', hd]
      exact hi.symm
    · push Not at hm
      rw [hnone l hm]
      refine h.settled fun r e hr => ?_
      by_cases hrS : r ∈ S
      · exact hm r hrS (num_eq hr)
      · exact hl r e (by simpa [Ledger.purge, hrS] using hr)
  · have hcard : (S.card : Int) =
        ∑ l ∈ Finset.range L.next, ((S.filter fun q => L.num q = l).card : Int) := by
      rw [Finset.card_eq_sum_card_fiberwise (f := L.num) (t := Finset.range L.next) fun q hq => ?_]
      · exact Nat.cast_sum _ _
      · obtain ⟨l, hl⟩ := hS q hq
        rw [num_eq hl]
        simpa using (h.member hl).1
    show L.count - S.card = ∑ l ∈ Finset.range L.next, (L.purge S).owed l
    rw [h.count, hcard, ← Finset.sum_sub_distrib]
    refine Finset.sum_congr rfl fun l _ => ?_
    simp only [owed, Ledger.purge]
    push_cast
    ring

end Ok

end Ledger

end Lib
