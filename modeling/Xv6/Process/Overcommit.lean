import Xv6.Process.Strides

/-!
# Shares that add up to more than 100

What `strd_sum`, the reservations and the MLFQ have to share is 100 together (`Funded`), and `update_strd`
hands out no more than that to the `RUNNABLE` processes. A process that is `RUNNING` keeps the share that
it was given before, though: its caller, when it moves to the MLFQ, and the processes on other CPUs. And where
`cpu_share` refuses a reservation, it gives the caller a share of its own on top, computed without counting
the caller.

So the sum is at most 100 (`shares_fit`) after calls that are not refused, with only reserved shares in
the hands of processes that run.
-/

namespace Xv6.Process

open Function (update_self update_of_ne)

open Lib Table

namespace Shares

variable {s t u : Shares} {p q : ProcId}

/-- The share of a process that is `RUNNABLE` or `RUNNING`. -/
def counted (s : Shares) (q : ProcId) : Int :=
  if (s.table.proc q).state = .runnable ∨ (s.table.proc q).state = .running then
    (s.sched q).strd.share
  else 0

/-- The sum of the shares of `RUNNABLE` and `RUNNING` processes. -/
def committed (s : Shares) : Int := ∑ q, s.counted q

/-! ### What is handed out -/

/-- `n` equal parts. -/
lemma sum_ite_eq (P : ProcId → Prop) [DecidablePred P] (c : Int) :
    (∑ q, if P q then c else 0) = ((List.finRange nProc).filter fun q => P q).length * c := by
  have hlist : ∀ l : List ProcId, (l.map fun q => if P q then c else 0).sum =
      (l.filter fun q => P q).length * c := fun l => by
    induction l with
    | nil => simp
    | cons q l ih =>
      by_cases hq : P q
      · simp only [List.map_cons, List.sum_cons, ih, hq, if_true, List.filter_cons, decide_true,
          List.length_cons]
        push_cast
        ring
      · simp [ih, hq]
  rw [Fin.sum_univ_def, hlist]

lemma getNum_mul (m : Mode) (c : Int) :
    (∑ q, if s.Ready q ∧ (s.sched q).mode = m then c else 0) = s.getNum m * c := sum_ite_eq _ c

lemma mul_tdiv_le {x : Int} (hx : 0 ≤ x) (n : Int) : n * x.tdiv n ≤ x := by
  have := Int.mul_tdiv_add_tmod x n
  have := Int.tmod_nonneg n hx
  omega

/-- After `update_strd`, the sum is at most what there was to share, and a bound `B` of the shares that are
reserved or in the hands of processes that run. -/
lemma committed_le {B : ProcId → Int} (hsum : 0 ≤ t.strdSum) (hmlfq : 0 ≤ t.mlfqs.share)
    (hupdate : t.updateStrd = some u) (hpos : ∀ q, 0 ≤ B q)
    (hset : ∀ q, t.Ready q → (t.sched q).mode = .strdSet → (t.sched q).strd.share ≤ B q)
    (hrun : ∀ q, (t.table.proc q).state = .running → (t.sched q).strd.share ≤ B q) :
    u.initPass.committed ≤ t.strdSum + t.mlfqs.share + ∑ q, B q := by
  have hu : u = { t with sched := t.restride } := by
    rw [updateStrd_eq] at hupdate
    split at hupdate
    · exact (Option.some.inj hupdate).symm
    · cases hupdate
  have hone : ∀ q, u.initPass.counted q ≤
      (if t.Ready q ∧ (t.sched q).mode = .strd then t.strdSum.tdiv (t.getNum .strd) else 0) +
      (if t.Ready q ∧ (t.sched q).mode = .mlfq then t.mlfqs.share.tdiv (t.getNum .mlfq) else 0) +
      B q := fun q => by
    have hB := hpos q
    by_cases hready : t.Ready q
    · have hshare : u.initPass.counted q = t.handed q := by
        have hstate : (t.table.proc q).state = .runnable := hready
        have hready' : u.Ready q := by rw [hu]; exact hready
        have hsched : u.sched q = t.restride q := by rw [hu]
        have htable : u.table = t.table := by rw [hu]
        simp only [counted, initPass, htable, hstate, true_or, if_true, hready', hsched, restride, hready]
      rw [hshare, handed]
      cases hm : (t.sched q).mode with
      | strd | mlfq => simp [hready, hB]
      | strdSet => simp [hset q hready hm]
    · have hready' : ¬ u.Ready q := by rw [hu]; exact hready
      have hsched : u.initPass.sched q = t.sched q := by
        simp only [initPass, hready', if_false]
        rw [hu]
        exact if_neg hready
      have htable : u.initPass.table = t.table := by rw [hu]; rfl
      simp only [hready, false_and, if_false, zero_add, counted, htable, hsched]
      split
      next h => exact hrun q (h.resolve_left hready)
      next => exact hB
  calc u.initPass.committed
      ≤ ∑ q, ((if t.Ready q ∧ (t.sched q).mode = .strd then t.strdSum.tdiv (t.getNum .strd) else 0) +
          (if t.Ready q ∧ (t.sched q).mode = .mlfq then t.mlfqs.share.tdiv (t.getNum .mlfq) else 0) +
          B q) := Finset.sum_le_sum fun q _ => hone q
    _ = t.getNum .strd * t.strdSum.tdiv (t.getNum .strd) +
          t.getNum .mlfq * t.mlfqs.share.tdiv (t.getNum .mlfq) + ∑ q, B q := by
        rw [Finset.sum_add_distrib, Finset.sum_add_distrib, getNum_mul, getNum_mul]
    _ ≤ t.strdSum + t.mlfqs.share + ∑ q, B q := by
        have := mul_tdiv_le hsum (t.getNum .strd)
        have := mul_tdiv_le hmlfq (t.getNum .mlfq)
        omega

/-! ### What there is to share -/

/-- What the processes without a reservation, those with one and the MLFQ share is 100 together, and the sum
of the reservations covers those of the processes that are alive. -/
structure Funded (s : Shares) : Prop where
  total : s.strdSum + s.strdShareSum + s.mlfqs.share = 100
  mlfq : s.mlfqs.share = 0 ∨ s.mlfqs.share = 20
  nonneg : ∀ r, 0 ≤ s.reserved r
  sum : ∑ r, s.reserved r ≤ s.strdShareSum
  le : s.strdShareSum ≤ 20

/-- A process that runs has no share but a reservation. -/
def Backed (s : Shares) (q : ProcId) : Prop :=
  (s.table.proc q).state = .running → (s.sched q).mode = .strdSet ∨ (s.sched q).strd.share ≤ 0

instance (s : Shares) (q : ProcId) : Decidable (s.Backed q) := inferInstanceAs (Decidable (_ → _))

/-- The reservation is not refused, and no other process that runs has a share that is not reserved; a
process that moves to the MLFQ has none either. -/
def CallsBacked (s : Shares) : ShareAct → Prop
  | .cpuShare p share => s.strdShareSum + share ≤ 20 ∧ ∀ q, q ≠ p → s.Backed q
  | .runMLFQ _ => ∀ q, s.Backed q
  | .call _ => True

instance (s : Shares) : DecidablePred s.CallsBacked := by
  intro a
  apply ShareAct.casesOn (motive := fun a => Decidable (s.CallsBacked a)) a <;> intros <;> dsimp only [CallsBacked] <;>
    infer_instance

lemma reserved_eq (halive : (s.table.proc q).Alive) (hm : (s.sched q).mode = .strdSet) :
    s.reserved q = (s.sched q).strd.share := if_pos ⟨halive, hm⟩

lemma alive_of_ready (h : s.Ready q) : (s.table.proc q).Alive := by
  have hstate : (s.table.proc q).state = .runnable := h
  simp [Proc.Alive, Proc.Used, hstate]

lemma alive_of_running (h : (s.table.proc q).state = .running) : (s.table.proc q).Alive := by
  simp [Proc.Alive, Proc.Used, h]

lemma moved_table : (s.moved p).table = s.table := by
  unfold moved
  split <;> rfl

lemma moved_strdShareSum : (s.moved p).strdShareSum = s.strdShareSum := by
  unfold moved
  split <;> rfl

lemma moved_strdSum : (s.moved p).strdSum = if s.mlfqs.share = 0 then wrap (s.strdSum - 20) else s.strdSum := by
  unfold moved
  split <;> rfl

lemma moved_mlfq : (s.moved p).mlfqs.share = if s.mlfqs.share = 0 then 20 else s.mlfqs.share := by
  unfold moved
  split <;> rfl

lemma moved_sched : (s.moved p).sched =
    Function.update s.sched p { s.sched p with mode := .mlfq, lev := .top, priority := 0 } := by
  unfold moved
  split <;> rfl

namespace Funded

lemma sum_nonneg (h : Funded s) : 0 ≤ s.strdShareSum :=
  (Finset.sum_nonneg fun r _ => h.nonneg r).trans h.sum

lemma reserved_le (h : Funded s) (r : ProcId) : s.reserved r ≤ s.strdShareSum :=
  (Finset.single_le_sum (fun q _ => h.nonneg q) (Finset.mem_univ r)).trans h.sum

lemma strdSum_nonneg (h : Funded s) : 0 ≤ s.strdSum := by
  have := h.total
  have := h.le
  have := h.mlfq
  omega

lemma mlfq_nonneg (h : Funded s) : 0 ≤ s.mlfqs.share := by
  have := h.mlfq
  omega

lemma share_le (h : Funded s) (hrun : (s.table.proc q).state = .running) (hb : s.Backed q) :
    (s.sched q).strd.share ≤ s.reserved q := by
  obtain hm | hle := hb hrun
  · exact (reserved_eq (alive_of_running hrun) hm).ge
  · exact hle.trans (h.nonneg q)

lemma panic (h : Funded s) (msg : String) : Funded (s.panic msg) :=
  ⟨h.total, h.mlfq, h.nonneg, h.sum, h.le⟩

lemma finish (h : Funded s) (ht : Funded t) (r : Int) : Funded (s.finish t r).2 := by
  unfold Shares.finish
  split
  next u hu =>
    have hsame : Restrided t u.initPass := (Restrided.updateStrd hu).trans (.initPass u)
    have hsum : u.initPass.strdSum = t.strdSum := by
      rw [updateStrd_eq] at hu
      split at hu
      · cases hu
        rfl
      · cases hu
    have hres : u.initPass.reserved = t.reserved := funext fun q => by
      unfold reserved
      rw [hsame.table, hsame.mode]
      split
      next hq => exact hsame.share q hq.2
      next => rfl
    refine ⟨?_, ?_, ?_, ?_, ?_⟩
    · rw [hsum, hsame.sum, hsame.mlfqs, ht.total]
    · rw [hsame.mlfqs]
      exact ht.mlfq
    · rw [hres]
      exact ht.nonneg
    · rw [hres, hsame.sum]
      exact ht.sum
    · rw [hsame.sum]
      exact ht.le
  next => exact h.panic _

/-! ### Calls of the process table -/

lemma reserved_of_call {a : Act} {t : Table} (h : s.table.step a = some t) (r : ProcId) :
    (s.afterCall a t).reserved r = s.reserved r ∨ (s.afterCall a t).reserved r = 0 := by
  by_cases ht : (t.proc r).Alive
  · by_cases hu : (s.table.proc r).Used
    · refine .inl ?_
      have hs := alive_before h ht hu
      simp only [reserved, afterCall_table, afterCall_sched hu, ht, hs]
    · refine .inr ?_
      simp [reserved, afterCall_filled h hu ht.1, Sched.zero]
  · refine .inr ?_
    simp [reserved, ht]

lemma call {a : Act} {t : Table} (hs : Funded s) (h : s.table.step a = some t) : Funded (s.afterCall a t) := by
  have hnonneg : ∀ r, 0 ≤ (s.afterCall a t).reserved r := fun r => by
    obtain hr | hr := reserved_of_call h r
    · exact hr ▸ hs.nonneg r
    · exact hr.ge
  have hle : ∀ r, (s.afterCall a t).reserved r ≤ s.reserved r := fun r => by
    obtain hr | hr := reserved_of_call h r
    · exact hr.le
    · exact hr.trans_le (hs.nonneg r)
  by_cases he : ∃ p, a = .exitEnd p ∧ (s.sched p).mode = .strdSet
  · obtain ⟨p, rfl, hm⟩ := he
    have hp : (s.table.proc p).Alive := by
      exact alive_of_stands (of_step h).2.1
    have hres := reserved_eq hp hm
    have hpos := hs.nonneg p
    have hbound := hs.reserved_le p
    have hsum0 := hs.sum_nonneg
    have hsum20 := hs.le
    have htotal := hs.total
    have hmlfq := hs.mlfq
    have hstrd : (s.afterCall (.exitEnd p) t).strdSum = s.strdSum + s.reserved p := by
      show (s.refunded p t).strdSum = _
      rw [refunded, if_pos hm, hres]
      exact Balanced.wrap_eq (by omega) (by omega)
    have hshare : (s.afterCall (.exitEnd p) t).strdShareSum = s.strdShareSum - s.reserved p := by
      show (s.refunded p t).strdShareSum = _
      rw [refunded, if_pos hm, hres]
      exact Balanced.wrap_eq (by omega) (by omega)
    have hzero : (s.afterCall (.exitEnd p) t).reserved p = 0 := by
      simp [reserved, Proc.Alive, exitEnd_zombie h]
    have hsum : ∑ r, (s.afterCall (.exitEnd p) t).reserved r ≤ ∑ r, s.reserved r - s.reserved p := by
      have hrest := sum_add_of_ne (f := s.reserved) (g := Function.update s.reserved p 0) (p := p)
        fun q hq => update_of_ne hq _ _
      have hless : ∑ r, (s.afterCall (.exitEnd p) t).reserved r ≤
          ∑ r, Function.update s.reserved p 0 r := Finset.sum_le_sum fun r _ => by
        by_cases hr : r = p
        · rw [hr, hzero, update_self]
        · rw [update_of_ne hr]
          exact hle r
      rw [update_self] at hrest
      omega
    have hcover := hs.sum
    refine ⟨?_, ?_, hnonneg, ?_, ?_⟩
    · rw [hstrd, hshare, afterCall_mlfqs]
      omega
    · rw [afterCall_mlfqs]
      exact hmlfq
    · rw [hshare]
      omega
    · rw [hshare]
      omega
  · have hsame : (s.afterCall a t).strdSum = s.strdSum ∧
        (s.afterCall a t).strdShareSum = s.strdShareSum := by
      unfold afterCall
      split
      · unfold allocated
        split <;> exact ⟨rfl, rfl⟩
      · unfold allocated
        split <;> exact ⟨rfl, rfl⟩
      next p =>
        rw [refunded, if_neg fun hm => he ⟨p, rfl, hm⟩]
        exact ⟨rfl, rfl⟩
      · exact ⟨rfl, rfl⟩
    refine ⟨?_, ?_, hnonneg, ?_, ?_⟩
    · rw [hsame.1, hsame.2, afterCall_mlfqs, hs.total]
    · rw [afterCall_mlfqs]
      exact hs.mlfq
    · rw [hsame.2]
      exact (Finset.sum_le_sum fun r _ => hle r).trans hs.sum
    · rw [hsame.2]
      exact hs.le

/-! ### The two calls -/

lemma reserve (hs : Funded s) (hp : (s.table.proc p).Alive) {share : Int} (h0 : 0 ≤ share)
    (hle : s.strdShareSum + share ≤ 20) : Funded (s.reserve p share) := by
  have hsum0 := hs.sum_nonneg
  have htotal := hs.total
  have hmlfq := hs.mlfq
  have hstrd : (s.reserve p share).strdSum = s.strdSum - share :=
    Balanced.wrap_eq (by omega) (by omega)
  have hshare : (s.reserve p share).strdShareSum = s.strdShareSum + share :=
    Balanced.wrap_eq (by omega) (by omega)
  have hself : (s.reserve p share).reserved p = share := by
    refine (reserved_eq (s := s.reserve p share) hp ?_).trans ?_
    · simp [Shares.reserve, modify]
    · simp [Shares.reserve, modify]
  have hother : ∀ r ≠ p, (s.reserve p share).reserved r = s.reserved r := fun r hr => by
    simp [reserved, Shares.reserve, modify, hr]
  refine ⟨?_, hmlfq, fun r => ?_, ?_, ?_⟩
  · rw [hstrd, hshare]
    show _ + _ + s.mlfqs.share = 100
    omega
  · by_cases hr : r = p
    · rw [hr, hself]
      exact h0
    · rw [hother r hr]
      exact hs.nonneg r
  · have hsum := sum_add_of_ne hother
    have hcover := hs.sum
    have hpos := hs.nonneg p
    rw [hself] at hsum
    rw [hshare]
    omega
  · rw [hshare]
    exact hle

/-- The caller of `run_MLFQ` gives up its reservation, which stays in the sum. -/
lemma moved (hs : Funded s) (p : ProcId) : Funded (s.moved p) := by
  have hother : ∀ r, (s.moved p).reserved r = if r = p then 0 else s.reserved r := fun r => by
    by_cases hr : r = p
    · simp [reserved, hr, moved_sched]
    · simp [reserved, hr, moved_sched, moved_table]
  have hsum0 := hs.sum_nonneg
  have hsum20 := hs.le
  have htotal := hs.total
  have hmlfq : (s.moved p).mlfqs.share = 20 := by
    rw [moved_mlfq]
    obtain h | h := hs.mlfq <;> simp [h]
  have hstrd : (s.moved p).strdSum + 20 = s.strdSum + s.mlfqs.share := by
    rw [moved_strdSum]
    obtain h | h := hs.mlfq
    · rw [if_pos h, Balanced.wrap_eq (by omega) (by omega), h]
      omega
    · rw [if_neg (by omega), h]
  refine ⟨?_, .inr hmlfq, fun r => ?_, ?_, ?_⟩
  · rw [hmlfq, moved_strdShareSum]
    omega
  · rw [hother]
    split
    · exact le_refl 0
    · exact hs.nonneg r
  · rw [moved_strdShareSum]
    refine (Finset.sum_le_sum fun r _ => ?_).trans hs.sum
    rw [hother]
    split
    · exact hs.nonneg r
    · exact le_refl _
  · rw [moved_strdShareSum]
    exact hsum20

lemma step {a : ShareAct} (hs : Funded s) (hc : s.CallsBacked a) (h : s.step a = some t) : Funded t := by
  cases a with
  | call a =>
    obtain ⟨u, hu, rfl⟩ := Option.map_eq_some_iff.mp h
    exact hs.call hu
  | cpuShare p share =>
    obtain ⟨⟨hp, -⟩, rfl⟩ := of_guard h
    rw [Shares.cpuShare]
    split
    next => exact hs.panic _
    next hneg =>
      have h0 : 0 ≤ share := by omega
      have hfund := hs.reserve (alive_of_stands hp.2.2.1) h0 hc.1
      rw [if_neg (not_lt.mpr hfund.le)]
      exact hs.finish hfund 0
  | runMLFQ p =>
    obtain ⟨-, rfl⟩ := of_guard h
    exact hs.finish (hs.moved p) 0

lemma boot : Funded Shares.boot := by
  have hres : ∀ r, Shares.boot.reserved r = 0 := fun r => by
    simp [reserved, Shares.boot, Sched.zero]
  refine ⟨rfl, .inl rfl, fun r => (hres r).ge, ?_, by decide⟩
  rw [Finset.sum_congr rfl fun r _ => hres r]
  simp [Shares.boot]

end Funded

lemma finish_of_stopped {r : Int} (h : (s.finish t r).2.table.stopped = none) :
    ∃ u, t.updateStrd = some u ∧ (s.finish t r).2 = u.initPass := by
  unfold finish at *
  split at h
  next u hu => exact ⟨u, hu, rfl⟩
  next => cases h

/-- **Shares fit.** In every run whose calls are not refused and find no share in the hands of a process that
runs but what is reserved, the shares of the `RUNNABLE` and `RUNNING` processes add up to at most 100 after
each call of `cpu_share` and `run_MLFQ`. -/
theorem shares_fit {as : List ShareAct} (hrun : Run Shares.step CallsBacked Shares.boot as s)
    {a : ShareAct} (hc : s.CallsBacked a) (hstep : s.step a = some t) (hstop : t.table.stopped = none)
    (ha : ∀ b, a ≠ .call b) : t.committed ≤ 100 := by
  have hs : Funded s := hrun.inv Funded.boot fun _ _ _ h hc hstep => h.step hc hstep
  cases a with
  | call b => exact absurd rfl (ha b)
  | cpuShare p share =>
    obtain ⟨⟨hp, -⟩, rfl⟩ := of_guard hstep
    rw [cpuShare] at hstop ⊢
    split at hstop
    next => cases hstop
    next hneg =>
      have h0 : 0 ≤ share := by omega
      have hfund := hs.reserve (alive_of_stands hp.2.2.1) h0 hc.1
      rw [if_neg hneg]
      rw [if_neg (not_lt.mpr hfund.le)] at hstop ⊢
      obtain ⟨u, hu, heq⟩ := finish_of_stopped hstop
      rw [heq]
      refine (committed_le hfund.strdSum_nonneg hfund.mlfq_nonneg hu hfund.nonneg (fun q hq hm => ?_)
        fun q hq => ?_).trans ?_
      · exact (reserved_eq (alive_of_ready hq) hm).ge
      · refine hfund.share_le hq fun _ => ?_
        by_cases hqp : q = p
        · exact .inl (by simp [reserve, modify, hqp])
        · have hb := hc.2 q hqp hq
          simpa [reserve, modify, hqp] using hb
      · have := hfund.sum
        have := hfund.total
        omega
  | runMLFQ p =>
    obtain ⟨-, rfl⟩ := of_guard hstep
    have hfund := hs.moved p
    obtain ⟨u, hu, heq⟩ := finish_of_stopped hstop
    rw [show (s.runMLFQ p).2 = u.initPass from heq]
    have hshare : ∀ q, ((s.moved p).sched q).strd.share = (s.sched q).strd.share := fun q => by
      rw [moved_sched]
      by_cases hqp : q = p
      · rw [hqp, update_self]
      · rw [update_of_ne hqp]
    refine (committed_le hfund.strdSum_nonneg hfund.mlfq_nonneg hu hs.nonneg (fun q hq hm => ?_)
      fun q hq => ?_).trans ?_
    · have hqp : q ≠ p := fun heq => by simp [heq, moved_sched] at hm
      rw [moved_sched, update_of_ne hqp] at hm
      rw [Ready, moved_table] at hq
      rw [hshare q]
      exact (reserved_eq (alive_of_ready hq) hm).ge
    · rw [moved_table] at hq
      rw [hshare q]
      exact hs.share_le hq (hc q)
    · have hsum := hs.sum
      have htotal := hfund.total
      rw [moved_strdShareSum] at htotal
      omega

/-- `init` forks and reserves 5. -/
theorem shares_fit_reserve :
    ∃ s t, Run Shares.step CallsBacked Shares.boot
        [.call (.sched 0 .running), .call (.fork 0 .enough)] s ∧
      s.step (.cpuShare 0 5) = some t ∧ t.table.stopped = none ∧ t.committed ≤ 100 := by
  obtain ⟨s, hrun, hc, hstep⟩ := run_of_check Shares.step CallsBacked Shares.boot
    [.call (.sched 0 .running), .call (.fork 0 .enough)]
    (fun s => s.CallsBacked (.cpuShare 0 5) ∧
      (s.step (.cpuShare 0 5)).any (fun t => t.table.stopped = none) = true) (by decide +kernel)
  cases ht : s.step (.cpuShare 0 5) with
  | none =>
    rw [ht] at hstep
    cases hstep
  | some t =>
    rw [ht] at hstep
    have hstop : t.table.stopped = none := of_decide_eq_true hstep
    exact ⟨s, t, hrun, ht, hstop, shares_fit hrun hc ht hstop (by simp)⟩

/-- A reservation that is refused leaves the caller and its child with 100 each. A process that was given
47 keeps them when it moves to the MLFQ, while its sibling is given the 75 that are left. -/
theorem shares_overcommitted :
    (∃ s, Run Shares.step anyStep Shares.boot
        [.call (.sched 0 .running), .call (.fork 0 .enough), .cpuShare 0 30] s ∧
      s.table.stopped = none ∧ s.committed = 200) ∧
    ∃ s, Run Shares.step anyStep Shares.boot
        [.call (.sched 0 .running), .call (.fork 0 .enough), .call (.fork 0 .enough), .cpuShare 0 5,
          .call (.sched 0 .runnable), .call (.sched 1 .running), .runMLFQ 1] s ∧
      s.table.stopped = none ∧ s.committed = 127 :=
  ⟨run_of_check _ _ _ _ _ (by decide +kernel), run_of_check _ _ _ _ _ (by decide +kernel)⟩

end Shares

end Xv6.Process
