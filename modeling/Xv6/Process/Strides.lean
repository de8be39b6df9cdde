import Xv6.Process.Share

/-!
# When the scheduling calls divide by zero

`update_strd` divides twice for each `RUNNABLE` process: what is to be shared by the number of processes
of its mode, and 10001 by the quotient. The quotient is zero when there are more processes than there
is to share, and for a reservation of zero. `updateStrd_eq` says all that the loop does: it divides by zero,
or every `RUNNABLE` process gets what `handed` says.

The caller is `RUNNING`. It is neither counted nor given anything, so the condition under which
`cpu_share` and `run_MLFQ` finish is one on the other processes (`sched_calls_total`). On the way where
`cpu_share` refuses a reservation it divides by the number of other processes, which may be zero.
-/

namespace Xv6.Process

open Lib Table

namespace Shares

variable {s t : Shares} {p q : ProcId}

/-! ### What `update_strd` does -/

/-- The share that `update_strd` gives to `q`. -/
def handed (s : Shares) (q : ProcId) : Int :=
  match (s.sched q).mode with
  | .strd => s.strdSum.tdiv (s.getNum .strd)
  | .strdSet => (s.sched q).strd.share
  | .mlfq => s.mlfqs.share.tdiv (s.getNum .mlfq)

/-- The fields of slot `q` after `update_strd`. -/
def restride (s : Shares) (q : ProcId) : Sched :=
  if s.Ready q then
    { s.sched q with strd := ⟨(s.sched q).strd.pass, Int.tdiv 10001 (s.handed q), s.handed q⟩ }
  else s.sched q

lemma divide_eq {x y : Int} (h : y ≠ 0) : divide x y = some (x.tdiv y) := if_neg h

lemma divide_zero (x : Int) : divide x 0 = none := if_pos rfl

lemma getNum_ne_zero {m : Mode} (hr : s.Ready q) (hm : (s.sched q).mode = m) : s.getNum m ≠ 0 :=
  ne_of_gt (Restrided.getNum_pos hr hm)

/-- The loop has come to `q`; the slots before it have been changed. -/
lemma updateOne_eq (hq : t.sched q = s.sched q) (htable : t.table = s.table)
    (hsum : t.strdSum = s.strdSum) (hmlfqs : t.mlfqs = s.mlfqs) :
    updateOne (s.getNum .strd) (s.getNum .mlfq) t q =
      if s.Ready q → s.handed q ≠ 0 then some (t.modify q fun _ => s.restride q) else none := by
  have hready : t.Ready q ↔ s.Ready q := by
    unfold Ready
    rw [htable]
  by_cases hr : s.Ready q
  · have hset : ∀ x, s.handed q = x → (t.modify q fun f =>
        { f with strd := ⟨f.strd.pass, Int.tdiv 10001 x, x⟩ }) = t.modify q fun _ => s.restride q := by
      intro x hx
      simp only [modify, restride, if_pos hr, hq, hx]
    have hfin : ∀ f : Int → Shares, f (Int.tdiv 10001 (s.handed q)) = t.modify q (fun _ => s.restride q) →
        (divide 10001 (s.handed q)).bind (fun y => some (f y)) =
          if s.Ready q → s.handed q ≠ 0 then some (t.modify q fun _ => s.restride q) else none := by
      intro f hf
      by_cases h0 : s.handed q = 0
      · rw [h0, divide_zero, if_neg fun h => h hr rfl]
        rfl
      · rw [divide_eq h0, if_pos fun _ => h0, ← hf]
        rfl
    unfold updateOne
    rw [if_neg (not_not.mpr (hready.mpr hr)), hq]
    cases hm : (s.sched q).mode with
    | strd =>
      have hx : s.handed q = s.strdSum.tdiv (s.getNum .strd) := by simp only [handed, hm]
      simp only [hsum, divide_eq (getNum_ne_zero hr hm), Option.bind_eq_bind, Option.bind_some]
      rw [← hx]
      exact hfin (fun y => t.modify q fun f => { f with strd := ⟨f.strd.pass, y, s.handed q⟩ })
        (hset _ rfl)
    | strdSet =>
      have hx : s.handed q = (s.sched q).strd.share := by simp only [handed, hm]
      simp only [← hx, Option.bind_eq_bind]
      refine hfin (fun y => t.modify q fun f => { f with strd := { f.strd with stride := y } }) ?_
      rw [← hset _ rfl]
      simp only [modify, hq, hx]
    | mlfq =>
      have hpos := Restrided.getNum_pos hr hm
      have hx : s.handed q = s.mlfqs.share.tdiv (s.getNum .mlfq) := by simp only [handed, hm]
      simp only [if_neg (not_le.mpr hpos), hmlfqs, divide_eq (getNum_ne_zero hr hm),
        Option.bind_eq_bind, Option.bind_some]
      rw [← hx]
      exact hfin (fun y => t.modify q fun f => { f with strd := ⟨f.strd.pass, y, s.handed q⟩ })
        (hset _ rfl)
  · unfold updateOne
    rw [if_pos (mt hready.mp hr), if_pos fun h => absurd h hr]
    simp only [restride, if_neg hr, modify, ← hq, Function.update_eq_self]

lemma foldlM_updateOne {l : List ProcId} (hl : l.Nodup) (hsched : ∀ q ∈ l, t.sched q = s.sched q)
    (htable : t.table = s.table) (hsum : t.strdSum = s.strdSum) (hmlfqs : t.mlfqs = s.mlfqs) :
    l.foldlM (updateOne (s.getNum .strd) (s.getNum .mlfq)) t =
      if ∀ q ∈ l, s.Ready q → s.handed q ≠ 0 then
        some { t with sched := fun q => if q ∈ l then s.restride q else t.sched q }
      else none := by
  induction l generalizing t with
  | nil => simp
  | cons q l ih =>
    obtain ⟨hql, hl⟩ := List.nodup_cons.mp hl
    rw [List.foldlM_cons, updateOne_eq (hsched q List.mem_cons_self) htable hsum hmlfqs]
    by_cases hq : s.Ready q → s.handed q ≠ 0
    · have hrest : ∀ r ∈ l, (t.modify q fun _ => s.restride q).sched r = s.sched r := fun r hr => by
        have hrq : r ≠ q := fun heq => hql (heq ▸ hr)
        exact (Function.update_of_ne hrq _ _).trans (hsched r (List.mem_cons_of_mem q hr))
      rw [if_pos hq]
      refine (ih hl hrest htable hsum hmlfqs).trans ?_
      by_cases hall : ∀ r ∈ l, s.Ready r → s.handed r ≠ 0
      · rw [if_pos hall, if_pos (List.forall_mem_cons.mpr ⟨hq, hall⟩)]
        refine congrArg some ?_
        simp only [modify, Shares.mk.injEq, true_and, and_true]
        funext r
        by_cases hrq : r = q
        · simp [hrq, hql]
        · simp [hrq]
      · rw [if_neg hall, if_neg fun h => hall (List.forall_mem_cons.mp h).2]
    · rw [if_neg hq, if_neg fun h => hq (h q List.mem_cons_self)]
      rfl

/-- `update_strd` divides by zero, or gives every `RUNNABLE` process its share. -/
lemma updateStrd_eq (s : Shares) : s.updateStrd =
    if ∀ q, s.Ready q → s.handed q ≠ 0 then some { s with sched := s.restride } else none := by
  have h := foldlM_updateOne (s := s) (t := s) (List.nodup_finRange nProc) (fun _ _ => rfl) rfl rfl rfl
  simp only [List.mem_finRange, true_imp_iff, if_true] at h
  exact h

/-! ### When there is enough to share -/

/-- There is something for a `RUNNABLE` process with these fields. -/
def CoversOne (s : Shares) (sum mlfq : Int) (f : Sched) : Prop :=
  match f.mode with
  | .strd => s.getNum .strd ≤ |sum|
  | .strdSet => f.strd.share ≠ 0
  | .mlfq => s.getNum .mlfq ≤ |mlfq|

instance (s : Shares) (sum mlfq : Int) (f : Sched) : Decidable (s.CoversOne sum mlfq f) := by
  unfold CoversOne
  split <;> infer_instance

/-- With `sum` for the processes without a reservation and `mlfq` for those of the MLFQ, there is something
for every `RUNNABLE` process, and no reservation is zero. -/
def Covers (s : Shares) (sum mlfq : Int) : Prop :=
  ∀ q, s.Ready q → s.CoversOne sum mlfq (s.sched q)

instance (s : Shares) (sum mlfq : Int) : Decidable (s.Covers sum mlfq) :=
  inferInstanceAs (Decidable (∀ _, _ → _))

lemma tdiv_ne_zero {x n : Int} (hn : 0 < n) : x.tdiv n ≠ 0 ↔ n ≤ |x| := by
  have habs : (x.tdiv n).natAbs = x.natAbs / n.natAbs := Int.natAbs_tdiv x n
  rw [← Int.natAbs_ne_zero, habs, ne_eq, Nat.div_eq_zero_iff, Int.abs_eq_natAbs]
  omega

section

variable (hready : ∀ q, t.Ready q ↔ s.Ready q) (hsched : ∀ q, s.Ready q → t.sched q = s.sched q)
include hready hsched

lemma getNum_congr (m : Mode) : t.getNum m = s.getNum m := by
  unfold getNum
  congr 2
  refine List.filter_congr fun q _ => decide_eq_decide.mpr ?_
  rw [hready q]
  exact and_congr_right fun hq => by rw [hsched q hq]

/-- `update_strd` does not divide by zero if there is enough to share. -/
lemma covers_iff : (∀ q, t.Ready q → t.handed q ≠ 0) ↔ s.Covers t.strdSum t.mlfqs.share := by
  refine forall_congr' fun q => ?_
  rw [hready q]
  refine imp_congr_right fun hq => ?_
  rw [handed, CoversOne, hsched q hq, getNum_congr hready hsched, getNum_congr hready hsched]
  cases hm : (s.sched q).mode with
  | strd | mlfq => exact tdiv_ne_zero (Restrided.getNum_pos hq hm)
  | strdSet => exact Iff.rfl

lemma finish_isSome (s₀ : Shares) (r : Int) : (s₀.finish t r).1.isSome ↔ s.Covers t.strdSum t.mlfqs.share := by
  rw [finish, updateStrd_eq, ← covers_iff hready hsched]
  split
  next heq =>
    refine ⟨fun _ => ?_, fun _ => rfl⟩
    by_contra hnot
    rw [if_neg hnot] at heq
    cases heq
  next heq =>
    refine ⟨nofun, fun h => ?_⟩
    rw [if_pos h] at heq
    cases heq

end

/-! ### The two calls -/

lemma wrap_wrap (x : Int) : wrap (wrap x) = wrap x := Int.bmod_bmod ..

lemma wrap_add_wrap (x y : Int) : wrap (wrap (x - y) + y) = wrap x := by
  unfold wrap
  rw [Int.bmod_add_bmod, sub_add_cancel]

lemma finish_strdSum (r : Int) :
    (s.finish t r).2.strdSum = t.strdSum ∨ (s.finish t r).2.strdSum = s.strdSum := by
  rw [finish, updateStrd_eq]
  split
  next heq =>
    split at heq
    · cases heq
      exact .inl rfl
    · cases heq
  next => exact .inr rfl

lemma finish_wrapped {r : Int} (hs : wrap s.strdSum = s.strdSum) (ht : wrap t.strdSum = t.strdSum) :
    wrap (s.finish t r).2.strdSum = (s.finish t r).2.strdSum := by
  obtain h | h := finish_strdSum (s := s) (t := t) r
  · rw [h, ht]
  · rw [h, hs]

lemma wrapped_step {a : ShareAct} (hs : wrap s.strdSum = s.strdSum) (h : s.step a = some t) :
    wrap t.strdSum = t.strdSum := by
  cases a with
  | call a =>
    obtain ⟨u, -, rfl⟩ := Option.map_eq_some_iff.mp h
    unfold afterCall
    split
    · unfold allocated
      split <;> exact hs
    · unfold allocated
      split <;> exact hs
    · unfold refunded
      split
      · exact wrap_wrap _
      · exact hs
    · exact hs
  | cpuShare p share =>
    obtain ⟨-, rfl⟩ := of_guard h
    unfold cpuShare
    split
    · exact hs
    · dsimp only
      split
      · split
        · exact hs
        · split
          · exact finish_wrapped hs (wrap_wrap _)
          · exact hs
      · exact finish_wrapped hs (wrap_wrap _)
  | runMLFQ p =>
    obtain ⟨-, rfl⟩ := of_guard h
    unfold runMLFQ moved
    refine finish_wrapped hs ?_
    dsimp only [modify]
    split
    · exact wrap_wrap _
    · exact hs

lemma wrapped_of_run {as : List ShareAct} (hrun : Run Shares.step anyStep Shares.boot as s) :
    wrap s.strdSum = s.strdSum :=
  hrun.inv (I := fun s => wrap s.strdSum = s.strdSum) rfl fun _ _ _ h _ hstep => wrapped_step h hstep

/-- `cpu_share(share)` finishes: the two arguments of its own check are not negative, there are
processes to divide by where it refuses the reservation, and there is enough to share. -/
def CpuShareFinishes (s : Shares) (share : Int) : Prop :=
  0 ≤ s.strdShareSum ∧ 0 ≤ share ∧
    if 20 < wrap (s.strdShareSum + share) then
      0 < s.getNum .strd ∧ s.Covers s.strdSum s.mlfqs.share
    else s.Covers (wrap (s.strdSum - share)) s.mlfqs.share

/-- `run_MLFQ()` finishes: there is enough to share, once the MLFQ has its 20. -/
def RunMlfqFinishes (s : Shares) : Prop :=
  if s.mlfqs.share = 0 then s.Covers (wrap (s.strdSum - 20)) 20
  else s.Covers s.strdSum s.mlfqs.share

lemma ne_of_ready (hp : ¬ s.Ready p) (hq : s.Ready q) : q ≠ p := fun heq => hp (heq ▸ hq)

lemma cpuShare_isSome (hp : ¬ s.Ready p) (hs : wrap s.strdSum = s.strdSum) (share : Int) :
    (s.cpuShare p share).1.isSome ↔ s.CpuShareFinishes share := by
  unfold cpuShare CpuShareFinishes
  split
  next hneg =>
    refine ⟨(by simp), fun h => ?_⟩
    omega
  next hneg =>
    have h0 : 0 ≤ s.strdShareSum ∧ 0 ≤ share := by omega
    simp only [h0.1, h0.2, true_and]
    have hback : wrap (wrap (s.strdSum - share) + share) = s.strdSum := by rw [wrap_add_wrap, hs]
    show (if 20 < wrap (s.strdShareSum + share) then _ else _ : Option Int × Shares).1.isSome ↔ _
    split
    next =>
      -- the reservation has been struck out, and the caller is not counted
      have hsched : ∀ q, s.Ready q → ((s.reserve p share).withdraw p share).sched q = s.sched q :=
        fun q hq => by simp [withdraw, reserve, modify, ne_of_ready hp hq]
      have hnum : ∀ m, ((s.reserve p share).withdraw p share).getNum m = s.getNum m :=
        getNum_congr (fun _ => Iff.rfl) hsched
      have hn : ¬ ((s.reserve p share).withdraw p share).getNum .mlfq < 0 := by
        unfold getNum
        omega
      rw [if_neg hn, hnum, hnum]
      by_cases hm : s.getNum .strd = 0
      · rw [hm, divide_zero]
        exact ⟨(by simp), fun h => absurd h.1 (lt_irrefl 0)⟩
      · have hpos : 0 < s.getNum .strd := by
          have : 0 ≤ s.getNum .strd := by unfold getNum; omega
          omega
        rw [divide_eq hm]
        simp only [hpos, true_and]
        refine (finish_isSome (s := s) (fun _ => ?_) (fun q hq => ?_) s 1).trans ?_
        · exact Iff.rfl
        · rw [← hsched q hq]
          simp [modify, ne_of_ready hp hq]
        · show s.Covers (wrap (wrap (s.strdSum - share) + share)) s.mlfqs.share ↔ _
          rw [hback]
    next =>
      refine finish_isSome (fun _ => ?_) (fun q hq => ?_) s 0
      · exact Iff.rfl
      · simp [reserve, modify, ne_of_ready hp hq]

lemma runMLFQ_isSome (hp : ¬ s.Ready p) : (s.runMLFQ p).1.isSome ↔ s.RunMlfqFinishes := by
  unfold runMLFQ moved RunMlfqFinishes
  split
  next =>
    refine finish_isSome (fun _ => ?_) (fun q hq => ?_) s 0
    · exact Iff.rfl
    · simp [modify, ne_of_ready hp hq]
  next =>
    refine finish_isSome (fun _ => ?_) (fun q hq => ?_) s 0
    · exact Iff.rfl
    · simp [modify, ne_of_ready hp hq]

lemma Enters.not_ready (h : s.Enters p) : ¬ s.Ready p := fun hr => by
  have hrun : (s.table.proc p).state = .running := h.2.2.1.1
  rw [Ready, hrun] at hr
  cases hr

/-- **When the scheduling calls finish.** In every reachable state, and for every argument, a call of
`cpu_share` or `run_MLFQ` returns exactly if its condition holds; otherwise the kernel panics, most often in
the trap of a division by zero. -/
theorem sched_calls_total {as : List ShareAct} (hrun : Run Shares.step anyStep Shares.boot as s)
    (hp : s.Enters p) (share : Int) :
    ((s.cpuShare p share).1.isSome ↔ s.CpuShareFinishes share) ∧
      ((s.runMLFQ p).1.isSome ↔ s.RunMlfqFinishes) :=
  ⟨cpuShare_isSome hp.not_ready (wrapped_of_run hrun) share, runMLFQ_isSome hp.not_ready⟩

/-- `init` reserves 5 of the CPU next to a child. -/
theorem sched_calls_total_reserve :
    ∃ s, Run Shares.step anyStep Shares.boot
        [.call (.sched 0 .running), .call (.fork 0 .enough)] s ∧
      s.CpuShareFinishes 5 ∧ (s.cpuShare 0 5).1.isSome := by
  obtain ⟨s, hrun, hp, hc⟩ := run_of_check Shares.step anyStep Shares.boot
    [.call (.sched 0 .running), .call (.fork 0 .enough)]
    (fun s => s.Enters 0 ∧ 0 ≤ s.strdShareSum ∧ ¬ 20 < wrap (s.strdShareSum + 5) ∧
      s.Covers (wrap (s.strdSum - 5)) s.mlfqs.share) (by decide +kernel)
  have hc' : s.CpuShareFinishes 5 := ⟨hc.1, by decide, by rw [if_neg hc.2.1]; exact hc.2.2⟩
  exact ⟨s, hrun, hc', (sched_calls_total hrun hp 5).1.mpr hc'⟩

/-- With nobody else to run, `cpu_share(30)` divides by zero where it refuses the reservation; a
reservation of 0 makes the next call of another process divide by zero. -/
theorem sched_calls_trap :
    (∃ s, Run Shares.step anyStep Shares.boot [.call (.sched 0 .running)] s ∧ s.Enters 0 ∧
      (s.cpuShare 0 30).1 = none) ∧
    ∃ s, Run Shares.step anyStep Shares.boot
        [.call (.sched 0 .running), .call (.fork 0 .enough), .cpuShare 0 0,
          .call (.sched 0 .runnable), .call (.sched 1 .running)] s ∧ s.Enters 1 ∧
      (s.cpuShare 1 5).1 = none ∧ (s.runMLFQ 1).1 = none :=
  ⟨run_of_check _ _ _ _ _ (by decide +kernel), run_of_check _ _ _ _ _ (by decide +kernel)⟩

end Shares

end Xv6.Process
