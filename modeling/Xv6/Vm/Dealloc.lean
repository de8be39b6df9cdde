import Xv6.Vm.Address
import Xv6.Vm.Calls

/-!
# `deallocuvm`, page by page

The loop of `deallocuvm` changes its own counter: where a page table is missing it goes on at the next
region of 4 MB. Here the loop is taken with the `uint`s of the source (`Uint.deallocuvm`), compared with
the loop over page numbers (`deallocLoop`), and this one with the plain loop that looks at every page in
turn (`unmapPages`). The three are the same program in every memory. What the plain loop does is then
said for a page directory whose user half is its own (`UserHalf`), as every page directory of the kernel
is.
-/

namespace Xv6.Vm

open List (mem_cons_self range')
open Option (bind_some map_some)
open Function (update update_self update_of_ne)
open Lib
open Process (pgUp growRange pgUp_mono)

namespace Uint

/-- The loop of `deallocuvm`, in at most `rounds` rounds: whether it has come to its end. -/
def deallocLoop (k : Image) (d : Page) (oldsz : UInt32) : (rounds : Nat) → (a : UInt32) → M Bool
  | 0, a => return decide (¬ a < oldsz)
  | rounds + 1, a =>
    if a < oldsz then do
      let s ← get
      match (s.mem d (pdx a).toNat).present with
      | none => deallocLoop k d oldsz rounds (pgaddr (pdx a + 1) 0 0 - pgSize32 + pgSize32)
      | some pde =>
        match (s.mem pde.page (ptx a).toNat).present with
        | none => deallocLoop k d oldsz rounds (a + pgSize32)
        | some pte =>
          if pte.page = 0 then throw .kfree
          else
            kfree k pte.page
            setEntry pde.page (ptx a).toNat (.other 0)
            deallocLoop k d oldsz rounds (a + pgSize32)
    else return true

/-- `deallocuvm`; nothing is returned while its loop goes on. -/
def deallocuvm (k : Image) (d : Page) (oldsz newsz : UInt32) (rounds : Nat) : M (Option UInt32) := do
  if newsz ≥ oldsz then return some oldsz
  else
    let ended ← deallocLoop k d oldsz rounds (pgRoundUp newsz)
    return if ended then some newsz else none

end Uint

/-- A page is unmapped and freed if there is one. -/
def unmapPage (k : Image) (d : Page) (v : Nat) : M Unit := do
  let s ← get
  match (s.mem d (v / nEntries)).present with
  | none => return ()
  | some pde =>
    match (s.mem pde.page (v % nEntries)).present with
    | none => return ()
    | some pte =>
      if pte.page = 0 then throw .kfree
      else
        kfree k pte.page
        setEntry pde.page (v % nEntries) (.other 0)

def unmapPages (k : Image) (d : Page) : List Nat → M Unit
  | [] => return ()
  | v :: vs => do
    unmapPage k d v
    unmapPages k d vs

variable {k : Image} {fails : Nat → Bool} {d : Page} {s : Phys}

/-! ### The loop over addresses and the loop over pages -/

lemma toNat_jump {a : UInt32} (h : a.toNat < kernBase) : (pgaddr (pdx a + 1) 0 0 - pgSize32 + pgSize32).toNat =
      (a.toNat / pgSize / nEntries + 1) * nEntries * pgSize := by
  have hone : (1 : UInt32).toNat = 1 := rfl
  have hidx : (pdx a + 1).toNat = a.toNat / pgSize / 1024 + 1 := by
    rw [UInt32.toNat_add, toNat_pdx, hone]
    unfold pgSize
    have := a.toNat_lt
    omega
  unfold kernBase at h
  have hlt : (pdx a + 1).toNat < 1024 := by
    rw [hidx]
    unfold pgSize
    omega
  rw [UInt32.sub_add_cancel, toNat_pgaddr hlt, hidx]
  rfl

lemma toNat_nextPage {a : UInt32} (h : a.toNat < kernBase) : (a + pgSize32).toNat = a.toNat + pgSize := by
  have hsize : pgSize32.toNat = pgSize := rfl
  rw [UInt32.toNat_add, hsize]
  unfold kernBase at h
  unfold pgSize
  omega

lemma lt_nextTable (v : Nat) : v < (v / nEntries + 1) * nEntries := by
  have hmod : v % nEntries < nEntries := Nat.mod_lt _ (by decide)
  have hsplit := Nat.div_add_mod v nEntries
  rw [Nat.succ_mul, Nat.mul_comm]
  omega

variable {oldsz a : UInt32}

lemma lt_pgUp_iff {v : Nat} (ha : a.toNat = v * pgSize) : a < oldsz ↔ v < pgUp oldsz.toNat := by
  rw [UInt32.lt_iff_toNat_lt, ha]
  unfold pgUp pgSize
  omega

/-- A round of the loop over pages, where there is a page table, is `unmapPage`. -/
lemma deallocLoop_run (hi v : Nat) : deallocLoop k fails d hi v s =
    if v < hi then
      match s.tableAt d (v / nEntries) with
      | none => deallocLoop k fails d hi ((v / nEntries + 1) * nEntries) s
      | some _ => (unmapPage k d v >>= fun _ => deallocLoop k fails d hi (v + 1)) s
    else .ok () s := by
  rw [deallocLoop, ite_run]
  refine if_congr Iff.rfl ?_ rfl
  unfold walkpgdir unmapPage Phys.tableAt
  simp only [bind_run, get_run]
  cases (s.mem d (v / nEntries)).present with
  | none => rfl
  | some pde =>
    simp only [pure_run, map_some, bind_run, get_run]
    cases (s.mem pde.page (v % nEntries)).present with
    | none => rfl
    | some pte =>
      simp only [ite_run]
      split
      next => rfl
      next => simp only [bind_run]; cases kfree k pte.page s <;> rfl

/-- The same for the loop over addresses. -/
lemma Uint.deallocLoop_run {v : Nat} (ha : a.toNat = v * pgSize) (rounds : Nat) :
    Uint.deallocLoop k d oldsz (rounds + 1) a s =
      if a < oldsz then
        match s.tableAt d (v / nEntries) with
        | none =>
          Uint.deallocLoop k d oldsz rounds (pgaddr (pdx a + 1) 0 0 - pgSize32 + pgSize32) s
        | some _ => (unmapPage k d v >>= fun _ => Uint.deallocLoop k d oldsz rounds (a + pgSize32)) s
      else .ok true s := by
  have hpage : a.toNat / pgSize = v := by rw [ha, Nat.mul_div_cancel _ (by decide)]
  have hpdx : (pdx a).toNat = v / nEntries := by rw [toNat_pdx, hpage]; rfl
  have hptx : (ptx a).toNat = v % nEntries := by rw [toNat_ptx, hpage]; rfl
  rw [Uint.deallocLoop, ite_run, hpdx, hptx]
  refine if_congr Iff.rfl ?_ rfl
  unfold unmapPage Phys.tableAt
  simp only [bind_run, get_run]
  cases (s.mem d (v / nEntries)).present with
  | none => rfl
  | some pde =>
    simp only [map_some]
    cases (s.mem pde.page (v % nEntries)).present with
    | none => rfl
    | some pte =>
      simp only [ite_run]
      split
      next => rfl
      next => simp only [bind_run]; cases kfree k pte.page s <;> rfl

lemma Uint.deallocLoop_eq (fails : Nat → Bool) (hle : oldsz.toNat ≤ kernBase)
    {v rounds : Nat} (ha : a.toNat = v * pgSize) (hrounds : pgUp oldsz.toNat - v ≤ rounds) :
    Uint.deallocLoop k d oldsz rounds a s =
      (Vm.deallocLoop k fails d (pgUp oldsz.toNat) v >>= fun _ => pure true) s := by
  induction rounds generalizing a v s with
  | zero =>
    have hend : ¬ v < pgUp oldsz.toNat := by omega
    have hge : ¬ a < oldsz := fun hlt => hend ((lt_pgUp_iff ha).mp hlt)
    rw [bind_run, Vm.deallocLoop_run, if_neg hend, Uint.deallocLoop, decide_eq_true hge]
  | succ rounds ih =>
    rw [bind_run, Vm.deallocLoop_run, Uint.deallocLoop_run ha]
    by_cases hlt : a < oldsz
    · rw [if_pos hlt, if_pos ((lt_pgUp_iff ha).mp hlt)]
      have hk : a.toNat < kernBase := hlt.trans_le hle
      have hpage : a.toNat / pgSize = v := by rw [ha, Nat.mul_div_cancel _ (by decide)]
      cases s.tableAt d (v / nEntries) with
      | none =>
        have hjump := toNat_jump hk
        rw [hpage] at hjump
        have hnext := lt_nextTable v
        exact ih hjump (by omega)
      | some t =>
        have hnext : (a + pgSize32).toNat = (v + 1) * pgSize := by
          rw [toNat_nextPage hk, ha, Nat.succ_mul]
        simp only [bind_run]
        cases unmapPage k d v s with
        | ok _ s₁ => exact ih hnext (by omega)
        | error e s₁ => rfl
    · rw [if_neg hlt, if_neg fun h => hlt ((lt_pgUp_iff ha).mpr h)]
      rfl

/-! ### Page by page -/

lemma unmapPages_append (vs ws : List Nat) :
    unmapPages k d (vs ++ ws) s = (unmapPages k d vs >>= fun _ => unmapPages k d ws) s := by
  induction vs generalizing s with
  | nil => rfl
  | cons v vs ih =>
    simp only [List.cons_append, unmapPages, bind_run]
    cases unmapPage k d v s with
    | ok _ s₁ => exact ih
    | error e s₁ => rfl

lemma unmapPages_absent {vs : List Nat} (h : ∀ v ∈ vs, s.tableAt d (v / nEntries) = none) :
    unmapPages k d vs s = .ok () s := by
  induction vs with
  | nil => rfl
  | cons v vs ih =>
    have hnone : (s.mem d (v / nEntries)).present = none :=
      Option.map_eq_none_iff.mp (h v (mem_cons_self ..))
    have hrun : unmapPage k d v s = .ok () s := by
      unfold unmapPage
      simp only [bind_run, get_run, hnone]
      rfl
    rw [unmapPages, bind_run, hrun]
    exact ih fun w hw => h w (List.mem_cons_of_mem v hw)

/-- The pages that the jump passes by have no page table. -/
lemma deallocLoop_eq (hi v : Nat) : deallocLoop k fails d hi v s = unmapPages k d (range' v (hi - v)) s := by
  -- the induction is on the number of pages that are left
  induction hm : hi - v using Nat.strongRecOn generalizing v s with
  | ind m ih =>
    subst hm
    rw [deallocLoop_run]
    by_cases hlt : v < hi
    · rw [if_pos hlt]
      cases hat : s.tableAt d (v / nEntries) with
      | none =>
        have hnext := lt_nextTable v
        generalize hw : (v / nEntries + 1) * nEntries = w at hnext
        have hsplit : range' v (hi - v) =
            range' v (min w hi - v) ++ range' w (hi - w) := by
          by_cases hw : w ≤ hi
          · have hlen : hi - v = w - v + (hi - w) := by omega
            have hstart : v + 1 * (w - v) = w := by omega
            rw [Nat.min_eq_left hw, hlen, ← List.range'_append, hstart]
          · rw [Nat.min_eq_right (by omega), Nat.sub_eq_zero_of_le (by omega : hi ≤ w)]
            exact (List.append_nil _).symm
        have hskip : unmapPages k d (range' v (min w hi - v)) s = .ok () s := by
          refine unmapPages_absent fun u hu => ?_
          rw [List.mem_range'_1] at hu
          have hsame : u / nEntries = v / nEntries :=
            Nat.le_antisymm (Nat.le_of_lt_succ (Nat.div_lt_of_lt_mul (by rw [Nat.mul_comm, hw]; omega)))
              (Nat.div_le_div_right hu.1)
          rw [hsame, hat]
        show deallocLoop k fails d hi w s = _
        rw [hsplit, unmapPages_append, bind_run, hskip]
        exact ih _ (by omega) w rfl
      | some t =>
        obtain ⟨n, hn⟩ : ∃ n, hi - v = n + 1 := ⟨hi - v - 1, by omega⟩
        have hrest : hi - (v + 1) = n := by omega
        rw [hn, List.range'_succ, unmapPages, bind_run, bind_run]
        cases unmapPage k d v s with
        | ok _ s₁ => exact ih n (by omega) (v + 1) hrest
        | error e s₁ => rfl
    · rw [if_neg hlt, Nat.sub_eq_zero_of_le (not_lt.mp hlt)]
      rfl

/-! ### What it does -/

/-- The user half of a page directory is its own: its page tables are its own pages, one for each region,
and what is mapped is pages that can be freed, each of them once. -/
structure UserHalf (k : Image) (d : Page) (s : Phys) : Prop where
  freeable : ∀ {v p}, v < kernPage → s.userAt d v = some p → k.endPage ≤ p ∧ p < physStop
  mapped_inj : ∀ {v w p}, v < kernPage → w < kernPage → s.userAt d v = some p →
    s.userAt d w = some p → v = w
  mapped_ne_dir : ∀ {v}, v < kernPage → s.userAt d v ≠ some d
  mapped_ne_table : ∀ {v w p}, v < kernPage → w < kernPage → s.userAt d v = some p →
    s.tableAt d (w / nEntries) ≠ some p
  table_inj : ∀ {v w t}, v < kernPage → w < kernPage → s.tableAt d (v / nEntries) = some t →
    s.tableAt d (w / nEntries) = some t → v / nEntries = w / nEntries
  table_ne_dir : ∀ {v}, v < kernPage → s.tableAt d (v / nEntries) ≠ some d

/-- The pages of `vs` have been unmapped and freed, and nothing else has changed. -/
structure Unmaps (d : Page) (vs : List Nat) (s s' : Phys) : Prop where
  calls : s'.calls = s.calls
  freelist : s'.freelist = (vs.filterMap (s.userAt d)).reverse ++ s.freelist
  cleared : ∀ v ∈ vs, ∀ t p, s.tableAt d (v / nEntries) = some t → s.userAt d v = some p →
    s'.mem t (v % nEntries) = .other 0
  frame : ∀ q i, q ∉ vs.filterMap (s.userAt d) →
    (∀ v ∈ vs, ∀ p, s.tableAt d (v / nEntries) = some q → s.userAt d v = some p → v % nEntries ≠ i) →
    s'.mem q i = s.mem q i

namespace UserHalf

variable {s' : Phys} {v w : Nat} {t p : Page}

/-- With only pages taken away the rest stays the user half's own. -/
lemma of_sub (h : UserHalf k d s)
    (htable : ∀ w < kernPage, s'.tableAt d (w / nEntries) = s.tableAt d (w / nEntries))
    (huser : ∀ w p, w < kernPage → s'.userAt d w = some p → s.userAt d w = some p) : UserHalf k d s' where
  freeable hv hp := h.freeable hv (huser _ _ hv hp)
  mapped_inj hv hw hp hp' := h.mapped_inj hv hw (huser _ _ hv hp) (huser _ _ hw hp')
  mapped_ne_dir hv hp := h.mapped_ne_dir hv (huser _ _ hv hp)
  mapped_ne_table hv hw hp ht := h.mapped_ne_table hv hw (huser _ _ hv hp) ((htable _ hw).symm.trans ht)
  table_inj hv hw ht ht' := h.table_inj hv hw ((htable _ hv).symm.trans ht) ((htable _ hw).symm.trans ht')
  table_ne_dir hv ht := h.table_ne_dir hv ((htable _ hv).symm.trans ht)

/-- A page that is there is freed and its entry cleared. -/
lemma unmapPage_run (h : UserHalf k d s) (hv : v < kernPage)
    (ht : s.tableAt d (v / nEntries) = some t) (hp : s.userAt d v = some p) :
    Vm.unmapPage k d v s = .ok () { s with
      freelist := p :: s.freelist
      mem := update (update s.mem p junk) t
        (update (s.mem t) (v % nEntries) (.other 0)) } := by
  have hfree := h.freeable hv hp
  have hpos := k.extMem_lt.trans_le k.data_le
  have htp : t ≠ p := fun heq => h.mapped_ne_table hv hv hp (heq ▸ ht)
  have hentry := hp
  rw [Phys.userAt, ht, bind_some] at hentry
  obtain ⟨pde, hpde, rfl⟩ := Option.map_eq_some_iff.mp ht
  obtain ⟨pte, hpte, rfl⟩ := Option.map_eq_some_iff.mp hentry
  have hnonzero : pte.page ≠ 0 :=
    ((Nat.lt_of_le_of_lt zero_le hpos).trans_le hfree.1).ne'
  have hmanaged : ¬ (pte.page < k.endPage ∨ physStop ≤ pte.page) :=
    not_or.mpr ⟨hfree.1.not_gt, hfree.2.not_ge⟩
  unfold Vm.unmapPage kfree setEntry
  simp only [bind_run, get_run, hpde, hpte, if_neg hnonzero, if_neg hmanaged, set_run,
    update_of_ne htp]

lemma unmapPage (h : UserHalf k d s) (hv : v < kernPage) :
    ∃ s', Vm.unmapPage k d v s = .ok () s' ∧ Unmaps d [v] s s' ∧
      (∀ w < kernPage, s'.tableAt d (w / nEntries) = s.tableAt d (w / nEntries)) ∧
      ∀ w < kernPage, s'.userAt d w = if w = v then none else s.userAt d w := by
  cases hp : s.userAt d v with
  | none =>
    refine ⟨s, ?_, ?_, fun w _ => rfl, fun w _ => ?_⟩
    · unfold Vm.unmapPage
      simp only [bind_run, get_run]
      cases hpde : (s.mem d (v / nEntries)).present with
      | none => rfl
      | some pde =>
        rw [Phys.userAt, Phys.tableAt, hpde, map_some, bind_some, Phys.tableAt,
          Option.map_eq_none_iff] at hp
        simp only [hp]
        rfl
    · refine ⟨rfl, ?_, fun w hw t p _ hp' => ?_, fun q i _ _ => rfl⟩
      · rw [List.filterMap_cons_none hp]
        rfl
      · rw [List.mem_singleton.mp hw, hp] at hp'
        cases hp'
    · split
      next heq => rw [heq, hp]
      next => rfl
  | some p =>
    obtain ⟨t, ht, -⟩ := Option.bind_eq_some_iff.mp hp
    refine ⟨_, h.unmapPage_run hv ht hp, ?_, ?_⟩
    · refine ⟨rfl, ?_, fun w hw t' p' ht' _ => ?_, fun q i hq hi => ?_⟩
      · rw [List.filterMap_cons_some hp]
        rfl
      · rw [List.mem_singleton.mp hw, ht] at ht'
        cases ht'
        rw [List.mem_singleton.mp hw]
        simp only [update_self]
      · have hqp : q ≠ p := fun heq => hq (by rw [List.filterMap_cons_some hp, heq]; exact mem_cons_self ..)
        by_cases hqt : q = t
        · subst hqt
          have hne := hi v (List.mem_singleton_self v) p ht hp
          simp only [update_self, update_of_ne hne.symm]
        · simp only [update_of_ne hqt, update_of_ne hqp]
    · -- the directory is neither the page nor the table, and a table is not the page
      have hdp : d ≠ p := fun heq => h.mapped_ne_dir hv (heq ▸ hp)
      have hdt : d ≠ t := fun heq => h.table_ne_dir hv (heq ▸ ht)
      have hdir : ∀ w < kernPage, Phys.tableAt { s with
          freelist := p :: s.freelist
          mem := update (update s.mem p junk) t
            (update (s.mem t) (v % nEntries) (.other 0)) } d (w / nEntries) =
          s.tableAt d (w / nEntries) := fun w _ => by
        simp only [Phys.tableAt, update_of_ne hdt, update_of_ne hdp]
      refine ⟨hdir, fun w hw => ?_⟩
      rw [Phys.userAt, hdir w hw, Phys.userAt]
      cases ht' : s.tableAt d (w / nEntries) with
      | none => exact (ite_self none).symm
      | some t' =>
        have htp' : t' ≠ p := fun heq => h.mapped_ne_table hv hw hp (heq ▸ ht')
        rw [bind_some, bind_some]
        by_cases heq : w = v
        · rw [heq] at ht' ⊢
          rw [ht] at ht'
          cases ht'
          simp only [Phys.tableAt, update_self, Word.present_other, Option.map_none, if_true]
        · rw [if_neg heq]
          by_cases htt : t' = t
          · subst htt
            have hreg := h.table_inj hw hv ht' ht
            have hmod : w % nEntries ≠ v % nEntries := fun hmod => heq (by
              rw [← Nat.div_add_mod w nEntries, ← Nat.div_add_mod v nEntries, hreg, hmod])
            simp only [Phys.tableAt, update_self, update_of_ne hmod]
          · simp only [Phys.tableAt, update_of_ne htt, update_of_ne htp']

lemma unmapPages (h : UserHalf k d s) {vs : List Nat} (hvs : ∀ v ∈ vs, v < kernPage)
    (hnodup : vs.Nodup) : ∃ s', Vm.unmapPages k d vs s = .ok () s' ∧ Unmaps d vs s s' := by
  induction vs generalizing s with
  | nil => exact ⟨s, rfl, rfl, rfl, nofun, fun _ _ _ _ => rfl⟩
  | cons v vs ih =>
    have hv : v < kernPage := hvs v (mem_cons_self ..)
    have hvs' : ∀ w ∈ vs, w < kernPage := fun w hw => hvs w (List.mem_cons_of_mem v hw)
    obtain ⟨hnot, hnodup'⟩ := List.nodup_cons.mp hnodup
    obtain ⟨s₁, hrun₁, hone, htable, huser⟩ := h.unmapPage hv
    have hsame : ∀ w ∈ vs, s₁.userAt d w = s.userAt d w := fun w hw => by
      rw [huser w (hvs' w hw), if_neg (ne_of_mem_of_not_mem hw hnot)]
    have h₁ : UserHalf k d s₁ := h.of_sub htable fun w p hw hp => by
      rw [huser w hw] at hp
      split at hp
      next => cases hp
      next => exact hp
    obtain ⟨s₂, hrun₂, hrest⟩ := ih h₁ hvs' hnodup'
    have hlist : vs.filterMap (s₁.userAt d) = vs.filterMap (s.userAt d) := List.filterMap_congr hsame
    have hfreed : (v :: vs).filterMap (s.userAt d) =
        [v].filterMap (s.userAt d) ++ vs.filterMap (s.userAt d) := List.filterMap_append (l := [v])
    refine ⟨s₂, ?_, hrest.calls.trans hone.calls, ?_, ?_, ?_⟩
    · rw [Vm.unmapPages, bind_run, hrun₁]
      exact hrun₂
    · rw [hrest.freelist, hone.freelist, hlist, hfreed, List.reverse_append, List.append_assoc]
    · intro w hw t p ht hp
      cases List.mem_cons.mp hw with
      | inl heq =>
        -- the entry is not one of those that are cleared later
        subst heq
        rw [← hone.cleared w (List.mem_singleton_self w) t p ht hp]
        refine hrest.frame t _ (fun hmem => ?_) fun u hu p' ht' _ hmod => ?_
        · obtain ⟨u, hu, hp'⟩ := List.mem_filterMap.mp hmem
          exact h₁.mapped_ne_table (hvs' u hu) hv hp' ((htable w hv).trans ht)
        · have hreg := h₁.table_inj (hvs' u hu) hv ht' ((htable w hv).trans ht)
          refine ne_of_mem_of_not_mem hu hnot ?_
          rw [← Nat.div_add_mod u nEntries, ← Nat.div_add_mod w nEntries, hreg, hmod]
      | inr hmem =>
        exact hrest.cleared w hmem t p ((htable w (hvs' w hmem)).trans ht) ((hsame w hmem).trans hp)
    · intro q i hq hi
      rw [hfreed, List.mem_append, not_or] at hq
      rw [hrest.frame q i (by rw [hlist]; exact hq.2) fun u hu p ht hp =>
        hi u (List.mem_cons_of_mem v hu) p ((htable u (hvs' u hu)).symm.trans ht)
          ((hsame u hu).symm.trans hp)]
      exact hone.frame q i hq.1 fun u hu p ht hp => by
        rw [List.mem_singleton.mp hu] at ht hp ⊢
        exact hi v (mem_cons_self ..) p ht hp

end UserHalf

/-! ### `deallocuvm` -/

lemma mem_growRange_mul {a b v : Nat} : v ∈ growRange a b ↔ pgUp a * pgSize ≤ v * pgSize ∧ v * pgSize < b := by
  rw [growRange, List.mem_range'_1]
  unfold pgUp pgSize
  omega

lemma growRange_lt_kernPage {a b v : Nat} (hb : b ≤ kernBase) (hv : v ∈ growRange a b) : v < kernPage := by
  have hlt := (mem_growRange_mul.mp hv).2
  unfold kernBase at hb
  unfold pgSize at hlt
  unfold kernPage
  omega

lemma Uint.deallocuvm_eq {oldsz newsz : UInt32} (hle : oldsz.toNat ≤ kernBase) {rounds : Nat}
    (hrounds : kernPage ≤ rounds) : Uint.deallocuvm k d oldsz newsz rounds s =
      (unmapPages k d (growRange newsz.toNat oldsz.toNat) >>= fun _ =>
        pure (some (if newsz < oldsz then newsz else oldsz))) s := by
  unfold Uint.deallocuvm
  by_cases hlt : newsz < oldsz
  · have hup : (pgRoundUp newsz).toNat = pgUp newsz.toNat * pgSize := by
      refine toNat_pgRoundUp ?_
      have := UInt32.lt_iff_toNat_lt.mp hlt
      unfold kernBase at hle
      omega
    have hfew : pgUp oldsz.toNat - pgUp newsz.toNat ≤ rounds := by
      have := pgUp_le_kernPage hle
      omega
    rw [if_neg (UInt32.not_le.mpr hlt), if_pos hlt, bind_run,
      Uint.deallocLoop_eq (fun _ => false) hle hup hfew, bind_run, Vm.deallocLoop_eq, bind_run]
    unfold growRange
    cases unmapPages k d _ s <;> rfl
  · have hge : oldsz ≤ newsz := UInt32.not_lt.mp hlt
    have hnone : growRange newsz.toNat oldsz.toNat = [] := by
      have := pgUp_mono (UInt32.le_iff_toNat_le.mp hge)
      rw [growRange, Nat.sub_eq_zero_of_le this]
      rfl
    rw [if_pos hge, if_neg hlt, hnone]
    rfl

/-- In every memory `deallocuvm` is the loop that unmaps page by page; and in a page directory with a user
half of its own it frees the pages that are mapped at page addresses in `[PGROUNDUP(newsz), oldsz)`, each
of them once, clears their entries, and leaves the rest of memory as it was. -/
theorem deallocuvm_page_by_page (k : Image) (d : Page) (oldsz newsz : UInt32)
    (hle : oldsz.toNat ≤ kernBase) {rounds : Nat} (hrounds : kernPage ≤ rounds) :
    (∀ s, Uint.deallocuvm k d oldsz newsz rounds s =
      (unmapPages k d (growRange newsz.toNat oldsz.toNat) >>= fun _ =>
        pure (some (if newsz < oldsz then newsz else oldsz))) s) ∧
    ∀ s, UserHalf k d s →
      ((growRange newsz.toNat oldsz.toNat).filterMap (s.userAt d)).Nodup ∧
      ∃ s', Uint.deallocuvm k d oldsz newsz rounds s =
          .ok (some (if newsz < oldsz then newsz else oldsz)) s' ∧
        Unmaps d (growRange newsz.toNat oldsz.toNat) s s' := by
  refine ⟨fun s => Uint.deallocuvm_eq hle hrounds, fun s h => ?_⟩
  have hlt : ∀ v ∈ growRange newsz.toNat oldsz.toNat, v < kernPage :=
    fun v hv => growRange_lt_kernPage hle hv
  have hnodup : (growRange newsz.toNat oldsz.toNat).Nodup := List.nodup_range'
  obtain ⟨s', hrun, hunmaps⟩ := h.unmapPages hlt hnodup
  refine ⟨?_, s', ?_, hunmaps⟩
  · refine List.pairwise_filterMap.mpr (hnodup.imp_of_mem fun {v w} hv hw hne p hp p' hp' heq => ?_)
    exact hne (h.mapped_inj (hlt v hv) (hlt w hw) hp (heq ▸ hp'))
  · rw [Uint.deallocuvm_eq hle hrounds, bind_run, hrun]
    rfl

/-- Memory with a page directory at `0x500` that has one page table and one page, at address `0x1000`. -/
def onePage : Phys where
  freelist := []
  mem p i :=
    if p = 0x500 ∧ i = 0 then .entry ⟨0x501, pteWU⟩
    else if p = 0x501 ∧ i = 1 then .entry ⟨0x502, pteWU⟩
    else .other 0
  calls := 0

lemma onePage_tableAt (i : Nat) : onePage.tableAt 0x500 i = if i = 0 then some 0x501 else none := by
  by_cases hi : i = 0
  · subst hi
    rfl
  · simp [Phys.tableAt, onePage, hi]

lemma onePage_userAt (v : Nat) : onePage.userAt 0x500 v = if v = 1 then some 0x502 else none := by
  rw [Phys.userAt, onePage_tableAt]
  by_cases hdir : v / nEntries = 0
  · have hv : v % nEntries = v := Nat.mod_eq_of_lt (Nat.lt_of_div_eq_zero (by decide) hdir)
    rw [if_pos hdir, bind_some, hv]
    by_cases hone : v = 1
    · subst hone
      rfl
    · simp [Phys.tableAt, onePage, hone]
  · have hone : v ≠ 1 := fun heq => hdir (by rw [heq]; rfl)
    rw [if_neg hdir, if_neg hone]
    rfl

lemma onePage_userHalf (k : Image) (hk : k.endPage ≤ 0x500) : UserHalf k 0x500 onePage := by
  have huser : ∀ {v p}, onePage.userAt 0x500 v = some p → v = 1 ∧ p = 0x502 := fun {v p} hp => by
    rw [onePage_userAt] at hp
    split at hp
    next hv => exact ⟨hv, (Option.some.inj hp).symm⟩
    next => cases hp
  have htable : ∀ {i t}, onePage.tableAt 0x500 i = some t → i = 0 ∧ t = 0x501 := fun {i t} ht => by
    rw [onePage_tableAt] at ht
    split at ht
    next hi => exact ⟨hi, (Option.some.inj ht).symm⟩
    next => cases ht
  refine ⟨fun _ hp => ?_, fun _ _ hp hp' => ?_, fun _ hp => ?_, fun _ _ hp ht => ?_,
    fun _ _ ht ht' => ?_, fun _ ht => ?_⟩
  · rw [(huser hp).2]
    exact ⟨hk.trans (by decide), by decide⟩
  · rw [(huser hp).1, (huser hp').1]
  · exact absurd (huser hp).2 (by decide)
  · exact absurd ((huser hp).2.symm.trans (htable ht).2) (by decide)
  · rw [(htable ht).1, (htable ht').1]
  · exact absurd (htable ht).2 (by decide)

theorem deallocuvm_page_by_page_onePage : ∃ s',
    Uint.deallocuvm smallKernel 0x500 0x2000 0x10 kernPage onePage = .ok (some 0x10) s' ∧
      s'.freelist = [0x502] ∧ s'.mem 0x501 1 = .other 0 := by
  obtain ⟨-, s', hrun, hunmaps⟩ := (deallocuvm_page_by_page smallKernel 0x500 0x2000 0x10 (by decide)
    (Nat.le_refl kernPage)).2 onePage (onePage_userHalf _ (by decide))
  exact ⟨s', hrun, hunmaps.freelist, hunmaps.cleared 1 (by decide) 0x501 0x502 rfl rfl⟩

end Xv6.Vm
