import Xv6.Vm.Calls

/-!
# `copyuvm`

`copyuvm` walks over the pages below `sz`, which for an LWP is the top of its stack. A page that is not
present is left out. A page table that is not present stops the kernel: `walkpgdir` returns 0, and the
message says that the entry should exist. Between the heap and the stack of an LWP whole page tables can
be missing, so that this is not a state that cannot be (`Xv6.Vm.CopySafe`).
-/

namespace Xv6.Vm

open Function (update update_self update_of_ne)

open Lib
open Process (pgUp)

variable {k : Image} {fails : Nat → Bool} {own own' : Page → Place} {s s' : Phys} {d d' p t : Page}
  {v n : Nat}

/-! ### The pages that are copied -/

/-- The virtual pages from `a` up to `b` that are mapped. -/
def mapped (s : Phys) (d : Page) (a b : Nat) : Finset Nat :=
  (Finset.Ico a b).filter fun w => (s.pteAt d w).isSome

variable {a b w : Nat}

lemma mem_mapped : w ∈ mapped s d a b ↔ (a ≤ w ∧ w < b) ∧ (s.pteAt d w).isSome := by
  rw [mapped, Finset.mem_filter, Finset.mem_Ico]

lemma mapped_self (a : Nat) : mapped s d a a = ∅ := by
  rw [mapped, Finset.Ico_self, Finset.filter_empty]

lemma mapped_of_none (h : s.pteAt d v = none) : mapped s d v b = mapped s d (v + 1) b := by
  ext w
  rw [mem_mapped, mem_mapped]
  refine and_congr_left fun hw => ?_
  have hne : w ≠ v := fun heq => by
    rw [heq, h] at hw
    cases hw
  omega

lemma mapped_of_some (hv : v < b) (h : s.pteAt d v ≠ none) : mapped s d v b = {v} ∪ mapped s d (v + 1) b := by
  ext w
  rw [Finset.mem_union, Finset.mem_singleton, mem_mapped, mem_mapped]
  by_cases hw : w = v
  · have hsome := Option.isSome_iff_ne_none.mpr h
    simp [hw, hv, hsome]
  · rw [or_iff_right hw]
    refine and_congr_left fun _ => ?_
    omega

lemma card_mapped_of_some (hv : v < b) (h : s.pteAt d v ≠ none) :
    (mapped s d v b).card = 1 + (mapped s d (v + 1) b).card := by
  rw [mapped_of_some hv h, Finset.card_union_of_disjoint, Finset.card_singleton]
  rw [Finset.disjoint_singleton_left, mem_mapped]
  omega

lemma tables_mapped_of_some (hv : v < b) (h : s.pteAt d v ≠ none) : (mapped s d v b).image (· / nEntries) =
      {v / nEntries} ∪ (mapped s d (v + 1) b).image (· / nEntries) := by
  rw [mapped_of_some hv h, Finset.image_union, Finset.image_singleton]

lemma mapped_congr (h : ∀ w, a ≤ w → w < b → s'.pteAt d w = s.pteAt d w) : mapped s' d a b = mapped s d a b := by
  ext w
  rw [mem_mapped, mem_mapped]
  refine and_congr_right fun hw => ?_
  rw [h w hw.1 hw.2]

/-- The pages from `a` up to `b` have been copied from `d` to `d'`. -/
structure Copied (fails : Nat → Bool) (own : Page → Place) (d d' : Page) (a b : Nat) (s s' : Phys) :
    Prop where
  grows : Grows fails own d' (mapped s d a b).card ((mapped s d a b).image (· / nEntries))
    (mapped s d a b) s s'
  pages : ∀ w, a ≤ w → w < b → ∀ e ∈ s.pteAt d w,
    ∃ p, s'.pteAt d' w = some ⟨p, e.flags⟩ ∧ s'.mem p = s.mem e.page

/-- Memory runs out when the pages from `a` to `u` are copied, before a page table is missing. -/
def CopyFails (fails : Nat → Bool) (d d' : Page) (a b : Nat) (s : Phys) : Prop :=
  ∃ u, a ≤ u ∧ u < b ∧ (∀ w, a ≤ w → w ≤ u → s.tableAt d (w / nEntries) ≠ none) ∧
    RunsOut fails s d' (mapped s d a (u + 1)).card ((mapped s d a (u + 1)).image (· / nEntries))

/-- Memory lasts up to `u`, and the page table for `u` is missing. -/
def CopyGap (fails : Nat → Bool) (d d' : Page) (a b : Nat) (s : Phys) : Prop :=
  ∃ u, a ≤ u ∧ u < b ∧ s.tableAt d (u / nEntries) = none ∧
    Enough fails s d' (s.tabs d' ∪ (mapped s d a u).image (· / nEntries)) (mapped s d a u).card

/-! ### One page -/

lemma Copied.skip (h : Copied fails own d d' (v + 1) n s s') (hnone : s.pteAt d v = none) :
    Copied fails own d d' v n s s' where
  grows := by
    rw [mapped_of_none hnone]
    exact h.grows
  pages w hlo hhi e he := by
    refine h.pages w (Nat.lt_of_le_of_ne hlo fun heq => ?_) hhi e he
    rw [← heq, hnone] at he
    cases he

lemma CopyFails.skip (h : CopyFails fails d d' (v + 1) n s) (htab : s.tableAt d (v / nEntries) ≠ none)
    (hnone : s.pteAt d v = none) : CopyFails fails d d' v n s := by
  obtain ⟨u, hlo, hhi, hall, hout⟩ := h
  refine ⟨u, by omega, hhi, fun w hvw hwu => ?_, by rwa [mapped_of_none hnone]⟩
  by_cases hw : w = v
  · rw [hw]
    exact htab
  · exact hall w (by omega) hwu

lemma CopyFails.here (hv : v < n) (htab : s.tableAt d (v / nEntries) ≠ none)
    (hpte : s.pteAt d v ≠ none) (hout : RunsOut fails s d' 1 {v / nEntries}) : CopyFails fails d d' v n s := by
  refine ⟨v, Nat.le_refl v, hv, fun w hvw hwv => ?_, ?_⟩
  · rw [Nat.le_antisymm hwv hvw]
    exact htab
  · rw [card_mapped_of_some (Nat.lt_succ_self v) hpte, tables_mapped_of_some (Nat.lt_succ_self v) hpte]
    exact hout.mono (Nat.le_add_right 1 _) Finset.subset_union_left

lemma CopyGap.skip (h : CopyGap fails d d' (v + 1) n s) (hnone : s.pteAt d v = none) :
    CopyGap fails d d' v n s := by
  obtain ⟨u, hlo, hhi, hmissing, henough⟩ := h
  exact ⟨u, by omega, hhi, hmissing, by rwa [mapped_of_none hnone]⟩

variable {u : Nat} {s'' : Phys} {e : Entry}

section

variable {b : Nat} (hd : own d = .dir d) (hdd : d ≠ d') (hb : b ≤ kernPage)
  (hpte : s.pteAt d v ≠ none) (hgrow : Grows fails own d' 1 {v / nEntries} {v} s s')

include hd hdd hb hgrow

lemma Grows.pte_source (hw : w < b) : s'.pteAt d w = s.pteAt d w :=
  hgrow.pte d w hd ((hw.trans_le hb).trans_le (by decide)) fun heq => absurd heq hdd

lemma Grows.mapped_eq (hu : u ≤ b) : mapped s' d (v + 1) u = mapped s d (v + 1) u :=
  mapped_congr fun _ _ hw => hgrow.pte_source hd hdd hb (hw.trans_le hu)

include hpte

lemma CopyFails.copy (h : CopyFails fails d d' (v + 1) b s')
    (htab : s.tableAt d (v / nEntries) ≠ none) : CopyFails fails d d' v b s := by
  obtain ⟨u, hlo, hhi, hall, hout⟩ := h
  refine ⟨u, by omega, hhi, fun w hvw hwu => ?_, ?_⟩
  · by_cases hw : w = v
    · rw [hw]
      exact htab
    · rw [← hgrow.table d _ hd hdd]
      exact hall w (by omega) hwu
  · have hbefore := hgrow.runsOut hout
    rwa [hgrow.mapped_eq hd hdd hb hhi, ← card_mapped_of_some (by omega) hpte,
      ← tables_mapped_of_some (by omega) hpte] at hbefore

lemma CopyGap.copy (h : CopyGap fails d d' (v + 1) b s') : CopyGap fails d d' v b s := by
  obtain ⟨u, hlo, hhi, hmissing, henough⟩ := h
  have hvu : v < u := hlo
  refine ⟨u, by omega, hhi, by rwa [← hgrow.table d _ hd hdd], ?_⟩
  have htables : s'.tabs d' ∪ (mapped s' d (v + 1) u).image (· / nEntries) =
      s.tabs d' ∪ (mapped s d v u).image (· / nEntries) := by
    rw [hgrow.tabs, hgrow.mapped_eq hd hdd hb hhi.le, tables_mapped_of_some hvu hpte,
      Finset.union_assoc]
  rw [htables, hgrow.mapped_eq hd hdd hb hhi.le, hgrow.enough _ _ ?_, Nat.add_comm,
    ← card_mapped_of_some hvu hpte] at henough
  · exact henough
  · rw [tables_mapped_of_some hvu hpte, Finset.union_left_comm]
    exact Finset.subset_union_left

lemma Copied.copy (h : Copied fails own' d d' (v + 1) b s' s'')
    (hv : v < b) (hown : Owns k own s) (hsettled : Settled own own') (hd' : own' d' = .dir d')
    (hp : own' p = .user d' v) (he : s.pteAt d v = some e) (hnew : s'.pteAt d' v = some ⟨p, e.flags⟩)
    (hmem : s'.mem p = s.mem e.page) : Copied fails own d d' v b s s'' where
  grows := by
    have hall := hgrow.trans h.grows hsettled
    rwa [hgrow.mapped_eq hd hdd hb le_rfl, ← card_mapped_of_some hv hpte,
      ← tables_mapped_of_some hv hpte, ← mapped_of_some hv hpte] at hall
  pages w hlo hhi e' he' := by
    by_cases hw : w = v
    · -- the entry just made is not touched again
      rw [hw, he] at he'
      cases he'
      have hnot : v ∉ mapped s' d (v + 1) b := fun hmem => by
        have := (mem_mapped.mp hmem).1
        omega
      refine ⟨p, ?_, ?_⟩
      · rw [hw, h.grows.pte d' v hd' ((hv.trans_le hb).trans_le (by decide)) fun _ => hnot, hnew]
      · rw [h.grows.data p (by rw [hp]; exact Place.plain_user d' v) (by rw [hp]; exact nofun), hmem]
    · have hplace : own e'.page = .user d w := by
        refine (hown.user d w _).mpr ⟨hd, hhi.trans_le hb, ?_⟩
        rw [Phys.userAt_eq_pteAt, show s.pteAt d w = some e' from he']
        rfl
      rw [← hgrow.pte_source hd hdd hb hhi] at he'
      obtain ⟨q, hq, hqmem⟩ := h.pages w (by omega) hhi e' he'
      refine ⟨q, hq, hqmem.trans ?_⟩
      exact hgrow.data _ (by rw [hplace]; exact Place.plain_user d w) (by rw [hplace]; exact nofun)

end

/-! ### The loop -/

variable {E : Panic → Phys → Prop}

lemma freevm_back (h : Owns k own s) (hd : own d = .dir d) {own₀ : Page → Place} {s₀ : Phys}
    (hstay : Stays own₀ own) (hkeep : Keeps own₀ s₀ s) :
    wp (do freevm k fails (some d); return (none : Option Page)) s (fun r s' => r = none ∧ ∃ own',
      Stays own₀ own' ∧ Owns k (freed d own') s' ∧ KeepsBut d own₀ s₀ s') E := by
  refine (freevm_spec h hd).seq fun _ s' ⟨h', hbut, _⟩ => ?_
  exact ⟨rfl, own, hstay, h', hkeep.trans_but hbut hstay.kernel⟩

lemma mappages_remap (hk : s.HasKernel d) (perm : Nat) {Q : Bool → Phys → Prop}
    (hE : ∀ e s', E e s') : wp (mappages fails d perm 1 kernPage p) s Q E := by
  obtain ⟨t, hat, hne⟩ := hk
  obtain ⟨pde, hpde, hpage⟩ := Option.map_eq_some_iff.mp hat
  obtain ⟨e, he⟩ := Option.ne_none_iff_exists'.mp hne
  rw [mappages]
  simp only [walkpgdir, wp_bind, wp_get, hpde, wp_pure, hpage, he]
  exact hE _ _

/-- What the loop leaves when it returns `r`: a complete copy, or a directory that is freed again. -/
def CopyEnd (k : Image) (fails : Nat → Bool) (own : Page → Place) (d d' : Page) (a b : Nat) (s : Phys)
    (r : Option Page) (s' : Phys) : Prop :=
  ∃ own', Stays own own' ∧ match r with
    | none => Owns k (freed d' own') s' ∧ KeepsBut d' own s s' ∧
        (b ≤ kernPage → CopyFails fails d d' a b s)
    | some e => e = d' ∧ Owns k own' s' ∧ Keeps own s s' ∧ (b ≤ kernPage →
        (∀ w, a ≤ w → w < b → s.tableAt d (w / nEntries) ≠ none) ∧ Copied fails own d d' a b s s')

/-- The panics of the loop that are allowed: below the kernel, and into a directory that has no page there,
a missing page table. -/
def CopyMay (fails : Nat → Bool) (d d' : Page) (a b : Nat) (s : Phys) (E : Panic → Phys → Prop) : Prop :=
  (b ≤ kernPage ∧ (∀ w, a ≤ w → w < b → s.pteAt d' w = none) ∧
    (CopyGap fails d d' a b s → ∀ s', E .noPte s')) ∨ ∀ e s', E e s'

section

variable {b : Nat} {r : Option Page} {E : Panic → Phys → Prop}

lemma CopyMay.skip (h : CopyMay fails d d' v b s E) (hpte : s.pteAt d v = none) :
    CopyMay fails d d' (v + 1) b s E :=
  h.imp_left fun ⟨hle, hfresh, hgap⟩ =>
    ⟨hle, fun w hlo hhi => hfresh w (by omega) hhi, fun hrest => hgap (hrest.skip hpte)⟩

lemma CopyEnd.skip (h : CopyEnd k fails own d d' (v + 1) b s r s')
    (htab : s.tableAt d (v / nEntries) ≠ none) (hpte : s.pteAt d v = none) :
    CopyEnd k fails own d d' v b s r s' := by
  obtain ⟨own', hstay, hr⟩ := h
  refine ⟨own', hstay, ?_⟩
  cases r with
  | none => exact ⟨hr.1, hr.2.1, fun hle => (hr.2.2 hle).skip htab hpte⟩
  | some e =>
    refine ⟨hr.1, hr.2.1, hr.2.2.1, fun hle => ?_⟩
    obtain ⟨hall, hcopied⟩ := hr.2.2.2 hle
    refine ⟨fun w hlo hhi => ?_, hcopied.skip hpte⟩
    by_cases hw : w = v
    · rw [hw]
      exact htab
    · exact hall w (by omega) hhi

variable (hd : own d = .dir d) (hdd : d ≠ d') (hpte : s.pteAt d v ≠ none)
  (hgrow : Grows fails own d' 1 {v / nEntries} {v} s s')

include hd hdd hpte hgrow

lemma CopyMay.copy (h : CopyMay fails d d' v b s E) (hd' : own d' = .dir d') :
    CopyMay fails d d' (v + 1) b s' E := by
  refine h.imp_left fun ⟨hle, hfresh, hgap⟩ => ⟨hle, fun w hlo hhi => ?_, fun hrest => ?_⟩
  · have hne : w ∉ ({v} : Finset Nat) := by
      rw [Finset.mem_singleton]
      omega
    rw [hgrow.pte d' w hd' ((hhi.trans_le hle).trans (by decide)) fun _ => hne]
    exact hfresh w (by omega) hhi
  · exact hgap (hrest.copy hd hdd hle hpte hgrow)

lemma CopyEnd.copy (h : CopyEnd k fails own' d d' (v + 1) b s' r s'')
    (hv : v < b) (htab : s.tableAt d (v / nEntries) ≠ none) (hown : Owns k own s) (hstay : Stays own own')
    (hkeep : Keeps own s s') (hsettled : Settled own own') (hd' : own d' = .dir d')
    (hp : own' p = .user d' v) (he : s.pteAt d v = some e) (hnew : s'.pteAt d' v = some ⟨p, e.flags⟩)
    (hmem : s'.mem p = s.mem e.page) : CopyEnd k fails own d d' v b s r s'' := by
  obtain ⟨own'', hstay', hr⟩ := h
  refine ⟨own'', hstay.trans hstay', ?_⟩
  cases r with
  | none =>
    exact ⟨hr.1, hkeep.trans_but hr.2.1 hstay.kernel, fun hle =>
      (hr.2.2 hle).copy hd hdd hle hpte hgrow htab⟩
  | some e =>
    refine ⟨hr.1, hr.2.1, hkeep.trans hr.2.2.1 hstay.kernel, fun hle => ?_⟩
    obtain ⟨hall, hcopied⟩ := hr.2.2.2 hle
    refine ⟨fun w hlo hhi => ?_, hcopied.copy hd hdd hle hpte hgrow hv hown hsettled
      (hstay.dir hd') hp he hnew hmem⟩
    by_cases hw : w = v
    · rw [hw]
      exact htab
    · rw [← hgrow.table d _ hd hdd]
      exact hall w (by omega) hhi

end

/-- The loop stops at the first page of the kernel at the latest. Below it, it stops where a page table is
missing, and nowhere else. -/
lemma copyLoop_spec (h : Owns k own s) (hd : own d = .dir d) (hd' : own d' = .dir d') (hdd : d ≠ d')
    (hk : s.HasKernel d) (hk' : s.HasKernel d') (hv : v ≤ kernPage) (hE : CopyMay fails d d' v (v + n) s E) :
    wp (copyLoop k fails d d' (List.range' v n)) s (CopyEnd k fails own d d' v (v + n) s) E := by
  induction n generalizing v own s with
  | zero =>
    refine ⟨own, .refl own, rfl, h, .of_mem rfl, fun _ => ⟨fun w hlo hhi => by omega, ?_, ?_⟩⟩
    · simpa [mapped_self] using Grows.refl own d' s
    · exact fun w hlo hhi => by omega
  | succ n ih =>
    have hbound : v + (n + 1) = v + 1 + n := by omega
    rw [hbound] at hE ⊢
    rw [List.range'_succ, copyLoop, wp_bind, wp_walkpgdir_false]
    cases hat : s.tableAt d (v / nEntries) with
    | none =>
      -- the panic
      obtain ⟨-, -, hgap⟩ | hall := hE
      · refine hgap ⟨v, Nat.le_refl v, by omega, hat, ?_⟩ s
        rw [mapped_self, Finset.image_empty, Finset.union_empty, Finset.card_empty, enough_tabs]
        exact Gives.zero
      · exact hall _ _
    | some t =>
      have htab : s.tableAt d (v / nEntries) ≠ none := by
        rw [hat]
        simp
      have hentry : s.pteAt d v = (s.mem t (v % nEntries)).present := by
        rw [Phys.pteAt, hat, Option.bind_some]
      simp only [wp_bind, wp_get]
      rw [← hentry]
      cases hpte : s.pteAt d v with
      | none =>
        have hlt : v < kernPage := by
          refine Nat.lt_of_le_of_ne hv fun heq => ?_
          obtain ⟨t', hat', hne⟩ := hk
          rw [heq, Phys.pteAt, hat', Option.bind_some] at hpte
          exact hne hpte
        exact (ih h hd hd' hk hk' hlt (hE.skip hpte)).imp fun _ _ hend => hend.skip htab hpte
      | some pte =>
        have hsome : s.pteAt d v ≠ none := by
          rw [hpte]
          simp
        have hself : v < v + 1 + n := by omega
        simp only
        refine ((kalloc_spec h (E := E)).and (kalloc_gives (E := E))).bind
          (fun r s₁ hs₁ => ?_) fun _ _ h => h.1
        obtain ⟨⟨hmem, hr⟩, hgives⟩ := hs₁
        cases r with
        | none =>
          refine (freevm_back hr hd' (.refl own) (.of_mem hmem)).imp ?_
          rintro r s' ⟨rfl, own', hstay, hown, hbut⟩
          refine ⟨own', hstay, hown, hbut, fun _ => .here hself htab hsome ?_⟩
          exact (RunsOut.of_kalloc hgives).mono le_rfl (Finset.empty_subset _)
        | some p =>
          obtain ⟨hfree, h₁⟩ := hr
          have hplain : ¬ (own p).Kernel := by
            rw [hfree]
            exact id
          simp only [wp_bind, wp_get]
          by_cases heq : v = kernPage
          · obtain ⟨hle, -⟩ | hall := hE
            · omega
            simp only [setTable, wp_bind, wp_get, wp_set]
            have hkeep : Keeps own s _ :=
              (Keeps.of_mem hmem).trans (Keeps.write hplain (s₁.mem pte.page)) fun _ _ => rfl
            rw [heq]
            exact mappages_remap (hkeep.hasKernel h hd' hk') pte.flags hall
          have hlt : v < kernPage := Nat.lt_of_le_of_ne hv heq
          have hpage : v < nPages := hlt.trans (by decide)
          have htake : Grows fails own d' 1 ∅ ∅ s s₁ := .of_kalloc hmem hgives
          have hmap : wp (do setTable p (s₁.mem pte.page); mappages fails d' pte.flags 1 v p) s₁ _ E :=
            mapFresh_spec hd' hlt pte.flags hfree h₁ (s₁.mem pte.page) fun hne => by
              obtain ⟨-, hfresh, -⟩ | hall := hE
              · rw [htake.pte d' v hd' hpage fun _ => Finset.notMem_empty v] at hne
                exact absurd (hfresh v le_rfl hself) hne
              · exact hall _
          rw [wp_bind] at hmap
          refine hmap.imp fun _ s₂ hmap => ?_
          refine hmap.imp fun r s₃ hs₃ => ?_
          obtain ⟨own₃, h₃, hkeep₃, hr⟩ := hs₃
          have hkeep : Keeps own s s₃ := (Keeps.of_mem hmem).trans hkeep₃ fun _ _ => rfl
          cases r with
          | true =>
            obtain ⟨⟨hstay₃, hsettled, hp, -⟩, hgrow₁, hnew, hcontent⟩ := hr
            have hgrow := Grows.of_fresh hmem hgives hgrow₁
            rw [hmem] at hcontent
            refine (ih h₃ (hstay₃.dir hd) (hstay₃.dir hd') (hkeep.hasKernel h hd hk)
              (hkeep.hasKernel h hd' hk') hlt (hE.copy hd hdd hsome hgrow hd')).imp ?_
            exact fun _ _ hend => hend.copy hd hdd hsome hgrow hself htab h hstay₃ hkeep hsettled hd' hp
              hpte hnew hcontent
          | false =>
            obtain ⟨htables, hout⟩ := hr
            rw [wp_ite, if_neg (by decide)]
            have hstay := htables.stays
            refine (kfree_spec h₃ (hstay.held (update_self ..))).seq
              fun _ s₄ hs₄ => ?_
            obtain ⟨h₄, hmem₄⟩ := hs₄
            have hback := hstay.of_fresh hfree (x := .free) rfl
            have hkeep₄ : Keeps own s s₄ :=
              hkeep.trans (Keeps.of_write hplain hmem₄) fun _ _ => rfl
            refine (freevm_back h₄ (hback.dir hd') hback hkeep₄).imp ?_
            rintro r s' ⟨rfl, own', hstay', hown, hbut⟩
            exact ⟨own', hstay', hown, hbut, fun _ =>
              .here hself htab hsome (RunsOut.of_fresh hmem hgives hout)⟩

lemma Stays.freed {d' : Page} (h : Owns k own s) (hfree : own d' = .free)
    (hstay : Stays (update own d' (.dir d')) own') : Stays own (freed d' own') := by
  have hother : ∀ q, (own q).dirOf ≠ some d' := fun q hq => by
    have := h.dir_of_dirOf hq
    rw [hfree] at this
    cases this
  have hne : ∀ {q}, q ≠ d' → update own d' (.dir d') q = own q := fun hq =>
    update_of_ne hq ..
  have hkernel : ∀ {q}, (own q).Kernel → own' q = own q := fun {q} hq => by
    have hqd : q ≠ d' := fun heq => by
      rw [heq, hfree] at hq
      exact hq
    have := hstay.kernel q (by rw [hne hqd]; exact hq)
    rwa [hne hqd] at this
  constructor
  · intro q hq
    rw [Vm.freed, hkernel hq, if_neg (hother q)]
  · intro q
    by_cases hqd : q = d'
    · have hd' : own' d' = .dir d' := hstay.dir (update_self ..)
      rw [hqd, Vm.freed, hd', hfree, if_pos (show (Place.dir d').dirOf = some d' from rfl)]
    · have hroot := hstay.root q
      rw [hne hqd] at hroot
      rw [Vm.freed, ← hroot]
      split
      next hdir =>
        cases hown : own' q with
        | dir e =>
          -- it was a page directory before, and then not the new one
          rw [hown] at hroot hdir
          cases hq : own q with
          | dir e' =>
            have := hkernel (q := q) (by rw [hq]; trivial)
            rw [hown] at this
            exact absurd hdir (by rw [this]; exact hother q)
          | _ =>
            rw [hq] at hroot
            cases hroot
        | held =>
          rw [hown] at hdir
          cases hdir
        | _ => rfl
      next => rfl

/-! ### The call -/

/-- How many pages `copyuvm` takes to copy what is below virtual page `u`: the page directory, its page
tables and the copies. -/
def copyNeeds (k : Image) (s : Phys) (d : Page) (u : Nat) : Nat :=
  (kernTabs k ∪ (mapped s d 0 u).image (· / nEntries)).card + (mapped s d 0 u).card + 1

/-- There is a page table for every page below `sz`, or memory runs out before the first one that is
missing. -/
def CopySafe (k : Image) (fails : Nat → Bool) (s : Phys) (d : Page) (sz : Nat) : Prop :=
  ∀ u < pgUp sz, s.tableAt d (u / nEntries) = none → ¬ Gives fails s (copyNeeds k s d u)

/-- The user part of `d'` is a copy of what is below `sz` in `d`. -/
structure Copies (d d' : Page) (sz : Nat) (s s' : Phys) : Prop where
  pages : ∀ w < pgUp sz, ∀ e ∈ s.pteAt d w,
    ∃ p, s'.pteAt d' w = some ⟨p, e.flags⟩ ∧ s'.mem p = s.mem e.page
  absent : ∀ w < kernPage, (pgUp sz ≤ w ∨ s.pteAt d w = none) → s'.pteAt d' w = none

variable {sz : Nat}

section

variable {s₁ : Phys} (h : Owns k own s) (hd : own d = .dir d) (hnew : NewDir k fails own d' s s₁)

include hd hnew

/-- The source is as it was before `setupkvm`. -/
lemma NewDir.mapped_eq (hu : u ≤ kernPage) : mapped s₁ d 0 u = mapped s d 0 u :=
  mapped_congr fun w _ hw => hnew.pte d w hd ((hw.trans_le hu).trans_le (by decide))

/-- Memory for the copy, before and after `setupkvm`. -/
lemma NewDir.needs_iff (hu : u ≤ kernPage) :
    Enough fails s₁ d' (s₁.tabs d' ∪ (mapped s₁ d 0 u).image (· / nEntries)) (mapped s₁ d 0 u).card ↔
      Gives fails s (copyNeeds k s d u) := by
  rw [hnew.tabs, hnew.mapped_eq hd hu, hnew.enough _ _ Finset.subset_union_left]
  exact Iff.rfl

lemma CopyGap.not_safe (hgap : CopyGap fails d d' 0 (pgUp sz) s₁) (hsz : sz ≤ kernBase) :
    ¬ CopySafe k fails s d sz := fun hsafe => by
  obtain ⟨u, -, hhi, hmissing, henough⟩ := hgap
  rw [hnew.table d _ hd] at hmissing
  have hu : u ≤ kernPage := hhi.le.trans (pgUp_le_kernPage hsz)
  exact hsafe u hhi hmissing ((hnew.needs_iff hd hu).mp henough)

lemma CopyFails.safe (hfail : CopyFails fails d d' 0 (pgUp sz) s₁) (hsz : sz ≤ kernBase) :
    CopySafe k fails s d sz := fun w hw hmissing hgives => by
  obtain ⟨u, -, hhi, hall, hout⟩ := hfail
  rw [← hnew.table d _ hd] at hmissing
  have huw : u < w := not_le.mp fun hle => hall w (Nat.zero_le w) hle hmissing
  have hw' : w ≤ kernPage := hw.le.trans (pgUp_le_kernPage hsz)
  -- what is copied before `w` contains what memory did not last for
  have hsub : mapped s₁ d 0 (u + 1) ⊆ mapped s₁ d 0 w := fun x hx => by
    rw [mem_mapped] at hx ⊢
    exact ⟨⟨Nat.zero_le x, by omega⟩, hx.2⟩
  have hcard := Finset.card_le_card hsub
  have htables : (mapped s₁ d 0 (u + 1)).image (· / nEntries) ⊆
      s₁.tabs d' ∪ (mapped s₁ d 0 w).image (· / nEntries) :=
    (Finset.image_subset_image hsub).trans Finset.subset_union_right
  refine hout.mono hcard (Finset.Subset.refl _) _ 0 htables ?_
  rw [Nat.zero_add]
  exact (hnew.needs_iff hd hw').mpr hgives

include h

lemma Copied.copies (hcopied : Copied fails own' d d' 0 (pgUp sz) s₁ s')
    (hd' : own' d' = .dir d') (hsz : sz ≤ kernBase) : Copies d d' sz s s' where
  pages w hw e he := by
    have hkern : w < kernPage := hw.trans_le (pgUp_le_kernPage hsz)
    have hplace : own e.page = .user d w := by
      refine (h.user d w _).mpr ⟨hd, hkern, ?_⟩
      rw [Phys.userAt_eq_pteAt, show s.pteAt d w = some e from he]
      rfl
    rw [← hnew.pte d w hd (hkern.trans_le (by decide))] at he
    obtain ⟨p, hp, hmem⟩ := hcopied.pages w (Nat.zero_le w) hw e he
    refine ⟨p, hp, hmem.trans ?_⟩
    exact hnew.data _ (by rw [hplace]; exact Place.plain_user d w) (by rw [hplace]; exact nofun)
  absent w hw hout := by
    have hpage : w < nPages := hw.trans_le (by decide)
    have hnot : w ∉ mapped s₁ d 0 (pgUp sz) := fun hmem => by
      obtain ⟨⟨-, hlt⟩, hsome⟩ := mem_mapped.mp hmem
      rw [hnew.pte d w hd hpage] at hsome
      obtain hge | hnone := hout
      · omega
      · rw [hnone] at hsome
        cases hsome
    rw [hcopied.grows.pte d' w hd' hpage fun _ => hnot]
    exact hnew.user w hw

end

lemma copyuvm_spec (h : Owns k own s) (hd : own d = .dir d) (hk : s.HasKernel d)
    (hE : (sz ≤ kernBase ∧ (¬ CopySafe k fails s d sz → ∀ s', E .noPte s')) ∨ ∀ e s', E e s') :
    wp (copyuvm k fails d sz) s (fun r s' => ∃ own', Owns k own' s' ∧ Keeps own s s' ∧ match r with
      | none => Stays own own' ∧ (sz ≤ kernBase → CopySafe k fails s d sz)
      | some e => (own e = .free ∧ s'.HasKernel e ∧ Stays (update own e (.dir e)) own') ∧
          (sz ≤ kernBase → CopySafe k fails s d sz ∧ Copies d e sz s s')) E := by
  rw [copyuvm]
  refine (setupkvm_spec h).seq fun r s₁ ⟨hkeep, hr⟩ => ?_
  cases r with
  | none =>
    refine ⟨own, hr.1, hkeep, .refl own, fun _ u _ _ hgives => ?_⟩
    exact hr.2 _ _ Finset.subset_union_left hgives
  | some d' =>
    obtain ⟨⟨hfree, hk', own₁, h₁, htab⟩, hnew⟩ := hr
    have hdd : d ≠ d' := fun heq => by
      rw [← heq, hd] at hfree
      cases hfree
    have hd₁ : own₁ d = .dir d := htab.stays.dir (by rw [update_of_ne hdd, hd])
    have hd₁' : own₁ d' = .dir d' := htab.stays.dir (update_self ..)
    have hkernel : ∀ t, (own t).Kernel → own₁ t = own t := fun t ht => by
      have htd : t ≠ d' := fun heq => by
        rw [heq, hfree] at ht
        exact ht
      have hsame : update own d' (.dir d') t = own t := update_of_ne htd ..
      rw [htab.kernel (by rw [hsame]; exact ht), hsame]
    have hk₁ := hkeep.hasKernel h hd hk
    rw [List.range_eq_range']
    refine (copyLoop_spec h₁ hd₁ hd₁' hdd hk₁ hk' zero_le ?fresh).imp ?done
    case fresh =>
      rw [Nat.zero_add]
      refine hE.imp_left fun ⟨hsz, hgap⟩ => ⟨pgUp_le_kernPage hsz, fun w _ hw => ?_, fun hg => ?_⟩
      · exact hnew.user w (hw.trans_le (pgUp_le_kernPage hsz))
      · exact hgap (hg.not_safe hd hnew hsz)
    case done =>
      intro r s₂ ⟨own₂, hstay, hr⟩
      rw [Nat.zero_add] at hr
      have hstay' := htab.stays.trans hstay
      cases r with
      | none =>
        refine ⟨_, hr.1, fun t i e ht he => ?_, hstay'.freed h hfree, fun hsz => ?_⟩
        · refine hr.2.1 t i e (by rw [hkernel t ht]; exact ht) ?_ (hkeep t i e ht he)
          rw [hkernel t ht]
          intro hdir
          have := h.dir_of_dirOf hdir
          rw [hfree] at this
          cases this
        · exact (hr.2.2 (pgUp_le_kernPage hsz)).safe hd hnew hsz
      | some e =>
        obtain ⟨rfl, h₂, hkeep₂, hcopied⟩ := hr
        refine ⟨own₂, h₂, hkeep.trans hkeep₂ hkernel,
          ⟨hfree, hkeep₂.hasKernel h₁ hd₁' hk', hstay'⟩, fun hsz => ?_⟩
        obtain ⟨hall, hcopied⟩ := hcopied (pgUp_le_kernPage hsz)
        refine ⟨fun u hu hmissing _ => ?_, hcopied.copies h hd hnew hd₁' hsz⟩
        exact hall u (Nat.zero_le u) hu (by rwa [hnew.table d _ hd])

end Xv6.Vm
