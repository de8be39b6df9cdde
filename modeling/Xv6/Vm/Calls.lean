import Xv6.Vm.Supply

/-!
# What the paging functions do to places

One specification for each function, in terms of `Owns`. A function that allocates gives free pages to one
page directory (`Tables`), one that frees gives pages of one page directory back (`Drops`). A call that
fails to build a page directory leaves every page where it was.

The entries of page directories and of page tables for the kernel part are written once and then kept
(`Keeps`). What a call that builds does to the entries, and whether memory lasts for it, is said with `Grows`
and `RunsOut`.
-/

namespace Xv6.Vm

open Function (update update_self update_of_ne update_apply)
open Lib
open Process (pgUp growRange mem_growRange)

variable {k : Image} {fails : Nat → Bool} {own own' own'' : Page → Place} {s s' s'' : Phys}
  {d p q t : Page} {v : Nat}

/-! ### Frames -/

/-- Free pages become page tables of `d`, and nothing else changes. -/
def Tables (d : Page) (own own' : Page → Place) : Prop :=
  ∀ q, own' q = own q ∨ own q = .free ∧ ∃ i, own' q = .table d i

lemma Tables.refl (d : Page) (own : Page → Place) : Tables d own own := fun _ => .inl rfl

lemma Tables.eq (h : Tables d own own') (hq : own q ≠ .free) : own' q = own q :=
  (h q).resolve_right fun h => hq h.1

lemma Tables.trans (h : Tables d own own') (h' : Tables d own' own'') : Tables d own own'' := by
  intro q
  obtain hq | ⟨hfree, i, hi⟩ := h q
  · rw [← hq]
    exact h' q
  · have hq := h'.eq (q := q) (by rw [hi]; exact nofun)
    exact .inr ⟨hfree, i, hq.trans hi⟩

/-- User pages of `d` become free, and nothing else changes. -/
def Drops (d : Page) (own own' : Page → Place) : Prop :=
  ∀ q, own' q = own q ∨ (∃ v, own q = .user d v) ∧ own' q = .free

lemma Drops.refl (d : Page) (own : Page → Place) : Drops d own own := fun _ => .inl rfl

lemma Drops.trans (h : Drops d own own') (h' : Drops d own' own'') : Drops d own own'' := by
  intro q
  obtain hq | ⟨huser, hfree⟩ := h q
  · rw [← hq]
    exact h' q
  · obtain hq | ⟨⟨v, hv⟩, -⟩ := h' q
    · exact .inr ⟨huser, hq.trans hfree⟩
    · rw [hfree] at hv
      cases hv

lemma Drops.eq (h : Drops d own own') (hq : ∀ v, own q ≠ .user d v) : own' q = own q :=
  (h q).resolve_right fun ⟨⟨v, hv⟩, _⟩ => hq v hv

/-- A page directory, or a page table for the kernel part. -/
def Place.Kernel : Place → Prop
  | .dir _ => True
  | .table _ i => kernPage ≤ i * nEntries
  | _ => False

/-- The entries of page directories and of the kernel's page tables stay. -/
def Keeps (own : Page → Place) (s s' : Phys) : Prop :=
  ∀ t i e, (own t).Kernel → (s.mem t i).present = some e → (s'.mem t i).present = some e

lemma Keeps.of_mem (h : s'.mem = s.mem) : Keeps own s s' := fun t i e _ he => by rw [h, he]

lemma Keeps.trans (h : Keeps own s s') (h' : Keeps own' s' s'')
    (hown : ∀ t, (own t).Kernel → own' t = own t) : Keeps own s s'' := fun t i e ht he =>
  h' t i e (by rw [hown t ht]; exact ht) (h t i e ht he)

lemma Tables.kernel (h : Tables d own own') (ht : (own t).Kernel) : own' t = own t :=
  h.eq fun heq => by
    rw [heq] at ht
    exact ht

lemma Drops.kernel (h : Drops d own own') (ht : (own t).Kernel) : own' t = own t :=
  h.eq fun v heq => by
    rw [heq] at ht
    exact ht

/-- As `Keeps`, but not for the page directory `d`. -/
def KeepsBut (d : Page) (own : Page → Place) (s s' : Phys) : Prop :=
  ∀ t i e, (own t).Kernel → (own t).dirOf ≠ some d → (s.mem t i).present = some e →
    (s'.mem t i).present = some e

lemma Drops.eq_of_dirOf (h : Drops d own own') (hq : (own q).dirOf ≠ some d) : own' q = own q :=
  h.eq fun v heq => hq (by rw [heq]; rfl)

/-- Nothing is written to pages that are not of the page directory `d`. -/
def Spares (d : Page) (own : Page → Place) (s s' : Phys) : Prop :=
  ∀ q, (own q).dirOf ≠ some d → own q ≠ .held → s'.mem q = s.mem q

lemma Spares.trans (h : Spares d own s s') (h' : Spares d own' s' s'') (hdrop : Drops d own own') :
    Spares d own s s'' := fun q hq hheld => by
  have heq := hdrop.eq_of_dirOf hq
  rw [h' q (by rwa [heq]) (by rwa [heq]), h q hq hheld]

lemma Keeps.but (h : Keeps own s s') (d : Page) : KeepsBut d own s s' := fun t i e ht _ =>
  h t i e ht

lemma Keeps.trans_but (h : Keeps own s s') (h' : KeepsBut d own' s' s'')
    (hown : ∀ t, (own t).Kernel → own' t = own t) : KeepsBut d own s s'' := fun t i e ht hd he =>
  h' t i e (by rw [hown t ht]; exact ht) (by rw [hown t ht]; exact hd) (h t i e ht he)

lemma Keeps.write (hq : ¬ (own q).Kernel) (m : Table) :
    Keeps own s { s with mem := update s.mem q m } := fun t i e ht he => by
  have hne : t ≠ q := fun heq => hq (heq ▸ ht)
  simp only [update_of_ne hne, he]

lemma Keeps.of_write {m : Table} (hq : ¬ (own q).Kernel)
    (h : s'.mem = update s.mem q m) : Keeps own s s' := fun t i e ht he => by
  rw [h]
  exact Keeps.write hq m t i e ht he

lemma Keeps.setEntry {j : Nat} (hnone : (s.mem q j).present = none) (e : Word) :
    Keeps own s { s with mem := update s.mem q (update (s.mem q) j e) } := by
  intro t i e' _ he
  simp only [update_apply]
  grind

/-! ### Allocation and page tables -/

variable {E : Panic → Phys → Prop}

lemma kfree_spec (h : Owns k own s) (hp : own p = .held) :
    wp (kfree k p) s (fun _ s' => Owns k (update own p .free) s' ∧
      s'.mem = update s.mem p junk) E := by
  have hmanaged := (h.managed p).mp (by rw [hp]; exact nofun)
  simp only [kfree, wp_ite, wp_bind, wp_get, wp_set]
  have hok : ¬ (p < k.endPage ∨ physStop ≤ p) := fun hbad =>
    hbad.elim hmanaged.1.not_gt hmanaged.2.not_ge
  rw [if_neg hok]
  exact ⟨h.give hp junk, trivial⟩

lemma walkpgdir_spec (h : Owns k own s) (hd : own d = .dir d) (hv : v / nEntries < nEntries) (alloc : Bool) :
    wp (walkpgdir fails d v alloc) s (fun r s' => ∃ own', Owns k own' s' ∧ Tables d own own' ∧
      Keeps own s s' ∧ ∀ t ∈ r, own' t = .table d (v / nEntries)) E := by
  simp only [walkpgdir, wp_bind, wp_get]
  split
  next pde hpde =>
    refine ⟨own, h, .refl d own, .of_mem rfl, fun t ht => ?_⟩
    cases ht
    exact (h.table _ _ _).mpr ⟨hd, hv, by simp [Phys.tableAt, hpde]⟩
  next hnone =>
    rw [wp_ite]
    split
    next => exact ⟨own, h, .refl d own, .of_mem rfl, (by simp)⟩
    next =>
      refine (kalloc_spec h).seq fun r s₁ hs₁ => ?_
      obtain ⟨hmem, hr⟩ := hs₁
      cases r with
      | none => exact ⟨own, hr, .refl d own, .of_mem hmem, (by simp)⟩
      | some t =>
        obtain ⟨hfree, h₁⟩ := hr
        simp only [setTable, setEntry, wp_bind, wp_get, wp_set, wp_pure]
        have htd : t ≠ d := fun heq => by
          rw [heq, hd] at hfree
          cases hfree
        have hheld : update own t .held t = .held := update_self ..
        have hd₁ : update own t .held d = .dir d := by rw [update_of_ne htd.symm, hd]
        have h₂ := (h₁.write (hheld ▸ Place.plain_held) zeroes).addTable hheld
          (by simp) hd₁ hv (by simp [update_of_ne htd.symm, hmem, hnone]) pteWU
        rw [Function.update_idem] at h₂
        refine ⟨_, h₂, fun q => ?_, ?_, fun u hu => ?_⟩
        · by_cases hq : q = t
          · subst hq
            exact .inr ⟨hfree, _, update_self ..⟩
          · exact .inl (update_of_ne hq ..)
        · intro u i e hu he
          have hut : u ≠ t := fun heq => by
            rw [heq, hfree] at hu
            exact hu
          simp only [update_apply, hmem]
          grind
        · cases hu
          exact update_self ..

lemma walkpgdir_alloc (h : Owns k own s) (hd : own d = .dir d) (hv : v / nEntries < nEntries)
    :
    wp (walkpgdir fails d v true) s (fun r s' => ∃ own', Owns k own' s' ∧ Tables d own own' ∧
      Keeps own s s' ∧ match r with
        | none => RunsOut fails s d 0 {v / nEntries}
        | some t => own' t = .table d (v / nEntries) ∧ Grows fails own d 0 {v / nEntries} ∅ s s') E := by
  refine ((walkpgdir_spec h hd hv true (E := E)).and (walkpgdir_grows h hd hv (E := E))).mono
    (fun r s' ⟨⟨own', h', htab, hkeep, hr⟩, hgrow⟩ => ⟨own', h', htab, hkeep, ?_⟩) fun _ _ h => h.1
  cases r with
  | none => exact hgrow
  | some t => exact ⟨hr t rfl, hgrow⟩

lemma Tables.settled (h : Tables d own own') : Settled own own' := fun _ hq => h.eq hq

lemma Grows.present {c : Nat} {A W : Finset Nat} (hgrow : Grows fails own d c A W s s')
    (h' : Owns k own' s') (hd : own d = .dir d) (ht : own' t = .table d (v / nEntries))
    (hv : v < nPages) (hW : v ∉ W) : s.pteAt d v = (s'.mem t (v % nEntries)).present := by
  rw [← hgrow.pte d v hd hv fun _ => hW, Phys.pteAt, ((h'.table _ _ t).mp ht).2.2, Option.bind_some]

lemma mappages_user (h : Owns k own s) (hd : own d = .dir d) (hp : own p = .held) (hv : v < kernPage)
    (perm : Nat) (hE : s.pteAt d v ≠ none → ∀ s', E .remap s') :
    wp (mappages fails d perm 1 v p) s (fun r s' => ∃ own', Owns k own' s' ∧ Keeps own s s' ∧
      match r with
      | true => (own' p = .user d v ∧
          ∀ q ≠ p, own' q = own q ∨ own q = .free ∧ ∃ i, own' q = .table d i) ∧
          Grows fails own d 0 {v / nEntries} {v} s s' ∧ s'.pteAt d v = some ⟨p, perm⟩
      | false => Tables d own own' ∧ RunsOut fails s d 0 {v / nEntries}) E := by
  have hpage : v < nPages := hv.trans (by decide)
  rw [mappages]
  refine (walkpgdir_alloc h hd (div_lt_of_user hv)).seq fun r s₁ hs₁ => ?_
  obtain ⟨own₁, h₁, htab, hkeep, hr⟩ := hs₁
  cases r with
  | none => exact ⟨own₁, h₁, hkeep, htab, hr⟩
  | some t =>
    obtain ⟨ht, hgrow⟩ := hr
    have hp₁ : own₁ p = .held := (htab.eq (by rw [hp]; simp)).trans hp
    have hentry := hgrow.present h₁ hd ht hpage (Finset.notMem_empty v)
    simp only [wp_bind, wp_get]
    split
    next e he => exact hE (by rw [hentry, he]; simp) s₁
    next hnone =>
      simp only [setEntry, mappages, wp_bind, wp_get, wp_set, wp_pure]
      refine ⟨_, h₁.map hp₁ ht hv hnone perm, ?_, ?_, ?_, ?_⟩
      · exact hkeep.trans (.setEntry hnone _) fun t ht => htab.kernel ht
      · refine ⟨update_self .., fun q hq => ?_⟩
        rw [update_of_ne hq]
        exact htab q
      · exact hgrow.thenEntry h₁ htab.settled ht _
      · exact h₁.pteAt_setEntry ht _

/-- The indices of the page tables for `n` virtual pages from `v`. -/
def tablesOf (v n : Nat) : Finset Nat := (Finset.Ico v (v + n)).image (· / nEntries)

lemma Ico_succ (v n : Nat) : Finset.Ico v (v + (n + 1)) = {v} ∪ Finset.Ico (v + 1) (v + 1 + n) := by
  ext w
  simp only [Finset.mem_Ico, Finset.mem_union, Finset.mem_singleton]
  omega

lemma tablesOf_succ (v n : Nat) : tablesOf v (n + 1) = {v / nEntries} ∪ tablesOf (v + 1) n := by
  rw [tablesOf, Ico_succ, Finset.image_union, Finset.image_singleton]
  rfl

variable {n : Nat}

lemma mappages_kernel (h : Owns k own s) (hd : own d = .dir d) (perm : Nat)
    (hv : kernPage ≤ v) (hn : v + n ≤ nPages)
    (hE : (∃ w, v ≤ w ∧ w < v + n ∧ s.pteAt d w ≠ none) → ∀ s', E .remap s') :
    wp (mappages fails d perm n v p) s (fun r s' => ∃ own', Owns k own' s' ∧ Tables d own own' ∧
      Keeps own s s' ∧ match r with
        | true => Grows fails own d 0 (tablesOf v n) (Finset.Ico v (v + n)) s s' ∧
            ∀ w ∈ Finset.Ico v (v + n), ∃ q, s'.pteAt d w = some ⟨q, perm⟩
        | false => RunsOut fails s d 0 (tablesOf v n)) E := by
  induction n generalizing v p own s with
  | zero =>
    refine ⟨own, h, .refl d own, .of_mem rfl, ?_⟩
    simpa [tablesOf] using Grows.refl own d s
  | succ n ih =>
    have hpage : v < nPages := by omega
    rw [mappages]
    refine (walkpgdir_alloc h hd (div_lt_of_page hpage)).seq
      fun r s₁ hs₁ => ?_
    obtain ⟨own₁, h₁, htab, hkeep, hr⟩ := hs₁
    rw [tablesOf_succ]
    cases r with
    | none => exact ⟨own₁, h₁, htab, hkeep, hr.mono le_rfl Finset.subset_union_left⟩
    | some t =>
      obtain ⟨ht, hgrow⟩ := hr
      have hd₁ : own₁ d = .dir d := (htab.eq (by rw [hd]; simp)).trans hd
      have hentry := hgrow.present h₁ hd ht hpage (Finset.notMem_empty v)
      have hkern : kernPage ≤ v / nEntries * nEntries + v % nEntries := by
        rw [Nat.div_add_mod']
        exact hv
      simp only [wp_bind, wp_get]
      split
      next e he => exact hE ⟨v, Nat.le_refl v, by omega, by rw [hentry, he]; simp⟩ s₁
      next hnone =>
        simp only [setEntry, wp_bind, wp_get, wp_set]
        have h₂ := h₁.mapKernel ht hkern (Nat.mod_lt _ (by decide)) (.entry ⟨p, perm⟩)
        have hgrow₂ := hgrow.thenEntry h₁ htab.settled ht (.entry ⟨p, perm⟩)
        refine (ih h₂ hd₁ (by omega) (by omega) ?later).imp ?added
        case later =>
          rintro ⟨w, hlo, hhi, hw⟩
          have hne : w ∉ ({v} : Finset Nat) := by
            rw [Finset.mem_singleton]
            omega
          rw [hgrow₂.pte d w hd (by omega) fun _ => hne] at hw
          exact hE ⟨w, by omega, by omega, hw⟩
        case added =>
          rintro r s₂ ⟨own₂, h₂', htab', hkeep', hr⟩
          refine ⟨own₂, h₂', htab.trans htab', ?_, ?_⟩
          · exact hkeep.trans ((Keeps.setEntry hnone _).trans hkeep' fun _ _ => rfl) fun t ht =>
              htab.kernel ht
          cases r with
          | true =>
            obtain ⟨hrest, hflags⟩ := hr
            have hall := hgrow₂.trans hrest htab.settled
            rw [← Ico_succ] at hall
            refine ⟨hall, fun w hw => ?_⟩
            rw [Ico_succ, Finset.mem_union, Finset.mem_singleton] at hw
            obtain rfl | hw := hw
            · have hnot : w ∉ Finset.Ico (w + 1) (w + 1 + n) := by
                rw [Finset.mem_Ico]
                omega
              rw [hrest.pte d w hd₁ hpage fun _ => hnot, h₁.pteAt_setEntry ht]
              exact ⟨p, rfl⟩
            · exact hflags w hw
          | false => simpa using hgrow₂.runsOut hr

/-! ### Freeing -/

lemma wp_walkpgdir_false {Q : Option Page → Phys → Prop} :
    wp (walkpgdir fails d v false) s Q E ↔ Q (s.tableAt d (v / nEntries)) s := by
  simp only [walkpgdir, wp_bind, wp_get, Phys.tableAt]
  split
  next pde hpde => rw [hpde]; exact wp_pure
  next hnone => rw [hnone, if_pos trivial]; exact wp_pure

lemma Owns.unmap_free (h : Owns k own s) (hp : own p = .user d v) (ht : own t = .table d (v / nEntries)) :
    wp (do kfree k p; setEntry t (v % nEntries) (.other 0)) s
      (fun _ s' => Owns k (update own p .free) s' ∧ Keeps own s s' ∧ Spares d own s s') E := by
  have hmanaged := (h.managed p).mp (by rw [hp]; exact nofun)
  have hok : ¬ (p < k.endPage ∨ physStop ≤ p) := fun hbad =>
    hbad.elim hmanaged.1.not_gt hmanaged.2.not_ge
  have hne : p ≠ t := fun heq => by
    rw [heq, ht] at hp
    cases hp
  obtain ⟨-, hv, -⟩ := (h.user d v p).mp hp
  simp only [kfree, setEntry, wp_bind, wp_get, wp_set, if_neg hok]
  refine ⟨?_, ?_, fun q hq _ => ?_⟩
  · have h' := (h.unmap hp ht).give (update_self ..) junk
    rw [Function.update_idem] at h'
    simp only [update_of_ne hne.symm]
    rwa [Function.update_comm hne]
  · have hplain : ¬ (own p).Kernel := by rw [hp]; exact id
    have htuser : ¬ (own t).Kernel := by
      rw [ht]
      show ¬ kernPage ≤ v / nEntries * nEntries
      have := Nat.div_mul_le_self v nEntries
      omega
    exact (Keeps.write hplain _).trans (Keeps.write htuser _) fun _ _ => rfl
  · have hqp : q ≠ p := fun heq => hq (by rw [heq, hp]; rfl)
    have hqt : q ≠ t := fun heq => hq (by rw [heq, ht]; rfl)
    simp only [update_of_ne hqt, update_of_ne hqp]

variable {hi : Nat}

lemma Drops.extend (hgone : ∀ q, own q ≠ .user d v) (h : Drops d own own')
    (hrest : ∀ q w, v + 1 ≤ w → w < hi → own' q ≠ .user d w) : ∀ q w, v ≤ w → w < hi → own' q ≠ .user d w := by
  intro q w hvw hw
  obtain heq | hne := Nat.eq_or_lt_of_le hvw
  · subst heq
    obtain hq | ⟨-, hq⟩ := h q
    · rw [hq]
      exact hgone q
    · rw [hq]
      exact nofun
  · exact hrest q w hne hw

lemma deallocLoop_spec (h : Owns k own s) (hd : own d = .dir d) (hhi : hi ≤ kernPage)
    :
    wp (deallocLoop k fails d hi v) s (fun _ s' => ∃ own', Owns k own' s' ∧ Drops d own own' ∧
      Keeps own s s' ∧ Spares d own s s' ∧ ∀ q w, v ≤ w → w < hi → own' q ≠ .user d w) E := by
  -- the induction is on the number of pages that are left
  induction hm : hi - v using Nat.strongRecOn generalizing v own s with
  | ind m ih =>
    rw [deallocLoop, wp_ite]
    split
    next hlt =>
      have hv : v < kernPage := hlt.trans_le hhi
      rw [wp_bind, wp_walkpgdir_false]
      cases htab : s.tableAt d (v / nEntries) with
      | none =>
        -- the loop goes on at the next page table; there is no page before
        have hmod : v % nEntries < nEntries := Nat.mod_lt _ (by decide)
        have hsplit := Nat.div_add_mod v nEntries
        have hnext : v < (v / nEntries + 1) * nEntries := by
          rw [Nat.succ_mul, Nat.mul_comm]
          omega
        refine (ih _ (by omega) h hd rfl).imp fun _ s' hs' => ?_
        obtain ⟨own', h', hdrop, hkeep, hspare, hgone⟩ := hs'
        refine ⟨own', h', hdrop, hkeep, hspare, fun q w hvw hw hq => ?_⟩
        by_cases hwv : w < (v / nEntries + 1) * nEntries
        · have hsame : w / nEntries = v / nEntries :=
            Nat.le_antisymm (Nat.le_of_lt_succ (Nat.div_lt_of_lt_mul (by rwa [Nat.mul_comm])))
              (Nat.div_le_div_right hvw)
          obtain hsame' | ⟨-, hfree⟩ := hdrop q
          · rw [hsame'] at hq
            obtain ⟨-, -, hat⟩ := (h.user d w q).mp hq
            rw [Phys.userAt, hsame, htab] at hat
            cases hat
          · rw [hfree] at hq
            cases hq
        · exact hgone q w (by omega) hw hq
      | some t =>
        have ht : own t = .table d (v / nEntries) := (h.table _ _ _).mpr ⟨hd, div_lt_of_user hv, htab⟩
        simp only [wp_bind, wp_get]
        split
        next hnone =>
          have hnot : ∀ q, own q ≠ .user d v := fun q hq => by
            obtain ⟨-, -, hat⟩ := (h.user d v q).mp hq
            rw [Phys.userAt, htab, Option.bind_some, Phys.tableAt, hnone] at hat
            cases hat
          refine (ih _ (by omega) h hd rfl).imp fun _ s' hs' => ?_
          obtain ⟨own', h', hdrop, hkeep, hspare, hgone⟩ := hs'
          exact ⟨own', h', hdrop, hkeep, hspare, hdrop.extend hnot hgone⟩
        next pte hpte =>
          have hp : own pte.page = .user d v := (h.user _ _ _).mpr ⟨hd, hv, by
            rw [Phys.userAt, htab, Option.bind_some, Phys.tableAt, hpte]
            rfl⟩
          rw [wp_ite]
          split
          next hzero =>
            -- page 0 is not one of the allocator
            have hmanaged := (h.managed _).mp (by rw [hp]; simp)
            have hpos := k.extMem_lt.trans_le k.data_le
            rw [hzero] at hmanaged
            omega
          next =>
            have hfree := h.unmap_free hp ht (E := E)
            rw [wp_bind] at hfree
            refine hfree.seq fun _ s₁ hset => ?_
            refine hset.seq fun _ s₂ hs₂ => ?_
            obtain ⟨h₂, hkeep₂, hspare₂⟩ := hs₂
            have hdrop₂ : Drops d own (update own pte.page .free) := fun q => by
              by_cases hq : q = pte.page
              · subst hq
                exact .inr ⟨⟨v, hp⟩, update_self ..⟩
              · exact .inl (update_of_ne hq ..)
            have hnot : ∀ q, update own pte.page .free q ≠ .user d v := fun q hq => by
              by_cases hqp : q = pte.page
              · rw [hqp, update_self] at hq
                cases hq
              · rw [update_of_ne hqp] at hq
                have hat := ((h.user d v q).mp hq).2.2
                rw [((h.user d v _).mp hp).2.2] at hat
                exact hqp (Option.some.inj hat).symm
            have hd₂ : update own pte.page .free d = .dir d :=
              (hdrop₂.eq fun w hw => by rw [hd] at hw; cases hw).trans hd
            refine (ih _ (by omega) h₂ hd₂ rfl).imp fun _ s' hs' => ?_
            obtain ⟨own', h', hdrop, hkeep, hspare, hgone⟩ := hs'
            exact ⟨own', h', hdrop₂.trans hdrop, hkeep₂.trans hkeep fun t ht => hdrop₂.kernel ht,
              hspare₂.trans hspare hdrop₂, hdrop.extend hnot hgone⟩
    next hge =>
      exact ⟨own, h, .refl d own, .of_mem rfl, fun _ _ _ => rfl, fun q w hvw hw => by omega⟩

lemma pgUp_le_kernPage {sz : Nat} (h : sz ≤ kernBase) : pgUp sz ≤ kernPage := by
  unfold pgUp pgSize kernPage
  unfold kernBase at h
  omega

variable {newsz oldsz : Nat}

lemma deallocuvm_spec (h : Owns k own s) (hd : own d = .dir d) (hle : oldsz ≤ kernBase) :
    wp (deallocuvm k fails d oldsz newsz) s (fun _ s' => ∃ own', Owns k own' s' ∧ Drops d own own' ∧
      Keeps own s s' ∧ Spares d own s s' ∧
      ∀ q w, pgUp newsz ≤ w → w < pgUp oldsz → own' q ≠ .user d w) E := by
  rw [deallocuvm, wp_ite]
  split
  next hsz =>
    refine ⟨own, h, .refl d own, .of_mem rfl, fun _ _ _ => rfl, fun q w hlo hhi => ?_⟩
    have := Process.pgUp_mono hsz
    omega
  next =>
    rw [wp_ite]
    split
    next hwraps =>
      unfold kernBase at hle
      omega
    next => exact (deallocLoop_spec h hd (pgUp_le_kernPage hle)).seq fun _ s' hs' => hs'

/-- The page is one that an entry from `i` on refers to. -/
def Phys.Lists (s : Phys) (d : Page) (i : Nat) (q : Page) : Prop :=
  ∃ j, i ≤ j ∧ j < nEntries ∧ s.tableAt d j = some q

variable {i : Nat}

lemma Phys.lists_step (hi : i < nEntries) : s.Lists d i q ↔ s.tableAt d i = some q ∨ s.Lists d (i + 1) q := by
  constructor
  · intro ⟨j, hij, hj, hat⟩
    obtain heq | hne := Nat.eq_or_lt_of_le hij
    · exact .inl (heq ▸ hat)
    · exact .inr ⟨j, hne, hj, hat⟩
  · intro hlist
    obtain hat | ⟨j, hij, hj, hat⟩ := hlist
    · exact ⟨i, le_rfl, hi, hat⟩
    · exact ⟨j, Nat.le_of_succ_le hij, hj, hat⟩

/-- The loop of `freevm` frees the pages that the entries from `i` on refer to. -/
lemma freeTables_spec (h : Owns k own s) (hd : own d = .held)
    (hheld : ∀ q, s.Lists d i q → own q = .held ∧ q ≠ d)
    (hinj : ∀ j j' q, j < nEntries → j' < nEntries → s.tableAt d j = some q →
      s.tableAt d j' = some q → j = j') :
    wp (freeTables k d i) s (fun _ s' => ∃ own', Owns k own' s' ∧
      (∀ q, s.Lists d i q → own' q = .free) ∧ (∀ q, ¬ s.Lists d i q → own' q = own q) ∧
      ∀ t, own t ≠ .held → s'.mem t = s.mem t) E := by
  induction hm : nEntries - i using Nat.strongRecOn generalizing i own s with
  | ind m ih =>
    rw [freeTables, wp_ite]
    split
    next hlt =>
      simp only [wp_bind, wp_get]
      split
      next hnone =>
        have hlist : ∀ q, s.Lists d i q ↔ s.Lists d (i + 1) q := fun q => by
          rw [Phys.lists_step hlt, Phys.tableAt, hnone, or_iff_right (by simp)]
        simp only [hlist] at hheld ⊢
        exact ih _ (by omega) h hd hheld hinj rfl
      next pde hpde =>
        have hat : s.tableAt d i = some pde.page := by
          rw [Phys.tableAt, hpde]
          rfl
        obtain ⟨hp, hpd⟩ := hheld _ ((Phys.lists_step hlt).mpr (.inl hat))
        refine (kfree_spec h hp).seq fun _ s₁ hs₁ => ?_
        obtain ⟨h₁, hmem₁⟩ := hs₁
        have hread : ∀ j, s₁.tableAt d j = s.tableAt d j := fun j => by
          rw [Phys.tableAt, hmem₁, update_of_ne hpd.symm, Phys.tableAt]
        have hlist : ∀ q, s₁.Lists d (i + 1) q ↔ s.Lists d (i + 1) q := fun q => by
          simp only [Phys.Lists, hread]
        have hd₁ : update own pde.page .free d = .held := by
          rw [update_of_ne hpd.symm, hd]
        -- no other entry refers to the page that has been freed
        have hother : ∀ q, s.Lists d (i + 1) q → q ≠ pde.page := by
          rintro q ⟨j, hij, hj, hjat⟩ heq
          have := hinj i j _ hlt hj hat (heq ▸ hjat)
          omega
        have hheld₁ : ∀ q, s₁.Lists d (i + 1) q →
            update own pde.page .free q = .held ∧ q ≠ d := fun q hq => by
          rw [hlist] at hq
          rw [update_of_ne (hother q hq)]
          exact hheld q ((Phys.lists_step hlt).mpr (.inr hq))
        refine (ih _ (by omega) h₁ hd₁ hheld₁ (by simpa only [hread] using hinj) rfl).imp
          fun _ s' hs' => ?_
        obtain ⟨own', h', hfree, hsame, hmem⟩ := hs'
        refine ⟨own', h', fun q hq => ?_, fun q hq => ?_, fun t ht => ?_⟩
        · rw [Phys.lists_step hlt] at hq
          by_cases hq' : s.Lists d (i + 1) q
          · exact hfree q ((hlist q).mpr hq')
          · have hqp : q = pde.page := Option.mem_unique (hq.resolve_right hq') hat
            rw [hsame q (by rwa [hlist]), hqp, update_self]
        · rw [Phys.lists_step hlt, not_or] at hq
          have hqp : q ≠ pde.page := fun heq => hq.1 (heq ▸ hat)
          rw [hsame q (by rw [hlist]; exact hq.2), update_of_ne hqp]
        · have htp : t ≠ pde.page := fun heq => ht (heq ▸ hp)
          rw [hmem t (by rwa [update_of_ne htp]), hmem₁, update_of_ne htp]
    next hge =>
      refine ⟨own, h, ?_, fun _ _ => rfl, fun _ _ => rfl⟩
      rintro q ⟨j, hij, hj, -⟩
      omega

/-- The pages of a page directory become free. -/
def freed (d : Page) (own : Page → Place) : Page → Place :=
  fun q => if (own q).dirOf = some d then .free else own q

/-- `freevm` frees the pages of the page directory and leaves the others where they are. -/
lemma freevm_spec (h : Owns k own s) (hd : own d = .dir d) :
    wp (freevm k fails (some d)) s (fun _ s' =>
      Owns k (freed d own) s' ∧ KeepsBut d own s s' ∧ Spares d own s s') E := by
  rw [freevm]
  refine (deallocuvm_spec h hd le_rfl).seq fun _ s₁ hs₁ => ?_
  obtain ⟨own₁, h₁, hdrop, hkeep, hspare, hgone⟩ := hs₁
  have hd₁ : own₁ d = .dir d := (hdrop.eq fun w hw => by rw [hd] at hw; cases hw).trans hd
  have hnone : ∀ q w, own₁ q ≠ .user d w := fun q w hq =>
    hgone q w (by simp [pgUp, pgSize]) (Nat.lt_of_lt_of_le ((h₁.user d w q).mp hq).2.1 (by decide)) hq
  -- the page directory and its page tables are now in the hands of `freevm`
  have h₂ := h₁.dismantle hnone
  have hlist : ∀ q, s₁.Lists d 0 q ↔ ∃ i, own₁ q = .table d i := by
    intro q
    constructor
    · rintro ⟨j, -, hj, hat⟩
      exact ⟨j, (h₁.table d j q).mpr ⟨hd₁, hj, hat⟩⟩
    · rintro ⟨i, hi⟩
      exact ⟨i, zero_le, ((h₁.table d i q).mp hi).2⟩
  refine (freeTables_spec h₂ (by simp [hd₁, Place.dirOf]) (fun q hq => ?_) fun j j' q hj hj' hat hat' => ?_).seq
    fun _ s₂ hs₂ => ?_
  · obtain ⟨i, hi⟩ := (hlist q).mp hq
    refine ⟨by simp [hi, Place.dirOf], fun heq => ?_⟩
    rw [heq, hd₁] at hi
    cases hi
  · have ht := (h₁.table d j q).mpr ⟨hd₁, hj, hat⟩
    rw [(h₁.table d j' q).mpr ⟨hd₁, hj', hat'⟩] at ht
    exact (Place.table.inj ht).2.symm
  · obtain ⟨own₂, h₃, hfree, hsame, hmem⟩ := hs₂
    have hdlist : ¬ s₁.Lists d 0 d := fun hq => by
      obtain ⟨i, hi⟩ := (hlist d).mp hq
      rw [hd₁] at hi
      cases hi
    have hd₂ : own₂ d = .held := by
      rw [hsame d hdlist]
      simp [hd₁, Place.dirOf]
    refine (kfree_spec h₃ hd₂).imp fun _ s₃ hs₃ => ?_
    obtain ⟨h₄, hmem₄⟩ := hs₃
    have hsame₃ : ∀ t, (own t).dirOf ≠ some d → own t ≠ .held → s₃.mem t = s₁.mem t := fun t hdir hheld => by
      have htd : t ≠ d := fun heq => hdir (by rw [heq, hd]; rfl)
      rw [hmem₄, update_of_ne htd, hmem t (by rw [hdrop.eq_of_dirOf hdir, if_neg hdir]; exact hheld)]
    refine ⟨?_, fun t i e ht hdir he => ?_, fun t hdir hheld => ?_⟩
    · -- every page of the page directory has been freed by one of the three
      have hown : freed d own = update own₂ d .free := funext fun q => by
        unfold freed
        by_cases hqd : q = d
        · rw [hqd, update_self, if_pos (by rw [hd]; rfl)]
        rw [update_of_ne hqd]
        obtain hq | ⟨⟨v, hv⟩, hq⟩ := hdrop q
        · by_cases hdir : (own q).dirOf = some d
          · rw [if_pos hdir, hfree q]
            rw [hlist, hq]
            cases hown : own q with
            | dir e => exact absurd (h.dir q e hown) fun heq => hqd (by
                rw [hown] at hdir
                exact heq.trans (Option.some.inj hdir))
            | table e i =>
              rw [hown] at hdir
              exact ⟨i, by rw [Option.some.inj hdir]⟩
            | user e v =>
              rw [hown] at hdir
              exact absurd (hq.trans hown) (by rw [Option.some.inj hdir]; exact hnone q v)
            | outside | free | held =>
              rw [hown] at hdir
              cases hdir
          · have hnot : ¬ s₁.Lists d 0 q := fun hlists => by
              obtain ⟨i, hi⟩ := (hlist q).mp hlists
              rw [hq] at hi
              exact hdir (by rw [hi]; rfl)
            rw [hsame q hnot, hq]
            simp only [if_neg hdir]
        · have hnot : ¬ s₁.Lists d 0 q := fun hlists => by
            obtain ⟨i, hi⟩ := (hlist q).mp hlists
            rw [hq] at hi
            cases hi
          rw [hsame q hnot, hq, hv]
          simp [Place.dirOf]
      rwa [hown]
    · rw [hsame₃ t hdir fun heq => by rw [heq] at ht; exact ht]
      exact hkeep t i e ht he
    · rw [hsame₃ t hdir hheld, hspare t hdir hheld]

/-! ### Page directories -/

/-- The first page of the kernel is mapped. -/
def Phys.HasKernel (s : Phys) (d : Page) : Prop :=
  ∃ t, s.tableAt d (kernPage / nEntries) = some t ∧ (s.mem t (kernPage % nEntries)).present ≠ none

lemma KeepsBut.hasKernel {d' : Page} (hown : Owns k own s) (h : KeepsBut d' own s s') (hne : d ≠ d')
    (hd : own d = .dir d) (hk : s.HasKernel d) : s'.HasKernel d := by
  obtain ⟨t, hat, hkern⟩ := hk
  have ht : own t = .table d (kernPage / nEntries) := (hown.table d _ t).mpr ⟨hd, by decide, hat⟩
  have hother : ∀ {x : Place}, x.dirOf = some d → x.dirOf ≠ some d' := fun hx heq =>
    hne (Option.mem_unique hx heq)
  obtain ⟨pde, hpde, hpage⟩ := Option.map_eq_some_iff.mp hat
  obtain ⟨e, he⟩ := Option.ne_none_iff_exists'.mp hkern
  have hpde' : (s'.mem d (kernPage / nEntries)).present = some pde :=
    h d _ pde (by rw [hd]; trivial) (hother (by rw [hd]; rfl)) hpde
  have he' : (s'.mem t (kernPage % nEntries)).present = some e :=
    h t _ e (by rw [ht]; exact (by decide : kernPage ≤ kernPage / nEntries * nEntries))
      (hother (by rw [ht]; rfl)) he
  refine ⟨t, ?_, ?_⟩
  · rw [Phys.tableAt, hpde', Option.map_some, hpage]
  · rw [he']
    simp

lemma Keeps.hasKernel (hown : Owns k own s) (h : Keeps own s s') (hd : own d = .dir d)
    (hk : s.HasKernel d) : s'.HasKernel d :=
  (h.but (d + 1)).hasKernel hown (Nat.lt_succ_self d).ne hd hk

lemma mappages_hasKernel (h : Owns k own s) (hd : own d = .dir d) (perm : Nat)
    (hpos : 0 < n) (hn : kernPage + n ≤ nPages) :
    wp (mappages fails d perm n kernPage p) s (fun r s' => r → s'.HasKernel d)
      fun _ _ => True := by
  obtain ⟨n, rfl⟩ := Nat.exists_eq_add_one_of_ne_zero hpos.ne'
  rw [mappages]
  refine (walkpgdir_spec h hd (by decide) true).seq fun r s₁ hs₁ => ?_
  obtain ⟨own₁, h₁, htab, hkeep, hr⟩ := hs₁
  cases r with
  | none => exact fun h => by cases h
  | some t =>
    have ht : own₁ t = .table d (kernPage / nEntries) := hr t rfl
    obtain ⟨hd₁, -, hat⟩ := (h₁.table _ _ t).mp ht
    simp only [wp_bind, wp_get]
    split
    next => trivial
    next hnone =>
      simp only [setEntry, wp_bind, wp_get, wp_set]
      have hkern : kernPage ≤ kernPage / nEntries * nEntries + kernPage % nEntries := by decide
      have h₂ := h₁.mapKernel ht hkern (by decide) (.entry ⟨p, perm⟩)
      refine (mappages_kernel h₂ hd₁ perm (by decide) (by omega) fun _ _ => trivial).imp
        fun r s₂ hs₂ _ => ?_
      obtain ⟨own₂, -, -, hkeep', -⟩ := hs₂
      refine hkeep'.hasKernel h₂ hd₁ ⟨t, ?_, ?_⟩
      · have htd : d ≠ t := fun heq => by
          rw [heq, ht] at hd₁
          cases hd₁
        rwa [Owns.tableAt_write _ htd]
      · simp

/-- Page tables that have been added are freed with the page directory. -/
lemma Tables.freed_eq (h : Tables d own own') : freed d own' = freed d own := by
  funext q
  unfold freed
  obtain hq | ⟨hfree, i, hi⟩ := h q
  · rw [hq]
  · simp [hi, hfree, Place.dirOf]

/-- Pages that have been freed are not freed with the page directory. -/
lemma Drops.freed_eq (h : Drops d own own') : freed d own' = freed d own := by
  funext q
  unfold freed
  obtain hq | ⟨⟨v, hv⟩, hfree⟩ := h q
  · rw [hq]
  · simp [hv, hfree, Place.dirOf]

/-- The virtual pages of entries of `kmap`. -/
def kmapPages : List Kmap → Finset Nat
  | [] => ∅
  | m :: ms => Finset.Ico m.virt (m.virt + m.count) ∪ kmapPages ms

/-- The entries come in order and do not overlap, and their pages are not mapped. -/
def Unmapped (s : Phys) (d : Page) (ms : List Kmap) : Prop :=
  (∀ w ∈ kmapPages ms, s.pteAt d w = none) ∧ ms.Pairwise fun m m' => m.virt + m.count ≤ m'.virt

variable {ms : List Kmap} {w : Nat}

lemma mem_kmapPages : w ∈ kmapPages ms ↔ ∃ m ∈ ms, m.virt ≤ w ∧ w < m.virt + m.count := by
  induction ms with
  | nil => simp [kmapPages]
  | cons m ms ih => simp [kmapPages, ih]

lemma mapKernel_spec (h : Owns k own s) (hd : own d = .dir d)
    (hms : ∀ m ∈ ms, kernPage ≤ m.virt ∧ m.virt + m.count ≤ nPages)
    (hE : ¬ Unmapped s d ms → ∀ s', E .remap s') :
    wp (mapKernel k fails d ms) s (fun r s' => match r with
      | none => Owns k (freed d own) s' ∧ KeepsBut d own s s' ∧
          RunsOut fails s d 0 ((kmapPages ms).image (· / nEntries))
      | some e => e = d ∧ (∃ own', Owns k own' s' ∧ Tables d own own' ∧ Keeps own s s') ∧
          Grows fails own d 0 ((kmapPages ms).image (· / nEntries)) (kmapPages ms) s s' ∧
          (ms.Pairwise (fun m m' => m.virt + m.count ≤ m'.virt) →
            ∀ w ∈ kmapPages ms, ∃ m ∈ ms, ∃ q, s'.pteAt d w = some ⟨q, m.perm⟩)) E := by
  induction ms generalizing own s with
  | nil =>
    refine ⟨rfl, ⟨own, h, .refl d own, .of_mem rfl⟩, ?_⟩
    simpa [kmapPages] using Grows.refl own d s
  | cons m ms ih =>
    obtain ⟨hvirt, hcount⟩ := hms m (.head _)
    have htables : (kmapPages (m :: ms)).image (· / nEntries) =
        tablesOf m.virt m.count ∪ (kmapPages ms).image (· / nEntries) := Finset.image_union ..
    rw [mapKernel, htables]
    refine (mappages_kernel h hd m.perm hvirt hcount fun ⟨w, hlo, hhi, hw⟩ => ?_).seq
      fun r s₁ ⟨own₁, h₁, htab, hkeep, hr⟩ => ?_
    · refine hE fun hun => hw (hun.1 w (mem_kmapPages.mpr ⟨m, (.head _), hlo, hhi⟩))
    have hd₁ : own₁ d = .dir d := (htab.eq (by rw [hd]; exact nofun)).trans hd
    cases r with
    | true =>
      obtain ⟨hr, hflags⟩ := hr
      rw [wp_ite, if_pos rfl]
      refine (ih h₁ hd₁ (fun m hm => hms m (.tail _ hm)) fun hnot => ?_).imp fun r s₂ hr₂ => ?_
      · -- the pages of the later entries are still not mapped
        refine hE fun ⟨hnone, hsorted⟩ => hnot ⟨fun w hw => ?_, (List.pairwise_cons.mp hsorted).2⟩
        obtain ⟨m', hm', hlo, hhi⟩ := mem_kmapPages.mp hw
        have hafter := (List.pairwise_cons.mp hsorted).1 m' hm'
        have hle := (hms m' (.tail _ hm')).2
        have hnot : w ∉ Finset.Ico m.virt (m.virt + m.count) := by
          rw [Finset.mem_Ico]
          omega
        rw [hr.pte d w hd (by omega) fun _ => hnot]
        exact hnone w (Finset.mem_union_right _ hw)
      · cases r with
        | none =>
          obtain ⟨hfreed, hbut, hout⟩ := hr₂
          exact ⟨htab.freed_eq ▸ hfreed, hkeep.trans_but hbut fun t ht => htab.kernel ht, hr.runsOut hout⟩
        | some e =>
          obtain ⟨he, ⟨own₂, h₂, htab₂, hkeep₂⟩, hgrow, hlater⟩ := hr₂
          refine ⟨he, ⟨own₂, h₂, htab.trans htab₂, hkeep.trans hkeep₂ fun t ht => htab.kernel ht⟩,
            hr.trans hgrow htab.settled, fun hsorted w hw => ?_⟩
          obtain ⟨hafter, hsorted⟩ := List.pairwise_cons.mp hsorted
          by_cases hwm : w ∈ kmapPages ms
          · obtain ⟨m', hm', hpte⟩ := hlater hsorted w hwm
            exact ⟨m', List.mem_cons_of_mem _ hm', hpte⟩
          · have hw' := (Finset.mem_union.mp hw).resolve_right hwm
            have hlt : w < nPages := (Finset.mem_Ico.mp hw').2.trans_le hcount
            rw [hgrow.pte d w hd₁ hlt fun _ => hwm]
            exact ⟨m, (.head _), hflags w hw'⟩
    | false =>
      rw [wp_ite, if_neg (by decide)]
      refine (freevm_spec h₁ hd₁).seq fun _ s₂ ⟨h₂, hbut, _⟩ => ?_
      exact ⟨htab.freed_eq ▸ h₂, hkeep.trans_but hbut fun t ht => htab.kernel ht,
        hr.mono le_rfl Finset.subset_union_left⟩

lemma mem_kmap_bounds {m : Kmap} (hm : m ∈ kmap k) : kernPage ≤ m.virt ∧ m.virt + m.count ≤ nPages := by
  have := k.extMem_lt
  have := k.data_le
  have := k.endPage_le
  unfold extMem physStop at *
  simp only [kmap, List.mem_cons, List.not_mem_nil, or_false] at hm
  obtain rfl | rfl | rfl | rfl := hm <;>
    simp [kernPage, extMem, physStop, devSpace, nPages, nEntries]
  · omega
  · omega

lemma kmap_sorted (k : Image) : (kmap k).Pairwise fun m m' => m.virt + m.count ≤ m'.virt := by
  have := k.extMem_lt
  have := k.data_le
  have := k.endPage_le
  unfold extMem physStop at *
  simp only [kmap, List.pairwise_cons, List.mem_cons, List.not_mem_nil, or_false, forall_eq_or_imp,
    forall_eq, kernPage, extMem, physStop, devSpace]
  refine ⟨⟨?_, ?_, ?_⟩, ⟨?_, ?_⟩, ?_, nofun, .nil⟩ <;> omega

lemma mapKernel_hasKernel (h : Owns k own s) (hd : own d = .dir d) :
    wp (mapKernel k fails d (kmap k)) s (fun r s' => ∀ e ∈ r, s'.HasKernel d) fun _ _ => True := by
  obtain ⟨m, ms, hkmap, hvirt, hpos⟩ : ∃ m ms, kmap k = m :: ms ∧ m.virt = kernPage ∧ 0 < m.count :=
    ⟨_, _, rfl, rfl, by decide⟩
  have hms : ∀ x ∈ kmap k, kernPage ≤ x.virt ∧ x.virt + x.count ≤ nPages := fun x => mem_kmap_bounds
  rw [hkmap] at hms ⊢
  obtain ⟨hle, hcount⟩ := hms m (.head _)
  rw [mapKernel]
  rw [hvirt] at hle hcount ⊢
  have hmap : wp (mappages fails d m.perm m.count kernPage m.phys) s _ fun _ _ => True :=
    mappages_kernel h hd m.perm hle hcount fun _ _ => trivial
  refine (hmap.and (mappages_hasKernel h hd m.perm hpos hcount)).bind
    (fun r s₁ ⟨⟨own₁, h₁, htab, _⟩, hkern⟩ => ?_) fun _ _ _ => trivial
  have hd₁ : own₁ d = .dir d := (htab.eq (by rw [hd]; exact nofun)).trans hd
  rw [wp_ite]
  split
  next hr =>
    refine (mapKernel_spec h₁ hd₁ (fun x hx => hms x (.tail _ hx)) fun _ _ => trivial).imp
      fun r s₂ hr' e he => ?_
    cases he
    obtain ⟨-, ⟨own₂, -, -, hkeep⟩, -⟩ := hr'
    exact hkeep.hasKernel h₁ hd₁ (hkern hr)
  next => exact (freevm_spec h₁ hd₁).seq fun _ s₂ _ => nofun

/-- The indices of the kernel's page tables. -/
def kernTabs (k : Image) : Finset Nat := (kmapPages (kmap k)).image (· / nEntries)

/-- A page directory that maps the kernel and nothing else has been built. Nothing else has changed. -/
structure NewDir (k : Image) (fails : Nat → Bool) (own : Page → Place) (d : Page) (s s' : Phys) :
    Prop where
  pte : ∀ e w, own e = .dir e → w < nPages → s'.pteAt e w = s.pteAt e w
  table : ∀ e i, own e = .dir e → s'.tableAt e i = s.tableAt e i
  data : ∀ q, (own q).Plain → own q ≠ .free → s'.mem q = s.mem q
  tabs : s'.tabs d = kernTabs k
  user : ∀ w < kernPage, s'.pteAt d w = none
  /-- what is mapped has the permissions of `kmap` -/
  perm : ∀ w < nPages, ∀ e, s'.pteAt d w = some e → ∃ m ∈ kmap k, e.flags = m.perm
  enough : ∀ T x, kernTabs k ⊆ T → (Enough fails s' d T x ↔ Gives fails s (T.card + x + 1))

lemma kernPage_le_of_kmap (hw : w ∈ kmapPages (kmap k)) : kernPage ≤ w := by
  obtain ⟨m, hm, hlo, -⟩ := mem_kmapPages.mp hw
  exact (mem_kmap_bounds hm).1.trans hlo

lemma clear_grows (h : Owns k (update own p .held) s') (hfree : own p = .free)
    (hmem : s'.mem = s.mem) (hgives : ∀ n, Gives fails s' n ↔ Gives fails s (n + 1)) {e : Page}
    (he : own e = .dir e) : Grows fails own e 1 ∅ ∅ s { s' with mem := update s'.mem p zeroes } := by
  have hplain : (update own p .held p).Plain := by
    rw [update_self]
    exact Place.plain_held
  have hrefl : Settled own own := fun _ _ => rfl
  simpa using (Grows.of_kalloc hmem hgives).trans
    (.write h (Settled.take hfree) he hfree hplain zeroes) hrefl

lemma clear_empty (s : Phys) (d : Page) :
    Phys.tabs { s with mem := update s.mem d zeroes } d = ∅ ∧
      ∀ w, Phys.pteAt { s with mem := update s.mem d zeroes } d w = none := by
  have hat : ∀ i, Phys.tableAt { s with mem := update s.mem d zeroes } d i = none := fun i => by
    simp [Phys.tableAt]
  refine ⟨?_, fun w => by rw [Phys.pteAt, hat]; rfl⟩
  simp [Phys.tabs, hat]

lemma NewDir.of_grows (h : Owns k (update own d .held) s') (hfree : own d = .free)
    (hmem : s'.mem = s.mem) (hgives : ∀ n, Gives fails s' n ↔ Gives fails s (n + 1))
    (hgrow : Grows fails (update own d (.dir d)) d 0 (kernTabs k) (kmapPages (kmap k))
      { s' with mem := update s'.mem d zeroes } s'')
    (hperm : ∀ w ∈ kmapPages (kmap k), ∃ m ∈ kmap k, ∃ q, s''.pteAt d w = some ⟨q, m.perm⟩) :
    NewDir k fails own d s s'' := by
  obtain ⟨htabs, hnone⟩ := clear_empty s' d
  have hsame : ∀ q ≠ d, update own d (.dir d) q = own q := fun q hq =>
    update_of_ne hq ..
  have hne : ∀ e, own e = .dir e → e ≠ d := fun e he heq => by
    rw [heq, hfree] at he
    cases he
  constructor
  · intro e w he hw
    rw [hgrow.pte e w ((hsame e (hne e he)).trans he) hw fun heq => absurd heq (hne e he)]
    exact (clear_grows h hfree hmem hgives he).pte e w he hw fun _ => Finset.notMem_empty w
  · intro e i he
    rw [hgrow.table e i ((hsame e (hne e he)).trans he) (hne e he),
      Owns.tableAt_write _ (hne e he), Phys.tableAt, hmem, Phys.tableAt]
  · intro q hq hqfree
    have hqd : q ≠ d := fun heq => hqfree (heq ▸ hfree)
    rw [hgrow.data q (by rwa [hsame q hqd]) (by rwa [hsame q hqd])]
    simp only [update_of_ne hqd, hmem]
  · rw [hgrow.tabs, htabs, Finset.empty_union]
  · intro w hw
    have hnot : w ∉ kmapPages (kmap k) := fun hmem => hw.not_ge (kernPage_le_of_kmap hmem)
    rw [hgrow.pte d w (update_self ..) (hw.trans (by decide)) fun _ => hnot]
    exact hnone w
  · intro w hw e he
    by_cases hmap : w ∈ kmapPages (kmap k)
    · obtain ⟨m, hm, q, hq⟩ := hperm w hmap
      exact ⟨m, hm, by rw [← Option.mem_unique hq he]⟩
    · rw [hgrow.pte d w (update_self ..) hw fun _ => hmap, hnone w] at he
      cases he
  · intro T x hT
    rw [hgrow.enough T x hT, Enough, htabs, Finset.sdiff_empty, Nat.add_zero]
    exact hgives _

/-- `setupkvm` leaves everything as it was, or builds one page directory out of free pages. -/
lemma setupkvm_spec (h : Owns k own s) :
    wp (setupkvm k fails) s (fun r s' => Keeps own s s' ∧ match r with
      | none => Owns k own s' ∧ ∀ T x, kernTabs k ⊆ T → ¬ Gives fails s (T.card + x + 1)
      | some d => (own d = .free ∧ s'.HasKernel d ∧
          ∃ own', Owns k own' s' ∧ Tables d (update own d (.dir d)) own') ∧
          NewDir k fails own d s s') E := by
  rw [setupkvm]
  refine ((kalloc_spec h (E := E)).and (kalloc_gives (E := E))).bind
    (fun r s₁ hs₁ => ?_) fun _ _ h => h.1
  obtain ⟨⟨hmem, hr⟩, hgives⟩ := hs₁
  cases r with
  | none => exact ⟨.of_mem hmem, hr, fun T x _ hg => hgives (hg.mono (by omega))⟩
  | some d =>
    obtain ⟨hfree, h₁⟩ := hr
    simp only [setTable, wp_bind, wp_get, wp_set]
    rw [wp_ite, if_neg (by decide)]
    have hheld : update own d .held d = .held := update_self ..
    have h₂ := (h₁.write (hheld ▸ Place.plain_held) zeroes).addDir hheld (by simp)
    rw [Function.update_idem] at h₂
    have hd₂ : update own d (.dir d) d = .dir d := update_self ..
    -- the page was free, so that nothing belonged to it
    have hnot : ∀ q, (own q).dirOf ≠ some d := fun q hq => by
      have := h.dir_of_dirOf hq
      rw [hfree] at this
      cases this
    have hback : freed d (update own d (.dir d)) = own := funext fun q => by
      unfold freed
      by_cases hq : q = d
      · subst hq
        simp [hfree, Place.dirOf]
      · rw [update_of_ne hq, if_neg (hnot q)]
    have hsame : ∀ t, (own t).Kernel → update own d (.dir d) t = own t := fun t ht =>
      update_of_ne (fun heq => by rw [heq, hfree] at ht; exact ht) ..
    have hkeep₂ : Keeps own s { s₁ with mem := update s₁.mem d zeroes } := by
      have hplain : ¬ (own d).Kernel := by
        rw [hfree]
        exact id
      exact (Keeps.of_mem hmem).trans (Keeps.write hplain _) fun _ _ => rfl
    have hbut : ∀ {s'}, KeepsBut d (update own d (.dir d))
        { s₁ with mem := update s₁.mem d zeroes } s' → Keeps own s s' :=
      fun hbut t i e ht he => hbut t i e (by rw [hsame t ht]; exact ht)
        (by rw [hsame t ht]; exact hnot t) (hkeep₂ t i e ht he)
    obtain ⟨htabs, hnone⟩ := clear_empty s₁ d
    have hmap : wp (mapKernel k fails d (kmap k)) _ _ E :=
      mapKernel_spec h₂ hd₂ (fun m => mem_kmap_bounds) fun hmapped =>
        absurd ⟨fun w _ => hnone w, kmap_sorted k⟩ hmapped
    refine (hmap.and (mapKernel_hasKernel h₂ hd₂)).mono (fun r s₃ hs₃ => ?_) fun _ _ h => h.1
    obtain ⟨hr, hkern⟩ := hs₃
    cases r with
    | none =>
      obtain ⟨hown, hkeep, hout⟩ := hr
      refine ⟨hbut hkeep, hback ▸ hown, fun T x hT hg => hout T x hT ?_⟩
      rw [Enough, htabs, Finset.sdiff_empty, Nat.add_zero]
      exact (hgives _).mpr hg
    | some e =>
      obtain ⟨rfl, ⟨own₃, h₃, htab, hkeep⟩, hgrow, hperm⟩ := hr
      exact ⟨hbut (hkeep.but e), ⟨hfree, hkern e rfl, own₃, h₃, htab⟩,
        .of_grows h₁ hfree hmem hgives hgrow (hperm (kmap_sorted k))⟩

/-! ### User pages -/

/-- Whether the page is a page directory (`true`), or somebody has it (`false`). -/
def Place.root : Place → Option Bool
  | .dir _ => some true
  | .held => some false
  | _ => none

/-- The page directories, their page tables and the pages that somebody has stay, and there are no
further page directories or pages that somebody has. -/
structure Stays (own own' : Page → Place) : Prop where
  kernel : ∀ q, (own q).Kernel → own' q = own q
  root : ∀ q, (own' q).root = (own q).root

lemma Stays.refl (own : Page → Place) : Stays own own := ⟨fun _ _ => rfl, fun _ => rfl⟩

lemma Stays.trans (h : Stays own own') (h' : Stays own' own'') : Stays own own'' :=
  ⟨fun q hq => (h'.kernel q (by rw [h.kernel q hq]; exact hq)).trans (h.kernel q hq),
    fun q => (h'.root q).trans (h.root q)⟩

lemma Stays.dir (h : Stays own own') (hd : own d = .dir d) : own' d = .dir d :=
  (h.kernel d (by rw [hd]; trivial)).trans hd

lemma Stays.held (h : Stays own own') (hp : own p = .held) : own' p = .held := by
  have hroot := h.root p
  rw [hp] at hroot
  cases heq : own' p with
  | held => rfl
  | _ =>
    rw [heq] at hroot
    cases hroot

lemma Drops.stays (h : Drops d own own') : Stays own own' := by
  refine ⟨fun q => h.kernel, fun q => ?_⟩
  obtain hq | ⟨⟨v, hv⟩, hq⟩ := h q
  · rw [hq]
  · rw [hq, hv]
    rfl

lemma Tables.stays (h : Tables d own own') : Stays own own' := by
  refine ⟨fun q => h.kernel, fun q => ?_⟩
  obtain hq | ⟨hfree, i, hi⟩ := h q
  · rw [hq]
  · rw [hi, hfree]
    rfl

lemma Stays.of_fresh (hfree : own p = .free) (h : Stays (update own p .held) own')
    {x : Place} (hx : x.root = none) : Stays own (update own' p x) := by
  constructor
  · intro q hq
    have hqp : q ≠ p := fun heq => by
      rw [heq, hfree] at hq
      exact hq
    have hq' : update own p .held q = own q := update_of_ne hqp ..
    rw [update_of_ne hqp, h.kernel q (by rw [hq']; exact hq), hq']
  · intro q
    by_cases hqp : q = p
    · rw [hqp, update_self, hx, hfree]
      rfl
    · rw [update_of_ne hqp, h.root q, update_of_ne hqp]

lemma Stays.kernel_of_fresh (hfree : own p = .free)
    (h : Stays (update own p .held) own') (ht : (own t).Kernel) : own' t = own t := by
  have htp : t ≠ p := fun heq => by
    rw [heq, hfree] at ht
    exact ht
  have := (h.of_fresh hfree (x := .free) rfl).kernel t ht
  rwa [update_of_ne htp] at this

/-- A page from the free list is written to and mapped. -/
lemma mapFresh_spec (hd : own d = .dir d) (hv : v < kernPage) (perm : Nat) (hfree : own p = .free)
    (h : Owns k (update own p .held) s) (m : Table)
    (hE : s.pteAt d v ≠ none → ∀ s', E .remap s') :
    wp (do setTable p m; mappages fails d perm 1 v p) s (fun r s' => ∃ own', Owns k own' s' ∧
      Keeps own s s' ∧ match r with
        | true => (Stays own own' ∧ Settled own own' ∧ own' p = .user d v ∧ freed d own' = freed d own) ∧
            Grows fails own d 0 {v / nEntries} {v} s s' ∧ s'.pteAt d v = some ⟨p, perm⟩ ∧ s'.mem p = m
        | false => Tables d (update own p .held) own' ∧
            RunsOut fails s d 0 {v / nEntries}) E := by
  have hpd : d ≠ p := fun heq => by
    rw [← heq, hd] at hfree
    cases hfree
  have hplain : ¬ (own p).Kernel := by
    rw [hfree]
    exact id
  have hheld : update own p .held p = .held := update_self ..
  have hheldPlain : (update own p .held p).Plain := by
    rw [hheld]
    exact Place.plain_held
  have hd₁ : update own p .held d = .dir d := by rw [update_of_ne hpd, hd]
  have hwrite : Grows fails own d 0 ∅ ∅ s { s with mem := update s.mem p m } :=
    .write h (Settled.take hfree) hd hfree hheldPlain m
  have hpage : v < nPages := hv.trans (by decide)
  simp only [setTable, wp_bind, wp_get, wp_set]
  have h₁ := h.write (q := p) hheldPlain m
  refine (mappages_user h₁ hd₁ hheld hv perm ?free).imp ?mapped
  case free =>
    rw [hwrite.pte d v hd hpage fun _ => Finset.notMem_empty v]
    exact hE
  case mapped =>
    rintro r s' ⟨own', h', hkeep, hr⟩
    have hkeep' : Keeps own s s' := (Keeps.write hplain m).trans hkeep fun t ht => by
      have htp : t ≠ p := fun heq => hplain (heq ▸ ht)
      exact update_of_ne htp ..
    refine ⟨own', h', hkeep', ?_⟩
    cases r with
    | false => exact ⟨hr.1, by simpa using hwrite.runsOut hr.2⟩
    | true =>
      obtain ⟨⟨hp, hothers⟩, hgrow, hpte⟩ := hr
      -- the others have changed as if the page were still held
      have htab : Tables d (update own p .held) (update own' p .held) := fun q => by
        by_cases hqp : q = p
        · exact .inl (by rw [hqp, update_self, update_self])
        · rw [show update own' p .held q = own' q from update_of_ne hqp ..]
          exact hothers q hqp
      have hstay := htab.stays.of_fresh hfree (x := .user d v) rfl
      rw [Function.update_idem, ← hp, Function.update_eq_self] at hstay
      have hsettled : Settled own own' := fun q hq => by
        have hqp : q ≠ p := fun heq => hq (by rw [heq, hfree])
        have hsame : update own p .held q = own q := update_of_ne hqp ..
        obtain heq | ⟨hqfree, -⟩ := hothers q hqp
        · exact heq.trans hsame
        · exact absurd (hsame.symm.trans hqfree) hq
      have hfreed : freed d own' = freed d own := funext fun q => by
        by_cases hqp : q = p
        · simp [freed, hqp, hp, hfree, Place.dirOf]
        · have := congrFun htab.freed_eq q
          simpa only [freed, update_of_ne hqp] using this
      refine ⟨⟨hstay, hsettled, hp, hfreed⟩, by simpa using hwrite.trans hgrow (Settled.take hfree), hpte, ?_⟩
      rw [hgrow.data p hheldPlain (by rw [hheld]; simp)]
      exact update_self ..

/-- The indices of the page tables for the virtual pages of a list. -/
def tablesFor (vs : List Nat) : Finset Nat := vs.toFinset.image (· / nEntries)

lemma tablesFor_cons (v : Nat) (vs : List Nat) : tablesFor (v :: vs) = {v / nEntries} ∪ tablesFor vs := by
  rw [tablesFor, List.toFinset_cons, Finset.image_insert]
  rfl

lemma Grows.of_fresh (hmem : s'.mem = s.mem) (hgives : ∀ n, Gives fails s' n ↔ Gives fails s (n + 1))
    (hgrow : Grows fails own d 0 {v / nEntries} {v} s' s'') : Grows fails own d 1 {v / nEntries} {v} s s'' := by
  have hrefl : Settled own own := fun _ _ => rfl
  simpa using (Grows.of_kalloc hmem hgives).trans hgrow hrefl

lemma RunsOut.of_fresh (hmem : s'.mem = s.mem) (hgives : ∀ n, Gives fails s' n ↔ Gives fails s (n + 1))
    (hout : RunsOut fails s' d 0 {v / nEntries}) : RunsOut fails s d 1 {v / nEntries} := by
  have hgrow : Grows fails (fun _ => .free) d 1 ∅ ∅ s s' := .of_kalloc hmem hgives
  simpa using hgrow.runsOut hout

lemma allocLoop_spec {vs : List Nat} (h : Owns k own s) (hd : own d = .dir d)
    (hnew : newsz ≤ kernBase) (hvs : ∀ v ∈ vs, v < kernPage)
    (hE : ¬ ((∀ v ∈ vs, s.pteAt d v = none) ∧ vs.Nodup) → ∀ s', E .remap s') :
    wp (allocLoop k fails d oldsz newsz vs) s (fun r s' => ∃ own', Owns k own' s' ∧ Stays own own' ∧
      Keeps own s s' ∧ freed d own' = freed d own ∧
      (r = newsz ∧ Settled own own' ∧ Grows fails own d vs.length (tablesFor vs) vs.toFinset s s' ∧
          (∀ v ∈ vs, ∃ q, s'.pteAt d v = some ⟨q, pteWU⟩) ∨
        r = 0 ∧ RunsOut fails s d vs.length (tablesFor vs))) E := by
  induction vs generalizing own s with
  | nil =>
    exact ⟨own, h, .refl own, .of_mem rfl, rfl, .inl ⟨rfl, fun _ _ => rfl, .refl own d s, nofun⟩⟩
  | cons v vs ih =>
    have hv : v < kernPage := hvs v (.head _)
    rw [allocLoop, tablesFor_cons, List.length_cons, Nat.add_comm vs.length]
    refine ((kalloc_spec h (E := E)).and (kalloc_gives (E := E))).bind
      (fun r s₁ ⟨⟨hmem, hr⟩, hgives⟩ => ?_) fun _ _ h => h.1
    cases r with
    | none =>
      refine (deallocuvm_spec hr hd hnew).seq fun _ s₂ ⟨own₂, h₂, hdrop, hkeep, _⟩ => ?_
      refine ⟨own₂, h₂, hdrop.stays, (Keeps.of_mem hmem).trans hkeep fun _ _ => rfl, hdrop.freed_eq,
        .inr ⟨rfl, ?_⟩⟩
      exact (RunsOut.of_kalloc hgives).mono (by omega) (Finset.empty_subset _)
    | some p =>
      obtain ⟨hfree, h₁⟩ := hr
      have htake : Grows fails own d 1 ∅ ∅ s s₁ := .of_kalloc hmem hgives
      have hmap : wp (do setTable p zeroes; mappages fails d pteWU 1 v p) s₁ _ E :=
        mapFresh_spec hd hv pteWU hfree h₁ zeroes fun hpte => hE fun hun => hpte <| by
          rw [htake.pte d v hd (hv.trans (by decide)) fun _ => Finset.notMem_empty v]
          exact hun.1 v (.head _)
      rw [wp_bind] at hmap
      refine hmap.seq fun _ s₂ hmap => ?_
      refine hmap.seq fun r s₃ ⟨own₃, h₃, hkeep₃, hr⟩ => ?_
      have hkeep₃' : Keeps own s s₃ := (Keeps.of_mem hmem).trans hkeep₃ fun _ _ => rfl
      cases r with
      | true =>
        obtain ⟨⟨hstay₃, hsettled, -, hfreed₃⟩, hgrow, hnew, -⟩ := hr
        have hgrow₃ := Grows.of_fresh hmem hgives hgrow
        refine (ih h₃ (hstay₃.dir hd) (fun v hv => hvs v (.tail _ hv)) ?rest).imp ?done
        case rest =>
          refine fun hnot => hE fun ⟨hnone, hnodup⟩ => hnot ⟨fun w hw => ?_, (List.nodup_cons.mp hnodup).2⟩
          have hne : w ∉ ({v} : Finset Nat) := fun hmem =>
            (List.nodup_cons.mp hnodup).1 (Finset.mem_singleton.mp hmem ▸ hw)
          have hw' := List.mem_cons_of_mem v hw
          rw [hgrow₃.pte d w hd ((hvs w hw').trans (by decide)) fun _ => hne]
          exact hnone w hw'
        case done =>
          intro _ s₄ ⟨own₄, h₄, hstay, hkeep, hfreed, hend⟩
          refine ⟨own₄, h₄, hstay₃.trans hstay, hkeep₃'.trans hkeep hstay₃.kernel, hfreed.trans hfreed₃, ?_⟩
          rw [List.toFinset_cons, Finset.insert_eq]
          refine hend.imp (fun ⟨hr, hsettled₄, hrest, hall⟩ =>
            ⟨hr, hsettled.trans hsettled₄, hgrow₃.trans hrest hsettled, fun w hw => ?_⟩) fun hout =>
            ⟨hout.1, hgrow₃.runsOut hout.2⟩
          by_cases hwv : w ∈ vs
          · exact hall w hwv
          · obtain rfl := (List.mem_cons.mp hw).resolve_right hwv
            rw [hrest.pte d w (hstay₃.dir hd) (hv.trans (by decide)) fun _ hmem =>
              hwv (List.mem_toFinset.mp hmem), hnew]
            exact ⟨p, rfl⟩
      | false =>
        obtain ⟨htab, hout⟩ := hr
        have hstay := htab.stays
        have hd₃ : own₃ d = .dir d :=
          (hstay.kernel_of_fresh hfree (by rw [hd]; trivial)).trans hd
        refine (deallocuvm_spec h₃ hd₃ hnew).seq fun _ s₄ ⟨own₄, h₄, hdrop, hkeep₄, _⟩ => ?_
        have hstay₄ := hstay.trans hdrop.stays
        refine (kfree_spec h₄ (hstay₄.held (update_self ..))).seq
          fun _ s₅ ⟨h₅, hmem₅⟩ => ?_
        refine ⟨_, h₅, hstay₄.of_fresh hfree rfl, ?_, funext fun q => ?_, .inr ⟨rfl, ?_⟩⟩
        · refine (hkeep₃'.trans hkeep₄ fun t => hstay.kernel_of_fresh hfree).trans
            (Keeps.of_write (by rw [hfree]; exact id) hmem₅) fun _ _ => rfl
        · by_cases hqp : q = p
          · simp [freed, hqp, hfree, Place.dirOf]
          · have := congrFun (hdrop.freed_eq.trans htab.freed_eq) q
            simpa only [freed, update_of_ne hqp] using this
        · exact (RunsOut.of_fresh hmem hgives hout).mono (by omega) Finset.subset_union_left

lemma allocuvm_spec (h : Owns k own s) (hd : own d = .dir d)
    (hE : (∃ v ∈ growRange oldsz newsz, s.pteAt d v ≠ none) → ∀ s', E .remap s') :
    wp (allocuvm k fails d oldsz newsz) s (fun r s' => ∃ own', Owns k own' s' ∧ Stays own own' ∧
      Keeps own s s' ∧ freed d own' = freed d own ∧ (oldsz ≤ newsz → newsz < kernBase →
        r = newsz ∧ Settled own own' ∧
          Grows fails own d (growRange oldsz newsz).length (tablesFor (growRange oldsz newsz))
            (growRange oldsz newsz).toFinset s s' ∧
          (∀ v ∈ growRange oldsz newsz, ∃ q, s'.pteAt d v = some ⟨q, pteWU⟩) ∨
        r = 0 ∧
          RunsOut fails s d (growRange oldsz newsz).length (tablesFor (growRange oldsz newsz)))) E := by
  rw [allocuvm, wp_ite]
  split
  next hbig =>
    exact ⟨own, h, .refl own, .of_mem rfl, rfl, fun _ hlt => absurd hbig hlt.not_ge⟩
  next hnew =>
    rw [wp_ite]
    split
    next hlt =>
      exact ⟨own, h, .refl own, .of_mem rfl, rfl, fun hle => absurd hlt hle.not_gt⟩
    next =>
      have hle : newsz ≤ kernBase := (not_le.mp hnew).le
      refine (allocLoop_spec h hd hle ?below ?unmapped).imp ?done
      case below =>
        exact fun v hv => Nat.lt_of_lt_of_le (mem_growRange.mp hv).2 (pgUp_le_kernPage hle)
      case unmapped =>
        refine fun hnot => hE (by_contra fun hall => hnot ⟨fun v hv => ?_, List.nodup_range'⟩)
        exact by_contra fun hne => hall ⟨v, hv, hne⟩
      case done => exact fun _ s' ⟨own', h', hstay, hkeep, hfreed, hend⟩ =>
        ⟨own', h', hstay, hkeep, hfreed, fun _ _ => hend⟩

end Xv6.Vm
