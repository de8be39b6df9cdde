import Xv6.Vm.Owner

/-!
# How far memory lasts

A call that builds up a page directory takes pages for its page tables and for what it maps, and gives up
when `kalloc` fails. Which calls fail is decided by the state before: `Enough` says that memory lasts for
the page tables of a set of indices and some number of other pages. A step towards that goal leaves `Enough`
as it is (`Grows`), and a step that fails refutes it (`RunsOut`); so the whole call succeeds exactly if
memory lasts for all of it.

`Grows` also says what the step leaves alone: all entries but those it makes, and what is in the pages that
are in use.
-/

namespace Xv6.Vm

open Function (update update_self update_of_ne update_apply)
open Lib

/-- How many virtual pages there are. -/
def nPages : Nat := nEntries * nEntries

/-- The entry for virtual page `v`. -/
def Phys.pteAt (s : Phys) (d : Page) (v : Nat) : Option Entry :=
  (s.tableAt d (v / nEntries)).bind fun t => (s.mem t (v % nEntries)).present

/-- The indices at which the page directory has a page table. -/
def Phys.tabs (s : Phys) (d : Page) : Finset Nat :=
  (Finset.range nEntries).filter fun i => (s.tableAt d i).isSome

/-- The next `n` calls of `kalloc` succeed. -/
def Gives (fails : Nat → Bool) (s : Phys) (n : Nat) : Prop :=
  n ≤ s.freelist.length ∧ ∀ i < n, fails (s.calls + i) = false

/-- Memory lasts for the page tables of `d` at the indices of `T`, and `x` other pages. -/
def Enough (fails : Nat → Bool) (s : Phys) (d : Page) (T : Finset Nat) (x : Nat) : Prop :=
  Gives fails s ((T \ s.tabs d).card + x)

/-- It does not last for the page tables at the indices of `A` and `c` other pages. -/
def RunsOut (fails : Nat → Bool) (s : Phys) (d : Page) (c : Nat) (A : Finset Nat) : Prop :=
  ∀ T x, A ⊆ T → ¬ Enough fails s d T (x + c)

/-- Page tables for the indices of `A` have been added to `d`, other pages have been taken, `c` of them,
and entries have been made in `d` for the virtual pages of `W`. Nothing else has changed. -/
structure Grows (fails : Nat → Bool) (own : Page → Place) (d : Page) (c : Nat) (A W : Finset Nat)
    (s s' : Phys) : Prop where
  pte : ∀ e w, own e = .dir e → w < nPages → (e = d → w ∉ W) → s'.pteAt e w = s.pteAt e w
  table : ∀ e i, own e = .dir e → e ≠ d → s'.tableAt e i = s.tableAt e i
  tabs : s'.tabs d = s.tabs d ∪ A
  data : ∀ q, (own q).Plain → own q ≠ .free → s'.mem q = s.mem q
  enough : ∀ T x, A ⊆ T → (Enough fails s' d T x ↔ Enough fails s d T (x + c))

variable {k : Image} {fails : Nat → Bool} {own own' : Page → Place} {s s' s'' : Phys} {d t p : Page}
  {v c c' : Nat} {A A' W W' : Finset Nat}

/-! ### Entries -/

lemma Phys.userAt_eq_pteAt (s : Phys) (d : Page) (v : Nat) : s.userAt d v = (s.pteAt d v).map Entry.page := by
  unfold Phys.userAt Phys.pteAt
  rw [Option.map_bind]
  rfl

lemma Phys.mem_tabs {i : Nat} : i ∈ s.tabs d ↔ i < nEntries ∧ (s.tableAt d i).isSome := by
  rw [Phys.tabs, Finset.mem_filter, Finset.mem_range]

lemma div_lt_of_page (hv : v < nPages) : v / nEntries < nEntries :=
  Nat.div_lt_of_lt_mul hv

lemma page_eq {w : Nat} (hdiv : w / nEntries = v / nEntries) (hmod : w % nEntries = v % nEntries) : w = v := by
  rw [← Nat.div_add_mod w nEntries, hdiv, hmod, Nat.div_add_mod]

/-! ### The supply -/

lemma Gives.zero : Gives fails s 0 := ⟨zero_le, fun _ h => absurd h (Nat.not_lt_zero _)⟩

lemma Gives.mono {m n : Nat} (h : Gives fails s n) (hle : m ≤ n) : Gives fails s m :=
  ⟨hle.trans h.1, fun i hi => h.2 i (hi.trans_le hle)⟩

variable {E : Panic → Phys → Prop}

lemma kalloc_spec (h : Owns k own s) :
    wp (kalloc fails) s (fun r s' => s'.mem = s.mem ∧ match r with
      | none => Owns k own s'
      | some p => own p = .free ∧ Owns k (update own p .held) s') E := by
  simp only [kalloc, wp_bind, wp_get]
  split
  next =>
    simp only [wp_bind, wp_set, wp_pure]
    exact ⟨trivial, h.managed, h.free, h.nodup, h.dir, h.table, h.user⟩
  next p rest hlist =>
    simp only [wp_bind, wp_set, wp_pure]
    have hfree : s.freelist = p :: rest := by
      split at hlist
      · cases hlist
      · exact hlist
    have htake := h.take hfree
    exact ⟨trivial, (h.free p).mpr (by rw [hfree]; exact List.mem_cons_self ..),
      htake.managed, htake.free, htake.nodup, htake.dir, htake.table, htake.user⟩

lemma kalloc_gives :
    wp (kalloc fails) s (fun r s' => match r with
      | none => ¬ Gives fails s 1
      | some _ => ∀ n, Gives fails s' n ↔ Gives fails s (n + 1)) E := by
  simp only [kalloc, wp_bind, wp_get]
  split
  next hlist =>
    simp only [wp_bind, wp_set, wp_pure]
    intro h
    split at hlist
    next hf =>
      have := h.2 0 Nat.zero_lt_one
      rw [Nat.add_zero, hf] at this
      cases this
    next =>
      have := h.1
      rw [hlist] at this
      cases this
  next p rest hlist =>
    simp only [wp_bind, wp_set, wp_pure]
    split at hlist
    next => cases hlist
    next hf =>
      intro n
      unfold Gives
      rw [hlist, List.length_cons, Nat.add_le_add_iff_right]
      refine and_congr_right fun _ => ⟨fun h i hi => ?_, fun h i hi => ?_⟩
      · cases i with
        | zero => simpa using hf
        | succ i => simpa [Nat.add_assoc, Nat.add_comm 1 i] using h i (by omega)
      · simpa [Nat.add_assoc, Nat.add_comm 1 i] using h (i + 1) (by omega)

lemma enough_tabs {x : Nat} : Enough fails s d (s.tabs d) x ↔ Gives fails s x := by
  rw [Enough, Finset.sdiff_self, Finset.card_empty, Nat.zero_add]

lemma RunsOut.mono (h : RunsOut fails s d c A) (hc : c ≤ c') (hA : A ⊆ A') :
    RunsOut fails s d c' A' := fun T x hT he => by
  refine h T (x + (c' - c)) (hA.trans hT) ?_
  rwa [show x + (c' - c) + c = x + c' by omega]

/-! ### Steps -/

lemma Grows.refl (own : Page → Place) (d : Page) (s : Phys) : Grows fails own d 0 ∅ ∅ s s where
  pte _ _ _ _ _ := rfl
  table _ _ _ _ := rfl
  tabs := (Finset.union_empty _).symm
  data _ _ _ := rfl
  enough _ _ _ := Iff.rfl

/-- What belongs to a page directory, and what somebody has, is where it was. -/
def Settled (own own' : Page → Place) : Prop :=
  ∀ q, own q ≠ .free → own' q = own q

lemma Settled.take (hfree : own p = .free) : Settled own (update own p .held) := fun q hq =>
  update_of_ne (fun heq => hq (by rw [heq, hfree])) ..

lemma Settled.trans {own'' : Page → Place} (h : Settled own own') (h' : Settled own' own'') :
    Settled own own'' := fun q hq => by
  have hq' := h q hq
  exact (h' q (by rw [hq']; exact hq)).trans hq'

lemma Grows.trans (h : Grows fails own d c A W s s') (h' : Grows fails own' d c' A' W' s' s'')
    (hown : Settled own own') : Grows fails own d (c + c') (A ∪ A') (W ∪ W') s s'' where
  pte e w he hw hW := by
    have he' : own' e = .dir e := (hown e (by rw [he]; exact nofun)).trans he
    rw [h'.pte e w he' hw fun hed hmem => hW hed (Finset.mem_union_right _ hmem),
      h.pte e w he hw fun hed hmem => hW hed (Finset.mem_union_left _ hmem)]
  table e i he hne := by
    have he' : own' e = .dir e := (hown e (by rw [he]; exact nofun)).trans he
    rw [h'.table e i he' hne, h.table e i he hne]
  tabs := by rw [h'.tabs, h.tabs, Finset.union_assoc]
  data q hq hfree := by
    have hq' : own' q = own q := hown q hfree
    rw [h'.data q (hq' ▸ hq) (hq' ▸ hfree), h.data q hq hfree]
  enough T x hT := by
    rw [h'.enough T x (Finset.union_subset_right hT), h.enough T _ (Finset.union_subset_left hT),
      Nat.add_assoc, Nat.add_comm c' c]

lemma Grows.runsOut (h : Grows fails own d c A W s s') (h' : RunsOut fails s' d c' A') :
    RunsOut fails s d (c + c') (A ∪ A') := fun T x hT he => by
  refine h' T x (Finset.union_subset_right hT) ?_
  rw [h.enough T _ (Finset.union_subset_left hT)]
  rwa [Nat.add_assoc, Nat.add_comm c' c]

lemma Grows.of_kalloc (hmem : s'.mem = s.mem)
    (hgives : ∀ n, Gives fails s' n ↔ Gives fails s (n + 1)) : Grows fails own d 1 ∅ ∅ s s' := by
  have hat : ∀ e i, s'.tableAt e i = s.tableAt e i := fun e i => by rw [Phys.tableAt, hmem, Phys.tableAt]
  have htabs : s'.tabs d = s.tabs d := by simp only [Phys.tabs, hat]
  refine ⟨fun e w _ _ _ => ?_, fun e i _ _ => hat e i, by rw [htabs, Finset.union_empty], ?_, ?_⟩
  · rw [Phys.pteAt, hat, hmem, Phys.pteAt]
  · intro q _ _
    rw [hmem]
  · intro T x _
    rw [Enough, Enough, htabs, hgives, Nat.add_assoc]

lemma RunsOut.of_kalloc (h : ¬ Gives fails s 1) : RunsOut fails s d 1 ∅ := fun T x _ he =>
  h (he.mono (by omega))

lemma Owns.table_of_pteAt (h : Owns k own s) {e w u : Nat} (he : own e = .dir e) (hw : w < nPages)
    (hu : s.tableAt e (w / nEntries) = some u) : own u = .table e (w / nEntries) :=
  (h.table e _ u).mpr ⟨he, div_lt_of_page hw, hu⟩

lemma Grows.write (h : Owns k own' s) (hown : Settled own own') (hd : own d = .dir d)
    (hfree : own p = .free) (hp : (own' p).Plain) (m : Table) :
    Grows fails own d 0 ∅ ∅ s { s with mem := update s.mem p m } := by
  have hne : ∀ e, own e = .dir e → e ≠ p := fun e he heq => by
    rw [heq, hfree] at he
    cases he
  have hat : ∀ e i, own e = .dir e →
      Phys.tableAt { s with mem := update s.mem p m } e i = s.tableAt e i :=
    fun e i he => Owns.tableAt_write m (hne e he)
  have htabs : Phys.tabs { s with mem := update s.mem p m } d = s.tabs d := by
    simp only [Phys.tabs, hat d _ hd]
  refine ⟨fun e w he hw _ => ?_, fun e i he _ => hat e i he, by rw [htabs, Finset.union_empty], ?_, ?_⟩
  · rw [Phys.pteAt, hat e _ he, Phys.pteAt]
    cases hu : s.tableAt e (w / nEntries) with
    | none => rfl
    | some u =>
      have he' : own' e = .dir e := (hown e (by rw [he]; exact nofun)).trans he
      have hup : u ≠ p := fun heq => hp.2 e _ (heq ▸ h.table_of_pteAt he' hw hu)
      simp only [Option.bind_some, update_of_ne hup]
  · intro q _ hqfree
    have hqp : q ≠ p := fun heq => hqfree (by rw [heq, hfree])
    exact update_of_ne hqp ..
  · intro T x _
    rw [Enough, Enough, htabs]
    exact Iff.rfl

lemma Grows.setEntry (h : Owns k own s) (ht : own t = .table d (v / nEntries)) (m : Word) :
    Grows fails own d 0 ∅ {v} s
      { s with mem := update s.mem t (update (s.mem t) (v % nEntries) m) } := by
  obtain ⟨hd, -, -⟩ := (h.table _ _ t).mp ht
  have hat : ∀ e i, own e = .dir e → Phys.tableAt { s with
      mem := update s.mem t (update (s.mem t) (v % nEntries) m) } e i =
      s.tableAt e i := fun e i he => by
    refine Owns.tableAt_write _ fun heq => ?_
    rw [heq, ht] at he
    cases he
  have htabs : Phys.tabs { s with
      mem := update s.mem t (update (s.mem t) (v % nEntries) m) } d = s.tabs d := by
    simp only [Phys.tabs, hat d _ hd]
  refine ⟨fun e w he hw hne => ?_, fun e i he _ => hat e i he, by rw [htabs, Finset.union_empty], ?_, ?_⟩
  · rw [Phys.pteAt, hat e _ he, Phys.pteAt]
    cases hu : s.tableAt e (w / nEntries) with
    | none => rfl
    | some u =>
      simp only [Option.bind_some]
      by_cases hut : u = t
      · have hplace := h.table_of_pteAt he hw hu
        rw [hut, ht] at hplace
        obtain ⟨hde, hdiv⟩ := Place.table.inj hplace
        have hmod : w % nEntries ≠ v % nEntries := fun hmod =>
          hne hde.symm (Finset.mem_singleton.mpr (page_eq hdiv.symm hmod))
        rw [hut, update_self, update_of_ne hmod]
      · rw [update_of_ne hut]
  · intro q hq _
    exact update_of_ne (fun heq => hq.2 d _ (heq ▸ ht)) ..
  · intro T x _
    rw [Enough, Enough, htabs]
    exact Iff.rfl

lemma Grows.thenEntry (hgrow : Grows fails own d c A ∅ s s') (h' : Owns k own' s')
    (hown : Settled own own') (ht : own' t = .table d (v / nEntries)) (m : Word) :
    Grows fails own d c A {v} s
      { s' with mem := update s'.mem t (update (s'.mem t) (v % nEntries) m) } := by
  simpa using hgrow.trans (.setEntry h' ht m) hown

lemma Owns.pteAt_setEntry (h : Owns k own s) (ht : own t = .table d (v / nEntries)) (m : Word) :
    Phys.pteAt { s with
      mem := update s.mem t (update (s.mem t) (v % nEntries) m) } d v =
      m.present := by
  obtain ⟨hd, -, hat⟩ := (h.table _ _ t).mp ht
  have hdt : d ≠ t := fun heq => by
    rw [heq, ht] at hd
    cases hd
  rw [Phys.pteAt, Owns.tableAt_write _ hdt, hat, Option.bind_some]
  simp only [update_self]

lemma walkpgdir_grows (h : Owns k own s) (hd : own d = .dir d) (hv : v / nEntries < nEntries)
    :
    wp (walkpgdir fails d v true) s (fun r s' => match r with
      | none => RunsOut fails s d 0 {v / nEntries}
      | some _ => Grows fails own d 0 {v / nEntries} ∅ s s') E := by
  simp only [walkpgdir, wp_bind, wp_get]
  split
  next pde hpde =>
    have hmem : v / nEntries ∈ s.tabs d := Phys.mem_tabs.mpr ⟨hv, by simp [Phys.tableAt, hpde]⟩
    have hrefl : Grows fails own d 0 ∅ ∅ s s := .refl own d s
    refine ⟨hrefl.pte, hrefl.table, ?_, hrefl.data, fun T x _ => Iff.rfl⟩
    rw [Finset.union_eq_left.mpr (Finset.singleton_subset_iff.mpr hmem)]
  next hnone =>
    have hold : s.tableAt d (v / nEntries) = none := by rw [Phys.tableAt, hnone]; rfl
    have hnot : v / nEntries ∉ s.tabs d := fun hmem => by
      rw [Phys.mem_tabs, hold] at hmem
      cases hmem.2
    rw [if_neg (by decide), wp_bind]
    refine ((kalloc_spec h).and (kalloc_gives (E := E))).mono (fun r s₁ hs₁ => ?_) fun _ _ h => h.1
    obtain ⟨⟨hmem, hr⟩, hgives⟩ := hs₁
    cases r with
    | none =>
      intro T x hT he
      have hpos : 0 < (T \ s.tabs d).card :=
        Finset.card_pos.mpr ⟨_, Finset.mem_sdiff.mpr ⟨Finset.singleton_subset_iff.mp hT, hnot⟩⟩
      exact hgives (he.mono (by omega))
    | some t =>
      obtain ⟨hfree, -⟩ := hr
      simp only [setTable, Vm.setEntry, wp_bind, wp_get, wp_set, wp_pure]
      have hne : ∀ e, own e = .dir e → e ≠ t := fun e he heq => by
        rw [heq, hfree] at he
        cases he
      have hat : ∀ e j, own e = .dir e → (e = d → j ≠ v / nEntries) → Phys.tableAt { s₁ with
          mem := update (update s₁.mem t zeroes) d (update
            (update s₁.mem t zeroes d) (v / nEntries) (.entry ⟨t, pteWU⟩)) } e j =
          s.tableAt e j := fun e j he hj => by
        simp only [Phys.tableAt, update_apply, hne e he, hmem]
        grind
      have hself : Phys.tableAt { s₁ with
          mem := update (update s₁.mem t zeroes) d (update
            (update s₁.mem t zeroes d) (v / nEntries) (.entry ⟨t, pteWU⟩)) } d
          (v / nEntries) = some t := by
        simp [Phys.tableAt]
      have htabs : Phys.tabs { s₁ with
          mem := update (update s₁.mem t zeroes) d (update
            (update s₁.mem t zeroes d) (v / nEntries) (.entry ⟨t, pteWU⟩)) } d =
          s.tabs d ∪ {v / nEntries} := by
        ext j
        rw [Finset.mem_union, Finset.mem_singleton, Phys.mem_tabs, Phys.mem_tabs]
        by_cases hj : j = v / nEntries
        · simp [hj, hself, hv]
        · rw [hat d j hd fun _ => hj, or_iff_left hj]
      refine ⟨fun e w he hw _ => ?_, fun e j he hed => hat e j he fun heq => absurd heq hed, htabs,
        fun q hq hqfree => ?_, fun T x hT => ?_⟩
      · by_cases hew : e = d ∧ w / nEntries = v / nEntries
        · -- the new page table is empty
          obtain ⟨rfl, hwv⟩ := hew
          rw [Phys.pteAt, Phys.pteAt, hwv, hself, hold, Option.bind_some, Option.bind_none]
          simp [update_of_ne (hne e he).symm]
        · rw [Phys.pteAt, hat e _ he fun hed hwv => hew ⟨hed, hwv⟩, Phys.pteAt]
          cases hu : s.tableAt e (w / nEntries) with
          | none => rfl
          | some u =>
            have hplace := h.table_of_pteAt he hw hu
            have hut : u ≠ t := fun heq => by
              rw [heq, hfree] at hplace
              cases hplace
            have hud : u ≠ d := fun heq => by
              rw [heq, hd] at hplace
              cases hplace
            simp only [Option.bind_some, update_of_ne hud, update_of_ne hut, hmem]
      · have hqd : q ≠ d := fun heq => hq.1 d (heq ▸ hd)
        have hqt : q ≠ t := fun heq => hqfree (by rw [heq, hfree])
        simp only [update_of_ne hqd, update_of_ne hqt, hmem]
      · -- one page less is there, and one page table less is wanted
        have hmemT : v / nEntries ∈ T \ s.tabs d :=
          Finset.mem_sdiff.mpr ⟨Finset.singleton_subset_iff.mp hT, hnot⟩
        have hcard : (T \ (s.tabs d ∪ {v / nEntries})).card + 1 = (T \ s.tabs d).card := by
          rw [Finset.union_comm, ← Finset.insert_eq, Finset.sdiff_insert]
          exact Finset.card_erase_add_one hmemT
        rw [Enough, Enough, htabs, ← hcard, Nat.add_zero, Nat.add_right_comm]
        exact hgives _

end Xv6.Vm
