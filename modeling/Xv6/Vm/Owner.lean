import Xv6.Vm.Paging

/-!
# Who has a page

Every page has one place: it is on the free list, somebody has it, it is a page directory, a page table of
one page directory at one index, or mapped at one address of the user part of one page directory. `Owns`
says that a function from pages to places describes memory: an entry of a page directory is there exactly
for a page whose place is this entry. That no page is in two places is then nothing to prove, and each
operation of the paging code moves a page from one place to another.
-/

namespace Xv6.Vm

open Function (update update_self update_of_ne update_apply)
open Lib

/-- Where a page is. -/
inductive Place
  /-- it is not a page of the allocator -/
  | outside
  | free
  | held
  | dir (d : Page)
  | table (d : Page) (i : Nat)
  | user (d : Page) (v : Nat)
  deriving DecidableEq

/-- The page directory that a page belongs to. -/
def Place.dirOf : Place → Option Page
  | .dir d | .table d _ | .user d _ => some d
  | .outside | .free | .held => none

/-- The page that entry `i` of a page directory or a page table refers to. -/
def Phys.tableAt (s : Phys) (d : Page) (i : Nat) : Option Page := (s.mem d i).present.map Entry.page

/-- The page that is mapped at virtual page `v`. -/
def Phys.userAt (s : Phys) (d : Page) (v : Nat) : Option Page :=
  (s.tableAt d (v / nEntries)).bind fun t => s.tableAt t (v % nEntries)

/-- The places of all pages. -/
structure Owns (k : Image) (own : Page → Place) (s : Phys) : Prop where
  managed : ∀ p, own p ≠ .outside ↔ k.endPage ≤ p ∧ p < physStop
  free : ∀ p, own p = .free ↔ p ∈ s.freelist
  nodup : s.freelist.Nodup
  dir : ∀ p d, own p = .dir d → p = d
  table : ∀ d i p, own p = .table d i ↔ own d = .dir d ∧ i < nEntries ∧ s.tableAt d i = some p
  user : ∀ d v p, own p = .user d v ↔ own d = .dir d ∧ v < kernPage ∧ s.userAt d v = some p

lemma div_lt_of_user {v : Nat} (hv : v < kernPage) : v / nEntries < nEntries := by
  unfold kernPage at hv
  unfold nEntries
  omega

/-- The page is not one whose entries are read. -/
def Place.Plain (x : Place) : Prop := (∀ d, x ≠ .dir d) ∧ ∀ d i, x ≠ .table d i

lemma Place.plain_held : Place.held.Plain := ⟨nofun, nofun⟩

lemma Place.plain_user (d v : Nat) : (Place.user d v).Plain := ⟨nofun, nofun⟩

lemma update_eq_iff {own : Page → Place} {p : Page} {x y : Place} (hp : own p ≠ y) (hx : x ≠ y)
    (q : Page) : update own p x q = y ↔ own q = y := by
  by_cases hq : q = p
  · subst hq
    simp [hp, hx]
  · rw [update_of_ne hq]

namespace Owns

variable {k : Image} {own : Page → Place} {s : Phys} {p q d t : Page} {i j v : Nat}

/-! ### Reading entries after a write -/

lemma tableAt_write (m : Table) (hne : d ≠ q) :
    Phys.tableAt { s with mem := update s.mem q m } d i = s.tableAt d i := by
  simp only [Phys.tableAt, update_of_ne hne]

section

variable (h : Owns k own s)
include h

lemma userAt_write (hq : (own q).Plain) (m : Table) (hd : own d = .dir d)
    (hv : v < kernPage) : Phys.userAt { s with mem := update s.mem q m } d v = s.userAt d v := by
  have hdq : d ≠ q := fun heq => hq.1 d (heq ▸ hd)
  simp only [Phys.userAt, tableAt_write m hdq]
  cases htab : s.tableAt d (v / nEntries) with
  | none => rfl
  | some t =>
    have ht : own t = .table d (v / nEntries) := (h.table d _ t).mpr ⟨hd, div_lt_of_user hv, htab⟩
    exact tableAt_write m fun heq => hq.2 d _ (heq ▸ ht)

lemma userAt_setEntry (ht : own t = .table d i) (e : Word) {d' : Page}
    (hd' : own d' = .dir d') (hv : v < kernPage) :
    Phys.userAt { s with mem := update s.mem t (update (s.mem t) j e) } d' v =
      if d' = d ∧ v / nEntries = i ∧ v % nEntries = j then e.present.map Entry.page else s.userAt d' v := by
  have hne : d' ≠ t := fun heq => by
    rw [heq, ht] at hd'
    cases hd'
  simp only [Phys.userAt, tableAt_write _ hne]
  cases htab : s.tableAt d' (v / nEntries) with
  | none =>
    rw [if_neg]
    · rfl
    · rintro ⟨rfl, rfl, -⟩
      cases htab.symm.trans ((h.table _ _ t).mp ht).2.2
  | some u =>
    have hu : own u = .table d' (v / nEntries) := (h.table _ _ u).mpr ⟨hd', div_lt_of_user hv, htab⟩
    by_cases hut : u = t
    · subst hut
      rw [ht] at hu
      cases hu
      by_cases hj : v % nEntries = j
      · simp [Phys.tableAt, hj]
      · simp [Phys.tableAt, hj]
    · rw [if_neg]
      · exact tableAt_write _ hut
      · rintro ⟨rfl, rfl, -⟩
        have hu' := (h.table _ _ u).mp hu
        rw [((h.table _ _ t).mp ht).2.2] at hu'
        exact hut (Option.some.inj hu'.2.2).symm

/-! ### Moves -/

/-- What is in a page whose entries are not read does not matter. -/
lemma write (hq : (own q).Plain) (m : Table) : Owns k own { s with mem := update s.mem q m } where
  managed := h.managed
  free := h.free
  nodup := h.nodup
  dir := h.dir
  table d i p := by
    rw [h.table]
    refine and_congr_right fun hd => and_congr_right fun _ => ?_
    have hne : d ≠ q := fun heq => hq.1 d (heq ▸ hd)
    rw [tableAt_write m hne]
  user d v p := by
    rw [h.user]
    refine and_congr_right fun hd => and_congr_right fun hv => ?_
    rw [h.userAt_write hq m hd hv]

lemma relabel {x : Place} {free : List Page} (hp : own p = .free ∨ own p = .held)
    (hx : x = .free ∨ x = .held) (hfree : ∀ q, update own p x q = .free ↔ q ∈ free)
    (hnodup : free.Nodup) : Owns k (update own p x) { s with freelist := free } := by
  -- all the other places are where they were
  have hsame : ∀ {y : Place}, y ≠ .free → y ≠ .held → ∀ q,
      (update own p x q = y ↔ own q = y) := fun hy₁ hy₂ q => by
    refine update_eq_iff (fun heq => ?_) (fun heq => ?_) q
    · rw [heq] at hp
      exact hp.elim hy₁ hy₂
    · rw [heq] at hx
      exact hx.elim hy₁ hy₂
  constructor
  · intro q
    rw [ne_eq, hsame (by simp) (by simp), ← ne_eq, h.managed]
  · exact hfree
  · exact hnodup
  · intro q d hq
    exact h.dir q d ((hsame (by simp) (by simp) q).mp hq)
  · intro d i q
    rw [hsame (by simp) (by simp) q, hsame (by simp) (by simp) d]
    exact h.table d i q
  · intro d v q
    rw [hsame (by simp) (by simp) q, hsame (by simp) (by simp) d]
    exact h.user d v q

/-- `kalloc` takes a page from the free list. -/
lemma take {rest : List Page} (hfree : s.freelist = p :: rest) :
    Owns k (update own p .held) { s with freelist := rest } := by
  have hp : own p = .free := (h.free p).mpr (hfree ▸ List.mem_cons_self ..)
  have hnodup := h.nodup
  rw [hfree, List.nodup_cons] at hnodup
  refine h.relabel (.inl hp) (.inr rfl) (fun q => ?_) hnodup.2
  by_cases hq : q = p
  · subst hq
    simp [hnodup.1]
  · rw [update_of_ne hq, h.free, hfree, List.mem_cons, or_iff_right hq]

/-- `kfree` puts a page on the free list, and fills it. -/
lemma give (hp : own p = .held) (m : Table) :
    Owns k (update own p .free)
      { s with freelist := p :: s.freelist, mem := update s.mem p m } := by
  have hnot : p ∉ s.freelist := fun hmem => by
    rw [← h.free, hp] at hmem
    cases hmem
  refine (h.write (hp ▸ Place.plain_held) m).relabel (.inr hp) (.inl rfl) (fun q => ?_)
    (List.nodup_cons.mpr ⟨hnot, h.nodup⟩)
  by_cases hq : q = p
  · simp [hq]
  · rw [update_of_ne hq, h.free, List.mem_cons, or_iff_right hq]

lemma addDir (hp : own p = .held) (hempty : s.mem p = zeroes) : Owns k (update own p (.dir p)) s := by
  have hnone : ∀ i, s.tableAt p i = none := fun i => by
    rw [Phys.tableAt, hempty]
    rfl
  have hsame : ∀ {y : Place}, y ≠ .held → y ≠ .dir p → ∀ q,
      (update own p (.dir p) q = y ↔ own q = y) := fun hy₁ hy₂ q =>
    update_eq_iff (by rw [hp]; exact hy₁.symm) hy₂.symm q
  constructor
  · intro q
    rw [ne_eq, hsame (by simp) (by simp), ← ne_eq, h.managed]
  · intro q
    rw [hsame (by simp) (by simp), h.free]
  · exact h.nodup
  · intro q d hq
    by_cases hqp : q = p
    · subst hqp
      rw [update_self] at hq
      exact Place.dir.inj hq
    · rw [update_of_ne hqp] at hq
      exact h.dir q d hq
  · intro d i q
    rw [hsame (by simp) (by simp), h.table]
    by_cases hdp : d = p
    · subst hdp
      simp [hnone]
    · rw [update_of_ne hdp]
  · intro d v q
    rw [hsame (by simp) (by simp), h.user]
    by_cases hdp : d = p
    · subst hdp
      simp [Phys.userAt, hnone]
    · rw [update_of_ne hdp]

lemma addTable (hp : own p = .held) (hempty : s.mem p = zeroes)
    (hd : own d = .dir d) (hi : i < nEntries) (hnone : (s.mem d i).present = none) (flags : Nat) :
    Owns k (update own p (.table d i))
      { s with mem := update s.mem d (update (s.mem d) i (.entry ⟨p, flags⟩)) } := by
  have hpd : p ≠ d := fun heq => by
    rw [heq, hd] at hp
    cases hp
  have hsame : ∀ {y : Place}, y ≠ .held → y ≠ .table d i → ∀ q,
      (update own p (.table d i) q = y ↔ own q = y) := fun hy₁ hy₂ q =>
    update_eq_iff (by rw [hp]; exact hy₁.symm) hy₂.symm q
  have hat : ∀ d' i', (d' ≠ d ∨ i' ≠ i) → Phys.tableAt { s with
      mem := update s.mem d (update (s.mem d) i (.entry ⟨p, flags⟩)) } d' i' =
      s.tableAt d' i' := fun d' i' hne => by
    simp only [Phys.tableAt, update_apply]
    grind
  have hself : Phys.tableAt { s with
      mem := update s.mem d (update (s.mem d) i (.entry ⟨p, flags⟩)) } d i = some p := by
    simp [Phys.tableAt]
  have hold : s.tableAt d i = none := by simp [Phys.tableAt, hnone]
  constructor
  · intro q
    rw [ne_eq, hsame (by simp) (by simp), ← ne_eq, h.managed]
  · intro q
    rw [hsame (by simp) (by simp), h.free]
  · exact h.nodup
  · intro q d' hq
    exact h.dir q d' ((hsame (by simp) (by simp) q).mp hq)
  · intro d' i' q
    rw [hsame (y := .dir d') (by simp) (by simp) d']
    by_cases hdi : d' = d ∧ i' = i
    · obtain ⟨rfl, rfl⟩ := hdi
      rw [hself]
      by_cases hqp : q = p
      · subst hqp
        simp [hd, hi]
      · rw [update_of_ne hqp, h.table, hold]
        simp [Ne.symm hqp]
    · rw [hat d' i' (by grind), hsame (by simp) (by grind), h.table]
  · intro d' v q
    rw [hsame (by simp) (by simp) q, hsame (y := .dir d') (by simp) (by simp) d', h.user]
    refine and_congr_right fun hd' => and_congr_right fun hv => ?_
    simp only [Phys.userAt]
    by_cases hdi : d' = d ∧ v / nEntries = i
    · obtain ⟨rfl, rfl⟩ := hdi
      have hempty' : s.tableAt p (v % nEntries) = none := by simp [Phys.tableAt, hempty]
      rw [hself, hold, Option.bind_some, hat p _ (.inl hpd), hempty']
      rfl
    · rw [hat d' _ (by grind)]
      cases htab : s.tableAt d' (v / nEntries) with
      | none => rfl
      | some u =>
        have hu : own u = .table d' _ := (h.table _ _ u).mpr ⟨hd', div_lt_of_user hv, htab⟩
        have hud : u ≠ d := fun heq => by
          rw [heq, hd] at hu
          cases hu
        simp only [Option.bind_some, hat u _ (.inl hud)]

lemma setUser (ht : own t = .table d (v / nEntries)) (hv : v < kernPage) {x : Place}
    (hp : own p = .held ∨ own p = .user d v) (hx : x = .held ∨ x = .user d v) {m : Word}
    (hself : ∀ q, update own p x q = .user d v ↔ m.present.map Entry.page = some q) :
    Owns k (update own p x)
      { s with mem := update s.mem t (update (s.mem t) (v % nEntries) m) } := by
  have hd := ((h.table _ _ t).mp ht).1
  have hsame : ∀ {y : Place}, y ≠ .held → y ≠ .user d v → ∀ q,
      (update own p x q = y ↔ own q = y) := fun hheld huser =>
    update_eq_iff (fun heq => hp.elim (fun hp => hheld (heq.symm.trans hp))
      fun hp => huser (heq.symm.trans hp)) fun heq => hx.elim (fun hx => hheld (heq.symm.trans hx))
      fun hx => huser (heq.symm.trans hx)
  constructor
  · intro q
    rw [ne_eq, hsame (by simp) (by simp), ← ne_eq, h.managed]
  · intro q
    rw [hsame (by simp) (by simp), h.free]
  · exact h.nodup
  · intro q d' hq
    exact h.dir q d' ((hsame (by simp) (by simp) q).mp hq)
  · intro d' i' q
    rw [hsame (by simp) (by simp) q, hsame (y := .dir d') (by simp) (by simp) d', h.table]
    refine and_congr_right fun hd' => and_congr_right fun _ => ?_
    have hne : d' ≠ t := fun heq => by
      rw [heq, ht] at hd'
      cases hd'
    rw [tableAt_write _ hne]
  · intro d' v' q
    rw [hsame (y := .dir d') (by simp) (by simp) d']
    by_cases hdv : d' = d ∧ v' = v
    · obtain ⟨rfl, rfl⟩ := hdv
      rw [hself, h.userAt_setEntry ht _ hd hv, if_pos ⟨rfl, rfl, rfl⟩]
      simp [hd, hv]
    · rw [hsame (by simp) (by grind), h.user]
      refine and_congr_right fun hd' => and_congr_right fun hv' => ?_
      rw [h.userAt_setEntry ht _ hd' hv', if_neg]
      rintro ⟨rfl, hdiv, hmod⟩
      refine hdv ⟨rfl, ?_⟩
      rw [← Nat.div_add_mod v' nEntries, hdiv, hmod, Nat.div_add_mod]

/-- A page becomes the one that is mapped at an address. -/
lemma map (hp : own p = .held) (ht : own t = .table d (v / nEntries))
    (hv : v < kernPage) (hnone : (s.mem t (v % nEntries)).present = none) (flags : Nat) :
    Owns k (update own p (.user d v))
      { s with
        mem := update s.mem t
          (update (s.mem t) (v % nEntries) (.entry ⟨p, flags⟩)) } := by
  obtain ⟨hd, -, htab⟩ := (h.table _ _ t).mp ht
  have hold : s.userAt d v = none := by
    rw [Phys.userAt, htab, Option.bind_some, Phys.tableAt, hnone]
    rfl
  refine h.setUser ht hv (.inl hp) (.inr rfl) fun q => ?_
  by_cases hqp : q = p
  · subst hqp
    simp [Word.present]
  · rw [update_of_ne hqp, h.user, hold]
    simp [Word.present, Ne.symm hqp]

lemma unmap (hp : own p = .user d v) (ht : own t = .table d (v / nEntries)) :
    Owns k (update own p .held)
      { s with mem := update s.mem t (update (s.mem t) (v % nEntries) (.other 0)) } := by
  obtain ⟨-, hv, hold⟩ := (h.user _ _ p).mp hp
  refine h.setUser ht hv (.inr hp) (.inl rfl) fun q => ?_
  by_cases hqp : q = p
  · subst hqp
    simp [Word.present]
  · rw [update_of_ne hqp, h.user, hold]
    simp [Word.present, Ne.symm hqp]

/-- What an entry says beside the page does not matter. -/
lemma reflag {m : Word} (hpage : m.present.map Entry.page = (s.mem t j).present.map Entry.page) :
    Owns k own { s with mem := update s.mem t (update (s.mem t) j m) } := by
  have hat : ∀ e i, Phys.tableAt { s with
      mem := update s.mem t (update (s.mem t) j m) } e i = s.tableAt e i := fun e i => by
    simp only [Phys.tableAt, update_apply]
    grind
  refine ⟨h.managed, h.free, h.nodup, h.dir, fun e i q => ?_, fun e w q => ?_⟩
  · rw [hat]
    exact h.table e i q
  · simp only [Phys.userAt, hat]
    exact h.user e w q

lemma mapKernel (ht : own t = .table d i) (hi : kernPage ≤ i * nEntries + j) (hj : j < nEntries) (e : Word) :
    Owns k own { s with mem := update s.mem t (update (s.mem t) j e) } where
  managed := h.managed
  free := h.free
  nodup := h.nodup
  dir := h.dir
  table d' i' q := by
    rw [h.table]
    refine and_congr_right fun hd' => and_congr_right fun _ => ?_
    have hne : d' ≠ t := fun heq => by
      rw [heq, ht] at hd'
      cases hd'
    rw [tableAt_write _ hne]
  user d' v q := by
    rw [h.user]
    refine and_congr_right fun hd' => and_congr_right fun hv => ?_
    rw [h.userAt_setEntry ht _ hd' hv, if_neg]
    rintro ⟨-, rfl, -⟩
    unfold kernPage at hi hv
    unfold nEntries at hi hj
    omega

lemma dir_of_dirOf (hq : (own q).dirOf = some d) : own d = .dir d := by
  cases hown : own q with
  | dir e =>
    rw [hown] at hq
    cases hq
    have hqd := h.dir q d hown
    rwa [hqd] at hown
  | table e i =>
    rw [hown] at hq
    cases hq
    exact ((h.table d i q).mp hown).1
  | user e v =>
    rw [hown] at hq
    cases hq
    exact ((h.user d v q).mp hown).1
  | outside | free | held =>
    rw [hown] at hq
    cases hq

lemma dismantle (hnone : ∀ q v, own q ≠ .user d v) :
    Owns k (fun q => if (own q).dirOf = some d then .held else own q) s := by
  -- the places that do not belong to the page directory
  have hsame : ∀ {y : Place}, y ≠ .held → y.dirOf ≠ some d → ∀ q,
      ((if (own q).dirOf = some d then .held else own q) = y ↔ own q = y) := fun hy₁ hy₂ q => by
    split
    next hq => exact ⟨fun heq => absurd heq.symm hy₁, fun heq => absurd (heq ▸ hq) hy₂⟩
    next => exact Iff.rfl
  have hnot : ∀ {y : Place}, y.dirOf = some d → ∀ q,
      (if (own q).dirOf = some d then .held else own q) ≠ y := fun hy q heq => by
    split at heq
    next =>
      subst heq
      cases hy
    next hq => exact hq (heq ▸ hy)
  constructor
  · intro q
    rw [ne_eq, hsame (by simp) (by simp [Place.dirOf]), ← ne_eq, h.managed]
  · intro q
    rw [hsame (by simp) (by simp [Place.dirOf]), h.free]
  · exact h.nodup
  · intro q e hq
    by_cases he : e = d
    · exact absurd hq (hnot (by rw [he]; rfl) q)
    · exact h.dir q e ((hsame (by simp) (by simpa [Place.dirOf] using he) q).mp hq)
  · intro e i q
    by_cases he : e = d
    · subst he
      simp only [hnot (y := .table e i) rfl q, hnot (y := .dir e) rfl e, false_and]
    · rw [hsame (by simp) (by simpa [Place.dirOf] using he) q,
        hsame (by simp) (by simpa [Place.dirOf] using he) e, h.table]
  · intro e v q
    by_cases he : e = d
    · subst he
      simp only [hnot (y := .user e v) rfl q, hnot (y := .dir e) rfl e, false_and]
    · rw [hsame (by simp) (by simpa [Place.dirOf] using he) q,
        hsame (by simp) (by simpa [Place.dirOf] using he) e, h.user]

end

end Owns

end Xv6.Vm
