import Xv6.Vm.Conserve
import Xv6.Process.Table

/-!
# `fork` copies the memory of its caller

`fork` calls `copyuvm` with the page directory and the size of the caller. What it returns is a copy: the
pages below the size are mapped in it exactly if they are mapped in the source, with the same flags and the
same words, and each is a physical page of its own. But it does not always return. The size of an LWP is
the top of its stack, and with many stack slots in use that stack lies in a part of the address space
where the page tables before it are missing; `copyuvm` then panics (`copyuvm_missing_table`), unless memory
runs out first.
-/

namespace Xv6.Vm

open Lib
open Process (pgUp growRange mem_growRange)
open Process.Table (stackBase)

/-- The user part of the new page directory `d'` is a copy of the part of `d` below `sz`. `live` are the
page directories after the call. -/
structure MemoryCopied (live : List Page) (d d' : Page) (sz : Nat) (s s' : Phys) : Prop where
  mapped_iff : ∀ v < pgUp sz, (s'.pteAt d' v).isSome ↔ (s.pteAt d v).isSome
  same : ∀ v < pgUp sz, ∀ e ∈ s.pteAt d v, ∀ e' ∈ s'.pteAt d' v,
    e'.flags = e.flags ∧ s'.mem e'.page = s.mem e.page
  /-- the physical page is used by no other mapping -/
  alone : ∀ v < pgUp sz, ∀ e' ∈ s'.pteAt d' v, ∀ c ∈ live, ∀ w < kernPage,
    s'.userAt c w = some e'.page → c = d' ∧ w = v
  rest : ∀ v, pgUp sz ≤ v → v < kernPage → s'.pteAt d' v = none

/-- The call returns, and if it returns a page directory, that is a copy. -/
def CopyCorrect (k : Image) (fails : Nat → Bool) (s : VmState) (d : Page) (sz : Nat) : Prop :=
  ∃ r phys, copyuvm k fails d sz s.phys = .ok r phys ∧
    ∀ d' ∈ r, MemoryCopied (d' :: s.live) d d' sz s.phys phys

section

variable {k : Image} {fails : Nat → Bool} {own own' : Page → Place} {s : VmState} {phys : Phys}
  {d d' : Page} {sz : Nat}

lemma Owns.userAt_unique (h : Owns k own phys) {c v w : Nat} {p : Page} (hd : own d = .dir d)
    (hc : own c = .dir c) (hv : v < kernPage) (hw : w < kernPage) (hat : phys.userAt d v = some p)
    (hat' : phys.userAt c w = some p) : c = d ∧ w = v := by
  have hplace := (h.user d v p).mpr ⟨hd, hv, hat⟩
  rw [(h.user c w p).mpr ⟨hc, hw, hat'⟩] at hplace
  exact Place.user.inj hplace

lemma Copies.memoryCopied (h : s.Conserved k own) (hown : Owns k own' phys)
    (hstay : Stays (Function.update own d' (.dir d')) own') (hsz : sz ≤ kernBase)
    (hcopy : Copies d d' sz s.phys phys) : MemoryCopied (d' :: s.live) d d' sz s.phys phys := by
  have hkern : ∀ {v}, v < pgUp sz → v < kernPage := fun hv => hv.trans_le (pgUp_le_kernPage hsz)
  have hdir : ∀ c ∈ d' :: s.live, own' c = .dir c := fun c hc => by
    refine hstay.dir ?_
    by_cases hcd : c = d'
    · rw [hcd, Function.update_self]
    · rw [Function.update_of_ne hcd]
      exact h.roots.eq_dir h.owns ((List.mem_cons.mp hc).resolve_left hcd)
  constructor
  · intro v hv
    cases hpte : s.phys.pteAt d v with
    | none => rw [hcopy.absent v (hkern hv) (.inr hpte)]
    | some e =>
      obtain ⟨p, hp, -⟩ := hcopy.pages v hv e hpte
      rw [hp]
      exact iff_of_true rfl rfl
  · intro v hv e he e' he'
    obtain ⟨p, hp, hmem⟩ := hcopy.pages v hv e he
    obtain rfl := Option.mem_unique hp he'
    exact ⟨rfl, hmem⟩
  · intro v hv e' he' c hc w hw hat
    have hself : phys.userAt d' v = some e'.page := by
      rw [Phys.userAt_eq_pteAt, show phys.pteAt d' v = some e' from he']
      rfl
    exact hown.userAt_unique (hdir d' (.head _)) (hdir c hc) (hkern hv) hw hself hat
  · exact fun v hlo hhi => hcopy.absent v hhi (.inl hlo)

lemma copyCorrect_iff (h : s.Conserved k own) (hd : d ∈ s.live) (hsz : sz ≤ kernBase) :
    CopyCorrect k fails s d sz ↔ CopySafe k fails s.phys d sz := by
  have hspec := copyuvm_spec (E := fun _ _ => ¬ CopySafe k fails s.phys d sz) h.owns
    (h.roots.eq_dir h.owns hd) (h.kernel d hd) (.inl ⟨hsz, fun hno _ => hno⟩)
  cases hret : copyuvm k fails d sz s.phys with
  | error e phys =>
    refine iff_of_false (fun ⟨r, phys', hok, _⟩ => ?_) (hspec.error hret)
    rw [hret] at hok
    cases hok
  | ok r phys =>
    obtain ⟨own', hown, -, hr⟩ := hspec.ok hret
    cases r with
    | none => exact iff_of_true ⟨none, phys, hret, nofun⟩ (hr.2 hsz)
    | some d' =>
      obtain ⟨⟨-, -, hstay⟩, hcopy⟩ := hr
      obtain ⟨hsafe, hcopy⟩ := hcopy hsz
      refine iff_of_true ⟨some d', phys, hret, fun e he => ?_⟩ hsafe
      cases he
      exact hcopy.memoryCopied h hown hstay hsz

lemma copyuvm_noPte (h : s.Conserved k own) (hd : d ∈ s.live) (hsz : sz ≤ kernBase)
    (hno : ¬ CopySafe k fails s.phys d sz) : ∃ phys, copyuvm k fails d sz s.phys = .error .noPte phys := by
  have hspec : wp (copyuvm k fails d sz) s.phys _ fun e _ => e = .noPte :=
    copyuvm_spec h.owns (h.roots.eq_dir h.owns hd) (h.kernel d hd) (.inl ⟨hsz, fun _ _ => rfl⟩)
  cases hret : copyuvm k fails d sz s.phys with
  | error e phys =>
    obtain rfl : e = .noPte := hspec.error hret
    exact ⟨phys, rfl⟩
  | ok r phys =>
    obtain ⟨own', -, -, hr⟩ := hspec.ok hret
    cases r with
    | none => exact absurd (hr.2 hsz) hno
    | some d' => exact absurd (hr.2 hsz).1 hno

end

/-- **`fork` copies the caller's memory, exactly if no page table below its size is missing or memory runs
out before the first one that is.** Whatever has been called before, with `kalloc` failing at any point,
and for every page directory in use. -/
theorem copyuvm_copies (k : Image) (fails : Nat → Bool) (mem : Page → Table) {cs : List VmCall}
    {t : VmState} (hrun : Run (VmState.step k fails) anyStep (VmState.boot k mem) cs t) {d : Page}
    (hd : d ∈ t.live) {sz : Nat} (hsz : sz ≤ kernBase) :
    CopyCorrect k fails t d sz ↔ CopySafe k fails t.phys d sz := by
  obtain ⟨own, h⟩ := exists_conserved hrun
  exact copyCorrect_iff h hd hsz

/-! ### Two address spaces -/

section

variable {k : Image} {fails : Nat → Bool} {own : Page → Place} {s : VmState} {d : Page}

lemma tablesFor_growRange_subset {oldsz newsz : Nat} (h : newsz ≤ kernBase) :
    tablesFor (growRange oldsz newsz) ⊆ Finset.range nEntries := by
  intro i hi
  obtain ⟨v, hv, rfl⟩ := Finset.mem_image.mp hi
  have hlt := (mem_growRange.mp (List.mem_toFinset.mp hv)).2
  exact Finset.mem_range.mpr (div_lt_of_user (hlt.trans_le (pgUp_le_kernPage h)))

lemma kernTabs_subset (k : Image) : kernTabs k ⊆ Finset.range nEntries := by
  intro i hi
  obtain ⟨w, hw, rfl⟩ := Finset.mem_image.mp hi
  obtain ⟨m, hm, -, hhi⟩ := mem_kmapPages.mp hw
  exact Finset.mem_range.mpr (div_lt_of_page (hhi.trans_le (mem_kmap_bounds hm).2))

lemma kernTabs_ge {i : Nat} (hi : i ∈ kernTabs k) : 512 ≤ i := by
  obtain ⟨w, hw, rfl⟩ := Finset.mem_image.mp hi
  exact (Nat.le_div_iff_mul_le (by decide)).mpr (kernPage_le_of_kmap hw)

lemma VmState.Conserved.setup (h : s.Conserved k own) {x : Nat}
    (hgives : Gives fails s.phys (nEntries + x + 1)) :
    ∃ d t own', s.step k fails .setupkvm = some t ∧ t.live = d :: s.live ∧ t.Conserved k own' ∧
      t.phys.tabs d = kernTabs k ∧ (∀ v < kernPage, t.phys.pteAt d v = none) ∧
      Enough fails t.phys d (Finset.range nEntries) x := by
  obtain ⟨r, phys, hret, -, hr⟩ := (setupkvm_spec h.owns (E := fun _ _ => False)).returns
  have hcard : (Finset.range nEntries).card = nEntries := Finset.card_range _
  cases r with
  | none =>
    refine absurd hgives ?_
    rw [← hcard]
    exact hr.2 _ x (kernTabs_subset k)
  | some d =>
    have hstep : s.step k fails .setupkvm = some { s with phys, live := d :: s.live } := by
      simp [VmState.step, returned, hret]
    obtain ⟨own', h'⟩ := h.step hstep
    refine ⟨d, _, own', hstep, rfl, h', hr.2.tabs, hr.2.user, ?_⟩
    rw [hr.2.enough _ _ (kernTabs_subset k), hcard]
    exact hgives

lemma VmState.Conserved.alloc (h : s.Conserved k own) (hd : d ∈ s.live) {oldsz newsz x : Nat}
    (hle : oldsz ≤ newsz) (hlt : newsz < kernBase) (hnone : ∀ v ∈ growRange oldsz newsz, s.phys.pteAt d v = none)
    (henough : Enough fails s.phys d (Finset.range nEntries) (x + (growRange oldsz newsz).length)) :
    ∃ t own', s.step k fails (.allocuvm d oldsz newsz) = some t ∧ t.live = s.live ∧
      t.Conserved k own' ∧ t.phys.tabs d = s.phys.tabs d ∪ tablesFor (growRange oldsz newsz) ∧
      (∀ v < kernPage, t.phys.pteAt d v ≠ none ↔
        s.phys.pteAt d v ≠ none ∨ v ∈ growRange oldsz newsz) ∧
      Enough fails t.phys d (Finset.range nEntries) x := by
  have hdir := h.roots.eq_dir h.owns hd
  have hspec : wp (allocuvm k fails d oldsz newsz) s.phys _ fun _ _ => False :=
    allocuvm_spec h.owns hdir fun ⟨v, hv, hne⟩ => absurd (hnone v hv) hne
  obtain ⟨r, phys, hret, own₁, -, -, -, -, hend⟩ := hspec.returns
  have hstep : s.step k fails (.allocuvm d oldsz newsz) = some { s with phys } := by
    simp [VmState.step, returned, hret, hd]
  obtain ⟨own', h'⟩ := h.step hstep
  have hsub : tablesFor (growRange oldsz newsz) ⊆ Finset.range nEntries :=
    tablesFor_growRange_subset hlt.le
  obtain ⟨-, -, hgrow, hmapped⟩ | ⟨-, hout⟩ := hend hle hlt
  · refine ⟨_, own', hstep, rfl, h', hgrow.tabs, fun v hv => ?_, (hgrow.enough _ x hsub).mpr henough⟩
    by_cases hmem : v ∈ growRange oldsz newsz
    · obtain ⟨q, hq⟩ := hmapped v hmem
      exact iff_of_true (by rw [hq]; exact nofun) (.inr hmem)
    · rw [or_iff_left hmem, hgrow.pte d v hdir (hv.trans_le (by decide)) fun _ hv' =>
        hmem (List.mem_toFinset.mp hv')]
  · exact absurd henough (hout _ x hsub)

end

lemma gives_boot {n : Nat} (hn : n ≤ 0xDC00) :
    Gives (fun _ => false) (VmState.boot smallKernel fun _ => zeroes).phys n := by
  refine ⟨?_, fun _ _ => rfl⟩
  simpa [VmState.boot, smallKernel, physStop] using hn

lemma exists_process {n x : Nat} (hx : nEntries + (x + n) + 1 ≤ 0xDC00) : ∃ d t own,
    Run (VmState.step smallKernel fun _ => false) anyStep (VmState.boot smallKernel fun _ => zeroes)
      [.setupkvm, .allocuvm d 0 (n * pgSize)] t ∧ t.live = [d] ∧ t.Conserved smallKernel own ∧
    t.phys.tabs d = kernTabs smallKernel ∪ tablesFor (growRange 0 (n * pgSize)) ∧
    (∀ v < kernPage, t.phys.pteAt d v ≠ none ↔ v < n) ∧
    Enough (fun _ => false) t.phys d (Finset.range nEntries) x := by
  obtain ⟨d, s, own, hstep, hlive, h, htabs, hnone, henough⟩ :=
    (VmState.boot_conserved smallKernel fun _ => zeroes).setup (gives_boot hx)
  have hpages : pgUp (n * pgSize) = n := by
    unfold pgUp pgSize
    omega
  have hsize : n * pgSize < kernBase := by
    unfold kernBase pgSize
    omega
  have hlen : (growRange 0 (n * pgSize)).length = n := by
    rw [growRange, List.length_range', hpages]
    exact Nat.sub_zero n
  have hd : d ∈ s.live := by
    rw [hlive]
    exact .head _
  have hfree : ∀ v ∈ growRange 0 (n * pgSize), s.phys.pteAt d v = none := fun v hv =>
    hnone v ((mem_growRange.mp hv).2.trans_le (pgUp_le_kernPage hsize.le))
  obtain ⟨t, own', hstep', hlive', h', htabs', hmapped, henough'⟩ :=
    h.alloc hd zero_le hsize hfree (by rwa [hlen])
  refine ⟨d, t, own', .cons trivial hstep (.cons trivial hstep' (.nil t)), hlive'.trans hlive, h', ?_,
    fun v hv => ?_, henough'⟩
  · rw [htabs', htabs]
  · rw [hmapped v hv, hnone v hv, or_iff_right (not_not.mpr rfl), mem_growRange, hpages]
    exact and_iff_right (Nat.zero_le v)

lemma exists_firstPage : ∃ d t own, Run (VmState.step smallKernel fun _ => false) anyStep
    (VmState.boot smallKernel fun _ => zeroes) [.setupkvm, .allocuvm d 0 pgSize] t ∧ t.live = [d] ∧
    t.Conserved smallKernel own ∧ t.phys.tabs d = kernTabs smallKernel ∪ {0} ∧
    (∀ v < kernPage, t.phys.pteAt d v ≠ none ↔ v = 0) ∧
    Enough (fun _ => false) t.phys d (Finset.range nEntries) 4000 := by
  obtain ⟨d, t, own, hrun, hlive, h, htabs, hmapped, henough⟩ :=
    exists_process (n := 1) (x := 4000) (by decide)
  refine ⟨d, t, own, hrun, hlive, h, ?_, fun v hv => (hmapped v hv).trans Nat.lt_one_iff, henough⟩
  have hrange : growRange 0 (1 * pgSize) = [0] := by decide
  rw [htabs, hrange]
  rfl

/-- `fork` by a process with one page. -/
theorem copyuvm_copies_firstPage : ∃ d t, Run (VmState.step smallKernel fun _ => false) anyStep
    (VmState.boot smallKernel fun _ => zeroes) [.setupkvm, .allocuvm d 0 pgSize] t ∧ d ∈ t.live ∧
    t.phys.pteAt d 0 ≠ none ∧ CopyCorrect smallKernel (fun _ => false) t d pgSize := by
  obtain ⟨d, t, own, hrun, hlive, -, htabs, hmapped, -⟩ := exists_firstPage
  have hd : d ∈ t.live := by
    rw [hlive]
    exact List.mem_cons_self
  refine ⟨d, t, hrun, hd, (hmapped 0 (by decide)).mpr rfl,
    (copyuvm_copies smallKernel _ _ hrun hd (by decide)).mpr fun u hu hmissing => ?_⟩
  -- the page table for page 0 is there
  have hu : u = 0 := Nat.lt_one_iff.mp hu
  have hmem : 0 ∈ t.phys.tabs d := by
    rw [htabs]
    exact Finset.mem_union_right _ (Finset.mem_singleton_self 0)
  rw [hu, Nat.zero_div] at hmissing
  rw [Phys.mem_tabs, hmissing] at hmem
  cases hmem.2

/-- The stack of an LWP in stack slot 1023, of a process with one page. -/
def farStack : Nat := stackBase pgSize 1023

/-- A process with one page has an LWP in stack slot 1023, which is the first free one when 1023 slots are
in use. The page table between the page of the process and the stack is missing: `copyuvm` with the size
of the LWP panics. -/
theorem copyuvm_missing_table : ∃ d t, Run (VmState.step smallKernel fun _ => false) anyStep
    (VmState.boot smallKernel fun _ => zeroes)
      [.setupkvm, .allocuvm d 0 pgSize, .allocuvm d farStack (farStack + 2 * pgSize)] t ∧
    d ∈ t.live ∧ (∀ v < kernPage, t.phys.pteAt d v ≠ none ↔ v = 0 ∨ v = 0x801 ∨ v = 0x802) ∧
    ∃ phys, copyuvm smallKernel (fun _ => false) d (farStack + 2 * pgSize) t.phys =
      .error .noPte phys := by
  obtain ⟨d, s, own, hrun, hlive, h, htabs, hmapped, henough⟩ := exists_firstPage
  have hrange : growRange farStack (farStack + 2 * pgSize) = [0x801, 0x802] := by decide
  have hd : d ∈ s.live := by
    rw [hlive]
    exact List.mem_cons_self
  have hfree : ∀ v ∈ growRange farStack (farStack + 2 * pgSize), s.phys.pteAt d v = none :=
    fun v hv => by_contra fun hne => by
      have hpages : v = 0x801 ∨ v = 0x802 := by simpa [hrange] using hv
      have hv0 : v = 0 := (hmapped v (by unfold kernPage; omega)).mp hne
      omega
  have hsupply : Enough (fun _ => false) s.phys d (Finset.range nEntries)
      (3998 + (growRange farStack (farStack + 2 * pgSize)).length) := by
    rw [hrange]
    exact henough
  obtain ⟨t, own', hstep, hlive', h', htabs', hmapped', henough'⟩ :=
    h.alloc hd (Nat.le_add_right farStack (2 * pgSize)) (by decide) hfree hsupply
  rw [← hlive'] at hd
  refine ⟨d, t, hrun.snoc trivial hstep, hd, fun v hv => ?_, copyuvm_noPte h' hd (by decide) fun hsafe => ?_⟩
  · rw [hmapped' v hv, hmapped v hv, hrange]
    simp
  · -- the page table at index 1 is missing, and memory lasts
    have hmissing : t.phys.tableAt d (1024 / nEntries) = none := by
      have hnot : 1 ∉ t.phys.tabs d := by
        rw [htabs', htabs, hrange]
        intro hmem
        simp only [Finset.mem_union, Finset.mem_singleton, Nat.one_ne_zero, or_false] at hmem
        obtain hkern | hstack := hmem
        · exact absurd (kernTabs_ge hkern) (by decide)
        · exact absurd hstack (by decide)
      rw [Phys.mem_tabs] at hnot
      exact Option.not_isSome_iff_eq_none.mp fun hsome => hnot ⟨by decide, hsome⟩
    refine hsafe 1024 (by decide) hmissing (henough'.mono ?_)
    have htables : (kernTabs smallKernel ∪ (mapped t.phys d 0 1024).image (· / nEntries)).card ≤
        (Finset.range nEntries).card := by
      refine Finset.card_le_card (Finset.union_subset (kernTabs_subset _) fun i hi => ?_)
      obtain ⟨w, hw, rfl⟩ := Finset.mem_image.mp hi
      exact Finset.mem_range.mpr (div_lt_of_page ((mem_mapped.mp hw).1.2.trans (by decide)))
    have hpages : (mapped t.phys d 0 1024).card ≤ (Finset.Ico 0 1024).card :=
      Finset.card_filter_le _ _
    rw [Finset.card_range] at htables
    rw [Nat.card_Ico] at hpages
    have hneeds : copyNeeds smallKernel t.phys d 1024 ≤ nEntries + 1024 + 1 :=
      Nat.succ_le_succ (Nat.add_le_add htables hpages)
    exact hneeds.trans ((by decide : nEntries + 1024 + 1 ≤ 3998).trans (Nat.le_add_left _ _))

end Xv6.Vm
