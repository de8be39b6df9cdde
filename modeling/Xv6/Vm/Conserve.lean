import Xv6.Vm.Copy
import Xv6.Lib.Run

/-!
# No page is lost

Runs of calls to the paging code: the callers have pages from `kalloc` and page directories from `setupkvm`
and `copyuvm`, and pass them on in later calls. Any call of `kalloc` inside a call may fail. In every state
that such a run reaches, each page of the allocator is in exactly one place, where places are counted: a
page that is on the free list twice, or mapped at two addresses, is in two of them.
-/

namespace Xv6.Vm

open Function (update)

open Lib

/-- Memory, and what the callers have. -/
structure VmState where
  phys : Phys
  /-- the page directories from `setupkvm` and `copyuvm` -/
  live : List Page
  /-- the pages from `kalloc` -/
  held : List Page

inductive VmCall
  | kalloc
  | kfree (p : Page)
  /-- a store to a page from `kalloc` -/
  | write (p : Page) (m : Table)
  /-- a store by the user program, to virtual page `v` -/
  | store (d : Page) (v : Nat) (m : Table)
  | setupkvm
  | allocuvm (d : Page) (oldsz newsz : Nat)
  | deallocuvm (d : Page) (oldsz newsz : Nat)
  /-- the guard page below a user stack -/
  | clearpteu (d : Page) (v : Nat)
  | copyuvm (d : Page) (sz : Nat)
  | freevm (d : Page)

/-- What a call returns, and memory after it; `none` if it panics. -/
def returned {α : Type} (c : M α) (s : Phys) : Option (α × Phys) :=
  match c s with
  | .ok a s' => some (a, s')
  | .error _ _ => none

namespace VmState

/-- A call, with arguments that its caller has. The size that `deallocuvm` starts from is that of a process,
at most `KERNBASE`. -/
def step (k : Image) (fails : Nat → Bool) (s : VmState) : VmCall → Option VmState
  | .kalloc => do
    let (r, phys) ← returned (kalloc fails) s.phys
    return { s with phys, held := r.toList ++ s.held }
  | .kfree p =>
    if p ∈ s.held then do
      let (_, phys) ← returned (kfree k p) s.phys
      return { s with phys, held := s.held.erase p }
    else none
  | .write p m =>
    if p ∈ s.held then do
      let (_, phys) ← returned (setTable p m) s.phys
      return { s with phys }
    else none
  | .store d v m =>
    if d ∈ s.live ∧ v < kernPage then do
      let p ← s.phys.userAt d v
      let (_, phys) ← returned (setTable p m) s.phys
      return { s with phys }
    else none
  | .setupkvm => do
    let (r, phys) ← returned (setupkvm k fails) s.phys
    return { s with phys, live := r.toList ++ s.live }
  | .allocuvm d oldsz newsz =>
    if d ∈ s.live then do
      let (_, phys) ← returned (allocuvm k fails d oldsz newsz) s.phys
      return { s with phys }
    else none
  | .deallocuvm d oldsz newsz =>
    if d ∈ s.live ∧ oldsz ≤ kernBase then do
      let (_, phys) ← returned (deallocuvm k fails d oldsz newsz) s.phys
      return { s with phys }
    else none
  | .clearpteu d v =>
    if d ∈ s.live ∧ v < kernPage then do
      let (_, phys) ← returned (clearpteu fails d v) s.phys
      return { s with phys }
    else none
  | .copyuvm d sz =>
    if d ∈ s.live then do
      let (r, phys) ← returned (copyuvm k fails d sz) s.phys
      return { s with phys, live := r.toList ++ s.live }
    else none
  | .freevm d =>
    if d ∈ s.live then do
      let (_, phys) ← returned (freevm k fails (some d)) s.phys
      return { s with phys, live := s.live.erase d }
    else none

/-- The state after `kinit1` and `kinit2`: `freerange` has freed the pages one after another. -/
def boot (k : Image) (mem : Page → Table) : VmState where
  phys := { freelist := (List.range' k.endPage (physStop - k.endPage)).reverse, mem, calls := 0 }
  live := []
  held := []

end VmState

/-! ### What the callers have -/

/-- The page directories and the pages that somebody has are those that the callers have. -/
structure Roots (own : Page → Place) (live held : List Page) : Prop where
  live_iff : ∀ p, (own p).root = some true ↔ p ∈ live
  held_iff : ∀ p, (own p).root = some false ↔ p ∈ held
  liveNodup : live.Nodup
  heldNodup : held.Nodup

section

variable {k : Image} {fails : Nat → Bool} {own own' : Page → Place} {s : Phys} {p q d : Page}
  {live held : List Page}

namespace Roots

section

variable (h : Roots own live held)
include h

lemma stays (hstay : Stays own own') : Roots own' live held where
  live_iff p := by rw [hstay.root, h.live_iff]
  held_iff p := by rw [hstay.root, h.held_iff]
  liveNodup := h.liveNodup
  heldNodup := h.heldNodup

lemma notMem_of_free (hp : own p = .free) : p ∉ live ∧ p ∉ held := by
  rw [← h.live_iff, ← h.held_iff, hp]
  exact ⟨nofun, nofun⟩

lemma addLive (hd : own d = .free) : Roots (update own d (.dir d)) (d :: live) held := by
  obtain ⟨hlive, hheld⟩ := h.notMem_of_free hd
  refine ⟨fun q => ?_, fun q => ?_, List.nodup_cons.mpr ⟨hlive, h.liveNodup⟩, h.heldNodup⟩
  all_goals by_cases hq : q = d
  · simp [hq, Place.root]
  · simp [h.live_iff, hq]
  · simp [hq, Place.root, hheld]
  · simp [Function.update_of_ne hq, h.held_iff]

lemma addHeld (hp : own p = .free) : Roots (update own p .held) live (p :: held) := by
  obtain ⟨hlive, hheld⟩ := h.notMem_of_free hp
  refine ⟨fun q => ?_, fun q => ?_, h.liveNodup, List.nodup_cons.mpr ⟨hheld, h.heldNodup⟩⟩
  all_goals by_cases hq : q = p
  · simp [hq, Place.root, hlive]
  · simp [Function.update_of_ne hq, h.live_iff]
  · simp [hq, Place.root]
  · simp [h.held_iff, hq]

lemma dropHeld (hp : own p = .held) : Roots (update own p .free) live (held.erase p) := by
  have hlive : p ∉ live := by
    rw [← h.live_iff, hp]
    exact nofun
  refine ⟨fun q => ?_, fun q => ?_, h.liveNodup, h.heldNodup.erase p⟩
  all_goals by_cases hq : q = p
  · simp [hq, Place.root, hlive]
  · simp [Function.update_of_ne hq, h.live_iff]
  · simp [hq, Place.root, h.heldNodup.mem_erase_iff]
  · simp [h.held_iff, hq, h.heldNodup.mem_erase_iff]

lemma dropLive (hown : Owns k own s) (hd : own d = .dir d) : Roots (freed d own) (live.erase d) held := by
  have hroot : ∀ q ≠ d, (freed d own q).root = (own q).root := fun q hq => by
    rw [freed]
    split
    next hdir =>
      cases hplace : own q with
      | dir e =>
        rw [hplace] at hdir
        cases hdir
        exact absurd (hown.dir q d hplace) hq
      | held =>
        rw [hplace] at hdir
        cases hdir
      | _ => rfl
    next => rfl
  have hheld : d ∉ held := by
    rw [← h.held_iff, hd]
    exact fun h => by cases h
  have hself : (freed d own d).root = none := by simp [freed, hd, Place.dirOf, Place.root]
  refine ⟨fun q => ?_, fun q => ?_, h.liveNodup.erase d, h.heldNodup⟩
  all_goals by_cases hq : q = d
  · simp [hq, hself, h.liveNodup.mem_erase_iff]
  · simp [hroot q hq, h.live_iff, hq, h.liveNodup.mem_erase_iff]
  · simp [hq, hself, hheld]
  · simp [hroot q hq, h.held_iff]

lemma eq_dir (hown : Owns k own s) (hd : d ∈ live) : own d = .dir d := by
  have hroot := (h.live_iff d).mpr hd
  cases hplace : own d with
  | dir e => rw [hown.dir d e hplace]
  | _ =>
    rw [hplace] at hroot
    cases hroot

lemma eq_held (hp : p ∈ held) : own p = .held := by
  have hroot := (h.held_iff p).mpr hp
  cases hplace : own p with
  | held => rfl
  | _ =>
    rw [hplace] at hroot
    cases hroot

end

end Roots

end

/-! ### Calls keep the places -/

/-- Every page has a place, and each page directory that a caller has maps the kernel. -/
structure VmState.Conserved (k : Image) (own : Page → Place) (s : VmState) : Prop where
  owns : Owns k own s.phys
  roots : Roots own s.live s.held
  kernel : ∀ d ∈ s.live, s.phys.HasKernel d

section

variable {α β : Type} {c : M α} {s : Phys} {f : α × Phys → Option β} {b : β}

lemma of_returned (h : (returned c s).bind f = some b) : ∃ r s', c s = .ok r s' ∧ f (r, s') = some b := by
  unfold returned at h
  cases hc : c s with
  | ok r s' => exact ⟨r, s', rfl, by rwa [hc] at h⟩
  | error e s' => simp [hc] at h

lemma of_checked {P : Prop} [Decidable P]
    (h : (if P then (returned c s).bind f else none) = some b) : P ∧ ∃ r s', c s = .ok r s' ∧ f (r, s') = some b :=
  (Option.ite_none_right_eq_some.mp h).imp_right of_returned

end

namespace VmState.Conserved

variable {k : Image} {fails : Nat → Bool} {own own' : Page → Place} {s : VmState} {phys : Phys}
  {p d : Page}

lemma hasKernel (h : s.Conserved k own) (hkeep : Keeps own s.phys phys) :
    ∀ d ∈ s.live, phys.HasKernel d := fun d hd =>
  hkeep.hasKernel h.owns (h.roots.eq_dir h.owns hd) (h.kernel d hd)

lemma stays (h : s.Conserved k own) (hown : Owns k own' phys) (hstay : Stays own own')
    (hkeep : Keeps own s.phys phys) : Conserved k own' { s with phys } :=
  ⟨hown, h.roots.stays hstay, h.hasKernel hkeep⟩

/-- A store to a page whose entries are not read. -/
lemma write (h : s.Conserved k own) (hp : (own p).Plain) {m : Table}
    (hret : setTable p m s.phys = .ok () phys) : Conserved k own { s with phys } := by
  cases hret
  have hplain : ¬ (own p).Kernel := fun hk => by
    cases hplace : own p with
    | dir d => exact hp.1 d hplace
    | table d i => exact hp.2 d i hplace
    | _ =>
      rw [hplace] at hk
      exact hk
  exact h.stays (h.owns.write hp m) (.refl own) (Keeps.write hplain m)

lemma addLive (h : s.Conserved k own) (hd : own d = .free) (hown : Owns k own' phys)
    (hstay : Stays (update own d (.dir d)) own') (hkeep : Keeps own s.phys phys)
    (hk : phys.HasKernel d) : Conserved k own' { s with phys, live := d :: s.live } := by
  refine ⟨hown, (h.roots.addLive hd).stays hstay, fun e he => ?_⟩
  obtain he | he := List.mem_cons.mp he
  · exact he ▸ hk
  · exact h.hasKernel hkeep e he

variable {r : Option Page}

section

variable (h : s.Conserved k own)
include h

lemma kalloc (hret : Vm.kalloc fails s.phys = .ok r phys) :
    ∃ own', Conserved k own' { s with phys, held := r.toList ++ s.held } := by
  obtain ⟨hmem, hr⟩ := (kalloc_spec h.owns (E := fun _ _ => True)).ok hret
  cases r with
  | none => exact ⟨own, hr, h.roots, h.hasKernel (.of_mem hmem)⟩
  | some p => exact ⟨_, hr.2, h.roots.addHeld hr.1, h.hasKernel (.of_mem hmem)⟩

lemma kfree (hp : p ∈ s.held) (hret : Vm.kfree k p s.phys = .ok () phys) :
    Conserved k (update own p .free) { s with phys, held := s.held.erase p } := by
  have hheld := h.roots.eq_held hp
  obtain ⟨hown, hmem⟩ := (kfree_spec h.owns hheld (E := fun _ _ => True)).ok hret
  refine ⟨hown, h.roots.dropHeld hheld, h.hasKernel (Keeps.of_write ?_ hmem)⟩
  rw [hheld]
  exact id

lemma setupkvm (hret : Vm.setupkvm k fails s.phys = .ok r phys) :
    ∃ own', Conserved k own' { s with phys, live := r.toList ++ s.live } := by
  obtain ⟨hkeep, hr⟩ := (setupkvm_spec h.owns (E := fun _ _ => True)).ok hret
  cases r with
  | none => exact ⟨own, h.stays hr.1 (.refl own) hkeep⟩
  | some d =>
    obtain ⟨⟨hfree, hk, own', hown, htab⟩, -⟩ := hr
    exact ⟨own', h.addLive hfree hown htab.stays hkeep hk⟩

lemma clearpteu {v : Nat} (hd : d ∈ s.live) (hv : v < kernPage)
    (hret : Vm.clearpteu fails d v s.phys = .ok () phys) : Conserved k own { s with phys } := by
  have hspec : wp (Vm.clearpteu fails d v) s.phys (fun _ phys => Conserved k own { s with phys })
      fun _ _ => True := by
    rw [Vm.clearpteu, wp_bind, wp_walkpgdir_false]
    cases hat : s.phys.tableAt d (v / nEntries) with
    | none => trivial
    | some t =>
      have ht : own t = .table d (v / nEntries) :=
        (h.owns.table d _ t).mpr ⟨h.roots.eq_dir h.owns hd, div_lt_of_user hv, hat⟩
      have huser : ¬ (own t).Kernel := by
        rw [ht]
        show ¬ kernPage ≤ v / nEntries * nEntries
        have := Nat.div_mul_le_self v nEntries
        omega
      simp only [setEntry, wp_bind, wp_get, wp_set]
      exact h.stays (h.owns.reflag (Word.clearU_page _)) (.refl own) (Keeps.write huser _)
  exact hspec.ok hret

lemma copyuvm {sz : Nat} (hd : d ∈ s.live) (hret : Vm.copyuvm k fails d sz s.phys = .ok r phys) :
    ∃ own', Conserved k own' { s with phys, live := r.toList ++ s.live } := by
  obtain ⟨own', hown, hkeep, hr⟩ :=
    (copyuvm_spec h.owns (h.roots.eq_dir h.owns hd) (h.kernel d hd) (E := fun _ _ => True)
      (.inr fun _ _ => trivial)).ok hret
  cases r with
  | none => exact ⟨own', h.stays hown hr.1 hkeep⟩
  | some e =>
    obtain ⟨⟨hfree, hk, hstay⟩, -⟩ := hr
    exact ⟨own', h.addLive hfree hown hstay hkeep hk⟩

lemma freevm (hd : d ∈ s.live) (hret : Vm.freevm k fails (some d) s.phys = .ok () phys) :
    Conserved k (freed d own) { s with phys, live := s.live.erase d } := by
  have hdir := h.roots.eq_dir h.owns hd
  obtain ⟨hown, hkeep, -⟩ := (freevm_spec h.owns hdir (E := fun _ _ => True)).ok hret
  have hroots := h.roots.dropLive h.owns hdir
  refine ⟨hown, hroots, fun e he => ?_⟩
  -- the other page directories keep their entries
  obtain ⟨hed, he⟩ := h.roots.liveNodup.mem_erase_iff.mp he
  exact hkeep.hasKernel h.owns hed (h.roots.eq_dir h.owns he) (h.kernel e he)

/-- Every call keeps the places. -/
lemma step {c : VmCall} {t : VmState} (hstep : s.step k fails c = some t) : ∃ own', t.Conserved k own' := by
  cases c with
  | kalloc =>
    obtain ⟨r, phys, hret, ⟨⟩⟩ := of_returned hstep
    exact h.kalloc hret
  | kfree p =>
    obtain ⟨hp, r, phys, hret, ⟨⟩⟩ := of_checked hstep
    exact ⟨_, h.kfree hp hret⟩
  | write p m =>
    obtain ⟨hp, r, phys, hret, ⟨⟩⟩ := of_checked hstep
    refine ⟨own, h.write ?_ hret⟩
    rw [h.roots.eq_held hp]
    exact Place.plain_held
  | store d v m =>
    obtain ⟨⟨hd, hv⟩, hstep⟩ := Option.ite_none_right_eq_some.mp hstep
    obtain ⟨p, hp, hstep⟩ := Option.bind_eq_some_iff.mp hstep
    obtain ⟨r, phys, hret, ⟨⟩⟩ := of_returned hstep
    have huser := (h.owns.user d v p).mpr ⟨h.roots.eq_dir h.owns hd, hv, hp⟩
    refine ⟨own, h.write ?_ hret⟩
    rw [huser]
    exact Place.plain_user d v
  | setupkvm =>
    obtain ⟨r, phys, hret, ⟨⟩⟩ := of_returned hstep
    exact h.setupkvm hret
  | allocuvm d oldsz newsz =>
    obtain ⟨hd, r, phys, hret, ⟨⟩⟩ := of_checked hstep
    obtain ⟨own', hown, hstay, hkeep, -⟩ :=
      (allocuvm_spec h.owns (h.roots.eq_dir h.owns hd) (E := fun _ _ => True)
        fun _ _ => trivial).ok hret
    exact ⟨own', h.stays hown hstay hkeep⟩
  | deallocuvm d oldsz newsz =>
    obtain ⟨⟨hd, hle⟩, r, phys, hret, ⟨⟩⟩ := of_checked hstep
    obtain ⟨own', hown, hdrop, hkeep, -⟩ :=
      (deallocuvm_spec h.owns (h.roots.eq_dir h.owns hd) hle (E := fun _ _ => True)).ok
        hret
    exact ⟨own', h.stays hown hdrop.stays hkeep⟩
  | clearpteu d v =>
    obtain ⟨⟨hd, hv⟩, r, phys, hret, ⟨⟩⟩ := of_checked hstep
    exact ⟨own, h.clearpteu hd hv hret⟩
  | copyuvm d sz =>
    obtain ⟨hd, r, phys, hret, ⟨⟩⟩ := of_checked hstep
    exact h.copyuvm hd hret
  | freevm d =>
    obtain ⟨hd, r, phys, hret, ⟨⟩⟩ := of_checked hstep
    exact ⟨_, h.freevm hd hret⟩

end

end VmState.Conserved

/-- At the start every page of the allocator is free. -/
def Image.bootPlace (k : Image) (p : Page) : Place :=
  if k.endPage ≤ p ∧ p < physStop then .free else .outside

lemma Image.bootPlace_cases (k : Image) (p : Page) : k.bootPlace p = .free ∨ k.bootPlace p = .outside := by
  unfold bootPlace
  split
  next => exact .inl rfl
  next => exact .inr rfl

lemma VmState.boot_owns (k : Image) (mem : Page → Table) : Owns k k.bootPlace (VmState.boot k mem).phys := by
  have hno : ∀ p d, k.bootPlace p ≠ .dir d := fun p d hp => by
    obtain h | h := k.bootPlace_cases p <;> rw [h] at hp <;> cases hp
  constructor
  · intro p
    unfold Image.bootPlace
    split
    next h => simp [h]
    next h => simp [h]
  · intro p
    rw [VmState.boot, List.mem_reverse, List.mem_range'_1, Nat.add_sub_cancel' k.endPage_le,
      Image.bootPlace]
    split
    next h => simp [h]
    next h => simp [h]
  · exact List.nodup_reverse.mpr List.nodup_range'
  · intro p d hp
    exact absurd hp (hno p d)
  · intro d i p
    refine ⟨fun hp => ?_, fun ⟨hd, _⟩ => absurd hd (hno d d)⟩
    obtain h | h := k.bootPlace_cases p <;> rw [h] at hp <;> cases hp
  · intro d v p
    refine ⟨fun hp => ?_, fun ⟨hd, _⟩ => absurd hd (hno d d)⟩
    obtain h | h := k.bootPlace_cases p <;> rw [h] at hp <;> cases hp

lemma VmState.boot_conserved (k : Image) (mem : Page → Table) :
    (VmState.boot k mem).Conserved k k.bootPlace := by
  have hroot : ∀ p, (k.bootPlace p).root = none := fun p => by
    obtain h | h := k.bootPlace_cases p <;> rw [h] <;> rfl
  refine ⟨VmState.boot_owns k mem, ⟨fun p => ?_, fun p => ?_, List.nodup_nil, List.nodup_nil⟩, nofun⟩
  · simp [hroot, VmState.boot]
  · simp [hroot, VmState.boot]

lemma exists_conserved {k : Image} {fails : Nat → Bool} {mem : Page → Table} {cs : List VmCall}
    {t : VmState} (hrun : Run (VmState.step k fails) anyStep (VmState.boot k mem) cs t) :
    ∃ own, t.Conserved k own :=
  hrun.inv (I := fun s => ∃ own, s.Conserved k own) ⟨_, VmState.boot_conserved k mem⟩
    fun _ _ _ ⟨_, h⟩ _ hstep => h.step hstep

/-! ### Places, counted -/

/-- Where a page can be. -/
inductive Spot
  /-- the place on the free list -/
  | free (n : Nat)
  /-- the place among the pages that the callers have -/
  | held (n : Nat)
  /-- the place among the page directories that the callers have -/
  | dir (n : Nat)
  | table (d : Page) (i : Nat)
  | user (d : Page) (v : Nat)

/-- The place of page `p` if it is there. -/
def Spot.place (p : Page) : Spot → Place
  | .free _ => .free
  | .held _ => .held
  | .dir _ => .dir p
  | .table d i => .table d i
  | .user d v => .user d v

/-- Page `p` is there. -/
def VmState.At (s : VmState) (p : Page) : Spot → Prop
  | .free n => s.phys.freelist[n]? = some p
  | .held n => s.held[n]? = some p
  | .dir n => s.live[n]? = some p
  | .table d i => d ∈ s.live ∧ i < nEntries ∧ s.phys.tableAt d i = some p
  | .user d v => d ∈ s.live ∧ v < kernPage ∧ s.phys.userAt d v = some p

namespace VmState.Conserved

variable {k : Image} {own : Page → Place} {s : VmState} {p d : Page}

lemma dir_iff (h : s.Conserved k own) : own d = .dir d ↔ d ∈ s.live := by
  refine ⟨fun hd => ?_, h.roots.eq_dir h.owns⟩
  rw [← h.roots.live_iff, hd]
  rfl

lemma held_iff (h : s.Conserved k own) : own p = .held ↔ p ∈ s.held := by
  refine ⟨fun hp => ?_, h.roots.eq_held⟩
  rw [← h.roots.held_iff, hp]
  rfl

lemma place_of_at (h : s.Conserved k own) {x : Spot} (hx : s.At p x) : own p = x.place p := by
  cases x with
  | free n => exact (h.owns.free p).mpr (List.mem_of_getElem? hx)
  | held n => exact h.held_iff.mpr (List.mem_of_getElem? hx)
  | dir n => exact h.dir_iff.mpr (List.mem_of_getElem? hx)
  | table d i => exact (h.owns.table d i p).mpr ⟨h.dir_iff.mpr hx.1, hx.2⟩
  | user d v => exact (h.owns.user d v p).mpr ⟨h.dir_iff.mpr hx.1, hx.2⟩

lemma exists_at (h : s.Conserved k own) (hp : own p ≠ .outside) : ∃ x, s.At p x := by
  cases hplace : own p with
  | outside => exact absurd hplace hp
  | free =>
    obtain ⟨n, hn⟩ := List.mem_iff_getElem?.mp ((h.owns.free p).mp hplace)
    exact ⟨.free n, hn⟩
  | held =>
    obtain ⟨n, hn⟩ := List.mem_iff_getElem?.mp (h.held_iff.mp hplace)
    exact ⟨.held n, hn⟩
  | dir d =>
    have hpd := h.owns.dir p d hplace
    rw [← hpd] at hplace
    obtain ⟨n, hn⟩ := List.mem_iff_getElem?.mp (h.dir_iff.mp hplace)
    exact ⟨.dir n, hn⟩
  | table d i =>
    obtain ⟨hd, hat⟩ := (h.owns.table d i p).mp hplace
    exact ⟨.table d i, h.dir_iff.mp hd, hat⟩
  | user d v =>
    obtain ⟨hd, hat⟩ := (h.owns.user d v p).mp hplace
    exact ⟨.user d v, h.dir_iff.mp hd, hat⟩

lemma index_unique {l : List Page} (hl : l.Nodup) {n m : Nat} (hn : l[n]? = some p)
    (hm : l[m]? = some p) : n = m :=
  (List.getElem?_inj (List.getElem?_eq_some_iff.mp hn).1 hl).mp (hn.trans hm.symm)

lemma at_unique (h : s.Conserved k own) {x y : Spot} (hx : s.At p x) (hy : s.At p y) : y = x := by
  have hplace : y.place p = x.place p := (h.place_of_at hy).symm.trans (h.place_of_at hx)
  cases x <;> cases y <;> cases hplace
  · exact congrArg _ (index_unique h.owns.nodup hy hx)
  · exact congrArg _ (index_unique h.roots.heldNodup hy hx)
  · exact congrArg _ (index_unique h.roots.liveNodup hy hx)
  · rfl
  · rfl

end VmState.Conserved

/-- **No page is lost or freed twice.** Whatever is called, with `kalloc` failing at any point, a page of
the allocator is at exactly one place: once on the free list, with one caller, a page directory, a page
table of one page directory at one index, or mapped at one address of one page directory. -/
theorem pages_conserved (k : Image) (fails : Nat → Bool) (mem : Page → Table) {cs : List VmCall}
    {t : VmState} (hrun : Run (VmState.step k fails) anyStep (VmState.boot k mem) cs t) {p : Page}
    (hp : k.endPage ≤ p ∧ p < physStop) : ∃! x : Spot, t.At p x := by
  obtain ⟨own, h⟩ := exists_conserved hrun
  obtain ⟨x, hx⟩ := h.exists_at ((h.owns.managed p).mpr hp)
  exact ⟨x, hx, fun y hy => h.at_unique hx hy⟩

/-- A kernel that leaves two pages. -/
def twoPages : Image := ⟨0x101, 0xDFFE, by decide, by decide, by decide⟩

/-- One page is taken, and `setupkvm` takes the other; it gets none for the first page table, and `freevm`
gives its page back. -/
theorem pages_conserved_twoPages :
    ∃ t, Run (VmState.step twoPages fun n => decide (n = 2)) anyStep
      (VmState.boot twoPages fun _ => zeroes) [.kalloc, .setupkvm] t ∧
      t.phys.freelist = [0xDFFE] ∧ t.held = [0xDFFF] ∧ ∃! x : Spot, t.At 0xDFFE x := by
  obtain ⟨t, hrun, hfree, hheld⟩ := run_of_check (VmState.step twoPages fun n => decide (n = 2))
    anyStep (VmState.boot twoPages fun _ => zeroes) [.kalloc, .setupkvm]
    (fun t => t.phys.freelist = [0xDFFE] ∧ t.held = [0xDFFF]) (by decide +kernel)
  exact ⟨t, hrun, hfree, hheld, pages_conserved twoPages _ _ hrun (by decide)⟩

end Xv6.Vm
