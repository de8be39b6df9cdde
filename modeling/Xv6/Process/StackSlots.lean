import Xv6.Process.Grow
import Xv6.Process.Ids

/-!
# Who has the stack slots

`thread_create` takes an entry of `stable` for the new LWP and `thread_join` gives it back. But
`growproc` takes one for every `2 * PGSIZE` bytes and writes it over `curproc->snum`, and the loop
of `exit` reclaims LWPs without giving their entries back (`stack_slots_leak`). Where neither happens,
the entries in use are those of the LWPs, one each, and `get_base` never runs out of them
(`stack_slots_exact`).
-/

namespace Xv6.Process

open Function (update update_self update_of_ne)

open Lib Table

namespace Table

/-- The entries of `stable` that are in use. -/
def usedSlots (s : Table) : Finset Nat := (Finset.range (nProc * 50)).filter fun i => s.use i = true

/-- The LWPs that nothing has reclaimed yet. -/
def lwps (s : Table) : Finset ProcId := Finset.univ.filter fun q => (s.proc q).IsLwp

lemma mem_usedSlots {s : Table} {i : Nat} : i ∈ s.usedSlots ↔ i < nProc * 50 ∧ s.use i :=
  Finset.mem_filter.trans (and_congr_left' Finset.mem_range)

lemma mem_lwps {s : Table} {q : ProcId} : q ∈ s.lwps ↔ (s.proc q).IsLwp := by
  simp [lwps]

end Table

/-- The action neither takes a stack slot for anything but an LWP nor reclaims an LWP without giving
its slot back: `sbrk` asks for less than two pages, `thread_create` does not fail once it has its
slot, the loop of `exit` finds no ended LWP, and `wait` reaps none. -/
def SlotsBalanced (s : Table) : Act → Prop
  | .sbrk _ n _ => n < 2 * pgSize
  | .threadCreate p _ avail => ∀ i ∈ s.freeBase, ∀ d ∈ (s.proc p).pgdir,
      Fits (s.pages d) (stackBase (s.proc p).sz i) (stackBase (s.proc p).sz i + 2 * pgSize) avail
  | .exitScan p => ∀ q, ¬ s.OwnZombie (s.proc p).pid q
  | .wait p => ∀ q ∈ s.waitFinds p, ¬ (s.proc q).IsLwp
  | _ => True

instance (s : Table) : DecidablePred (SlotsBalanced s) := by
  intro a
  apply Act.casesOn (motive := fun a => Decidable (SlotsBalanced s a)) a <;> intros <;> dsimp only [SlotsBalanced] <;>
    infer_instance

/-- Every LWP has a slot of its own, and every slot in use is an LWP's. -/
structure SlotInv (s : Table) : Prop where
  snum : ∀ {q}, (s.proc q).IsLwp → (s.proc q).snum ∈ s.usedSlots
  inj : ∀ {q r}, (s.proc q).IsLwp → (s.proc r).IsLwp → (s.proc q).snum = (s.proc r).snum → q = r
  owned : ∀ {i}, i ∈ s.usedSlots → ∃ q, (s.proc q).IsLwp ∧ (s.proc q).snum = i

namespace SlotInv

variable {s t : Table} {a : Act}

lemma of_same (hi : SlotInv s) (huse : t.use = s.use) (hlwp : ∀ q, (t.proc q).IsLwp ↔ (s.proc q).IsLwp)
    (hsnum : ∀ q, (s.proc q).IsLwp → (t.proc q).snum = (s.proc q).snum) : SlotInv t := by
  have hslots : t.usedSlots = s.usedSlots := by
    unfold usedSlots
    rw [huse]
  refine ⟨fun {q} hq => ?_, fun {q r} hq hr h => ?_, fun {i} h => ?_⟩
  · rw [hlwp] at hq
    rw [hslots, hsnum q hq]
    exact hi.snum hq
  · rw [hlwp] at hq hr
    rw [hsnum q hq, hsnum r hr] at h
    exact hi.inj hq hr h
  · rw [hslots] at h
    obtain ⟨q, hq, hqi⟩ := hi.owned h
    exact ⟨q, (hlwp q).mpr hq, (hsnum q hq).trans hqi⟩

lemma of_kept (hi : SlotInv s) (huse : t.use = s.use) (hk : ∀ q, Kept (s.proc q) (t.proc q)) : SlotInv t :=
  hi.of_same huse (fun q => (hk q).keeps.isLwp) fun q hq => ((hk q).layout hq.1).snum

variable {q : ProcId}

lemma of_update (hi : SlotInv s) (huse : t.use = s.use) {np : Proc}
    (hproc : t.proc = update s.proc q np) (hq : np.IsLwp ↔ (s.proc q).IsLwp)
    (hsnum : (s.proc q).IsLwp → np.snum = (s.proc q).snum) : SlotInv t := by
  refine hi.of_same huse (fun r => ?_) fun r => ?_
  · rw [hproc]
    by_cases hr : r = q
    · rw [hr, update_self]
      exact hq
    · rw [update_of_ne hr]
  · rw [hproc]
    by_cases hr : r = q
    · rw [hr, update_self]
      exact hsnum
    · rw [update_of_ne hr]
      exact fun _ => rfl

/-- A new LWP takes the first free slot. -/
lemma create (hi : SlotInv s) {np : Proc} {i : Nat} (hfree : s.freeBase = some i)
    (hq : ¬ (s.proc q).Used) (hproc : t.proc = update s.proc q np)
    (huse : t.use = update s.use i true) (hnp : np.IsLwp) (hsnum : np.snum = i) : SlotInv t := by
  have hlt := freeBase_lt hfree
  have hnew : t.proc q = np := by rw [hproc, update_self]
  have hold : ∀ {r}, r ≠ q → t.proc r = s.proc r := fun hr => by
    rw [hproc, update_of_ne hr]
  have hslots : ∀ j, j ∈ t.usedSlots ↔ j = i ∨ j ∈ s.usedSlots := by
    intro j
    rw [mem_usedSlots, mem_usedSlots, huse]
    by_cases hj : j = i
    · simp [hj, hlt]
    · simp [hj]
  -- the free slot was nobody's
  have hnobody : ∀ {r}, (s.proc r).IsLwp → (s.proc r).snum ≠ i := by
    intro r hr h
    have := (mem_usedSlots.mp (hi.snum hr)).2
    rw [h, freeBase_unused hfree] at this
    cases this
  refine ⟨fun {r} hr => ?_, fun {r r'} hr hr' h => ?_, fun {j} hj => ?_⟩
  · by_cases hrq : r = q
    · rw [hrq, hnew, hsnum, hslots]
      exact .inl rfl
    · rw [hold hrq] at hr ⊢
      exact (hslots _).mpr (.inr (hi.snum hr))
  · by_cases hrq : r = q <;> by_cases hrq' : r' = q
    · rw [hrq, hrq']
    · rw [hrq, hnew, hsnum, hold hrq'] at h
      rw [hold hrq'] at hr'
      exact absurd h.symm (hnobody hr')
    · rw [hrq', hnew, hsnum, hold hrq] at h
      rw [hold hrq] at hr
      exact absurd h (hnobody hr)
    · rw [hold hrq] at hr h
      rw [hold hrq'] at hr' h
      exact hi.inj hr hr' h
  · rcases (hslots j).mp hj with rfl | hj
    · exact ⟨q, by rw [hnew]; exact hnp, by rw [hnew, hsnum]⟩
    · obtain ⟨r, hr, hrj⟩ := hi.owned hj
      have hrq : r ≠ q := fun h => hq (h ▸ hr.1)
      exact ⟨r, by rwa [hold hrq], by rwa [hold hrq]⟩

/-- An LWP is joined, and its slot given back. -/
lemma join (hi : SlotInv s) (hq : (s.proc q).IsLwp) (hgone : ¬ (t.proc q).Used)
    (hk : ∀ r ≠ q, Kept (s.proc r) (t.proc r))
    (huse : t.use = update s.use (s.proc q).snum false) : SlotInv t := by
  have hslots : ∀ j, j ∈ t.usedSlots ↔ j ≠ (s.proc q).snum ∧ j ∈ s.usedSlots := by
    intro j
    rw [mem_usedSlots, mem_usedSlots, huse]
    by_cases hj : j = (s.proc q).snum
    · simp [hj]
    · simp [hj]
  have hne : ∀ {r}, (t.proc r).IsLwp → r ≠ q := fun hr h => hgone (h ▸ hr.1)
  have hlwp : ∀ {r}, (t.proc r).IsLwp → (s.proc r).IsLwp ∧ (t.proc r).snum = (s.proc r).snum := by
    intro r hr
    have hs := (hk r (hne hr)).keeps.isLwp.mp hr
    exact ⟨hs, ((hk r (hne hr)).layout hs.1).snum⟩
  refine ⟨fun {r} hr => ?_, fun {r r'} hr hr' h => ?_, fun {j} hj => ?_⟩
  · obtain ⟨hs, hsn⟩ := hlwp hr
    rw [hsn, hslots]
    exact ⟨fun h => hne hr (hi.inj hs hq h), hi.snum hs⟩
  · rw [(hlwp hr).2, (hlwp hr').2] at h
    exact hi.inj (hlwp hr).1 (hlwp hr').1 h
  · obtain ⟨hjq, hj⟩ := (hslots j).mp hj
    obtain ⟨r, hr, hrj⟩ := hi.owned hj
    have hrq : r ≠ q := fun h => hjq (by rw [← hrj, h])
    exact ⟨r, (hk r hrq).keeps.isLwp.mpr hr, (((hk r hrq).layout hr.1).snum).trans hrj⟩

/-- `sbrk` of less than two pages takes no slot. -/
lemma sbrk (hi : SlotInv s) {p : ProcId} {n : Int} {avail : Nat} (hn : n < 2 * pgSize) :
    SlotInv (s.growproc p n avail) := by
  have hzero : n.toNat / (2 * pgSize) = 0 := by
    have : 0 < pgSize := by decide
    exact Nat.div_eq_of_lt (by omega)
  unfold Table.growproc
  rw [hzero]
  cases ho : s.owner p with
  | none => exact hi.of_same rfl (fun _ => .rfl) fun _ _ => rfl
  | some o =>
    cases hd : (s.proc p).pgdir with
    | none => exact hi.of_same rfl (fun _ => .rfl) fun _ _ => rfl
    | some d =>
      simp only [getBases]
      split
      · exact hi.of_update rfl rfl .rfl fun _ => rfl
      · exact hi.of_same rfl (fun _ => .rfl) fun _ _ => rfl
      · exact hi.of_same rfl (fun _ => .rfl) fun _ _ => rfl

/-- **One step.** -/
lemma step (hi : SlotInv s) (hids : Ids s) (hc : SlotsBalanced s a) (h : s.step a = some t) : SlotInv t := by
  cases step_effect h with
  | quiet _ hq => exact hi.of_kept hq.use hq.kept
  | stop => exact hi.of_same rfl (fun _ => .rfl) fun _ _ => rfl
  | @fork p q d hp hq hd =>
    -- the child is no LWP: it has no LWP number, or is marked as forked
    have hchild : ¬ (s.child p q).IsLwp := by
      intro hl
      by_cases hp0 : 0 < (s.proc p).lwpid
      · exact absurd hl.2.2 (by simp [child, hp0])
      · exact absurd hl.2.1 (by simp [child, hp0])
    exact hi.of_update rfl rfl (iff_of_false hchild fun hl => hq hl.1) fun hl => absurd hl.1 hq
  | exec hp hd => exact hi.of_update rfl rfl .rfl fun _ => rfl
  | create hp hq hd hfree hpg =>
    exact hi.create hfree hq rfl rfl ⟨by simp [Proc.Used, Table.lwp], hids.nextlwpid_pos, rfl⟩ rfl
  | createFail hp hq hd hfree hpg =>
    obtain ⟨sz, pg', hsize⟩ := allocuvm_size_iff.mpr (hc _ hfree _ hd)
    rw [hsize] at hpg
    cases hpg
  | @threadExit p retval f hp hf =>
    have hkept := hi.of_kept (t := { s with proc := f }) rfl hf
    refine hkept.of_update rfl rfl ?_ fun _ => rfl
    have hu : (f p).Used := (hf p).keeps.1.mpr (used_of_calls hp)
    exact ⟨fun hl => ⟨hu, hl.2⟩, fun hl => ⟨by simp [Proc.Used], hl.2⟩⟩
  | @exitScan p f pg hp hz hk hkp hl hcont hpg hun =>
    have hnone : ∀ q, q ∉ s.ownZombies p := fun q hq => hc q (mem_ownZombies.mp hq)
    refine hi.of_same rfl (fun q => ?_) fun q hq => ?_
    · by_cases hqp : q = p
      · rw [hqp]
        exact hkp.isLwp
      · exact (hk q (hnone q) hqp).keeps.isLwp
    · by_cases hqp : q = p
      · rw [hqp]
        exact hl.snum
      · exact ((hk q (hnone q) hqp).layout hq.1).snum
  | @wait p q d f hfind hz hd hq hf =>
    have hno : ¬ (s.proc q).IsLwp := hc q hfind
    refine hi.of_same rfl (fun r => ?_) fun r hr => ?_
    · by_cases hrq : r = q
      · rw [hrq]
        exact iff_of_false (fun hl => hq hl.1) hno
      · exact (hf r hrq).keeps.isLwp
    · have hrq : r ≠ q := fun h => hno (h ▸ hr)
      exact ((hf r hrq).layout hr.1).snum
  | @join p q thread f pg hp hfind hl hown hq hf hpg hun =>
    have hqz : (s.proc q).IsLwp := hids.lwp (used_of_zombie hown.2) (by
      rw [hown.1]
      exact (hids.pid_pos hp).ne')
    exact hi.join hqz hq hf rfl
  | grow hp =>
    unfold Table.step at h
    split at h
    · cases h
    · obtain ⟨-, ht⟩ := of_guard h
      rw [← ht]
      exact hi.sbrk hc

lemma boot : SlotInv Table.boot := by
  have hnone : ∀ q, ¬ (Table.boot.proc q).IsLwp := by decide
  refine ⟨fun {q} hq => absurd hq (hnone q), fun {q _} hq => absurd hq (hnone q), fun {i} hi => ?_⟩
  exact absurd (mem_usedSlots.mp hi).2 (by simp [Table.boot])

lemma image_eq (hi : SlotInv s) : s.lwps.image (fun q => (s.proc q).snum) = s.usedSlots := by
  ext i
  rw [Finset.mem_image]
  constructor
  · intro ⟨q, hq, hqi⟩
    rw [← hqi]
    exact hi.snum (mem_lwps.mp hq)
  · intro h
    obtain ⟨q, hq, hqi⟩ := hi.owned h
    exact ⟨q, mem_lwps.mpr hq, hqi⟩

/-- There are as many slots in use as LWPs. -/
lemma card_eq (hi : SlotInv s) : s.usedSlots.card = s.lwps.card := by
  rw [← hi.image_eq]
  exact Finset.card_image_of_injOn fun q hq r hr h =>
    hi.inj (mem_lwps.mp hq) (mem_lwps.mp hr) h

end SlotInv

lemma card_usedSlots_of_full {s : Table} (h : s.freeSlots = ∅) : s.usedSlots.card = nProc * 50 := by
  have hall : s.usedSlots = Finset.range (nProc * 50) := by
    refine Finset.filter_true_of_mem fun i hi => ?_
    by_contra huse
    have : i ∈ s.freeSlots := mem_freeSlots.mpr ⟨Finset.mem_range.mp hi, by simpa using huse⟩
    rw [h] at this
    cases this
  rw [hall, Finset.card_range]

/-- **Stack slots do not leak** in the runs whose steps are balanced: in every state reached there are
as many entries of `stable` in use as LWPs, the `snum` of each LWP is one of them and nobody else's,
and `get_base` panics only if `NPROC * 50` LWPs exist, so never. -/
theorem stack_slots_exact {as : List Act} {s : Table}
    (hrun : Run Table.step SlotsBalanced Table.boot as s) :
    s.usedSlots.card = s.lwps.card ∧
      (∀ q ∈ s.lwps, (s.proc q).snum ∈ s.usedSlots) ∧
      (∀ q ∈ s.lwps, ∀ r ∈ s.lwps, (s.proc q).snum = (s.proc r).snum → q = r) ∧
      (∀ p, s.getBase p = none → s.lwps.card = nProc * 50) ∧ ∀ p, s.getBase p ≠ none := by
  obtain ⟨hids, hi⟩ := hrun.inv (I := fun s => Ids s ∧ SlotInv s) ⟨Ids.boot, SlotInv.boot⟩
    fun s a t ⟨hids, hi⟩ hc h => ⟨hids.step h, hi.step hids hc h⟩
  have hfull : ∀ p, s.getBase p = none → s.lwps.card = nProc * 50 := by
    intro p hp
    rw [← hi.card_eq]
    exact card_usedSlots_of_full (getBase_none_iff.mp hp)
  refine ⟨hi.card_eq, fun q hq => hi.snum (mem_lwps.mp hq),
    fun q hq r hr h => hi.inj (mem_lwps.mp hq) (mem_lwps.mp hr) h, hfull, fun p hp => ?_⟩
  have hle : s.lwps.card ≤ nProc := (Finset.card_le_univ _).trans (by simp)
  have := hfull p hp
  unfold nProc at *
  omega

/-- A process creates two LWPs; the first ends and is joined. -/
def joinOne : List Act :=
  [.sched 0 .running, .fork 0 .enough, .sched 1 .running, .threadCreate 1 true 9,
   .threadCreate 1 true 9, .sched 2 .running, .threadExit 2 0, .threadJoin 1 1, .sbrk 1 5000 9]

theorem stack_slots_exact_joinOne :
    ∃ s, Run Table.step SlotsBalanced Table.boot joinOne s ∧ s.lwps.card = 1 ∧
      s.usedSlots.card = 1 := by
  obtain ⟨s, hrun, hcard⟩ := run_of_check Table.step SlotsBalanced Table.boot joinOne
    (fun s => s.lwps.card = 1) (by decide +kernel)
  exact ⟨s, hrun, hcard, (stack_slots_exact hrun).1.trans hcard⟩

/-- Without LWPs: a process asks for two pages. -/
def sbrkTwoPages : List Act :=
  [.sched 0 .running, .fork 0 .enough, .sched 1 .running, .sbrk 1 8192 9]

/-- A process creates an LWP, which ends, and exits without joining it. -/
def exitReapsLwp : List Act :=
  [.sched 0 .running, .fork 0 .enough, .sched 1 .running, .threadCreate 1 true 9,
   .sched 2 .running, .threadExit 2 0, .exit 1, .exitScan 1]

/-- Both leave an entry in use that is no LWP's. -/
theorem stack_slots_leak :
    (∃ s, Run Table.step anyStep Table.boot sbrkTwoPages s ∧ s.use 0 = true ∧ s.lwps = ∅) ∧
      ∃ s, Run Table.step anyStep Table.boot exitReapsLwp s ∧ s.use 0 = true ∧ s.lwps = ∅ :=
  ⟨run_of_check _ _ _ _ _ (by decide +kernel), run_of_check _ _ _ _ _ (by decide +kernel)⟩

end Xv6.Process
