import Xv6.Process.Ids

/-!
# Heap and LWP stacks in one address space

The stack of an LWP starts at `sz + 2 * PGSIZE * (i + 1)`, where `sz` is the size of its creator at
that moment and `i` a stack slot that nobody else has. This keeps stacks apart from each other and
from the heap as long as `sz` means the same for all of them. It does not when `sbrk` moves the heap
under stacks that are already there, or when the creator is itself an LWP, whose `sz` is the top of
its own stack (`sbrk_hits_stack`).

If the heap moves only while no LWP shares it, and managers create the LWPs, then all stacks of an
address space are laid out from one size, and no page is ever mapped twice
(`stacks_and_heap_apart`).
-/

namespace Xv6.Process

open Function (update update_self update_of_ne)
open Lib Table

/-- The slot holds a process that is not an LWP, nor the forked child of one. -/
def Proc.IsManager (p : Proc) : Prop := p.Used ∧ p.lwpid = 0

instance : DecidablePred Proc.IsManager := fun _ => inferInstanceAs (Decidable (_ ∧ _))

/-- A `sbrk` other than `sbrk(0)` comes from a manager on whose page directory there is no LWP, and
`thread_create` comes from a manager. -/
def SbrkAlone (s : Table) : Act → Prop
  | .sbrk p n _ =>
    n = 0 ∨ ((s.proc p).lwpid = 0 ∧ ∀ q, (s.proc q).IsLwp → (s.proc q).pgdir ≠ (s.proc p).pgdir)
  | .threadCreate p _ _ => (s.proc p).lwpid = 0
  | _ => True

instance (s : Table) : DecidablePred (SbrkAlone s) := by
  intro a
  apply Act.casesOn (motive := fun a => Decidable (SbrkAlone s a)) a <;> intros <;> dsimp only [SbrkAlone] <;>
    infer_instance

/-! ### The stack slots of one size -/

lemma pgUp_stackBase (sz i : Nat) : pgUp (stackBase sz i) = pgUp sz + 2 * (i + 1) := by
  have h : stackBase sz i = sz + 2 * (i + 1) * pgSize := by
    unfold stackBase
    rw [Nat.mul_right_comm]
  rw [h, pgUp_add_pages]

variable {i j sz : Nat}

lemma stackBase_apart (h : i < j) : stackBase sz i + 2 * pgSize ≤ stackBase sz j := by
  have : 2 * pgSize * (i + 1 + 1) ≤ 2 * pgSize * (j + 1) := Nat.mul_le_mul_left _ (by omega)
  rw [Nat.mul_add_one] at this
  unfold stackBase
  omega

lemma le_stackBase (sz i : Nat) : sz ≤ stackBase sz i := Nat.le_add_right _ _

/-! ### The invariant -/

/-- The pages of the stack of `p`. -/
def Proc.OnStack (p : Proc) (i : Nat) : Prop := pgUp p.sbase ≤ i ∧ i < pgUp (p.sbase + 2 * pgSize)

/-- `base d` is the size from which the stacks of page directory `d` are laid out. -/
structure StackInv (base : Nat → Nat) (s : Table) : Prop where
  dir : ∀ {q}, (s.proc q).Used → ∃ d, (s.proc q).pgdir = some d ∧ d < s.nextdir
  lwp : ∀ {q d}, (s.proc q).IsLwp → (s.proc q).pgdir = some d →
    (s.proc q).sbase = stackBase (base d) (s.proc q).snum
  inUse : ∀ {q}, (s.proc q).IsLwp → s.use (s.proc q).snum = true
  snum_inj : ∀ {q r}, (s.proc q).IsLwp → (s.proc r).IsLwp → (s.proc q).snum = (s.proc r).snum → q = r
  manager : ∀ {m d}, (s.proc m).IsManager → (s.proc m).pgdir = some d → base d = (s.proc m).sz
  manager_inj : ∀ {m n}, (s.proc m).IsManager → (s.proc n).IsManager →
    (s.proc m).pgdir = (s.proc n).pgdir → m = n
  /-- under a manager only heap and stacks are mapped -/
  mapped : ∀ {m d i}, (s.proc m).IsManager → (s.proc m).pgdir = some d → s.pages d i = true →
    i < pgUp (s.proc m).sz ∨ ∃ q, (s.proc q).IsLwp ∧ (s.proc q).pgdir = some d ∧ (s.proc q).OnStack i

/-- What places a process: who it is, its page directory, its heap and its stack. -/
structure SameSite (a b : Proc) : Prop where
  used : a.Used
  pgdir : b.pgdir = a.pgdir
  lwpid : b.lwpid = a.lwpid
  forked : b.forked = a.forked
  layout : SameLayout a b

lemma Kept.sameSite {a b : Proc} (h : Kept a b) (hb : b.Used) : SameSite a b :=
  have hs := h.keeps.same hb
  have ha := h.keeps.1.mp hb
  ⟨ha, hs.pgdir, hs.lwpid, hs.forked, h.layout ha⟩

namespace SameSite

variable {a b : Proc}

lemma refl (ha : a.Used) : SameSite a a := ⟨ha, rfl, rfl, rfl, .refl a⟩

lemma isLwp (h : SameSite a b) (hb : b.IsLwp) : a.IsLwp :=
  ⟨h.used, h.lwpid ▸ hb.2.1, h.forked ▸ hb.2.2⟩

lemma isManager (h : SameSite a b) (hb : b.IsManager) : a.IsManager := ⟨h.used, h.lwpid ▸ hb.2⟩

lemma isLwp_of (h : SameSite a b) (ha : a.IsLwp) (hb : b.Used) : b.IsLwp :=
  ⟨hb, h.lwpid ▸ ha.2.1, h.forked ▸ ha.2.2⟩

lemma onStack (h : SameSite a b) : b.OnStack i ↔ a.OnStack i := by
  unfold Proc.OnStack
  rw [h.layout.sbase]

end SameSite

variable {q : ProcId} {d x : Nat} {pg : Pages}

namespace StackInv

variable {base : Nat → Nat} {s t : Table} {a : Act}

lemma of_same (hi : StackInv base s) (hn : s.nextdir ≤ t.nextdir)
    (hsite : ∀ q, (t.proc q).Used → SameSite (s.proc q) (t.proc q))
    (huse : ∀ q, (t.proc q).IsLwp → t.use (s.proc q).snum)
    (hpages : ∀ d i, d < s.nextdir → t.pages d i → s.pages d i)
    (hgone : ∀ q, (s.proc q).IsLwp → ¬ (t.proc q).Used → (s.proc q).StackUnmapped t.pages) :
    StackInv base t where
  dir {q} hq := by
    obtain ⟨d, hd, hlt⟩ := hi.dir (hsite q hq).used
    exact ⟨d, (hsite q hq).pgdir.trans hd, by omega⟩
  lwp {q d} hq hd := by
    have hs := hsite q hq.1
    rw [hs.layout.sbase, hs.layout.snum]
    exact hi.lwp (hs.isLwp hq) (hs.pgdir ▸ hd)
  inUse {q} hq := by
    rw [(hsite q hq.1).layout.snum]
    exact huse q hq
  snum_inj {q r} hq hr h := by
    rw [(hsite q hq.1).layout.snum, (hsite r hr.1).layout.snum] at h
    exact hi.snum_inj ((hsite q hq.1).isLwp hq) ((hsite r hr.1).isLwp hr) h
  manager {m d} hm hd := by
    rw [(hsite m hm.1).layout.sz]
    exact hi.manager ((hsite m hm.1).isManager hm) ((hsite m hm.1).pgdir ▸ hd)
  manager_inj {m n} hm hn h := by
    rw [(hsite m hm.1).pgdir, (hsite n hn.1).pgdir] at h
    exact hi.manager_inj ((hsite m hm.1).isManager hm) ((hsite n hn.1).isManager hn) h
  mapped {m d i} hm hd hp := by
    have hs := hsite m hm.1
    have hd' : (s.proc m).pgdir = some d := hs.pgdir ▸ hd
    obtain ⟨e, he, hlt⟩ := hi.dir hs.used
    obtain rfl : e = d := Option.mem_unique he hd'
    rw [hs.layout.sz]
    rcases hi.mapped (hs.isManager hm) hd' (hpages e i hlt hp) with h | ⟨q, hq, hqd, hst⟩
    · exact .inl h
    · by_cases hu : (t.proc q).Used
      · have hsq := hsite q hu
        exact .inr ⟨q, hsq.isLwp_of hq hu, hsq.pgdir.trans hqd, hsq.onStack.mpr hst⟩
      · have := hgone q hq hu e i hqd hst.1 hst.2
        rw [this] at hp
        cases hp

/-- The base of a page directory that nobody has yet is free to choose. -/
lemma rebase (hi : StackInv base s) (base' : Nat → Nat)
    (h : ∀ d < s.nextdir, base' d = base d) : StackInv base' s := by
  have hlt : ∀ {q d}, (s.proc q).Used → (s.proc q).pgdir = some d → d < s.nextdir := by
    intro q d hq hd
    obtain ⟨e, he, hlt⟩ := hi.dir hq
    exact Option.mem_unique he hd ▸ hlt
  refine ⟨hi.dir, fun {q d} hq hd => ?_, hi.inUse, hi.snum_inj, fun {m d} hm hd => ?_,
    hi.manager_inj, hi.mapped⟩
  · rw [h d (hlt hq.1 hd)]
    exact hi.lwp hq hd
  · rw [h d (hlt hm.1 hd)]
    exact hi.manager hm hd

lemma of_update (hi : StackInv base s) {np : Proc} {e : Nat}
    (hproc : t.proc = update s.proc q np) (he : np.pgdir = some e) (helt : e < t.nextdir)
    (hn : s.nextdir ≤ t.nextdir) (huse : ∀ i, s.use i → t.use i)
    (hlwp : np.IsLwp → np.sbase = stackBase (base e) np.snum ∧ t.use np.snum ∧
      ∀ r ≠ q, (s.proc r).IsLwp → (s.proc r).snum ≠ np.snum)
    (hmgr : np.IsManager → base e = np.sz ∧
      ∀ r ≠ q, (s.proc r).IsManager → (s.proc r).pgdir ≠ some e)
    (hmapped : ∀ {m d i}, (t.proc m).IsManager → (t.proc m).pgdir = some d →
      t.pages d i → i < pgUp (t.proc m).sz ∨
        ∃ q, (t.proc q).IsLwp ∧ (t.proc q).pgdir = some d ∧ (t.proc q).OnStack i) :
    StackInv base t := by
  have hnew : t.proc q = np := by rw [hproc, update_self]
  have hold : ∀ {r}, r ≠ q → t.proc r = s.proc r := fun hr => by
    rw [hproc, update_of_ne hr]
  refine ⟨fun {r} hr => ?_, fun {r d} hr hd => ?_, fun {r} hr => ?_, fun {r r'} hr hr' h => ?_,
    fun {m d} hm hd => ?_, fun {m n} hm hm' h => ?_, hmapped⟩
  · by_cases hrq : r = q
    · exact ⟨e, by rw [hrq, hnew, he], helt⟩
    · rw [hold hrq] at hr ⊢
      obtain ⟨d, hd, hlt⟩ := hi.dir hr
      exact ⟨d, hd, by omega⟩
  · by_cases hrq : r = q
    · rw [hrq, hnew] at hr hd ⊢
      obtain rfl : e = d := Option.mem_unique he hd
      exact (hlwp hr).1
    · rw [hold hrq] at hr hd ⊢
      exact hi.lwp hr hd
  · by_cases hrq : r = q
    · rw [hrq, hnew] at hr ⊢
      exact (hlwp hr).2.1
    · rw [hold hrq] at hr ⊢
      exact huse _ (hi.inUse hr)
  · by_cases hrq : r = q <;> by_cases hrq' : r' = q
    · rw [hrq, hrq']
    · rw [hrq, hnew, hold hrq'] at h
      rw [hrq, hnew] at hr
      rw [hold hrq'] at hr'
      exact absurd h.symm ((hlwp hr).2.2 r' hrq' hr')
    · rw [hrq', hnew, hold hrq] at h
      rw [hrq', hnew] at hr'
      rw [hold hrq] at hr
      exact absurd h ((hlwp hr').2.2 r hrq hr)
    · rw [hold hrq, hold hrq'] at h
      rw [hold hrq] at hr
      rw [hold hrq'] at hr'
      exact hi.snum_inj hr hr' h
  · by_cases hmq : m = q
    · rw [hmq, hnew] at hm hd ⊢
      obtain rfl : e = d := Option.mem_unique he hd
      exact (hmgr hm).1
    · rw [hold hmq] at hm hd ⊢
      exact hi.manager hm hd
  · by_cases hmq : m = q <;> by_cases hnq : n = q
    · rw [hmq, hnq]
    · rw [hmq, hnew, hold hnq, he] at h
      rw [hmq, hnew] at hm
      rw [hold hnq] at hm'
      exact absurd h.symm ((hmgr hm).2 n hnq hm')
    · rw [hnq, hnew, hold hmq, he] at h
      rw [hnq, hnew] at hm'
      rw [hold hmq] at hm
      exact absurd h ((hmgr hm').2 m hmq hm)
    · rw [hold hmq, hold hnq] at h
      rw [hold hmq] at hm
      rw [hold hnq] at hm'
      exact hi.manager_inj hm hm' h

lemma dir_lt (hi : StackInv base s) (hq : (s.proc q).Used) (hd : (s.proc q).pgdir = some d) : d < s.nextdir := by
  obtain ⟨e, he, hlt⟩ := hi.dir hq
  exact Option.mem_unique he hd ▸ hlt

/-- `fork` lays out the child from its own size. -/
lemma fork (hi : StackInv base s) {p : ProcId} (hq : ¬ (s.proc q).Used) :
    StackInv (update base s.nextdir (s.proc p).sz)
      { s with
        proc := update s.proc q (s.child p q), nextpid := s.nextpid + 1
        nextlwpid := if 0 < (s.proc p).lwpid then s.nextlwpid + 1 else s.nextlwpid
        nextdir := s.nextdir + 1
        pages := update s.pages s.nextdir (copyuvm (s.pages d) (s.proc p).sz) } := by
  have hi' := hi.rebase (update base s.nextdir (s.proc p).sz) fun d hd =>
    update_of_ne hd.ne ..
  refine hi'.of_update rfl rfl (Nat.lt_succ_self _) (Nat.le_succ _) (fun _ h => h) (fun hl => ?_)
    (fun _ => ⟨update_self .., fun r _ hr h => ?_⟩) fun {m e i} hm he hp => ?_
  · -- the child of an LWP is `forked`, any other child has no LWP number
    have hl1 : 0 < (s.child p q).lwpid := hl.2.1
    have hl2 : (s.child p q).forked = false := hl.2.2
    simp only [child] at hl1 hl2
    split at hl1
    · rename_i h
      simp [h] at hl2
    · exact absurd hl1 (Nat.lt_irrefl _)
  · exact absurd (hi.dir_lt hr.1 h) (Nat.lt_irrefl _)
  · by_cases hmq : m = q
    · simp only [hmq, update_self, child] at hm he hp ⊢
      cases he
      rw [update_self] at hp
      simp only [copyuvm, Bool.and_eq_true, decide_eq_true_eq] at hp
      exact .inl hp.1
    · simp only [update_of_ne hmq] at hm he hp ⊢
      rw [update_of_ne (hi.dir_lt hm.1 he).ne] at hp
      rcases hi.mapped hm he hp with h | ⟨r, hr, hrd, hst⟩
      · exact .inl h
      · have hrq : r ≠ q := fun h => hq (h ▸ hr.1)
        exact .inr ⟨r, by rwa [update_of_ne hrq], by rwa [update_of_ne hrq],
          by rwa [update_of_ne hrq]⟩

variable {p : ProcId}

section

variable (hi : StackInv base s)
include hi

/-- `exec` gives its caller an address space of its own. -/
lemma exec (hp : (s.proc p).Used)
    (hd : (s.proc p).pgdir = some d) :
    StackInv
      (update base s.nextdir (if (s.proc p).lwpid = 0 then sz else base d))
      { s with
        proc := update s.proc p { s.proc p with pgdir := some s.nextdir, sz := sz }
        nextdir := s.nextdir + 1
        pages := update
          (update s.pages s.nextdir fun i => decide (i < pgUp sz)) d fun _ => false
        freed := d :: s.freed } := by
  have hlt := hi.dir_lt hp hd
  have hi' := hi.rebase
    (update base s.nextdir (if (s.proc p).lwpid = 0 then sz else base d)) fun d hd =>
      update_of_ne hd.ne ..
  refine hi'.of_update rfl rfl (Nat.lt_succ_self _) (Nat.le_succ _) (fun _ h => h) (fun hl => ?_)
    (fun hm => ⟨?_, fun r _ hr h => ?_⟩) fun {m e i} hm he hp => ?_
  · -- an LWP takes its stack slot along
    have hl' : (s.proc p).IsLwp := hl
    refine ⟨?_, hi.inUse hl', fun r hr hrl h => hr (hi.snum_inj hrl hl' h)⟩
    rw [update_self, if_neg hl'.2.1.ne']
    exact hi.lwp hl' hd
  · rw [update_self, if_pos hm.2]
  · exact absurd (hi.dir_lt hr.1 h) (Nat.lt_irrefl _)
  · by_cases hmp : m = p
    · simp only [hmp, update_self] at hm he hp ⊢
      cases he
      rw [update_of_ne hlt.ne', update_self] at hp
      exact .inl (by simpa using hp)
    · simp only [update_of_ne hmp] at hm he hp ⊢
      by_cases hed : e = d
      · -- the directory was freed with all its pages
        rw [hed, update_self] at hp
        cases hp
      · rw [update_of_ne hed,
          update_of_ne (hi.dir_lt hm.1 he).ne] at hp
        rcases hi.mapped hm he hp with h | ⟨r, hr, hrd, hst⟩
        · exact .inl h
        · have hrp : r ≠ p := fun h => hed (Option.mem_unique (h ▸ hrd) hd)
          exact .inr ⟨r, by rwa [update_of_ne hrp], by rwa [update_of_ne hrp],
            by rwa [update_of_ne hrp]⟩

lemma stack_free (hp : (s.proc p).IsManager) (hd : (s.proc p).pgdir = some d) (hfree : s.freeBase = some i)
    (hlo : pgUp (stackBase (s.proc p).sz i) ≤ x)
    (hhi : x < pgUp (stackBase (s.proc p).sz i + 2 * pgSize)) : s.pages d x = false := by
  refine Bool.eq_false_iff.mpr fun hx => ?_
  rw [pgUp_add_pages] at hhi
  rw [pgUp_stackBase] at hlo hhi
  rcases hi.mapped hp hd hx with h | ⟨q, hq, hqd, hst⟩
  · omega
  · -- the stack of another LWP has another stack slot
    have hne : (s.proc q).snum ≠ i := fun h => by
      have := hi.inUse hq
      rw [h, freeBase_unused hfree] at this
      cases this
    unfold Proc.OnStack at hst
    rw [pgUp_add_pages, hi.lwp hq hqd, hi.manager hp hd, pgUp_stackBase] at hst
    omega

lemma heap_free (hp : (s.proc p).IsManager) (hd : (s.proc p).pgdir = some d)
    (halone : ∀ q, (s.proc q).IsLwp → (s.proc q).pgdir ≠ (s.proc p).pgdir)
    (hx : s.pages d x) : x < pgUp (s.proc p).sz := by
  rcases hi.mapped hp hd hx with h | ⟨q, hq, hqd, -⟩
  · exact h
  · exact absurd (hqd.trans hd.symm) (halone q hq)

/-- `thread_create` by a manager. -/
lemma create (hids : 0 < s.nextlwpid) {p : ProcId}
    {avail : Nat} (hp : (s.proc p).IsManager) (hq : ¬ (s.proc q).Used)
    (hd : (s.proc p).pgdir = some d) (hfree : s.freeBase = some i)
    (hpg : s.growStack p i d avail = .size sz pg) :
    StackInv base (s.withLwp q (s.lwp p q i sz .runnable) i d pg) := by
  have huse : ∀ j, s.use j → update s.use i true j := by
    intro j hj
    by_cases hji : j = i
    · rw [hji, update_self]
    · rwa [update_of_ne hji]
  refine hi.of_update rfl hd (hi.dir_lt hp.1 hd) le_rfl huse (fun _ => ⟨?_, ?_, ?_⟩)
    (fun hm => absurd hm.2 hids.ne') fun {m e x} hm he hx => ?_
  · show stackBase (s.proc p).sz i = stackBase (base d) i
    rw [hi.manager hp hd]
  · exact update_self ..
  · intro r _ hr h
    have := hi.inUse hr
    rw [h, show (s.lwp p q i sz .runnable).snum = i from rfl, freeBase_unused hfree] at this
    cases this
  · have hmq : m ≠ q := fun h => by
      have : s.nextlwpid = 0 := by simpa [h, withLwp, Table.lwp] using hm.2
      omega
    simp only [withLwp, update_of_ne hmq] at hm he hx ⊢
    -- a page that was there before
    have hold : s.pages e x → x < pgUp (s.proc m).sz ∨ ∃ r,
        (update s.proc q (s.lwp p q i sz .runnable) r).IsLwp ∧
        (update s.proc q (s.lwp p q i sz .runnable) r).pgdir = some e ∧
        (update s.proc q (s.lwp p q i sz .runnable) r).OnStack x := by
      intro hx
      rcases hi.mapped hm he hx with h | ⟨r, hr, hrd, hst⟩
      · exact .inl h
      · have hrq : r ≠ q := fun h => hq (h ▸ hr.1)
        exact .inr ⟨r, by rwa [update_of_ne hrq], by rwa [update_of_ne hrq],
          by rwa [update_of_ne hrq]⟩
    by_cases hed : e = d
    · subst hed
      rw [update_self] at hx
      rcases allocuvm_size_sub hpg hx with hx | hx
      · exact hold hx
      · refine .inr ⟨q, ?_, ?_, ?_⟩
        · rw [update_self]
          exact ⟨by simp [Proc.Used, Table.lwp], hids, rfl⟩
        · rw [update_self]
          exact hd
        · rw [update_self]
          exact hx
    · rw [update_of_ne hed] at hx
      exact hold hx

/-- `sbrk` by a manager that has its address space for itself. -/
lemma grow {u : Nat → Bool}
    {lk : Bool} (hp : (s.proc p).IsManager) (hd : (s.proc p).pgdir = some d)
    (halone : ∀ q, (s.proc q).IsLwp → (s.proc q).pgdir ≠ (s.proc p).pgdir)
    (hu : ∀ i, s.use i → u i) (hpg : ∀ i, pg i → i < pgUp sz) :
    StackInv (update base d sz)
      { s with
        proc := s.grownProc p p j sz, use := u
        pages := update s.pages d pg, locked := lk } := by
  -- everybody but the manager is left alone
  have hother : ∀ {q}, q ≠ p → s.grownProc p p j sz q = s.proc q := fun hq => by
    simp [grownProc, hq]
  have hlwp : ∀ {q}, (s.grownProc p p j sz q).IsLwp → q ≠ p := by
    intro q hq h
    rw [h] at hq
    exact absurd hp.2 hq.2.1.ne'
  have hne : ∀ {q e}, (s.proc q).IsLwp → (s.proc q).pgdir = some e → e ≠ d := fun hq he h =>
    halone _ hq (by rw [he, hd, h])
  have hne' : ∀ {m e}, m ≠ p → (s.proc m).IsManager → (s.proc m).pgdir = some e → e ≠ d :=
    fun hmp hm he h => hmp (hi.manager_inj hm hp (by rw [he, hd, h]))
  refine ⟨fun {q} hq => hi.dir hq, fun {q e} hq he => ?_, fun {q} hq => ?_,
    fun {q r} hq hr h => ?_, fun {m e} hm he => ?_, fun {m n} hm hn h => hi.manager_inj hm hn h,
    fun {m e i} hm he hx => ?_⟩
  · have hqp := hlwp hq
    simp only [hother hqp] at hq he ⊢
    rw [update_of_ne (hne hq he)]
    exact hi.lwp hq he
  · have hqp := hlwp hq
    simp only [hother hqp] at hq ⊢
    exact hu _ (hi.inUse hq)
  · have hqp := hlwp hq
    have hrp := hlwp hr
    simp only [hother hqp, hother hrp] at hq hr h
    exact hi.snum_inj hq hr h
  · by_cases hmp : m = p
    · obtain rfl : d = e := Option.mem_unique hd (hmp ▸ he)
      simp [hmp, grownProc]
    · simp only [hother hmp] at hm he ⊢
      rw [update_of_ne (hne' hmp hm he)]
      exact hi.manager hm he
  · by_cases hmp : m = p
    · obtain rfl : d = e := Option.mem_unique hd (hmp ▸ he)
      simp only [update_self] at hx
      exact .inl (by simpa [hmp, grownProc] using hpg i hx)
    · simp only [hother hmp, update_of_ne (hne' hmp hm he)] at hm he hx ⊢
      rcases hi.mapped hm he hx with h | ⟨r, hr, hrd, hst⟩
      · exact .inl h
      · have hrp : r ≠ p := fun h => absurd hp.2 (Nat.ne_of_gt (h ▸ hr).2.1)
        exact .inr ⟨r, by rwa [hother hrp], by rwa [hother hrp], by rwa [hother hrp]⟩

lemma not_remaps (hc : SbrkAlone s a) : ¬ Remaps s a := by
  intro hr
  cases a with
  | threadCreate p stack avail =>
    obtain ⟨hp, i, d, hfree, hd, hremap⟩ := hr
    have hm : (s.proc p).IsManager := ⟨used_of_calls hp, hc⟩
    exact allocuvm_ne_remap (fun x => hi.stack_free hm hd hfree) hremap
  | sbrk p n avail =>
    obtain ⟨hp, o, d, hn, ho, hd, hremap⟩ := hr
    obtain ⟨h0, halone⟩ := hc.resolve_left (by omega)
    have hm : (s.proc p).IsManager := ⟨used_of_calls hp, h0⟩
    obtain rfl : p = o := by simpa [owner, h0] using ho
    refine allocuvm_ne_remap (fun x hlo _ => Bool.eq_false_iff.mpr fun hx => ?_) hremap
    exact absurd (hi.heap_free hm hd halone hx) (by omega)
  | _ => exact hr

lemma step (hids : Ids s) (hc : SbrkAlone s a) (h : s.step a = some t) : ∃ base', StackInv base' t := by
  cases step_effect h with
  | quiet _ hq =>
    refine ⟨base, hi.of_same ?_ (fun q hu => (hq.kept q).sameSite hu) (fun q hu => ?_)
      (fun d i hd hp => hq.pages d hd ▸ hp) fun q hl hu => ?_⟩
    · rcases hq.dirs with h | h <;> omega
    · rw [hq.use]
      exact hi.inUse ((hq.kept q).keeps.isLwp.mp hu)
    · exact absurd ((hq.kept q).keeps.1.mpr hl.1) hu
  | stop _ msg _ =>
    exact ⟨base, hi.of_same le_rfl (fun q hu => .refl hu) (fun q hu => hi.inUse hu)
      (fun _ _ _ h => h) fun q hl hu => absurd hl.1 hu⟩
  | fork hp hq hd => exact ⟨_, hi.fork hq⟩
  | exec hp hd => exact ⟨_, hi.exec (used_of_calls hp) hd⟩
  | create hp hq hd hfree hpg =>
    exact ⟨base, hi.create hids.nextlwpid_pos ⟨used_of_calls hp, hc⟩ hq hd hfree hpg⟩
  | @createFail p q stack avail i d pg hp hq hd hfree hpg =>
    have hk := fun r => kept_of_unused (s := s) hq
      (show ¬ (s.lwp p q i 0 .unused).Used by simp [Proc.Used, Table.lwp]) r
    refine ⟨base, hi.of_same le_rfl (fun r hu => (hk r).sameSite hu) (fun r hu => ?_)
      (fun e x _ hx => ?_) fun r hl hu => absurd ((hk r).keeps.1.mpr hl.1) hu⟩
    · have hl := (hk r).keeps.isLwp.mp hu
      show update s.use i true _ = true
      by_cases hri : (s.proc r).snum = i
      · rw [hri, update_self]
      · rw [update_of_ne hri]
        exact hi.inUse hl
    · by_cases hed : e = d
      · simp only [hed, withLwp, update_self] at hx ⊢
        exact allocuvm_failed_sub hpg hx
      · simpa only [withLwp, update_of_ne hed] using hx
  | @threadExit p retval f hp hf =>
    refine ⟨base, hi.of_same le_rfl ?site (fun r hu => hi.inUse ((?site r hu.1).isLwp hu))
      (fun _ _ _ h => h) fun r hl hu => ?_⟩
    · intro r hu
      by_cases hrp : r = p
      · have hs := (hf p).sameSite ((hf p).keeps.1.mpr (used_of_calls hp))
        simp only [hrp, update_self]
        exact ⟨hs.used, hs.pgdir, hs.lwpid, hs.forked, hs.layout.sz, hs.layout.sbase,
          hs.layout.snum⟩
      · simp only [update_of_ne hrp] at hu ⊢
        exact (hf r).sameSite hu
    · by_cases hrp : r = p
      · simp [hrp, Proc.Used] at hu
      · simp only [update_of_ne hrp] at hu
        exact absurd ((hf r).keeps.1.mpr hl.1) hu
  | @exitScan p f pg hp hz hk hkp hl hcont hpg hun =>
    have hsite : ∀ r, (f r).Used → SameSite (s.proc r) (f r) := by
      intro r hu
      by_cases hrp : r = p
      · subst hrp
        have hs := hkp.same hu
        exact ⟨hkp.1.mp hu, hs.pgdir, hs.lwpid, hs.forked, hl⟩
      · exact (hk r (fun h => hz r h hu) hrp).sameSite hu
    refine ⟨base, hi.of_same le_rfl hsite (fun r hu => hi.inUse ((hsite r hu.1).isLwp hu))
      (fun d i _ h => hpg d i h) fun r hlw hu => ?_⟩
    by_cases hrz : r ∈ s.ownZombies p
    · exact hun r hrz
    · by_cases hrp : r = p
      · subst hrp
        exact absurd (hkp.1.mpr hlw.1) hu
      · exact absurd ((hk r hrz hrp).keeps.1.mpr hlw.1) hu
  | @wait p q d f hfind hz hd hq hf =>
    have hne : ∀ r, (f r).Used → r ≠ q := fun r hu h => hq (h ▸ hu)
    refine ⟨base, hi.of_same le_rfl (fun r hu => (hf r (hne r hu)).sameSite hu)
      (fun r hu => hi.inUse ((hf r (hne r hu.1)).keeps.isLwp.mp hu)) (fun e i _ h => ?_)
      fun r hl hu e i he _ _ => ?_⟩
    · by_cases hed : e = d
      · simp [hed] at h
      · simpa only [update_of_ne hed] using h
    · -- the one slot that went had the freed directory
      have hrq : r = q := by
        by_contra hrq
        exact hu ((hf r hrq).keeps.1.mpr hl.1)
      obtain rfl : d = e := Option.mem_unique hd (hrq ▸ he)
      simp
  | @join p q thread f pg hp hfind hl hown hq hf hpg hun =>
    have hne : ∀ r, (f r).Used → r ≠ q := fun r hu h => hq (h ▸ hu)
    have hqz : (s.proc q).IsLwp := hids.lwp (used_of_zombie hown.2) (by
      rw [hown.1]
      exact (hids.pid_pos hp).ne')
    refine ⟨base, hi.of_same le_rfl (fun r hu => (hf r (hne r hu)).sameSite hu)
      (fun r hu => ?_) (fun e i _ h => hpg e i h) fun r hlw hu => ?_⟩
    · -- the stack slot that is given back is nobody else's
      have hr := (hf r (hne r hu.1)).keeps.isLwp.mp hu
      have hsn : (s.proc r).snum ≠ (s.proc q).snum := fun h => hne r hu.1 (hi.snum_inj hr hqz h)
      show update s.use (s.proc q).snum false _ = true
      rw [update_of_ne hsn]
      exact hi.inUse hr
    · have hrq : r = q := by
        by_contra hrq
        exact hu ((hf r hrq).keeps.1.mpr hlw.1)
      exact hrq ▸ hun
  | @grow p o n avail d j sz u pg lk hp hn ho hd hu hpg =>
    obtain ⟨h0, halone⟩ := hc.resolve_left hn
    have hm : (s.proc p).IsManager := ⟨used_of_calls hp, h0⟩
    obtain rfl : p = o := by simpa [owner, h0] using ho
    exact ⟨_, hi.grow hm hd halone hu (hpg fun i hx => hi.heap_free hm hd halone hx)⟩

end

lemma boot : StackInv (fun _ => pgSize) Table.boot := by
  have hinit : ∀ {q}, (Table.boot.proc q).Used → q = initproc := by
    intro q hq
    by_contra hne
    exact hq (by simp [Table.boot, hne, Proc.zero])
  have hnone : ∀ {q}, ¬ (Table.boot.proc q).IsLwp := by
    intro q hq
    rw [hinit hq.1] at hq
    exact absurd hq.2.1 (by decide)
  refine ⟨fun {q} hq => ?_, fun hq => absurd hq hnone, fun hq => absurd hq hnone,
    fun hq => absurd hq hnone, fun {m d} hm _ => ?_, fun hm hn _ => ?_, fun {m d i} hm hd hp => ?_⟩
  · exact ⟨0, by rw [hinit hq]; rfl, by decide⟩
  · rw [hinit hm.1]
    rfl
  · rw [hinit hm.1, hinit hn.1]
  · obtain ⟨rfl, rfl⟩ : d = 0 ∧ i = 0 := by simpa [Table.boot] using hp
    rw [hinit hm.1]
    exact .inl (by decide)

end StackInv

/-! ### What holds of every run -/

/-- The bytes of the stack of an LWP. -/
def Proc.stack (p : Proc) : Set Nat := Set.Ico p.sbase (p.sbase + 2 * pgSize)

/-- The pages that `allocuvm` maps for it. -/
def Proc.stackPages (p : Proc) : Set Nat := Set.Ico (pgUp p.sbase) (pgUp (p.sbase + 2 * pgSize))

/-- The bytes of the heap of a manager, with its code and data. -/
def Proc.heap (p : Proc) : Set Nat := Set.Ico 0 p.sz

def Proc.heapPages (p : Proc) : Set Nat := Set.Ico 0 (pgUp p.sz)

lemma ico_disjoint {a b c : Nat} (h : b ≤ c ∨ d ≤ a) : Disjoint (Set.Ico a b) (Set.Ico c d) := by
  rw [Set.disjoint_left]
  intro x hx hx'
  simp only [Set.mem_Ico] at hx hx'
  omega

namespace StackInv

variable {base : Nat → Nat} {s : Table}

lemma stacks_apart (hi : StackInv base s) {r : ProcId} (hq : (s.proc q).IsLwp)
    (hr : (s.proc r).IsLwp) (hne : q ≠ r) (hd : (s.proc q).pgdir = (s.proc r).pgdir) :
    (s.proc q).sbase + 2 * pgSize ≤ (s.proc r).sbase ∨
      (s.proc r).sbase + 2 * pgSize ≤ (s.proc q).sbase := by
  obtain ⟨d, hqd, -⟩ := hi.dir hq.1
  rw [hi.lwp hq hqd, hi.lwp hr (hd ▸ hqd)]
  have hsn : (s.proc q).snum ≠ (s.proc r).snum := fun h => hne (hi.snum_inj hq hr h)
  rcases Nat.lt_or_gt_of_ne hsn with h | h
  · exact .inl (stackBase_apart h)
  · exact .inr (stackBase_apart h)

lemma heap_below (hi : StackInv base s) {m : ProcId} (hm : (s.proc m).IsManager)
    (hq : (s.proc q).IsLwp) (hd : (s.proc q).pgdir = (s.proc m).pgdir) : (s.proc m).sz ≤ (s.proc q).sbase := by
  obtain ⟨d, hmd, -⟩ := hi.dir hm.1
  rw [hi.lwp hq (hd.trans hmd), hi.manager hm hmd]
  exact le_stackBase _ _

end StackInv

/-- In every run in which `sbrk` moves a heap only while no LWP shares it, and only managers create
LWPs: no page is mapped twice, and in every state the heap of a manager and the stacks of the LWPs of
its page directory are disjoint, byte by byte and page by page. -/
theorem stacks_and_heap_apart {as : List Act} {s : Table}
    (h : Run Table.step SbrkAlone Table.boot as s) :
    s.stopped ≠ some "remap" ∧
    (∀ q r, (s.proc q).IsLwp → (s.proc r).IsLwp → q ≠ r → (s.proc q).pgdir = (s.proc r).pgdir →
      Disjoint (s.proc q).stack (s.proc r).stack ∧
      Disjoint (s.proc q).stackPages (s.proc r).stackPages) ∧
    (∀ m q, (s.proc m).IsManager → (s.proc q).IsLwp → (s.proc q).pgdir = (s.proc m).pgdir →
      Disjoint (s.proc m).heap (s.proc q).stack ∧
      Disjoint (s.proc m).heapPages (s.proc q).stackPages) := by
  have hinv : Ids s ∧ (∃ base, StackInv base s) ∧ s.stopped ≠ some "remap" := by
    refine h.inv (I := fun s => Ids s ∧ (∃ base, StackInv base s) ∧ s.stopped ≠ some "remap")
      ⟨Ids.boot, ⟨_, StackInv.boot⟩, by decide⟩ ?_
    intro s a t ⟨hids, ⟨base, hi⟩, _⟩ hc hs
    refine ⟨hids.step hs, hi.step hids hc hs, ?_⟩
    exact fun hstop => hi.not_remaps hc (remaps_of_stop hs hstop)
  obtain ⟨-, ⟨base, hi⟩, hstop⟩ := hinv
  refine ⟨hstop, fun q r hq hr hne hd => ?_, fun m q hm hq hd => ?_⟩
  · have hap := hi.stacks_apart hq hr hne hd
    exact ⟨ico_disjoint hap, ico_disjoint (hap.imp pgUp_mono pgUp_mono)⟩
  · have hle := hi.heap_below hm hq hd
    exact ⟨ico_disjoint (.inl hle), ico_disjoint (.inl (pgUp_mono hle))⟩

/-- A heap that grows before there is an LWP, two LWPs, one of them joined, and a third. -/
def growThenCreate : List Act :=
  [.sched 0 .running, .fork 0 .enough, .sched 1 .running, .sbrk 1 5000 9, .threadCreate 1 true 9,
   .threadCreate 1 true 9, .sched 2 .running, .threadExit 2 0, .threadJoin 1 1,
   .threadCreate 1 true 9]

theorem stacks_apart_growThenCreate :
    ∃ s, Run Table.step SbrkAlone Table.boot growThenCreate s ∧
      ((s.proc 1).sz, (s.proc 2).sbase, (s.proc 3).sbase) = (9096, 17288, 25480) ∧
      (s.proc 2).IsLwp ∧ (s.proc 3).IsLwp ∧ s.stopped ≠ some "remap" ∧
      Disjoint (s.proc 2).stack (s.proc 3).stack ∧ Disjoint (s.proc 1).heap (s.proc 2).stack := by
  obtain ⟨s, hrun, hsz, h2, h3, h1, h23, h21⟩ :=
    run_of_check Table.step SbrkAlone Table.boot growThenCreate
      (fun s => ((s.proc 1).sz, (s.proc 2).sbase, (s.proc 3).sbase) = (9096, 17288, 25480) ∧
        (s.proc 2).IsLwp ∧ (s.proc 3).IsLwp ∧ (s.proc 1).IsManager ∧
        (s.proc 2).pgdir = (s.proc 3).pgdir ∧ (s.proc 2).pgdir = (s.proc 1).pgdir)
      (by decide +kernel)
  obtain ⟨hstop, hstacks, hheap⟩ := stacks_and_heap_apart hrun
  exact ⟨s, hrun, hsz, h2, h3, hstop, (hstacks 2 3 h2 h3 (by decide) h23).1,
    (hheap 1 2 h1 h2 h21).1⟩

/-- One LWP, and three `sbrk` of one page each by its manager. -/
def sbrkUnderStack : List Act :=
  [.sched 0 .running, .fork 0 .enough, .sched 1 .running, .threadCreate 1 true 9,
   .sbrk 1 4096 9, .sbrk 1 4096 9, .sbrk 1 4096 9]

/-- The third `sbrk` reaches the stack of the LWP. -/
theorem sbrk_hits_stack :
    ∃ s, Run Table.step anyStep Table.boot sbrkUnderStack s ∧ s.stopped = some "remap" :=
  run_of_check _ _ _ _ _ (by decide +kernel)

end Xv6.Process
