import Xv6.Process.Slots
import Xv6.Process.PageDir
import Xv6.Process.Stacks

/-!
# The heap of a process is mapped

`sz` is where the heap of a process ends, and the rest of the kernel takes `[0, sz)` for granted.
For a process that is not an LWP this is so (`HeapInv.heap`), whatever its LWPs do: their stacks lie
above the heap, and a `sbrk` that would meet one panics in `mappages`, so that unmapping a stack
never takes a page of the heap.

What breaks it is a `sbrk` whose caller and whose owner are in different address spaces, a `sbrk`
back to nothing, which unmaps everything and then fails, and a page directory freed while in use.
-/

namespace Xv6.Process

open Function (update update_self update_of_ne)
open Lib Table

/-- The process whose size a `sbrk` moves is no LWP and has the page directory of the caller, it is
not shrunk to nothing, and only unshared page directories are freed. -/
def KeepsHeap (s : Table) : Act → Prop
  | .sbrk p n _ => n = 0 ∨ ∀ o ∈ s.owner p, (s.proc o).IsManager ∧
      (s.proc o).pgdir = (s.proc p).pgdir ∧ (n < 0 → newSize (s.proc o).sz n ≠ 0)
  | a => FreesUnshared s a

instance (s : Table) : DecidablePred (KeepsHeap s) := by
  intro a
  apply Act.casesOn (motive := fun a => Decidable (KeepsHeap s a)) a <;> intros <;> dsimp only [KeepsHeap] <;>
    infer_instance

variable {s : Table} {a : Act}

lemma KeepsHeap.freesUnshared (h : KeepsHeap s a) : FreesUnshared s a := by
  cases a with
  | sbrk => trivial
  | _ => exact h

/-- The invariant. What it says about stacks lasts until a call returns with `ptable.lock` held: the
`allocuvm` that failed there may have unmapped the stack it met. -/
structure HeapInv (s : Table) : Prop where
  dir : ∀ {q}, (s.proc q).Used → ∃ d, (s.proc q).pgdir = some d ∧ d < s.nextdir
  shared : ∀ {m q}, (s.proc m).IsManager → (s.proc q).Used → q ≠ m →
    (s.proc q).pgdir = (s.proc m).pgdir → (s.proc q).IsLwp
  heap : ∀ {m d i}, (s.proc m).IsManager → (s.proc m).pgdir = some d → i < pgUp (s.proc m).sz →
    s.pages d i = true
  bound : ∀ {m}, (s.proc m).IsManager → (s.proc m).sz < kernBase
  above : s.locked = false → ∀ {m q}, (s.proc m).IsManager → (s.proc q).IsLwp →
    (s.proc q).pgdir = (s.proc m).pgdir → pgUp (s.proc m).sz ≤ pgUp (s.proc q).sbase ∧
      (s.proc q).sz = (s.proc q).sbase + 2 * pgSize ∧ (s.proc q).sz < kernBase
  stack : s.locked = false → ∀ {m q d i}, (s.proc m).IsManager → (s.proc m).pgdir = some d →
    (s.proc q).IsLwp → (s.proc q).pgdir = some d → (s.proc q).OnStack i → s.pages d i = true
  apart : s.locked = false → ∀ {m q r d i}, (s.proc m).IsManager → (s.proc m).pgdir = some d →
    (s.proc q).IsLwp → (s.proc q).pgdir = some d → (s.proc r).IsLwp → (s.proc r).pgdir = some d →
    (s.proc q).OnStack i → (s.proc r).OnStack i → q = r

lemma site_of_step {t : Table} (h : s.step a = some t) {r : ProcId}
    (hs : (s.proc r).Used) (hr : (t.proc r).Used) :
    SameSite (s.proc r) (t.proc r) ∨
      (∃ sz, a = .exec r (.done sz) ∧
        t.proc r = { s.proc r with pgdir := some s.nextdir, sz := sz }) ∨
      ∃ p n avail, a = .sbrk p n avail := by
  cases step_effect h with
  | quiet _ hq => exact .inl ((hq.kept r).sameSite hr)
  | stop _ msg _ => exact .inl (.refl hs)
  | @fork p q d hp hq hd =>
    have hne : r ≠ q := fun h => hq (h ▸ hs)
    simp only [update_of_ne hne]
    exact .inl (.refl hs)
  | @exec p d sz hp hd =>
    by_cases hrp : r = p
    · subst hrp
      exact .inr (.inl ⟨sz, rfl, by simp⟩)
    · simp only [update_of_ne hrp]
      exact .inl (.refl hs)
  | @create p q stack avail i d sz pg hp hq hd =>
    have hne : r ≠ q := fun h => hq (h ▸ hs)
    simp only [withLwp, update_of_ne hne]
    exact .inl (.refl hs)
  | @createFail p q stack avail i d pg hp hq hd =>
    exact .inl ((kept_of_unused hq (by simp [Proc.Used, lwp]) r).sameSite hr)
  | @threadExit p retval f hp hf =>
    by_cases hrp : r = p
    · subst hrp
      have hk := (hf r).sameSite ((hf r).keeps.1.mpr hs)
      simp only [update_self]
      exact .inl ⟨hk.used, hk.pgdir, hk.lwpid, hk.forked, hk.layout.sz, hk.layout.sbase,
        hk.layout.snum⟩
    · simp only [update_of_ne hrp] at hr ⊢
      exact .inl ((hf r).sameSite hr)
  | @exitScan p f pg hp hz hk hkp hlay =>
    by_cases hrp : r = p
    · subst hrp
      have hsm := hkp.same hr
      exact .inl ⟨hs, hsm.pgdir, hsm.lwpid, hsm.forked, hlay⟩
    · exact .inl ((hk r (fun hm => hz r hm hr) hrp).sameSite hr)
  | @wait p q d f hfind hz hd hq hf => exact .inl ((hf r fun he => hq (he ▸ hr)).sameSite hr)
  | @join p q thread f pg hp hfind hl hown hq hf =>
    exact .inl ((hf r fun he => hq (he ▸ hr)).sameSite hr)
  | grow => exact .inr (.inr ⟨_, _, _, rfl⟩)

/-! ### What `growproc` does -/

/-- How `growproc(n)` changes a heap of size `sz` in the pages `pg`: the new size, the new pages, and
whether it returns with the lock held. -/
inductive Resized (sz : Nat) (n : Int) (pg : Pages) : Nat → Pages → Bool → Prop
  | zero (hn : n = 0) : Resized sz n pg sz pg false
  | grown {avail sz' : Nat} {pg' : Pages} (hn : 0 < n)
      (h : allocuvm pg sz (newSize sz n) avail = .size sz' pg') : Resized sz n pg sz' pg' false
  | noMem {avail : Nat} {pg' : Pages} (hn : 0 < n)
      (h : allocuvm pg sz (newSize sz n) avail = .failed pg') : Resized sz n pg sz pg' true
  | shrunk {sz' : Nat} {pg' : Pages} (hn : n < 0)
      (h : deallocuvm pg sz (newSize sz n) = (sz', pg')) : Resized sz n pg sz' pg' false
  | emptied {pg' : Pages} (hn : n < 0) (h : deallocuvm pg sz (newSize sz n) = (0, pg')) :
      Resized sz n pg sz pg' true

variable {p : ProcId}

lemma growproc_resized (n : Int) (avail : Nat) :
    (∃ msg, s.growproc p n avail = s.panic msg) ∨
      ∃ o d j u sz pg lk, s.owner p = some o ∧ (s.proc p).pgdir = some d ∧
        Resized (s.proc o).sz n (s.pages d) sz pg lk ∧
        s.growproc p n avail =
          { s with
            proc := s.grownProc p o j sz, use := u
            pages := update s.pages d pg, locked := s.locked || lk } := by
  unfold Table.growproc
  split
  · rename_i s' o d hs ho hd
    obtain ⟨j, u, rfl, -⟩ := getBases_some hs
    -- the two ways to return
    have fin : ∀ {sz pg}, Resized (s.proc o).sz n (s.pages d) sz pg false →
        ∃ o' d' j' u' sz' pg' lk', s.owner p = some o' ∧ (s.proc p).pgdir = some d' ∧
          Resized (s.proc o').sz n (s.pages d') sz' pg' lk' ∧
          ({ s with proc := s.grownProc p o j sz, use := u
                    pages := update s.pages d pg } : Table) =
            { s with
              proc := s.grownProc p o' j' sz', use := u'
              pages := update s.pages d' pg', locked := s.locked || lk' } :=
      fun {sz pg} hr => ⟨o, d, j, u, sz, pg, false, ho, hd, hr, by simp⟩
    have stuck : ∀ {pg}, Resized (s.proc o).sz n (s.pages d) (s.proc o).sz pg true →
        ∃ o' d' j' u' sz' pg' lk', s.owner p = some o' ∧ (s.proc p).pgdir = some d' ∧
          Resized (s.proc o').sz n (s.pages d') sz' pg' lk' ∧
          ({ s with proc := s.grownProc p o j (s.proc o).sz, use := u
                    pages := update s.pages d pg, locked := true } : Table) =
            { s with
              proc := s.grownProc p o' j' sz', use := u'
              pages := update s.pages d' pg', locked := s.locked || lk' } :=
      fun {pg} hr => ⟨o, d, j, u, (s.proc o).sz, pg, true, ho, hd, hr, by simp⟩
    simp only [setPages, Table.modify]
    by_cases hpos : 0 < n
    · simp only [hpos, if_true]
      split
      · rename_i sz pg hr
        rw [grownProc_eq]
        exact .inr (fin (.grown hpos hr))
      · rename_i pg hr
        rw [grownProc_sz (o := o)]
        exact .inr (stuck (.noMem hpos hr))
      · exact .inl ⟨_, rfl⟩
    · by_cases hneg : n < 0
      · simp only [hpos, hneg, if_true, if_false]
        cases hde : deallocuvm (s.pages d) (s.proc o).sz (newSize (s.proc o).sz n) with
        | mk sz pg =>
          cases sz with
          | zero =>
            simp only
            rw [grownProc_sz (o := o)]
            exact .inr (stuck (.emptied hneg hde))
          | succ k =>
            simp only
            rw [grownProc_eq]
            exact .inr (fin (.shrunk hneg hde))
      · have h0 : n = 0 := by omega
        simp only [hpos, hneg, if_false]
        rw [grownProc_eq]
        exact .inr (fin (.zero h0))
  · exact .inl ⟨_, rfl⟩
  · exact .inl ⟨_, rfl⟩

variable {pg pg' : Pages}

variable {i sz sz' : Nat} {n : Int} {lk : Bool}

lemma Resized.heap (h : Resized sz n pg sz' pg' lk) (hn : n < 0 → newSize sz n ≠ 0)
    (hheap : ∀ i < pgUp sz, pg i) (hi : i < pgUp sz') : pg' i := by
  cases h with
  | zero => exact hheap i hi
  | grown _ h =>
    by_cases hlt : i < pgUp sz
    · exact allocuvm_size_keeps h (hheap i hlt)
    · by_cases hle : sz ≤ newSize sz n
      · obtain ⟨rfl, -⟩ := allocuvm_size hle h
        exact (allocuvm_size_range hle h (by omega) hi).2
      · -- the sum wrapped: nothing changes
        unfold allocuvm at h
        split at h
        · cases h
        · rw [if_pos (by omega)] at h
          cases h
          exact hheap i hi
  | noMem _ h => exact allocuvm_failed_keeps h (hheap i hi) hi
  | shrunk _ h =>
    have hpg : pg' = (deallocuvm pg sz (newSize sz n)).2 := by rw [h]
    unfold deallocuvm at h
    split at h
    · cases h
      exact hheap i hi
    · cases h
      rw [hpg]
      exact deallocuvm_keeps (hheap i (hi.trans_le (pgUp_mono (by omega)))) (.inl hi)
  | emptied hneg h =>
    unfold deallocuvm at h
    split at h
    · cases h
      exact hheap i hi
    · exact absurd (Prod.mk.inj h).1 (hn hneg)

lemma Resized.bound (h : Resized sz n pg sz' pg' lk) (hb : sz < kernBase) : sz' < kernBase := by
  cases h with
  | zero | noMem | emptied => exact hb
  | grown _ h =>
    unfold allocuvm at h
    split at h
    · cases h
    split at h
    · exact (Grown.size.inj h).1 ▸ hb
    split at h
    · cases h
      omega
    · cases h
    · cases h
  | shrunk _ h =>
    unfold deallocuvm at h
    split at h
    · exact (Prod.mk.inj h).1 ▸ hb
    · cases h
      omega

lemma Resized.above (h : Resized sz n pg sz' pg' false)
    (hi : pg i) (hle : pgUp sz ≤ i) : pg' i ∧ pgUp sz' ≤ i := by
  cases h with
  | zero => exact ⟨hi, hle⟩
  | grown _ h =>
    refine ⟨allocuvm_size_keeps h hi, ?_⟩
    by_cases hsz : sz ≤ newSize sz n
    · obtain ⟨rfl, -⟩ := allocuvm_size hsz h
      by_contra hlt
      have := (allocuvm_size_range hsz h hle (by omega)).1
      rw [hi] at this
      cases this
    · unfold allocuvm at h
      split at h
      · cases h
      · rw [if_pos (by omega)] at h
        exact (Grown.size.inj h).1 ▸ hle
  | shrunk _ h =>
    have hpg : pg' = (deallocuvm pg sz (newSize sz n)).2 := by rw [h]
    refine ⟨hpg ▸ deallocuvm_keeps hi (.inr hle), ?_⟩
    unfold deallocuvm at h
    split at h
    · exact (Prod.mk.inj h).1 ▸ hle
    · cases h
      exact le_trans (pgUp_mono (by omega)) hle

/-! ### What reaping an LWP unmaps -/

variable {q : ProcId} {d : Nat}

lemma deallocStack_keeps (hi : s.pages d i)
    (hq : (s.proc q).pgdir = some d → ¬ (s.proc q).OnStack i) : (s.deallocStack q).pages d i := by
  unfold Table.deallocStack
  split
  · rename_i e he
    by_cases hde : d = e
    · subst hde
      simp only [setPages, update_self]
      refine deallocuvm_keeps hi ?_
      have := hq he
      unfold Proc.OnStack at this
      omega
    · simp only [setPages, update_of_ne hde]
      exact hi
  · exact hi

variable {pid : Nat}

lemma exitVisit_keeps
    (hi : s.pages d i) (hq : s.OwnZombie pid q → (s.proc q).pgdir = some d →
      ¬ (s.proc q).OnStack i) : (exitVisit pid s q).pages d i := by
  unfold Table.exitVisit
  split
  · split
    · exact deallocStack_keeps hi (hq ⟨‹_›, ‹_›⟩)
    · exact hi
  · exact hi

lemma foldl_keeps (l : List ProcId) : ∀ {s : Table}, s.pages d i →
    (∀ q, s.OwnZombie pid q → (s.proc q).pgdir = some d → ¬ (s.proc q).OnStack i) →
    (l.foldl (exitVisit pid) s).pages d i := by
  induction l with
  | nil => exact fun hi _ => hi
  | cons r l ih =>
    intro s hi hs
    refine ih (exitVisit_keeps hi (hs r)) fun q hq hd => ?_
    have hsc := exitVisit_scanned pid s r
    -- a slot that is still to be reaped is as it was
    have hst : Stirred (s.proc q) ((exitVisit pid s r).proc q) := by
      refine hsc.stirred q fun hm hz => ?_
      exact hsc.reaped q hm hz (used_of_zombie hq.2)
    have hz : s.OwnZombie pid q := ⟨hst.lwppid ▸ hq.1, hst.zombie.mp hq.2⟩
    have hu := used_of_zombie hz.2
    have hsb := (hst.kept.layout hu).sbase
    have hdir := (hst.kept.keeps.2 hu).pgdir
    have := hs q hz (hdir ▸ hd)
    unfold Proc.OnStack at this ⊢
    rwa [hsb]

lemma exitScan_keeps (hi : s.pages d i)
    (hs : ∀ q, s.OwnZombie (s.proc p).pid q → (s.proc q).pgdir = some d →
      ¬ (s.proc q).OnStack i) : (s.exitScan p).pages d i := by
  have hu := foldl_keeps (List.finRange nProc) hi hs
  unfold Table.exitScan
  generalize (List.finRange nProc).foldl (exitVisit (s.proc p).pid) s = u at hu ⊢
  simp only
  split
  · exact hu
  · exact hu

variable {m o : ProcId} {avail : Nat} {u : Nat → Bool} {f : ProcId → Proc}

namespace HeapInv

variable {s t : Table} {a : Act}

lemma dir_lt (hi : HeapInv s) (hq : (s.proc q).Used) (hd : (s.proc q).pgdir = some d) : d < s.nextdir := by
  obtain ⟨e, he, hlt⟩ := hi.dir hq
  exact Option.mem_unique he hd ▸ hlt

lemma of_same (hi : HeapInv s) (hn : s.nextdir ≤ t.nextdir) (hlock : t.locked = false → s.locked = false)
    (hsite : ∀ q, (t.proc q).Used → SameSite (s.proc q) (t.proc q))
    (hkeep : ∀ m d i, (t.proc m).IsManager → (t.proc m).pgdir = some d →
      i < pgUp (t.proc m).sz ∨ t.locked = false → s.pages d i →
      t.pages d i ∨ (s.locked = false ∧ ∃ q, (s.proc q).IsLwp ∧ (s.proc q).pgdir = some d ∧
        ¬ (t.proc q).Used ∧ (s.proc q).OnStack i)) : HeapInv t where
  dir {q} hq := by
    obtain ⟨d, hd, hlt⟩ := hi.dir (hsite q hq).used
    exact ⟨d, (hsite q hq).pgdir.trans hd, by omega⟩
  shared {m q} hm hq hne hd := by
    have hsm := hsite m hm.1
    have hsq := hsite q hq
    rw [hsm.pgdir, hsq.pgdir] at hd
    exact hsq.isLwp_of (hi.shared (hsm.isManager hm) hsq.used hne hd) hq
  heap {m d i} hm hd hlt := by
    have hsm := hsite m hm.1
    have hd' : (s.proc m).pgdir = some d := hsm.pgdir ▸ hd
    have hlt' : i < pgUp (s.proc m).sz := hsm.layout.sz ▸ hlt
    have hp := hi.heap (hsm.isManager hm) hd' hlt'
    rcases hkeep m d i hm hd (.inl hlt) hp with h | ⟨hl, q, hq, hqd, -, hst⟩
    · exact h
    · have := (hi.above hl (hsm.isManager hm) hq (hqd.trans hd'.symm)).1
      have := hst.1
      omega
  bound {m} hm := by
    rw [(hsite m hm.1).layout.sz]
    exact hi.bound ((hsite m hm.1).isManager hm)
  above hl {m q} hm hq hd := by
    have hsm := hsite m hm.1
    have hsq := hsite q hq.1
    rw [hsm.pgdir, hsq.pgdir] at hd
    rw [hsm.layout.sz, hsq.layout.sz, hsq.layout.sbase]
    exact hi.above (hlock hl) (hsm.isManager hm) (hsq.isLwp hq) hd
  stack hl {m q d i} hm hmd hq hqd hst := by
    have hsm := hsite m hm.1
    have hsq := hsite q hq.1
    have hst' := hsq.onStack.mp hst
    have hmd' := hsm.pgdir ▸ hmd
    have hqd' := hsq.pgdir ▸ hqd
    have hp := hi.stack (hlock hl) (hsm.isManager hm) hmd' (hsq.isLwp hq) hqd' hst'
    rcases hkeep m d i hm hmd (.inr hl) hp with h | ⟨_, r, hr, hrd, hgone, hrst⟩
    · exact h
    · obtain rfl := hi.apart (hlock hl) (hsm.isManager hm) hmd' (hsq.isLwp hq) hqd' hr hrd hst' hrst
      exact absurd hq.1 hgone
  apart hl {m q r d i} hm hmd hq hqd hr hrd hqs hrs := by
    have hsm := hsite m hm.1
    have hsq := hsite q hq.1
    have hsr := hsite r hr.1
    exact hi.apart (hlock hl) (hsm.isManager hm) (hsm.pgdir ▸ hmd) (hsq.isLwp hq) (hsq.pgdir ▸ hqd)
      (hsr.isLwp hr) (hsr.pgdir ▸ hrd) (hsq.onStack.mp hqs) (hsr.onStack.mp hrs)

lemma of_fresh (hi : HeapInv s) {np : Proc}
    (hproc : t.proc = update s.proc q np) (hdir : np.pgdir = some s.nextdir)
    (hn : t.nextdir = s.nextdir + 1) (hlock : t.locked = s.locked)
    (hpages : ∀ r d, r ≠ q → (s.proc r).Used → (s.proc r).pgdir = some d →
      t.pages d = s.pages d)
    (hnew : np.IsManager → np.sz < kernBase ∧ ∀ i < pgUp np.sz, t.pages s.nextdir i) : HeapInv t := by
  have hq : t.proc q = np := by rw [hproc, update_self]
  have hold : ∀ {r}, r ≠ q → t.proc r = s.proc r := fun hr => by
    rw [hproc, update_of_ne hr]
  -- nobody else is on the new directory
  have alone : ∀ {r}, r ≠ q → (t.proc r).Used → (t.proc r).pgdir ≠ some s.nextdir := by
    intro r hr hu hd
    rw [hold hr] at hu hd
    exact absurd (hi.dir_lt hu hd) (Nat.lt_irrefl _)
  have pair : ∀ {r r'}, (t.proc r).Used → (t.proc r').Used → r ≠ r' →
      (t.proc r).pgdir = (t.proc r').pgdir → r ≠ q ∧ r' ≠ q := by
    intro r r' hu hu' hne hd
    refine ⟨fun h => ?_, fun h => ?_⟩
    · subst h
      exact alone (Ne.symm hne) hu' (hd.symm.trans (hq ▸ hdir))
    · subst h
      exact alone hne hu (hd.trans (hq ▸ hdir))
  have apart' : ∀ {m r : ProcId}, (t.proc m).IsManager → (t.proc r).IsLwp → m ≠ r := by
    intro m r hm hr he
    subst he
    exact absurd hr.2.1 (by simp [hm.2])
  refine ⟨fun {r} hr => ?_, fun {m r} hm hr hne hd => ?_, fun {m d i} hm hd hlt => ?_,
    fun {m} hm => ?_, fun hl {m r} hm hr hd => ?_, fun hl {m r d i} hm hmd hr hrd hst => ?_,
    fun hl {m r r' d i} hm hmd hr hrd hr' hrd' hst hst' => ?_⟩
  · by_cases hrq : r = q
    · exact ⟨s.nextdir, by rw [hrq, hq, hdir], by omega⟩
    · rw [hold hrq] at hr ⊢
      obtain ⟨d, hd, hlt⟩ := hi.dir hr
      exact ⟨d, hd, by omega⟩
  · obtain ⟨hrq, hmq⟩ := pair hr hm.1 hne hd
    rw [hold hrq] at hr hd ⊢
    rw [hold hmq] at hm hd
    exact hi.shared hm hr hne hd
  · by_cases hmq : m = q
    · subst hmq
      rw [hq] at hm hd hlt
      obtain rfl : s.nextdir = d := Option.mem_unique hdir hd
      exact (hnew hm).2 i hlt
    · rw [hold hmq] at hm hd hlt
      rw [hpages m d hmq hm.1 hd]
      exact hi.heap hm hd hlt
  · by_cases hmq : m = q
    · subst hmq
      rw [hq] at hm ⊢
      exact (hnew hm).1
    · rw [hold hmq] at hm ⊢
      exact hi.bound hm
  · obtain ⟨hrq, hmq⟩ := pair hr.1 hm.1 (apart' hm hr).symm hd
    rw [hold hrq] at hr hd ⊢
    rw [hold hmq] at hm hd ⊢
    exact hi.above (hlock ▸ hl) hm hr hd
  · obtain ⟨hrq, hmq⟩ := pair hr.1 hm.1 (apart' hm hr).symm (hrd.trans hmd.symm)
    rw [hold hrq] at hr hrd hst
    rw [hold hmq] at hm hmd
    rw [hpages m d hmq hm.1 hmd]
    exact hi.stack (hlock ▸ hl) hm hmd hr hrd hst
  · obtain ⟨hrq, hmq⟩ := pair hr.1 hm.1 (apart' hm hr).symm (hrd.trans hmd.symm)
    obtain ⟨hrq', -⟩ := pair hr'.1 hm.1 (apart' hm hr').symm (hrd'.trans hmd.symm)
    rw [hold hrq] at hr hrd hst
    rw [hold hrq'] at hr' hrd' hst'
    rw [hold hmq] at hm hmd
    exact hi.apart (hlock ▸ hl) hm hmd hr hrd hr' hrd' hst hst'

lemma heap_below (hi : HeapInv s) (hl : s.locked = false) (hp : (s.proc p).Used)
    (hm : (s.proc m).IsManager) (hd : (s.proc p).pgdir = (s.proc m).pgdir) (i : Nat) :
    pgUp (s.proc m).sz ≤ pgUp (stackBase (s.proc p).sz i) := by
  by_cases hpm : p = m
  · subst hpm
    exact pgUp_mono (le_stackBase _ _)
  · -- the creator is an LWP, whose own stack is above the heap
    obtain ⟨hab, hsz, -⟩ := hi.above hl hm (hi.shared hm hp hpm hd) hd
    refine le_trans hab (pgUp_mono ?_)
    have := le_stackBase (s.proc p).sz i
    omega

variable {p q : ProcId}

lemma create (hi : HeapInv s) (hl : s.locked = false)
    {pg : Pages} (hp : (s.proc p).Used) (hq : ¬ (s.proc q).Used) (hd : (s.proc p).pgdir = some d)
    (hpos : 0 < s.nextlwpid) (hpg : s.growStack p i d avail = .size sz pg) :
    HeapInv (s.withLwp q (s.lwp p q i sz .runnable) i d pg) := by
  obtain ⟨rfl, hsz⟩ := allocuvm_size (Nat.le_add_right _ _) hpg
  generalize ht : s.withLwp q (s.lwp p q i _ .runnable) i d pg = t
  have hnew : t.proc q = s.lwp p q i (stackBase (s.proc p).sz i + 2 * pgSize) .runnable := by
    rw [← ht]
    simp [withLwp]
  have hold : ∀ {r}, r ≠ q → t.proc r = s.proc r := fun hr => by
    rw [← ht]
    simp [withLwp, hr]
  have hlwp : (t.proc q).IsLwp := by
    rw [hnew]
    exact ⟨by simp [Proc.Used, lwp], hpos, rfl⟩
  have hmq : ∀ {m}, (t.proc m).IsManager → m ≠ q := fun hm he => by
    subst he
    exact absurd hlwp.2.1 (by simp [hm.2])
  have hpages : t.pages = update s.pages d pg := by rw [← ht]; rfl
  have hdir : (t.proc q).pgdir = some d := by rw [hnew]; exact hd
  -- the new stack is on pages that were not there
  have hkeep : ∀ {e x}, s.pages e x → t.pages e x := by
    intro e x hx
    rw [hpages]
    by_cases hed : e = d
    · subst hed
      rw [update_self]
      exact allocuvm_size_keeps hpg hx
    · rwa [update_of_ne hed]
  have hrange : ∀ {x}, (t.proc q).OnStack x → s.pages d x = false ∧ t.pages d x := by
    intro x hx
    rw [hnew] at hx
    rw [hpages, update_self]
    exact allocuvm_size_range (Nat.le_add_right _ _) hpg hx.1 hx.2
  refine ⟨fun {r} hr => ?_, fun {m r} hm hr hne hrd => ?_, fun {m e x} hm he hlt => ?_,
    fun {m} hm => ?_, fun _ {m r} hm hr hrd => ?_, fun _ {m r e x} hm hmd hr hrd hst => ?_,
    fun _ {m r r' e x} hm hmd hr hrd hr' hrd' hst hst' => ?_⟩
  · by_cases hrq : r = q
    · subst hrq
      exact ⟨d, hdir, ht ▸ hi.dir_lt hp hd⟩
    · rw [hold hrq] at hr ⊢
      exact ht ▸ hi.dir hr
  · by_cases hrq : r = q
    · exact hrq ▸ hlwp
    · have hm' := hmq hm
      rw [hold hrq] at hr hrd ⊢
      rw [hold hm'] at hm hrd
      exact hi.shared hm hr hne hrd
  · have hm' := hmq hm
    rw [hold hm'] at hm he hlt
    exact hkeep (hi.heap hm he hlt)
  · have hm' := hmq hm
    rw [hold hm'] at hm ⊢
    exact hi.bound hm
  · have hm' := hmq hm
    rw [hold hm'] at hm hrd ⊢
    by_cases hrq : r = q
    · subst hrq
      rw [hnew] at hrd ⊢
      exact ⟨hi.heap_below hl hp hm hrd i, rfl, hsz⟩
    · rw [hold hrq] at hr hrd ⊢
      exact hi.above hl hm hr hrd
  · have hm' := hmq hm
    rw [hold hm'] at hm hmd
    by_cases hrq : r = q
    · subst hrq
      obtain rfl : d = e := Option.mem_unique hdir hrd
      exact (hrange hst).2
    · rw [hold hrq] at hr hrd hst
      exact hkeep (hi.stack hl hm hmd hr hrd hst)
  · have hm' := hmq hm
    rw [hold hm'] at hm hmd
    -- a stack that was there is on pages that were there
    have old : ∀ {r}, r ≠ q → (t.proc r).IsLwp → (t.proc r).pgdir = some e →
        (t.proc r).OnStack x → s.pages e x := by
      intro r hrq hr hrd hst
      rw [hold hrq] at hr hrd hst
      exact hi.stack hl hm hmd hr hrd hst
    have clash : (t.proc q).pgdir = some e → (t.proc q).OnStack x → s.pages e x = false := by
      intro hqe hst
      obtain rfl : d = e := Option.mem_unique hdir hqe
      exact (hrange hst).1
    by_cases hrq : r = q <;> by_cases hrq' : r' = q
    · rw [hrq, hrq']
    · subst hrq
      exact absurd (old hrq' hr' hrd' hst') (by simp [clash hrd hst])
    · subst hrq'
      exact absurd (old hrq hr hrd hst) (by simp [clash hrd' hst'])
    · rw [hold hrq] at hr hrd hst
      rw [hold hrq'] at hr' hrd' hst'
      exact hi.apart hl hm hmd hr hrd hr' hrd' hst hst'

lemma other_dir (hi : HeapInv s) (hm : (s.proc m).IsManager)
    (ho : (s.proc o).IsManager) (hne : m ≠ o) (hod : (s.proc o).pgdir = some d) : (s.proc m).pgdir ≠ some d := by
  intro hmd
  have := (hi.shared ho hm.1 hne (hmd.trans hod.symm)).2.1
  rw [hm.2] at this
  exact absurd this (Nat.lt_irrefl 0)

lemma grow (hi : HeapInv s) {p : ProcId} {j : Nat}
    {pg : Pages} (ho : (s.proc o).IsManager) (hod : (s.proc o).pgdir = some d)
    (hn : n < 0 → newSize (s.proc o).sz n ≠ 0)
    (hr : Resized (s.proc o).sz n (s.pages d) sz pg lk) :
    HeapInv { s with
      proc := s.grownProc p o j sz, use := u
      pages := update s.pages d pg, locked := s.locked || lk } := by
  have hsz : (s.grownProc p o j sz o).sz = sz := if_pos rfl
  have hother : ∀ {m}, m ≠ o → (s.grownProc p o j sz m).sz = (s.proc m).sz := fun h => if_neg h
  have hmgr : ∀ {m}, (s.grownProc p o j sz m).IsManager → (s.proc m).IsManager := fun h => h
  have hlwp : ∀ {q}, (s.grownProc p o j sz q).IsLwp → (s.proc q).IsLwp := fun h => h
  have hne : ∀ {q}, (s.proc q).IsLwp → q ≠ o := fun hq he => by
    have := hq.2.1
    rw [he, ho.2] at this
    exact absurd this (Nat.lt_irrefl 0)
  have hunl : (s.locked || lk) = false → s.locked = false ∧ lk = false := by simp
  have hdirs : ∀ {m e}, (s.proc m).IsManager → m ≠ o → (s.proc m).pgdir = some e →
      update s.pages d pg e = s.pages e := by
    intro m e hm hmo he
    have hed : e ≠ d := fun h => hi.other_dir hm ho hmo hod (h ▸ he)
    exact update_of_ne hed ..
  -- the pages of a stack beside the heap stay, and the heap ends below them
  have hstack : (s.locked || lk) = false → ∀ {q x}, (s.proc q).IsLwp →
      (s.proc q).pgdir = some d → (s.proc q).OnStack x → pg x ∧ pgUp sz ≤ x := by
    intro hl q x hq hqd hst
    obtain ⟨hl', hlk⟩ := hunl hl
    subst hlk
    have hab := (hi.above hl' ho hq (hqd.trans hod.symm)).1
    exact hr.above (hi.stack hl' ho hod hq hqd hst) (le_trans hab hst.1)
  refine ⟨fun {q} hq => hi.dir hq, fun {m q} hm hq h hd => hi.shared hm hq h hd,
    fun {m e i} hm he hlt => ?_, fun {m} hm => ?_, fun hl {m q} hm hq hd => ?_,
    fun hl {m q e x} hm hmd hq hqd hst => ?_, fun hl => hi.apart (hunl hl).1⟩
  · by_cases hmo : m = o
    · subst hmo
      obtain rfl : d = e := Option.mem_unique hod he
      simp only [update_self]
      exact hr.heap hn (fun _ h => hi.heap ho hod h) (hsz ▸ hlt)
    · have he' : (s.proc m).pgdir = some e := he
      simp only [hdirs (hmgr hm) hmo he']
      exact hi.heap (hmgr hm) he' (hother hmo ▸ hlt)
  · by_cases hmo : m = o
    · subst hmo
      exact hsz.symm ▸ hr.bound (hi.bound ho)
    · exact (hother hmo).symm ▸ hi.bound (hmgr hm)
  · have hold := hi.above (hunl hl).1 (hmgr hm) (hlwp hq) hd
    refine ⟨?_, (hother (hne (hlwp hq))).trans hold.2.1, (hother (hne (hlwp hq))).symm ▸ hold.2.2⟩
    by_cases hmo : m = o
    · subst hmo
      have hqd : (s.proc q).pgdir = some d := hd.trans hod
      have hst : (s.proc q).OnStack (pgUp (s.proc q).sbase) := by
        refine ⟨le_rfl, ?_⟩
        rw [pgUp_add_pages]
        omega
      exact hsz.symm ▸ (hstack hl (hlwp hq) hqd hst).2
    · exact (hother hmo).symm ▸ hold.1
  · by_cases hmo : m = o
    · subst hmo
      obtain rfl : d = e := Option.mem_unique hod hmd
      simp only [update_self]
      exact (hstack hl (hlwp hq) hqd hst).1
    · have hmd' : (s.proc m).pgdir = some e := hmd
      simp only [hdirs (hmgr hm) hmo hmd']
      exact hi.stack (hunl hl).1 (hmgr hm) hmd' (hlwp hq) hqd hst

lemma isLwp_of_own (hids : Ids s) (hp : (s.proc p).Used)
    (hq : s.OwnZombie (s.proc p).pid q) : (s.proc q).IsLwp := by
  refine hids.lwp (used_of_zombie hq.2) ?_
  rw [hq.1]
  exact Nat.pos_iff_ne_zero.mp (hids.pid_pos hp)

lemma quiet (hi : HeapInv s) (hl : t.locked = false → s.locked = false) (hq : Quiet s t) : HeapInv t := by
  refine hi.of_same ?_ hl (fun q hu => (hq.kept q).sameSite hu) fun m d i hm hd _ hpage => ?_
  · rcases hq.dirs with h | h <;> omega
  · have hs := (hq.kept m).sameSite hm.1
    have hlt := hi.dir_lt hs.used (hs.pgdir ▸ hd)
    exact .inl (hq.pages d hlt ▸ hpage)

/-- Nothing but the message of a panic changes. -/
lemma stop (hi : HeapInv s) (msg : String) : HeapInv (s.panic msg) :=
  hi.of_same le_rfl id (fun _ hq => .refl hq) fun _ _ _ _ _ _ h => .inl h

lemma exitScan (hi : HeapInv s) (hids : Ids s) (hl : s.locked = false) {p : ProcId}
    {pg : Nat → Pages} (hp : (s.proc p).Used)
    (hz : ∀ q ∈ s.ownZombies p, ¬ (f q).Used) (hk : ∀ q ∉ s.ownZombies p, q ≠ p → Kept (s.proc q) (f q))
    (hkp : Keeps (s.proc p) (f p)) (hlay : SameLayout (s.proc p) (f p))
    (hpg : pg = (s.exitScan p).pages) : HeapInv { s with proc := f, numLwp := n, pages := pg } := by
  have hsite : ∀ q, (f q).Used → SameSite (s.proc q) (f q) := by
    intro q hq
    by_cases hqp : q = p
    · subst hqp
      have hs := hkp.same hq
      exact ⟨hp, hs.pgdir, hs.lwpid, hs.forked, hlay⟩
    · exact (hk q (fun hm => hz q hm hq) hqp).sameSite hq
  refine hi.of_same le_rfl id hsite fun m d i hm hd _ hpage => ?_
  by_cases hex : ∃ q, s.OwnZombie (s.proc p).pid q ∧ (s.proc q).pgdir = some d ∧
      (s.proc q).OnStack i
  · obtain ⟨q, hown, hqd, hst⟩ := hex
    exact .inr ⟨hl, q, isLwp_of_own hids hp hown, hqd, hz q (mem_ownZombies.mpr hown), hst⟩
  · left
    have hkeep := exitScan_keeps (p := p) hpage fun q hown hqd hst => hex ⟨q, hown, hqd, hst⟩
    rw [← hpg] at hkeep
    exact hkeep

lemma join (hi : HeapInv s) (hids : Ids s) (hl : s.locked = false) {pg : Nat → Pages} (hp : (s.proc p).Used)
    (hown : s.OwnZombie (s.proc p).pid q) (hq : ¬ (f q).Used)
    (hf : ∀ r ≠ q, Kept (s.proc r) (f r)) (hpg : pg = (s.deallocStack q).pages) :
    HeapInv { s with proc := f, use := u, pages := pg } := by
  have hsite : ∀ r, (f r).Used → SameSite (s.proc r) (f r) := fun r hr =>
    (hf r fun he => hq (he ▸ hr)).sameSite hr
  refine hi.of_same le_rfl id hsite fun m d i hm hd _ hpage => ?_
  by_cases hex : (s.proc q).pgdir = some d ∧ (s.proc q).OnStack i
  · exact .inr ⟨hl, q, isLwp_of_own hids hp hown, hex.1, hq, hex.2⟩
  · exact .inl (hpg ▸ deallocStack_keeps hpage fun hqd hst => hex ⟨hqd, hst⟩)

lemma join_of_step {thread : Nat} (h : s.step (.threadJoin p thread) = some t)
    (hl : (s.proc p).lwpid = 0) (hq : s.joinFinds p thread = some q) : t.pages = (s.deallocStack q).pages := by
  rw [← (of_step h).2.2]
  simp [Table.threadJoin, hl, joinScan, hq, Table.ret, Table.modify]

/-- A `sbrk` other than `sbrk(0)`. -/
lemma sbrk (hi : HeapInv s) {p : ProcId} (hn : n ≠ 0)
    (hc : KeepsHeap s (.sbrk p n avail)) (h : s.step (.sbrk p n avail) = some t) : HeapInv t := by
  have ht := (of_step h).2.2
  rcases growproc_resized (s := s) (p := p) n avail with
    ⟨msg, he⟩ | ⟨o, d, j, u, sz, pg, lk, ho, hd, hr, he⟩
  · rw [← ht, he]
    exact hi.stop msg
  · rw [← ht, he]
    obtain ⟨hom, hod, hne⟩ := hc.resolve_left hn o ho
    exact hi.grow hom (hod.trans hd) hne hr

lemma step (hi : HeapInv s) (hids : Ids s) (hc : KeepsHeap s a) (h : s.step a = some t) : HeapInv t := by
  have hfree := hc.freesUnshared
  cases step_effect h with
  | quiet _ hq => exact hi.quiet (unlocked_before h) hq
  | stop _ msg _ => exact hi.stop msg
  | @fork p q d hp hq hd =>
    have hup := used_of_calls hp
    refine hi.of_fresh rfl rfl rfl rfl (fun r e hr hu he => ?_) fun hm => ?_
    · exact update_of_ne (hi.dir_lt hu he).ne ..
    · -- the child of a process has the heap of its parent
      have hl : (s.proc p).lwpid = 0 := by
        have h0 := hm.2
        have := hids.nextlwpid_pos
        simp only [child] at h0
        split at h0 <;> omega
      refine ⟨hi.bound ⟨hup, hl⟩, fun i hlt => ?_⟩
      simp only [update_self, copyuvm, Bool.and_eq_true, decide_eq_true_eq]
      exact ⟨hlt, hi.heap ⟨hup, hl⟩ hd hlt⟩
  | @exec p d sz hp hd =>
    have hup := used_of_calls hp
    have hlt := hi.dir_lt hup hd
    refine hi.of_fresh rfl rfl rfl rfl (fun r e hr hu he => ?_) fun _ => ⟨(of_step h).2.1.2.2.2, fun i hi' => ?_⟩
    · have hed : e ≠ d := DirInv.ne_of_unshared hfree hd hr hu he
      simp only
      rw [update_of_ne hed, update_of_ne (hi.dir_lt hu he).ne]
    · simp only
      rw [update_of_ne hlt.ne', update_self]
      exact decide_eq_true hi'
  | @create p q stack avail i d sz pg hp hq hd hfb hpg =>
    exact hi.create (unlocked_of_step h rfl) (used_of_calls hp) hq hd hids.nextlwpid_pos hpg
  | @createFail p q stack avail i d pg hp hq hd hfb hpg =>
    have hl := unlocked_of_step h rfl
    have hk : ∀ r, Kept (s.proc r) (update s.proc q (s.lwp p q i 0 .unused) r) :=
      kept_of_unused hq (by simp [Proc.Used, lwp])
    refine hi.of_same le_rfl (by simp) (fun r hr => (hk r).sameSite hr)
      fun m e x hm he hneed hpage => .inl ?_
    have hx := hneed.resolve_right (by simp)
    have hs := (hk m).sameSite hm.1
    simp only [withLwp] at hm he hx ⊢
    by_cases hed : e = d
    · subst hed
      rw [update_self]
      refine allocuvm_failed_keeps hpg hpage (Nat.lt_of_lt_of_le hx ?_)
      rw [hs.layout.sz]
      exact hi.heap_below hl (used_of_calls hp) (hs.isManager hm) (hd.trans (hs.pgdir ▸ he).symm) i
    · rwa [update_of_ne hed]
  | @threadExit p retval f hp hf =>
    refine hi.of_same le_rfl id (fun r hr => ?_) fun _ _ _ _ _ _ h => .inl h
    have hs : (s.proc r).Used := by
      by_contra hs
      cases filled_of_step h hs hr
    rcases site_of_step h hs hr with hsite | ⟨_, ha, -⟩ | ⟨_, _, _, ha⟩
    · exact hsite
    · cases ha
    · cases ha
  | @exitScan p f pg hp hz hk hkp hlay =>
    exact hi.exitScan hids (unlocked_of_step h rfl) (used_of_stands hp) hz hk hkp hlay
      (by rw [(of_step h).2.2])
  | @wait p q d f hfind hz hd hq hf =>
    have hsite : ∀ r, (f r).Used → SameSite (s.proc r) (f r) := fun r hr =>
      (hf r fun he => hq (he ▸ hr)).sameSite hr
    refine hi.of_same le_rfl id hsite fun m e i hm he _ hpage => .inl ?_
    have hs := hsite m hm.1
    have hmq : m ≠ q := fun h => hq (h ▸ hm.1)
    have hed : e ≠ d := DirInv.ne_of_unshared (hfree q hfind) hd hmq hs.used (hs.pgdir ▸ he)
    simp only [update_of_ne hed]
    exact hpage
  | @join p q thread f pg hp hfind hl hown hq hf =>
    exact hi.join hids (unlocked_of_step h rfl) hp hown hq hf (join_of_step h hl hfind)
  | grow hp hn => exact hi.sbrk hn hc h

lemma boot : HeapInv Table.boot := by
  have hinit : ∀ {q}, (Table.boot.proc q).Used → q = initproc := by
    intro q hq
    by_contra hne
    exact hq (by simp [Table.boot, hne, Proc.zero])
  have hlwp : ∀ q, ¬ (Table.boot.proc q).IsLwp := by decide
  refine ⟨fun {q} hq => ?_, fun {m q} hm hq hne _ => ?_, fun {m d i} hm hd hlt => ?_,
    fun {m} hm => ?_, fun _ {m q} _ hq => absurd hq (hlwp q),
    fun _ {m q d i} _ _ hq => absurd hq (hlwp q), fun _ {m q r d i} _ _ hq => absurd hq (hlwp q)⟩
  · exact ⟨0, by rw [hinit hq]; rfl, by decide⟩
  · exact absurd ((hinit hq).trans (hinit hm.1).symm) hne
  · rw [hinit hm.1] at hd hlt
    obtain rfl : 0 = d := Option.some.inj hd
    have h1 : pgUp (Table.boot.proc initproc).sz = 1 := by decide
    have : i = 0 := by omega
    simp [Table.boot, this]
  · rw [hinit hm.1]
    decide

end HeapInv

end Xv6.Process
