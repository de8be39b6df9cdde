import Xv6.Process.Heap

/-!
# What `sbrk` grants

`sys_sbrk` returns the caller's own `sz`, and `growproc` moves the `sz` of the caller or, if the
caller has an LWP number, of its parent. For a process the two are the same. For an LWP the own `sz`
is the top of its stack; for the forked child of an LWP the parent is in another address space
(`sbrk_by_lwp`).

Where processes make the calls, `sbrk(n)` returns the break of the address space, the bytes it grants
are mapped and granted to nobody else, and no other address space changes (`sbrk_grants`).
-/

namespace Xv6.Process

open Function (update_self update_of_ne)

open Lib Table

/-- `b` is the break of the address space `d`: the size of the process that runs there. -/
def Table.Break (s : Table) (d b : Nat) : Prop :=
  ∃ m, (s.proc m).IsManager ∧ (s.proc m).pgdir = some d ∧ (s.proc m).sz = b

instance (s : Table) (d b : Nat) : Decidable (s.Break d b) := inferInstanceAs (Decidable (∃ _, _))

/-- What `sys_sbrk(n)` returns to `p`; `none` where it returns `-1` (and leaves the lock held) or
panics. -/
def Table.sbrk (s : Table) (p : ProcId) (n : Int) (avail : Nat) : Option Nat :=
  let t := s.growproc p n avail
  if t.locked ∨ t.stopped.isSome then none else some (s.proc p).sz

/-- `sbrk` is called by processes, not by LWPs or their forked children, with an `int`, and never
shrinks a process to nothing; only unshared page directories are freed. -/
def SbrkByProcess (s : Table) : Act → Prop
  | .sbrk p n _ => (s.proc p).lwpid = 0 ∧ n < 2 ^ 31 ∧ (n < 0 → newSize (s.proc p).sz n ≠ 0)
  | a => FreesUnshared s a

instance (s : Table) : DecidablePred (SbrkByProcess s) := by
  intro a
  apply Act.casesOn (motive := fun a => Decidable (SbrkByProcess s a)) a <;> intros <;> dsimp only [SbrkByProcess] <;>
    infer_instance

/-- The table, and for each address space the bytes that `sbrk` has returned and that are still
allocated. -/
structure Grants where
  table : Table
  granted : Nat → Nat → Bool

variable {s t : Table} {a : Act}

namespace Grants

/-- The bytes granted in address space `d` after `sbrk(n)` returned `a` and left the break `b`. -/
def after (g : Grants) (d : Nat) (n : Int) (a b x : Nat) : Bool :=
  if 0 < n then g.granted d x || decide (a ≤ x ∧ x < a + n.toNat) else g.granted d x && decide (x < b)

/-- What is written down of the action `a` that led to the table `t`. -/
def record (g : Grants) (a : Act) (t : Table) : Grants :=
  let s := g.table
  match a with
  | .sbrk p n avail =>
    match s.sbrk p n avail, (s.proc p).pgdir with
    | some a, some d => ⟨t, Function.update g.granted d (g.after d n a (t.proc p).sz)⟩
    | _, _ => { g with table := t }
  -- a child starts with a copy of the address space
  | .fork p _ =>
    match (s.proc p).pgdir with
    | some d => ⟨t, Function.update g.granted s.nextdir (g.granted d)⟩
    | none => { g with table := t }
  | .exec _ (.done _) => ⟨t, Function.update g.granted s.nextdir fun _ => false⟩
  | _ => { g with table := t }

def step (g : Grants) (a : Act) : Option Grants := (g.table.step a).map (g.record a)

def boot : Grants := ⟨Table.boot, fun _ _ => false⟩

@[simp] lemma record_table (g : Grants) (a : Act) (t : Table) : (g.record a t).table = t := by
  unfold record
  split
  · simp only
    split <;> rfl
  · simp only
    split <;> rfl
  · rfl
  · rfl

lemma run_lift {C : Table → Act → Prop} {as : List Act} (h : Run Table.step C Table.boot as s) :
    ∃ g, Run step (fun g a => C g.table a) boot as g ∧ g.table = s :=
  h.lift Grants.table (fun g a t ht => ⟨g.record a t, by simp [step, ht], by simp⟩) rfl

lemma record_granted {g : Grants} {d : Nat} (hd : d < g.table.nextdir)
    (ha : ∀ p n avail, a = .sbrk p n avail → (g.table.proc p).pgdir ≠ some d) :
    (g.record a t).granted d = g.granted d := by
  unfold record
  split
  · rename_i p n avail
    simp only
    split
    · rename_i e _ he
      have hde : d ≠ e := fun h => ha p n avail rfl (h ▸ he)
      exact update_of_ne hde ..
    · rfl
  · simp only
    split
    · exact update_of_ne hd.ne ..
    · rfl
  · exact update_of_ne hd.ne ..
  · rfl

end Grants

/-! ### One call -/

variable {sz : Nat} {n : Int}

lemma newSize_eq (hsz : sz < kernBase) (h0 : 0 < n) (hn : n < 2 ^ 31) : newSize sz n = sz + n.toNat := by
  have hk : kernBase = 2 ^ 31 := by decide
  unfold newSize
  omega

variable {p : ProcId}

variable {avail : Nat}

lemma sbrk_returns {a : Nat}
    (hl : (s.proc p).lwpid = 0) (h : s.step (.sbrk p n avail) = some t)
    (ha : s.sbrk p n avail = some a) :
    a = (s.proc p).sz ∧ ∃ d j u sz pg, (s.proc p).pgdir = some d ∧
      Resized a n (s.pages d) sz pg false ∧
      t = { s with
            proc := s.grownProc p p j sz, use := u, pages := Function.update s.pages d pg } := by
  have ht := (of_step h).2.2
  have hunl := unlocked_of_step h rfl
  unfold Table.sbrk at ha
  simp only [ht] at ha
  split at ha
  · cases ha
  rename_i hret
  cases ha
  refine ⟨rfl, ?_⟩
  rcases growproc_resized (s := s) (p := p) n avail with
    ⟨msg, he⟩ | ⟨o, d, j, u, sz, pg, lk, ho, hd, hr, he⟩
  · exact absurd (.inr (by rw [← ht, he]; rfl)) hret
  · obtain rfl : p = o := by
      simpa [Table.owner, hl] using ho
    rw [ht] at he
    have hlk : lk = false := by
      simp only [he, hunl, Bool.false_or, not_or] at hret
      simpa using hret.1
    subst hlk
    refine ⟨d, j, u, sz, pg, hd, hr, ?_⟩
    rw [he]
    simp

lemma sbrk_fails (h : s.step (.sbrk p n avail) = some t) (ha : s.sbrk p n avail = none) (q : ProcId) :
    (t.proc q).sz = (s.proc q).sz := by
  have ht := (of_step h).2.2
  have hunl := unlocked_of_step h rfl
  have hrun := running_of_step h
  unfold Table.sbrk at ha
  simp only [ht] at ha
  split at ha
  · rename_i hret
    rcases growproc_resized (s := s) (p := p) n avail with
      ⟨msg, he⟩ | ⟨o, d, j, u, sz, pg, lk, ho, hd, hr, he⟩
    · rw [← ht, he]
      rfl
    · rw [ht] at he
      have hlk : lk := by
        rcases hret with hret | hret
        · simpa [he, hunl] using hret
        · simp [he, hrun] at hret
      subst hlk
      rw [he]
      cases hr <;>
      · simp only [Table.grownProc]
        split
        · rename_i hqo
          rw [hqo]
        · rfl
  · cases ha

/-! ### The invariant -/

/-- What was granted in an address space lies below its break. -/
structure Granted (g : Grants) : Prop where
  ids : Ids g.table
  heap : HeapInv g.table
  below : ∀ {m d x}, (g.table.proc m).IsManager → (g.table.proc m).pgdir = some d →
    g.granted d x = true → x < (g.table.proc m).sz

lemma calls_of_sbrk (h : s.step (.sbrk p n avail) = some t) : s.calls p := by
  exact (of_step h).2.1

lemma SbrkByProcess.keepsHeap (hc : SbrkByProcess s a) (h : s.step a = some t) : KeepsHeap s a := by
  cases a with
  | sbrk p n avail =>
    refine .inr fun o ho => ?_
    obtain ⟨hl, -, hn⟩ := hc
    obtain rfl : p = o := by simpa [Table.owner, hl] using ho
    exact ⟨⟨used_of_calls (calls_of_sbrk h), hl⟩, rfl, hn⟩
  | _ => exact hc

namespace Granted

variable {g : Grants} {a : Act} {t : Table} {m : ProcId} {d x : Nat}

/-- A `sbrk` by the process itself. -/
lemma own (hi : Granted g)
    (hc : SbrkByProcess g.table (.sbrk m n avail)) (h : g.table.step (.sbrk m n avail) = some t)
    (hs : (g.table.proc m).Used) (hd : (g.table.proc m).pgdir = some d)
    (hx : (g.record (.sbrk m n avail) t).granted d x) : x < (t.proc m).sz := by
  obtain ⟨hl, hlt, -⟩ := hc
  have hbelow : g.granted d x → x < (g.table.proc m).sz := hi.below ⟨hs, hl⟩ hd
  cases hret : g.table.sbrk m n avail with
  | none =>
    simp only [Grants.record, hret] at hx
    rw [sbrk_fails h hret m]
    exact hbelow hx
  | some b =>
    obtain ⟨rfl, e, j, u, sz, pg, -, hr, rfl⟩ := sbrk_returns hl h hret
    simp only [Grants.record, hret, hd, update_self, Grants.after] at hx
    have hsz : (g.table.grownProc m m j sz m).sz = sz := if_pos rfl
    split at hx
    · -- the break moves up by what is granted
      rename_i hpos
      have hnew := newSize_eq (hi.heap.bound ⟨hs, hl⟩) hpos hlt
      have : sz = (g.table.proc m).sz + n.toNat := by
        cases hr with
        | zero hn | shrunk hn => omega
        | grown _ hg => rw [(allocuvm_size (by omega) hg).1, hnew]
      simp only [Bool.or_eq_true, decide_eq_true_eq] at hx
      simp only [hsz]
      rcases hx with hx | hx
      · have := hbelow hx
        omega
      · omega
    · simp only [Bool.and_eq_true, decide_eq_true_eq] at hx
      exact hx.2

/-- A `sbrk` by another process, which is in another address space. -/
lemma other (hi : Granted g) {p : ProcId}
    (hl : (g.table.proc p).lwpid = 0) (h : g.table.step (.sbrk p n avail) = some t)
    (hm : (g.table.proc m).IsManager) (hmp : m ≠ p) (hd : (g.table.proc m).pgdir = some d)
    (hx : (g.record (.sbrk p n avail) t).granted d x) : x < (t.proc m).sz := by
  have hp : (g.table.proc p).IsManager := ⟨used_of_calls (calls_of_sbrk h), hl⟩
  rw [Grants.record_granted (hi.heap.dir_lt hm.1 hd) fun p' _ _ ha hpd => ?_] at hx
  · have hsz : (t.proc m).sz = (g.table.proc m).sz := by
      cases hret : g.table.sbrk p n avail with
      | none => exact sbrk_fails h hret m
      | some b =>
        obtain ⟨-, e, j, u, sz, pg, -, -, rfl⟩ := sbrk_returns hl h hret
        exact if_neg hmp
    rw [hsz]
    exact hi.below hm hd hx
  · cases ha
    exact hi.heap.other_dir hm hp hmp hpd hd

lemma below_step (hi : Granted g) (hc : SbrkByProcess g.table a) (h : g.table.step a = some t)
    (hm : (t.proc m).IsManager) (hd : (t.proc m).pgdir = some d)
    (hx : (g.record a t).granted d x) : x < (t.proc m).sz := by
  by_cases hs : (g.table.proc m).Used
  · have hmv := step_moved h hm.1
    have hmgr : (g.table.proc m).IsManager := ⟨hs, (hmv.sameIds hs).lwpid ▸ hm.2⟩
    rcases site_of_step h hs hm.1 with hsite | ⟨sz, rfl, he⟩ | ⟨p, n, avail, rfl⟩
    · have hd' := hsite.pgdir ▸ hd
      by_cases hsb : ∃ p n avail, a = .sbrk p n avail
      · obtain ⟨p, n, avail, rfl⟩ := hsb
        by_cases hmp : m = p
        · subst hmp
          exact hi.own hc h hs hd' hx
        · exact hi.other hc.1 h hmgr hmp hd' hx
      · rw [Grants.record_granted (hi.heap.dir_lt hs hd') fun p n avail ha => ?_] at hx
        · rw [hsite.layout.sz]
          exact hi.below hmgr hd' hx
        · exact absurd ⟨p, n, avail, ha⟩ hsb
    · -- nothing is granted in the address space of a new image
      rw [he] at hd
      cases hd
      simp [Grants.record] at hx
    · have hd' : (g.table.proc m).pgdir = some d := by
        rcases hmv.pgdir hs with hdir | ⟨_, ha⟩
        · exact hdir ▸ hd
        · cases ha
      by_cases hmp : m = p
      · subst hmp
        exact hi.own hc h hs hd' hx
      · exact hi.other hc.1 h hmgr hmp hd' hx
  · cases filled_of_step h hs hm.1 with
    | @fork p t hp ht =>
      rw [ht, update_self] at hm hd ⊢
      obtain rfl : g.table.nextdir = d := Option.some.inj hd
      have hl : (g.table.proc p).lwpid = 0 := by
        have h0 : (g.table.child p m).lwpid = 0 := hm.2
        have := hi.ids.nextlwpid_pos
        simp only [child] at h0
        split at h0 <;> omega
      obtain ⟨e, he, -⟩ := hi.heap.dir (used_of_calls hp)
      simp only [Grants.record, he, update_self] at hx
      exact hi.below ⟨used_of_calls hp, hl⟩ he hx
    | @create p stack avail i sz t hp ht =>
      rw [ht, update_self] at hm
      exact absurd hm.2 hi.ids.nextlwpid_pos.ne'

lemma step (hi : Granted g) (hc : SbrkByProcess g.table a) (h : g.table.step a = some t) :
    Granted (g.record a t) where
  ids := (Grants.record_table g a t).symm ▸ hi.ids.step h
  heap := (Grants.record_table g a t).symm ▸ hi.heap.step hi.ids (hc.keepsHeap h) h
  below {m d x} hm hd hx := by
    rw [Grants.record_table] at hm hd ⊢
    exact hi.below_step hc h hm hd hx

lemma boot : Granted Grants.boot :=
  ⟨Ids.boot, HeapInv.boot, fun {m d x} _ _ hx => absurd hx (by simp [Grants.boot])⟩

end Granted

lemma page_lt_pgUp {x : Nat} (h : x < sz) : x / pgSize < pgUp sz := by
  have hp : 0 < pgSize := by decide
  rw [pgUp, Nat.lt_iff_add_one_le, ← Nat.add_div_right x hp]
  exact Nat.div_le_div_right (by omega)

/-- In every run in which processes, not LWPs, call `sbrk`: if `sbrk(n)` with `n > 0` returns `a`, then
`a` is the break of the caller's address space, the bytes `[a, a + n)` are mapped there and none of
them was returned before and is still allocated, the break becomes `a + n`, and no process on another
page directory changes its size. -/
theorem sbrk_grants {as : List Act} {s : Table}
    (h : Run Table.step SbrkByProcess Table.boot as s) :
    ∃ g, Run Grants.step (fun g => SbrkByProcess g.table) Grants.boot as g ∧ g.table = s ∧
      ∀ p n avail t a, SbrkByProcess s (.sbrk p n avail) → 0 < n →
        s.step (.sbrk p n avail) = some t → s.sbrk p n avail = some a →
        ∃ d, (s.proc p).pgdir = some d ∧ (∀ b, s.Break d b ↔ b = a) ∧
          (∀ x, a ≤ x → x < a + n.toNat → t.pages d (x / pgSize) = true ∧ g.granted d x = false) ∧
          (∀ b, t.Break d b ↔ b = a + n.toNat) ∧
          ∀ q, (s.proc q).pgdir ≠ some d → (t.proc q).sz = (s.proc q).sz := by
  obtain ⟨g, hrun, rfl⟩ := Grants.run_lift h
  have hi : Granted g := hrun.inv Granted.boot fun g a g' hi hc hs => by
    obtain ⟨t, ht, rfl⟩ := Option.map_eq_some_iff.mp hs
    exact hi.step hc ht
  refine ⟨g, hrun, rfl, fun p n avail t a hc hn ht ha => ?_⟩
  have hti := hi.heap.step hi.ids (hc.keepsHeap ht) ht
  obtain ⟨hl, hlt, -⟩ := hc
  have hp : (g.table.proc p).IsManager := ⟨used_of_calls (calls_of_sbrk ht), hl⟩
  obtain ⟨rfl, d, j, u, sz, pg, hd, hr, rfl⟩ := sbrk_returns hl ht ha
  have hnew := newSize_eq (hi.heap.bound hp) hn hlt
  have hsz : sz = (g.table.proc p).sz + n.toNat := by
    cases hr with
    | zero h0 | shrunk h0 => omega
    | grown _ hg => rw [(allocuvm_size (by omega) hg).1, hnew]
  have hown : (g.table.grownProc p p j sz p).sz = sz := if_pos rfl
  have hbrk : ∀ {q}, (g.table.proc q).IsManager → (g.table.proc q).pgdir = some d → q = p := by
    intro q hq hqd
    by_contra hqp
    exact hi.heap.other_dir hq hp hqp hd hqd
  refine ⟨d, hd, fun b => ⟨?_, ?_⟩, fun x hlo hhi => ⟨?_, ?_⟩, fun b => ⟨?_, ?_⟩, fun q hq => ?_⟩
  · rintro ⟨q, hq, hqd, rfl⟩
    rw [hbrk hq hqd]
  · rintro rfl
    exact ⟨p, hp, hd, rfl⟩
  · exact hti.heap (m := p) hp hd (page_lt_pgUp (by simp only [hown]; omega))
  · refine Bool.eq_false_iff.mpr fun hx => ?_
    have := hi.below hp hd hx
    omega
  · rintro ⟨q, hq, hqd, rfl⟩
    rw [hbrk hq hqd, ← hsz]
    exact hown
  · rintro rfl
    exact ⟨p, hp, hd, hown.trans hsz⟩
  · exact if_neg fun (hqp : q = p) => hq (hqp ▸ hd)

/-- A process grows and creates an LWP. -/
def growTwice : List Act :=
  [.sched 0 .running, .fork 0 .enough, .sched 1 .running, .sbrk 1 5000 9, .threadCreate 1 true 9]

theorem sbrk_grants_growTwice :
    ∃ s t, Run Table.step SbrkByProcess Table.boot growTwice s ∧
      s.step (.sbrk 1 100 9) = some t ∧ s.sbrk 1 100 9 = some 9096 ∧
      ∃ d, (s.proc 1).pgdir = some d ∧ (∀ b, s.Break d b ↔ b = 9096) ∧
        (∀ b, t.Break d b ↔ b = 9096 + 100) := by
  obtain ⟨s, hrun, hc, hs, ha⟩ := run_of_check Table.step SbrkByProcess Table.boot growTwice
    (fun s => SbrkByProcess s (.sbrk 1 100 9) ∧ (s.step (.sbrk 1 100 9)).isSome ∧
      s.sbrk 1 100 9 = some 9096) (by decide +kernel)
  obtain ⟨t, ht⟩ := Option.isSome_iff_exists.mp hs
  obtain ⟨g, -, -, hall⟩ := sbrk_grants hrun
  obtain ⟨d, hd, hb, -, hb', -⟩ := hall 1 100 9 t 9096 hc (by decide) ht ha
  exact ⟨s, t, hrun, ht, ha, d, hd, hb, hb'⟩

/-- A process of one page creates an LWP. -/
def oneLwp : List Act :=
  [.sched 0 .running, .fork 0 .enough, .sched 1 .running, .threadCreate 1 true 9, .sched 2 .running]

/-- To an LWP, `sbrk` returns the top of its own stack, which is not the break and not mapped; and
the forked child of an LWP moves the size of the LWP, which is in another address space. -/
theorem sbrk_by_lwp :
    (∃ s t, Run Table.step anyStep Table.boot oneLwp s ∧ s.step (.sbrk 2 4096 9) = some t ∧
      s.sbrk 2 4096 9 = some 20480 ∧ (s.proc 2).pgdir = some 1 ∧ s.Break 1 4096 ∧
      ¬ s.Break 1 20480 ∧ t.pages 1 (20480 / pgSize) = false) ∧
    ∃ s t, Run Table.step anyStep Table.boot (oneLwp ++ [.fork 2 .enough, .sched 3 .running]) s ∧
      s.step (.sbrk 3 4096 9) = some t ∧ s.sbrk 3 4096 9 = some 20480 ∧
      (s.proc 3).pgdir = some 2 ∧ (s.proc 2).pgdir = some 1 ∧ (s.proc 2).sz = 20480 ∧
      (t.proc 2).sz = 24576 := by
  refine ⟨?_, ?_⟩
  · obtain ⟨s, hrun, h1, h2, h3, h4, h5⟩ := run_of_check Table.step anyStep Table.boot oneLwp
      (fun s => s.sbrk 2 4096 9 = some 20480 ∧ (s.proc 2).pgdir = some 1 ∧ s.Break 1 4096 ∧
        ¬ s.Break 1 20480 ∧ (s.step (.sbrk 2 4096 9)).any fun t =>
          decide (t.pages 1 (20480 / pgSize) = false)) (by decide +kernel)
    cases ht : s.step (.sbrk 2 4096 9) with
    | none => simp [ht] at h5
    | some t => exact ⟨s, t, hrun, ht, h1, h2, h3, h4, by simpa [ht] using h5⟩
  · obtain ⟨s, hrun, h1, h2, h3, h4, h5⟩ := run_of_check Table.step anyStep Table.boot
      (oneLwp ++ [.fork 2 .enough, .sched 3 .running])
      (fun s => s.sbrk 3 4096 9 = some 20480 ∧ (s.proc 3).pgdir = some 2 ∧
        (s.proc 2).pgdir = some 1 ∧ (s.proc 2).sz = 20480 ∧
        (s.step (.sbrk 3 4096 9)).any fun t => decide ((t.proc 2).sz = 24576)) (by decide +kernel)
    cases ht : s.step (.sbrk 3 4096 9) with
    | none => simp [ht] at h5
    | some t => exact ⟨s, t, hrun, ht, h1, h2, h3, h4, by simpa [ht] using h5⟩

end Xv6.Process
