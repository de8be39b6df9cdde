import Xv6.Process.Kept

/-!
# What one action can do to the table

The invariants of the process table are proved from one statement, `step_effect`: an action is
`Quiet`, or stops the machine, or is one of the changes that matter. A process is forked, its image
is replaced by `exec`, an LWP is created or its creation fails halfway, an LWP ends in
`thread_exit`, slots are emptied by `exit`, `wait` or `thread_join`, or the heap moves.
-/

namespace Xv6.Process

open Function (update update_self update_of_ne update_idem)
open Table

/-- What `fork` puts into slot `q`. -/
def Table.child (s : Table) (p q : ProcId) : Proc :=
  { s.proc q with
    sz := (s.proc p).sz, pgdir := some s.nextdir, state := .runnable, pid := s.nextpid
    parent := some p, lwpid := if 0 < (s.proc p).lwpid then s.nextlwpid else 0
    lwppid := 0, retval := 0, sbase := 0, snum := 0
    forked := decide (0 < (s.proc p).lwpid), cont := .user }

/-- What `thread_create` puts into slot `q`, with stack slot `i`, up to the result of `allocuvm`. -/
def Table.lwp (s : Table) (p q : ProcId) (i sz : Nat) (st : ProcState) : Proc :=
  { s.proc q with
    sz := sz, pgdir := (s.proc p).pgdir, state := st, pid := s.nextpid
    parent := if 0 < (s.proc p).lwpid then (s.proc p).parent else some p
    lwpid := s.nextlwpid
    lwppid := if 0 < (s.proc p).lwpid then (s.proc p).lwppid else (s.proc p).pid
    retval := 0, sbase := stackBase (s.proc p).sz i, snum := i, forked := false, cont := .user }

/-- The table after `thread_create` by `p` has filled in slot `q`. -/
def Table.withLwp (s : Table) (q : ProcId) (np : Proc) (i d : Nat) (pg : Pages) : Table :=
  { s with
    proc := Function.update s.proc q np, numLwp := s.numLwp + 1, nextpid := s.nextpid + 1
    nextlwpid := s.nextlwpid + 1, use := Function.update s.use i true
    pages := Function.update s.pages d pg }

/-- The slots after `growproc` by `p`: `get_base` has moved `p->snum`, and the owner has a size. -/
def Table.grownProc (s : Table) (p o : ProcId) (j sz : Nat) (q : ProcId) : Proc :=
  { s.proc q with snum := if q = p then j else (s.proc q).snum
                  sz := if q = o then sz else (s.proc q).sz }

/-- `allocuvm` for the stack of stack slot `i`. -/
abbrev Table.growStack (s : Table) (p : ProcId) (i d avail : Nat) : Grown :=
  allocuvm (s.pages d) (stackBase (s.proc p).sz i) (stackBase (s.proc p).sz i + 2 * pgSize) avail

/-- The call asks `allocuvm` for a page that is present. -/
def Remaps (s : Table) : Act → Prop
  | .threadCreate p _ avail => s.calls p ∧ ∃ i d, s.freeBase = some i ∧ (s.proc p).pgdir = some d ∧
      allocuvm (s.pages d) (stackBase (s.proc p).sz i)
        (stackBase (s.proc p).sz i + 2 * pgSize) avail = .remap
  | .sbrk p n avail => s.calls p ∧ ∃ o d, 0 < n ∧ s.owner p = some o ∧ (s.proc p).pgdir = some d ∧
      allocuvm (s.pages d) (s.proc o).sz (newSize (s.proc o).sz n) avail = .remap
  | _ => False

/-- Is the action a round of the loop of `exit`? It is never quiet: it may let its caller out. -/
def Act.scans : Act → Bool
  | .exitScan _ => true
  | _ => false

/-- What an action of `s` can do. -/
inductive Effect (s : Table) : Act → Table → Prop
  | quiet {a : Act} {t : Table} (ha : a.scans = false) (h : Quiet s t) : Effect s a t
  | stop {a : Act} (ha : a.scans = false) (msg : String) (h : msg = "remap" → Remaps s a) :
      Effect s a (s.panic msg)
  | fork {p q : ProcId} {d : Nat} (hp : s.calls p) (hq : ¬ (s.proc q).Used)
      (hd : (s.proc p).pgdir = some d) :
      Effect s (.fork p .enough)
        { s with
          proc := Function.update s.proc q (s.child p q), nextpid := s.nextpid + 1
          nextlwpid := if 0 < (s.proc p).lwpid then s.nextlwpid + 1 else s.nextlwpid
          nextdir := s.nextdir + 1
          pages := Function.update s.pages s.nextdir (copyuvm (s.pages d) (s.proc p).sz) }
  | exec {p : ProcId} {d sz : Nat} (hp : s.calls p) (hd : (s.proc p).pgdir = some d) :
      Effect s (.exec p (.done sz))
        { s with
          proc := Function.update s.proc p { s.proc p with pgdir := some s.nextdir, sz := sz }
          nextdir := s.nextdir + 1
          pages := Function.update
            (Function.update s.pages s.nextdir fun i => decide (i < pgUp sz)) d fun _ => false
          freed := d :: s.freed }
  | create {p q : ProcId} {stack : Bool} {avail i d sz : Nat} {pg : Pages} (hp : s.calls p)
      (hq : ¬ (s.proc q).Used) (hd : (s.proc p).pgdir = some d) (hi : s.freeBase = some i)
      (hpg : allocuvm (s.pages d) (stackBase (s.proc p).sz i)
        (stackBase (s.proc p).sz i + 2 * pgSize) avail = .size sz pg) :
      Effect s (.threadCreate p stack avail) (s.withLwp q (s.lwp p q i sz .runnable) i d pg)
  | createFail {p q : ProcId} {stack : Bool} {avail i d : Nat} {pg : Pages} (hp : s.calls p)
      (hq : ¬ (s.proc q).Used) (hd : (s.proc p).pgdir = some d) (hi : s.freeBase = some i)
      (hpg : allocuvm (s.pages d) (stackBase (s.proc p).sz i)
        (stackBase (s.proc p).sz i + 2 * pgSize) avail = .failed pg) :
      Effect s (.threadCreate p stack avail)
        { s.withLwp q (s.lwp p q i 0 .unused) i d pg with locked := true }
  | threadExit {p : ProcId} {retval : Nat} {f : ProcId → Proc} (hp : s.calls p)
      (hf : ∀ q, Kept (s.proc q) (f q)) :
      Effect s (.threadExit p retval)
        { s with
          proc := Function.update f p
            { f p with retval := retval, state := .zombie, cont := .threadExited }
          numLwp := s.numLwp - 1 }
  | exitScan {p : ProcId} {f : ProcId → Proc} {pg : Nat → Pages} (hp : s.stands p .exitLoop)
      (hz : ∀ q ∈ s.ownZombies p, ¬ (f q).Used)
      (hk : ∀ q ∉ s.ownZombies p, q ≠ p → Kept (s.proc q) (f q))
      (hkp : Keeps (s.proc p) (f p)) (hl : SameLayout (s.proc p) (f p))
      (hc : (f p).cont = .exitTail ↔ s.numLwp - (s.ownZombies p).card = 0)
      (hpg : ∀ d i, pg d i = true → s.pages d i = true)
      (hun : ∀ q ∈ s.ownZombies p, (s.proc q).StackUnmapped pg) :
      Effect s (.exitScan p)
        { s with proc := f, numLwp := s.numLwp - (s.ownZombies p).card, pages := pg }
  | wait {p q : ProcId} {d : Nat} {f : ProcId → Proc} (hfind : s.waitFinds p = some q)
      (hz : (s.proc q).state = .zombie) (hd : (s.proc q).pgdir = some d) (hq : ¬ (f q).Used)
      (hf : ∀ r, r ≠ q → Kept (s.proc r) (f r)) :
      Effect s (.wait p)
        { s with proc := f, pages := Function.update s.pages d fun _ => false
                 freed := d :: s.freed }
  | join {p q : ProcId} {thread : Nat} {f : ProcId → Proc} {pg : Nat → Pages}
      (hp : (s.proc p).Used) (hfind : s.joinFinds p thread = some q) (hl : (s.proc p).lwpid = 0)
      (hown : s.OwnZombie (s.proc p).pid q) (hq : ¬ (f q).Used)
      (hf : ∀ r, r ≠ q → Kept (s.proc r) (f r))
      (hpg : ∀ d i, pg d i = true → s.pages d i = true) (hun : (s.proc q).StackUnmapped pg) :
      Effect s (.threadJoin p thread)
        { s with proc := f, use := Function.update s.use (s.proc q).snum false, pages := pg }
  | grow {p o : ProcId} {n : Int} {avail d j sz : Nat} {u : Nat → Bool} {pg : Pages} {lk : Bool}
      (hp : s.calls p) (hn : n ≠ 0) (ho : s.owner p = some o) (hd : (s.proc p).pgdir = some d)
      (hu : ∀ i, s.use i = true → u i = true)
      (hpg : (∀ i, s.pages d i = true → i < pgUp (s.proc o).sz) → ∀ i, pg i = true → i < pgUp sz) :
      Effect s (.sbrk p n avail)
        { s with
          proc := s.grownProc p o j sz, use := u
          pages := Function.update s.pages d pg, locked := lk }

variable {stack : Bool} {avail i j sz : Nat} {n : Int} {pg pg' : Pages} {o : ProcId}

section

variable {s t : Table} {p q : ProcId}

/-! ### Filling a slot -/

lemma allocproc_none (h : s.allocproc stack = (none, t)) : Quiet s t := by
  unfold Table.allocproc at h
  split at h
  · cases h
    exact (SlotsKept.refl _).quiet
  · rename_i q hfind
    have hq : (s.proc q).state = .unused := by simpa using findSlot_some hfind
    split at h
    · cases h
    · cases h
      refine ⟨fun r => ?_, rfl, Nat.le_succ _, le_refl _, rfl, fun _ _ => rfl, .inl ⟨rfl, rfl⟩, rfl⟩
      by_cases hr : r = q
      · rw [hr]
        exact .of_unused (by simp [Proc.Used, hq]) (by simp [Table.modify, Proc.Used])
      · simp only [Table.modify, embryo, update_of_ne hr]
        exact .refl _

lemma allocproc_some (h : s.allocproc stack = (some q, t)) : ¬ (s.proc q).Used ∧ t = s.embryo q := by
  unfold Table.allocproc at h
  split at h
  · cases h
  · rename_i r hfind
    have hr : (s.proc r).state = .unused := by simpa using findSlot_some hfind
    split at h
    · obtain ⟨hq, ht⟩ := Prod.mk.inj h
      cases hq
      exact ⟨by simp [Proc.Used, hr], ht.symm⟩
    · cases h

lemma kept_of_unused {np : Proc} (hq : ¬ (s.proc q).Used) (hnp : ¬ np.Used) (r : ProcId) :
    Kept (s.proc r) (update s.proc q np r) := by
  by_cases hr : r = q
  · rw [hr, update_self]
    exact .of_unused hq hnp
  · rw [update_of_ne hr]
    exact .refl _

lemma fork_effect (hp : s.calls p) (mem : ForkMem) : Effect s (.fork p mem) (s.fork p mem) := by
  unfold Table.fork
  split
  · rename_i h
    exact .quiet rfl (allocproc_none h)
  · rename_i q s' h
    obtain ⟨hq, rfl⟩ := allocproc_some h
    -- the slot before any memory is asked for
    let l := (s.proc p).lwpid
    let np : Proc := { (s.embryo q).proc q with
      lwpid := if 0 < l then s.nextlwpid else 0, forked := decide (0 < l) }
    have hslot : (if 0 < l then
          { (s.embryo q).modify q fun np =>
              { np with forked := true, lwpid := (s.embryo q).nextlwpid }
            with nextlwpid := (s.embryo q).nextlwpid + 1 }
        else s.embryo q) =
        { s with proc := update s.proc q np, nextpid := s.nextpid + 1
                 nextlwpid := if 0 < l then s.nextlwpid + 1 else s.nextlwpid } := by
      by_cases hl : 0 < l <;>
        simp [hl, np, embryo, Table.modify, update_idem]
    have hle : s.nextlwpid ≤ if 0 < l then s.nextlwpid + 1 else s.nextlwpid := by
      split <;> omega
    simp only [l] at hslot hle
    simp only [hslot]
    split
    · rename_i d hd
      have := Effect.fork hp hq hd
      simpa [Table.modify, setPages, update_idem, np, l, embryo, child] using this
    · exact .stop rfl _ (by simp)
    · refine .quiet rfl ⟨?_, rfl, Nat.le_succ _, hle, rfl, ?_, .inr ⟨rfl, rfl⟩, rfl⟩
      · simp only [Table.modify, freevm, setPages, update_idem]
        exact kept_of_unused hq (by simp [Proc.Used])
      · intro d hd
        simp [Table.modify, freevm, setPages, update_of_ne hd.ne]
    · refine .quiet rfl ⟨?_, rfl, Nat.le_succ _, hle, rfl, fun _ _ => rfl, .inl ⟨rfl, rfl⟩, rfl⟩
      simp only [Table.modify, update_idem]
      exact kept_of_unused hq (by simp [Proc.Used])

lemma exec_effect (hp : s.calls p) (how : ExecEnd) : Effect s (.exec p how) (s.exec p how) := by
  cases how with
  | early => exact .quiet rfl (SlotsKept.refl s).quiet
  | bad =>
    refine .quiet rfl ⟨fun _ => .refl _, rfl, le_refl _, le_refl _, rfl, ?_, .inr ⟨rfl, rfl⟩, rfl⟩
    intro d hd
    simp [Table.exec, freevm, setPages, update_of_ne hd.ne]
  | done sz =>
    unfold Table.exec
    simp only
    split
    · rename_i d hd
      exact .exec hp hd
    · exact .stop rfl _ nofun

lemma freeBase_unused (h : s.freeBase = some i) : s.use i = false := by
  simpa using List.find?_some h

lemma freeBase_congr (h : t.use = s.use) : t.freeBase = s.freeBase := by
  unfold Table.freeBase
  rw [h]

lemma getBase_some (h : s.getBase q = some (i, t)) :
    s.freeBase = some i ∧ t = { s.modify q (fun pr => { pr with snum := i })
      with use := update s.use i true } := by
  unfold Table.getBase at h
  split at h
  · cases h
  · rename_i j hfind
    obtain ⟨rfl, rfl⟩ := Prod.mk.inj (Option.some.inj h)
    exact ⟨hfind, rfl⟩

lemma getBase_none (h : s.getBase q = none) : s.freeBase = none := by
  unfold Table.getBase at h
  cases hi : s.freeBase with
  | none => rfl
  | some i => rw [hi] at h; exact absurd h (by simp)

/-- How `thread_create` ends. -/
inductive Created (s : Table) (p : ProcId) (stack : Bool) (avail : Nat) : Table → Prop
  | noSlot {t : Table} (h : s.allocproc stack = (none, t)) : Created s p stack avail t
  | done {q : ProcId} {i d sz : Nat} {pg : Pages} (hq : s.allocproc stack = (some q, s.embryo q))
      (hi : s.freeBase = some i) (hd : (s.proc p).pgdir = some d)
      (hpg : allocuvm (s.pages d) (stackBase (s.proc p).sz i)
        (stackBase (s.proc p).sz i + 2 * pgSize) avail = .size sz pg) :
      Created s p stack avail (s.withLwp q (s.lwp p q i sz .runnable) i d pg)
  | failed {q : ProcId} {i d : Nat} {pg : Pages} (hq : s.allocproc stack = (some q, s.embryo q))
      (hi : s.freeBase = some i) (hd : (s.proc p).pgdir = some d)
      (hpg : allocuvm (s.pages d) (stackBase (s.proc p).sz i)
        (stackBase (s.proc p).sz i + 2 * pgSize) avail = .failed pg) :
      Created s p stack avail { s.withLwp q (s.lwp p q i 0 .unused) i d pg with locked := true }
  | remap {q : ProcId} {i d : Nat} (hq : s.allocproc stack = (some q, s.embryo q))
      (hi : s.freeBase = some i) (hd : (s.proc p).pgdir = some d)
      (hpg : allocuvm (s.pages d) (stackBase (s.proc p).sz i)
        (stackBase (s.proc p).sz i + 2 * pgSize) avail = .remap) :
      Created s p stack avail (s.panic "remap")
  | noBase {q : ProcId} (hq : s.allocproc stack = (some q, s.embryo q)) (hi : s.freeBase = none) :
      Created s p stack avail (s.panic "get_base() panic")
  | noDir {q : ProcId} (hq : s.allocproc stack = (some q, s.embryo q))
      (hd : (s.proc p).pgdir = none) : Created s p stack avail (s.panic "trap")

lemma threadCreate_cases (s : Table) (p : ProcId) (stack : Bool) (avail : Nat) :
    Created s p stack avail (s.threadCreate p stack avail) := by
  unfold Table.threadCreate
  split
  · rename_i h
    exact .noSlot h
  · rename_i q s' h
    obtain ⟨-, rfl⟩ := allocproc_some h
    generalize hfill : fillLwp _ p (s.proc p) q avail = r
    unfold fillLwp at hfill
    dsimp only at hfill
    split at hfill
    · rename_i i s' d hbase hd
      obtain ⟨hi, rfl⟩ := getBase_some hbase
      have hi' : s.freeBase = some i := by
        rw [← hi]
        exact (freeBase_congr rfl).symm
      split at hfill <;> subst hfill
      · rename_i sz pg hpg
        have : Created s p stack avail _ := .done h hi' hd hpg
        simpa [Table.modify, setPages, update_idem, embryo, withLwp, lwp] using this
      · rename_i pg hpg
        have : Created s p stack avail _ := .failed h hi' hd hpg
        simpa [Table.modify, setPages, update_idem, embryo, withLwp, lwp] using this
      · rename_i hpg
        exact .remap h hi' hd hpg
    · rename_i hbase
      subst hfill
      refine .noBase h ?_
      rw [← getBase_none hbase]
      exact (freeBase_congr rfl).symm
    · rename_i hd _
      subst hfill
      exact .noDir h hd

lemma threadCreate_effect (hp : s.calls p) (stack : Bool) (avail : Nat) :
    Effect s (.threadCreate p stack avail) (s.threadCreate p stack avail) := by
  have hcases := threadCreate_cases s p stack avail
  generalize s.threadCreate p stack avail = t at hcases ⊢
  cases hcases with
  | noSlot h => exact .quiet rfl (allocproc_none h)
  | done hq hi hd hpg => exact .create hp (allocproc_some hq).1 hd hi hpg
  | failed hq hi hd hpg => exact .createFail hp (allocproc_some hq).1 hd hi hpg
  | remap _ hi hd hpg => exact .stop rfl _ fun _ => ⟨hp, _, _, hi, hd, hpg⟩
  | noBase | noDir => exact .stop rfl _ nofun

/-! ### Emptying a slot -/

lemma threadExit_effect (hp : s.calls p) (retval : Nat) :
    Effect s (.threadExit p retval) (s.threadExit p retval) := by
  unfold Table.threadExit
  split
  · exact .stop rfl _ nofun
  · obtain ⟨f, hf, hk⟩ := SlotsKept.wakeParent s p
    rw [hf]
    exact .threadExit hp hk

lemma exitScan_effect (hp : s.stands p .exitLoop) : Effect s (.exitScan p) (s.exitScan p) := by
  have hscan := foldl_scanned (s.proc p).pid _ (List.nodup_finRange nProc) s
  unfold Table.exitScan
  obtain ⟨f, n, pg, he⟩ := hscan.rest
  rw [he] at hscan ⊢
  have hn : n = s.numLwp - (s.ownZombies p).card := by
    rw [← length_ownZombies]
    exact hscan.numLwp
  have hz : ∀ q ∈ s.ownZombies p, ¬ (f q).Used := fun q hq =>
    hscan.reaped q (List.mem_finRange q) (mem_ownZombies.mp hq)
  have hst : ∀ q ∉ s.ownZombies p, Stirred (s.proc q) (f q) := fun q hq =>
    hscan.stirred q fun _ h => hq (mem_ownZombies.mpr h)
  -- the manager itself runs, so the scan does not reap it
  have hpz : p ∉ s.ownZombies p := fun h => by
    have := (mem_ownZombies.mp h).2
    simp [hp.1] at this
  have hkp := (hst p hpz).kept
  have hpu : (f p).Used := hkp.keeps.1.mpr (used_of_stands hp)
  have hcont : (f p).cont = .exitLoop := (hst p hpz).cont.trans hp.2
  have hnz : ∀ {st}, (f p).state = .zombie → st = ProcState.zombie := fun h => by
    rw [(hst p hpz).zombie, hp.1] at h
    cases h
  -- what the end of the round makes of the manager
  have fin : ∀ np : Proc, np.Used → Same (f p) np → SameLayout (f p) np →
      (np.cont = .exitTail ↔ n = 0) →
      Effect s (.exitScan p)
        { s with proc := update f p np, numLwp := n, pages := pg } := by
    intro np hu hs hl hc
    subst hn
    refine .exitScan hp (fun q hq => ?_) (fun q hq hne => ?_) ?_ ?_ ?_ hscan.pages fun q hq =>
      hscan.unmapped q (List.mem_finRange q) (mem_ownZombies.mp hq)
    · have hne : q ≠ p := fun h => hpz (h ▸ hq)
      rw [update_of_ne hne]
      exact hz q hq
    · rw [update_of_ne hne]
      exact (hst q hq).kept
    · rw [update_self]
      exact hkp.keeps.trans ⟨⟨fun _ => hpu, fun _ => hu⟩, fun _ => hs⟩
    · rw [update_self]
      exact (hkp.layout (used_of_stands hp)).trans hl
    · rw [update_self]
      exact hc
  simp only
  split
  · rename_i h0
    exact fin _ hpu ⟨rfl, rfl, rfl, rfl, rfl, by simp [hcont], id⟩ ⟨rfl, rfl, rfl⟩ (by simp [h0])
  · rename_i h0
    exact fin _ (by simp [Proc.Used]) ⟨rfl, rfl, rfl, rfl, rfl, by simp [hcont], hnz⟩
      ⟨rfl, rfl, rfl⟩ (by simp [h0])

lemma kept_reap {f : Proc → Proc} (hpq : q ≠ p)
    (he : (s.proc p).cont ≠ .threadExited) (hf : ∀ pr, ¬ (f pr).Used) :
    ¬ (((s.modify q f).ret p).proc q).Used ∧
      ∀ r ≠ q, Kept (s.proc r) (((s.modify q f).ret p).proc r) := by
  have hret : SlotsKept (s.modify q f) ((s.modify q f).ret p) := by
    refine .ret ?_
    rwa [modify_of_ne hpq.symm]
  obtain ⟨g, hg, hk⟩ := hret
  rw [hg]
  refine ⟨fun hu => ?_, fun r hr => ?_⟩
  · refine hf (s.proc q) ?_
    have := (hk q).keeps.1.mp hu
    rwa [modify_self] at this
  · have := hk r
    rwa [modify_of_ne hr] at this

lemma running_of_loop {c : Cont} (hp : s.calls p ∨ s.stands p c) (hc : c ≠ .threadExited) :
    (s.proc p).state = .running ∧ (s.proc p).cont ≠ .threadExited := by
  refine ⟨hp.elim (fun h => h.1.1) fun h => h.1, ?_⟩
  cases hp with
  | inl h => simp [h.1.2]
  | inr h => exact h.2 ▸ hc

lemma wait_effect (hp : s.calls p ∨ s.stands p .waitLoop) : Effect s (.wait p) (s.wait p) := by
  obtain ⟨hr, he⟩ := running_of_loop hp (by simp)
  unfold Table.wait
  split
  · rename_i q hfind
    obtain ⟨-, hz⟩ : (s.proc q).parent = some p ∧ (s.proc q).state = .zombie := by
      simpa using findSlot_some hfind
    have hpq : q ≠ p := fun h => by
      rw [h, hr] at hz
      cases hz
    split
    · rename_i d hd
      obtain ⟨hq, hk⟩ := kept_reap (s := s.freevm d) hpq he
        (f := fun pr => { pr with pid := 0, parent := none, killed := false, state := .unused })
        (by simp [Proc.Used])
      exact .wait hfind hz hd hq hk
    · exact .stop rfl _ (by simp)
  · split
    · exact .quiet rfl (SlotsKept.ret he).quiet
    · exact .quiet rfl (SlotsKept.sleep hr he (by simp) (by simp)).quiet

lemma threadJoin_effect {thread : Nat} (hp : s.calls p ∨ s.stands p (.joinLoop thread)) :
    Effect s (.threadJoin p thread) (s.threadJoin p thread) := by
  have hu : (s.proc p).Used := hp.elim used_of_calls used_of_stands
  obtain ⟨hr, he⟩ := running_of_loop hp nofun
  unfold Table.threadJoin
  split
  · exact .quiet rfl (SlotsKept.refl s).quiet
  rename_i hl
  unfold Table.joinScan
  split
  · rename_i q hfind
    obtain ⟨-, hown, hz⟩ : (s.proc q).lwpid = thread ∧ (s.proc q).lwppid = (s.proc p).pid ∧
        (s.proc q).state = .zombie := by
      simpa using findSlot_some hfind
    have hpq : q ≠ p := fun h => by
      rw [h, hr] at hz
      cases hz
    obtain ⟨pg, hd, hpg, hun⟩ := deallocStack_eq s q
    obtain ⟨hq, hk⟩ := kept_reap (s := s) hpq he (f := Proc.reaped)
      (by simp [Proc.Used, Proc.reaped])
    rw [hd]
    exact .join hu hfind (by simpa using hl) ⟨hown, hz⟩ hq hk hpg hun
  · split
    · exact .quiet rfl (SlotsKept.ret he).quiet
    · exact .quiet rfl (SlotsKept.sleep hr he (by simp) (by simp)).quiet

/-! ### Moving the heap -/

lemma getBases_some {k : Nat} (h : getBases p k s = some t) :
    ∃ j u, t = { s with proc := update s.proc p { s.proc p with snum := j }, use := u } ∧
      ∀ i, s.use i → u i := by
  induction k generalizing s with
  | zero =>
    obtain rfl := Option.some.inj h
    refine ⟨(s.proc p).snum, s.use, ?_, fun _ h => h⟩
    rw [Function.update_eq_self]
  | succ k ih =>
    obtain ⟨⟨i, s₁⟩, hbase, hrest⟩ := Option.bind_eq_some_iff.mp h
    obtain ⟨-, rfl⟩ := getBase_some hbase
    obtain ⟨j, u, rfl, hu⟩ := ih hrest
    refine ⟨j, u, ?_, fun l hl => hu l ?_⟩
    · simp [Table.modify, update_idem]
    · show update s.use i true l = true
      by_cases hli : l = i
      · rw [hli, update_self]
      · rwa [update_of_ne hli]

lemma grow_pages {sz' : Nat} (hn : n ≠ 0)
    (hr : (if 0 < n then allocuvm pg sz (newSize sz n) avail
      else if n < 0 then
        match deallocuvm pg sz (newSize sz n) with
        | (0, pg) => .failed pg
        | (sz, pg) => .size sz pg
      else .size sz pg) = .size sz' pg') (hheap : ∀ i, pg i → i < pgUp sz)
    (i : Nat) (hi : pg' i) : i < pgUp sz' := by
  split at hr
  · by_cases hle : sz ≤ newSize sz n
    · obtain ⟨rfl, -⟩ := allocuvm_size hle hr
      rcases allocuvm_size_sub hr hi with h | h
      · exact (hheap i h).trans_le (pgUp_mono hle)
      · exact h.2
    · -- `allocuvm` leaves a size alone that it is asked to shrink
      unfold allocuvm at hr
      rw [if_pos (show newSize sz n < sz by omega)] at hr
      split at hr
      · cases hr
      · cases hr
        exact hheap i hi
  · rw [if_pos (by omega)] at hr
    split at hr
    · cases hr
    · rename_i hd
      cases hr
      have hi' : (deallocuvm pg sz (newSize sz n)).2 i := by rwa [hd]
      have hold := hheap i (deallocuvm_sub hi')
      have hlt := deallocuvm_range hi' hold
      unfold deallocuvm at hd
      split at hd
      · cases hd
        exact hold
      · cases hd
        exact hlt

lemma grow_failed
    (hr : (if 0 < n then allocuvm pg sz (newSize sz n) avail
      else if n < 0 then
        match deallocuvm pg sz (newSize sz n) with
        | (0, pg) => .failed pg
        | (sz, pg) => .size sz pg
      else .size sz pg) = .failed pg') (hi : pg' i) : pg i := by
  split at hr
  · exact allocuvm_failed_sub hr hi
  split at hr
  · split at hr
    · rename_i hd
      cases hr
      exact deallocuvm_sub (show (deallocuvm pg sz (newSize sz n)).2 i = true by rwa [hd])
    · cases hr
  · cases hr

lemma grownProc_eq :
    update (update s.proc p { s.proc p with snum := j }) o
      { update s.proc p { s.proc p with snum := j } o with sz := sz } =
      s.grownProc p o j sz := by
  funext q
  by_cases ho : q = o
  · subst ho
    rw [update_self]
    by_cases hp : q = p
    · subst hp
      simp [Table.grownProc]
    · simp [Table.grownProc, hp]
  · rw [update_of_ne ho]
    by_cases hp : q = p
    · subst hp
      simp [Table.grownProc, ho]
    · simp [Table.grownProc, hp, ho]

lemma grownProc_sz : update s.proc p { s.proc p with snum := j } = s.grownProc p o j (s.proc o).sz := by
  rw [← grownProc_eq, eq_comm, Function.update_eq_self_iff]
  by_cases h : o = p <;> simp [h]

lemma growproc_effect (hp : s.calls p) (n : Int) (avail : Nat) :
    Effect s (.sbrk p n avail) (s.growproc p n avail) := by
  by_cases hn : n = 0
  · -- nothing moves
    subst hn
    unfold Table.growproc
    split
    · rename_i s' o d hs _ _
      cases hs
      simp only [setPages, Function.update_eq_self, lt_irrefl, if_false]
      exact .quiet rfl (SlotsKept.quiet (.modify .mark))
    · exact .stop rfl _ nofun
    · exact .stop rfl _ nofun
  · unfold Table.growproc
    split
    · rename_i s' o d hs ho hd
      obtain ⟨j, u, rfl, hu⟩ := getBases_some hs
      simp only [setPages, Table.modify]
      split
      · rename_i sz pg hr
        rw [grownProc_eq]
        exact .grow hp hn ho hd hu (grow_pages hn hr)
      · rename_i pg hr
        rw [grownProc_sz (o := o)]
        exact .grow hp hn ho hd hu fun hheap i hi => hheap i (grow_failed hr hi)
      · rename_i hr
        refine .stop rfl _ fun _ => ?_
        split at hr
        · exact ⟨hp, o, d, ‹_›, ho, hd, hr⟩
        · -- a shrinking `sbrk` maps nothing
          split at hr
          · split at hr <;> exact absurd hr (by simp)
          · cases hr
    · exact .stop rfl _ nofun
    · exact .stop rfl _ nofun

end

variable {P : Prop}

lemma of_guard [Decidable P] {α : Type*} {s t : α} (h : (if P then some s else none) = some t) : P ∧ s = t := by
  obtain ⟨hP, h⟩ := Option.ite_none_right_eq_some.mp h
  exact ⟨hP, Option.some.inj h⟩

/-- The form that `Table.step` has for each action but `sched`. -/
lemma of_step {Q : Prop} [Decidable P] [Decidable Q] {α : Type*} {s t : α}
    (h : (if P then none else if Q then some s else none) = some t) : ¬ P ∧ Q ∧ s = t := by
  obtain ⟨hP, h⟩ := Option.ite_none_left_eq_some.mp h
  exact ⟨hP, of_guard h⟩

variable {s t : Table} {a : Act}

lemma step_effect (h : s.step a = some t) : Effect s a t := by
  unfold Table.step at h
  split at h
  · cases h
  cases a with
  | sched p st => exact .quiet rfl (sched_quiet h)
  | fork p mem =>
    obtain ⟨hp, rfl⟩ := of_guard h
    exact fork_effect hp mem
  | exec p how =>
    obtain ⟨hp, rfl⟩ := of_guard h
    exact exec_effect hp.1 how
  | exit p =>
    obtain ⟨hp, rfl⟩ := of_guard h
    by_cases hi : p = initproc
    · rw [Table.exit, if_pos hi]
      exact .stop rfl _ nofun
    · exact .quiet rfl (exit_quiet hp hi)
  | exitScan p =>
    obtain ⟨hp, rfl⟩ := of_guard h
    exact exitScan_effect hp
  | exitEnd p =>
    obtain ⟨hp, rfl⟩ := of_guard h
    exact .quiet rfl (exitEnd_quiet hp)
  | wait p =>
    obtain ⟨hp, rfl⟩ := of_guard h
    exact wait_effect hp
  | kill p pid =>
    obtain ⟨hp, rfl⟩ := of_guard h
    exact .quiet rfl (kill_quiet pid)
  | threadCreate p stack avail =>
    obtain ⟨hp, rfl⟩ := of_guard h
    exact threadCreate_effect hp stack avail
  | threadExit p retval =>
    obtain ⟨hp, rfl⟩ := of_guard h
    exact threadExit_effect hp retval
  | threadJoin p thread =>
    obtain ⟨hp, rfl⟩ := of_guard h
    exact threadJoin_effect hp
  | sbrk p n avail =>
    obtain ⟨hp, rfl⟩ := of_guard h
    exact growproc_effect hp n avail

lemma running_of_step (h : s.step a = some t) : s.stopped = none := by
  unfold Table.step at h
  split at h
  · cases h
  · rename_i hg
    simpa using fun hs => hg (.inl hs)

lemma remaps_of_stop (h : s.step a = some t) (hstop : t.stopped = some "remap") : Remaps s a := by
  have hrun := running_of_step h
  have hne : s.stopped ≠ some "remap" := by simp [hrun]
  cases step_effect h with
  | quiet _ hq => exact absurd (hq.stopped ▸ hstop) hne
  | stop _ msg hmsg => exact hmsg (Option.some.inj hstop)
  | _ => exact absurd hstop hne

end Xv6.Process
