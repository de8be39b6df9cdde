import Xv6.Fs.Layout
import Xv6.Lib.Ledger
import Xv6.Lib.Run

/-!
# Dropping the last reference to an inode

`iput` tests under the inode's sleep lock whether the inode has lost its last name and the caller
holds the last reference, and frees it if so; it then gives the sleep lock back and only afterwards,
under `icache.lock`, decrements the reference count. Here are these sections as steps, for one cached
inode and any set of processes, together with `iget`, `idup`, `ilock` and the decrement of `nlink` in
`sys_unlink`.

What the test reads is out of date as soon as another process is on its way from its own test to its
decrement: two such processes each see the other's reference, and nobody frees the inode
(`both_iputs_see_two`). It is also out of date when `iget`, which takes only `icache.lock`, comes before
the freeing; an inode without links can still be found, through `..` of a removed directory that is open
(`iget_before_free`). Without such overlaps the last reference frees the inode, once
(`last_iput_frees`). The run of an inode ends where `ialloc` gives its number to a new one.
-/

namespace Xv6.Fs.Iput

open Function (update)

open Lib

/-- A copy of the inode, in memory or on the disk; `blocks` are the blocks that `itrunc` frees. -/
structure Copy where
  type : Int16
  nlink : Nat
  blocks : List Nat
  deriving DecidableEq, Repr

/-- Where a process is in `iput`. -/
inductive Phase
  | outside
  /-- after the test, with the sleep lock, about to free the inode -/
  | freeing
  /-- after the sleep lock was released, before the decrement -/
  | dropping
  deriving DecidableEq, Repr

/-- The cache entry of one inode, the inode on the disk, and where the processes are. -/
structure State (P : Type*) where
  ref : Nat
  valid : Bool
  cached : Copy
  disk : Copy
  /-- the holder of the sleep lock -/
  lock : Option P
  phase : P → Phase
  /-- how many references each process has -/
  held : P → Nat
  /-- the blocks that were freed, and how often the inode itself was -/
  freedBlocks : List Nat
  freed : Nat

inductive Act (P : Type*)
  | iget (p : P)
  | idup (p : P)
  | ilock (p : P)
  | unlink (p : P)
  | test (p : P)
  | free (p : P)
  | drop (p : P)
  deriving DecidableEq, Repr

variable {P : Type*} [DecidableEq P]

namespace State

variable (s : State P)

/-- `iget` -/
def iget (p : P) : State P :=
  { s with
    ref := if 0 < s.ref then s.ref + 1 else 1
    valid := decide (0 < s.ref) && s.valid
    held := Function.update s.held p (s.held p + 1) }

/-- `idup` -/
def idup (p : P) : State P :=
  { s with ref := s.ref + 1, held := Function.update s.held p (s.held p + 1) }

/-- `ilock`: the copy is read if there is none; `none` is its panic. The lock is given back when the
section ends. -/
def ilock : Option (State P) :=
  if s.valid then some s
  else if s.disk.type = 0 then none
  else some { s with valid := true, cached := s.disk }

/-- `ip->nlink--; iupdate(ip)` of `sys_unlink`, which panics at `nlink < 1`. -/
def decrement : Option (State P) :=
  if s.cached.nlink < 1 then none
  else
    let c := { s.cached with nlink := s.cached.nlink - 1 }
    some { s with cached := c, disk := c }

/-- The test of `iput`. -/
def test (p : P) : State P :=
  if s.valid ∧ s.cached.nlink = 0 ∧ s.ref = 1 then
    { s with lock := some p, phase := Function.update s.phase p .freeing }
  else { s with phase := Function.update s.phase p .dropping }

/-- `itrunc(ip); ip->type = 0; iupdate(ip); ip->valid = 0`, and the release of the sleep lock. -/
def free (p : P) : State P :=
  let c := { s.cached with type := 0, blocks := [] }
  { s with
    freedBlocks := s.freedBlocks ++ s.cached.blocks
    freed := s.freed + 1
    cached := c, disk := c, valid := false, lock := none
    phase := Function.update s.phase p .dropping }

/-- `ip->ref--` -/
def drop (p : P) : State P :=
  { s with
    ref := s.ref - 1
    held := Function.update s.held p (s.held p - 1)
    phase := Function.update s.phase p .outside }

/-- The process has a reference and is not in `iput`. -/
def Has (p : P) : Prop := s.phase p = .outside ∧ 0 < s.held p

instance (p : P) : Decidable (s.Has p) := inferInstanceAs (Decidable (_ ∧ _))

/-- One section. `iget` needs no link: `..` of a removed directory names its parent for ever. -/
def step : Act P → Option (State P)
  | .iget p => if s.phase p = .outside then some (s.iget p) else none
  | .idup p => if s.Has p then some (s.idup p) else none
  | .ilock p => if s.Has p ∧ s.lock = none then s.ilock else none
  | .unlink p => if s.Has p ∧ s.lock = none then s.ilock.bind decrement else none
  | .test p => if s.Has p ∧ s.lock = none then some (s.test p) else none
  | .free p => if s.phase p = .freeing then some (s.free p) else none
  | .drop p => if s.phase p = .dropping then some (s.drop p) else none

/-- An inode with `n` links and the given blocks, nowhere in memory. -/
def onDisk (type : Int16) (n : Nat) (blocks : List Nat) : State P where
  ref := 0
  valid := false
  cached := ⟨0, 0, []⟩
  disk := ⟨type, n, blocks⟩
  lock := none
  phase _ := .outside
  held _ := 0
  freedBlocks := []
  freed := 0

/-- The test of an inode without links is made while no other process is between its test and its
decrement, and no `iget` comes between a test that found the last reference and the freeing. -/
def LoneTest : Act P → Prop
  | .test p => s.disk.nlink = 0 → ∀ q, q ≠ p → s.phase q ≠ .dropping
  | .iget _ => ∀ q, s.phase q ≠ .freeing
  | _ => True

instance [Fintype P] : DecidablePred s.LoneTest := by
  intro a
  unfold LoneTest
  split <;> infer_instance

end State

/-! ### The invariant -/

section

variable [Fintype P] {s t : State P} {p : P}

/-- How many references are about to be dropped. -/
def drops (phase : P → Phase) : Nat := ∑ p, if phase p = .dropping then 1 else 0

/-- What holds in every state, for an inode that had the given blocks. -/
structure Inv (blocks : List Nat) (s : State P) : Prop where
  ref : s.ref = ∑ p, s.held p
  holds : ∀ p, s.phase p ≠ .outside → 0 < s.held p
  lock : ∀ p, s.phase p = .freeing ↔ s.lock = some p
  cached : s.valid = true → s.cached = s.disk
  /-- a freed inode has no links and no valid copy, so that nobody frees it again -/
  after : s.freed = 1 ∧ s.freedBlocks = blocks ∧ s.disk = ⟨0, 0, []⟩ ∧ s.valid = false ∨
    s.freed = 0 ∧ s.freedBlocks = [] ∧ s.disk.type ≠ 0 ∧ s.disk.blocks = blocks
  freeing : ∀ p, s.phase p = .freeing → s.ref = 1 ∧ s.valid = true ∧ s.disk.nlink = 0
  /-- a reference that is not about to be dropped takes care of an inode without links -/
  pending : s.freed = 0 → s.disk.nlink = 0 → s.valid = true ∧ drops s.phase < s.ref

lemma drops_update (phase : P → Phase) (p : P) (f : Phase) :
    drops (update phase p f) + (if phase p = .dropping then 1 else 0) =
      drops phase + if f = .dropping then 1 else 0 := by
  have := sum_add_of_ne (p := p) (f := fun q => if phase q = .dropping then 1 else 0)
    (g := fun q => if update phase p f q = .dropping then 1 else 0)
    fun q hq => by simp [hq]
  simpa only [drops, Function.update_self] using this

lemma sum_held_update {n : Nat} : ∑ q, update s.held p n q + s.held p = ∑ q, s.held q + n := by
  have := sum_add_of_ne (p := p) (f := s.held) (g := update s.held p n)
    fun q hq => by simp [hq]
  simpa using this

namespace Inv

variable {blocks : List Nat}

section

variable (hi : Inv blocks s)
include hi

omit [DecidableEq P] in
lemma drops_lt (hp : 0 < s.held p) (hout : s.phase p ≠ .dropping) : drops s.phase < s.ref := by
  rw [hi.ref]
  refine Finset.sum_lt_sum (fun q _ => ?_) ⟨p, Finset.mem_univ p, by simpa [hout] using hp⟩
  split
  · exact hi.holds q (by simp [*])
  · exact zero_le

omit [DecidableEq P] in
lemma held_le (p : P) : s.held p ≤ s.ref :=
  hi.ref ▸ Finset.single_le_sum (fun _ _ => zero_le) (Finset.mem_univ p)

omit [DecidableEq P] in
/-- The last reference is held by one process. -/
lemma alone (h1 : s.ref = 1) (hp : 0 < s.held p) {q : P} (hq : q ≠ p) : s.held q = 0 := by
  have := Finset.add_le_sum (f := s.held) (fun _ _ => zero_le) (Finset.mem_univ p)
    (Finset.mem_univ q) hq.symm
  rw [← hi.ref, h1] at this
  omega

omit [DecidableEq P] in
lemma not_freeing (hp : 0 < s.held p) (hout : s.phase p ≠ .freeing) (q : P) : s.phase q ≠ .freeing := by
  intro hq
  have hqp : p ≠ q := fun h => hout (h ▸ hq)
  have hheld := hi.holds q (by simp [hq])
  have := hi.alone (hi.freeing q hq).1 hheld hqp
  omega

/-- One more reference, for a process outside `iput`. -/
lemma hold (hf : ∀ q, s.phase q ≠ .freeing) {v : Bool}
    (hv : v → s.valid) (hv' : s.disk.nlink = 0 → s.valid → v) :
    Inv blocks { s with ref := s.ref + 1, valid := v,
                        held := update s.held p (s.held p + 1) } where
  ref := by
    have := sum_held_update (s := s) (p := p) (n := s.held p + 1)
    have := hi.ref
    show s.ref + 1 = ∑ q, update s.held p (s.held p + 1) q
    omega
  holds q hq := by
    have := hi.holds q hq
    by_cases h : q = p
    · subst h
      simp
    · simpa [h] using this
  lock := hi.lock
  cached h := hi.cached (hv h)
  after := by
    refine hi.after.imp (fun h => ⟨h.1, h.2.1, h.2.2.1, ?_⟩) id
    have := h.2.2.2
    show v = false
    cases v <;> simp_all
  freeing q hq := absurd hq (hf q)
  pending h0 hn := by
    have := hi.pending h0 hn
    exact ⟨hv' hn this.1, Nat.lt_succ_of_lt this.2⟩

lemma iget (hf : ∀ q, s.phase q ≠ .freeing) : Inv blocks (s.iget p) := by
  have hst : s.iget p = { s with ref := s.ref + 1, valid := decide (0 < s.ref) && s.valid,
                                 held := update s.held p (s.held p + 1) } := by
    unfold State.iget
    congr 1
    split <;> omega
  rw [hst]
  refine hi.hold hf (by simp) fun hn hv => ?_
  -- a valid copy without links has not been freed, and a reference takes care of it
  have ha := hi.after.resolve_left fun ha => by simp [hv] at ha
  have := (hi.pending ha.1 hn).2
  simp [hv]
  omega

lemma idup (hp : s.Has p) : Inv blocks (s.idup p) :=
  hi.hold (hi.not_freeing hp.2 (by simp [hp.1])) id fun _ => id

omit [DecidableEq P] in
lemma ilock (hp : s.Has p) (h : s.ilock = some t) :
    Inv blocks t ∧ t.valid ∧ t.phase = s.phase ∧ t.held = s.held ∧ t.freed = 0 := by
  unfold State.ilock at h
  split at h
  · cases h
    refine ⟨hi, ‹_›, rfl, rfl, ?_⟩
    rcases hi.after with ha | ha
    · exact absurd ha.2.2.2 (by simp [*])
    · exact ha.1
  · split at h
    · cases h
    cases h
    have ha := hi.after.resolve_left fun ha => ‹s.disk.type ≠ 0› (by simp [ha.2.2.1])
    exact ⟨{ hi with
      cached := fun _ => rfl
      after := .inr ha
      freeing := fun q hq => absurd hq (hi.not_freeing hp.2 (by simp [hp.1]) q)
      pending := fun h0 hn => ⟨rfl, (hi.pending h0 hn).2⟩ }, rfl, rfl, rfl, ha.1⟩

omit [DecidableEq P] in
lemma decrement (hp : s.Has p) (hv : s.valid) (h0 : s.freed = 0) (h : s.decrement = some t) : Inv blocks t := by
  unfold State.decrement at h
  split at h
  · cases h
  cases h
  have ha := hi.after.resolve_left fun ha => by simp [h0] at ha
  exact { hi with
    cached := fun _ => rfl
    after := .inr ⟨ha.1, ha.2.1, hi.cached hv ▸ ha.2.2.1, hi.cached hv ▸ ha.2.2.2⟩
    freeing := fun q hq => absurd hq (hi.not_freeing hp.2 (by simp [hp.1]) q)
    pending := fun _ _ => ⟨hv, hi.drops_lt hp.2 (by simp [hp.1])⟩ }

lemma test (hp : s.Has p) (hc : s.LoneTest (.test p)) : Inv blocks (s.test p) := by
  have hnf := hi.not_freeing hp.2 (by simp [hp.1])
  have hl : ∀ q, s.lock ≠ some q := fun q hq => hnf q ((hi.lock q).mpr hq)
  have hholds : ∀ f q, update s.phase p f q ≠ .outside → 0 < s.held q := fun f q hq => by
    by_cases h : q = p
    · exact h ▸ hp.2
    · exact hi.holds q (by simpa [h] using hq)
  unfold State.test
  split
  · rename_i h
    refine { hi with holds := hholds _, lock := fun q => ?_, freeing := fun q _ => ?_
                     pending := fun h0 hn => ?_ }
    · by_cases h : q = p
      · simp [h]
      · simp [h, hnf q, Ne.symm h]
    · exact ⟨h.2.2, h.1, hi.cached h.1 ▸ h.2.1⟩
    · have := drops_update s.phase p .freeing
      simp [hp.1] at this
      exact ⟨h.1, this.trans_lt (hi.pending h0 hn).2⟩
  · rename_i h
    refine { hi with holds := hholds _, lock := fun q => ?_, freeing := fun q hq => ?_
                     pending := fun h0 hn => ?_ }
    · by_cases h : q = p
      · simp [h, hl]
      · simp [h, hl q, hnf q]
    · by_cases h : q = p
      · simp [h] at hq
      · exact absurd (by simpa [h] using hq) (hnf q)
    · -- nobody else is about to drop a reference, and there is another one
      obtain ⟨hv, -⟩ := hi.pending h0 hn
      have hone : s.ref ≠ 1 := fun h1 => h ⟨hv, hi.cached hv ▸ hn, h1⟩
      have hnone : drops s.phase = 0 := Finset.sum_eq_zero fun q _ => by
        by_cases hq : q = p
        · simp [hq, hp.1]
        · simp [hc hn q hq]
      have hdrops := drops_update s.phase p .dropping
      have := hi.held_le p
      have := hp.2
      simp only [hp.1, hnone] at hdrops
      refine ⟨hv, ?_⟩
      show drops (update s.phase p .dropping) < s.ref
      simp at hdrops
      omega

lemma free (hp : s.phase p = .freeing) : Inv blocks (s.free p) := by
  obtain ⟨h1, hv, hn⟩ := hi.freeing p hp
  have hheld := hi.holds p (by simp [hp])
  have hother : ∀ q ≠ p, s.phase q ≠ .freeing := fun q hq hf => by
    have := hi.holds q (by simp [hf])
    have := hi.alone h1 hheld hq
    omega
  have ha := hi.after.resolve_left fun ha => by simp [hv] at ha
  have hnf : ∀ q, update s.phase p .dropping q ≠ .freeing := fun q => by
    by_cases h : q = p
    · simp [h]
    · simpa [h] using hother q h
  refine { hi with holds := fun q hq => ?_, lock := fun q => ?_, cached := by simp [State.free]
                   after := .inl ?_, freeing := fun q hq => absurd hq (hnf q)
                   pending := by simp [State.free] }
  · by_cases h : q = p
    · exact h ▸ hheld
    · exact hi.holds q (by simpa [State.free, h] using hq)
  · simpa [State.free] using hnf q
  · simp [State.free, ha, hi.cached hv, hn]

lemma drop (hp : s.phase p = .dropping) : Inv blocks (s.drop p) := by
  have hheld := hi.holds p (by simp [hp])
  have hle := hi.held_le p
  have hnf := hi.not_freeing hheld (by simp [hp])
  have hphase : ∀ q, (s.drop p).phase q ≠ .outside → q ≠ p ∧ s.phase q ≠ .outside := fun q hq => by
    by_cases h : q = p
    · simp [State.drop, h] at hq
    · exact ⟨h, by simpa [State.drop, h] using hq⟩
  refine { hi with ref := ?_, holds := fun q hq => ?_, lock := fun q => ?_
                   freeing := fun q hq => ?_, pending := fun h0 hn => ?_ }
  · have := sum_held_update (s := s) (p := p) (n := s.held p - 1)
    have := hi.ref
    show s.ref - 1 = ∑ q, update s.held p (s.held p - 1) q
    omega
  · obtain ⟨hqp, hq⟩ := hphase q hq
    simpa [State.drop, hqp] using hi.holds q hq
  · have := hi.lock q
    by_cases h : q = p
    · subst h
      simpa [State.drop, hp] using this
    · simpa [State.drop, h] using this
  · obtain ⟨hqp, -⟩ := hphase q (by simp [hq])
    exact absurd (by simpa [State.drop, hqp] using hq) (hnf q)
  · have := hi.pending h0 hn
    have hdrops := drops_update s.phase p .outside
    simp [hp] at hdrops
    refine ⟨this.1, ?_⟩
    show drops (update s.phase p .outside) < s.ref - 1
    omega

lemma step {a : Act P} (hc : s.LoneTest a) (h : s.step a = some t) : Inv blocks t := by
  cases a with
  | iget p =>
    obtain ⟨hp, h⟩ := Option.ite_none_right_eq_some.mp h
    exact Option.some.inj h ▸ hi.iget hc
  | idup p =>
    obtain ⟨hp, h⟩ := Option.ite_none_right_eq_some.mp h
    exact Option.some.inj h ▸ hi.idup hp
  | ilock p =>
    obtain ⟨hp, h⟩ := Option.ite_none_right_eq_some.mp h
    exact (hi.ilock hp.1 h).1
  | unlink p =>
    obtain ⟨hp, h⟩ := Option.ite_none_right_eq_some.mp h
    obtain ⟨u, hu, ht⟩ := Option.bind_eq_some_iff.mp h
    obtain ⟨hiu, hv, hphase, hheld, h0⟩ := hi.ilock hp.1 hu
    exact hiu.decrement (p := p) (by simpa [State.Has, hphase, hheld] using hp.1) hv h0 ht
  | test p =>
    obtain ⟨hp, h⟩ := Option.ite_none_right_eq_some.mp h
    exact Option.some.inj h ▸ hi.test hp.1 hc
  | free p =>
    obtain ⟨hp, h⟩ := Option.ite_none_right_eq_some.mp h
    exact Option.some.inj h ▸ hi.free hp
  | drop p =>
    obtain ⟨hp, h⟩ := Option.ite_none_right_eq_some.mp h
    exact Option.some.inj h ▸ hi.drop hp

end

omit [DecidableEq P] in
lemma onDisk {type : Int16} {n : Nat} (ht : type ≠ 0) (hn : 0 < n) :
    Inv blocks (State.onDisk (P := P) type n blocks) where
  ref := by simp [State.onDisk]
  holds p hp := by simp [State.onDisk] at hp
  lock p := by simp [State.onDisk]
  cached h := by simp [State.onDisk] at h
  after := .inr ⟨rfl, rfl, ht, rfl⟩
  freeing p hp := by simp [State.onDisk] at hp
  pending _ h := by
    have : n = 0 := h
    omega

end Inv

/-- In every run in which the tests of an inode without links do not overlap with other drops, nor with
an `iget` before the freeing: an inode without links and references has been freed, with all its blocks and
once; it is never freed more than once; and the process that frees it holds the only reference. -/
theorem last_iput_frees {type : Int16} {n : Nat} {blocks : List Nat} (ht : type ≠ 0) (hn : 0 < n)
    {as : List (Act P)} (h : Run State.step State.LoneTest (State.onDisk type n blocks) as s) :
    (s.ref = 0 → s.disk.nlink = 0 → s.freed = 1 ∧ s.freedBlocks = blocks ∧ s.disk.type = 0) ∧
      s.freed ≤ 1 ∧ (s.freed = 0 → s.freedBlocks = []) ∧
      ∀ p, s.phase p = .freeing → s.ref = 1 ∧ s.held p = 1 ∧ ∀ q, q ≠ p → s.held q = 0 := by
  have hi : Inv blocks s := h.inv (Inv.onDisk ht hn) fun _ _ _ hi hc hs => hi.step hc hs
  refine ⟨fun h0 hl => ?_, ?_, fun h0 => ?_, fun p hp => ?_⟩
  · rcases hi.after with ha | ha
    · exact ⟨ha.1, ha.2.1, by simp [ha.2.2.1]⟩
    · have := (hi.pending ha.1 hl).2
      omega
  · rcases hi.after with ha | ha <;> omega
  · rcases hi.after with ha | ha
    · omega
    · exact ha.2.1
  · have h1 := (hi.freeing p hp).1
    have hheld := hi.holds p (by simp [hp])
    have := hi.held_le p
    exact ⟨h1, by omega, fun q hq => hi.alone h1 hheld hq⟩

end

/-- One process opens the inode twice over, another unlinks it, leaves, and passes through it once more
when it has no link. -/
def unlinkThenClose : List (Act (Fin 2)) :=
  [.iget 0, .ilock 0, .iget 1, .unlink 1, .test 1, .drop 1, .iget 1, .test 1, .drop 1, .idup 0, .test 0,
    .drop 0, .test 0, .free 0, .drop 0]

theorem last_iput_frees_unlinkThenClose :
    ∃ s, Run State.step State.LoneTest (State.onDisk (P := Fin 2) 2 1 [60, 61]) unlinkThenClose s ∧
      s.ref = 0 ∧ s.disk.nlink = 0 ∧ s.freed = 1 ∧ s.freedBlocks = [60, 61] := by
  obtain ⟨s, hrun, h⟩ := run_of_check State.step State.LoneTest
    (State.onDisk (P := Fin 2) 2 1 [60, 61]) unlinkThenClose
    (fun s => s.ref = 0 ∧ s.disk.nlink = 0) (by decide +kernel)
  have hfreed := (last_iput_frees (by decide) (by decide) hrun).1 h.1 h.2
  exact ⟨s, hrun, h.1, h.2, hfreed.1, hfreed.2.1⟩

/-- Process 1 unlinks the file that process 0 has open; both test before either has dropped its
reference. -/
theorem both_iputs_see_two :
    ∃ s, Run State.step anyStep (State.onDisk (P := Fin 2) 2 1 [60, 61])
        [.iget 0, .ilock 0, .iget 1, .unlink 1, .test 1, .test 0, .drop 1, .drop 0] s ∧
      s.ref = 0 ∧ s.disk.nlink = 0 ∧ s.freed = 0 ∧ s.freedBlocks = [] ∧ s.disk.type = 2 :=
  run_of_check _ _ _ _ _ (by decide +kernel)

/-- Process 1 gets its reference between the test of process 0, which finds it has the last, and the freeing. -/
lemma iget_before_free :
    ∃ s, Run State.step anyStep (State.onDisk (P := Fin 2) 2 1 [60, 61])
        [.iget 0, .unlink 0, .test 0, .iget 1, .free 0] s ∧
      s.ref = 2 ∧ s.held 1 = 1 ∧ s.freed = 1 ∧ s.freedBlocks = [60, 61] :=
  run_of_check _ _ _ _ _ (by decide +kernel)

end Xv6.Fs.Iput
