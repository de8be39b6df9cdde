import Xv6.Lib.Ledger
import Xv6.Process.Slots

/-!
# CPU shares

The stride and MLFQ fields of `proc.c`, over the process table: `cpu_share` reserves a share of the
CPU for its caller, `run_MLFQ` moves its caller to the MLFQ, which as a whole has a share of 20, and
`exit` gives a reservation back. Arithmetic is that of an `int` of 32 bits, and a division by zero is
the trap in which the kernel panics.

The books are right (`shares_accounted`) as long as every process makes one reservation at most. A
second call overwrites the share without giving the first one back, the sum may wrap around the
admission test, and nobody takes the share of the MLFQ away when its last process has gone
(`shares_lost`).
-/

namespace Xv6.Process

open Function (update)

open Lib Table

/-- `enum sched_mode`. -/
inductive Mode
  | strd | strdSet | mlfq
  deriving DecidableEq

/-- `enum mlfq_lev`. -/
inductive Level
  | top | mid | low
  deriving DecidableEq

/-- `struct proc_strd`. -/
structure Strd where
  pass : Int
  stride : Int
  share : Int
  deriving DecidableEq

/-- The scheduling fields of a slot. -/
structure Sched where
  mode : Mode
  strd : Strd
  lev : Level
  priority : Int
  deriving DecidableEq

/-- What `allocproc` sets up. -/
def Sched.zero : Sched := ⟨.strd, ⟨0, 0, 0⟩, .top, 0⟩

/-- `struct proc_mlfqs`. -/
structure Mlfqs where
  pass : Int
  stride : Int
  share : Int
  topn : Int

/-- The process table and the state of the schedulers. -/
structure Shares where
  table : Table
  sched : ProcId → Sched
  strdShareSum : Int
  strdSum : Int
  mlfqs : Mlfqs

/-- An `int`. -/
def wrap (x : Int) : Int := x.bmod (2 ^ 32)

/-- `x / y`; `none` is the trap. -/
def divide (x y : Int) : Option Int := if y = 0 then none else some (x.tdiv y)

/-- The slot that `allocproc` takes. -/
def Table.vacant (s : Table) : Option ProcId := s.findSlot fun p => p.state = .unused

namespace Shares

variable (s : Shares)

def modify (p : ProcId) (f : Sched → Sched) : Shares :=
  { s with sched := Function.update s.sched p (f (s.sched p)) }

/-- The slot holds a `RUNNABLE` process. -/
def Ready (p : ProcId) : Prop := (s.table.proc p).state = .runnable

instance (p : ProcId) : Decidable (s.Ready p) := inferInstanceAs (Decidable (_ = _))

/-- `get_num(sm)`. -/
def getNum (m : Mode) : Int :=
  ((List.finRange nProc).filter fun p => s.Ready p ∧ (s.sched p).mode = m).length

/-- One iteration of the loop of `update_strd`. -/
def updateOne (n1 n2 : Int) (s : Shares) (p : ProcId) : Option Shares :=
  if ¬ s.Ready p then some s
  else
    match (s.sched p).mode with
    | .strd => do
      let share ← divide s.strdSum n1
      let stride ← divide 10001 share
      return s.modify p fun f => { f with strd := ⟨f.strd.pass, stride, share⟩ }
    | .strdSet => do
      let stride ← divide 10001 (s.sched p).strd.share
      return s.modify p fun f => { f with strd := ⟨f.strd.pass, stride, f.strd.share⟩ }
    | .mlfq =>
      if n2 ≤ 0 then
        some { s.modify p fun f => { f with strd := ⟨f.strd.pass, 0, 0⟩ }
          with mlfqs := { s.mlfqs with share := 0 } }
      else do
        let share ← divide s.mlfqs.share n2
        let stride ← divide 10001 share
        return s.modify p fun f => { f with strd := ⟨f.strd.pass, stride, share⟩ }

/-- `update_strd`. -/
def updateStrd : Option Shares :=
  (List.finRange nProc).foldlM (updateOne (s.getNum .strd) (s.getNum .mlfq)) s

/-- `init_pass`. -/
def initPass : Shares :=
  { s with
    sched := fun p =>
      if s.Ready p then { s.sched p with strd := { (s.sched p).strd with pass := 0 } } else s.sched p
    mlfqs := { s.mlfqs with pass := 0 } }

def panic (msg : String) : Shares := { s with table := s.table.panic msg }

/-- `update_strd(); init_pass(); return r;`, for a call that started from `s`. -/
def finish (t : Shares) (r : Int) : Option Int × Shares :=
  match t.updateStrd with
  | some u => (some r, u.initPass)
  | none => (none, s.panic "trap")

/-- `cpu_share` enters the reservation … -/
def reserve (p : ProcId) (share : Int) : Shares :=
  { s.modify p fun f => { f with mode := .strdSet, strd := { f.strd with share := share } }
    with strdShareSum := wrap (s.strdShareSum + share), strdSum := wrap (s.strdSum - share) }

/-- … and strikes it out again where the sum has become too large. -/
def withdraw (p : ProcId) (share : Int) : Shares :=
  { s.modify p fun f => { f with mode := .strd }
    with strdShareSum := wrap (s.strdShareSum - share), strdSum := wrap (s.strdSum + share) }

/-- `cpu_share(share)` by `p`: what it returns, `none` for a panic, and what it leaves. -/
def cpuShare (p : ProcId) (share : Int) : Option Int × Shares :=
  if s.strdShareSum < 0 ∨ share < 0 then (none, s.panic "share_sum < 0 || share < 0")
  else
    let t := s.reserve p share
    if 20 < t.strdShareSum then
      let t := t.withdraw p share
      let n := t.getNum .mlfq
      let m := t.getNum .strd
      if n < 0 then (none, s.panic "# of MLFQ running process < 0\n")
      else
        match divide (wrap ((if 0 < n then 80 else 100) - t.strdShareSum)) m with
        | some q => s.finish (t.modify p fun f => { f with strd := { f.strd with share := q } }) 1
        | none => (none, s.panic "trap")
    else s.finish t 0

/-- What `run_MLFQ` changes before it calls `update_strd`. -/
def moved (p : ProcId) : Shares :=
  let t :=
    if s.mlfqs.share = 0 then
      { s with mlfqs := { s.mlfqs with share := 20, stride := 10001 / 20, pass := 0 }
               strdSum := wrap (s.strdSum - 20) }
    else s
  { t.modify p fun f => { f with mode := .mlfq, lev := .top, priority := 0 }
    with mlfqs := { t.mlfqs with topn := wrap (t.mlfqs.topn + 1) } }

/-- `run_MLFQ()` by `p`. -/
def runMLFQ (p : ProcId) : Option Int × Shares := s.finish (s.moved p) 0

/-- `allocproc` resets the scheduling fields of the slot it finds. -/
def allocated (t : Table) : Shares :=
  match s.table.vacant with
  | some q => { s.modify q fun _ => .zero with table := t }
  | none => { s with table := t }

/-- The last critical section of `exit` gives the reservation of its caller back. -/
def refunded (p : ProcId) (t : Table) : Shares :=
  if (s.sched p).mode = .strdSet then
    { s with
      table := t
      strdSum := wrap (s.strdSum + (s.sched p).strd.share)
      strdShareSum := wrap (s.strdShareSum - (s.sched p).strd.share) }
  else { s with table := t }

/-- What a call that leaves the process table `t` does to the scheduling fields. -/
def afterCall (a : Act) (t : Table) : Shares :=
  match a with
  | .fork _ _ => s.allocated t
  | .threadCreate _ _ _ => s.allocated t
  | .exitEnd p => s.refunded p t
  | _ => { s with table := t }

/-- An action of the process table, or one of the two calls. -/
inductive ShareAct
  | call (a : Act)
  | cpuShare (p : ProcId) (share : Int)
  | runMLFQ (p : ProcId)
  deriving DecidableEq

/-- The process may make a call that takes `ptable.lock`. -/
def Enters (p : ProcId) : Prop :=
  s.table.stopped = none ∧ s.table.locked = false ∧ s.table.calls p

instance (p : ProcId) : Decidable (s.Enters p) := inferInstanceAs (Decidable (_ ∧ _ ∧ _))

def step : ShareAct → Option Shares
  | .call a => (s.table.step a).map (s.afterCall a)
  | .cpuShare p share =>
    if s.Enters p ∧ -2 ^ 31 ≤ share ∧ share < 2 ^ 31 then some (s.cpuShare p share).2 else none
  | .runMLFQ p => if s.Enters p then some (s.runMLFQ p).2 else none

def boot : Shares where
  table := Table.boot
  sched _ := .zero
  strdShareSum := 0
  strdSum := 100
  mlfqs := ⟨0, 0, 0, 0⟩

end Shares

/-! ### What the recalculation of strides leaves alone -/

/-- Strides, passes and the shares that are not reserved have changed, nothing else. -/
structure Restrided (s t : Shares) : Prop where
  table : t.table = s.table
  sum : t.strdShareSum = s.strdShareSum
  mlfqs : t.mlfqs.share = s.mlfqs.share
  mode : ∀ p, (t.sched p).mode = (s.sched p).mode
  share : ∀ p, (s.sched p).mode = .strdSet → (t.sched p).strd.share = (s.sched p).strd.share

variable {p : ProcId} {n1 n2 : Int}

namespace Restrided

variable {s t u : Shares}

lemma refl (s : Shares) : Restrided s s := ⟨rfl, rfl, rfl, fun _ => rfl, fun _ _ => rfl⟩

lemma trans (h : Restrided s t) (h' : Restrided t u) : Restrided s u where
  table := h'.table.trans h.table
  sum := h'.sum.trans h.sum
  mlfqs := h'.mlfqs.trans h.mlfqs
  mode p := (h'.mode p).trans (h.mode p)
  share p hp := (h'.share p ((h.mode p).trans hp)).trans (h.share p hp)

/-- Only the stride fields of `p` change, and its share only if it is not a reservation. -/
lemma modify {f : Strd → Strd}
    (hf : (s.sched p).mode = .strdSet → (f (s.sched p).strd).share = (s.sched p).strd.share) :
    Restrided s (s.modify p fun g => { g with strd := f g.strd }) := by
  refine ⟨rfl, rfl, rfl, fun q => ?_, fun q hq => ?_⟩
  · by_cases hqp : q = p
    · subst hqp
      simp [Shares.modify]
    · simp [Shares.modify, hqp]
  · by_cases hqp : q = p
    · subst hqp
      simpa [Shares.modify] using hf hq
    · simp [Shares.modify, hqp]

lemma initPass (s : Shares) : Restrided s s.initPass := by
  refine ⟨rfl, rfl, rfl, fun p => ?_, fun p _ => ?_⟩
  · simp only [Shares.initPass]
    split <;> rfl
  · simp only [Shares.initPass]
    split <;> rfl

lemma updateOne (hn : s.Ready p → (s.sched p).mode = .mlfq → 0 < n2) (h : s.updateOne n1 n2 p = some t) :
    Restrided s t := by
  unfold Shares.updateOne at h
  split at h
  · exact Option.some.inj h ▸ .refl s
  rename_i hr
  split at h <;> rename_i hm
  · simp only [Option.bind_eq_bind, Option.bind_eq_some_iff, Option.pure_def] at h
    obtain ⟨share, -, stride, -, he⟩ := h
    cases he
    exact modify (f := fun f => ⟨f.pass, stride, share⟩) (by simp [hm])
  · simp only [Option.bind_eq_bind, Option.bind_eq_some_iff, Option.pure_def] at h
    obtain ⟨stride, -, he⟩ := h
    cases he
    exact modify (f := fun f => ⟨f.pass, stride, f.share⟩) fun _ => rfl
  · rename_i hm
    have := hn (by simpa using hr) hm
    rw [if_neg (by omega)] at h
    simp only [Option.bind_eq_bind, Option.bind_eq_some_iff, Option.pure_def] at h
    obtain ⟨share, -, stride, -, he⟩ := h
    cases he
    exact modify (f := fun f => ⟨f.pass, stride, share⟩) (by simp [hm])

lemma ready (h : Restrided s t) : t.Ready p ↔ s.Ready p := by
  unfold Shares.Ready
  rw [h.table]

lemma foldlM {l : List ProcId} {t : Shares} :
    ∀ {s : Shares}, (∀ p, s.Ready p → (s.sched p).mode = .mlfq → 0 < n2) →
      l.foldlM (Shares.updateOne n1 n2) s = some t → Restrided s t := by
  induction l with
  | nil =>
    intro s _ h
    exact Option.some.inj h ▸ .refl s
  | cons p l ih =>
    intro s hn h
    rw [List.foldlM_cons] at h
    obtain ⟨u, hu, hrest⟩ := Option.bind_eq_some_iff.mp h
    have hsu := updateOne (hn p) hu
    refine hsu.trans (ih (fun q hq hm => hn q (hsu.ready.mp hq) ?_) hrest)
    exact (hsu.mode q).symm.trans hm

lemma getNum_pos {m : Mode} (hr : s.Ready p) (hm : (s.sched p).mode = m) : 0 < s.getNum m := by
  have hmem : p ∈ (List.finRange nProc).filter fun p => s.Ready p ∧ (s.sched p).mode = m := by
    simp [hr, hm]
  have := List.length_pos_of_mem hmem
  unfold Shares.getNum
  omega

lemma updateStrd (h : s.updateStrd = some t) : Restrided s t :=
  foldlM (fun _ hr hm => getNum_pos hr hm) h

end Restrided

/-! ### Who is alive -/

/-- The slot holds a process that has not ended. -/
def Proc.Alive (a : Proc) : Prop := a.Used ∧ a.state ≠ .zombie

instance (a : Proc) : Decidable a.Alive := inferInstanceAs (Decidable (_ ∧ _))

section

variable {s t : Table} {p r : ProcId} {a : Act}

lemma alive_of_stands {c : Cont} (h : s.stands p c) : (s.proc p).Alive :=
  ⟨used_of_stands h, by simp [h.1]⟩

lemma alive_of_step (h : s.step a = some t) (hr : (s.proc r).Alive) :
    (t.proc r).Alive ∨ a = .exitEnd r ∨ ∃ v, a = .threadExit r v := by
  rcases used_of_step h hr.1 with hu | hz
  · by_cases hz : (t.proc r).state = .zombie
    · exact .inr (((step_moved h hu).zombie hz).resolve_left hr.2)
    · exact .inl ⟨hu, hz⟩
  · exact absurd hz.zombie hr.2

lemma alive_before (h : s.step a = some t) (hr : (t.proc r).Alive) (hs : (s.proc r).Used) :
    (s.proc r).Alive :=
  ⟨hs, fun hz => hr.2 ((step_moved h hr.1).still_zombie hz)⟩

lemma allocproc_vacant {stack : Bool} {q : ProcId} (h : s.allocproc stack = (some q, t)) :
    s.vacant = some q := by
  unfold Table.allocproc at h
  split at h
  · simp at h
  · rename_i q' hf
    split at h
    · exact hf.trans (Prod.mk.inj h).1
    · simp at h

lemma fork_vacant (mem : ForkMem) (hs : ¬ (s.proc r).Used)
    (hr : ((s.fork p mem).proc r).Used) : s.vacant = some r := by
  by_contra hv
  refine hs ?_
  revert hr
  unfold Table.fork
  split
  · rename_i h
    exact fun hu => ((allocproc_none h).kept r).keeps.1.mp hu
  · rename_i q s' h
    have hrq : r ≠ q := fun hrq => hv (hrq ▸ allocproc_vacant h)
    obtain ⟨-, rfl⟩ := allocproc_some h
    by_cases hl : 0 < (s.proc p).lwpid <;> simp only [hl, if_true, if_false] <;> split <;>
      simp [Table.modify, setPages, embryo, hrq, Table.panic, Table.freevm]

lemma threadCreate_vacant (stack : Bool) (avail : Nat) (hs : ¬ (s.proc r).Used)
    (hr : ((s.threadCreate p stack avail).proc r).Used) : s.vacant = some r := by
  revert hr
  -- another slot stays as it was
  have hother : ∀ {q : ProcId} {np : Proc}, s.allocproc stack = (some q, s.embryo q) →
      (update s.proc q np r).Used → s.vacant = some r := by
    intro q np hq hu
    by_cases hrq : r = q
    · exact hrq ▸ allocproc_vacant hq
    · rw [Function.update_of_ne hrq] at hu
      exact absurd hu hs
  have hcases := threadCreate_cases s p stack avail
  generalize s.threadCreate p stack avail = t at hcases ⊢
  cases hcases with
  | noSlot h => exact fun hu => absurd (((allocproc_none h).kept r).keeps.1.mp hu) hs
  | done hq | failed hq => exact hother hq
  | remap | noBase | noDir => exact fun hu => absurd hu hs

end

variable {f : Sched}

namespace Shares

variable {s : Shares} {a : Act} {t : Table} {p r : ProcId}

@[simp] lemma allocated_table : (s.allocated t).table = t := by
  unfold allocated
  split <;> rfl

@[simp] lemma allocated_mlfqs : (s.allocated t).mlfqs = s.mlfqs := by
  unfold allocated
  split <;> rfl

@[simp] lemma allocated_sum : (s.allocated t).strdShareSum = s.strdShareSum := by
  unfold allocated
  split <;> rfl

lemma allocated_sched (hr : (s.table.proc r).Used) : (s.allocated t).sched r = s.sched r := by
  unfold allocated
  split
  · rename_i q hq
    have hrq : r ≠ q := by
      rintro rfl
      exact hr (by simpa using findSlot_some hq)
    simp [modify, hrq]
  · rfl

lemma allocated_vacant (h : s.table.vacant = some r) : (s.allocated t).sched r = .zero := by
  unfold allocated
  rw [h]
  simp [modify]

@[simp] lemma refunded_table : (s.refunded p t).table = t := by
  unfold refunded
  split <;> rfl

@[simp] lemma refunded_mlfqs : (s.refunded p t).mlfqs = s.mlfqs := by
  unfold refunded
  split <;> rfl

@[simp] lemma refunded_sched : (s.refunded p t).sched = s.sched := by
  unfold refunded
  split <;> rfl

@[simp] lemma afterCall_table : (s.afterCall a t).table = t := by
  unfold afterCall
  split <;> simp

@[simp] lemma afterCall_mlfqs : (s.afterCall a t).mlfqs = s.mlfqs := by
  unfold afterCall
  split <;> simp

lemma afterCall_sched (hr : (s.table.proc r).Used) : (s.afterCall a t).sched r = s.sched r := by
  unfold afterCall
  split <;> simp [allocated_sched hr]

lemma afterCall_filled (h : s.table.step a = some t) (hs : ¬ (s.table.proc r).Used)
    (hr : (t.proc r).Used) : (s.afterCall a t).sched r = .zero := by
  cases filled_of_step h hs hr with
  | fork =>
    obtain ⟨-, -, rfl⟩ := of_step h
    exact allocated_vacant (fork_vacant _ hs hr)
  | create =>
    obtain ⟨-, -, rfl⟩ := of_step h
    exact allocated_vacant (threadCreate_vacant _ _ hs hr)

/-! ### The books -/

/-- What slot `r` has reserved. -/
def reserved (s : Shares) (r : ProcId) : Int :=
  if (s.table.proc r).Alive ∧ (s.sched r).mode = .strdSet then (s.sched r).strd.share else 0

/-- Slot `r` holds a process that is scheduled by the MLFQ. -/
def InMlfq (s : Shares) (r : ProcId) : Prop :=
  (s.table.proc r).Alive ∧ (s.sched r).mode = .mlfq

instance (s : Shares) (r : ProcId) : Decidable (s.InMlfq r) := inferInstanceAs (Decidable (_ ∧ _))

/-- The books agree with the processes that are alive. -/
def Accounted (s : Shares) : Prop :=
  s.strdShareSum = ∑ r, s.reserved r ∧ 0 ≤ s.strdShareSum ∧ s.strdShareSum ≤ 20 ∧
    s.mlfqs.share = if ∃ r, s.InMlfq r then 20 else 0

instance (s : Shares) : Decidable s.Accounted := inferInstanceAs (Decidable (_ ∧ _ ∧ _ ∧ _))

/-- The process leaves the MLFQ to another one, if it is there. -/
def Succeeded (s : Shares) (p : ProcId) : Prop :=
  (s.sched p).mode = .mlfq → ∃ r, r ≠ p ∧ s.InMlfq r

instance (s : Shares) (p : ProcId) : Decidable (s.Succeeded p) :=
  inferInstanceAs (Decidable (_ → _))

/-- A reservation is made by a process that has none and is not in the MLFQ, and for a share that the
sum can hold; a process that has one does not move to the MLFQ and ends through `exit`; and the MLFQ
is not left without a process. -/
def ReservesOnce (s : Shares) : ShareAct → Prop
  | .cpuShare p share => (s.sched p).mode = .strd ∧ s.strdShareSum + share < 2 ^ 31
  | .runMLFQ p => (s.sched p).mode ≠ .strdSet
  | .call (.exitEnd p) => s.Succeeded p
  | .call (.threadExit p _) => s.Succeeded p ∧ (s.sched p).mode ≠ .strdSet
  | _ => True

instance (s : Shares) : DecidablePred s.ReservesOnce := fun a => by
  unfold ReservesOnce
  split <;> infer_instance

/-- What the proof carries: the books, and that no reservation is negative. -/
structure Balanced (s : Shares) : Prop where
  sum : s.strdShareSum = ∑ r, s.reserved r
  le : s.strdShareSum ≤ 20
  nonneg : ∀ r, 0 ≤ s.reserved r
  mlfq : s.mlfqs.share = if ∃ r, s.InMlfq r then 20 else 0

namespace Balanced

lemma accounted (h : Balanced s) : s.Accounted :=
  ⟨h.sum, h.sum ▸ Finset.sum_nonneg fun r _ => h.nonneg r, h.le, h.mlfq⟩

lemma sum_nonneg (h : Balanced s) : 0 ≤ s.strdShareSum := h.accounted.2.1

lemma restrided {t : Shares} (h : Balanced s) (ht : Restrided s t) : Balanced t := by
  have hres : t.reserved = s.reserved := by
    funext r
    unfold reserved
    rw [ht.table, ht.mode]
    split
    · exact ht.share r (And.right ‹_›)
    · rfl
  have hin : ∀ r, t.InMlfq r ↔ s.InMlfq r := fun r => by
    unfold InMlfq
    rw [ht.table, ht.mode]
  refine ⟨?_, ?_, ?_, ?_⟩
  · rw [ht.sum, h.sum, hres]
  · exact ht.sum ▸ h.le
  · exact hres ▸ h.nonneg
  · rw [ht.mlfqs, h.mlfq]
    simp only [hin]

lemma panic (h : Balanced s) (msg : String) : Balanced (s.panic msg) := ⟨h.sum, h.le, h.nonneg, h.mlfq⟩

lemma finish {t : Shares} (h : Balanced s) (ht : Balanced t) (r : Int) : Balanced (s.finish t r).2 := by
  unfold Shares.finish
  split
  · rename_i u hu
    exact (ht.restrided (.updateStrd hu)).restrided (.initPass u)
  · exact h.panic _

lemma sum_of_one {s t : Shares} (h : ∀ r ≠ p, t.reserved r = s.reserved r) :
    ∑ r, t.reserved r = ∑ r, s.reserved r - s.reserved p + t.reserved p := by
  have := sum_add_of_ne h
  omega

lemma reserved_le (h : Balanced s) (r : ProcId) : s.reserved r ≤ s.strdShareSum :=
  h.sum ▸ Finset.single_le_sum (fun q _ => h.nonneg q) (Finset.mem_univ r)

/-! ### Calls of the process table -/

lemma reserved_of_call (h : s.table.step a = some t) (he : a ≠ .exitEnd r)
    (hx : ∀ v, a = .threadExit r v → (s.sched r).mode ≠ .strdSet) :
    (s.afterCall a t).reserved r = s.reserved r := by
  unfold reserved
  rw [afterCall_table]
  by_cases hr : (s.table.proc r).Alive
  · rw [afterCall_sched hr.1]
    rcases alive_of_step h hr with ht | ht | ⟨v, ht⟩
    · simp [hr, ht]
    · exact absurd ht he
    · simp [hx v ht]
  · by_cases ht : (t.proc r).Alive
    · have hu : ¬ (s.table.proc r).Used := fun hu => hr (alive_before h ht hu)
      rw [afterCall_filled h hu ht.1]
      simp [hr, Sched.zero]
    · simp [hr, ht]

lemma inMlfq_before (h : s.table.step a = some t) (hr : (s.afterCall a t).InMlfq r) : s.InMlfq r := by
  obtain ⟨ha, hm⟩ := hr
  rw [afterCall_table] at ha
  by_cases hu : (s.table.proc r).Used
  · exact ⟨alive_before h ha hu, afterCall_sched (a := a) (t := t) hu ▸ hm⟩
  · rw [afterCall_filled h hu ha.1] at hm
    cases hm

lemma inMlfq_after (h : s.table.step a = some t) (hr : s.InMlfq r) (he : a ≠ .exitEnd r)
    (hx : ∀ v, a ≠ .threadExit r v) : (s.afterCall a t).InMlfq r := by
  obtain ⟨ha, hm⟩ := hr
  refine ⟨?_, afterCall_sched (a := a) (t := t) ha.1 ▸ hm⟩
  rw [afterCall_table]
  rcases alive_of_step h ha with ht | ht | ⟨v, ht⟩
  · exact ht
  · exact absurd ht he
  · exact absurd ht (hx v)

lemma inMlfq_iff (h : s.table.step a = some t) (hc : s.ReservesOnce (.call a)) :
    (∃ r, (s.afterCall a t).InMlfq r) ↔ ∃ r, s.InMlfq r := by
  refine ⟨fun ⟨r, hr⟩ => ⟨r, inMlfq_before h hr⟩, fun ⟨r, hr⟩ => ?_⟩
  by_cases he : a = .exitEnd r
  · subst he
    obtain ⟨q, hq, hin⟩ := hc hr.2
    exact ⟨q, inMlfq_after h hin (by simp [Ne.symm hq]) (by simp)⟩
  by_cases hx : ∃ v, a = .threadExit r v
  · obtain ⟨v, rfl⟩ := hx
    obtain ⟨q, hq, hin⟩ := hc.1 hr.2
    exact ⟨q, inMlfq_after h hin (by simp) (by simp [Ne.symm hq])⟩
  · exact ⟨r, inMlfq_after h hr he fun v hv => hx ⟨v, hv⟩⟩

lemma wrap_eq {x : Int} (h0 : -2 ^ 31 ≤ x) (h1 : x < 2 ^ 31) : wrap x = x :=
  Int.bmod_eq_of_le (by omega) (by omega)

lemma refunded_sum (hs : Balanced s) (ha : (s.table.proc p).Alive) :
    (s.refunded p t).strdShareSum = s.strdShareSum - s.reserved p := by
  have hle := hs.reserved_le p
  have h0 := hs.nonneg p
  have hl := hs.le
  unfold refunded
  split
  · rename_i hm
    have hres : s.reserved p = (s.sched p).strd.share := by simp [reserved, ha, hm]
    exact (wrap_eq (by omega) (by omega)).trans (by rw [hres])
  · rename_i hm
    simp [reserved, hm]

lemma call (hs : Balanced s) (h : s.table.step a = some t) (hc : s.ReservesOnce (.call a)) :
    Balanced (s.afterCall a t) := by
  have hmlfq : (s.afterCall a t).mlfqs.share =
      if ∃ r, (s.afterCall a t).InMlfq r then 20 else 0 := by
    rw [afterCall_mlfqs, hs.mlfq]
    simp only [inMlfq_iff h hc]
  by_cases he : ∃ p, a = .exitEnd p
  · obtain ⟨p, rfl⟩ := he
    have hother : ∀ r ≠ p, (s.afterCall (.exitEnd p) t).reserved r = s.reserved r :=
      fun r hr => reserved_of_call h (by simp [Ne.symm hr]) (by simp)
    have hzero : (s.afterCall (.exitEnd p) t).reserved p = 0 := by
      simp [reserved, Proc.Alive, exitEnd_zombie h]
    have hp : (s.table.proc p).Alive := by
      exact alive_of_stands (of_step h).2.1
    have hsum : (s.afterCall (.exitEnd p) t).strdShareSum = s.strdShareSum - s.reserved p :=
      refunded_sum hs hp
    refine ⟨?_, ?_, fun r => ?_, hmlfq⟩
    · rw [hsum, sum_of_one hother, hzero, hs.sum, add_zero]
    · have := hs.le
      have := hs.nonneg p
      omega
    · by_cases hr : r = p
      · rw [hr, hzero]
      · exact hother r hr ▸ hs.nonneg r
  · have hres : (s.afterCall a t).reserved = s.reserved := by
      funext r
      refine reserved_of_call h (fun hr => he ⟨r, hr⟩) fun v hv => ?_
      subst hv
      exact hc.2
    have hsum : (s.afterCall a t).strdShareSum = s.strdShareSum := by
      unfold afterCall
      split
      · simp
      · simp
      · exact absurd ⟨_, rfl⟩ he
      · rfl
    exact ⟨by rw [hsum, hres, hs.sum], hsum ▸ hs.le, hres ▸ hs.nonneg, hmlfq⟩

/-! ### The two calls -/

/-- The fields of a process without a reservation become `f`, and the sum follows. -/
lemma update {t : Shares} (hs : Balanced s) (hp : (s.table.proc p).Alive)
    (hm : (s.sched p).mode ≠ .strdSet) (htable : t.table = s.table)
    (hsched : t.sched = Function.update s.sched p f)
    (hsum : t.strdShareSum = s.strdShareSum + if f.mode = .strdSet then f.strd.share else 0)
    (h0 : f.mode = .strdSet → 0 ≤ f.strd.share) (hle : t.strdShareSum ≤ 20)
    (hmlfq : t.mlfqs.share = if ∃ r, t.InMlfq r then 20 else 0) : Balanced t := by
  have hother : ∀ r ≠ p, t.reserved r = s.reserved r := fun r hr => by
    simp [reserved, htable, hsched, hr]
  have hbefore : s.reserved p = 0 := by simp [reserved, hm]
  have hafter : t.reserved p = if f.mode = .strdSet then f.strd.share else 0 := by
    simp [reserved, htable, hsched, hp]
  refine ⟨?_, hle, fun r => ?_, hmlfq⟩
  · rw [sum_of_one hother, hbefore, hafter, hsum, hs.sum, sub_zero]
  · by_cases hr : r = p
    · rw [hr, hafter]
      split
      · exact h0 ‹_›
      · exact le_refl 0
    · exact hother r hr ▸ hs.nonneg r

lemma mlfq_of_update {t : Shares} (hs : Balanced s)
    (hm : (s.sched p).mode ≠ .mlfq) (hf : f.mode ≠ .mlfq) (htable : t.table = s.table)
    (hsched : t.sched = Function.update s.sched p f) (hmlfqs : t.mlfqs = s.mlfqs) :
    t.mlfqs.share = if ∃ r, t.InMlfq r then 20 else 0 := by
  have hin : ∀ r, t.InMlfq r ↔ s.InMlfq r := fun r => by
    by_cases hr : r = p
    · subst hr
      simp [InMlfq, hsched, hm, hf]
    · simp [InMlfq, htable, hsched, hr]
  rw [hmlfqs, hs.mlfq]
  simp only [hin]

lemma cpuShare {share : Int} (hs : Balanced s) (hp : (s.table.proc p).Alive)
    (hm : (s.sched p).mode = .strd) (hb : s.strdShareSum + share < 2 ^ 31) :
    Balanced (s.cpuShare p share).2 := by
  have hsum := hs.sum_nonneg
  have hm' : (s.sched p).mode ≠ .strdSet := by simp [hm]
  have hout : (s.sched p).mode ≠ .mlfq := by simp [hm]
  unfold Shares.cpuShare
  split
  · exact hs.panic _
  rename_i hneg
  have hwrap : (s.reserve p share).strdShareSum = s.strdShareSum + share :=
    wrap_eq (by omega) (by omega)
  simp only [hwrap]
  split
  · split
    · exact hs.panic _
    split
    · rename_i q _
      -- the reservation is taken back, the caller is left with a share of its own
      have hback : ((s.reserve p share).withdraw p share).strdShareSum = s.strdShareSum := by
        have := hs.le
        unfold withdraw
        dsimp only
        rw [hwrap, add_sub_cancel_right, wrap_eq (by omega) (by omega)]
      let f : Sched := { s.sched p with mode := .strd, strd := { (s.sched p).strd with share := q } }
      have hsched : (((s.reserve p share).withdraw p share).modify p fun f =>
          { f with strd := { f.strd with share := q } }).sched = Function.update s.sched p f := by
        simp [withdraw, reserve, modify, Function.update_idem, f]
      refine hs.finish ?_ 1
      refine hs.update hp hm' rfl hsched ?_ (by simp [f]) ?_ ?_
      · exact hback.trans (by simp [f])
      · exact hback.trans_le hs.le
      · exact hs.mlfq_of_update hout (by simp [f]) rfl hsched rfl
    · exact hs.panic _
  · let f : Sched :=
      { s.sched p with mode := .strdSet, strd := { (s.sched p).strd with share := share } }
    have hsched : (s.reserve p share).sched = Function.update s.sched p f := rfl
    refine hs.finish ?_ 0
    refine hs.update hp hm' rfl hsched ?_ (fun _ => ?_) ?_ ?_
    · exact hwrap.trans (by simp [f])
    · show 0 ≤ share
      omega
    · omega
    · exact hs.mlfq_of_update hout (by simp [f]) rfl hsched rfl

lemma runMLFQ (hs : Balanced s) (hp : (s.table.proc p).Alive)
    (hm : (s.sched p).mode ≠ .strdSet) : Balanced (s.runMLFQ p).2 := by
  have hshare : s.mlfqs.share = 0 ∨ s.mlfqs.share = 20 := by
    rw [hs.mlfq]
    split <;> simp
  unfold Shares.runMLFQ moved
  refine hs.finish ?_ 0
  refine update (p := p) (f := { s.sched p with mode := .mlfq, lev := .top, priority := 0 })
    hs hp hm ?_ ?_ ?_ (by simp) ?_ ?_
  · split <;> rfl
  · split <;> rfl
  · split <;> simp [modify]
  · split <;> exact hs.le
  · refine Eq.trans (b := 20) ?_ (if_pos ⟨p, ?_⟩).symm
    · rcases hshare with h | h <;> simp [h]
    · split <;> exact ⟨hp, by simp [modify]⟩

lemma step {t : Shares} {a : ShareAct} (hs : Balanced s) (hc : s.ReservesOnce a)
    (h : s.step a = some t) : Balanced t := by
  cases a with
  | call a =>
    obtain ⟨u, hu, rfl⟩ := Option.map_eq_some_iff.mp h
    exact hs.call hu hc
  | cpuShare p share =>
    simp only [Shares.step] at h
    obtain ⟨hp, rfl⟩ := of_guard h
    exact hs.cpuShare (alive_of_stands hp.1.2.2.1) hc.1 hc.2
  | runMLFQ p =>
    simp only [Shares.step] at h
    obtain ⟨hp, rfl⟩ := of_guard h
    exact hs.runMLFQ (alive_of_stands hp.2.2.1) hc

lemma boot : Balanced Shares.boot := by
  have hres : ∀ r, Shares.boot.reserved r = 0 := fun r => by
    simp [reserved, Shares.boot, Sched.zero]
  refine ⟨?_, by simp [Shares.boot], fun r => (hres r).ge, ?_⟩
  · rw [Finset.sum_congr rfl fun r _ => hres r]
    simp [Shares.boot]
  · simp [InMlfq, Shares.boot, Sched.zero]

end Balanced

/-- After every run in which processes reserve a share once, the books agree with the processes that
are alive. -/
theorem shares_accounted {as : List ShareAct} {s : Shares}
    (h : Run Shares.step ReservesOnce Shares.boot as s) : s.Accounted :=
  (h.inv Balanced.boot fun _ _ _ hi hc hs => hi.step hc hs).accounted

/-- `init` reserves 5 and forks; the child moves to the MLFQ and forks a process that is refused. -/
def reserveAndMove : List ShareAct :=
  [.call (.sched 0 .running), .cpuShare 0 5, .call (.fork 0 .enough), .call (.sched 1 .running),
    .runMLFQ 1, .call (.fork 1 .enough), .call (.sched 2 .running), .cpuShare 2 20]

theorem shares_accounted_reserveAndMove :
    ∃ s, Run Shares.step ReservesOnce Shares.boot reserveAndMove s ∧ s.strdShareSum = 5 ∧
      s.mlfqs.share = 20 ∧ s.Accounted := by
  obtain ⟨s, hrun, h⟩ := run_of_check Shares.step ReservesOnce Shares.boot reserveAndMove
    (fun s => s.strdShareSum = 5 ∧ s.mlfqs.share = 20) (by decide +kernel)
  exact ⟨s, hrun, h.1, h.2, shares_accounted hrun⟩

/-- The reservation that a second call overwrites, the share that wraps around the test, and the share
of an MLFQ that has no process. -/
theorem shares_lost :
    (∃ s, Run Shares.step anyStep Shares.boot
        [.call (.sched 0 .running), .cpuShare 0 5, .cpuShare 0 5] s ∧
      s.table.stopped = none ∧ s.strdShareSum = 10 ∧ ∑ r, s.reserved r = 5) ∧
    (∃ s, Run Shares.step anyStep Shares.boot
        [.call (.sched 0 .running), .cpuShare 0 1, .cpuShare 0 2147483647] s ∧
      s.table.stopped = none ∧ s.strdShareSum = -2147483648 ∧ ∑ r, s.reserved r = 2147483647) ∧
    ∃ s, Run Shares.step anyStep Shares.boot
        [.call (.sched 0 .running), .call (.fork 0 .enough), .call (.sched 1 .running), .runMLFQ 1,
          .call (.exit 1), .call (.exitScan 1), .call (.exitEnd 1)] s ∧
      s.table.stopped = none ∧ s.mlfqs.share = 20 ∧ ∀ r, ¬ s.InMlfq r :=
  ⟨run_of_check _ _ _ _ _ (by decide +kernel), run_of_check _ _ _ _ _ (by decide +kernel),
    run_of_check _ _ _ _ _ (by decide +kernel)⟩

end Shares

end Xv6.Process
