import Xv6.Process.History

/-!
# What `thread_join` delivers

`thread_join(thread, &r)` looks for a zombie by two numbers, in a table whose slots are used again
and again. Since LWP numbers and pids are handed out once, a slot that matches the two numbers still
holds that LWP and its value (`thread_join_delivers`).
-/

namespace Xv6.Process

open Lib Table

variable {s : Table} {p : ProcId} {thread : Nat}

lemma joined_some {r : Nat} (h : s.joined p thread = some r) :
    (s.proc p).lwpid = 0 ∧ ∃ q, s.joinFinds p thread = some q ∧ (s.proc q).retval = r := by
  unfold Table.joined at h
  split at h
  · cases h
  · rename_i hp
    obtain ⟨q, hq, hr⟩ := Option.map_eq_some_iff.mp h
    exact ⟨by simpa using hp, q, hq, hr⟩

variable {t : Table} {q : ProcId}

lemma joined_released (h : s.step (.threadJoin p thread) = some t) (hl : (s.proc p).lwpid = 0)
    (hq : s.joinFinds p thread = some q) : (t.proc q).state = .unused := by
  obtain ⟨-, hp, rfl⟩ := of_step h
  have hrun : (s.proc p).state = .running := hp.elim (fun h => h.1.1) fun h => h.1
  have hpq : q ≠ p := fun h => by
    have hz := (joinFinds_some hq).2.2
    rw [h, hrun] at hz
    cases hz
  simp [Table.threadJoin, hl, joinScan, hq, Table.ret, Table.modify, hpq, Proc.reaped]

lemma threadExit_retval {v : Nat}
    (h : s.step (.threadExit p v) = some t) (hp : p ≠ initproc) : (t.proc p).retval = v := by
  obtain ⟨-, -, rfl⟩ := of_step h
  simp [Table.threadExit, hp, Table.modify]

/-! ### The invariant -/

/-- What the history says about the process in a slot. -/
structure SlotTold (g : History) (b : Proc) : Prop where
  manager : b.lwpid = 0 → g.process b.pid = b.pid
  member : b.lwppid ≠ 0 → g.process b.pid = b.lwppid
  made : b.lwppid ≠ 0 → g.made b.lwpid = some b.lwppid
  passed : b.lwpid ≠ 0 → b.retval = (g.passed b.lwpid).getD 0
  joins : b.lwpid ≠ 0 → g.joins b.lwpid = 0

structure Told (g : History) : Prop where
  ids : Ids g.table
  lwps : LwpIds g.table
  init : InitLives g.table
  slot : ∀ {q}, (g.table.proc q).Used → SlotTold g (g.table.proc q)
  fresh : ∀ i, g.table.nextlwpid ≤ i → g.passed i = none ∧ g.joins i = 0
  once : ∀ i, g.joins i ≤ 1

namespace Told

variable {g : History} {a : Act} {t : Table}

/-- The LWP that a call of `thread_join` finds. -/
lemma found (hi : Told g) (hp : (g.table.proc p).Used) (h : g.table.joinFinds p thread = some q) :
    (g.table.proc q).Used ∧ (g.table.proc q).lwpid = thread ∧ thread ≠ 0 ∧
      (g.table.proc q).lwppid = (g.table.proc p).pid ∧ (g.table.proc q).lwppid ≠ 0 := by
  obtain ⟨hl, hm, hz⟩ := joinFinds_some h
  have hu := used_of_zombie hz
  have hne : (g.table.proc q).lwppid ≠ 0 := by
    rw [hm]
    exact Nat.pos_iff_ne_zero.mp (hi.ids.pid_pos hp)
  refine ⟨hu, hl, ?_, hm, hne⟩
  have := (hi.ids.lwp hu hne).2.1
  omega

variable {r : ProcId}

lemma joins_of_step (hi : Told g) (h : g.table.step a = some t)
    (hs : (g.table.proc r).Used) (hr : (t.proc r).Used) (hne : (g.table.proc r).lwpid ≠ 0) :
    (g.record a t).joins (g.table.proc r).lwpid = g.joins (g.table.proc r).lwpid := by
  refine History.record_joins fun p ha => ?_
  subst ha
  by_contra hj
  obtain ⟨v, hv⟩ := Option.ne_none_iff_exists'.mp hj
  obtain ⟨hl, q, hq, -⟩ := joined_some hv
  obtain ⟨hlq, -, hzq⟩ := joinFinds_some hq
  -- the LWP of that number is the one joined, and its slot is empty now
  obtain rfl := hi.lwps.inj hs (used_of_zombie hzq) hne hlq.symm
  exact hr (joined_released h hl hq)

lemma slot_kept (hi : Told g) (h : g.table.step a = some t)
    (hs : (g.table.proc r).Used) (hr : (t.proc r).Used) : SlotTold (g.record a t) (t.proc r) := by
  have hm := step_moved h hr
  have hid := hm.sameIds hs
  have ho := hi.slot hs
  have hpid := hi.ids.pid_lt hs
  have hlt := hi.lwps.lt hs
  refine ⟨fun h0 => ?_, fun h0 => ?_, fun h0 => ?_, fun h0 => ?_, fun h0 => ?_⟩
  · rw [hid.pid, History.record_process hpid]
    exact ho.manager (hid.lwpid ▸ h0)
  · rw [hid.pid, hid.lwppid, History.record_process hpid]
    exact ho.member (hid.lwppid ▸ h0)
  · rw [hid.lwpid, hid.lwppid, History.record_made hlt]
    exact ho.made (hid.lwppid ▸ h0)
  · rw [hid.lwpid] at h0 ⊢
    by_cases hx : ∃ v, a = .threadExit r v
    · -- its own `thread_exit`
      obtain ⟨v, rfl⟩ := hx
      have hri : r ≠ initproc := fun he => h0 (he ▸ hi.init.process)
      rw [threadExit_retval h hri]
      simp [History.record]
    · rw [History.record_passed fun p v ha he => ?_]
      · rcases hm.retval hs with hv | ⟨v, ha, -⟩
        · rw [hv]
          exact ho.passed h0
        · exact absurd ⟨v, ha⟩ hx
      · -- another LWP's, which has another number
        subst ha
        obtain rfl := hi.lwps.inj hs (used_of_calls (calls_of_threadExit h)) h0 he
        exact hx ⟨v, rfl⟩
  · rw [hid.lwpid] at h0 ⊢
    rw [hi.joins_of_step h hs hr h0]
    exact ho.joins h0

lemma slot_new (hi : Told g) (h : g.table.step a = some t)
    (hs : ¬ (g.table.proc r).Used) (hr : (t.proc r).Used) : SlotTold (g.record a t) (t.proc r) := by
  obtain ⟨hpass, hjoin⟩ := hi.fresh _ le_rfl
  cases filled_of_step h hs hr with
  | @fork p t hp ht hn hl =>
    rw [ht, Function.update_self]
    refine ⟨fun _ => by simp [History.record, child], fun h0 => absurd rfl h0,
      fun h0 => absurd rfl h0, fun h0 => ?_, fun h0 => ?_⟩
    all_goals
      have hp0 : 0 < (g.table.proc p).lwpid := by
        by_contra hp0
        exact h0 (by simp [child, hp0])
    · simp [History.record, child, hp0, hpass]
    · simp [History.record, child, hp0, hjoin]
  | @create p stack avail i sz t hp ht hn hl hk =>
    have hlock : t.locked = false := hk.trans (unlocked_of_step h rfl)
    have hup := used_of_calls hp
    have hpos := hi.ids.nextlwpid_pos
    -- the creator belongs to the process that the new LWP names
    have hhere : (g.table.lwp p r i sz .runnable).lwppid ≠ 0 →
        g.process (g.table.proc p).pid = (g.table.lwp p r i sz .runnable).lwppid := by
      intro h0
      by_cases hp0 : 0 < (g.table.proc p).lwpid
      · simp only [lwp, hp0, if_true] at h0 ⊢
        exact (hi.slot hup).member h0
      · simp only [lwp, hp0, if_false] at h0 ⊢
        exact (hi.slot hup).manager (by omega)
    rw [ht, Function.update_self]
    refine ⟨fun h0 => ?_, fun h0 => ?_, fun h0 => ?_, fun _ => ?_, fun _ => ?_⟩
    · exact absurd h0 (by simp [lwp]; omega)
    · rw [← hhere h0]
      simp [History.record, lwp]
    · rw [← hhere h0]
      simp [History.record, lwp, hl, hlock]
    · simp [History.record, lwp, hpass]
    · simp [History.record, lwp, hjoin]

lemma step (hi : Told g) (h : g.table.step a = some t) : Told (g.record a t) where
  ids := by
    rw [History.record_table]
    exact hi.ids.step h
  lwps := by
    rw [History.record_table]
    exact hi.lwps.step hi.ids.nextlwpid_pos h
  init := by
    rw [History.record_table]
    exact hi.init.step h
  slot {q} hq := by
    rw [History.record_table] at hq ⊢
    by_cases hs : (g.table.proc q).Used
    · exact hi.slot_kept h hs hq
    · exact hi.slot_new h hs hq
  fresh i hn := by
    rw [History.record_table] at hn
    have hle := (next_le_of_step h).2
    have hold := hi.fresh i (by omega)
    constructor
    · rw [History.record_passed fun p v ha he => ?_]
      · exact hold.1
      · subst ha
        have := hi.lwps.lt (used_of_calls (calls_of_threadExit h))
        omega
    · rw [History.record_joins fun p ha => ?_]
      · exact hold.2
      · by_contra hj
        obtain ⟨v, hv⟩ := Option.ne_none_iff_exists'.mp hj
        obtain ⟨-, q, hq, -⟩ := joined_some hv
        obtain ⟨hlq, -, hzq⟩ := joinFinds_some hq
        have := hi.lwps.lt (used_of_zombie hzq)
        omega
  once i := by
    by_cases hj : ∃ p v, a = .threadJoin p i ∧ g.table.joined p i = some v
    · -- the LWP was there, so it had not been joined
      obtain ⟨p, v, rfl, hv⟩ := hj
      obtain ⟨hl, q, hq, -⟩ := joined_some hv
      obtain ⟨hu, hlq, hne, -⟩ := hi.found (used_of_threadJoin h) hq
      have := (hi.slot hu).joins (hlq ▸ hne)
      rw [hlq] at this
      simp [History.record, hv, this]
    · rw [History.record_joins fun p ha => ?_]
      · exact hi.once i
      · by_contra hn
        obtain ⟨v, hv⟩ := Option.ne_none_iff_exists'.mp hn
        exact hj ⟨p, v, ha, hv⟩

lemma boot : Told History.boot := by
  have hl : ∀ q, (Table.boot.proc q).lwpid = 0 ∧ (Table.boot.proc q).lwppid = 0 := by decide
  refine ⟨Ids.boot, LwpIds.boot, InitLives.boot, fun {q} _ => ?_, fun _ _ => ⟨rfl, rfl⟩,
    fun _ => zero_le⟩
  exact ⟨fun _ => rfl, fun h => absurd (hl q).2 h, fun h => absurd (hl q).2 h,
    fun h => absurd (hl q).1 h, fun h => absurd (hl q).1 h⟩

end Told

/-- In every run, whenever a call of `thread_join(thread, &r)` by `p` returns `0`: `thread` was made
by `thread_create` within the process of `p`; `r` is what that LWP passed to `thread_exit`, and `0`
if it passed nothing; its slot is released; and no call of `thread_join` has returned `0` for it
before. So none ever returns `0` twice. -/
theorem thread_join_delivers {as : List Act} {s : Table}
    (h : Run Table.step anyStep Table.boot as s) :
    ∃ g, Run History.step anyStep History.boot as g ∧ g.table = s ∧
      (∀ thread, g.joins thread ≤ 1) ∧
      ∀ p thread r t, s.step (.threadJoin p thread) = some t → s.joined p thread = some r →
        g.made thread = some (s.proc p).pid ∧ r = (g.passed thread).getD 0 ∧
          g.joins thread = 0 ∧
          ∃ q, s.joinFinds p thread = some q ∧ (s.proc q).lwpid = thread ∧
            (t.proc q).state = .unused := by
  obtain ⟨g, hrun, rfl⟩ := History.run_lift h
  have hi : Told g := hrun.inv Told.boot fun g a g' hi _ hs => by
    obtain ⟨t, ht, rfl⟩ := Option.map_eq_some_iff.mp hs
    exact hi.step ht
  refine ⟨g, hrun, rfl, hi.once, fun p thread r t ht hr => ?_⟩
  obtain ⟨hl, q, hq, hv⟩ := joined_some hr
  obtain ⟨hu, rfl, hne, hm, hm0⟩ := hi.found (used_of_threadJoin ht) hq
  have ho := hi.slot hu
  refine ⟨?_, ?_, ?_, q, hq, rfl, joined_released ht hl hq⟩
  · rw [← hm]
    exact ho.made hm0
  · rw [← hv]
    exact ho.passed hne
  · exact ho.joins hne

/-- An LWP passes `7` to `thread_exit`; its manager is about to join it. -/
def endedLwp : List Act :=
  [.sched 0 .running, .fork 0 .enough, .sched 1 .running, .threadCreate 1 true 9,
   .sched 2 .running, .threadExit 2 7]

theorem thread_join_delivers_endedLwp :
    ∃ s g t, Run Table.step anyStep Table.boot endedLwp s ∧
      Run History.step anyStep History.boot endedLwp g ∧ g.table = s ∧
      s.step (.threadJoin 1 1) = some t ∧ s.joined 1 1 = some 7 ∧ g.made 1 = some (s.proc 1).pid ∧
      7 = (g.passed 1).getD 0 ∧ g.joins 1 = 0 := by
  obtain ⟨s, hrun, hs⟩ := run_of_check Table.step anyStep Table.boot endedLwp
    (fun s => s.joined 1 1 = some 7 ∧ (s.step (.threadJoin 1 1)).isSome) (by decide +kernel)
  obtain ⟨t, ht⟩ := Option.isSome_iff_exists.mp hs.2
  obtain ⟨g, hgrun, hg, -, hall⟩ := thread_join_delivers hrun
  obtain ⟨hm, hp, hj, -⟩ := hall 1 1 7 t ht hs.1
  exact ⟨s, g, t, hrun, hgrun, hg, ht, hs.1, hm, hp, hj⟩

end Xv6.Process
