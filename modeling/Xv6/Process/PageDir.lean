import Xv6.Process.Effect

/-!
# Page directories in use and page directories freed

`thread_create` lets a manager and its LWPs share one page directory, and two calls free one without
counting who else uses it: `exec` frees the directory its caller leaves, and `wait` that of the child
it reaps. Where neither meets a shared directory, no process ever runs on a freed one and none is
freed twice (`pgdir_in_use`). Nothing keeps a program from that: `shared_pgdir_freed` is a manager
that calls `wait` where it should call `thread_join`.
-/

namespace Xv6.Process

open Function (update_self update_of_ne)

open Lib Table

/-- The slot holds a process that runs or may run again. -/
def Proc.Live (p : Proc) : Prop := p.state = .runnable ∨ p.state = .running ∨ p.state = .sleeping

instance : DecidablePred Proc.Live := fun _ => inferInstanceAs (Decidable (_ ∨ _ ∨ _))

lemma Proc.Live.used {p : Proc} (h : p.Live) : p.Used := by
  rcases h with h | h | h <;> simp [Proc.Used, h]

/-- No other slot in use has the page directory of `q`. -/
def Table.Unshared (s : Table) (q : ProcId) : Prop :=
  ∀ r, r ≠ q → (s.proc r).Used → (s.proc r).pgdir ≠ (s.proc q).pgdir

instance (s : Table) (q : ProcId) : Decidable (s.Unshared q) :=
  inferInstanceAs (Decidable (∀ _, _))

/-- The caller of an `exec` that goes through, and the child a `wait` reaps, share their page
directory with no other slot. -/
def FreesUnshared (s : Table) : Act → Prop
  | .exec p (.done _) => s.Unshared p
  | .wait p => ∀ q ∈ s.waitFinds p, s.Unshared q
  | _ => True

instance (s : Table) : DecidablePred (FreesUnshared s) := fun a => by
  unfold FreesUnshared
  split <;> infer_instance

/-- The invariant: a slot in use has a page directory that was not freed. -/
structure DirInv (s : Table) : Prop where
  used : ∀ p, (s.proc p).Used → ∃ d, (s.proc p).pgdir = some d ∧ d < s.nextdir ∧ d ∉ s.freed
  freed_lt : ∀ d ∈ s.freed, d < s.nextdir
  nodup : s.freed.Nodup

namespace DirInv

variable {s t : Table}

/-- A slot that holds the process it held. -/
lemma slot (hi : DirInv s) {p : ProcId} {b : Proc} (hk : Keeps (s.proc p) b) (hb : b.Used) :
    ∃ d, b.pgdir = some d ∧ d < s.nextdir ∧ d ∉ s.freed := by
  rw [(hk.same hb).pgdir]
  exact hi.used p (hk.1.mp hb)

lemma next_fresh (hi : DirInv s) : s.nextdir ∉ s.freed :=
  fun h => absurd (hi.freed_lt _ h) (Nat.lt_irrefl _)

lemma of_same_dirs (hi : DirInv s) (hn : t.nextdir = s.nextdir) (hf : t.freed = s.freed)
    (h : ∀ p, (t.proc p).Used → ∃ d, (t.proc p).pgdir = some d ∧ d < s.nextdir ∧ d ∉ s.freed) : DirInv t where
  used p hp := by
    rw [hn, hf]
    exact h p hp
  freed_lt := by
    rw [hn, hf]
    exact hi.freed_lt
  nodup := hf ▸ hi.nodup

lemma of_freed (hi : DirInv s) {d : Nat} (hn : s.nextdir ≤ t.nextdir) (hd : d < t.nextdir)
    (hnew : d ∉ s.freed) (hf : t.freed = d :: s.freed)
    (h : ∀ p, (t.proc p).Used →
      ∃ e, (t.proc p).pgdir = some e ∧ e < t.nextdir ∧ e ≠ d ∧ e ∉ s.freed) : DirInv t where
  used p hp := by
    obtain ⟨e, he, hlt, hne, hnf⟩ := h p hp
    refine ⟨e, he, hlt, ?_⟩
    rw [hf]
    simp [hne, hnf]
  freed_lt e he := by
    rw [hf] at he
    rcases List.mem_cons.mp he with rfl | he
    · exact hd
    · exact (hi.freed_lt e he).trans_le hn
  nodup := by
    rw [hf]
    exact List.nodup_cons.mpr ⟨hnew, hi.nodup⟩

lemma quiet (hi : DirInv s) (h : Quiet s t) : DirInv t := by
  rcases h.dirs with ⟨hn, hf⟩ | ⟨hn, hf⟩
  · exact hi.of_same_dirs hn hf fun p hp => hi.slot (h.kept p).keeps hp
  · refine hi.of_freed (by omega) (by omega) hi.next_fresh hf fun p hp => ?_
    obtain ⟨d, hd, hlt, hnf⟩ := hi.slot (h.kept p).keeps hp
    exact ⟨d, hd, by omega, by omega, hnf⟩

lemma ne_of_unshared {q r : ProcId} {d e : Nat} (hu : s.Unshared q)
    (hd : (s.proc q).pgdir = some d) (hr : r ≠ q) (hused : (s.proc r).Used)
    (he : (s.proc r).pgdir = some e) : e ≠ d := by
  intro h
  exact hu r hr hused (by rw [he, hd, h])

lemma step {a : Act} (hi : DirInv s) (hc : FreesUnshared s a) (h : s.step a = some t) : DirInv t := by
  cases step_effect h with
  | quiet _ hq => exact hi.quiet hq
  | stop _ msg _ => exact hi.of_same_dirs rfl rfl hi.used
  | @fork p q d hp hq hd =>
    refine ⟨fun r hr => ?_, fun e he => Nat.lt_succ_of_lt (hi.freed_lt e he), hi.nodup⟩
    by_cases hrq : r = q
    · refine ⟨s.nextdir, ?_, Nat.lt_succ_self _, hi.next_fresh⟩
      simp [hrq, child]
    · simp only [update_of_ne hrq] at hr ⊢
      obtain ⟨e, he, hlt, hnf⟩ := hi.used r hr
      exact ⟨e, he, Nat.lt_succ_of_lt hlt, hnf⟩
  | @exec p d sz hp hd =>
    obtain ⟨d', hd', hlt, hnf⟩ := hi.used p (used_of_calls hp)
    obtain rfl : d = d' := Option.mem_unique hd hd'
    refine hi.of_freed (Nat.le_succ _) (Nat.lt_succ_of_lt hlt) hnf rfl fun r hr => ?_
    by_cases hrp : r = p
    · refine ⟨s.nextdir, ?_, Nat.lt_succ_self _, by omega, hi.next_fresh⟩
      simp [hrp]
    · simp only [update_of_ne hrp] at hr ⊢
      obtain ⟨e, he, hlt', hnf'⟩ := hi.used r hr
      exact ⟨e, he, Nat.lt_succ_of_lt hlt', ne_of_unshared hc hd hrp hr he, hnf'⟩
  | @create p q stack avail i d sz pg hp hq hd =>
    refine hi.of_same_dirs rfl rfl fun r hr => ?_
    by_cases hrq : r = q
    · -- the directory of the creator
      simp only [withLwp, lwp, hrq, update_self]
      exact hi.used p (used_of_calls hp)
    · simp only [withLwp, update_of_ne hrq] at hr ⊢
      exact hi.used r hr
  | @createFail p q stack avail i d pg hp hq hd =>
    refine hi.of_same_dirs rfl rfl fun r hr => ?_
    exact hi.slot (kept_of_unused hq (by simp [Proc.Used, lwp]) r).keeps hr
  | @threadExit p retval f hp hf =>
    refine hi.of_same_dirs rfl rfl fun r hr => ?_
    by_cases hrp : r = p
    · simp only [hrp, update_self]
      exact hi.slot (hf p).keeps ((hf p).keeps.1.mpr (used_of_calls hp))
    · simp only [update_of_ne hrp] at hr ⊢
      exact hi.slot (hf r).keeps hr
  | @exitScan p f pg hp hz hk hkp =>
    refine hi.of_same_dirs rfl rfl fun r hr => ?_
    by_cases hrz : r ∈ s.ownZombies p
    · exact absurd hr (hz r hrz)
    · by_cases hrp : r = p
      · exact hi.slot (hrp ▸ hkp) hr
      · exact hi.slot (hk r hrz hrp).keeps hr
  | @wait p q d f hfind hz hd hq hf =>
    obtain ⟨d', hd', hlt, hnf⟩ := hi.used q (used_of_zombie hz)
    obtain rfl : d = d' := Option.mem_unique hd hd'
    refine hi.of_freed le_rfl hlt hnf rfl fun r hr => ?_
    have hrq : r ≠ q := fun h => hq (h ▸ hr)
    obtain ⟨e, he, hlt', hnf'⟩ := hi.slot (hf r hrq).keeps hr
    have hkept := (hf r hrq).keeps
    exact ⟨e, he, hlt', ne_of_unshared (hc q hfind) hd hrq (hkept.1.mp hr)
      ((hkept.same hr).pgdir ▸ he), hnf'⟩
  | @join p q thread f pg hp hfind hl hown hq hf =>
    refine hi.of_same_dirs rfl rfl fun r hr => ?_
    have hrq : r ≠ q := fun h => hq (h ▸ hr)
    exact hi.slot (hf r hrq).keeps hr
  | grow hp hn ho hd => exact hi.of_same_dirs rfl rfl fun r hr => hi.used r hr

lemma boot : DirInv Table.boot := by
  refine ⟨fun p hp => ?_, by simp [Table.boot], by simp [Table.boot]⟩
  by_cases h : p = initproc
  · exact ⟨0, by simp [Table.boot, h], by simp [Table.boot], by simp [Table.boot]⟩
  · exact absurd hp (by simp [Table.boot, h, Proc.Used, Proc.zero])

end DirInv

/-- In every run in which `exec` and `wait` free unshared page directories only, no process that
runs or may run again has a page directory that was freed, and none is freed twice. -/
theorem pgdir_in_use {as : List Act} {s : Table} (h : Run Table.step FreesUnshared Table.boot as s) :
    (∀ p, (s.proc p).Live → ∃ d, (s.proc p).pgdir = some d ∧ d ∉ s.freed) ∧ s.freed.Nodup := by
  have hi : DirInv s := h.inv DirInv.boot fun _ _ _ hi hc hs => hi.step hc hs
  refine ⟨fun p hp => ?_, hi.nodup⟩
  obtain ⟨d, hd, -, hnf⟩ := hi.used p hp.used
  exact ⟨d, hd, hnf⟩

/-- A process that replaces its image, creates an LWP and joins it, and is reaped by `init`. -/
def joinedLwp : List Act :=
  [.sched 0 .running, .fork 0 .enough, .sched 1 .running, .exec 1 (.done 12288),
   .threadCreate 1 true 9, .sched 2 .running, .threadExit 2 0, .threadJoin 1 1,
   .exit 1, .exitScan 1, .exitEnd 1, .wait 0]

theorem pgdir_in_use_joinedLwp :
    ∃ s, Run Table.step FreesUnshared Table.boot joinedLwp s ∧ s.freed = [2, 1] ∧
      (∀ p, (s.proc p).Live → ∃ d, (s.proc p).pgdir = some d ∧ d ∉ s.freed) ∧ s.freed.Nodup := by
  obtain ⟨s, hrun, hs⟩ := run_of_check Table.step FreesUnshared Table.boot joinedLwp
    (fun s => s.freed = [2, 1]) (by decide +kernel)
  exact ⟨s, hrun, hs, pgdir_in_use hrun⟩

/-- A manager whose LWP has ended in `thread_exit` calls `wait`, not `thread_join`. -/
def waitedLwp : List Act :=
  [.sched 0 .running, .fork 0 .enough, .sched 1 .running, .threadCreate 1 true 9,
   .sched 2 .running, .threadExit 2 0, .wait 1]

/-- The `wait` of the manager frees the page directory on which it runs itself; when the manager
exits, the `wait` of `init` frees that directory once more. -/
theorem shared_pgdir_freed :
    ∃ s t, Run Table.step anyStep Table.boot waitedLwp s ∧
      (s.proc 1).state = .running ∧ (s.proc 1).pgdir = some 1 ∧ 1 ∈ s.freed ∧
      Run Table.step anyStep Table.boot
        (waitedLwp ++ [.exit 1, .exitScan 1, .exitEnd 1, .wait 0]) t ∧ t.freed = [1, 1] := by
  obtain ⟨s, hs, h⟩ := run_of_check Table.step anyStep Table.boot waitedLwp
    (fun s => (s.proc 1).state = .running ∧ (s.proc 1).pgdir = some 1 ∧ 1 ∈ s.freed)
    (by decide +kernel)
  obtain ⟨t, ht, hf⟩ := run_of_check Table.step anyStep Table.boot
    (waitedLwp ++ [.exit 1, .exitScan 1, .exitEnd 1, .wait 0]) (fun t => t.freed = [1, 1])
    (by decide +kernel)
  exact ⟨s, t, hs, h.1, h.2.1, h.2.2, ht, hf⟩

end Xv6.Process
