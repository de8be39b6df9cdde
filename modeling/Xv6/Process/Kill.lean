import Xv6.Process.Killed

/-!
# Whom `kill` kills

A manager's `kill(pid)` looks for the first slot with that pid, in use or not; an LWP's marks every slot with
an LWP number and does not look at the pid. So a manager's call is right as long as no free slot carries the
pid (`kill(0)` finds the first slot that was never used), and an LWP's call only where all LWP numbers, those
of forked children included, belong to the thread group of the process that has the pid.
-/

namespace Xv6.Process

open Lib Table

/-- The thread group of a process, named by the pid of its manager. -/
def Proc.group (a : Proc) : Nat := if a.lwppid ≠ 0 then a.lwppid else a.pid

namespace Table

variable (s : Table)

/-- `kill(pid)` by `p`: what it returns, and the table after it. -/
def killCall (p : ProcId) (pid : Int) : Int × Table :=
  if 0 < (s.proc p).lwpid then (0, s.kill p pid.toNat)
  else
    match s.findSlot fun pr => (pr.pid : Int) = pid with
    | some _ => (0, s.kill p pid.toNat)
    | none => (-1, s)

/-- Slot `q` holds the process that `pid` names. -/
def Target (pid : Int) (q : ProcId) : Prop := (s.proc q).Used ∧ ((s.proc q).pid : Int) = pid

/-- Slot `q` holds a process of the thread group of the one that `pid` names. -/
def InGroup (pid : Int) (q : ProcId) : Prop :=
  (s.proc q).Used ∧ ∃ m, s.Target pid m ∧ (s.proc q).group = (s.proc m).group

/-- `kill(pid)` by `p` returns 0 exactly if there is such a process, and kills it; outside its thread
group nothing changes. -/
structure KillsTarget (p : ProcId) (pid : Int) : Prop where
  returns : (s.killCall p pid).1 = 0 ↔ ∃ q, s.Target pid q
  target : ∀ q, s.Target pid q → ((s.killCall p pid).2.proc q).killed = true
  others : ∀ q, ¬ s.InGroup pid q →
    ((s.killCall p pid).2.proc q).killed = (s.proc q).killed ∧
      ((s.killCall p pid).2.proc q).state = (s.proc q).state

/-- For a manager, no free slot carries the pid. For an LWP, the process is there and has an LWP number, or
has been killed before; and every slot with an LWP number is of its thread group, or has been killed before
and does not sleep. -/
def KillSafe (p : ProcId) (pid : Int) : Prop :=
  if 0 < (s.proc p).lwpid then
    (∃ q, s.Target pid q) ∧
      (∀ q, s.Target pid q → 0 < (s.proc q).lwpid ∨ (s.proc q).killed = true) ∧
      ∀ q, 0 < (s.proc q).lwpid →
        s.InGroup pid q ∨ (s.proc q).killed = true ∧ (s.proc q).state ≠ .sleeping
  else ∀ q, ((s.proc q).pid : Int) = pid → (s.proc q).Used

instance (pid : Int) : DecidablePred (s.Target pid) := fun _ => inferInstanceAs (Decidable (_ ∧ _))

instance (pid : Int) : DecidablePred (s.InGroup pid) := fun _ => inferInstanceAs (Decidable (_ ∧ _))

instance (p : ProcId) (pid : Int) : Decidable (s.KillSafe p pid) := by
  unfold KillSafe
  split <;> infer_instance

end Table

section

variable {s : Table} {p q : ProcId} {pid : Int}

lemma Proc.hit_same {a : Proc} :
    (a.hit.killed = a.killed ∧ a.hit.state = a.state) ↔ a.killed ∧ a.state ≠ .sleeping := by
  unfold Proc.hit
  constructor
  · intro ⟨hk, hs⟩
    refine ⟨hk.symm, fun heq => ?_⟩
    simp [heq] at hs
  · intro ⟨hk, hs⟩
    exact ⟨hk.symm, if_neg hs⟩

lemma killCall_lwp (hp : 0 < (s.proc p).lwpid) : s.killCall p pid = (0, { s with
    proc := fun q => if 0 < (s.proc q).lwpid then (s.proc q).hit else s.proc q }) := by
  rw [killCall, if_pos hp, kill, if_pos hp]

lemma killCall_found (hp : ¬ 0 < (s.proc p).lwpid)
    (hfind : s.findSlot (fun pr => (pr.pid : Int) = pid) = some q) :
    s.killCall p pid = (0, s.modify q Proc.hit) := by
  have hpid : ((s.proc q).pid : Int) = pid := by simpa using findSlot_some hfind
  have hsame : (fun pr : Proc => decide (pr.pid = pid.toNat)) = fun pr => decide ((pr.pid : Int) = pid) := by
    funext pr
    exact decide_eq_decide.mpr (by omega)
  rw [killCall, if_neg hp, hfind, kill, if_neg hp, hsame, hfind]

lemma killCall_none (hp : ¬ 0 < (s.proc p).lwpid)
    (hfind : s.findSlot (fun pr => (pr.pid : Int) = pid) = none) : s.killCall p pid = (-1, s) := by
  rw [killCall, if_neg hp, hfind]

lemma findSlot_none {P : Proc → Bool} (h : s.findSlot P = none) (q : ProcId) : P (s.proc q) = false := by
  have := List.find?_eq_none.mp h q (List.mem_finRange q)
  simpa using this

lemma Table.Target.inGroup (h : s.Target pid q) : s.InGroup pid q := ⟨h.1, q, h, rfl⟩

lemma killsTarget_lwp (hp : 0 < (s.proc p).lwpid) : s.KillsTarget p pid ↔ s.KillSafe p pid := by
  have hcall : s.killCall p pid = _ := killCall_lwp hp
  have hslot : ∀ q, (s.killCall p pid).2.proc q =
      if 0 < (s.proc q).lwpid then (s.proc q).hit else s.proc q := fun q => by rw [hcall]
  unfold KillSafe
  rw [if_pos hp]
  constructor
  · intro h
    refine ⟨h.returns.mp (by rw [hcall]), fun q hq => ?_, fun q hq => ?_⟩
    · have hk := h.target q hq
      rw [hslot] at hk
      split at hk
      next hl => exact .inl hl
      next => exact .inr hk
    · by_cases hin : s.InGroup pid q
      · exact .inl hin
      · have hsame := h.others q hin
        rw [hslot, if_pos hq] at hsame
        exact .inr (Proc.hit_same.mp hsame)
  · intro ⟨hex, htarget, hothers⟩
    refine ⟨⟨fun _ => hex, fun _ => by rw [hcall]⟩, fun q hq => ?_, fun q hq => ?_⟩
    · rw [hslot]
      split
      next => rfl
      next hl => exact (htarget q hq).resolve_left hl
    · rw [hslot]
      split
      next hl => exact Proc.hit_same.mpr ((hothers q hl).resolve_left hq)
      next => exact ⟨rfl, rfl⟩

lemma killsTarget_manager (hi : StalePids s) (hp : ¬ 0 < (s.proc p).lwpid) :
    s.KillsTarget p pid ↔ s.KillSafe p pid := by
  unfold KillSafe
  rw [if_neg hp]
  cases hfind : s.findSlot (fun pr => (pr.pid : Int) = pid) with
  | none =>
    have hno : ∀ q, ((s.proc q).pid : Int) ≠ pid := fun q => by simpa using findSlot_none hfind q
    have hcall := killCall_none hp hfind
    refine ⟨fun _ q hq => absurd hq (hno q), fun _ => ⟨?_, ?_, ?_⟩⟩
    · rw [hcall]
      exact ⟨nofun, fun ⟨q, hq⟩ => absurd hq.2 (hno q)⟩
    · exact fun q hq => absurd hq.2 (hno q)
    · intro q _
      rw [hcall]
      exact ⟨rfl, rfl⟩
  | some m =>
    have hm : ((s.proc m).pid : Int) = pid := by simpa using findSlot_some hfind
    have hcall := killCall_found hp hfind
    constructor
    · intro h q hq
      -- somebody has the pid, and then it is not one of a free slot
      obtain ⟨r, hr⟩ := h.returns.mp (by rw [hcall])
      by_contra hfree
      exact hi.stale hfree hr.1 (by exact_mod_cast hq.trans hr.2.symm)
    · intro h
      have hused := h m hm
      have htarget : s.Target pid m := ⟨hused, hm⟩
      refine ⟨?_, fun q hq => ?_, fun q hq => ?_⟩
      · rw [hcall]
        exact ⟨fun _ => ⟨m, htarget⟩, fun _ => rfl⟩
      · have hqm : q = m := hi.ids.pid_inj hq.1 hused (by exact_mod_cast hq.2.trans hm.symm)
        rw [hcall, hqm]
        show ((s.modify m Proc.hit).proc m).killed = true
        rw [modify_self]
        rfl
      · have hqm : q ≠ m := fun heq => hq (heq ▸ htarget.inGroup)
        rw [hcall]
        show ((s.modify m Proc.hit).proc q).killed = _ ∧ ((s.modify m Proc.hit).proc q).state = _
        rw [modify_of_ne hqm]
        exact ⟨rfl, rfl⟩

/-- **Whom `kill` kills.** In every reachable state, for every caller and every `int`. -/
theorem kill_affects_target {as : List Act} (hrun : Run Table.step anyStep Table.boot as s)
    (p : ProcId) (pid : Int) : s.KillsTarget p pid ↔ s.KillSafe p pid := by
  have hi : StalePids s := hrun.inv StalePids.boot fun _ _ _ hi _ hs => hi.step hs
  by_cases hp : 0 < (s.proc p).lwpid
  · exact killsTarget_lwp hp
  · exact killsTarget_manager hi hp

end

/-- `init` kills its child. -/
theorem kill_affects_target_child :
    ∃ s, Run Table.step anyStep Table.boot [.sched 0 .running, .fork 0 .enough] s ∧
      s.Target 2 1 ∧ s.KillsTarget 0 2 := by
  obtain ⟨s, hrun, htarget, hsafe⟩ := run_of_check Table.step anyStep Table.boot
    [.sched 0 .running, .fork 0 .enough] (fun s => s.Target 2 1 ∧ s.KillSafe 0 2) (by decide +kernel)
  exact ⟨s, hrun, htarget, (kill_affects_target hrun 0 2).mpr hsafe⟩

/-- `init` has two children, each with an LWP. That of the first child is in slot 2 and kills pid 77, which
nobody has: the call returns 0 and the LWP of the other child is killed. -/
def twoGroups : List Act :=
  [.sched 0 .running, .fork 0 .enough, .sched 1 .running, .threadCreate 1 true 10, .fork 0 .enough,
    .sched 3 .running, .threadCreate 3 true 10, .sched 2 .running]

theorem kill_hits_others :
    (∃ s, Run Table.step anyStep Table.boot twoGroups s ∧ s.calls 2 ∧
      (s.killCall 2 77).1 = 0 ∧ (∀ q, ¬ s.Target 77 q) ∧ (s.proc 4).killed = false ∧
      ((s.killCall 2 77).2.proc 4).killed = true ∧ ¬ s.KillsTarget 2 77) ∧
    ∃ s, Run Table.step anyStep Table.boot [.sched 0 .running] s ∧ s.calls 0 ∧
      (s.killCall 0 0).1 = 0 ∧ (∀ q, ¬ s.Target 0 q) ∧ ¬ s.KillsTarget 0 0 := by
  constructor
  · obtain ⟨s, hrun, hcalls, hret, hno, hbefore, hafter⟩ := run_of_check Table.step anyStep Table.boot
      twoGroups (fun s => s.calls 2 ∧ (s.killCall 2 77).1 = 0 ∧ (∀ q, ¬ s.Target 77 q) ∧
        (s.proc 4).killed = false ∧ ((s.killCall 2 77).2.proc 4).killed = true) (by decide +kernel)
    refine ⟨s, hrun, hcalls, hret, hno, hbefore, hafter, fun h => ?_⟩
    obtain ⟨q, hq⟩ := h.returns.mp hret
    exact hno q hq
  · obtain ⟨s, hrun, hcalls, hret, hno⟩ := run_of_check Table.step anyStep Table.boot
      [.sched 0 .running] (fun s => s.calls 0 ∧ (s.killCall 0 0).1 = 0 ∧ ∀ q, ¬ s.Target 0 q)
      (by decide +kernel)
    refine ⟨s, hrun, hcalls, hret, hno, fun h => ?_⟩
    obtain ⟨q, hq⟩ := h.returns.mp hret
    exact hno q hq

end Xv6.Process
