import Xv6.Process.Effect

/-!
# Process numbers

What holds of `pid`, `lwpid` and `lwppid` in every run, whatever the processes do: pids of slots in
use are positive and distinct, and only `thread_create` gives a slot a manager (`lwppid`).
-/

namespace Xv6.Process

open Function (update_self update_of_ne)

open Table Lib

/-- The numbers by which a slot is known. -/
structure SameIds (a b : Proc) : Prop where
  used : a.Used
  pid : b.pid = a.pid
  lwpid : b.lwpid = a.lwpid
  lwppid : b.lwppid = a.lwppid
  forked : b.forked = a.forked

lemma Keeps.sameIds {a b : Proc} (h : Keeps a b) (hb : b.Used) : SameIds a b :=
  ⟨h.1.mp hb, (h.same hb).pid, (h.same hb).lwpid, (h.same hb).lwppid, (h.same hb).forked⟩

lemma SameIds.isLwp {a b : Proc} (h : SameIds a b) (hb : b.Used) (ha : a.IsLwp) : b.IsLwp :=
  ⟨hb, h.lwpid ▸ ha.2.1, h.forked ▸ ha.2.2⟩

/-- The invariant. -/
structure Ids (s : Table) : Prop where
  pid_pos : ∀ {q}, (s.proc q).Used → 0 < (s.proc q).pid
  pid_lt : ∀ {q}, (s.proc q).Used → (s.proc q).pid < s.nextpid
  pid_inj : ∀ {q r}, (s.proc q).Used → (s.proc r).Used → (s.proc q).pid = (s.proc r).pid → q = r
  lwp : ∀ {q}, (s.proc q).Used → (s.proc q).lwppid ≠ 0 → (s.proc q).IsLwp
  nextpid_pos : 0 < s.nextpid
  nextlwpid_pos : 0 < s.nextlwpid

namespace Ids

variable {s t : Table}

lemma of_same (hi : Ids s) (hn : s.nextpid ≤ t.nextpid) (hl : s.nextlwpid ≤ t.nextlwpid)
    (h : ∀ q, (t.proc q).Used → SameIds (s.proc q) (t.proc q)) : Ids t where
  pid_pos {q} hq := by
    rw [(h q hq).pid]
    exact hi.pid_pos (h q hq).used
  pid_lt {q} hq := by
    rw [(h q hq).pid]
    exact (hi.pid_lt (h q hq).used).trans_le hn
  pid_inj {q r} hq hr he := by
    rw [(h q hq).pid, (h r hr).pid] at he
    exact hi.pid_inj (h q hq).used (h r hr).used he
  lwp {q} hq hne := by
    rw [(h q hq).lwppid] at hne
    exact (h q hq).isLwp hq (hi.lwp (h q hq).used hne)
  nextpid_pos := hi.nextpid_pos.trans_le hn
  nextlwpid_pos := hi.nextlwpid_pos.trans_le hl

/-- One slot comes into use, with the next pid. -/
lemma of_new (hi : Ids s) {q : ProcId} {np : Proc} (hp : t.proc = Function.update s.proc q np)
    (hn : t.nextpid = s.nextpid + 1) (hl : s.nextlwpid ≤ t.nextlwpid) (hpid : np.pid = s.nextpid)
    (hown : np.lwppid ≠ 0 → np.IsLwp) : Ids t := by
  have hother : ∀ r ≠ q, t.proc r = s.proc r := fun r hr => by
    rw [hp, update_of_ne hr]
  have hnew : t.proc q = np := by rw [hp, update_self]
  have hlt : ∀ r ≠ q, (t.proc r).Used → (t.proc r).pid < s.nextpid := fun r hr hu => by
    rw [hother r hr] at hu ⊢
    exact hi.pid_lt hu
  refine ⟨fun {r} hr => ?_, fun {r} hr => ?_, fun {r r'} hr hr' he => ?_, fun {r} hr hne => ?_,
    by omega, by have := hi.nextlwpid_pos; omega⟩
  · by_cases hrq : r = q
    · rw [hrq, hnew, hpid]
      exact hi.nextpid_pos
    · rw [hother r hrq] at hr ⊢
      exact hi.pid_pos hr
  · by_cases hrq : r = q
    · rw [hrq, hnew, hpid, hn]
      exact Nat.lt_succ_self _
    · have := hlt r hrq hr
      omega
  · by_cases hrq : r = q <;> by_cases hrq' : r' = q
    · rw [hrq, hrq']
    · have := hlt r' hrq' hr'
      rw [← he, hrq, hnew, hpid] at this
      exact absurd this (Nat.lt_irrefl _)
    · have := hlt r hrq hr
      rw [he, hrq', hnew, hpid] at this
      exact absurd this (Nat.lt_irrefl _)
    · rw [hother r hrq] at hr he
      rw [hother r' hrq'] at hr' he
      exact hi.pid_inj hr hr' he
  · by_cases hrq : r = q
    · rw [hrq, hnew] at hne ⊢
      exact hown hne
    · rw [hother r hrq] at hr hne ⊢
      exact hi.lwp hr hne

lemma step {a : Act} (hi : Ids s) (h : s.step a = some t) : Ids t := by
  cases step_effect h with
  | quiet _ hq =>
    exact hi.of_same hq.nextpid hq.nextlwpid fun q hu => (hq.kept q).keeps.sameIds hu
  | stop _ msg _ => exact hi.of_same le_rfl le_rfl fun q hu => (Keeps.refl _).sameIds hu
  | @fork p q d hp hq hd =>
    refine hi.of_new rfl rfl ?_ rfl (by simp [child])
    show s.nextlwpid ≤ if 0 < (s.proc p).lwpid then s.nextlwpid + 1 else s.nextlwpid
    split <;> omega
  | @exec p d sz hp hd =>
    refine hi.of_same le_rfl le_rfl fun r hr => ?_
    by_cases hrp : r = p
    · subst hrp
      simp only [update_self] at hr ⊢
      exact ⟨hr, rfl, rfl, rfl, rfl⟩
    · simp only [update_of_ne hrp] at hr ⊢
      exact (Keeps.refl _).sameIds hr
  | @create p q stack avail i d sz pg hp hq hd =>
    refine hi.of_new rfl rfl (Nat.le_succ _) rfl fun _ => ?_
    exact ⟨by simp [Proc.Used, Table.lwp], hi.nextlwpid_pos, rfl⟩
  | @createFail p q stack avail i d pg hp hq hd =>
    refine hi.of_same (Nat.le_succ _) (Nat.le_succ _) fun r hr => ?_
    exact (kept_of_unused hq (by simp [Proc.Used, Table.lwp]) r).keeps.sameIds hr
  | @threadExit p retval f hp hf =>
    refine hi.of_same le_rfl le_rfl fun r hr => ?_
    by_cases hrp : r = p
    · subst hrp
      have hk := (hf r).keeps.sameIds ((hf r).keeps.1.mpr (used_of_calls hp))
      simp only [update_self]
      exact ⟨hk.used, hk.pid, hk.lwpid, hk.lwppid, hk.forked⟩
    · simp only [update_of_ne hrp] at hr ⊢
      exact (hf r).keeps.sameIds hr
  | @exitScan p f pg hp hz hk hkp =>
    refine hi.of_same le_rfl le_rfl fun r hr => ?_
    by_cases hrp : r = p
    · subst hrp
      exact hkp.sameIds hr
    · exact (hk r (fun h => hz r h hr) hrp).keeps.sameIds hr
  | @wait p q d f hfind hz hd hq hf | @join p q thread f pg hp hfind hl hown hq hf =>
    exact hi.of_same le_rfl le_rfl fun r hr => (hf r fun h => hq (h ▸ hr)).keeps.sameIds hr
  | grow hp hn ho hd => exact hi.of_same le_rfl le_rfl fun r hr => ⟨hr, rfl, rfl, rfl, rfl⟩

lemma boot : Ids Table.boot := by
  have h : ∀ {q}, (Table.boot.proc q).Used → q = initproc := by
    intro q hq
    by_contra hne
    exact hq (by simp [Table.boot, hne, Proc.zero])
  refine ⟨fun {q} hq => ?_, fun {q} hq => ?_, fun {q r} hq hr _ => ?_, fun {q} hq hne => ?_,
    by decide, by decide⟩
  · rw [h hq]; decide
  · rw [h hq]; decide
  · rw [h hq, h hr]
  · rw [h hq] at hne
    exact absurd rfl hne

end Ids

/-- In every run, as long as `nextpid` has not come to the end of its type, the pids of the slots in use,
which are `int`s, are positive, below `nextpid` and distinct. -/
theorem pids_distinct {as : List Act} {t : Table} (hrun : Run Table.step anyStep Table.boot as t)
    (hint : t.nextpid < 2 ^ 31) {q r : ProcId} (hq : (t.proc q).Used) (hr : (t.proc r).Used) :
    0 < Int32.ofNat (t.proc q).pid ∧ Int32.ofNat (t.proc q).pid < Int32.ofNat t.nextpid ∧
      (Int32.ofNat (t.proc q).pid = Int32.ofNat (t.proc r).pid → q = r) := by
  have h : Ids t := hrun.inv .boot fun _ _ _ h _ hs => h.step hs
  have hpid : ∀ {x}, (t.proc x).Used → (Int32.ofNat (t.proc x).pid).toInt = (t.proc x).pid := fun hx =>
    Int32.toInt_ofNat_of_lt ((h.pid_lt hx).trans hint)
  refine ⟨?_, ?_, fun heq => h.pid_inj hq hr ?_⟩
  · rw [Int32.lt_iff_toInt_lt, hpid hq]
    exact Int.natCast_pos.mpr (h.pid_pos hq)
  · rw [Int32.lt_iff_toInt_lt, hpid hq, Int32.toInt_ofNat_of_lt hint]
    exact Int.ofNat_lt.mpr (h.pid_lt hq)
  · have := congrArg Int32.toInt heq
    rw [hpid hq, hpid hr] at this
    exact Int.ofNat.inj this

theorem pids_distinct_fork : ∃ t : Table,
    Run Table.step anyStep Table.boot [.sched 0 .running, .fork 0 .enough] t ∧ (t.proc 0).Used ∧
      (t.proc 1).Used ∧ Int32.ofNat (t.proc 0).pid ≠ Int32.ofNat (t.proc 1).pid := by
  obtain ⟨t, hrun, hint, h0, h1⟩ := run_of_check Table.step anyStep Table.boot
    [.sched 0 .running, .fork 0 .enough] (fun t => t.nextpid < 2 ^ 31 ∧ (t.proc 0).Used ∧ (t.proc 1).Used)
    (by decide +kernel)
  exact ⟨t, hrun, h0, h1, fun h => absurd ((pids_distinct hrun hint h0 h1).2.2 h) (by decide)⟩

end Xv6.Process
