import Xv6.Disk.Invariant

/-!
# Recovery

`recover_from_log` runs alone, on a cache that pins nothing. From a disk whose header is sound it
never panics and always finishes (`recovery_finishes`), and whatever disk it leaves behind when it is
stopped on the way still recovers to the same contents (`recovers_replay`): `replay d` is what a disk
`d` stands for.
-/

namespace Xv6.Disk

open Function (update_self update_of_ne)
open Lib

/-! ### What a disk stands for -/

/-- The blocks that the on-disk header declares committed. -/
def header (d : Nat → Block) : List Nat := getHeader (d logStart)

/-- The contents a disk stands for: a declared block is in its log slot. -/
def replay (d : Nat → Block) (b : Nat) : Block :=
  if b ∈ header d then d (slot ((header d).idxOf b)) else d b

/-- The header declares distinct blocks of the disk outside of the log region, each with a slot. -/
structure HeaderOk (d : Nat → Block) : Prop where
  nodup : (header d).Nodup
  home : ∀ b ∈ header d, Home b
  range : ∀ b ∈ header d, b < fsSize
  len : (header d).length < logSize

variable {d d' : Nat → Block}

lemma HeaderOk.congr (hd : HeaderOk d) (hh : header d' = header d) : HeaderOk d' := by
  obtain ⟨hnodup, hhome, hrange, hlen⟩ := hd
  constructor <;> rwa [hh]

lemma headerOk_zeroDisk : HeaderOk zeroDisk := by
  have hnil : header zeroDisk = [] := by decide +kernel
  constructor <;> simp [hnil, logSize]

lemma replay_of_notMem {b : Nat} (h : b ∉ header d) : replay d b = d b :=
  if_neg h

lemma replay_of_get {b j : Nat} (hd : (header d).Nodup)
    (h : (header d)[j]? = some b) : replay d b = d (slot j) := by
  obtain ⟨hj, rfl⟩ := List.getElem?_eq_some_iff.mp h
  unfold replay
  rw [if_pos (List.getElem_mem hj), hd.idxOf_getElem j hj]

lemma replay_congr (hd : HeaderOk d) (harea : ∀ x, ¬ Home x → d' x = d x)
    (hrest : ∀ b, Home b → b ∉ header d → d' b = d b) :
    HeaderOk d' ∧ ∀ b, Home b → replay d' b = replay d b := by
  have hh : header d' = header d := by
    unfold header
    rw [harea logStart not_home_logStart]
  have hd' := hd.congr hh
  refine ⟨hd', fun b hb => ?_⟩
  by_cases hm : b ∈ header d
  · obtain ⟨j, hget⟩ := List.mem_iff_getElem?.mp hm
    have hj := (List.getElem?_eq_some_iff.mp hget).1
    have hlen := hd.len
    rw [replay_of_get hd.nodup hget, replay_of_get hd'.nodup (by rw [hh]; exact hget)]
    exact harea _ (not_home_slot (by omega))
  · rw [replay_of_notMem hm, replay_of_notMem (by rw [hh]; exact hm)]
    exact hrest b hb hm

/-! ### One step of recovery -/

/-- The first `t` declared blocks are installed, the others are as they were on disk `d`. -/
structure Copied (d want : Nat → Block) (t : Nat) : Prop where
  area : ∀ x, ¬ Home x → want x = d x
  rest : ∀ b, Home b → b ∉ header d → want b = d b
  done : ∀ j b, j < t → (header d)[j]? = some b → want b = d (slot j)

/-- Where recovery from disk `d` has got to. -/
def RecPhase (d : Nat → Block) (A : Abs) : Pc → Prop
  | .readHead => A.want = d
  | .install .recover t => A.log.lh = header d ∧ Copied d A.want t
  | .reset .recover => Copied d A.want (header d).length
  | .clearHead .recover => A.log.lh = [] ∧ Copied d A.want (header d).length
  | .user => header A.want = [] ∧ ∀ b, Home b → A.want b = replay d b
  | _ => False

lemma RecPhase.eq_user {d : Nat → Block} {A : Abs} {c : Pc} (h : RecPhase d A c)
    (hrec : c.recovering = false) : c = .user := by
  cases c with
  | user => rfl
  | install c _ | reset c | clearHead c =>
    cases c <;> first | exact h.elim | simp [Pc.recovering] at hrec
  | readHead => simp [Pc.recovering] at hrec
  | _ => exact h.elim

/-- The system is in (or has just finished) recovery from disk `d`. -/
structure Rec (d : Nat → Block) (s : Sys) (A : Abs) : Prop where
  shows_ : Shows s A
  pin : A.pin = ∅
  idle : ∀ j, (s.k.buf j).lock = none
  alone : ∀ q, q ≠ initProc → A.pc q = .user
  phase : RecPhase d A (A.pc initProc)

/-- How many steps recovery still takes, with `n` declared blocks. -/
def recMeasure (n : Nat) : Pc → Nat
  | .readHead => n + 5
  | .install _ t => (n - t) + 3
  | .reset _ => 2
  | .clearHead _ => 1
  | _ => 0

lemma Copied.replay {d want : Nat → Block} (hd : HeaderOk d)
    (h : Copied d want (header d).length) {b : Nat} (hb : Home b) : want b = replay d b := by
  by_cases hm : b ∈ header d
  · obtain ⟨j, hget⟩ := List.mem_iff_getElem?.mp hm
    rw [replay_of_get hd.nodup hget]
    exact h.done j b (List.getElem?_eq_some_iff.mp hget).1 hget
  · rw [replay_of_notMem hm]
    exact h.rest b hb hm

lemma Copied.install {d want : Nat → Block} {t b : Nat} (hd : HeaderOk d) (h : Copied d want t)
    (hb : (header d)[t]? = some b) : Copied d (Function.update want b (want (slot t))) (t + 1) := by
  have hmem := List.mem_of_getElem? hb
  have ht : t < (header d).length := (List.getElem?_eq_some_iff.mp hb).1
  have hlen := hd.len
  have hslot : want (slot t) = d (slot t) := h.area _ (not_home_slot (by omega))
  refine ⟨?_, ?_, ?_⟩
  · intro x hx
    rw [update_of_ne (by rintro rfl; exact hx (hd.home _ hmem))]
    exact h.area x hx
  · intro c hc hm
    rw [update_of_ne (by rintro rfl; exact hm hmem)]
    exact h.rest c hc hm
  · intro j c hj hc
    by_cases hcb : c = b
    · subst hcb
      have hjt : j = t := by
        have hj' := (List.getElem?_eq_some_iff.mp hc).1
        have hjc := (List.getElem?_eq_some_iff.mp hc).2
        have htc := (List.getElem?_eq_some_iff.mp hb).2
        exact (List.Nodup.getElem_inj_iff hd.nodup).mp (hjc.trans htc.symm)
      rw [update_self, hjt, hslot]
    · rw [update_of_ne hcb]
      have hjt : j ≠ t := by
        rintro rfl
        exact hcb (Option.mem_unique hc hb)
      exact h.done j c (by omega) hc

lemma Sys.go_ok {α : Type} {s : Sys} {p : ProcId} {c : KM α} {next : α → Pc} {a : α} {k : Kernel}
    (h : c s.k = .ok a k) : s.go p c next = some { s with k := k, pc := Function.update s.pc p (next a) } := by
  unfold Sys.go
  rw [h]

lemma Sys.step_run {s : Sys} (h : s.stopped = none) (p : ProcId) : s.step (.run p) = s.runStep p := by
  unfold Sys.step
  simp [h]

namespace Rec

variable {d : Nat → Block} {s : Sys} {A : Abs}

lemma cacheOk (h : Rec d s A) : CacheOk s.k A.want ∅ := h.pin ▸ h.shows_.cache

/-- The first process has moved on, to a phase of recovery that holds. -/
lemma next {t : Sys} {B : Abs} {c : Pc} (h : Rec d s A) (ht : Shows t (B.jump initProc c))
    (hpc : B.pc = A.pc) (hpin : B.pin = ∅) (hidle : ∀ j, (t.k.buf j).lock = none)
    (hphase : RecPhase d (B.jump initProc c) c) : Rec d t (B.jump initProc c) where
  shows_ := ht
  pin := hpin
  idle := hidle
  alone := by
    intro q hq
    simp only [Abs.jump_pc, update_of_ne hq, hpc]
    exact h.alone q hq
  phase := by
    simp only [Abs.jump_pc, update_self]
    exact hphase

/-- **One step.** Recovery goes on without a panic and gets nearer to its end. -/
lemma step (hd : HeaderOk d) (h : Rec d s A) (hrec : s.recovering) :
    ∃ t A', s.step (.run initProc) = some t ∧ Rec d t A' ∧
      recMeasure (header d).length (A'.pc initProc) <
        recMeasure (header d).length (A.pc initProc) := by
  have hok := h.cacheOk
  have hphase := h.phase
  have hpc : s.pc initProc = A.pc initProc := by rw [h.shows_.pc]
  unfold Sys.recovering at hrec
  rw [hpc] at hrec
  rw [Sys.step_run h.shows_.running]
  unfold Sys.runStep
  rw [hpc, h.shows_.log]
  cases hc : A.pc initProc with
  | readHead =>
    rw [hc] at hphase
    obtain ⟨_, k, hrun, hk⟩ := (readHead_total (p := initProc) hok h.idle).returns
    obtain ⟨hok', hdisk, hlog, hlock⟩ := hk
    have hwant : A.want = d := hphase
    refine ⟨_, (A.setLog { A.log with lh := getHeader (A.want logStart) }).jump initProc
      (.install .recover 0), Sys.go_ok hrun, h.next ?_ rfl h.pin ?_ ?_, ?_⟩
    · refine ⟨h.shows_.running, by rw [Abs.jump_pin, Abs.setLog_pin, h.pin]; exact hok',
        hdisk.trans h.shows_.disk, ?_, ?_⟩
      · rw [hlog, h.shows_.log]
        rfl
      · rw [h.shows_.pc]
        rfl
    · exact fun j => (hlock j).trans (h.idle j)
    · refine ⟨by rw [hwant]; rfl, ?_⟩
      rw [Abs.jump_want, Abs.setLog_want, hwant]
      exact ⟨fun _ _ => rfl, fun _ _ _ => rfl, fun _ _ hj => absurd hj (by simp)⟩
    · simp [recMeasure]
  | install c t =>
    rw [hc] at hphase hrec
    cases c with
    | recover =>
      obtain ⟨hlh, hcopied⟩ := hphase
      by_cases ht : t < A.log.lh.length
      · have hget : (header d)[t]? = some (A.log.lh.getD t 0) := by rw [← hlh]; simp [ht]
        have hmem := List.mem_of_getElem? hget
        have hlen := hd.len
        have htlog : t + 1 < logSize := by rw [hlh] at ht; omega
        obtain ⟨_, k, hrun, hok', hdisk, hlog, hlock⟩ := (installBlock_total (p := initProc) hok h.idle t
          _ (slot_lt htlog) (hd.range _ hmem)
          (fun he => not_home_slot htlog (he ▸ hd.home _ hmem))).returns
        simp only [if_pos ht]
        refine ⟨_, _, Sys.go_ok hrun, h.next (h.shows_.write (by rw [h.pin]; exact hok') hdisk hlog)
          rfl (by rw [Abs.write_pin, h.pin, Finset.erase_empty])
          (fun j => (hlock j).trans (h.idle j)) ⟨hlh, hcopied.install hd hget⟩, ?_⟩
        simp only [Abs.jump_pc, update_self, recMeasure]
        rw [hlh] at ht
        omega
      · simp only [if_neg ht]
        refine ⟨_, A.jump initProc (.reset .recover), rfl, h.next ?_ rfl h.pin h.idle ?_, ?_⟩
        · exact ⟨h.shows_.running, h.shows_.cache, h.shows_.disk, h.shows_.log,
            by rw [h.shows_.pc]; rfl⟩
        · refine ⟨hcopied.area, hcopied.rest, fun j b hj => hcopied.done j b ?_⟩
          rw [hlh] at ht
          omega
        · simp [recMeasure]
    | endOp | sysSync => cases hrec
  | reset c =>
    rw [hc] at hphase hrec
    cases c with
    | recover =>
      refine ⟨_, (A.setLog { A.log with lh := [] }).jump initProc (.clearHead .recover), rfl,
        h.next (h.shows_.setLog (by rw [h.shows_.log]) _) rfl h.pin h.idle ⟨rfl, hphase⟩, ?_⟩
      simp [recMeasure]
    | endOp | sysSync => cases hrec
  | clearHead c =>
    rw [hc] at hphase hrec
    cases c with
    | recover =>
      obtain ⟨hlh, hcopied⟩ := hphase
      obtain ⟨_, k, hrun, hok', hdisk, hlog, hlock⟩ :=
        (writeHead_total (p := initProc) hok h.idle).returns
      rw [h.shows_.log, hlh] at hok' hdisk
      refine ⟨_, _, Sys.go_ok hrun, h.next (h.shows_.write (by rw [h.pin]; exact hok') hdisk hlog)
        rfl (by rw [Abs.write_pin, h.pin, Finset.erase_empty])
        (fun j => (hlock j).trans (h.idle j)) ⟨?_, ?_⟩, ?_⟩
      · simp only [header, Abs.jump_want, Abs.write_want, update_self]
        exact getHeader_putHeader _ (by simp) (by simp)
      · intro b hb
        have hne : b ≠ logStart := by rintro rfl; exact not_home_logStart hb
        simp only [Abs.jump_want, Abs.write_want, update_of_ne hne]
        exact hcopied.replay hd hb
      · simp [recMeasure, Caller.ret]
    | endOp | sysSync => cases hrec
  | sync c =>
    rw [hc] at hphase
    exact hphase.elim
  | _ =>
    rw [hc] at hrec
    cases hrec

/-- At every point of recovery the disk stands for what it stood for at the start. -/
lemma stands (hd : HeaderOk d) (h : Rec d s A) :
    HeaderOk s.k.disk ∧ ∀ b, Home b → replay s.k.disk b = replay d b := by
  have hdisk : s.k.disk = A.want := by
    rw [h.shows_.disk]
    funext b
    exact A.onDisk b (by rw [h.pin]; simp)
  rw [hdisk]
  have hphase := h.phase
  have hcopied : ∀ {t : Nat}, Copied d A.want t →
      HeaderOk A.want ∧ ∀ b, Home b → replay A.want b = replay d b :=
    fun hcop => replay_congr hd hcop.area hcop.rest
  cases hc : A.pc initProc with
  | readHead =>
    rw [hc] at hphase
    have hwant : A.want = d := hphase
    rw [hwant]
    exact ⟨hd, fun _ _ => rfl⟩
  | install c t | clearHead c =>
    rw [hc] at hphase
    cases c with
    | recover => exact hcopied hphase.2
    | endOp | sysSync => exact hphase.elim
  | reset c =>
    rw [hc] at hphase
    cases c with
    | recover => exact hcopied hphase
    | endOp | sysSync => exact hphase.elim
  | user =>
    rw [hc] at hphase
    obtain ⟨hnil, hinst⟩ := hphase
    refine ⟨⟨by simp [hnil], by simp [hnil], by simp [hnil], by simp [hnil, logSize]⟩, fun b hb => ?_⟩
    rw [replay_of_notMem (by simp [hnil]), hinst b hb]
  | _ =>
    rw [hc] at hphase
    exact hphase.elim

lemma finished (h : Rec d s A) (hrec : s.recovering = false) : ∀ b, Home b → s.k.disk b = replay d b := by
  have hphase := h.phase
  unfold Sys.recovering at hrec
  rw [h.shows_.pc] at hrec
  have huser := RecPhase.eq_user hphase hrec
  rw [huser] at hphase
  intro b hb
  rw [h.shows_.disk, A.onDisk b (by rw [h.pin]; simp)]
  exact hphase.2 b hb

lemma boot (d : Nat → Block) : Rec d (Sys.boot d) (Abs.boot d) :=
  ⟨shows_boot d, rfl, fun _ => rfl, fun _ hq => if_neg hq, rfl⟩

end Rec

/-! ### Whole recoveries -/

/-- The steps of recovery. -/
def RecStep (_ : Sys) : Act → Prop
  | .run _ => True
  | _ => False

instance (s : Sys) : (a : Act) → Decidable (RecStep s a)
  | .run _ => isTrue trivial
  | .beginOp _ => isFalse id
  | .bread _ _ => isFalse id
  | .logWrite _ _ _ => isFalse id
  | .brelse _ _ => isFalse id
  | .endOp _ => isFalse id
  | .sysSync _ => isFalse id

/-- `Recovers d d'`: the machine is switched on with disk `d`, any number of times stopped during
(or after) recovery and switched on again, until a recovery finishes with disk `d'`. -/
inductive Recovers : (Nat → Block) → (Nat → Block) → Prop
  | finish {d : Nat → Block} {as : List Act} {s : Sys} :
      Run Sys.step RecStep (Sys.boot d) as s → s.stopped = none → s.recovering = false →
      Recovers d s.k.disk
  | again {d d' : Nat → Block} {as : List Act} {s : Sys} :
      Run Sys.step RecStep (Sys.boot d) as s → Recovers s.k.disk d' → Recovers d d'

/-- **Every run of recovery** stays in recovery from the disk it started with. -/
lemma rec_run {d : Nat → Block} (hd : HeaderOk d) {as : List Act} {s : Sys}
    (hrun : Run Sys.step RecStep (Sys.boot d) as s) : ∃ A, Rec d s A := by
  refine hrun.inv (I := fun s => ∃ A, Rec d s A) ⟨_, Rec.boot d⟩ ?_
  intro s a t ⟨A, hA⟩ ha ht
  cases a with
  | run p =>
    -- only the first process has anything to run, and only during recovery
    have hp : p = initProc := by
      by_contra hne
      rw [Sys.step_run hA.shows_.running] at ht
      unfold Sys.runStep at ht
      rw [hA.shows_.pc, hA.alone p hne] at ht
      cases ht
    subst hp
    by_cases hrec : s.recovering = true
    · obtain ⟨t', A', ht', hA', -⟩ := hA.step hd hrec
      obtain rfl : t' = t := Option.mem_unique ht' ht
      exact ⟨A', hA'⟩
    · have hrec : (A.pc initProc).recovering = false := by
        unfold Sys.recovering at hrec
        rw [hA.shows_.pc] at hrec
        simpa using hrec
      rw [Sys.step_run hA.shows_.running] at ht
      unfold Sys.runStep at ht
      rw [hA.shows_.pc, RecPhase.eq_user hA.phase hrec] at ht
      cases ht
  | _ => exact ha.elim

lemma recovers_replay {d d' : Nat → Block} (h : Recovers d d') (hd : HeaderOk d) :
    ∀ b, Home b → d' b = replay d b := by
  induction h with
  | finish hrun _ hrec =>
    obtain ⟨A, hA⟩ := rec_run hd hrun
    exact hA.finished hrec
  | again hrun _ ih =>
    obtain ⟨A, hA⟩ := rec_run hd hrun
    obtain ⟨hd', hrep⟩ := hA.stands hd
    intro b hb
    rw [ih hd' b hb, hrep b hb]

lemma recovery_finishes {d : Nat → Block} (hd : HeaderOk d) : ∃ d', Recovers d d' := by
  -- the number of steps left bounds the run
  have hmain : ∀ n as s A, Run Sys.step RecStep (Sys.boot d) as s → Rec d s A →
      recMeasure (header d).length (A.pc initProc) ≤ n → ∃ d', Recovers d d' := by
    intro n
    induction n with
    | zero =>
      intro as s A hrun hA hn
      by_cases hrec : s.recovering = true
      · obtain ⟨t, A', -, -, hlt⟩ := hA.step hd hrec
        omega
      · exact ⟨_, .finish hrun hA.shows_.running (by simpa using hrec)⟩
    | succ n ih =>
      intro as s A hrun hA hn
      by_cases hrec : s.recovering = true
      · obtain ⟨t, A', ht, hA', hlt⟩ := hA.step hd hrec
        exact ih _ t A' (.snoc hrun (show RecStep s (.run initProc) from trivial) ht) hA' (by omega)
      · exact ⟨_, .finish hrun hA.shows_.running (by simpa using hrec)⟩
  exact hmain _ [] _ _ (.nil _) (Rec.boot d) le_rfl

end Xv6.Disk
