import Xv6.Disk.Flush

/-!
# What the log lists

`log_write` lists a block once, whatever number of operations log it, and keeps its buffer in the cache by
marking it dirty; a commit changes neither, and `sync` and recovery empty the list when every block is
written home. So between operations the list, the calls of `log_write` since then and the dirty buffers say
the same. The calls are kept beside the system, and forgotten at the `write_head` that completes a `sync` or
the recovery.

As before, steps are those of `FsStep`: blocks of the log are not logged, and `sys_sync` installs nothing
while another process is in an operation, as it is when one call follows the other.
-/

namespace Xv6.Disk

open Function (update update_self update_of_ne)
open Lib

/-- The blocks passed to `log_write` since a `sync` or the recovery was completed, one for each call. -/
def written (pc : ProcId → Pc) (a : Act) (bs : List Nat) : List Nat :=
  match a with
  | .logWrite _ b _ => bs ++ [b]
  | .run p =>
    match pc p with
    | .clearHead _ => []
    | _ => bs
  | _ => bs

/-- A step of the system with the blocks written beside it. -/
def writtenStep (x : Sys × List Nat) (a : Act) : Option (Sys × List Nat) :=
  (x.1.step a).map fun t => (t, written x.1.pc a x.2)

/-- The list has the blocks that were written, in the order of the first time. -/
structure Records (bs lh : List Nat) : Prop where
  mem : ∀ b, b ∈ lh ↔ b ∈ bs
  order : lh.Pairwise fun a b => bs.idxOf a < bs.idxOf b

variable {A A' : Abs} {a : Act} {p : ProcId} {c : Pc} {bs lh : List Nat} {view : Nat → Block}

lemma Records.nil : Records [] [] := ⟨fun _ => Iff.rfl, .nil⟩

lemma Records.add (h : Records bs lh) (b : Nat) : Records (bs ++ [b]) (if b ∈ lh then lh else lh ++ [b]) := by
  have hsame : ∀ x ∈ lh, (bs ++ [b]).idxOf x = bs.idxOf x := fun x hx =>
    List.idxOf_append_of_mem ((h.mem x).mp hx)
  have horder : lh.Pairwise fun x y => (bs ++ [b]).idxOf x < (bs ++ [b]).idxOf y :=
    h.order.imp_of_mem fun hx hy hlt => by rwa [hsame _ hx, hsame _ hy]
  split
  next hb =>
    refine ⟨fun x => ?_, horder⟩
    rw [List.mem_append, ← h.mem, List.mem_singleton]
    exact ⟨.inl, fun hx => hx.elim id fun hx => hx ▸ hb⟩
  next hb =>
    have hnew : b ∉ bs := fun hmem => hb ((h.mem b).mpr hmem)
    refine ⟨fun x => by simp [h.mem], List.pairwise_append.mpr ⟨horder, List.pairwise_singleton .., ?_⟩⟩
    intro x hx y hy
    rw [List.mem_singleton.mp hy, hsame x hx, List.idxOf_append_of_notMem hnew]
    exact (List.idxOf_lt_length_of_mem ((h.mem x).mp hx)).trans_le (Nat.le_add_right ..)

/-! ### One step -/

/-- Nobody is between `log.lh.n = 0` and the `write_head` behind it. -/
def Abs.NoClear (A : Abs) : Prop := ∀ p c, A.pc p ≠ .clearHead c

lemma written_run (hp : ∀ c, A.pc p ≠ .clearHead c) : written A.pc (.run p) bs = bs := by
  unfold written
  dsimp only
  split
  next c hc => exact absurd hc (hp c)
  next => rfl

lemma Records.keep (h : A.NoClear → Records bs A.log.lh) (hp : ∀ c, A.pc p ≠ .clearHead c)
    (hpc : A'.pc = update A.pc p c) (hlh : A'.log.lh = A.log.lh) : A'.NoClear → Records bs A'.log.lh := by
  intro hno
  rw [hlh]
  refine h fun q d hq => ?_
  by_cases hqp : q = p
  · exact hp d (hqp ▸ hq)
  · exact hno q d (by rw [hpc, update_of_ne hqp]; exact hq)

lemma Records.step (hinv : Inv A view) (h : A.NoClear → Records bs A.log.lh) (hs : A.Step a A') :
    A'.NoClear → Records (written A.pc a bs) A'.log.lh := by
  cases hs with
  | bread | brelse => exact h
  | @logWrite p b v =>
    intro hno
    rw [Abs.setLog_log, Log.add_lh]
    exact (h hno).add b
  | beginOp _ hp | endOpLast _ hp | endOp _ hp | sysSync _ hp =>
    exact keep h (by rw [hp]; exact nofun) rfl rfl
  | commitSome hp | commitNone hp | logSlot hp | logDone hp | commitHead hp | isFull hp | notFull hp
  | syncSkip hp | syncStart hp | installSlot hp | installDone hp | endCommit hp =>
    rw [written_run (by rw [hp]; exact nofun)]
    exact keep h (by rw [hp]; exact nofun) rfl rfl
  | @reset p c hp =>
    intro hno
    exact absurd (update_self ..) (hno p c)
  | @clearHead p c hp =>
    intro _
    have hnil : A.log.lh = [] := by
      have := hinv.phase p
      rwa [hp] at this
    show Records (match A.pc p with | .clearHead _ => [] | _ => bs) A.log.lh
    rw [hp, hnil]
    exact .nil
  | @readHead p hp =>
    have hphase := hinv.phase p
    rw [hp] at hphase
    rw [written_run (by rw [hp]; exact nofun)]
    exact keep h (by rw [hp]; exact nofun) rfl (hphase.2.trans hphase.1.symm)

/-- During recovery, whatever the header on disk says, nothing is only in the cache. -/
structure Recovering (A : Abs) : Prop where
  pin : A.pin = ∅
  outstanding : A.log.outstanding = 0
  committing : A.log.committing = false
  alone : ∀ q, q ≠ initProc → A.pc q = .user
  first : (A.pc initProc).recovering = true
  noSync : A.pc initProc ≠ .sync .recover
  cleared : ∀ c, A.pc initProc = .clearHead c → A.log.lh = []

namespace Recovering

lemma of_pc (h : Recovering A) (hp : A.pc p = c) (hc : c ≠ .user) :
    p = initProc ∧ c.recovering ∧ c ≠ .sync .recover := by
  obtain rfl : p = initProc := by
    by_contra hne
    exact hc (hp.symm.trans (h.alone p hne))
  exact ⟨rfl, hp ▸ h.first, hp ▸ h.noSync⟩

lemma move (h : Recovering A) (hpin : A'.pin = ∅) (hout : A'.log.outstanding = 0)
    (hcom : A'.log.committing = false) (hpc : A'.pc = A.pc) (hc : c.recovering)
    (hsync : c ≠ .sync .recover) (hlh : ∀ d, c = .clearHead d → A'.log.lh = []) :
    Recovering (A'.jump initProc c) where
  pin := hpin
  outstanding := hout
  committing := hcom
  alone := fun q hq => by rw [Abs.jump_pc, update_of_ne hq, hpc]; exact h.alone q hq
  first := by rw [Abs.jump_pc, update_self]; exact hc
  noSync := by rw [Abs.jump_pc, update_self]; exact hsync
  cleared := fun d hd => by
    rw [Abs.jump_pc, update_self] at hd
    exact hlh d hd

/-- Recovery goes on, or ends with an empty list. -/
lemma step (h : Recovering A) (hs : A.Step a A') :
    written A.pc a [] = [] ∧ (Recovering A' ∨ Inv A' A'.want ∧ A'.log.lh = []) := by
  have hrun : ∀ p, written A.pc (.run p) [] = [] := fun p => by
    unfold written
    dsimp only
    split <;> rfl
  cases hs with
  | bread | brelse => exact ⟨rfl, .inl h⟩
  | beginOp hrec | logWrite hrec | endOpLast hrec | endOp hrec | sysSync hrec =>
    rw [h.first] at hrec
    cases hrec
  | commitSome hp | commitNone hp | logSlot hp | logDone hp | commitHead hp | isFull hp | notFull hp
  | endCommit hp => cases (h.of_pc hp (by simp)).2.1
  | @syncSkip p c hp | @syncStart p c hp =>
    obtain ⟨-, hrec, hne⟩ := h.of_pc hp (by simp)
    cases c with
    | recover => exact absurd rfl hne
    | endOp | sysSync => cases hrec
  | @installSlot p c t b hp | @installDone p c t hp | @reset p c hp =>
    obtain ⟨rfl, hrec, -⟩ := h.of_pc hp (by simp)
    cases c with
    | recover =>
      exact ⟨hrun _, .inl (h.move (by simp [h.pin]) h.outstanding h.committing rfl rfl (by simp)
        fun _ hd => by cases hd <;> rfl)⟩
    | endOp | sysSync => cases hrec
  | @clearHead p c hp =>
    obtain ⟨rfl, hrec, -⟩ := h.of_pc hp (by simp)
    cases c with
    | recover =>
      have hlh := h.cleared _ hp
      refine ⟨hrun _, .inr ⟨Inv.of_idle (fun q => ?_) (by simp [Abs.writeHead, h.pin]) hlh h.outstanding
        h.committing, hlh⟩⟩
      by_cases hq : q = initProc
      · rw [hq, Abs.jump_pc, update_self]
        rfl
      · rw [Abs.jump_pc, update_of_ne hq]
        exact h.alone q hq
    | endOp | sysSync => cases hrec
  | @readHead p hp =>
    obtain ⟨rfl, -⟩ := h.of_pc hp (by simp)
    exact ⟨hrun _, .inl (h.move h.pin h.outstanding h.committing rfl rfl (by simp) (by simp))⟩

end Recovering

/-! ### Whole runs -/

/-- What holds of a running machine and the blocks written. -/
def Absorbs (x : Sys × List Nat) : Prop :=
  ∃ A, Shows x.1 A ∧
    (Recovering A ∧ x.2 = [] ∨ (∃ view, Inv A view) ∧ (A.NoClear → Records x.2 A.log.lh))

lemma absorbs_boot (d : Nat → Block) : Absorbs (Sys.boot d, []) :=
  ⟨_, shows_boot d, .inl ⟨⟨rfl, rfl, rfl, fun _ hq => if_neg hq, rfl, nofun, nofun⟩, rfl⟩⟩

lemma Absorbs.step {x y : Sys × List Nat} (h : Absorbs x) (hfs : FsStep x.1 a)
    (hstep : writtenStep x a = some y) (hrunning : y.1.stopped = none) : Absorbs y := by
  obtain ⟨s, bs⟩ := x
  obtain ⟨A, hshow, h⟩ := h
  obtain ⟨t, ht, rfl⟩ := Option.map_eq_some_iff.mp hstep
  rcases hshow.step ht with ⟨A', hs, hshow'⟩ | ⟨hstop, -⟩
  swap
  · exact absurd hrunning hstop
  refine ⟨A', hshow', ?_⟩
  rw [hshow.pc]
  rcases h with ⟨hrec, hnil⟩ | ⟨⟨view, hinv⟩, hbs⟩
  · obtain rfl : bs = [] := hnil
    obtain ⟨hwritten, hrec' | ⟨hinv, hlh⟩⟩ := hrec.step hs
    · exact .inl ⟨hrec', hwritten⟩
    · rw [hwritten, hlh]
      exact .inr ⟨⟨_, hinv⟩, fun _ => .nil⟩
  · obtain ⟨hhome, halone⟩ := hfs
    rw [hshow.log, hshow.pc] at halone
    exact .inr ⟨⟨_, hinv.step hhome halone hs⟩, Records.step hinv hbs hs⟩

lemma absorbs_run {d : Nat → Block} {as : List Act} {x : Sys × List Nat}
    (hrun : Run writtenStep (fun x a => FsStep x.1 a) (Sys.boot d, []) as x) (hs : x.1.stopped = none) :
    Absorbs x := by
  refine hrun.inv (I := fun x => x.1.stopped = none → Absorbs x) (fun _ => absorbs_boot d) ?_ hs
  intro x a y ih hfs hstep hrunning
  obtain ⟨t, ht, -⟩ := Option.map_eq_some_iff.mp hstep
  exact (ih (Sys.running_of_step ht)).step hfs hstep hrunning

/-- **What the log lists between operations.** The blocks of the list are different; they are those that
were written since the last completed `sync` or the recovery, in the order in which each was written first;
each is in exactly one buffer, which is valid and dirty; and no other buffer is dirty. -/
theorem log_lists_written {d : Nat → Block} {as : List Act} {s : Sys} {bs : List Nat}
    (hrun : Run writtenStep (fun x a => FsStep x.1 a) (Sys.boot d, []) as (s, bs)) (hq : s.Quiet) :
    s.k.log.lh.Nodup ∧ (∀ b, b ∈ s.k.log.lh ↔ b ∈ bs) ∧
      s.k.log.lh.Pairwise (fun b b' => bs.idxOf b < bs.idxOf b') ∧
      (∀ b ∈ s.k.log.lh, ∃ i, (s.k.buf i).valid = true ∧ (s.k.buf i).dirty = true ∧
        ∀ j, (s.k.buf j).dev = rootDev ∧ (s.k.buf j).blockno = b ↔ j = i) ∧
      ∀ i, (s.k.buf i).dirty = true →
        (s.k.buf i).dev = rootDev ∧ (s.k.buf i).blockno ∈ s.k.log.lh := by
  obtain ⟨A, hshow, h⟩ := absorbs_run hrun hq.1
  have huser : ∀ q, A.pc q = .user := fun q => hshow.pc ▸ hq.2 q
  rcases h with ⟨hrec, -⟩ | ⟨⟨view, hinv⟩, hbs⟩
  · have hfirst := hrec.first
    rw [huser] at hfirst
    cases hfirst
  obtain ⟨hmem, horder⟩ := hbs fun q c hc => by
    rw [huser] at hc
    cases hc
  have hok := hshow.cache
  rw [hshow.log]
  refine ⟨hinv.nodup, hmem, horder, fun b hb => ?_, fun i hi => ?_⟩
  · have hpin : b ∈ A.pin := hinv.pinned (fun q => by rw [huser]; rfl) b hb
    obtain ⟨i, hdev, hno⟩ := hok.pinned b hpin
    refine ⟨i, hok.valid i hdev, (hok.dirty i hdev).mpr (hno ▸ hpin), fun j => ⟨fun hj => ?_, ?_⟩⟩
    · exact hok.unique j i hj.1 hdev (hj.2.trans hno.symm)
    · rintro rfl
      exact ⟨hdev, hno⟩
  · have hdev : (s.k.buf i).dev = rootDev := by
      by_contra hne
      rw [(hok.unused i hne).1] at hi
      cases hi
    exact ⟨hdev, hinv.listed _ ((hok.dirty i hdev).mp hi)⟩

/-- An operation that logs one of its two blocks twice. -/
def logTwice : List Act :=
  bootActs ++ [.beginOp 1] ++ logActs 1 [(101, stamp 1), (100, stamp 2), (101, stamp 3)] ++ [.endOp 1] ++
    runActs 1 7

theorem log_lists_logTwice : ∃ s, Run writtenStep (fun x a => FsStep x.1 a) (Sys.boot zeroDisk, [])
    logTwice (s, [101, 100, 101]) ∧ s.Quiet ∧ s.k.log.lh = [101, 100] ∧ s.k.log.lh.Nodup := by
  obtain ⟨⟨s, bs⟩, hrun, hq, rfl, hlh⟩ := run_of_check writtenStep (fun x a => FsStep x.1 a)
    (Sys.boot zeroDisk, []) logTwice (fun x => x.1.Quiet ∧ x.2 = [101, 100, 101] ∧ x.1.k.log.lh = [101, 100])
    (by decide +kernel)
  exact ⟨s, hrun, hq, hlh, (log_lists_written hrun hq).1⟩

end Xv6.Disk
