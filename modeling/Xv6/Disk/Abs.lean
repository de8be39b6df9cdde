import Xv6.Disk.System

/-!
# The system seen through the cache

The buffers disappear: what remains of a kernel state is the content `want` that a `bread` of each
block returns, the content of the disk, the set `pin` of blocks whose content is only in the cache,
the in-memory log and the processes. `Abs.Step` says in these terms everything a step of the system
can do, one rule for each piece of the code; `Shows.step` is the simulation: a step of the system
either is a step of `Abs` or is a panic that has written nothing. Every property of the log is
proved from the rules.
-/

namespace Xv6.Disk

open Function (update update_self update_of_ne)

open Lib

/-- The contents behind cache and disk, the log and the processes. A block whose content is not only
in the cache has it on disk. -/
structure Abs where
  want : Nat → Block
  disk : Nat → Block
  pin : Finset Nat
  log : Log
  pc : ProcId → Pc
  onDisk : ∀ b, b ∉ pin → disk b = want b

namespace Abs

variable (A : Abs)

/-- Process `p` moves to `c`. -/
def jump (p : ProcId) (c : Pc) : Abs := { A with pc := Function.update A.pc p c }

/-- The in-memory log changes. -/
def setLog (l : Log) : Abs := { A with log := l }

/-- A block is written through to disk. -/
def write (b : Nat) (v : Block) : Abs where
  want := Function.update A.want b v
  disk := Function.update A.disk b v
  pin := A.pin.erase b
  log := A.log
  pc := A.pc
  onDisk := by
    intro d hd
    by_cases hdb : d = b
    · rw [hdb, update_self, update_self]
    · rw [update_of_ne hdb, update_of_ne hdb]
      exact A.onDisk d fun hm => hd (Finset.mem_erase.mpr ⟨hdb, hm⟩)

/-- A block is modified in the cache only. -/
def modify (b : Nat) (v : Block) : Abs where
  want := Function.update A.want b v
  disk := A.disk
  pin := insert b A.pin
  log := A.log
  pc := A.pc
  onDisk := by
    intro d hd
    rw [Finset.mem_insert, not_or] at hd
    rw [update_of_ne hd.1]
    exact A.onDisk d hd.2

/-- `write_head`. -/
def writeHead : Abs := A.write logStart (putHeader (A.want logStart) A.log.lh)

@[simp] lemma jump_want (p : ProcId) (c : Pc) : (A.jump p c).want = A.want := rfl
@[simp] lemma jump_disk (p : ProcId) (c : Pc) : (A.jump p c).disk = A.disk := rfl
@[simp] lemma jump_pin (p : ProcId) (c : Pc) : (A.jump p c).pin = A.pin := rfl
@[simp] lemma jump_log (p : ProcId) (c : Pc) : (A.jump p c).log = A.log := rfl
@[simp] lemma jump_pc (p : ProcId) (c : Pc) : (A.jump p c).pc = update A.pc p c := rfl
@[simp] lemma setLog_want (l : Log) : (A.setLog l).want = A.want := rfl
@[simp] lemma setLog_disk (l : Log) : (A.setLog l).disk = A.disk := rfl
@[simp] lemma setLog_pin (l : Log) : (A.setLog l).pin = A.pin := rfl
@[simp] lemma setLog_log (l : Log) : (A.setLog l).log = l := rfl
@[simp] lemma setLog_pc (l : Log) : (A.setLog l).pc = A.pc := rfl
@[simp] lemma write_want (b : Nat) (v : Block) :
    (A.write b v).want = update A.want b v := rfl
@[simp] lemma write_disk (b : Nat) (v : Block) :
    (A.write b v).disk = update A.disk b v := rfl
@[simp] lemma write_pin (b : Nat) (v : Block) : (A.write b v).pin = A.pin.erase b := rfl
@[simp] lemma write_log (b : Nat) (v : Block) : (A.write b v).log = A.log := rfl
@[simp] lemma write_pc (b : Nat) (v : Block) : (A.write b v).pc = A.pc := rfl
@[simp] lemma modify_want (b : Nat) (v : Block) :
    (A.modify b v).want = update A.want b v := rfl
@[simp] lemma modify_disk (b : Nat) (v : Block) : (A.modify b v).disk = A.disk := rfl
@[simp] lemma modify_pin (b : Nat) (v : Block) : (A.modify b v).pin = insert b A.pin := rfl
@[simp] lemma modify_log (b : Nat) (v : Block) : (A.modify b v).log = A.log := rfl
@[simp] lemma modify_pc (b : Nat) (v : Block) : (A.modify b v).pc = A.pc := rfl

/-- What one step does. -/
inductive Step (A : Abs) : Act → Abs → Prop
  | beginOp {p : ProcId} : (A.pc initProc).recovering = false → A.pc p = .user →
      A.log.committing = false → A.log.lh.length ≤ logSize - 1 →
      Step A (.beginOp p)
        ((A.setLog { A.log with outstanding := A.log.outstanding + 1 }).jump p .inOp)
  | bread {p : ProcId} {b : Nat} : Step A (.bread p b) A
  | logWrite {p : ProcId} {b : Nat} {v : Block} : (A.pc initProc).recovering = false →
      A.pc p = .inOp → A.log.lh.length < logSize → 0 < A.log.outstanding → b < fsSize →
      Step A (.logWrite p b v) ((A.modify b v).setLog (A.log.add b))
  | brelse {p : ProcId} {b : Nat} : Step A (.brelse p b) A
  | endOpLast {p : ProcId} : (A.pc initProc).recovering = false → A.pc p = .inOp →
      A.log.committing = false → A.log.outstanding - 1 = 0 →
      Step A (.endOp p)
        ((A.setLog { A.log with outstanding := 0, committing := true }).jump p .commit)
  | endOp {p : ProcId} : (A.pc initProc).recovering = false → A.pc p = .inOp →
      A.log.committing = false → A.log.outstanding - 1 ≠ 0 →
      Step A (.endOp p)
        ((A.setLog { A.log with outstanding := A.log.outstanding - 1 }).jump p .user)
  | sysSync {p : ProcId} : (A.pc initProc).recovering = false → A.pc p = .user →
      Step A (.sysSync p) (A.jump p (.sync .sysSync))
  | commitSome {p : ProcId} : A.pc p = .commit → 0 < A.log.lh.length →
      Step A (.run p) (A.jump p (.writeLog 0))
  | commitNone {p : ProcId} : A.pc p = .commit → A.log.lh = [] →
      Step A (.run p) (A.jump p .fullTest)
  | logSlot {p : ProcId} {t b : Nat} : A.pc p = .writeLog t → A.log.lh[t]? = some b →
      slot t ∈ A.pin ∨ A.pin.card < nBuf →
      Step A (.run p) ((A.write (slot t) (A.want b)).jump p (.writeLog (t + 1)))
  | logDone {p : ProcId} {t : Nat} : A.pc p = .writeLog t → A.log.lh.length ≤ t →
      Step A (.run p) (A.jump p .commitHead)
  | commitHead {p : ProcId} : A.pc p = .commitHead → Step A (.run p) (A.writeHead.jump p .fullTest)
  | isFull {p : ProcId} : A.pc p = .fullTest → A.log.full = true →
      Step A (.run p) (A.jump p (.sync .endOp))
  | notFull {p : ProcId} : A.pc p = .fullTest → A.log.full = false →
      Step A (.run p) (A.jump p .endCommit)
  | syncSkip {p : ProcId} {c : Caller} : A.pc p = .sync c → A.log.lh.length ≠ logSize - 1 →
      Step A (.run p) (A.jump p c.ret)
  | syncStart {p : ProcId} {c : Caller} : A.pc p = .sync c → A.log.lh.length = logSize - 1 →
      Step A (.run p) (A.jump p (.install c 0))
  | installSlot {p : ProcId} {c : Caller} {t b : Nat} : A.pc p = .install c t →
      A.log.lh[t]? = some b →
      Step A (.run p) ((A.write b (A.want (slot t))).jump p (.install c (t + 1)))
  | installDone {p : ProcId} {c : Caller} {t : Nat} : A.pc p = .install c t →
      A.log.lh.length ≤ t → Step A (.run p) (A.jump p (.reset c))
  | reset {p : ProcId} {c : Caller} : A.pc p = .reset c →
      Step A (.run p) ((A.setLog { A.log with lh := [] }).jump p (.clearHead c))
  | clearHead {p : ProcId} {c : Caller} : A.pc p = .clearHead c →
      Step A (.run p) (A.writeHead.jump p c.ret)
  | endCommit {p : ProcId} : A.pc p = .endCommit →
      Step A (.run p) ((A.setLog { A.log with committing := false }).jump p .user)
  | readHead {p : ProcId} : A.pc p = .readHead →
      Step A (.run p)
        ((A.setLog { A.log with lh := getHeader (A.want logStart) }).jump p (.install .recover 0))

end Abs

/-! ### The simulation -/

/-- The running system `s` shows `A`. -/
structure Shows (s : Sys) (A : Abs) : Prop where
  running : s.stopped = none
  cache : CacheOk s.k A.want A.pin
  disk : s.k.disk = A.disk
  log : s.k.log = A.log
  pc : s.pc = A.pc

variable {s : Sys} {p : ProcId}

/-- How a piece that runs for process `p` changes the system. -/
lemma Sys.go_spec {α : Type} {t : Sys} {c : KM α} {next : α → Pc}
    {Q : α → Kernel → Prop} {E : Stop → Kernel → Prop} (hw : wp c s.k Q E) (h : s.go p c next = some t) :
    (∃ a k, Q a k ∧ t = { s with k := k, pc := update s.pc p (next a) }) ∨
    ∃ m k, E (.panic m) k ∧ t = { s with k := k, stopped := some m } := by
  unfold Sys.go at h
  cases hc : c s.k with
  | ok a k =>
    rw [hc] at h
    exact .inl ⟨a, k, hw.ok hc, (Option.some.inj h).symm⟩
  | error e k =>
    rw [hc] at h
    cases e with
    | blocked => cases h
    | panic m => exact .inr ⟨m, k, hw.error hc, (Option.some.inj h).symm⟩

variable {b : Nat}

lemma Sys.held_some {i : Fin nBuf} (h : s.held p b = some i) : Holds s.k p b i := by
  unfold Sys.held at h
  cases hc : s.k.cached rootDev b with
  | none => rw [hc] at h; exact absurd h (by simp)
  | some j =>
    rw [hc] at h
    obtain ⟨hdev, hno⟩ := cached_some hc
    by_cases hl : (s.k.buf j).lock = some p
    · simp only [hl, if_true, Option.some.injEq] at h
      subst h
      exact ⟨hdev, hno, hl⟩
    · simp only [hl, if_false] at h
      cases h

/-- A step is a step of what the system shows, or a panic before anything is written. -/
def Simulates (s : Sys) (A : Abs) (a : Act) (t : Sys) : Prop :=
  (∃ A', Abs.Step A a A' ∧ Shows t A') ∨ (t.stopped ≠ none ∧ t.k.disk = s.k.disk)

variable {a : Act} {c : Pc} {v : Block}

section Simulation

variable {s t : Sys} {A : Abs} {p : ProcId}

variable {k : Kernel}

lemma simulates_panic {m : String} (hdisk : k.disk = s.k.disk) :
    Simulates s A a { s with k := k, stopped := some m } :=
  .inr ⟨by simp, hdisk⟩

section

variable (h : Shows s A)
include h

lemma Shows.move (hstep : Abs.Step A (.run p) (A.jump p c))
    (ht : s.move p c = some t) : Simulates s A (.run p) t := by
  cases ht
  exact .inl ⟨_, hstep, h.running, h.cache, h.disk, h.log, by rw [h.pc]; rfl⟩

lemma Shows.same (hok : CacheOk k A.want A.pin) (hdisk : k.disk = s.k.disk) (hlog : k.log = s.k.log) :
    Shows { s with k := k, pc := update s.pc p (s.pc p) } A :=
  ⟨h.running, hok, hdisk.trans h.disk, hlog.trans h.log,
    (Function.update_eq_self p s.pc).trans h.pc⟩

lemma Shows.setLog {l l' : Log} (hl : l = l') (c : Pc) :
    Shows { s with k := s.k.setLog l, pc := update s.pc p c }
      ((A.setLog l').jump p c) := by
  have hok := h.cache
  refine ⟨h.running, ?_, h.disk, hl, by rw [h.pc]; rfl⟩
  exact ⟨hok.listed, hok.unique, hok.inRange, hok.valid, hok.data, hok.dirty, hok.unused,
    hok.pinned, hok.onDisk, hok.refs⟩

lemma Shows.write (hok : CacheOk k (update A.want b v) (A.pin.erase b))
    (hdisk : k.disk = update s.k.disk b v) (hlog : k.log = s.k.log) :
    Shows { s with k := k, pc := update s.pc p c } ((A.write b v).jump p c) :=
  ⟨h.running, hok, by rw [hdisk, h.disk]; rfl, hlog.trans h.log, by rw [h.pc]; rfl⟩

lemma Shows.writeHead (hstep : Abs.Step A (.run p) (A.writeHead.jump p c))
    (ht : s.go p (writeHead p) (fun _ => c) = some t) : Simulates s A (.run p) t := by
  rcases Sys.go_spec (writeHead_spec h.cache) ht with ⟨_, k, ⟨hok, hdisk, hlog, -⟩, rfl⟩ | h'
  · rw [h.log] at hok hdisk
    exact .inl ⟨_, hstep, h.write hok hdisk hlog⟩
  · obtain ⟨m, k, ⟨hdisk, -⟩, rfl⟩ := h'
    exact simulates_panic hdisk

lemma Shows.runStep (ht : s.runStep p = some t) : Simulates s A (.run p) t := by
  have hpc : s.pc p = A.pc p := by rw [h.pc]
  unfold Sys.runStep at ht
  rw [hpc, h.log] at ht
  cases hc : A.pc p with
  | user | inOp => rw [hc] at ht; exact absurd ht (by simp)
  | commit =>
    simp only [hc] at ht
    by_cases hn : 0 < A.log.lh.length
    · rw [if_pos hn] at ht
      exact h.move (.commitSome hc hn) ht
    · rw [if_neg hn] at ht
      exact h.move (.commitNone hc (List.length_eq_zero_iff.mp (by omega))) ht
  | writeLog n =>
    simp only [hc] at ht
    by_cases hn : n < A.log.lh.length
    · rw [if_pos hn] at ht
      have hb : A.log.lh[n]? = some (A.log.lh.getD n 0) := by simp [hn]
      cases hw : writeLogBlock p n (A.log.lh.getD n 0) s.k with
      | ok a k =>
        obtain ⟨hok, hdisk, hlog, -⟩ := (writeLogBlock_spec h.cache n _).ok hw
        -- the first `bread` of the iteration has found or recycled a buffer
        have hroom : slot n ∈ A.pin ∨ A.pin.card < nBuf := by
          by_contra hno
          rw [not_or, Nat.not_lt] at hno
          have := bread_full_of_card p h.cache hno.2 hno.1
          rw [writeLogBlock, bind_run, this] at hw
          cases hw
        unfold Sys.go at ht
        rw [hw] at ht
        cases ht
        exact .inl ⟨_, .logSlot hc hb hroom, h.write hok hdisk hlog⟩
      | error e k =>
        obtain ⟨hdisk, -⟩ := (writeLogBlock_spec h.cache n _).error hw
        unfold Sys.go at ht
        rw [hw] at ht
        cases e with
        | blocked => cases ht
        | panic m =>
          cases ht
          exact simulates_panic hdisk
    · rw [if_neg hn] at ht
      exact h.move (.logDone hc (by omega)) ht
  | commitHead =>
    simp only [hc] at ht
    exact h.writeHead (.commitHead hc) ht
  | fullTest =>
    simp only [hc] at ht
    split at ht
    · rename_i hfull; exact h.move (.isFull hc hfull) ht
    · rename_i hfull; exact h.move (.notFull hc (by simpa using hfull)) ht
  | sync c =>
    simp only [hc] at ht
    split at ht
    · exact h.move (.syncSkip hc (by omega)) ht
    · split at ht
      · exact h.move (.syncSkip hc (by omega)) ht
      · exact h.move (.syncStart hc (by omega)) ht
  | install c n =>
    simp only [hc] at ht
    by_cases hn : n < A.log.lh.length
    · rw [if_pos hn] at ht
      have hb : A.log.lh[n]? = some (A.log.lh.getD n 0) := by simp [hn]
      rcases Sys.go_spec (installBlock_spec h.cache n _) ht with
        ⟨_, k, ⟨hok, hdisk, hlog, -⟩, rfl⟩ | ⟨m, k, ⟨hdisk, -⟩, rfl⟩
      · exact .inl ⟨_, .installSlot hc hb, h.write hok hdisk hlog⟩
      · exact simulates_panic hdisk
    · rw [if_neg hn] at ht
      exact h.move (.installDone hc (by omega)) ht
  | reset c =>
    simp only [hc] at ht
    cases ht
    exact .inl ⟨_, .reset hc, h.setLog (by rw [h.log]) _⟩
  | clearHead c =>
    simp only [hc] at ht
    exact h.writeHead (.clearHead hc) ht
  | endCommit =>
    simp only [hc] at ht
    cases ht
    exact .inl ⟨_, .endCommit hc, h.setLog (by rw [h.log]) _⟩
  | readHead =>
    simp only [hc] at ht
    rcases Sys.go_spec (readHead_spec h.cache) ht with
      ⟨_, k, ⟨hok, hdisk, hlog, -⟩, rfl⟩ | ⟨m, k, ⟨hdisk, -⟩, rfl⟩
    · refine .inl ⟨_, .readHead hc, h.running, hok, hdisk.trans h.disk, ?_, by rw [h.pc]; rfl⟩
      rw [hlog, h.log]
      rfl
    · exact simulates_panic hdisk

lemma Shows.beginOp (hrec : s.recovering = false) (hp : s.pc p = .user)
    (ht : s.go p beginOp (fun _ => .inOp) = some t) : Simulates s A (.beginOp p) t := by
  rcases Sys.go_spec (beginOp_spec s.k) ht with ⟨_, k, ⟨rfl, hcom, hlen⟩, rfl⟩ | ⟨m, k, he, -⟩
  · unfold Sys.recovering at hrec
    rw [h.pc] at hrec hp
    rw [h.log] at hcom hlen
    exact .inl ⟨_, .beginOp hrec hp hcom hlen, h.setLog (by rw [h.log]) _⟩
  · cases he

lemma Shows.endOp (hrec : s.recovering = false) (hp : s.pc p = .inOp)
    (ht : s.go p endOp (fun doCommit => if doCommit then .commit else .user) = some t) :
    Simulates s A (.endOp p) t := by
  rcases Sys.go_spec (endOp_spec s.k) ht with ⟨doCommit, k, ⟨hcom, hk⟩, rfl⟩ | ⟨m, k, rfl, rfl⟩
  · unfold Sys.recovering at hrec
    rw [h.pc] at hrec hp
    rw [h.log] at hcom
    by_cases hlast : s.k.log.outstanding - 1 = 0
    · rw [if_pos hlast] at hk
      obtain ⟨rfl, rfl⟩ := hk
      rw [h.log] at hlast
      exact .inl ⟨_, .endOpLast hrec hp hcom hlast, h.setLog (by rw [h.log]) _⟩
    · rw [if_neg hlast] at hk
      obtain ⟨rfl, rfl⟩ := hk
      rw [h.log] at hlast
      exact .inl ⟨_, .endOp hrec hp hcom hlast, h.setLog (by rw [h.log]) _⟩
  · exact simulates_panic rfl

lemma Shows.logWrite (hrec : s.recovering = false) (hp : s.pc p = .inOp)
    {i : Fin nBuf} (hi : s.held p b = some i)
    (ht : s.go p (do setData i v; Disk.logWrite i) (fun _ => .inOp) = some t) :
    Simulates s A (.logWrite p b v) t := by
  have hold := Sys.held_some hi
  rcases Sys.go_spec (logWrite_spec h.cache hold v) ht with
    ⟨_, k, ⟨hok, -, hdisk, hlog, hlen, hout⟩, rfl⟩ | ⟨m, k, ⟨hdisk, -⟩, rfl⟩
  · have hb : b < fsSize := by rw [← hold.blockno]; exact h.cache.inRange i hold.dev
    have hpc : update s.pc p .inOp = A.pc := by
      rw [← hp, Function.update_eq_self, h.pc]
    unfold Sys.recovering at hrec
    rw [h.pc] at hrec hp
    rw [h.log] at hlog hlen hout
    exact .inl ⟨_, .logWrite hrec hp hlen hout hb, h.running, hok, hdisk.trans h.disk, hlog, hpc⟩
  · exact simulates_panic hdisk

/-- **Simulation.** A step of the system is a step of what it shows, or a panic that has written
nothing. -/
lemma Shows.step (ht : s.step a = some t) : Simulates s A a t := by
  unfold Sys.step at ht
  rw [h.running] at ht
  simp only [Option.isSome_none, Bool.false_eq_true, if_false] at ht
  cases a with
  | run p => exact h.runStep ht
  | beginOp p =>
    simp only at ht
    split at ht
    · rename_i hc; exact h.beginOp hc.1 hc.2 ht
    · cases ht
  | bread p b =>
    simp only at ht
    split at ht
    · rcases Sys.go_spec (bread_spec h.cache p b) ht with ⟨i, k, hf, rfl⟩ | ⟨m, k, ⟨hdisk, -⟩, rfl⟩
      · exact .inl ⟨_, .bread, h.same hf.ok hf.same.disk hf.same.log⟩
      · exact simulates_panic hdisk
    · cases ht
  | logWrite p b v =>
    simp only at ht
    split at ht
    · rename_i hc
      cases hi : s.held p b with
      | none => rw [hi] at ht; exact absurd ht (by simp)
      | some i => rw [hi] at ht; exact h.logWrite hc.1 hc.2 hi ht
    · cases ht
  | brelse p b =>
    simp only at ht
    split at ht
    · cases hi : s.held p b with
      | none => rw [hi] at ht; exact absurd ht (by simp)
      | some i =>
        rw [hi] at ht
        rcases Sys.go_spec (brelse_spec h.cache (Sys.held_some hi)) ht with
          ⟨_, k, ⟨hok, hsame, -⟩, rfl⟩ | ⟨m, k, hf, -⟩
        · exact .inl ⟨_, .brelse, h.same hok hsame.disk hsame.log⟩
        · exact hf.elim
    · cases ht
  | endOp p =>
    simp only at ht
    split at ht
    · rename_i hc; exact h.endOp hc.1 hc.2 ht
    · cases ht
  | sysSync p =>
    simp only at ht
    split at ht
    · rename_i hc
      cases ht
      have hrec := hc.1
      have hp := hc.2
      unfold Sys.recovering at hrec
      rw [h.pc] at hrec hp
      exact .inl ⟨_, .sysSync hrec hp, h.running, h.cache, h.disk, h.log, by rw [h.pc]; rfl⟩
    · cases ht

end

end Simulation

/-! ### Booting -/

/-- What the machine shows when it is switched on. -/
def Abs.boot (disk : Nat → Block) : Abs where
  want := disk
  disk := disk
  pin := ∅
  log := ⟨0, false, false, []⟩
  pc := fun p => if p = initProc then .readHead else .user
  onDisk := fun _ _ => rfl

lemma cacheOk_boot (disk : Nat → Block) : CacheOk (Kernel.boot disk) disk ∅ := by
  have hdev : ∀ i, ((Kernel.boot disk).buf i).dev ≠ rootDev := by
    intro i
    change 0 ≠ rootDev
    decide
  refine ⟨?_, ?_, ?_, ?_, ?_, ?_, ?_, ?_, ?_, ?_⟩
  · intro i
    simp [Kernel.boot]
  · intro i _ hi
    exact absurd hi (hdev i)
  · intro i hi
    exact absurd hi (hdev i)
  · intro i hi
    exact absurd hi (hdev i)
  · intro i hi
    exact absurd hi (hdev i)
  · intro i hi
    exact absurd hi (hdev i)
  · intro i _
    exact ⟨rfl, rfl⟩
  · intro b hb
    cases hb
  · intro b _
    rfl
  · intro i
    rfl

lemma shows_boot (disk : Nat → Block) : Shows (Sys.boot disk) (Abs.boot disk) :=
  ⟨rfl, cacheOk_boot disk, rfl, rfl, rfl⟩

end Xv6.Disk
