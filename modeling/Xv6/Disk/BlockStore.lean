import Xv6.Disk.Invariant

/-!
# Cache, log and disk as one block store

What the file system above sees of `bio.c` and `log.c`:

* without the `sync` system call, every `bread` returns what was last logged for the block
  (`bread_returns_latest`), through eviction, absorption, commit and the `sync` of `end_op`;
* with it, no update is lost in the runs in which `sys_sync` is alone (`sync_keeps_updates`), and
  updates are lost in others (`sync_over_uncommitted`): `sync` copies log slots that were never
  written over the cache.
-/

namespace Xv6.Disk

open Lib

/-! ### Runs without `sys_sync` -/

/-- In the `sync` system call. -/
def Pc.inSysSync : Pc → Bool
  | .sync .sysSync => true
  | .install .sysSync _ => true
  | .reset .sysSync => true
  | .clearHead .sysSync => true
  | _ => false

lemma Pc.not_sysSyncing {c : Pc} (h : c.inSysSync = false) : c.sysSyncing = false := by
  cases c with
  | install c _ | reset c | clearHead c =>
    cases c <;> first | rfl | exact absurd h (by simp [inSysSync])
  | _ => rfl

/-- A call of the `sync` system call. -/
def Act.isSysSync : Act → Bool
  | .sysSync _ => true
  | _ => false

/-- The steps of file-system operations: no `sys_sync`, no logging of log blocks. -/
def OpStep (_ : Sys) (a : Act) : Prop := a.InHome ∧ a.isSysSync = false

instance (s : Sys) (a : Act) : Decidable (OpStep s a) :=
  inferInstanceAs (Decidable (a.InHome ∧ a.isSysSync = false))

lemma Abs.Step.not_inSysSync {A A' : Abs} {a : Act} (hs : A.Step a A')
    (ha : a.isSysSync = false) (h : ∀ q, (A.pc q).inSysSync = false) (q : ProcId) :
    (A'.pc q).inSysSync = false := by
  have hjump : ∀ {p : ProcId} {c : Pc}, c.inSysSync = false →
      (Function.update A.pc p c q).inSysSync = false := by
    intro p c hc
    by_cases hq : q = p
    · rw [hq, Function.update_self]; exact hc
    · rw [Function.update_of_ne hq]; exact h q
  -- a process in `sync` stays with its caller
  have hcaller : ∀ {p : ProcId} {c : Caller} {f g : Caller → Pc}, A.pc p = f c →
      ((f c).inSysSync = false → (g c).inSysSync = false) →
      (Function.update A.pc p (g c) q).inSysSync = false := by
    intro p c f g hp hfg
    exact hjump (hfg (hp ▸ h p))
  cases hs with
  | bread | brelse | logWrite => exact h q
  | sysSync => cases ha
  | @syncSkip _ c hp _ => exact hcaller (f := .sync) (g := Caller.ret) hp (by cases c <;> decide)
  | @syncStart _ c hp _ =>
    exact hcaller (f := .sync) (g := fun c => .install c 0) hp (by cases c <;> decide)
  | @installSlot _ c t _ hp _ =>
    exact hcaller (f := fun c => .install c t) (g := fun c => .install c (t + 1)) hp
      (by cases c <;> simp [Pc.inSysSync])
  | @installDone _ c t hp _ =>
    exact hcaller (f := fun c => .install c t) (g := .reset) hp
      (by cases c <;> simp [Pc.inSysSync])
  | @reset _ c hp => exact hcaller (f := .reset) (g := .clearHead) hp (by cases c <;> decide)
  | @clearHead _ c hp => exact hcaller (f := .clearHead) (g := Caller.ret) hp (by cases c <;> decide)
  | _ => exact hjump rfl

lemma syncAlone_of_noSys {l : Log} {pc : ProcId → Pc} (h : ∀ q, (pc q).inSysSync = false)
    (a : Act) : SyncAlone l pc a := by
  cases a with
  | beginOp p => exact fun q => Pc.not_sysSyncing (h q)
  | run p =>
    intro hp
    have := h p
    rw [hp] at this
    cases this
  | _ => trivial

lemma inv_run_ops {disk : Nat → Block} (hempty : getHeader (disk logStart) = []) {as : List Act}
    {s : Sys} (hrun : Run Sys.step OpStep (Sys.boot disk) as s) (hs : s.stopped = none) :
    ∃ A, Shows s A ∧ Inv A (flat disk as) ∧ ∀ q, (A.pc q).inSysSync = false := by
  refine hrun.inv_trace
    (I := fun as s => s.stopped = none →
      ∃ A, Shows s A ∧ Inv A (flat disk as) ∧ ∀ q, (A.pc q).inSysSync = false) ?_ ?_ hs
  · intro _
    refine ⟨_, shows_boot disk, Inv.boot hempty, fun q => ?_⟩
    change (if q = initProc then Pc.readHead else .user).inSysSync = false
    split <;> rfl
  · intro as s a t ih ⟨hhome, hno⟩ ht hrunning
    obtain ⟨A, hshow, hA, hnone⟩ := ih (Sys.running_of_step ht)
    rcases hshow.step ht with ⟨A', hs', hshow'⟩ | ⟨hstop, -⟩
    · rw [flat_snoc]
      exact ⟨A', hshow', hA.step hhome (syncAlone_of_noSys hnone a) hs', hs'.not_inSysSync hno hnone⟩
    · exact absurd hrunning hstop

/-- **Refinement.** In every run of operations that has not panicked, whatever their interleaving,
`bread` returns the content that a flat array of blocks would have. -/
theorem bread_returns_latest {disk : Nat → Block} {as : List Act} {s : Sys} {p : ProcId} {b : Nat}
    {i : Fin nBuf} {k : Kernel} (hempty : getHeader (disk logStart) = [])
    (hrun : Run Sys.step OpStep (Sys.boot disk) as s) (hs : s.stopped = none) (hb : Home b)
    (hread : bread p rootDev b s.k = .ok i k) : (k.buf i).data = flat disk as b := by
  obtain ⟨A, hshow, hA, -⟩ := inv_run_ops hempty hrun hs
  have hf := (bread_spec hshow.cache p b).ok hread
  rw [hf.ok.data i hf.holds.dev, hf.holds.blockno]
  exact hA.flat b hb

/-- An operation of process 1 logs block 100 and commits. -/
def oneCommit : List Act :=
  bootActs ++ [.beginOp 1] ++ logActs 1 [(100, stamp 7)] ++ [.endOp 1] ++ runActs 1 6

theorem bread_after_commit :
    ∃ s i k, Run Sys.step OpStep (Sys.boot zeroDisk) oneCommit s ∧ s.stopped = none ∧
      bread 2 rootDev 100 s.k = .ok i k ∧ (k.buf i).data = flat zeroDisk oneCommit 100 := by
  obtain ⟨s, hrun, hstop, hok⟩ := run_of_check Sys.step OpStep (Sys.boot zeroDisk) oneCommit
    (fun s => s.stopped = none ∧ isOk (bread 2 rootDev 100 s.k) = true) (by decide +kernel)
  cases hread : bread 2 rootDev 100 s.k with
  | ok i k =>
    exact ⟨s, i, k, hrun, hstop, hread,
      bread_returns_latest (by decide +kernel) hrun hstop (by decide) hread⟩
  | error e k =>
    rw [hread] at hok
    cases hok

/-! ### The `sync` system call -/

/-- **No update is lost while `sys_sync` is alone.** In every run in which `sys_sync` goes past its
test only while no operation is in progress or being copied to the log, and no operation begins
before it is done: a block that was logged has, wherever it is cached, the content last written to
it, and has it on disk too or is still listed and cached. -/
theorem sync_keeps_updates {disk : Nat → Block} {as : List Act} {s : Sys} {p : ProcId} {b : Nat}
    {v : Block} (hempty : getHeader (disk logStart) = [])
    (hrun : Run Sys.step FsStep (Sys.boot disk) as s) (hs : s.stopped = none)
    (hlogged : Act.logWrite p b v ∈ as) :
    (∀ i, (s.k.buf i).dev = rootDev → (s.k.buf i).blockno = b →
      (s.k.buf i).data = flat disk as b) ∧
    (s.k.disk b = flat disk as b ∨
      b ∈ s.k.log.lh ∧ ∃ i, (s.k.buf i).dev = rootDev ∧ (s.k.buf i).blockno = b) := by
  obtain ⟨A, hshow, hA⟩ := inv_run hempty hrun hs
  have hb : Home b := hrun.label (P := Act.InHome) (fun _ _ h => h.1) hlogged
  have hflat := hA.flat b hb
  refine ⟨?_, ?_⟩
  · intro i hdev hno
    rw [hshow.cache.data i hdev, hno, hflat]
  · by_cases hpin : b ∈ A.pin
    · refine .inr ⟨?_, hshow.cache.pinned b hpin⟩
      rw [hshow.log]
      exact hA.listed b hpin
    · exact .inl (by rw [hshow.cache.onDisk b hpin, hflat])

/-- The 29 blocks from 100 on, each with its own content. -/
def blocks29 : List (Nat × Block) := (List.range 29).map fun i => (100 + i, stamp (i + 1))

/-- An operation of process 1 logs 29 blocks and commits; before its commit tests `log.full`,
process 2 calls `sync`, and installs and empties the log. -/
def syncAfterCommit : List Act :=
  bootActs ++ [.beginOp 1] ++ logActs 1 blocks29 ++ [.endOp 1] ++ runActs 1 32 ++ [.sysSync 2] ++
    runActs 2 33

theorem sync_after_commit_keeps :
    ∃ s, Run Sys.step FsStep (Sys.boot zeroDisk) syncAfterCommit s ∧ s.stopped = none ∧
      s.k.log.lh = [] ∧
      (s.k.disk 100 = flat zeroDisk syncAfterCommit 100 ∨
        100 ∈ s.k.log.lh ∧ ∃ i, (s.k.buf i).dev = rootDev ∧ (s.k.buf i).blockno = 100) := by
  obtain ⟨s, hrun, hstop, hlh⟩ := run_of_check Sys.step FsStep (Sys.boot zeroDisk)
    syncAfterCommit (fun s => s.stopped = none ∧ s.k.log.lh = []) (by decide +kernel)
  have hlogged : Act.logWrite 1 100 (stamp 1) ∈ syncAfterCommit := by
    simp [syncAfterCommit, logActs, blocks29]
  exact ⟨s, hrun, hstop, hlh, (sync_keeps_updates (by decide +kernel) hrun hstop hlogged).2⟩

/-- An operation of process 1 has logged 29 blocks and is still in progress when process 2 calls
`sync`, which finds 29 blocks listed and installs the log slots. -/
def syncDuringOp : List Act :=
  bootActs ++ [.beginOp 1] ++ logActs 1 blocks29 ++ [.sysSync 2] ++ runActs 2 33

/-- The slots were never written: after `sync` block 128, which was logged with content `stamp 29`,
is zero in the cache and on disk, and is no longer listed. -/
theorem sync_over_uncommitted :
    ∃ s, Run Sys.step (fun _ a => a.InHome) (Sys.boot zeroDisk) syncDuringOp s ∧
      s.stopped = none ∧ s.pc 2 = .user ∧ s.k.log.lh = [] ∧
      (flat zeroDisk syncDuringOp 128).word 0 = 29 ∧ (s.k.disk 128).word 0 = 0 ∧
      ∃ i, (s.k.buf i).dev = rootDev ∧ (s.k.buf i).blockno = 128 ∧
        ((s.k.buf i).data).word 0 = 0 :=
  run_of_check _ _ _ _ _ (by decide +kernel)

end Xv6.Disk
