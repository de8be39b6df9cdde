import Xv6.Disk.Recovery
import Xv6.Disk.BlockStore

/-!
# Stopping the machine

A run of operations is a sequence of transactions: the blocks logged until the last outstanding
`end_op`. `Hist` records them beside the system, with how many of them have been committed by
`write_head` and how many of their `end_op`s have returned. Every step of the system writes at most
one block, so every reached state is a point at which the machine may be stopped.

`commit` does not install any more, so the next commit rewrites the slots of the previous one while
the header on disk still declares it committed. `crash_atomic` says that nothing else goes wrong:
the machine can be stopped anywhere in the runs in which no transaction changes a block that the
header on disk declares. `crash_mixes_transactions` is a run in which one does.
-/

namespace Xv6.Disk

open Function (update update_self update_of_ne)
open Lib

/-! ### Transactions -/

/-- What a transaction logs, in order. -/
abbrev Tx := List (Nat × Block)

/-- The contents after the given transactions. -/
def applyTxs (d : Nat → Block) (txs : List Tx) : Nat → Block :=
  txs.flatten.foldl (fun v w => Function.update v w.1 w.2) d

/-- The transactions of a run. -/
structure Hist where
  /-- logged by the operations in progress -/
  cur : Tx
  /-- the transactions whose last outstanding `end_op` has begun -/
  done : List Tx
  /-- how many of them are committed: `write_head` has happened, or there was nothing to write -/
  committed : Nat
  /-- how many of these `end_op`s have returned -/
  returned : Nat

namespace Hist

def init : Hist := ⟨[], [], 0, 0⟩

/-- What a step adds to the history. -/
def next (g : Hist) (l : Log) (pc : ProcId → Pc) : Act → Hist
  | .logWrite _ b v => { g with cur := g.cur ++ [(b, v)] }
  | .endOp _ =>
    if l.outstanding - 1 = 0 then { g with cur := [], done := g.done ++ [g.cur] } else g
  | .run p =>
    match pc p with
    | .commit => if l.lh = [] then { g with committed := g.done.length } else g
    | .commitHead => { g with committed := g.done.length }
    | .endCommit => { g with returned := g.done.length }
    | _ => g
  | _ => g

/-- All contents logged so far. -/
def view (g : Hist) (d : Nat → Block) : Nat → Block := applyTxs d (g.done ++ [g.cur])

/-- The contents after the committed transactions. -/
def committedView (g : Hist) (d : Nat → Block) : Nat → Block := applyTxs d (g.done.take g.committed)

end Hist

/-- One step of the system with its history. A step that panics adds nothing. -/
def histStep (x : Sys × Hist) (a : Act) : Option (Sys × Hist) :=
  match x.1.step a with
  | some t => some (t, if t.stopped = none then x.2.next x.1.k.log x.1.pc a else x.2)
  | none => none

/-- The condition on a commit: every cached block that the header on disk declares has the content
that the disk stands for, so the transaction has not changed it. -/
def CommitsFresh (s : Sys) : Act → Prop
  | .endOp _ => s.k.log.outstanding = 1 → ∀ i, (s.k.buf i).dev = rootDev →
      (s.k.buf i).blockno ∈ header s.k.disk →
      (s.k.buf i).data = replay s.k.disk (s.k.buf i).blockno
  | _ => True

/-- The steps of operations whose commits meet the condition. -/
def CrashStep (x : Sys × Hist) (a : Act) : Prop := OpStep x.1 a ∧ CommitsFresh x.1 a

/-- In a commit whose header is not written yet. -/
def Pc.pending : Pc → Bool
  | .commit => true
  | .writeLog _ => true
  | .commitHead => true
  | _ => false

variable {c : Pc}

lemma Pc.inCommit_of_pending (h : c.pending) : c.inCommit := by
  cases c <;> first | rfl | exact absurd h (by simp [pending])

lemma Pc.not_pending_of_syncing (h : c.syncing) : c.pending = false := by
  cases c <;> first | rfl | exact absurd h (by simp [syncing])

/-! ### The invariant -/

/-- The invariant of runs that can be stopped anywhere: the disk stands for the committed
transactions. -/
structure CInv (d : Nat → Block) (A : Abs) (g : Hist) : Prop where
  inv : Inv A (g.view d)
  noSys : ∀ q, (A.pc q).inSysSync = false
  headerOk : HeaderOk A.disk
  stands : ∀ b, Home b → replay A.disk b = g.committedView d b
  /-- the header declares a part of what is listed, except while it is being erased -/
  declared : (∀ p c, A.pc p ≠ .clearHead c) → header A.disk <+: A.log.lh
  /-- what is declared is not changed by the transaction being written -/
  fresh : ∀ p, (A.pc p).writing = true → ∀ b ∈ header A.disk, A.want b = replay A.disk b
  curNil : A.log.outstanding = 0 → g.cur = []
  allCommitted : (∀ p, (A.pc p).pending = false) → g.committed = g.done.length
  lastPending : ∀ p, (A.pc p).pending = true → g.committed + 1 = g.done.length
  returned : g.returned ≤ g.committed

variable {b t x : Nat} {v : Block}

namespace CInv

variable {d : Nat → Block} {A A' : Abs} {g : Hist} {p : ProcId}

lemma view_of_nil (hcur : g.cur = []) : g.view d = applyTxs d g.done := by
  simp [Hist.view, applyTxs, hcur]

/-- With no operation in progress and none pending, everything is committed. -/
lemma committedView_eq (h : CInv d A g) (hout : A.log.outstanding = 0)
    (hpend : ∀ p, (A.pc p).pending = false) : g.committedView d = g.view d := by
  rw [view_of_nil (h.curNil hout), Hist.committedView, h.allCommitted hpend, List.take_length]

lemma calm_of_syncing (h : CInv d A g) (hp : (A.pc p).syncing) :
    A.log.outstanding = 0 ∧ ∀ q, (A.pc q).pending = false := by
  refine ⟨(h.inv.ctl.syncIdle p hp).1, fun q => ?_⟩
  by_contra hq
  have hq : (A.pc q).pending := by simpa using hq
  have hqp : q ≠ p := by
    rintro rfl
    rw [Pc.not_pending_of_syncing hp] at hq
    cases hq
  rcases Pc.syncing_cases hp with hc | hs | hr
  · exact hqp (h.inv.ctl.commitOne q p (Pc.inCommit_of_pending hq) hc)
  · rw [Pc.not_sysSyncing (h.noSys p)] at hs
    cases hs
  · have hpi := h.inv.ctl.recoverFirst p hr
    have huser : A.pc q = .user := by
      rw [hpi] at hr hqp
      exact h.inv.ctl.recoverAlone hr q hqp
    rw [huser] at hq
    cases hq

/-- A step that writes nothing and lists nothing. -/
lemma move (h : CInv d A g) (hinv : Inv A' (g.view d)) (hdisk : A'.disk = A.disk)
    (hlh : A'.log.lh = A.log.lh) (hwant : A'.want = A.want)
    (hpc : A'.pc = update A.pc p c) (hsys : c.inSysSync = false) (hclear : ∀ c', A.pc p ≠ .clearHead c')
    (hwr : c.writing → (A.pc p).writing) (hpend : c.pending = (A.pc p).pending)
    (hcur : A'.log.outstanding = 0 → g.cur = []) : CInv d A' g := by
  have hpending : ∀ q, (A'.pc q).pending = (A.pc q).pending := by
    intro q
    rw [hpc]
    by_cases hq : q = p
    · rw [hq, update_self, hpend]
    · rw [update_of_ne hq]
  refine ⟨hinv, ?_, by rw [hdisk]; exact h.headerOk, by rw [hdisk]; exact h.stands, ?_, ?_, hcur, ?_,
    ?_, h.returned⟩
  · intro q
    rw [hpc]
    by_cases hq : q = p
    · rw [hq, update_self, hsys]
    · rw [update_of_ne hq]; exact h.noSys q
  · intro hno
    rw [hdisk, hlh]
    refine h.declared fun q c' => ?_
    by_cases hq : q = p
    · rw [hq]; exact hclear c'
    · have := hno q c'
      rwa [hpc, update_of_ne hq] at this
  · intro q hq
    rw [hdisk, hwant]
    rw [hpc] at hq
    by_cases hqp : q = p
    · rw [hqp, update_self] at hq
      exact h.fresh p (hwr hq)
    · rw [update_of_ne hqp] at hq
      exact h.fresh q hq
  · intro hno
    refine h.allCommitted fun q => ?_
    rw [← hpending]
    exact hno q
  · intro q hq
    rw [hpending] at hq
    exact h.lastPending q hq

lemma view_next (g : Hist) (l : Log) (pc : ProcId → Pc) (a : Act) :
    (g.next l pc a).view d = a.apply (g.view d) := by
  cases a with
  | logWrite p b v => simp [Hist.next, Hist.view, applyTxs, Act.apply]
  | endOp p =>
    simp only [Hist.next]
    split
    · simp [Hist.view, applyTxs, Act.apply]
    · rfl
  | run p =>
    simp only [Hist.next]
    split
    · split <;> rfl
    · rfl
    · rfl
    · rfl
  | _ => rfl

lemma stands_of_header {view : Nat → Block} (hinv : Inv A view)
    (hhead : header A.disk = A.log.lh) (hlen : A.log.lh.length < logSize) (hslot : ∀ j, A.SlotOk j) :
    HeaderOk A.disk ∧ ∀ b, Home b → replay A.disk b = view b := by
  have hok : HeaderOk A.disk := ⟨by rw [hhead]; exact hinv.nodup, by rw [hhead]; exact hinv.home,
    by rw [hhead]; exact hinv.range, by rw [hhead]; exact hlen⟩
  refine ⟨hok, fun b hb => ?_⟩
  by_cases hm : b ∈ header A.disk
  · obtain ⟨j, hj, hjb⟩ := List.getElem_of_mem hm
    have hget : (header A.disk)[j]? = some b := by rw [List.getElem?_eq_getElem hj, hjb]
    have hnot : slot j ∉ A.pin := by
      intro hmem
      exact not_home_slot (by rw [hhead] at hj; omega) (hinv.home _ (hinv.listed _ hmem))
    rw [replay_of_get hok.nodup hget, A.onDisk _ hnot, hslot j b (by rw [← hhead]; exact hget),
      hinv.flat b hb]
  · rw [replay_of_notMem hm, A.onDisk b (fun hp => hm (by rw [hhead]; exact hinv.listed b hp)),
      hinv.flat b hb]

lemma noSys_jump (h : CInv d A g) (hc : c.inSysSync = false) (q : ProcId) :
    (update A.pc p c q).inSysSync = false := by
  by_cases hq : q = p
  · rw [hq, update_self]; exact hc
  · rw [update_of_ne hq]; exact h.noSys q

/-- The commit point: the header is written, or there is nothing to declare. -/
lemma commit (h : CInv d A g) (hinv : Inv A' (g.view d)) (hp : (A.pc p).pending)
    (hpc : A'.pc = update A.pc p .fullTest)
    (hhead : header A'.disk = A'.log.lh) (hlen : A'.log.lh.length < logSize)
    (hslot : ∀ j, A'.SlotOk j) : CInv d A' { g with committed := g.done.length } := by
  obtain ⟨hok, hstands⟩ := stands_of_header hinv hhead hlen hslot
  have hin := Pc.inCommit_of_pending hp
  have hcur : g.cur = [] := h.curNil (h.inv.ctl.alone_in_commit hin).1
  -- nobody else is in a commit
  have hothers : ∀ q, (A'.pc q).pending = false ∧ (A'.pc q).writing = false := by
    intro q
    rw [hpc]
    by_cases hq : q = p
    · rw [hq, update_self]
      exact ⟨rfl, rfl⟩
    · rw [update_of_ne hq]
      refine ⟨?_, (h.inv.ctl.alone_in_commit hin).2 q hq⟩
      by_contra hqp
      exact hq (h.inv.ctl.commitOne q p (Pc.inCommit_of_pending (by simpa using hqp)) hin)
  refine ⟨hinv, ?_, hok, ?_, ?_, ?_, ?_, ?_, ?_, ?_⟩
  · intro q
    rw [hpc]
    exact h.noSys_jump rfl q
  · intro b hb
    rw [hstands b hb, view_of_nil hcur, Hist.committedView, List.take_length]
  · intro _
    rw [hhead]
  · intro q hq
    rw [(hothers q).2] at hq
    cases hq
  · intro _
    exact hcur
  · intro _
    rfl
  · intro q hq
    rw [(hothers q).1] at hq
    cases hq
  · have := h.lastPending p hp
    have := h.returned
    change g.returned ≤ g.done.length
    omega

lemma logWrite (h : CInv d A g) (hp : A.pc p = .inOp)
    (hinv : Inv ((A.modify b v).setLog (A.log.add b))
      (({ g with cur := g.cur ++ [(b, v)] } : Hist).view d)) :
    CInv d ((A.modify b v).setLog (A.log.add b)) { g with cur := g.cur ++ [(b, v)] } := by
  have hpos := h.inv.ctl.outstanding_pos hp
  have hnone := fun q => h.inv.ctl.not_inCommit_of_pos hpos q
  refine ⟨hinv, h.noSys, h.headerOk, h.stands, ?_, ?_, ?_, h.allCommitted, h.lastPending, h.returned⟩
  · intro hno
    refine (h.declared hno).trans ?_
    rw [Abs.setLog_log, Log.add_lh]
    split
    · exact List.prefix_refl _
    · exact List.prefix_append _ _
  · intro q hq
    have := Pc.inCommit_of_writing hq
    rw [Abs.setLog_pc, Abs.modify_pc, hnone q] at this
    cases this
  · intro hout
    rw [Abs.setLog_log, Log.add_outstanding] at hout
    omega

lemma endOpLast (h : CInv d A g) {l : Log} (hp : A.pc p = .inOp) (hlh : l.lh = A.log.lh)
    (hinv : Inv ((A.setLog l).jump p .commit)
      (({ g with cur := [], done := g.done ++ [g.cur] } : Hist).view d))
    (hfresh : ∀ b ∈ header A.disk, A.want b = replay A.disk b) :
    CInv d ((A.setLog l).jump p .commit) { g with cur := [], done := g.done ++ [g.cur] } := by
  have hpos := h.inv.ctl.outstanding_pos hp
  have hnone : ∀ q, (A.pc q).pending = false := by
    intro q
    by_contra hq
    have := Pc.inCommit_of_pending (by simpa using hq : (A.pc q).pending)
    rw [h.inv.ctl.not_inCommit_of_pos hpos q] at this
    cases this
  have hcom := h.allCommitted hnone
  refine ⟨hinv, h.noSys_jump rfl, h.headerOk, ?_, ?_, ?_, fun _ => rfl, ?_, ?_, h.returned⟩
  · intro b hb
    have htake : (g.done ++ [g.cur]).take g.committed = g.done.take g.committed :=
      List.take_append_of_le_length (by omega)
    have := h.stands b hb
    rw [Hist.committedView] at this ⊢
    rw [htake]
    exact this
  · intro _
    rw [Abs.jump_disk, Abs.setLog_disk, Abs.jump_log, Abs.setLog_log, hlh]
    refine h.declared fun q c hq => ?_
    have := h.inv.ctl.not_syncing_of_pos hpos q
    rw [hq] at this
    cases this
  · intro _ _
    exact hfresh
  · intro hno
    have := hno p
    simp only [Abs.jump_pc, update_self] at this
    cases this
  · intro _ _
    simp [hcom]

lemma declared_of_writing (h : CInv d A g) (hp : (A.pc p).writing) : header A.disk <+: A.log.lh := by
  refine h.declared fun q c hq => ?_
  by_cases hqp : q = p
  · rw [hqp] at hq
    rw [hq] at hp
    cases hp
  · have := (h.inv.others_idle hp hqp).2.1
    rw [hq] at this
    cases this

lemma header_update (hx : x ≠ logStart) : header (update d x v) = header d := by
  unfold header
  rw [update_of_ne hx.symm]

lemma replay_logSlot (h : CInv d A g) (hp : A.pc p = .writeLog t)
    (hb : A.log.lh[t]? = some b) (hlen : A.log.lh.length < logSize) (hx : Home x) :
    replay (update A.disk (slot t) (A.want b)) x = replay A.disk x := by
  have hwr : (A.pc p).writing := by rw [hp]; rfl
  have hpre := h.declared_of_writing hwr
  have ht : t < A.log.lh.length := (List.getElem?_eq_some_iff.mp hb).1
  have hhead := header_update (d := A.disk) (v := A.want b) (slot_ne_logStart t)
  by_cases hm : x ∈ header A.disk
  · obtain ⟨j, hget⟩ := List.mem_iff_getElem?.mp hm
    obtain ⟨hj, hjx⟩ := List.getElem?_eq_some_iff.mp hget
    rw [replay_of_get h.headerOk.nodup hget,
      replay_of_get (h.headerOk.congr hhead).nodup (by rw [hhead]; exact hget)]
    by_cases hjt : j = t
    · subst hjt
      have hxb : x = b :=
        hjx.symm.trans ((hpre.getElem hj).trans (List.getElem?_eq_some_iff.mp hb).2)
      rw [update_self, ← hxb, h.fresh p hwr x hm, replay_of_get h.headerOk.nodup hget]
    · rw [update_of_ne fun he => hjt (slot_inj he)]
  · have hne : x ≠ slot t := by
      rintro rfl
      exact not_home_slot (by omega) hx
    rw [replay_of_notMem hm, replay_of_notMem (by rw [hhead]; exact hm), update_of_ne hne]

lemma logSlot (h : CInv d A g) (hp : A.pc p = .writeLog t)
    (hb : A.log.lh[t]? = some b) (hlen : A.log.lh.length < logSize)
    (hinv : Inv ((A.write (slot t) (A.want b)).jump p (.writeLog (t + 1))) (g.view d)) :
    CInv d ((A.write (slot t) (A.want b)).jump p (.writeLog (t + 1))) g := by
  have hwr : (A.pc p).writing := by rw [hp]; rfl
  have hpd : (A.pc p).pending := by rw [hp]; rfl
  have ht : t < A.log.lh.length := (List.getElem?_eq_some_iff.mp hb).1
  have hhead := header_update (d := A.disk) (v := A.want b) (slot_ne_logStart t)
  have hok := h.headerOk
  refine ⟨hinv, h.noSys_jump rfl, hok.congr hhead, ?_, ?_, ?_, h.curNil, ?_, ?_, h.returned⟩
  · intro x hx
    rw [Abs.jump_disk, Abs.write_disk, h.replay_logSlot hp hb hlen hx]
    exact h.stands x hx
  · intro _
    rw [Abs.jump_disk, Abs.write_disk, hhead]
    exact h.declared_of_writing hwr
  · intro _ _ x hx
    rw [Abs.jump_disk, Abs.write_disk, hhead] at hx
    have hxh := hok.home x hx
    have hne : x ≠ slot t := by
      rintro rfl
      exact not_home_slot (by omega) hxh
    rw [Abs.jump_disk, Abs.write_disk, h.replay_logSlot hp hb hlen hxh, Abs.jump_want, Abs.write_want,
      update_of_ne hne]
    exact h.fresh p hwr x hx
  · intro hno
    have := hno p
    simp only [Abs.jump_pc, update_self] at this
    cases this
  · intro _ _
    exact h.lastPending p hpd

lemma calm_jump (h : CInv d A g) (hp : (A.pc p).syncing)
    (hc : c.pending = false ∧ c.writing = false) (q : ProcId) : (update A.pc p c q).pending = false ∧
      (update A.pc p c q).writing = false := by
  by_cases hq : q = p
  · rw [hq, update_self]; exact hc
  · rw [update_of_ne hq]
    exact ⟨(h.calm_of_syncing hp).2 q, (h.inv.ctl.syncIdle p hp).2 q⟩

/-- A step of the installing process, after which the disk still stands for everything logged. -/
lemma sync (h : CInv d A g) (hp : (A.pc p).syncing) (hinv : Inv A' (g.view d)) (hpc : A'.pc = update A.pc p c)
    (hsys : c.inSysSync = false) (hc : c.pending = false ∧ c.writing = false)
    (hok : HeaderOk A'.disk) (hstands : ∀ b, Home b → replay A'.disk b = g.view d b)
    (hdecl : (∀ p c, A'.pc p ≠ .clearHead c) → header A'.disk <+: A'.log.lh) : CInv d A' g := by
  obtain ⟨hout, hpend⟩ := h.calm_of_syncing hp
  refine ⟨hinv, ?_, hok, ?_, hdecl, ?_, fun _ => h.curNil hout, fun _ => h.allCommitted hpend, ?_,
    h.returned⟩
  · intro q
    rw [hpc]
    exact h.noSys_jump hsys q
  · intro b hb
    rw [hstands b hb, h.committedView_eq hout hpend]
  · intro q hq
    rw [hpc, (h.calm_jump hp hc q).2] at hq
    cases hq
  · intro q hq
    rw [hpc, (h.calm_jump hp hc q).1] at hq
    cases hq

lemma noSys_of (h : CInv d A g) {old new : Pc} (hp : A.pc p = old)
    (hon : old.inSysSync = false → new.inSysSync = false) : new.inSysSync = false :=
  hon (hp ▸ h.noSys p)

lemma installSlot (h : CInv d A g) {c : Caller} (hp : A.pc p = .install c t) (hb : A.log.lh[t]? = some b)
    (hinv : Inv ((A.write b (A.want (slot t))).jump p (.install c (t + 1))) (g.view d)) :
    CInv d ((A.write b (A.want (slot t))).jump p (.install c (t + 1))) g := by
  have hsync : (A.pc p).syncing := by rw [hp]; rfl
  obtain ⟨hout, hpend⟩ := h.calm_of_syncing hsync
  have hbhome := h.inv.home b (List.mem_of_getElem? hb)
  have hbne : b ≠ logStart := by rintro rfl; exact not_home_logStart hbhome
  have hhead := header_update (d := A.disk) (v := A.want (slot t)) hbne
  have hok := h.headerOk
  have hlen := hok.len
  refine h.sync hsync hinv rfl (h.noSys_of hp ?_) ⟨rfl, rfl⟩ (hok.congr hhead) ?_ ?_
  · cases c <;> simp [Pc.inSysSync]
  · intro x hx
    have hold : replay A.disk x = g.view d x := by
      rw [← h.committedView_eq hout hpend]
      exact h.stands x hx
    rw [Abs.jump_disk, Abs.write_disk, ← hold]
    by_cases hm : x ∈ header A.disk
    · obtain ⟨j, hget⟩ := List.mem_iff_getElem?.mp hm
      have hj := (List.getElem?_eq_some_iff.mp hget).1
      have hne : slot j ≠ b := by
        rintro rfl
        exact not_home_slot (by omega) hbhome
      rw [replay_of_get hok.nodup hget,
        replay_of_get (hok.congr hhead).nodup (by rw [hhead]; exact hget), update_of_ne hne]
    · rw [replay_of_notMem (by rw [hhead]; exact hm)]
      by_cases hxb : x = b
      · obtain ⟨-, hslot⟩ := h.inv.settled (h.inv.settled_of_syncing hsync)
        rw [hold, hxb, update_self, hslot t b hb, h.inv.flat b hbhome]
      · rw [update_of_ne hxb, replay_of_notMem hm]
  · intro hno
    rw [Abs.jump_disk, Abs.write_disk, hhead]
    refine h.declared fun q c' => ?_
    by_cases hq : q = p
    · rw [hq, hp]; simp
    · have := hno q c'
      rwa [Abs.jump_pc, Abs.write_pc, update_of_ne hq] at this

/-- **One step** keeps the disk recoverable. -/
lemma step {a : Act} (h : CInv d A g) (hhome : a.InHome) (hno : a.isSysSync = false)
    (hfresh : ∀ p, a = .endOp p → A.log.outstanding = 1 →
      ∀ b ∈ header A.disk, A.want b = replay A.disk b)
    (hs : A.Step a A') : CInv d A' (g.next A.log A.pc a) := by
  have hinv : Inv A' ((g.next A.log A.pc a).view d) := by
    rw [view_next]
    exact h.inv.step hhome (syncAlone_of_noSys h.noSys a) hs
  cases hs with
  | @beginOp p _ hp _ _ =>
    exact h.move hinv rfl rfl rfl rfl rfl (by rw [hp]; simp) (by simp [Pc.writing]) (by rw [hp]; rfl)
      nofun
  | bread | brelse => exact h
  | logWrite _ hp _ _ _ => exact h.logWrite hp hinv
  | @endOpLast p _ hp _ hlast =>
    have hpos := h.inv.ctl.outstanding_pos hp
    simp only [Hist.next, if_pos hlast] at hinv ⊢
    exact h.endOpLast hp rfl hinv (hfresh p rfl (by omega))
  | @endOp p _ hp _ hlast =>
    simp only [Hist.next, if_neg hlast] at hinv ⊢
    exact h.move hinv rfl rfl rfl rfl rfl (by rw [hp]; simp) (by simp [Pc.writing]) (by rw [hp]; rfl)
      (fun h0 => absurd h0 hlast)
  | sysSync => cases hno
  | @commitSome p hp hpos =>
    have hne : A.log.lh ≠ [] := List.length_pos_iff.mp hpos
    simp only [Hist.next, hp, if_neg hne] at hinv ⊢
    exact h.move hinv rfl rfl rfl rfl rfl (by rw [hp]; simp) (by rw [hp]; simp [Pc.writing])
      (by rw [hp]; rfl) h.curNil
  | @commitNone p hp hnil =>
    have hpd : (A.pc p).pending := by rw [hp]; rfl
    have hhead : header A.disk = A.log.lh := by
      have := h.declared_of_writing (p := p) (by rw [hp]; rfl)
      rw [hnil] at this ⊢
      exact List.prefix_nil.mp this
    simp only [Hist.next, hp, if_pos hnil] at hinv ⊢
    exact h.commit hinv hpd rfl hhead (by simp [hnil, logSize]) (by simp [Abs.SlotOk, hnil])
  | @logSlot p t b hp hb hroom =>
    simp only [Hist.next, hp] at hinv ⊢
    exact h.logSlot hp hb (h.inv.room_of_logSlot hp hroom) hinv
  | @logDone p t hp _ | @isFull p hp _ | @notFull p hp _ =>
    simp only [Hist.next, hp] at hinv ⊢
    exact h.move hinv rfl rfl rfl rfl rfl (by rw [hp]; simp) (by simp [Pc.writing]) (by rw [hp]; rfl)
      h.curNil
  | @commitHead p hp =>
    have hpd : (A.pc p).pending := by rw [hp]; rfl
    obtain ⟨hout, hothers⟩ := h.inv.ctl.alone_in_commit (Pc.inCommit_of_pending hpd)
    have hset : A.Settled := by
      refine ⟨hout, fun q => ?_⟩
      by_cases hq : q = p
      · rw [hq, hp]; rfl
      · exact hothers q hq
    obtain ⟨hlen, hslot⟩ := h.inv.settled hset
    simp only [Hist.next, hp] at hinv ⊢
    refine h.commit hinv hpd rfl ?_ hlen (fun j => h.inv.slotOk_writeHead (hslot j) _)
    simp only [header, Abs.jump_disk, Abs.writeHead, Abs.write_disk, update_self]
    refine getHeader_putHeader _ ?_ ?_
    · unfold logSize at hlen
      omega
    · intro x hx
      have := h.inv.range x hx
      unfold fsSize at this
      omega
  | @syncSkip p c hp _ =>
    simp only [Hist.next, hp] at hinv ⊢
    refine h.move hinv rfl rfl rfl rfl ?_ (by rw [hp]; simp) ?_ ?_ h.curNil
    · cases c <;> rfl
    · cases c <;> simp [Caller.ret, Pc.writing]
    · rw [hp]
      cases c <;> rfl
  | @syncStart p c hp _ =>
    have hsys := h.noSys p
    rw [hp] at hsys
    simp only [Hist.next, hp] at hinv ⊢
    refine h.move hinv rfl rfl rfl rfl ?_ (by rw [hp]; simp) (by simp [Pc.writing]) (by rw [hp]; rfl)
      h.curNil
    cases c with
    | sysSync => cases hsys
    | _ => rfl
  | @installSlot p c t b hp hb =>
    simp only [Hist.next, hp] at hinv ⊢
    exact h.installSlot hp hb hinv
  | @installDone p c t hp _ =>
    simp only [Hist.next, hp] at hinv ⊢
    refine h.move hinv rfl rfl rfl rfl (h.noSys_of hp ?_) (by rw [hp]; simp)
      (by simp [Pc.writing]) (by rw [hp]; rfl) h.curNil
    cases c <;> simp [Pc.inSysSync]
  | @reset p c hp =>
    have hsync : (A.pc p).syncing := by rw [hp]; rfl
    obtain ⟨hout, hpend⟩ := h.calm_of_syncing hsync
    simp only [Hist.next, hp] at hinv ⊢
    refine h.sync hsync hinv rfl (h.noSys_of hp ?_) ⟨rfl, rfl⟩ h.headerOk ?_ ?_
    · cases c <;> decide
    · intro x hx
      rw [← h.committedView_eq hout hpend]
      exact h.stands x hx
    · intro hno
      exact absurd (update_self p _ _) (hno p c)
  | @clearHead p c hp =>
    have hsync : (A.pc p).syncing := by rw [hp]; rfl
    have hnil : A.log.lh = [] := by
      have := h.inv.phase p
      rwa [hp] at this
    simp only [Hist.next, hp] at hinv ⊢
    have hhead : header (A.writeHead.jump p c.ret).disk = [] := by
      simp only [header, Abs.jump_disk, Abs.writeHead, Abs.write_disk, update_self, hnil]
      exact getHeader_putHeader _ (by simp) (by simp)
    obtain ⟨hok, hstands⟩ := stands_of_header hinv (hhead.trans hnil.symm)
      (by simp [Abs.writeHead, hnil, logSize]) (by simp [Abs.SlotOk, Abs.writeHead, hnil])
    refine h.sync hsync hinv rfl (h.noSys_of hp ?_) ?_ hok
      hstands ?_
    · cases c <;> decide
    · cases c <;> exact ⟨rfl, rfl⟩
    · intro _
      rw [hhead]
      exact List.nil_prefix
  | @endCommit p hp =>
    simp only [Hist.next, hp] at hinv ⊢
    have hin : (A.pc p).inCommit := by rw [hp]; rfl
    have hpend : ∀ q, (A.pc q).pending = false := by
      intro q
      by_contra hq
      have hq : (A.pc q).pending := by simpa using hq
      have hqp := h.inv.ctl.commitOne q p (Pc.inCommit_of_pending hq) hin
      rw [hqp, hp] at hq
      cases hq
    have hmove : CInv d ((A.setLog { A.log with committing := false }).jump p .user) g :=
      h.move hinv rfl rfl rfl rfl rfl (by rw [hp]; simp) (by simp [Pc.writing]) (by rw [hp]; rfl)
        h.curNil
    exact ⟨hinv, hmove.noSys, hmove.headerOk, hmove.stands, hmove.declared, hmove.fresh,
      hmove.curNil, hmove.allCommitted, hmove.lastPending, (h.allCommitted hpend).symm.le⟩
  | @readHead p hp =>
    have hphase := h.inv.phase p
    rw [hp] at hphase
    simp only [Hist.next, hp] at hinv ⊢
    have hlh : getHeader (A.want logStart) = A.log.lh := by rw [hphase.1, hphase.2]
    exact h.move hinv rfl hlh rfl rfl rfl (by rw [hp]; simp) (by simp [Pc.writing]) (by rw [hp]; rfl)
      h.curNil

lemma boot (hempty : header d = []) : CInv d (Abs.boot d) Hist.init := by
  have hpc : ∀ p, (Abs.boot d).pc p = .readHead ∨ (Abs.boot d).pc p = .user := by
    intro p
    by_cases hp : p = initProc
    · exact .inl (if_pos hp)
    · exact .inr (if_neg hp)
  have hhead : header (Abs.boot d).disk = [] := hempty
  refine ⟨Inv.boot hempty, ?_, ?_, ?_, ?_, ?_, fun _ => rfl, fun _ => rfl, ?_, le_rfl⟩
  · intro q
    rcases hpc q with h | h <;> rw [h] <;> rfl
  · exact ⟨by simp [hhead], by simp [hhead], by simp [hhead], by simp [hhead, logSize]⟩
  · intro b _
    rw [replay_of_notMem (by simp [hhead])]
    rfl
  · intro _
    rw [hhead]
    exact List.nil_prefix
  · intro q hq
    rcases hpc q with h | h <;> rw [h] at hq <;> exact absurd hq (by simp [Pc.writing])
  · intro q hq
    rcases hpc q with h | h <;> rw [h] at hq <;> exact absurd hq (by simp [Pc.pending])

lemma fresh_of_commits {s : Sys} (h : CInv d A g) (hs : Shows s A) (hout : A.log.outstanding = 1)
    (hfresh : CommitsFresh s (.endOp p)) : ∀ b ∈ header A.disk, A.want b = replay A.disk b := by
  have hpos : 0 < A.log.outstanding := by omega
  have hsync := h.inv.ctl.not_syncing_of_pos hpos
  have hdecl : header A.disk <+: A.log.lh := by
    refine h.declared fun q c hq => ?_
    have := hsync q
    rw [hq] at this
    cases this
  intro b hb
  obtain ⟨i, hdev, hno⟩ := hs.cache.pinned b (h.inv.pinned hsync b (hdecl.subset hb))
  have := hfresh (by rw [hs.log]; exact hout) i hdev (by rw [hno, hs.disk]; exact hb)
  rw [hs.cache.data i hdev, hno, hs.disk] at this
  exact this

lemma committed_le (h : CInv d A g) : g.committed ≤ g.done.length := by
  by_cases hp : ∃ p, (A.pc p).pending = true
  · obtain ⟨p, hp⟩ := hp
    have := h.lastPending p hp
    omega
  · refine (h.allCommitted fun p => ?_).le
    by_contra hc
    exact hp ⟨p, by simpa using hc⟩

end CInv

/-! ### Whole runs -/

/-- The disk stands for the committed transactions, and all that have returned are committed. -/
structure Recoverable (d disk : Nat → Block) (g : Hist) : Prop where
  headerOk : HeaderOk disk
  stands : ∀ b, Home b → replay disk b = g.committedView d b
  returned : g.returned ≤ g.committed
  committed : g.committed ≤ g.done.length

variable {d : Nat → Block}

lemma CInv.recoverable {A : Abs} {g : Hist} (h : CInv d A g) : Recoverable d A.disk g :=
  ⟨h.headerOk, h.stands, h.returned, h.committed_le⟩

/-- At every point of every run, also when the machine has panicked. -/
lemma recoverable_run (hempty : header d = []) {as : List Act}
    {x : Sys × Hist} (hrun : Run histStep CrashStep (Sys.boot d, Hist.init) as x) :
    Recoverable d x.1.k.disk x.2 := by
  have hinv := hrun.inv (I := fun x => Recoverable d x.1.k.disk x.2 ∧
    (x.1.stopped = none → ∃ A, Shows x.1 A ∧ CInv d A x.2)) ?_ ?_
  · exact hinv.1
  · exact ⟨(CInv.boot hempty).recoverable, fun _ => ⟨_, shows_boot d, CInv.boot hempty⟩⟩
  · rintro ⟨s, g⟩ a y ⟨hrec, ih⟩ ⟨⟨hhome, hno⟩, hfresh⟩ hstep
    unfold histStep at hstep
    cases ht : s.step a with
    | none => simp only [ht] at hstep; exact absurd hstep (by simp)
    | some t =>
      simp only [ht] at hstep
      cases hstep
      obtain ⟨A, hshow, hA⟩ := ih (Sys.running_of_step ht)
      rcases hshow.step ht with ⟨A', hs', hshow'⟩ | ⟨hstop, hdisk⟩
      · have hA' := hA.step hhome hno (fun p hp hout => ?_) hs'
        · rw [← hshow.log, ← hshow.pc] at hA'
          rw [if_pos hshow'.running]
          refine ⟨?_, fun _ => ⟨A', hshow', hA'⟩⟩
          rw [hshow'.disk]
          exact hA'.recoverable
        · subst hp
          exact hA.fresh_of_commits hshow hout hfresh
      · rw [if_neg hstop]
        refine ⟨?_, fun hrun => absurd hrun hstop⟩
        rw [hdisk]
        exact hrec

/-- **Crash atomicity.** Stop the machine at any point of a run of transactions none of which changes
a block that the header on disk declares. Recovery then finishes, and however often it is
interrupted it leaves the contents after a prefix of the transactions, with every transaction whose
`end_op` had returned and none whose header had not been written. -/
theorem crash_atomic {d : Nat → Block} {as : List Act} {s : Sys} {g : Hist} (hempty : header d = [])
    (hrun : Run histStep CrashStep (Sys.boot d, Hist.init) as (s, g)) :
    (g.returned ≤ g.committed ∧ g.committed ≤ g.done.length) ∧
    (∃ d', Recovers s.k.disk d') ∧
    ∀ d', Recovers s.k.disk d' → ∀ b, Home b → d' b = applyTxs d (g.done.take g.committed) b := by
  have hrec := recoverable_run hempty hrun
  refine ⟨⟨hrec.returned, hrec.committed⟩, recovery_finishes hrec.headerOk, ?_⟩
  intro d' hd' b hb
  rw [recovers_replay hd' hrec.headerOk b hb]
  exact hrec.stands b hb

instance (s : Sys) : (a : Act) → Decidable (CommitsFresh s a)
  | .endOp _ => inferInstanceAs (Decidable (s.k.log.outstanding = 1 → ∀ i,
      (s.k.buf i).dev = rootDev → (s.k.buf i).blockno ∈ header s.k.disk →
      (s.k.buf i).data = replay s.k.disk (s.k.buf i).blockno))
  | .beginOp _ => isTrue trivial
  | .bread _ _ => isTrue trivial
  | .logWrite _ _ _ => isTrue trivial
  | .brelse _ _ => isTrue trivial
  | .run _ => isTrue trivial
  | .sysSync _ => isTrue trivial

instance (x : Sys × Hist) (a : Act) : Decidable (CrashStep x a) :=
  inferInstanceAs (Decidable (OpStep x.1 a ∧ CommitsFresh x.1 a))

/-- A first transaction commits, a second one with another block is stopped after its first slot. -/
def twoBlocks : List Act :=
  bootActs ++ [.beginOp 1] ++ logActs 1 [(100, stamp 1)] ++ [.endOp 1] ++ runActs 1 6 ++
    [.beginOp 1] ++ logActs 1 [(101, stamp 2)] ++ [.endOp 1] ++ runActs 1 2

theorem crash_between_blocks :
    ∃ s g, Run histStep CrashStep (Sys.boot zeroDisk, Hist.init) twoBlocks (s, g) ∧
      g.done.length = 2 ∧ g.committed = 1 ∧
      ∃ d', Recovers s.k.disk d' ∧
        ∀ b, Home b → d' b = applyTxs zeroDisk (g.done.take g.committed) b := by
  obtain ⟨⟨s, g⟩, hrun, hdone, hcom⟩ := run_of_check histStep CrashStep (Sys.boot zeroDisk, Hist.init)
    twoBlocks (fun x => x.2.done.length = 2 ∧ x.2.committed = 1) (by decide +kernel)
  obtain ⟨-, ⟨d', hd'⟩, hrec⟩ := crash_atomic (by decide +kernel) hrun
  exact ⟨s, g, hrun, hdone, hcom, d', hd', hrec d' hd'⟩

/-- A first transaction logs block 100 and commits. A second one logs blocks 100 and 101 and is
stopped when its commit has written the first slot. -/
def mixedRun : List Act :=
  bootActs ++ [.beginOp 1] ++ logActs 1 [(100, stamp 1)] ++ [.endOp 1] ++ runActs 1 6 ++
    [.beginOp 1] ++ logActs 1 [(100, stamp 2), (101, stamp 2)] ++ [.endOp 1] ++ runActs 1 2

/-- Recovery then installs block 100 of the second transaction without block 101: the contents are
those after no prefix of the transactions. -/
theorem crash_mixes_transactions :
    ∃ s g d', Run histStep (fun x a => OpStep x.1 a) (Sys.boot zeroDisk, Hist.init) mixedRun (s, g) ∧
      Recovers s.k.disk d' ∧
      ∀ n, ¬ ∀ b, Home b → d' b = applyTxs zeroDisk (g.done.take n) b := by
  obtain ⟨⟨s, g⟩, hrun, hrec, hlen, h0, h1, h2⟩ := run_of_check histStep (fun x a => OpStep x.1 a)
    (Sys.boot zeroDisk, Hist.init) mixedRun
    (fun x => (exec Sys.step RecStep (Sys.boot x.1.k.disk) (runActs initProc 5)).any (fun t =>
        t.stopped = none ∧ t.recovering = false ∧ (t.k.disk 100).word 0 = 2 ∧
          (t.k.disk 101).word 0 = 0) = true ∧
      x.2.done.length = 2 ∧ (applyTxs zeroDisk (x.2.done.take 0) 100).word 0 = 0 ∧
      (applyTxs zeroDisk (x.2.done.take 1) 100).word 0 = 1 ∧
      (applyTxs zeroDisk x.2.done 101).word 0 = 2) (by decide +kernel)
  obtain ⟨t, hrecrun, hstop, hfin, h100, h101⟩ := run_of_check _ _ _ _ _ hrec
  refine ⟨s, g, t.k.disk, hrun, .finish hrecrun hstop hfin, fun n hn => ?_⟩
  have hb100 := hn 100 (by decide)
  have hb101 := hn 101 (by decide)
  rw [hb100] at h100
  rw [hb101] at h101
  rcases n with _ | _ | n
  · rw [h0] at h100
    exact absurd h100 (by decide)
  · rw [h1] at h100
    exact absurd h100 (by decide)
  · rw [List.take_of_length_le (by rw [hlen]; omega), h2] at h101
    exact absurd h101 (by decide)

end Xv6.Disk
