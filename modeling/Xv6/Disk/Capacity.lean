import Xv6.Disk.Recovery

/-!
# How full the log gets

The log region has 29 slots, but `begin_op` reserves nothing: it only waits for a commit or while
more than 29 blocks are listed. `log_capacity` gives the reservation under which the log never
overflows: an operation begins only when the blocks that are listed or that the operations in
progress may still log leave room for its own. `log_overflow` is a run of three operations, one after
the other and each within `MAXOPBLOCKS`, that lists 30 blocks.

Nothing here depends on the contents of the cache: the pieces of `bio.c` leave the log alone
(`KeepsLog`), so what a step does to the list is read off `log.c`.
-/

namespace Xv6.Disk

open Function (update_self update_of_ne)

open Lib

/-- The message of `log_write` when the log is full. -/
def tooBig : String := "too big a transaction"

/-! ### What `bio.c` leaves alone -/

/-- The piece does not touch the log and does not panic for its sake. -/
def KeepsLog {α : Type} (c : KM α) : Prop :=
  ∀ k, wp c k (fun _ k' => k'.log = k.log) (fun e k' => k'.log = k.log ∧ e ≠ .panic tooBig)

lemma KeepsLog.bind {α β : Type} {c : KM α} {f : α → KM β} (hc : KeepsLog c)
    (hf : ∀ a, KeepsLog (f a)) : KeepsLog (c >>= f) := by
  intro k
  refine (hc k).seq fun a k1 h1 => ?_
  rw [← h1]
  exact hf a k1

lemma keepsLog_acquiresleep (p : ProcId) (i : Fin nBuf) : KeepsLog (acquiresleep p i) := by
  intro k
  simp only [acquiresleep, wp_bind, wp_get, wp_ite, wp_throw, wp_set]
  split
  · exact ⟨trivial, by simp⟩
  · rfl

lemma keepsLog_bget (p : ProcId) (dev b : Nat) : KeepsLog (bget p dev b) := by
  intro k
  simp only [bget, wp_bind, wp_get]
  cases k.cached dev b with
  | some i =>
    simp only [wp_bind, wp_set, wp_pure]
    exact keepsLog_acquiresleep p i (k.setBuf i _)
  | none =>
    cases k.victim with
    | some i =>
      simp only [wp_bind, wp_set, wp_pure]
      exact keepsLog_acquiresleep p i (k.setBuf i _)
    | none => exact ⟨rfl, by simp [tooBig]⟩

lemma keepsLog_iderw (p : ProcId) (i : Fin nBuf) : KeepsLog (iderw p i) := by
  intro k
  simp only [iderw, wp_bind, wp_get, wp_ite, wp_throw, wp_set]
  repeat' split
  all_goals first | rfl | exact ⟨trivial, by simp [tooBig]⟩

lemma keepsLog_bread (p : ProcId) (dev b : Nat) : KeepsLog (bread p dev b) := by
  refine (keepsLog_bget p dev b).bind fun i k => ?_
  simp only [wp_bind, wp_get, wp_ite, wp_pure]
  split
  · exact keepsLog_iderw p i k
  · trivial

lemma keepsLog_bwrite (p : ProcId) (i : Fin nBuf) : KeepsLog (bwrite p i) := by
  intro k
  simp only [bwrite, wp_bind, wp_get, wp_ite, wp_throw, wp_set]
  split
  · exact ⟨trivial, by simp [tooBig]⟩
  · exact keepsLog_iderw p i (k.setBuf i _)

lemma keepsLog_brelse (p : ProcId) (i : Fin nBuf) : KeepsLog (brelse p i) := by
  intro k
  simp only [brelse, wp_bind, wp_get, wp_ite, wp_throw, wp_set]
  split
  · exact ⟨trivial, by simp [tooBig]⟩
  · rfl

lemma keepsLog_setData (i : Fin nBuf) (v : Block) : KeepsLog (setData i v) := by
  intro k
  rfl

lemma keepsLog_copyHeld (p : ProcId) (i j : Fin nBuf) : KeepsLog (copyHeld p i j) := by
  intro k
  rw [copyHeld, wp_bind, wp_get]
  refine ((keepsLog_setData j _).bind fun _ => (keepsLog_bwrite p j).bind fun _ =>
    (keepsLog_brelse p i).bind fun _ => keepsLog_brelse p j) k

lemma keepsLog_installBlock (p : ProcId) (t b : Nat) : KeepsLog (installBlock p t b) :=
  (keepsLog_bread p _ _).bind fun _ => (keepsLog_bread p _ _).bind fun _ => keepsLog_copyHeld p _ _

lemma keepsLog_writeLogBlock (p : ProcId) (t b : Nat) : KeepsLog (writeLogBlock p t b) :=
  (keepsLog_bread p _ _).bind fun _ => (keepsLog_bread p _ _).bind fun _ => keepsLog_copyHeld p _ _

lemma keepsLog_writeHead (p : ProcId) : KeepsLog (writeHead p) := by
  refine (keepsLog_bread p _ _).bind fun i k => ?_
  rw [wp_bind, wp_get]
  exact ((keepsLog_setData i _).bind fun _ => (keepsLog_bwrite p i).bind fun _ =>
    keepsLog_brelse p i) k

lemma logWrite_list (i : Fin nBuf) (v : Block) (k : Kernel) :
    wp (do setData i v; logWrite i) k
      (fun _ k' => k'.log = k.log.add (k.buf i).blockno)
      (fun e k' => k'.log = k.log ∧ (e = .panic tooBig → logSize ≤ k.log.lh.length)) := by
  rw [wp_bind]
  change wp (logWrite i) (k.setBuf i { k.buf i with data := v }) _ _
  simp only [logWrite, wp_bind, wp_get, wp_ite, wp_throw, wp_set, Kernel.setBuf_log,
    Kernel.setBuf_buf, if_true]
  split
  · rename_i hfull
    exact ⟨trivial, fun _ => hfull⟩
  · split
    · exact ⟨trivial, fun h => absurd h (by simp [tooBig])⟩
    · rfl

lemma readHead_panics (p : ProcId) (k : Kernel) :
    wp (readHead p) k (fun _ _ => True) (fun e _ => e ≠ .panic tooBig) := by
  refine (keepsLog_bread p rootDev logStart k).bind (fun i k1 _ => ?_) (fun _ _ h => h.2)
  rw [wp_bind, wp_get, wp_bind, wp_set]
  exact (keepsLog_brelse p i _).mono (fun _ _ _ => trivial) (fun _ _ h => h.2)

lemma endOp_list (k : Kernel) :
    wp endOp k (fun _ k' => k'.log.lh = k.log.lh)
      (fun e k' => k'.log.lh = k.log.lh ∧ e ≠ .panic tooBig) := by
  simp only [endOp, wp_bind, wp_get, wp_ite, wp_throw, wp_set, wp_pure]
  split
  · exact ⟨trivial, by simp [tooBig]⟩
  · split <;> rfl

/-! ### What a step does to the list -/

/-- What a step from `s` to `t` does to the listed blocks. -/
inductive ListStep (s : Sys) (a : Act) (lh : List Nat) : Prop
  | same : lh = s.k.log.lh → ListStep s a lh
  | clear : lh = [] → ListStep s a lh
  | add {p : ProcId} {b : Nat} {v : Block} :
      a = .logWrite p b v → lh = (s.k.log.add b).lh → ListStep s a lh
  | readHead {p : ProcId} : a = .run p → s.pc p = .readHead → ListStep s a lh

/-- A step changes the list in one of these ways, and panics for a full log only if it is full. -/
def ListOk (s : Sys) (a : Act) (t : Sys) : Prop :=
  ListStep s a t.k.log.lh ∧ (t.stopped = some tooBig → logSize ≤ s.k.log.lh.length)

section ListOk

variable {s t : Sys} {a : Act} {p : ProcId}

lemma listOk_move (hs : s.stopped = none) {c : Pc} (ht : s.move p c = some t) : ListOk s a t := by
  cases ht
  exact ⟨.same rfl, fun h => by simp [hs] at h⟩

lemma listOk_keeps {α : Type} {c : KM α} {next : α → Pc} (hs : s.stopped = none)
    (hc : KeepsLog c) (ht : s.go p c next = some t) : ListOk s a t := by
  rcases Sys.go_spec (hc s.k) ht with ⟨_, k, hlog, rfl⟩ | ⟨m, k, ⟨hlog, hm⟩, rfl⟩
  · exact ⟨.same (by rw [hlog]), fun h => by simp [hs] at h⟩
  · refine ⟨.same (by rw [hlog]), fun h => ?_⟩
    simp only [Option.some.injEq] at h
    rw [h] at hm
    exact absurd rfl hm

lemma listOk_assign (hs : s.stopped = none) {f : Log → Log} {c : Pc}
    (hf : (f s.k.log).lh = s.k.log.lh ∨ (f s.k.log).lh = [])
    (ht : s.go p (Sys.assignLog f) (fun _ => c) = some t) : ListOk s a t := by
  cases ht
  refine ⟨?_, fun h => by simp [hs] at h⟩
  rcases hf with hf | hf
  · exact .same hf
  · exact .clear hf

lemma listOk_runStep (hs : s.stopped = none) (ht : s.runStep p = some t) : ListOk s (.run p) t := by
  unfold Sys.runStep at ht
  cases hc : s.pc p with
  | user | inOp => rw [hc] at ht; exact absurd ht (by simp)
  | commit | fullTest =>
    simp only [hc] at ht
    split at ht <;> exact listOk_move hs ht
  | writeLog n =>
    simp only [hc] at ht
    split at ht
    · exact listOk_keeps hs (keepsLog_writeLogBlock p _ _) ht
    · exact listOk_move hs ht
  | commitHead | clearHead c =>
    simp only [hc] at ht
    exact listOk_keeps hs (keepsLog_writeHead p) ht
  | sync c =>
    simp only [hc] at ht
    split at ht
    · exact listOk_move hs ht
    · split at ht <;> exact listOk_move hs ht
  | install c n =>
    simp only [hc] at ht
    split at ht
    · exact listOk_keeps hs (keepsLog_installBlock p _ _) ht
    · exact listOk_move hs ht
  | reset c =>
    simp only [hc] at ht
    exact listOk_assign hs (.inr rfl) ht
  | endCommit =>
    simp only [hc] at ht
    exact listOk_assign hs (.inl rfl) ht
  | readHead =>
    simp only [hc] at ht
    refine ⟨.readHead rfl hc, fun hstop => ?_⟩
    rcases Sys.go_spec (readHead_panics p s.k) ht with ⟨_, k, -, rfl⟩ | ⟨m, k, hm, rfl⟩
    · simp [hs] at hstop
    · simp only [Option.some.injEq] at hstop
      rw [hstop] at hm
      exact absurd rfl hm

lemma listOk_step (ht : s.step a = some t) : ListOk s a t := by
  have hs := Sys.running_of_step ht
  unfold Sys.step at ht
  rw [hs] at ht
  simp only [Option.isSome_none, Bool.false_eq_true, if_false] at ht
  cases a with
  | run p => exact listOk_runStep hs ht
  | beginOp p =>
    simp only at ht
    split at ht
    · rcases Sys.go_spec (beginOp_spec s.k) ht with ⟨_, k, ⟨rfl, -⟩, rfl⟩ | ⟨m, k, he, -⟩
      · exact ⟨.same rfl, fun h => by simp [hs] at h⟩
      · cases he
    · cases ht
  | bread p b =>
    simp only at ht
    split at ht
    · exact listOk_keeps hs (keepsLog_bread p _ _) ht
    · cases ht
  | logWrite p b v =>
    simp only at ht
    split at ht
    · cases hi : s.held p b with
      | none => rw [hi] at ht; exact absurd ht (by simp)
      | some i =>
        rw [hi] at ht
        have hb := (Sys.held_some hi).blockno
        rcases Sys.go_spec (logWrite_list i v s.k) ht with
          ⟨_, k, hlog, rfl⟩ | ⟨m, k, ⟨hlog, hfull⟩, rfl⟩
        · refine ⟨.add rfl (by rw [hlog, hb]), fun h => by simp [hs] at h⟩
        · refine ⟨.same (by rw [hlog]), fun h => ?_⟩
          simp only [Option.some.injEq] at h
          exact hfull (by rw [h])
    · cases ht
  | brelse p b =>
    simp only at ht
    split at ht
    · cases hi : s.held p b with
      | none => rw [hi] at ht; exact absurd ht (by simp)
      | some i => rw [hi] at ht; exact listOk_keeps hs (keepsLog_brelse p _) ht
    · cases ht
  | endOp p =>
    simp only at ht
    split at ht
    · rcases Sys.go_spec (endOp_list s.k) ht with ⟨_, k, hlh, rfl⟩ | ⟨m, k, ⟨hlh, hm⟩, rfl⟩
      · exact ⟨.same hlh, fun h => by simp [hs] at h⟩
      · refine ⟨.same hlh, fun h => ?_⟩
        simp only [Option.some.injEq] at h
        rw [h] at hm
        exact absurd rfl hm
    · cases ht
  | sysSync p =>
    simp only at ht
    split at ht
    · exact listOk_move hs ht
    · cases ht

end ListOk

/-! ### Operations with a declared set of blocks -/

/-- The system with the blocks that each operation in progress may log. -/
abbrev Planned := Sys × (ProcId → List Nat)

/-- One step; the label carries the blocks that an operation which begins may log. -/
def planStep (x : Planned) (a : Act × List Nat) : Option Planned :=
  match x.1.step a.1 with
  | some t => some (t, match a.1 with
      | .beginOp p => Function.update x.2 p a.2
      | .endOp p => Function.update x.2 p []
      | _ => x.2)
  | none => none

/-- Each operation logs at most `MAXOPBLOCKS` distinct blocks. -/
def AtMost (x : Planned) (a : Act × List Nat) : Prop :=
  match a.1 with
  | .beginOp _ => a.2.toFinset.card ≤ maxOpBlocks
  | .logWrite p b _ => b ∈ x.2 p
  | _ => True

/-- The blocks that are listed or that the operations in progress may log. -/
@[irreducible]
def reserved (x : Planned) : Finset Nat :=
  x.1.k.log.lh.toFinset ∪ Finset.univ.biUnion fun p => (x.2 p).toFinset

lemma mem_reserved {x : Planned} {b : Nat} : b ∈ reserved x ↔ b ∈ x.1.k.log.lh ∨ ∃ q, b ∈ x.2 q := by
  unfold reserved
  simp

/-- The reservation: an operation begins only when there is room for its blocks. -/
def Reserves (x : Planned) (a : Act × List Nat) : Prop :=
  match a.1 with
  | .beginOp _ => (reserved x ∪ a.2.toFinset).card ≤ logSize - 1
  | _ => True

/-- The steps of operations with a reservation. -/
def ReservedStep (x : Planned) (a : Act × List Nat) : Prop := AtMost x a ∧ Reserves x a

/-! ### The first step -/

lemma not_readHead_step {s t : Sys} {a : Act} (ht : s.step a = some t)
    (h : ∀ q, s.pc q ≠ .readHead) (q : ProcId) : t.pc q ≠ .readHead := by
  have hjump : ∀ {p : ProcId} {c : Pc}, c ≠ .readHead → Function.update s.pc p c q ≠ .readHead := by
    intro p c hc
    by_cases hq : q = p
    · rw [hq, update_self]; exact hc
    · rw [update_of_ne hq]; exact h q
  have hgo : ∀ {α : Type} {p : ProcId} {c : KM α} {next : α → Pc} {t : Sys},
      (∀ x, next x ≠ .readHead) → s.go p c next = some t → t.pc q ≠ .readHead := by
    intro α p c next t hn ht
    have hw : wp c s.k (fun _ _ => True) (fun _ _ => True) := by
      unfold wp
      split <;> trivial
    rcases Sys.go_spec hw ht with ⟨x, k, -, rfl⟩ | ⟨m, k, -, rfl⟩
    · exact hjump (hn x)
    · exact h q
  have hmove : ∀ {p : ProcId} {c : Pc} {t : Sys}, c ≠ .readHead → s.move p c = some t →
      t.pc q ≠ .readHead := by
    intro p c t hc ht
    cases ht
    exact hjump hc
  have hret : ∀ c : Caller, c.ret ≠ .readHead := by
    intro c
    cases c <;> simp [Caller.ret]
  unfold Sys.step at ht
  rw [Sys.running_of_step ht] at ht
  simp only [Option.isSome_none, Bool.false_eq_true, if_false] at ht
  cases a with
  | run p =>
    unfold Sys.runStep at ht
    simp only at ht
    repeat' split at ht
    all_goals first
      | exact hmove (hret _) ht
      | exact hgo (fun _ => hret _) ht
      | exact hmove (by simp) ht
      | exact hgo (by simp) ht
      | exact absurd ht (by simp)
  | bread p b =>
    simp only at ht
    split at ht
    · exact hgo (fun _ => h p) ht
    · cases ht
  | brelse p b =>
    simp only at ht
    repeat' split at ht
    · exact hgo (fun _ => h p) ht
    · cases ht
    · cases ht
  | endOp p =>
    simp only at ht
    split at ht
    · refine hgo (fun x => ?_) ht
      cases x <;> simp
    · cases ht
  | sysSync p =>
    simp only at ht
    split at ht
    · exact hmove (by simp) ht
    · cases ht
  | beginOp p =>
    simp only at ht
    split at ht
    · exact hgo (by simp) ht
    · cases ht
  | logWrite p b v =>
    simp only at ht
    repeat' split at ht
    · exact hgo (by simp) ht
    · cases ht
    · cases ht

lemma boot_step {d : Nat → Block} {a : Act} {t : Sys} (ht : (Sys.boot d).step a = some t) :
    t.k.log.lh = header d ∧ ∀ q, t.pc q ≠ .readHead := by
  have hrec : (Sys.boot d).recovering := rfl
  have hpc : ∀ q, (Sys.boot d).pc q = if q = initProc then .readHead else .user := fun _ => rfl
  cases a with
  | run p =>
    rw [Sys.step_run rfl] at ht
    unfold Sys.runStep at ht
    by_cases hp : p = initProc
    · subst hp
      rw [hpc, if_pos rfl] at ht
      rcases Sys.go_spec (readHead_total (cacheOk_boot d) fun _ => rfl) ht with
        ⟨_, k, ⟨-, -, hlog, -⟩, rfl⟩ | ⟨m, k, hf, -⟩
      · refine ⟨by rw [hlog]; rfl, fun q => ?_⟩
        by_cases hq : q = initProc
        · simp [hq]
        · simp [hq, hpc]
      · exact hf.elim
    · rw [hpc, if_neg hp] at ht
      cases ht
  | _ =>
    unfold Sys.step at ht
    rw [hrec] at ht
    simp [Sys.boot] at ht

/-! ### The bound -/

/-- What a reservation guarantees. -/
structure CapInv (d : Nat → Block) (x : Planned) : Prop where
  start : x = (Sys.boot d, fun _ => []) ∨ ∀ q, x.1.pc q ≠ .readHead
  nodup : x.1.k.log.lh.Nodup
  card : (reserved x).card ≤ logSize - 1

namespace CapInv

variable {d : Nat → Block} {x : Planned}

lemma length_le (h : CapInv d x) : x.1.k.log.lh.length ≤ logSize - 1 := by
  have hsub : x.1.k.log.lh.toFinset ⊆ reserved x :=
    fun b hb => mem_reserved.mpr (.inl (List.mem_toFinset.mp hb))
  have hcard := Finset.card_le_card hsub
  rw [List.toFinset_card_of_nodup h.nodup] at hcard
  exact hcard.trans h.card

lemma list_step {a : Act × List Nat} {t : Sys} (h : CapInv d x) (hd : HeaderOk d)
    (ha : AtMost x a) (ht : x.1.step a.1 = some t) :
    t.k.log.lh.Nodup ∧ ((∃ p, a.1 = .run p) ∧ t.k.log.lh = header d ∧ (∀ q, x.2 q = []) ∨
      ∀ b ∈ t.k.log.lh, b ∈ reserved x) := by
  cases (listOk_step ht).1 with
  | same hlh =>
    rw [hlh]
    exact ⟨h.nodup, .inr fun b hb => mem_reserved.mpr (.inl hb)⟩
  | clear hlh =>
    rw [hlh]
    exact ⟨List.nodup_nil, .inr (by simp)⟩
  | @add p b v hact hlh =>
    have hb : b ∈ x.2 p := by
      unfold AtMost at ha
      rwa [hact] at ha
    rw [hlh, Log.add_lh]
    split
    · exact ⟨h.nodup, .inr fun c hc => mem_reserved.mpr (.inl hc)⟩
    · rename_i hnew
      refine ⟨?_, .inr fun c hc => ?_⟩
      · refine List.nodup_append.mpr ⟨h.nodup, by simp, ?_⟩
        intro c hc e he
        rw [List.mem_singleton.mp he]
        rintro rfl
        exact hnew hc
      · rcases List.mem_append.mp hc with hc | hc
        · exact mem_reserved.mpr (.inl hc)
        · rw [List.mem_singleton.mp hc]
          exact mem_reserved.mpr (.inr ⟨p, hb⟩)
  | readHead hact hpc =>
    rcases h.start with hboot | hno
    · rw [hboot] at ht
      rw [(boot_step ht).1]
      exact ⟨hd.nodup, .inl ⟨⟨_, hact⟩, rfl, fun q => by rw [hboot]⟩⟩
    · exact absurd hpc (hno _)

lemma step {a : Act × List Nat} {y : Planned} (h : CapInv d x) (hd : HeaderOk d)
    (hs : ReservedStep x a) (hy : planStep x a = some y) : CapInv d y := by
  unfold planStep at hy
  cases ht : x.1.step a.1 with
  | none => simp only [ht] at hy; exact absurd hy (by simp)
  | some t =>
    simp only [ht] at hy
    cases hy
    obtain ⟨hnodup, hlist⟩ := h.list_step hd hs.1 ht
    refine ⟨.inr ?_, hnodup, ?_⟩
    · rcases h.start with hboot | hno
      · rw [hboot] at ht
        exact (boot_step ht).2
      · exact not_readHead_step ht hno
    · rcases hlist with ⟨⟨p, hact⟩, hlh, hplan⟩ | hlh
      · -- recovery has read the header, and no operation has begun
        have hlen := hd.len
        refine le_trans (Finset.card_le_card (t := (header d).toFinset) ?_)
          (le_trans (List.toFinset_card_le _) (by omega))
        intro b hb
        rcases mem_reserved.mp hb with hb | ⟨q, hb⟩
        · rw [← hlh]
          exact List.mem_toFinset.mpr hb
        · simp only [hact, hplan q] at hb
          cases hb
      · have hplan : ∀ q, ∀ b ∈ x.2 q, b ∈ reserved x := fun q b hb => mem_reserved.mpr (.inr ⟨q, hb⟩)
        have hres := hs.2
        unfold Reserves at hres
        cases hact : a.1 with
        | beginOp p =>
          rw [hact] at hres
          refine le_trans (Finset.card_le_card ?_) hres
          intro b hb
          rw [Finset.mem_union]
          rcases mem_reserved.mp hb with hb | ⟨q, hb⟩
          · exact .inl (hlh b hb)
          · by_cases hq : q = p
            · simp only [hq, update_self] at hb
              exact .inr (List.mem_toFinset.mpr hb)
            · simp only [update_of_ne hq] at hb
              exact .inl (hplan q b hb)
        | endOp p =>
          refine le_trans (Finset.card_le_card ?_) h.card
          intro b hb
          rcases mem_reserved.mp hb with hb | ⟨q, hb⟩
          · exact hlh b hb
          · by_cases hq : q = p
            · simp only [hq, update_self] at hb
              cases hb
            · simp only [update_of_ne hq] at hb
              exact hplan q b hb
        | _ =>
          refine le_trans (Finset.card_le_card ?_) h.card
          intro b hb
          rcases mem_reserved.mp hb with hb | ⟨q, hb⟩
          · exact hlh b hb
          · exact hplan q b hb

lemma boot (d : Nat → Block) : CapInv d (Sys.boot d, fun _ => []) := by
  refine ⟨.inl rfl, List.nodup_nil, ?_⟩
  have hnil : reserved (Sys.boot d, fun _ => []) = ∅ := by
    refine Finset.eq_empty_of_forall_notMem fun b hb => ?_
    rcases mem_reserved.mp hb with hb | ⟨q, hb⟩
    · cases hb
    · cases hb
  rw [hnil]
  exact zero_le

end CapInv

/-- **Log capacity.** With the reservation, in every state reached by any interleaving of operations:
no more blocks are listed than there are slots, `log_write` has not found the log full, and
`begin_op` is admitted as soon as no commit is under way. -/
theorem log_capacity {d : Nat → Block} {as : List (Act × List Nat)} {s : Sys}
    {plan : ProcId → List Nat} (hd : HeaderOk d)
    (hrun : Run planStep ReservedStep (Sys.boot d, fun _ => []) as (s, plan)) :
    s.k.log.lh.length ≤ logSize - 1 ∧ s.stopped ≠ some tooBig ∧
      (s.k.log.committing = false → isOk (beginOp s.k) = true) := by
  have hinv := hrun.inv (I := fun x => CapInv d x ∧ x.1.stopped ≠ some tooBig)
    ⟨CapInv.boot d, by simp [Sys.boot]⟩ ?_
  · obtain ⟨hcap, hstop⟩ := hinv
    have hlen := hcap.length_le
    refine ⟨hlen, hstop, fun hcom => ?_⟩
    have hcom' : ¬ s.k.log.committing = true := by simp [hcom]
    have hlen' : ¬ logSize - 1 < s.k.log.lh.length := by simpa using hlen
    simp only [beginOp, bind_run, get_run, ite_run, if_neg hcom', if_neg hlen', set_run, isOk]
  · rintro x a y ⟨hx, -⟩ hs hy
    refine ⟨hx.step hd hs hy, ?_⟩
    unfold planStep at hy
    cases ht : x.1.step a.1 with
    | none => simp only [ht] at hy; exact absurd hy (by simp)
    | some t =>
      simp only [ht] at hy
      cases hy
      intro hbig
      have hfull := (listOk_step ht).2 hbig
      have hlen := hx.length_le
      unfold logSize at hfull hlen
      omega

instance (x : Planned) (a : Act × List Nat) : Decidable (AtMost x a) := by
  unfold AtMost
  split <;> infer_instance

instance (x : Planned) (a : Act × List Nat) : Decidable (Reserves x a) := by
  unfold Reserves
  split <;> infer_instance

instance (x : Planned) (a : Act × List Nat) : Decidable (ReservedStep x a) :=
  inferInstanceAs (Decidable (AtMost x a ∧ Reserves x a))

/-- Actions that begin no operation. -/
def unplanned (as : List Act) : List (Act × List Nat) := as.map fun a => (a, [])

/-- Process `p` begins an operation and logs the given blocks. -/
def planOp (p : ProcId) (bs : List Nat) : List (Act × List Nat) :=
  (.beginOp p, bs) :: unplanned (logActs p (bs.map fun b => (b, stamp b)))

/-- Two operations at the same time, with a block in common. -/
def sharedBlock : List (Act × List Nat) :=
  unplanned bootActs ++ planOp 1 [100, 101] ++ planOp 2 [101, 102]

theorem capacity_of_sharedBlock :
    ∃ s plan, Run planStep ReservedStep (Sys.boot zeroDisk, fun _ => []) sharedBlock (s, plan) ∧
      s.k.log.lh = [100, 101, 102] ∧ s.k.log.lh.length ≤ logSize - 1 := by
  obtain ⟨⟨s, plan⟩, hrun, hlh⟩ := run_of_check planStep ReservedStep
    (Sys.boot zeroDisk, fun _ => []) sharedBlock (fun x => x.1.k.log.lh = [100, 101, 102])
    (by decide +kernel)
  exact ⟨s, plan, hrun, hlh, (log_capacity headerOk_zeroDisk hrun).1⟩

/-- Three operations one after the other, each logging ten blocks. -/
def threeTens : List (Act × List Nat) :=
  unplanned bootActs ++ planOp 1 (List.range' 100 10) ++ unplanned (.endOp 1 :: runActs 1 15) ++
    planOp 1 (List.range' 110 10) ++ unplanned (.endOp 1 :: runActs 1 25) ++
    planOp 1 (List.range' 120 10)

/-- The third one lists more blocks than there are slots: `sync` empties the log only when exactly 29
blocks are listed at the end of a commit. -/
theorem log_overflow :
    ∃ s plan, Run planStep AtMost (Sys.boot zeroDisk, fun _ => []) threeTens (s, plan) ∧
      s.stopped = none ∧ ¬ s.k.log.lh.length ≤ logSize - 1 := by
  obtain ⟨⟨s, plan⟩, hrun, hs⟩ := run_of_check planStep AtMost (Sys.boot zeroDisk, fun _ => [])
    threeTens (fun x => x.1.stopped = none ∧ ¬ x.1.k.log.lh.length ≤ logSize - 1) (by decide +kernel)
  exact ⟨s, plan, hrun, hs⟩

end Xv6.Disk
