import Xv6.Disk.Cache

/-!
# The log (`log.c`): the pieces a path runs between two scheduling points

`commit`, `sync` and `recover_from_log` are loops around four pieces: one iteration of `write_log`,
one of `install_trans`, `read_head` and `write_head`. Each piece writes at most one disk block, so
these are also the points between which the machine can be stopped. This module has the pieces
(translated from the source) and what each does to the contents seen through the cache; the control
flow around them is in `Xv6.Disk.System`.
-/

namespace Xv6.Disk

open Lib

/-! ### The on-disk header -/

/-- Store a list of words in a block from word `i` on. -/
def putWords (b : Block) (i : Nat) : List Nat → Block
  | [] => b
  | x :: xs => putWords (b.setWord i x) (i + 1) xs

/-- What `write_head` makes of the header block: `n` first, then the block numbers. The words
behind `block[n-1]` keep what they held. -/
def putHeader (b : Block) (lh : List Nat) : Block :=
  putWords (b.setWord 0 lh.length) 1 lh

/-- What `read_head` takes from the header block. `n` is a (signed) `int`. -/
def getHeader (b : Block) : List Nat :=
  if b.word 0 < 2 ^ 31 then (List.range (b.word 0)).map fun i => b.word (i + 1) else []

lemma putWords_of_lt (lh : List Nat) : ∀ (b : Block) (i j : Nat), j < i →
    (putWords b i lh).word j = b.word j := by
  induction lh with
  | nil => intro b i j _; rfl
  | cons x xs ih =>
    intro b i j h
    rw [putWords, ih _ _ _ (by omega), Bytes.word_setWord_ne _ (by omega)]

lemma putWords_get (lh : List Nat) : ∀ (b : Block) (i j : Nat) (hj : j < lh.length),
    i + lh.length ≤ 128 → (∀ x ∈ lh, x < 2 ^ 32) → (putWords b i lh).word (i + j) = lh[j] := by
  induction lh with
  | nil => intro b i j hj; exact absurd hj (by simp)
  | cons x xs ih =>
    intro b i j hj hlen hx
    simp only [List.length_cons] at hj hlen
    have hrange : 4 * i + 3 < bSize := by unfold bSize; omega
    cases j with
    | zero =>
      rw [putWords, putWords_of_lt _ _ _ _ (by omega), Nat.add_zero, List.getElem_cons_zero,
        Bytes.word_setWord_self _ hrange (hx x (by simp))]
    | succ j =>
      rw [putWords, List.getElem_cons_succ, ← ih (b.setWord i x) (i + 1) j (by omega) (by omega)
        (fun y hy => hx y (List.mem_cons_of_mem _ hy))]
      congr 1
      omega

lemma word_putHeader (b : Block) {lh : List Nat} (hlen : lh.length < 2 ^ 32) :
    (putHeader b lh).word 0 = lh.length := by
  rw [putHeader, putWords_of_lt _ _ _ _ (by omega), Bytes.word_setWord_self _ (by decide) hlen]

lemma getHeader_putHeader (b : Block) {lh : List Nat} (hlen : lh.length < 128)
    (hx : ∀ x ∈ lh, x < 2 ^ 32) : getHeader (putHeader b lh) = lh := by
  rw [getHeader, word_putHeader b (by omega), if_pos (by omega)]
  apply List.ext_getElem
  · simp
  · intro j h1 h2
    rw [List.getElem_map, List.getElem_range, putHeader, Nat.add_comm j 1,
      putWords_get lh _ 1 j h2 (by omega) hx]

/-! ### The pieces -/

/-- The end of both copy loops: `memmove` between two held buffers, write the destination to disk,
release both. -/
def copyHeld (p : ProcId) (src dst : Fin nBuf) : KM Unit := do
  let k ← get
  setData dst (k.buf src).data
  bwrite p dst
  brelse p src
  brelse p dst

/-- The block that holds log slot `tail`. -/
def slot (tail : Nat) : Nat := logStart + tail + 1

/-- One iteration of `install_trans`: copy a block from the log to its home location. -/
def installBlock (p : ProcId) (tail home : Nat) : KM Unit := do
  let lbuf ← bread p rootDev (slot tail)
  let dbuf ← bread p rootDev home
  copyHeld p lbuf dbuf

/-- One iteration of `write_log`: copy a modified block from the cache to the log. -/
def writeLogBlock (p : ProcId) (tail home : Nat) : KM Unit := do
  let to_ ← bread p rootDev (slot tail)
  let from_ ← bread p rootDev home
  copyHeld p from_ to_

/-- `read_head`: read the log header from disk into the in-memory log header. -/
def readHead (p : ProcId) : KM Unit := do
  let buf ← bread p rootDev logStart
  let k ← get
  set (k.setLog { k.log with lh := getHeader (k.buf buf).data })
  brelse p buf

/-- `write_head`: write the in-memory log header to disk. This is the true point at which the
current transaction commits. -/
def writeHead (p : ProcId) : KM Unit := do
  let buf ← bread p rootDev logStart
  let k ← get
  setData buf (putHeader (k.buf buf).data k.log.lh)
  bwrite p buf
  brelse p buf

/-- The in-memory log with block `b` listed. Log absorption: a block that is already listed keeps
its slot. If the log becomes full, set the flag. -/
def Log.add (l : Log) (b : Nat) : Log :=
  if b ∈ l.lh then l else
    { l with lh := l.lh ++ [b], full := l.full || (l.lh.length + 1 == logSize - 1) }

@[simp] lemma Log.add_outstanding (l : Log) (b : Nat) : (l.add b).outstanding = l.outstanding := by
  unfold Log.add
  split <;> rfl

@[simp] lemma Log.add_committing (l : Log) (b : Nat) : (l.add b).committing = l.committing := by
  unfold Log.add
  split <;> rfl

lemma Log.add_lh (l : Log) (b : Nat) : (l.add b).lh = if b ∈ l.lh then l.lh else l.lh ++ [b] := by
  unfold Log.add
  split <;> rfl

/-- `log_write`: record the block number of a buffer the caller has modified, and pin the buffer in
the cache with `B_DIRTY`. -/
def logWrite (i : Fin nBuf) : KM Unit := do
  let k ← get
  let l := k.log
  let b := (k.buf i).blockno
  if logSize ≤ l.lh.length then throw (.panic "too big a transaction")
  else if l.outstanding < 1 then throw (.panic "log_write outside of trans")
  else set ((k.setLog (l.add b)).setBuf i { k.buf i with dirty := true })

/-- `begin_op`, from one wake-up to the next: sleep while a commit is under way or the log is full,
else join the current transaction. -/
def beginOp : KM Unit := do
  let k ← get
  if k.log.committing = true then throw .blocked
  else if logSize - 1 < k.log.lh.length then throw .blocked
  else set (k.setLog { k.log with outstanding := k.log.outstanding + 1 })

/-- `end_op`, up to the release of `log.lock`: leave the transaction; the result is `do_commit`. -/
def endOp : KM Bool := do
  let k ← get
  let l := { k.log with outstanding := k.log.outstanding - 1 }
  if l.committing = true then throw (.panic "log.committing")
  else if l.outstanding = 0 then
    set (k.setLog { l with committing := true })
    return true
  else
    set (k.setLog l)
    return false

/-! ### What the pieces do to the contents -/

section Specs

variable {want : Nat → Block} {pin : Finset Nat} {p : ProcId}

lemma Holds.frame {k k' : Kernel} {b : Nat} {i j : Fin nBuf} (h : Holds k p b j)
    (hbuf : ∀ j ≠ i, k'.buf j = k.buf j) (hj : j ≠ i) : Holds k' p b j :=
  ⟨by rw [hbuf j hj]; exact h.dev, by rw [hbuf j hj]; exact h.blockno,
    by rw [hbuf j hj]; exact h.lock⟩

/-- Every buffer is locked in `k'` by whom it was locked in `k`. -/
def SameLocks (k k' : Kernel) : Prop := ∀ j, (k'.buf j).lock = (k.buf j).lock

variable {k : Kernel}

lemma copyHeld_spec {bs bd : Nat} {src dst : Fin nBuf} (hok : CacheOk k want pin)
    (hsrc : Holds k p bs src) (hdst : Holds k p bd dst) (hne : src ≠ dst) :
    wp (copyHeld p src dst) k
      (fun _ k' => CacheOk k' (Function.update want bd (want bs)) (pin.erase bd) ∧
        k'.disk = Function.update k.disk bd (want bs) ∧ k'.log = k.log ∧
        ∀ j, (k'.buf j).lock = if j = src ∨ j = dst then none else (k.buf j).lock)
      (fun _ _ => False) := by
  have hdata : (k.buf src).data = want bs := by
    rw [hok.data src hsrc.dev, hsrc.blockno]
  rw [copyHeld, wp_bind, wp_get, wp_bind]
  show wp _ (k.setBuf dst { k.buf dst with data := (k.buf src).data }) _ _
  rw [hdata]
  refine (bwrite_spec hok hdst (want bs)).seq fun _ k1 ⟨hok1, hdst1, hdisk1, hlog1, hbuf1⟩ => ?_
  -- from here on only the two locks are released
  refine (brelse_spec hok1 (hsrc.frame hbuf1 hne)).seq fun _ k2 ⟨hok2, hsame2, hfree2⟩ => ?_
  refine (brelse_spec hok2 (hdst1.frame hsame2.buf hne.symm)).imp ?_
  rintro _ k3 ⟨hok3, hsame3, hfree3⟩
  refine ⟨hok3, by rw [hsame3.disk, hsame2.disk, hdisk1], by rw [hsame3.log, hsame2.log, hlog1], ?_⟩
  intro j
  by_cases hjd : j = dst
  · rw [if_pos (.inr hjd), hjd, hfree3]
  · rw [hsame3.buf j hjd]
    by_cases hjs : j = src
    · rw [if_pos (.inl hjs), hjs, hfree2]
    · rw [if_neg (by simp [hjs, hjd]), hsame2.buf j hjs, hbuf1 j hjd]

variable {E : Stop → Kernel → Prop}

/-- Both copy loops first `bread` the slot and then the home block; what the two `bread`s and the
rest establish is what the whole establishes. -/
lemma bread_two {x y : Nat} {f : Fin nBuf → Fin nBuf → KM Unit} {Q : Kernel → Prop}
    (hx : wp (bread p rootDev x) k (Fetched k want pin p x) E)
    (hy : ∀ i k1, Fetched k want pin p x i k1 →
      wp (bread p rootDev y) k1 (Fetched k1 want pin p y) E)
    (hf : ∀ i j k', CacheOk k' want pin → Holds k' p x i → Holds k' p y j → i ≠ j →
      k'.disk = k.disk → k'.log = k.log →
      (∀ l, (k.buf l).lock = if l = i ∨ l = j then none else (k'.buf l).lock) →
      wp (f i j) k' (fun _ => Q) (fun _ _ => False)) :
    wp (do let i ← bread p rootDev x; let j ← bread p rootDev y; f i j) k (fun _ => Q) E := by
  refine hx.seq fun i k1 h1 => (hy i k1 h1).seq fun j k2 h2 => ?_
  have hij : i ≠ j := by
    rintro rfl
    have := h2.free
    rw [h1.holds.lock] at this
    cases this
  refine (hf i j k2 h2.ok (h1.holds.frame h2.same.buf hij) h2.holds hij ?_ ?_ ?_).mono
    (fun _ _ h => h) (fun _ _ h => h.elim)
  · rw [h2.same.disk, h1.same.disk]
  · rw [h2.same.log, h1.same.log]
  · intro l
    by_cases hli : l = i
    · rw [if_pos (.inl hli), hli, h1.free]
    · by_cases hlj : l = j
      · have := h2.free
        rw [h1.same.buf j hij.symm] at this
        rw [if_pos (.inr hlj), hlj, this]
      · rw [if_neg (by simp [hli, hlj]), h2.same.buf l hlj, h1.same.buf l hli]

lemma bread_two_partial (hok : CacheOk k want pin) (x y : Nat) :
    wp (bread p rootDev x) k (Fetched k want pin p x)
      (fun _ k' => k'.disk = k.disk ∧ k'.log = k.log) ∧
    ∀ i k1, Fetched k want pin p x i k1 →
      wp (bread p rootDev y) k1 (Fetched k1 want pin p y)
        (fun _ k' => k'.disk = k.disk ∧ k'.log = k.log) := by
  refine ⟨bread_spec hok p x, fun i k1 h1 => ?_⟩
  rw [← h1.same.disk, ← h1.same.log]
  exact bread_spec h1.ok p y

/-- With an idle cache that pins nothing, both `bread`s return. -/
lemma bread_two_total (hok : CacheOk k want ∅)
    (hidle : ∀ j, (k.buf j).lock = none) {x y : Nat} (hx : x < fsSize) (hy : y < fsSize) (hxy : x ≠ y) :
    wp (bread p rootDev x) k (Fetched k want ∅ p x) (fun _ _ => False) ∧
    ∀ i k1, Fetched k want ∅ p x i k1 →
      wp (bread p rootDev y) k1 (Fetched k1 want ∅ p y) (fun _ _ => False) := by
  have hclean : ∀ {k : Kernel}, CacheOk k want ∅ → ∀ j, (k.buf j).dirty = false := by
    intro k hok j
    by_cases hdev : (k.buf j).dev = rootDev
    · have := hok.dirty j hdev
      simpa using this
    · exact (hok.unused j hdev).1
  let i0 : Fin nBuf := ⟨0, by decide⟩
  refine ⟨bread_total hok p hx (fun i _ _ => hidle i) (hidle i0) (hclean hok i0), ?_⟩
  intro i k1 h1
  -- one buffer is locked now; it holds another block, and there are others to recycle
  obtain ⟨j, hji⟩ : ∃ j : Fin nBuf, j ≠ i := by
    by_cases hi : i = i0
    · exact ⟨⟨1, by decide⟩, by rw [hi]; decide⟩
    · exact ⟨i0, Ne.symm hi⟩
  have hother : ∀ l ≠ i, (k1.buf l).lock = none := by
    intro l hl
    rw [h1.same.buf l hl, hidle]
  refine bread_total h1.ok p hy ?_ (hother j hji) (hclean h1.ok j)
  intro l _ hly
  refine hother l ?_
  rintro rfl
  exact hxy (h1.holds.blockno.symm.trans hly)

/-- The effect of one iteration of `install_trans`: the home block gets the content of the slot, in
the cache and on disk, and is no longer pinned. -/
def Installed (k : Kernel) (want : Nat → Block) (pin : Finset Nat) (tail home : Nat)
    (k' : Kernel) : Prop :=
  CacheOk k' (Function.update want home (want (slot tail))) (pin.erase home) ∧
    k'.disk = Function.update k.disk home (want (slot tail)) ∧ k'.log = k.log ∧ SameLocks k k'

/-- The effect of one iteration of `write_log`: the slot gets the content of the cached block, in
the cache and on disk. -/
def Logged (k : Kernel) (want : Nat → Block) (pin : Finset Nat) (tail home : Nat)
    (k' : Kernel) : Prop :=
  CacheOk k' (Function.update want (slot tail) (want home)) (pin.erase (slot tail)) ∧
    k'.disk = Function.update k.disk (slot tail) (want home) ∧ k'.log = k.log ∧ SameLocks k k'

lemma copyHeld_installed {k k' : Kernel} {tail home : Nat} {i j : Fin nBuf}
    (hok : CacheOk k' want pin) (hi : Holds k' p (slot tail) i) (hj : Holds k' p home j)
    (hij : i ≠ j) (hdisk : k'.disk = k.disk) (hlog : k'.log = k.log)
    (hlock : ∀ l, (k.buf l).lock = if l = i ∨ l = j then none else (k'.buf l).lock) :
    wp (copyHeld p i j) k' (fun _ => Installed k want pin tail home) (fun _ _ => False) := by
  refine (copyHeld_spec hok hi hj hij).imp ?_
  rintro _ k3 ⟨hok3, hdisk3, hlog3, hlock3⟩
  exact ⟨hok3, by rw [hdisk3, hdisk], by rw [hlog3, hlog], fun l => by rw [hlock3, hlock]⟩

lemma installBlock_spec (hok : CacheOk k want pin) (tail home : Nat) :
    wp (installBlock p tail home) k (fun _ => Installed k want pin tail home)
      (fun _ k' => k'.disk = k.disk ∧ k'.log = k.log) := by
  obtain ⟨h1, h2⟩ := bread_two_partial (p := p) hok (slot tail) home
  exact bread_two h1 h2 fun i j k' => copyHeld_installed

/-- During recovery the iterations of `install_trans` return. -/
lemma installBlock_total (hok : CacheOk k want ∅)
    (hidle : ∀ j, (k.buf j).lock = none) (tail home : Nat) (ht : slot tail < fsSize)
    (hh : home < fsSize) (hne : slot tail ≠ home) :
    wp (installBlock p tail home) k (fun _ => Installed k want ∅ tail home)
      (fun _ _ => False) := by
  obtain ⟨h1, h2⟩ := bread_two_total (p := p) hok hidle ht hh hne
  exact bread_two h1 h2 fun i j k' => copyHeld_installed

lemma writeLogBlock_spec (hok : CacheOk k want pin) (tail home : Nat) :
    wp (writeLogBlock p tail home) k (fun _ => Logged k want pin tail home)
      (fun _ k' => k'.disk = k.disk ∧ k'.log = k.log) := by
  obtain ⟨h1, h2⟩ := bread_two_partial (p := p) hok (slot tail) home
  refine bread_two h1 h2 ?_
  intro i j k' hok' hi hj hij hdisk hlog hlock
  refine (copyHeld_spec hok' hj hi hij.symm).imp ?_
  rintro _ k3 ⟨hok3, hdisk3, hlog3, hlock3⟩
  refine ⟨hok3, by rw [hdisk3, hdisk], by rw [hlog3, hlog], fun l => ?_⟩
  rw [hlock3, hlock]
  simp only [or_comm]

/-- The effect of `write_head`: the header block lists the blocks of the in-memory log, in the
cache and on disk. -/
def HeadWritten (k : Kernel) (want : Nat → Block) (pin : Finset Nat) (k' : Kernel) : Prop :=
  CacheOk k' (Function.update want logStart (putHeader (want logStart) k.log.lh))
      (pin.erase logStart) ∧
    k'.disk = Function.update k.disk logStart (putHeader (want logStart) k.log.lh) ∧
    k'.log = k.log ∧ SameLocks k k'

lemma writeHead_of (hb : wp (bread p rootDev logStart) k (Fetched k want pin p logStart) E) :
    wp (writeHead p) k (fun _ => HeadWritten k want pin) E := by
  refine hb.seq fun i k1 h1 => ?_
  have hdata : (k1.buf i).data = want logStart := by
    rw [h1.ok.data i h1.holds.dev, h1.holds.blockno]
  rw [wp_bind, wp_get, wp_bind]
  show wp _ (k1.setBuf i { k1.buf i with data := putHeader (k1.buf i).data k1.log.lh }) _ _
  rw [hdata, h1.same.log]
  refine (bwrite_spec h1.ok h1.holds _).bind ?_ (fun _ _ h => h.elim)
  rintro _ k2 ⟨hok2, hi2, hdisk2, hlog2, hbuf2⟩
  refine (brelse_spec hok2 hi2).mono ?_ (fun _ _ h => h.elim)
  rintro _ k3 ⟨hok3, hsame3, hfree3⟩
  refine ⟨hok3, by rw [hsame3.disk, hdisk2, h1.same.disk],
    by rw [hsame3.log, hlog2, h1.same.log], fun j => ?_⟩
  by_cases hji : j = i
  · rw [hji, hfree3, h1.free]
  · rw [hsame3.buf j hji, hbuf2 j hji, h1.same.buf j hji]

lemma writeHead_spec (hok : CacheOk k want pin) :
    wp (writeHead p) k (fun _ => HeadWritten k want pin)
      (fun _ k' => k'.disk = k.disk ∧ k'.log = k.log) :=
  writeHead_of (bread_spec hok p logStart)

/-- During recovery `write_head` returns. -/
lemma writeHead_total (hok : CacheOk k want ∅) (hidle : ∀ j, (k.buf j).lock = none) :
    wp (writeHead p) k (fun _ => HeadWritten k want ∅) (fun _ _ => False) :=
  writeHead_of (bread_two_total (y := logStart + 1) hok hidle (by decide) (by decide) (by decide)).1

/-- The effect of `read_head`: the in-memory log lists the blocks of the header block. -/
def HeadRead (k : Kernel) (want : Nat → Block) (pin : Finset Nat) (k' : Kernel) : Prop :=
  CacheOk k' want pin ∧ k'.disk = k.disk ∧
    k'.log = { k.log with lh := getHeader (want logStart) } ∧ SameLocks k k'

lemma readHead_of (hb : wp (bread p rootDev logStart) k (Fetched k want pin p logStart) E) :
    wp (readHead p) k (fun _ => HeadRead k want pin) E := by
  refine hb.seq fun i k1 h1 => ?_
  have hdata : (k1.buf i).data = want logStart := by
    rw [h1.ok.data i h1.holds.dev, h1.holds.blockno]
  rw [wp_bind, wp_get, wp_bind, wp_set, hdata]
  have hok2 : CacheOk (k1.setLog { k1.log with lh := getHeader (want logStart) }) want pin :=
    ⟨h1.ok.listed, h1.ok.unique, h1.ok.inRange, h1.ok.valid, h1.ok.data, h1.ok.dirty, h1.ok.unused,
      h1.ok.pinned, h1.ok.onDisk, h1.ok.refs⟩
  refine (brelse_spec hok2 ⟨h1.holds.dev, h1.holds.blockno, h1.holds.lock⟩).mono ?_
    (fun _ _ h => h.elim)
  rintro _ k3 ⟨hok3, hsame3, hfree3⟩
  refine ⟨hok3, by rw [hsame3.disk]; exact h1.same.disk, ?_, fun j => ?_⟩
  · rw [hsame3.log, ← h1.same.log]
    rfl
  · by_cases hji : j = i
    · rw [hji, hfree3, h1.free]
    · rw [hsame3.buf j hji, ← h1.same.buf j hji]
      rfl

lemma readHead_spec (hok : CacheOk k want pin) :
    wp (readHead p) k (fun _ => HeadRead k want pin)
      (fun _ k' => k'.disk = k.disk ∧ k'.log = k.log) :=
  readHead_of (bread_spec hok p logStart)

/-- During recovery `read_head` returns. -/
lemma readHead_total (hok : CacheOk k want ∅) (hidle : ∀ j, (k.buf j).lock = none) :
    wp (readHead p) k (fun _ => HeadRead k want ∅) (fun _ _ => False) :=
  readHead_of (bread_two_total (y := logStart + 1) hok hidle (by decide) (by decide) (by decide)).1

/-- Modifying a held buffer and calling `log_write`: the block has content `v` in the cache, is
pinned and listed. If `log_write` panics, the disk and the log are as they were. -/
lemma logWrite_spec {b : Nat} {i : Fin nBuf} (hok : CacheOk k want pin) (hold : Holds k p b i) (v : Block) :
    wp (do setData i v; logWrite i) k
      (fun _ k' => CacheOk k' (Function.update want b v) (insert b pin) ∧ Holds k' p b i ∧
        k'.disk = k.disk ∧ k'.log = k.log.add b ∧ k.log.lh.length < logSize ∧
        0 < k.log.outstanding)
      (fun e k' => k'.disk = k.disk ∧ k'.log = k.log ∧
        (e = .panic "too big a transaction" → logSize ≤ k.log.lh.length)) := by
  rw [wp_bind]
  show wp (logWrite i) (k.setBuf i { k.buf i with data := v }) _ _
  simp only [logWrite, wp_bind, wp_get, wp_ite, wp_throw, wp_set, Kernel.setBuf_buf, if_true,
    Kernel.setBuf_log, hold.blockno]
  split
  · rename_i hfull
    exact ⟨rfl, trivial, fun _ => hfull⟩
  · split
    · exact ⟨rfl, trivial, fun h => absurd h (by simp)⟩
    · rename_i hn hout
      refine ⟨?_, ⟨?_, ?_, ?_⟩, rfl, rfl, by omega, by omega⟩
      · refine hok.rewrite (c := { k.buf i with data := v, dirty := true }) hold rfl ?_ ?_ ?_ ?_ ?_ ?_
        · simp [Kernel.setBuf, Kernel.setLog, hold.blockno]
        · simp [hok.valid i hold.dev]
        · intro d hd; simp [hd]
        · simp
        · intro d _; rfl
        · intro h; simp at h
      · simpa using hold.dev
      · simp
      · simpa using hold.lock

lemma beginOp_spec (k : Kernel) :
    wp beginOp k
      (fun _ k' => k' = k.setLog { k.log with outstanding := k.log.outstanding + 1 } ∧
        k.log.committing = false ∧ k.log.lh.length ≤ logSize - 1)
      (fun e _ => e = .blocked) := by
  simp only [beginOp, wp_bind, wp_get, wp_ite, wp_throw, wp_set]
  split
  · trivial
  · rename_i hcom
    split
    · trivial
    · exact ⟨trivial, by simpa using hcom, by omega⟩

lemma endOp_spec (k : Kernel) :
    wp endOp k
      (fun doCommit k' => k.log.committing = false ∧
        if k.log.outstanding - 1 = 0 then
          doCommit ∧ k' = k.setLog { k.log with outstanding := 0, committing := true }
        else doCommit = false ∧
          k' = k.setLog { k.log with outstanding := k.log.outstanding - 1 })
      (fun _ k' => k' = k) := by
  simp only [endOp, wp_bind, wp_get, wp_ite, wp_throw, wp_set, wp_pure]
  split
  · trivial
  · rename_i hcom
    have hcom : k.log.committing = false := by simpa using hcom
    split
    · rename_i hlast
      rw [hlast]
      exact ⟨hcom, trivial, rfl⟩
    · exact ⟨hcom, trivial, trivial⟩

end Specs

end Xv6.Disk
