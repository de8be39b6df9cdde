import Xv6.Disk.Bio
import Xv6.Lib.Hoare

/-!
# What the buffer cache guarantees

Seen from above, cache and disk together are a content `want : Nat → Block` (what a `bread` of each
block returns) and a set `pin` of blocks whose content is only in the cache: the buffers that
`log_write` has marked `B_DIRTY`. `CacheOk k want pin` says that the kernel state `k` represents
this pair:

* a block is cached at most once, and a cached copy is valid and holds `want`;
* the dirty buffers are exactly those of the pinned blocks, and every pinned block is cached — this
  is the property that recycling must not break;
* outside `pin` the disk itself holds `want`.

Each function of `bio.c` gets one specification against this view (`bread_spec`, `bwrite_spec`,
`brelse_spec`); nothing above this module looks inside a buffer again.
-/

namespace Xv6.Disk

open Function (update update_self update_of_ne)
open Lib

/-- The kernel state `k` represents the block contents `want`, of which those in `pin` are only in
the cache. -/
structure CacheOk (k : Kernel) (want : Nat → Block) (pin : Finset Nat) : Prop where
  listed : ∀ i, i ∈ k.lru
  unique : ∀ i j, (k.buf i).dev = rootDev → (k.buf j).dev = rootDev →
    (k.buf i).blockno = (k.buf j).blockno → i = j
  inRange : ∀ i, (k.buf i).dev = rootDev → (k.buf i).blockno < fsSize
  valid : ∀ i, (k.buf i).dev = rootDev → (k.buf i).valid = true
  data : ∀ i, (k.buf i).dev = rootDev → (k.buf i).data = want (k.buf i).blockno
  dirty : ∀ i, (k.buf i).dev = rootDev → ((k.buf i).dirty = true ↔ (k.buf i).blockno ∈ pin)
  unused : ∀ i, (k.buf i).dev ≠ rootDev → (k.buf i).dirty = false ∧ (k.buf i).lock = none
  pinned : ∀ b ∈ pin, ∃ i, (k.buf i).dev = rootDev ∧ (k.buf i).blockno = b
  onDisk : ∀ b, b ∉ pin → k.disk b = want b
  refs : ∀ i, (k.buf i).refcnt = if (k.buf i).lock.isSome then 1 else 0

/-- Process `p` holds, in buffer `i`, the locked copy of block `b`. -/
structure Holds (k : Kernel) (p : ProcId) (b : Nat) (i : Fin nBuf) : Prop where
  dev : (k.buf i).dev = rootDev
  blockno : (k.buf i).blockno = b
  lock : (k.buf i).lock = some p

/-- `k'` differs from `k` at most in buffer `i` and in the list order. -/
structure SameBut (k k' : Kernel) (i : Fin nBuf) : Prop where
  disk : k'.disk = k.disk
  log : k'.log = k.log
  buf : ∀ j, j ≠ i → k'.buf j = k.buf j

/-- What `bread` of block `b` for process `p` makes of `k`: buffer `i`, which was not locked, is the
locked copy of the block; no content changes. -/
structure Fetched (k : Kernel) (want : Nat → Block) (pin : Finset Nat) (p : ProcId) (b : Nat)
    (i : Fin nBuf) (k' : Kernel) : Prop where
  ok : CacheOk k' want pin
  holds : Holds k' p b i
  same : SameBut k k' i
  free : (k.buf i).lock = none

/-! ### The two searches of `bget` -/

variable {k : Kernel} {b dev : Nat}

lemma cached_some {i : Fin nBuf} (h : k.cached dev b = some i) :
    (k.buf i).dev = dev ∧ (k.buf i).blockno = b := by
  have := List.find?_some h
  simpa using this

lemma cached_none (hl : ∀ i, i ∈ k.lru) (h : k.cached dev b = none)
    {i : Fin nBuf} (hd : (k.buf i).dev = dev) : (k.buf i).blockno ≠ b := by
  have := List.find?_eq_none.mp h i (hl i)
  simp only [decide_eq_true_eq, not_and] at this
  exact this hd

lemma victim_some {i : Fin nBuf} (h : k.victim = some i) : (k.buf i).refcnt = 0 ∧ (k.buf i).dirty = false := by
  have := List.find?_some h
  simpa using this

lemma victim_none (hl : ∀ i, i ∈ k.lru) (h : k.victim = none) {i : Fin nBuf}
    (hr : (k.buf i).refcnt = 0) : (k.buf i).dirty := by
  have := List.find?_eq_none.mp h i (by simpa using hl i)
  simp only [decide_eq_true_eq, not_and, Bool.not_eq_false] at this
  exact this hr

/-! ### `bread`, one equation for each way it can go -/

variable {c : Buf}

section Bread

variable {k : Kernel} {want : Nat → Block} {pin : Finset Nat} {p : ProcId} {b : Nat} {i : Fin nBuf}

lemma bread_hit (hc : k.cached rootDev b = some i) (hl : (k.buf i).lock = none) (hv : (k.buf i).valid) :
    bread p rootDev b k = .ok i (k.setBuf i
      { k.buf i with refcnt := (k.buf i).refcnt + 1, lock := some p }) := by
  simp [bread, bget, acquiresleep, bind_run, get_run, set_run, pure_run, hc, hl, hv,
    -bind_pure_comp]

lemma bread_hit_locked {q : ProcId} (hc : k.cached rootDev b = some i) (hl : (k.buf i).lock = some q) :
    bread p rootDev b k = .error .blocked (k.setBuf i
      { k.buf i with refcnt := (k.buf i).refcnt + 1 }) := by
  simp [bread, bget, acquiresleep, bind_run, get_run, set_run, throw_run, hc, hl, -bind_pure_comp]

lemma bread_miss (hc : k.cached rootDev b = none) (hv : k.victim = some i)
    (hl : (k.buf i).lock = none) (hb : b < fsSize) :
    bread p rootDev b k = .ok i (k.setBuf i
      ⟨true, false, rootDev, b, some p, 1, k.disk b⟩) := by
  have hb' : ¬ fsSize ≤ b := by omega
  simp [bread, bget, acquiresleep, iderw, bind_run, get_run, set_run, pure_run, hc, hv, hl, hb',
    -bind_pure_comp]

lemma bread_miss_range (hc : k.cached rootDev b = none) (hv : k.victim = some i)
    (hl : (k.buf i).lock = none) (hb : fsSize ≤ b) :
    bread p rootDev b k = .error (.panic "iderw: block out of range") (k.setBuf i
      ⟨false, false, rootDev, b, some p, 1, (k.buf i).data⟩) := by
  simp [bread, bget, acquiresleep, iderw, bind_run, get_run, set_run, pure_run, throw_run, hc, hv, hl,
    hb, -bind_pure_comp]

lemma bread_full (hc : k.cached rootDev b = none) (hv : k.victim = none) :
    bread p rootDev b k = .error (.panic "bget: no buffers") k := by
  simp [bread, bget, bind_run, get_run, throw_run, hc, hv]

/-- Putting the content of block `b` into buffer `i`: nothing else caches `b`, and the block that
leaves the buffer (if another one) is not pinned. -/
lemma CacheOk.put (h : CacheOk k want pin) (hdev : c.dev = rootDev)
    (hrange : c.blockno < fsSize) (hvalid : c.valid) (hdata : c.data = want c.blockno)
    (hdirty : c.dirty ↔ c.blockno ∈ pin) (href : c.refcnt = if c.lock.isSome then 1 else 0)
    (hother : ∀ j ≠ i, (k.buf j).dev = rootDev → (k.buf j).blockno ≠ c.blockno)
    (hleave : (k.buf i).dev = rootDev → (k.buf i).blockno ∈ pin → (k.buf i).blockno = c.blockno) :
    CacheOk (k.setBuf i c) want pin where
  listed := h.listed
  unique := by
    intro j l hj hl hjl
    simp only [Kernel.setBuf_buf] at hj hl hjl
    split at hj <;> split at hl <;> rename_i hji hli
    · rw [hji, hli]
    · rw [if_pos hji, if_neg hli] at hjl
      exact absurd hjl.symm (hother l hli hl)
    · rw [if_neg hji, if_pos hli] at hjl
      exact absurd hjl (hother j hji hj)
    · rw [if_neg hji, if_neg hli] at hjl
      exact h.unique j l hj hl hjl
  inRange := by
    intro j hj
    simp only [Kernel.setBuf_buf] at hj ⊢
    split at hj <;> rename_i hji
    · rw [if_pos hji]; exact hrange
    · rw [if_neg hji]; exact h.inRange j hj
  valid := by
    intro j hj
    simp only [Kernel.setBuf_buf] at hj ⊢
    split at hj <;> rename_i hji
    · rw [if_pos hji]; exact hvalid
    · rw [if_neg hji]; exact h.valid j hj
  data := by
    intro j hj
    simp only [Kernel.setBuf_buf] at hj ⊢
    split at hj <;> rename_i hji
    · rw [if_pos hji]; exact hdata
    · rw [if_neg hji]; exact h.data j hj
  dirty := by
    intro j hj
    simp only [Kernel.setBuf_buf] at hj ⊢
    split at hj <;> rename_i hji
    · rw [if_pos hji]; exact hdirty
    · rw [if_neg hji]; exact h.dirty j hj
  unused := by
    intro j hj
    simp only [Kernel.setBuf_buf] at hj ⊢
    split at hj <;> rename_i hji
    · exact absurd hdev hj
    · rw [if_neg hji]; exact h.unused j hj
  pinned := by
    intro d hd
    obtain ⟨j, hj, hjd⟩ := h.pinned d hd
    by_cases hji : j = i
    · subst hji
      refine ⟨j, by simpa using hdev, ?_⟩
      rw [Kernel.setBuf_buf, if_pos rfl, ← hleave hj (hjd ▸ hd), hjd]
    · exact ⟨j, by simpa [hji] using hj, by simpa [hji] using hjd⟩
  onDisk := h.onDisk
  refs := by
    intro j
    simp only [Kernel.setBuf_buf]
    split
    · exact href
    · exact h.refs j

lemma CacheOk.refcnt_of_unlocked (h : CacheOk k want pin) (hl : (k.buf i).lock = none) :
    (k.buf i).refcnt = 0 := by
  rw [h.refs i, hl]; rfl

lemma CacheOk.unlocked_of_refcnt (h : CacheOk k want pin) (hr : (k.buf i).refcnt = 0) :
    (k.buf i).lock = none := by
  have := h.refs i
  rw [hr] at this
  cases hl : (k.buf i).lock with
  | none => rfl
  | some q => rw [hl] at this; simp at this

lemma sameBut_setBuf (k : Kernel) (i : Fin nBuf) (c : Buf) : SameBut k (k.setBuf i c) i :=
  ⟨rfl, rfl, fun j hj => by simp [hj]⟩

/-- `bread` returns the locked, valid copy of the block and changes no content; it touches one
buffer, which was not locked. If it stops, the disk and the log are as they were. -/
lemma bread_spec (h : CacheOk k want pin) (p : ProcId) (b : Nat) :
    wp (bread p rootDev b) k (Fetched k want pin p b)
      (fun _ k' => k'.disk = k.disk ∧ k'.log = k.log) := by
  unfold wp
  cases hc : k.cached rootDev b with
  | some i =>
    obtain ⟨hdev, hb⟩ := cached_some hc
    cases hl : (k.buf i).lock with
    | none =>
      rw [bread_hit hc hl (h.valid i hdev)]
      have href := h.refcnt_of_unlocked hl
      refine ⟨?_, ⟨?_, ?_, ?_⟩, sameBut_setBuf _ _ _, hl⟩
      · apply h.put
        · exact hdev
        · exact h.inRange i hdev
        · exact h.valid i hdev
        · exact h.data i hdev
        · exact h.dirty i hdev
        · simp [href]
        · intro j hji hj hjb
          exact hji (h.unique j i hj hdev hjb)
        · intros; rfl
      · simpa using hdev
      · simpa using hb
      · simp
    | some q =>
      rw [bread_hit_locked hc hl]
      exact ⟨rfl, rfl⟩
  | none =>
    cases hv : k.victim with
    | none =>
      rw [bread_full hc hv]
      exact ⟨rfl, rfl⟩
    | some i =>
      obtain ⟨hr, hd⟩ := victim_some hv
      have hl := h.unlocked_of_refcnt hr
      by_cases hb : b < fsSize
      · -- recycling: the block that leaves is clean, hence not pinned
        have hbpin : b ∉ pin := by
          intro hbp
          obtain ⟨j, hj, hjb⟩ := h.pinned b hbp
          exact cached_none h.listed hc hj hjb
        rw [bread_miss hc hv hl hb]
        refine ⟨?_, ⟨?_, ?_, ?_⟩, sameBut_setBuf _ _ _, hl⟩
        · apply h.put
          · rfl
          · exact hb
          · rfl
          · exact h.onDisk b hbpin
          · simpa using hbpin
          · rfl
          · intro j _ hj
            exact cached_none h.listed hc hj
          · intro hdev hpin
            have := (h.dirty i hdev).mpr hpin
            rw [hd] at this
            cases this
        · simp
        · simp
        · simp
      · rw [bread_miss_range hc hv hl (not_lt.mp hb)]
        exact ⟨rfl, rfl⟩

/-- `bread` returns when nobody holds the block and some buffer can be recycled. -/
lemma bread_total (h : CacheOk k want pin) (p : ProcId) (hb : b < fsSize)
    (hfree : ∀ i, (k.buf i).dev = rootDev → (k.buf i).blockno = b → (k.buf i).lock = none)
    {j : Fin nBuf} (hj : (k.buf j).lock = none) (hclean : (k.buf j).dirty = false) :
    wp (bread p rootDev b) k (Fetched k want pin p b) (fun _ _ => False) := by
  cases hc : k.cached rootDev b with
  | some i =>
    obtain ⟨hdev, hno⟩ := cached_some hc
    exact (bread_spec h p b).total (bread_hit hc (hfree i hdev hno) (h.valid i hdev))
  | none =>
    cases hv : k.victim with
    | some i =>
      obtain ⟨hr, -⟩ := victim_some hv
      exact (bread_spec h p b).total (bread_miss hc hv (h.unlocked_of_refcnt hr) hb)
    | none =>
      have := victim_none h.listed hv (h.refcnt_of_unlocked hj)
      rw [hclean] at this
      cases this

end Bread

/-! ### Writing through: `memmove` into a held buffer, then `bwrite` -/

section Bwrite

variable {k : Kernel} {want : Nat → Block} {pin : Finset Nat} {p : ProcId} {b : Nat} {i : Fin nBuf}

/-- Replacing the content of a held buffer, whatever happens to the flag and to the block on disk,
as long as an unpinned block is on disk. -/
lemma CacheOk.rewrite {k' : Kernel} {pin' : Finset Nat} (h : CacheOk k want pin)
    (hold : Holds k p b i) (hlru : k'.lru = k.lru) (hbuf : k'.buf = update k.buf i c)
    (hc : c = { k.buf i with data := c.data, valid := true, dirty := c.dirty })
    (hpin : ∀ d ≠ b, (d ∈ pin' ↔ d ∈ pin)) (hdirty : c.dirty ↔ b ∈ pin')
    (hdisk : ∀ d ≠ b, k'.disk d = k.disk d) (hb : b ∉ pin' → k'.disk b = c.data) :
    CacheOk k' (update want b c.data) pin' := by
  have hsame : ∀ {β : Type} (f : Buf → β), f c = f (k.buf i) → ∀ j, f (k'.buf j) = f (k.buf j) := by
    intro β f hf j
    by_cases hji : j = i
    · rw [hbuf, hji, update_self, hf]
    · rw [hbuf, update_of_ne hji]
  have hdev := hsame Buf.dev (by rw [hc])
  have hno := hsame Buf.blockno (by rw [hc])
  have hlock := hsame Buf.lock (by rw [hc])
  have href := hsame Buf.refcnt (by rw [hc])
  -- the other buffers cache other blocks, so the old `want` still describes them
  have hother : ∀ j ≠ i, (k.buf j).dev = rootDev → (k.buf j).blockno ≠ b := by
    intro j hji hj hjb
    exact hji (h.unique j i hj hold.dev (hjb.trans hold.blockno.symm))
  refine ⟨by rw [hlru]; exact h.listed, ?_, ?_, ?_, ?_, ?_, ?_, ?_, ?_, ?_⟩
  · intro j l hj hl hjl
    rw [hdev] at hj hl
    rw [hno, hno] at hjl
    exact h.unique j l hj hl hjl
  · intro j hj
    rw [hdev] at hj
    rw [hno]
    exact h.inRange j hj
  · intro j hj
    rw [hdev] at hj
    by_cases hji : j = i
    · rw [hbuf, hji, update_self, hc]
    · rw [hbuf, update_of_ne hji]
      exact h.valid j hj
  · intro j hj
    rw [hdev] at hj
    rw [hno]
    by_cases hji : j = i
    · rw [hbuf, hji, update_self, hold.blockno, update_self]
    · rw [hbuf, update_of_ne hji, update_of_ne (hother j hji hj)]
      exact h.data j hj
  · intro j hj
    rw [hdev] at hj
    rw [hno]
    by_cases hji : j = i
    · rw [hbuf, hji, update_self, hold.blockno]
      exact hdirty
    · rw [hbuf, update_of_ne hji, hpin _ (hother j hji hj)]
      exact h.dirty j hj
  · intro j hj
    rw [hdev] at hj
    have hji : j ≠ i := by rintro rfl; exact hj hold.dev
    rw [hbuf, update_of_ne hji]
    exact h.unused j hj
  · intro d hd
    by_cases hdb : d = b
    · exact ⟨i, by rw [hdev]; exact hold.dev, by rw [hno, hdb]; exact hold.blockno⟩
    · obtain ⟨j, hj, hjd⟩ := h.pinned d ((hpin d hdb).mp hd)
      exact ⟨j, by rw [hdev]; exact hj, by rw [hno]; exact hjd⟩
  · intro d hd
    by_cases hdb : d = b
    · subst hdb
      rw [update_self]
      exact hb hd
    · rw [update_of_ne hdb, hdisk d hdb]
      exact h.onDisk d fun hm => hd ((hpin d hdb).mpr hm)
  · intro j
    rw [href, hlock]
    exact h.refs j

lemma bwrite_run (v : Block) (hold : Holds k p b i) (hb : b < fsSize) :
    bwrite p i (k.setBuf i { k.buf i with data := v }) = .ok () ((k.setDisk b v).setBuf i
      { k.buf i with data := v, valid := true, dirty := false }) := by
  have hb' : ¬ fsSize ≤ b := by omega
  simp [bwrite, iderw, bind_run, get_run, set_run, hold.lock, hold.dev, hold.blockno,
    Kernel.setDisk, Kernel.setBuf, hb']

/-- Writing a held buffer whose data has been overwritten by `v` to disk: the block has content `v`
in the cache and on disk, and is no longer pinned. -/
lemma bwrite_spec (h : CacheOk k want pin) (hold : Holds k p b i) (v : Block) :
    wp (bwrite p i) (k.setBuf i { k.buf i with data := v })
      (fun _ k' => CacheOk k' (update want b v) (pin.erase b) ∧ Holds k' p b i ∧
        k'.disk = update k.disk b v ∧ k'.log = k.log ∧ ∀ j ≠ i, k'.buf j = k.buf j)
      (fun _ _ => False) := by
  have hrange : b < fsSize := by rw [← hold.blockno]; exact h.inRange i hold.dev
  unfold wp
  rw [bwrite_run v hold hrange]
  refine ⟨?_, ⟨by simpa using hold.dev, by simpa using hold.blockno, by simpa using hold.lock⟩,
    rfl, rfl, fun j hj => by simp [hj]⟩
  refine h.rewrite (c := { k.buf i with data := v, valid := true, dirty := false }) hold rfl rfl rfl
    ?_ ?_ ?_ ?_
  · intro d hd; simp [hd]
  · simp
  · intro d hd; simp [hd]
  · intro _; simp

end Bwrite

/-! ### `brelse` -/

section Brelse

variable {k : Kernel} {want : Nat → Block} {pin : Finset Nat} {p : ProcId} {b : Nat} {i : Fin nBuf}

/-- `brelse` of a held buffer unlocks it and changes nothing else but the order of the list. -/
lemma brelse_spec (h : CacheOk k want pin) (hold : Holds k p b i) :
    wp (brelse p i) k
      (fun _ k' => CacheOk k' want pin ∧ SameBut k k' i ∧ (k'.buf i).lock = none)
      (fun _ _ => False) := by
  have href : (k.buf i).refcnt = 1 := by rw [h.refs i, hold.lock]; rfl
  have hput : CacheOk (k.setBuf i { k.buf i with lock := none, refcnt := 0 }) want pin := by
    apply h.put
    · exact hold.dev
    · exact h.inRange i hold.dev
    · exact h.valid i hold.dev
    · exact h.data i hold.dev
    · exact h.dirty i hold.dev
    · rfl
    · intro j hji hj hjb
      exact hji (h.unique j i hj hold.dev hjb)
    · intros; rfl
  have hrun : brelse p i k = .ok () { k.setBuf i { k.buf i with lock := none, refcnt := 0 } with
      lru := i :: k.lru.erase i } := by
    simp [brelse, bind_run, get_run, set_run, hold.lock, href]
  unfold wp
  rw [hrun]
  refine ⟨⟨?_, hput.unique, hput.inRange, hput.valid, hput.data, hput.dirty, hput.unused,
    hput.pinned, hput.onDisk, hput.refs⟩, ⟨rfl, rfl, fun j hj => by simp [hj]⟩, by simp⟩
  intro j
  by_cases hji : j = i
  · simp [hji]
  · exact .tail _ ((List.mem_erase_of_ne hji).mpr (h.listed j))

end Brelse

/-! ### A full cache -/

lemma bread_full_of_card {want : Nat → Block} {pin : Finset Nat} (p : ProcId)
    (h : CacheOk k want pin) (hcard : nBuf ≤ pin.card) (hb : b ∉ pin) :
    bread p rootDev b k = .error (.panic "bget: no buffers") k := by
  choose f hf using h.pinned
  have hinj : Function.Injective fun x : pin => f x.1 x.2 := by
    intro x y hxy
    have hx := (hf x.1 x.2).2
    have hy := (hf y.1 y.2).2
    simp only at hxy
    rw [hxy] at hx
    exact Subtype.ext (hx.symm.trans hy)
  -- an injection of `pin` into the `NBUF` buffers is onto, so every buffer holds a pinned block
  have hsurj : Function.Surjective fun x : pin => f x.1 x.2 := by
    refine (Fintype.bijective_iff_injective_and_card _).mpr ⟨hinj, ?_⟩ |>.2
    have hle := Fintype.card_le_of_injective _ hinj
    simp only [Fintype.card_coe, Fintype.card_fin] at hle ⊢
    omega
  have hall : ∀ i, (k.buf i).dev = rootDev ∧ (k.buf i).blockno ∈ pin := by
    intro i
    obtain ⟨x, rfl⟩ := hsurj i
    obtain ⟨hdev, hno⟩ := hf x.1 x.2
    exact ⟨hdev, by rw [hno]; exact x.2⟩
  apply bread_full
  · refine List.find?_eq_none.mpr fun i _ => ?_
    simp only [decide_eq_true_eq, not_and]
    rintro - rfl
    exact hb (hall i).2
  · refine List.find?_eq_none.mpr fun i _ => ?_
    simp [(h.dirty i (hall i).1).mpr (hall i).2]

end Xv6.Disk
