import Xv6.Fs.Alloc

/-!
# The content of files

`readi` and `writei` go over a file block by block and find each block with `bmap`. Against the
content of a file as a list of bytes (`Volume.content`):

* `readi` returns a piece of the content (`readi_spec`);
* `writei` overwrites the content from an offset on, lengthening it if necessary, and leaves the other
  files alone (`writei_spec`); outside the limits it returns `-1` and does nothing.

A missing block counts as zeroes; `readi` and `writei` allocate the ones they pass. What they need for
this is counted by `missing`, over the positions on the way to the bytes in question (`span`).
-/

namespace Xv6.Fs

open Function (update update_self update_of_ne)
open Lib Disk

/-! ### Overwriting bytes -/

/-- The bytes `f`, with `src` over those from `off` on. -/
def overwrite (f : Nat → UInt8) (off : Nat) (src : List UInt8) (x : Nat) : UInt8 :=
  if off ≤ x then (src[x - off]?).getD (f x) else f x

@[simp] lemma overwrite_nil (f : Nat → UInt8) (off : Nat) : overwrite f off [] = f := by
  funext x
  simp [overwrite]

variable {f : Nat → UInt8} {x : Nat}

lemma overwrite_congr {g : Nat → UInt8} (h : f x = g x) (off : Nat) (src : List UInt8) :
    overwrite f off src x = overwrite g off src x := by
  unfold overwrite
  rw [h]

variable {src : List UInt8}

variable {off : Nat}

lemma overwrite_inside (f : Nat → UInt8) {t : Nat} (h : t < src.length) :
    overwrite f off src (off + t) = src.getD t 0 := by
  rw [overwrite, if_pos (Nat.le_add_right ..), Nat.add_sub_cancel_left, List.getD_eq_getElem?_getD,
    List.getElem?_eq_getElem h, Option.getD_some, Option.getD_some]

lemma overwrite_outside (f : Nat → UInt8)
    (h : x < off ∨ off + src.length ≤ x) : overwrite f off src x = f x := by
  unfold overwrite
  split
  · rw [List.getElem?_eq_none (by omega), Option.getD_none]
  · rfl

lemma overwrite_overwrite (f : Nat → UInt8) (off m : Nat) (src : List UInt8) (hm : m ≤ src.length) (x : Nat) :
    overwrite (overwrite f off (src.take m)) (off + m) (src.drop m) x = overwrite f off src x := by
  unfold overwrite
  by_cases hlo : off ≤ x
  · by_cases hhi : off + m ≤ x
    · have hout : (src.take m)[x - off]? = none :=
        List.getElem?_eq_none (by rw [List.length_take]; omega)
      rw [if_pos hhi, if_pos hlo, if_pos hlo, List.getElem?_drop,
        show m + (x - (off + m)) = x - off by omega, hout]
      rfl
    · rw [if_neg hhi, if_pos hlo, if_pos hlo, List.getElem?_take_of_lt (by omega)]
  · rw [if_neg (by omega), if_neg hlo, if_neg hlo]

lemma overwrite_splice {b : Block} (hlen : off % bSize + src.length ≤ bSize)
    (hb : ∀ x, x / bSize = off / bSize → b.get (x % bSize) = f x) :
    overwrite f off src x =
      if x / bSize = off / bSize then (b.splice (off % bSize) src).get (x % bSize) else f x := by
  have hpos : x % bSize < bSize := Nat.mod_lt _ (by decide)
  by_cases hblock : x / bSize = off / bSize
  · rw [if_pos hblock, Bytes.get_splice _ hpos, hb x hblock]
    have hx := Nat.div_add_mod x bSize
    have hoff := Nat.div_add_mod off bSize
    rw [hblock] at hx
    unfold overwrite
    by_cases hle : off ≤ x
    · rw [if_pos hle, if_pos (by omega), show x % bSize - off % bSize = x - off by omega]
    · rw [if_neg hle, if_neg (by omega)]
  · rw [if_neg hblock]
    unfold overwrite
    split
    · rw [List.getElem?_eq_none]
      · rfl
      · rw [bSize_eq] at *
        omega
    · rfl

/-! ### The positions on the way to a piece of a file -/

/-- The positions on the way to the bytes `[off, off + len)` of file `n`. -/
def span (n off len : Nat) : Finset Place :=
  (Finset.range len).biUnion fun t => blockTrail n ((off + t) / bSize)

@[simp] lemma span_zero (n off : Nat) : span n off 0 = ∅ := rfl

variable {len n : Nat} {p : Place}

lemma mem_span : p ∈ span n off len ↔ ∃ t, t < len ∧ p ∈ blockTrail n ((off + t) / bSize) := by
  simp [span]

lemma span_add (n off m len : Nat) : span n off (m + len) = span n off m ∪ span n (off + m) len := by
  ext p
  simp only [Finset.mem_union, mem_span]
  constructor
  · rintro ⟨t, ht, hp⟩
    by_cases h : t < m
    · exact .inl ⟨t, h, hp⟩
    · exact .inr ⟨t - m, by omega, by rwa [show off + m + (t - m) = off + t by omega]⟩
  · rintro (⟨t, ht, hp⟩ | ⟨t, ht, hp⟩)
    · exact ⟨t, by omega, hp⟩
    · exact ⟨m + t, by omega, by rwa [show off + (m + t) = off + m + t by omega]⟩

variable {m : Nat}

lemma span_block (h0 : 0 < m) (hm : m ≤ bSize - off % bSize) : span n off m = blockTrail n (off / bSize) := by
  have hsame : ∀ t < m, (off + t) / bSize = off / bSize := fun t ht => by
    rw [bSize_eq] at *
    omega
  ext p
  rw [mem_span]
  constructor
  · rintro ⟨t, ht, hp⟩
    rwa [hsame t ht] at hp
  · exact fun hp => ⟨0, h0, by rwa [hsame 0 h0]⟩

/-- The rounds of the loop of `writei`. -/
def chunks (off len : Nat) : Nat :=
  if len = 0 then 0 else (off + len - 1) / bSize - off / bSize + 1

lemma chunks_step (h : len ≠ 0) :
    chunks off len = 1 + chunks (off + min len (bSize - off % bSize))
      (len - min len (bSize - off % bSize)) := by
  unfold chunks
  rw [if_neg h, bSize_eq]
  split <;> omega

/-! ### Reading -/

variable {b bn k rounds : Nat} {d : Dinode} {disk : Nat → Block} {s1 : State}

section

variable {i : InodeId} {s : State}

/-- The bytes `[off, off + len)` of file `n`. -/
def Volume.bytes (v : Volume) (n off len : Nat) : List UInt8 :=
  (List.range len).map fun t => v.byte n (off + t)

lemma Volume.bytes_add (v : Volume) (n off m len : Nat) :
    v.bytes n off (m + len) = v.bytes n off m ++ v.bytes n (off + m) len := by
  unfold Volume.bytes
  rw [List.range_add, List.map_append, List.map_map]
  simp only [Function.comp_def, Nat.add_assoc]

variable {v : Volume}

lemma Volume.slice_eq_bytes (hm : m ≤ bSize - off % bSize) (hne : v.node (blockPlace n (off / bSize)) ≠ 0) :
    (v.disk (v.node (blockPlace n (off / bSize)))).slice (off % bSize) m = v.bytes n off m := by
  refine List.map_congr_left fun t ht => ?_
  rw [List.mem_range] at ht
  have hdiv : (off + t) / bSize = off / bSize := by
    rw [bSize_eq] at *
    omega
  have hmod : (off + t) % bSize = off % bSize + t := by
    rw [bSize_eq] at *
    omega
  rw [Volume.byte, hdiv, if_neg hne, hmod]

lemma readLoop_spec :
    ∀ {off n : Nat} {s : State}, n ≤ rounds → off + n ≤ maxFile * bSize →
      (s.volume i).Sound → (s.inode i).din.type ≠ 0 →
      wp (readLoop i rounds off n) s
        (fun r s' => Maps i (span (s.inode i).inum off n) s s' ∧
          r = (s.volume i).bytes (s.inode i).inum off n)
        (lacks i (span (s.inode i).inum off n) 0 s) := by
  induction rounds with
  | zero =>
    intro off n s hn _ hsound _
    obtain rfl : n = 0 := by omega
    exact ⟨.refl hsound (by simp), rfl⟩
  | succ rounds ih =>
    intro off n s hn hmax hsound htype
    unfold readLoop
    rw [wp_ite]
    split
    · rename_i h0
      subst h0
      exact ⟨.refl hsound (by simp), rfl⟩
    rename_i h0
    generalize hm : min n (bSize - off % bSize) = m
    have hmn : n = m + (n - m) := by omega
    have hm0 : 0 < m := by
      have := Nat.mod_lt off (show 0 < bSize by decide)
      omega
    have hbn : off / bSize < maxFile := Nat.div_lt_of_lt_mul (by rw [Nat.mul_comm]; omega)
    rw [show span (s.inode i).inum off n =
        blockTrail (s.inode i).inum (off / bSize) ∪ span (s.inode i).inum (off + m) (n - m) by
      rw [← span_block (m := m) hm0 (by omega), ← span_add, ← hmn]]
    refine wp_maps (bmap_spec hsound htype hbn) fun b s1 hs1 hb => ?_
    have hinum := hs1.same.inum
    have hne := hs1.filled _ (mem_blockTrail _ _)
    have hrest := @ih (off + m) (n - m) s1 (by omega) (by omega) hs1.sound
      (by rw [hs1.same.type]; exact htype)
    simp only [bread, wp_bind, wp_get, wp_pure]
    rw [hinum] at hrest
    refine hrest.imp ?_
    rintro r s2 ⟨hs2, rfl⟩
    refine ⟨hs2, ?_⟩
    have hbytes : ∀ off' len, (s1.volume i).bytes (s.inode i).inum off' len =
        (s.volume i).bytes (s.inode i).inum off' len := fun off' len => by
      simp only [Volume.bytes, hs1.byte]
    have hslice : (s1.disk b).slice (off % bSize) m =
        (s1.volume i).bytes (s.inode i).inum off m := by
      subst hb
      exact Volume.slice_eq_bytes (v := s1.volume i) (by omega) hne
    rw [hslice, hbytes, hbytes, hmn, Volume.bytes_add]
    congr 2
    omega

lemma volume_setBlock (hb : dataStart ≤ b) (data : Block) (l : Log) :
    State.volume { s.setBlock b data with log := l } i = (s.volume i).store b data ∧
      diskInodes (update s.disk b data) = diskInodes s.disk := by
  have hinodes : diskInodes (update s.disk b data) = diskInodes s.disk := by
    refine diskInodes_congr fun x _ hx => update_of_ne ?_ _ _
    unfold bmapStart at hx
    unfold dataStart at hb
    omega
  refine ⟨?_, hinodes⟩
  unfold State.volume Volume.store
  simp only [State.setBlock]
  rw [hinodes]

/-- A write to a data block that is there. -/
lemma storeBlock_spec {data : Block} (hsound : (s.volume i).Sound)
    (hne : (s.volume i).node (blockPlace n bn) ≠ 0) :
    wp (logWrite ((s.volume i).node (blockPlace n bn)) data) s
      (fun _ s' => Fills i ∅ 1 s s' ∧
        s'.volume i = (s.volume i).store ((s.volume i).node (blockPlace n bn)) data)
      (lacks i ∅ 1 s) := by
  have hrange := (hsound.range hne).1
  have hzero : missing (s.volume i) ∅ = 0 := rfl
  unfold lacks
  rw [hzero]
  refine (logWrite_spec s _ _).imp ?_
  rintro - s' rfl
  obtain ⟨hvol, hinodes⟩ := volume_setBlock (s := s) (i := i) hrange data
    (s.log.add ((s.volume i).node (blockPlace n bn)))
  refine ⟨⟨⟨fun _ _ => rfl, ⟨_, rfl⟩, rfl, rfl, rfl, rfl, hinodes⟩, ?_, ?_, by simp, ?_, ?_⟩, hvol⟩
  · rw [hvol]
    exact hsound.store hne
  · intro p _
    rw [hvol, hsound.node_store]
  · intro p _
    rw [hvol, hsound.node_store]
  · refine ⟨?_, ?_, Log.add_outstanding ..⟩
    · exact freeBlocks_congr fun b hb => used_update hb (.inr hrange)
    · exact length_add_le _ _

/-- One round of `writei`. -/
def writeChunk (i : InodeId) (off : Nat) (src : List UInt8) : FM Unit := do
  let b ← bmap i (off / bSize)
  let bp ← bread b
  logWrite b (bp.splice (off % bSize) src)

/-- What a write of `src` at `off` of file `n` does to the bytes of the files. -/
def Overwrites (n off : Nat) (src : List UInt8) (v v' : Volume) : Prop :=
  ∀ m x, (m = n → x / bSize < maxFile) →
    v'.byte m x = if m = n then overwrite (v.byte n) off src x else v.byte m x

variable {src : List UInt8}

lemma writeChunk_spec (hsound : (s.volume i).Sound)
    (htype : (s.inode i).din.type ≠ 0) (hbn : off / bSize < maxFile) (hlen : off % bSize + src.length ≤ bSize) :
    wp (writeChunk i off src) s
      (fun _ s' => Fills i (blockTrail (s.inode i).inum (off / bSize)) 1 s s' ∧
        Overwrites (s.inode i).inum off src (s.volume i) (s'.volume i))
      (lacks i (blockTrail (s.inode i).inum (off / bSize)) 1 s) := by
  have hmap : wp (bmap i (off / bSize)) s
      (fun b s1 => Fills i (blockTrail (s.inode i).inum (off / bSize)) 0 s s1 ∧
        Maps i (blockTrail (s.inode i).inum (off / bSize)) s s1 ∧
        b = (s1.volume i).node (blockPlace (s.inode i).inum (off / bSize)))
      (lacks i (blockTrail (s.inode i).inum (off / bSize)) 0 s) :=
    (bmap_spec hsound htype hbn).imp fun _ _ h => ⟨h.1.toFills, h⟩
  unfold writeChunk
  have hstep := wp_fills (T := ∅) (l := 1)
    (R := fun _ s' => Overwrites (s.inode i).inum off src (s.volume i) (s'.volume i))
    (f := fun b => do
      let bp ← bread b
      logWrite b (bp.splice (off % bSize) src)) hmap ?_
  · simpa only [Finset.union_empty, Nat.zero_add] using hstep
  rintro b s1 - ⟨hs1, rfl⟩
  have hne := hs1.filled _ (mem_blockTrail (s.inode i).inum (off / bSize))
  simp only [bread, wp_bind, wp_get, wp_pure]
  refine (storeBlock_spec hs1.sound hne).imp ?_
  rintro - s2 ⟨hs2, hvol⟩
  refine ⟨hs2, fun m x hx => ?_⟩
  rw [hvol, hs1.sound.byte_store hne hbn hx]
  by_cases hm : m = (s.inode i).inum
  · rw [if_pos hm, hm, overwrite_splice (b := s1.disk
      ((s1.volume i).node (blockPlace (s.inode i).inum (off / bSize)))) hlen]
    · simp only [true_and, hs1.byte]
    · intro y hy
      rw [← hs1.byte, Volume.byte, hy, if_neg hne]
      rfl
  · rw [if_neg hm, if_neg (fun h => hm h.1), hs1.byte]

lemma writeLoop_spec :
    ∀ {off : Nat} {src : List UInt8} {s : State}, src.length ≤ rounds →
      off + src.length ≤ maxFile * bSize → (s.volume i).Sound → (s.inode i).din.type ≠ 0 →
      wp (writeLoop i rounds off src) s
        (fun r s' => Fills i (span (s.inode i).inum off src.length) (chunks off src.length) s s' ∧
          r = off + src.length ∧
          Overwrites (s.inode i).inum off src (s.volume i) (s'.volume i))
        (lacks i (span (s.inode i).inum off src.length) (chunks off src.length) s) := by
  -- nothing is left
  have hdone : ∀ {off : Nat} {src : List UInt8} {s : State}, src.length = 0 → (s.volume i).Sound →
      Fills i (span (s.inode i).inum off src.length) (chunks off src.length) s s ∧
        off = off + src.length ∧
        Overwrites (s.inode i).inum off src (s.volume i) (s.volume i) := fun h0 hsound => by
    obtain rfl := List.eq_nil_of_length_eq_zero h0
    refine ⟨.refl hsound (by simp), rfl, fun m x _ => ?_⟩
    rw [overwrite_nil]
    split
    · rw [‹m = _›]
    · rfl
  induction rounds with
  | zero =>
    intro off src s hr _ hsound _
    exact hdone (by omega) hsound
  | succ rounds ih =>
    intro off src s hr hmax hsound htype
    unfold writeLoop
    rw [wp_ite]
    split
    · exact hdone ‹_› hsound
    rename_i h0
    generalize hm : min src.length (bSize - off % bSize) = m
    have hmod := Nat.mod_lt off (show 0 < bSize by decide)
    have hbn : off / bSize < maxFile := Nat.div_lt_of_lt_mul (by rw [Nat.mul_comm]; omega)
    have htake : (src.take m).length = m := by rw [List.length_take]; omega
    have hdrop : (src.drop m).length = src.length - m := List.length_drop
    have hspan : span (s.inode i).inum off src.length =
        blockTrail (s.inode i).inum (off / bSize) ∪
          span (s.inode i).inum (off + m) (src.drop m).length := by
      rw [← span_block (m := m) (by omega) (by omega), hdrop, ← span_add]
      congr 1
      omega
    have hchunks : chunks off src.length = 1 + chunks (off + m) (src.drop m).length := by
      rw [chunks_step h0, hm, hdrop]
    rw [hspan, hchunks]
    have hbody : (bmap i (off / bSize) >>= fun b => bread b >>= fun bp =>
          logWrite b (bp.splice (off % bSize) (src.take m)) >>= fun _ =>
            writeLoop i rounds (off + m) (src.drop m)) =
        writeChunk i off (src.take m) >>= fun _ => writeLoop i rounds (off + m) (src.drop m) := by
      simp only [writeChunk, bind_assoc]
    rw [hbody]
    refine wp_fills (writeChunk_spec hsound htype hbn (by omega)) fun _ s1 hs1 hover => ?_
    have hrest := @ih (off + m) (src.drop m) s1 (by omega) (by omega) hs1.sound
      (by rw [hs1.same.type]; exact htype)
    rw [hs1.same.inum] at hrest
    refine hrest.imp ?_
    rintro r s2 ⟨hs2, rfl, hover'⟩
    refine ⟨hs2, by omega, fun n x hx => ?_⟩
    rw [hover' n x hx]
    split
    · refine (overwrite_congr ?_ _ _).trans (overwrite_overwrite _ off m src (by omega) x)
      rw [hover _ x fun _ => hx ‹_›, if_pos rfl]
    · rw [hover n x hx, if_neg ‹_›]

/-! ### `readi` -/

lemma Volume.bytes_eq_content (v : Volume) (n off len : Nat) :
    v.bytes n off (min len ((v.din n).size - off)) = ((v.content n).drop off).take len := by
  refine List.ext_getElem ?_ fun t _ _ => ?_
  · simp [Volume.bytes, Volume.content]
  · simp [Volume.bytes, Volume.content]

lemma readi_spec (hsound : (s.volume i).Sound) (htype : (s.inode i).din.type ≠ 0)
    (hdev : (s.inode i).din.type ≠ tDev) (hmax : (s.inode i).din.size ≤ maxFile * bSize)
    (hoff : off ≤ (s.inode i).din.size) (hn : off + n < 2 ^ 32) :
    wp (readi i off n) s
      (fun r s' => r = some ((((s.volume i).content (s.inode i).inum).drop off).take n) ∧
        Maps i (span (s.inode i).inum off (min n ((s.inode i).din.size - off))) s s')
      fun e _ => Fails s (missing (s.volume i)
        (span (s.inode i).inum off (min n ((s.inode i).din.size - off)))) 0 e := by
  have hdin := s.volume_din_self i
  -- the length that `readi` settles for
  have hlen : (if (s.inode i).din.size < (off + n) % 2 ^ 32 then (s.inode i).din.size - off else n) =
      min n ((s.inode i).din.size - off) := by
    rw [Nat.mod_eq_of_lt hn]
    split <;> omega
  unfold readi
  rw [wp_bind, wp_get]
  dsimp only
  rw [if_neg hdev, if_neg (by rw [Nat.mod_eq_of_lt hn]; omega), hlen, wp_bind]
  refine (readLoop_spec (le_refl _) (by omega) hsound htype).imp ?_
  rintro r s' ⟨hs', rfl⟩
  refine ⟨congrArg some ?_, hs'⟩
  rw [← Volume.bytes_eq_content, hdin]

/-! ### `writei` -/

lemma diskInodes_putInode (disk : Nat → Block) (hn : n < nInodes)
    (hd : d.Fits) : diskInodes (putInode disk n d) = update (diskInodes disk) n d := by
  funext m
  unfold diskInodes
  rw [diskInode_putInode disk hd]
  by_cases hm : m = n
  · rw [hm, if_pos hn, update_self, update_self]
  · rw [update_of_ne hm, update_of_ne hm]

lemma putInode_of_ge (hn : n < nInodes) (hb : bmapStart ≤ b) : putInode disk n d b = disk b := by
  have := (iblock_range hn).2
  exact update_of_ne (by omega) _ _

/-- The state after `iupdate`. -/
def State.updated (s : State) (i : InodeId) : State :=
  { s with disk := putInode s.disk (s.inode i).inum (s.inode i).din
           log := s.log.add (iblock (s.inode i).inum) }

lemma iupdate_spec (s : State) (i : InodeId) :
    wp (iupdate i) s (fun _ s' => s' = s.updated i) fun e _ => Fails s 0 1 e := by
  unfold iupdate bread
  simp only [wp_bind, wp_get, wp_pure]
  exact logWrite_spec s _ _

/-- What a write of `src` at `off` through entry `i` of the inode cache has done. -/
structure Written (i : InodeId) (off : Nat) (src : List UInt8) (s s' : State) : Prop where
  inum : (s'.inode i).inum = (s.inode i).inum
  type : (s'.inode i).din.type = (s.inode i).din.type
  sound : (s'.volume i).Sound
  size : (s'.inode i).din.size = max (s.inode i).din.size (off + src.length)
  content : (s'.volume i).content (s.inode i).inum =
    ((s.volume i).content (s.inode i).inum).take off ++ src ++
      ((s.volume i).content (s.inode i).inum).drop (off + src.length)
  others : ∀ n, n ≠ (s.inode i).inum → (s'.volume i).content n = (s.volume i).content n
  noHoles : (s.volume i).NoHoles (s.inode i).inum → (s'.volume i).NoHoles (s.inode i).inum
  bytes : Overwrites (s.inode i).inum off src (s.volume i) (s'.volume i)
  kept : ∀ p, (s.volume i).node p ≠ 0 → (s'.volume i).node p = (s.volume i).node p
  rest : s' = { s with disk := s'.disk, log := s'.log, inode := s'.inode }
  entries : ∀ j, j ≠ i → s'.inode j = s.inode j
  entry : ∃ size addrs,
    s'.inode i = { s.inode i with din := { (s.inode i).din with size := size, addrs := addrs } }
  inodes : ∀ n, n ≠ (s.inode i).inum → diskInodes s'.disk n = diskInodes s.disk n
  /-- a file that has grown is written back; otherwise its inode changes only where a block was missing -/
  stored : diskInodes s'.disk (s.inode i).inum = (s'.inode i).din ∨
    off + src.length ≤ (s.inode i).din.size ∧ diskInodes s'.disk = diskInodes s.disk ∧
      (missing (s.volume i) (span (s.inode i).inum off src.length) = 0 →
        (s'.inode i).din = (s.inode i).din)

lemma map_overwrite (f : Nat → UInt8) {size : Nat} (src : List UInt8) (h : off ≤ size) :
    (List.range (max size (off + src.length))).map (overwrite f off src) =
      ((List.range size).map f).take off ++ src ++
        ((List.range size).map f).drop (off + src.length) := by
  refine List.ext_getElem ?_ fun t ht _ => ?_
  · simp only [List.length_map, List.length_range, List.length_append, List.length_take,
      List.length_drop]
    omega
  · simp only [List.getElem_map, List.getElem_range, List.getElem_append, List.getElem_take,
      List.getElem_drop, List.length_append, List.length_take, List.length_map, List.length_range,
      overwrite, Nat.min_eq_left h]
    by_cases hlo : off ≤ t
    · rw [if_pos hlo]
      by_cases hhi : t < off + src.length
      · rw [dif_pos hhi, dif_neg (by omega), List.getElem?_eq_getElem (by omega)]
        rfl
      · rw [dif_neg hhi, List.getElem?_eq_none (by omega)]
        simp only [Option.getD_none]
        congr 1
        omega
    · rw [if_neg hlo, dif_pos (by omega), dif_pos (by omega)]

lemma Fills.din_of_missing {S : Finset Place} (hf : Fills i S k s s1)
    (htype : (s.inode i).din.type ≠ 0) (hnone : missing (s.volume i) S = 0) :
    (s1.inode i).din = (s.inode i).din := by
  unfold missing at hnone
  rw [Finset.card_eq_zero, Finset.filter_eq_empty_iff] at hnone
  have htype1 : (s1.inode i).din.type ≠ 0 := by rwa [hf.same.type]
  have haddrs : (s1.inode i).din.addrs = (s.inode i).din.addrs := by
    funext k
    rw [← node_top htype1, ← node_top htype, hf.same.inum]
    by_cases hp : (((s.inode i).inum, k), []) ∈ S
    · exact hf.kept _ (hnone hp)
    · exact hf.outside _ hp
  obtain ⟨addrs, hentry⟩ := hf.same.entry
  rw [hentry] at haddrs ⊢
  obtain rfl : addrs = (s.inode i).din.addrs := haddrs
  rfl

lemma Written.of_fills {s2 : State}
    (htype0 : (s.inode i).din.type ≠ 0)
    (hoff : off ≤ (s.inode i).din.size) (hmax : (s.inode i).din.size ≤ maxFile * bSize)
    (hlen : off + src.length ≤ maxFile * bSize)
    (hf : Fills i (span (s.inode i).inum off src.length) k s s1)
    (hover : Overwrites (s.inode i).inum off src (s.volume i) (s1.volume i))
    (hinode : s2.inode i = { s1.inode i with din := { (s1.inode i).din with
      size := max (s.inode i).din.size (off + src.length) } })
    (hdisk : ∀ b, bmapStart ≤ b → s2.disk b = s1.disk b)
    (hothers : ∀ n ≠ (s.inode i).inum, diskInodes s2.disk n = diskInodes s1.disk n)
    (hrest : s2 = { s1 with disk := s2.disk, log := s2.log, inode := s2.inode })
    (hentries : ∀ j ≠ i, s2.inode j = s1.inode j)
    (hstored : diskInodes s2.disk (s.inode i).inum = (s2.inode i).din ∨
      off + src.length ≤ (s.inode i).din.size ∧ s2 = s1) :
    Written i off src s s2 := by
  have hinum : (s2.inode i).inum = (s.inode i).inum := by rw [hinode]; exact hf.same.inum
  have htype : (s2.inode i).din.type = (s.inode i).din.type := by rw [hinode]; exact hf.same.type
  have hself : (s2.volume i).din (s.inode i).inum = (s2.inode i).din := by
    rw [← hinum, State.volume_din_self]
  have hother : ∀ n ≠ (s.inode i).inum, (s2.volume i).din n = (s1.volume i).din n := by
    intro n hn
    show update _ _ _ n = update _ _ _ n
    rw [update_of_ne (by rwa [hinum]), update_of_ne (by rwa [hf.same.inum]),
      hothers n hn]
  have hother1 : ∀ n ≠ (s.inode i).inum, (s1.volume i).din n = (s.volume i).din n := by
    intro n hn
    show update _ _ _ n = update _ _ _ n
    rw [update_of_ne (by rwa [hf.same.inum]), update_of_ne hn, hf.same.inodes]
  have htrees : ∀ n k, ((s2.volume i).din n).root k = ((s1.volume i).din n).root k := fun n k => by
    by_cases hn : n = (s.inode i).inum
    · rw [hn, hself, hinode, ← hf.same.inum, State.volume_din_self]
      rfl
    · rw [hother n hn]
  obtain ⟨hsound, hnode, hbyte⟩ := hf.sound.sameTrees htrees hdisk
  have hsize : (s2.inode i).din.size = max (s.inode i).din.size (off + src.length) := by rw [hinode]
  -- an offset inside a file is in one of its blocks
  have hblock : ∀ {x m}, x < m → m ≤ maxFile * bSize → x / bSize < maxFile := fun hx hm =>
    Nat.div_lt_of_lt_mul (by rw [Nat.mul_comm]; omega)
  refine ⟨hinum, htype, hsound, hsize, ?_, fun n hn => ?_, fun hno bn hbn hlt => ?_, fun n x hx => ?_,
    fun p hp => (hnode p).trans (hf.kept p hp), ?_, fun j hj => (hentries j hj).trans (hf.same.others j hj), ?_,
    fun n hn => (hothers n hn).trans (congrFun hf.same.inodes n), ?_⟩
  · unfold Volume.content
    rw [hself, hsize, State.volume_din_self, ← map_overwrite _ _ hoff]
    refine List.map_congr_left fun x hx => ?_
    rw [hbyte, hover _ x fun _ => hblock (List.mem_range.mp hx) (by omega), if_pos rfl]
  · unfold Volume.content
    rw [hother n hn, hother1 n hn]
    refine List.map_congr_left fun x _ => ?_
    rw [hbyte, hover n x fun h => absurd h hn, if_neg hn]
  · rw [hself, hsize] at hlt
    rw [hnode]
    by_cases hold : bn * bSize < (s.inode i).din.size
    · rw [hf.kept _ (hno bn hbn (by rwa [State.volume_din_self]))]
      exact hno bn hbn (by rwa [State.volume_din_self])
    · -- a block that was beyond the size is one of those written
      refine hf.filled _ (mem_span.mpr ⟨bn * bSize - off, by omega, ?_⟩)
      rw [show off + (bn * bSize - off) = bn * bSize by omega,
        Nat.mul_div_cancel _ (by decide)]
      exact mem_blockTrail _ _
  · rw [hbyte, hover n x hx]
  · rw [hrest, hf.same.file, hf.same.ofile, hf.same.cwd, hf.same.devsw]
  · obtain ⟨addrs, haddrs⟩ := hf.same.entry
    exact ⟨_, addrs, by rw [hinode, haddrs]⟩
  · refine hstored.imp id fun ⟨hle, heq⟩ => ⟨hle, ?_, fun hnone => ?_⟩
    · rw [heq, hf.same.inodes]
    · rw [heq]
      exact hf.din_of_missing htype0 hnone

lemma addrs_lt (hsound : (s.volume i).Sound) (htype : (s.inode i).din.type ≠ 0) (k : Fin nAddrs) :
    (s.inode i).din.addrs k < 2 ^ 32 := by
  have htop := node_top htype k
  by_cases h0 : (s.inode i).din.addrs k = 0
  · omega
  · have := (hsound.range (p := (((s.inode i).inum, k), [])) (by rwa [htop])).2
    rw [htop] at this
    unfold fsSize at this
    omega

lemma writei_spec (hsound : (s.volume i).Sound)
    (htype : (s.inode i).din.type ≠ 0) (hdev : (s.inode i).din.type ≠ tDev)
    (hinum : (s.inode i).inum < nInodes) (hmax : (s.inode i).din.size ≤ maxFile * bSize)
    (hoff : off ≤ (s.inode i).din.size) (hlen : off + src.length ≤ maxFile * bSize) :
    wp (writei i src off) s
      (fun r s' => r = src.length ∧ Written i off src s s')
      (lacks i (span (s.inode i).inum off src.length) (chunks off src.length + 1) s) := by
  have hlt : off + src.length < 2 ^ 32 := by
    rw [maxFile_eq, bSize_eq] at hlen
    omega
  unfold writei
  rw [wp_bind, wp_get]
  dsimp only
  rw [if_neg hdev, Nat.mod_eq_of_lt hlt, if_neg (by omega), if_neg (by omega), wp_bind]
  refine (writeLoop_spec (le_refl _) hlen hsound htype).mono ?_
    fun _ _ h => h.mono (le_refl _) (Nat.le_succ _)
  rintro r s1 ⟨hs1, rfl, hover⟩
  rw [wp_bind, wp_get]
  have hsize := hs1.same.size
  rw [hsize]
  split
  · rename_i hgrow
    simp only [modifyDin, modifyInode, wp_bind, wp_get, wp_set, wp_pure, true_and]
    let d : Dinode := { (s1.inode i).din with size := off + src.length }
    let s2 := s1.setInode i { s1.inode i with din := d }
    have hinode : s2.inode i = { s1.inode i with din := d } := update_self ..
    have huses : Uses (missing (s.volume i) (span (s.inode i).inum off src.length))
        (chunks off src.length) s s2 := ⟨hs1.uses.free, hs1.uses.lh, hs1.uses.outstanding⟩
    have hfits : d.Fits :=
      ⟨hlt, addrs_lt hs1.sound (by rw [hs1.same.type]; exact htype)⟩
    have hinum1 : (s1.inode i).inum < nInodes := by rwa [hs1.same.inum]
    refine (iupdate_spec s2 i).mono ?_ fun _ _ h => h.after huses
    rintro - s3 rfl
    have hdisk : (s2.updated i).disk = putInode s1.disk (s1.inode i).inum d := by
      show putInode _ (s2.inode i).inum (s2.inode i).din = _
      rw [hinode]
      rfl
    refine .of_fills htype hoff hmax hlen hs1 hover ?_ (fun b hb => ?_) (fun n hn => ?_) rfl
      (fun j hj => update_of_ne hj _ _) (.inl ?_)
    · rw [Nat.max_eq_right (by omega)]
      exact hinode
    · rw [hdisk, putInode_of_ge hinum1 hb]
    · rw [hdisk, diskInodes_putInode _ hinum1 hfits, update_of_ne (by rwa [hs1.same.inum])]
    · rw [hdisk, diskInodes_putInode _ hinum1 hfits, hs1.same.inum, update_self]
      exact congrArg Inode.din hinode.symm
  · rename_i hsame
    refine ⟨rfl, .of_fills htype hoff hmax hlen hs1 hover ?_ (fun _ _ => rfl) (fun _ _ => rfl) rfl
      (fun _ _ => rfl) (.inr ⟨by omega, rfl⟩)⟩
    rw [Nat.max_eq_left (by omega), ← hsize]

lemma writei_out_of_range (hdev : (s.inode i).din.type ≠ tDev) (hoff : off < 2 ^ 32) (hn : src.length < 2 ^ 32)
    (hout : ¬ (off ≤ (s.inode i).din.size ∧ off + src.length ≤ maxFile * bSize)) :
    writei i src off s = .ok (-1) s := by
  unfold writei
  rw [bind_run, get_run]
  dsimp only
  rw [if_neg hdev]
  by_cases h1 : (s.inode i).din.size < off ∨ (off + src.length) % 2 ^ 32 < off
  · rw [if_pos h1]
    rfl
  · have hlt : off + src.length < 2 ^ 32 := by omega
    rw [if_neg h1, if_pos (by rw [Nat.mod_eq_of_lt hlt]; omega)]
    rfl

/-! ### Files without holes -/

lemma node_trail {k : Fin nAddrs} {r : List (Fin nIndirect)} :
    ∀ {q : List (Fin nIndirect)}, v.node ((n, k), q ++ r) ≠ 0 →
      ∀ p ∈ trail n k q r, v.node p ≠ 0 := by
  induction r with
  | nil => exact fun _ p hp => absurd hp (Finset.notMem_empty p)
  | cons j r ih =>
    intro q hne p hp
    rw [show q ++ j :: r = (q ++ [j]) ++ r by simp] at hne
    rcases Finset.mem_union.mp hp with hp | hp
    · rw [Finset.mem_singleton.mp hp]
      exact Forest.node_ne_of_append hne
    · exact ih hne p hp

lemma node_blockTrail (h : v.node (blockPlace n bn) ≠ 0) (hp : p ∈ blockTrail n bn) : v.node p ≠ 0 := by
  rcases Finset.mem_union.mp hp with hp | hp
  · rw [Finset.mem_singleton.mp hp]
    exact Forest.node_ne_of_append (q := []) (r := (blockPath bn).2) h
  · exact node_trail (q := []) h p hp

lemma missing_of_noHoles (h : v.NoHoles n)
    (hmax : (v.din n).size ≤ maxFile * bSize) (hlen : off + len ≤ (v.din n).size) :
    missing v (span n off len) = 0 := by
  unfold missing
  rw [Finset.card_eq_zero, Finset.filter_eq_empty_iff]
  intro p hp
  obtain ⟨t, ht, hp⟩ := mem_span.mp hp
  have hmul := Nat.div_mul_le_self (off + t) bSize
  exact node_blockTrail (h _ (Nat.div_lt_of_lt_mul (by rw [Nat.mul_comm]; omega)) (by omega)) hp

lemma Fails.none {e : Stop} : ¬ Fails s 0 0 e := by
  intro h
  cases h with
  | noBlocks _ h | tooBig _ h0 _ | noTrans _ h0 _ => omega

/-- `readi` returns what was last written, at every index level.

An inode of a sound volume that is no device is written at `off`. Inside the limits, with enough free
blocks and in a transaction, `writei` returns the number of bytes, unless the log is too small for
them; the size, what `readi` returns for any piece of the file, and the other files are then what they
should be. If the file has no holes, `readi` does return; otherwise it has to allocate the missing
blocks. Outside the limits `writei` returns `-1` and changes nothing. That `bget` finds a buffer is left out
of this model. -/
theorem writei_then_readi {off : Nat} {src : List UInt8} (hsound : (s.volume i).Sound)
    (htype : (s.inode i).din.type ≠ 0) (hdev : (s.inode i).din.type ≠ tDev)
    (hinum : (s.inode i).inum < nInodes) (hmax : (s.inode i).din.size ≤ maxFile * bSize)
    (hoff : off < 2 ^ 32) (hn : src.length < 2 ^ 32) :
    (off ≤ (s.inode i).din.size → off + src.length ≤ maxFile * bSize →
      missing (s.volume i) (span (s.inode i).inum off src.length) ≤ freeBlocks s.disk →
      0 < s.log.outstanding →
      wp (writei i src off) s
        (fun r s' =>
          r = src.length ∧
          (s'.inode i).din.size = max (s.inode i).din.size (off + src.length) ∧
          (∀ off' n', off' ≤ (s'.inode i).din.size → off' + n' < 2 ^ 32 →
            let piece := ((((s.volume i).content (s.inode i).inum).take off ++ src ++
              ((s.volume i).content (s.inode i).inum).drop (off + src.length)).drop off').take n'
            (∀ r s'', readi i off' n' s' = .ok r s'' → r = some piece) ∧
            ((s.volume i).NoHoles (s.inode i).inum →
              ∃ s'', readi i off' n' s' = .ok (some piece) s'')) ∧
          ∀ m, m ≠ (s.inode i).inum → (s'.volume i).content m = (s.volume i).content m)
        fun e _ => e = .panic "too big a transaction" ∧
          logSize ≤ s.log.lh.length +
            3 * missing (s.volume i) (span (s.inode i).inum off src.length) +
            (chunks off src.length + 1)) ∧
    (¬ (off ≤ (s.inode i).din.size ∧ off + src.length ≤ maxFile * bSize) →
      writei i src off s = .ok (-1) s) := by
  refine ⟨fun hin hlen hfree hout => ?_, writei_out_of_range hdev hoff hn⟩
  refine (writei_spec hsound htype hdev hinum hmax hin hlen).mono ?_ fun e _ he => ?_
  · rintro r s' ⟨rfl, hw⟩
    refine ⟨rfl, hw.size, fun off' n' hoff' hn' => ?_, hw.others⟩
    have hmax' : (s'.inode i).din.size ≤ maxFile * bSize := by
      rw [hw.size]
      omega
    have hread := readi_spec (i := i) (s := s') hw.sound (by rw [hw.type]; exact htype)
      (by rw [hw.type]; exact hdev) hmax' hoff' hn'
    rw [hw.inum, hw.content] at hread
    refine ⟨fun r s'' hr => (hread.ok hr).1, fun hno => ?_⟩
    have hnone : missing (s'.volume i)
        (span (s.inode i).inum off' (min n' ((s'.inode i).din.size - off'))) = 0 := by
      have hdin : (s'.volume i).din (s.inode i).inum = (s'.inode i).din := by
        rw [← hw.inum, State.volume_din_self]
      refine missing_of_noHoles (hw.noHoles hno) (by rwa [hdin]) ?_
      rw [hdin]
      omega
    rw [hnone] at hread
    obtain ⟨r, s'', hr, hq, -⟩ := (hread.mono (fun _ _ h => h) fun _ _ h => h.none).returns
    exact ⟨s'', hq ▸ hr⟩
  · cases he with
    | noBlocks _ h | noTrans _ _ h => omega
    | tooBig he _ h => exact ⟨he, h⟩

end

/-! ### A disk on which nothing is allocated -/

/-- The blocks before the data region are marked as used, everything else is zero. -/
def blankDisk (b : Nat) : Block :=
  if b = bmapStart then fun i => if i.val < 8 then 255 else if i.val = 8 then 15 else 0
  else Bytes.zero

lemma used_blankDisk (b : Nat) : used blankDisk b = decide (b < dataStart) := by
  have hff : ∀ k < 8, (255 : UInt8).toNat.testBit k := by decide
  have hf : ∀ k < 8, (15 : UInt8).toNat.testBit k = decide (k < 4) := by decide
  unfold used blankDisk
  by_cases hb : bblock b = bmapStart
  · have hlt : b < 4096 := by
      unfold bblock bpb bmapStart at hb
      omega
    have hmod : b % bpb = b := Nat.mod_eq_of_lt hlt
    have hbyte : b / 8 < bSize := by
      rw [bSize_eq]
      omega
    rw [if_pos hb, hmod, Bytes.bit, Bytes.byte, dif_pos hbyte]
    unfold dataStart
    by_cases h8 : b / 8 < 8
    · rw [if_pos h8, hff _ (by omega)]
      simp
      omega
    · by_cases he : b / 8 = 8
      · rw [if_neg h8, if_pos he, hf _ (by omega)]
        congr 1
        exact propext (by omega)
      · rw [if_neg h8, if_neg he]
        simp
        omega
  · have hge : ¬ b < dataStart := fun h => hb (by
      unfold dataStart at h
      unfold bblock bpb bmapStart
      omega)
    rw [if_neg hb]
    simp [Bytes.bit, hge]

lemma diskInodes_blankDisk (n : Nat) : (diskInodes blankDisk n).type = 0 := by
  unfold diskInodes
  split
  · have := iblock_range ‹n < nInodes›
    unfold diskInode blankDisk
    rw [if_neg (by omega)]
    simp [getDinode, Bytes.half, short]
  · rfl

/-- Entry 0 of the inode cache holds the empty file 2, the only inode there is; an operation has
begun. -/
def emptyFile : State where
  disk := blankDisk
  log := ⟨1, false, false, []⟩
  inode _ := ⟨2, 1, true, true, { Dinode.zero with type := tFile, nlink := 1 }⟩
  file _ := ⟨.none, 0, false, false, 0, 0⟩
  ofile _ _ := none
  cwd _ := none
  devsw _ := ⟨none, none⟩

lemma emptyFile_sound : (emptyFile.volume 0).Sound := by
  have hroot : ∀ k, (emptyFile.volume 0).forest.root k = 0 := fun ⟨n, k⟩ => by
    show (if ((emptyFile.volume 0).din n).type = 0 then 0 else ((emptyFile.volume 0).din n).addrs k) = 0
    by_cases hn : n = 2
    · subst hn
      rfl
    · have hdin : (emptyFile.volume 0).din n = diskInodes blankDisk n := update_of_ne hn _ _
      rw [hdin, if_pos (diskInodes_blankDisk n)]
  have hnode : ∀ p, (emptyFile.volume 0).node p = 0 := fun ⟨k, q⟩ =>
    Forest.node_of_root_null (hroot k)
  have hfree : ∀ b, ¬ (emptyFile.volume 0).InUse b := by
    rintro b ⟨hlo, -, hu⟩
    have : decide (b < dataStart) := (used_blankDisk b).symm.trans hu
    simp at this
    omega
  refine ⟨⟨hfree 0, fun p hp => absurd (hnode p) hp, fun b hb => absurd hb (hfree b),
    fun p q _ hp => absurd (hnode p) hp⟩, fun b hb => ?_⟩
  exact (used_blankDisk b).trans (by simpa using hb)

lemma freeBlocks_pos (hx : x < fsSize) (hu : used disk x = false) : 0 < freeBlocks disk := by
  unfold freeBlocks
  exact Finset.card_pos.mpr ⟨x, Finset.mem_filter.mpr ⟨Finset.mem_range.mpr hx, hu⟩⟩

theorem writei_then_readi_emptyFile :
    wp (writei 0 [1, 2, 3] 0) emptyFile
      (fun r s' => r = 3 ∧ (s'.inode 0).din.size = 3 ∧
        ∃ s'', readi 0 1 5 s' = .ok (some [2, 3]) s'')
      fun _ _ => False := by
  have hmissing : missing (emptyFile.volume 0) (span 2 0 3) ≤ 1 := by
    rw [span_block (by decide) (by decide)]
    exact (Finset.card_filter_le _ _).trans (by decide)
  have hfree : 0 < freeBlocks emptyFile.disk :=
    freeBlocks_pos (x := 100) (by decide) ((used_blankDisk 100).trans (by decide))
  have h := (@writei_then_readi 0 emptyFile 0 [1, 2, 3] emptyFile_sound
    (by decide) (by decide) (by decide) (by decide) (by decide) (by decide)).1
    (by decide) (by decide) (hmissing.trans hfree) (by decide)
  refine h.mono ?_ ?_
  · rintro r s' ⟨hr, hsize, hread, -⟩
    refine ⟨hr, hsize, ?_⟩
    exact (hread 1 5 (by rw [hsize]; decide) (by decide)).2
      fun bn _ hlt => absurd hlt (Nat.not_lt_zero _)
  · rintro e - ⟨-, hlog⟩
    have : missing (emptyFile.volume 0) (span (emptyFile.inode 0).inum 0 [1, 2, 3].length) ≤ 1 := hmissing
    have h0 : emptyFile.log.lh.length = 0 := rfl
    have h1 : chunks 0 [(1 : UInt8), 2, 3].length = 1 := by decide
    rw [h0, h1] at hlog
    unfold logSize at hlog
    omega

end Xv6.Fs
