import Xv6.Fs.Layout
import Xv6.Lib.Forest

/-!
# Volumes: inodes, index trees and contents

A `Volume` is what the file system stands for at some moment: an inode for each number and the
blocks. The inodes need not be the ones on disk, since the kernel works on cached copies.

The block addresses of an inode are the roots of thirteen trees: ten of height 0 (the direct data
blocks) and one for each index level. The places of this forest are the *positions* that can refer
to a block. `Sound` says that the free bit map and the positions agree: every data block marked as
used is referred to by exactly one position, and only such blocks are. The content of a file is read
through the position of each of its blocks (`blockPath`); a block that is missing counts as zeroes.
-/

namespace Xv6.Fs

open Function (update update_self update_of_ne)
open Lib Disk

/-- A position in the index trees: inode number, entry of `addrs`, and the entries of the index
blocks on the way. -/
abbrev Place := (Nat × Fin nAddrs) × List (Fin nIndirect)

/-- Inodes and blocks. -/
structure Volume where
  din : Nat → Dinode
  disk : Nat → Block

/-- The inodes on disk. -/
def diskInodes (disk : Nat → Block) (n : Nat) : Dinode :=
  if n < nInodes then diskInode disk n else Dinode.zero

lemma diskInodes_congr {disk disk' : Nat → Block}
    (h : ∀ b, inodeStart ≤ b → b < bmapStart → disk' b = disk b) : diskInodes disk' = diskInodes disk := by
  funext n
  unfold diskInodes
  split
  · exact diskInode_congr ‹_› h
  · rfl

/-! ### The position of a block of a file -/

/-- The way from an inode to its `bn`-th block. -/
def blockPath (bn : Nat) : Fin nAddrs × List (Fin nIndirect) :=
  if bn < nDirect then (Fin.ofNat _ bn, [])
  else
    let bn := bn - nDirect
    if bn < nIndirect then (Fin.ofNat _ nDirect, [Fin.ofNat _ bn])
    else
      let bn := bn - nIndirect
      if bn < nDIndirect then
        (Fin.ofNat _ (nDirect + 1), [Fin.ofNat _ (bn / nIndirect), Fin.ofNat _ (bn % nIndirect)])
      else
        let bn := bn - nDIndirect
        (Fin.ofNat _ (nDirect + 2), [Fin.ofNat _ (bn / nDIndirect),
          Fin.ofNat _ (bn % nDIndirect / nIndirect), Fin.ofNat _ (bn % nDIndirect % nIndirect)])

/-- The position of the `bn`-th block of inode `n`. -/
def blockPlace (n bn : Nat) : Place := ((n, (blockPath bn).1), (blockPath bn).2)

lemma blockPath_length (bn : Nat) : (blockPath bn).2.length = level (blockPath bn).1 := by
  unfold blockPath
  split
  · rename_i h
    unfold nDirect at h
    simp only [List.length_nil, level, Fin.ofNat, nAddrs, nDirect]
    omega
  · dsimp only
    split
    · rfl
    · split <;> rfl

/-- The block that a path to a data block belongs to: the inverse of `blockPath`. -/
def pathBlock : Fin nAddrs × List (Fin nIndirect) → Nat
  | (k, []) => k
  | (_, [a]) => nDirect + a
  | (_, [a, b]) => nDirect + nIndirect + (a * nIndirect + b)
  | (_, a :: b :: c :: _) =>
    nDirect + nIndirect + nDIndirect + ((a * nIndirect + b) * nIndirect + c)

lemma pathBlock_blockPath {bn : Nat} (h : bn < maxFile) : pathBlock (blockPath bn) = bn := by
  rw [maxFile_eq] at h
  unfold blockPath
  split
  · rename_i h1
    rw [nDirect_eq] at h1
    rw [pathBlock, Fin.val_ofNat, nAddrs_eq]
    omega
  · rename_i h1
    dsimp only
    split
    · rename_i h2
      rw [nDirect_eq] at h1 h2
      rw [nIndirect_eq] at h2
      rw [pathBlock, Fin.val_ofNat, nDirect_eq, nIndirect_eq]
      omega
    · rename_i h2
      split
      · rename_i h3
        rw [nDirect_eq] at h1 h2 h3
        rw [nIndirect_eq] at h2 h3
        rw [nDIndirect_eq] at h3
        rw [pathBlock, Fin.val_ofNat, Fin.val_ofNat, nDirect_eq, nIndirect_eq]
        omega
      · rename_i h3
        rw [nDirect_eq] at h1 h2 h3
        rw [nIndirect_eq] at h2 h3
        rw [nDIndirect_eq] at h3
        rw [pathBlock, Fin.val_ofNat, Fin.val_ofNat, Fin.val_ofNat, nDirect_eq, nIndirect_eq,
          nDIndirect_eq]
        omega

lemma blockPlace_inj {n n' bn bn' : Nat} (h : bn < maxFile) (h' : bn' < maxFile)
    (heq : blockPlace n bn = blockPlace n' bn') : n = n' ∧ bn = bn' := by
  have hn : n = n' := congrArg (fun p : Place => p.1.1) heq
  have hpath : blockPath bn = blockPath bn' :=
    Prod.ext (congrArg (fun p : Place => p.1.2) heq) (congrArg (fun p : Place => p.2) heq)
  exact ⟨hn, by rw [← pathBlock_blockPath h, hpath, pathBlock_blockPath h']⟩

/-! ### The index trees -/

namespace Volume

/-- The index trees of all allocated inodes. -/
def forest (v : Volume) : Forest (Nat × Fin nAddrs) (Fin nIndirect) where
  root := fun k => (v.din k.1).root k.2
  height := fun k => level k.2
  child := fun b j => (v.disk b).word j

/-- The block that a position refers to, `0` if there is none. -/
def node (v : Volume) (p : Place) : Nat := v.forest.node p

/-- A block of the data region that is marked as used. -/
def InUse (v : Volume) (b : Nat) : Prop := dataStart ≤ b ∧ b < fsSize ∧ used v.disk b = true

/-- The free bit map and the index trees agree. -/
structure Sound (v : Volume) : Prop where
  excl : Exclusive v.node v.InUse
  reserved : ∀ b, b < dataStart → used v.disk b = true

/-! ### Contents -/

/-- Byte `off` of file `n`. -/
def byte (v : Volume) (n off : Nat) : UInt8 :=
  if v.node (blockPlace n (off / bSize)) = 0 then 0
  else (v.disk (v.node (blockPlace n (off / bSize)))).get (off % bSize)

/-- The content of file `n`. -/
def content (v : Volume) (n : Nat) : List UInt8 := (List.range (v.din n).size).map (v.byte n)

/-- File `n` has no holes: the blocks it needs for its size are all there. -/
def NoHoles (v : Volume) (n : Nat) : Prop :=
  ∀ bn, bn < maxFile → bn * bSize < (v.din n).size → v.node (blockPlace n bn) ≠ 0

/-! ### Linking a fresh block -/

section Link

variable {v v' : Volume} {n : Nat} {k : Fin nAddrs} {q : List (Fin nIndirect)} {x : Nat}

lemma node_of_le (h : q.length ≤ level k) :
    v.node ((n, k), q) = walk v.forest.child (v.forest.root (n, k)) q := Forest.node_of_le h

variable {p : Place}

lemma Sound.range (h : v.Sound) (hp : v.node p ≠ 0) : dataStart ≤ v.node p ∧ v.node p < fsSize :=
  ⟨(h.excl.allocated p hp).1, (h.excl.allocated p hp).2.1⟩

lemma Sound.used (h : v.Sound) (hp : v.node p ≠ 0) : Fs.used v.disk (v.node p) :=
  (h.excl.allocated p hp).2.2

lemma Sound.dataStart_le (h : v.Sound) (hx : Fs.used v.disk x = false) : dataStart ≤ x := by
  by_contra hlt
  rw [h.reserved x (by omega)] at hx
  cases hx

lemma Sound.node_ne (h : v.Sound) (hx : Fs.used v.disk x = false) (hp : v.node p ≠ 0) : v.node p ≠ x := by
  intro heq
  have := h.used hp
  rw [heq, hx] at this
  cases this

/-- Block `x`, empty until now, is at position `p₀`, and nothing else has changed. -/
structure Extends (v v' : Volume) (p₀ : Place) (x : Nat) : Prop where
  sound : v'.Sound
  node : ∀ p, v'.node p = if p = p₀ then x else v.node p
  byte : ∀ n off, v'.byte n off = v.byte n off

lemma byte_of_extends {p₀ : Place} (hnull : v.node p₀ = 0)
    (hnode : ∀ p, v'.node p = if p = p₀ then x else v.node p) (hzero : v'.disk x = Bytes.zero)
    (hdata : ∀ n bn, v.node (blockPlace n bn) ≠ 0 →
      v'.disk (v.node (blockPlace n bn)) = v.disk (v.node (blockPlace n bn))) (n off : Nat) :
    v'.byte n off = v.byte n off := by
  unfold byte
  rw [hnode]
  by_cases hp : blockPlace n (off / bSize) = p₀
  · rw [if_pos hp, hp, hnull, hzero]
    simp
  · rw [if_neg hp]
    by_cases hne : v.node (blockPlace n (off / bSize)) = 0
    · simp [hne]
    · rw [if_neg hne, if_neg hne, hdata n _ hne]

/-- Entry `k` of inode `n` is set to the fresh block `x`. -/
def linkTop (v : Volume) (n : Nat) (k : Fin nAddrs) (x : Nat) : Volume :=
  ⟨Function.update v.din n ((v.din n).setAddr k x), allocBlock v.disk x⟩

/-- Entry `j` of the index block `b` is set to the fresh block `x`. -/
def linkEntry (v : Volume) (b j x : Nat) : Volume :=
  ⟨v.din, Function.update (allocBlock v.disk x) b ((allocBlock v.disk x b).setWord j x)⟩

lemma inUse_allocBlock (hx : dataStart ≤ x) (hlt : x < fsSize)
    (hused : ∀ b < fsSize, Fs.used v'.disk b = Fs.used (allocBlock v.disk x) b) (b : Nat) :
    v'.InUse b ↔ b = x ∨ v.InUse b := by
  unfold InUse
  constructor
  · rintro ⟨h1, h2, h3⟩
    rw [hused b h2, used_allocBlock hx h2] at h3
    by_cases hb : b = x
    · exact .inl hb
    · exact .inr ⟨h1, h2, by simpa [hb] using h3⟩
  · rintro (rfl | ⟨h1, h2, h3⟩)
    · exact ⟨hx, hlt, by rw [hused b hlt, used_allocBlock hx hlt]; simp⟩
    · exact ⟨h1, h2, by rw [hused b h2, used_allocBlock hx h2, h3]; simp⟩

/-- A volume in which the fresh block `x` has been put at the empty position `p₀` is sound. -/
lemma Sound.extends (h : v.Sound) {p₀ : Place} (hx : Fs.used v.disk x = false) (hlt : x < fsSize)
    (hnull : v.node p₀ = 0) (hnode : ∀ p, v'.node p = if p = p₀ then x else v.node p)
    (hused : ∀ b < fsSize, Fs.used v'.disk b = Fs.used (allocBlock v.disk x) b) (hzero : v'.disk x = Bytes.zero)
    (hdata : ∀ n bn, v.node (blockPlace n bn) ≠ 0 →
      v'.disk (v.node (blockPlace n bn)) = v.disk (v.node (blockPlace n bn))) :
    Extends v v' p₀ x := by
  have hx0 := h.dataStart_le hx
  refine ⟨⟨?_, ?_⟩, hnode, byte_of_extends hnull hnode hzero hdata⟩
  · refine h.excl.grow (fun hu => ?_) ?_ hnull hnode (inUse_allocBlock hx0 hlt hused)
    · rw [hu.2.2] at hx
      cases hx
    · unfold dataStart at hx0
      omega
  · intro b hb
    have hbf : b < fsSize := by omega
    rw [hused b hbf, used_allocBlock hx0 hbf, h.reserved b hb]
    simp

lemma Sound.linkTop (h : v.Sound) (hx : Fs.used v.disk x = false) (hlt : x < fsSize)
    (htype : (v.din n).type ≠ 0) (hnull : (v.din n).addrs k = 0) :
    Extends v (v.linkTop n k x) ((n, k), []) x := by
  have hx0 := h.dataStart_le hx
  have hkeep : ∀ p, v.node p ≠ 0 → (v.linkTop n k x).disk (v.node p) = v.disk (v.node p) :=
    fun p hp => allocBlock_of_ne hlt (h.node_ne hx hp) (.inr (h.range hp).1)
  have hroot : v.forest.root (n, k) = 0 := by
    show (if (v.din n).type = 0 then 0 else (v.din n).addrs k) = 0
    rw [if_neg htype, hnull]
  refine h.extends hx hlt (Forest.node_of_root_null hroot) ?_ (fun _ _ => rfl) (allocBlock_self _ _)
    fun m bn => hkeep _
  refine Forest.node_link_root rfl hroot ?_ ?_ ?_
  · funext ⟨m, j⟩
    show (if (update v.din n _ m).type = 0 then 0 else (update v.din n _ m).addrs j)
      = _
    by_cases hm : m = n
    · rw [hm, update_self, Dinode.setAddr_type, if_neg htype, Dinode.setAddr_addrs]
      by_cases hj : j = k
      · rw [hj, update_self, update_self]
      · rw [update_of_ne hj, update_of_ne fun h => hj (congrArg Prod.snd h)]
        exact (if_neg htype).symm
    · rw [update_of_ne hm, update_of_ne fun h => hm (congrArg Prod.fst h)]
      rfl
  · intro i
    show ((v.linkTop n k x).disk x).word i = 0
    rw [show (v.linkTop n k x).disk x = Bytes.zero from allocBlock_self _ _, Bytes.word_zero]
  · intro p i hp
    show ((v.linkTop n k x).disk (v.node p)).word i = _
    rw [hkeep p hp]
    rfl

lemma Sound.linkEntry (h : v.Sound) (hx : Fs.used v.disk x = false) (hlt : x < fsSize)
    {j : Fin nIndirect} (hq : q.length < level k) (hparent : v.node ((n, k), q) ≠ 0)
    (hnull : (v.disk (v.node ((n, k), q))).word j = 0) :
    Extends v (v.linkEntry (v.node ((n, k), q)) j x) ((n, k), q ++ [j]) x := by
  have hx0 := h.dataStart_le hx
  have hpx := h.node_ne hx hparent
  have hp0 := (h.range hparent).1
  -- the other blocks of the trees are untouched, and so are the other entries of this one
  have hkeep : ∀ p, v.node p ≠ 0 → p ≠ ((n, k), q) →
      (v.linkEntry (v.node ((n, k), q)) j x).disk (v.node p) = v.disk (v.node p) := by
    intro p hp hne
    have hneq : v.node p ≠ v.node ((n, k), q) := fun heq => hne (h.excl.inj _ _ heq hp)
    show update _ _ _ _ = _
    rw [update_of_ne hneq, allocBlock_of_ne hlt (h.node_ne hx hp) (.inr (h.range hp).1)]
  have hself : (v.linkEntry (v.node ((n, k), q)) j x).disk (v.node ((n, k), q)) =
      (v.disk (v.node ((n, k), q))).setWord j x := by
    show update _ _ _ _ = _
    rw [update_self, allocBlock_of_ne hlt hpx (.inr hp0)]
  have hzero : (v.linkEntry (v.node ((n, k), q)) j x).disk x = Bytes.zero := by
    show update _ _ _ _ = _
    rw [update_of_ne hpx.symm, allocBlock_self]
  have hempty : v.node ((n, k), q ++ [j]) = 0 := by
    rw [node, Forest.node_snoc hq hparent]
    exact hnull
  refine h.extends hx hlt hempty ?_ ?_ hzero ?_
  · refine Forest.node_link_child rfl rfl hq hparent hempty ?_ ?_ ?_
    · intro i
      show ((v.linkEntry (v.node ((n, k), q)) j x).disk x).word i = 0
      rw [hzero, Bytes.word_zero]
    · show ((v.linkEntry (v.node ((n, k), q)) j x).disk (v.node ((n, k), q))).word j = x
      have hj : j.val < 128 := j.isLt
      unfold fsSize at hlt
      rw [hself, Bytes.word_setWord_self _ (by rw [bSize_eq]; omega) (by omega)]
    · intro p i hp hi
      show ((v.linkEntry (v.node ((n, k), q)) j x).disk (v.node p)).word i = (v.disk (v.node p)).word i
      by_cases hpq : p = ((n, k), q)
      · rw [hpq, hself, Bytes.word_setWord_ne _ fun hij => hi hpq (Fin.ext hij)]
      · rw [hkeep p hp hpq]
  · exact fun b hb => used_update hb (.inr hp0)
  · intro m bn hne
    refine hkeep _ hne fun heq => ?_
    -- a data block is not an index block
    have hlen := blockPath_length bn
    have h1 : (blockPath bn).1 = k := congrArg (fun p : Place => p.1.2) heq
    have h2 : (blockPath bn).2 = q := congrArg (fun p : Place => p.2) heq
    rw [h1, h2] at hlen
    omega

end Link

/-! ### Writing a data block -/

section Store

variable {v v' : Volume} {n bn : Nat} {data : Block}

/-- Block `b` gets another content. -/
def store (v : Volume) (b : Nat) (data : Block) : Volume := ⟨v.din, Function.update v.disk b data⟩

lemma Sound.node_store (h : v.Sound) (p : Place) :
    (v.store (v.node (blockPlace n bn)) data).node p = v.node p := by
  refine Forest.node_congr ?_ ?_ ?_ p
  · rfl
  · rfl
  intro k q j hq hk
  show ((update v.disk (v.node (blockPlace n bn)) data) (v.node (k, q))).word j =
    (v.disk (v.node (k, q))).word j
  rw [update_of_ne]
  intro heq
  have hplace := h.excl.inj _ _ heq hk
  have hlen := blockPath_length bn
  have h1 : (blockPath bn).1 = k.2 := (congrArg (fun p : Place => p.1.2) hplace).symm
  have h2 : (blockPath bn).2 = q := (congrArg (fun p : Place => p.2) hplace).symm
  rw [h1, h2] at hlen
  have : q.length < level k.2 := hq
  omega

lemma Sound.store (h : v.Sound) (hne : v.node (blockPlace n bn) ≠ 0) :
    (v.store (v.node (blockPlace n bn)) data).Sound := by
  have hb := (h.range hne).1
  refine ⟨h.excl.congr h.node_store fun b => ?_, fun b hlt => ?_⟩
  · unfold InUse
    constructor
    · rintro ⟨h1, h2, h3⟩
      exact ⟨h1, h2, (used_update h2 (.inr hb)).symm.trans h3⟩
    · rintro ⟨h1, h2, h3⟩
      exact ⟨h1, h2, (used_update h2 (.inr hb)).trans h3⟩
  · have hbf : b < fsSize := hlt.trans_le (by decide)
    exact (used_update hbf (.inr hb)).trans (h.reserved b hlt)

lemma Sound.byte_store (h : v.Sound) (hne : v.node (blockPlace n bn) ≠ 0) (hbn : bn < maxFile)
    {m off : Nat} (hoff : m = n → off / bSize < maxFile) : (v.store (v.node (blockPlace n bn)) data).byte m off =
      if m = n ∧ off / bSize = bn then data.get (off % bSize) else v.byte m off := by
  unfold byte
  rw [h.node_store]
  by_cases hplace : m = n ∧ off / bSize = bn
  · rw [if_pos hplace, hplace.1, hplace.2, if_neg hne]
    show (update v.disk _ data _).get _ = _
    rw [update_self]
  · rw [if_neg hplace]
    by_cases hnull : v.node (blockPlace m (off / bSize)) = 0
    · rw [if_pos hnull, if_pos hnull]
    · rw [if_neg hnull, if_neg hnull]
      show (update v.disk _ data _).get _ = _
      rw [update_of_ne]
      intro heq
      have hp := h.excl.inj _ _ heq hnull
      have hm : m = n := congrArg (fun p : Place => p.1.1) hp
      exact hplace (blockPlace_inj (hoff hm) hbn hp)

lemma Sound.trees_congr (h : v.Sound) (hroot : ∀ n k, (v'.din n).root k = (v.din n).root k)
    (hdisk : ∀ b, dataStart ≤ b → v'.disk b = v.disk b) :
    (∀ p, v'.node p = v.node p) ∧ ∀ n off, v'.byte n off = v.byte n off := by
  have hkeep : ∀ p, v.node p ≠ 0 → v'.disk (v.node p) = v.disk (v.node p) := fun p hp =>
    hdisk _ (h.range hp).1
  have hnode : ∀ p, v'.node p = v.node p := by
    refine Forest.node_congr ?_ rfl fun k q j _ hk => ?_
    · funext ⟨n, k⟩
      exact hroot n k
    · show (v'.disk (v.node (k, q))).word j = (v.disk (v.node (k, q))).word j
      rw [hkeep _ hk]
  refine ⟨hnode, fun n off => ?_⟩
  unfold byte
  rw [hnode]
  split
  · rfl
  · rw [hkeep _ ‹_›]

lemma Sound.sameTrees (h : v.Sound) (hroot : ∀ n k, (v'.din n).root k = (v.din n).root k)
    (hdisk : ∀ b, bmapStart ≤ b → v'.disk b = v.disk b) :
    v'.Sound ∧ (∀ p, v'.node p = v.node p) ∧ ∀ n off, v'.byte n off = v.byte n off := by
  have hstart : bmapStart ≤ dataStart := by decide
  obtain ⟨hnode, hbyte⟩ := h.trees_congr hroot fun b hb => hdisk b (hstart.trans hb)
  have hused : ∀ b < fsSize, Fs.used v'.disk b = Fs.used v.disk b := fun b hb =>
    used_congr hb fun x hx _ => hdisk x hx
  refine ⟨⟨h.excl.congr hnode fun b => ?_, fun b hb => ?_⟩, hnode, hbyte⟩
  · unfold InUse
    constructor
    · exact fun ⟨h1, h2, h3⟩ => ⟨h1, h2, (hused b h2).symm.trans h3⟩
    · exact fun ⟨h1, h2, h3⟩ => ⟨h1, h2, (hused b h2).trans h3⟩
  · rw [hused b (hb.trans_le (by decide)), h.reserved b hb]

end Store

end Volume

end Xv6.Fs
