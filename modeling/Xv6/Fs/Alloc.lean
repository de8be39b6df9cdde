import Xv6.Fs.Inode
import Xv6.Fs.Volume

/-!
# Block allocation and `bmap`

`bmap` follows the way from an inode to a block and allocates what is missing. Its specification is a
relation between the states before and after, `Fills`: the positions in a given set have blocks, the
others are as they were, the volume is still sound, and exactly the missing blocks were taken from
the free map. The relation composes, so that loops over `bmap` have the same specification.

A path that allocates can fail for lack of resources (`Fails`): no free block, no room in the log, or
no transaction.
-/

namespace Xv6.Fs

open Function (update_self update_of_ne)

open Lib Disk

/-! ### Resources -/

/-- How many blocks are free. -/
@[irreducible] def freeBlocks (disk : Nat → Block) : Nat :=
  ((Finset.range fsSize).filter fun b => used disk b = false).card

/-- From `s` to `s'`, `m` blocks were allocated and besides `k` blocks logged. An allocation logs at
most three blocks: the block of the bit map, the new block, and the one that refers to it. -/
structure Uses (m k : Nat) (s s' : State) : Prop where
  free : freeBlocks s'.disk + m = freeBlocks s.disk
  lh : s'.log.lh.length ≤ s.log.lh.length + 3 * m + k
  outstanding : s'.log.outstanding = s.log.outstanding

/-- The ways to fail of a path that allocates `m` blocks and logs `k` more. -/
inductive Fails (s : State) (m k : Nat) (e : Stop) : Prop
  | noBlocks : e = .panic "balloc: out of blocks" → freeBlocks s.disk < m → Fails s m k e
  | tooBig : e = .panic "too big a transaction" → 0 < m + k →
      logSize ≤ s.log.lh.length + 3 * m + k → Fails s m k e
  | noTrans : e = .panic "log_write outside of trans" → 0 < m + k → s.log.outstanding = 0 →
      Fails s m k e

lemma Uses.refl (s : State) : Uses 0 0 s s := ⟨rfl, by omega, rfl⟩

variable {k k' m m' : Nat} {s s' : State}

lemma Uses.trans {s'' : State} (h : Uses m k s s') (h' : Uses m' k' s' s'') : Uses (m + m') (k + k') s s'' := by
  refine ⟨?_, ?_, h'.outstanding.trans h.outstanding⟩
  · rw [← h.free, ← h'.free]; omega
  · have := h.lh
    have := h'.lh
    omega

variable {e : Stop}

lemma Fails.mono (h : Fails s m k e) (hm : m ≤ m') (hk : k ≤ k') : Fails s m' k' e := by
  cases h with
  | noBlocks he h => exact .noBlocks he (by omega)
  | tooBig he h0 h => exact .tooBig he (by omega) (by omega)
  | noTrans he h0 h => exact .noTrans he (by omega) h

lemma Fails.after (hu : Uses m k s s') (h : Fails s' m' k' e) : Fails s (m + m') (k + k') e := by
  have hfree := hu.free
  have hlh := hu.lh
  cases h with
  | noBlocks he h => exact .noBlocks he (by omega)
  | tooBig he h0 h => exact .tooBig he (by omega) (by omega)
  | noTrans he h0 h => exact .noTrans he (by omega) (hu.outstanding.symm.trans h)

lemma length_add_le (l : Log) (b : Nat) : (l.add b).lh.length ≤ l.lh.length + 1 := by
  rw [Log.add_lh]
  split
  · omega
  · rw [List.length_append, List.length_singleton]

/-! ### `balloc` -/

lemma logWrite_spec (s : State) (b : Nat) (data : Block) :
    wp (logWrite b data) s (fun _ s' => s' = { s.setBlock b data with log := s.log.add b })
      (fun e _ => Fails s 0 1 e) := by
  unfold logWrite
  rw [wp_bind, wp_get, wp_ite]
  split
  · exact .tooBig rfl (by omega) (by omega)
  · rw [wp_ite]
    split
    · exact .noTrans rfl (by omega) (by omega)
    · exact rfl

variable {disk : Nat → Block}

/-- The bit of block `b + bi` is in the block of the map that the outer loop of `balloc` reads. -/
lemma bit_of_scan {b bi : Nat} (hb : bpb ∣ b) (hbi : bi < bpb) :
    (disk (bblock b)).bit bi = used disk (b + bi) := by
  obtain ⟨c, rfl⟩ := hb
  have hdiv : (bpb * c + bi) / bpb = bpb * c / bpb := by
    rw [Nat.mul_add_div (by decide), Nat.div_eq_of_lt hbi, Nat.mul_div_cancel_left _ (by decide)]
    rfl
  unfold used bblock
  rw [hdiv, Nat.mul_add_mod, Nat.mod_eq_of_lt hbi]

variable {x : Nat}

lemma findFree_some (h : findFree disk = some x) : x < fsSize ∧ used disk x = false := by
  obtain ⟨b, hb, hx⟩ := List.exists_of_findSome?_eq_some h
  obtain ⟨bi, hbi, rfl⟩ := Option.map_eq_some_iff.mp hx
  have hfound := List.find?_some hbi
  obtain ⟨c, -, rfl⟩ := List.mem_range'.mp hb
  obtain ⟨d, hd, rfl⟩ := List.mem_range'.mp (List.mem_of_find?_eq_some hbi)
  simp only [Bool.and_eq_true, decide_eq_true_eq, Bool.not_eq_true', Nat.zero_add, Nat.one_mul]
    at hfound ⊢
  rw [bit_of_scan (Nat.dvd_mul_right _ _) hd] at hfound
  exact hfound

lemma findFree_none (h : findFree disk = none) (hx : x < fsSize) : used disk x := by
  have hblock := List.findSome?_eq_none_iff.mp h (bpb * (x / bpb))
    (List.mem_range'.mpr ⟨x / bpb, by unfold fsSize bpb at *; omega, by omega⟩)
  have hbit := List.find?_eq_none.mp (Option.map_eq_none_iff.mp hblock) (x % bpb)
    (List.mem_range'.mpr ⟨x % bpb, Nat.mod_lt _ (by decide), by omega⟩)
  rw [bit_of_scan (Nat.dvd_mul_right _ _) (Nat.mod_lt _ (by decide)), Nat.div_add_mod] at hbit
  simpa [hx] using hbit

lemma freeBlocks_congr {disk' : Nat → Block} (h : ∀ b < fsSize, used disk' b = used disk b) :
    freeBlocks disk' = freeBlocks disk := by
  have hset : ((Finset.range fsSize).filter fun b => used disk' b = false) =
      (Finset.range fsSize).filter fun b => used disk b = false :=
    Finset.filter_congr fun b hb => by rw [h b (Finset.mem_range.mp hb)]
  unfold freeBlocks
  rw [hset]

lemma freeBlocks_allocBlock (hx : used disk x = false)
    (hx0 : dataStart ≤ x) (hlt : x < fsSize) : freeBlocks (allocBlock disk x) + 1 = freeBlocks disk := by
  have hset : ((Finset.range fsSize).filter fun b => used (allocBlock disk x) b = false) =
      ((Finset.range fsSize).filter fun b => used disk b = false).erase x := by
    ext b
    simp only [Finset.mem_filter, Finset.mem_range, Finset.mem_erase]
    constructor
    · rintro ⟨hb, hu⟩
      rw [used_allocBlock hx0 hb, Bool.or_eq_false_iff, decide_eq_false_iff_not] at hu
      exact ⟨hu.1, hb, hu.2⟩
    · rintro ⟨hne, hb, hu⟩
      exact ⟨hb, by rw [used_allocBlock hx0 hb, hu]; simp [hne]⟩
  have hmem : x ∈ (Finset.range fsSize).filter fun b => used disk b = false := by
    simp [hx, hlt]
  unfold freeBlocks
  rw [hset, Finset.card_erase_add_one hmem]

/-- The state after `balloc` has taken block `x`. -/
def State.alloc (s : State) (x : Nat) : State :=
  { s with disk := allocBlock s.disk x, log := (s.log.add (bblock x)).add x }

lemma balloc_spec (s : State) :
    wp balloc s (fun x s' => used s.disk x = false ∧ x < fsSize ∧ s' = s.alloc x)
      (fun e _ => Fails s 1 0 e) := by
  unfold balloc
  rw [wp_bind, wp_get]
  cases hfind : findFree s.disk with
  | none =>
    refine .noBlocks rfl ?_
    have : freeBlocks s.disk = 0 := by
      unfold freeBlocks
      rw [Finset.card_eq_zero, Finset.filter_eq_empty_iff]
      intro b hb
      rw [findFree_none hfind (Finset.mem_range.mp hb)]
      simp
    omega
  | some x =>
    obtain ⟨hlt, hfree⟩ := findFree_some hfind
    simp only [bread, bzero, wp_bind, wp_get, wp_pure]
    refine (logWrite_spec s _ _).mono ?_ (fun e _ h => ?_)
    · rintro - s1 rfl
      refine (logWrite_spec _ _ _).mono ?_ (fun e _ h => ?_)
      · rintro - s2 rfl
        exact ⟨hfree, hlt, rfl⟩
      · -- the first `log_write` has added at most one block
        have hlen := length_add_le s.log (bblock x)
        cases h with
        | noBlocks he h => exact absurd h (by omega)
        | tooBig he h0 h =>
          have h : logSize ≤ (s.log.add (bblock x)).lh.length + 3 * 0 + 1 := h
          exact .tooBig he (by omega) (by omega)
        | noTrans he h0 h =>
          have h : (s.log.add (bblock x)).outstanding = 0 := h
          exact .noTrans he (by omega) (by rwa [Log.add_outstanding] at h)
    · cases h with
      | noBlocks he h => exact absurd h (by omega)
      | tooBig he h0 h => exact .tooBig he (by omega) (by omega)
      | noTrans he h0 h => exact .noTrans he (by omega) h

/-! ### Filling positions -/

/-- The volume the kernel works on while it holds entry `i` of the inode cache: the in-memory copy of
that inode, and the disk. -/
def State.volume (s : State) (i : InodeId) : Volume :=
  ⟨Function.update (diskInodes s.disk) (s.inode i).inum (s.inode i).din, s.disk⟩

lemma State.volume_din_self (s : State) (i : InodeId) :
    (s.volume i).din (s.inode i).inum = (s.inode i).din := update_self ..

/-- How many of the positions in `S` have no block. -/
def missing (v : Volume) (S : Finset Place) : Nat := (S.filter fun p => v.node p = 0).card

variable {S T : Finset Place}

lemma missing_mono (v : Volume) (h : S ⊆ T) : missing v S ≤ missing v T :=
  Finset.card_le_card (Finset.filter_subset_filter _ h)

/-- How a call that fills the positions `S` and logs `k` blocks more can fail. -/
abbrev lacks (i : InodeId) (S : Finset Place) (k : Nat) (s : State) (e : Stop) (_ : State) : Prop :=
  Fails s (missing (s.volume i) S) k e

/-- Nothing has changed but blocks, the log and the block addresses in entry `i`. -/
structure SameBut (i : InodeId) (s s' : State) : Prop where
  others : ∀ j, j ≠ i → s'.inode j = s.inode j
  entry : ∃ addrs, s'.inode i = { s.inode i with din := { (s.inode i).din with addrs := addrs } }
  file : s'.file = s.file
  ofile : s'.ofile = s.ofile
  cwd : s'.cwd = s.cwd
  devsw : s'.devsw = s.devsw
  inodes : diskInodes s'.disk = diskInodes s.disk

namespace SameBut

variable {i : InodeId} {s s' s'' : State}

lemma refl (i : InodeId) (s : State) : SameBut i s s :=
  ⟨fun _ _ => rfl, ⟨_, rfl⟩, rfl, rfl, rfl, rfl, rfl⟩

lemma trans (h : SameBut i s s') (h' : SameBut i s' s'') : SameBut i s s'' where
  others := fun j hj => (h'.others j hj).trans (h.others j hj)
  entry := by
    obtain ⟨a, ha⟩ := h.entry
    obtain ⟨a', ha'⟩ := h'.entry
    exact ⟨a', by rw [ha', ha]⟩
  file := h'.file.trans h.file
  ofile := h'.ofile.trans h.ofile
  cwd := h'.cwd.trans h.cwd
  devsw := h'.devsw.trans h.devsw
  inodes := h'.inodes.trans h.inodes

lemma inum (h : SameBut i s s') : (s'.inode i).inum = (s.inode i).inum := by
  obtain ⟨_, ha⟩ := h.entry
  rw [ha]

lemma type (h : SameBut i s s') : (s'.inode i).din.type = (s.inode i).din.type := by
  obtain ⟨_, ha⟩ := h.entry
  rw [ha]

lemma size (h : SameBut i s s') : (s'.inode i).din.size = (s.inode i).din.size := by
  obtain ⟨_, ha⟩ := h.entry
  rw [ha]

end SameBut

/-- The positions in `S` now have blocks; the missing ones were allocated, and besides `k` blocks
were logged. Every other position is as it was. -/
structure Fills (i : InodeId) (S : Finset Place) (k : Nat) (s s' : State) : Prop where
  same : SameBut i s s'
  sound : (s'.volume i).Sound
  outside : ∀ p, p ∉ S → (s'.volume i).node p = (s.volume i).node p
  filled : ∀ p ∈ S, (s'.volume i).node p ≠ 0
  kept : ∀ p, (s.volume i).node p ≠ 0 → (s'.volume i).node p = (s.volume i).node p
  uses : Uses (missing (s.volume i) S) k s s'

namespace Fills

variable {i : InodeId} {S T : Finset Place} {k k' : Nat} {s s' s'' : State}

lemma missing_union (h : Fills i S k s s') :
    missing (s.volume i) (S ∪ T) = missing (s.volume i) S + missing (s'.volume i) T := by
  unfold missing
  rw [← Finset.card_union_of_disjoint]
  · congr 1
    ext p
    simp only [Finset.mem_filter, Finset.mem_union]
    constructor
    · rintro ⟨hp, hnull⟩
      by_cases hS : p ∈ S
      · exact .inl ⟨hS, hnull⟩
      · exact .inr ⟨hp.resolve_left hS, by rw [h.outside p hS, hnull]⟩
    · rintro (⟨hS, hnull⟩ | ⟨hT, hnull⟩)
      · exact ⟨.inl hS, hnull⟩
      · refine ⟨.inr hT, ?_⟩
        by_contra hne
        exact hne ((h.kept p hne).symm.trans hnull)
  · rw [Finset.disjoint_left]
    intro p hp hp'
    rw [Finset.mem_filter] at hp hp'
    exact h.filled p hp.1 hp'.2

lemma trans (h : Fills i S k s s') (h' : Fills i T k' s' s'') : Fills i (S ∪ T) (k + k') s s'' where
  same := h.same.trans h'.same
  sound := h'.sound
  outside := by
    intro p hp
    rw [Finset.mem_union, not_or] at hp
    rw [h'.outside p hp.2, h.outside p hp.1]
  filled := by
    intro p hp
    by_cases hT : p ∈ T
    · exact h'.filled p hT
    · have hS := (Finset.mem_union.mp hp).resolve_right hT
      rw [h'.outside p hT]
      exact h.filled p hS
  kept := by
    intro p hp
    rw [h'.kept p (by rwa [h.kept p hp]), h.kept p hp]
  uses := by
    rw [h.missing_union]
    exact h.uses.trans h'.uses

/-- Nothing is missing, nothing is done. -/
lemma refl (hsound : (s.volume i).Sound) (hS : ∀ p ∈ S, (s.volume i).node p ≠ 0) : Fills i S 0 s s where
  same := .refl i s
  sound := hsound
  outside := fun _ _ => rfl
  filled := hS
  kept := fun _ _ => rfl
  uses := by
    have : missing (s.volume i) S = 0 := by
      unfold missing
      rw [Finset.card_eq_zero, Finset.filter_eq_empty_iff]
      exact fun {p} hp => hS p hp
    rw [this]
    exact .refl s

end Fills

variable {i : InodeId}

lemma wp_fills {α β : Type} {l : Nat} {c : FM α} {f : α → FM β} {Q : α → State → Prop} {R : β → State → Prop}
    (hc : wp c s (fun a s' => Fills i S k s s' ∧ Q a s') (lacks i S k s))
    (hf : ∀ a s', Fills i S k s s' → Q a s' →
      wp (f a) s' (fun b s'' => Fills i T l s' s'' ∧ R b s'') (lacks i T l s')) :
    wp (c >>= f) s (fun b s'' => Fills i (S ∪ T) (k + l) s s'' ∧ R b s'')
      (lacks i (S ∪ T) (k + l) s) := by
  refine wp.bind hc ?_ ?_
  · intro a s' hs'
    refine (hf a s' hs'.1 hs'.2).mono ?_ ?_
    · intro b s'' hs''
      exact ⟨hs'.1.trans hs''.1, hs''.2⟩
    · intro e _ he
      rw [lacks, hs'.1.missing_union]
      exact he.after hs'.1.uses
  · intro e _ he
    exact he.mono (missing_mono _ Finset.subset_union_left) (Nat.le_add_right _ _)

/-- As `Fills`, and the contents are unchanged; where nothing is missing, nothing happens. -/
structure Maps (i : InodeId) (S : Finset Place) (s s' : State) : Prop extends Fills i S 0 s s' where
  byte : ∀ n off, (s'.volume i).byte n off = (s.volume i).byte n off
  idle : missing (s.volume i) S = 0 → s' = s

namespace Maps

variable {i : InodeId} {S T : Finset Place} {s s' s'' : State}

lemma trans (h : Maps i S s s') (h' : Maps i T s' s'') : Maps i (S ∪ T) s s'' where
  toFills := h.toFills.trans h'.toFills
  byte := fun n off => (h'.byte n off).trans (h.byte n off)
  idle := by
    intro hnone
    rw [h.toFills.missing_union] at hnone
    rw [h'.idle (by omega), h.idle (by omega)]

lemma refl (hsound : (s.volume i).Sound) (hS : ∀ p ∈ S, (s.volume i).node p ≠ 0) : Maps i S s s where
  toFills := .refl hsound hS
  byte := fun _ _ => rfl
  idle := fun _ => rfl

end Maps

lemma wp_maps {α β : Type} {c : FM α} {f : α → FM β} {Q : α → State → Prop} {R : β → State → Prop}
    (hc : wp c s (fun a s' => Maps i S s s' ∧ Q a s') (lacks i S 0 s))
    (hf : ∀ a s', Maps i S s s' → Q a s' →
      wp (f a) s' (fun b s'' => Maps i T s' s'' ∧ R b s'') (lacks i T 0 s')) :
    wp (c >>= f) s (fun b s'' => Maps i (S ∪ T) s s'' ∧ R b s'') (lacks i (S ∪ T) 0 s) := by
  have hc' : wp c s (fun a s' => Fills i S 0 s s' ∧ (Maps i S s s' ∧ Q a s')) (lacks i S 0 s) :=
    hc.imp fun _ _ h => ⟨h.1.toFills, h⟩
  refine (wp_fills (T := T) (l := 0) (R := fun b s'' => Maps i (S ∪ T) s s'' ∧ R b s'') hc' ?_).imp
    fun _ _ h => h.2
  rintro a s' - ⟨hs', hq⟩
  exact (hf a s' hs' hq).imp fun _ _ h => ⟨h.1.toFills, hs'.trans h.1, h.2⟩

/-! ### `bmap` -/

variable {bn n : Nat}

section Bmap

variable {i : InodeId} {s : State}

lemma diskInodes_allocBlock (hx0 : dataStart ≤ x) (hlt : x < fsSize) :
    diskInodes (allocBlock disk x) = diskInodes disk := by
  refine diskInodes_congr fun b _ hb => allocBlock_of_ne hlt ?_ (.inl hb)
  unfold dataStart at hx0
  unfold bmapStart at hb
  omega

lemma missing_singleton_null {v : Volume} {p : Place} (h : v.node p = 0) : missing v {p} = 1 := by
  unfold missing
  rw [Finset.filter_singleton, if_pos h, Finset.card_singleton]

lemma Maps.of_extends {s : State} {p₀ : Place} (hsame : SameBut i s s')
    (hnull : (s.volume i).node p₀ = 0) (hx0 : x ≠ 0) (hext : (s.volume i).Extends (s'.volume i) p₀ x)
    (huses : Uses 1 0 s s') : Maps i {p₀} s s' where
  same := hsame
  sound := hext.sound
  outside := by
    intro p hp
    rw [hext.node, if_neg (by simpa using hp)]
  filled := by
    intro p hp
    rw [Finset.mem_singleton.mp hp, hext.node, if_pos rfl]
    exact hx0
  kept := by
    intro p hp
    rw [hext.node, if_neg]
    rintro rfl
    exact hp hnull
  uses := by rwa [missing_singleton_null hnull]
  byte := hext.byte
  idle := by
    intro hnone
    rw [missing_singleton_null hnull] at hnone
    exact absurd hnone (by omega)

lemma uses_alloc (hx : used s.disk x = false) (hx0 : dataStart ≤ x) (hlt : x < fsSize)
    (hdisk : freeBlocks s'.disk = freeBlocks (allocBlock s.disk x))
    (hlh : s'.log.lh.length ≤ (s.alloc x).log.lh.length + 1)
    (hout : s'.log.outstanding = s.log.outstanding) : Uses 1 0 s s' := by
  refine ⟨?_, ?_, hout⟩
  · rw [hdisk, freeBlocks_allocBlock hx hx0 hlt]
  · have h1 := length_add_le (s.log.add (bblock x)) x
    have h2 := length_add_le s.log (bblock x)
    have h3 : (s.alloc x).log = (s.log.add (bblock x)).add x := rfl
    rw [h3] at hlh
    omega

lemma sound_free (hsound : (s.volume i).Sound) (hx : used s.disk x = false) : dataStart ≤ x ∧ x ≠ 0 := by
  have := hsound.dataStart_le hx
  refine ⟨this, ?_⟩
  unfold dataStart at this
  omega

lemma root_eq (htype : (s.inode i).din.type ≠ 0) (k : Fin nAddrs) :
    (s.volume i).forest.root ((s.inode i).inum, k) = (s.inode i).din.addrs k := by
  show (if ((s.volume i).din (s.inode i).inum).type = 0 then 0
    else ((s.volume i).din (s.inode i).inum).addrs k) = _
  rw [State.volume_din_self, if_neg htype]

lemma node_top (htype : (s.inode i).din.type ≠ 0) (k : Fin nAddrs) :
    (s.volume i).node (((s.inode i).inum, k), []) = (s.inode i).din.addrs k := by
  rw [Volume.node_of_le zero_le, walk_nil]
  exact root_eq htype k

lemma topEntry_spec (hsound : (s.volume i).Sound) (htype : (s.inode i).din.type ≠ 0) (k : Fin nAddrs) :
    wp (topEntry i k) s
      (fun b s' => Maps i {(((s.inode i).inum, k), [])} s s' ∧
        b = (s'.volume i).node (((s.inode i).inum, k), []))
      (lacks i {(((s.inode i).inum, k), [])} 0 s) := by
  have hroot := node_top htype k
  unfold topEntry
  rw [wp_bind, wp_get]
  dsimp only
  rw [wp_ite]
  split
  · rename_i hnull
    unfold lacks
    rw [missing_singleton_null (hroot.trans hnull), wp_bind]
    refine (balloc_spec s).imp ?_
    rintro x _ ⟨hx, hlt, rfl⟩
    obtain ⟨hx0, hne⟩ := sound_free hsound hx
    -- the volume afterwards is the one with the block linked
    let s' := (s.alloc x).setInode i
      { s.inode i with din := (s.inode i).din.setAddr k x }
    have hvol : s'.volume i = (s.volume i).linkTop (s.inode i).inum k x := by
      unfold State.volume Volume.linkTop
      simp only [s', State.setInode, State.alloc, update_self, Function.update_idem,
        diskInodes_allocBlock hx0 hlt]
    have hsame : SameBut i s s' := by
      refine ⟨fun j hj => ?_, ⟨_, update_self ..⟩, rfl, rfl, rfl, rfl,
        diskInodes_allocBlock hx0 hlt⟩
      exact update_of_ne hj _ _
    have hext := hsound.linkTop (n := (s.inode i).inum) (k := k) hx hlt
      (by rwa [State.volume_din_self]) (by rwa [State.volume_din_self])
    rw [← hvol] at hext
    have huses : Uses 1 0 s s' := by
      refine uses_alloc hx hx0 hlt rfl (Nat.le_succ _) ?_
      simp [s', State.setInode, State.alloc, Log.add_outstanding]
    refine ⟨.of_extends hsame (hroot.trans hnull) hne hext huses, ?_⟩
    exact (hext.node _).symm ▸ (if_pos rfl).symm
  · rename_i hne
    exact ⟨.refl hsound fun p hp => by rwa [Finset.mem_singleton.mp hp, hroot], hroot.symm⟩

lemma Fails.of_alloc (h : Fails (s.alloc x) 0 1 e) : Fails s 1 0 e := by
  have h1 := length_add_le (s.log.add (bblock x)) x
  have h2 := length_add_le s.log (bblock x)
  cases h with
  | noBlocks he h => exact absurd h (by omega)
  | tooBig he h0 h =>
    have h : logSize ≤ ((s.log.add (bblock x)).add x).lh.length + 3 * 0 + 1 := h
    exact .tooBig he (by omega) (by omega)
  | noTrans he h0 h =>
    have h : ((s.log.add (bblock x)).add x).outstanding = 0 := h
    exact .noTrans he (by omega) (by simpa only [Log.add_outstanding] using h)

lemma indexEntry_spec (hsound : (s.volume i).Sound) {k : Fin nAddrs}
    {q : List (Fin nIndirect)} (hq : q.length < level k) (hb : (s.volume i).node ((n, k), q) ≠ 0)
    (j : Fin nIndirect) :
    wp (indexEntry ((s.volume i).node ((n, k), q)) j) s
      (fun b s' => Maps i {((n, k), q ++ [j])} s s' ∧ b = (s'.volume i).node ((n, k), q ++ [j]))
      (lacks i {((n, k), q ++ [j])} 0 s) := by
  have hentry : (s.volume i).node ((n, k), q ++ [j]) =
      (s.disk ((s.volume i).node ((n, k), q))).word j := by
    rw [Volume.node, Forest.node_snoc hq hb]
    rfl
  generalize hbdef : (s.volume i).node ((n, k), q) = b at *
  have hrange : dataStart ≤ b ∧ b < fsSize := hbdef ▸ hsound.range (hbdef ▸ hb)
  unfold indexEntry bread
  simp only [wp_bind, wp_get, wp_pure]
  rw [wp_ite]
  split
  · rename_i hnull
    unfold lacks
    rw [missing_singleton_null (hentry.trans hnull)]
    simp only [wp_bind]
    refine (balloc_spec s).imp ?_
    rintro x _ ⟨hx, hlt, rfl⟩
    obtain ⟨hx0, hne⟩ := sound_free hsound hx
    simp only [wp_get, wp_pure]
    refine (logWrite_spec _ _ _).mono ?_ fun _ _ h => h.of_alloc
    rintro - _ rfl
    -- the volume afterwards is the one with the block linked
    let disk' := Function.update (allocBlock s.disk x) b ((allocBlock s.disk x b).setWord j x)
    let s' : State := { s with disk := disk', log := ((s.log.add (bblock x)).add x).add b }
    have hinodes : diskInodes disk' = diskInodes s.disk := by
      refine Eq.trans (diskInodes_congr fun y _ hy => ?_) (diskInodes_allocBlock hx0 hlt)
      refine update_of_ne ?_ _ _
      unfold bmapStart at hy
      unfold dataStart at hrange
      omega
    have hvol : s'.volume i = (s.volume i).linkEntry b j x := by
      unfold State.volume Volume.linkEntry
      simp only [s', hinodes, disk']
    have hext := hsound.linkEntry (x := x) (j := j) hx hlt hq (hbdef ▸ hb) (by rw [hbdef]; exact hnull)
    rw [hbdef, ← hvol] at hext
    have huses : Uses 1 0 s s' := by
      refine uses_alloc hx hx0 hlt ?_ (length_add_le _ _) ?_
      · exact freeBlocks_congr fun y hy => used_update hy (.inr hrange.1)
      · simp [s', Log.add_outstanding]
    refine ⟨.of_extends ?_ (hentry.trans hnull) hne hext huses, ?_⟩
    · exact ⟨fun _ _ => rfl, ⟨_, rfl⟩, rfl, rfl, rfl, rfl, hinodes⟩
    · exact ((hext.node _).trans (if_pos rfl)).symm
  · rename_i hne
    refine ⟨.refl hsound fun p hp => ?_, hentry.symm⟩
    rw [Finset.mem_singleton.mp hp, hentry]
    exact hne

/-- Follow the entries `q` of index blocks from block `b` on. -/
def follow (b : Nat) : List (Fin nIndirect) → FM Nat
  | [] => return b
  | j :: q => do follow (← indexEntry b j) q

/-- `bmap` follows the path of the block. -/
lemma bmap_eq (i : InodeId) (h : bn < maxFile) :
    bmap i bn = topEntry i (blockPath bn).1 >>= fun b => follow b (blockPath bn).2 := by
  rw [maxFile_eq] at h
  unfold bmap blockPath
  by_cases h1 : bn < nDirect
  · simp only [h1, if_true, follow, bind_pure]
  by_cases h2 : bn - nDirect < nIndirect
  · simp only [h1, h2, if_true, if_false, follow, bind_pure, Fin.val_ofNat, Nat.mod_eq_of_lt h2]
  by_cases h3 : bn - nDirect - nIndirect < nDIndirect
  · have hhi : (bn - nDirect - nIndirect) / nIndirect < nIndirect := by
      rw [nDIndirect_eq] at h3
      rw [nIndirect_eq] at h3 ⊢
      omega
    simp only [h1, h2, h3, if_true, if_false, follow, bind_pure, Fin.val_ofNat,
      Nat.mod_eq_of_lt hhi, Nat.mod_mod]
  · generalize hm : bn - nDirect - nIndirect - nDIndirect = m
    have hlt : m < nTIndirect := by
      rw [nDirect_eq, nIndirect_eq, nDIndirect_eq] at hm
      rw [nTIndirect_eq]
      omega
    have hhi : m / nDIndirect < nIndirect := by
      rw [nTIndirect_eq] at hlt
      rw [nDIndirect_eq, nIndirect_eq]
      omega
    have hmid : m % nDIndirect / nIndirect < nIndirect := by
      rw [nDIndirect_eq, nIndirect_eq]
      omega
    simp only [h1, h2, h3, hm, hlt, if_true, if_false, follow, bind_pure, Fin.val_ofNat,
      Nat.mod_eq_of_lt hhi, Nat.mod_eq_of_lt hmid, Nat.mod_mod]

/-- The positions below `q` on the way `r`. -/
def trail (n : Nat) (k : Fin nAddrs) (q : List (Fin nIndirect)) : List (Fin nIndirect) → Finset Place
  | [] => ∅
  | j :: r => {((n, k), q ++ [j])} ∪ trail n k (q ++ [j]) r

/-- The positions on the way to the `bn`-th block of inode `n`. -/
def blockTrail (n bn : Nat) : Finset Place :=
  {((n, (blockPath bn).1), [])} ∪ trail n (blockPath bn).1 [] (blockPath bn).2

lemma mem_trail {k : Fin nAddrs} {q r : List (Fin nIndirect)} (h : r ≠ []) :
    ((n, k), q ++ r) ∈ trail n k q r := by
  induction r generalizing q with
  | nil => exact absurd rfl h
  | cons j r ih =>
    rw [trail, Finset.mem_union, Finset.mem_singleton]
    by_cases hr : r = []
    · exact .inl (by rw [hr])
    · exact .inr (by simpa using ih (q := q ++ [j]) hr)

lemma mem_blockTrail (n bn : Nat) : blockPlace n bn ∈ blockTrail n bn := by
  unfold blockPlace blockTrail
  rw [Finset.mem_union, Finset.mem_singleton]
  by_cases h : (blockPath bn).2 = []
  · exact .inl (by rw [h])
  · exact .inr (by simpa using mem_trail (n := n) (k := (blockPath bn).1) (q := []) h)

lemma follow_spec {k : Fin nAddrs} {r : List (Fin nIndirect)} :
    ∀ {q : List (Fin nIndirect)} {s : State}, (s.volume i).Sound →
      q.length + r.length ≤ level k → (s.volume i).node ((n, k), q) ≠ 0 →
      wp (follow ((s.volume i).node ((n, k), q)) r) s
        (fun b s' => Maps i (trail n k q r) s s' ∧ b = (s'.volume i).node ((n, k), q ++ r))
        (lacks i (trail n k q r) 0 s) := by
  induction r with
  | nil =>
    intro q s hsound _ _
    exact ⟨.refl hsound fun p hp => absurd hp (Finset.notMem_empty p), by rw [List.append_nil]⟩
  | cons j r ih =>
    intro q s hsound hlen hb
    rw [List.length_cons] at hlen
    refine wp_maps (indexEntry_spec hsound (by omega) hb j) fun a s' hs' ha => ?_
    subst ha
    have hne := hs'.filled _ (Finset.mem_singleton_self _)
    have := ih (q := q ++ [j]) hs'.sound (by simp; omega) hne
    simpa only [List.append_assoc, List.singleton_append] using this

lemma bmap_spec (hsound : (s.volume i).Sound) (htype : (s.inode i).din.type ≠ 0) (hbn : bn < maxFile) :
    wp (bmap i bn) s
      (fun b s' => Maps i (blockTrail (s.inode i).inum bn) s s' ∧
        b = (s'.volume i).node (blockPlace (s.inode i).inum bn))
      (lacks i (blockTrail (s.inode i).inum bn) 0 s) := by
  rw [bmap_eq i hbn]
  refine wp_maps (topEntry_spec hsound htype _) fun a s' hs' ha => ?_
  subst ha
  have hne := hs'.filled _ (Finset.mem_singleton_self _)
  exact follow_spec (q := []) hs'.sound (by rw [blockPath_length]; simp) hne

end Bmap

end Xv6.Fs
