import Xv6.Fs.Calls
import Xv6.Lib.Run

/-!
# Ownership of blocks over whole runs

In a run of system calls, one after the other, every block of the data region that is marked as used
belongs to exactly one position of one index tree. This holds from every image whose files have no
holes. Where a file has a hole it does not: `bmap` fills the hole on the way, puts the new block into
the inode in memory, and `writei` writes the inode back only if the file has grown.
-/

namespace Xv6.Fs

open Function (update update_self update_of_ne)
open Lib Disk

/-! ### The law -/

namespace Volume

/-- The blocks of the data region that are marked as used are those that some position refers to, and no
block is referred to twice. -/
structure Owned (v : Volume) : Prop where
  marked : ∀ b, dataStart ≤ b → b < fsSize → (Fs.used v.disk b = true ↔ ∃! p : Place, v.node p = b)
  once : ∀ p q, dataStart ≤ v.node p → v.node p < fsSize → v.node p = v.node q → p = q

/-- The trees refer to blocks of the data region, and the blocks before it are marked as used. -/
structure InData (v : Volume) : Prop where
  range : ∀ p, v.node p ≠ 0 → dataStart ≤ v.node p ∧ v.node p < fsSize
  reserved : ∀ b, b < dataStart → Fs.used v.disk b = true

variable {v : Volume}

lemma Sound.owned (h : v.Sound) : v.Owned := by
  have hpos : ∀ {b}, dataStart ≤ b → b ≠ 0 := fun hb h0 => by
    rw [h0] at hb
    cases hb
  refine ⟨fun b hb hlt => ⟨fun hu => ?_, fun hp => ?_⟩, fun p q hp _ heq => ?_⟩
  · obtain ⟨p, hp⟩ := h.excl.owner b ⟨hb, hlt, hu⟩
    refine ⟨p, hp, fun q hq => h.excl.inj q p (hq.trans hp.symm) ?_⟩
    rw [hq]
    exact hpos hb
  · obtain ⟨p, hp, -⟩ := hp
    subst hp
    exact h.used (hpos hb)
  · exact h.excl.inj p q heq (hpos hp)

lemma Owned.sound (h : v.Owned) (hdata : v.InData) : v.Sound := by
  refine ⟨⟨fun hu => absurd hu.1 (by decide), fun p hp => ?_, fun b hb => ?_, fun p q heq hp => ?_⟩,
    hdata.reserved⟩
  · obtain ⟨hlo, hhi⟩ := hdata.range p hp
    exact ⟨hlo, hhi, (h.marked _ hlo hhi).mpr ⟨p, rfl, fun q hq => (h.once p q hlo hhi hq.symm).symm⟩⟩
  · obtain ⟨p, hp, -⟩ := (h.marked b hb.1 hb.2.1).mp hb.2.2
    exact ⟨p, hp⟩
  · obtain ⟨hlo, hhi⟩ := hdata.range p hp
    exact h.once p q hlo hhi heq

end Volume

/-! ### Runs -/

section Runs

variable {disk : Nat → Block} {devsw : Fin nDev → Device} {s t : State}

lemma openers_mount : (State.mount disk devsw).openers = 0 :=
  Finset.sum_eq_zero fun _ _ => rfl

lemma cwds_mount : (State.mount disk devsw).cwds = {0} := by
  have hterm : ∀ p : ProcId, ((State.mount disk devsw).cwd p).elim (0 : Multiset InodeId) ({·}) =
      if p = 0 then {0} else 0 := fun p => by
    show (if p = 0 then some (0 : InodeId) else none).elim (0 : Multiset InodeId) ({·}) = _
    split <;> rfl
  unfold State.cwds
  rw [Finset.sum_congr rfl fun p _ => hterm p, Finset.sum_ite_eq' Finset.univ 0]
  exact if_pos (Finset.mem_univ _)

lemma refs_mount : (State.mount disk devsw).refs = {(0, rootIno)} := by
  unfold State.refs
  rw [openers_mount, cwds_mount, zero_add]
  rfl

lemma mount_atRest {P : Volume → Prop} (hsound : (⟨diskInodes disk, disk⟩ : Volume).Sound)
    (hregular : (⟨diskInodes disk, disk⟩ : Volume).Regular)
    (hP : P (State.mount disk devsw).diskVolume) : (State.mount disk devsw).AtRest P := by
  have hentry : ∀ i, (State.mount disk devsw).inode i =
      if i = 0 then ⟨rootIno, 1, false, false, Dinode.zero⟩ else ⟨0, 0, false, false, Dinode.zero⟩ :=
    fun _ => rfl
  have hzero : ∀ i, 0 < ((State.mount disk devsw).inode i).ref → i = 0 := fun i hi => by
    by_contra hne
    rw [hentry, if_neg hne] at hi
    cases hi
  refine ⟨?_, hP⟩
  rw [refs_mount]
  refine ⟨hsound, hregular, fun i => ?_, fun i j hi hj _ => (hzero i hi).trans (hzero j hj).symm,
    fun i _ hv => ?_, fun i => ?_, fun x hx => ?_, fun x hx => absurd hx (Multiset.notMem_zero _), ?_,
    fun x hx => .inl ?_, List.nodup_nil, fun x hx => absurd hx (by simp),
    fun f hf => absurd hf (by show FileType.none ≠ .inode; decide)⟩
  · rw [hentry]
    split <;> decide
  · rw [hentry] at hv
    split at hv <;> exact absurd hv (by decide)
  · rw [hentry]
    by_cases hi : i = 0
    · subst hi
      simp
    · simp [hi]
  · rw [Multiset.mem_singleton] at hx
    rw [hx, hentry, if_pos rfl]
  · rw [openers_mount]
    exact Multiset.zero_le _
  · rw [Multiset.mem_singleton] at hx
    rw [hx]

/-- No law at all about names. -/
def anyNames : Law where
  holds _ _ := True
  linked _ _ := True
  room _ := True
  calm _ := True
  removing _ _ _ := True
  root _ := trivial
  entry _ _ _ _ _ := trivial
  frees _ _ _ _ _ := trivial
  frees_linked _ _ _ _ _ := trivial
  frees_room _ _ _ _ _ := trivial
  frees_calm _ _ _ _ _ := trivial
  writes _ _ _ := trivial
  count _ _ _ _ _ := ⟨trivial, fun _ _ => trivial⟩
  uncount _ _ _ := trivial
  enter _ _ _ _ _ _ _ := trivial
  create _ _ _ _ _ _ := trivial
  erase _ _ _ _ _ _ _ _ _ _ := trivial
  removing_frees _ _ := trivial
  removed _ _ _ := trivial

lemma allowed_anyNames (p : ProcId) (c : Call) : s.Allowed anyNames p c := by
  cases c <;> simp [State.Allowed, State.Starts, anyNames]

/-- The disk is sound and regular, and the cache agrees with it, in every state that is reached. -/
lemma atRest_of_run {as : List (ProcId × Call)} (howned : (⟨diskInodes disk, disk⟩ : Volume).Owned)
    (hdata : (⟨diskInodes disk, disk⟩ : Volume).InData) (hregular : (⟨diskInodes disk, disk⟩ : Volume).Regular)
    (hrun : Run State.step anyStep (State.mount disk devsw) as t) : t.AtRest (anyNames.holds none) :=
  hrun.inv (mount_atRest (howned.sound hdata) hregular trivial) fun _ _ _ h _ hstep =>
    h.step (allowed_anyNames _ _) hstep

/-- Blocks are owned in every state that system calls reach from an image without holes.

The image obeys the law itself, its trees stay in the data region, and its inodes are regular: no holes,
no size beyond `MAXFILE` blocks, and only numbers of inodes in directory entries. Then the law holds
after every run, for the inodes on disk and for every valid copy in the inode cache, and no system call
that is made next stops because it frees a free block. -/
theorem tree_ownership {as : List (ProcId × Call)} (howned : (⟨diskInodes disk, disk⟩ : Volume).Owned)
    (hdata : (⟨diskInodes disk, disk⟩ : Volume).InData)
    (hregular : (⟨diskInodes disk, disk⟩ : Volume).Regular)
    (hrun : Run State.step anyStep (State.mount disk devsw) as t) :
    t.diskVolume.Owned ∧
    (∀ i, 0 < (t.inode i).ref → (t.inode i).valid = true → (t.volume i).Owned) ∧
    ∀ p c e u, t.Enabled p c → c.run p t = .error e u → e ≠ .panic "freeing free block" := by
  have h := atRest_of_run howned hdata hregular hrun
  refine ⟨h.sound.owned, fun i href hvalid => ?_, fun p c e u hc herr =>
    (Call.run_spec c h hc (allowed_anyNames p c)).error herr⟩
  rw [h.volume href hvalid]
  exact h.sound.owned

end Runs

/-! ### An image with one file -/

/-- The root directory, with its one block. -/
def rootDin : Dinode := ⟨tDir, 0, 0, 1, 48, fun k => if k = 0 then 68 else 0⟩

/-- The entries `.`, `..` and `f`. -/
def rootEntries : Block :=
  Bytes.zero.splice 0 (Dirent.bytes ⟨1, dot⟩ ++ Dirent.bytes ⟨1, dotdot⟩ ++ Dirent.bytes ⟨2, [102]⟩)

/-- An image with the root directory and the file `f`, whose inode is `d`. -/
def image (d : Dinode) : Nat → Block :=
  putInode (putInode (Function.update (markUsed blankDisk 68) 68 rootEntries) 1 rootDin) 2 d

/-- A file without blocks. -/
def fileOf (size : Nat) : Dinode := ⟨tFile, 0, 0, 1, size, fun _ => 0⟩

/-- Open `/f`, write one byte, close it. -/
def openWriteClose : List (ProcId × Call) :=
  [(0, .openPath [47, 102] ⟨false, true, false, true⟩), (0, .write 0 [65]), (0, .close 0)]

/-- No devices. -/
def noDevices (_ : Fin nDev) : Device := ⟨none, none⟩

lemma node_of_roots {v : Volume}
    (hroot : ∀ n k, (v.din n).root k = if n = 1 ∧ k = 0 then 68 else 0) (p : Place) :
    v.node p = if p = ((1, 0), []) then 68 else 0 := by
  obtain ⟨⟨n, k⟩, q⟩ := p
  by_cases hnk : n = 1 ∧ k = 0
  · obtain ⟨rfl, rfl⟩ := hnk
    cases q with
    | nil =>
      rw [Volume.node_of_le zero_le, walk_nil, if_pos rfl]
      exact (hroot 1 0).trans (if_pos ⟨rfl, rfl⟩)
    | cons j q =>
      -- a direct entry has nothing below it
      have hlen : ¬ (j :: q).length ≤ level 0 := by simp [level, nDirect]
      rw [if_neg (by simp)]
      exact not_not.mp fun hne => hlen (Forest.length_le_of_node hne)
  · have hne : ((n, k), q) ≠ (((1, 0), []) : Place) := fun heq =>
      hnk ⟨congrArg (fun p : Place => p.1.1) heq, congrArg (fun p : Place => p.1.2) heq⟩
    rw [if_neg hne]
    exact Forest.node_of_root_null ((hroot n k).trans (if_neg hnk))

section Image

variable {size : Nat}

lemma diskInodes_image (hsize : size < 2 ^ 32) : diskInodes (image (fileOf size)) =
    update (update (diskInodes blankDisk) 1 rootDin) 2 (fileOf size) := by
  have hroot : rootDin.Fits := ⟨by decide, by decide⟩
  have hfile : (fileOf size).Fits := ⟨hsize, fun _ => Nat.two_pow_pos 32⟩
  have hbase : diskInodes (update (markUsed blankDisk 68) 68 rootEntries) =
      diskInodes blankDisk := diskInodes_congr fun b _ hb => by
    unfold bmapStart at hb
    rw [update_of_ne (by omega), markUsed_of_ne (by decide) (.inl (by unfold bmapStart; omega))]
  rw [image, diskInodes_putInode _ (by decide) hfile, diskInodes_putInode _ (by decide) hroot, hbase]

lemma root_image (hsize : size < 2 ^ 32) (n : Nat) (k : Fin nAddrs) :
    (diskInodes (image (fileOf size)) n).root k = if n = 1 ∧ k = 0 then 68 else 0 := by
  rw [diskInodes_image hsize]
  by_cases h2 : n = 2
  · subst h2
    rw [update_self, if_neg (by simp)]
    exact ite_self 0
  by_cases h1 : n = 1
  · subst h1
    rw [update_of_ne h2, update_self]
    simp [rootDin, Dinode.root, tDir]
  · rw [update_of_ne h2, update_of_ne h1, if_neg fun h => h1 h.1, Dinode.root,
      if_pos (diskInodes_blankDisk n)]

lemma node_image (hsize : size < 2 ^ 32) (p : Place) :
    (⟨diskInodes (image (fileOf size)), image (fileOf size)⟩ : Volume).node p =
      if p = ((1, 0), []) then 68 else 0 := node_of_roots (root_image hsize) p

lemma image_of_ge {b : Nat} (hb : bmapStart ≤ b) :
    image (fileOf size) b = update (markUsed blankDisk 68) 68 rootEntries b := by
  rw [image, putInode_of_ge (by decide) hb, putInode_of_ge (by decide) hb]

lemma used_image {b : Nat} (hb : b < fsSize) : used (image (fileOf size)) b = decide (b ≤ 68) := by
  rw [used_congr hb fun x hx _ => image_of_ge hx, used_update hb (.inr (by decide)), used_markUsed,
    used_blankDisk, ← Bool.decide_or]
  unfold dataStart
  exact decide_eq_decide.mpr (by omega)

lemma image_owned (hsize : size < 2 ^ 32) :
    (⟨diskInodes (image (fileOf size)), image (fileOf size)⟩ : Volume).Owned := by
  have hnode := node_image hsize
  have heq : ∀ p, 68 ≤ (if p = (((1, 0), []) : Place) then 68 else 0) → p = ((1, 0), []) := fun p hp => by
    by_contra hne
    rw [if_neg hne] at hp
    omega
  refine ⟨fun b hlo hhi => ?_, fun p q hp _ hpq => ?_⟩
  · unfold dataStart at hlo
    rw [used_image hhi, decide_eq_true_eq]
    constructor
    · intro hb
      obtain rfl : b = 68 := by omega
      refine ⟨((1, 0), []), (hnode _).trans (if_pos rfl), fun q hq => heq q ?_⟩
      rw [← hnode, hq]
    · intro hp
      obtain ⟨p, hp, -⟩ := hp
      rw [hnode] at hp
      split at hp <;> omega
  · rw [hnode] at hp hpq
    rw [hnode] at hpq
    rw [heq p hp]
    exact (heq q (hpq ▸ hp)).symm

lemma image_inData (hsize : size < 2 ^ 32) :
    (⟨diskInodes (image (fileOf size)), image (fileOf size)⟩ : Volume).InData := by
  refine ⟨fun p hp => ?_, fun b hb => ?_⟩
  · rw [node_image hsize] at hp ⊢
    split at hp
    · rw [if_pos ‹_›]
      decide
    · exact absurd rfl hp
  · show used (image (fileOf size)) b = true
    rw [used_image (hb.trans (by decide)), decide_eq_true_eq]
    unfold dataStart at hb
    omega

lemma byte_image {x : Nat} (hx : x < 48) :
    (⟨diskInodes (image (fileOf 0)), image (fileOf 0)⟩ : Volume).byte 1 x = rootEntries.get x := by
  have hdiv : x / bSize = 0 := Nat.div_eq_of_lt (by rw [bSize_eq]; omega)
  have hmod : x % bSize = x := Nat.mod_eq_of_lt (by rw [bSize_eq]; omega)
  have hnode : (⟨diskInodes (image (fileOf 0)), image (fileOf 0)⟩ : Volume).node (blockPlace 1 0) = 68 :=
    (node_image (by decide) _).trans (if_pos (by decide))
  rw [Volume.byte, hdiv, hnode, if_neg (by decide), hmod]
  show (image (fileOf 0) 68).get x = _
  rw [image_of_ge (by decide), update_self]

lemma image_regular : (⟨diskInodes (image (fileOf 0)), image (fileOf 0)⟩ : Volume).Regular := by
  have hdin := @diskInodes_image 0 (by decide)
  intro n
  by_cases h1 : n = 1
  · subst h1
    have hroot : diskInodes (image (fileOf 0)) 1 = rootDin := by
      rw [hdin, update_of_ne (by decide), update_self]
    have hnode : ∀ bn, bn < 1 →
        (⟨diskInodes (image (fileOf 0)), image (fileOf 0)⟩ : Volume).node (blockPlace 1 bn) = 68 := by
      intro bn hbn
      obtain rfl : bn = 0 := by omega
      exact (node_image (by decide) _).trans (if_pos (by decide))
    refine ⟨fun _ bn _ hlt => ?_, fun _ => ?_, fun _ k hk => ?_⟩
    · have hlt : bn * bSize < (diskInodes (image (fileOf 0)) 1).size := hlt
      rw [hroot, bSize_eq, show rootDin.size = 48 from rfl] at hlt
      rw [hnode bn (by omega)]
      decide
    · show (diskInodes (image (fileOf 0)) 1).size ≤ _
      rw [hroot]
      decide
    · have hk : k < (diskInodes (image (fileOf 0)) 1).size / direntSize := hk
      rw [hroot, show rootDin.size / direntSize = 3 from rfl] at hk
      show ((⟨diskInodes (image (fileOf 0)), image (fileOf 0)⟩ : Volume).byte 1 (direntSize * k + 0)).toNat
        + 256 * (Volume.byte _ 1 (direntSize * k + 1)).toNat < nInodes
      unfold direntSize
      rw [byte_image (by omega), byte_image (by omega)]
      have hentries : ∀ x < 3, (rootEntries.get (16 * x + 0)).toNat +
          256 * (rootEntries.get (16 * x + 1)).toNat < nInodes := by decide
      exact hentries k hk
  · refine .of_empty ?_
    show (diskInodes (image (fileOf 0)) n).type = 0 ∨ (diskInodes (image (fileOf 0)) n).size = 0
    rw [hdin]
    by_cases h2 : n = 2
    · rw [h2, update_self]
      exact .inr rfl
    · rw [update_of_ne h2, update_of_ne h1]
      exact .inl (diskInodes_blankDisk n)

end Image

/-- The byte goes to a block that belongs to the file. -/
theorem tree_ownership_openWriteClose :
    ∃ t, Run State.step anyStep (State.mount (image (fileOf 0)) noDevices) openWriteClose t ∧
      used t.disk 69 = true ∧ t.diskVolume.Owned := by
  obtain ⟨t, hrun, hused⟩ := run_of_check State.step anyStep
    (State.mount (image (fileOf 0)) noDevices) openWriteClose (fun t => used t.disk 69 = true)
    (by decide +kernel)
  exact ⟨t, hrun, hused, (tree_ownership (image_owned (by decide)) (image_inData (by decide))
    image_regular hrun).1⟩

/-- Where `f` is a hole of 512 bytes, the block that the write allocates is lost: it is marked as used,
and neither the inode on disk nor a copy in the cache refers to it. -/
theorem hole_leaks_block :
    (⟨diskInodes (image (fileOf 512)), image (fileOf 512)⟩ : Volume).Owned ∧
    ∃ t, Run State.step anyStep (State.mount (image (fileOf 512)) noDevices) openWriteClose t ∧
      ¬ t.diskVolume.Owned ∧ ∀ i, 0 < (t.inode i).ref → ¬ (t.volume i).Owned := by
  refine ⟨image_owned (by decide), ?_⟩
  obtain ⟨t, hrun, hused, hdisk, hcache⟩ := run_of_check State.step anyStep
    (State.mount (image (fileOf 512)) noDevices) openWriteClose
    (fun t => used t.disk 69 = true ∧
      (∀ n < nInodes, ∀ k, (diskInode t.disk n).root k = if n = 1 ∧ k = 0 then 68 else 0) ∧
      ∀ i, 0 < (t.inode i).ref → (t.inode i).inum = 1 ∧
        ∀ k, (t.inode i).din.root k = if k = 0 then 68 else 0)
    (by decide +kernel)
  have hroot : ∀ n k, (diskInodes t.disk n).root k = if n = 1 ∧ k = 0 then 68 else 0 := fun n k => by
    unfold diskInodes
    split
    · exact hdisk n ‹_› k
    · rename_i hn
      have hne : ¬ (n = 1 ∧ k = 0) := fun h => hn (by rw [h.1]; decide)
      rw [if_neg hne]
      exact ite_self 0
  -- the block would have to be at some position
  have hlost : ∀ v : Volume, v.disk = t.disk →
      (∀ n k, (v.din n).root k = if n = 1 ∧ k = 0 then 68 else 0) → ¬ v.Owned := by
    intro v hv hroots howned
    obtain ⟨p, hp, -⟩ := (howned.marked 69 (by decide) (by decide)).mp (hv ▸ hused)
    rw [node_of_roots hroots] at hp
    split at hp <;> omega
  refine ⟨t, hrun, hlost _ rfl hroot, fun i hi => hlost _ rfl fun n k => ?_⟩
  obtain ⟨hinum, hdin⟩ := hcache i hi
  show (Function.update (diskInodes t.disk) (t.inode i).inum (t.inode i).din n).root k = _
  by_cases hn : n = 1
  · rw [hinum, hn, update_self, hdin k]
    simp
  · rw [hinum, update_of_ne hn, hroot]

end Xv6.Fs
