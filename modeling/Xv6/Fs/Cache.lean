import Xv6.Fs.Dir
import Xv6.Lib.Ledger

/-!
# The inode cache and the disk

What the paths of the file system keep between them when they run one after the other: the volume on
disk is sound and its files have no holes, the valid entries of the inode cache agree with it, and every
reference to an entry is counted.

The invariant `FsInv C T L s` has three ghost arguments. `C` are the references to cache entries that
the file table and the working directories hold, each with the number of the inode it stands for; `T`
are those of the path that is running. `L` are the entries that this path has locked, with the types of
their inodes. `ilock` and `iunlock` add to `L` and take from it, `iget`, `idup` and `iput` do so with
`T`; at the end of a system call `L` and `T` are empty. `Kept P s₀ C T L s` adds what the path knows of
the volume on disk, `P`; the specifications of the paths that write to the disk say how `P` changes.
-/

namespace Xv6.Fs

open Multiset (count_add count_cons_self map_add map_cons mem_add mem_cons_of_mem mem_map_of_mem)
open Function (update_self update_of_ne)
open Lib Disk

/-! ### Blocks that are there -/

variable {n : Nat}

section Hit

variable {i : InodeId} {s : State}

lemma follow_hit {k : Fin nAddrs} {r : List (Fin nIndirect)} :
    ∀ {q : List (Fin nIndirect)}, (s.volume i).node ((n, k), q ++ r) ≠ 0 →
      follow ((s.volume i).node ((n, k), q)) r s = .ok ((s.volume i).node ((n, k), q ++ r)) s := by
  induction r with
  | nil =>
    intro q _
    rw [List.append_nil]
    rfl
  | cons j r ih =>
    intro q hne
    have hsplit : q ++ j :: r = (q ++ [j]) ++ r := by simp
    rw [hsplit] at hne ⊢
    have hchild := Forest.node_ne_of_append hne
    have hlen := Forest.length_le_of_node hchild
    rw [List.length_append, List.length_singleton] at hlen
    have hentry : (s.volume i).node ((n, k), q ++ [j]) =
        (s.disk ((s.volume i).node ((n, k), q))).word j :=
      Forest.node_snoc (by omega) (Forest.node_ne_of_append hchild)
    have hentry0 : (s.disk ((s.volume i).node ((n, k), q))).word j ≠ 0 := by
      rw [← hentry]
      exact hchild
    have hread : indexEntry ((s.volume i).node ((n, k), q)) j s =
        .ok ((s.volume i).node ((n, k), q ++ [j])) s := by
      unfold indexEntry bread
      simp only [bind_run, get_run, pure_run, ite_run]
      rw [if_neg hentry0, hentry]
    rw [follow, bind_run, hread]
    exact ih hne

lemma bmap_hit (htype : (s.inode i).din.type ≠ 0) {bn : Nat} (hbn : bn < maxFile)
    (hne : (s.volume i).node (blockPlace (s.inode i).inum bn) ≠ 0) :
    bmap i bn s = .ok ((s.volume i).node (blockPlace (s.inode i).inum bn)) s := by
  have htop := node_top htype (blockPath bn).1
  have hroot : (s.inode i).din.addrs (blockPath bn).1 ≠ 0 := by
    rw [← htop]
    exact Forest.node_ne_of_append (q := []) (r := (blockPath bn).2) hne
  have hread : topEntry i (blockPath bn).1 s =
      .ok ((s.volume i).node (((s.inode i).inum, (blockPath bn).1), [])) s := by
    unfold topEntry
    simp only [bind_run, get_run, pure_run, ite_run]
    rw [if_neg hroot, htop]
  rw [bmap_eq i hbn, bind_run, hread]
  exact follow_hit (q := []) hne

lemma readLoop_hit {rounds : Nat} (htype : (s.inode i).din.type ≠ 0)
    (hno : (s.volume i).NoHoles (s.inode i).inum) (hmax : (s.inode i).din.size ≤ maxFile * bSize) :
    ∀ {off n : Nat}, n ≤ rounds → off + n ≤ (s.inode i).din.size →
      readLoop i rounds off n s = .ok ((s.volume i).bytes (s.inode i).inum off n) s := by
  induction rounds with
  | zero =>
    intro off n hn _
    obtain rfl : n = 0 := by omega
    rfl
  | succ rounds ih =>
    intro off n hn hlen
    unfold readLoop
    rw [ite_run]
    split
    · rename_i h0
      subst h0
      rfl
    rename_i h0
    generalize hm : min n (bSize - off % bSize) = m
    have hmn : n = m + (n - m) := by omega
    have hm0 : 0 < m := by
      have := Nat.mod_lt off (show 0 < bSize by decide)
      omega
    have hbn : off / bSize < maxFile := Nat.div_lt_of_lt_mul (by rw [Nat.mul_comm]; omega)
    have hne : (s.volume i).node (blockPlace (s.inode i).inum (off / bSize)) ≠ 0 := by
      refine hno _ hbn ?_
      have := Nat.div_mul_le_self off bSize
      rw [State.volume_din_self]
      omega
    have hslice : (s.disk ((s.volume i).node (blockPlace (s.inode i).inum (off / bSize)))).slice
        (off % bSize) m = (s.volume i).bytes (s.inode i).inum off m :=
      Volume.slice_eq_bytes (v := s.volume i) (by omega) hne
    simp only [bind_run, bmap_hit htype hbn hne, bread, get_run, pure_run]
    rw [ih (by omega) (by omega)]
    show EStateM.Result.ok _ s = _
    rw [hslice, ← Volume.bytes_add, ← hmn]

end Hit

/-! ### Regular volumes -/

/-- The same tree, size and type; the link count and the device numbers may differ. -/
structure Dinode.SameTree (d d' : Dinode) : Prop where
  type : d.type = d'.type
  size : d.size = d'.size
  addrs : d.addrs = d'.addrs

namespace Dinode.SameTree

variable {d d' d'' : Dinode}

lemma refl (d : Dinode) : SameTree d d := ⟨rfl, rfl, rfl⟩

lemma root (h : SameTree d d') (k : Fin nAddrs) : d.root k = d'.root k := by
  rw [Dinode.root, Dinode.root, h.type, h.addrs]

end Dinode.SameTree

namespace Volume

/-- Inode `n`, if it is allocated, has no holes and a possible size, and if it is a directory, its
entries are numbers of inodes. -/
structure RegularAt (v : Volume) (n : Nat) : Prop where
  noHoles : (v.din n).type ≠ 0 → v.NoHoles n
  size : (v.din n).type ≠ 0 → (v.din n).size ≤ maxFile * bSize
  dirs : (v.din n).type = tDir → ∀ k, k < v.slots n → (v.dirent n k).inum < nInodes

/-- All inodes are regular. -/
def Regular (v : Volume) : Prop := ∀ n, v.RegularAt n

variable {v v' : Volume} {n : Nat}

lemma RegularAt.congr (h : v.RegularAt n) (hdin : (v'.din n).SameTree (v.din n))
    (hnode : ∀ bn, v.node (blockPlace n bn) ≠ 0 → v'.node (blockPlace n bn) ≠ 0)
    (hbyte : ∀ off, v'.byte n off = v.byte n off) : v'.RegularAt n where
  noHoles htype bn hbn hlt :=
    hnode bn (h.noHoles (hdin.type ▸ htype) bn hbn (hdin.size ▸ hlt))
  size htype := hdin.size ▸ h.size (hdin.type ▸ htype)
  dirs htype k hk := by
    rw [dirent_congr hbyte]
    exact h.dirs (hdin.type ▸ htype) k (slots_congr hdin.size ▸ hk)

lemma RegularAt.of_empty (h : (v.din n).type = 0 ∨ (v.din n).size = 0) : v.RegularAt n where
  noHoles htype bn _ hlt := by
    rw [h.resolve_left htype] at hlt
    exact absurd hlt (Nat.not_lt_zero _)
  size htype := by
    rw [h.resolve_left htype]
    exact zero_le
  dirs htype k hk := by
    rw [slots, h.resolve_left (by rw [htype]; decide)] at hk
    exact absurd hk (Nat.not_lt_zero _)

lemma sameTrees_regular (h : v.Sound) (hreg : v.Regular)
    (hdin : ∀ n, (v'.din n).SameTree (v.din n) ∨
      (∀ k, (v'.din n).root k = (v.din n).root k) ∧ ((v'.din n).type = 0 ∨ (v'.din n).size = 0))
    (hdisk : ∀ b, bmapStart ≤ b → v'.disk b = v.disk b) :
    v'.Sound ∧ v'.Regular ∧ ∀ n off, v'.byte n off = v.byte n off := by
  have hroot : ∀ n k, (v'.din n).root k = (v.din n).root k := fun n k =>
    (hdin n).elim (fun h => h.root k) fun h => h.1 k
  obtain ⟨hsound, hnode, hbyte⟩ := h.sameTrees hroot hdisk
  refine ⟨hsound, fun n => (hdin n).elim (fun hn => ?_) fun hn => .of_empty hn.2, hbyte⟩
  exact (hreg n).congr hn (fun bn hne => by rwa [hnode]) (hbyte n)

end Volume

/-! ### The invariant -/

/-- The volume on disk. -/
def State.diskVolume (s : State) : Volume := ⟨diskInodes s.disk, s.disk⟩

/-- The cache entry that an open file refers to. -/
def File.refers (x : File) : Multiset InodeId := if x.type = .inode then {x.ip} else 0

/-- The cache entries that the open files refer to. -/
def State.openers (s : State) : Multiset InodeId := ∑ f, (s.file f).refers

/-- The cache entries that are working directories. -/
def State.cwds (s : State) : Multiset InodeId := ∑ p, (s.cwd p).elim 0 ({·})

/-- The number of the inode that a cache entry stands for. -/
def State.tag (s : State) (i : InodeId) : InodeId × Nat := (i, (s.inode i).inum)

/-- The references of the open files and the working directories. -/
def State.refs (s : State) : Multiset (InodeId × Nat) := (s.openers + s.cwds).map s.tag

/-- The cache agrees with a sound and regular disk; the references `C` of the open files and working
directories and `T` of the running path are counted; `L` is locked. -/
structure FsInv (C T : Multiset (InodeId × Nat)) (L : List (InodeId × Int16)) (s : State) : Prop where
  sound : s.diskVolume.Sound
  regular : s.diskVolume.Regular
  inum : ∀ i, (s.inode i).inum < nInodes
  unique : ∀ i j, 0 < (s.inode i).ref → 0 < (s.inode j).ref → (s.inode i).inum = (s.inode j).inum →
    i = j
  cached : ∀ i, 0 < (s.inode i).ref → (s.inode i).valid = true →
    (s.inode i).din = diskInodes s.disk (s.inode i).inum ∧ (s.inode i).din.type ≠ 0
  refs : ∀ i, (((C.map Prod.fst).count i + (T.map Prod.fst).count i : Nat) : Int) ≤ (s.inode i).ref
  pins : ∀ x ∈ C, (s.inode x.1).inum = x.2
  tags : ∀ x ∈ T, (s.inode x.1).inum = x.2
  opened : s.openers ≤ C.map Prod.fst
  /-- an inode that is held is not freed -/
  alive : ∀ x ∈ C, x.2 = rootIno ∨ (diskInodes s.disk x.2).type ≠ 0
  nodup : (L.map Prod.fst).Nodup
  held : ∀ x ∈ L, (s.inode x.1).locked = true ∧ 0 < (s.inode x.1).ref ∧
    (s.inode x.1).valid = true ∧ (s.inode x.1).din.type = x.2
  files : ∀ f, (s.file f).type = .inode → 0 < (s.file f).ref ∧
    (s.inode (s.file f).ip).valid = true ∧
    ((s.file f).writable = true → (s.inode (s.file f).ip).din.type ≠ tDir)

/-- The ways to stop that are not a `bfree` of a free block. -/
def NotFreeing (e : Stop) : Prop := e ≠ .panic "freeing free block"

variable {s : State} {k : Nat} {e : Stop}

lemma Fails.notFreeing {m : Nat} (h : Fails s m k e) : NotFreeing e := by
  cases h with
  | noBlocks he _ | tooBig he _ _ | noTrans he _ _ => rw [he]; unfold NotFreeing; decide

lemma LogFails.notFreeing (h : LogFails e) : NotFreeing e := by
  rcases h with he | he <;> · rw [he]; unfold NotFreeing; decide

variable {disk : Nat → Block}

namespace FsInv

variable {C C' T T' : Multiset (InodeId × Nat)} {L L' : List (InodeId × Int16)} {s s' : State} {i : InodeId}

variable {f : FileId}

lemma mem_openers (hf : (s.file f).type = .inode) : (s.file f).ip ∈ s.openers := by
  refine Multiset.mem_sum.mpr ⟨f, Finset.mem_univ f, ?_⟩
  rw [File.refers, if_pos hf]
  exact Multiset.mem_singleton_self _

lemma opened_pos (h : FsInv C T L s) (hf : (s.file f).type = .inode) :
    0 < (C.map Prod.fst).count (s.file f).ip :=
  Multiset.count_pos.mpr (Multiset.mem_of_le h.opened (mem_openers hf))

/-- Apart from references to entry `i`, the references `T'` are among `T`. -/
structure Within (i : InodeId) (T' T : Multiset (InodeId × Nat)) : Prop where
  count : ∀ j, j ≠ i → (T'.map Prod.fst).count j ≤ (T.map Prod.fst).count j
  mem : ∀ x ∈ T', x.1 ≠ i → x ∈ T

namespace Within

lemma refl (i : InodeId) (T : Multiset (InodeId × Nat)) : Within i T T :=
  ⟨fun _ _ => le_refl _, fun _ hx _ => hx⟩

/-- A reference to `i` more. -/
lemma cons (i : InodeId) (n : Nat) (T : Multiset (InodeId × Nat)) : Within i ((i, n) ::ₘ T) T := by
  refine ⟨fun j hj => ?_, fun x hx hxi => ?_⟩
  · rw [map_cons, Multiset.count_cons_of_ne hj]
  · exact (Multiset.mem_cons.mp hx).resolve_left fun heq => hxi (heq ▸ rfl)

lemma of_cons (i : InodeId) (n : Nat) (T : Multiset (InodeId × Nat)) : Within i T ((i, n) ::ₘ T) := by
  refine ⟨fun j hj => ?_, fun x hx _ => mem_cons_of_mem hx⟩
  rw [map_cons, Multiset.count_cons_of_ne hj]

end Within

lemma pins_self (h : FsInv C T L s) : ∀ x ∈ C, x.1 = i → (s.inode i).inum = x.2 :=
  fun x hx hxi => hxi ▸ h.pins x hx

lemma tags_self (h : FsInv C T L s) : ∀ x ∈ T, x.1 = i → (s.inode i).inum = x.2 :=
  fun x hx hxi => hxi ▸ h.tags x hx

/-- A step that changes one entry of the cache, and the disk below the other entries only where they do
not look. -/
lemma change (h : FsInv C T L s) (i : InodeId) (hfile : s'.file = s.file)
    (hentries : ∀ j ≠ i, s'.inode j = s.inode j)
    (hsound : s'.diskVolume.Sound) (hregular : s'.diskVolume.Regular)
    (hdisk : ∀ j ≠ i, 0 < (s.inode j).ref → (s.inode j).valid →
      diskInodes s'.disk (s.inode j).inum = diskInodes s.disk (s.inode j).inum)
    (hinum : (s'.inode i).inum < nInodes)
    (hunique : 0 < (s'.inode i).ref → ∀ j ≠ i, 0 < (s.inode j).ref →
      (s.inode j).inum ≠ (s'.inode i).inum)
    (hcached : 0 < (s'.inode i).ref → (s'.inode i).valid →
      (s'.inode i).din = diskInodes s'.disk (s'.inode i).inum ∧ (s'.inode i).din.type ≠ 0)
    (hrefs : (((C.map Prod.fst).count i + (T'.map Prod.fst).count i : Nat) : Int) ≤ (s'.inode i).ref)
    (hT : Within i T' T) (hpins : ∀ x ∈ C, x.1 = i → (s'.inode i).inum = x.2)
    (htags : ∀ x ∈ T', x.1 = i → (s'.inode i).inum = x.2)
    (halive : ∀ x ∈ C, (diskInodes s.disk x.2).type ≠ 0 → (diskInodes s'.disk x.2).type ≠ 0)
    (hnodup : (L'.map Prod.fst).Nodup) (hL : ∀ x ∈ L', x.1 ≠ i → x ∈ L)
    (hheld : ∀ x ∈ L', x.1 = i → (s'.inode i).locked ∧ 0 < (s'.inode i).ref ∧
      (s'.inode i).valid ∧ (s'.inode i).din.type = x.2)
    (hfiles : ∀ f, (s.file f).type = .inode → (s.file f).ip = i → (s'.inode i).valid ∧
      ((s.file f).writable → (s'.inode i).din.type ≠ tDir)) : FsInv C T' L' s' where
  sound := hsound
  regular := hregular
  inum j := by
    by_cases hj : j = i
    · rwa [hj]
    · rw [hentries j hj]
      exact h.inum j
  unique j k hjref hkref heq := by
    by_cases hj : j = i
    · by_cases hk : k = i
      · rw [hj, hk]
      · subst hj
        rw [hentries k hk] at hkref heq
        exact absurd heq.symm (hunique hjref k hk hkref)
    · rw [hentries j hj] at hjref heq
      by_cases hk : k = i
      · subst hk
        exact absurd heq (hunique hkref j hj hjref)
      · rw [hentries k hk] at hkref heq
        exact h.unique j k hjref hkref heq
  cached j href hvalid := by
    by_cases hj : j = i
    · subst hj
      exact hcached href hvalid
    · rw [hentries j hj] at href hvalid ⊢
      rw [hdisk j hj href hvalid]
      exact h.cached j href hvalid
  refs j := by
    by_cases hj : j = i
    · rwa [hj]
    · rw [hentries j hj]
      have := h.refs j
      have := hT.count j hj
      omega
  pins x hx := by
    by_cases hxi : x.1 = i
    · rw [hxi]
      exact hpins x hx hxi
    · rw [hentries _ hxi]
      exact h.pins x hx
  opened := by
    rw [State.openers, hfile]
    exact h.opened
  alive x hx := (h.alive x hx).imp_right (halive x hx)
  tags x hx := by
    by_cases hxi : x.1 = i
    · rw [hxi]
      exact htags x hx hxi
    · rw [hentries _ hxi]
      exact h.tags x (hT.mem x hx hxi)
  nodup := hnodup
  held x hx := by
    by_cases hxi : x.1 = i
    · rw [hxi]
      exact hheld x hx hxi
    · rw [hentries _ hxi]
      exact h.held x (hL x hx hxi)
  files f hf := by
    rw [hfile] at hf ⊢
    refine ⟨(h.files f hf).1, ?_⟩
    by_cases hfi : (s.file f).ip = i
    · rw [hfi]
      exact hfiles f hf hfi
    · rw [hentries _ hfi]
      exact (h.files f hf).2

/-- A step that changes one entry of the cache but not what it stands for. -/
lemma touch (h : FsInv C T L s) {ip : Inode} (hinum : ip.inum = (s.inode i).inum)
    (hvalid : ip.valid = (s.inode i).valid) (hdin : ip.din = (s.inode i).din)
    (hpos : 0 < ip.ref → 0 < (s.inode i).ref)
    (hrefs : (((C.map Prod.fst).count i + (T'.map Prod.fst).count i : Nat) : Int) ≤ ip.ref)
    (hT : Within i T' T) (htags : ∀ x ∈ T', x.1 = i → (s.inode i).inum = x.2)
    (hnodup : (L'.map Prod.fst).Nodup) (hL : ∀ x ∈ L', x.1 ≠ i → x ∈ L)
    (hheld : ∀ x ∈ L', x.1 = i → ip.locked ∧ 0 < ip.ref ∧ ip.valid ∧
      ip.din.type = x.2) : FsInv C T' L' (s.setInode i ip) := by
  refine h.change i rfl (fun j hj => State.setInode_inode_of_ne s _ hj) h.sound h.regular
    (fun _ _ _ _ => rfl) ?_ ?_ ?_ ?_ hT ?_ ?_ (fun _ _ => id) hnodup hL ?_ ?_
  all_goals rw [State.setInode_inode_self]
  · rw [hinum]
    exact h.inum i
  · rw [hinum]
    exact fun href j hj hjref heq => hj (h.unique j i hjref (hpos href) heq)
  · rw [hinum, hdin]
    exact fun href hv => h.cached i (hpos href) (hvalid ▸ hv)
  · exact hrefs
  · rw [hinum]
    exact h.pins_self
  · rw [hinum]
    exact htags
  · exact hheld
  · rw [hvalid, hdin]
    exact fun f hf hfi => hfi ▸ (h.files f hf).2

lemma setDisk (h : FsInv C T L s) (l : Log) (hsound : (⟨diskInodes disk, disk⟩ : Volume).Sound)
    (hregular : (⟨diskInodes disk, disk⟩ : Volume).Regular)
    (hdisk : ∀ j, 0 < (s.inode j).ref → (s.inode j).valid →
      diskInodes disk (s.inode j).inum = diskInodes s.disk (s.inode j).inum)
    (halive : ∀ x ∈ C, (diskInodes s.disk x.2).type ≠ 0 → (diskInodes disk x.2).type ≠ 0) :
    FsInv C T L { s with disk := disk, log := l } where
  sound := hsound
  regular := hregular
  inum := h.inum
  unique := h.unique
  cached j href hvalid := (hdisk j href hvalid).symm ▸ h.cached j href hvalid
  refs := h.refs
  pins := h.pins
  tags := h.tags
  opened := h.opened
  alive x hx := (h.alive x hx).imp_right (halive x hx)
  nodup := h.nodup
  held := h.held
  files := h.files

lemma setLog (h : FsInv C T L s) (l : Log) : FsInv C T L { s with log := l } :=
  h.setDisk l h.sound h.regular (fun _ _ _ => rfl) fun _ _ => id

/-- A reference of the running path becomes one of an open file or a working directory, or the other way
round. -/
lemma repin (h : FsInv C T L s) (hsum : C' + T' = C + T) (hopened : s.openers ≤ C'.map Prod.fst)
    (halive : ∀ x ∈ C', x ∈ C ∨ (diskInodes s.disk x.2).type ≠ 0) : FsInv C' T' L s := by
  have hmem : ∀ x, x ∈ C' ∨ x ∈ T' → (s.inode x.1).inum = x.2 := fun x hx => by
    rw [← mem_add, hsum, mem_add] at hx
    exact hx.elim (h.pins x) (h.tags x)
  refine ⟨h.sound, h.regular, h.inum, h.unique, h.cached, fun i => ?_, fun x hx => hmem x (.inl hx),
    fun x hx => hmem x (.inr hx), hopened, fun x hx => (halive x hx).elim (h.alive x) .inr, h.nodup,
    h.held, h.files⟩
  rw [← count_add, ← map_add, hsum, map_add, count_add]
  exact h.refs i

lemma openers_setFile (s : State) (f : FileId) (x : File) :
    (s.setFile f x).openers + (s.file f).refers = s.openers + x.refers := by
  have := sum_add_of_ne (f := fun g => (s.file g).refers)
    (g := fun g => ((s.setFile f x).file g).refers) (p := f) fun g hg => by
      rw [show (s.setFile f x).file g = s.file g from update_of_ne hg _ _]
  rwa [show (s.setFile f x).file f = x from update_self ..] at this

lemma setFile (h : FsInv C T L s) {x : File} (hopened : (s.setFile f x).openers ≤ C.map Prod.fst)
    (hx : x.type = .inode → 0 < x.ref ∧ (s.inode x.ip).valid ∧
      (x.writable → (s.inode x.ip).din.type ≠ tDir)) : FsInv C T L (s.setFile f x) := by
  refine ⟨h.sound, h.regular, h.inum, h.unique, h.cached, h.refs, h.pins, h.tags, hopened, h.alive,
    h.nodup, h.held, fun g hg => ?_⟩
  by_cases hgf : g = f
  · subst hgf
    rw [show (s.setFile g x).file g = x from update_self ..] at hg ⊢
    exact hx hg
  · rw [show (s.setFile f x).file g = s.file g from update_of_ne hgf _ _] at hg ⊢
    exact h.files g hg

lemma ref_pos (h : FsInv C T L s) (hi : (i, n) ∈ C) : 0 < (s.inode i).ref := by
  have := h.refs i
  have hpos : 0 < (C.map Prod.fst).count i :=
    Multiset.count_pos.mpr (mem_map_of_mem Prod.fst hi)
  omega

lemma swap {x y : InodeId × Int16} (h : FsInv C T (x :: y :: L) s) : FsInv C T (y :: x :: L) s :=
  ⟨h.sound, h.regular, h.inum, h.unique, h.cached, h.refs, h.pins, h.tags, h.opened, h.alive,
    ((List.Perm.swap y x L).map Prod.fst).nodup_iff.mp h.nodup,
    fun z hz => h.held z ((List.Perm.swap y x L).mem_iff.mpr hz), h.files⟩

lemma locked (h : FsInv C T L s) {t : Int16} (hi : (i, t) ∈ L) : (s.inode i).locked ∧
    0 < (s.inode i).ref ∧ (s.inode i).valid ∧ (s.inode i).din.type = t := h.held _ hi

/-- A valid entry is a copy of the inode on disk. -/
lemma volume (h : FsInv C T L s) (href : 0 < (s.inode i).ref) (hvalid : (s.inode i).valid) :
    s.volume i = s.diskVolume := by
  unfold State.volume State.diskVolume
  rw [(h.cached i href hvalid).1, Function.update_eq_self]

end FsInv

/-! ### Paths that keep the invariant -/

/-- The invariant holds, the file table and the working directories are those of `s₀`, and the volume on
disk is as `P` says. -/
structure Kept (P : Volume → Prop) (s₀ : State) (C T : Multiset (InodeId × Nat))
    (L : List (InodeId × Int16)) (s : State) : Prop extends FsInv C T L s where
  file : s.file = s₀.file
  cwd : s.cwd = s₀.cwd
  holds : P s.diskVolume

/-- A path may stop, but not because it frees a free block. -/
def Quiet (e : Stop) (_ : State) : Prop := NotFreeing e

lemma quiet_panic {α : Type} {msg : String} {Q : α → State → Prop}
    (h : msg ≠ "freeing free block") : wp (panic msg : FM α) s Q Quiet := by
  intro heq
  injection heq with heq
  exact h heq

variable {d : Dinode} {off : Nat} {src : List UInt8}

section Paths

variable {P P' : Volume → Prop} {s₀ s : State} {C T : Multiset (InodeId × Nat)}
  {L : List (InodeId × Int16)} {i : InodeId} {n : Nat} {t : Int16}

lemma FsInv.kept (h : FsInv C T L s) (hP : P s.diskVolume) : Kept P s C T L s := ⟨h, rfl, rfl, hP⟩

lemma Kept.mono (h : Kept P s₀ C T L s) (hP : P s.diskVolume → P' s.diskVolume) :
    Kept P' s₀ C T L s := ⟨h.toFsInv, h.file, h.cwd, hP h.holds⟩

lemma beginOp_spec (h : Kept P s₀ C T L s) : wp beginOp s (fun _ s' => Kept P s₀ C T L s') Quiet := by
  unfold beginOp
  rw [wp_bind, wp_get, wp_ite]
  split
  · exact nofun
  · exact ⟨h.setLog _, h.file, h.cwd, h.holds⟩

lemma endOp_log (s : State) : wp endOp s (fun _ s' => ∃ l, s' = { s with log := l }) Quiet := by
  unfold endOp
  rw [wp_bind, wp_get]
  dsimp only
  rw [wp_ite]
  split
  · rw [wp_ite]
    split
    · exact quiet_panic (by decide)
    · rw [wp_ite]
      split <;> exact ⟨_, rfl⟩
  · exact ⟨_, rfl⟩

lemma endOp_spec (h : Kept P s₀ C T L s) : wp endOp s (fun _ s' => Kept P s₀ C T L s') Quiet := by
  refine (endOp_log s).imp fun _ s' hs' => ?_
  obtain ⟨l, rfl⟩ := hs'
  exact ⟨h.setLog l, h.file, h.cwd, h.holds⟩

lemma idup_spec (h : Kept P s₀ C T L s) (href : 0 < (s.inode i).ref) (hn : (s.inode i).inum = n) :
    wp (idup i) s (fun _ s' => Kept P s₀ C ((i, n) ::ₘ T) L s') Quiet := by
  unfold idup modifyInode
  simp only [wp_bind, wp_get, wp_set]
  refine ⟨?_, h.file, h.cwd, h.holds⟩
  refine h.touch rfl rfl rfl (fun _ => href) ?_ (.cons i n T) (fun x hx hxi => ?_) h.nodup
    (fun _ hx _ => hx) fun x hx hxi => ?_
  · have := h.refs i
    rw [map_cons, count_cons_self]
    push_cast at this ⊢
    omega
  · cases Multiset.mem_cons.mp hx with
    | inl heq => rw [heq, hn]
    | inr hx => exact h.tags_self x hx hxi
  · subst hxi
    obtain ⟨hlock, href, hvalid, htype⟩ := h.held x hx
    exact ⟨hlock, by show 0 < _ + 1; omega, hvalid, htype⟩

lemma iget_spec (h : Kept P s₀ C T L s) (hn : n < nInodes) :
    wp (iget n) s (fun i s' => Kept P s₀ C ((i, n) ::ₘ T) L s') Quiet := by
  unfold iget
  rw [wp_bind, wp_get]
  split
  · rename_i i hfind
    have hi := List.find?_some hfind
    rw [decide_eq_true_eq] at hi
    exact wp.seq (idup_spec h hi.1 hi.2) fun _ s' h' => h'
  · rename_i hnone
    have hother : ∀ j, 0 < (s.inode j).ref → (s.inode j).inum ≠ n := fun j hj heq => by
      have := List.find?_eq_none.mp hnone j (List.mem_finRange j)
      exact this (decide_eq_true ⟨hj, heq⟩)
    split
    · rename_i i hfind
      have hi := List.find?_some hfind
      rw [decide_eq_true_eq] at hi
      simp only [modifyInode, wp_bind, wp_get, wp_set, wp_pure]
      refine ⟨?_, h.file, h.cwd, h.holds⟩
      have hunused := h.refs i
      have hnone : ∀ R : Multiset (InodeId × Nat), (R.map Prod.fst).count i = 0 → ∀ x ∈ R, x.1 ≠ i :=
        fun R hR x hx hxi => by
          have := Multiset.count_pos.mpr (hxi ▸ mem_map_of_mem Prod.fst hx)
          omega
      refine h.change i rfl (fun j hj => State.setInode_inode_of_ne s _ hj) h.sound h.regular
        (fun _ _ _ _ => rfl) ?_ ?_ ?_ ?_ (.cons i n T)
        (fun x hx hxi => absurd hxi (hnone C (by omega) x hx)) (fun x hx hxi => ?_) (fun _ _ => id)
        h.nodup (fun _ hx _ => hx) (fun x hx hxi => ?_) (fun f hf hfi => ?_)
      · rwa [State.setInode_inode_self]
      · rw [State.setInode_inode_self]
        exact fun _ j _ hjref => hother j hjref
      · rw [State.setInode_inode_self]
        simp
      · rw [State.setInode_inode_self, map_cons, count_cons_self]
        push_cast at hunused ⊢
        omega
      · rw [State.setInode_inode_self]
        cases Multiset.mem_cons.mp hx with
        | inl heq => rw [heq]
        | inr hx => exact absurd hxi (hnone T (by omega) x hx)
      · subst hxi
        have := (h.held x hx).2.1
        omega
      · subst hfi
        have := h.opened_pos hf
        omega
    · exact quiet_panic (by decide)

/-- Lock an inode: it is from now on of the type it has on disk. -/
lemma ilock_spec (h : Kept P s₀ C T L s) :
    wp (ilock i) s
      (fun _ s' => Kept P s₀ C T ((i, (diskInodes s.disk (s.inode i).inum).type) :: L) s' ∧
        s'.disk = s.disk ∧ (s'.inode i).inum = (s.inode i).inum) Quiet := by
  unfold ilock acquiresleep
  rw [wp_bind, wp_get, wp_ite]
  split
  · exact quiet_panic (by decide)
  rename_i href
  simp only [modifyInode, wp_bind, wp_get, wp_set, wp_ite, wp_throw, State.setInode_inode_self,
    State.setInode_setInode, State.setInode_disk]
  split
  · exact fun heq => Stop.noConfusion heq
  rename_i hunlocked
  have hnew : ∀ x ∈ L, x.1 ≠ i := fun x hx hxi => hunlocked (hxi ▸ (h.held x hx).1)
  have hnodup : ∀ t : Int16, (((i, t) :: L).map Prod.fst).Nodup := fun t =>
    List.nodup_cons.mpr ⟨fun hi => by
      obtain ⟨x, hx, heq⟩ := List.mem_map.mp hi
      exact hnew x hx heq, h.nodup⟩
  have hold : ∀ t, ∀ x ∈ (i, t) :: L, x.1 ≠ i → x ∈ L := fun t x hx hxi =>
    (List.mem_cons.mp hx).resolve_left fun heq => hxi (heq ▸ rfl)
  have hown : ∀ t, ∀ x ∈ (i, t) :: L, x.1 = i → x.2 = t := fun t x hx hxi =>
    (List.mem_cons.mp hx).elim (fun heq => heq ▸ rfl) fun hx => absurd hxi (hnew x hx)
  have hpos : 0 < (s.inode i).ref := by omega
  split
  · rename_i hinvalid
    split
    · exact quiet_panic (by decide)
    rename_i htype
    have hdisk : diskInodes s.disk (s.inode i).inum = diskInode s.disk (s.inode i).inum :=
      if_pos (h.inum i)
    rw [hdisk]
    refine ⟨⟨?_, h.file, h.cwd, h.holds⟩, rfl, by rw [State.setInode_inode_self]⟩
    refine h.change i rfl (fun j hj => State.setInode_inode_of_ne s _ hj) h.sound h.regular
      (fun _ _ _ _ => rfl) ?_ ?_ ?_ ?_ (.refl i T) ?_ ?_ (fun _ _ => id) (hnodup _) (hold _) ?_ ?_
    all_goals rw [State.setInode_inode_self]
    · exact h.inum i
    · exact fun _ j hj hjref heq => hj (h.unique j i hjref hpos heq)
    · exact fun _ _ => ⟨hdisk.symm, htype⟩
    · exact h.refs i
    · exact h.pins_self
    · exact h.tags_self
    · exact fun x hx hxi => ⟨rfl, hpos, rfl, (hown _ x hx hxi).symm⟩
    · intro f hf hfi
      rw [← hfi, (h.files f hf).2.1] at hinvalid
      cases hinvalid
  · rename_i hvalid
    have hvalid : (s.inode i).valid := by simpa using hvalid
    rw [← (h.cached i hpos hvalid).1]
    refine ⟨⟨?_, h.file, h.cwd, h.holds⟩, rfl, by rw [State.setInode_inode_self]⟩
    refine h.touch rfl rfl rfl id (h.refs i) (.refl i T) h.tags_self (hnodup _) (hold _) ?_
    exact fun x hx hxi => ⟨rfl, hpos, hvalid, (hown _ x hx hxi).symm⟩

/-- Unlock an inode: what was known about it is still true at this moment. -/
lemma iunlock_spec (h : Kept P s₀ C T ((i, t) :: L) s) :
    wp (iunlock i) s (fun _ s' => Kept P s₀ C T L s' ∧ (s'.inode i).valid ∧
      (s'.inode i).din.type = t) Quiet := by
  obtain ⟨-, -, hvalid, htype⟩ := h.locked (.head _)
  obtain ⟨hnew, hnodup⟩ := List.nodup_cons.mp h.nodup
  unfold iunlock releasesleep modifyInode
  simp only [wp_bind, wp_get, wp_set, wp_ite, State.setInode_inode_self]
  split
  · exact quiet_panic (by decide)
  refine ⟨⟨?_, h.file, h.cwd, h.holds⟩, hvalid, htype⟩
  refine h.touch rfl rfl rfl id (h.refs i) (.refl i T) h.tags_self hnodup
    (fun x hx _ => List.mem_cons_of_mem _ hx) ?_
  exact fun x hx hxi => absurd (List.mem_map.mpr ⟨x, hx, hxi⟩) hnew

/-! ### Paths that write inodes -/

lemma putInode_sound {disk' : Nat → Block} (hn : n < nInodes)
    (hd : d.Fits) (hdisk : disk' = putInode disk n d) (hsound : (⟨diskInodes disk, disk⟩ : Volume).Sound)
    (hreg : (⟨diskInodes disk, disk⟩ : Volume).Regular)
    (htree : d.SameTree (diskInodes disk n) ∨
      (∀ k, d.root k = (diskInodes disk n).root k) ∧ (d.type = 0 ∨ d.size = 0)) :
    (⟨diskInodes disk', disk'⟩ : Volume).Sound ∧ (⟨diskInodes disk', disk'⟩ : Volume).Regular ∧
      Volume.Sets ⟨diskInodes disk, disk⟩ n d ⟨diskInodes disk', disk'⟩ := by
  have hdin : diskInodes disk' = Function.update (diskInodes disk) n d := by
    rw [hdisk, diskInodes_putInode disk hn hd]
  have htrees : ∀ m, (diskInodes disk' m).SameTree (diskInodes disk m) ∨
      (∀ k, (diskInodes disk' m).root k = (diskInodes disk m).root k) ∧
        ((diskInodes disk' m).type = 0 ∨ (diskInodes disk' m).size = 0) := fun m => by
    rw [hdin]
    by_cases hm : m = n
    · rw [hm, update_self]
      exact htree
    · rw [update_of_ne hm]
      exact .inl (.refl _)
  have hdata : ∀ b, bmapStart ≤ b → disk' b = disk b := fun b hb => by
    rw [hdisk]
    exact putInode_of_ge hn hb
  obtain ⟨hsound', hreg', hbyte⟩ := @Volume.sameTrees_regular _ ⟨diskInodes disk', disk'⟩ hsound hreg
    htrees hdata
  exact ⟨hsound', hreg', hdin, hbyte⟩

lemma Dinode.SameTree.fits (hn : n < nInodes) (h : d.SameTree (diskInodes disk n)) : d.Fits := by
  have hfits : (diskInodes disk n).Fits := by
    rw [show diskInodes disk n = diskInode disk n from if_pos hn]
    exact diskInode_fits _ _
  exact ⟨by rw [h.size]; exact hfits.size, fun k => by rw [h.addrs]; exact hfits.addrs k⟩

/-- An inode is changed in memory and written back. -/
lemma writeBack_spec {α : Type} {g : Dinode → Dinode} {k : PUnit → FM α}
    {Q : α → State → Prop} (h : Kept P s₀ C T L s) (hi : (i, t) ∈ L) (hn : (s.inode i).inum = n)
    (hg : ∀ d, (g d).SameTree d)
    (hk : ∀ s', Kept (s.diskVolume.Sets n (g (s.diskVolume.din n))) s₀ C T L s' →
      (∀ j, (s'.inode j).inum = (s.inode j).inum) → wp (k ⟨⟩) s' Q Quiet) :
    wp (modifyDin i g >>= fun _ => iupdate i >>= k) s Q Quiet := by
  obtain ⟨-, href, hvalid, -⟩ := h.locked hi
  obtain ⟨hdin, htype⟩ := h.cached i href hvalid
  subst hn
  let s1 := s.setInode i { s.inode i with din := g (s.inode i).din }
  have hself : s1.inode i = { s.inode i with din := g (s.inode i).din } := State.setInode_inode_self ..
  have htree : (g (s.inode i).din).SameTree (diskInodes s.disk (s.inode i).inum) := by
    rw [← hdin]
    exact hg _
  have hfits := htree.fits (h.inum i)
  have hdisk : (s1.updated i).disk = putInode s.disk (s.inode i).inum (g (s.inode i).din) := by
    show putInode s.disk (s1.inode i).inum (s1.inode i).din = _
    rw [hself]
  have hentries : ∀ j ≠ i, (s1.updated i).inode j = s.inode j := fun j hj =>
    State.setInode_inode_of_ne s _ hj
  have hentry : (s1.updated i).inode i = { s.inode i with din := g (s.inode i).din } := hself
  obtain ⟨hsound, hregular, hsets⟩ := putInode_sound (h.inum i) hfits hdisk h.sound h.regular
    (.inl htree)
  have hkept : Kept (s.diskVolume.Sets (s.inode i).inum (g (s.diskVolume.din (s.inode i).inum))) s₀ C T
      L (s1.updated i) := by
    refine ⟨?_, h.file, h.cwd, ?_⟩
    swap
    · show s.diskVolume.Sets _ (g (diskInodes s.disk (s.inode i).inum)) _
      rw [← hdin]
      exact hsets
    have halive : ∀ x ∈ C, (diskInodes s.disk x.2).type ≠ 0 →
        (diskInodes (s1.updated i).disk x.2).type ≠ 0 := fun x _ hx => by
      rw [hdisk, diskInodes_putInode s.disk (h.inum i) hfits]
      by_cases hxi : x.2 = (s.inode i).inum
      · rw [hxi, update_self, htree.type, ← hxi]
        exact hx
      · rwa [update_of_ne hxi]
    refine h.change i rfl hentries hsound hregular (fun j hj hjref _ => ?_) ?_ ?_ ?_ ?_ (.refl i T) ?_
      ?_ halive h.nodup (fun _ hx _ => hx) (fun x hx hxi => ?_) (fun f hf hfi => ?_)
    · rw [hdisk, diskInodes_putInode s.disk (h.inum i) hfits, update_of_ne]
      exact fun heq => hj (h.unique j i hjref href heq)
    all_goals rw [hentry]
    · exact h.inum i
    · exact fun _ j hj hjref heq => hj (h.unique j i hjref href heq)
    · refine fun _ _ => ⟨?_, by rw [(hg _).type]; exact htype⟩
      rw [hdisk, diskInodes_putInode s.disk (h.inum i) hfits, update_self]
    · exact h.refs i
    · exact h.pins_self
    · exact h.tags_self
    · subst hxi
      rw [(hg _).type]
      exact h.held x hx
    · subst hfi
      rw [(hg _).type]
      exact (h.files f hf).2
  have hinums : ∀ j, ((s1.updated i).inode j).inum = (s.inode j).inum := fun j => by
    by_cases hj : j = i
    · rw [hj, hentry]
    · rw [hentries j hj]
  unfold modifyDin modifyInode
  simp only [wp_bind, wp_get, wp_set]
  refine (iupdate_spec s1 i).mono (fun _ s' hs' => ?_) fun _ _ h => h.notFreeing
  rw [hs']
  exact hk _ hkept hinums

lemma ialloc_spec {type : Int16} (h : Kept P s₀ C T L s) :
    wp (ialloc type) s (fun i s' => ∃ n,
      Kept (s.diskVolume.Allocs n type) s₀ C ((i, n) ::ₘ T) L s') Quiet := by
  unfold ialloc bread
  rw [wp_bind, wp_get]
  split
  · rename_i n hfind
    have htype := List.find?_some hfind
    have hmem := List.mem_of_find?_eq_some hfind
    rw [decide_eq_true_eq] at htype
    rw [List.mem_range'_1] at hmem
    have hn : n < nInodes := by
      unfold nInodes at hmem ⊢
      omega
    have hfree : (diskInodes s.disk n).type = 0 := by rwa [diskInodes, if_pos hn]
    have hfits : ({ Dinode.zero with type := type } : Dinode).Fits :=
      ⟨Nat.two_pow_pos 32, fun _ => Nat.two_pow_pos 32⟩
    simp only [wp_bind, wp_get, wp_pure]
    refine (logWrite_spec s (iblock n) _).mono (fun _ s1 hs1 => ?_) fun _ _ h => h.notFreeing
    subst hs1
    obtain ⟨hsound, hregular, hsets⟩ := putInode_sound hn hfits rfl h.sound h.regular
      (.inr ⟨fun k => by simp [Dinode.root, hfree, Dinode.zero], .inr rfl⟩)
    have hother : ∀ m, (diskInodes s.disk m).type ≠ 0 →
        diskInodes (putInode s.disk n { Dinode.zero with type := type }) m = diskInodes s.disk m :=
      fun m hm => by
        have hne : m ≠ n := fun heq => hm (heq ▸ hfree)
        exact (congrFun hsets.din m).trans (update_of_ne hne _ _)
    have halloc : s.diskVolume.Allocs n type _ := ⟨hsets, by omega, hn, hfree⟩
    refine (iget_spec ⟨h.setDisk _ hsound hregular (fun j hjref hvalid => ?_) fun x _ hx => ?_, h.file,
      h.cwd, halloc⟩ hn).imp fun i s' h' => ⟨n, h'⟩
    · obtain ⟨hdin, hne⟩ := h.cached j hjref hvalid
      exact hother _ (hdin ▸ hne)
    · rwa [hother _ hx]
  · exact quiet_panic (by decide)

/-- The last reference to an inode without links: its blocks and the inode itself are freed. -/
lemma freeInode_spec (h : FsInv C T L s) (href : (s.inode i).ref = 1)
    (hvalid : (s.inode i).valid) (hnlink : (s.inode i).din.nlink = 0) :
    wp (do
      itrunc i
      modifyDin i fun d => { d with type := 0 }
      iupdate i) s
      (fun _ s' => s'.file = s.file ∧ s'.cwd = s.cwd ∧ s'.diskVolume.Sound ∧ s'.diskVolume.Regular ∧
        (∀ j ≠ i, s'.inode j = s.inode j) ∧ s.diskVolume.Frees (s.inode i).inum s'.diskVolume ∧
        (s'.inode i).inum = (s.inode i).inum ∧ (s'.inode i).ref = 1) Quiet := by
  have hvol := h.volume (i := i) (by omega) hvalid
  obtain ⟨hdin, htype⟩ := h.cached i (by omega) hvalid
  refine wp.bind (itrunc_spec (hvol ▸ h.sound) htype (h.inum i)) (fun _ s1 h1 => ?_)
    fun _ _ h => h.notFreeing
  have hself : s1.inode i =
      { s.inode i with din := { (s.inode i).din with size := 0, addrs := fun _ => 0 } } := by
    rw [h1.inode, update_self]
  -- the volume with the truncated inode is the one on disk
  have hvolume : s1.volume i = s1.diskVolume := by
    unfold State.volume State.diskVolume
    rw [h1.inodes, hself]
    simp only [Function.update_idem]
  have hsound1 : s1.diskVolume.Sound := hvolume ▸ h1.sound
  have hbyte1 : ∀ m off, m ≠ (s.inode i).inum → s1.diskVolume.byte m off = s.diskVolume.byte m off := by
    rw [← hvolume, ← hvol]
    exact h1.byte
  have hdin1 : ∀ m ≠ (s.inode i).inum, diskInodes s1.disk m = diskInodes s.disk m := fun m hm => by
    rw [h1.inodes, update_of_ne hm]
  have hregular1 : s1.diskVolume.Regular := by
    intro n
    by_cases hn : n = (s.inode i).inum
    · refine .of_empty (.inr ?_)
      show (diskInodes s1.disk n).size = 0
      rw [h1.inodes, hn, update_self]
    · refine (h.regular n).congr ?_ (fun bn hne => ?_) fun off => hbyte1 n off hn
      · show (diskInodes s1.disk n).SameTree (diskInodes s.disk n)
        rw [hdin1 n hn]
        exact .refl _
      · rw [← hvolume, h1.node, if_neg (show (blockPlace n bn).1.1 ≠ _ from hn), hvol]
        exact hne
  let d : Dinode := { (s.inode i).din with type := 0, size := 0, addrs := fun _ => 0 }
  have hfits : d.Fits := ⟨Nat.two_pow_pos 32, fun _ => Nat.two_pow_pos 32⟩
  let s2 := (s1.setInode i { s.inode i with din := d }).updated i
  have hself2 : s2.inode i = { s.inode i with din := d } := State.setInode_inode_self ..
  have hdisk : s2.disk = putInode s1.disk (s.inode i).inum d := by
    show putInode s1.disk (s2.inode i).inum (s2.inode i).din = _
    rw [hself2]
  obtain ⟨hsound2, hregular2, hsets⟩ := putInode_sound (h.inum i) hfits hdisk hsound1 hregular1
    (.inr ⟨fun k => by rw [h1.inodes, update_self]; simp [Dinode.root, d], .inl rfl⟩)
  simp only [modifyDin, modifyInode, wp_bind, wp_get, wp_set]
  rw [hself]
  refine (iupdate_spec _ i).mono (fun _ s' hs' => ?_) fun _ _ h => h.notFreeing
  subst hs'
  refine ⟨h1.file, h1.cwd, hsound2, hregular2, fun j hj => ?_, ⟨?_, ?_, ?_, fun m hm => ?_,
    fun m off hm => ?_⟩, ?_, ?_⟩
  · show (s1.setInode i _).inode j = _
    rw [State.setInode_inode_of_ne _ _ hj, h1.inode, update_of_ne hj]
  · show (diskInodes s.disk (s.inode i).inum).type ≠ 0
    rwa [← hdin]
  · show (diskInodes s.disk (s.inode i).inum).nlink = 0
    rwa [← hdin]
  · show (diskInodes s2.disk (s.inode i).inum).type = 0
    rw [show diskInodes s2.disk = _ from hsets.din, update_self]
  · show diskInodes s2.disk m = _
    rw [show diskInodes s2.disk = _ from hsets.din, update_of_ne hm]
    exact hdin1 m hm
  · exact (hsets.byte m off).trans (hbyte1 m off hm)
  · show (s2.inode i).inum = _
    rw [hself2]
  · show (s2.inode i).ref = _
    rw [hself2]
    exact href

lemma iput_spec (h : Kept P s₀ C ((i, n) ::ₘ T) L s)
    (hfree : ∀ v v', P v → v.Frees n v' → (∀ x ∈ C + T, x.2 ≠ n) → P v') :
    wp (iput i) s (fun _ s' => Kept P s₀ C T L s') Quiet := by
  have hrefs := h.refs i
  rw [map_cons, count_cons_self] at hrefs
  have hn : (s.inode i).inum = n := h.tags (i, n) (Multiset.mem_cons_self ..)
  unfold iput acquiresleep
  simp only [wp_bind, wp_get, wp_ite, wp_throw]
  split
  · exact fun heq => Stop.noConfusion heq
  rename_i hunlocked
  have hnew : ∀ x ∈ L, x.1 ≠ i := fun x hx hxi => hunlocked (hxi ▸ (h.held x hx).1)
  have htags : ∀ x ∈ T, x.1 = i → (s.inode i).inum = x.2 := fun x hx =>
    h.tags_self x (mem_cons_of_mem hx)
  -- the reference goes when nothing is freed
  have hdrop : Kept P s₀ C T L
      (s.setInode i { s.inode i with locked := false, ref := (s.inode i).ref - 1 }) := by
    refine ⟨?_, h.file, h.cwd, h.holds⟩
    refine h.touch rfl rfl rfl (fun hpos => ?_) ?_ (.of_cons i n T) htags h.nodup (fun _ hx _ => hx)
      fun x hx hxi => absurd hxi (hnew x hx)
    · have hpos : 0 < (s.inode i).ref - 1 := hpos
      omega
    · show _ ≤ (s.inode i).ref - 1
      omega
  simp only [releasesleep, modifyInode, wp_bind, wp_get, wp_set, State.setInode_inode_self,
    State.setInode_setInode]
  split
  · rename_i hunlinked
    split
    · rename_i hlast
      let s1 := s.setInode i { s.inode i with locked := true }
      have hself : s1.inode i = { s.inode i with locked := true } := State.setInode_inode_self ..
      have h1 : FsInv C ((i, n) ::ₘ T) L s1 :=
        h.touch rfl rfl rfl id (h.refs i) (.refl i _) h.tags_self h.nodup (fun _ hx _ => hx)
          fun x hx hxi => absurd hxi (hnew x hx)
      have hfreed := freeInode_spec h1 (i := i) (by rw [hself]; exact hlast)
        (by rw [hself]; exact hunlinked.1) (by rw [hself]; exact hunlinked.2)
      simp only [wp_bind] at hfreed
      refine hfreed.imp fun _ _ h2 => h2.imp fun _ _ h3 => h3.imp fun _ s2 h4 => ?_
      obtain ⟨hfile, hcwd, hsound, hregular, hentries, hfrees, hinum, href⟩ := h4
      rw [hself] at hfrees hinum
      have hold : ∀ j ≠ i, s2.inode j = s.inode j := fun j hj =>
        (hentries j hj).trans (State.setInode_inode_of_ne _ _ hj)
      -- another reference to the inode would be one to this entry, and counted
      have hunheld : ∀ x ∈ C + T, x.2 ≠ n := by
        intro x hx hxn
        have hmem := Multiset.mem_add.mp hx
        have hinum : (s.inode x.1).inum = (s.inode i).inum :=
          (hmem.elim (h.pins x) fun hx => h.tags x (mem_cons_of_mem hx)).trans
            (hxn.trans hn.symm)
        have hcount : 0 < ((C + T).map Prod.fst).count x.1 :=
          Multiset.count_pos.mpr (mem_map_of_mem Prod.fst hx)
        rw [map_add, count_add] at hcount
        have hxrefs := h.refs x.1
        rw [map_cons, Multiset.count_cons] at hxrefs
        have hxi := h.unique x.1 i (by omega) (by omega) hinum
        rw [hxi] at hcount
        omega
      refine ⟨?_, hfile.trans h.file, hcwd.trans h.cwd, hfree _ _ h.holds (hn ▸ hfrees) hunheld⟩
      have halive : ∀ x ∈ C, (diskInodes s.disk x.2).type ≠ 0 →
          (diskInodes s2.disk x.2).type ≠ 0 := fun x hx halive => by
        have hxn := hunheld x (Multiset.mem_add.mpr (.inl hx))
        rwa [show diskInodes s2.disk x.2 = _ from hfrees.din _ (hn ▸ hxn)]
      refine h.change i hfile (fun j hj => (State.setInode_inode_of_ne _ _ hj).trans (hold j hj)) hsound
        hregular (fun j hj hjref hjvalid => ?_) ?_ ?_ ?_ ?_ (.of_cons i n T) ?_ ?_ halive h.nodup
        (fun _ hx _ => hx) (fun x hx hxi => absurd hxi (hnew x hx)) (fun f hf hfi => ?_)
      · -- an entry for the freed inode would be this one
        exact hfrees.din _ fun heq => hj (h.unique j i hjref (by omega) heq)
      all_goals rw [State.setInode_inode_self]
      · rw [hinum]
        exact h.inum i
      · exact fun hpos => absurd hpos (by rw [href]; show ¬ (0 : Int) < 1 - 1; decide)
      · simp
      · rw [href]
        show _ ≤ (0 : Int)
        omega
      · rw [hinum]
        exact h.pins_self
      · rw [hinum]
        exact htags
      · subst hfi
        have := h.opened_pos hf
        omega
    · exact hdrop
  · exact hdrop

lemma iunlockput_spec (h : Kept P s₀ C ((i, n) ::ₘ T) ((i, t) :: L) s)
    (hfree : ∀ v v', P v → v.Frees n v' → (∀ x ∈ C + T, x.2 ≠ n) → P v') :
    wp (iunlockput i) s (fun _ s' => Kept P s₀ C T L s') Quiet :=
  wp.seq (iunlock_spec h) fun _ _ h' => iput_spec h'.1 hfree

/-! ### Content -/

lemma readi_kept {len : Nat} (h : FsInv C T L s) (hi : (i, t) ∈ L) (hlen : len < 2 ^ 32) :
    wp (readi i off len) s
      (fun r s' => s' = s ∧ (t ≠ tDev → ∀ b, r = some b → off ≤ (s.inode i).din.size ∧
        b = s.diskVolume.bytes (s.inode i).inum off (min len ((s.inode i).din.size - off))))
      fun _ _ => False := by
  obtain ⟨-, href, hvalid, htype⟩ := h.locked hi
  have hvol := h.volume href hvalid
  have hne := (h.cached i href hvalid).2
  have hself := hvol.symm ▸ h.regular (s.inode i).inum
  have hdin := s.volume_din_self i
  have hmax := hself.size (by rwa [hdin])
  have hno := hself.noHoles (by rwa [hdin])
  rw [hdin] at hmax
  unfold readi
  rw [wp_bind, wp_get]
  dsimp only
  split
  · rename_i hdev
    have : t = tDev := htype.symm.trans hdev
    split <;> exact ⟨rfl, fun hne => absurd this hne⟩
  · split
    · exact ⟨rfl, fun _ b hb => absurd hb (by simp)⟩
    · rename_i hrange
      have hlt : off + len < 2 ^ 32 := by
        rw [maxFile_eq, bSize_eq] at hmax
        omega
      have hmin : (if (s.inode i).din.size < (off + len) % 2 ^ 32 then (s.inode i).din.size - off
          else len) = min len ((s.inode i).din.size - off) := by
        rw [Nat.mod_eq_of_lt hlt]
        split <;> omega
      rw [hmin, wp_bind]
      refine wp.of_ok (readLoop_hit hne hno hmax (le_refl _) (by omega)) ⟨rfl, fun _ b hb => ?_⟩
      rw [← hvol]
      exact ⟨by omega, (Option.some.inj hb).symm⟩

/-- A directory is written one entry at a time. -/
structure EntryWrite (off : Nat) (src : List UInt8) : Prop where
  aligned : direntSize ∣ off
  length : src.length = direntSize
  inum : (Dirent.ofBytes src).inum < nInodes

lemma Volume.Writes.inum_lt {v v' : Volume} (h : v.Writes n off src v')
    (hsrc : EntryWrite off src) (hold : ∀ k < v.slots n, (v.dirent n k).inum < nInodes)
    (hk : k < v'.slots n) : (v'.dirent n k).inum < nInodes := by
  obtain ⟨b, rfl⟩ := hsrc.aligned
  rw [h.dirent_entry hsrc.length hk]
  split
  · exact hsrc.inum
  · rename_i hne
    have hstart := h.start
    rw [h.slots_entry hsrc.length] at hk
    refine hold k ?_
    unfold slots direntSize at *
    omega

lemma writei_kept (h : Kept P s₀ C T L s) (hi : (i, t) ∈ L)
    (hn : (s.inode i).inum = n) (hlen : src.length < 2 ^ 31) (hdir : t = tDir → EntryWrite off src) :
    wp (writei i src off) s (fun r s' =>
      r = src.length ∧ Kept (s.diskVolume.Writes n off src) s₀ C T L s' ∧
        (∀ j, (s'.inode j).inum = (s.inode j).inum) ∨
      (t ≠ tDev → r = -1) ∧ s' = s) Quiet := by
  obtain ⟨hlocked, href, hvalid, htype⟩ := h.locked hi
  subst hn
  have hvol := h.volume href hvalid
  obtain ⟨hdisk, hne⟩ := h.cached i href hvalid
  have hregular := hvol.symm ▸ h.regular
  have hself := hregular (s.inode i).inum
  have hdin := s.volume_din_self i
  have hmax := hself.size (by rwa [hdin])
  have hno := hself.noHoles (by rwa [hdin])
  have hdirs := hself.dirs
  rw [hdin] at hmax hdirs
  by_cases hdev : (s.inode i).din.type = tDev
  · -- a device
    unfold writei
    rw [wp_bind, wp_get]
    dsimp only
    rw [if_pos hdev]
    split <;> exact .inr ⟨fun ht => absurd (htype.symm.trans hdev) ht, rfl⟩
  by_cases hoff : off ≤ (s.inode i).din.size
  swap
  · unfold writei
    rw [wp_bind, wp_get]
    dsimp only
    rw [if_neg hdev, if_pos (.inl (by omega))]
    exact .inr ⟨fun _ => rfl, rfl⟩
  by_cases hend : off + src.length ≤ maxFile * bSize
  swap
  · refine wp.of_ok (writei_out_of_range hdev ?_ (by omega) fun hin => hend hin.2)
      (.inr ⟨fun _ => rfl, rfl⟩)
    rw [maxFile_eq, bSize_eq] at hmax
    omega
  refine (writei_spec (hvol ▸ h.sound) hne hdev (h.inum i) hmax hoff hend).mono (fun r s' hr => ?_)
    fun _ _ h => h.notFreeing
  obtain ⟨hr, hw⟩ := hr
  have hrest := hw.rest
  obtain ⟨size, addrs, hentry⟩ := hw.entry
  -- the inode on disk is the one in memory again
  have hdisk' : (s'.inode i).din = diskInodes s'.disk (s.inode i).inum := by
    cases hw.stored with
    | inl hstored => exact hstored.symm
    | inr hstored =>
      obtain ⟨hle, hinodes, hsame⟩ := hstored
      rw [hinodes, hsame (missing_of_noHoles hno (by rwa [hdin]) (by rwa [hdin]))]
      exact hdisk
  have hvol' : s'.volume i = s'.diskVolume := by
    unfold State.volume State.diskVolume
    rw [hw.inum, hdisk', Function.update_eq_self]
  have hown : s'.diskVolume.din (s.inode i).inum = (s'.inode i).din := hdisk'.symm
  have hother : ∀ m ≠ (s.inode i).inum, s'.diskVolume.din m = s.diskVolume.din m := hw.inodes
  have hwrites : s.diskVolume.Writes (s.inode i).inum off src s'.diskVolume := by
    have hold : s.diskVolume.din (s.inode i).inum = (s.inode i).din := hdisk.symm
    refine ⟨hother, ?_, ?_, ?_, ?_, ?_, ?_⟩
    · rw [hown, hold, hw.type]
    · rw [hown, hold, hentry]
    · rwa [hold]
    · rw [hown, hold, hw.size]
    · rw [hown, hw.size]
      omega
    · rw [← hvol, ← hvol']
      exact hw.bytes
  have hregular' : s'.diskVolume.Regular := by
    intro m
    by_cases hm : m = (s.inode i).inum
    · subst hm
      refine ⟨fun _ => ?_, fun _ => hwrites.limit, fun hd k hk => ?_⟩
      · rw [← hvol']
        exact hw.noHoles hno
      · rw [hwrites.type] at hd
        refine hwrites.inum_lt (hdir ?_) ((h.regular _).dirs hd) hk
        rw [← htype, hdisk]
        exact hd
    · refine (hregular m).congr ?_ (fun bn hb => ?_) fun off => ?_
      · rw [hother m hm, hvol]
        exact .refl _
      · rwa [← hvol', hw.kept _ hb]
      · rw [hvol]
        exact hwrites.byte_of_ne hm off
  refine .inl ⟨hr, ⟨?_, by rw [hrest]; exact h.file, by rw [hrest]; exact h.cwd, hwrites⟩, fun j => ?_⟩
  swap
  · by_cases hj : j = i
    · rw [hj, hw.inum]
    · rw [hw.entries j hj]
  refine h.change i (by rw [hrest]) hw.entries (hvol' ▸ hw.sound) hregular' (fun j hj hjref _ => ?_)
    ?_ ?_ ?_ ?_ (.refl i T) ?_ ?_ (fun x _ hx => ?_) h.nodup (fun _ hx _ => hx) (fun x hx hxi => ?_)
    (fun f hf hfi => ?_)
  · exact hw.inodes _ fun heq => hj (h.unique j i hjref href heq)
  · rw [hw.inum]
    exact h.inum i
  · rw [hw.inum]
    exact fun _ j hj hjref heq => hj (h.unique j i hjref href heq)
  · rw [hw.inum, hw.type]
    exact fun _ _ => ⟨hdisk', hne⟩
  · rw [hentry]
    exact h.refs i
  · rw [hw.inum]
    exact h.pins_self
  · rw [hw.inum]
    exact h.tags_self
  · by_cases hxi : x.2 = (s.inode i).inum
    · rw [hxi] at hx ⊢
      exact fun h0 => hx (hwrites.type.symm.trans h0)
    · rwa [hw.inodes _ hxi]
  · subst hxi
    rw [hw.type, hentry]
    exact h.held x hx
  · subst hfi
    rw [hw.type, hentry]
    exact (h.files f hf).2

end Paths

end Xv6.Fs
