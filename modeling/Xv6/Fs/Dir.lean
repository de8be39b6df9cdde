import Xv6.Fs.Trunc
import Xv6.Fs.Name

/-!
# Directories of a volume

The entries of a directory as they stand in a volume, and the four ways in which a volume changes when
nothing else is going on in the file system: an inode is freed (`Frees`), written back with other counts
(`Sets`), allocated (`Allocs`), or a file is written (`Writes`). Each of them touches one inode.

A law about names and link counts is stated over these (`Law`): what has to be shown of it so that the
system calls keep it.
-/

namespace Xv6.Fs

open Lib Disk

namespace Volume

/-- The `k`-th entry of directory `d`. -/
def dirent (v : Volume) (d k : Nat) : Dirent := .ofBytes (v.bytes d (direntSize * k) direntSize)

/-- The number of entries of directory `d`, with those not in use. -/
def slots (v : Volume) (d : Nat) : Nat := (v.din d).size / direntSize

/-! ### Changes of a volume -/

/-- Inode `n`, which has no links, is freed, with its blocks. -/
structure Frees (v : Volume) (n : Nat) (v' : Volume) : Prop where
  type : (v.din n).type ≠ 0
  nlink : (v.din n).nlink = 0
  freed : (v'.din n).type = 0
  din : ∀ m, m ≠ n → v'.din m = v.din m
  byte : ∀ m off, m ≠ n → v'.byte m off = v.byte m off

/-- What survives that an inode is freed. -/
def FreeClosed (P : Volume → Prop) : Prop := ∀ n v v', P v → v.Frees n v' → P v'

/-- Inode `n` is replaced by `d`, with the same blocks. -/
structure Sets (v : Volume) (n : Nat) (d : Dinode) (v' : Volume) : Prop where
  din : v'.din = Function.update v.din n d
  byte : ∀ m off, v'.byte m off = v.byte m off

/-- Inode `n` is allocated. -/
structure Allocs (v : Volume) (n : Nat) (type : Int16) (v' : Volume) : Prop
    extends Sets v n { Dinode.zero with type := type } v' where
  ne : n ≠ 0
  lt : n < nInodes
  free : (v.din n).type = 0

/-- `src` is written at `off` of file `n`. -/
structure Writes (v : Volume) (n off : Nat) (src : List UInt8) (v' : Volume) : Prop where
  din : ∀ m, m ≠ n → v'.din m = v.din m
  type : (v'.din n).type = (v.din n).type
  nlink : (v'.din n).nlink = (v.din n).nlink
  start : off ≤ (v.din n).size
  size : (v'.din n).size = max (v.din n).size (off + src.length)
  limit : (v'.din n).size ≤ maxFile * bSize
  bytes : Overwrites n off src v v'

variable {v v' : Volume} {n d k : Nat}

lemma dirent_congr (h : ∀ off, v'.byte d off = v.byte d off) (k : Nat) : v'.dirent d k = v.dirent d k := by
  unfold dirent bytes
  simp only [h]

lemma slots_congr (h : (v'.din d).size = (v.din d).size) : v'.slots d = v.slots d := by
  rw [slots, slots, h]

namespace Writes

variable {off : Nat} {src : List UInt8}

lemma byte_of_ne (h : v.Writes n off src v') {m : Nat} (hm : m ≠ n) (x : Nat) : v'.byte m x = v.byte m x := by
  rw [h.bytes m x fun heq => absurd heq hm, if_neg hm]

lemma slots_entry (h : v.Writes d (direntSize * k) src v') (hsrc : src.length = direntSize) :
    v'.slots d = max (v.slots d) (k + 1) := by
  rw [slots, slots, h.size, hsrc]
  unfold direntSize
  omega

lemma dirent_entry (h : v.Writes d (direntSize * k) src v') (hsrc : src.length = direntSize) {j : Nat}
    (hj : j < v'.slots d) : v'.dirent d j = if j = k then .ofBytes src else v.dirent d j := by
  have hlimit := h.limit
  have hsize : direntSize * j + direntSize ≤ (v'.din d).size := by
    unfold slots at hj
    unfold direntSize at *
    omega
  have hbyte : ∀ t < direntSize, v'.byte d (direntSize * j + t) =
      overwrite (v.byte d) (direntSize * k) src (direntSize * j + t) := fun t ht => by
    rw [h.bytes d _ fun _ => ?_, if_pos rfl]
    exact Nat.div_lt_of_lt_mul (by rw [Nat.mul_comm bSize]; omega)
  have hbytes : v'.bytes d (direntSize * j) direntSize =
      if j = k then src else v.bytes d (direntSize * j) direntSize := by
    refine List.ext_getElem ?_ fun t ht _ => ?_
    · split <;> simp [Volume.bytes, hsrc]
    · have ht : t < direntSize := by simpa [Volume.bytes] using ht
      simp only [Volume.bytes, List.getElem_map, List.getElem_range]
      rw [hbyte t ht]
      by_cases hjk : j = k
      · subst hjk
        simp only [if_true]
        rw [overwrite_inside _ (by omega), List.getD_eq_getElem?_getD,
          List.getElem?_eq_getElem (by omega), Option.getD_some]
      · simp only [if_neg hjk, List.getElem_map, List.getElem_range]
        refine overwrite_outside _ ?_
        rw [hsrc]
        unfold direntSize at *
        omega
  unfold dirent
  rw [hbytes]
  split <;> rfl

end Writes

/-! ### Looking at a directory -/

/-- The name is that of the `k`-th entry of directory `d`, which is for inode `n`, and of none before. -/
structure Found (v : Volume) (d : Nat) (name : List UInt8) (k n : Nat) : Prop where
  lt : k < v.slots d
  inum : (v.dirent d k).inum = n
  ne : n ≠ 0
  same : namecmp name (v.dirent d k).name = true
  first : ∀ j, j < k → (v.dirent d j).inum ≠ 0 → namecmp name (v.dirent d j).name = false

/-- Directory `d` has no entry with the name. -/
def NotFound (v : Volume) (d : Nat) (name : List UInt8) : Prop :=
  ∀ k, k < v.slots d → (v.dirent d k).inum ≠ 0 → namecmp name (v.dirent d k).name = false

/-- A new entry of directory `d` goes to place `k`. -/
def FreeSlot (v : Volume) (d k : Nat) : Prop :=
  k < v.slots d ∧ (v.dirent d k).inum = 0 ∨ k = v.slots d

/-- Directory `d` is empty except for its first two entries. -/
def EmptyDir (v : Volume) (d : Nat) : Prop :=
  ∀ k, 2 ≤ k → k < v.slots d → (v.dirent d k).inum = 0

/-! ### Creating and removing a name -/

/-- Inode `n` of the given type has been allocated and entered into directory `d`. A directory has its
own two entries, of which `..` is counted in `d`. -/
inductive Creates (v : Volume) (d n : Nat) (name : List UInt8) (type : Int16) (v' : Volume) : Prop
  | node {k : Nat} {major minor : Int16} {v₁ v₂ : Volume} (hne : type ≠ tDir)
      (alloc : v.Allocs n type v₁)
      (link : v₁.Sets n { v₁.din n with major := major, minor := minor, nlink := 1 } v₂)
      (new : v₂.NotFound d name) (slot : v₂.FreeSlot d k)
      (entry : v₂.Writes d (direntSize * k) (Dirent.bytes ⟨n, name⟩) v')
  | dir {k₁ k₂ k : Nat} {major minor : Int16} {v₁ v₂ v₃ v₄ v₅ : Volume} (heq : type = tDir)
      (alloc : v.Allocs n type v₁)
      (link : v₁.Sets n { v₁.din n with major := major, minor := minor, nlink := 1 } v₂)
      (count : v₂.Sets d { v₂.din d with nlink := (v₂.din d).nlink + 1 } v₃)
      (slot₁ : v₃.FreeSlot n k₁) (dots₁ : v₃.Writes n (direntSize * k₁) (Dirent.bytes ⟨n, dot⟩) v₄)
      (slot₂ : v₄.FreeSlot n k₂) (dots₂ : v₄.Writes n (direntSize * k₂) (Dirent.bytes ⟨d, dotdot⟩) v₅)
      (new : v₅.NotFound d name) (slot : v₅.FreeSlot d k)
      (entry : v₅.Writes d (direntSize * k) (Dirent.bytes ⟨n, name⟩) v')

/-- The `k`-th entry of directory `d` has been erased. If it was for a directory, a link to `d` is gone,
too. -/
inductive Erases (v : Volume) (d k : Nat) : Bool → Volume → Prop
  | file {v' : Volume} (entry : v.Writes d (direntSize * k) (List.replicate direntSize 0) v') :
      Erases v d k false v'
  | dir {v₁ v' : Volume} (entry : v.Writes d (direntSize * k) (List.replicate direntSize 0) v₁)
      (uncount : v₁.Sets d { v₁.din d with nlink := (v₁.din d).nlink - 1 } v') :
      Erases v d k true v'

end Volume

/-! ### Laws about names -/

/-- What has to be known of a law about names and link counts so that the system calls keep it: it
survives each of the changes that a call makes to a volume. `holds none` is the law; `holds (some n)` is
the law while `sys_link` has counted a link to `n` that no entry makes yet. `linked` are the inodes that
can be reached by names, `room` says that no link count is at its limit, and `calm` is what has to hold
when a name is removed. -/
structure Law where
  holds : Option Nat → Volume → Prop
  linked : Volume → Nat → Prop
  room : Volume → Prop
  calm : Volume → Prop
  /-- the entry of directory `d` for `n` is gone, but the link is still counted -/
  removing : Nat → Nat → Volume → Prop
  root : ∀ {m v}, holds m v → linked v rootIno
  entry : ∀ {m v d k}, holds m v → linked v d → (v.din d).type = tDir → k < v.slots d →
    (v.dirent d k).inum ≠ 0 → linked v (v.dirent d k).inum
  frees : ∀ {m}, Volume.FreeClosed (holds m)
  frees_linked : ∀ {d}, Volume.FreeClosed (linked · d)
  frees_room : Volume.FreeClosed room
  frees_calm : Volume.FreeClosed calm
  writes : ∀ {v n off src v'}, holds none v → (v.din n).type ≠ tDir → v.Writes n off src v' →
    holds none v'
  count : ∀ {v n v'}, holds none v → room v → (v.din n).type ≠ 0 → (v.din n).type ≠ tDir →
    v.Sets n { v.din n with nlink := (v.din n).nlink + 1 } v' →
    holds (some n) v' ∧ ∀ d, linked v d → linked v' d
  uncount : ∀ {v n v'}, holds (some n) v → (v.din n).type ≠ 0 →
    v.Sets n { v.din n with nlink := (v.din n).nlink - 1 } v' → holds none v'
  enter : ∀ {v n d k name v'}, holds (some n) v → linked v d → (v.din n).type ≠ tDir →
    (v.din d).type = tDir → v.NotFound d name → v.FreeSlot d k →
    v.Writes d (direntSize * k) (Dirent.bytes ⟨n, name⟩) v' → holds none v'
  create : ∀ {v d n name type v'}, holds none v → (type = tDir → room v) → linked v d →
    (v.din d).type = tDir → type ≠ 0 → v.Creates d n name type v' → holds none v'
  erase : ∀ {v d n k name v'}, holds none v → calm v → n ≠ d → (v.din d).type = tDir →
    v.Found d name k n → namecmp name dot = false → namecmp name dotdot = false →
    (v.din n).type ≠ 0 → ((v.din n).type = tDir → v.EmptyDir n) →
    v.Erases d k (decide ((v.din n).type = tDir)) v' → removing d n v'
  removing_frees : ∀ {d n v v'}, removing d n v → v.Frees d v' → removing d n v'
  removed : ∀ {d n v v'}, removing d n v → (v.din n).type ≠ 0 →
    v.Sets n { v.din n with nlink := (v.din n).nlink - 1 } v' → holds none v'

end Xv6.Fs
