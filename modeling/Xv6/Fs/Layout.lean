import Xv6.Disk.State

/-!
# The on-disk format of the file system (`fs.h`)

    [ boot block | super block | log | inode blocks | free bit map | data blocks ]

The super block is written by `mkfs` and never again, so its fields are constants here. An inode is
a `struct dinode` of 64 bytes, eight to a block; the free bit map has one bit for each block of the
disk. `getDinode`/`putDinode` and `used`/`markUsed`/`markFree` read and write the two through the
bytes of their blocks, with the laws that make them independent of each other.
-/

namespace Xv6.Fs

open Function (update_self update_of_ne)
open Lib Disk

/-! ### Constants -/

/-- `NDIRECT`: direct entries of an inode. -/
def nDirect : Nat := 10

/-- `NINDIRECT`: entries of an index block. -/
def nIndirect : Nat := 128

instance : NeZero nIndirect := ⟨by decide⟩

/-- `NDINDIRECT` -/
def nDIndirect : Nat := nIndirect * nIndirect

/-- `NTINDIRECT` -/
def nTIndirect : Nat := nDIndirect * nIndirect

/-- `MAXFILE`: the largest file, in blocks. -/
def maxFile : Nat := nDirect + nIndirect + nDIndirect + nTIndirect

/-- `XDIRECT + 1`: block addresses of an inode, `NDIRECT` direct ones and one for each index level. -/
def nAddrs : Nat := 13

instance : NeZero nAddrs := ⟨by decide⟩

/-- The level of `ip->addrs[k]`: how many index blocks are on the way to the data blocks below. -/
def level (k : Fin nAddrs) : Nat := k.val + 1 - nDirect

/-- `IPB`: inodes per block. -/
def ipb : Nat := 8

/-- `BPB`: bitmap bits per block. -/
def bpb : Nat := 4096

/-- `sb.ninodes` -/
def nInodes : Nat := 200

/-- `sb.inodestart`: the first inode block. -/
def inodeStart : Nat := 32

/-- `sb.bmapstart`: the first free map block. -/
def bmapStart : Nat := 58

/-- The first data block. -/
def dataStart : Nat := 68

/-- `ROOTINO` -/
def rootIno : Nat := 1

/-- `T_DIR` -/
def tDir : Int16 := 1

/-- `T_FILE` -/
def tFile : Int16 := 2

/-- `T_DEV` -/
def tDev : Int16 := 3

/-- `IBLOCK`: the block containing inode `i`. -/
def iblock (i : Nat) : Nat := i / ipb + inodeStart

/-- `BBLOCK`: the block of the free map containing the bit for block `b`. -/
def bblock (b : Nat) : Nat := b / bpb + bmapStart

variable {i : Nat}

lemma iblock_range (h : i < nInodes) : inodeStart ≤ iblock i ∧ iblock i < bmapStart := by
  unfold nInodes at h
  unfold iblock inodeStart bmapStart ipb
  omega

variable {b : Nat}

lemma bblock_range (h : b < fsSize) : bmapStart ≤ bblock b ∧ bblock b < dataStart := by
  unfold fsSize at h
  unfold bblock dataStart bmapStart bpb
  omega

-- The values, as equations to rewrite with: `decide` keeps the kernel from comparing large sums by
-- unfolding them.
lemma nDirect_eq : nDirect = 10 := by decide
lemma nIndirect_eq : nIndirect = 128 := by decide
lemma nDIndirect_eq : nDIndirect = 16384 := by decide
lemma nTIndirect_eq : nTIndirect = 2097152 := by decide
lemma maxFile_eq : maxFile = 2113674 := by decide
lemma nAddrs_eq : nAddrs = 13 := by decide
lemma bSize_eq : bSize = 512 := by decide

/-! ### Inodes -/

/-- `struct dinode` -/
structure Dinode where
  type : Int16
  major : Int16
  minor : Int16
  nlink : Int16
  size : Nat
  addrs : Fin nAddrs → Nat
  deriving DecidableEq

namespace Dinode

/-- What `memset(dip, 0, sizeof(*dip))` makes of an inode. -/
def zero : Dinode := ⟨0, 0, 0, 0, 0, fun _ => 0⟩

/-- The root of the `k`-th tree; a free inode has none. -/
def root (d : Dinode) (k : Fin nAddrs) : Nat := if d.type = 0 then 0 else d.addrs k

/-- The inode with another block address in entry `k`. -/
def setAddr (d : Dinode) (k : Fin nAddrs) (addr : Nat) : Dinode :=
  { d with addrs := Function.update d.addrs k addr }

@[simp] lemma setAddr_type (d : Dinode) (k : Fin nAddrs) (addr : Nat) :
    (d.setAddr k addr).type = d.type := rfl
@[simp] lemma setAddr_addrs (d : Dinode) (k : Fin nAddrs) (addr : Nat) :
    (d.setAddr k addr).addrs = Function.update d.addrs k addr := rfl

/-- The `uint` fields are 32 bits wide. -/
structure Fits (d : Dinode) : Prop where
  size : d.size < 2 ^ 32
  addrs : ∀ k, d.addrs k < 2 ^ 32

end Dinode

/-- A `short` from its 16 bits. -/
def short (v : Nat) : Int16 := (UInt16.ofNat v).toInt16

/-- The 16 bits of a `short`. -/
def shortBits (v : Int16) : Nat := v.toUInt16.toNat

@[simp] lemma short_shortBits (v : Int16) : short (shortBits v) = v := by
  simp [short, shortBits]

lemma shortBits_lt (v : Int16) : shortBits v < 2 ^ 16 := v.toUInt16.toNat_lt

/-- `(struct dinode*)bp->data + j` -/
def getDinode (b : Block) (j : Nat) : Dinode where
  type := short (b.half (32 * j))
  major := short (b.half (32 * j + 1))
  minor := short (b.half (32 * j + 2))
  nlink := short (b.half (32 * j + 3))
  size := b.word (16 * j + 2)
  addrs := fun k => b.word (16 * j + 3 + k)

/-- Store `d` as the `j`-th inode of the block. -/
def putDinode (b : Block) (j : Nat) (d : Dinode) : Block :=
  (((((b.setHalf (32 * j) (shortBits d.type)).setHalf (32 * j + 1) (shortBits d.major)).setHalf
    (32 * j + 2) (shortBits d.minor)).setHalf (32 * j + 3) (shortBits d.nlink)).setWord
    (16 * j + 2) d.size).setWords (16 * j + 3) d.addrs

lemma getDinode_fits (b : Block) (j : Nat) : (getDinode b j).Fits :=
  ⟨b.word_lt _, fun _ => b.word_lt _⟩

variable {j k : Nat}

lemma half_putDinode (b : Block) (d : Dinode) (hk : ¬ (16 * j ≤ k / 2 ∧ k / 2 < 16 * j + 16)) :
    (putDinode b j d).half k = b.half k := by
  unfold putDinode
  rw [Bytes.half_setWords_ne _ (by unfold nAddrs; omega), Bytes.half_setWord_ne _ (by omega),
    Bytes.half_setHalf_ne _ (by omega), Bytes.half_setHalf_ne _ (by omega),
    Bytes.half_setHalf_ne _ (by omega), Bytes.half_setHalf_ne _ (by omega)]

lemma word_putDinode (b : Block) (d : Dinode) (hk : ¬ (16 * j ≤ k ∧ k < 16 * j + 16)) :
    (putDinode b j d).word k = b.word k := by
  unfold putDinode
  rw [Bytes.word_setWords_ne _ (by unfold nAddrs; omega), Bytes.word_setWord_ne _ (by omega),
    Bytes.word_setHalf_ne _ (by omega), Bytes.word_setHalf_ne _ (by omega),
    Bytes.word_setHalf_ne _ (by omega), Bytes.word_setHalf_ne _ (by omega)]

variable {d : Dinode}

lemma getDinode_putDinode_self (b : Block) (hj : j < ipb) (hd : d.Fits) : getDinode (putDinode b j d) j = d := by
  have hb : 64 * j + 64 ≤ bSize := by unfold ipb at hj; unfold bSize; omega
  -- below the words, the halfwords; each of them is stored by one `setHalf`
  have hhalf : ∀ t < 4, (putDinode b j d).half (32 * j + t) =
      ((((b.setHalf (32 * j) (shortBits d.type)).setHalf (32 * j + 1) (shortBits d.major)).setHalf
        (32 * j + 2) (shortBits d.minor)).setHalf (32 * j + 3) (shortBits d.nlink)).half
        (32 * j + t) := by
    intro t ht
    unfold putDinode
    rw [Bytes.half_setWords_ne _ (by omega), Bytes.half_setWord_ne _ (by omega)]
  have htype : (putDinode b j d).half (32 * j) = shortBits d.type := by
    rw [← Nat.add_zero (32 * j), hhalf 0 (by omega), Bytes.half_setHalf_ne _ (by omega),
      Bytes.half_setHalf_ne _ (by omega), Bytes.half_setHalf_ne _ (by omega), Nat.add_zero,
      Bytes.half_setHalf_self _ (by omega) (shortBits_lt _)]
  have hmajor : (putDinode b j d).half (32 * j + 1) = shortBits d.major := by
    rw [hhalf 1 (by omega), Bytes.half_setHalf_ne _ (by omega),
      Bytes.half_setHalf_ne _ (by omega), Bytes.half_setHalf_self _ (by omega) (shortBits_lt _)]
  have hminor : (putDinode b j d).half (32 * j + 2) = shortBits d.minor := by
    rw [hhalf 2 (by omega), Bytes.half_setHalf_ne _ (by omega),
      Bytes.half_setHalf_self _ (by omega) (shortBits_lt _)]
  have hnlink : (putDinode b j d).half (32 * j + 3) = shortBits d.nlink := by
    rw [hhalf 3 (by omega), Bytes.half_setHalf_self _ (by omega) (shortBits_lt _)]
  have hsize : (putDinode b j d).word (16 * j + 2) = d.size := by
    unfold putDinode
    rw [Bytes.word_setWords_ne _ (by omega), Bytes.word_setWord_self _ (by omega) hd.size]
  have haddrs : (fun k : Fin nAddrs => (putDinode b j d).word (16 * j + 3 + k)) = d.addrs := by
    funext k
    exact Bytes.word_setWords_self _ k (by unfold nAddrs; omega) (hd.addrs k)
  unfold getDinode
  rw [htype, hmajor, hminor, hnlink, hsize, haddrs]
  simp only [short_shortBits]

lemma getDinode_putDinode_ne (b : Block) (d : Dinode) (h : k ≠ j) :
    getDinode (putDinode b j d) k = getDinode b k := by
  unfold getDinode
  rw [half_putDinode b d (by omega), half_putDinode b d (by omega), half_putDinode b d (by omega),
    half_putDinode b d (by omega), word_putDinode b d (by omega)]
  congr 1
  funext i
  have hi : i.val < 13 := i.isLt
  exact word_putDinode b d (by omega)

/-- Inode `i` as it is on the disk. -/
def diskInode (disk : Nat → Block) (i : Nat) : Dinode := getDinode (disk (iblock i)) (i % ipb)

/-- Store inode `i` on the disk. -/
def putInode (disk : Nat → Block) (i : Nat) (d : Dinode) : Nat → Block :=
  Function.update disk (iblock i) (putDinode (disk (iblock i)) (i % ipb) d)

lemma diskInode_fits (disk : Nat → Block) (i : Nat) : (diskInode disk i).Fits :=
  getDinode_fits _ _

lemma diskInode_putInode (disk : Nat → Block) (hd : d.Fits) :
    diskInode (putInode disk i d) = Function.update (diskInode disk) i d := by
  funext j
  unfold diskInode putInode
  by_cases hij : j = i
  · subst hij
    rw [update_self, update_self]
    exact getDinode_putDinode_self _ (Nat.mod_lt _ (by decide)) hd
  · rw [update_of_ne hij]
    by_cases hblock : iblock j = iblock i
    · rw [hblock, update_self, getDinode_putDinode_ne _ _ ?_]
      intro hmod
      unfold iblock ipb at hblock
      unfold ipb at hmod
      omega
    · rw [update_of_ne hblock]

variable {disk disk' : Nat → Block}

lemma diskInode_congr (hi : i < nInodes)
    (h : ∀ b, inodeStart ≤ b → b < bmapStart → disk' b = disk b) : diskInode disk' i = diskInode disk i := by
  unfold diskInode
  rw [h _ (iblock_range hi).1 (iblock_range hi).2]

/-! ### The free bit map -/

/-- Is block `b` marked as used? -/
def used (disk : Nat → Block) (b : Nat) : Bool := (disk (bblock b)).bit (b % bpb)

/-- Mark block `b` as used. -/
def markUsed (disk : Nat → Block) (b : Nat) : Nat → Block :=
  Function.update disk (bblock b) ((disk (bblock b)).setBit (b % bpb))

/-- Mark block `b` as free. -/
def markFree (disk : Nat → Block) (b : Nat) : Nat → Block :=
  Function.update disk (bblock b) ((disk (bblock b)).clearBit (b % bpb))

lemma bpb_byte (b : Nat) : b % bpb / 8 < bSize := by
  have := Nat.mod_lt b (show 0 < bpb by decide)
  unfold bpb at *
  unfold bSize
  omega

lemma bit_inj {c : Nat} (hblock : bblock c = bblock b) : c % bpb = b % bpb ↔ c = b := by
  unfold bblock bpb at hblock
  unfold bpb
  omega

lemma used_markUsed (disk : Nat → Block) (b c : Nat) :
    used (markUsed disk b) c = (decide (c = b) || used disk c) := by
  unfold used markUsed
  by_cases h : bblock c = bblock b
  · rw [h, update_self, Bytes.bit_setBit _ (bpb_byte b)]
    simp only [bit_inj h]
  · have hne : c ≠ b := fun hcb => h (by rw [hcb])
    rw [update_of_ne h]
    simp [hne]

lemma used_markFree (disk : Nat → Block) (b c : Nat) :
    used (markFree disk b) c = (!decide (c = b) && used disk c) := by
  unfold used markFree
  by_cases h : bblock c = bblock b
  · rw [h, update_self, Bytes.bit_clearBit _ (bpb_byte b)]
    simp only [bit_inj h]
  · have hne : c ≠ b := fun hcb => h (by rw [hcb])
    rw [update_of_ne h]
    simp [hne]

/-- What `balloc` does to the blocks: `x` is marked as used and zeroed. -/
def allocBlock (disk : Nat → Block) (x : Nat) : Nat → Block :=
  Function.update (markUsed disk x) x Bytes.zero

variable {x : Nat}

lemma markUsed_of_ne (hx : x < fsSize) (hb : b < bmapStart ∨ dataStart ≤ b) : markUsed disk x b = disk b := by
  have := bblock_range hx
  exact update_of_ne (by omega) _ _

lemma markFree_of_ne (hx : x < fsSize) (hb : b < bmapStart ∨ dataStart ≤ b) : markFree disk x b = disk b := by
  have := bblock_range hx
  exact update_of_ne (by omega) _ _

@[simp] lemma allocBlock_self (disk : Nat → Block) (x : Nat) :
    allocBlock disk x x = Bytes.zero := update_self ..

lemma allocBlock_of_ne (hx : x < fsSize) (hne : b ≠ x)
    (hb : b < bmapStart ∨ dataStart ≤ b) : allocBlock disk x b = disk b := by
  unfold allocBlock
  rw [update_of_ne hne, markUsed_of_ne hx hb]

lemma used_congr (hb : b < fsSize)
    (h : ∀ x, bmapStart ≤ x → x < dataStart → disk' x = disk x) : used disk' b = used disk b := by
  unfold used
  rw [h _ (bblock_range hb).1 (bblock_range hb).2]

lemma used_update {data : Block} (hb : b < fsSize)
    (hx : x < bmapStart ∨ dataStart ≤ x) : used (Function.update disk x data) b = used disk b :=
  used_congr hb fun _ _ _ => update_of_ne (by omega) _ _

lemma used_allocBlock (hx : dataStart ≤ x) (hb : b < fsSize) :
    used (allocBlock disk x) b = (decide (b = x) || used disk b) := by
  unfold allocBlock
  rw [used_update hb (.inr hx), used_markUsed]

end Xv6.Fs
