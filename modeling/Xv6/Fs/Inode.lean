import Xv6.Fs.State

/-!
# Blocks and inodes (`fs.c`)

Block allocation, the inode cache, the index tree of an inode (`bmap`, `itrunc`) and the content of
files (`readi`, `writei`).
-/

namespace Xv6.Fs

open Lib Disk

/-! ### Blocks -/

/-- `bzero`: zero a block. -/
def bzero (bno : Nat) : FM Unit := logWrite bno Bytes.zero

/-- The search of `balloc`: the first block that is not marked in the free map. The outer loop goes
over the blocks of the map, the inner one over the bits of a block. -/
def findFree (disk : Nat → Block) : Option Nat :=
  (List.range' 0 ((fsSize + bpb - 1) / bpb) bpb).findSome? fun b =>
    ((List.range' 0 bpb).find? fun bi =>
      decide (b + bi < fsSize) && !(disk (bblock b)).bit bi).map (b + ·)

/-- `balloc`: allocate a zeroed disk block. -/
def balloc : FM Nat := do
  match findFree (← get).disk with
  | some b =>
    let bp ← bread (bblock b)
    logWrite (bblock b) (bp.setBit (b % bpb))
    bzero b
    return b
  | none => panic "balloc: out of blocks"

/-- `bfree`: free a disk block. -/
def bfree (b : Nat) : FM Unit := do
  let bp ← bread (bblock b)
  if bp.bit (b % bpb) = false then panic "freeing free block"
  else logWrite (bblock b) (bp.clearBit (b % bpb))

/-! ### The inode cache -/

/-- Change an entry of the inode cache. -/
def modifyInode (i : InodeId) (f : Inode → Inode) : FM Unit := do
  let s ← get
  set (s.setInode i (f (s.inode i)))

/-- Change the in-memory copy of an inode. -/
def modifyDin (i : InodeId) (f : Dinode → Dinode) : FM Unit :=
  modifyInode i fun ip => { ip with din := f ip.din }

/-- `iupdate`: copy a modified in-memory inode to disk. -/
def iupdate (i : InodeId) : FM Unit := do
  let ip := (← get).inode i
  let bp ← bread (iblock ip.inum)
  logWrite (iblock ip.inum) (putDinode bp (ip.inum % ipb) ip.din)

/-- `iget`: find the inode with number `inum` and return the in-memory copy. Does not lock the inode
and does not read it from disk. -/
def iget (inum : Nat) : FM InodeId := do
  let s ← get
  match (List.finRange nInode).find? fun i => decide (0 < (s.inode i).ref ∧ (s.inode i).inum = inum)
  with
  | some i =>
    modifyInode i fun ip => { ip with ref := ip.ref + 1 }
    return i
  | none =>
    match (List.finRange nInode).find? fun i => decide ((s.inode i).ref = 0) with
    | some i =>
      modifyInode i fun ip => { ip with inum := inum, ref := 1, valid := false }
      return i
    | none => panic "iget: no inodes"

/-- `ialloc`: allocate an inode, marking it as allocated by giving it type `type`. -/
def ialloc (type : Int16) : FM InodeId := do
  let s ← get
  match (List.range' 1 (nInodes - 1)).find? fun inum => decide ((diskInode s.disk inum).type = 0) with
  | some inum =>
    let bp ← bread (iblock inum)
    logWrite (iblock inum) (putDinode bp (inum % ipb) { Dinode.zero with type := type })
    iget inum
  | none => panic "ialloc: no inodes"

/-- `idup`: increment the reference count. -/
def idup (i : InodeId) : FM Unit := modifyInode i fun ip => { ip with ref := ip.ref + 1 }

/-- `acquiresleep(&ip->lock)` -/
def acquiresleep (i : InodeId) : FM Unit := do
  if ((← get).inode i).locked = true then throw .blocked
  else modifyInode i fun ip => { ip with locked := true }

/-- `releasesleep(&ip->lock)` -/
def releasesleep (i : InodeId) : FM Unit := modifyInode i fun ip => { ip with locked := false }

/-- `ilock`: lock the given inode, reading it from disk if necessary. -/
def ilock (i : InodeId) : FM Unit := do
  if ((← get).inode i).ref < 1 then panic "ilock"
  else
    acquiresleep i
    let s ← get
    if (s.inode i).valid = false then
      let d := diskInode s.disk (s.inode i).inum
      modifyInode i fun ip => { ip with din := d, valid := true }
      if d.type = 0 then panic "ilock: no type"

/-- `iunlock` -/
def iunlock (i : InodeId) : FM Unit := do
  let ip := (← get).inode i
  if ip.locked = false ∨ ip.ref < 1 then panic "iunlock"
  else releasesleep i

/-! ### The index tree -/

/-- `ip->addrs[k]`, allocating a block if there is none. -/
def topEntry (i : InodeId) (k : Fin nAddrs) : FM Nat := do
  let addr := ((← get).inode i).din.addrs k
  if addr = 0 then
    let addr ← balloc
    modifyDin i fun d => d.setAddr k addr
    return addr
  else return addr

/-- Entry `j` of the index block `b`, allocating a block if there is none. -/
def indexEntry (b : Nat) (j : Nat) : FM Nat := do
  let bp ← bread b
  let addr := bp.word j
  if addr = 0 then
    let addr ← balloc
    let bp ← bread b
    logWrite b (bp.setWord j addr)
    return addr
  else return addr

/-- `bmap`: the disk block address of the `bn`-th block in inode `ip`. If there is no such block,
`bmap` allocates one. -/
def bmap (i : InodeId) (bn : Nat) : FM Nat := do
  if bn < nDirect then
    topEntry i (Fin.ofNat _ bn)
  else
    let bn := bn - nDirect
    if bn < nIndirect then
      let addr ← topEntry i (Fin.ofNat _ nDirect)
      indexEntry addr bn
    else
      let bn := bn - nIndirect
      if bn < nDIndirect then
        let addr ← topEntry i (Fin.ofNat _ (nDirect + 1))
        let addr ← indexEntry addr (bn / nIndirect)
        indexEntry addr (bn % nIndirect)
      else
        let bn := bn - nDIndirect
        if bn < nTIndirect then
          let addr ← topEntry i (Fin.ofNat _ (nDirect + 2))
          let addr ← indexEntry addr (bn / nDIndirect)
          let addr ← indexEntry addr (bn % nDIndirect / nIndirect)
          indexEntry addr (bn % nDIndirect % nIndirect)
        else panic "bmap: out of range"

/-- Free block `b` and, if it is an index block of level `l > 0`, everything below it: the nested
loops of `itrunc`. The entries are zeroed in the buffer of the index block, which is not logged. -/
def freeTree : Nat → Nat → FM Unit
  | 0, b => bfree b
  | l + 1, b => do
    (List.range nIndirect).forM fun j => do
      let addr := (← bread b).word j
      if addr ≠ 0 then
        freeTree l addr
        poke b ((← bread b).setWord j 0)
    bfree b

/-- `itrunc`: truncate inode (discard contents). -/
def itrunc (i : InodeId) : FM Unit := do
  (List.finRange nAddrs).forM fun k => do
    let addr := ((← get).inode i).din.addrs k
    if addr ≠ 0 then
      freeTree (level k) addr
      modifyDin i fun d => d.setAddr k 0
  modifyDin i fun d => { d with size := 0 }
  iupdate i

/-- `iput`: drop a reference to an in-memory inode. If that was the last reference and the inode has
no links to it, free the inode (and its content) on disk. -/
def iput (i : InodeId) : FM Unit := do
  acquiresleep i
  let ip := (← get).inode i
  if ip.valid = true ∧ ip.din.nlink = 0 then
    if ip.ref = 1 then
      itrunc i
      modifyDin i fun d => { d with type := 0 }
      iupdate i
      modifyInode i fun ip => { ip with valid := false }
  releasesleep i
  modifyInode i fun ip => { ip with ref := ip.ref - 1 }

/-- `iunlockput` -/
def iunlockput (i : InodeId) : FM Unit := do
  iunlock i
  iput i

/-! ### Content -/

/-- The loop of `readi`: `n` is what is left to read. Every round reads a byte at least, so `n`
rounds are enough. -/
def readLoop (i : InodeId) : Nat → Nat → Nat → FM (List UInt8)
  | 0, _, _ => return []
  | rounds + 1, off, n => do
    if n = 0 then return []
    else
      let bp ← bread (← bmap i (off / bSize))
      let m := min n (bSize - off % bSize)
      let rest ← readLoop i rounds (off + m) (n - m)
      return bp.slice (off % bSize) m ++ rest

/-- The entry of `devsw` for a major device number. -/
def device (s : State) (major : Int16) : Option Device :=
  if h : 0 ≤ major.toInt ∧ major.toInt.toNat < nDev then some (s.devsw ⟨major.toInt.toNat, h.2⟩)
  else none

/-- `readi`: read data from inode; `none` is the result `-1`. Offsets and lengths are `uint`s. -/
def readi (i : InodeId) (off n : Nat) : FM (Option (List UInt8)) := do
  let s ← get
  let d := (s.inode i).din
  if d.type = tDev then
    match (device s d.major).bind Device.read with
    | some f => return f n
    | none => return none
  else if d.size < off ∨ (off + n) % 2 ^ 32 < off then return none
  else
    let n := if d.size < (off + n) % 2 ^ 32 then d.size - off else n
    return some (← readLoop i n off n)

/-- The loop of `writei`: `src` is what is left to write. Returns the offset it has reached. -/
def writeLoop (i : InodeId) : Nat → Nat → List UInt8 → FM Nat
  | 0, off, _ => return off
  | rounds + 1, off, src => do
    if src.length = 0 then return off
    else
      let b ← bmap i (off / bSize)
      let bp ← bread b
      let m := min src.length (bSize - off % bSize)
      logWrite b (bp.splice (off % bSize) (src.take m))
      writeLoop i rounds (off + m) (src.drop m)

/-- `writei`: write data to inode. Offsets and lengths are `uint`s. -/
def writei (i : InodeId) (src : List UInt8) (off : Nat) : FM Int := do
  let s ← get
  let d := (s.inode i).din
  let n := src.length
  if d.type = tDev then
    match (device s d.major).bind Device.write with
    | some f => return f src
    | none => return -1
  else if d.size < off ∨ (off + n) % 2 ^ 32 < off then return -1
  else if maxFile * bSize < (off + n) % 2 ^ 32 then return -1
  else
    let off ← writeLoop i n off src
    let size := ((← get).inode i).din.size
    if 0 < n ∧ size < off then
      modifyDin i fun d => { d with size := off }
      iupdate i
    return n

end Xv6.Fs
