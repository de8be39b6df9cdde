import Xv6.Disk.State

/-!
# The buffer cache (`bio.c`) over the memory disk (`memide.c`)

Each function takes the process it runs for, which becomes the owner of the sleep-locks it takes.
-/

namespace Xv6.Disk

/-- `acquiresleep(&b->lock)`. -/
def acquiresleep (p : ProcId) (i : Fin nBuf) : KM Unit := do
  let k ← get
  if (k.buf i).lock.isSome then throw .blocked
  else set (k.setBuf i { k.buf i with lock := some p })

/-- The buffer that caches block `blockno` of device `dev`, searched from `bcache.head.next`. -/
def Kernel.cached (k : Kernel) (dev blockno : Nat) : Option (Fin nBuf) :=
  k.lru.find? fun i => (k.buf i).dev = dev ∧ (k.buf i).blockno = blockno

/-- The buffer to recycle, searched from `bcache.head.prev`. Even if `refcnt = 0`, `B_DIRTY`
indicates a buffer is in use because `log.c` has modified it but not yet committed it. -/
def Kernel.victim (k : Kernel) : Option (Fin nBuf) :=
  k.lru.reverse.find? fun i => (k.buf i).refcnt = 0 ∧ (k.buf i).dirty = false

/-- `bget`: look through the buffer cache for a block; if it is not found, recycle a buffer. -/
def bget (p : ProcId) (dev blockno : Nat) : KM (Fin nBuf) := do
  let k ← get
  match k.cached dev blockno with
  | some i =>
    set (k.setBuf i { k.buf i with refcnt := (k.buf i).refcnt + 1 })
    acquiresleep p i
    return i
  | none =>
    match k.victim with
    | some i =>
      set (k.setBuf i { k.buf i with
        dev := dev, blockno := blockno, valid := false, dirty := false, refcnt := 1 })
      acquiresleep p i
      return i
    | none => throw (.panic "bget: no buffers")

/-- `iderw` of `memide.c`: sync a buffer with the disk. If `B_DIRTY` is set, write the buffer to
disk and clear `B_DIRTY`; else read it from disk. Either way set `B_VALID`. -/
def iderw (p : ProcId) (i : Fin nBuf) : KM Unit := do
  let k ← get
  let b := k.buf i
  if b.lock ≠ some p then throw (.panic "iderw: buf not locked")
  else if b.valid = true ∧ b.dirty = false then throw (.panic "iderw: nothing to do")
  else if b.dev ≠ rootDev then throw (.panic "iderw: request not for disk 1")
  else if fsSize ≤ b.blockno then throw (.panic "iderw: block out of range")
  else if b.dirty = true then
    set ((k.setDisk b.blockno b.data).setBuf i { b with dirty := false, valid := true })
  else
    set (k.setBuf i { b with data := k.disk b.blockno, valid := true })

/-- `bread`: return a locked buffer with the contents of the indicated block. -/
def bread (p : ProcId) (dev blockno : Nat) : KM (Fin nBuf) := do
  let i ← bget p dev blockno
  let k ← get
  if (k.buf i).valid = false then iderw p i
  return i

/-- `bwrite`: write a buffer's contents to disk. -/
def bwrite (p : ProcId) (i : Fin nBuf) : KM Unit := do
  let k ← get
  if (k.buf i).lock ≠ some p then throw (.panic "bwrite")
  else
    set (k.setBuf i { k.buf i with dirty := true })
    iderw p i

/-- `brelse`: release a locked buffer; when nobody refers to it any more, move it to the front of
the list. -/
def brelse (p : ProcId) (i : Fin nBuf) : KM Unit := do
  let k ← get
  if (k.buf i).lock ≠ some p then throw (.panic "brelse")
  else
    let b := { k.buf i with lock := none, refcnt := (k.buf i).refcnt - 1 }
    set { k.setBuf i b with lru := if b.refcnt = 0 then i :: k.lru.erase i else k.lru }

/-- The assignments through `b->data` that the callers of `bread` make. -/
def setData (i : Fin nBuf) (v : Block) : KM Unit := do
  let k ← get
  set (k.setBuf i { k.buf i with data := v })

end Xv6.Disk
