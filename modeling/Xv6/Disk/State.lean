import Xv6.Param
import Xv6.Lib.Bytes

/-!
# The state shared by `bio.c`, `log.c` and the disk driver

The buffer cache is an array of `NBUF` buffers (a buffer pointer of the source is an index into it)
and the order of its LRU list; `log` is the in-memory log of `log.c`; the disk is the memory disk of
`memide.c`, one `Block` for every block number.

Kernel paths run in `KM`: they return, or `panic` (the machine stops where it is), or would go to
sleep on a lock that another path holds (`Stop.blocked`).
-/

namespace Xv6.Disk

/-- A disk block. -/
abbrev Block := Lib.Bytes bSize

/-- How a kernel path ends when it does not return. -/
inductive Stop
  | panic (msg : String)
  /-- The path would sleep: a sleep-lock it needs is held. -/
  | blocked
  deriving Repr, DecidableEq

/-- `struct buf`. `valid` and `dirty` are the two flags `B_VALID` and `B_DIRTY`; `lock` is the
holder of the sleep-lock. -/
structure Buf where
  valid : Bool
  dirty : Bool
  dev : Nat
  blockno : Nat
  lock : Option ProcId
  refcnt : Nat
  data : Block

/-- `struct log`. `lh` is the in-memory log header: `lh.n` is its length and `lh.block[i]` its
`i`-th element. The fields `start`, `size` and `dev`, which `initlog` takes from the super block and
from `ROOTDEV` and nothing changes, are the constants `logStart`, `logSize` and `rootDev`. -/
structure Log where
  /-- how many FS sys calls are executing -/
  outstanding : Nat
  /-- in `commit()`, please wait -/
  committing : Bool
  /-- flag to notice the log region is full -/
  full : Bool
  lh : List Nat
  deriving Repr, DecidableEq

/-- The kernel state below the file system. `lru` lists the buffers in the order in which `next`
visits them from `bcache.head`: most recently used first. -/
structure Kernel where
  buf : Fin nBuf → Buf
  lru : List (Fin nBuf)
  disk : Nat → Block
  log : Log

/-- Kernel paths. -/
abbrev KM := EStateM Stop Kernel

namespace Kernel

/-- Update the in-memory log. -/
def setLog (k : Kernel) (l : Log) : Kernel := { k with log := l }

/-- Replace one buffer. -/
def setBuf (k : Kernel) (i : Fin nBuf) (b : Buf) : Kernel :=
  { k with buf := Function.update k.buf i b }

/-- Replace the content of one disk block. -/
def setDisk (k : Kernel) (b : Nat) (v : Block) : Kernel :=
  { k with disk := Function.update k.disk b v }

@[simp] lemma setBuf_buf (k : Kernel) (i j : Fin nBuf) (b : Buf) :
    (k.setBuf i b).buf j = if j = i then b else k.buf j := Function.update_apply ..
@[simp] lemma setBuf_lru (k : Kernel) (i : Fin nBuf) (b : Buf) : (k.setBuf i b).lru = k.lru := rfl
@[simp] lemma setBuf_disk (k : Kernel) (i : Fin nBuf) (b : Buf) :
    (k.setBuf i b).disk = k.disk := rfl
@[simp] lemma setBuf_log (k : Kernel) (i : Fin nBuf) (b : Buf) : (k.setBuf i b).log = k.log := rfl
@[simp] lemma setDisk_disk (k : Kernel) (b : Nat) (v : Block) :
    (k.setDisk b v).disk = Function.update k.disk b v := rfl
@[simp] lemma setDisk_buf (k : Kernel) (b : Nat) (v : Block) : (k.setDisk b v).buf = k.buf := rfl

@[simp] lemma setBuf_setBuf (k : Kernel) (i : Fin nBuf) (b c : Buf) :
    (k.setBuf i b).setBuf i c = k.setBuf i c := by
  simp [setBuf]

/-- The cache after `binit` (a zeroed `bcache.buf`, each buffer put in front of the list in turn) and
the log as `initlog` finds it, over a given disk. -/
def boot (disk : Nat → Block) : Kernel where
  buf := fun _ => ⟨false, false, 0, 0, none, 0, Lib.Bytes.zero⟩
  lru := (List.finRange nBuf).reverse
  disk := disk
  log := ⟨0, false, false, []⟩

end Kernel

end Xv6.Disk
