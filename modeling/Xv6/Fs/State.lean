import Xv6.Disk.Log
import Xv6.Fs.Layout

/-!
# The state of the file system

The layers above the log: the inode cache of `fs.c`, the file table of `file.c`, and each process's
open files and working directory. Pointers of the source are indices into the tables.

The blocks below are one flat store, `disk`: what `bread` returns for a block is what was last
written to it. That the buffer cache, the log and the disk together behave like this in runs that do
not panic is `Disk.bread_returns_latest`. Of the log only its bookkeeping is left here: the number of
operations in progress and the blocks listed in the header, on which the two panics of `log_write`
depend.

A path of the file system returns, panics, or would go to sleep on a lock or for the log
(`Stop.blocked`).
-/

namespace Xv6.Fs

open Lib Disk

instance : NeZero nInode := ⟨by decide⟩
instance : NeZero nFile := ⟨by decide⟩
instance : NeZero nOFile := ⟨by decide⟩

/-- An entry of the inode cache (a `struct inode *` of the source). -/
abbrev InodeId := Fin nInode

/-- An entry of the file table (a `struct file *` of the source). -/
abbrev FileId := Fin nFile

/-- `struct inode`: an entry of the inode cache. `din` is the in-memory copy of the inode on disk,
meaningful when `valid`; `locked` says whether the sleep-lock is held. There is one device, so `dev`
is left out. -/
structure Inode where
  inum : Nat
  ref : Int
  locked : Bool
  valid : Bool
  din : Dinode

/-- `FD_NONE`, `FD_INODE`: the type of an open file. Pipes are not modelled. -/
inductive FileType
  | none
  | inode
  deriving Repr, DecidableEq

/-- `struct file` -/
structure File where
  type : FileType
  ref : Int
  readable : Bool
  writable : Bool
  ip : InodeId
  off : Nat

/-- An entry of `devsw`: what the read function of the device delivers when asked for a number of
bytes (`none` for `-1`), and what its write function returns. -/
structure Device where
  read : Option (Nat → Option (List UInt8))
  write : Option (List UInt8 → Int)

/-- The state of the file system. -/
structure State where
  disk : Nat → Block
  log : Log
  inode : InodeId → Inode
  file : FileId → File
  ofile : ProcId → Fin nOFile → Option FileId
  cwd : ProcId → Option InodeId
  devsw : Fin nDev → Device

/-- Paths of the file system. -/
abbrev FM := EStateM Stop State

/-- `panic` -/
def panic {α : Type} (msg : String) : FM α := throw (.panic msg)

namespace State

/-- Replace the content of one block. -/
def setBlock (s : State) (b : Nat) (data : Block) : State :=
  { s with disk := Function.update s.disk b data }

/-- Replace one entry of the inode cache. -/
def setInode (s : State) (i : InodeId) (ip : Inode) : State :=
  { s with inode := Function.update s.inode i ip }

/-- Replace one entry of the file table. -/
def setFile (s : State) (f : FileId) (x : File) : State :=
  { s with file := Function.update s.file f x }

@[simp] lemma setInode_inode_self (s : State) (i : InodeId) (ip : Inode) :
    (s.setInode i ip).inode i = ip := Function.update_self ..

@[simp] lemma setInode_setInode (s : State) (i : InodeId) (ip ip' : Inode) :
    (s.setInode i ip).setInode i ip' = s.setInode i ip' := by
  simp [setInode]

@[simp] lemma setInode_disk (s : State) (i : InodeId) (ip : Inode) :
    (s.setInode i ip).disk = s.disk := rfl

lemma setInode_inode_of_ne (s : State) {i j : InodeId} (ip : Inode) (h : j ≠ i) :
    (s.setInode i ip).inode j = s.inode j := Function.update_of_ne h _ _

end State

/-! ### Blocks -/

/-- `bread`: the content of a block. -/
def bread (b : Nat) : FM Block := do
  return (← get).disk b

/-- The caller has changed the buffer of block `b` to `data` and does not log it. -/
def poke (b : Nat) (data : Block) : FM Unit := do
  set ((← get).setBlock b data)

/-- The caller has changed the buffer of block `b` to `data` and calls `log_write`. -/
def logWrite (b : Nat) (data : Block) : FM Unit := do
  let s ← get
  if logSize ≤ s.log.lh.length then panic "too big a transaction"
  else if s.log.outstanding < 1 then panic "log_write outside of trans"
  else set { s.setBlock b data with log := s.log.add b }

/-- `begin_op`: sleep while the log is full, else join the current transaction. -/
def beginOp : FM Unit := do
  let s ← get
  if logSize - 1 < s.log.lh.length then throw .blocked
  else set { s with log := { s.log with outstanding := s.log.outstanding + 1 } }

/-- `end_op`: the last operation to leave commits, and empties a log that has become full. A commit
does not change what `bread` returns. With `NBUF` blocks listed, all buffers are pinned and
`write_log` finds none for the log block it has to read. -/
def endOp : FM Unit := do
  let s ← get
  let l := { s.log with outstanding := s.log.outstanding - 1 }
  if l.outstanding = 0 then
    if nBuf ≤ l.lh.length then panic "bget: no buffers"
    else if l.full = true ∧ l.lh.length = logSize - 1 then
      set { s with log := { l with lh := [] } }
    else set { s with log := l }
  else set { s with log := l }

end Xv6.Fs
