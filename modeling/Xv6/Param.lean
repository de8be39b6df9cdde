import Mathlib

/-!
# Constants

The constants of `param.h`, `fs.h`, `buf.h`, `mmu.h` and `memlayout.h`, and the disk layout that
`mkfs` computes from them:

    [ boot block | super block | log | inode blocks | free bit map | data blocks ]
-/

namespace Xv6

/-- `NPROC`: maximum number of processes, LWPs included. -/
def nProc : Nat := 64

instance : NeZero nProc := ⟨by decide⟩

/-- A process, named by its slot in the process table (a `struct proc *` of the source). -/
abbrev ProcId := Fin nProc

/-- `MAXOPBLOCKS`: max # of blocks any FS op writes. -/
def maxOpBlocks : Nat := 10

/-- `LOGSIZE`: blocks of the on-disk log, its header block included (`mkfs`: `nlog = LOGSIZE`). -/
def logSize : Nat := 30

/-- `NBUF`: size of the disk block cache. -/
def nBuf : Nat := 30

/-- `NOFILE`: open files per process. -/
def nOFile : Nat := 16

/-- `NFILE`: open files per system. -/
def nFile : Nat := 100

/-- `NINODE`: maximum number of active i-nodes. -/
def nInode : Nat := 50

/-- `NDEV`: maximum major device number. -/
def nDev : Nat := 10

/-- `FSSIZE`: size of the file system image in blocks, hence of the disk. -/
def fsSize : Nat := 40000

/-- `BSIZE`: block size in bytes. -/
def bSize : Nat := 512

/-- `sb.logstart`, as `mkfs` sets it: boot block and super block come first. -/
def logStart : Nat := 2

/-- `ROOTDEV`: the device number of the file system disk. -/
def rootDev : Nat := 1

/-- `PGSIZE`: bytes mapped by a page. -/
def pgSize : Nat := 4096

/-- `KERNBASE`: first kernel virtual address. -/
def kernBase : Nat := 0x80000000

end Xv6
