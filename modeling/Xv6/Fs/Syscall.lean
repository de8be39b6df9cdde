import Xv6.Fs.Name

/-!
# Open files and the system calls (`file.c`, `sysfile.c`, and what `proc.c` does with files)

Each system call of a process, from its first to its last step, as it runs when no other process is in
the file system. Arguments have been fetched from user memory already; a result `-1` is `none` where the
calls of the source return a descriptor or a pointer. Pipes are not modelled. Of `exec` there is what it
does to the file system: it looks the path up and reads pieces of the file.
-/

namespace Xv6.Fs

open Lib Disk

/-! ### Open files -/

/-- Change an entry of the file table. -/
def modifyFile (f : FileId) (g : File → File) : FM Unit := do
  let s ← get
  set (s.setFile f (g (s.file f)))

/-- Change a descriptor of a process. -/
def setFd (p : ProcId) (fd : Fin nOFile) (f : Option FileId) : FM Unit := do
  let s ← get
  set { s with ofile := Function.update s.ofile p (Function.update (s.ofile p) fd f) }

/-- Change the working directory of a process. -/
def setCwd (p : ProcId) (ip : Option InodeId) : FM Unit := do
  let s ← get
  set { s with cwd := Function.update s.cwd p ip }

/-- `filealloc`: allocate a file structure. -/
def filealloc : FM (Option FileId) := do
  let s ← get
  match (List.finRange nFile).find? fun f => decide ((s.file f).ref = 0) with
  | some f =>
    modifyFile f fun x => { x with ref := 1 }
    return some f
  | none => return none

/-- `filedup`: increment ref count for file `f`. -/
def filedup (f : FileId) : FM Unit := do
  if ((← get).file f).ref < 1 then panic "filedup"
  else modifyFile f fun x => { x with ref := x.ref + 1 }

/-- `fileclose`: decrement ref count, close when it reaches 0. -/
def fileclose (f : FileId) : FM Unit := do
  let ff := (← get).file f
  if ff.ref < 1 then panic "fileclose"
  else if 0 < ff.ref - 1 then modifyFile f fun x => { x with ref := x.ref - 1 }
  else
    modifyFile f fun x => { x with ref := 0, type := .none }
    match ff.type with
    | .inode =>
      beginOp
      iput ff.ip
      endOp
    | .none => return

/-- `if (r > 0) f->off += r` -/
def advance (f : FileId) (r : Int) : FM Unit :=
  if 0 < r then modifyFile f fun x => { x with off := (x.off + r.toNat) % 2 ^ 32 } else return

/-- `fileread`; `none` is `-1`. -/
def fileread (f : FileId) (n : Nat) : FM (Option (List UInt8)) := do
  let ff := (← get).file f
  if ff.readable = false then return none
  else
    match ff.type with
    | .inode =>
      ilock ff.ip
      let r ← readi ff.ip ff.off n
      advance f (r.elim (-1) fun b => b.length)
      iunlock ff.ip
      return r
    | .none => panic "fileread"

/-- The bytes that `filewrite` writes in one transaction. -/
def writeMax : Nat := (maxOpBlocks - 1 - 1 - 2) / 2 * 512

/-- The loop of `filewrite`: `src` is what is left to write. The result is whether all was written. -/
def filewriteLoop (f : FileId) : Nat → List UInt8 → FM Bool
  | 0, src => return src.isEmpty
  | rounds + 1, src => do
    if src = [] then return true
    else
      let ff := (← get).file f
      let chunk := src.take writeMax
      beginOp
      ilock ff.ip
      let r ← writei ff.ip chunk ff.off
      advance f r
      iunlock ff.ip
      endOp
      if r < 0 then return false
      else if r ≠ chunk.length then panic "short filewrite"
      else filewriteLoop f rounds (src.drop writeMax)

/-- `filewrite` -/
def filewrite (f : FileId) (src : List UInt8) : FM Int := do
  let ff := (← get).file f
  if ff.writable = false then return -1
  else
    match ff.type with
    | .inode => return if (← filewriteLoop f src.length src) = true then src.length else -1
    | .none => panic "filewrite"

/-! ### System calls -/

/-- `fdalloc`: allocate a file descriptor for the given file. -/
def fdalloc (p : ProcId) (f : FileId) : FM (Option (Fin nOFile)) := do
  let s ← get
  match (List.finRange nOFile).find? fun fd => decide (s.ofile p fd = none) with
  | some fd =>
    setFd p fd (some f)
    return some fd
  | none => return none

/-- `sys_dup` -/
def sysDup (p : ProcId) (fd : Fin nOFile) : FM (Option (Fin nOFile)) := do
  match (← get).ofile p fd with
  | none => return none
  | some f =>
    match ← fdalloc p f with
    | none => return none
    | some fd' =>
      filedup f
      return some fd'

/-- `sys_read` -/
def sysRead (p : ProcId) (fd : Fin nOFile) (n : Nat) : FM (Option (List UInt8)) := do
  match (← get).ofile p fd with
  | none => return none
  | some f => fileread f n

/-- `sys_write` -/
def sysWrite (p : ProcId) (fd : Fin nOFile) (src : List UInt8) : FM Int := do
  match (← get).ofile p fd with
  | none => return -1
  | some f => filewrite f src

/-- `sys_close` -/
def sysClose (p : ProcId) (fd : Fin nOFile) : FM Int := do
  match (← get).ofile p fd with
  | none => return -1
  | some f =>
    setFd p fd none
    fileclose f
    return 0

/-- `sys_fstat`: the type, inode number, link count and size. -/
def sysFstat (p : ProcId) (fd : Fin nOFile) : FM (Option (Int16 × Nat × Int16 × Nat)) := do
  let s ← get
  match s.ofile p fd with
  | none => return none
  | some f =>
    match (s.file f).type with
    | .inode =>
      ilock (s.file f).ip
      let ip := (← get).inode (s.file f).ip
      iunlock (s.file f).ip
      return some (ip.din.type, ip.inum, ip.din.nlink, ip.din.size)
    | .none => return none

/-- The end of `sys_link` where it fails. -/
def unlinkBack (ip : InodeId) : FM Int := do
  ilock ip
  modifyDin ip fun d => { d with nlink := d.nlink - 1 }
  iupdate ip
  iunlockput ip
  endOp
  return -1

/-- `sys_link`: create the path `new` as a link to the same inode as `old`. -/
def sysLink (p : ProcId) (old new : List UInt8) : FM Int := do
  beginOp
  match ← namei p old with
  | none =>
    endOp
    return -1
  | some ip =>
    ilock ip
    if ((← get).inode ip).din.type = tDir then
      iunlockput ip
      endOp
      return -1
    else
      modifyDin ip fun d => { d with nlink := d.nlink + 1 }
      iupdate ip
      iunlock ip
      match ← nameiparent p new with
      | none => unlinkBack ip
      | some (dp, name) =>
        ilock dp
        if (← dirlink dp name ((← get).inode ip).inum) = false then
          iunlockput dp
          unlinkBack ip
        else
          iunlockput dp
          iput ip
          endOp
          return 0

/-- `bad:` of `sys_unlink`. -/
def unlinkBad (dp : InodeId) : FM Int := do
  iunlockput dp
  endOp
  return -1

/-- The end of `sys_unlink`: erase the entry at `off` of `dp`, which is for `ip`. -/
def unlinkEntry (dp ip : InodeId) (off : Nat) (isDir : Bool) : FM Int := do
  let r ← writei dp (List.replicate direntSize 0) off
  if r ≠ direntSize then panic "unlink: writei"
  else
    if isDir = true then
      modifyDin dp fun d => { d with nlink := d.nlink - 1 }
      iupdate dp
    iunlockput dp
    modifyDin ip fun d => { d with nlink := d.nlink - 1 }
    iupdate ip
    iunlockput ip
    endOp
    return 0

/-- `sys_unlink` -/
def sysUnlink (p : ProcId) (path : List UInt8) : FM Int := do
  beginOp
  match ← nameiparent p path with
  | none =>
    endOp
    return -1
  | some (dp, name) =>
    ilock dp
    if namecmp name dot = true ∨ namecmp name dotdot = true then unlinkBad dp
    else
      match ← dirlookup dp name with
      | none => unlinkBad dp
      | some (ip, off) =>
        ilock ip
        if ((← get).inode ip).din.nlink < 1 then panic "unlink: nlink < 1"
        else
          let isDir := decide (((← get).inode ip).din.type = tDir)
          let full ← if isDir = true then (do return !(← isdirempty ip)) else pure false
          if full = true then
            iunlockput ip
            unlinkBad dp
          else unlinkEntry dp ip off isDir

/-- Link `ip` into the directory `dp`, which must succeed. -/
def mustLink (dp : InodeId) (name : List UInt8) (ip : InodeId) (msg : String) : FM Unit := do
  if (← dirlink dp name ((← get).inode ip).inum) = false then panic msg

/-- The second half of `create`, for a name that is not there yet. -/
def createNode (dp : InodeId) (name : List UInt8) (type major minor : Int16) : FM InodeId := do
  let ip ← ialloc type
  ilock ip
  modifyDin ip fun d => { d with major := major, minor := minor, nlink := 1 }
  iupdate ip
  if type = tDir then
    modifyDin dp fun d => { d with nlink := d.nlink + 1 }
    iupdate dp
    -- no `ip->nlink++` for `.`: avoid cyclic ref count
    mustLink ip dot ip "create dots"
    mustLink ip dotdot dp "create dots"
  mustLink dp name ip "create: dirlink"
  iunlockput dp
  return ip

/-- `create`: the inode it returns is locked. -/
def create (p : ProcId) (path : List UInt8) (type major minor : Int16) : FM (Option InodeId) := do
  match ← nameiparent p path with
  | none => return none
  | some (dp, name) =>
    ilock dp
    match ← dirlookup dp name with
    | some (ip, _) =>
      iunlockput dp
      ilock ip
      if type = tFile ∧ ((← get).inode ip).din.type = tFile then return some ip
      else
        iunlockput ip
        return none
    | none =>
      return some (← createNode dp name type major minor)

/-- `O_WRONLY`, `O_RDWR`, `O_CREATE` of an open mode. -/
structure OpenMode where
  wronly : Bool
  rdwr : Bool
  create : Bool
  /-- the other bits of the mode are zero -/
  plain : Bool
  deriving DecidableEq, Repr

/-- `omode == O_RDONLY` -/
def OpenMode.rdonly (m : OpenMode) : Bool := !m.wronly && !m.rdwr && !m.create && m.plain

/-- The second half of `sys_open`, with the inode locked. -/
def openFile (p : ProcId) (omode : OpenMode) (ip : InodeId) : FM (Option (Fin nOFile)) := do
  match ← filealloc with
  | none =>
    iunlockput ip
    endOp
    return none
  | some f =>
    match ← fdalloc p f with
    | none =>
      fileclose f
      iunlockput ip
      endOp
      return none
    | some fd =>
      iunlock ip
      endOp
      modifyFile f fun x =>
        { x with type := .inode, ip := ip, off := 0, readable := !omode.wronly,
                 writable := omode.wronly || omode.rdwr }
      return some fd

/-- `sys_open` -/
def sysOpen (p : ProcId) (path : List UInt8) (omode : OpenMode) : FM (Option (Fin nOFile)) := do
  beginOp
  if omode.create = true then
    match ← create p path tFile 0 0 with
    | none =>
      endOp
      return none
    | some ip => openFile p omode ip
  else
    match ← namei p path with
    | none =>
      endOp
      return none
    | some ip =>
      ilock ip
      if ((← get).inode ip).din.type = tDir ∧ omode.rdonly = false then
        iunlockput ip
        endOp
        return none
      else openFile p omode ip

/-- `sys_mkdir` and `sys_mknod` -/
def makeNode (p : ProcId) (path : List UInt8) (type major minor : Int16) : FM Int := do
  beginOp
  match ← create p path type major minor with
  | none =>
    endOp
    return -1
  | some ip =>
    iunlockput ip
    endOp
    return 0

/-- `sys_mkdir` -/
def sysMkdir (p : ProcId) (path : List UInt8) : FM Int := makeNode p path tDir 0 0

/-- `sys_mknod` -/
def sysMknod (p : ProcId) (path : List UInt8) (major minor : Int16) : FM Int :=
  makeNode p path tDev major minor

/-- `sys_chdir` -/
def sysChdir (p : ProcId) (path : List UInt8) : FM Int := do
  beginOp
  match ← namei p path with
  | none =>
    endOp
    return -1
  | some ip =>
    ilock ip
    if ((← get).inode ip).din.type ≠ tDir then
      iunlockput ip
      endOp
      return -1
    else
      iunlock ip
      match (← get).cwd p with
      | none => panic "trap"
      | some old =>
        iput old
        endOp
        setCwd p (some ip)
        return 0

/-- What `exec` does to the file system: it reads pieces of the file, `reads`, and lets go of it. -/
def sysExec (p : ProcId) (path : List UInt8) (reads : List (Nat × Nat)) : FM Int := do
  beginOp
  match ← namei p path with
  | none =>
    endOp
    return -1
  | some ip =>
    ilock ip
    reads.forM fun (off, n) => do
      let _ ← readi ip off n
    iunlockput ip
    endOp
    return 0

/-- What `fork` and `thread_create` do with the files of process `p`: process `q` shares them and the
working directory. -/
def forkFiles (p q : ProcId) : FM Unit := do
  (List.finRange nOFile).forM fun fd => do
    match (← get).ofile p fd with
    | some f =>
      filedup f
      setFd q fd (some f)
    | none => return
  match (← get).cwd p with
  | some ip =>
    idup ip
    setCwd q (some ip)
  | none => panic "trap"

/-- What `exit` and `thread_exit` do with the files of process `p`. -/
def exitFiles (p : ProcId) : FM Unit := do
  (List.finRange nOFile).forM fun fd => do
    match (← get).ofile p fd with
    | some f =>
      fileclose f
      setFd p fd none
    | none => return
  beginOp
  match (← get).cwd p with
  | some ip =>
    iput ip
    endOp
    setCwd p none
  | none => panic "trap"

/-- `sys_sync`: empty a log that has exactly `LOGSIZE - 1` blocks. -/
def sysSync : FM Int := do
  let s ← get
  if s.log.lh.length = logSize - 1 then set { s with log := { s.log with lh := [] } }
  return 0

/-! ### Sequential runs -/

/-- A system call with its arguments. -/
inductive Call
  | dup (fd : Fin nOFile)
  | read (fd : Fin nOFile) (n : Nat)
  | write (fd : Fin nOFile) (src : List UInt8)
  | close (fd : Fin nOFile)
  | fstat (fd : Fin nOFile)
  | link (old new : List UInt8)
  | unlink (path : List UInt8)
  | openPath (path : List UInt8) (omode : OpenMode)
  | mkdir (path : List UInt8)
  | mknod (path : List UInt8) (major minor : Int16)
  | chdir (path : List UInt8)
  | exec (path : List UInt8) (reads : List (Nat × Nat))
  | fork (q : ProcId)
  | exit
  | sync
  deriving DecidableEq, Repr

/-- The call, by process `p`. -/
def Call.run (p : ProcId) : Call → FM Unit
  | .dup fd => discard (sysDup p fd)
  | .read fd n => discard (sysRead p fd n)
  | .write fd src => discard (sysWrite p fd src)
  | .close fd => discard (sysClose p fd)
  | .fstat fd => discard (sysFstat p fd)
  | .link old new => discard (sysLink p old new)
  | .unlink path => discard (sysUnlink p path)
  | .openPath path omode => discard (sysOpen p path omode)
  | .mkdir path => discard (sysMkdir p path)
  | .mknod path major minor => discard (sysMknod p path major minor)
  | .chdir path => discard (sysChdir p path)
  | .exec path reads => discard (sysExec p path reads)
  | .fork q => forkFiles p q
  | .exit => exitFiles p
  | .sync => discard sysSync

namespace State

/-- The process exists. -/
def Alive (s : State) (p : ProcId) : Prop := (s.cwd p).isSome

instance (s : State) (p : ProcId) : Decidable (s.Alive p) := inferInstanceAs (Decidable (_ = _))

/-- The call can be made: its process exists, and the one that `fork` makes does not exist yet.
Lengths are `int`s, and what `exec` reads is given by `uint`s. -/
def Enabled (s : State) (p : ProcId) : Call → Prop
  | .fork q => s.Alive p ∧ ¬ s.Alive q
  | .read _ n => s.Alive p ∧ n < 2 ^ 31
  | .write _ src => s.Alive p ∧ src.length < 2 ^ 31
  | .exec _ reads => s.Alive p ∧ ∀ r ∈ reads, r.1 < 2 ^ 32 ∧ r.2 < 2 ^ 32
  | _ => s.Alive p

instance (s : State) (p : ProcId) : DecidablePred (s.Enabled p) := by
  intro c
  unfold Enabled
  split <;> infer_instance

/-- One system call of a sequential run: it has to return. -/
def step (s : State) (a : ProcId × Call) : Option State :=
  if s.Enabled a.1 a.2 then
    match Call.run a.1 a.2 s with
    | .ok _ t => some t
    | .error _ _ => none
  else none

/-- The state after `userinit`, with the given image: the first process is in the root directory. -/
def mount (disk : Nat → Block) (devsw : Fin nDev → Device) : State where
  disk := disk
  log := ⟨0, false, false, []⟩
  inode i := if i = 0 then ⟨rootIno, 1, false, false, Dinode.zero⟩
    else ⟨0, 0, false, false, Dinode.zero⟩
  file _ := ⟨.none, 0, false, false, 0, 0⟩
  ofile _ _ := none
  cwd p := if p = 0 then some 0 else none
  devsw := devsw

end State

end Xv6.Fs
