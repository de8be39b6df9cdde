import Xv6.Fs.Inode

/-!
# Directories and paths (`fs.c`)

A directory is a file made of 16-byte entries, an inode number and a name of at most `DIRSIZ` bytes.
`dirlookup`, `dirlink` and `isdirempty` go over them with the same loop, `dirScan`. Paths and names are
lists of bytes without their final zero; a name is cut off at `DIRSIZ` bytes by `skipelem`.
-/

namespace Xv6.Fs

open Lib Disk

/-! ### Directory entries -/

/-- `DIRSIZ` -/
def dirSiz : Nat := 14

/-- `sizeof(struct dirent)` -/
def direntSize : Nat := 16

/-- `struct dirent` -/
structure Dirent where
  inum : Nat
  name : List UInt8
  deriving DecidableEq, Repr

/-- The part of a character array that is compared and copied: at most `DIRSIZ` bytes, up to the first
zero. -/
def cstr (name : List UInt8) : List UInt8 := (name.take dirSiz).takeWhile (· ≠ 0)

/-- `namecmp(s, t) == 0` -/
def namecmp (s t : List UInt8) : Bool := cstr s = cstr t

/-- `.` -/
def dot : List UInt8 := [46]

/-- `..` -/
def dotdot : List UInt8 := [46, 46]

/-- `strncpy(de.name, name, DIRSIZ)` -/
def strncpy (name : List UInt8) : List UInt8 :=
  cstr name ++ List.replicate (dirSiz - (cstr name).length) 0

namespace Dirent

/-- The bytes of an entry; the number is a `ushort`. -/
def bytes (de : Dirent) : List UInt8 :=
  [UInt8.ofNat de.inum, UInt8.ofNat (de.inum / 256)] ++ strncpy de.name

/-- An entry from its bytes. -/
def ofBytes (b : List UInt8) : Dirent :=
  ⟨(b.getD 0 0).toNat + 256 * (b.getD 1 0).toNat, (b.drop 2).take dirSiz⟩

end Dirent

/-- Read the entries of a directory from `off` on until one satisfies `p`. Returns the offset at which
it stopped, and the entry if there is one. -/
def dirScan (i : InodeId) (msg : String) (p : Dirent → Bool) :
    Nat → Nat → FM (Nat × Option Dirent)
  | 0, off => return (off, none)
  | rounds + 1, off => do
    if off < ((← get).inode i).din.size then
      match ← readi i off direntSize with
      | some b =>
        if b.length ≠ direntSize then panic msg
        else if p (.ofBytes b) = true then return (off, some (.ofBytes b))
        else dirScan i msg p rounds (off + direntSize)
      | none => panic msg
    else return (off, none)

/-- The loops over a directory, from entry `k` on. -/
def scan (i : InodeId) (msg : String) (p : Dirent → Bool) (k : Nat) : FM (Nat × Option Dirent) := do
  dirScan i msg p (((← get).inode i).din.size / direntSize + 1) (k * direntSize)

/-- `dirlookup`: look for a directory entry in a directory. Returns the inode and the offset of the
entry. -/
def dirlookup (dp : InodeId) (name : List UInt8) : FM (Option (InodeId × Nat)) := do
  if ((← get).inode dp).din.type ≠ tDir then panic "dirlookup not DIR"
  else
    match ← scan dp "dirlookup read" (fun de => decide (de.inum ≠ 0) && namecmp name de.name) 0 with
    | (off, some de) =>
      let ip ← iget de.inum
      return some (ip, off)
    | (_, none) => return none

/-- `dirlink`: write a new directory entry (`name`, `inum`) into the directory `dp`. The result is
whether it returns `0`, not `-1`. -/
def dirlink (dp : InodeId) (name : List UInt8) (inum : Nat) : FM Bool := do
  match ← dirlookup dp name with
  | some (ip, _) =>
    iput ip
    return false
  | none =>
    let (off, _) ← scan dp "dirlink read" (fun de => decide (de.inum = 0)) 0
    let r ← writei dp (Dirent.bytes ⟨inum, name⟩) off
    if r ≠ direntSize then panic "dirlink"
    else return true

/-- `isdirempty`: is the directory `dp` empty except for `.` and `..`? -/
def isdirempty (dp : InodeId) : FM Bool := do
  let (_, de) ← scan dp "isdirempty: readi" (fun de => decide (de.inum ≠ 0)) 2
  return de.isNone

/-! ### Paths -/

/-- `/` -/
def slash : UInt8 := 47

/-- `skipelem`: split off the next path element, if there is one. -/
def skipelem (path : List UInt8) : Option (List UInt8 × List UInt8) :=
  let path := path.dropWhile (· = slash)
  if path = [] then none
  else some ((path.dropWhile (· ≠ slash)).dropWhile (· = slash),
    (path.takeWhile (· ≠ slash)).take dirSiz)

/-- The loop of `namex`. Every round shortens the path, so as many rounds as it has bytes are
enough. -/
def namexLoop (nameiparent : Bool) : Nat → InodeId → List UInt8 → FM (Option (InodeId × List UInt8))
  | 0, ip, _ => do
    iput ip
    return none
  | rounds + 1, ip, path => do
    match skipelem path with
    | none =>
      if nameiparent = true then
        iput ip
        return none
      else return some (ip, [])
    | some (path, name) =>
      ilock ip
      if ((← get).inode ip).din.type ≠ tDir then
        iunlockput ip
        return none
      else if nameiparent = true ∧ path = [] then
        iunlock ip
        return some (ip, name)
      else
        match ← dirlookup ip name with
        | none =>
          iunlockput ip
          return none
        | some (next, _) =>
          iunlockput ip
          namexLoop nameiparent rounds next path

/-- `namex`: look up the inode for a path name, or for its parent and the final path element. -/
def namex (p : ProcId) (path : List UInt8) (nameiparent : Bool) :
    FM (Option (InodeId × List UInt8)) := do
  if path.head? = some slash then
    let ip ← iget rootIno
    namexLoop nameiparent (path.length + 1) ip path
  else
    match (← get).cwd p with
    | some ip =>
      idup ip
      namexLoop nameiparent (path.length + 1) ip path
    | none => panic "trap"

/-- `namei` -/
def namei (p : ProcId) (path : List UInt8) : FM (Option InodeId) := do
  return (← namex p path false).map Prod.fst

/-- `nameiparent` -/
def nameiparent (p : ProcId) (path : List UInt8) : FM (Option (InodeId × List UInt8)) :=
  namex p path true

end Xv6.Fs
