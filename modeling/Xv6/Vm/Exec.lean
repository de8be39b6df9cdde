import Xv6.Vm.Paging
import Xv6.Fs.Content

/-!
# `exec` (`exec.c`, `vm.c`)

`exec` builds a new address space from the bytes of a file and from its arguments, and either puts it in the
place of the old one or frees it and returns `-1`. The headers of the file are read as they come: all sizes,
offsets and addresses in them are any 32-bit numbers, and sums of them wrap around.

The file is found and locked before, and `exec` sees its bytes through `readi`, whose model and whose
specification are in `Xv6.Fs.Content`; here a file is the list of its bytes. The arguments are strings in the
memory of the caller, which `exec` does not write to; they are given without their NUL, and the length is an
`int`. A word of memory that is not an entry of a page table is a number (`Word.toNat`), and a page is read
and written byte by byte through its words (`byteAt`, `memmove`).
-/

namespace Xv6.Vm

open Process (pgUp)
open Fs (overwrite)

/-! ### Bytes in pages -/

/-- The value of a word, with `PTE_P` if it is an entry. -/
def Word.toNat : Word → Nat
  | .entry e => e.page * pgSize + e.flags / 2 * 2 + 1
  | .other w => w

/-- The word with a value. -/
def Word.ofNat (w : Nat) : Word :=
  if w % 2 = 1 then .entry ⟨w / pgSize, w % pgSize / 2 * 2⟩ else .other w

lemma Word.toNat_ofNat (w : Nat) : (Word.ofNat w).toNat = w := by
  unfold Word.ofNat
  split
  · show w / pgSize * pgSize + w % pgSize / 2 * 2 / 2 * 2 + 1 = w
    unfold pgSize
    omega
  · rfl

/-- `PTE_ADDR(w) / PGSIZE` -/
def Word.page : Word → Page
  | .entry e => e.page
  | .other w => w / pgSize

/-- `*pte & PTE_U` -/
def Entry.user (e : Entry) : Bool := decide (e.flags / 4 % 2 = 1)

lemma Entry.user_eq (p : Page) (flags : Nat) : Entry.user ⟨p, flags⟩ = decide (flags / 4 % 2 = 1) := rfl

/-- Byte `o` of a page. -/
def byteAt (m : Table) (o : Nat) : UInt8 := UInt8.ofNat ((m (o / 4)).toNat / 256 ^ (o % 4))

/-- The page with given bytes. -/
def ofBytes (f : Nat → UInt8) : Table := fun i =>
  .ofNat ((f (4 * i)).toNat + 256 * (f (4 * i + 1)).toNat + 65536 * (f (4 * i + 2)).toNat +
    16777216 * (f (4 * i + 3)).toNat)

@[simp] lemma byteAt_ofBytes (f : Nat → UInt8) (o : Nat) : byteAt (ofBytes f) o = f o := by
  have h0 := (f (4 * (o / 4))).toNat_lt
  have h1 := (f (4 * (o / 4) + 1)).toNat_lt
  have h2 := (f (4 * (o / 4) + 2)).toNat_lt
  have h3 := (f (4 * (o / 4) + 3)).toNat_lt
  have hsplit : o = 4 * (o / 4) + o % 4 := by omega
  have hmod : o % 4 < 4 := Nat.mod_lt _ (by decide)
  unfold byteAt ofBytes
  rw [Word.toNat_ofNat]
  refine UInt8.toNat_inj.mp ?_
  rw [UInt8.toNat_ofNat']
  conv => rhs; rw [hsplit]
  generalize o / 4 = i at *
  generalize o % 4 = j at *
  obtain rfl | rfl | rfl | rfl : j = 0 ∨ j = 1 ∨ j = 2 ∨ j = 3 := by omega
  all_goals
    simp only [Nat.pow_zero, Nat.pow_one, Nat.reducePow, Nat.add_zero]
    omega

/-- A little-endian number. -/
def leNat : List UInt8 → Nat
  | [] => 0
  | x :: xs => x.toNat + 256 * leNat xs

/-- The bytes of a `uint`. -/
def leBytes (w : Nat) : List UInt8 :=
  [.ofNat w, .ofNat (w / 256), .ofNat (w / 65536), .ofNat (w / 16777216)]

lemma leNat_leBytes {w : Nat} (h : w < 2 ^ 32) : leNat (leBytes w) = w := by
  simp only [leBytes, leNat, UInt8.toNat_ofNat']
  omega

lemma leNat_lt (bs : List UInt8) : leNat bs < 256 ^ bs.length := by
  induction bs with
  | nil => decide
  | cons x xs ih =>
    have hx := x.toNat_lt
    rw [leNat, List.length_cons, Nat.pow_succ]
    omega

lemma leNat_take_lt (bs : List UInt8) : leNat (bs.take 4) < 2 ^ 32 := by
  have hlen : (bs.take 4).length ≤ 4 := List.length_take_le ..
  exact (leNat_lt _).trans_le (Nat.pow_le_pow_right (by decide) hlen)

/-! ### Faults -/

/-- How a path can go wrong. -/
inductive Fault
  /-- a panic of the allocator or of the page-table code -/
  | panic (e : Panic)
  /-- `loaduvm: addr must be page aligned` -/
  | misaligned
  /-- `loaduvm: address should exist` -/
  | missing
  /-- `uva2ka` reads `*pte`, and `walkpgdir` has returned 0 -/
  | nullPte
  deriving DecidableEq, Repr

/-- Paths of `exec`. -/
abbrev X := EStateM Fault Phys

/-- A call of the paging code. -/
def vm {α : Type} (c : M α) : X α := fun s =>
  match c s with
  | .ok a s' => .ok a s'
  | .error e s' => .error (.panic e) s'

/-- `memmove` of `bs` to offset `o` of a page. -/
def memmove (p : Page) (o : Nat) (bs : List UInt8) : X Unit := do
  let s ← get
  set { s with mem := Function.update s.mem p (ofBytes (overwrite (byteAt (s.mem p)) o bs)) }

/-! ### Reading the file -/

/-- `readi`, of a file with the given bytes: what is read, and `none` for `-1`. -/
def readi (file : List UInt8) (off n : Nat) : Option (List UInt8) :=
  if file.length < off ∨ (off + n) % 2 ^ 32 < off then none else some ((file.drop off).take n)

/-- `sizeof(struct elfhdr)` -/
def elfhdrSize : Nat := 52

/-- `sizeof(struct proghdr)` -/
def proghdrSize : Nat := 32

/-- `ELF_MAGIC` -/
def elfMagic : Nat := 0x464C457F

/-- `ELF_PROG_LOAD` -/
def elfProgLoad : Nat := 1

/-- The fields of `struct elfhdr` that `exec` uses. -/
structure Elfhdr where
  magic : Nat
  entry : Nat
  phoff : Nat
  phnum : Nat

def Elfhdr.ofBytes (b : List UInt8) : Elfhdr where
  magic := leNat (b.take 4)
  entry := leNat ((b.drop 24).take 4)
  phoff := leNat ((b.drop 28).take 4)
  phnum := leNat ((b.drop 44).take 2)

/-- The fields of `struct proghdr` that `exec` uses. -/
structure Proghdr where
  type : Nat
  off : Nat
  vaddr : Nat
  filesz : Nat
  memsz : Nat

def Proghdr.ofBytes (b : List UInt8) : Proghdr where
  type := leNat (b.take 4)
  off := leNat ((b.drop 4).take 4)
  vaddr := leNat ((b.drop 8).take 4)
  filesz := leNat ((b.drop 16).take 4)
  memsz := leNat ((b.drop 20).take 4)

/-- A header of `n` bytes at `off`, if they are all there. -/
def header (file : List UInt8) (off n : Nat) : Option (List UInt8) :=
  (readi file off n).filter fun b => b.length = n

/-- `ph.vaddr + ph.memsz` -/
def Proghdr.vend (ph : Proghdr) : Nat := (ph.vaddr + ph.memsz) % 2 ^ 32

/-! ### `vm.c` -/

/-- The length of the piece of a segment of `sz` bytes that goes to its page `i`. -/
def pieceLen (sz i : Nat) : Nat := min (sz - i * pgSize) pgSize

/-- The loop of `loaduvm`, over the pages of the segment. -/
def loadPages (fails : Nat → Bool) (d : Page) (addr : Nat) (file : List UInt8) (off sz : Nat) :
    List Nat → X Bool
  | [] => return true
  | i :: is => do
    let v := (addr + i * pgSize) % 2 ^ 32 / pgSize
    match ← vm (walkpgdir fails d v false) with
    | none => throw .missing
    | some t =>
      let pa := ((← get).mem t (v % nEntries)).page
      match readi file ((off + i * pgSize) % 2 ^ 32) (pieceLen sz i) with
      | none => return false
      | some bs =>
        memmove pa 0 bs
        if bs.length ≠ pieceLen sz i then return false
        else loadPages fails d addr file off sz is

/-- `loaduvm`: whether it returns 0. -/
def loaduvm (fails : Nat → Bool) (d : Page) (addr : Nat) (file : List UInt8) (off sz : Nat) : X Bool :=
  if addr % pgSize ≠ 0 then throw .misaligned
  else loadPages fails d addr file off sz (List.range (pgUp sz))

/-- `uva2ka`, of an address on virtual page `v`. -/
def uva2ka (fails : Nat → Bool) (d : Page) (v : Nat) : X (Option Page) := do
  match ← vm (walkpgdir fails d v false) with
  | none => throw .nullPte
  | some t =>
    match ((← get).mem t (v % nEntries)).present with
    | none => return none
    | some e => return if e.user then some e.page else none

/-- `copyout`: whether it returns 0. -/
def copyout (fails : Nat → Bool) (d : Page) (va : Nat) (bs : List UInt8) : X Bool :=
  if bs = [] then return true
  else do
    match ← uva2ka fails d (va / pgSize) with
    | none => return false
    | some pa =>
      memmove pa (va % pgSize) (bs.take (pgSize - va % pgSize))
      copyout fails d ((va / pgSize + 1) * pgSize % 2 ^ 32) (bs.drop (pgSize - va % pgSize))
termination_by bs.length
decreasing_by
  rename_i hne
  have hpos := List.length_pos_of_ne_nil hne
  have hlt : va % pgSize < pgSize := Nat.mod_lt _ (by decide)
  rw [List.length_drop]
  omega

/-! ### `exec.c` -/

/-- `MAXARG` -/
def maxArg : Nat := 32

/-- The loop of `exec` over the program headers: `n` are left, the next one is at `off`. The result is the
size, and `none` for `goto bad`. -/
def loadProgram (k : Image) (fails : Nat → Bool) (d : Page) (file : List UInt8) :
    (n off sz : Nat) → X (Option Nat)
  | 0, _, sz => return some sz
  | n + 1, off, sz =>
    match header file off proghdrSize with
    | none => return none
    | some b => do
      let ph := Proghdr.ofBytes b
      let next := (off + proghdrSize) % 2 ^ 32
      if ph.type ≠ elfProgLoad then loadProgram k fails d file n next sz
      else if ph.memsz < ph.filesz then return none
      else if ph.vend < ph.vaddr then return none
      else
        let sz ← vm (allocuvm k fails d sz ph.vend)
        if sz = 0 then return none
        else if ph.vaddr % pgSize ≠ 0 then return none
        else if ← loaduvm fails d ph.vaddr file ph.off ph.filesz then
          loadProgram k fails d file n next sz
        else return none

/-- Where a string of length `len` goes, below `sp`: `(sp - (len + 1)) & ~3`. -/
def below (sp len : Nat) : Nat := (sp + 2 ^ 32 - (len + 1)) % 2 ^ 32 / 4 * 4

/-- The loop of `exec` over the arguments; `ptrs` is what it has in `ustack[3..]`. The result is `sp` and
the addresses of the strings. -/
def pushStrings (fails : Nat → Bool) (d : Page) : List (List UInt8) → Nat → List Nat →
    X (Option (Nat × List Nat))
  | [], sp, ptrs => return some (sp, ptrs)
  | a :: as, sp, ptrs => do
    if maxArg ≤ ptrs.length then return none
    else if ← copyout fails d (below sp a.length) (a ++ [0]) then
      pushStrings fails d as (below sp a.length) (ptrs ++ [below sp a.length])
    else return none

/-- `ustack`, for strings at `ptrs` and `sp` below them. -/
def ustack (sp : Nat) (ptrs : List Nat) : List Nat :=
  [0xffffffff, ptrs.length, (sp + 2 ^ 32 - (ptrs.length + 1) * 4) % 2 ^ 32] ++ ptrs ++ [0]

/-- The set-up of the user stack. The result is `sp`. -/
def pushArgs (fails : Nat → Bool) (d : Page) (argv : List (List UInt8)) (sz : Nat) : X (Option Nat) := do
  match ← pushStrings fails d argv sz [] with
  | none => return none
  | some (sp, ptrs) =>
    let sp' := (sp + 2 ^ 32 - (3 + ptrs.length + 1) * 4) % 2 ^ 32
    if ← copyout fails d sp' ((ustack sp ptrs).flatMap leBytes) then return some sp' else return none

/-- Allocate two pages at `sz`, which is rounded up: make the first inaccessible, and use the second as the
user stack. The result is the new size, and `none` for `goto bad`. -/
def allocStack (k : Image) (fails : Nat → Bool) (d : Page) (sz : Nat) : X (Option Nat) := do
  let sz ← vm (allocuvm k fails d sz (sz + 2 * pgSize))
  if sz = 0 then return none
  else
    vm (clearpteu fails d ((sz - 2 * pgSize) / pgSize))
    return some sz

/-- The part of `exec` that makes the address space. -/
def buildSpace (k : Image) (fails : Nat → Bool) (d : Page) (file : List UInt8) (elf : Elfhdr) :
    X (Option Nat) := do
  match ← loadProgram k fails d file elf.phnum elf.phoff 0 with
  | none => return none
  | some sz => allocStack k fails d (pgUp sz * pgSize)

/-- What `exec` changes of the process. -/
structure Proc where
  pgdir : Page
  sz : Nat
  /-- `tf->eip` and `tf->esp` -/
  eip : Nat
  esp : Nat
  name : List UInt8

/-- The loop that sets `last` to what follows the last slash. -/
def lastElem (last : List UInt8) : List UInt8 → List UInt8
  | [] => last
  | c :: s => if c = 47 then lastElem s s else lastElem last s

/-- `sizeof(curproc->name)` -/
def nameSize : Nat := 16

/-- What is at the label `bad`, once there is a page directory. -/
def bad (k : Image) (fails : Nat → Bool) (d : Page) (p : Proc) : X (Int × Proc) := do
  vm (freevm k fails (some d))
  return (-1, p)

/-- `exec`, of the file that `namei` has found, if any: the result, and the process after it. -/
def exec (k : Image) (fails : Nat → Bool) (ip : Option (List UInt8)) (path : List UInt8)
    (argv : List (List UInt8)) (p : Proc) : X (Int × Proc) :=
  match ip with
  | none => return (-1, p)
  | some file =>
    match header file 0 elfhdrSize with
    | none => return (-1, p)
    | some b => do
      let elf := Elfhdr.ofBytes b
      if elf.magic ≠ elfMagic then return (-1, p)
      else
        match ← vm (setupkvm k fails) with
        | none => return (-1, p)
        | some d =>
          match ← buildSpace k fails d file elf with
          | none => bad k fails d p
          | some sz =>
            match ← pushArgs fails d argv sz with
            | none => bad k fails d p
            | some sp =>
              -- commit to the user image
              vm (freevm k fails (some p.pgdir))
              return (0, ⟨d, sz, elf.entry, sp, (lastElem path path).take (nameSize - 1)⟩)

end Xv6.Vm
