import Xv6.Lib.Hoare
import Xv6.Process.Vm

/-!
# Physical pages and page tables (`kalloc.c`, `vm.c`)

Physical memory is an array of pages of 1024 words: page directories and page tables are pages of memory,
and what a freed page was filled with is there to be read by whoever still has it. Pages are named by
their number, physical ones (`pa / PGSIZE`) as well as virtual ones (`va / PGSIZE`). A pointer into
physical memory is `P2V` of an address, so that it is named by the same number.

`kalloc` fails when the free list is empty, and where `fails` says that its call is to fail.
-/

namespace Xv6.Vm

open Process (pgUp growRange)

/-- The number of a page. -/
abbrev Page := Nat

/-- A page-table or page-directory entry with `PTE_P`. -/
structure Entry where
  page : Page
  flags : Nat
  deriving DecidableEq, Repr

/-- A word of memory: an entry if it has `PTE_P`. -/
inductive Word
  | entry (e : Entry)
  | other (w : Nat)
  deriving DecidableEq, Repr

/-- The test of `PTE_P`. -/
def Word.present : Word → Option Entry
  | .entry e => some e
  | .other _ => none

@[simp] lemma Word.present_entry (e : Entry) : (Word.entry e).present = some e := rfl
@[simp] lemma Word.present_other (w : Nat) : (Word.other w).present = none := rfl

/-- What is in a page. -/
abbrev Table := Nat → Word

/-- `memset(…, 0, PGSIZE)` -/
def zeroes : Table := fun _ => .other 0

@[simp] lemma zeroes_present (i : Nat) : (zeroes i).present = none := rfl

/-- `NPDENTRIES` and `NPTENTRIES` -/
def nEntries : Nat := 1024

/-- `KERNBASE`, `EXTMEM`, `PHYSTOP` and `DEVSPACE`, in pages. -/
def kernPage : Nat := 0x80000
def extMem : Nat := 0x100
def physStop : Nat := 0xE000
def devSpace : Nat := 0xFE000

/-- `PTE_W`, and `PTE_W|PTE_U` -/
def pteW : Nat := 0x2
def pteWU : Nat := 0x6

/-- Where the linker puts the kernel: the page of `data`, and the first page after `end`. -/
structure Image where
  data : Nat
  endPage : Nat
  extMem_lt : extMem < data
  data_le : data ≤ endPage
  endPage_le : endPage ≤ physStop

/-- A kernel of 1024 pages. -/
def smallKernel : Image := ⟨0x108, 0x400, by decide, by decide, by decide⟩

structure Phys where
  /-- `kmem.freelist` -/
  freelist : List Page
  mem : Page → Table
  /-- how often `kalloc` has been called -/
  calls : Nat

inductive Panic
  /-- `kfree`, in `kfree` or `deallocuvm` -/
  | kfree
  /-- `remap` -/
  | remap
  /-- `freevm: no pgdir` -/
  | noPgdir
  /-- `PHYSTOP too high` -/
  | physTooHigh
  /-- `copyuvm: pte should exist` -/
  | noPte
  | clearpteu
  /-- the loop of `deallocuvm` goes past the last address and starts again at 0 -/
  | wraps
  deriving DecidableEq, Repr

abbrev M := EStateM Panic Phys

/-! ### `kalloc.c` -/

/-- `memset(v, 1, PGSIZE)`, and then `r->next = kmem.freelist`, which is not an entry with `PTE_P`. -/
def junk : Table := fun i => if i = 0 then .other 0 else .entry ⟨0x1010, 0x101⟩

/-- `kfree`, of the page at `P2V` of its address. -/
def kfree (k : Image) (p : Page) : M Unit := do
  if p < k.endPage ∨ physStop ≤ p then throw .kfree
  else
    let s ← get
    set { s with freelist := p :: s.freelist, mem := Function.update s.mem p junk }

/-- `kalloc` -/
def kalloc (fails : Nat → Bool) : M (Option Page) := do
  let s ← get
  match if fails s.calls then [] else s.freelist with
  | [] =>
    set { s with calls := s.calls + 1 }
    return none
  | p :: rest =>
    set { s with freelist := rest, calls := s.calls + 1 }
    return some p

/-! ### `vm.c` -/

/-- `memset` or `memmove` of a whole page. -/
def setTable (p : Page) (t : Table) : M Unit := do
  let s ← get
  set { s with mem := Function.update s.mem p t }

/-- An assignment to `*pte` or `*pde`. -/
def setEntry (p : Page) (i : Nat) (e : Word) : M Unit := do
  let s ← get
  set { s with mem := Function.update s.mem p (Function.update (s.mem p) i e) }

/-- `walkpgdir`: the page table with the entry of virtual page `v`, at `PTX`. -/
def walkpgdir (fails : Nat → Bool) (d : Page) (v : Nat) (alloc : Bool) : M (Option Page) := do
  let s ← get
  match (s.mem d (v / nEntries)).present with
  | some pde => return some pde.page
  | none =>
    if alloc = false then return none
    else match ← kalloc fails with
      | none => return none
      | some t =>
        setTable t zeroes
        setEntry d (v / nEntries) (.entry ⟨t, pteWU⟩)
        return some t

/-- `mappages` of `n` virtual pages from `v` to the physical pages from `p`: whether it returns 0. -/
def mappages (fails : Nat → Bool) (d : Page) (perm : Nat) : (n v p : Nat) → M Bool
  | 0, _, _ => return true
  | n + 1, v, p => do
    match ← walkpgdir fails d v true with
    | none => return false
    | some t =>
      let s ← get
      match (s.mem t (v % nEntries)).present with
      | some _ => throw .remap
      | none =>
        setEntry t (v % nEntries) (.entry ⟨p, perm⟩)
        mappages fails d perm n (v + 1) (p + 1)

/-- The loop of `deallocuvm`, over the virtual pages from `v` up to `hi`. -/
def deallocLoop (k : Image) (fails : Nat → Bool) (d : Page) (hi v : Nat) : M Unit :=
  if v < hi then do
    match ← walkpgdir fails d v false with
    | none =>
      -- `a = PGADDR(PDX(a) + 1, 0, 0) - PGSIZE`
      deallocLoop k fails d hi ((v / nEntries + 1) * nEntries)
    | some t =>
      let s ← get
      match (s.mem t (v % nEntries)).present with
      | none => deallocLoop k fails d hi (v + 1)
      | some pte =>
        if pte.page = 0 then throw .kfree
        else
          kfree k pte.page
          setEntry t (v % nEntries) (.other 0)
          deallocLoop k fails d hi (v + 1)
  else return ()
termination_by hi - v
decreasing_by
  · have := Nat.div_add_mod v nEntries
    have : v % nEntries < nEntries := Nat.mod_lt _ (by decide)
    rw [Nat.succ_mul, Nat.mul_comm]
    omega
  all_goals omega

/-- `deallocuvm` -/
def deallocuvm (k : Image) (fails : Nat → Bool) (d : Page) (oldsz newsz : Nat) : M Nat := do
  if oldsz ≤ newsz then return oldsz
  else if 0xFFFFF000 < oldsz then throw .wraps
  else
    deallocLoop k fails d (pgUp oldsz) (pgUp newsz)
    return newsz

/-- The loop of `freevm`, from entry `i` on. -/
def freeTables (k : Image) (d : Page) (i : Nat) : M Unit :=
  if i < nEntries then do
    let s ← get
    match (s.mem d i).present with
    | none => freeTables k d (i + 1)
    | some pde =>
      kfree k pde.page
      freeTables k d (i + 1)
  else return ()
termination_by nEntries - i

/-- `freevm` -/
def freevm (k : Image) (fails : Nat → Bool) : Option Page → M Unit
  | none => throw .noPgdir
  | some d => do
    let _ ← deallocuvm k fails d kernBase 0
    freeTables k d 0
    kfree k d

/-- An entry of `kmap`, in pages. -/
structure Kmap where
  virt : Nat
  phys : Nat
  count : Nat
  perm : Nat

/-- `kmap` -/
def kmap (k : Image) : List Kmap :=
  [⟨kernPage, 0, extMem, pteW⟩,
   ⟨kernPage + extMem, extMem, k.data - extMem, 0⟩,
   ⟨kernPage + k.data, k.data, physStop - k.data, pteW⟩,
   ⟨devSpace, devSpace, 0x100000 - devSpace, pteW⟩]

/-- The loop of `setupkvm`. -/
def mapKernel (k : Image) (fails : Nat → Bool) (d : Page) : List Kmap → M (Option Page)
  | [] => return some d
  | m :: ms => do
    if ← mappages fails d m.perm m.count m.virt m.phys then mapKernel k fails d ms
    else
      freevm k fails (some d)
      return none

/-- `setupkvm` -/
def setupkvm (k : Image) (fails : Nat → Bool) : M (Option Page) := do
  match ← kalloc fails with
  | none => return none
  | some d =>
    setTable d zeroes
    if devSpace < kernPage + physStop then throw .physTooHigh
    else mapKernel k fails d (kmap k)

/-- The loop of `allocuvm`. -/
def allocLoop (k : Image) (fails : Nat → Bool) (d : Page) (oldsz newsz : Nat) : List Nat → M Nat
  | [] => return newsz
  | v :: vs => do
    match ← kalloc fails with
    | none =>
      let _ ← deallocuvm k fails d newsz oldsz
      return 0
    | some m =>
      setTable m zeroes
      if ← mappages fails d pteWU 1 v m then allocLoop k fails d oldsz newsz vs
      else
        let _ ← deallocuvm k fails d newsz oldsz
        kfree k m
        return 0

/-- `allocuvm` -/
def allocuvm (k : Image) (fails : Nat → Bool) (d : Page) (oldsz newsz : Nat) : M Nat := do
  if kernBase ≤ newsz then return 0
  else if newsz < oldsz then return oldsz
  else allocLoop k fails d oldsz newsz (growRange oldsz newsz)

/-- `w & ~PTE_U` -/
def Word.clearU : Word → Word
  | .entry e => .entry { e with flags := e.flags &&& 0xFFB }
  | .other w => .other (w &&& 0xFFFFFFFB)

lemma Word.clearU_page (w : Word) : w.clearU.present.map Entry.page = w.present.map Entry.page := by
  cases w <;> rfl

/-- `clearpteu` -/
def clearpteu (fails : Nat → Bool) (d : Page) (v : Nat) : M Unit := do
  match ← walkpgdir fails d v false with
  | none => throw .clearpteu
  | some t =>
    let s ← get
    setEntry t (v % nEntries) (s.mem t (v % nEntries)).clearU

/-- The loop of `copyuvm`, from the page directory `d` to `d'`. -/
def copyLoop (k : Image) (fails : Nat → Bool) (d d' : Page) : List Nat → M (Option Page)
  | [] => return some d'
  | v :: vs => do
    match ← walkpgdir fails d v false with
    | none => throw .noPte
    | some t =>
      let s ← get
      match (s.mem t (v % nEntries)).present with
      | none => copyLoop k fails d d' vs
      | some pte =>
        match ← kalloc fails with
        | none =>
          freevm k fails (some d')
          return none
        | some m =>
          let s ← get
          setTable m (s.mem pte.page)
          if ← mappages fails d' pte.flags 1 v m then copyLoop k fails d d' vs
          else
            kfree k m
            freevm k fails (some d')
            return none

/-- `copyuvm` -/
def copyuvm (k : Image) (fails : Nat → Bool) (d : Page) (sz : Nat) : M (Option Page) := do
  match ← setupkvm k fails with
  | none => return none
  | some d' => copyLoop k fails d d' (List.range (pgUp sz))

end Xv6.Vm
