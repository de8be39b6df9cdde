import Xv6.Fs.Links

/-!
# The loops of `string.c`

Memory is a function from addresses to bytes, a string a list of bytes behind which a zero is read. Each loop
is a recursion on what is left of its counter.
-/

namespace Xv6.Fs

open Function (update update_apply)

/-! ### `memmove` -/

/-- `while(n-- > 0) *d++ = *s++;` -/
def copyUp (m : Nat → UInt8) (d s : Nat) : Nat → Nat → UInt8
  | 0 => m
  | n + 1 => copyUp (update m d (m s)) (d + 1) (s + 1) n

/-- `while(n-- > 0) *--d = *--s;`, from the ends of the ranges -/
def copyDown (m : Nat → UInt8) (d s : Nat) : Nat → Nat → UInt8
  | 0 => m
  | n + 1 => copyDown (update m (d + n) (m (s + n))) d s n

/-- `memmove(d, s, n)`, of ranges that do not run over the end of the addresses. -/
def memmove (m : Nat → UInt8) (d s n : Nat) : Nat → UInt8 :=
  if s < d ∧ d < s + n then copyDown m d s n else copyUp m d s n

/-- The `n` bytes at `s` are at `d`, and all others are as they were. -/
def moved (m : Nat → UInt8) (d s n : Nat) : Nat → UInt8 := fun a =>
  if d ≤ a ∧ a < d + n then m (s + (a - d)) else m a

lemma copyDown_eq {d s : Nat} (h : s < d) (m : Nat → UInt8) (n : Nat) : copyDown m d s n = moved m d s n := by
  induction n generalizing m with
  | zero => funext a; simp [copyDown, moved]
  | succ n ih =>
    funext a
    simp only [copyDown, ih, moved, update_apply]
    grind

lemma copyUp_eq {m : Nat → UInt8} {d s n : Nat} (h : ¬ (s < d ∧ d < s + n)) :
    copyUp m d s n = moved m d s n := by
  induction n generalizing m d s with
  | zero => funext a; simp [copyUp, moved]
  | succ n ih =>
    funext a
    rw [copyUp, ih (by omega)]
    simp only [moved, update_apply]
    grind

/-- `memmove` of the kernel moves, however the ranges overlap. -/
theorem memmove_moves (m : Nat → UInt8) (d s n : Nat) : memmove m d s n = moved m d s n := by
  unfold memmove
  split
  next h => exact copyDown_eq h.1 m n
  next h => exact copyUp_eq h

/-! ### `strncmp` and `strncpy` -/

/-- `strncmp`; a string is read up to its end and on as zero. -/
def strncmp : List UInt8 → List UInt8 → Nat → Int
  | _, _, 0 => 0
  | p, q, n + 1 =>
    if p.headD 0 ≠ 0 ∧ p.headD 0 = q.headD 0 then strncmp p.tail q.tail n
    else (p.headD 0).toNat - (q.headD 0).toNat

/-- The bytes that `strncpy` writes: the loop that copies, and the one that fills up. -/
def strncpyLoop : List UInt8 → Nat → List UInt8
  | _, 0 => []
  | t, n + 1 =>
    if t.headD 0 ≠ 0 then t.headD 0 :: strncpyLoop t.tail n else List.replicate (n + 1) 0

/-- What is compared and copied of a string, one byte at a time. -/
lemma cut_succ (s : List UInt8) (n : Nat) : (s.take (n + 1)).takeWhile (· ≠ 0) =
    if s.headD 0 ≠ 0 then s.headD 0 :: (s.tail.take n).takeWhile (· ≠ 0) else [] := by
  cases s with
  | nil => rfl
  | cons a s => by_cases ha : a = 0 <;> simp [ha]

lemma strncmp_eq_zero (s t : List UInt8) (n : Nat) :
    strncmp s t n = 0 ↔ (s.take n).takeWhile (· ≠ 0) = (t.take n).takeWhile (· ≠ 0) := by
  induction n generalizing s t with
  | zero => simp [strncmp]
  | succ n ih =>
    rw [strncmp, cut_succ, cut_succ]
    split
    next h => rw [if_pos h.1, if_pos (h.2 ▸ h.1), h.2, ih, List.cons_inj_right]
    next h =>
      rw [sub_eq_zero, Nat.cast_inj, UInt8.toNat_inj]
      grind

lemma strncpyLoop_eq (t : List UInt8) (n : Nat) :
    strncpyLoop t n = (t.take n).takeWhile (· ≠ 0) ++
      List.replicate (n - ((t.take n).takeWhile (· ≠ 0)).length) 0 := by
  induction n generalizing t with
  | zero => simp [strncpyLoop]
  | succ n ih =>
    rw [strncpyLoop, cut_succ]
    split <;> simp [ih]

/-- The loops over names are what the model of directories uses, and `namecmp` finds a name that `strncpy` has
written. -/
theorem name_loops (s t : List UInt8) :
    (strncmp s t dirSiz = 0 ↔ namecmp s t) ∧ strncpyLoop s dirSiz = strncpy s ∧
      (strncmp (strncpyLoop s dirSiz) t dirSiz = 0 ↔ namecmp s t) := by
  have hcmp : ∀ s t, strncmp s t dirSiz = 0 ↔ namecmp s t := fun s t => by
    rw [strncmp_eq_zero, namecmp, decide_eq_true_eq]
    rfl
  have hcpy : strncpyLoop s dirSiz = strncpy s := strncpyLoop_eq s dirSiz
  refine ⟨hcmp s t, hcpy, ?_⟩
  rw [hcmp, hcpy, namecmp, cstr_strncpy, namecmp]

end Xv6.Fs
