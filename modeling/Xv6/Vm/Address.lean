import Xv6.Process.Vm

/-!
# Virtual addresses (`mmu.h`)

The macros that take a virtual address apart, on `uint`s as the source computes them, and what they are
in terms of page numbers. An address is `(page number) * PGSIZE + offset`, and a page number
`(directory index) * NPTENTRIES + (table index)`.
-/

namespace Xv6.Vm

open Process (pgUp)

/-- `PGSIZE` -/
def pgSize32 : UInt32 := 4096

/-- `PDX(va)` -/
def pdx (va : UInt32) : UInt32 := (va >>> 22) &&& 0x3FF

/-- `PTX(va)` -/
def ptx (va : UInt32) : UInt32 := (va >>> 12) &&& 0x3FF

/-- `PGADDR(d, t, o)` -/
def pgaddr (d t o : UInt32) : UInt32 := d <<< 22 ||| t <<< 12 ||| o

/-- `PGROUNDUP(sz)` -/
def pgRoundUp (sz : UInt32) : UInt32 := (sz + pgSize32 - 1) &&& ~~~(pgSize32 - 1)

/-! ### Masks -/

lemma toNat_and_mask (a m : UInt32) (n : Nat) (hm : m.toNat = 2 ^ n - 1) :
    (a &&& m).toNat = a.toNat % 2 ^ n := by
  rw [UInt32.toNat_and, hm, Nat.and_two_pow_sub_one_eq_mod]

lemma and_not_add_and (a m : UInt32) : (a &&& ~~~m).toNat + (a &&& m).toNat = a.toNat := by
  have hdisjoint : (a.toBitVec &&& ~~~m.toBitVec) &&& (a.toBitVec &&& m.toBitVec) = 0 := by
    ext i
    simp only [BitVec.getElem_and, BitVec.getElem_not]
    cases a.toBitVec[i] <;> cases m.toBitVec[i] <;> simp
  have hjoin : (a.toBitVec &&& ~~~m.toBitVec) ||| (a.toBitVec &&& m.toBitVec) = a.toBitVec := by
    ext i
    simp only [BitVec.getElem_or, BitVec.getElem_and, BitVec.getElem_not]
    cases a.toBitVec[i] <;> cases m.toBitVec[i] <;> rfl
  have hsum := BitVec.toNat_add_of_and_eq_zero hdisjoint
  rw [BitVec.add_eq_or_of_and_eq_zero _ _ hdisjoint, hjoin] at hsum
  exact hsum.symm

lemma toNat_and_not_mask (a m : UInt32) (n : Nat) (hm : m.toNat = 2 ^ n - 1) :
    (a &&& ~~~m).toNat = a.toNat / 2 ^ n * 2 ^ n := by
  have hsplit := and_not_add_and a m
  have hdiv := Nat.div_add_mod' a.toNat (2 ^ n)
  rw [toNat_and_mask a m n hm] at hsplit
  omega

lemma toNat_shiftRight' (a b : UInt32) (n : Nat) (hb : b.toNat % 32 = n) :
    (a >>> b).toNat = a.toNat / 2 ^ n := by
  rw [UInt32.toNat_shiftRight, hb, Nat.shiftRight_eq_div_pow]

/-! ### Page numbers -/

lemma toNat_pdx (va : UInt32) : (pdx va).toNat = va.toNat / pgSize / 1024 := by
  have := va.toNat_lt
  unfold pdx pgSize
  rw [toNat_and_mask _ _ 10 rfl, toNat_shiftRight' _ _ 22 rfl]
  omega

lemma toNat_ptx (va : UInt32) : (ptx va).toNat = va.toNat / pgSize % 1024 := by
  unfold ptx pgSize
  rw [toNat_and_mask _ _ 10 rfl]
  exact congrArg (· % 1024) (toNat_shiftRight' va 12 12 rfl)

lemma toNat_pgRoundUp {sz : UInt32} (h : sz.toNat ≤ 0xFFFFF000) :
    (pgRoundUp sz).toNat = pgUp sz.toNat * pgSize := by
  have hsum : (sz + pgSize32 - 1).toNat = sz.toNat + pgSize - 1 := by
    have hsize : pgSize32.toNat = 4096 := rfl
    have hone : (1 : UInt32).toNat = 1 := rfl
    unfold pgSize
    rw [UInt32.toNat_sub, UInt32.toNat_add, hsize, hone]
    omega
  unfold pgRoundUp pgUp
  rw [toNat_and_not_mask _ _ 12 rfl, hsum]
  rfl

lemma toNat_pgaddr {d : UInt32} (h : d.toNat < 1024) : (pgaddr d 0 0).toNat = d.toNat * 1024 * pgSize := by
  have hshift : (0 : UInt32) <<< 12 = 0 := rfl
  have hbits : (22 : UInt32).toNat % 32 = 22 := rfl
  unfold pgaddr pgSize
  rw [hshift, UInt32.or_zero, UInt32.or_zero, UInt32.toNat_shiftLeft, hbits, Nat.shiftLeft_eq]
  omega

end Xv6.Vm
