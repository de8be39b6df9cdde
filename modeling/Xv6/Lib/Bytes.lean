import Mathlib

/-!
# Fixed-size byte blocks

A block of `n` bytes is a function `Fin n → UInt8`. Code that casts such a block to an array of
32-bit integers reads and writes it through `word` and `setWord` (little-endian, as on the x86), or
through `half`, `bit` and `slice` where it looks at 16-bit fields, at a bit map or at plain bytes.
The lemmas that matter are the lens laws such as `word_setWord_self` and `word_setWord_ne`: what was
stored is read back, and everything else keeps its value.
-/

namespace Lib

/-- A block of `n` bytes. -/
abbrev Bytes (n : Nat) := Fin n → UInt8

variable {i j k m v : Nat}

namespace Bytes

variable {n : Nat}

/-- The block filled with zeroes. -/
def zero : Bytes n := fun _ => 0

/-- Byte `i` as a number, `0` outside the block. -/
def byte (b : Bytes n) (i : Nat) : Nat :=
  if h : i < n then (b ⟨i, h⟩).toNat else 0

/-- The `k`-th little-endian 32-bit word. -/
def word (b : Bytes n) (k : Nat) : Nat :=
  b.byte (4 * k) + 2 ^ 8 * b.byte (4 * k + 1) + 2 ^ 16 * b.byte (4 * k + 2)
    + 2 ^ 24 * b.byte (4 * k + 3)

/-- Store `v` as the `k`-th little-endian 32-bit word. -/
def setWord (b : Bytes n) (k v : Nat) : Bytes n := fun i =>
  if i.val / 4 = k then UInt8.ofNat (v / 2 ^ (8 * (i.val % 4))) else b i

lemma byte_lt (b : Bytes n) (i : Nat) : b.byte i < 256 := by
  unfold byte
  split
  · exact UInt8.toNat_lt _
  · omega

lemma word_lt (b : Bytes n) (k : Nat) : b.word k < 2 ^ 32 := by
  have h0 := b.byte_lt (4 * k)
  have h1 := b.byte_lt (4 * k + 1)
  have h2 := b.byte_lt (4 * k + 2)
  have h3 := b.byte_lt (4 * k + 3)
  unfold word
  omega

@[simp] lemma byte_zero (i : Nat) : (zero : Bytes n).byte i = 0 := by
  unfold byte zero
  split <;> rfl

@[simp] lemma word_zero (k : Nat) : (zero : Bytes n).word k = 0 := by
  simp [word]

/-- The bytes of a stored word. -/
lemma byte_setWord_self (b : Bytes n) (hj : j < 4) (hk : 4 * k + j < n) :
    (b.setWord k v).byte (4 * k + j) = v / 2 ^ (8 * j) % 256 := by
  have hdiv : (4 * k + j) / 4 = k := by omega
  have hmod : (4 * k + j) % 4 = j := by omega
  simp [byte, setWord, hk, hdiv, hmod]

/-- Bytes of the other words are untouched by a store. -/
lemma byte_setWord_ne (b : Bytes n) (hi : i / 4 ≠ k) : (b.setWord k v).byte i = b.byte i := by
  simp [byte, setWord, hi]

/-- A stored word is read back. -/
lemma word_setWord_self (b : Bytes n) (hk : 4 * k + 3 < n) (hv : v < 2 ^ 32) : (b.setWord k v).word k = v := by
  have h0 := b.byte_setWord_self (k := k) (v := v) (j := 0) (by omega) (by omega)
  have h1 := b.byte_setWord_self (k := k) (v := v) (j := 1) (by omega) (by omega)
  have h2 := b.byte_setWord_self (k := k) (v := v) (j := 2) (by omega) (by omega)
  have h3 := b.byte_setWord_self (k := k) (v := v) (j := 3) (by omega) (by omega)
  simp only [Nat.add_zero] at h0
  rw [word, h0, h1, h2, h3]
  omega

/-- The other words keep their value. -/
lemma word_setWord_ne (b : Bytes n) (h : j ≠ k) : (b.setWord k v).word j = b.word j := by
  rw [word, word, byte_setWord_ne _ (by omega), byte_setWord_ne _ (by omega),
    byte_setWord_ne _ (by omega), byte_setWord_ne _ (by omega)]

/-! ### Halfwords -/

/-- The `k`-th little-endian 16-bit halfword. -/
def half (b : Bytes n) (k : Nat) : Nat := b.byte (2 * k) + 2 ^ 8 * b.byte (2 * k + 1)

/-- Store `v` as the `k`-th little-endian 16-bit halfword. -/
def setHalf (b : Bytes n) (k v : Nat) : Bytes n := fun i =>
  if i.val / 2 = k then UInt8.ofNat (v / 2 ^ (8 * (i.val % 2))) else b i

/-- Store the words `v 0, …, v (m - 1)` from the `k`-th word on. -/
def setWords {m : Nat} (b : Bytes n) (k : Nat) (v : Fin m → Nat) : Bytes n := fun i =>
  if h : k ≤ i.val / 4 ∧ i.val / 4 - k < m then
    UInt8.ofNat (v ⟨i.val / 4 - k, h.2⟩ / 2 ^ (8 * (i.val % 4)))
  else b i

lemma byte_setHalf_ne (b : Bytes n) (hi : i / 2 ≠ k) : (b.setHalf k v).byte i = b.byte i := by
  simp [byte, setHalf, hi]

lemma half_setHalf_self (b : Bytes n) (hk : 2 * k + 1 < n) (hv : v < 2 ^ 16) : (b.setHalf k v).half k = v := by
  have h0 : (b.setHalf k v).byte (2 * k) = v % 256 := by
    have hdiv : 2 * k / 2 = k := by omega
    simp [byte, setHalf, show 2 * k < n by omega]
  have h1 : (b.setHalf k v).byte (2 * k + 1) = v / 2 ^ 8 % 256 := by
    have hdiv : (2 * k + 1) / 2 = k := by omega
    have hmod : (2 * k + 1) % 2 = 1 := by omega
    simp [byte, setHalf, hk, hdiv, hmod]
  rw [half, h0, h1]
  omega

lemma half_setHalf_ne (b : Bytes n) (h : j ≠ k) : (b.setHalf k v).half j = b.half j := by
  rw [half, half, byte_setHalf_ne _ (by omega), byte_setHalf_ne _ (by omega)]

lemma word_setHalf_ne (b : Bytes n) (h : j ≠ k / 2) : (b.setHalf k v).word j = b.word j := by
  rw [word, word, byte_setHalf_ne _ (by omega), byte_setHalf_ne _ (by omega),
    byte_setHalf_ne _ (by omega), byte_setHalf_ne _ (by omega)]

lemma half_setWord_ne (b : Bytes n) (h : j / 2 ≠ k) : (b.setWord k v).half j = b.half j := by
  rw [half, half, byte_setWord_ne _ (by omega), byte_setWord_ne _ (by omega)]

lemma byte_setWords_ne (b : Bytes n) {v : Fin m → Nat}
    (hi : ¬ (k ≤ i / 4 ∧ i / 4 - k < m)) : (b.setWords k v).byte i = b.byte i := by
  simp [byte, setWords, hi]

lemma half_setWords_ne (b : Bytes n) {v : Fin m → Nat}
    (h : ¬ (k ≤ j / 2 ∧ j / 2 - k < m)) : (b.setWords k v).half j = b.half j := by
  rw [half, half, byte_setWords_ne _ (by omega), byte_setWords_ne _ (by omega)]

lemma word_setWords_ne (b : Bytes n) {v : Fin m → Nat}
    (h : ¬ (k ≤ j ∧ j - k < m)) : (b.setWords k v).word j = b.word j := by
  rw [word, word, byte_setWords_ne _ (by omega), byte_setWords_ne _ (by omega),
    byte_setWords_ne _ (by omega), byte_setWords_ne _ (by omega)]

lemma word_setWords_self (b : Bytes n) {v : Fin m → Nat} (j : Fin m)
    (hk : 4 * (k + m) ≤ n) (hv : v j < 2 ^ 32) : (b.setWords k v).word (k + j) = v j := by
  have hbyte : ∀ t, t < 4 →
      (b.setWords k v).byte (4 * (k + j) + t) = v j / 2 ^ (8 * t) % 256 := by
    intro t ht
    have hdiv : (4 * (k + j.val) + t) / 4 = k + j := by omega
    have hmod : (4 * (k + j.val) + t) % 4 = t := by omega
    have hlt : 4 * (k + j.val) + t < n := by omega
    have hin : k ≤ (4 * (k + j.val) + t) / 4 ∧ (4 * (k + j.val) + t) / 4 - k < m := by
      rw [hdiv]; omega
    have hidx : (⟨(4 * (k + j.val) + t) / 4 - k, hin.2⟩ : Fin m) = j :=
      Fin.ext (by show (4 * (k + j.val) + t) / 4 - k = j; rw [hdiv]; omega)
    simp only [byte, setWords, hlt, hin, and_self, dite_true, hidx, hmod]
    simp
  have h0 := hbyte 0 (by omega)
  simp only [Nat.add_zero] at h0
  rw [word, h0, hbyte 1 (by omega), hbyte 2 (by omega), hbyte 3 (by omega)]
  omega

/-! ### Bits -/

/-- The byte in which only bit `k` is set. -/
def mask (k : Nat) : UInt8 := 1 <<< UInt8.ofNat k

/-- Bit `i` of a block. -/
def bit (b : Bytes n) (i : Nat) : Bool := (b.byte (i / 8)).testBit (i % 8)

/-- Set bit `i`. -/
def setBit (b : Bytes n) (i : Nat) : Bytes n := fun j =>
  if j.val = i / 8 then b j ||| mask (i % 8) else b j

/-- Clear bit `i`. -/
def clearBit (b : Bytes n) (i : Nat) : Bytes n := fun j =>
  if j.val = i / 8 then b j &&& ~~~ mask (i % 8) else b j

lemma testBit_mask : ∀ k < 8, ∀ j < 8, (mask k).toNat.testBit j = decide (j = k) := by decide

lemma testBit_compl_mask : ∀ k < 8, ∀ j < 8, (~~~ mask k).toNat.testBit j = !decide (j = k) := by decide

lemma bit_setBit (b : Bytes n) (hi : i / 8 < n) : (b.setBit i).bit j = (decide (j = i) || b.bit j) := by
  have hm := testBit_mask (i % 8) (by omega) (j % 8) (by omega)
  by_cases hbyte : j / 8 = i / 8
  · have hj : j = i ↔ j % 8 = i % 8 := by omega
    simp only [bit, byte, setBit, hbyte, hi, dite_true, if_true, UInt8.toNat_or,
      Nat.testBit_or, hm, hj]
    exact Bool.or_comm _ _
  · have hj : j ≠ i := fun h => hbyte (by rw [h])
    simp [bit, byte, setBit, hbyte, hj]

lemma bit_clearBit (b : Bytes n) (hi : i / 8 < n) : (b.clearBit i).bit j = (!decide (j = i) && b.bit j) := by
  have hm := testBit_compl_mask (i % 8) (by omega) (j % 8) (by omega)
  by_cases hbyte : j / 8 = i / 8
  · have hj : j = i ↔ j % 8 = i % 8 := by omega
    simp only [bit, byte, clearBit, hbyte, hi, dite_true, if_true, UInt8.toNat_and,
      Nat.testBit_and, hm, hj]
    exact Bool.and_comm _ _
  · have hj : j ≠ i := fun h => hbyte (by rw [h])
    simp [bit, byte, clearBit, hbyte, hj]

/-! ### Ranges of bytes -/

/-- Byte `i`, `0` outside the block. -/
def get (b : Bytes n) (i : Nat) : UInt8 := if h : i < n then b ⟨i, h⟩ else 0

/-- The bytes `[k, k + len)`. -/
def slice (b : Bytes n) (k len : Nat) : List UInt8 := (List.range len).map fun j => b.get (k + j)

/-- Copy `src` over the bytes from `k` on. -/
def splice (b : Bytes n) (k : Nat) (src : List UInt8) : Bytes n := fun i =>
  if k ≤ i.val then (src[i.val - k]?).getD (b i) else b i

@[simp] lemma get_zero (i : Nat) : (zero : Bytes n).get i = 0 := by
  unfold get zero
  split <;> rfl

lemma get_splice (b : Bytes n) {src : List UInt8} (hi : i < n) :
    (b.splice k src).get i = if k ≤ i then (src[i - k]?).getD (b.get i) else b.get i := by
  simp [get, splice, hi]

end Bytes

end Lib
