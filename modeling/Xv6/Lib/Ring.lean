import Mathlib

/-!
# Ring buffers with counters that wrap

A queue in an array of `c` cells, with the number of elements ever read and the number ever written as
32-bit counters. The counters are never reduced modulo `c`; the cell of an element is its number modulo
`c`, and since `c` divides `2 ^ 32` it does not matter that the counters wrap.

The meaning of a ring is relative to its history (`Holds`): the list of the elements put into it and the
list of those taken out. The numbers of cells and of elements are compared modulo `2 ^ 32`, and the tests
for full and empty are exact because no more than `c < 2 ^ 32` elements are in the ring.

* `put`, `front`, `drop` — one element;
* `putAll` — put elements until the ring is full;
* `takeUpTo` — take elements until there are enough or the ring is empty.
-/

namespace Lib

open List (append_nil length_append length_singleton)

/-- The cells and the two counters. -/
structure Ring (α : Type) where
  data : Nat → α
  nread : UInt32
  nwrite : UInt32

namespace Ring

variable {α : Type} {c : Nat}

/-- As many elements as cells. -/
def full (c : Nat) (r : Ring α) : Bool := r.nwrite == r.nread + UInt32.ofNat c

def empty (r : Ring α) : Bool := r.nread == r.nwrite

/-- Put an element behind the others. -/
def put (c : Nat) (r : Ring α) (a : α) : Ring α :=
  { r with data := Function.update r.data (r.nwrite.toNat % c) a, nwrite := r.nwrite + 1 }

/-- The element that comes next. -/
def front (c : Nat) (r : Ring α) : α := r.data (r.nread.toNat % c)

/-- Go on to the next element. -/
def drop (r : Ring α) : Ring α := { r with nread := r.nread + 1 }

/-- Put elements until the ring is full. Returns how many. -/
def putAll (c : Nat) (r : Ring α) : List α → Ring α × Nat
  | [] => (r, 0)
  | a :: as =>
    if r.full c = true then (r, 0)
    else
      let (r', k) := putAll c (r.put c a) as
      (r', k + 1)

/-- Take up to `n` elements, as long as there are any. -/
def takeUpTo (c : Nat) (r : Ring α) : Nat → Ring α × List α
  | 0 => (r, [])
  | n + 1 =>
    if r.empty = true then (r, [])
    else
      let (r', as) := takeUpTo c r.drop n
      (r', r.front c :: as)

/-- The elements in the ring, in the order in which they will be taken. -/
def content (c : Nat) (r : Ring α) : List α :=
  (List.range (r.nwrite - r.nread).toNat).map fun i => r.data ((r.nread + UInt32.ofNat i).toNat % c)

/-- The elements `sent` have been put into the ring and `got` taken out of it. -/
structure Holds (c : Nat) (sent got : List α) (r : Ring α) : Prop where
  nread : r.nread.toNat = got.length % 2 ^ 32
  nwrite : r.nwrite.toNat = sent.length % 2 ^ 32
  got_prefix : got <+: sent
  bounded : sent.length ≤ got.length + c
  data : ∀ j (hj : j < sent.length), got.length ≤ j → r.data (j % c) = sent[j]

lemma holds_nil (data : Nat → α) : Holds c [] [] ⟨data, 0, 0⟩ :=
  ⟨rfl, rfl, List.prefix_rfl, zero_le, fun _ hj _ => absurd hj (Nat.not_lt_zero _)⟩

section

variable {r : Ring α} {sent got : List α} (hc : c ∣ 2 ^ 32) (hlt : c < 2 ^ 32)

namespace Holds

section

variable (h : Holds c sent got r)
include h

lemma le : got.length ≤ sent.length := h.got_prefix.length_le

include hlt in
/-- The counters tell how many elements are in the ring. -/
lemma toNat_sub : (r.nwrite - r.nread).toNat = sent.length - got.length := by
  have hle := h.le
  have hb := h.bounded
  rw [UInt32.toNat_sub, h.nread, h.nwrite]
  omega

include hlt in
lemma full_iff : r.full c ↔ sent.length = got.length + c := by
  have hle := h.le
  have hb := h.bounded
  rw [full, beq_iff_eq, ← UInt32.toNat_inj, UInt32.toNat_add, h.nread, h.nwrite, UInt32.toNat_ofNat']
  omega

include hlt in
lemma empty_iff : r.empty ↔ got = sent := by
  have hle := h.le
  have hb := h.bounded
  have hlen : r.empty ↔ got.length = sent.length := by
    rw [empty, beq_iff_eq, ← UInt32.toNat_inj, h.nread, h.nwrite]
    omega
  rw [hlen]
  exact ⟨h.got_prefix.eq_of_length, fun heq => by rw [heq]⟩

include hc hlt in
/-- What has been put into the ring has been taken out of it or is still there. -/
lemma eq_append_content : sent = got ++ r.content c := by
  have hle := h.le
  have hb := h.bounded
  have hlen : (r.content c).length = sent.length - got.length := by
    rw [content, List.length_map, List.length_range, h.toNat_sub hlt]
  refine List.ext_getElem (by rw [length_append, hlen]; omega) fun j hj hj' => ?_
  by_cases hgot : j < got.length
  · rw [List.getElem_append_left hgot]
    exact (List.IsPrefix.getElem h.got_prefix hgot).symm
  · rw [List.getElem_append_right (by omega)]
    have hcell : (r.nread + UInt32.ofNat (j - got.length)).toNat % c = j % c := by
      rw [UInt32.toNat_add, h.nread, UInt32.toNat_ofNat', Nat.add_mod_mod, Nat.mod_add_mod,
        Nat.add_sub_cancel' (by omega), Nat.mod_mod_of_dvd _ hc]
    simp only [content, List.getElem_map, List.getElem_range]
    rw [hcell, h.data j hj (by omega)]

include hc hlt in
lemma put (hfull : ¬ r.full c) (a : α) : Holds c (sent ++ [a]) got (r.put c a) := by
  rw [h.full_iff hlt] at hfull
  have hle := h.le
  have hb := h.bounded
  have hcell : r.nwrite.toNat % c = sent.length % c := by rw [h.nwrite, Nat.mod_mod_of_dvd _ hc]
  refine ⟨h.nread, ?_, h.got_prefix.trans (List.prefix_append ..), ?_, fun j hj hgot => ?_⟩
  · show (r.nwrite + 1).toNat = _
    rw [UInt32.toNat_add, h.nwrite, length_append, length_singleton]
    show (sent.length % 2 ^ 32 + 1) % 2 ^ 32 = _
    omega
  · rw [length_append, length_singleton]
    omega
  · show Function.update r.data (r.nwrite.toNat % c) a (j % c) = _
    rw [hcell]
    rw [length_append, length_singleton] at hj
    by_cases heq : j = sent.length
    · subst heq
      rw [Function.update_self, List.getElem_concat_length rfl]
    · -- two elements that are in the ring at a time are in different cells
      have hne : j % c ≠ sent.length % c := fun hmod => by
        have hdvd : c ∣ sent.length - j := Nat.dvd_of_mod_eq_zero (Nat.sub_mod_eq_zero_of_mod_eq hmod.symm)
        exact absurd (Nat.le_of_dvd (by omega) hdvd) (by omega)
      rw [Function.update_of_ne hne, List.getElem_append_left (by omega)]
      exact h.data j (by omega) hgot

include hc hlt in
lemma take (hempty : ¬ r.empty) : Holds c sent (got ++ [r.front c]) r.drop := by
  rw [h.empty_iff hlt] at hempty
  have hb := h.bounded
  have hlen : got.length < sent.length := by
    exact Nat.lt_of_le_of_ne h.le fun heq => hempty (h.got_prefix.eq_of_length heq)
  have hfront : r.front c = sent[got.length] := by
    rw [front, h.nread, Nat.mod_mod_of_dvd _ hc]
    exact h.data got.length hlen le_rfl
  refine ⟨?_, h.nwrite, ?_, ?_, fun j hj hgot => h.data j hj ?_⟩
  · show (r.nread + 1).toNat = _
    rw [UInt32.toNat_add, h.nread, length_append, length_singleton]
    show (got.length % 2 ^ 32 + 1) % 2 ^ 32 = _
    omega
  · have htake : got ++ [sent[got.length]] = sent.take (got.length + 1) :=
      (congrArg (· ++ [sent[got.length]]) (List.prefix_iff_eq_take.mp h.got_prefix)).trans
        (List.take_append_getElem hlen)
    rw [hfront, htake]
    exact List.take_prefix ..
  · rw [length_append, length_singleton]
    omega
  · rw [length_append, length_singleton] at hgot
    omega

end

include hc hlt in
lemma putAll (as : List α) : ∀ {sent : List α} {r : Ring α}, Holds c sent got r →
    Holds c (sent ++ as.take (r.putAll c as).2) got (r.putAll c as).1 ∧
      ((r.putAll c as).2 < as.length → (r.putAll c as).1.full c) ∧
      (r.putAll c as).2 ≤ as.length := by
  induction as with
  | nil =>
    intro sent r h
    refine ⟨?_, fun hlt => absurd hlt (Nat.lt_irrefl 0), le_rfl⟩
    rw [List.take_nil, append_nil]
    exact h
  | cons a as ih =>
    intro sent r h
    rw [Ring.putAll]
    split
    · refine ⟨?_, fun _ => ‹_›, zero_le⟩
      rw [List.take_zero, append_nil]
      exact h
    · obtain ⟨h', hfull, hle⟩ := ih (h.put hc hlt ‹_› a)
      rw [List.append_assoc] at h'
      refine ⟨h', fun hk => hfull ?_, ?_⟩
      · exact Nat.lt_of_succ_lt_succ hk
      · exact Nat.succ_le_succ hle

include hc hlt in
lemma takeUpTo {n : Nat} : ∀ {got : List α} {r : Ring α}, Holds c sent got r →
    Holds c sent (got ++ (r.takeUpTo c n).2) (r.takeUpTo c n).1 := by
  induction n with
  | zero =>
    intro got r h
    rw [Ring.takeUpTo, append_nil]
    exact h
  | succ n ih =>
    intro got r h
    rw [Ring.takeUpTo]
    split
    · rw [append_nil]
      exact h
    · have := ih (h.take hc hlt ‹_›)
      rwa [List.append_assoc] at this

/-- The last elements are taken back. -/
lemma cut {line : List α} {w : UInt32} (h : Holds c (sent ++ line) got r) (hgot : got.length ≤ sent.length)
    (hw : w.toNat = sent.length % 2 ^ 32) : Holds c sent got { r with nwrite := w } := by
  have hb := h.bounded
  rw [length_append] at hb
  refine ⟨h.nread, hw, List.prefix_of_prefix_length_le h.got_prefix (List.prefix_append ..) hgot,
    by omega, fun j hj hle => ?_⟩
  have hj' : j < (sent ++ line).length := by
    rw [length_append]
    omega
  have heq : (sent ++ line)[j] = sent[j] := List.getElem_append_left hj
  rw [← heq]
  exact h.data j hj' hle

/-- The ring from a later element on. -/
lemma skip {line : List α} {w : UInt32} (h : Holds c (sent ++ line) got r) (hgot : got.length ≤ sent.length)
    (hw : w.toNat = sent.length % 2 ^ 32) : Holds c (sent ++ line) sent { r with nread := w } := by
  have hb := h.bounded
  exact ⟨hw, h.nwrite, List.prefix_append .., by omega, fun j hj hle => h.data j hj (by omega)⟩

end Holds

end

/-- Nothing is taken only if there is nothing. -/
lemma empty_of_takeUpTo {r : Ring α} {n : Nat} (hn : 0 < n) (h : (r.takeUpTo c n).2 = []) : r.empty := by
  cases n with
  | zero => exact absurd hn (Nat.lt_irrefl 0)
  | succ n =>
    rw [takeUpTo] at h
    split at h
    · assumption
    · cases h

end Ring

end Lib
