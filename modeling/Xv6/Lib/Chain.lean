import Mathlib

/-!
# Linked lists that end in a null pointer

A pointer to the first node and a `next` pointer in each node. `Chain.Holds` says which list of nodes the
pointers make. A place where a pointer is stored is named by the node whose `next` it is, or `none` for
the first pointer, as a variable of type `node **` would name it.
-/

namespace Lib

structure Chain (α : Type) where
  head : Option α
  next : α → Option α

namespace Chain

variable {α : Type} [DecidableEq α]

/-- The pointer that is stored in a place. -/
def load (c : Chain α) : Option α → Option α
  | none => c.head
  | some a => c.next a

def store (c : Chain α) (place p : Option α) : Chain α :=
  match place with
  | none => { c with head := p }
  | some a => { c with next := Function.update c.next a p }

/-- From a place along the pointers to the place with the null pointer, in at most the given number of
steps. -/
def findEnd (c : Chain α) : Nat → Option α → Option (Option α)
  | 0, _ => none
  | n + 1, place =>
    match c.load place with
    | none => some place
    | some a => findEnd c n (some a)

/-- The nodes from a pointer on. -/
def Path (next : α → Option α) : Option α → List α → Prop
  | p, [] => p = none
  | p, a :: l => p = some a ∧ Path next (next a) l

/-- The nodes of a list, each of them once. -/
structure Holds (c : Chain α) (l : List α) : Prop where
  path : Path c.next c.head l
  nodup : l.Nodup

variable {c : Chain α} {next : α → Option α} {p q : Option α} {l : List α} {a b : α}

omit [DecidableEq α] in
lemma Path.head (h : Path next p l) : p = l.head? := by
  cases l with
  | nil => exact h
  | cons a l => exact h.1

/-- A node that is not in a list can be written to. -/
lemma Path.update (h : Path next p l) (ha : a ∉ l) : Path (Function.update next a q) p l := by
  induction l generalizing p with
  | nil => exact h
  | cons b l ih =>
    obtain ⟨hne, hnot⟩ := not_or.mp (List.mem_cons.not.mp ha)
    refine ⟨h.1, ?_⟩
    rw [Function.update_of_ne (Ne.symm hne)]
    exact ih h.2 hnot

/-- A list made longer at its end. -/
lemma Path.append (h : Path next p (l ++ [a])) (hnodup : (l ++ [a]).Nodup) (hb : b ∉ l ++ [a])
    (hend : next b = none) : Path (Function.update next a (some b)) p (l ++ [a] ++ [b]) := by
  induction l generalizing p with
  | nil =>
    have hne : b ≠ a := fun heq => hb (List.mem_singleton.mpr heq)
    refine ⟨h.1, ?_, ?_⟩
    · rw [Function.update_self]
    · rw [Path, Function.update_of_ne hne]
      exact hend
  | cons d l ih =>
    rw [List.cons_append, List.nodup_cons] at hnodup
    rw [List.cons_append, List.mem_cons, not_or] at hb
    have hne : d ≠ a := fun heq =>
      hnodup.1 (List.mem_append_right l (List.mem_singleton.mpr heq))
    refine ⟨h.1, ?_⟩
    rw [Function.update_of_ne hne]
    exact ih h.2 hnodup.2 hb.2

omit [DecidableEq α] in
/-- The loop from node `a`, with the nodes of `l` after it. -/
lemma Path.findEnd (h : Path c.next (c.next a) l) {n : Nat} (hn : l.length < n) :
    c.findEnd n (some a) = some (some ((a :: l).getLast (List.cons_ne_nil a l))) := by
  induction l generalizing a n with
  | nil =>
    obtain ⟨m, rfl⟩ := Nat.exists_eq_succ_of_ne_zero hn.ne'
    rw [Chain.findEnd, load, h]
    rfl
  | cons b l ih =>
    obtain ⟨m, rfl⟩ := Nat.exists_eq_succ_of_ne_zero (zero_le.trans_lt hn).ne'
    rw [Chain.findEnd, load, h.1]
    exact ih h.2 (Nat.lt_of_succ_lt_succ hn)

namespace Holds

omit [DecidableEq α] in
/-- The place where a list ends. -/
lemma findEnd (h : c.Holds l) {n : Nat} (hn : l.length < n) : c.findEnd n none = some l.getLast? := by
  obtain ⟨m, rfl⟩ := Nat.exists_eq_succ_of_ne_zero (zero_le.trans_lt hn).ne'
  rw [Chain.findEnd, load]
  cases l with
  | nil =>
    rw [show c.head = none from h.path]
    rfl
  | cons a l =>
    rw [h.path.1]
    exact h.path.2.findEnd (Nat.lt_of_succ_lt_succ hn)

/-- A node is added where the list ends. -/
lemma append (h : c.Holds l) (hb : b ∉ l) (hend : c.next b = none) :
    (c.store l.getLast? (some b)).Holds (l ++ [b]) := by
  refine ⟨?_, List.nodup_append.mpr ⟨h.nodup, List.nodup_singleton b, ?_⟩⟩
  · cases List.eq_nil_or_concat l with
    | inl hnil =>
      subst hnil
      exact ⟨rfl, hend⟩
    | inr hsnoc =>
      obtain ⟨k, a, rfl⟩ := hsnoc
      rw [List.concat_eq_append] at h hb ⊢
      rw [List.getLast?_concat]
      exact h.path.append h.nodup hb hend
  · intro a ha b' hb' heq
    rw [heq, List.mem_singleton.mp hb'] at ha
    exact hb ha

lemma setNext (h : c.Holds l) (ha : a ∉ l) (p : Option α) :
    Holds { c with next := Function.update c.next a p } l := ⟨h.path.update ha, h.nodup⟩

omit [DecidableEq α] in
/-- The first node is taken off. -/
lemma tail (h : c.Holds (a :: l)) : Holds { c with head := c.next a } l :=
  ⟨h.path.2, (List.nodup_cons.mp h.nodup).2⟩

end Holds

end Chain

end Lib
