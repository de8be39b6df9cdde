import Mathlib

/-!
# Circular doubly linked lists

Nodes with a `next` and a `prev` pointer, and a node that is the head of the list and none of its
elements. `DList.Holds` says which list of nodes the pointers make. The operations are written as the
pointer assignments that programs make, in that order; neighbours may be one node, or the head.
-/

namespace Lib

open List (append_assoc cons_append mem_append mem_cons mem_cons_of_mem mem_cons_self mem_singleton nodup_cons)
open Function (update_self update_of_ne)

structure DList (α : Type) where
  next : α → α
  prev : α → α

namespace DList

variable {α : Type} [DecidableEq α]

def setNext (L : DList α) (a b : α) : DList α := { L with next := Function.update L.next a b }

def setPrev (L : DList α) (a b : α) : DList α := { L with prev := Function.update L.prev a b }

/-- `head.prev = &head; head.next = &head` -/
def clear (L : DList α) (h : α) : DList α := (L.setPrev h h).setNext h h

/-- `b->next->prev = b->prev; b->prev->next = b->next` -/
def unlink (L : DList α) (b : α) : DList α :=
  let L := L.setPrev (L.next b) (L.prev b)
  L.setNext (L.prev b) (L.next b)

/-- `b->next = head.next; b->prev = &head; head.next->prev = b; head.next = b` -/
def pushFront (L : DList α) (h b : α) : DList α :=
  let L := L.setNext b (L.next h)
  let L := L.setPrev b h
  let L := L.setPrev (L.next h) b
  L.setNext h b

/-- The loop that goes from a node on until it is back at the head: the first node that the test accepts,
if there is one. It goes on for at most the given number of rounds. -/
def find (step : α → α) (h : α) (test : α → Bool) : Nat → α → Option (Option α)
  | 0, _ => none
  | n + 1, a =>
    if a = h then some none
    else if test a then some (some a)
    else find step h test n (step a)

/-- Along the list `next` and `prev` are each other's inverse. -/
def Linked (L : DList α) (l : List α) : Prop := l.IsChain fun a b => L.next a = b ∧ L.prev b = a

/-- The elements of the list, from the head and back to it. -/
structure Holds (L : DList α) (h : α) (l : List α) : Prop where
  linked : L.Linked (h :: (l ++ [h]))
  nodup : (h :: l).Nodup

variable {L L' : DList α} {h a b : α} {l l₁ l₂ : List α}

omit [DecidableEq α] in
/-- What is assigned to the `next` of the last node and the `prev` of the first does not matter. -/
lemma Linked.congr (hl : L.Linked l) (hnext : ∀ a ∈ l.dropLast, L'.next a = L.next a)
    (hprev : ∀ a ∈ l.tail, L'.prev a = L.prev a) : L'.Linked l := by
  induction l with
  | nil => exact List.isChain_nil
  | cons a l ih =>
    cases l with
    | nil => exact List.isChain_singleton a
    | cons b l =>
      obtain ⟨hab, hl⟩ := List.isChain_cons_cons.mp hl
      refine List.isChain_cons_cons.mpr ⟨⟨?_, ?_⟩, ih hl ?_ ?_⟩
      · rw [hnext a (mem_cons_self ..)]
        exact hab.1
      · rw [hprev b (mem_cons_self ..)]
        exact hab.2
      · exact fun x hx => hnext x (mem_cons_of_mem a hx)
      · exact fun x hx => hprev x (mem_cons_of_mem b hx)

/-- The loop from the first of the nodes that are left. -/
lemma Linked.find (hl : L.Linked (l ++ [h])) (hh : h ∉ l) (test : α → Bool) {n : Nat} (hn : l.length < n) :
    find L.next h test n (l.headD h) = some (l.find? test) := by
  induction l generalizing n with
  | nil =>
    obtain ⟨m, rfl⟩ := Nat.exists_eq_succ_of_ne_zero hn.ne'
    exact if_pos rfl
  | cons a l ih =>
    obtain ⟨m, rfl⟩ := Nat.exists_eq_succ_of_ne_zero (Nat.zero_lt_of_lt hn).ne'
    rw [mem_cons, not_or] at hh
    rw [List.headD_cons, DList.find, if_neg (Ne.symm hh.1), List.find?_cons]
    cases test a with
    | true => rfl
    | false =>
      have hnext : L.next a = l.headD h := by
        cases l with
        | nil | cons b l => exact (List.isChain_cons_cons.mp hl).1.1
      rw [if_neg Bool.false_ne_true, hnext]
      exact ih (List.isChain_cons.mp hl).2 hh.2 (Nat.lt_of_succ_lt_succ hn)

namespace Holds

omit [DecidableEq α] in
/-- The same list, read backwards. -/
lemma reverse (hL : L.Holds h l) : Holds ⟨L.prev, L.next⟩ h l.reverse := by
  constructor
  · have hrev : h :: (l.reverse ++ [h]) = (h :: (l ++ [h])).reverse := by simp
    rw [hrev, Linked, List.isChain_reverse]
    exact hL.linked.imp fun _ _ hab => ⟨hab.2, hab.1⟩
  · rw [nodup_cons, List.mem_reverse, List.nodup_reverse]
    exact List.nodup_cons.mp hL.nodup

omit [DecidableEq α] in
lemma next_head (hL : L.Holds h l) : L.next h = l.headD h := by
  have hlinked := hL.linked
  cases l with
  | nil | cons a l => exact (List.isChain_cons_cons.mp hlinked).1.1

omit [DecidableEq α] in
/-- `prev` after `next`, at every node of the list and at the head. -/
lemma prev_next (hL : L.Holds h l) (ha : a ∈ h :: l) : L.prev (L.next a) = a := by
  obtain ⟨l₁, l₂, heq⟩ := List.append_of_mem ha
  have hlinked := hL.linked
  rw [← cons_append, heq, append_assoc, cons_append] at hlinked
  cases l₂ with
  | nil | cons c l₂ =>
    obtain ⟨-, hab, -⟩ := List.isChain_append_cons_cons.mp hlinked
    rw [hab.1, hab.2]

lemma clear (L : DList α) (h : α) : (L.clear h).Holds h [] := by
  refine ⟨List.isChain_pair.mpr ⟨?_, ?_⟩, List.nodup_singleton h⟩
  · exact update_self ..
  · exact update_self ..

/-- A node is taken out. -/
lemma unlink (hL : L.Holds h (l₁ ++ b :: l₂)) : (L.unlink b).Holds h (l₁ ++ l₂) := by
  have hnodup := hL.nodup
  rw [nodup_cons, List.nodup_append, nodup_cons] at hnodup
  obtain ⟨hh, hl₁, ⟨hb, hl₂⟩, hdisj⟩ := hnodup
  rw [mem_append, mem_cons, not_or, not_or] at hh
  obtain ⟨hh₁, hhb, hh₂⟩ := hh
  -- the neighbours, either of which may be the head
  obtain ⟨u, p, hp⟩ : ∃ u p, h :: l₁ = u ++ [p] :=
    ⟨_, _, (List.dropLast_append_getLast (List.cons_ne_nil h l₁)).symm⟩
  obtain ⟨n, v, hn⟩ : ∃ n v, l₂ ++ [h] = n :: v :=
    List.exists_cons_of_ne_nil (List.append_ne_nil_of_right_ne_nil l₂ (List.cons_ne_nil h []))
  have hlinked := hL.linked
  have hsplit : h :: (l₁ ++ b :: l₂ ++ [h]) = u ++ p :: b :: n :: v := by
    rw [append_assoc, ← cons_append, hp, cons_append, hn, append_assoc]
    rfl
  rw [hsplit] at hlinked
  obtain ⟨hleft, hpb, hlinked⟩ := List.isChain_append_cons_cons.mp hlinked
  obtain ⟨hbn, hright⟩ := List.isChain_cons_cons.mp hlinked
  have hbn' : b ≠ n := by
    have hmem : n ∈ l₂ ++ [h] := hn ▸ mem_cons_self ..
    rintro rfl
    rw [mem_append, mem_singleton] at hmem
    exact hmem.elim hb (Ne.symm hhb)
  have hunlink : L.unlink b = (L.setPrev n p).setNext p n := by
    simp only [DList.unlink, setPrev, hbn.1, hpb.2, update_of_ne hbn']
  have hpmem : p ∈ h :: l₁ := hp ▸ List.mem_append_right u (List.mem_singleton_self p)
  have hnmem : n ∈ l₂ ++ [h] := hn ▸ mem_cons_self ..
  have hbefore : (u ++ [p]).Nodup := hp ▸ List.nodup_cons.mpr ⟨hh₁, hl₁⟩
  have hafter : (n :: v).Nodup := by
    rw [← hn, List.nodup_append_comm]
    exact List.nodup_cons.mpr ⟨hh₂, hl₂⟩
  have hsplit' : h :: (l₁ ++ l₂ ++ [h]) = u ++ p :: n :: v := by
    rw [append_assoc, ← cons_append, hp, hn, append_assoc]
    rfl
  rw [hunlink]
  constructor
  · rw [Linked, hsplit']
    refine List.isChain_append_cons_cons.mpr ⟨Linked.congr hleft (fun a ha => ?_) fun a ha => ?_, ⟨?_, ?_⟩,
      Linked.congr hright (fun a ha => ?_) fun a ha => ?_⟩
    · rw [List.dropLast_concat] at ha
      have hap : a ≠ p := fun heq => (List.nodup_append.mp hbefore).2.2 a ha p (List.mem_singleton_self p) heq
      exact update_of_ne hap ..
    · rw [← hp, List.tail_cons] at ha
      have han : a ≠ n := by
        rintro rfl
        rw [mem_append, mem_singleton] at hnmem
        cases hnmem with
        | inl hin => exact hdisj a ha a (mem_cons_of_mem b hin) rfl
        | inr heq => exact hh₁ (heq ▸ ha)
      exact update_of_ne han ..
    · exact update_self ..
    · exact update_self ..
    · rw [← hn, List.dropLast_concat] at ha
      have hap : a ≠ p := by
        rintro rfl
        cases List.mem_cons.mp hpmem with
        | inl heq => exact hh₂ (heq ▸ ha)
        | inr hin => exact hdisj a hin a (mem_cons_of_mem b ha) rfl
      exact update_of_ne hap ..
    · exact update_of_ne (ne_of_mem_of_not_mem ha (List.nodup_cons.mp hafter).1) ..
  · rw [nodup_cons, mem_append, not_or, List.nodup_append]
    exact ⟨⟨hh₁, hh₂⟩, hl₁, hl₂, fun a ha c hc => hdisj a ha c (mem_cons_of_mem b hc)⟩

/-- A node is put in front. -/
lemma pushFront (hL : L.Holds h l) (hb : b ∉ h :: l) : (L.pushFront h b).Holds h (b :: l) := by
  have hnodup := hL.nodup
  obtain ⟨hh, hl⟩ := List.nodup_cons.mp hnodup
  rw [mem_cons, not_or] at hb
  obtain ⟨hbh, hbl⟩ := hb
  obtain ⟨n, v, hn⟩ : ∃ n v, l ++ [h] = n :: v :=
    List.exists_cons_of_ne_nil (List.append_ne_nil_of_right_ne_nil l (List.cons_ne_nil h []))
  have hround : (n :: v).Nodup := by
    rw [← hn, List.nodup_append_comm]
    exact hnodup
  have hlinked := hL.linked
  rw [hn] at hlinked
  obtain ⟨hhn, hrest⟩ := List.isChain_cons_cons.mp hlinked
  have hnb : n ≠ b := by
    have hmem : n ∈ l ++ [h] := hn ▸ mem_cons_self ..
    rintro rfl
    rw [mem_append, mem_singleton] at hmem
    exact hmem.elim hbl hbh
  have hpush : L.pushFront h b = (((L.setNext b n).setPrev b h).setPrev n b).setNext h b := by
    simp only [DList.pushFront, setNext, setPrev, hhn.1, update_of_ne (Ne.symm hbh)]
  refine ⟨?_, List.nodup_cons.mpr ⟨?_, List.nodup_cons.mpr ⟨hbl, hl⟩⟩⟩
  · rw [hpush, cons_append, hn]
    refine List.isChain_cons_cons.mpr ⟨⟨?_, ?_⟩, List.isChain_cons_cons.mpr ⟨⟨?_, ?_⟩, ?_⟩⟩
    · exact update_self ..
    · simp only [setNext, setPrev, update_of_ne (Ne.symm hnb), update_self]
    · simp only [setNext, setPrev, update_of_ne hbh, update_self]
    · simp only [setNext, setPrev, update_self]
    · refine Linked.congr hrest (fun a ha => ?_) fun a ha => ?_
      · rw [← hn, List.dropLast_concat] at ha
        have hah : a ≠ h := ne_of_mem_of_not_mem ha hh
        have hab : a ≠ b := ne_of_mem_of_not_mem ha hbl
        simp only [setNext, setPrev, update_of_ne hah, update_of_ne hab]
      · have han : a ≠ n := ne_of_mem_of_not_mem ha (List.nodup_cons.mp hround).1
        have hab : a ≠ b := by
          have hmem : a ∈ l ++ [h] := hn ▸ mem_cons_of_mem n ha
          rintro rfl
          rw [mem_append, mem_singleton] at hmem
          exact hmem.elim hbl hbh
        simp only [setNext, setPrev, update_of_ne han, update_of_ne hab]
  · rw [mem_cons, not_or]
    exact ⟨Ne.symm hbh, hh⟩

/-- The loop along `next`. -/
lemma find_next (hL : L.Holds h l) (test : α → Bool) {n : Nat} (hn : l.length < n) :
    find L.next h test n (L.next h) = some (l.find? test) := by
  rw [hL.next_head]
  exact Linked.find (List.isChain_cons.mp hL.linked).2 (List.nodup_cons.mp hL.nodup).1 test hn

/-- The loop along `prev`. -/
lemma find_prev (hL : L.Holds h l) (test : α → Bool) {n : Nat} (hn : l.length < n) :
    find L.prev h test n (L.prev h) = some (l.reverse.find? test) :=
  hL.reverse.find_next test (by rwa [List.length_reverse])

end Holds

end DList

end Lib
