import Mathlib

/-!
# Pointer trees in a heap, and who owns which node

A *forest* is a family of trees of bounded height whose nodes live in a heap: `child b i` is the
`i`-th pointer stored in node `b`, and `0` is the null pointer. A *place* is a root together with a
path; `node` says which heap node is there. A node at full height is a leaf: its content is not made
of pointers and nothing follows it.

`Exclusive` is the ownership discipline of such a structure over an allocation map: every node that
is referenced is allocated, every allocated node is referenced, and by one place only. The lemmas
say what linking a fresh empty node, overwriting a leaf and uprooting trees do to `node`, and that
`Exclusive` survives each of them.
-/

namespace Lib

variable {κ ι P : Type}

/-! ### Paths -/

/-- Follow a path from node `b`. -/
def walk (child : Nat → ι → Nat) : Nat → List ι → Nat
  | b, [] => b
  | b, i :: p => if b = 0 then 0 else walk child (child b i) p

section Walk

variable {child child' : Nat → ι → Nat} {b : Nat} {p q : List ι} {i : ι}

@[simp] lemma walk_nil : walk child b [] = b := rfl

@[simp] lemma walk_null : walk child 0 p = 0 := by
  cases p <;> rfl

lemma walk_cons (hb : b ≠ 0) : walk child b (i :: p) = walk child (child b i) p := by
  simp [walk, hb]

lemma walk_append : walk child b (p ++ q) = walk child (walk child b p) q := by
  induction p generalizing b with
  | nil => rfl
  | cons j p ih =>
    by_cases hb : b = 0
    · simp [hb]
    · rw [List.cons_append, walk_cons hb, walk_cons hb, ih]

/-- A path goes through no null pointer. -/
lemma walk_ne_of_append (h : walk child b (p ++ q) ≠ 0) : walk child b p ≠ 0 := by
  intro hp
  rw [walk_append, hp, walk_null] at h
  exact h rfl

/-- A walk reads the nodes on its way, and of each of them one pointer. -/
lemma walk_congr
    (h : ∀ q i r, p = q ++ i :: r → walk child b q ≠ 0 →
      child' (walk child b q) i = child (walk child b q) i) :
    walk child' b p = walk child b p := by
  induction p generalizing b with
  | nil => rfl
  | cons j p ih =>
    by_cases hb : b = 0
    · simp [hb]
    · have hj : child' b j = child b j := h [] j p rfl hb
      rw [walk_cons hb, walk_cons hb, hj]
      refine ih fun q i r hp hne => ?_
      have hq : walk child b (j :: q) = walk child (child b j) q := walk_cons hb
      have := h (j :: q) i r (by rw [hp, List.cons_append]) (by rwa [hq])
      rwa [hq] at this

end Walk

/-! ### One tree -/

/-- Node `x` is in the tree of height `l` under node `b`. -/
def Below (child : Nat → ι → Nat) (l b x : Nat) : Prop :=
  x ≠ 0 ∧ ∃ p : List ι, p.length ≤ l ∧ walk child b p = x

/-- No node of the tree of height `l` under node `b` is referenced twice in it. -/
def Apart (child : Nat → ι → Nat) (l b : Nat) : Prop :=
  ∀ p q : List ι, p.length ≤ l → q.length ≤ l → walk child b p = walk child b q →
    walk child b p ≠ 0 → p = q

section Tree

variable {child child' : Nat → ι → Nat} {l b x : Nat} {i j : ι}

lemma below_zero : Below child 0 b x ↔ x ≠ 0 ∧ x = b := by
  constructor
  · rintro ⟨hx, p, hp, rfl⟩
    rw [List.length_eq_zero_iff.mp (Nat.le_zero.mp hp)]
    rw [List.length_eq_zero_iff.mp (Nat.le_zero.mp hp)] at hx
    exact ⟨hx, rfl⟩
  · rintro ⟨hx, rfl⟩
    exact ⟨hx, [], by simp, rfl⟩

lemma below_succ (hb : b ≠ 0) : Below child (l + 1) b x ↔ x = b ∨ ∃ i, Below child l (child b i) x := by
  constructor
  · rintro ⟨hx, p, hp, hw⟩
    cases p with
    | nil => exact .inl hw.symm
    | cons i p =>
      rw [walk_cons hb] at hw
      exact .inr ⟨i, hx, p, by simpa using hp, hw⟩
  · rintro (rfl | ⟨i, hx, p, hp, hw⟩)
    · exact ⟨hb, [], by simp, rfl⟩
    · exact ⟨hx, i :: p, by simpa using hp, by rwa [walk_cons hb]⟩

lemma Below.root_ne (h : Below child l b x) : b ≠ 0 := by
  rintro rfl
  obtain ⟨hx, p, -, hw⟩ := h
  exact hx (by rw [← hw, walk_null])

lemma Apart.subtree (h : Apart child (l + 1) b) (hb : b ≠ 0) (i : ι) : Apart child l (child b i) := by
  intro p q hp hq hw hne
  have := h (i :: p) (i :: q) (by simpa using hp) (by simpa using hq)
    (by rwa [walk_cons hb, walk_cons hb]) (by rwa [walk_cons hb])
  exact (List.cons.inj this).2

/-- The subtrees of a node share no node. -/
lemma Apart.disjoint (h : Apart child (l + 1) b) (hb : b ≠ 0) (hi : Below child l (child b i) x)
    (hj : Below child l (child b j) x) : i = j := by
  obtain ⟨hx, p, hp, hw⟩ := hi
  obtain ⟨-, q, hq, hw'⟩ := hj
  have := h (i :: p) (j :: q) (by simpa using hp) (by simpa using hq)
    (by rw [walk_cons hb, walk_cons hb, hw, hw']) (by rw [walk_cons hb, hw]; exact hx)
  exact (List.cons.inj this).1

/-- A node is not below itself. -/
lemma Apart.not_below (h : Apart child (l + 1) b) (hb : b ≠ 0) : ¬ Below child l (child b i) b := by
  rintro ⟨-, p, hp, hw⟩
  have := h (i :: p) [] (by simpa using hp) (by simp) (by rw [walk_cons hb, hw, walk_nil])
    (by rw [walk_cons hb, hw]; exact hb)
  exact List.cons_ne_nil _ _ this

/-- A tree depends on its own nodes only. -/
lemma walk_congr_below (h : ∀ y i, Below child l b y → child' y i = child y i) {p : List ι}
    (hp : p.length ≤ l) : walk child' b p = walk child b p := by
  refine walk_congr fun q i r hpq hne => h _ i ⟨hne, q, ?_, rfl⟩
  rw [hpq, List.length_append] at hp
  omega

lemma below_congr (h : ∀ y i, Below child l b y → child' y i = child y i) :
    Below child' l b x ↔ Below child l b x := by
  constructor
  · rintro ⟨hx, p, hp, hw⟩
    exact ⟨hx, p, hp, by rwa [walk_congr_below h hp] at hw⟩
  · rintro ⟨hx, p, hp, hw⟩
    exact ⟨hx, p, hp, by rwa [walk_congr_below h hp]⟩

lemma Apart.congr (ha : Apart child l b) (h : ∀ y i, Below child l b y → child' y i = child y i) :
    Apart child' l b := by
  intro p q hp hq hw hne
  rw [walk_congr_below h hp, walk_congr_below h hq] at hw
  rw [walk_congr_below h hp] at hne
  exact ha p q hp hq hw hne

end Tree

/-! ### Exclusive ownership -/

/-- The places `P` own the allocated nodes: each allocated node is at exactly one place, and only
allocated nodes are at places. -/
structure Exclusive (node : P → Nat) (used : Nat → Prop) : Prop where
  null : ¬ used 0
  allocated : ∀ p, node p ≠ 0 → used (node p)
  owner : ∀ b, used b → ∃ p, node p = b
  inj : ∀ p q, node p = node q → node p ≠ 0 → p = q

namespace Exclusive

variable {node node' : P → Nat} {used used' : Nat → Prop}

lemma ne_zero (h : Exclusive node used) {b : Nat} (hb : used b) : b ≠ 0 :=
  fun h0 => h.null (h0 ▸ hb)

lemma congr (h : Exclusive node used) (hn : ∀ p, node' p = node p) (hu : ∀ b, used' b ↔ used b) :
    Exclusive node' used' := by
  have hn : node' = node := funext hn
  have hu : used' = used := funext fun b => propext (hu b)
  rw [hn, hu]
  exact h

/-- A node that is not allocated is put at an empty place. -/
lemma grow [DecidableEq P] (h : Exclusive node used) {p₀ : P} {x : Nat} (hx : ¬ used x)
    (hx0 : x ≠ 0) (hnull : node p₀ = 0) (hn : ∀ p, node' p = if p = p₀ then x else node p)
    (hu : ∀ b, used' b ↔ b = x ∨ used b) : Exclusive node' used' := by
  have hne : ∀ p ≠ p₀, node' p = node p := fun p hp => by rw [hn, if_neg hp]
  have heq : node' p₀ = x := by rw [hn, if_pos rfl]
  refine ⟨?_, ?_, ?_, ?_⟩
  · rw [hu]
    rintro (h0 | h0)
    · exact hx0 h0.symm
    · exact h.null h0
  · intro p hp
    by_cases hpp : p = p₀
    · rw [hpp, heq, hu]; exact .inl rfl
    · rw [hne p hpp] at hp ⊢
      exact (hu _).mpr (.inr (h.allocated p hp))
  · intro b hb
    rcases (hu b).mp hb with rfl | hb
    · exact ⟨p₀, heq⟩
    · obtain ⟨p, rfl⟩ := h.owner b hb
      have hpp : p ≠ p₀ := by
        rintro rfl
        exact h.ne_zero hb hnull
      exact ⟨p, hne p hpp⟩
  · -- the new node is at no other place, since it was not allocated
    have hfresh : ∀ p ≠ p₀, node p ≠ x := by
      rintro p hpp rfl
      exact hx (h.allocated p hx0)
    intro p q hpq hp
    by_cases hpp : p = p₀ <;> by_cases hqq : q = p₀
    · rw [hpp, hqq]
    · rw [hpp, heq, hne q hqq] at hpq
      exact absurd hpq.symm (hfresh q hqq)
    · rw [hqq, heq, hne p hpp] at hpq
      exact absurd hpq (hfresh p hpp)
    · rw [hne p hpp, hne q hqq] at hpq
      rw [hne p hpp] at hp
      exact h.inj p q hpq hp

/-- The places in `S` are emptied and their nodes given back. -/
lemma shrink (h : Exclusive node used) (S : P → Prop) [DecidablePred S]
    (hn : ∀ p, node' p = if S p then 0 else node p)
    (hu : ∀ b, used' b ↔ used b ∧ ¬ ∃ p, S p ∧ node p = b) : Exclusive node' used' := by
  have hkeep : ∀ p, node' p ≠ 0 → ¬ S p ∧ node' p = node p := by
    intro p hp
    rw [hn] at hp ⊢
    split at hp
    · exact absurd rfl hp
    · exact ⟨‹_›, by rw [if_neg ‹_›]⟩
  refine ⟨fun h0 => h.null ((hu 0).mp h0).1, ?_, ?_, ?_⟩
  · intro p hp
    obtain ⟨hS, heq⟩ := hkeep p hp
    rw [heq] at hp ⊢
    refine (hu _).mpr ⟨h.allocated p hp, ?_⟩
    rintro ⟨q, hq, hqp⟩
    rw [h.inj q p hqp (hqp ▸ hp)] at hq
    exact hS hq
  · intro b hb
    obtain ⟨hb, hno⟩ := (hu b).mp hb
    obtain ⟨p, rfl⟩ := h.owner b hb
    exact ⟨p, by rw [hn, if_neg fun hS => hno ⟨p, hS, rfl⟩]⟩
  · intro p q hpq hp
    have hq : node' q ≠ 0 := hpq ▸ hp
    rw [(hkeep p hp).2, (hkeep q hq).2] at hpq
    rw [(hkeep p hp).2] at hp
    exact h.inj p q hpq hp

end Exclusive

/-! ### Forests -/

/-- Trees in a heap: their roots, their heights and the pointers stored in the nodes. -/
structure Forest (κ ι : Type) where
  root : κ → Nat
  height : κ → Nat
  child : Nat → ι → Nat

namespace Forest

variable {F F' : Forest κ ι} {k : κ} {q : List ι} {i : ι} {x : Nat}

/-- The node at a place: root `p.1`, path `p.2`; `0` if there is none. -/
def node (F : Forest κ ι) (p : κ × List ι) : Nat :=
  if p.2.length ≤ F.height p.1 then walk F.child (F.root p.1) p.2 else 0

lemma node_of_le (h : q.length ≤ F.height k) : F.node (k, q) = walk F.child (F.root k) q :=
  if_pos h

lemma node_of_root_null (h : F.root k = 0) : F.node (k, q) = 0 := by
  rw [node]
  split
  · rw [h, walk_null]
  · rfl

lemma length_le_of_node (h : F.node (k, q) ≠ 0) : q.length ≤ F.height k := by
  by_contra hlen
  exact h (if_neg hlen)

/-- A place above a node has a node. -/
lemma node_ne_of_append {r : List ι} (h : F.node (k, q ++ r) ≠ 0) : F.node (k, q) ≠ 0 := by
  have hlen := length_le_of_node h
  rw [List.length_append] at hlen
  rw [node_of_le (by rw [List.length_append]; omega)] at h
  rw [node_of_le (by omega)]
  exact walk_ne_of_append h

lemma node_snoc (h : q.length < F.height k) (hne : F.node (k, q) ≠ 0) :
    F.node (k, q ++ [i]) = F.child (F.node (k, q)) i := by
  rw [node_of_le (by rw [List.length_append, List.length_singleton]; omega), walk_append]
  rw [node_of_le (by omega)] at hne ⊢
  rw [walk_cons hne, walk_nil]

/-- A path is as long in two heaps that agree on the inner nodes on it. -/
lemma node_congr_path (hroot : F'.root k = F.root k) (hheight : F'.height k = F.height k) {p : List ι}
    (h : ∀ q i r, p = q ++ i :: r → q.length < F.height k → F.node (k, q) ≠ 0 →
      F'.child (F.node (k, q)) i = F.child (F.node (k, q)) i) :
    F'.node (k, p) = F.node (k, p) := by
  unfold node
  simp only [hheight, hroot]
  by_cases hp : p.length ≤ F.height k
  · rw [if_pos hp, if_pos hp]
    refine walk_congr fun q i r hpq hne => ?_
    have hq : q.length < F.height k := by
      rw [hpq, List.length_append, List.length_cons] at hp
      omega
    have := h q i r hpq hq
    rw [node_of_le (by omega)] at this
    exact this hne
  · rw [if_neg hp, if_neg hp]

/-- Only the pointers of inner nodes matter. -/
lemma node_congr (hroot : F'.root = F.root) (hheight : F'.height = F.height)
    (h : ∀ k q i, q.length < F.height k → F.node (k, q) ≠ 0 →
      F'.child (F.node (k, q)) i = F.child (F.node (k, q)) i) (p : κ × List ι) :
    F'.node p = F.node p :=
  node_congr_path (congrFun hroot _) (congrFun hheight _) fun q i _ _ => h p.1 q i

section Link

variable [DecidableEq κ] [DecidableEq ι]

/-- An empty node `x` is made the root of an empty tree. -/
lemma node_link_root (hheight : F'.height = F.height) (hnull : F.root k = 0)
    (hroot : F'.root = Function.update F.root k x) (hx : ∀ i, F'.child x i = 0)
    (hchild : ∀ p i, F.node p ≠ 0 → F'.child (F.node p) i = F.child (F.node p) i)
    (p : κ × List ι) : F'.node p = if p = (k, []) then x else F.node p := by
  obtain ⟨j, p⟩ := p
  by_cases hj : j = k
  · rw [hj, node_of_root_null hnull]
    cases p with
    | nil => rw [if_pos rfl, node_of_le zero_le, hroot, Function.update_self, walk_nil]
    | cons i p =>
      rw [if_neg (by simp)]
      by_cases hlen : (i :: p).length ≤ F'.height k
      · rw [node_of_le hlen, hroot, Function.update_self]
        by_cases hx0 : x = 0
        · rw [hx0, walk_null]
        · rw [walk_cons hx0, hx, walk_null]
      · exact if_neg hlen
  · rw [if_neg fun h => hj (congrArg Prod.fst h)]
    refine node_congr_path ?_ (congrFun hheight j) fun q i _ _ _ hne => hchild (j, q) i hne
    rw [hroot, Function.update_of_ne hj]

/-- An empty node `x` is linked below the node at `(k, q)`. -/
lemma node_link_child (hheight : F'.height = F.height) (hroot : F'.root = F.root)
    (hq : q.length < F.height k) (hparent : F.node (k, q) ≠ 0) (hnull : F.node (k, q ++ [i]) = 0)
    (hx : ∀ i, F'.child x i = 0) (hlink : F'.child (F.node (k, q)) i = x)
    (hchild : ∀ p j, F.node p ≠ 0 → (p = (k, q) → j ≠ i) →
      F'.child (F.node p) j = F.child (F.node p) j)
    (p : κ × List ι) : F'.node p = if p = (k, q ++ [i]) then x else F.node p := by
  obtain ⟨j, p⟩ := p
  by_cases hpath : j = k ∧ ∃ r, p = q ++ i :: r
  · -- the path goes through the new link
    obtain ⟨rfl, r, rfl⟩ := hpath
    have hold : F.node (j, q ++ i :: r) = 0 := by
      by_contra hne
      rw [List.append_cons] at hne
      exact node_ne_of_append hne hnull
    have hparent' : F'.node (j, q) = F.node (j, q) := by
      refine node_congr_path (congrFun hroot j) (congrFun hheight j) fun q' i' r' hq' _ hne =>
        hchild (j, q') i' hne fun heq => ?_
      have hqq : q' = q := congrArg Prod.snd heq
      rw [hqq] at hq'
      exact absurd (congrArg List.length hq') (by simp)
    have hlen : q.length < F'.height j := by rw [hheight]; exact hq
    have hne' : walk F'.child (F'.root j) q ≠ 0 := by
      rw [← node_of_le hlen.le, hparent']; exact hparent
    have hstep : walk F'.child (F'.root j) (q ++ i :: r) = walk F'.child x r := by
      rw [walk_append, walk_cons hne', ← node_of_le hlen.le, hparent', hlink]
    cases r with
    | nil =>
      rw [if_pos rfl, node_of_le (by rw [List.length_append, List.length_singleton]; omega), hstep,
        walk_nil]
    | cons i' r =>
      rw [if_neg (by simp), hold]
      by_cases hle : (q ++ i :: i' :: r).length ≤ F'.height j
      · rw [node_of_le hle, hstep]
        by_cases hx0 : x = 0
        · rw [hx0, walk_null]
        · rw [walk_cons hx0, hx, walk_null]
      · exact if_neg hle
  · rw [if_neg fun h => hpath ⟨congrArg Prod.fst h, [], congrArg Prod.snd h⟩]
    refine node_congr_path (congrFun hroot j) (congrFun hheight j) fun q' i' r' hp _ hne =>
      hchild (j, q') i' hne fun heq hi => hpath ⟨congrArg Prod.fst heq, r', ?_⟩
    rw [hp, hi, show q' = q from congrArg Prod.snd heq]

end Link

/-- The trees of the roots in `S` are cut off. -/
lemma node_uproot (S : κ → Prop) [DecidablePred S] (hheight : F'.height = F.height)
    (hroot : ∀ k, F'.root k = if S k then 0 else F.root k)
    (hchild : ∀ k q i, ¬ S k → F.node (k, q) ≠ 0 →
      F'.child (F.node (k, q)) i = F.child (F.node (k, q)) i)
    (p : κ × List ι) : F'.node p = if S p.1 then 0 else F.node p := by
  obtain ⟨k, p⟩ := p
  by_cases hS : S k
  · rw [if_pos hS]
    exact node_of_root_null (by rw [hroot, if_pos hS])
  · rw [if_neg hS]
    exact node_congr_path (by rw [hroot, if_neg hS]) (congrFun hheight k)
      fun q i _ _ _ hne => hchild k q i hS hne

/-- In a forest that owns its nodes exclusively no tree has a node twice. -/
lemma apart {used : Nat → Prop} (h : Exclusive F.node used) (k : κ) : Apart F.child (F.height k) (F.root k) := by
  intro p q hp hq hw hne
  rw [← node_of_le hp, ← node_of_le hq] at hw
  rw [← node_of_le hp] at hne
  exact congrArg Prod.snd (h.inj _ _ hw hne)

lemma below_iff : Below F.child (F.height k) (F.root k) x ↔ x ≠ 0 ∧ ∃ q, F.node (k, q) = x := by
  constructor
  · rintro ⟨hx, p, hp, hw⟩
    exact ⟨hx, p, by rw [node_of_le hp, hw]⟩
  · rintro ⟨hx, q, rfl⟩
    exact ⟨hx, q, length_le_of_node hx, (node_of_le (length_le_of_node hx)).symm⟩

end Forest

end Lib
