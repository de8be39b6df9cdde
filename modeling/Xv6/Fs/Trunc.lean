import Xv6.Fs.Content

/-!
# Truncation

`itrunc` frees the trees of an inode one after the other, and each tree from the leaves up: the nested
loops of the source are `freeTree`. What it leaves behind is described by the set of the blocks it has
freed (`Freed`); nothing outside that set changes but the bit map. That a tree has no block twice is what
keeps `bfree` from meeting a free block.
-/

namespace Xv6.Fs

open Function (update update_self update_of_ne)

open Lib Disk

/-- The panics of `log_write`. -/
def LogFails (e : Stop) : Prop :=
  e = .panic "too big a transaction" ∨ e = .panic "log_write outside of trans"

variable {s : State}

lemma Fails.logFails {k : Nat} {e : Stop} (h : Fails s 0 k e) : LogFails e := by
  cases h with
  | noBlocks _ h => omega
  | tooBig he _ _ => exact .inl he
  | noTrans he _ _ => exact .inr he

/-- The entries of index blocks. -/
def State.child (s : State) (b : Nat) (j : Fin nIndirect) : Nat := (s.disk b).word j

/-- From `s` to `s'` the blocks in `S` were freed. -/
structure Freed (S : Nat → Prop) (s s' : State) : Prop where
  rest : s' = { s with disk := s'.disk, log := s'.log }
  used : ∀ x, x < fsSize → (used s'.disk x = true ↔ used s.disk x = true ∧ ¬ S x)
  keep : ∀ y, y < bmapStart ∨ dataStart ≤ y → ¬ S y → s'.disk y = s.disk y

namespace Freed

variable {S T : Nat → Prop} {s s' s'' : State}

lemma congr (h : Freed S s s') (hST : ∀ x, S x ↔ T x) : Freed T s s' := by
  obtain rfl : S = T := funext fun x => propext (hST x)
  exact h

end Freed

lemma bfree_spec {b : Nat} (hb : b < fsSize) (hu : used s.disk b) :
    wp (bfree b) s (fun _ s' => Freed (· = b) s s') fun e _ => LogFails e := by
  have hbit : (s.disk (bblock b)).bit (b % bpb) := hu
  unfold bfree bread
  simp only [wp_bind, wp_get, wp_pure]
  rw [if_neg (by simp [hbit])]
  refine (logWrite_spec s _ _).mono ?_ fun _ _ h => h.logFails
  rintro - s' rfl
  refine ⟨rfl, fun x _ => ?_, fun y hy _ => markFree_of_ne hb hy⟩
  show used (markFree s.disk b) x ↔ _
  rw [used_markFree]
  simp [and_comm]

/-! ### One tree -/

variable {x y : Nat} {s2 : State}

section Tree

variable {s : State} {l b : Nat}

/-- Where the loop over the entries of index block `b` stands: the subtrees of the entries not in `xs`
are freed. -/
structure Emptying (s : State) (l b : Nat) (xs : List Nat) (s' : State) : Prop where
  nodup : xs.Nodup
  lt : ∀ x ∈ xs, x < nIndirect
  rest : s' = { s with disk := s'.disk, log := s'.log }
  used : ∀ x, x < fsSize → (used s'.disk x = true ↔
    used s.disk x = true ∧ ¬ ∃ j : Fin nIndirect, j.val ∉ xs ∧ Below s.child l (s.child b j) x)
  keep : ∀ y, y < bmapStart ∨ dataStart ≤ y → y ≠ b →
    (¬ ∃ j : Fin nIndirect, j.val ∉ xs ∧ Below s.child l (s.child b j) y) → s'.disk y = s.disk y
  entries : ∀ j : Fin nIndirect, j.val ∈ xs → (s'.disk b).word j = s.child b j

lemma done_cons {xs : List Nat} (hx : x < nIndirect) (hnodup : (x :: xs).Nodup) :
    (∃ j : Fin nIndirect, j.val ∉ xs ∧ Below s.child l (s.child b j) y) ↔
      (∃ j : Fin nIndirect, j.val ∉ x :: xs ∧ Below s.child l (s.child b j) y) ∨
        Below s.child l (s.child b ⟨x, hx⟩) y := by
  constructor
  · rintro ⟨j, hj, h⟩
    by_cases hjx : j.val = x
    · obtain rfl : j = ⟨x, hx⟩ := Fin.ext hjx
      exact .inr h
    · exact .inl ⟨j, by simp [hjx, hj], h⟩
  · rintro (⟨j, hj, h⟩ | h)
    · exact ⟨j, fun hm => hj (.tail _ hm), h⟩
    · exact ⟨⟨x, hx⟩, (List.nodup_cons.mp hnodup).1, h⟩

namespace Emptying

variable {x : Nat} {xs : List Nat} {s1 : State}

lemma sameTree (h : Emptying s l b (x :: xs) s1) (hb : b ≠ 0) (hapart : Apart s.child (l + 1) b)
    (huse : ∀ x, Below s.child (l + 1) b x → dataStart ≤ x ∧ x < fsSize ∧ Fs.used s.disk x)
    (hx : x < nIndirect) (hy : Below s.child l (s.child b ⟨x, hx⟩) y) :
    s1.disk y = s.disk y ∧ Fs.used s1.disk y := by
  obtain ⟨hlo, hlt, hu⟩ := huse y ((below_succ hb).mpr (.inr ⟨_, hy⟩))
  have hother : ¬ ∃ j : Fin nIndirect, j.val ∉ x :: xs ∧ Below s.child l (s.child b j) y := by
    rintro ⟨j, hj, h⟩
    exact hj (by rw [hapart.disjoint hb h hy]; exact (.head _))
  refine ⟨h.keep y (.inr hlo) ?_ hother, (h.used y hlt).mpr ⟨hu, hother⟩⟩
  rintro rfl
  exact hapart.not_below hb hy

/-- An entry that is null has nothing below it. -/
lemma skip (h : Emptying s l b (x :: xs) s1) (hx : x < nIndirect) (h0 : s.child b ⟨x, hx⟩ = 0) :
    Emptying s l b xs s1 := by
  have hnone : ∀ y, ¬ Below s.child l (s.child b ⟨x, hx⟩) y := fun y hy => hy.root_ne h0
  refine ⟨(List.nodup_cons.mp h.nodup).2, fun y hy => h.lt y (.tail _ hy), h.rest,
    fun y hy => ?_, fun y hy hne hS => ?_, fun j hj => h.entries j (.tail _ hj)⟩
  · rw [h.used y hy, done_cons hx h.nodup]
    simp [hnone]
  · refine h.keep y hy hne fun hS' => hS ((done_cons hx h.nodup).mpr (.inl hS'))

/-- The subtree of an entry is freed and the entry zeroed. -/
lemma next (h : Emptying s l b (x :: xs) s1) (hb : b ≠ 0) (hapart : Apart s.child (l + 1) b)
    (hlo : dataStart ≤ b) (hx : x < nIndirect) (h2 : Freed (Below s.child l (s.child b ⟨x, hx⟩)) s1 s2) :
    Emptying s l b xs (s2.setBlock b ((s2.disk b).setWord x 0)) := by
  have hblock : s2.disk b = s1.disk b := h2.keep b (.inr hlo) (hapart.not_below hb)
  refine ⟨(List.nodup_cons.mp h.nodup).2, fun y hy => h.lt y (.tail _ hy), ?_,
    fun y hy => ?_, fun y hy hne hS => ?_, fun j hj => ?_⟩
  · rw [h2.rest, h.rest]
    rfl
  · show Fs.used (update s2.disk b _) y ↔ _
    rw [used_update hy (.inr hlo), h2.used y hy, h.used y hy, done_cons hx h.nodup, not_or, and_assoc]
  · show update s2.disk b _ y = _
    rw [done_cons hx h.nodup, not_or] at hS
    rw [update_of_ne hne, h2.keep y hy hS.2, h.keep y hy hne hS.1]
  · show (update s2.disk b _ b).word j = _
    have hjx : j.val ≠ x := fun hjx => (List.nodup_cons.mp h.nodup).1 (hjx ▸ hj)
    rw [update_self, Bytes.word_setWord_ne _ hjx, hblock]
    exact h.entries j (.tail _ hj)

end Emptying

lemma freeTree_spec :
    ∀ {l b : Nat} {s : State}, b ≠ 0 → Apart s.child l b →
      (∀ x, Below s.child l b x → dataStart ≤ x ∧ x < fsSize ∧ used s.disk x) →
      wp (freeTree l b) s (fun _ s' => Freed (Below s.child l b) s s') fun e _ => LogFails e := by
  intro l
  induction l with
  | zero =>
    intro b s hb _ huse
    obtain ⟨-, hlt, hu⟩ := huse b (below_zero.mpr ⟨hb, rfl⟩)
    refine (bfree_spec hlt hu).imp fun _ s' h => h.congr fun x => ?_
    rw [below_zero]
    constructor
    · rintro rfl
      exact ⟨hb, rfl⟩
    · exact fun h => h.2
  | succ l ih =>
    intro b s hb hapart huse
    obtain ⟨hlo, hlt, hu⟩ := huse b ((below_succ hb).mpr (.inl rfl))
    unfold freeTree
    refine wp.bind (Q := fun _ => Emptying s l b []) ?_ (fun _ s1 h1 => ?_) fun _ _ h => h
    · refine wp.forM (I := Emptying s l b) (fun x xs s1 h1 => ?_) ?_
      · have hx := h1.lt x (.head _)
        have hentry := h1.entries ⟨x, hx⟩ (.head _)
        have htree := fun y => h1.sameTree hb hapart huse hx (y := y)
        have hchild : ∀ y (i : Fin nIndirect), Below s.child l (s.child b ⟨x, hx⟩) y →
            s1.child y i = s.child y i := fun y i hy => by
          unfold State.child
          rw [(htree y hy).1]
        simp only [bread, wp_bind, wp_get, wp_pure]
        rw [show (s1.disk b).word x = s.child b ⟨x, hx⟩ from hentry, wp_ite]
        split
        · rename_i hne
          rw [wp_bind]
          refine (ih hne ((hapart.subtree hb _).congr hchild) fun y hy => ?_).imp ?_
          · have hy := (below_congr hchild).mp hy
            obtain ⟨h1, h2, -⟩ := huse y ((below_succ hb).mpr (.inr ⟨_, hy⟩))
            exact ⟨h1, h2, (htree y hy).2⟩
          · intro _ s2 h2
            exact h1.next hb hapart hlo hx (h2.congr fun y => below_congr hchild)
        · rename_i h0
          exact h1.skip hx (by simpa using h0)
      · refine ⟨List.nodup_range, fun x hx => List.mem_range.mp hx, rfl, fun x _ => ?_,
          fun _ _ _ _ => rfl, fun _ _ => rfl⟩
        simp
    · -- the index block itself
      have hself : ¬ ∃ j : Fin nIndirect, j.val ∉ ([] : List Nat) ∧
          Below s.child l (s.child b j) b := by
        rintro ⟨j, -, h⟩
        exact hapart.not_below hb h
      refine (bfree_spec hlt ((h1.used b hlt).mpr ⟨hu, hself⟩)).imp fun _ s2 h2 => ?_
      refine ⟨by rw [h2.rest, h1.rest], fun x hx => ?_, fun y hy hS => ?_⟩
      · rw [h2.used x hx, h1.used x hx, below_succ hb, not_or]
        simp only [List.not_mem_nil, not_false_eq_true, true_and]
        tauto
      · rw [below_succ hb, not_or] at hS
        rw [h2.keep y hy hS.1, h1.keep y hy hS.1 fun h => hS.2 (h.imp fun _ h => h.2)]

end Tree

/-! ### All trees of an inode -/

section Trunc

variable {i : InodeId} {s : State}

/-- Block `x` is in the tree of entry `k` of the inode in cache entry `i`. -/
def InTree (i : InodeId) (s : State) (k : Fin nAddrs) (x : Nat) : Prop :=
  Below s.child (level k) ((s.inode i).din.addrs k) x

lemma inTree_iff (htype : (s.inode i).din.type ≠ 0) {k : Fin nAddrs} :
    InTree i s k x ↔ x ≠ 0 ∧ ∃ q, (s.volume i).node (((s.inode i).inum, k), q) = x := by
  unfold InTree
  rw [← root_eq htype k]
  exact Forest.below_iff (F := (s.volume i).forest) (k := ((s.inode i).inum, k))

lemma apart_entry (hsound : (s.volume i).Sound) (htype : (s.inode i).din.type ≠ 0)
    (k : Fin nAddrs) : Apart s.child (level k) ((s.inode i).din.addrs k) := by
  rw [← root_eq htype k]
  exact Forest.apart hsound.excl ((s.inode i).inum, k)

lemma inTree_use (hsound : (s.volume i).Sound) (htype : (s.inode i).din.type ≠ 0)
    {k : Fin nAddrs} (h : InTree i s k x) : dataStart ≤ x ∧ x < fsSize ∧ used s.disk x := by
  obtain ⟨hx, q, rfl⟩ := (inTree_iff htype).mp h
  exact hsound.excl.allocated _ hx

lemma inTree_inj (hsound : (s.volume i).Sound) (htype : (s.inode i).din.type ≠ 0)
    {k k' : Fin nAddrs} (h : InTree i s k x) (h' : InTree i s k' x) : k = k' := by
  obtain ⟨hx, q, hq⟩ := (inTree_iff htype).mp h
  obtain ⟨-, q', hq'⟩ := (inTree_iff htype).mp h'
  have := hsound.excl.inj _ _ (hq.trans hq'.symm) (by rw [hq]; exact hx)
  exact congrArg (fun p : Place => p.1.2) this

/-- Where the loop of `itrunc` stands: the trees of the entries not in `ks` are freed. -/
structure Clearing (i : InodeId) (s : State) (ks : List (Fin nAddrs)) (s' : State) : Prop where
  nodup : ks.Nodup
  rest : s' = { s with
    disk := s'.disk, log := s'.log
    inode := Function.update s.inode i { s.inode i with din := { (s.inode i).din with
      addrs := fun k => if k ∈ ks then (s.inode i).din.addrs k else 0 } } }
  used : ∀ x, x < fsSize → (used s'.disk x = true ↔
    used s.disk x = true ∧ ¬ ∃ k, k ∉ ks ∧ InTree i s k x)
  keep : ∀ y, y < bmapStart ∨ dataStart ≤ y → (¬ ∃ k, k ∉ ks ∧ InTree i s k y) →
    s'.disk y = s.disk y

lemma cleared_cons {k : Fin nAddrs} {ks : List (Fin nAddrs)} (hnodup : (k :: ks).Nodup) :
    (∃ k', k' ∉ ks ∧ InTree i s k' y) ↔
      (∃ k', k' ∉ k :: ks ∧ InTree i s k' y) ∨ InTree i s k y := by
  constructor
  · rintro ⟨k', hk', h⟩
    by_cases hk : k' = k
    · exact .inr (hk ▸ h)
    · exact .inl ⟨k', by simp [hk, hk'], h⟩
  · rintro (⟨k', hk', h⟩ | h)
    · exact ⟨k', fun hm => hk' (.tail _ hm), h⟩
    · exact ⟨k, (List.nodup_cons.mp hnodup).1, h⟩

namespace Clearing

variable {k : Fin nAddrs} {ks : List (Fin nAddrs)} {s1 : State}

lemma entry (h : Clearing i s ks s1) : s1.inode i =
    { s.inode i with din := { (s.inode i).din with
      addrs := fun k => if k ∈ ks then (s.inode i).din.addrs k else 0 } } := by
  rw [h.rest]
  exact update_self ..

lemma skip (h : Clearing i s (k :: ks) s1) (h0 : (s.inode i).din.addrs k = 0) : Clearing i s ks s1 := by
  have hnone : ∀ y, ¬ InTree i s k y := fun y hy => hy.root_ne h0
  refine ⟨(List.nodup_cons.mp h.nodup).2, ?_, fun y hy => ?_, fun y hy hS => ?_⟩
  · have haddrs : (fun k' => if k' ∈ k :: ks then (s.inode i).din.addrs k' else 0) =
        fun k' => if k' ∈ ks then (s.inode i).din.addrs k' else 0 := by
      funext k'
      by_cases hk : k' = k
      · subst hk
        simp [h0]
      · simp [hk]
    have := h.rest
    rwa [haddrs] at this
  · rw [h.used y hy, cleared_cons h.nodup]
    simp [hnone]
  · exact h.keep y hy fun hS' => hS ((cleared_cons h.nodup).mpr (.inl hS'))

lemma next (h : Clearing i s (k :: ks) s1) (h2 : Freed (InTree i s k) s1 s2) :
    Clearing i s ks
      (s2.setInode i { s2.inode i with din := (s2.inode i).din.setAddr k 0 }) := by
  have hinode : s2.inode i = s1.inode i := by rw [h2.rest]
  refine ⟨(List.nodup_cons.mp h.nodup).2, ?_, fun y hy => ?_, fun y hy hS => ?_⟩
  · have haddrs : update
          (fun k' => if k' ∈ k :: ks then (s.inode i).din.addrs k' else 0) k 0 =
        fun k' => if k' ∈ ks then (s.inode i).din.addrs k' else 0 := by
      funext k'
      by_cases hk : k' = k
      · subst hk
        simp [(List.nodup_cons.mp h.nodup).1]
      · simp [hk]
    rw [hinode, h.entry]
    simp only [State.setInode, Dinode.setAddr, haddrs]
    rw [h2.rest, h.rest]
    simp only [Function.update_idem]
  · show Fs.used s2.disk y ↔ _
    rw [h2.used y hy, h.used y hy, cleared_cons h.nodup, not_or, and_assoc]
  · rw [cleared_cons h.nodup, not_or] at hS
    exact (h2.keep y hy hS.2).trans (h.keep y hy hS.1)

end Clearing

/-- What `itrunc` has done: the inode has no blocks any more, and the rest is as before. -/
structure Truncated (i : InodeId) (s s' : State) : Prop where
  inode : s'.inode = Function.update s.inode i
    { s.inode i with din := { (s.inode i).din with size := 0, addrs := fun _ => 0 } }
  file : s'.file = s.file
  ofile : s'.ofile = s.ofile
  cwd : s'.cwd = s.cwd
  devsw : s'.devsw = s.devsw
  sound : (s'.volume i).Sound
  node : ∀ p, (s'.volume i).node p =
    if p.1.1 = (s.inode i).inum then 0 else (s.volume i).node p
  byte : ∀ n off, n ≠ (s.inode i).inum → (s'.volume i).byte n off = (s.volume i).byte n off
  inodes : diskInodes s'.disk = Function.update (diskInodes s.disk) (s.inode i).inum
    { (s.inode i).din with size := 0, addrs := fun _ => 0 }

lemma itruncLoop_spec (hsound : (s.volume i).Sound) (htype : (s.inode i).din.type ≠ 0) :
    wp ((List.finRange nAddrs).forM fun k => do
      let addr := ((← get).inode i).din.addrs k
      if addr ≠ 0 then
        freeTree (level k) addr
        modifyDin i fun d => d.setAddr k 0) s
      (fun _ s' => Clearing i s [] s') fun e _ => LogFails e := by
  refine wp.forM (I := Clearing i s) (fun k ks s1 h1 => ?_) ?_
  · simp only [wp_bind, wp_get]
    rw [show (s1.inode i).din.addrs k = (s.inode i).din.addrs k by rw [h1.entry]; simp, wp_ite]
    split
    · rename_i hne
      -- the tree is still as it was
      have hkeep : ∀ y, InTree i s k y → s1.disk y = s.disk y ∧ used s1.disk y := by
        intro y hy
        obtain ⟨hlo, hlt, hu⟩ := inTree_use hsound htype hy
        have hother : ¬ ∃ k', k' ∉ k :: ks ∧ InTree i s k' y := by
          rintro ⟨k', hk', h⟩
          exact hk' (by rw [inTree_inj hsound htype h hy]; exact (.head _))
        exact ⟨h1.keep y (.inr hlo) hother, (h1.used y hlt).mpr ⟨hu, hother⟩⟩
      have hchild : ∀ y (j : Fin nIndirect),
          Below s.child (level k) ((s.inode i).din.addrs k) y → s1.child y j = s.child y j :=
        fun y j hy => by
          unfold State.child
          rw [(hkeep y hy).1]
      rw [wp_bind]
      refine (freeTree_spec hne ((apart_entry hsound htype k).congr hchild) fun y hy => ?_).imp
        fun _ s2 h2 => ?_
      · have hy : InTree i s k y := (below_congr hchild).mp hy
        obtain ⟨hlo, hlt, -⟩ := inTree_use hsound htype hy
        exact ⟨hlo, hlt, (hkeep y hy).2⟩
      · exact h1.next (h2.congr fun y => below_congr hchild)
    · rename_i h0
      exact h1.skip (by simpa using h0)
  · refine ⟨List.nodup_finRange _, ?_, fun x _ => by simp, fun _ _ _ => rfl⟩
    simp only [List.mem_finRange, if_true]
    show s = { s with inode := update s.inode i (s.inode i) }
    rw [Function.update_eq_self]

lemma Truncated.of_clearing (hsound : (s.volume i).Sound) (htype : (s.inode i).din.type ≠ 0)
    (hinum : (s.inode i).inum < nInodes) {s1 s' : State} (h1 : Clearing i s [] s1)
    (hinode : s'.inode = update s.inode i
      { s.inode i with din := { (s.inode i).din with size := 0, addrs := fun _ => 0 } })
    (hfile : s'.file = s.file) (hofile : s'.ofile = s.ofile) (hcwd : s'.cwd = s.cwd)
    (hdevsw : s'.devsw = s.devsw)
    (hdisk : s'.disk = putInode s1.disk (s.inode i).inum
      { (s.inode i).din with size := 0, addrs := fun _ => 0 }) : Truncated i s s' := by
  have hfree : ∀ x, (∃ k, k ∉ ([] : List (Fin nAddrs)) ∧ InTree i s k x) →
      dataStart ≤ x ∧ ∃ p : Place, p.1.1 = (s.inode i).inum ∧ (s.volume i).node p = x := by
    rintro x ⟨k, -, hk⟩
    obtain ⟨-, q, hq⟩ := (inTree_iff htype).mp hk
    exact ⟨(inTree_use hsound htype hk).1, (((s.inode i).inum, k), q), rfl, hq⟩
  have hfree' : ∀ p : Place, p.1.1 = (s.inode i).inum → (s.volume i).node p ≠ 0 →
      ∃ k, k ∉ ([] : List (Fin nAddrs)) ∧ InTree i s k ((s.volume i).node p) := by
    rintro ⟨⟨n, k⟩, q⟩ hn hne
    obtain rfl : n = (s.inode i).inum := hn
    exact ⟨k, by simp, (inTree_iff htype).mpr ⟨hne, q, rfl⟩⟩
  have hinodes : diskInodes s'.disk = update (diskInodes s.disk) (s.inode i).inum
      { (s.inode i).din with size := 0, addrs := fun _ => 0 } := by
    rw [hdisk, diskInodes_putInode _ hinum ⟨Nat.two_pow_pos 32, fun _ => Nat.two_pow_pos 32⟩]
    congr 1
    refine diskInodes_congr fun b _ hb => h1.keep b (.inl hb) fun hS => ?_
    have := (hfree b hS).1
    unfold dataStart at this
    unfold bmapStart at hb
    omega
  have hself : s'.inode i =
      { s.inode i with din := { (s.inode i).din with size := 0, addrs := fun _ => 0 } } := by
    rw [hinode, update_self]
  -- above the inode blocks the disk is the one after the loop
  have habove : ∀ y, bmapStart ≤ y → s'.disk y = s1.disk y := fun y hy => by
    rw [hdisk, putInode_of_ge hinum hy]
  have hkeep : ∀ p : Place, p.1.1 ≠ (s.inode i).inum → (s.volume i).node p ≠ 0 →
      s'.disk ((s.volume i).node p) = s.disk ((s.volume i).node p) := by
    intro p hp hne
    have hlo := (hsound.range hne).1
    rw [habove _ (le_trans (by decide) hlo), h1.keep _ (.inr hlo)]
    intro hS
    obtain ⟨-, p', hp', heq⟩ := hfree _ hS
    exact hp (hsound.excl.inj _ _ heq (by rwa [heq]) ▸ hp')
  have hused : ∀ x < fsSize, (used s'.disk x ↔ used s.disk x ∧
      ¬ ∃ k, k ∉ ([] : List (Fin nAddrs)) ∧ InTree i s k x) := fun x hx => by
    rw [used_congr hx fun y hy _ => habove y hy, h1.used x hx]
  have hdin : (s'.volume i).din = update (s.volume i).din (s.inode i).inum
      { (s.inode i).din with size := 0, addrs := fun _ => 0 } := by
    show update (diskInodes s'.disk) (s'.inode i).inum (s'.inode i).din = _
    rw [hinodes, hself]
    simp only [State.volume, Function.update_idem]
  have hnode : ∀ p, (s'.volume i).node p =
      if p.1.1 = (s.inode i).inum then 0 else (s.volume i).node p := by
    refine Forest.node_uproot (fun k : Nat × Fin nAddrs => k.1 = (s.inode i).inum) rfl ?_ ?_
    · rintro ⟨n, k⟩
      show (if ((s'.volume i).din n).type = 0 then 0 else ((s'.volume i).din n).addrs k) = _
      rw [hdin]
      by_cases hn : n = (s.inode i).inum
      · subst hn
        simp
      · rw [update_of_ne hn, if_neg hn]
        rfl
    · intro k q j hk hne
      show (s'.disk ((s.volume i).node (k, q))).word j = (s.disk ((s.volume i).node (k, q))).word j
      rw [hkeep (k, q) hk hne]
  refine ⟨hinode, hfile, hofile, hcwd, hdevsw, ⟨?_, fun b hb => ?_⟩, hnode, fun n off hn => ?_, hinodes⟩
  · refine hsound.excl.shrink (fun p => p.1.1 = (s.inode i).inum) hnode fun b => ?_
    constructor
    · rintro ⟨hlo, hlt, hu⟩
      obtain ⟨hu, hS⟩ := (hused b hlt).mp hu
      refine ⟨⟨hlo, hlt, hu⟩, ?_⟩
      rintro ⟨p, hp, rfl⟩
      refine hS (hfree' p hp fun h0 => ?_)
      rw [h0] at hlo
      cases hlo
    · rintro ⟨⟨hlo, hlt, hu⟩, hS⟩
      exact ⟨hlo, hlt, (hused b hlt).mpr ⟨hu, fun h => hS (hfree b h).2⟩⟩
  · have hlt : b < fsSize := hb.trans_le (by decide)
    refine (hused b hlt).mpr ⟨hsound.reserved b hb, fun h => ?_⟩
    have := (hfree b h).1
    omega
  · unfold Volume.byte
    rw [hnode, if_neg (show (blockPlace n (off / bSize)).1.1 ≠ (s.inode i).inum from hn)]
    split
    · rfl
    · show (s'.disk _).get _ = (s.disk _).get _
      rw [hkeep (blockPlace n (off / bSize)) hn ‹_›]

lemma itrunc_spec (hsound : (s.volume i).Sound) (htype : (s.inode i).din.type ≠ 0)
    (hinum : (s.inode i).inum < nInodes) :
    wp (itrunc i) s (fun _ s' => Truncated i s s') fun e _ => LogFails e := by
  unfold itrunc
  refine wp.bind (itruncLoop_spec hsound htype) (fun _ s1 h1 => ?_) fun _ _ h => h
  simp only [modifyDin, modifyInode, wp_bind, wp_get, wp_set]
  have hentry := h1.entry
  let d : Dinode := { (s.inode i).din with size := 0, addrs := fun _ => 0 }
  have hnew : ({ s1.inode i with din := { (s1.inode i).din with size := 0 } } : Inode) =
      { s.inode i with din := d } := by
    rw [hentry]
    simp [d]
  rw [hnew]
  refine (iupdate_spec _ i).mono ?_ fun _ _ h => h.logFails
  rintro - s' rfl
  have hself : (s1.setInode i { s.inode i with din := d }).inode i = { s.inode i with din := d } :=
    update_self ..
  refine .of_clearing hsound htype hinum h1 ?_ ?_ ?_ ?_ ?_ ?_
  · show update s1.inode i _ = _
    rw [h1.rest]
    simp only [Function.update_idem]
    rfl
  · show s1.file = _
    rw [h1.rest]
  · show s1.ofile = _
    rw [h1.rest]
  · show s1.cwd = _
    rw [h1.rest]
  · show s1.devsw = _
    rw [h1.rest]
  · show putInode s1.disk _ _ = _
    rw [hself]

end Trunc

end Xv6.Fs
