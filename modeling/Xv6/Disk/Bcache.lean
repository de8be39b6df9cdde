import Xv6.Disk.Bio
import Xv6.Lib.DList
import Xv6.Lib.Run

/-!
# The list of buffers (`bio.c`)

The buffers are on a circular list through `next` and `prev`, with `bcache.head` in front of the most
recently released one. `bget` and the second half of `brelse` run under `bcache.lock`; a process that has
its reference waits for the sleep-lock of the buffer, and one that gives a buffer back lets go of the
sleep-lock first. So a reference is that of the owner of the sleep-lock, of a process that waits for it,
or of one that is about to give it back. Whoever has the sleep-lock may change the flags.

The list of `Disk.State` is the list of elements of these pointers.
-/

namespace Xv6.Disk

open Function (update update_self update_of_ne update_apply update_eq_self_iff)
open Lib

/-- A buffer, or `none` for `bcache.head`. -/
abbrev Node := Option (Fin nBuf)

structure Bcache (Proc : Type) where
  links : DList Node
  dev : Fin nBuf → Nat
  blockno : Fin nBuf → Nat
  valid : Fin nBuf → Bool
  dirty : Fin nBuf → Bool
  refcnt : Fin nBuf → Nat
  /-- who has the sleep-lock -/
  owner : Fin nBuf → Option Proc
  /-- in `bget`, waiting for the sleep-lock of the buffer -/
  waits : Proc → Option (Fin nBuf)
  /-- in `brelse`, after `releasesleep` -/
  gives : Proc → Option (Fin nBuf)
  /-- how often a buffer has been released, and when each buffer was last -/
  clock : Nat
  released : Fin nBuf → Nat

inductive BcacheAct (Proc : Type)
  | bget (p : Proc) (dev blockno : Nat)
  /-- `acquiresleep` comes to its end -/
  | acquire (p : Proc)
  /-- `brelse`, up to `acquire(&bcache.lock)` -/
  | releasesleep (p : Proc) (b : Fin nBuf)
  /-- the rest of `brelse` -/
  | brelse (p : Proc)
  /-- an owner changes the flags -/
  | flags (p : Proc) (b : Fin nBuf) (valid dirty : Bool)

namespace Bcache

variable {Proc : Type} [DecidableEq Proc]

/-- The loop of `binit`. -/
def binitLinks (links : DList Node) : DList Node :=
  (List.finRange nBuf).foldl (fun links b => links.pushFront none (some b)) (links.clear none)

/-- After `binit`: everything else is zero. -/
def binit (links : DList Node) : Bcache Proc where
  links := binitLinks links
  dev _ := 0
  blockno _ := 0
  valid _ := false
  dirty _ := false
  refcnt _ := 0
  owner _ := none
  waits _ := none
  gives _ := none
  clock := 0
  released _ := 0

/-- The test of the first loop of `bget`. -/
def caches (s : Bcache Proc) (dev blockno : Nat) (b : Fin nBuf) : Bool :=
  decide (s.dev b = dev ∧ s.blockno b = blockno)

/-- The test of the second loop. -/
def unused (s : Bcache Proc) (b : Fin nBuf) : Bool := decide (s.refcnt b = 0 ∧ s.dirty b = false)

/-- A loop of `bget`; `bcache.head` is not tested. -/
def search (step : Node → Node) (test : Fin nBuf → Bool) : Option (Option Node) :=
  DList.find step none (fun a => a.any test) (nBuf + 1) (step none)

/-- `bget`, up to `acquiresleep`; nothing if it panics or if a loop does not end. -/
def bget (s : Bcache Proc) (p : Proc) (dev blockno : Nat) : Option (Bcache Proc) :=
  match search s.links.next (s.caches dev blockno) with
  | some (some (some b)) =>
    some { s with
      refcnt := Function.update s.refcnt b (s.refcnt b + 1)
      waits := Function.update s.waits p (some b) }
  | some _ =>
    match search s.links.prev s.unused with
    | some (some (some b)) =>
      some { s with
        dev := Function.update s.dev b dev
        blockno := Function.update s.blockno b blockno
        valid := Function.update s.valid b false
        dirty := Function.update s.dirty b false
        refcnt := Function.update s.refcnt b 1
        waits := Function.update s.waits p (some b) }
    | _ => none
  | none => none

/-- `brelse`, from `acquire(&bcache.lock)` on. -/
def brelse (s : Bcache Proc) (p : Proc) (b : Fin nBuf) : Bcache Proc :=
  let s := { s with
    refcnt := Function.update s.refcnt b (s.refcnt b - 1)
    gives := Function.update s.gives p none
    clock := s.clock + 1
    released := Function.update s.released b (s.clock + 1) }
  if s.refcnt b = 0 then { s with links := (s.links.unlink (some b)).pushFront none (some b) } else s

/-- The process is not in the middle of a call. -/
def idle (s : Bcache Proc) (p : Proc) : Prop := s.waits p = none ∧ s.gives p = none

instance (s : Bcache Proc) (p : Proc) : Decidable (s.idle p) := instDecidableAnd

def step (s : Bcache Proc) : BcacheAct Proc → Option (Bcache Proc)
  | .bget p dev blockno => if s.idle p then s.bget p dev blockno else none
  | .acquire p =>
    match s.waits p with
    | some b =>
      if s.owner b = none then
        some { s with
          owner := Function.update s.owner b (some p)
          waits := Function.update s.waits p none }
      else none
    | none => none
  | .releasesleep p b =>
    if s.idle p ∧ s.owner b = some p then
      some { s with
        owner := Function.update s.owner b none
        gives := Function.update s.gives p (some b) }
    else none
  | .brelse p =>
    match s.gives p with
    | some b => some (s.brelse p b)
    | none => none
  | .flags p b valid dirty =>
    if s.idle p ∧ s.owner b = some p then
      some { s with
        valid := Function.update s.valid b valid
        dirty := Function.update s.dirty b dirty }
    else none

/-! ### The invariant -/

variable [Fintype Proc]

/-- The processes that are in a call with the buffer. -/
def inCall (f : Proc → Option (Fin nBuf)) (b : Fin nBuf) : Nat :=
  (Finset.univ.filter fun p => f p = some b).card

/-- The references to a buffer. -/
def holders (s : Bcache Proc) (b : Fin nBuf) : Nat :=
  ((s.owner b).elim 0 fun _ => 1) + inCall s.waits b + inCall s.gives b

/-- `b` was released before `c`, or neither has ever been. -/
def Before (s : Bcache Proc) (b c : Fin nBuf) : Prop :=
  s.released b < s.released c ∨ s.released b = 0 ∧ s.released c = 0

structure Ok (s : Bcache Proc) (l : List (Fin nBuf)) : Prop where
  links : s.links.Holds none (l.map some)
  all : ∀ b, b ∈ l
  unique : ∀ b c, s.dev b ≠ 0 → s.dev b = s.dev c → s.blockno b = s.blockno c → b = c
  refcnt : ∀ b, s.refcnt b = s.holders b
  order : l.Pairwise fun b c => s.refcnt b = 0 → s.refcnt c = 0 → s.Before c b
  clock : ∀ b, s.released b ≤ s.clock

/-! ### References -/

section References

variable {f : Proc → Option (Fin nBuf)} {p : Proc} {b : Fin nBuf}

lemma inCall_enter (hp : f p = none) (b c : Fin nBuf) :
    inCall (update f p (some b)) c = inCall f c + if c = b then 1 else 0 := by
  unfold inCall
  by_cases heq : c = b
  · subst heq
    have hset : (Finset.univ.filter fun q => update f p (some c) q = some c) =
        insert p (Finset.univ.filter fun q => f q = some c) := by
      ext q
      by_cases hq : q = p
      · simp [hq]
      · simp [hq]
    have hnot : p ∉ Finset.univ.filter fun q => f q = some c := by simp [hp]
    rw [hset, Finset.card_insert_of_notMem hnot, if_pos rfl]
  · rw [if_neg heq, Nat.add_zero]
    congr 1
    ext q
    by_cases hq : q = p
    · simp [hq, hp, Ne.symm heq]
    · simp [hq]

lemma inCall_leave (hp : f p = some b) (c : Fin nBuf) :
    inCall (update f p none) c + (if c = b then 1 else 0) = inCall f c := by
  have hback : update (update f p none) p (some b) = f := by
    rw [Function.update_idem, ← hp, Function.update_eq_self]
  rw [← inCall_enter (update_self p none f) b c, hback]

end References

variable {s t : Bcache Proc} {l : List (Fin nBuf)} {p : Proc} {b : Fin nBuf} {dev blockno : Nat}

/-! ### The list -/

omit [DecidableEq Proc] [Fintype Proc] in
/-- A loop of `bget` along the list. -/
lemma search_eq {step : Node → Node} {test : Fin nBuf → Bool}
    (h : ∀ test', DList.find step none test' (nBuf + 1) (step none) = some ((l.map some).find? test')) :
    search step test = some ((l.find? test).map some) := by
  rw [search, h, List.find?_map]
  rfl

omit [DecidableEq Proc] in
lemma Ok.nodup (h : s.Ok l) : l.Nodup :=
  (List.nodup_cons.mp h.links.nodup).2.of_map some

omit [DecidableEq Proc] in
lemma Ok.length (h : s.Ok l) : (l.map some).length < nBuf + 1 := by
  rw [List.length_map]
  have hlen := h.nodup.length_le_card
  rw [Fintype.card_fin] at hlen
  exact Nat.lt_succ_of_le hlen

omit [DecidableEq Proc] in
lemma Ok.search_next (h : s.Ok l) (test : Fin nBuf → Bool) :
    search s.links.next test = some ((l.find? test).map some) :=
  search_eq fun test' => h.links.find_next test' h.length

omit [DecidableEq Proc] in
lemma Ok.search_prev (h : s.Ok l) (test : Fin nBuf → Bool) :
    search s.links.prev test = some ((l.reverse.find? test).map some) :=
  search_eq fun test' => by rw [List.map_reverse]; exact h.links.find_prev test' h.length

lemma pushFronts_holds {links : DList Node} (h : links.Holds none (l.map some)) {k : List (Fin nBuf)}
    (hk : k.Nodup) (hdisj : ∀ b ∈ k, b ∉ l) :
    (k.foldl (fun links b => links.pushFront none (some b)) links).Holds none ((k.reverse ++ l).map some) := by
  induction k generalizing links l with
  | nil => exact h
  | cons b k ih =>
    obtain ⟨hb, hk⟩ := List.nodup_cons.mp hk
    have hnew : some b ∉ none :: l.map some := by
      simp [hdisj b (List.mem_cons_self ..)]
    rw [List.foldl_cons, List.reverse_cons, List.append_assoc]
    refine ih (l := b :: l) (h.pushFront hnew) hk fun c hc => ?_
    rw [List.mem_cons, not_or]
    exact ⟨ne_of_mem_of_not_mem hc hb, hdisj c (List.mem_cons_of_mem b hc)⟩

omit [DecidableEq Proc] in
lemma binit_ok (links : DList Node) : (binit links : Bcache Proc).Ok (List.finRange nBuf).reverse where
  links := by
    have h := pushFronts_holds (l := []) (DList.Holds.clear links none) (List.nodup_finRange nBuf) nofun
    rwa [List.append_nil] at h
  all b := List.mem_reverse.mpr (List.mem_finRange b)
  unique b c hdev := absurd rfl hdev
  refcnt b := by simp [holders, inCall, binit]
  order := List.pairwise_of_forall fun b c _ _ => .inr ⟨rfl, rfl⟩
  clock b := Nat.le_refl 0

/-! ### Steps -/

/-- The state after a hit on `b`. -/
def hit (s : Bcache Proc) (p : Proc) (b : Fin nBuf) : Bcache Proc :=
  { s with
    refcnt := Function.update s.refcnt b (s.refcnt b + 1)
    waits := Function.update s.waits p (some b) }

/-- The state after `b` has been recycled. -/
def recycle (s : Bcache Proc) (p : Proc) (dev blockno : Nat) (b : Fin nBuf) : Bcache Proc :=
  { s with
    dev := Function.update s.dev b dev
    blockno := Function.update s.blockno b blockno
    valid := Function.update s.valid b false
    dirty := Function.update s.dirty b false
    refcnt := Function.update s.refcnt b 1
    waits := Function.update s.waits p (some b) }

/-- `bget` in terms of the list. -/
lemma Ok.bget_eq (h : s.Ok l) (p : Proc) (dev blockno : Nat) : s.bget p dev blockno =
    match l.find? (s.caches dev blockno) with
    | some b => some (s.hit p b)
    | none => (l.reverse.find? s.unused).map (s.recycle p dev blockno) := by
  rw [bget, h.search_next, h.search_prev]
  cases l.find? (s.caches dev blockno) with
  | some b => rfl
  | none => cases l.reverse.find? s.unused <;> rfl

omit [DecidableEq Proc] in
lemma Ok.victim (h : s.Ok l) (hb : l.reverse.find? s.unused = some b) :
    s.refcnt b = 0 ∧ s.dirty b = false ∧
      ∀ c ≠ b, s.refcnt c = 0 → s.dirty c = false → s.Before b c := by
  obtain ⟨hunused, u, v, hsplit, hskip⟩ := List.find?_eq_some_iff_append.mp hb
  obtain ⟨hzero, hclean⟩ := of_decide_eq_true hunused
  refine ⟨hzero, hclean, fun c hne hc hcc => ?_⟩
  -- the buffers nearer to the end of the list are all in use
  have hsplit' : l = v.reverse ++ b :: u.reverse := by
    rw [← List.reverse_reverse l, hsplit]
    simp
  have horder := h.order
  rw [hsplit', List.pairwise_append] at horder
  have hmem : c ∈ l.reverse := List.mem_reverse.mpr (h.all c)
  rw [hsplit, List.mem_append, List.mem_cons] at hmem
  obtain hu | heq | hv := hmem
  · have hnot := hskip c hu
    rw [unused, decide_eq_true ⟨hc, hcc⟩] at hnot
    cases hnot
  · exact absurd heq hne
  · exact horder.2.2 c (List.mem_reverse.mpr hv) b (.head _) hc hzero

lemma zero_of_raised {f : Fin nBuf → Nat} {b c : Fin nBuf} {n : Nat}
    (h : update f b (n + 1) c = 0) : f c = 0 := by
  rw [update_apply] at h
  split at h
  next => cases h
  next => exact h

namespace Ok

lemma hit (h : s.Ok l) (hp : s.waits p = none) (b : Fin nBuf) : (s.hit p b).Ok l where
  links := h.links
  all := h.all
  unique := h.unique
  refcnt c := by
    simp only [Bcache.hit, holders, inCall_enter hp, update_apply]
    have hc := h.refcnt c
    rw [holders] at hc
    split
    next heq => rw [← heq]; omega
    next => omega
  order := h.order.imp fun hcd hc hd => hcd (zero_of_raised hc) (zero_of_raised hd)
  clock := h.clock

lemma recycle (h : s.Ok l) (hp : s.waits p = none) (hmiss : ∀ c, s.caches dev blockno c = false)
    (hzero : s.refcnt b = 0) : (s.recycle p dev blockno b).Ok l where
  links := h.links
  all := h.all
  unique c d hdev heq hblk := by
    have hother : ∀ e, ¬ (s.dev e = dev ∧ s.blockno e = blockno) := fun e => of_decide_eq_false (hmiss e)
    simp only [Bcache.recycle, update_apply] at hdev heq hblk
    by_cases hc : c = b
    · by_cases hd : d = b
      · rw [hc, hd]
      · rw [if_pos hc, if_neg hd] at heq hblk
        exact absurd ⟨heq.symm, hblk.symm⟩ (hother d)
    · by_cases hd : d = b
      · rw [if_neg hc, if_pos hd] at heq hblk
        exact absurd ⟨heq, hblk⟩ (hother c)
      · rw [if_neg hc, if_neg hd] at heq hblk
        rw [if_neg hc] at hdev
        exact h.unique c d hdev heq hblk
  refcnt c := by
    simp only [Bcache.recycle, holders, inCall_enter hp, update_apply]
    have hc := h.refcnt c
    rw [holders] at hc
    split
    next heq =>
      rw [heq] at hc ⊢
      omega
    next => omega
  order := h.order.imp fun hcd hc hd => hcd (zero_of_raised hc) (zero_of_raised hd)
  clock := h.clock

lemma brelse (h : s.Ok l) (hp : s.gives p = some b) :
    (s.brelse p b).Ok (if s.refcnt b - 1 = 0 then b :: l.erase b else l) := by
  have hrefcnt : ∀ c, update s.refcnt b (s.refcnt b - 1) c =
      ((s.owner c).elim 0 fun _ => 1) + inCall s.waits c + inCall (update s.gives p none) c := by
    intro c
    have hc := h.refcnt c
    have hleave := inCall_leave hp c
    rw [holders] at hc
    rw [update_apply]
    split
    next heq =>
      rw [if_pos heq] at hleave
      rw [← heq]
      omega
    next hne =>
      rw [if_neg hne] at hleave
      omega
  have hclock : ∀ c, update s.released b (s.clock + 1) c ≤ s.clock + 1 := by
    intro c
    rw [update_apply]
    split
    next => exact le_rfl
    next => exact Nat.le_succ_of_le (h.clock c)
  -- of two other buffers, which was released first has not changed
  have hothers : ∀ {c d}, c ≠ b → d ≠ b → (s.refcnt c = 0 → s.refcnt d = 0 → s.Before d c) →
      update s.refcnt b (s.refcnt b - 1) c = 0 →
      update s.refcnt b (s.refcnt b - 1) d = 0 →
      update s.released b (s.clock + 1) d < update s.released b (s.clock + 1) c ∨
        update s.released b (s.clock + 1) d = 0 ∧
          update s.released b (s.clock + 1) c = 0 := by
    intro c d hc hd hbefore
    simp only [update_of_ne hc, update_of_ne hd]
    exact hbefore
  simp only [Bcache.brelse, update_self]
  split
  next hlast =>
    obtain ⟨l₁, l₂, rfl⟩ := List.append_of_mem (h.all b)
    have hnodup := h.nodup
    rw [List.nodup_append, List.nodup_cons] at hnodup
    obtain ⟨-, ⟨hb₂, -⟩, hdisj⟩ := hnodup
    have hb : b ∉ l₁ ++ l₂ := fun hmem => (List.mem_append.mp hmem).elim
      (fun hin => hdisj b hin b (.head _) rfl) hb₂
    have hlinks := h.links
    rw [List.map_append, List.map_cons] at hlinks
    have hout := hlinks.unlink
    rw [← List.map_append] at hout
    have hnew : some b ∉ none :: (l₁ ++ l₂).map some := by
      rw [List.mem_cons, not_or]
      refine ⟨Option.some_ne_none b, fun hmem => ?_⟩
      obtain ⟨c, hc, heq⟩ := List.mem_map.mp hmem
      exact hb (Option.some.inj heq ▸ hc)
    have hb₁ : b ∉ l₁ := fun hin => hb (List.mem_append_left l₂ hin)
    rw [List.erase_append_right _ hb₁, List.erase_cons_head]
    refine ⟨hout.pushFront hnew, fun c => ?_, h.unique, hrefcnt, ?_, hclock⟩
    · have hc := h.all c
      simp only [List.mem_append, List.mem_cons] at hc ⊢
      exact or_left_comm.mp hc
    · refine List.pairwise_cons.mpr ⟨fun c hc _ _ => .inl ?_, ?_⟩
      · -- the clock has gone on
        have hne : c ≠ b := ne_of_mem_of_not_mem hc hb
        simp only [update_self, update_of_ne hne]
        exact Nat.lt_succ_of_le (h.clock c)
      · have hsub : (l₁ ++ l₂).Sublist (l₁ ++ b :: l₂) :=
          List.Sublist.append (List.Sublist.refl l₁) (List.sublist_cons_self b l₂)
        refine (h.order.sublist hsub).imp_of_mem fun hc hd hbefore => ?_
        exact hothers (ne_of_mem_of_not_mem hc hb) (ne_of_mem_of_not_mem hd hb) hbefore
  next hmore =>
    refine ⟨h.links, h.all, h.unique, hrefcnt, h.order.imp fun hbefore hc hd => ?_, hclock⟩
    have hne : ∀ c, update s.refcnt b (s.refcnt b - 1) c = 0 → c ≠ b := by
      rintro c hc rfl
      rw [update_self] at hc
      exact hmore hc
    exact hothers (hne _ hc) (hne _ hd) hbefore hc hd

lemma step (h : s.Ok l) {a : BcacheAct Proc} (ht : s.step a = some t) : ∃ l', t.Ok l' := by
  cases a with
  | bget p dev blockno =>
    rw [Bcache.step] at ht
    split at ht
    next hidle =>
      rw [h.bget_eq] at ht
      split at ht
      next b hb =>
        cases ht
        exact ⟨l, h.hit hidle.1 b⟩
      next hmiss =>
        obtain ⟨b, hb, rfl⟩ := Option.map_eq_some_iff.mp ht
        refine ⟨l, h.recycle hidle.1 (fun c => ?_) (h.victim hb).1⟩
        exact Bool.eq_false_of_not_eq_true (List.find?_eq_none.mp hmiss c (h.all c))
    next => cases ht
  | acquire p =>
    rw [Bcache.step] at ht
    split at ht
    next b hb =>
      split at ht
      next hfree =>
        cases ht
        refine ⟨l, h.links, h.all, h.unique, fun c => ?_, h.order, h.clock⟩
        have hc := h.refcnt c
        have hleave := inCall_leave hb c
        simp only [holders, update_apply] at hc ⊢
        split at hleave
        next heq =>
          rw [heq, hfree, Option.elim_none] at hc
          rw [heq] at hleave
          simp only [heq, if_true, Option.elim_some]
          omega
        next hne =>
          rw [if_neg hne]
          omega
      next => cases ht
    next => cases ht
  | releasesleep p b =>
    rw [Bcache.step] at ht
    split at ht
    next hown =>
      cases ht
      refine ⟨l, h.links, h.all, h.unique, fun c => ?_, h.order, h.clock⟩
      have hc := h.refcnt c
      have henter := inCall_enter hown.1.2 b c
      simp only [holders, update_apply] at hc ⊢
      split at henter
      next heq =>
        rw [heq, hown.2, Option.elim_some] at hc
        rw [heq] at henter
        simp only [heq, if_true, Option.elim_none]
        omega
      next hne =>
        rw [if_neg hne]
        omega
    next => cases ht
  | brelse p =>
    rw [Bcache.step] at ht
    split at ht
    next b hb =>
      cases ht
      exact ⟨_, h.brelse hb⟩
    next => cases ht
  | flags p b valid dirty =>
    rw [Bcache.step] at ht
    split at ht
    next =>
      cases ht
      exact ⟨l, h.links, h.all, h.unique, h.refcnt, h.order, h.clock⟩
    next => cases ht

omit [Fintype Proc] in
lemma brelse_block (s : Bcache Proc) (p : Proc) (b : Fin nBuf) :
    (s.brelse p b).dev = s.dev ∧ (s.brelse p b).blockno = s.blockno := by
  rw [Bcache.brelse]
  split
  next => exact ⟨rfl, rfl⟩
  next => exact ⟨rfl, rfl⟩

/-- A buffer that is in use keeps its block. -/
lemma block (h : s.Ok l) {a : BcacheAct Proc} (ht : s.step a = some t)
    (hb : 0 < s.refcnt b ∨ s.dirty b) : t.dev b = s.dev b ∧ t.blockno b = s.blockno b := by
  cases a with
  | bget p dev blockno =>
    rw [Bcache.step] at ht
    split at ht
    next =>
      rw [h.bget_eq] at ht
      split at ht
      next =>
        cases ht
        exact ⟨rfl, rfl⟩
      next =>
        obtain ⟨c, hc, rfl⟩ := Option.map_eq_some_iff.mp ht
        obtain ⟨hzero, hclean, -⟩ := h.victim hc
        have hne : b ≠ c := by
          rintro rfl
          cases hb with
          | inl hpos => exact hpos.ne' hzero
          | inr hdirty => exact absurd (hclean.symm.trans hdirty) nofun
        exact ⟨update_of_ne hne .., update_of_ne hne ..⟩
    next => cases ht
  | acquire p =>
    rw [Bcache.step] at ht
    split at ht
    next =>
      split at ht
      next =>
        cases ht
        exact ⟨rfl, rfl⟩
      next => cases ht
    next => cases ht
  | releasesleep p c | flags p c valid dirty =>
    rw [Bcache.step] at ht
    split at ht
    next =>
      cases ht
      exact ⟨rfl, rfl⟩
    next => cases ht
  | brelse p =>
    rw [Bcache.step] at ht
    split at ht
    next c _ =>
      cases ht
      obtain ⟨hdev, hblockno⟩ := brelse_block s p c
      exact ⟨congrFun hdev b, congrFun hblockno b⟩
    next => cases ht

lemma miss (h : s.Ok l) (ht : s.step (.bget p dev blockno) = some t)
    (hmiss : ∀ b, ¬ (s.dev b = dev ∧ s.blockno b = blockno)) :
    ∃ b, t = s.recycle p dev blockno b ∧ s.refcnt b = 0 ∧ s.dirty b = false ∧
      ∀ c ≠ b, s.refcnt c = 0 → s.dirty c = false → s.Before b c := by
  have hnone : l.find? (s.caches dev blockno) = none :=
    List.find?_eq_none.mpr fun b _ => by rw [caches, decide_eq_true_iff]; exact hmiss b
  rw [Bcache.step] at ht
  split at ht
  next =>
    rw [h.bget_eq, hnone] at ht
    obtain ⟨b, hb, rfl⟩ := Option.map_eq_some_iff.mp ht
    exact ⟨b, rfl, h.victim hb⟩
  next => cases ht

lemma bget_isSome (h : s.Ok l) (hidle : s.idle p) (hb : s.dev b = dev ∧ s.blockno b = blockno ∨
    s.refcnt b = 0 ∧ s.dirty b = false) : (s.step (.bget p dev blockno)).isSome := by
  rw [Bcache.step, if_pos hidle, h.bget_eq]
  cases hfind : l.find? (s.caches dev blockno) with
  | some c => rfl
  | none =>
    cases hb with
    | inl hcached => exact absurd (decide_eq_true hcached) (List.find?_eq_none.mp hfind b (h.all b))
    | inr hunused =>
      cases hvictim : l.reverse.find? s.unused with
      | some c => rfl
      | none =>
        exact absurd (decide_eq_true hunused)
          (List.find?_eq_none.mp hvictim b (List.mem_reverse.mpr (h.all b)))

end Ok

/-- Whatever is taken, waited for and given back, while nothing panics: `l` is what one meets from
`bcache.head` along `next`, and
* every buffer is there once, and `prev` is the inverse of `next`;
* no block of the root device has two buffers;
* `refcnt` counts the references;
* a buffer that is referenced or dirty keeps its block;
* a miss recycles, of the buffers without references that are not dirty, the one that was released least
  recently (those that never were come first);
* `bget` panics only if there is none, and its loops end. -/
theorem bcache_list (links : DList Node) {as : List (BcacheAct Proc)}
    (hrun : Run step anyStep (binit links) as t) :
    ∃ l : List (Fin nBuf), t.links.Holds none (l.map some) ∧ l.Nodup ∧ (∀ b, b ∈ l) ∧
      (∀ a, t.links.prev (t.links.next a) = a ∧ t.links.next (t.links.prev a) = a) ∧
      (∀ b c, t.dev b = rootDev → t.dev c = rootDev → t.blockno b = t.blockno c → b = c) ∧
      (∀ b, t.refcnt b = t.holders b) ∧
      (∀ a u, t.step a = some u → ∀ b, 0 < t.refcnt b ∨ t.dirty b = true →
        u.dev b = t.dev b ∧ u.blockno b = t.blockno b) ∧
      (∀ p dev blockno u, t.step (.bget p dev blockno) = some u →
        (∀ b, ¬ (t.dev b = dev ∧ t.blockno b = blockno)) →
        ∃ b, u = t.recycle p dev blockno b ∧ t.refcnt b = 0 ∧ t.dirty b = false ∧
          ∀ c, c ≠ b → t.refcnt c = 0 → t.dirty c = false → t.Before b c) ∧
      (∀ p dev blockno, t.idle p → (∃ b, t.dev b = dev ∧ t.blockno b = blockno ∨
        t.refcnt b = 0 ∧ t.dirty b = false) → (t.step (.bget p dev blockno)).isSome) := by
  obtain ⟨l, h⟩ : ∃ l, t.Ok l := hrun.inv (I := fun t => ∃ l, t.Ok l) ⟨_, binit_ok links⟩
    fun _ _ _ ⟨_, hs⟩ _ hstep => hs.step hstep
  have hnodes : ∀ a : Node, a ∈ none :: l.map some := fun a => by
    cases a with
    | none => exact List.mem_cons_self ..
    | some b => exact List.mem_cons_of_mem none (List.mem_map_of_mem (h.all b))
  refine ⟨l, h.links, h.nodup, h.all, fun a => ⟨h.links.prev_next (hnodes a), ?_⟩, ?_, h.refcnt,
    fun a u hu b => h.block hu, fun p dev blockno u => h.miss, ?_⟩
  · refine h.links.reverse.prev_next ?_
    rw [List.mem_cons, List.mem_reverse, ← List.mem_cons]
    exact hnodes a
  · intro b c hb hc hblockno
    exact h.unique b c (by rw [hb]; decide) (hb.trans hc.symm) hblockno
  · intro p dev blockno hidle ⟨b, hb⟩
    exact h.bget_isSome hidle hb

/-! ### The list of `Disk.State` -/

/-- The pointers make the list of a kernel, whose buffers have the same fields. -/
structure Models (s : Bcache Proc) (k : Kernel) : Prop where
  ok : s.Ok k.lru
  dev : ∀ b, (k.buf b).dev = s.dev b
  blockno : ∀ b, (k.buf b).blockno = s.blockno b
  dirty : ∀ b, (k.buf b).dirty = s.dirty b
  refcnt : ∀ b, (k.buf b).refcnt = s.refcnt b

namespace Models

variable {k : Kernel}

omit [DecidableEq Proc] in
lemma cached (h : s.Models k) (dev blockno : Nat) :
    k.lru.find? (s.caches dev blockno) = k.cached dev blockno := by
  unfold Kernel.cached caches
  simp only [h.dev, h.blockno]

omit [DecidableEq Proc] in
lemma victim (h : s.Models k) : k.lru.reverse.find? s.unused = k.victim := by
  unfold Kernel.victim unused
  simp only [h.refcnt, h.dirty]

omit [DecidableEq Proc] in
/-- One buffer is changed on both sides. -/
lemma setBuf (h : s.Models k) {v : Buf} (hok : t.Ok l) (hdev : t.dev = update s.dev b v.dev)
    (hblockno : t.blockno = update s.blockno b v.blockno) (hdirty : t.dirty = update s.dirty b v.dirty)
    (hrefcnt : t.refcnt = update s.refcnt b v.refcnt) : t.Models { k.setBuf b v with lru := l } where
  ok := hok
  dev c := by
    rw [hdev, Kernel.setBuf_buf, update_apply]
    split
    next => rfl
    next => exact h.dev c
  blockno c := by
    rw [hblockno, Kernel.setBuf_buf, update_apply]
    split
    next => rfl
    next => exact h.blockno c
  dirty c := by
    rw [hdirty, Kernel.setBuf_buf, update_apply]
    split
    next => rfl
    next => exact h.dirty c
  refcnt c := by
    rw [hrefcnt, Kernel.setBuf_buf, update_apply]
    split
    next => rfl
    next => exact h.refcnt c

/-- `bget` over the pointers does what `Disk.bget` does over the list. -/
theorem bget_refines (h : s.Models k) (hp : s.waits p = none) (ht : s.bget p dev blockno = some t) :
    (∃ b, k.cached dev blockno = some b ∧
      t.Models (k.setBuf b { k.buf b with refcnt := (k.buf b).refcnt + 1 })) ∨
    k.cached dev blockno = none ∧ ∃ b, k.victim = some b ∧
      t.Models (k.setBuf b { k.buf b with
        dev := dev, blockno := blockno, valid := false, dirty := false, refcnt := 1 }) := by
  rw [h.ok.bget_eq, h.cached] at ht
  split at ht
  next b hb =>
    cases ht
    refine .inl ⟨b, hb, h.setBuf (h.ok.hit hp b) ?_ ?_ ?_ ?_⟩
    · exact (update_eq_self_iff.mpr (h.dev b)).symm
    · exact (update_eq_self_iff.mpr (h.blockno b)).symm
    · exact (update_eq_self_iff.mpr (h.dirty b)).symm
    · simp only [h.refcnt]
      rfl
  next hmiss =>
    obtain ⟨b, hb, rfl⟩ := Option.map_eq_some_iff.mp ht
    refine .inr ⟨hmiss, b, h.victim ▸ hb, h.setBuf (h.ok.recycle hp (fun c => ?_) (h.ok.victim hb).1)
      rfl rfl rfl rfl⟩
    rw [← h.cached] at hmiss
    exact Bool.eq_false_of_not_eq_true (List.find?_eq_none.mp hmiss c (h.ok.all c))

theorem bget_refines_boot : ∃ (t : Bcache Unit) (k : Kernel),
    (binit ⟨fun _ => none, fun _ => none⟩).bget () 1 7 = some t ∧ t.Models k := by
  obtain ⟨t, ht⟩ := Option.isSome_iff_exists.mp (show
    ((binit ⟨fun _ => none, fun _ => none⟩ : Bcache Unit).bget () 1 7).isSome by decide +kernel)
  have hboot links : (binit links : Bcache Unit).Models (.boot fun _ => Bytes.zero) :=
    ⟨binit_ok links, fun _ => rfl, fun _ => rfl, fun _ => rfl, fun _ => rfl⟩
  rcases bget_refines (hboot _) rfl ht with ⟨b, -, h⟩ | ⟨-, b, -, h⟩
  all_goals exact ⟨t, _, ht, h⟩

/-- So does `brelse`. -/
lemma brelse (h : s.Models k) (hp : s.gives p = some b) :
    (s.brelse p b).Models { k.setBuf b { k.buf b with lock := none, refcnt := (k.buf b).refcnt - 1 } with
      lru := if (k.buf b).refcnt - 1 = 0 then b :: k.lru.erase b else k.lru } := by
  have hok := h.ok.brelse hp
  rw [← h.refcnt b] at hok
  obtain ⟨hdev, hblockno⟩ := Ok.brelse_block s p b
  refine h.setBuf hok ?_ ?_ ?_ ?_
  · rw [hdev]
    exact (update_eq_self_iff.mpr (h.dev b)).symm
  · rw [hblockno]
    exact (update_eq_self_iff.mpr (h.blockno b)).symm
  · rw [show (s.brelse p b).dirty = s.dirty by rw [Bcache.brelse]; split <;> rfl]
    exact (update_eq_self_iff.mpr (h.dirty b)).symm
  · rw [show (s.brelse p b).refcnt = update s.refcnt b (s.refcnt b - 1) by
      rw [Bcache.brelse]; split <;> rfl, ← h.refcnt b]

end Models

def buf₀ : Fin nBuf := ⟨0, by decide⟩

def buf₁ : Fin nBuf := ⟨1, by decide⟩

/-- Block 7 is read and given back, and then block 8 is asked for: it gets another buffer. -/
def twoBlocks : List (BcacheAct Unit) :=
  [.bget () 1 7, .acquire (), .flags () buf₀ true false, .releasesleep () buf₀, .brelse (),
   .bget () 1 8, .acquire ()]

theorem bcache_list_twoBlocks : ∃ t : Bcache Unit,
    Run step anyStep (binit ⟨fun _ => none, fun _ => none⟩) twoBlocks t ∧
      t.blockno buf₀ = 7 ∧ t.owner buf₁ = some () ∧ t.blockno buf₁ = 8 ∧
      ∀ b, t.refcnt b = t.holders b := by
  obtain ⟨t, hrun, h₀, hown, h₁⟩ := run_of_check step anyStep
    (binit ⟨fun _ => none, fun _ => none⟩ : Bcache Unit) twoBlocks
    (fun t => t.blockno buf₀ = 7 ∧ t.owner buf₁ = some () ∧ t.blockno buf₁ = 8) (by decide +kernel)
  obtain ⟨l, -, -, -, -, -, hrefcnt, -⟩ := bcache_list _ hrun
  exact ⟨t, hrun, h₀, hown, h₁, hrefcnt⟩

end Bcache

end Xv6.Disk
