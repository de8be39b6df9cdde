import Xv6.Fs.LinkCounts

/-!
# Names and paths

What a path means: it is cut at its slashes into elements of at most `DIRSIZ` bytes (`elements`), and the
elements are looked up one after the other (`lookup`, `walk`). `namex` computes just that as long as
nothing is freed on the way, which is so where every allocated inode without links is held by an open
file or a working directory.

Against this meaning, `create` adds the name that the path ends in and `unlink` removes it, and both
leave every other name as it is.
-/

namespace Xv6.Fs

open Option (bind_some map_some)
open Lib Disk

/-! ### The elements of a path -/

/-- The elements of a path: what stands between slashes, cut to `DIRSIZ` bytes. -/
def elements (path : List UInt8) : List (List UInt8) :=
  ((path.splitOn slash).filter (· ≠ [])).map (·.take dirSiz)

lemma elements_slash (path : List UInt8) : elements (slash :: path) = elements path := by
  unfold elements List.splitOn
  rw [List.splitOnP_cons_eq_if_modifyHead, if_pos (beq_self_eq_true _)]
  rfl

lemma elements_dropSlashes (path : List UInt8) : elements (path.dropWhile (· = slash)) = elements path := by
  induction path with
  | nil => rfl
  | cons c path ih =>
    rw [List.dropWhile_cons]
    split
    · rename_i hc
      rw [ih, of_decide_eq_true hc, elements_slash]
    · rfl

lemma elements_append {w : List UInt8} (hw : w ≠ []) (hne : ∀ c ∈ w, c ≠ slash) (path : List UInt8)
    (hpath : path.head? ≠ none → path.head? = some slash) :
    elements (w ++ path) = w.take dirSiz :: elements path := by
  have hall : ∀ c ∈ w, (c == slash) = false := fun c hc => beq_eq_false_iff_ne.mpr (hne c hc)
  cases path with
  | nil =>
    unfold elements List.splitOn
    rw [List.append_nil, List.splitOnP_eq_singleton hall]
    simp [hw]
  | cons c path =>
    obtain rfl : c = slash := by simpa using hpath
    rw [elements_slash]
    unfold elements List.splitOn
    rw [List.splitOnP_append_cons_of_forall_mem hall _ (beq_self_eq_true _)]
    simp [hw]

variable {name path rest : List UInt8}

lemma elements_of_skipelem (h : skipelem path = some (rest, name)) : elements path = name :: elements rest := by
  unfold skipelem at h
  dsimp only at h
  split at h
  · cases h
  rename_i hne
  rw [Option.some.injEq, Prod.mk.injEq] at h
  obtain ⟨rfl, rfl⟩ := h
  rw [elements_dropSlashes, ← elements_dropSlashes path]
  generalize hq : path.dropWhile (· = slash) = q at hne
  have hsplit : q.takeWhile (· ≠ slash) ++ q.dropWhile (· ≠ slash) = q := List.takeWhile_append_dropWhile
  have hword : q.takeWhile (· ≠ slash) ≠ [] := by
    cases q with
    | nil => exact absurd rfl hne
    | cons c q =>
      have hc : c ≠ slash := fun heq => by
        have := List.head?_dropWhile_not (fun c => decide (c = slash)) path
        rw [hq] at this
        simp [heq] at this
      simp [hc]
  conv_lhs => rw [← hsplit]
  refine elements_append hword (fun c hc => ?_) _ fun hhead => ?_
  · simpa using List.mem_takeWhile_imp hc
  · have := List.head?_dropWhile_not (fun c => decide (c ≠ slash)) q
    cases hh : (q.dropWhile (· ≠ slash)).head? with
    | none => exact absurd hh hhead
    | some c =>
      rw [hh] at this
      simpa using this

lemma skipelem_eq_none : skipelem path = none ↔ elements path = [] := by
  constructor
  · intro h
    unfold skipelem at h
    dsimp only at h
    split at h
    · rename_i hnil
      rw [← elements_dropSlashes, hnil]
      rfl
    · cases h
  · intro h
    cases hskip : skipelem path with
    | none => rfl
    | some x =>
      obtain ⟨rest, name⟩ := x
      rw [elements_of_skipelem hskip] at h
      cases h

lemma rest_eq_nil (h : skipelem path = some (rest, name)) : rest = [] ↔ elements rest = [] := by
  constructor
  · intro hrest
    rw [hrest]
    rfl
  · intro hrest
    have hnone := skipelem_eq_none.mpr hrest
    unfold skipelem at h hnone
    dsimp only at h hnone
    split at h
    · cases h
    rw [Option.some.injEq, Prod.mk.injEq] at h
    split at hnone
    · rename_i hnil
      rw [← h.1, List.dropWhile_idempotent] at hnil
      rw [← h.1]
      exact hnil
    · cases hnone

lemma namexLoop_congr (parent : Bool) {rounds : Nat} : ∀ {rounds' : Nat} {ip : InodeId}
    {path path' : List UInt8}, path.length < rounds → path'.length < rounds' →
    elements path = elements path' → namexLoop parent rounds ip path = namexLoop parent rounds' ip path' := by
  induction rounds with
  | zero => exact fun hlen => absurd hlen (Nat.not_lt_zero _)
  | succ rounds ih =>
    intro rounds' ip path path' hlen hlen' heq
    cases rounds' with
    | zero => exact absurd hlen' (Nat.not_lt_zero _)
    | succ rounds' =>
      unfold namexLoop
      cases hskip : skipelem path with
      | none =>
        have hskip' : skipelem path' = none := by
          rw [skipelem_eq_none, ← heq, ← skipelem_eq_none, hskip]
        rw [hskip']
      | some x =>
        obtain ⟨rest, name⟩ := x
        cases hskip' : skipelem path' with
        | none =>
          rw [skipelem_eq_none, ← heq, elements_of_skipelem hskip] at hskip'
          cases hskip'
        | some y =>
          obtain ⟨rest', name'⟩ := y
          rw [elements_of_skipelem hskip, elements_of_skipelem hskip', List.cons.injEq] at heq
          obtain ⟨rfl, heq⟩ := heq
          have hl := skipelem_length hskip
          have hl' := skipelem_length hskip'
          have hnil : (rest = []) = (rest' = []) := by
            rw [rest_eq_nil hskip, rest_eq_nil hskip', heq]
          have hrec : ∀ next, namexLoop parent rounds next rest = namexLoop parent rounds' next rest' :=
            fun next => ih (by omega) (by omega) heq
          simp only [hnil, hrec]

/-- Repeated and trailing slashes do not matter, nor what is behind the first `DIRSIZ` bytes of an
element. -/
lemma namex_congr (p : ProcId) {path' : List UInt8} (parent : Bool)
    (hhead : path.head? = some slash ↔ path'.head? = some slash) (heq : elements path = elements path') :
    namex p path parent = namex p path' parent := by
  have hloop : ∀ ip, namexLoop parent (path.length + 1) ip path =
      namexLoop parent (path'.length + 1) ip path' := fun ip =>
    namexLoop_congr parent (Nat.lt_succ_self _) (Nat.lt_succ_self _) heq
  unfold namex
  simp only [hhead, hloop]

/-! ### What a path means -/

variable {type : Int16} {v'' : Volume} {C : Multiset (InodeId × Nat)}

namespace Volume

variable {v v' : Volume} {d n k x : Nat} {name e : List UInt8} {es : List (List UInt8)}

/-- The inode that the directory `d` has under the name. -/
def lookup (v : Volume) (d : Nat) (name : List UInt8) : Option Nat :=
  ((List.range (v.slots d)).find? fun k =>
    decide ((v.dirent d k).inum ≠ 0) && namecmp name (v.dirent d k).name).map fun k => (v.dirent d k).inum

/-- Look up one element after the other. -/
def walk (v : Volume) : Nat → List (List UInt8) → Option Nat
  | d, [] => some d
  | d, e :: es => if (v.din d).type = tDir then (v.lookup d e).bind fun n => walk v n es else none

lemma Found.lookup (h : v.Found d name k n) : v.lookup d name = some n := by
  have hfind : ((List.range (v.slots d)).find? fun k =>
      decide ((v.dirent d k).inum ≠ 0) && namecmp name (v.dirent d k).name) = some k := by
    rw [List.find?_range_eq_some]
    refine ⟨?_, List.mem_range.mpr h.lt, fun j hj => ?_⟩
    · rw [h.inum, h.same]
      simp [h.ne]
    · by_cases h0 : (v.dirent d j).inum = 0
      · simp [h0]
      · simp [h.first j hj h0]
  rw [Volume.lookup, hfind, map_some, h.inum]

lemma NotFound.lookup (h : v.NotFound d name) : v.lookup d name = none := by
  unfold Volume.lookup
  rw [Option.map_eq_none_iff, List.find?_eq_none]
  intro k hk
  by_cases h0 : (v.dirent d k).inum = 0
  · simp [h0]
  · simp [h k (List.mem_range.mp hk) h0]

lemma found_or_notFound (v : Volume) (d : Nat) (name : List UInt8) :
    (∃ k n, v.Found d name k n) ∨ v.NotFound d name := by
  cases hfind : (List.range (v.slots d)).find? fun k =>
      decide ((v.dirent d k).inum ≠ 0) && namecmp name (v.dirent d k).name with
  | none =>
    refine .inr fun k hk hne => ?_
    have := List.find?_eq_none.mp hfind k (List.mem_range.mpr hk)
    simpa [hne] using this
  | some k =>
    obtain ⟨hk, hmem, hfirst⟩ := List.find?_range_eq_some.mp hfind
    simp only [Bool.and_eq_true, decide_eq_true_eq] at hk
    refine .inl ⟨k, _, List.mem_range.mp hmem, rfl, hk.1, hk.2, fun j hj hne => ?_⟩
    simpa [hne] using hfirst j hj

lemma walk_append (v : Volume) (x : Nat) (es es' : List (List UInt8)) :
    v.walk x (es ++ es') = (v.walk x es).bind fun d => v.walk d es' := by
  induction es generalizing x with
  | nil => rfl
  | cons e es ih =>
    rw [List.cons_append, walk, walk]
    split
    · cases v.lookup x e with
      | none => rfl
      | some n => exact ih n
    · rfl

lemma walk_cons_of_found (hd : (v.din d).type = tDir) (hf : v.Found d e k n) :
    v.walk d (e :: es) = v.walk n es := by
  rw [walk, if_pos hd, hf.lookup, bind_some]

lemma Stuck.walk (h : v.Stuck false d path) : v.walk d (elements path) = none := by
  unfold Stuck at h
  cases hskip : skipelem path with
  | none =>
    rw [hskip] at h
    cases h
  | some y =>
    obtain ⟨rest, name⟩ := y
    rw [hskip] at h
    rw [elements_of_skipelem hskip, Volume.walk]
    split
    · cases h with
      | inl hdir => exact absurd ‹_› hdir
      | inr hnone => rw [hnone.2.lookup, Option.bind_none]
    · rfl

/-! ### A name is made -/

/-- Inode `n` has been entered into directory `d`, as entry `k` and under a new name. -/
structure Enters (v : Volume) (d n k : Nat) (name : List UInt8) (v' : Volume) : Prop where
  ne : n ≠ 0
  lt : n < nInodes
  free : (v.din n).type = 0
  new : v.NotFound d name
  type : ∀ x, x ≠ n → (v'.din x).type = (v.din x).type
  nlink : ∀ x, x ≠ n → (v'.din x).nlink = (v.din x).nlink ∨ (v'.din x).nlink = (v.din x).nlink + 1
  self_nlink : (v'.din n).nlink = 1
  slots : ∀ x, x ≠ n → v.slots x ≤ v'.slots x
  here : k < v'.slots d ∧ v'.dirent d k = .ofBytes (Dirent.bytes ⟨n, name⟩)
  unused : k < v.slots d → (v.dirent d k).inum = 0
  other : ∀ x j, x ≠ n → j < v'.slots x → ¬ (x = d ∧ j = k) →
    j < v.slots x ∧ v'.dirent x j = v.dirent x j

lemma FreeSlot.unused (h : v.FreeSlot d k) (hk : k < v.slots d) : (v.dirent d k).inum = 0 := by
  cases h with
  | inl h => exact h.2
  | inr h => omega

lemma NewDir.enters (h : v.NewDir d n k name v') : v.Enters d n k name v' := by
  refine ⟨h.ne, h.lt, h.free, h.new, h.type, fun x hx => ?_, h.self_nlink, h.slots, h.here,
    h.slot.unused, h.other⟩
  rw [h.nlink x hx]
  split
  · exact .inr (by rw [‹x = d›])
  · exact .inl rfl

lemma Creates.enters (h : v.Creates d n name type v') (hd : (v.din d).type = tDir) :
    ∃ k, v.Enters d n k name v' := by
  by_cases hdir : type = tDir
  · subst hdir
    obtain ⟨k, hnew⟩ := h.newDir hd
    exact ⟨k, hnew.enters⟩
  · cases h with
    | dir heq => exact absurd heq hdir
    | @node k _ _ v₁ v₂ _ alloc link new slot entry =>
      have hset := alloc.sets link
      have hnd : n ≠ d := fun heq => by
        rw [← heq, alloc.free] at hd
        cases hd
      have hslots : ∀ x ≠ n, v₂.slots x = v.slots x := fun x hx =>
        slots_congr (by rw [hset.din_of_ne hx])
      obtain ⟨hnew, hslot, hgrow, hhere, hother⟩ :=
        entry.enters hnd (fun x j _ => hset.dirent x j) hslots new slot
      refine ⟨k, alloc.ne, alloc.lt, alloc.free, hnew, fun x hx => ?_, fun x hx => .inl ?_, ?_, hgrow, hhere,
        hslot.unused, hother⟩
      · rw [entry.type_eq, hset.din_of_ne hx]
      · rw [entry.nlink_eq, hset.din_of_ne hx]
      · rw [entry.nlink_eq, hset.din_self]

namespace Enters

variable (h : v.Enters d n k name v')
include h

lemma lookup_here (hd : d ≠ n) : v'.lookup d name = some n := by
  refine Found.lookup (k := k) ⟨h.here.1, ?_, h.ne, ?_, fun j hj hne => ?_⟩
  · rw [h.here.2, inum_ofBytes_bytes _ h.lt]
  · rw [h.here.2, namecmp_congr (cstr_name_ofBytes n name)]
    exact decide_eq_true rfl
  · obtain ⟨hlt, hsame⟩ := h.other d j hd (hj.trans h.here.1) fun heq => by omega
    rw [hsame] at hne ⊢
    exact h.new j hlt hne

lemma lookup_other (hx : x ≠ n) (hne : ¬ (x = d ∧ namecmp name e)) : v'.lookup x e = v.lookup x e := by
  -- where the new entry is looked at, its name is another one
  have hnew : x = d → namecmp e (v'.dirent d k).name = false := fun hxd => by
    rw [h.here.2, namecmp_congr (cstr_name_ofBytes n name), namecmp_comm]
    simpa [hxd] using hne
  cases v.found_or_notFound x e with
  | inl hf =>
    obtain ⟨j, m, hf⟩ := hf
    have hlt := hf.lt.trans_le (h.slots x hx)
    have hjk : ¬ (x = d ∧ j = k) := fun heq => by
      have hinum := hf.inum
      have hlt := hf.lt
      rw [heq.1, heq.2] at hinum hlt
      exact hf.ne (hinum.symm.trans (h.unused hlt))
    have hsame := (h.other x j hx hlt hjk).2
    have hf' : v'.Found x e j m := by
      refine ⟨hlt, hsame ▸ hf.inum, hf.ne, hsame ▸ hf.same, fun i hi hi0 => ?_⟩
      by_cases hik : x = d ∧ i = k
      · rw [hik.1, hik.2]
        exact hnew hik.1
      · have hi' := (h.other x i hx (by omega) hik).2
        rw [hi'] at hi0 ⊢
        exact hf.first i hi hi0
    rw [hf.lookup, hf'.lookup]
  | inr hnone =>
    rw [hnone.lookup]
    refine NotFound.lookup fun j hj hj0 => ?_
    by_cases hjk : x = d ∧ j = k
    · rw [hjk.1, hjk.2]
      exact hnew hjk.1
    · obtain ⟨hlt, hsame⟩ := h.other x j hx hj hjk
      rw [hsame] at hj0 ⊢
      exact hnone j hlt hj0

lemma walk_of_walk {y : Nat} (hw : v.walk x es = some y) : v'.walk x es = some y := by
  induction es generalizing x with
  | nil => exact hw
  | cons e es ih =>
    rw [Volume.walk] at hw ⊢
    split at hw
    · rename_i hdir
      have hx : x ≠ n := fun heq => by
        rw [heq, h.free] at hdir
        cases hdir
      -- a name that is found is not the new one
      have hne : ¬ (x = d ∧ namecmp name e) := fun heq => by
        obtain ⟨rfl, hsame⟩ := heq
        have hnew : v.NotFound x e := fun j hj hj0 => by
          rw [namecmp_comm, ← namecmp_congr (of_decide_eq_true hsame), namecmp_comm]
          exact h.new j hj hj0
        rw [hnew.lookup] at hw
        cases hw
      rw [h.type x hx, if_pos hdir, h.lookup_other hx hne]
      cases hl : v.lookup x e with
      | none =>
        rw [hl] at hw
        cases hw
      | some m =>
        rw [hl] at hw
        exact ih hw
    · cases hw

end Enters

/-! ### A name is removed -/

/-- The directories have lost one name. -/
structure Lost (v : Volume) (d : Nat) (name : List UInt8) (v' : Volume) : Prop where
  dir : ∀ x, (v'.din x).type = tDir → (v.din x).type = tDir
  lookup : ∀ x e, (v'.din x).type = tDir →
    v'.lookup x e = if x = d ∧ namecmp name e = true then none else v.lookup x e

lemma lookup_congr (hslots : v'.slots d = v.slots d) (hdirent : ∀ k, v'.dirent d k = v.dirent d k)
    (name : List UInt8) : v'.lookup d name = v.lookup d name := by
  unfold lookup
  simp only [hslots, hdirent]

lemma Lost.of_dirs (h : v.Lost d name v') (hdir : ∀ x, (v''.din x).type = tDir → (v'.din x).type = tDir)
    (hslots : ∀ x, (v''.din x).type = tDir → v''.slots x = v'.slots x)
    (hdirent : ∀ x k, (v''.din x).type = tDir → v''.dirent x k = v'.dirent x k) : v.Lost d name v'' := by
  refine ⟨fun x hx => h.dir x (hdir x hx), fun x e hx => ?_⟩
  rw [lookup_congr (hslots x hx) (fun k => hdirent x k hx) e]
  exact h.lookup x e (hdir x hx)

lemma freeClosed_lost : FreeClosed (v.Lost d name) := fun _ _ _ h hf =>
  h.of_dirs hf.sameDirs.dir hf.sameDirs.slots hf.sameDirs.dirent

/-- The names in a directory are different. -/
def Distinct (v : Volume) : Prop :=
  ∀ d, (v.din d).type = tDir → ∀ j k, j < v.slots d → k < v.slots d → (v.dirent d j).inum ≠ 0 →
    (v.dirent d k).inum ≠ 0 → namecmp (v.dirent d j).name (v.dirent d k).name = true → j = k

lemma Lost.of_sets {c : Int16} (h : v.Lost d name v')
    (hs : v'.Sets n { v'.din n with nlink := c } v'') : v.Lost d name v'' := by
  refine h.of_dirs (fun x hx => ?_) (fun x _ => hs.slots rfl x) fun x k _ => hs.dirent x k
  by_cases hxn : x = n
  · rw [hxn, hs.din_self] at hx
    rw [hxn]
    exact hx
  · rwa [hs.din_of_ne hxn] at hx

lemma Found.lost (hf : v.Found d name k n) (hd : (v.din d).type = tDir) (hdistinct : v.Distinct)
    (hw : v.Writes d (direntSize * k) (List.replicate direntSize 0) v') : v.Lost d name v' := by
  have hslots : ∀ x, v'.slots x = v.slots x := fun x => by
    by_cases hx : x = d
    · have := hw.slots_entry (by simp)
      have := hf.lt
      rw [hx]
      omega
    · exact hw.slots_of_ne hx
  have hother : ∀ x j, j < v.slots x → ¬ (x = d ∧ j = k) → v'.dirent x j = v.dirent x j := by
    intro x j hj hne
    by_cases hx : x = d
    · subst hx
      rw [hw.dirent_entry (by simp) (by rwa [hslots]), if_neg fun heq => hne ⟨rfl, heq⟩]
    · exact hw.dirent_of_ne hx j
  have hgone : (v'.dirent d k).inum = 0 := by
    rw [hw.dirent_entry (by simp) (by rw [hslots]; exact hf.lt), if_pos rfl, dirent_zero]
  refine ⟨fun x hx => hw.type_eq x ▸ hx, fun x e hx => ?_⟩
  rw [hw.type_eq] at hx
  by_cases hne : x = d ∧ namecmp name e = true
  · rw [if_pos hne]
    obtain ⟨rfl, hsame⟩ := hne
    refine NotFound.lookup fun j hj hj0 => ?_
    rw [hslots] at hj
    by_cases hjk : j = k
    · rw [hjk, hgone] at hj0
      exact absurd rfl hj0
    · rw [hother x j hj fun heq => hjk heq.2] at hj0 ⊢
      -- it would be a second entry with the name
      by_contra hcmp
      rw [Bool.not_eq_false] at hcmp
      refine hjk (hdistinct x hd j k hj hf.lt hj0 (hf.inum ▸ hf.ne) ?_)
      have h1 := of_decide_eq_true hcmp
      have h2 := of_decide_eq_true hsame
      have h3 := of_decide_eq_true hf.same
      exact decide_eq_true (h1.symm.trans (h2.symm.trans h3))
  · rw [if_neg hne]
    cases v.found_or_notFound x e with
    | inl hfe =>
      obtain ⟨j, m, hfe⟩ := hfe
      have hjk : ¬ (x = d ∧ j = k) := fun heq => by
        have h1 := of_decide_eq_true hfe.same
        have h2 := of_decide_eq_true hf.same
        rw [heq.1, heq.2] at h1
        exact hne ⟨heq.1, decide_eq_true (h2.trans h1.symm)⟩
      have hsame := hother x j hfe.lt hjk
      have hfe' : v'.Found x e j m := by
        refine ⟨by rw [hslots]; exact hfe.lt, hsame ▸ hfe.inum, hfe.ne, hsame ▸ hfe.same,
          fun i hi hi0 => ?_⟩
        have hik : ¬ (x = d ∧ i = k) := fun heq => by
          rw [heq.1, heq.2, hgone] at hi0
          exact absurd rfl hi0
        have hlt := hfe.lt
        rw [hother x i (by omega) hik] at hi0 ⊢
        exact hfe.first i hi hi0
      rw [hfe.lookup, hfe'.lookup]
    | inr hnone =>
      rw [hnone.lookup]
      refine NotFound.lookup fun j hj hj0 => ?_
      rw [hslots] at hj
      have hjk : ¬ (x = d ∧ j = k) := fun heq => by
        rw [heq.1, heq.2, hgone] at hj0
        exact absurd rfl hj0
      rw [hother x j hj hjk] at hj0 ⊢
      exact hnone j hj hj0

lemma Erases.lost {isDir : Bool} (he : v.Erases d k isDir v') (hf : v.Found d name k n)
    (hd : (v.din d).type = tDir) (hdistinct : v.Distinct) : v.Lost d name v' := by
  cases he with
  | file entry => exact hf.lost hd hdistinct entry
  | dir entry uncount => exact (hf.lost hd hdistinct entry).of_sets uncount

/-- Every allocated inode without links is among those that are held. -/
def Held (C : Multiset (InodeId × Nat)) (v : Volume) : Prop :=
  ∀ n, (v.din n).type ≠ 0 → (v.din n).nlink = 0 → ∃ x ∈ C, x.2 = n

lemma Held.not_frees (h : v.Held C) (hf : v.Frees n v') (hn : ∀ x ∈ C, x.2 ≠ n) : False := by
  obtain ⟨x, hx, heq⟩ := h n hf.type hf.nlink
  exact hn x hx heq

lemma Held.walk {R : Nat → List UInt8 → Prop} (h : v.Held C)
    (hentry : ∀ {d path rest name k n}, R d path → (v.din d).type = tDir →
      skipelem path = some (rest, name) → v.Found d name k n → R n rest) :
    Walk C (· = v) fun _ d path => R d path := by
  refine ⟨fun n v₁ v₂ hv hf hn => ?_, fun _ _ _ _ _ hR _ _ => hR, fun hv hR hdir hskip hfound => ?_⟩
  · subst hv
    exact (h.not_frees hf hn).elim
  · subst hv
    exact hentry hR hdir hskip hfound

lemma Enters.held (h : v.Enters d n k name v') (hheld : v.Held C)
    (hnonneg : ∀ x, (v.din x).type ≠ 0 → 0 ≤ (v.din x).nlink) : v'.Held C := by
  intro x hx h0
  have hxn : x ≠ n := fun heq => by
    rw [heq, h.self_nlink] at h0
    exact absurd h0 (by decide)
  rw [h.type x hxn] at hx
  cases h.nlink x hxn with
  | inl heq => exact hheld x hx (heq ▸ h0)
  | inr heq =>
    have hpos : 0 ≤ (v.din x).nlink.toInt := Int16.le_iff_toInt_le.mp (hnonneg x hx)
    have hneg : (v.din x).nlink = -1 := by
      have hsub : (v.din x).nlink + 1 - 1 = 0 - 1 := by rw [← heq, h0]
      simpa using hsub
    rw [hneg] at hpos
    cases hpos

end Volume

/-! ### The functions -/

namespace State

/-- The inode at which the path starts. -/
def start (s : State) (p : ProcId) (path : List UInt8) : Option Nat :=
  if path.head? = some slash then some rootIno else (s.cwd p).map fun i => (s.inode i).inum

/-- The path is for the name in directory `d`. -/
def Denotes (s : State) (p : ProcId) (path : List UInt8) (d : Nat) (name : List UInt8) : Prop :=
  ∃ x es e, s.start p path = some x ∧ elements path = es ++ [e] ∧ s.diskVolume.walk x es = some d ∧
    namecmp e name = true

/-- A consistent state between system calls, or in a transaction: the cache agrees with a sound disk
without holes, the names of a directory are different, and an allocated inode without links is held by an
open file or a working directory. -/
structure Consistent (s : State) : Prop where
  atRest : s.AtRest fun _ => True
  distinct : s.diskVolume.Distinct
  nonneg : ∀ n, (s.diskVolume.din n).type ≠ 0 → 0 ≤ (s.diskVolume.din n).nlink
  held : s.diskVolume.Held s.refs

/-- Directories that were there before have the names that they had, but for that of the path. -/
def SameNames (s : State) (p : ProcId) (path : List UInt8) (v : Volume) : Prop :=
  ∀ d name, (s.diskVolume.din d).type = tDir → (v.din d).type = tDir → ¬ s.Denotes p path d name →
    v.lookup d name = s.diskVolume.lookup d name

/-- From `y` the rest of the path leads to where the path as a whole leads. -/
def Onward (s : State) (p : ProcId) (path : List UInt8) (y : Nat) (rest : List UInt8) : Prop :=
  ∀ es e, elements rest = es ++ [e] → ∃ x es₀, s.start p path = some x ∧ elements path = es₀ ++ [e] ∧
    s.diskVolume.walk x es₀ = s.diskVolume.walk y es

end State

variable {d x : Nat}

section Naming

variable {P : Volume → Prop} {s s₀ s' : State} {C T : Multiset (InodeId × Nat)}
  {L : List (InodeId × Int16)} {v : Volume} {p : ProcId} {path : List UInt8}

lemma begins_of_start {R : Volume → Nat → List UInt8 → Prop}
    (h : ∀ x, s.start p path = some x → R v x path) : s.Begins p path R v := by
  refine ⟨fun habs => h rootIno (if_pos habs), fun hrel i hi => h _ ?_⟩
  rw [State.start, if_neg hrel, hi, map_some]

lemma namei_walk (h : Kept (· = v) s₀ s₀.refs T L s) (hheld : v.Held s₀.refs) :
    wp (namei p path) s (fun r s' => (r.map fun i => (s'.inode i).inum) =
      (s₀.start p path).bind fun x => v.walk x (elements path)) Quiet := by
  generalize htarget : ((s₀.start p path).bind fun x => v.walk x (elements path)) = target
  have hw : Walk s₀.refs (· = v) fun _ y rest => v.walk y (elements rest) = target := by
    refine hheld.walk fun hR hdir hskip hfound => ?_
    rw [← hR, elements_of_skipelem hskip, Volume.walk_cons_of_found hdir hfound]
  have hb : s₀.Begins p path (fun _ y rest => v.walk y (elements rest) = target) s.diskVolume :=
    begins_of_start fun x hx => by rw [← htarget, hx, bind_some]
  refine wp.seq (namex_spec hw h hb.1 fun i hi => ⟨_, mem_refs hi, fun hrel => hb.2 hrel i hi⟩)
    fun r s1 h1 => ?_
  cases r with
  | none =>
    obtain ⟨-, v', d, rest, rfl, hR, hstuck⟩ := h1
    rw [← hR]
    exact hstuck.walk.symm
  | some x =>
    obtain ⟨i, name⟩ := x
    obtain ⟨n, rest, h1⟩ := h1
    obtain ⟨-, hR, hends⟩ := h1.holds
    rw [skipelem_eq_none.mp hends] at hR
    show some (s1.inode i).inum = target
    rw [h1.tags (i, n) (Multiset.mem_cons_self ..), ← hR]
    rfl

lemma onward_start (hx : s.start p path = some x) : s.Onward p path x path :=
  fun es _ hes => ⟨x, es, hx, hes, rfl⟩

lemma walk_onward (h : s.Consistent) :
    Walk s.refs (· = s.diskVolume) fun _ y rest => s.Onward p path y rest := by
  refine h.held.walk fun {y rest' rest name k n} hR hdir hskip hfound es e hes => ?_
  have hpath : elements rest' = (name :: es) ++ [e] := by
    rw [elements_of_skipelem hskip, hes, List.cons_append]
  obtain ⟨x, es₀, hx, hes₀, hwalk⟩ := hR _ _ hpath
  exact ⟨x, es₀, hx, hes₀, by rw [hwalk, Volume.walk_cons_of_found hdir hfound]⟩

lemma State.Onward.ends (h : s.Onward p path d rest)
    (hends : v.Ends true d rest name) : ∃ x es, s.start p path = some x ∧
      elements path = es ++ [name] ∧ s.diskVolume.walk x es = some d := by
  have hrest : elements rest = [] ++ [name] := by
    rw [elements_of_skipelem hends.1]
    rfl
  exact h _ _ hrest

lemma create_names {major minor : Int16} (h : s.Consistent) :
    wp (create p path type major minor) s (fun r s' => ∀ ip, r = some ip → ∃ n,
      Kept (fun v => v.Held s.refs ∧
        ((s.start p path).bind fun x => v.walk x (elements path)) = some n ∧ s.SameNames p path v)
        s s.refs ((ip, n) ::ₘ 0) [(ip, type)] s') Quiet := by
  have h0 : Kept (· = s.diskVolume) s s.refs 0 [] s := h.atRest.kept.mono fun _ => rfl
  have hc : Creating s.refs (· = s.diskVolume) (fun _ y rest => s.Onward p path y rest) type
      fun n v => v.Held s.refs ∧
        ((s.start p path).bind fun x => v.walk x (elements path)) = some n ∧ s.SameNames p path v := by
    refine ⟨fun {v d rest name k n} hv hR hends hfound => ?_,
      fun {v d rest name n v'} hv hR hends hcr => ?_, fun hQ hf hm _ => (hQ.1.not_frees hf hm).elim⟩
    · subst hv
      obtain ⟨x, es, hx, hes, hwalk⟩ := hR.ends hends
      refine ⟨h.held, ?_, fun _ _ _ _ _ => rfl⟩
      rw [hx, bind_some, hes, Volume.walk_append, hwalk, bind_some,
        Volume.walk_cons_of_found hends.2 hfound]
      rfl
    · subst hv
      obtain ⟨x, es, hx, hes, hwalk⟩ := hR.ends hends
      obtain ⟨k, hent⟩ := hcr.enters hends.2
      have hdn : d ≠ n := fun heq => by
        have := hends.2
        rw [heq, hent.free] at this
        cases this
      refine ⟨hent.held h.held h.nonneg, ?_, fun d' name' hd' hd'' hne => hent.lookup_other ?_ ?_⟩
      · rw [hx, bind_some, hes, Volume.walk_append, hent.walk_of_walk hwalk, bind_some,
          Volume.walk, hent.type d hdn, if_pos hends.2, hent.lookup_here hdn]
        rfl
      · intro heq
        rw [heq, hent.free] at hd'
        cases hd'
      · intro heq
        exact hne ⟨x, es, name, hx, hes, heq.1 ▸ hwalk, heq.2⟩
  refine (create_wp (walk_onward h) hc h0 (begins_of_start fun x hx => onward_start hx)).imp
    fun r s' hr ip hip => ?_
  subst hip
  exact hr

lemma sysUnlink_names (h : s.Consistent) :
    wp (sysUnlink p path) s (fun r s' => r = 0 → ∃ d e, ∃ x es, s.start p path = some x ∧
      elements path = es ++ [e] ∧ s.diskVolume.walk x es = some d ∧
      Kept (s.diskVolume.Lost d e) s s.refs 0 [] s') Quiet := by
  have h0 : s.AtRest (· = s.diskVolume) := ⟨h.atRest.toFsInv, rfl⟩
  have hu : Unlinking s.refs (· = s.diskVolume) (fun _ y rest => s.Onward p path y rest)
      (fun d _ v => ∃ e x es, s.start p path = some x ∧ elements path = es ++ [e] ∧
        s.diskVolume.walk x es = some d ∧ s.diskVolume.Lost d e v)
      (fun d _ v => ∃ e x es, s.start p path = some x ∧ elements path = es ++ [e] ∧
        s.diskVolume.walk x es = some d ∧ s.diskVolume.Lost d e v) := by
    refine ⟨fun {v d rest name k n v'} hv hR hends _ _ hfound _ _ _ herase => ?_,
      fun hP hf _ => ?_, fun hP _ hset => ?_, fun hP hf _ => ?_⟩
    · subst hv
      obtain ⟨x, es, hx, hes, hwalk⟩ := hR.ends hends
      exact ⟨name, x, es, hx, hes, hwalk, herase.lost hfound hends.2 h.distinct⟩
    · obtain ⟨e, x, es, hx, hes, hwalk, hlost⟩ := hP
      exact ⟨e, x, es, hx, hes, hwalk, Volume.freeClosed_lost _ _ _ hlost hf⟩
    · obtain ⟨e, x, es, hx, hes, hwalk, hlost⟩ := hP
      exact ⟨e, x, es, hx, hes, hwalk, hlost.of_sets hset⟩
    · obtain ⟨e, x, es, hx, hes, hwalk, hlost⟩ := hP
      exact ⟨e, x, es, hx, hes, hwalk, Volume.freeClosed_lost _ _ _ hlost hf⟩
  refine (sysUnlink_wp (walk_onward h) hu h0 (begins_of_start fun x hx => onward_start hx)).imp
    fun r s' hr h0 => ?_
  cases hr with
  | inl hr => exact absurd (h0.symm.trans hr.1) (by decide)
  | inr hr =>
    obtain ⟨-, d, n, hr⟩ := hr
    obtain ⟨e, x, es, hx, hes, hwalk, -⟩ := hr.holds
    refine ⟨d, e, x, es, hx, hes, hwalk, hr.mono fun hP => ?_⟩
    obtain ⟨e', x', es', hx', hes', -, hlost⟩ := hP
    have heq := hes.symm.trans hes'
    rw [List.append_inj_right' heq rfl |> List.singleton_inj.mp]
    exact hlost

lemma namei_lost {e : List UInt8} {es : List (List UInt8)}
    (h : Kept (v.Lost d e) s₀ s₀.refs T L s) (hx : s₀.start p path = some x)
    (hes : elements path = es ++ [e]) (hwalk : v.walk x es = some d) :
    wp (namei p path) s (fun r _ => r = none) Quiet := by
  have hw : Walk s₀.refs (v.Lost d e) fun _ y rest =>
      ∃ es, elements rest = es ++ [e] ∧ v.walk y es = some d := by
    refine ⟨fun n v₁ v₂ hP hf _ => Volume.freeClosed_lost n v₁ v₂ hP hf, fun _ _ _ _ _ hR _ _ => hR,
      fun {v₁ y rest' rest name k n} hP hR hdir hskip hfound => ?_⟩
    obtain ⟨es, hes, hwalk⟩ := hR
    have hlook := hP.lookup y name hdir
    rw [hfound.lookup] at hlook
    rw [elements_of_skipelem hskip] at hes
    cases es with
    | nil =>
      -- it is the name that is gone
      obtain ⟨rfl, -⟩ := List.cons.inj hes
      cases hwalk
      rw [if_pos ⟨rfl, decide_eq_true rfl⟩] at hlook
      cases hlook
    | cons e' es =>
      obtain ⟨rfl, hrest⟩ := List.cons.inj hes
      split at hlook
      · cases hlook
      · refine ⟨es, hrest, ?_⟩
        rw [Volume.walk, if_pos (hP.dir y hdir), ← hlook, bind_some] at hwalk
        exact hwalk
  have hb : s₀.Begins p path (fun _ y rest => ∃ es, elements rest = es ++ [e] ∧ v.walk y es = some d)
      s.diskVolume := begins_of_start fun y hy => by
    rw [hx, Option.some.injEq] at hy
    exact hy ▸ ⟨es, hes, hwalk⟩
  refine wp.seq (namex_spec hw h hb.1 fun i hi => ⟨_, mem_refs hi, fun hrel => hb.2 hrel i hi⟩)
    fun r s1 h1 => ?_
  cases r with
  | none => rfl
  | some y =>
    obtain ⟨i, name⟩ := y
    obtain ⟨n, rest, h1⟩ := h1
    obtain ⟨-, ⟨es, hes, -⟩, hends⟩ := h1.holds
    rw [skipelem_eq_none.mp hends] at hes
    exact absurd hes (by simp)

/-- Names and paths in a consistent state, for every process and path, where nothing panics and nobody waits.

After `create` has returned an inode, `namei` returns the same inode for the path; after `unlink` has
returned zero, `namei` finds nothing. All other names stay as they are in the directories that are there
before and after the call. How often slashes are repeated and what comes behind the first `DIRSIZ` bytes
of an element makes no difference to `namei` and `nameiparent`. -/
theorem path_naming (h : s.Consistent) (p : ProcId) (path : List UInt8) :
    (∀ type major minor ip s₁, create p path type major minor s = .ok (some ip) s₁ →
      (∀ r s₂, namei p path s₁ = .ok r s₂ →
        ∃ jp, r = some jp ∧ (s₂.inode jp).inum = (s₁.inode ip).inum) ∧
      s.SameNames p path s₁.diskVolume) ∧
    (∀ s₁, sysUnlink p path s = .ok 0 s₁ →
      (∀ r s₂, namei p path s₁ = .ok r s₂ → r = none) ∧ s.SameNames p path s₁.diskVolume) ∧
    ∀ path', (path.head? = some slash ↔ path'.head? = some slash) → elements path = elements path' →
      namei p path = namei p path' ∧ nameiparent p path = nameiparent p path' := by
  refine ⟨fun type major minor ip s₁ hrun => ?_, fun s₁ hrun => ?_, fun path' hhead heq => ?_⟩
  · obtain ⟨n, h1⟩ := (create_names h).ok hrun ip rfl
    obtain ⟨hheld, hwalk, hsame⟩ := h1.holds
    refine ⟨fun r s₂ hr => ?_, hsame⟩
    have hfind := (namei_walk (h1.mono fun _ => rfl) hheld).ok hr
    rw [hwalk, Option.map_eq_some_iff] at hfind
    obtain ⟨jp, rfl, hjp⟩ := hfind
    exact ⟨jp, rfl, hjp.trans (h1.tags (ip, n) (Multiset.mem_cons_self ..)).symm⟩
  · obtain ⟨d, e, x, es, hx, hes, hwalk, h1⟩ := (sysUnlink_names h).ok hrun rfl
    refine ⟨fun r s₂ hr => (namei_lost h1 hx hes hwalk).ok hr, fun d' name' _ hd' hne => ?_⟩
    rw [h1.holds.lookup d' name' hd', if_neg]
    exact fun heq => hne ⟨x, es, e, hx, hes, heq.1 ▸ hwalk, heq.2⟩
  · have hcongr := fun parent => namex_congr p parent hhead heq
    refine ⟨?_, hcongr true⟩
    unfold namei
    rw [hcongr false]

end Naming

/-! ### A new file -/

/-- The image with one file, mounted, in a transaction. -/
def oneFileMounted : State := { State.mount (image (fileOf 0)) noDevices with log := ⟨1, false, false, []⟩ }

lemma oneFile_nlink {n : Nat} (hn : (oneFile.din n).type ≠ 0) : (oneFile.din n).nlink = 1 := by
  cases oneFile_type_ne hn with
  | inl h | inr h => rw [h, oneFile_din]; rfl

lemma oneFileMounted_consistent : oneFileMounted.Consistent := by
  have hrest : (State.mount (image (fileOf 0)) noDevices).AtRest fun _ => True :=
    mount_atRest ((image_owned (by decide)).sound (image_inData (by decide))) image_regular trivial
  have hdisk : oneFileMounted.diskVolume = oneFile := rfl
  refine ⟨hrest.setLog _, ?_, fun n hn => ?_, fun n hn h0 => ?_⟩
  · rw [hdisk]
    intro d hd j k hj hk _ _ hsame
    obtain rfl := oneFile_type_eq_tDir.mp hd
    rw [oneFile_slots] at hj hk
    have hall : ∀ j < 3, ∀ k < 3,
        namecmp (rootEntry j).name (rootEntry k).name → j = k := by decide
    rw [oneFile_dirent hj, oneFile_dirent hk] at hsame
    exact hall j hj k hk hsame
  · rw [hdisk] at hn ⊢
    rw [oneFile_nlink hn]
    decide
  · rw [hdisk] at hn h0
    rw [oneFile_nlink hn] at h0
    exact absurd h0 (by decide)

/-- The inode that a call has found, and the state it has left. -/
def found : EStateM.Result Stop State (Option InodeId) → Option (InodeId × State)
  | .ok r s => r.map (·, s)
  | .error _ _ => none

lemma found_eq_some {r : EStateM.Result Stop State (Option InodeId)} {x : InodeId × State}
    (h : found r = some x) : r = .ok (some x.1) x.2 := by
  cases r with
  | error e s => cases h
  | ok r s =>
    obtain ⟨i, rfl, rfl⟩ := Option.map_eq_some_iff.mp h
    rfl

/-- `/g` is created, and then found. -/
theorem path_naming_newFile : ∃ ip s₁ jp s₂,
    create 0 [47, 103] tFile 0 0 oneFileMounted = .ok (some ip) s₁ ∧
    namei 0 [47, 103] s₁ = .ok (some jp) s₂ ∧ (s₂.inode jp).inum = (s₁.inode ip).inum := by
  have hruns : ((found (create 0 [47, 103] tFile 0 0 oneFileMounted)).bind fun x =>
      found (namei 0 [47, 103] x.2)).isSome = true := by decide +kernel
  obtain ⟨y, hy⟩ := Option.isSome_iff_exists.mp hruns
  obtain ⟨x, hx, hy⟩ := Option.bind_eq_some_iff.mp hy
  have hcreate := found_eq_some hx
  have hnamei := found_eq_some hy
  obtain ⟨jp', hjp, heq⟩ :=
    ((path_naming oneFileMounted_consistent 0 [47, 103]).1 _ _ _ _ _ hcreate).1 _ _ hnamei
  rw [Option.some.injEq] at hjp
  exact ⟨x.1, x.2, y.1, y.2, hcreate, hnamei, hjp ▸ heq⟩

end Xv6.Fs
