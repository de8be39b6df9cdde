import Xv6.Fs.Calls

/-!
# Names and link counts

What the names of a volume have to do with its link counts. A directory is live while its own link count
is positive. The law (`LinkOk`) is that the link count of every inode is the number of entries for it in
live directories, those with the name `.` apart. It goes along with the shape of the tree (`Shape`): every
directory begins with `.` and `..`, the parent of a live directory is live and has an entry for it, a
directory has no other name, and a removed directory is empty.

The law survives what the system calls do to a volume (`linkLaw`). A directory that is removed takes its
entry `..` with it, so the count of its parent goes down together with it; that no other directory has it
as its parent is what `isdirempty` makes sure of.
-/

namespace Xv6.Fs

open Lib Disk

/-! ### Entries -/

lemma cstr_strncpy (name : List UInt8) : cstr (strncpy name) = cstr name := by
  have hlen := length_cstr_le name
  have htake : (strncpy name).take dirSiz = strncpy name := by
    refine List.take_of_length_le ?_
    simp only [strncpy, List.length_append, List.length_replicate]
    omega
  have hall : ∀ c ∈ cstr name, (decide (c ≠ 0)) := 
    List.all_eq_true.mp List.all_takeWhile
  rw [cstr, htake, strncpy, List.takeWhile_append_of_pos hall]
  simp

lemma cstr_name_ofBytes (n : Nat) (name : List UInt8) :
    cstr (Dirent.ofBytes (Dirent.bytes ⟨n, name⟩)).name = cstr name := by
  have hname : (Dirent.ofBytes (Dirent.bytes ⟨n, name⟩)).name = (strncpy name).take dirSiz := rfl
  rw [hname, ← cstr_strncpy name]
  simp [cstr, List.take_take]

lemma namecmp_congr {x y y' : List UInt8} (h : cstr y' = cstr y) : namecmp x y' = namecmp x y := by
  simp [namecmp, h]

lemma namecmp_comm (x y : List UInt8) : namecmp x y = namecmp y x := by
  simp only [namecmp, eq_comm]

lemma namecmp_name_ofBytes (n : Nat) (name y : List UInt8) :
    namecmp (Dirent.ofBytes (Dirent.bytes ⟨n, name⟩)).name y = namecmp name y := by
  rw [namecmp_comm, namecmp_congr (cstr_name_ofBytes n name), namecmp_comm]

namespace Volume

variable {v v' : Volume} {d n k : Nat}

lemma dirent_zero : (Dirent.ofBytes (List.replicate direntSize 0)).inum = 0 := rfl

/-- A directory that has links. -/
def Live (v : Volume) (d : Nat) : Prop := (v.din d).type = tDir ∧ 0 < (v.din d).nlink

instance (v : Volume) : DecidablePred v.Live := fun _ => inferInstanceAs (Decidable (_ ∧ _))

/-- The `k`-th entry of the live directory `d` is for inode `n`, and it is not `.`. -/
structure IsName (v : Volume) (n d k : Nat) : Prop where
  live : v.Live d
  lt : k < v.slots d
  inum : (v.dirent d k).inum = n
  proper : namecmp (v.dirent d k).name dot = false

/-- The entries for inode `n` in live directories, those with the name `.` apart. -/
@[irreducible] def names (v : Volume) (n : Nat) : Finset ((_ : Nat) × Nat) :=
  ((Finset.range nInodes).sigma fun d => Finset.range (v.slots d)).filter fun x =>
    v.Live x.1 ∧ (v.dirent x.1 x.2).inum = n ∧ namecmp (v.dirent x.1 x.2).name dot = false

/-- The number of links to inode `n`. -/
def links (v : Volume) (n : Nat) : Nat := (v.names n).card

/-- Only the inodes below `sb.ninodes` are used. -/
def Bounded (v : Volume) : Prop := ∀ n, (v.din n).type ≠ 0 → n < nInodes

lemma Live.type_ne (h : v.Live d) : (v.din d).type ≠ 0 := by
  rw [h.1]
  decide

lemma mem_names (hb : v.Bounded) : (⟨d, k⟩ : (_ : Nat) × Nat) ∈ v.names n ↔ v.IsName n d k := by
  unfold names
  simp only [Finset.mem_filter, Finset.mem_sigma, Finset.mem_range]
  constructor
  · intro h
    exact ⟨h.2.1, h.1.2, h.2.2.1, h.2.2.2⟩
  · intro h
    exact ⟨⟨hb d h.live.type_ne, h.lt⟩, h.live, h.inum, h.proper⟩

lemma links_congr (hb : v.Bounded) (hb' : v'.Bounded)
    (h : ∀ d k, v'.IsName n d k ↔ v.IsName n d k) : v'.links n = v.links n := by
  unfold links
  congr 1
  ext ⟨d, k⟩
  rw [mem_names hb, mem_names hb']
  exact h d k

lemma links_add (hb : v.Bounded) (hb' : v'.Bounded) {d₀ k₀ : Nat} (hnew : ¬ v.IsName n d₀ k₀)
    (h : ∀ d k, v'.IsName n d k ↔ d = d₀ ∧ k = k₀ ∨ v.IsName n d k) : v'.links n = v.links n + 1 := by
  have hset : v'.names n = insert ⟨d₀, k₀⟩ (v.names n) := by
    ext ⟨d, k⟩
    rw [mem_names hb', Finset.mem_insert, mem_names hb, h]
    simp
  unfold links
  rw [hset, Finset.card_insert_of_notMem]
  rwa [mem_names hb]

lemma links_pos (hb : v.Bounded) (h : v.IsName n d k) : 0 < v.links n :=
  Finset.card_pos.mpr ⟨⟨d, k⟩, (mem_names hb).mpr h⟩

lemma exists_isName (hb : v.Bounded) (h : 0 < v.links n) : ∃ d k, v.IsName n d k := by
  obtain ⟨⟨d, k⟩, hx⟩ := Finset.card_pos.mp h
  exact ⟨d, k, (mem_names hb).mp hx⟩

/-! ### The tree of directories -/

/-- The directories form a tree. -/
structure Shape (v : Volume) : Prop where
  two : ∀ d, (v.din d).type = tDir → 2 ≤ v.slots d
  dot : ∀ d, (v.din d).type = tDir → (v.dirent d 0).inum = d ∧ namecmp (v.dirent d 0).name dot = true
  dotdot : ∀ d, (v.din d).type = tDir → (v.dirent d 1).inum ≠ 0 ∧
    namecmp (v.dirent d 1).name dotdot = true
  proper : ∀ d k, (v.din d).type = tDir → 2 ≤ k → k < v.slots d → (v.dirent d k).inum ≠ 0 →
    namecmp (v.dirent d k).name Fs.dot = false ∧ namecmp (v.dirent d k).name Fs.dotdot = false
  dead : ∀ d, (v.din d).type = tDir → ¬ 0 < (v.din d).nlink → v.EmptyDir d
  root : v.Live rootIno ∧ (v.dirent rootIno 1).inum = rootIno
  up : ∀ d, v.Live d → d ≠ rootIno → v.Live (v.dirent d 1).inum ∧
    ∃ k, 2 ≤ k ∧ k < v.slots (v.dirent d 1).inum ∧ (v.dirent (v.dirent d 1).inum k).inum = d
  down : ∀ d k, v.Live d → 2 ≤ k → k < v.slots d → (v.din (v.dirent d k).inum).type = tDir →
    (v.dirent d k).inum ≠ rootIno ∧ (v.dirent (v.dirent d k).inum 1).inum = d
  once : ∀ d j k, v.Live d → 2 ≤ j → j < v.slots d → 2 ≤ k → k < v.slots d →
    (v.dirent d j).inum = (v.dirent d k).inum → (v.din (v.dirent d k).inum).type = tDir → j = k

/-- The directories of two volumes are the same. -/
structure SameDirs (v v' : Volume) : Prop where
  live : ∀ d, v'.Live d ↔ v.Live d
  dir : ∀ d, (v'.din d).type = tDir → (v.din d).type = tDir
  slots : ∀ d, (v'.din d).type = tDir → v'.slots d = v.slots d
  dirent : ∀ d k, (v'.din d).type = tDir → v'.dirent d k = v.dirent d k

namespace SameDirs

lemma isName (h : v.SameDirs v') (d k : Nat) : v'.IsName n d k ↔ v.IsName n d k := by
  constructor
  · intro hn
    have hdir := hn.live.1
    exact ⟨(h.live d).mp hn.live, h.slots d hdir ▸ hn.lt, h.dirent d k hdir ▸ hn.inum,
      h.dirent d k hdir ▸ hn.proper⟩
  · intro hn
    have hlive := (h.live d).mpr hn.live
    refine ⟨hlive, ?_, ?_, ?_⟩
    · rw [h.slots d hlive.1]
      exact hn.lt
    · rw [h.dirent d k hlive.1]
      exact hn.inum
    · rw [h.dirent d k hlive.1]
      exact hn.proper

lemma shape (h : v.SameDirs v') (hs : v.Shape) : v'.Shape where
  two d hd := by
    rw [h.slots d hd]
    exact hs.two d (h.dir d hd)
  dot d hd := by
    rw [h.dirent d 0 hd]
    exact hs.dot d (h.dir d hd)
  dotdot d hd := by
    rw [h.dirent d 1 hd]
    exact hs.dotdot d (h.dir d hd)
  proper d k hd := by
    rw [h.dirent d k hd, h.slots d hd]
    exact hs.proper d k (h.dir d hd)
  dead d hd hdead k hk hlt := by
    have hdead' : ¬ 0 < (v.din d).nlink := fun hpos =>
      hdead ((h.live d).mpr ⟨h.dir d hd, hpos⟩).2
    rw [h.dirent d k hd]
    exact hs.dead d (h.dir d hd) hdead' k hk (h.slots d hd ▸ hlt)
  root := by
    have hlive := (h.live rootIno).mpr hs.root.1
    rw [h.dirent _ 1 hlive.1]
    exact ⟨hlive, hs.root.2⟩
  up d hlive hne := by
    rw [h.dirent d 1 hlive.1]
    obtain ⟨hp, k, hk, hlt, hinum⟩ := hs.up d ((h.live d).mp hlive) hne
    have hp' := (h.live _).mpr hp
    refine ⟨hp', k, hk, ?_, ?_⟩
    · rw [h.slots _ hp'.1]
      exact hlt
    · rw [h.dirent _ k hp'.1]
      exact hinum
  down d k hlive hk hlt hdir := by
    rw [h.dirent d k hlive.1] at hdir ⊢
    rw [h.dirent _ 1 hdir]
    exact hs.down d k ((h.live d).mp hlive) hk (h.slots d hlive.1 ▸ hlt) (h.dir _ hdir)
  once d j k hlive hj hjlt hk hklt heq hdir := by
    rw [h.dirent d k hlive.1] at heq hdir
    rw [h.dirent d j hlive.1] at heq
    rw [h.slots d hlive.1] at hjlt hklt
    exact hs.once d j k ((h.live d).mp hlive) hj hjlt hk hklt heq (h.dir _ hdir)

end SameDirs

/-! ### The law -/

/-- Link counts are exact. Where `m` is an inode, one link to it is counted that no entry makes. -/
structure LinkOk (m : Option Nat) (v : Volume) : Prop where
  bounded : v.Bounded
  zero : (v.din 0).type = 0
  shape : v.Shape
  exact : ∀ n, (v.din n).type ≠ 0 →
    (v.din n).nlink.toInt = (v.links n : Int) + if m = some n then 1 else 0
  free : ∀ n, n ≠ 0 → (v.din n).type = 0 → v.links n = 0
  counted : ∀ n, m = some n → (v.din n).type ≠ 0 ∧ (v.din n).type ≠ tDir

/-! ### Counting -/

lemma nlink_pos {x : Int16} : 0 < x ↔ 0 < x.toInt := Int16.lt_iff_toInt_lt

lemma toInt_add_one {x : Int16} (h : x < 32767) : (x + 1).toInt = x.toInt + 1 := by
  have hlt : x.toInt < 32767 := Int16.lt_iff_toInt_lt.mp h
  have hge := Int16.le_toInt x
  rw [Int16.toInt_add, show (1 : Int16).toInt = 1 from rfl]
  exact Int.bmod_eq_of_le (by omega) (by omega)

lemma toInt_sub_one {x : Int16} (h : 0 < x.toInt) : (x - 1).toInt = x.toInt - 1 := by
  have hlt := Int16.toInt_lt x
  rw [Int16.toInt_sub, show (1 : Int16).toInt = 1 from rfl]
  exact Int.bmod_eq_of_le (by omega) (by omega)

/-! ### Changes of one inode -/

section Changes

variable {off : Nat} {src : List UInt8} {x : Dinode}

lemma Sets.din_of_ne (h : v.Sets n x v') {m : Nat} (hm : m ≠ n) : v'.din m = v.din m := by
  rw [h.din, Function.update_of_ne hm]

lemma Sets.din_self (h : v.Sets n x v') : v'.din n = x := by rw [h.din, Function.update_self]

lemma Sets.dirent (h : v.Sets n x v') (d k : Nat) : v'.dirent d k = v.dirent d k :=
  dirent_congr (h.byte d) k

lemma Sets.slots (h : v.Sets n x v') (hsize : x.size = (v.din n).size) (d : Nat) : v'.slots d = v.slots d := by
  refine slots_congr ?_
  by_cases hd : d = n
  · rw [hd, h.din_self, hsize]
  · rw [h.din_of_ne hd]

lemma Allocs.sets {type : Int16} {v₁ : Volume} (ha : v.Allocs n type v₁) (hs : v₁.Sets n x v') :
    v.Sets n x v' := by
  refine ⟨?_, fun m off => (hs.byte m off).trans (ha.byte m off)⟩
  rw [hs.din, ha.din, Function.update_idem]

section

variable (h : v.Writes n off src v')
include h

lemma Writes.dirent_of_ne (hd : d ≠ n) (k : Nat) :
    v'.dirent d k = v.dirent d k := dirent_congr (h.byte_of_ne hd) k

lemma Writes.slots_of_ne (hd : d ≠ n) : v'.slots d = v.slots d :=
  slots_congr (by rw [h.din d hd])

lemma Writes.type_eq (m : Nat) : (v'.din m).type = (v.din m).type := by
  by_cases hm : m = n
  · rw [hm, h.type]
  · rw [h.din m hm]

lemma Writes.nlink_eq (m : Nat) : (v'.din m).nlink = (v.din m).nlink := by
  by_cases hm : m = n
  · rw [hm, h.nlink]
  · rw [h.din m hm]

lemma Writes.live (d : Nat) : v'.Live d ↔ v.Live d := by
  unfold Live
  rw [h.type_eq, h.nlink_eq]

lemma Writes.sameDirs (hn : (v.din n).type ≠ tDir) : v.SameDirs v' := by
  have hne : ∀ d, (v'.din d).type = tDir → d ≠ n := fun d hd heq => by
    rw [h.type_eq, heq] at hd
    exact hn hd
  exact ⟨h.live, fun d hd => h.type_eq d ▸ hd, fun d hd => h.slots_of_ne (hne d hd),
    fun d k hd => h.dirent_of_ne (hne d hd) k⟩

end

lemma Sets.sameDirs (h : v.Sets n x v') (hn : (v.din n).type ≠ tDir) (hx : x.type ≠ tDir) : v.SameDirs v' := by
  have hne : ∀ d, (v'.din d).type = tDir → d ≠ n := fun d hd heq => by
    rw [heq, h.din_self] at hd
    exact hx hd
  refine ⟨fun d => ?_, fun d hd => ?_, fun d hd => slots_congr ?_, fun d k _ => h.dirent d k⟩
  · by_cases hd : d = n
    · subst hd
      exact ⟨fun hl => absurd (h.din_self ▸ hl.1) hx, fun hl => absurd hl.1 hn⟩
    · unfold Live
      rw [h.din_of_ne hd]
  · rwa [h.din_of_ne (hne d hd)] at hd
  · rw [h.din_of_ne (hne d hd)]

lemma Frees.sameDirs (h : v.Frees n v') : v.SameDirs v' := by
  have hne : ∀ d, (v'.din d).type = tDir → d ≠ n := fun d hd heq => by
    rw [heq, h.freed] at hd
    cases hd
  refine ⟨fun d => ?_, fun d hd => ?_, fun d hd => slots_congr ?_, fun d k hd => ?_⟩
  · by_cases hd : d = n
    · subst hd
      have hdead : ¬ v.Live d := fun hl => absurd (h.nlink ▸ hl.2) (by decide)
      exact ⟨fun hl => absurd rfl (hne d hl.1), fun hl => absurd hl hdead⟩
    · unfold Live
      rw [h.din d hd]
  · rwa [h.din d (hne d hd)] at hd
  · rw [h.din d (hne d hd)]
  · exact dirent_congr (fun off => h.byte d off (hne d hd)) k

end Changes

/-! ### Changes that keep the directories -/

namespace LinkOk

variable {m m' : Option Nat}

lemma of_sameDirs (h : LinkOk m v) (hd : v.SameDirs v') (hb : v'.Bounded) (hzero : (v'.din 0).type = 0)
    (hexact : ∀ n, (v'.din n).type ≠ 0 →
      (v'.din n).nlink.toInt = (v.links n : Int) + if m' = some n then 1 else 0)
    (hfree : ∀ n ≠ 0, (v'.din n).type = 0 → v.links n = 0)
    (hcounted : ∀ n, m' = some n → (v'.din n).type ≠ 0 ∧ (v'.din n).type ≠ tDir) : LinkOk m' v' := by
  have hlinks : ∀ n, v'.links n = v.links n := fun n => links_congr h.bounded hb hd.isName
  refine ⟨hb, hzero, hd.shape h.shape, fun n hn => ?_, fun n hn h0 => ?_, hcounted⟩
  · rw [hlinks]
    exact hexact n hn
  · rw [hlinks]
    exact hfree n hn h0

lemma ne_zero (h : LinkOk m v) (hn : (v.din n).type ≠ 0) : n ≠ 0 := fun heq => hn (heq ▸ h.zero)

lemma frees (h : LinkOk m v) (hf : v.Frees n v') : LinkOk m v' := by
  have hexact := h.exact n hf.type
  rw [hf.nlink, show (0 : Int16).toInt = 0 from rfl] at hexact
  -- the freed inode had no names
  have hlinks : v.links n = 0 ∧ m ≠ some n := by
    split at hexact
    · omega
    · exact ⟨by omega, ‹_›⟩
  have hold : ∀ x, (v'.din x).type ≠ 0 → x ≠ n := fun x hx heq => hx (heq ▸ hf.freed)
  refine h.of_sameDirs hf.sameDirs (fun x hx => ?_) ?_ (fun x hx => ?_) (fun x hx h0 => ?_) fun x hx => ?_
  · exact h.bounded x (hf.din x (hold x hx) ▸ hx)
  · rw [hf.din 0 (h.ne_zero hf.type).symm]
    exact h.zero
  · have hx' := hx
    rw [hf.din x (hold x hx)] at hx' ⊢
    exact h.exact x hx'
  · by_cases hxn : x = n
    · rw [hxn]
      exact hlinks.1
    · exact h.free x hx (hf.din x hxn ▸ h0)
  · have hxn : x ≠ n := fun heq => hlinks.2 (heq ▸ hx)
    rw [hf.din x hxn]
    exact h.counted x hx

lemma writes {off : Nat} {src : List UInt8} (h : LinkOk m v) (hn : (v.din n).type ≠ tDir)
    (hw : v.Writes n off src v') : LinkOk m v' := by
  refine h.of_sameDirs (hw.sameDirs hn) (fun x hx => ?_) ?_ (fun x hx => ?_) (fun x hx h0 => ?_)
    fun x hx => ?_
  · exact h.bounded x (hw.type_eq x ▸ hx)
  · rw [hw.type_eq]
    exact h.zero
  · rw [hw.nlink_eq]
    exact h.exact x (hw.type_eq x ▸ hx)
  · exact h.free x hx (hw.type_eq x ▸ h0)
  · rw [hw.type_eq]
    exact h.counted x hx

lemma setNlink {c : Int16} (h : LinkOk m v) (hn : (v.din n).type ≠ 0) (hdir : (v.din n).type ≠ tDir)
    (hs : v.Sets n { v.din n with nlink := c } v') (hm : ∀ x ≠ n, (m' = some x ↔ m = some x))
    (hc : c.toInt = (v.links n : Int) + if m' = some n then 1 else 0) : LinkOk m' v' := by
  have htype : ∀ x, (v'.din x).type = (v.din x).type := fun x => by
    by_cases hx : x = n
    · rw [hx, hs.din_self]
    · rw [hs.din_of_ne hx]
  refine h.of_sameDirs (hs.sameDirs hdir hdir) (fun x hx => h.bounded x (htype x ▸ hx)) ?_
    (fun x hx => ?_) (fun x hx h0 => h.free x hx (htype x ▸ h0)) fun x hx => ?_
  · rw [htype]
    exact h.zero
  · by_cases hxn : x = n
    · rw [hxn, hs.din_self]
      exact hc
    · rw [hs.din_of_ne hxn, h.exact x (htype x ▸ hx)]
      simp only [hm x hxn]
  · rw [htype]
    by_cases hxn : x = n
    · rw [hxn]
      exact ⟨hn, hdir⟩
    · exact h.counted x ((hm x hxn).mp hx)

lemma count (h : LinkOk none v) (hroom : (v.din n).nlink < 32767) (hn : (v.din n).type ≠ 0)
    (hdir : (v.din n).type ≠ tDir) (hs : v.Sets n { v.din n with nlink := (v.din n).nlink + 1 } v') :
    LinkOk (some n) v' := by
  refine h.setNlink hn hdir hs (fun x hx => by simp [Ne.symm hx]) ?_
  rw [toInt_add_one hroom, h.exact n hn, if_pos rfl, if_neg (by simp), add_zero]

lemma uncount (h : LinkOk (some n) v)
    (hs : v.Sets n { v.din n with nlink := (v.din n).nlink - 1 } v') : LinkOk none v' := by
  obtain ⟨hn, hdir⟩ := h.counted n rfl
  have hexact := h.exact n hn
  rw [if_pos rfl] at hexact
  refine h.setNlink hn hdir hs (fun x hx => by simp [Ne.symm hx]) ?_
  rw [toInt_sub_one (by omega), if_neg (by simp)]
  omega

/-- A new inode that is no directory, with one link that no entry makes yet. -/
lemma alloc {type major minor : Int16} {v₁ v₂ : Volume} (h : LinkOk none v) (h0 : type ≠ 0)
    (hdir : type ≠ tDir) (ha : v.Allocs n type v₁)
    (hs : v₁.Sets n { v₁.din n with major := major, minor := minor, nlink := 1 } v₂) : LinkOk (some n) v₂ := by
  have hself : v₂.din n = { Dinode.zero with type := type, major := major, minor := minor, nlink := 1 } := by
    rw [hs.din_self, ha.din_self]
  have hsets := ha.sets hs
  have hother : ∀ x ≠ n, v₂.din x = v.din x := fun x hx => hsets.din_of_ne hx
  have hfree := h.free n ha.ne ha.free
  have hsame := hsets.sameDirs (by rw [ha.free]; decide) (by rw [ha.din_self]; exact hdir)
  refine h.of_sameDirs hsame (fun x hx => ?_) ?_ (fun x hx => ?_) (fun x hx h0 => ?_) fun x hx => ?_
  · by_cases hxn : x = n
    · rw [hxn]
      exact ha.lt
    · exact h.bounded x (hother x hxn ▸ hx)
  · rw [hother 0 ha.ne.symm]
    exact h.zero
  · by_cases hxn : x = n
    · rw [hxn, hself, hfree, if_pos rfl]
      rfl
    · rw [hother x hxn] at hx ⊢
      rw [h.exact x hx, if_neg (by simp), if_neg (by simp [Ne.symm hxn])]
  · by_cases hxn : x = n
    · rw [hxn]
      exact hfree
    · exact h.free x hx (hother x hxn ▸ h0)
  · cases hx
    rw [hself]
    exact ⟨h0, hdir⟩

end LinkOk

/-! ### One entry of a live directory -/

/-- Entry `k` of the live directory `d` is replaced by `de`. -/
structure Replaces (v : Volume) (d k : Nat) (de : Dirent) (v' : Volume) : Prop where
  live : v.Live d
  two : 2 ≤ k
  le : k ≤ v.slots d
  type : ∀ x, (v'.din x).type = (v.din x).type
  nlink : ∀ x, (v'.din x).nlink = (v.din x).nlink
  here : k < v'.slots d ∧ v'.dirent d k = de
  slots : ∀ x, v.slots x ≤ v'.slots x
  other : ∀ x j, j < v'.slots x → ¬ (x = d ∧ j = k) → j < v.slots x ∧ v'.dirent x j = v.dirent x j

lemma Writes.slots_le {src : List UInt8} (h : v.Writes d (direntSize * k) src v')
    (hsrc : src.length = direntSize) (x : Nat) : v.slots x ≤ v'.slots x := by
  have hslots := h.slots_entry hsrc
  by_cases hx : x = d
  · rw [hx]
    omega
  · rw [h.slots_of_ne hx]

lemma Writes.dirent_other {src : List UInt8} (h : v.Writes d (direntSize * k) src v')
    (hsrc : src.length = direntSize) (hle : k ≤ v.slots d) {x j : Nat} (hj : j < v'.slots x)
    (hne : ¬ (x = d ∧ j = k)) : j < v.slots x ∧ v'.dirent x j = v.dirent x j := by
  have hslots := h.slots_entry hsrc
  by_cases hx : x = d
  · subst hx
    have hjk : j ≠ k := fun heq => hne ⟨rfl, heq⟩
    refine ⟨by omega, ?_⟩
    rw [h.dirent_entry hsrc hj, if_neg hjk]
  · rw [h.slots_of_ne hx] at hj
    exact ⟨hj, h.dirent_of_ne hx j⟩

lemma Writes.replaces {src : List UInt8} (h : v.Writes d (direntSize * k) src v')
    (hsrc : src.length = direntSize) (hlive : v.Live d) (htwo : 2 ≤ k) (hle : k ≤ v.slots d) :
    v.Replaces d k (.ofBytes src) v' := by
  have hslots := h.slots_entry hsrc
  have hhere : k < v'.slots d := by omega
  refine ⟨hlive, htwo, hle, h.type_eq, h.nlink_eq, ⟨hhere, ?_⟩, h.slots_le hsrc, fun _ _ =>
    h.dirent_other hsrc hle⟩
  rw [h.dirent_entry hsrc hhere, if_pos rfl]

namespace Replaces

variable {de : Dirent}

lemma live_iff (h : v.Replaces d k de v') (x : Nat) : v'.Live x ↔ v.Live x := by
  unfold Live
  rw [h.type, h.nlink]

/-- The first two entries of a directory stay. -/
lemma first (h : v.Replaces d k de v') (hs : v.Shape) {x j : Nat} (hx : (v.din x).type = tDir)
    (hj : j < 2) : v'.dirent x j = v.dirent x j := by
  have hlt := (hs.two x hx).trans (h.slots x)
  exact (h.other x j (by omega) fun heq => by have := h.two; omega).2

lemma isName_other (h : v.Replaces d k de v') {x j : Nat} (hne : ¬ (x = d ∧ j = k)) :
    v'.IsName n x j ↔ v.IsName n x j := by
  constructor
  · intro hn
    obtain ⟨hlt, heq⟩ := h.other x j hn.lt hne
    exact ⟨(h.live_iff x).mp hn.live, hlt, heq ▸ hn.inum, heq ▸ hn.proper⟩
  · intro hn
    have hlt := hn.lt.trans_le (h.slots x)
    have heq := (h.other x j hlt hne).2
    exact ⟨(h.live_iff x).mpr hn.live, hlt, heq ▸ hn.inum, heq ▸ hn.proper⟩

lemma isName_here (h : v.Replaces d k de v') :
    v'.IsName n d k ↔ de.inum = n ∧ namecmp de.name Fs.dot = false := by
  constructor
  · intro hn
    exact ⟨h.here.2 ▸ hn.inum, h.here.2 ▸ hn.proper⟩
  · intro hn
    exact ⟨(h.live_iff d).mpr h.live, h.here.1, h.here.2 ▸ hn.1, h.here.2 ▸ hn.2⟩

/-- The tree stays as it is if neither the old nor the new entry is for a directory. -/
lemma shape (h : v.Replaces d k de v') (hs : v.Shape)
    (hold : k < v.slots d → (v.din (v.dirent d k).inum).type ≠ tDir) (hnew : (v.din de.inum).type ≠ tDir)
    (hname : de.inum ≠ 0 → namecmp de.name Fs.dot = false ∧ namecmp de.name Fs.dotdot = false) : v'.Shape where
  two x hx := (hs.two x (h.type x ▸ hx)).trans (h.slots x)
  dot x hx := by
    rw [h.type] at hx
    rw [h.first hs hx (by omega)]
    exact hs.dot x hx
  dotdot x hx := by
    rw [h.type] at hx
    rw [h.first hs hx (by omega)]
    exact hs.dotdot x hx
  proper x j hx hj hlt hne := by
    rw [h.type] at hx
    by_cases heq : x = d ∧ j = k
    · obtain ⟨rfl, rfl⟩ := heq
      rw [h.here.2] at hne ⊢
      exact hname hne
    · obtain ⟨hlt', hsame⟩ := h.other x j hlt heq
      rw [hsame] at hne ⊢
      exact hs.proper x j hx hj hlt' hne
  dead x hx hdead j hj hlt := by
    rw [h.type] at hx
    rw [h.nlink] at hdead
    have hxd : ¬ (x = d ∧ j = k) := fun heq => hdead (heq.1 ▸ h.live.2)
    obtain ⟨hlt', hsame⟩ := h.other x j hlt hxd
    rw [hsame]
    exact hs.dead x hx hdead j hj hlt'
  root := by
    rw [h.live_iff, h.first hs hs.root.1.1 (by omega)]
    exact hs.root
  up x hx hne := by
    rw [h.live_iff] at hx
    rw [h.first hs hx.1 (by omega), h.live_iff]
    obtain ⟨hp, j, hj, hlt, hinum⟩ := hs.up x hx hne
    refine ⟨hp, j, hj, hlt.trans_le (h.slots _), ?_⟩
    rw [(h.other _ j (hlt.trans_le (h.slots _)) fun heq => ?_).2, hinum]
    -- the entry for a directory is not the one that is replaced
    have hlt' := hlt
    rw [heq.1, heq.2] at hlt' hinum
    exact hold hlt' (hinum ▸ hx.1)
  down x j hx hj hlt hdir := by
    rw [h.live_iff] at hx
    rw [h.type] at hdir
    by_cases heq : x = d ∧ j = k
    · obtain ⟨rfl, rfl⟩ := heq
      rw [h.here.2] at hdir
      exact absurd hdir hnew
    · obtain ⟨hlt', hsame⟩ := h.other x j hlt heq
      rw [hsame] at hdir ⊢
      rw [h.first hs hdir (by omega)]
      exact hs.down x j hx hj hlt' hdir
  once x i j hx hi hilt hj hjlt heq hdir := by
    rw [h.live_iff] at hx
    rw [h.type] at hdir
    have hne : ∀ l, (v'.dirent x l).inum = (v'.dirent x j).inum → ¬ (x = d ∧ l = k) := by
      intro l hl hxl
      obtain ⟨rfl, rfl⟩ := hxl
      rw [← hl, h.here.2] at hdir
      exact hnew hdir
    obtain ⟨hilt', hi'⟩ := h.other x i hilt (hne i heq)
    obtain ⟨hjlt', hj'⟩ := h.other x j hjlt (hne j rfl)
    rw [hi', hj'] at heq
    rw [hj'] at hdir
    exact hs.once x i j hx hi hilt' hj hjlt' heq hdir

end Replaces

namespace LinkOk

variable {name : List UInt8}

lemma freeSlot_le {m : Option Nat} (h : LinkOk m v) (hd : (v.din d).type = tDir) (hslot : v.FreeSlot d k) :
    2 ≤ k ∧ k ≤ v.slots d := by
  have htwo := h.shape.two d hd
  cases hslot with
  | inr hk => omega
  | inl hk =>
    have h0 : k ≠ 0 := fun heq => by
      rw [heq, (h.shape.dot d hd).1] at hk
      rw [hk.2, h.zero] at hd
      cases hd
    have h1 : k ≠ 1 := fun heq => by
      rw [heq] at hk
      exact (h.shape.dotdot d hd).1 hk.2
    omega

lemma proper_of_notFound {m : Option Nat} (h : LinkOk m v) (hd : (v.din d).type = tDir)
    (hnew : v.NotFound d name) : namecmp name Fs.dot = false ∧ namecmp name Fs.dotdot = false := by
  have htwo := h.shape.two d hd
  obtain ⟨hinum, hdot⟩ := h.shape.dot d hd
  obtain ⟨hinum1, hdotdot⟩ := h.shape.dotdot d hd
  have hne : d ≠ 0 := h.ne_zero (by rw [hd]; decide)
  constructor
  · rw [← namecmp_congr (of_decide_eq_true hdot)]
    exact hnew 0 (by omega) (by rwa [hinum])
  · rw [← namecmp_congr (of_decide_eq_true hdotdot)]
    exact hnew 1 (by omega) hinum1

lemma live_of_found {m : Option Nat} (h : LinkOk m v) (hd : (v.din d).type = tDir)
    (hf : v.Found d name k n) (hdot : namecmp name Fs.dot = false)
    (hdotdot : namecmp name Fs.dotdot = false) : v.Live d ∧ 2 ≤ k := by
  have h0 : k ≠ 0 := fun heq => by
    have hsame := of_decide_eq_true (h.shape.dot d hd).2
    have := hf.same
    rw [heq, namecmp_congr hsame, hdot] at this
    cases this
  have h1 : k ≠ 1 := fun heq => by
    have hsame := of_decide_eq_true (h.shape.dotdot d hd).2
    have := hf.same
    rw [heq, namecmp_congr hsame, hdotdot] at this
    cases this
  have hk : 2 ≤ k := by omega
  refine ⟨⟨hd, ?_⟩, hk⟩
  by_contra hdead
  exact hf.ne (hf.inum ▸ h.shape.dead d hd hdead k hk hf.lt)

/-- A counted link gets its entry. -/
lemma enter (h : LinkOk (some n) v) (hlive : v.Live d) (hnew : v.NotFound d name)
    (hslot : v.FreeSlot d k) (hw : v.Writes d (direntSize * k) (Dirent.bytes ⟨n, name⟩) v') :
    LinkOk none v' := by
  obtain ⟨hn, hdir⟩ := h.counted n rfl
  obtain ⟨htwo, hle⟩ := h.freeSlot_le hlive.1 hslot
  obtain ⟨hdot, hdotdot⟩ := h.proper_of_notFound hlive.1 hnew
  have hinum := inum_ofBytes_bytes name (h.bounded n hn)
  have hcmp := namecmp_name_ofBytes n name
  have hr := hw.replaces (length_direntBytes _) hlive htwo hle
  have hempty : ∀ x ≠ 0, ¬ v.IsName x d k := fun x hx hname => by
    cases hslot with
    | inl hk => exact hx (hname.inum ▸ hk.2)
    | inr hk => exact absurd hname.lt (by omega)
  have hshape : v'.Shape := by
    refine hr.shape h.shape (fun hlt => ?_) (by rwa [hinum]) fun _ => ?_
    · cases hslot with
      | inl hk =>
        rw [hk.2, h.zero]
        decide
      | inr hk => omega
    · rw [hcmp, hcmp]
      exact ⟨hdot, hdotdot⟩
  have hb : v'.Bounded := fun x hx => h.bounded x (hr.type x ▸ hx)
  have hlinks : ∀ x ≠ 0, v'.links x = v.links x + if some n = some x then 1 else 0 := by
    intro x hx
    by_cases hxn : n = x
    · subst hxn
      rw [if_pos rfl]
      refine links_add h.bounded hb (hempty n hx) fun a b => ?_
      by_cases hab : a = d ∧ b = k
      · obtain ⟨rfl, rfl⟩ := hab
        rw [hr.isName_here, hcmp]
        simp [hinum, hdot]
      · rw [hr.isName_other hab]
        simp [hab]
    · rw [if_neg (by simpa using hxn), add_zero]
      refine links_congr h.bounded hb fun a b => ?_
      by_cases hab : a = d ∧ b = k
      · obtain ⟨rfl, rfl⟩ := hab
        rw [hr.isName_here, hinum]
        simp [hxn, hempty x hx]
      · exact hr.isName_other hab
  refine ⟨hb, by rw [hr.type]; exact h.zero, hshape, fun x hx => ?_, fun x hx h0 => ?_,
    fun x hx => absurd hx (by simp)⟩
  · rw [hr.type] at hx
    rw [hr.nlink, h.exact x hx, hlinks x (h.ne_zero hx)]
    split <;> simp
  · rw [hr.type] at h0
    rw [hlinks x hx, h.free x hx h0, if_neg]
    intro heq
    exact hn (Option.some.inj heq ▸ h0)

/-- The entry of an inode that is no directory is erased, and the link is still counted. -/
lemma erase (h : LinkOk none v) (hlive : v.Live d) (htwo : 2 ≤ k) (hlt : k < v.slots d)
    (hinum : (v.dirent d k).inum = n) (hne : n ≠ 0) (hn : (v.din n).type ≠ 0) (hdir : (v.din n).type ≠ tDir)
    (hw : v.Writes d (direntSize * k) (List.replicate direntSize 0) v') : LinkOk (some n) v' := by
  have hr := hw.replaces (by simp) hlive htwo hlt.le
  have hname : v.IsName n d k :=
    ⟨hlive, hlt, hinum, (h.shape.proper d k hlive.1 htwo hlt (hinum ▸ hne)).1⟩
  have hb : v'.Bounded := fun x hx => h.bounded x (hr.type x ▸ hx)
  have hshape : v'.Shape := by
    refine hr.shape h.shape (fun _ => hinum ▸ hdir) ?_ fun h0 => absurd dirent_zero h0
    rw [dirent_zero, h.zero]
    decide
  have hgone : ∀ x ≠ 0, ¬ v'.IsName x d k := fun x hx hname => by
    rw [hr.isName_here, dirent_zero] at hname
    exact hx hname.1.symm
  have hlinks : ∀ x ≠ 0, v.links x = v'.links x + if some n = some x then 1 else 0 := by
    intro x hx
    by_cases hxn : n = x
    · subst hxn
      rw [if_pos rfl]
      refine links_add hb h.bounded (hgone n hx) fun a b => ?_
      by_cases hab : a = d ∧ b = k
      · obtain ⟨rfl, rfl⟩ := hab
        simp [hname]
      · rw [hr.isName_other hab]
        simp [hab]
    · rw [if_neg (by simpa using hxn), add_zero]
      refine links_congr hb h.bounded fun a b => ?_
      by_cases hab : a = d ∧ b = k
      · obtain ⟨rfl, rfl⟩ := hab
        exact ⟨fun hx' => absurd (hinum.symm.trans hx'.inum) hxn, fun hx' => absurd hx' (hgone x hx)⟩
      · exact (hr.isName_other hab).symm
  refine ⟨hb, by rw [hr.type]; exact h.zero, hshape, fun x hx => ?_, fun x hx h0 => ?_, fun x hx => ?_⟩
  · rw [hr.type] at hx
    rw [hr.nlink, h.exact x hx, hlinks x (h.ne_zero hx)]
    split <;> simp
  · rw [hr.type] at h0
    have := hlinks x hx
    rw [h.free x hx h0] at this
    omega
  · cases hx
    rw [hr.type]
    exact ⟨hn, hdir⟩

end LinkOk

/-! ### A new directory -/

/-- Directory `n` has been made in directory `d`, under the name of its entry `k`. -/
structure NewDir (v : Volume) (d n k : Nat) (name : List UInt8) (v' : Volume) : Prop where
  ne : n ≠ 0
  lt : n < nInodes
  free : (v.din n).type = 0
  self : v'.Live n
  self_nlink : (v'.din n).nlink = 1
  self_slots : v'.slots n = 2
  self_dot : v'.dirent n 0 = .ofBytes (Dirent.bytes ⟨n, Fs.dot⟩)
  self_dotdot : v'.dirent n 1 = .ofBytes (Dirent.bytes ⟨d, Fs.dotdot⟩)
  new : v.NotFound d name
  slot : v.FreeSlot d k
  type : ∀ x, x ≠ n → (v'.din x).type = (v.din x).type
  nlink : ∀ x, x ≠ n → (v'.din x).nlink = if x = d then (v.din d).nlink + 1 else (v.din x).nlink
  slots : ∀ x, x ≠ n → v.slots x ≤ v'.slots x
  here : k < v'.slots d ∧ v'.dirent d k = .ofBytes (Dirent.bytes ⟨n, name⟩)
  other : ∀ x j, x ≠ n → j < v'.slots x → ¬ (x = d ∧ j = k) →
    j < v.slots x ∧ v'.dirent x j = v.dirent x j

/-- An entry is written into a directory of `w`, which has the entries of `v` but for those of inode `n`. -/
lemma Writes.enters {w : Volume} {m : Nat} {name : List UInt8} (hnd : n ≠ d)
    (hdirent : ∀ x j, x ≠ n → w.dirent x j = v.dirent x j) (hslots : ∀ x ≠ n, w.slots x = v.slots x)
    (new : w.NotFound d name) (slot : w.FreeSlot d k)
    (entry : w.Writes d (direntSize * k) (Dirent.bytes ⟨m, name⟩) v') :
    v.NotFound d name ∧ v.FreeSlot d k ∧ (∀ x ≠ n, v.slots x ≤ v'.slots x) ∧
      (k < v'.slots d ∧ v'.dirent d k = .ofBytes (Dirent.bytes ⟨m, name⟩)) ∧
      ∀ x j, x ≠ n → j < v'.slots x → ¬ (x = d ∧ j = k) → j < v.slots x ∧ v'.dirent x j = v.dirent x j := by
  have hlen := length_direntBytes ⟨m, name⟩
  have hgrow := entry.slots_entry hlen
  unfold FreeSlot at slot
  have hle : k ≤ w.slots d := by omega
  rw [hslots d hnd.symm, hdirent d k hnd.symm] at slot
  refine ⟨fun j hj hne => ?_, slot, fun x hx => ?_, ⟨by omega, ?_⟩, fun x j hx hj hne => ?_⟩
  · rw [← hdirent d j hnd.symm] at hne ⊢
    exact new j (by rwa [hslots d hnd.symm]) hne
  · rw [← hslots x hx]
    exact entry.slots_le hlen x
  · rw [entry.dirent_entry hlen (by omega), if_pos rfl]
  · rw [← hslots x hx, ← hdirent x j hx]
    exact entry.dirent_other hlen hle hj hne

lemma Creates.newDir {name : List UInt8} (h : v.Creates d n name tDir v') (hd : (v.din d).type = tDir) :
    ∃ k, v.NewDir d n k name v' := by
  cases h with
  | node hne => exact absurd rfl hne
  | @dir k₁ k₂ k major minor v₁ v₂ v₃ v₄ v₅ _ alloc link count slot₁ dots₁ slot₂ dots₂ new slot entry =>
    have hnd : n ≠ d := fun heq => by
      rw [← heq, alloc.free] at hd
      cases hd
    -- the inodes other than the new one, before the entry is written
    have hdin : ∀ x ≠ n, v₅.din x =
        if x = d then { v.din d with nlink := (v.din d).nlink + 1 } else v.din x := fun x hx => by
      rw [dots₂.din x hx, dots₁.din x hx]
      have hbefore : v₂.din x = v.din x := by rw [link.din_of_ne hx, alloc.din_of_ne hx]
      by_cases hxd : x = d
      · subst hxd
        rw [if_pos rfl, count.din_self, hbefore]
      · rw [if_neg hxd, count.din_of_ne hxd, hbefore]
    have hdirent : ∀ x j, x ≠ n → v₅.dirent x j = v.dirent x j := fun x j hx => by
      rw [dots₂.dirent_of_ne hx, dots₁.dirent_of_ne hx, count.dirent, link.dirent, alloc.dirent]
    have hslots : ∀ x ≠ n, v₅.slots x = v.slots x := fun x hx => by
      refine slots_congr ?_
      rw [hdin x hx]
      split
      · rw [‹x = d›]
      · rfl
    -- the new one has its two entries
    have hself₃ : v₃.din n = { Dinode.zero with type := tDir, major := major, minor := minor, nlink := 1 } := by
      rw [count.din_of_ne hnd, link.din_self, alloc.din_self]
    have hslots₃ : v₃.slots n = 0 := by
      rw [Volume.slots, hself₃]
      exact Nat.zero_div _
    have hk₁ : k₁ = 0 := by
      cases slot₁ with
      | inl hk => omega
      | inr hk => rw [hk, hslots₃]
    subst hk₁
    have hslots₄ := dots₁.slots_entry (length_direntBytes _)
    rw [hslots₃] at hslots₄
    have hdot : v₄.dirent n 0 = .ofBytes (Dirent.bytes ⟨n, Fs.dot⟩) := by
      rw [dots₁.dirent_entry (length_direntBytes _) (by omega), if_pos rfl]
    have hk₂ : k₂ = 1 := by
      cases slot₂ with
      | inl hk =>
        obtain ⟨hlt, h0⟩ := hk
        obtain rfl : k₂ = 0 := by omega
        rw [hdot, inum_ofBytes_bytes _ alloc.lt] at h0
        exact absurd h0 alloc.ne
      | inr hk => omega
    subst hk₂
    have hslots₅ := dots₂.slots_entry (length_direntBytes _)
    have hself : ∀ j < 2, v'.dirent n j = if j = 1 then .ofBytes (Dirent.bytes ⟨d, Fs.dotdot⟩)
        else v₄.dirent n j := fun j hj => by
      rw [entry.dirent_of_ne hnd, dots₂.dirent_entry (length_direntBytes _) (by omega)]
    obtain ⟨hnew, hslot, hgrow, hhere, hother⟩ := entry.enters hnd hdirent hslots new slot
    have htype : (v'.din n).type = tDir ∧ (v'.din n).nlink = 1 := by
      rw [entry.din n hnd, dots₂.type, dots₁.type, dots₂.nlink, dots₁.nlink, hself₃]
      exact ⟨rfl, rfl⟩
    refine ⟨k, alloc.ne, alloc.lt, alloc.free, ⟨htype.1, by rw [htype.2]; decide⟩, htype.2, ?_, ?_, ?_,
      hnew, hslot, fun x hx => ?_, fun x hx => ?_, hgrow, hhere, hother⟩
    · rw [entry.slots_of_ne hnd]
      omega
    · rw [hself 0 (by omega), if_neg (by omega), hdot]
    · rw [hself 1 (by omega), if_pos rfl]
    · rw [entry.type_eq, hdin x hx]
      split
      · rw [‹x = d›]
      · rfl
    · rw [entry.nlink_eq, hdin x hx]
      split <;> rfl

namespace NewDir

variable {name : List UInt8}

lemma ne_dir (h : v.NewDir d n k name v') {x : Nat} (hx : (v.din x).type ≠ 0) : x ≠ n :=
  fun heq => hx (heq ▸ h.free)

lemma live_iff (h : v.NewDir d n k name v') (hlive : v.Live d) (hroom : (v.din d).nlink < 32767) {x : Nat}
    (hx : x ≠ n) : v'.Live x ↔ v.Live x := by
  unfold Live
  rw [h.type x hx, h.nlink x hx]
  split
  · rename_i hxd
    subst hxd
    have hpos : 0 < (v.din x).nlink + 1 := by
      rw [nlink_pos, toInt_add_one hroom]
      have := nlink_pos.mp hlive.2
      omega
    simp [hpos, hlive.2]
  · rfl

end NewDir

namespace LinkOk

variable {name : List UInt8}

section Mkdir

variable (h : LinkOk none v) (hlive : v.Live d) (hroom : (v.din d).nlink < 32767)
  (hc : v.NewDir d n k name v')

include h hc

lemma not_isName_new (x j : Nat) : ¬ v.IsName n x j := fun hname => by
  have := links_pos h.bounded hname
  rw [h.free n hc.ne hc.free] at this
  omega

lemma inum_ne_new {x j : Nat} (hx : v.Live x) (hj : 2 ≤ j) (hlt : j < v.slots x) :
    (v.dirent x j).inum ≠ n := fun heq => by
  have hproper := h.shape.proper x j hx.1 hj hlt (heq ▸ hc.ne)
  exact h.not_isName_new hc x j ⟨hx, hlt, heq, hproper.1⟩

lemma bounded_mkdir : v'.Bounded := fun x hx => by
  by_cases hxn : x = n
  · exact hxn ▸ hc.lt
  · exact h.bounded x (hc.type x hxn ▸ hx)

lemma dirent_mkdir (hlive : v.Live d) {x j : Nat} (hxn : x ≠ n) (hx : (v.din x).type = tDir) (hj : j < 2) :
    v'.dirent x j = v.dirent x j := by
  have htwo := (h.freeSlot_le hlive.1 hc.slot).1
  have hslots := (h.shape.two x hx).trans (hc.slots x hxn)
  exact (hc.other x j hxn (by omega) fun heq => by omega).2

omit h in
lemma inum_free_slot {x : Nat} (hx : x ≠ 0) (hlt : k < v.slots d) : (v.dirent d k).inum ≠ x := fun heq => by
  cases hc.slot with
  | inl hk => exact hx (heq ▸ hk.2)
  | inr hk => omega

include hlive hroom

omit h in
lemma isName_mkdir_other {x j : Nat} (hxn : x ≠ n) (hne : ¬ (x = d ∧ j = k)) (y : Nat) :
    v'.IsName y x j ↔ v.IsName y x j := by
  constructor
  · intro hname
    obtain ⟨hlt, heq⟩ := hc.other x j hxn hname.lt hne
    exact ⟨(hc.live_iff hlive hroom hxn).mp hname.live, hlt, heq ▸ hname.inum, heq ▸ hname.proper⟩
  · intro hname
    have hlt := hname.lt.trans_le (hc.slots x hxn)
    have heq := (hc.other x j hxn hlt hne).2
    exact ⟨(hc.live_iff hlive hroom hxn).mpr hname.live, hlt, heq ▸ hname.inum, heq ▸ hname.proper⟩

lemma isName_mkdir_entry (y : Nat) : v'.IsName y d k ↔ y = n := by
  have hinum := inum_ofBytes_bytes name hc.lt
  have hdn : d ≠ n := hc.ne_dir hlive.type_ne
  constructor
  · intro hname
    rw [← hname.inum, hc.here.2, hinum]
  · intro hy
    refine ⟨(hc.live_iff hlive hroom hdn).mpr hlive, hc.here.1, ?_, ?_⟩
    · rw [hc.here.2, hinum, hy]
    · rw [hc.here.2, namecmp_name_ofBytes]
      exact (h.proper_of_notFound hlive.1 hc.new).1

omit hroom in
lemma isName_mkdir_new (y j : Nat) : v'.IsName y n j ↔ y = d ∧ j = 1 := by
  have hinum := inum_ofBytes_bytes Fs.dotdot (h.bounded d hlive.type_ne)
  constructor
  · intro hname
    have hlt := hname.lt
    rw [hc.self_slots] at hlt
    have hj0 : j ≠ 0 := fun heq => by
      have := hname.proper
      rw [heq, hc.self_dot, namecmp_name_ofBytes] at this
      cases this
    obtain rfl : j = 1 := by omega
    exact ⟨by rw [← hname.inum, hc.self_dotdot, hinum], rfl⟩
  · intro hy
    obtain ⟨rfl, rfl⟩ := hy
    refine ⟨hc.self, by rw [hc.self_slots]; omega, by rw [hc.self_dotdot, hinum], ?_⟩
    rw [hc.self_dotdot, namecmp_name_ofBytes]
    decide

lemma links_mkdir {y : Nat} (hy : y ≠ 0) : v'.links y = v.links y + if y = n ∨ y = d then 1 else 0 := by
  have hdn : d ≠ n := hc.ne_dir hlive.type_ne
  have hb := h.bounded_mkdir hc
  have hold := @isName_mkdir_other _ _ _ _ _ _ hlive hroom hc
  have hentry := h.isName_mkdir_entry hlive hroom hc
  have hparent := h.isName_mkdir_new hlive hc
  have hnothing : ∀ y j, ¬ v.IsName y n j := fun y j hname => hname.live.type_ne hc.free
  have hnoold : ∀ y ≠ 0, ¬ v.IsName y d k := fun y hy hname =>
    inum_free_slot hc hy hname.lt hname.inum
  by_cases hyn : y = n
  · subst hyn
    rw [if_pos (.inl rfl)]
    refine links_add h.bounded hb (h.not_isName_new hc d k) fun a b => ?_
    by_cases han : a = y
    · subst han
      rw [hparent]
      simp [hdn.symm, hnothing]
    · by_cases hab : a = d ∧ b = k
      · obtain ⟨rfl, rfl⟩ := hab
        simp [hentry]
      · rw [hold han hab]
        simp [hab]
  · by_cases hyd : y = d
    · subst hyd
      rw [if_pos (.inr rfl)]
      refine links_add h.bounded hb (hnothing y 1) fun a b => ?_
      by_cases han : a = n
      · subst han
        rw [hparent]
        simp [hnothing]
      · by_cases hab : a = y ∧ b = k
        · obtain ⟨rfl, rfl⟩ := hab
          rw [hentry]
          simp [hdn, hnoold _ hy]
        · rw [hold han hab]
          simp [han]
    · rw [if_neg (by simp [hyn, hyd]), add_zero]
      refine links_congr h.bounded hb fun a b => ?_
      by_cases han : a = n
      · subst han
        rw [hparent]
        simp [hyd, hnothing]
      · by_cases hab : a = d ∧ b = k
        · obtain ⟨rfl, rfl⟩ := hab
          rw [hentry]
          simp [hyn, hnoold y hy]
        · exact hold han hab y

lemma shape_mkdir : v'.Shape := by
  have hdn : d ≠ n := hc.ne_dir hlive.type_ne
  have htwo := (h.freeSlot_le hlive.1 hc.slot).1
  have hinum : ∀ name, (Dirent.ofBytes (Dirent.bytes ⟨n, name⟩)).inum = n := fun name =>
    inum_ofBytes_bytes name hc.lt
  have hinumd : (Dirent.ofBytes (Dirent.bytes ⟨d, Fs.dotdot⟩)).inum = d :=
    inum_ofBytes_bytes _ (h.bounded d hlive.type_ne)
  have hlive' : ∀ x ≠ n, (v'.Live x ↔ v.Live x) := fun x hx => hc.live_iff hlive hroom hx
  have hrootn : rootIno ≠ n := hc.ne_dir h.shape.root.1.type_ne
  refine ⟨fun x hx => ?_, fun x hx => ?_, fun x hx => ?_, fun x j hx hj hlt hne => ?_,
    fun x hx hdead j hj hlt => ?_, ?_, fun x hx hne => ?_, fun x j hx hj hlt hdir => ?_,
    fun x i j hx hi hilt hj hjlt heq hdir => ?_⟩
  · by_cases hxn : x = n
    · rw [hxn, hc.self_slots]
    · exact (h.shape.two x (hc.type x hxn ▸ hx)).trans (hc.slots x hxn)
  · by_cases hxn : x = n
    · subst hxn
      rw [hc.self_dot, hinum, namecmp_name_ofBytes]
      exact ⟨rfl, by decide⟩
    · rw [hc.type x hxn] at hx
      rw [h.dirent_mkdir hc hlive hxn hx (by omega)]
      exact h.shape.dot x hx
  · by_cases hxn : x = n
    · subst hxn
      rw [hc.self_dotdot, hinumd, namecmp_name_ofBytes]
      exact ⟨h.ne_zero hlive.type_ne, by decide⟩
    · rw [hc.type x hxn] at hx
      rw [h.dirent_mkdir hc hlive hxn hx (by omega)]
      exact h.shape.dotdot x hx
  · by_cases hxn : x = n
    · rw [hxn, hc.self_slots] at hlt
      omega
    · rw [hc.type x hxn] at hx
      by_cases hxj : x = d ∧ j = k
      · obtain ⟨rfl, rfl⟩ := hxj
        rw [hc.here.2, namecmp_name_ofBytes, namecmp_name_ofBytes]
        exact h.proper_of_notFound hlive.1 hc.new
      · obtain ⟨hlt', hsame⟩ := hc.other x j hxn hlt hxj
        rw [hsame] at hne ⊢
        exact h.shape.proper x j hx hj hlt' hne
  · have hxn : x ≠ n := fun heq => hdead (heq ▸ hc.self.2)
    have hnl : ¬ v.Live x := fun hl => hdead ((hlive' x hxn).mpr hl).2
    rw [hc.type x hxn] at hx
    have hxd : ¬ (x = d ∧ j = k) := fun heq => hnl (heq.1 ▸ hlive)
    obtain ⟨hlt', hsame⟩ := hc.other x j hxn hlt hxd
    rw [hsame]
    exact h.shape.dead x hx (fun hpos => hnl ⟨hx, hpos⟩) j hj hlt'
  · rw [hlive' _ hrootn, h.dirent_mkdir hc hlive hrootn h.shape.root.1.1 (by omega)]
    exact h.shape.root
  · by_cases hxn : x = n
    · subst hxn
      rw [hc.self_dotdot, hinumd]
      exact ⟨(hlive' d hdn).mpr hlive, k, htwo, hc.here.1, by rw [hc.here.2, hinum]⟩
    · rw [hlive' x hxn] at hx
      rw [h.dirent_mkdir hc hlive hxn hx.1 (by omega)]
      obtain ⟨hp, j, hj, hlt, hinumx⟩ := h.shape.up x hx hne
      have hpn := hc.ne_dir hp.type_ne
      have hlt' := hlt.trans_le (hc.slots _ hpn)
      refine ⟨(hlive' _ hpn).mpr hp, j, hj, hlt', ?_⟩
      rw [(hc.other _ j hpn hlt' fun heq => ?_).2, hinumx]
      rw [heq.1, heq.2] at hlt hinumx
      exact inum_free_slot hc (h.ne_zero hx.type_ne) hlt hinumx
  · have hxn : x ≠ n := fun heq => by
      rw [heq, hc.self_slots] at hlt
      omega
    rw [hlive' x hxn] at hx
    by_cases hxj : x = d ∧ j = k
    · obtain ⟨rfl, rfl⟩ := hxj
      rw [hc.here.2, hinum, hc.self_dotdot, hinumd]
      exact ⟨hrootn.symm, rfl⟩
    · obtain ⟨hlt', hsame⟩ := hc.other x j hxn hlt hxj
      rw [hsame] at hdir ⊢
      have hcn := h.inum_ne_new hc hx hj hlt'
      rw [hc.type _ hcn] at hdir
      rw [h.dirent_mkdir hc hlive hcn hdir (by omega)]
      exact h.shape.down x j hx hj hlt' hdir
  · have hxn : x ≠ n := fun heq => by
      rw [heq, hc.self_slots] at hilt
      omega
    rw [hlive' x hxn] at hx
    by_cases hxi : x = d ∧ i = k
    · obtain ⟨rfl, rfl⟩ := hxi
      by_contra hij
      obtain ⟨hjlt', hsame⟩ := hc.other x j hxn hjlt fun hxj => hij hxj.2.symm
      rw [hc.here.2, hinum, hsame] at heq
      exact h.inum_ne_new hc hx hj hjlt' heq.symm
    · obtain ⟨hilt', hi'⟩ := hc.other x i hxn hilt hxi
      by_cases hxj : x = d ∧ j = k
      · obtain ⟨rfl, rfl⟩ := hxj
        rw [hi', hc.here.2, hinum] at heq
        exact absurd heq (h.inum_ne_new hc hx hi hilt')
      · obtain ⟨hjlt', hj'⟩ := hc.other x j hxn hjlt hxj
        rw [hi', hj'] at heq
        rw [hj', hc.type _ (h.inum_ne_new hc hx hj hjlt')] at hdir
        exact h.shape.once x i j hx hi hilt' hj hjlt' heq hdir

lemma mkdir : LinkOk none v' := by
  have hlinks : ∀ y ≠ 0, v'.links y = v.links y + if y = n ∨ y = d then 1 else 0 := fun y hy =>
    h.links_mkdir hlive hroom hc hy
  refine ⟨h.bounded_mkdir hc, by rw [hc.type 0 hc.ne.symm]; exact h.zero, h.shape_mkdir hlive hroom hc,
    fun x hx => ?_, fun x hx h0 => ?_, fun x hx => absurd hx (by simp)⟩
  · by_cases hxn : x = n
    · subst hxn
      rw [hc.self_nlink, hlinks x hc.ne, h.free x hc.ne hc.free]
      simp
    · rw [hc.type x hxn] at hx
      have hexact := h.exact x hx
      rw [if_neg (by simp), add_zero] at hexact
      rw [hc.nlink x hxn, hlinks x (h.ne_zero hx)]
      by_cases hxd : x = d
      · subst hxd
        rw [if_pos rfl, toInt_add_one hroom, hexact]
        simp
      · rw [if_neg hxd, hexact]
        simp [hxn, hxd]
  · have hxn : x ≠ n := fun heq => by
      rw [heq, hc.self.1] at h0
      exact absurd h0 (by decide)
    rw [hc.type x hxn] at h0
    have hxd : x ≠ d := fun heq => hlive.type_ne (heq ▸ h0)
    rw [hlinks x hx, h.free x hx h0, if_neg (by simp [hxn, hxd])]

end Mkdir

end LinkOk

/-! ### A removed directory -/

/-- Entry `k` of directory `d` is for the empty directory `n`. -/
structure Removable (v : Volume) (d n k : Nat) : Prop where
  live : v.Live d
  ne : n ≠ d
  dir : (v.din n).type = tDir
  empty : v.EmptyDir n
  two : 2 ≤ k
  lt : k < v.slots d
  inum : (v.dirent d k).inum = n

/-- The empty directory `n` has been removed from directory `d`, where entry `k` was for it. -/
structure OldDir (v : Volume) (d n k : Nat) (v' : Volume) : Prop extends v.Removable d n k where
  gone : (v'.dirent d k).inum = 0
  type : ∀ x, (v'.din x).type = (v.din x).type
  nlink : ∀ x, (v'.din x).nlink = if x = d ∨ x = n then (v.din x).nlink - 1 else (v.din x).nlink
  slots : ∀ x, v'.slots x = v.slots x
  other : ∀ x j, j < v.slots x → ¬ (x = d ∧ j = k) → v'.dirent x j = v.dirent x j

lemma Removable.oldDir {v₁ v₂ : Volume} (h : v.Removable d n k)
    (entry : v.Writes d (direntSize * k) (List.replicate direntSize 0) v₁)
    (uncount : v₁.Sets d { v₁.din d with nlink := (v₁.din d).nlink - 1 } v₂)
    (unlink : v₂.Sets n { v₂.din n with nlink := (v₂.din n).nlink - 1 } v') : v.OldDir d n k v' := by
  have hr := entry.replaces (by simp) h.live h.two h.lt.le
  have hne := h.ne
  have hlt := h.lt
  have hdin : ∀ x, v'.din x = if x = d ∨ x = n then { v₁.din x with nlink := (v₁.din x).nlink - 1 }
      else v₁.din x := fun x => by
    by_cases hxn : x = n
    · subst hxn
      rw [if_pos (.inr rfl), unlink.din_self, uncount.din_of_ne hne]
    · rw [unlink.din_of_ne hxn]
      by_cases hxd : x = d
      · subst hxd
        rw [if_pos (.inl rfl), uncount.din_self]
      · rw [uncount.din_of_ne hxd, if_neg (by simp [hxn, hxd])]
  have hdirent : ∀ x j, v'.dirent x j = v₁.dirent x j := fun x j => by
    rw [unlink.dirent, uncount.dirent]
  have hslots : ∀ x, v'.slots x = v.slots x := fun x => by
    rw [unlink.slots rfl, uncount.slots rfl]
    by_cases hxd : x = d
    · subst hxd
      have := entry.slots_entry (by simp)
      omega
    · exact entry.slots_of_ne hxd
  refine ⟨h, ?_, fun x => ?_, fun x => ?_, hslots,
    fun x j hj hxj => ?_⟩
  · rw [hdirent, hr.here.2, dirent_zero]
  · rw [hdin x, ← hr.type]
    split <;> rfl
  · rw [hdin x, ← hr.nlink]
    split <;> rfl
  · rw [hdirent]
    exact (hr.other x j (hj.trans_le (hr.slots x)) hxj).2

namespace LinkOk

section Removable

variable (h : LinkOk none v) (hc : v.Removable d n k)
include h hc

lemma isName_old (x j : Nat) : v.IsName n x j ↔ x = d ∧ j = k := by
  have hn : (v.din n).type ≠ 0 := by rw [hc.dir]; decide
  have hdown := h.shape.down d k hc.live hc.two hc.lt (by rw [hc.inum, hc.dir])
  rw [hc.inum] at hdown
  constructor
  · intro hname
    have hx := hname.live
    have hj0 : j ≠ 0 := fun heq => by
      have := hname.proper
      rw [heq, (h.shape.dot x hx.1).2] at this
      cases this
    -- as the parent of a directory it would not be empty
    have hj1 : j ≠ 1 := fun heq => by
      have hinum := hname.inum
      rw [heq] at hinum
      have hxr : x ≠ rootIno := fun hxr => by
        rw [hxr, h.shape.root.2] at hinum
        exact hdown.1 hinum.symm
      obtain ⟨_, i, hi, hilt, hix⟩ := h.shape.up x hx hxr
      rw [hinum] at hilt hix
      exact h.ne_zero hx.type_ne (hix.symm.trans (hc.empty i hi hilt))
    have hj : 2 ≤ j := by omega
    have hparent := (h.shape.down x j hx hj hname.lt (by rw [hname.inum, hc.dir])).2
    rw [hname.inum, hdown.2] at hparent
    subst hparent
    exact ⟨rfl, h.shape.once d j k hx hj hname.lt hc.two hc.lt (hname.inum.trans hc.inum.symm)
      (by rw [hc.inum, hc.dir])⟩
  · intro hx
    obtain ⟨rfl, rfl⟩ := hx
    refine ⟨hc.live, hc.lt, hc.inum, (h.shape.proper x j hc.live.1 hc.two hc.lt ?_).1⟩
    rw [hc.inum]
    exact h.ne_zero hn

lemma links_old : v.links n = 1 := by
  have hset : v.names n = {⟨d, k⟩} := by
    ext ⟨x, j⟩
    rw [mem_names h.bounded, h.isName_old hc, Finset.mem_singleton]
    simp
  rw [links, hset, Finset.card_singleton]

lemma nlink_old : (v.din n).nlink = 1 := by
  have hexact := h.exact n (by rw [hc.dir]; decide)
  rw [h.links_old hc, if_neg (by simp)] at hexact
  exact Int16.toInt_inj.mp hexact

lemma live_old : v.Live n := ⟨hc.dir, by rw [h.nlink_old hc]; decide⟩

lemma parent_old : n ≠ rootIno ∧ (v.dirent n 1).inum = d := by
  have hdown := h.shape.down d k hc.live hc.two hc.lt (by rw [hc.inum, hc.dir])
  rwa [hc.inum] at hdown

lemma isName_parent (y j : Nat) : v.IsName y n j → y ≠ 0 → y = d ∧ j = 1 := by
  intro hname hy
  have hj0 : j ≠ 0 := fun heq => by
    have := hname.proper
    rw [heq, (h.shape.dot n hc.dir).2] at this
    cases this
  by_cases hj : j = 1
  · subst hj
    exact ⟨hname.inum.symm.trans (h.parent_old hc).2, rfl⟩
  · exact absurd (hname.inum.symm.trans (hc.empty j (by omega) hname.lt)) hy

lemma isName_up : v.IsName d n 1 := by
  refine ⟨h.live_old hc, by have := h.shape.two n hc.dir; omega, (h.parent_old hc).2, ?_⟩
  have hname := of_decide_eq_true (h.shape.dotdot n hc.dir).2
  rw [namecmp_comm, namecmp_congr hname]
  decide

lemma two_le_links : 2 ≤ v.links d := by
  have hother : ∃ x j, v.IsName d x j ∧ ¬ (x = n ∧ j = 1) := by
    by_cases hd : d = rootIno
    · refine ⟨rootIno, 1, ⟨h.shape.root.1, ?_, ?_, ?_⟩, fun heq => (h.parent_old hc).1 heq.1.symm⟩
      · have := h.shape.two rootIno h.shape.root.1.1
        omega
      · rw [h.shape.root.2, hd]
      · have hname := of_decide_eq_true (h.shape.dotdot rootIno h.shape.root.1.1).2
        rw [namecmp_comm, namecmp_congr hname]
        decide
    · obtain ⟨hp, j, hj, hlt, hinum⟩ := h.shape.up d hc.live hd
      refine ⟨_, j, ⟨hp, hlt, hinum, (h.shape.proper _ j hp.1 hj hlt ?_).1⟩, fun heq => by omega⟩
      rw [hinum]
      exact h.ne_zero hc.live.type_ne
  obtain ⟨x, j, hname, hne⟩ := hother
  have hmem := (mem_names h.bounded).mpr hname
  have hup := (mem_names h.bounded).mpr (h.isName_up hc)
  exact Finset.one_lt_card.mpr ⟨_, hmem, _, hup, fun heq => hne (by simpa using heq)⟩

end Removable

section Rmdir

variable (h : LinkOk none v) (hc : v.OldDir d n k v')
include h hc

lemma nlink_parent : (v'.din d).nlink.toInt = (v.links d : Int) - 1 ∧ 0 < (v'.din d).nlink := by
  have hexact := h.exact d hc.live.type_ne
  have htwo := h.two_le_links hc.toRemovable
  rw [if_neg (by simp)] at hexact
  have hnlink := hc.nlink d
  rw [if_pos (.inl rfl)] at hnlink
  rw [nlink_pos, hnlink, toInt_sub_one (by omega)]
  omega

lemma live_rmdir (x : Nat) : v'.Live x ↔ v.Live x ∧ x ≠ n := by
  unfold Live
  rw [hc.type]
  by_cases hxn : x = n
  · subst hxn
    rw [hc.nlink, if_pos (.inr rfl), h.nlink_old hc.toRemovable]
    simp
  · by_cases hxd : x = d
    · subst hxd
      simp [(h.nlink_parent hc).2, hc.live.2, hxn]
    · rw [hc.nlink, if_neg (by simp [hxn, hxd])]
      simp [hxn]

lemma isName_rmdir {y : Nat} (hy : y ≠ 0) (x j : Nat) :
    v'.IsName y x j ↔ v.IsName y x j ∧ x ≠ n ∧ ¬ (x = d ∧ j = k) := by
  constructor
  · intro hname
    obtain ⟨hx, hxn⟩ := (h.live_rmdir hc x).mp hname.live
    have hlt := hname.lt
    rw [hc.slots] at hlt
    have hne : ¬ (x = d ∧ j = k) := fun heq => by
      have := hname.inum
      rw [heq.1, heq.2, hc.gone] at this
      exact hy this.symm
    have heq := hc.other x j hlt hne
    exact ⟨⟨hx, hlt, heq ▸ hname.inum, heq ▸ hname.proper⟩, hxn, hne⟩
  · intro hname
    obtain ⟨hname, hxn, hne⟩ := hname
    have heq := hc.other x j hname.lt hne
    refine ⟨(h.live_rmdir hc x).mpr ⟨hname.live, hxn⟩, ?_, heq ▸ hname.inum, heq ▸ hname.proper⟩
    rw [hc.slots]
    exact hname.lt

lemma shape_rmdir : v'.Shape := by
  have hlive := h.live_rmdir hc
  have hn0 : n ≠ 0 := h.ne_zero (by rw [hc.dir]; decide)
  have hfirst : ∀ x j, (v.din x).type = tDir → j < 2 → v'.dirent x j = v.dirent x j :=
    fun x j hx hj => hc.other x j (by have := h.shape.two x hx; omega) fun heq => by
      have := hc.two
      omega
  -- the erased entry is for no directory
  have hkeep : ∀ x j, (v.din (v'.dirent x j).inum).type = tDir → ¬ (x = d ∧ j = k) := by
    intro x j hdir heq
    rw [heq.1, heq.2, hc.gone, h.zero] at hdir
    cases hdir
  refine ⟨fun x hx => ?_, fun x hx => ?_, fun x hx => ?_, fun x j hx hj hlt hne => ?_,
    fun x hx hdead j hj hlt => ?_, ?_, fun x hx hne => ?_, fun x j hx hj hlt hdir => ?_,
    fun x i j hx hi hilt hj hjlt heq hdir => ?_⟩
  · rw [hc.slots]
    exact h.shape.two x (hc.type x ▸ hx)
  · rw [hc.type] at hx
    rw [hfirst x 0 hx (by omega)]
    exact h.shape.dot x hx
  · rw [hc.type] at hx
    rw [hfirst x 1 hx (by omega)]
    exact h.shape.dotdot x hx
  · rw [hc.type] at hx
    rw [hc.slots] at hlt
    have hxk : ¬ (x = d ∧ j = k) := fun heq => hne (heq.1 ▸ heq.2 ▸ hc.gone)
    rw [hc.other x j hlt hxk] at hne ⊢
    exact h.shape.proper x j hx hj hlt hne
  · rw [hc.type] at hx
    rw [hc.slots] at hlt
    by_cases hxk : x = d ∧ j = k
    · rw [hxk.1, hxk.2, hc.gone]
    · rw [hc.other x j hlt hxk]
      by_cases hxn : x = n
      · subst hxn
        exact hc.empty j hj hlt
      · refine h.shape.dead x hx (fun hpos => hdead ?_) j hj hlt
        exact ((hlive x).mpr ⟨⟨hx, hpos⟩, hxn⟩).2
  · rw [hfirst _ 1 h.shape.root.1.1 (by omega), hlive]
    exact ⟨⟨h.shape.root.1, (h.parent_old hc.toRemovable).1.symm⟩, h.shape.root.2⟩
  · obtain ⟨hx, hxn⟩ := (hlive x).mp hx
    rw [hfirst x 1 hx.1 (by omega)]
    obtain ⟨hp, j, hj, hlt, hinum⟩ := h.shape.up x hx hne
    -- the parent has an entry, so it is not the one that is removed
    have hpn : (v.dirent x 1).inum ≠ n := fun heq => by
      rw [heq] at hlt hinum
      exact h.ne_zero hx.type_ne (hinum.symm.trans (hc.empty j hj hlt))
    refine ⟨(hlive _).mpr ⟨hp, hpn⟩, j, hj, by rwa [hc.slots], ?_⟩
    rw [hc.other _ j hlt fun heq => ?_, hinum]
    rw [heq.1, heq.2, hc.inum] at hinum
    exact hxn hinum.symm
  · obtain ⟨hx, hxn⟩ := (hlive x).mp hx
    rw [hc.type] at hdir
    rw [hc.slots] at hlt
    have hsame := hc.other x j hlt (hkeep x j hdir)
    rw [hsame] at hdir ⊢
    rw [hfirst _ 1 hdir (by omega)]
    exact h.shape.down x j hx hj hlt hdir
  · obtain ⟨hx, hxn⟩ := (hlive x).mp hx
    rw [hc.type] at hdir
    rw [hc.slots] at hilt hjlt
    have hj' := hc.other x j hjlt (hkeep x j hdir)
    rw [hc.other x i hilt (hkeep x i (heq ▸ hdir)), hj'] at heq
    rw [hj'] at hdir
    exact h.shape.once x i j hx hi hilt hj hjlt heq hdir

lemma rmdir : LinkOk none v' := by
  have hdn : d ≠ n := hc.ne.symm
  have hn0 : n ≠ 0 := h.ne_zero (by rw [hc.dir]; decide)
  have hb : v'.Bounded := fun x hx => h.bounded x (hc.type x ▸ hx)
  have hlinks : ∀ y ≠ 0, v.links y = v'.links y + if y = n ∨ y = d then 1 else 0 := by
    intro y hy
    have hname := h.isName_rmdir hc hy
    by_cases hyn : y = n
    · subst hyn
      rw [if_pos (.inl rfl)]
      refine links_add hb h.bounded (fun hnew => ((hname d k).mp hnew).2.2 ⟨rfl, rfl⟩) fun a b => ?_
      rw [hname, h.isName_old hc.toRemovable]
      tauto
    · by_cases hyd : y = d
      · subst hyd
        rw [if_pos (.inr rfl)]
        refine links_add hb h.bounded (fun hnew => ((hname n 1).mp hnew).2.1 rfl) fun a b => ?_
        rw [hname]
        constructor
        · intro hold
          by_cases han : a = n
          · subst han
            exact .inl ⟨rfl, (h.isName_parent hc.toRemovable y b hold hy).2⟩
          · refine .inr ⟨hold, han, fun hab => ?_⟩
            obtain ⟨rfl, rfl⟩ := hab
            exact hyn (hold.inum.symm.trans hc.inum)
        · intro hold
          cases hold with
          | inl heq => exact heq.1 ▸ heq.2 ▸ h.isName_up hc.toRemovable
          | inr hold => exact hold.1
      · rw [if_neg (by simp [hyn, hyd]), add_zero]
        refine links_congr hb h.bounded fun a b => ?_
        rw [hname]
        constructor
        · intro hold
          refine ⟨hold, fun han => ?_, fun hab => ?_⟩
          · subst han
            exact hyd (h.isName_parent hc.toRemovable y b hold hy).1
          · obtain ⟨rfl, rfl⟩ := hab
            exact hyn (hold.inum.symm.trans hc.inum)
        · exact And.left
  refine ⟨hb, by rw [hc.type]; exact h.zero, h.shape_rmdir hc, fun x hx => ?_, fun x hx h0 => ?_,
    fun x hx => absurd hx (by simp)⟩
  · rw [hc.type] at hx
    have hsum := hlinks x (h.ne_zero hx)
    have hexact := h.exact x hx
    rw [if_neg (by simp), add_zero] at hexact ⊢
    by_cases hxd : x = d
    · subst hxd
      rw [(h.nlink_parent hc).1]
      rw [if_pos (.inr rfl)] at hsum
      omega
    · by_cases hxn : x = n
      · subst hxn
        rw [if_pos (.inl rfl), h.links_old hc.toRemovable] at hsum
        rw [hc.nlink, if_pos (.inr rfl), h.nlink_old hc.toRemovable]
        have hzero : v'.links x = 0 := by omega
        rw [hzero]
        rfl
      · rw [if_neg (by simp [hxn, hxd])] at hsum
        rw [hc.nlink, if_neg (by simp [hxn, hxd])]
        omega
  · rw [hc.type] at h0
    have := hlinks x hx
    rw [h.free x hx h0] at this
    omega

end Rmdir

end LinkOk

end Volume

end Xv6.Fs
