import Xv6.Fs.Links
import Xv6.Fs.Ownership

/-!
# Link counts over whole runs

The law of `Xv6.Fs.Links` as a law about system calls. It holds along every run in which names are only
made in directories that still have a link themselves, and in which no link count is at its maximum when
a link is added: nothing in `create` or `sys_link` checks either. A process whose working directory has
been removed can go on creating files in it, with links that no live directory makes.

A removed directory keeps its entry `..` while it is held, but its parent no longer counts it. The parent
can be removed in its turn and freed, and then the entry leads to a free inode. With the additional
condition that a directory is only removed while no such directory is left below another one than the
root, no entry ever refers to a free inode, and `ilock` finds a type wherever a path leads.
-/

namespace Xv6.Fs

open Lib Disk

/-! ### The law of the system calls -/

variable {name : List UInt8}

namespace Volume

variable {v v' : Volume} {d n k : Nat}

/-- A directory has links. -/
def Linked (v : Volume) (d : Nat) : Prop := (v.din d).type = tDir → 0 < (v.din d).nlink

/-- No link count is at its maximum. -/
def Room (v : Volume) : Prop := ∀ n < nInodes, (v.din n).type ≠ 0 → (v.din n).nlink < 32767

/-- A removed directory that is still allocated was one of the root directory's. -/
def Calm (v : Volume) : Prop :=
  ∀ d < nInodes, (v.din d).type = tDir → ¬ 0 < (v.din d).nlink → (v.dirent d 1).inum = rootIno

instance (v : Volume) : DecidablePred v.Linked := fun _ => inferInstanceAs (Decidable (_ → _))
instance (v : Volume) : Decidable v.Room := inferInstanceAs (Decidable (∀ n < nInodes, _))
instance (v : Volume) : Decidable v.Calm := inferInstanceAs (Decidable (∀ d < nInodes, _))

/-- The entry `..` of every directory leads to a live one. -/
def Rooted (v : Volume) : Prop := ∀ d, (v.din d).type = tDir → v.Live (v.dirent d 1).inum

lemma freeClosed_linked : FreeClosed (·.Linked d) := by
  intro n v v' h hf hdir
  have hlive := hf.sameDirs.live d
  exact (hlive.mpr ⟨hf.sameDirs.dir d hdir, h (hf.sameDirs.dir d hdir)⟩).2

lemma freeClosed_room : FreeClosed Room := by
  intro n v v' h hf x hx hne
  have hxn : x ≠ n := fun heq => hne (heq ▸ hf.freed)
  rw [hf.din x hxn] at hne ⊢
  exact h x hx hne

lemma freeClosed_calm : FreeClosed Calm := by
  intro n v v' h hf d hd hdir hdead
  have hdir' := hf.sameDirs.dir d hdir
  rw [hf.sameDirs.dirent d 1 hdir]
  refine h d hd hdir' fun hpos => hdead ?_
  exact ((hf.sameDirs.live d).mpr ⟨hdir', hpos⟩).2

/-! ### Parents -/

lemma SameDirs.rooted (h : v.SameDirs v') (hr : v.Rooted) : v'.Rooted := by
  intro d hd
  rw [h.dirent d 1 hd, h.live]
  exact hr d (h.dir d hd)

lemma Replaces.rooted {de : Dirent} (h : v.Replaces d k de v') (hs : v.Shape) (hr : v.Rooted) : v'.Rooted := by
  intro x hx
  rw [h.type] at hx
  rw [h.first hs hx (by omega), h.live_iff]
  exact hr x hx

lemma NewDir.rooted (h : v.NewDir d n k name v') (hok : LinkOk none v)
    (hlive : v.Live d) (hroom : (v.din d).nlink < 32767) (hr : v.Rooted) : v'.Rooted := by
  intro x hx
  by_cases hxn : x = n
  · subst hxn
    rw [h.self_dotdot, inum_ofBytes_bytes _ (hok.bounded d hlive.type_ne),
      h.live_iff hlive hroom (h.ne_dir hlive.type_ne)]
    exact hlive
  · rw [h.type x hxn] at hx
    obtain ⟨htwo, -⟩ := hok.freeSlot_le hlive.1 h.slot
    have hslots := (hok.shape.two x hx).trans (h.slots x hxn)
    rw [(h.other x 1 hxn (by omega) fun heq => by omega).2]
    have hp := hr x hx
    rw [h.live_iff hlive hroom (h.ne_dir hp.type_ne)]
    exact hp

lemma OldDir.rooted (h : v.OldDir d n k v') (hok : LinkOk none v) (hcalm : v.Calm) : v'.Rooted := by
  have hok' := hok.rmdir h
  intro x hx
  by_cases hpos : 0 < (v'.din x).nlink
  · by_cases hroot : x = rootIno
    · rw [hroot, hok'.shape.root.2]
      exact hok'.shape.root.1
    · exact (hok'.shape.up x ⟨hx, hpos⟩ hroot).1
  · have hx' := hx
    rw [h.type] at hx'
    have hslots := hok.shape.two x hx'
    have hne : ¬ (x = d ∧ 1 = k) := fun heq => by
      have := h.two
      omega
    rw [h.other x 1 (by omega) hne]
    by_cases hxn : x = n
    · rw [hxn, (hok.parent_old h.toRemovable).2, hok.live_rmdir h]
      exact ⟨h.live, h.ne.symm⟩
    · -- it had been removed before
      have hdead : ¬ 0 < (v.din x).nlink := fun hlive =>
        hpos ((hok.live_rmdir h x).mpr ⟨⟨hx', hlive⟩, hxn⟩).2
      rw [hcalm x (hok.bounded x (by rw [hx']; decide)) hx' hdead]
      exact hok'.shape.root.1

/-! ### The law of the system calls -/

/-- Link counts are exact and, where that is asked for, parents are live. -/
structure Obeys (parents : Bool) (m : Option Nat) (v : Volume) : Prop where
  ok : LinkOk m v
  rooted : parents = true → v.Rooted

namespace Obeys

variable {parents : Bool} {m : Option Nat} {name : List UInt8}

/-- Where an entry of a live directory leads. -/
lemma entry (h : Obeys parents m v) (hl : v.Linked d) (hd : (v.din d).type = tDir)
    (hlt : k < v.slots d) (hne : (v.dirent d k).inum ≠ 0) : v.Linked (v.dirent d k).inum := by
  intro hdir
  have hlive : v.Live d := ⟨hd, hl hd⟩
  by_cases h0 : k = 0
  · rw [h0, (h.ok.shape.dot d hd).1]
    exact hlive.2
  by_cases h1 : k = 1
  · subst h1
    by_cases hroot : d = rootIno
    · rw [hroot, h.ok.shape.root.2]
      exact h.ok.shape.root.1.2
    · exact (h.ok.shape.up d hlive hroot).1.2
  · have hproper := h.ok.shape.proper d k hd (by omega) hlt hne
    have hpos := links_pos h.ok.bounded ⟨hlive, hlt, rfl, hproper.1⟩
    have hexact := h.ok.exact _ (by rw [hdir]; decide)
    rw [nlink_pos, hexact]
    split <;> omega

lemma of_sameDirs {m' : Option Nat} (h : Obeys parents m v) (hs : v.SameDirs v') (hok : LinkOk m' v') :
    Obeys parents m' v' := ⟨hok, fun hp => hs.rooted (h.rooted hp)⟩

lemma frees : FreeClosed (Obeys parents m) := fun _ _ _ h hf =>
  h.of_sameDirs hf.sameDirs (h.ok.frees hf)

lemma count (h : Obeys parents none v) (hroom : v.Room) (hn : (v.din n).type ≠ 0)
    (hdir : (v.din n).type ≠ tDir) (hs : v.Sets n { v.din n with nlink := (v.din n).nlink + 1 } v') :
    Obeys parents (some n) v' :=
  h.of_sameDirs (hs.sameDirs hdir hdir) (h.ok.count (hroom n (h.ok.bounded n hn) hn) hn hdir hs)

lemma uncount (h : Obeys parents (some n) v)
    (hs : v.Sets n { v.din n with nlink := (v.din n).nlink - 1 } v') : Obeys parents none v' := by
  obtain ⟨-, hdir⟩ := h.ok.counted n rfl
  exact h.of_sameDirs (hs.sameDirs hdir hdir) (h.ok.uncount hs)

lemma enter (h : Obeys parents (some n) v) (hlive : v.Live d) (hnew : v.NotFound d name)
    (hslot : v.FreeSlot d k) (hw : v.Writes d (direntSize * k) (Dirent.bytes ⟨n, name⟩) v') :
    Obeys parents none v' := by
  refine ⟨h.ok.enter hlive hnew hslot hw, fun hp => ?_⟩
  obtain ⟨htwo, hle⟩ := h.ok.freeSlot_le hlive.1 hslot
  exact (hw.replaces (length_direntBytes _) hlive htwo hle).rooted h.ok.shape (h.rooted hp)

lemma create {type : Int16} (h : Obeys parents none v) (hroom : type = tDir → v.Room)
    (hl : v.Linked d) (hd : (v.din d).type = tDir) (h0 : type ≠ 0) (hc : v.Creates d n name type v') :
    Obeys parents none v' := by
  have hlive : v.Live d := ⟨hd, hl hd⟩
  by_cases hdir : type = tDir
  · subst hdir
    obtain ⟨k, hnew⟩ := hc.newDir hd
    have hmax := hroom rfl d (h.ok.bounded d hlive.type_ne) hlive.type_ne
    exact ⟨h.ok.mkdir hlive hmax hnew, fun hp => hnew.rooted h.ok hlive hmax (h.rooted hp)⟩
  · cases hc with
    | dir heq => exact absurd heq hdir
    | node _ alloc link new slot entry =>
      have hsame := (alloc.sets link).sameDirs (by rw [alloc.free]; decide)
        (by rw [alloc.din_self]; exact hdir)
      have hok := h.of_sameDirs hsame (h.ok.alloc h0 hdir alloc link)
      exact hok.enter ((hsame.live d).mpr hlive) new slot entry

end Obeys

/-- The entry of `d` for `n` is gone: what is left to do is to count one link less. -/
def Removing (parents : Bool) (d n : Nat) (v : Volume) : Prop :=
  Obeys parents (some n) v ∨ 0 < (v.din d).nlink ∧
    ∀ v', v.Sets n { v.din n with nlink := (v.din n).nlink - 1 } v' → Obeys parents none v'

lemma Obeys.erase {parents : Bool} (h : Obeys parents none v)
    (hcalm : parents → v.Calm) (hnd : n ≠ d) (hd : (v.din d).type = tDir) (hf : v.Found d name k n)
    (hdot : namecmp name Fs.dot = false) (hdotdot : namecmp name Fs.dotdot = false)
    (hn : (v.din n).type ≠ 0) (hempty : (v.din n).type = tDir → v.EmptyDir n)
    (he : v.Erases d k (decide ((v.din n).type = tDir)) v') : Removing parents d n v' := by
  obtain ⟨hlive, htwo⟩ := h.ok.live_of_found hd hf hdot hdotdot
  by_cases hdir : (v.din n).type = tDir
  · rw [decide_eq_true hdir] at he
    cases he with
    | dir entry uncount =>
      have hrem : v.Removable d n k := ⟨hlive, hnd, hdir, hempty hdir, htwo, hf.lt, hf.inum⟩
      refine .inr ⟨?_, fun v'' hs => ?_⟩
      · have hexact := h.ok.exact d hlive.type_ne
        have hlinks := h.ok.two_le_links hrem
        rw [if_neg (by simp)] at hexact
        rw [uncount.din_self, entry.nlink_eq, nlink_pos, toInt_sub_one (by omega)]
        omega
      · have hold := hrem.oldDir entry uncount hs
        exact ⟨h.ok.rmdir hold, fun hp => hold.rooted h.ok (hcalm hp)⟩
  · rw [decide_eq_false hdir] at he
    cases he with
    | file entry =>
      refine .inl ⟨h.ok.erase hlive htwo hf.lt hf.inum hf.ne hn hdir entry, fun hp => ?_⟩
      exact (entry.replaces (by simp) hlive htwo hf.lt.le).rooted h.ok.shape (h.rooted hp)

end Volume

/-- Exact link counts, as a law about names. With `parents`, also that parents are live. -/
def linkLaw (parents : Bool) : Law where
  holds := Volume.Obeys parents
  linked := Volume.Linked
  room := Volume.Room
  calm v := parents = true → v.Calm
  removing := Volume.Removing parents
  root h _ := h.ok.shape.root.1.2
  entry h hl hd hlt hne := h.entry hl hd hlt hne
  frees := Volume.Obeys.frees
  frees_linked := Volume.freeClosed_linked
  frees_room := Volume.freeClosed_room
  frees_calm n v v' h hf hp := Volume.freeClosed_calm n v v' (h hp) hf
  writes h hn hw := h.of_sameDirs (hw.sameDirs hn) (h.ok.writes hn hw)
  count {v n v'} h hroom hn hdir hs := by
    refine ⟨h.count hroom hn hdir hs, fun d hl hd => ?_⟩
    have hsame := hs.sameDirs hdir hdir
    exact ((hsame.live d).mpr ⟨hsame.dir d hd, hl (hsame.dir d hd)⟩).2
  uncount h _ hs := h.uncount hs
  enter h hl _ hd hnew hslot hw := h.enter ⟨hd, hl hd⟩ hnew hslot hw
  create h hroom hl hd h0 hc := h.create hroom hl hd h0 hc
  erase h hcalm hnd hd hf hdot hdotdot hn hempty he := h.erase hcalm hnd hd hf hdot hdotdot hn hempty he
  removing_frees {d n v v'} h hf := by
    cases h with
    | inl h => exact .inl (Volume.Obeys.frees d v v' h hf)
    | inr h => exact absurd (hf.nlink ▸ h.1) (by decide)
  removed h _ hs := by
    cases h with
    | inl h => exact h.uncount hs
    | inr h => exact h.2 _ hs

/-! ### Runs -/

variable {s : State} {p : ProcId} {c : Call}

namespace State

/-- A relative path starts at a working directory that has links. -/
def FromLinked (s : State) (p : ProcId) (path : List UInt8) : Prop :=
  path.head? ≠ some slash → ∀ i, s.cwd p = some i → s.diskVolume.Linked (s.inode i).inum

instance (s : State) (p : ProcId) (path : List UInt8) : Decidable (s.FromLinked p path) :=
  inferInstanceAs (Decidable (_ → ∀ _, _))

/-- A call that makes a name starts from a directory that has links, and no link count is at its maximum
when a link is added. -/
def Careful (s : State) (p : ProcId) : Call → Prop
  | .link _ new => s.diskVolume.Room ∧ s.FromLinked p new
  | .openPath path omode => omode.create = true → s.FromLinked p path
  | .mkdir path => s.diskVolume.Room ∧ s.FromLinked p path
  | .mknod path _ _ => s.FromLinked p path
  | _ => True

/-- In addition, names are removed only while the directories removed before and still in use are those
of the root directory. -/
def Orderly (s : State) (p : ProcId) : Call → Prop
  | .unlink _ => s.diskVolume.Calm
  | c => s.Careful p c

instance (s : State) (p : ProcId) : DecidablePred (s.Careful p) := by
  intro c
  unfold Careful
  split <;> infer_instance

instance (s : State) (p : ProcId) : DecidablePred (s.Orderly p) := by
  intro c
  unfold Orderly
  split <;> infer_instance

lemma Careful.allowed (h : s.Careful p c) : s.Allowed (linkLaw false) p c := by
  cases c with
  | unlink path => exact nofun
  | _ => exact h

lemma Orderly.allowed (h : s.Orderly p c) : s.Allowed (linkLaw true) p c := by
  cases c with
  | unlink path => exact fun _ => h
  | _ => exact h

end State

section Runs

variable {disk : Nat → Block} {devsw : Fin nDev → Device} {t : State} {as : List (ProcId × Call)}

/-- Link counts are exact in every state that careful system calls reach from a consistent image. So an
inode that has a link has a name. -/
theorem link_counts (howned : (⟨diskInodes disk, disk⟩ : Volume).Owned)
    (hdata : (⟨diskInodes disk, disk⟩ : Volume).InData)
    (hregular : (⟨diskInodes disk, disk⟩ : Volume).Regular)
    (hlinks : Volume.LinkOk none ⟨diskInodes disk, disk⟩)
    (hrun : Run State.step (fun s a => s.Careful a.1 a.2) (State.mount disk devsw) as t) (n : Nat)
    (hn : (t.diskVolume.din n).type ≠ 0) :
    (t.diskVolume.din n).nlink.toInt = t.diskVolume.links n ∧
      (0 < (t.diskVolume.din n).nlink → ∃ d k, t.diskVolume.IsName n d k) := by
  have h : t.AtRest (Volume.Obeys false none) :=
    hrun.inv (mount_atRest (howned.sound hdata) hregular ⟨hlinks, fun hp => absurd hp (by decide)⟩)
      fun _ _ _ h hc hstep => State.AtRest.step (D := linkLaw false) h hc.allowed hstep
  have hexact := h.holds.ok.exact n hn
  rw [if_neg (by simp), add_zero] at hexact
  refine ⟨hexact, fun hpos => Volume.exists_isName h.holds.ok.bounded ?_⟩
  rw [Volume.nlink_pos, hexact] at hpos
  omega

end Runs

/-! ### The image with one file -/

/-- The volume of the image with the root directory and an empty file. -/
def oneFile : Volume := ⟨diskInodes (image (fileOf 0)), image (fileOf 0)⟩

lemma oneFile_din (n : Nat) : oneFile.din n =
    if n = 2 then fileOf 0 else if n = 1 then rootDin else diskInodes blankDisk n := by
  show diskInodes (image (fileOf 0)) n = _
  rw [diskInodes_image (by decide), Function.update_apply, Function.update_apply]

variable {d : Nat}

lemma oneFile_type_eq_tDir : (oneFile.din d).type = tDir ↔ d = 1 := by
  rw [oneFile_din]
  by_cases h2 : d = 2
  · simp [h2, fileOf, tFile, tDir]
  · by_cases h1 : d = 1
    · simp [h1, rootDin]
    · simp [h1, h2, diskInodes_blankDisk, tDir]

variable {n : Nat}

lemma oneFile_type_ne (h : (oneFile.din n).type ≠ 0) : n = 1 ∨ n = 2 := by
  by_contra hne
  rw [not_or] at hne
  rw [oneFile_din, if_neg hne.2, if_neg hne.1] at h
  exact h (diskInodes_blankDisk n)

lemma oneFile_live : oneFile.Live d ↔ d = 1 := by
  constructor
  · exact fun h => oneFile_type_eq_tDir.mp h.1
  · intro h
    subst h
    exact ⟨oneFile_type_eq_tDir.mpr rfl, by rw [oneFile_din]; decide⟩

lemma oneFile_slots : oneFile.slots 1 = 3 := by
  rw [Volume.slots, oneFile_din]
  rfl

def rootEntry (k : Nat) : Dirent :=
  .ofBytes ((List.range direntSize).map fun x => rootEntries.get (direntSize * k + x))

variable {k : Nat}

lemma oneFile_dirent (hk : k < 3) : oneFile.dirent 1 k = rootEntry k := by
  unfold Volume.dirent Volume.bytes rootEntry
  congr 1
  refine List.map_congr_left fun x hx => ?_
  have hx := List.mem_range.mp hx
  unfold direntSize at hx ⊢
  exact byte_image (by omega)

lemma oneFile_inum (hk : k < 3) : (oneFile.dirent 1 k).inum = if k = 2 then 2 else 1 := by
  have hall : ∀ k < 3, (rootEntry k).inum = if k = 2 then 2 else 1 := by decide
  rw [oneFile_dirent hk]
  exact hall k hk

lemma oneFile_name (hk : k < 3) : (namecmp (oneFile.dirent 1 k).name dot = decide (k = 0)) ∧
    (namecmp (oneFile.dirent 1 k).name dotdot = decide (k = 1)) := by
  have hall : ∀ k < 3, (namecmp (rootEntry k).name dot = decide (k = 0)) ∧
      (namecmp (rootEntry k).name dotdot = decide (k = 1)) := by decide
  rw [oneFile_dirent hk]
  exact hall k hk

lemma oneFile_isName : oneFile.IsName n d k ↔ d = 1 ∧ (k = 1 ∧ n = 1 ∨ k = 2 ∧ n = 2) := by
  constructor
  · intro h
    obtain rfl := oneFile_live.mp h.live
    have hk := h.lt
    rw [oneFile_slots] at hk
    have hinum := h.inum
    have hproper := h.proper
    rw [oneFile_inum hk] at hinum
    rw [(oneFile_name hk).1] at hproper
    have h0 : k ≠ 0 := of_decide_eq_false hproper
    refine ⟨rfl, ?_⟩
    split at hinum <;> omega
  · intro h
    obtain ⟨rfl, h⟩ := h
    have hk : k < 3 := by omega
    refine ⟨oneFile_live.mpr rfl, by rwa [oneFile_slots], ?_, ?_⟩
    · rw [oneFile_inum hk]
      split <;> omega
    · rw [(oneFile_name hk).1]
      exact decide_eq_false (by omega)

lemma oneFile_linkOk : Volume.LinkOk none oneFile := by
  have hbounded : oneFile.Bounded := fun n hn => by
    cases oneFile_type_ne hn with
    | inl h | inr h => rw [h]; decide
  have hlinks : ∀ n, n = 1 ∨ n = 2 → oneFile.links n = 1 := fun n hn => by
    have hset : oneFile.names n = {⟨1, n⟩} := by
      ext ⟨d, k⟩
      rw [Volume.mem_names hbounded, oneFile_isName, Finset.mem_singleton, Sigma.mk.injEq, heq_eq_eq]
      omega
    rw [Volume.links, hset, Finset.card_singleton]
  have hnone : ∀ n ≠ 1, n ≠ 2 → oneFile.links n = 0 := fun n h1 h2 => by
    by_contra hne
    obtain ⟨d, k, hname⟩ := Volume.exists_isName hbounded (Nat.pos_of_ne_zero hne)
    have := (oneFile_isName.mp hname).2
    omega
  have hroot : ∀ {d}, (oneFile.din d).type = tDir → d = 1 := oneFile_type_eq_tDir.mp
  refine ⟨hbounded, by rw [oneFile_din]; exact diskInodes_blankDisk 0, ?_, fun n hn => ?_, fun n hn h0 => ?_,
    fun n hn => absurd hn (by simp)⟩
  · refine ⟨fun d hd => ?_, fun d hd => ?_, fun d hd => ?_, fun d k hd hk hlt _ => ?_,
      fun d hd hdead => ?_, ?_, fun d hd hne => absurd (oneFile_live.mp hd) hne, fun d k hd hk hlt hdir => ?_,
      fun d j k hd hj hjlt hk hklt _ _ => ?_⟩
    · rw [hroot hd, oneFile_slots]
      omega
    · rw [hroot hd, oneFile_inum (by omega), (oneFile_name (by omega)).1]
      decide
    · rw [hroot hd, oneFile_inum (by omega), (oneFile_name (by omega)).2]
      decide
    · obtain rfl := hroot hd
      rw [oneFile_slots] at hlt
      rw [(oneFile_name hlt).1, (oneFile_name hlt).2]
      exact ⟨decide_eq_false (by omega), decide_eq_false (by omega)⟩
    · exact absurd (oneFile_live.mpr (hroot hd)).2 hdead
    · exact ⟨oneFile_live.mpr rfl, oneFile_inum (by omega)⟩
    · obtain rfl := oneFile_live.mp hd
      rw [oneFile_slots] at hlt
      have := hroot hdir
      rw [oneFile_inum hlt] at this
      split at this <;> omega
    · obtain rfl := oneFile_live.mp hd
      rw [oneFile_slots] at hjlt hklt
      omega
  · rw [if_neg (by simp), hlinks n (oneFile_type_ne hn), oneFile_din]
    cases oneFile_type_ne hn with
    | inl h | inr h => rw [h]; rfl
  · refine hnone n (fun h1 => ?_) fun h2 => ?_
    · rw [h1, oneFile_din] at h0
      exact absurd h0 (by decide)
    · rw [h2, oneFile_din] at h0
      exact absurd h0 (by decide)

/-- `/d` -/
def pathD : List UInt8 := [47, 100]

/-- Make a directory and another name for the file in it, and remove the first name. -/
def moveFile : List (ProcId × Call) :=
  [(0, .mkdir pathD), (0, .link [47, 102] [47, 100, 47, 103]), (0, .unlink [47, 102])]

/-- The file has one link, the name in the new directory. -/
theorem link_counts_moveFile :
    ∃ t, Run State.step (fun s a => s.Careful a.1 a.2) (State.mount (image (fileOf 0)) noDevices) moveFile t ∧
      (t.diskVolume.din 2).nlink = 1 ∧ (t.diskVolume.din 2).nlink.toInt = t.diskVolume.links 2 := by
  obtain ⟨t, hrun, htype, hnlink⟩ := run_of_check State.step (fun s a => s.Careful a.1 a.2)
    (State.mount (image (fileOf 0)) noDevices) moveFile
    (fun t => (diskInodes t.disk 2).type ≠ 0 ∧ (diskInodes t.disk 2).nlink = 1) (by decide +kernel)
  exact ⟨t, hrun, hnlink, (link_counts (image_owned (by decide)) (image_inData (by decide)) image_regular
    oneFile_linkOk hrun 2 htype).1⟩

/-- Remove the working directory and create a file in it. -/
def createInRemoved : List (ProcId × Call) :=
  [(0, .mkdir pathD), (0, .chdir pathD), (0, .unlink pathD),
    (0, .openPath [103] ⟨false, true, true, true⟩)]

/-- The new file has a link, but no live directory has a name for it. -/
theorem create_in_removed_directory :
    oneFile.Owned ∧ oneFile.InData ∧ oneFile.Regular ∧ Volume.LinkOk none oneFile ∧
    ∃ t, Run State.step anyStep (State.mount (image (fileOf 0)) noDevices) createInRemoved t ∧
      (t.diskVolume.din 4).type = tFile ∧ (t.diskVolume.din 4).nlink = 1 ∧
      t.diskVolume.links 4 = 0 := by
  refine ⟨image_owned (by decide), image_inData (by decide), image_regular, oneFile_linkOk, ?_⟩
  exact run_of_check _ _ _ _ _ (by decide +kernel)

end Xv6.Fs
