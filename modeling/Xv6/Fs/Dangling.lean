import Xv6.Fs.LinkCounts

/-!
# Entries of directories lead to allocated inodes

`ilock` panics where it reads an inode of type zero, which can only happen if a directory entry refers to
an inode that has been freed. Along an orderly run there is no such entry, and the walk of a path never
comes to that panic.
-/

namespace Xv6.Fs

open Lib Disk

/-- `ilock` has read an inode that is free. -/
def noType : Stop := .panic "ilock: no type"

variable {P : Volume → Prop} {s s₀ t : State} {C T : Multiset (InodeId × Nat)}
  {L : List (InodeId × Int16)} {i : InodeId} {n : Nat}

/-! ### What else stops for other reasons -/

variable {msg : String}

lemma avoids_panic {α : Type} (h : msg ≠ "ilock: no type") :
    Avoids noType (panic msg : FM α) := Avoids.throw fun heq => h (Stop.panic.inj heq)

lemma modifyInode_avoids {f : Inode → Inode} : Avoids noType (modifyInode i f) :=
  .bind .get fun _ => .set

variable {b : Nat} {data : Block}

lemma logWrite_avoids : Avoids noType (logWrite b data) :=
  .bind .get fun _ => .ite (avoids_panic (by decide)) (.ite (avoids_panic (by decide)) .set)

lemma bread_avoids : Avoids noType (bread b) := .bind .get fun _ => .pure

lemma poke_avoids : Avoids noType (poke b data) := .bind .get fun _ => .set

lemma bfree_avoids : Avoids noType (bfree b) :=
  .bind bread_avoids fun _ => .ite (avoids_panic (by decide)) logWrite_avoids

lemma freeTree_avoids (l : Nat) : ∀ b, Avoids noType (freeTree l b) := by
  induction l with
  | zero => exact fun b => bfree_avoids
  | succ l ih =>
    intro b
    refine .bind (.forM (fun j => .bind bread_avoids fun _ => .ite ?_ .pure) _) fun _ => bfree_avoids
    exact .bind (ih _) fun _ => .bind bread_avoids fun _ => poke_avoids

lemma iupdate_avoids : Avoids noType (iupdate i) :=
  .bind .get fun _ => .bind bread_avoids fun _ => logWrite_avoids

lemma itrunc_avoids : Avoids noType (itrunc i) := by
  refine .bind (.forM (fun k => .bind .get fun _ => .ite ?_ .pure) _) fun _ => ?_
  · exact .bind (freeTree_avoids _ _) fun _ => modifyInode_avoids
  · exact .bind modifyInode_avoids fun _ => iupdate_avoids

lemma iput_avoids : Avoids noType (iput i) := by
  have hacquire : Avoids noType (acquiresleep i) :=
    .bind .get fun _ => .ite (.throw nofun) modifyInode_avoids
  have hdrop : Avoids noType (do
      releasesleep i
      modifyInode i fun ip => { ip with ref := ip.ref - 1 }) :=
    .bind modifyInode_avoids fun _ => modifyInode_avoids
  unfold iput
  refine .bind hacquire fun _ => .bind .get fun s => .ite (.ite ?_ hdrop) hdrop
  exact .bind itrunc_avoids fun _ => .bind modifyInode_avoids fun _ => .bind iupdate_avoids fun _ =>
    .bind modifyInode_avoids fun _ => hdrop

lemma iunlock_avoids : Avoids noType (iunlock i) :=
  .bind .get fun _ => .ite (avoids_panic (by decide)) modifyInode_avoids

lemma iunlockput_avoids : Avoids noType (iunlockput i) := .bind iunlock_avoids fun _ => iput_avoids

lemma iget_avoids : Avoids noType (iget n) := by
  refine .bind .get fun s => ?_
  split
  · exact .bind modifyInode_avoids fun _ => .pure
  · split
    · exact .bind modifyInode_avoids fun _ => .pure
    · exact avoids_panic (by decide)

lemma balloc_avoids : Avoids noType balloc := by
  refine .bind .get fun s => ?_
  split
  · exact .bind bread_avoids fun _ => .bind logWrite_avoids fun _ => .bind logWrite_avoids fun _ => .pure
  · exact avoids_panic (by decide)

lemma topEntry_avoids {k : Fin nAddrs} : Avoids noType (topEntry i k) :=
  .bind .get fun _ => .ite (.bind balloc_avoids fun _ => .bind modifyInode_avoids fun _ => .pure) .pure

lemma indexEntry_avoids {j : Nat} : Avoids noType (indexEntry b j) :=
  .bind bread_avoids fun _ => .ite (.bind balloc_avoids fun _ => .bind bread_avoids fun _ =>
    .bind logWrite_avoids fun _ => .pure) .pure

lemma bmap_avoids {bn : Nat} : Avoids noType (bmap i bn) := by
  unfold bmap
  split
  · exact topEntry_avoids
  dsimp only
  split
  · exact .bind topEntry_avoids fun _ => indexEntry_avoids
  split
  · exact .bind topEntry_avoids fun _ => .bind indexEntry_avoids fun _ => indexEntry_avoids
  split
  · exact .bind topEntry_avoids fun _ => .bind indexEntry_avoids fun _ =>
      .bind indexEntry_avoids fun _ => indexEntry_avoids
  · exact avoids_panic (by decide)

lemma readLoop_avoids (rounds : Nat) : ∀ off n, Avoids noType (readLoop i rounds off n) := by
  induction rounds with
  | zero => exact fun _ _ => .pure
  | succ rounds ih =>
    intro off n
    exact .ite .pure (.bind bmap_avoids fun _ => .bind bread_avoids fun _ => .bind (ih _ _) fun _ => .pure)

lemma readi_avoids {off : Nat} : Avoids noType (readi i off n) := by
  refine .bind .get fun s => .ite ?_ (.ite .pure (.bind (readLoop_avoids _ _ _) fun _ => .pure))
  split
  · exact .pure
  · exact .pure

lemma dirScan_avoids {p : Dirent → Bool} (hmsg : msg ≠ "ilock: no type") (rounds : Nat) :
    ∀ off, Avoids noType (dirScan i msg p rounds off) := by
  induction rounds with
  | zero => exact fun _ => .pure
  | succ rounds ih =>
    intro off
    refine .bind .get fun s => .ite (.bind readi_avoids fun r => ?_) .pure
    cases r with
    | none => exact avoids_panic hmsg
    | some b => exact .ite (avoids_panic hmsg) (.ite .pure (ih _))

lemma dirlookup_avoids {name : List UInt8} : Avoids noType (dirlookup i name) := by
  refine .bind .get fun s => .ite (avoids_panic (by decide))
    (.bind (.bind .get fun _ => dirScan_avoids (by decide) _ _) fun r => ?_)
  obtain ⟨off, de⟩ := r
  cases de with
  | none => exact .pure
  | some de => exact .bind iget_avoids fun _ => .pure

/-! ### The walk of a path -/

lemma ilock_typed (h : Kept P s₀ C T L s) (htype : (s.diskVolume.din (s.inode i).inum).type ≠ 0) :
    wp (ilock i) s (fun _ _ => True) fun e _ => e ≠ noType := by
  have hdisk : diskInodes s.disk (s.inode i).inum = diskInode s.disk (s.inode i).inum := if_pos (h.inum i)
  have htype : (diskInodes s.disk (s.inode i).inum).type ≠ 0 := htype
  rw [hdisk] at htype
  unfold ilock acquiresleep
  rw [wp_bind, wp_get, wp_ite]
  split
  · exact avoids_panic (by decide) s
  simp only [modifyInode, wp_bind, wp_get, wp_set, wp_ite, wp_throw, State.setInode_inode_self,
    State.setInode_disk]
  split
  · exact fun heq => Stop.noConfusion heq
  split
  · trivial
  · trivial

/-- Every directory entry leads to an allocated inode. -/
def Volume.NoDangling (v : Volume) : Prop :=
  ∀ d, (v.din d).type = tDir → ∀ k, k < v.slots d → (v.dirent d k).inum ≠ 0 →
    (v.din (v.dirent d k).inum).type ≠ 0

variable {parent : Bool}

lemma namexLoop_typed (hfree : Volume.FreeClosed P) (hentry : ∀ v, P v → v.NoDangling)
    {rounds : Nat} : ∀ {ip : InodeId} {n : Nat} {path : List UInt8} {s : State}, path.length < rounds →
      Kept (fun v => P v ∧ (v.din n).type ≠ 0) s₀ C ((ip, n) ::ₘ T) L s →
      wp (namexLoop parent rounds ip path) s (fun _ _ => True) fun e _ => e ≠ noType := by
  induction rounds with
  | zero => exact fun hlen => absurd hlen (Nat.not_lt_zero _)
  | succ rounds ih =>
    intro ip n path s hlen h
    unfold namexLoop
    cases hskip : skipelem path with
    | none => exact Avoids.ite (.bind iput_avoids fun _ => .pure) .pure s
    | some x =>
      obtain ⟨rest, name⟩ := x
      have hip : (s.inode ip).inum = n := h.tags (ip, n) (Multiset.mem_cons_self ..)
      have hlock := ilock_typed (i := ip) h (by rw [hip]; exact h.holds.2)
      refine wp.bind ((ilock_spec h).and hlock) (fun _ s1 h1 => ?_) fun _ _ he => he.2
      obtain ⟨⟨h1, hdisk, -⟩, -⟩ := h1
      generalize (diskInodes s.disk (s.inode ip).inum).type = t at h1
      have hn : (s1.inode ip).inum = n := h1.tags (ip, n) (Multiset.mem_cons_self ..)
      have hdtype := h1.disk_type (.head _) hn
      rw [wp_bind, wp_get, wp_ite]
      split
      · exact Avoids.bind iunlockput_avoids (fun _ => .pure) s1
      rw [wp_ite]
      split
      · exact Avoids.bind iunlock_avoids (fun _ => .pure) s1
      have hsame : Kept (fun v => (P v ∧ (v.din n).type ≠ 0) ∧ v = s1.diskVolume) s₀ C ((ip, n) ::ₘ T)
        ((ip, t) :: L) s1 := h1.mono fun hh => ⟨hh, rfl⟩
      refine wp.bind ((dirlookup_spec hsame (.head _) hn).and (dirlookup_avoids s1))
        (fun r s2 h2 => ?_) fun _ _ he => he.2
      obtain ⟨⟨ht, h2⟩, -⟩ := h2
      cases r with
      | none => exact Avoids.bind iunlockput_avoids (fun _ => .pure) s2
      | some x =>
        obtain ⟨next, off⟩ := x
        obtain ⟨m, k, -, hfound, h2⟩ := h2
        have hnext : Kept (fun v => P v ∧ (v.din m).type ≠ 0) s₀ C ((ip, n) ::ₘ (next, m) ::ₘ T)
            ((ip, t) :: L) s2 := by
          rw [Multiset.cons_swap]
          refine h2.mono fun hh => ?_
          obtain ⟨⟨hP, -⟩, hv⟩ := hh
          rw [hv] at hP ⊢
          refine ⟨hP, hfound.inum ▸ hentry _ hP n (hdtype.1.trans ht) k hfound.lt ?_⟩
          rw [hfound.inum]
          exact hfound.ne
        have hlen' := skipelem_length hskip
        have hput := iunlockput_spec hnext fun v v' hv hf hx => by
          -- the next inode is held, so it is not the one that is freed
          have hmn : m ≠ n := hx (next, m) (Multiset.mem_add.mpr (.inr (Multiset.mem_cons_self ..)))
          exact ⟨hfree n v v' hv.1 hf, by rw [hf.din m hmn]; exact hv.2⟩
        exact wp.bind (hput.and (iunlockput_avoids s2)) (fun _ _ h4 => ih (by omega) h4.1)
          fun _ _ he => he.2

lemma namex_typed {p : ProcId} {path : List UInt8} (hfree : Volume.FreeClosed P)
    (hentry : ∀ v, P v → v.NoDangling) (hroot : ∀ v, P v → (v.din rootIno).type ≠ 0)
    (h : Kept P s₀ s₀.refs T L s) : wp (namex p path parent) s (fun _ _ => True) fun e _ => e ≠ noType := by
  unfold namex
  rw [wp_ite]
  split
  · have h0 : Kept (fun v => P v ∧ (v.din rootIno).type ≠ 0) s₀ s₀.refs T L s :=
      h.mono fun hP => ⟨hP, hroot _ hP⟩
    exact wp.bind ((iget_spec h0 (by decide)).and (iget_avoids s))
      (fun _ _ h1 => namexLoop_typed hfree hentry (by omega) h1.1) fun _ _ he => he.2
  · rw [wp_bind, wp_get]
    cases hp : s.cwd p with
    | none => exact avoids_panic (by decide) s
    | some ip =>
      obtain ⟨n, hmem⟩ := exists_mem_refs ip (by rw [← h.cwd, hp])
      have htype : (s.diskVolume.din n).type ≠ 0 := by
        cases h.alive _ hmem with
        | inl heq => rw [show n = rootIno from heq]; exact hroot _ h.holds
        | inr hne => exact hne
      have h0 : Kept (fun v => P v ∧ (v.din n).type ≠ 0) s₀ s₀.refs T L s :=
        h.mono fun hP => ⟨hP, htype⟩
      exact wp.bind ((idup_spec h0 (h.ref_pos hmem) (h.pins _ hmem)).and (modifyInode_avoids s))
        (fun _ _ h1 => namexLoop_typed hfree hentry (by omega) h1.1) fun _ _ he => he.2

/-! ### Runs -/

lemma Volume.Obeys.noDangling {m : Option Nat} {v : Volume} (h : Volume.Obeys true m v) : v.NoDangling := by
  intro d hd k hk hne
  by_cases h0 : k = 0
  · rw [h0, (h.ok.shape.dot d hd).1, hd]
    decide
  by_cases h1 : k = 1
  · rw [h1]
    exact (h.rooted rfl d hd).type_ne
  -- an entry that is a name: the inode has a link
  intro hfree
  have hproper := h.ok.shape.proper d k hd (by omega) hk hne
  have hlive : v.Live d := by
    refine ⟨hd, ?_⟩
    by_contra hdead
    exact hne (h.ok.shape.dead d hd hdead k (by omega) hk)
  have hpos := Volume.links_pos h.ok.bounded ⟨hlive, hk, rfl, hproper.1⟩
  rw [h.ok.free _ hne hfree] at hpos
  exact absurd hpos (Nat.lt_irrefl 0)

section Runs

variable {disk : Nat → Block} {devsw : Fin nDev → Device} {as : List (ProcId × Call)}

/-- In every state that orderly system calls reach from a consistent image, the entries of every
directory, `..` included, lead to allocated inodes. So no path that is walked next stops in `ilock` for
want of a type. -/
theorem no_dangling_entries (howned : (⟨diskInodes disk, disk⟩ : Volume).Owned)
    (hdata : (⟨diskInodes disk, disk⟩ : Volume).InData)
    (hregular : (⟨diskInodes disk, disk⟩ : Volume).Regular)
    (hlinks : Volume.LinkOk none ⟨diskInodes disk, disk⟩)
    (hrooted : (⟨diskInodes disk, disk⟩ : Volume).Rooted)
    (hrun : Run State.step (fun s a => s.Orderly a.1 a.2) (State.mount disk devsw) as t) :
    t.diskVolume.NoDangling ∧
    ∀ p path parent e u, (do beginOp; namex p path parent : FM _) t = .error e u →
      e ≠ .panic "ilock: no type" := by
  have h : t.AtRest (Volume.Obeys true none) :=
    hrun.inv (mount_atRest (howned.sound hdata) hregular ⟨hlinks, fun _ => hrooted⟩)
      fun _ _ _ h hc hstep => State.AtRest.step (D := linkLaw true) h hc.allowed hstep
  refine ⟨h.holds.noDangling, fun p path parent e u herr => ?_⟩
  have hbegin : Avoids noType beginOp :=
    .bind .get fun _ => .ite (.throw nofun) .set
  have hwalk : wp (do beginOp; namex p path parent : FM _) t (fun _ _ => True) fun e _ => e ≠ noType :=
    wp.bind ((beginOp_spec h.kept).and (hbegin t))
      (fun _ _ h1 => namex_typed Volume.Obeys.frees (fun _ hv => hv.noDangling)
        (fun _ hv => hv.ok.shape.root.1.type_ne) h1.1) fun _ _ he => he.2
  exact hwalk.error herr

end Runs

lemma oneFile_rooted : oneFile.Rooted := by
  intro d hd
  rw [oneFile_type_eq_tDir.mp hd, oneFile_inum (by omega)]
  exact oneFile_live.mpr rfl

/-- Remove the working directory, and then look at its parent. -/
def leaveRemoved : List (ProcId × Call) :=
  [(0, .mkdir pathD), (0, .chdir pathD), (0, .unlink pathD), (0, .unlink [47, 102])]

/-- The removed directory is still there, and its parent is the root directory. -/
theorem no_dangling_leaveRemoved :
    ∃ t, Run State.step (fun s a => s.Orderly a.1 a.2) (State.mount (image (fileOf 0)) noDevices)
        leaveRemoved t ∧
      (t.diskVolume.din 3).type = tDir ∧ (t.diskVolume.din 3).nlink = 0 ∧ t.diskVolume.NoDangling := by
  obtain ⟨t, hrun, htype, hnlink⟩ := run_of_check State.step (fun s a => s.Orderly a.1 a.2)
    (State.mount (image (fileOf 0)) noDevices) leaveRemoved
    (fun t => (diskInodes t.disk 3).type = tDir ∧ (diskInodes t.disk 3).nlink = 0) (by decide +kernel)
  exact ⟨t, hrun, htype, hnlink, (no_dangling_entries (image_owned (by decide)) (image_inData (by decide))
    image_regular oneFile_linkOk oneFile_rooted hrun).1⟩

/-- How a program has stopped. -/
def stopOf {α : Type} : EStateM.Result Stop State α → Option Stop
  | .ok _ _ => none
  | .error e _ => some e

lemma error_of_stopOf {α : Type} {r : EStateM.Result Stop State α} {e : Stop} (h : stopOf r = some e) :
    ∃ u, r = .error e u := by
  cases r with
  | ok a u => cases h
  | error e' u => exact ⟨u, by rw [Option.some.inj h]⟩

/-- Remove the working directory, and then its parent. -/
def removeParent : List (ProcId × Call) :=
  [(0, .mkdir pathD), (0, .mkdir [47, 100, 47, 101]), (0, .chdir [47, 100, 47, 101]),
    (0, .unlink [47, 100, 47, 101]), (0, .unlink pathD)]

/-- The entry `..` of the working directory leads to an inode that is free, and to look up `..` is a
panic. -/
theorem removed_parent_dangles :
    oneFile.Owned ∧ oneFile.InData ∧ oneFile.Regular ∧ Volume.LinkOk none oneFile ∧ oneFile.Rooted ∧
    ∃ t, Run State.step anyStep (State.mount (image (fileOf 0)) noDevices) removeParent t ∧
      (t.diskVolume.din 4).type = tDir ∧ (t.diskVolume.dirent 4 1).inum = 3 ∧
      (t.diskVolume.din 3).type = 0 ∧
      ∃ u, Call.run 0 (.chdir [46, 46, 47, 103]) t = .error (.panic "ilock: no type") u := by
  refine ⟨image_owned (by decide), image_inData (by decide), image_regular, oneFile_linkOk,
    oneFile_rooted, ?_⟩
  obtain ⟨t, hrun, hdir, hinum, hfree, hstop⟩ := run_of_check State.step anyStep
    (State.mount (image (fileOf 0)) noDevices) removeParent
    (fun t => (t.diskVolume.din 4).type = tDir ∧ (t.diskVolume.dirent 4 1).inum = 3 ∧
      (t.diskVolume.din 3).type = 0 ∧ stopOf (Call.run 0 (.chdir [46, 46, 47, 103]) t) = some noType)
    (by decide +kernel)
  exact ⟨t, hrun, hdir, hinum, hfree, error_of_stopOf hstop⟩

end Xv6.Fs
