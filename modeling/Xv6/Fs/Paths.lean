import Xv6.Fs.Cache

/-!
# Directories and paths keep the file system in order

The paths of `Name` one by one: from a state in which the cache agrees with a sound and regular disk,
each of them leads to such a state again, or stops for a reason other than freeing a free block. What a
path holds when it returns is part of its specification: a reference that was got is put or handed over,
a lock that was taken is released. The results are told in terms of the volume on disk: which entry was
found, or that there is none.
-/

namespace Xv6.Fs

open Lib Disk

variable {P : Volume → Prop} {s₀ s : State} {C T : Multiset (InodeId × Nat)}
  {L : List (InodeId × Int16)} {i dp ip : InodeId} {d n : Nat} {t : Int16}

lemma FsInv.disk_type (h : FsInv C T L s) (hi : (i, t) ∈ L) (hn : (s.inode i).inum = n) :
    (s.diskVolume.din n).type = t ∧ t ≠ 0 := by
  obtain ⟨-, href, hvalid, htype⟩ := h.locked hi
  obtain ⟨hdin, hne⟩ := h.cached i href hvalid
  have hsame : (s.diskVolume.din n).type = t := by
    rw [← htype, hdin, ← hn]
    rfl
  exact ⟨hsame, htype ▸ hne⟩

variable {x y : InodeId × Int16}

lemma FsInv.inum_ne (h : FsInv C T (x :: y :: L) s) : (s.inode x.1).inum ≠ (s.inode y.1).inum := by
  intro heq
  have hx := (h.held x (.head _)).2.1
  have hy := (h.held y (.tail _ (.head _))).2.1
  have hsame := h.unique x.1 y.1 hx hy heq
  refine (List.nodup_cons.mp h.nodup).1 ?_
  rw [hsame]
  exact .head _

lemma Kept.swap (h : Kept P s₀ C T (x :: y :: L) s) :
    Kept P s₀ C T (y :: x :: L) s := ⟨h.toFsInv.swap, h.file, h.cwd, h.holds⟩

lemma Kept.exact (h : Kept P s₀ C T L s) : Kept (· = s.diskVolume) s₀ C T L s := h.mono fun _ => rfl

lemma Volume.FreeClosed.unheld (h : Volume.FreeClosed P) {X : Prop} :
    ∀ v v', P v → v.Frees n v' → X → P v' := fun v v' hv hf _ => h n v v' hv hf

/-! ### Directories -/

/-- A loop over a directory from entry `k` on has stopped at entry `m`. -/
structure Volume.Scanned (v : Volume) (d : Nat) (p : Dirent → Bool) (k m : Nat)
    (r : Option Dirent) : Prop where
  before : ∀ j, k ≤ j → j < m → j < v.slots d → p (v.dirent d j) = false
  here : ∀ de, r = some de → m < v.slots d ∧ de = v.dirent d m ∧ p de = true
  done : r = none → v.slots d ≤ m ∧ m ≤ max (v.slots d) k

variable {msg : String} {p : Dirent → Bool} {k rounds : Nat}

lemma dirScan_spec (h : FsInv C T L s)
    (hi : (i, tDir) ∈ L) (hd : (s.inode i).inum = d) (hmsg : msg ≠ "freeing free block") :
    ∀ {m : Nat}, m ≤ max (s.diskVolume.slots d) k → s.diskVolume.slots d < m + rounds →
      (∀ j, k ≤ j → j < m → j < s.diskVolume.slots d → p (s.diskVolume.dirent d j) = false) →
      wp (dirScan i msg p rounds (direntSize * m)) s
        (fun r s' => s' = s ∧ ∃ m, r.1 = direntSize * m ∧ s.diskVolume.Scanned d p k m r.2) Quiet := by
  obtain ⟨-, href, hvalid, htype⟩ := h.locked hi
  have hsize : (s.diskVolume.din d).size = (s.inode i).din.size := by
    rw [(h.cached i href hvalid).1, hd]
    rfl
  induction rounds with
  | zero =>
    intro m hm hrounds hbefore
    exact ⟨rfl, m, rfl, hbefore, fun _ hde => absurd hde (by simp), fun _ => ⟨by omega, hm⟩⟩
  | succ rounds ih =>
    intro m hm hrounds hbefore
    unfold dirScan
    rw [wp_bind, wp_get, wp_ite]
    split
    · refine wp.bind (readi_kept h hi (by decide)) (fun r s' hr => ?_) fun _ _ h => h.elim
      obtain ⟨rfl, hb⟩ := hr
      cases r with
      | none => exact quiet_panic hmsg
      | some b =>
        obtain ⟨hle, hbytes⟩ := hb (by decide) b rfl
        dsimp only
        rw [wp_ite]
        split
        · exact quiet_panic hmsg
        · rename_i hlength
          -- the whole entry lies in the directory
          have hmin : min direntSize ((s'.inode i).din.size - direntSize * m) = direntSize := by
            rw [not_not, hbytes, Volume.bytes, List.length_map, List.length_range] at hlength
            exact hlength
          have hlt : m < s'.diskVolume.slots d := by
            unfold Volume.slots
            rw [hsize]
            unfold direntSize at hmin ⊢
            omega
          have hentry : Dirent.ofBytes b = s'.diskVolume.dirent d m := by
            rw [hbytes, hmin, hd]
            rfl
          rw [hentry, wp_ite]
          split
          · rename_i hp
            refine ⟨rfl, m, rfl, hbefore, fun de hde => ?_, fun hnone => absurd hnone (by simp)⟩
            rw [← Option.some.inj hde]
            exact ⟨hlt, rfl, hp⟩
          · rename_i hp
            refine ih (m := m + 1) (by omega) (by omega) fun j hk hj hslots => ?_
            by_cases hjm : j = m
            · rw [hjm]
              simpa using hp
            · exact hbefore j hk (by omega) hslots
    · rename_i hend
      refine ⟨rfl, m, rfl, hbefore, fun _ hde => absurd hde (by simp), fun _ => ⟨?_, hm⟩⟩
      unfold Volume.slots
      rw [hsize]
      unfold direntSize at hend ⊢
      omega

lemma scan_spec (h : FsInv C T L s)
    (hi : (i, tDir) ∈ L) (hd : (s.inode i).inum = d) (hmsg : msg ≠ "freeing free block") :
    wp (scan i msg p k) s
      (fun r s' => s' = s ∧ ∃ m, r.1 = direntSize * m ∧ s.diskVolume.Scanned d p k m r.2) Quiet := by
  obtain ⟨-, href, hvalid, -⟩ := h.locked hi
  have hslots : (s.inode i).din.size / direntSize = s.diskVolume.slots d := by
    unfold Volume.slots
    rw [(h.cached i href hvalid).1, hd]
    rfl
  unfold scan
  rw [wp_bind, wp_get, hslots, Nat.mul_comm]
  exact dirScan_spec h hi hd hmsg (le_max_right _ _) (by omega) fun j hk hj _ => by omega

lemma FsInv.dirent_lt (h : FsInv C T L s) (hi : (i, tDir) ∈ L) (hd : (s.inode i).inum = d)
    (hk : k < s.diskVolume.slots d) : (s.diskVolume.dirent d k).inum < nInodes :=
  (h.regular d).dirs (h.disk_type hi hd).1 k hk

variable {name : List UInt8}

/-- Look up a name in a locked directory. -/
lemma dirlookup_spec (h : Kept P s₀ C T L s) (hi : (dp, t) ∈ L)
    (hd : (s.inode dp).inum = d) :
    wp (dirlookup dp name) s (fun r s' => t = tDir ∧ match r with
      | none => s' = s ∧ s.diskVolume.NotFound d name
      | some (i, off) => ∃ n k, off = direntSize * k ∧ s.diskVolume.Found d name k n ∧
          Kept P s₀ C ((i, n) ::ₘ T) L s') Quiet := by
  unfold dirlookup
  rw [wp_bind, wp_get, wp_ite]
  split
  · exact quiet_panic (by decide)
  · rename_i hdir
    obtain rfl : t = tDir := (h.locked hi).2.2.2.symm.trans (not_not.mp hdir)
    refine wp.seq (scan_spec h.toFsInv hi hd (by decide)) fun r s' hr => ?_
    obtain ⟨rfl, k, hoff, hscan⟩ := hr
    have hbefore : ∀ j < k, j < s'.diskVolume.slots d → (s'.diskVolume.dirent d j).inum ≠ 0 →
        namecmp name (s'.diskVolume.dirent d j).name = false := fun j hj hlt hne => by
      have := hscan.before j (Nat.zero_le j) hj hlt
      simpa [hne] using this
    obtain ⟨off, de⟩ := r
    cases de with
    | none =>
      have hend := (hscan.done rfl).1
      exact ⟨rfl, rfl, fun j hj hne => hbefore j (by omega) hj hne⟩
    | some de =>
      obtain ⟨hlt, rfl, hp⟩ := hscan.here de rfl
      simp only [Bool.and_eq_true, decide_eq_true_eq] at hp
      refine wp.seq (iget_spec h (h.dirent_lt hi hd hlt)) fun i s1 h1 => ?_
      exact ⟨rfl, _, k, hoff, ⟨hlt, rfl, hp.1, hp.2, fun j hj => hbefore j hj (by omega)⟩, h1⟩

lemma length_cstr_le (name : List UInt8) : (cstr name).length ≤ dirSiz :=
  (List.takeWhile_sublist _).length_le.trans (List.length_take_le _ _)

lemma length_direntBytes (de : Dirent) : de.bytes.length = direntSize := by
  have := length_cstr_le de.name
  simp only [Dirent.bytes, strncpy, List.length_append, List.length_replicate, List.length_cons,
    List.length_nil]
  unfold dirSiz at *
  unfold direntSize
  omega

lemma inum_ofBytes_bytes (name : List UInt8) (hn : n < nInodes) :
    (Dirent.ofBytes (Dirent.bytes ⟨n, name⟩)).inum = n := by
  unfold nInodes at hn
  have hlo : (UInt8.ofNat n).toNat = n := by
    rw [UInt8.toNat_ofNat']
    omega
  have hhi : n / 256 = 0 := by omega
  show (UInt8.ofNat n).toNat + 256 * (UInt8.ofNat (n / 256)).toNat = n
  rw [hlo, hhi]
  rfl

lemma entryWrite_bytes (name : List UInt8) (k : Nat) (hn : n < nInodes) :
    EntryWrite (direntSize * k) (Dirent.bytes ⟨n, name⟩) :=
  ⟨Dvd.intro k rfl, length_direntBytes _, by rwa [inum_ofBytes_bytes name hn]⟩

lemma entryWrite_zero (k : Nat) : EntryWrite (direntSize * k) (List.replicate direntSize 0) :=
  ⟨Dvd.intro k rfl, by simp, by decide⟩

lemma dirlink_spec (h : Kept P s₀ C T L s) (hi : (dp, t) ∈ L)
    (hd : (s.inode dp).inum = d) (hn : n < nInodes) (hP : Volume.FreeClosed P) :
    wp (dirlink dp name n) s (fun r s' => t = tDir ∧ match r with
      | false => (∃ k m, s.diskVolume.Found d name k m) ∧ Kept P s₀ C T L s'
      | true => ∃ k, s.diskVolume.NotFound d name ∧ s.diskVolume.FreeSlot d k ∧
          Kept (s.diskVolume.Writes d (direntSize * k) (Dirent.bytes ⟨n, name⟩)) s₀ C T L s' ∧
          ∀ j, (s'.inode j).inum = (s.inode j).inum) Quiet := by
  unfold dirlink
  refine wp.seq (dirlookup_spec h hi hd) fun r s1 h1 => ?_
  obtain ⟨rfl, h1⟩ := h1
  cases r with
  | some x =>
    obtain ⟨m, k, -, hfound, h1⟩ := h1
    exact wp.seq (iput_spec h1 hP.unheld) fun _ _ h2 => ⟨rfl, ⟨k, m, hfound⟩, h2⟩
  | none =>
    obtain ⟨rfl, hnew⟩ := h1
    refine wp.seq (scan_spec h.toFsInv hi hd (by decide)) fun r s2 hr => ?_
    obtain ⟨rfl, k, hoff, hscan⟩ := hr
    have hslot : s2.diskVolume.FreeSlot d k := by
      obtain ⟨off, de⟩ := r
      cases de with
      | none =>
        obtain ⟨hge, hle⟩ := hscan.done rfl
        exact .inr (by omega)
      | some de =>
        obtain ⟨hlt, rfl, hp⟩ := hscan.here de rfl
        exact .inl ⟨hlt, by simpa using hp⟩
    have hentry := entryWrite_bytes name k hn
    obtain ⟨off, de⟩ := r
    obtain rfl : off = direntSize * k := hoff
    refine wp.seq (writei_kept h hi hd (by rw [hentry.length]; decide) fun _ => hentry)
      fun r s3 h3 => ?_
    rw [wp_ite]
    split
    · exact quiet_panic (by decide)
    · rename_i hr
      cases h3 with
      | inl h3 => exact ⟨rfl, k, hnew, hslot, h3.2.1, h3.2.2⟩
      | inr h3 =>
        rw [h3.1 (by decide)] at hr
        exact absurd hr (by decide)

lemma isdirempty_spec (h : FsInv C T L s) (hi : (i, tDir) ∈ L) (hd : (s.inode i).inum = d) :
    wp (isdirempty i) s (fun r s' => s' = s ∧ (r → s.diskVolume.EmptyDir d)) Quiet := by
  unfold isdirempty
  refine wp.seq (scan_spec h hi hd (by decide)) fun r s' hr => ?_
  obtain ⟨rfl, m, -, hscan⟩ := hr
  obtain ⟨off, de⟩ := r
  refine ⟨rfl, fun hnone => ?_⟩
  obtain rfl : de = none := by simpa using hnone
  intro k hk hlt
  have := hscan.before k hk (by have := (hscan.done rfl).1; omega) hlt
  simpa using this

/-! ### Paths -/

variable {path : List UInt8}

lemma skipelem_length {rest : List UInt8} (h : skipelem path = some (rest, name)) :
    rest.length < path.length := by
  unfold skipelem at h
  dsimp only at h
  split at h
  · cases h
  · rename_i hne
    obtain ⟨rfl, -⟩ := Prod.mk.inj (Option.some.inj h)
    cases hdrop : path.dropWhile (· = slash) with
    | nil => exact absurd hdrop hne
    | cons c cs =>
      -- the first byte is not a slash, so it belongs to the element
      have hc : c ≠ slash := by
        have := List.head_dropWhile_not (fun c => decide (c = slash)) (by rw [hdrop]; simp)
        simpa [hdrop] using this
      have hcs : cs.length < path.length := by
        have := (List.dropWhile_sublist (fun c => decide (c = slash)) (l := path)).length_le
        rw [hdrop] at this
        exact this
      rw [List.dropWhile_cons_of_pos (by simpa using hc)]
      exact ((List.dropWhile_sublist _).length_le.trans
        (List.dropWhile_sublist _).length_le).trans_lt hcs

/-- What is known while a path is walked: `P` of the volume, and `R` of the inode that has been reached
and the rest of the path. -/
structure Walk (C : Multiset (InodeId × Nat)) (P : Volume → Prop)
    (R : Volume → Nat → List UInt8 → Prop) : Prop where
  frees : ∀ n v v', P v → v.Frees n v' → (∀ x ∈ C, x.2 ≠ n) → P v'
  frees_reach : ∀ d path n v v', R v d path → v.Frees n v' → (∀ x ∈ C, x.2 ≠ n) → R v' d path
  entry : ∀ {v d path rest name k n}, P v → R v d path → (v.din d).type = tDir →
    skipelem path = some (rest, name) → v.Found d name k n → R v n rest

/-- The walk cannot go on. -/
def Volume.Stuck (v : Volume) (parent : Bool) (d : Nat) (path : List UInt8) : Prop :=
  match skipelem path with
  | none => parent = true
  | some (rest, name) => (v.din d).type ≠ tDir ∨
      ¬ (parent = true ∧ rest = []) ∧ v.NotFound d name

/-- The walk has come to its end, with the last element of the path for `nameiparent`. -/
def Volume.Ends (v : Volume) (parent : Bool) (d : Nat) (path name : List UInt8) : Prop :=
  match parent with
  | false => skipelem path = none
  | true => skipelem path = some ([], name) ∧ (v.din d).type = tDir

/-- A path has returned an inode, with a reference to it, or none. -/
def Got (P : Volume → Prop) (R : Volume → Nat → List UInt8 → Prop) (parent : Bool) (s₀ : State)
    (C T : Multiset (InodeId × Nat)) (L : List (InodeId × Int16)) (r : Option (InodeId × List UInt8))
    (s : State) : Prop :=
  match r with
  | none => Kept P s₀ C T L s ∧ ∃ v d path, P v ∧ R v d path ∧ v.Stuck parent d path
  | some (i, name) => ∃ n path,
      Kept (fun v => P v ∧ R v n path ∧ v.Ends parent n path name) s₀ C ((i, n) ::ₘ T) L s

variable {R : Volume → Nat → List UInt8 → Prop}

lemma Walk.unheld (hw : Walk C P R) : ∀ v v', P v → v.Frees n v' → (∀ x ∈ C + T, x.2 ≠ n) → P v' :=
  fun v v' hP hf hx => hw.frees n v v' hP hf fun x hxC => hx x (Multiset.mem_add.mpr (.inl hxC))

variable {parent : Bool}

lemma namexLoop_spec (hw : Walk C P R) :
    ∀ {ip : InodeId} {n : Nat} {path : List UInt8} {s : State}, path.length < rounds →
      Kept (fun v => P v ∧ R v n path) s₀ C ((ip, n) ::ₘ T) L s →
      wp (namexLoop parent rounds ip path) s (Got P R parent s₀ C T L) Quiet := by
  induction rounds with
  | zero => exact fun hlen => absurd hlen (Nat.not_lt_zero _)
  | succ rounds ih =>
    intro ip n path s hlen h
    have hstuck : (s.diskVolume.Stuck parent n path) →
        ∃ v d path, P v ∧ R v d path ∧ v.Stuck parent d path := fun hst =>
      ⟨_, _, _, h.holds.1, h.holds.2, hst⟩
    have hdrop : Kept P s₀ C ((ip, n) ::ₘ T) L s := h.mono And.left
    unfold namexLoop
    cases hskip : skipelem path with
    | none =>
      dsimp only
      rw [wp_ite]
      split
      · rename_i hparent
        refine wp.seq (iput_spec hdrop hw.unheld) fun _ _ h1 => ⟨h1, hstuck ?_⟩
        simp only [Volume.Stuck, hskip]
        exact hparent
      · rename_i hparent
        refine ⟨n, path, h.mono fun hh => ⟨hh.1, hh.2, ?_⟩⟩
        obtain rfl : parent = false := by simpa using hparent
        exact hskip
    | some x =>
      obtain ⟨rest, name⟩ := x
      refine wp.seq (ilock_spec h) fun _ s1 h1 => ?_
      obtain ⟨h1, hdisk, -⟩ := h1
      generalize (diskInodes s.disk (s.inode ip).inum).type = t at h1
      have hn : (s1.inode ip).inum = n := h1.tags (ip, n) (Multiset.mem_cons_self ..)
      have hvol : s1.diskVolume = s.diskVolume := by
        unfold State.diskVolume
        rw [hdisk]
      have htype := (h1.locked (.head _)).2.2.2
      have hdtype := h1.disk_type (.head _) hn
      rw [wp_bind, wp_get, wp_ite]
      split
      · rename_i hdir
        refine wp.seq (iunlockput_spec (h1.mono And.left) hw.unheld) fun _ _ h2 => ⟨h2, hstuck ?_⟩
        simp only [Volume.Stuck, hskip]
        refine .inl ?_
        rw [← hvol, hdtype.1, ← htype]
        exact hdir
      rename_i hdir
      have hdir : (s1.diskVolume.din n).type = tDir := by
        rw [hdtype.1, ← htype]
        exact not_not.mp hdir
      rw [wp_ite]
      split
      · rename_i hlast
        obtain ⟨rfl, rfl⟩ := hlast
        refine wp.seq (iunlock_spec (P := fun v => P v ∧ R v n path ∧ v.Ends true n path name)
          (h1.mono fun hh => ⟨hh.1, hh.2, hskip, hdir⟩)) fun _ s2 h2 => ?_
        exact ⟨n, path, h2.1⟩
      rename_i hlast
      refine wp.seq (dirlookup_spec (P := fun v => (P v ∧ R v n path) ∧ v = s1.diskVolume)
        (h1.mono fun hh => ⟨hh, rfl⟩) (.head _) hn) fun r s2 h2 => ?_
      obtain ⟨-, h2⟩ := h2
      cases r with
      | none =>
        obtain ⟨rfl, hnone⟩ := h2
        refine wp.seq (iunlockput_spec (h1.mono And.left) hw.unheld) fun _ _ h3 => ⟨h3, hstuck ?_⟩
        simp only [Volume.Stuck, hskip]
        exact .inr ⟨hlast, hvol ▸ hnone⟩
      | some x =>
        obtain ⟨next, off⟩ := x
        obtain ⟨m, k, -, hfound, h2⟩ := h2
        -- the volume is still the one in which the entry was found
        have hnext : Kept (fun v => P v ∧ R v m rest) s₀ C ((ip, n) ::ₘ (next, m) ::ₘ T)
            ((ip, t) :: L) s2 := by
          rw [Multiset.cons_swap]
          refine h2.mono fun hh => ?_
          obtain ⟨⟨hP, hR⟩, hv⟩ := hh
          rw [hv] at hP hR ⊢
          exact ⟨hP, hw.entry hP hR hdir hskip hfound⟩
        have hlen' := skipelem_length hskip
        refine wp.seq (iunlockput_spec hnext fun v v' hv hf hx => ?_) fun _ _ h4 =>
          ih (by omega) h4
        have hC : ∀ x ∈ C, x.2 ≠ n := fun x hxC => hx x (Multiset.mem_add.mpr (.inl hxC))
        exact ⟨hw.frees n v v' hv.1 hf hC, hw.frees_reach m rest n v v' hv.2 hf hC⟩

/-- Walk a path from the root or from the working directory of the process. -/
lemma namex_spec {p : ProcId} (hw : Walk C P R)
    (h : Kept P s₀ C T L s) (hroot : path.head? = some slash → R s.diskVolume rootIno path)
    (hcwd : ∀ i, s₀.cwd p = some i → ∃ n, (i, n) ∈ C ∧
      (path.head? ≠ some slash → R s.diskVolume n path)) :
    wp (namex p path parent) s (Got P R parent s₀ C T L) Quiet := by
  unfold namex
  rw [wp_ite]
  split
  · rename_i habs
    have h0 : Kept (fun v => P v ∧ R v rootIno path) s₀ C T L s := h.mono fun hP => ⟨hP, hroot habs⟩
    exact wp.seq (iget_spec h0 (by decide)) fun _ _ h1 => namexLoop_spec hw (by omega) h1
  · rename_i hrel
    rw [wp_bind, wp_get]
    cases hp : s.cwd p with
    | none => exact quiet_panic (by decide)
    | some ip =>
      obtain ⟨n, hmem, hR⟩ := hcwd ip (by rw [← h.cwd, hp])
      have h0 : Kept (fun v => P v ∧ R v n path) s₀ C T L s := h.mono fun hP => ⟨hP, hR hrel⟩
      exact wp.seq (idup_spec h0 (h.ref_pos hmem) (h.pins _ hmem)) fun _ _ h1 =>
        namexLoop_spec hw (by omega) h1

lemma walk_any (hP : Volume.FreeClosed P) : Walk C P fun _ _ _ => True :=
  ⟨fun n v v' h hf _ => hP n v v' h hf, fun _ _ _ _ _ _ _ _ => trivial, fun _ _ _ _ _ => trivial⟩

lemma namei_spec {p : ProcId} (hP : Volume.FreeClosed P)
    (h : Kept P s₀ C T L s) (hcwd : ∀ i, s₀.cwd p = some i → ∃ n, (i, n) ∈ C) :
    wp (namei p path) s (fun r s' => match r with
      | none => Kept P s₀ C T L s'
      | some i => ∃ n, Kept P s₀ C ((i, n) ::ₘ T) L s') Quiet := by
  refine wp.seq (namex_spec (walk_any hP) h (fun _ => trivial) fun i hi => ?_) fun r s1 h1 => ?_
  · obtain ⟨n, hn⟩ := hcwd i hi
    exact ⟨n, hn, fun _ => trivial⟩
  · cases r with
    | none => exact h1.1
    | some x =>
      obtain ⟨i, name⟩ := x
      obtain ⟨n, rest, h1⟩ := h1
      exact ⟨n, h1.mono And.left⟩

end Xv6.Fs
