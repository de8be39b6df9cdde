import Xv6.Fs.Paths
import Xv6.Fs.Syscall

/-!
# Every system call keeps the file system in order

The paths of `Syscall` one by one: from a state in which the cache agrees with a sound and regular disk,
each of them leads to such a state again, whatever its arguments are, or stops for a reason other than
freeing a free block. They also keep every law about names (`Law`): the specifications are over an
arbitrary one. Calls that create or remove names ask for what the law needs of the state in which they
are made (`Allowed`).
-/

namespace Xv6.Fs

open Multiset (add_cons cons_add cons_swap le_add_right le_cons_self map_congr map_cons map_id' map_map
  mem_cons_of_mem mem_cons_self mem_map_of_mem mem_singleton_self singleton_add)
open Function (update update_self update_of_ne)

open Lib Disk

variable {P : Volume → Prop} {s₀ s : State} {C T : Multiset (InodeId × Nat)}
  {L : List (InodeId × Int16)} {i dp ip : InodeId} {d n : Nat} {t : Int16}

/-! ### Between two calls -/

/-- The open files and the working directories hold the references that are not `T`. -/
structure State.Running (P : Volume → Prop) (T : Multiset (InodeId × Nat)) (L : List (InodeId × Int16))
    (s : State) : Prop extends FsInv s.refs T L s where
  holds : P s.diskVolume

/-- Between two system calls nothing else is held. -/
def State.AtRest (P : Volume → Prop) (s : State) : Prop := s.Running P 0 []

/-- The call ends at rest. -/
abbrev rests (P : Volume → Prop) {α : Type} (_ : α) (s : State) : Prop := s.AtRest P

variable {s' : State}

lemma refs_congr (hfile : s'.file = s.file) (hcwd : s'.cwd = s.cwd)
    (htags : ∀ x ∈ s.refs, (s'.inode x.1).inum = x.2) : s'.refs = s.refs := by
  unfold State.refs at htags ⊢
  rw [show s'.openers = s.openers by rw [State.openers, hfile]; rfl,
    show s'.cwds = s.cwds by rw [State.cwds, hcwd]; rfl]
  refine map_congr rfl fun i hi => ?_
  exact Prod.ext rfl (htags (s.tag i) (mem_map_of_mem _ hi))

lemma State.Running.kept (h : s.Running P T L) : Kept P s s.refs T L s :=
  h.toFsInv.kept h.holds

lemma Kept.running (h : Kept P s₀ s₀.refs T L s) : s.Running P T L :=
  ⟨refs_congr h.file h.cwd h.pins ▸ h.toFsInv, h.holds⟩

variable {p : ProcId}

lemma mem_cwds (h : s.cwd p = some i) : i ∈ s.cwds := by
  refine Multiset.mem_sum.mpr ⟨p, Finset.mem_univ p, ?_⟩
  rw [h]
  exact mem_singleton_self i

lemma mem_refs (h : s.cwd p = some i) : s.tag i ∈ s.refs :=
  mem_map_of_mem _ (Multiset.mem_add.mpr (.inr (mem_cwds h)))

lemma exists_mem_refs (i : InodeId) (h : s.cwd p = some i) : ∃ n, (i, n) ∈ s.refs :=
  ⟨_, mem_refs h⟩

lemma endOp_atRest (h : Kept P s₀ s₀.refs 0 [] s) : wp endOp s (rests P) Quiet :=
  (endOp_spec h).imp fun _ _ h => h.running

lemma endOp_return (h : Kept P s₀ s₀.refs 0 [] s) {α : Type} {r : α} :
    wp (do endOp; return r) s (rests P) Quiet :=
  wp.seq (endOp_atRest h) fun _ _ h => h

lemma iunlockput_return (hP : Volume.FreeClosed P) {n : Nat} {t : Int16}
    (h : Kept P s₀ s₀.refs ((i, n) ::ₘ 0) [(i, t)] s) {α : Type} {r : α} :
    wp (do iunlockput i; endOp; return r) s (rests P) Quiet :=
  wp.seq (iunlockput_spec h hP.unheld) fun _ _ h => endOp_return h

lemma Volume.FreeClosed.and {Q : Volume → Prop} (hP : Volume.FreeClosed P)
    (hQ : Volume.FreeClosed Q) : Volume.FreeClosed fun v => P v ∧ Q v :=
  fun n v v' h hf => ⟨hP n v v' h.1 hf, hQ n v v' h.2 hf⟩

lemma freeClosed_notDir (n : Nat) : Volume.FreeClosed fun v => (v.din n).type ≠ tDir := by
  intro m v v' h hf
  by_cases hm : n = m
  · rw [hm, hf.freed]
    decide
  · rw [hf.din n hm]
    exact h

/-! ### Names and links -/

variable {m : Option Nat} {v : Volume} {Q : Nat → Volume → Prop}

section Links

variable {D : Law} {p : ProcId} {path old new name : List UInt8} {R : Volume → Nat → List UInt8 → Prop}

/-- What is known of the inode at which a path of the process starts. -/
def State.Begins (s : State) (p : ProcId) (path : List UInt8) (R : Volume → Nat → List UInt8 → Prop)
    (v : Volume) : Prop :=
  (path.head? = some slash → R v rootIno path) ∧
  (path.head? ≠ some slash → ∀ i, s.cwd p = some i → R v (s.inode i).inum path)

lemma nameiparent_spec (hw : Walk s₀.refs P R) (h : Kept P s₀ s₀.refs T L s)
    (hb : s₀.Begins p path R s.diskVolume) : wp (nameiparent p path) s (Got P R true s₀ s₀.refs T L) Quiet :=
  namex_spec hw h hb.1 fun i hi => ⟨_, mem_refs hi, fun hrel => hb.2 hrel i hi⟩

lemma Law.walk {E : Volume → Prop} (hE : Volume.FreeClosed E) :
    Walk C (fun v => D.holds m v ∧ E v) fun v d _ => D.linked v d := by
  refine ⟨fun n v v' h hf _ => (D.frees.and hE) n v v' h hf,
    fun d _ n v v' h hf _ => D.frees_linked n v v' h hf, fun hP hR htype _ hfound => ?_⟩
  rw [← hfound.inum]
  exact D.entry hP.1 hR htype hfound.lt (hfound.inum ▸ hfound.ne)

/-- A relative path starts at a working directory that can be reached by names. -/
def State.Starts (D : Law) (s : State) (p : ProcId) (path : List UInt8) (v : Volume) : Prop :=
  path.head? ≠ some slash → ∀ i, s.cwd p = some i → D.linked v (s.inode i).inum

lemma freeClosed_starts : Volume.FreeClosed (s.Starts D p path) :=
  fun n v v' h hf hrel i hi => D.frees_linked n v v' (h hrel i hi) hf

lemma State.Starts.begins (h : s.Starts D p path v)
    (hholds : D.holds m v) : s.Begins p path (fun v d _ => D.linked v d) v :=
  ⟨fun _ => D.root hholds, h⟩

lemma unlinkBack_spec (h : Kept (D.holds (some n)) s₀ s₀.refs {(ip, n)} [] s) :
    wp (unlinkBack ip) s (rests (D.holds none)) Quiet := by
  have hmem : (ip, n) ∈ ({(ip, n)} : Multiset (InodeId × Nat)) := mem_singleton_self _
  unfold unlinkBack
  refine wp.seq (ilock_spec h) fun _ s1 h1 => ?_
  obtain ⟨h1, -, -⟩ := h1
  have hn := h1.tags _ hmem
  have htype := h1.disk_type (.head _) hn
  refine writeBack_spec h1 (.head _) hn (fun _ => ⟨rfl, rfl, rfl⟩) fun s2 h2 _ => ?_
  have h3 : Kept (D.holds none) s₀ s₀.refs ((ip, n) ::ₘ 0) _ s2 :=
    h2.mono fun hset => D.uncount h1.holds (htype.1 ▸ htype.2) hset
  exact iunlockput_return D.frees h3

lemma sysLink_spec (h : s.AtRest (D.holds none)) (hroom : D.room s.diskVolume)
    (hstart : s.Starts D p new s.diskVolume) : wp (sysLink p old new) s (rests (D.holds none)) Quiet := by
  have hE : Volume.FreeClosed fun v => D.room v ∧ s.Starts D p new v :=
    D.frees_room.and freeClosed_starts
  have h0 : Kept (fun v => D.holds none v ∧ D.room v ∧ s.Starts D p new v) s s.refs 0 [] s :=
    h.kept.mono fun hh => ⟨hh, hroom, hstart⟩
  unfold sysLink
  refine wp.seq (beginOp_spec h0) fun _ s1 h1 => ?_
  refine wp.seq (namei_spec (D.frees.and hE) h1 exists_mem_refs) fun r s2 h2 => ?_
  cases r with
  | none => exact endOp_return (h2.mono And.left)
  | some ip =>
    obtain ⟨n, h2⟩ := h2
    refine wp.seq (ilock_spec h2) fun _ s3 h3 => ?_
    obtain ⟨h3, -, -⟩ := h3
    generalize (diskInodes s2.disk (s2.inode ip).inum).type = t at h3
    have hn := h3.tags (ip, n) (mem_cons_self ..)
    have htype := h3.disk_type (.head _) hn
    have hlocked := (h3.locked (.head _)).2.2.2
    rw [wp_bind, wp_get, wp_ite]
    split
    · exact iunlockput_return D.frees (h3.mono And.left)
    rename_i hdir
    rw [hlocked, ← htype.1] at hdir
    refine writeBack_spec h3 (.head _) hn (fun _ => ⟨rfl, rfl, rfl⟩) fun s4 h4 _ => ?_
    -- the link is counted, and the inode is still no directory
    have h5 : Kept (fun v => D.holds (some n) v ∧ (v.din n).type ≠ tDir ∧ s.Starts D p new v) s s.refs
        ((ip, n) ::ₘ 0) [(ip, t)] s4 := by
      refine h4.mono fun hset => ?_
      obtain ⟨hholds, hlinked⟩ :=
        D.count h3.holds.1 h3.holds.2.1 (htype.1 ▸ htype.2) hdir hset
      refine ⟨hholds, ?_, fun hrel i hi => hlinked _ (h3.holds.2.2 hrel i hi)⟩
      rw [hset.din, update_self]
      exact hdir
    have hE2 : Volume.FreeClosed fun v => (v.din n).type ≠ tDir ∧ s.Starts D p new v :=
      (freeClosed_notDir n).and freeClosed_starts
    refine wp.seq (iunlock_spec h5) fun _ s6 h6 => ?_
    refine wp.seq (nameiparent_spec (Law.walk hE2) h6.1 (h6.1.holds.2.2.begins h6.1.holds.1))
      fun r s7 h7 => ?_
    cases r with
    | none => exact unlinkBack_spec (h7.1.mono And.left)
    | some x =>
      obtain ⟨dp, name⟩ := x
      obtain ⟨d, rest, h7⟩ := h7
      refine wp.seq (ilock_spec h7) fun _ s8 h8 => ?_
      obtain ⟨h8, -, -⟩ := h8
      generalize (diskInodes s7.disk (s7.inode dp).inum).type = td at h8
      have hd := h8.tags (dp, d) (mem_cons_self ..)
      have hn8 := h8.tags (ip, n) (mem_cons_of_mem (mem_cons_self ..))
      have hdtype := h8.disk_type (.head _) hd
      have h8' : Kept (D.holds (some n)) s s.refs _ _ s8 := h8.mono fun hh => hh.1.1
      rw [wp_bind, wp_get, hn8]
      refine wp.seq (dirlink_spec h8' (.head _) hd (hn8 ▸ h8.inum ip) D.frees)
        fun r s9 h9 => ?_
      obtain ⟨rfl, h9⟩ := h9
      cases r with
      | false =>
        rw [wp_ite, if_pos rfl]
        exact wp.seq (iunlockput_spec h9.2 D.frees.unheld) fun _ _ h10 => unlinkBack_spec h10
      | true =>
        obtain ⟨k, hnew, hslot, h9, -⟩ := h9
        rw [wp_ite, if_neg (by simp)]
        have h9 : Kept (D.holds none) s s.refs _ _ s9 := h9.mono fun hw =>
          D.enter h8.holds.1.1 h8.holds.2.1 h8.holds.1.2.1 hdtype.1 hnew hslot hw
        refine wp.seq (iunlockput_spec h9 D.frees.unheld) fun _ s10 h10 => ?_
        refine wp.seq (iput_spec h10 D.frees.unheld) fun _ s11 h11 => ?_
        exact endOp_return h11

/-- Erase an entry: `P₁` holds while the link is still counted, `P₂` afterwards. -/
lemma unlinkEntry_spec {P₁ P₂ : Volume → Prop} {k : Nat} {ti : Int16} {isDir : Bool}
    (h : Kept (· = v) s₀ s₀.refs ((ip, n) ::ₘ {(dp, d)}) [(ip, ti), (dp, tDir)] s)
    (hP₁ : ∀ v₁, v.Erases d k isDir v₁ → P₁ v₁)
    (hfree₁ : ∀ v₁ v₂, P₁ v₁ → v₁.Frees d v₂ → (∀ x ∈ s₀.refs + {(ip, n)}, x.2 ≠ d) → P₁ v₂)
    (hP₂ : ∀ v₁ v₂, P₁ v₁ → (v₁.din n).type ≠ 0 →
      v₁.Sets n { v₁.din n with nlink := (v₁.din n).nlink - 1 } v₂ → P₂ v₂)
    (hfree₂ : ∀ v₁ v₂, P₂ v₁ → v₁.Frees n v₂ → (∀ x ∈ s₀.refs + 0, x.2 ≠ n) → P₂ v₂) :
    wp (unlinkEntry dp ip (direntSize * k) isDir) s (fun r s' => r = 0 ∧ Kept P₂ s₀ s₀.refs 0 [] s')
      Quiet := by
  have hdp : (dp, tDir) ∈ [(ip, ti), (dp, tDir)] := List.mem_cons_of_mem _ (.head _)
  have hd := h.tags (dp, d) (mem_cons_of_mem (mem_singleton_self _))
  obtain rfl : s.diskVolume = v := h.holds
  unfold unlinkEntry
  refine wp.seq (writei_kept h hdp hd (by decide) fun _ => entryWrite_zero k) fun r s1 h1 => ?_
  rw [wp_ite]
  split
  · exact quiet_panic (by decide)
  rename_i hr
  have hrest : ∀ s2, Kept P₁ s₀ s₀.refs ((ip, n) ::ₘ {(dp, d)}) [(ip, ti), (dp, tDir)] s2 → wp (do
      iunlockput dp
      modifyDin ip fun d => { d with nlink := d.nlink - 1 }
      iupdate ip
      iunlockput ip
      endOp
      return (0 : Int)) s2 (fun r s' => r = 0 ∧ Kept P₂ s₀ s₀.refs 0 [] s') Quiet := by
    intro s2 h2
    have h2 : Kept P₁ s₀ s₀.refs ((dp, d) ::ₘ {(ip, n)}) [(dp, tDir), (ip, ti)] s2 := by
      have := h2.swap
      rwa [← Multiset.cons_zero, cons_swap] at this
    refine wp.seq (iunlockput_spec h2 hfree₁) fun _ s3 h3 => ?_
    have hn := h3.tags (ip, n) (mem_singleton_self _)
    have htype := h3.disk_type (.head _) hn
    refine writeBack_spec h3 (.head _) hn (fun _ => ⟨rfl, rfl, rfl⟩) fun s4 h4 _ => ?_
    have h5 : Kept P₂ s₀ s₀.refs ((ip, n) ::ₘ 0) [(ip, ti)] s4 :=
      h4.mono fun hset => hP₂ _ _ h3.holds (htype.1 ▸ htype.2) hset
    refine wp.seq (iunlockput_spec h5 hfree₂) fun _ s6 h6 => ?_
    exact wp.seq (endOp_spec h6) fun _ _ h7 => ⟨rfl, h7⟩
  cases h1 with
  | inr h1 =>
    rw [h1.1 (by decide)] at hr
    exact absurd hr (by decide)
  | inl h1 =>
    obtain ⟨-, h1, hinums⟩ := h1
    cases isDir with
    | true =>
      rw [if_pos rfl]
      refine writeBack_spec h1 hdp ((hinums dp).trans hd) (fun _ => ⟨rfl, rfl, rfl⟩) fun s2 h2 _ => ?_
      exact hrest s2 (h2.mono fun hset => hP₁ _ (.dir h1.holds hset))
    | false =>
      rw [if_neg (by simp)]
      exact hrest s1 (h1.mono fun hw => hP₁ _ (.file hw))

/-- What is known while a name is removed: `P` and `R` on the way to the directory, `P₁` while the link
is still counted, `P₂` afterwards. -/
structure Unlinking (C : Multiset (InodeId × Nat)) (P : Volume → Prop)
    (R : Volume → Nat → List UInt8 → Prop) (P₁ P₂ : Nat → Nat → Volume → Prop) : Prop where
  erase : ∀ {v d rest name k n v'}, P v → R v d rest → v.Ends true d rest name →
    namecmp name dot = false → namecmp name dotdot = false → v.Found d name k n → n ≠ d →
    (v.din n).type ≠ 0 → ((v.din n).type = tDir → v.EmptyDir n) →
    v.Erases d k (decide ((v.din n).type = tDir)) v' → P₁ d n v'
  frees_dir : ∀ {d n v v'}, P₁ d n v → v.Frees d v' → (∀ x ∈ C, x.2 ≠ d) → P₁ d n v'
  removed : ∀ {d n v v'}, P₁ d n v → (v.din n).type ≠ 0 →
    v.Sets n { v.din n with nlink := (v.din n).nlink - 1 } v' → P₂ d n v'
  frees : ∀ {d n v v'}, P₂ d n v → v.Frees n v' → (∀ x ∈ C, x.2 ≠ n) → P₂ d n v'

lemma sysUnlink_wp {P₁ P₂ : Nat → Nat → Volume → Prop} (hw : Walk s.refs P R)
    (hu : Unlinking s.refs P R P₁ P₂) (h : s.AtRest P) (hb : s.Begins p path R s.diskVolume) :
    wp (sysUnlink p path) s (fun r s' => r = -1 ∧ s'.AtRest P ∨
      r = 0 ∧ ∃ d n, Kept (P₂ d n) s s.refs 0 [] s') Quiet := by
  have hbad : ∀ {dp d t s'}, Kept P s s.refs {(dp, d)} [(dp, t)] s' →
      wp (unlinkBad dp) s' (fun r s' => r = -1 ∧ s'.AtRest P ∨ r = 0 ∧ ∃ d n, Kept (P₂ d n) s s.refs 0 [] s')
        Quiet := fun h1 =>
    wp.seq (iunlockput_spec h1 hw.unheld) fun _ _ h2 =>
      wp.seq (endOp_atRest h2) fun _ _ h3 => .inl ⟨rfl, h3⟩
  have h0 : Kept (fun v => P v ∧ s.Begins p path R v) s s.refs 0 [] s := h.kept.mono fun hh => ⟨hh, hb⟩
  unfold sysUnlink
  refine wp.seq (beginOp_spec h0) fun _ s1 h1 => ?_
  refine wp.seq (nameiparent_spec hw (h1.mono And.left) h1.holds.2) fun r s2 h2 => ?_
  cases r with
  | none => exact wp.seq (endOp_atRest h2.1) fun _ _ h3 => .inl ⟨rfl, h3⟩
  | some x =>
    obtain ⟨dp, name⟩ := x
    obtain ⟨d, rest, h2⟩ := h2
    refine wp.seq (ilock_spec h2) fun _ s3 h3 => ?_
    obtain ⟨h3, -, -⟩ := h3
    generalize (diskInodes s2.disk (s2.inode dp).inum).type = t at h3
    have hd := h3.tags (dp, d) (mem_cons_self ..)
    obtain ⟨hP, hR, hends⟩ := h3.holds
    have hback : ∀ {v}, v = s3.diskVolume → P v := fun hv => hv ▸ hP
    rw [wp_ite]
    split
    · exact hbad (h3.mono And.left)
    rename_i hdots
    rw [not_or, Bool.not_eq_true, Bool.not_eq_true] at hdots
    refine wp.seq (dirlookup_spec h3.exact (.head _) hd) fun r s4 h4 => ?_
    obtain ⟨rfl, h4⟩ := h4
    cases r with
    | none =>
      obtain ⟨rfl, -⟩ := h4
      exact hbad (h3.mono And.left)
    | some x =>
      obtain ⟨ip, off⟩ := x
      obtain ⟨n, k, rfl, hfound, h4⟩ := h4
      refine wp.seq (ilock_spec h4) fun _ s5 h5 => ?_
      obtain ⟨h5, -, -⟩ := h5
      generalize (diskInodes s4.disk (s4.inode ip).inum).type = ti at h5
      have hn := h5.tags (ip, n) (mem_cons_self ..)
      have hd5 := h5.tags (dp, d) (mem_cons_of_mem (mem_cons_self ..))
      have htype := h5.disk_type (.head _) hn
      have hlocked := (h5.locked (.head _)).2.2.2
      rw [h5.holds] at htype
      have hne : n ≠ d := by
        have := h5.inum_ne
        rwa [hn, hd5] at this
      rw [wp_bind, wp_get, wp_ite]
      split
      · exact quiet_panic (by decide)
      rw [wp_bind, wp_get, hlocked]
      have hnext : ∀ full : Bool, (full = false → ti = tDir → s3.diskVolume.EmptyDir n) →
          wp (if full = true then (do
            iunlockput ip
            unlinkBad dp)
          else unlinkEntry dp ip (direntSize * k) (decide (ti = tDir))) s5
          (fun r s' => r = -1 ∧ s'.AtRest P ∨ r = 0 ∧ ∃ d n, Kept (P₂ d n) s s.refs 0 [] s') Quiet := by
        intro full hempty
        cases full with
        | true =>
          rw [if_pos rfl]
          exact wp.seq (iunlockput_spec (h5.mono hback) hw.unheld) fun _ _ h6 => hbad h6
        | false =>
          rw [if_neg (by simp)]
          refine (unlinkEntry_spec h5 (fun v₁ hv₁ => ?_) (fun v₁ v₂ h₁ hf hx => ?_)
            (fun v₁ v₂ h₁ h0 hset => hu.removed h₁ h0 hset) fun v₁ v₂ h₂ hf hx => ?_).imp
            fun r s' hr => .inr ⟨hr.1, d, n, hr.2⟩
          · refine hu.erase hP hR hends hdots.1 hdots.2 hfound hne (htype.1 ▸ htype.2) (fun hdir => ?_)
              (htype.1 ▸ hv₁)
            exact hempty rfl (htype.1.symm.trans hdir)
          · exact hu.frees_dir h₁ hf fun x hxC => hx x (Multiset.mem_add.mpr (.inl hxC))
          · exact hu.frees h₂ hf fun x hxC => hx x (Multiset.mem_add.mpr (.inl hxC))
      dsimp only
      rw [wp_ite]
      split
      · rename_i hdir
        obtain rfl : ti = tDir := of_decide_eq_true hdir
        rw [bind_assoc]
        refine wp.seq (isdirempty_spec h5.toFsInv (.head _) hn) fun r s6 h6 => ?_
        obtain ⟨rfl, hempty⟩ := h6
        refine hnext _ fun hr _ => ?_
        rw [← h5.holds]
        exact hempty (by simpa using hr)
      · rename_i hdir
        exact wp_bind.mpr (hnext false fun _ hti => absurd (decide_eq_true hti) hdir)

lemma sysUnlink_spec (h : s.AtRest (D.holds none)) (hcalm : D.calm s.diskVolume) :
    wp (sysUnlink p path) s (rests (D.holds none)) Quiet := by
  have hP : Volume.FreeClosed fun v => D.holds none v ∧ D.calm v := D.frees.and D.frees_calm
  have hu : Unlinking s.refs (fun v => D.holds none v ∧ D.calm v) (fun _ _ _ => True) D.removing
      (fun _ _ => D.holds none) := by
    refine ⟨fun hP _ hends hdot hdotdot hfound hne h0 hempty herase => ?_,
      fun h₁ hf _ => D.removing_frees h₁ hf, fun h₁ h0 hset => D.removed h₁ h0 hset,
      fun h₂ hf _ => D.frees _ _ _ h₂ hf⟩
    exact D.erase hP.1 hP.2 hne hends.2 hfound hdot hdotdot h0 hempty herase
  have h0 : s.AtRest fun v => D.holds none v ∧ D.calm v := ⟨h.toFsInv, h.holds, hcalm⟩
  refine (sysUnlink_wp (walk_any hP) hu h0 ⟨fun _ => trivial, fun _ _ _ => trivial⟩).imp fun r s' hr => ?_
  cases hr with
  | inl hr => exact ⟨hr.2.toFsInv, hr.2.holds.1⟩
  | inr hr =>
    obtain ⟨-, d, n, hr⟩ := hr
    exact hr.running

/-- Link an inode into a directory, which must succeed. -/
lemma mustLink_spec {msg : String} (h : Kept P s₀ C T L s) (hi : (dp, t) ∈ L)
    (hd : (s.inode dp).inum = d) (hn : (s.inode ip).inum = n) (hmsg : msg ≠ "freeing free block") :
    wp (mustLink dp name ip msg) s (fun _ s' => ∃ k, s.diskVolume.NotFound d name ∧
      s.diskVolume.FreeSlot d k ∧
      Kept (s.diskVolume.Writes d (direntSize * k) (Dirent.bytes ⟨n, name⟩)) s₀ C T L s' ∧
      ∀ j, (s'.inode j).inum = (s.inode j).inum) Quiet := by
  have h0 : Kept (fun _ => True) s₀ C T L s := h.mono fun _ => trivial
  unfold mustLink
  rw [wp_bind, wp_get, hn]
  refine wp.seq (dirlink_spec h0 hi hd (hn ▸ h.inum ip) fun _ _ _ _ _ => trivial) fun r s1 h1 => ?_
  cases r with
  | false =>
    rw [wp_ite, if_pos rfl]
    exact quiet_panic hmsg
  | true =>
    rw [wp_ite, if_neg (by simp)]
    exact h1.2

variable {type major minor : Int16}

/-- Allocate an inode and enter it under a new name. -/
lemma createNode_spec (h : Kept P s₀ C ((dp, d) ::ₘ T) [(dp, t)] s)
    (hnew : ∀ {n v'}, s.diskVolume.Creates d n name type v' → Q n v')
    (hfree : ∀ {n v v'}, Q n v → v.Frees d v' → (∀ x ∈ C, x.2 ≠ d) → n ≠ d → Q n v') :
    wp (createNode dp name type major minor) s
      (fun ip s' => ∃ n, Kept (Q n) s₀ C ((ip, n) ::ₘ T) [(ip, type)] s') Quiet := by
  unfold createNode
  refine wp.seq (ialloc_spec h) fun ip s1 h1 => ?_
  obtain ⟨n, h1⟩ := h1
  have halloc := h1.holds
  refine wp.seq (ilock_spec h1) fun _ s2 h2 => ?_
  obtain ⟨h2, hdisk, -⟩ := h2
  have hvol : s2.diskVolume = s1.diskVolume := by
    unfold State.diskVolume
    rw [hdisk]
  have htype : (diskInodes s1.disk (s1.inode ip).inum).type = type := by
    rw [h1.tags (ip, n) (mem_cons_self ..), show diskInodes s1.disk = _ from halloc.din,
      update_self]
  rw [htype] at h2
  have hn := h2.tags (ip, n) (mem_cons_self ..)
  have hd := h2.tags (dp, d) (mem_cons_of_mem (mem_cons_self ..))
  have hdp : (dp, t) ∈ [(ip, type), (dp, t)] := List.mem_cons_of_mem _ (.head _)
  refine writeBack_spec h2 (.head _) hn (fun _ => ⟨rfl, rfl, rfl⟩) fun s3 h3 hi3 => ?_
  have hlink := h3.holds
  rw [hvol] at hlink
  have hrest : ∀ s4 v4, s4.diskVolume = v4 →
      (∀ {k v'}, v4.NotFound d name → v4.FreeSlot d k →
        v4.Writes d (direntSize * k) (Dirent.bytes ⟨n, name⟩) v' →
        s.diskVolume.Creates d n name type v') →
      Kept (· = v4) s₀ C ((ip, n) ::ₘ (dp, d) ::ₘ T) [(ip, type), (dp, t)] s4 → wp (do
        mustLink dp name ip "create: dirlink"
        iunlockput dp
        return ip) s4 (fun ip s' => ∃ n, Kept (Q n) s₀ C ((ip, n) ::ₘ T) [(ip, type)] s') Quiet := by
    intro s4 v4 hv4 hcreates h4
    subst hv4
    have hd4 := h4.tags (dp, d) (mem_cons_of_mem (mem_cons_self ..))
    have hn4 := h4.tags (ip, n) (mem_cons_self ..)
    refine wp.seq (mustLink_spec h4 hdp hd4 hn4 (by decide)) fun _ s5 h5 => ?_
    obtain ⟨k, hnf, hslot, h5, -⟩ := h5
    have h6 : Kept (Q n) s₀ C ((dp, d) ::ₘ (ip, n) ::ₘ T) [(dp, t), (ip, type)] s5 := by
      have := (h5.mono fun hw => hnew (hcreates hnf hslot hw) : Kept (Q n) s₀ C _ _ s5).swap
      rwa [cons_swap] at this
    refine wp.seq (iunlockput_spec h6 fun v v' hv hf hx => ?_) fun _ _ h7 => ⟨n, h7⟩
    exact hfree hv hf (fun x hxC => hx x (Multiset.mem_add.mpr (.inl hxC)))
      (hx (ip, n) (Multiset.mem_add.mpr (.inr (mem_cons_self ..))))
  rw [wp_ite]
  split
  · rename_i hdir
    refine writeBack_spec h3 hdp ((hi3 dp).trans hd) (fun _ => ⟨rfl, rfl, rfl⟩) fun s4 h4 hi4 => ?_
    have hn4 := h4.tags (ip, n) (mem_cons_self ..)
    refine wp.seq (mustLink_spec h4 (.head _) hn4 hn4 (by decide)) fun _ s5 h5 => ?_
    obtain ⟨k₁, -, hslot₁, h5, hi5⟩ := h5
    have hn5 := h5.tags (ip, n) (mem_cons_self ..)
    have hd5 := h5.tags (dp, d) (mem_cons_of_mem (mem_cons_self ..))
    refine wp.seq (mustLink_spec h5 (.head _) hn5 hd5 (by decide)) fun _ s6 h6 => ?_
    obtain ⟨k₂, -, hslot₂, h6, -⟩ := h6
    exact hrest s6 _ rfl (fun hnf hslot hw => .dir hdir halloc hlink h4.holds hslot₁ h5.holds hslot₂
      h6.holds hnf hslot hw) h6.exact
  · rename_i hdir
    exact hrest s3 _ rfl (fun hnf hslot hw => .node hdir halloc hlink hnf hslot hw) h3.exact

/-- What is known while a name is created: `P` and `R` on the way to the directory, and `Q` of the inode
that `create` returns, old or new. -/
structure Creating (C : Multiset (InodeId × Nat)) (P : Volume → Prop)
    (R : Volume → Nat → List UInt8 → Prop) (type : Int16) (Q : Nat → Volume → Prop) : Prop where
  old : ∀ {v d rest name k n}, P v → R v d rest → v.Ends true d rest name → v.Found d name k n → Q n v
  new : ∀ {v d rest name n v'}, P v → R v d rest → v.Ends true d rest name →
    v.Creates d n name type v' → Q n v'
  frees : ∀ {m n v v'}, Q n v → v.Frees m v' → (∀ x ∈ C, x.2 ≠ m) → n ≠ m → Q n v'

lemma create_wp (hw : Walk s₀.refs P R)
    (hc : Creating s₀.refs P R type Q) (h : Kept P s₀ s₀.refs T [] s)
    (hb : s₀.Begins p path R s.diskVolume) :
    wp (create p path type major minor) s (fun r s' => match r with
      | none => Kept P s₀ s₀.refs T [] s'
      | some ip => ∃ n, Kept (Q n) s₀ s₀.refs ((ip, n) ::ₘ T) [(ip, type)] s') Quiet := by
  unfold create
  refine wp.seq (nameiparent_spec hw h hb) fun r s1 h1 => ?_
  cases r with
  | none => exact h1.1
  | some x =>
    obtain ⟨dp, name⟩ := x
    obtain ⟨d, rest, h1⟩ := h1
    refine wp.seq (ilock_spec h1) fun _ s2 h2 => ?_
    obtain ⟨h2, -, -⟩ := h2
    generalize (diskInodes s1.disk (s1.inode dp).inum).type = t at h2
    have hd := h2.tags (dp, d) (mem_cons_self ..)
    obtain ⟨hP, hR, hends⟩ := h2.holds
    refine wp.seq (dirlookup_spec h2.exact (.head _) hd) fun r s3 h3 => ?_
    obtain ⟨-, h3⟩ := h3
    cases r with
    | some x =>
      obtain ⟨ip, off⟩ := x
      obtain ⟨n, k, -, hfound, h3⟩ := h3
      have h3 : Kept (fun v => P v ∧ Q n v) s₀ s₀.refs ((dp, d) ::ₘ (ip, n) ::ₘ T) [(dp, t)] s3 := by
        rw [cons_swap]
        refine h3.mono fun hv => ?_
        rw [hv]
        exact ⟨hP, hc.old hP hR hends hfound⟩
      refine wp.seq (iunlockput_spec h3 fun v v' hv hf hx => ?_) fun _ s4 h4 => ?_
      · have hC : ∀ x ∈ s₀.refs, x.2 ≠ d := fun x hxC => hx x (Multiset.mem_add.mpr (.inl hxC))
        exact ⟨hw.frees d v v' hv.1 hf hC, hc.frees hv.2 hf hC
          (hx (ip, n) (Multiset.mem_add.mpr (.inr (mem_cons_self ..))))⟩
      refine wp.seq (ilock_spec h4) fun _ s5 h5 => ?_
      obtain ⟨h5, -, -⟩ := h5
      rw [wp_bind, wp_get, wp_ite]
      split
      · rename_i hfile
        have htype := (h5.locked (.head _)).2.2.2.symm.trans (hfile.2.trans hfile.1.symm)
        rw [htype] at h5
        exact ⟨n, h5.mono And.right⟩
      · exact wp.seq (iunlockput_spec (h5.mono And.left) hw.unheld) fun _ _ h6 => h6
    | none =>
      obtain ⟨rfl, -⟩ := h3
      refine wp.seq (createNode_spec h2 (fun hcr => hc.new hP hR hends hcr)
        fun hv hf hx hne => hc.frees hv hf hx hne) fun _ _ h4 => h4

/-- A new name is made where names can be made. -/
lemma create_spec (h : Kept (D.holds none) s₀ s₀.refs T [] s)
    (htype : type ≠ 0) (hroom : type = tDir → D.room s.diskVolume)
    (hstart : s₀.Starts D p path s.diskVolume) :
    wp (create p path type major minor) s (fun r s' => match r with
      | none => Kept (D.holds none) s₀ s₀.refs T [] s'
      | some ip => ∃ n, Kept (D.holds none) s₀ s₀.refs ((ip, n) ::ₘ T) [(ip, type)] s') Quiet := by
  have hE : Volume.FreeClosed fun v => type = tDir → D.room v :=
    fun n v v' hv hf ht => D.frees_room n v v' (hv ht) hf
  have hc : Creating s₀.refs (fun v => D.holds none v ∧ (type = tDir → D.room v))
      (fun v d _ => D.linked v d) type fun _ v => D.holds none v := by
    refine ⟨fun hP _ _ _ => hP.1, fun hP hR hends hcr => ?_, fun hv hf _ _ => D.frees _ _ _ hv hf⟩
    exact D.create hP.1 hP.2 hR hends.2 htype hcr
  refine (create_wp (Law.walk hE) hc (h.mono fun hh => ⟨hh, hroom⟩) (hstart.begins h.holds)).imp
    fun r s' hr => ?_
  cases r with
  | none => exact hr.mono And.left
  | some ip => exact hr

lemma makeNode_spec (h : s.AtRest (D.holds none)) (htype : type ≠ 0)
    (hroom : type = tDir → D.room s.diskVolume) (hstart : s.Starts D p path s.diskVolume) :
    wp (makeNode p path type major minor) s (rests (D.holds none)) Quiet := by
  have h0 : Kept (fun v => D.holds none v ∧ (type = tDir → D.room v) ∧ s.Starts D p path v) s s.refs 0
      [] s := h.kept.mono fun hh => ⟨hh, hroom, hstart⟩
  unfold makeNode
  refine wp.seq (beginOp_spec h0) fun _ s1 h1 => ?_
  refine wp.seq (create_spec (h1.mono And.left) htype h1.holds.2.1 h1.holds.2.2) fun r s2 h2 => ?_
  cases r with
  | none => exact endOp_return h2
  | some ip =>
    obtain ⟨n, h2⟩ := h2
    exact iunlockput_return D.frees h2

lemma sysExec_spec {reads : List (Nat × Nat)} (hP : Volume.FreeClosed P) (h : s.AtRest P)
    (hreads : ∀ r ∈ reads, r.2 < 2 ^ 32) : wp (sysExec p path reads) s (rests P) Quiet := by
  unfold sysExec
  refine wp.seq (beginOp_spec h.kept) fun _ s1 h1 => ?_
  refine wp.seq (namei_spec hP h1 exists_mem_refs) fun r s2 h2 => ?_
  cases r with
  | none => exact endOp_return h2
  | some ip =>
    obtain ⟨n, h2⟩ := h2
    refine wp.seq (ilock_spec h2) fun _ s3 h3 => ?_
    obtain ⟨h3, -, -⟩ := h3
    refine wp.seq (wp.forM (I := fun (rs : List (Nat × Nat)) s4 => s4 = s3 ∧ ∀ r ∈ rs, r.2 < 2 ^ 32)
      (fun r rs s4 h4 => ?_) ⟨rfl, hreads⟩) fun _ s4 h4 => ?_
    · -- the loop does not change anything
      obtain ⟨rfl, hr⟩ := h4
      refine wp.bind (readi_kept h3.toFsInv (.head _) (hr r (.head _)))
        (fun _ _ h5 => ?_) fun _ _ h => h.elim
      exact ⟨h5.1, fun x hx => hr x (.tail _ hx)⟩
    obtain ⟨rfl, -⟩ := h4
    exact iunlockput_return hP h3

end Links

/-! ### Open files -/

lemma cwds_setCwd (s : State) (p : ProcId) (c : Option InodeId) :
    ({ s with cwd := update s.cwd p c } : State).cwds + (s.cwd p).elim 0 ({·}) =
      s.cwds + c.elim 0 ({·}) := by
  have := sum_add_of_ne (f := fun q => (s.cwd q).elim (0 : Multiset InodeId) ({·}))
    (g := fun q => (update s.cwd p c q).elim (0 : Multiset InodeId) ({·})) (p := p)
    fun q hq => by rw [update_of_ne hq]
  rwa [update_self] at this

variable {old : InodeId} {U : Multiset (InodeId × Nat)}

lemma refs_setCwd (hold : s.cwd p = some old) (hU : s.refs = s.tag old ::ₘ U) (hfile : s'.file = s.file)
    (hcwd : s'.cwd = s.cwd) (htags : ∀ x ∈ U, (s'.inode x.1).inum = x.2) (c : Option InodeId) :
    ({ s' with cwd := update s'.cwd p c } : State).refs =
      c.elim 0 (fun i => {s'.tag i}) + U := by
  obtain ⟨W, hW⟩ := Multiset.exists_cons_of_mem (mem_cwds hold)
  have hUW : U = (s.openers + W).map s.tag := by
    unfold State.refs at hU
    rw [hW, add_cons, map_cons] at hU
    exact ((Multiset.cons_inj_right _).mp hU).symm
  have hcwds : ({ s' with cwd := update s'.cwd p c } : State).cwds = c.elim 0 ({·}) + W := by
    have hsum := cwds_setCwd s' p c
    rw [show s'.cwds = s.cwds by rw [State.cwds, hcwd]; rfl, hW, hcwd, hold] at hsum
    refine add_right_cancel (b := {old}) ((hcwd ▸ hsum).trans ?_)
    rw [← singleton_add]
    abel
  have hopen : ({ s' with cwd := update s'.cwd p c } : State).openers = s.openers := by
    rw [State.openers, State.openers, hfile]
  have htag : (s.openers + W).map s'.tag = U := by
    rw [hUW]
    refine map_congr rfl fun i hi => Prod.ext rfl (htags (s.tag i) ?_)
    rw [hUW]
    exact mem_map_of_mem _ hi
  show Multiset.map s'.tag _ = _
  rw [hopen, hcwds, add_left_comm, Multiset.map_add, htag]
  cases c <;> rfl

variable {x : File} {omode : OpenMode}

section Files

variable {D : Law} {p : ProcId} {path : List UInt8} {f : FileId} {fd : Fin nOFile}

lemma FsInv.setProc (h : FsInv C T L s) (o : ProcId → Fin nOFile → Option FileId)
    (c : ProcId → Option InodeId) : FsInv C T L { s with ofile := o, cwd := c } :=
  ⟨h.sound, h.regular, h.inum, h.unique, h.cached, h.refs, h.pins, h.tags, h.opened, h.alive, h.nodup,
    h.held, h.files⟩

lemma State.Running.setOfile (h : s.Running P T L) (o : ProcId → Fin nOFile → Option FileId) :
    ({ s with ofile := o } : State).Running P T L := ⟨h.toFsInv.setProc o s.cwd, h.holds⟩

lemma State.Running.setLog (h : s.Running P T L) (l : Log) :
    ({ s with log := l } : State).Running P T L := ⟨h.toFsInv.setLog l, h.holds⟩

lemma openers_touch (htype : x.type = (s.file f).type) (hip : x.ip = (s.file f).ip) :
    (s.setFile f x).openers = s.openers := by
  have := FsInv.openers_setFile s f x
  rw [show x.refers = (s.file f).refers by rw [File.refers, File.refers, htype, hip]] at this
  exact add_right_cancel this

lemma State.Running.touchFile (h : s.Running P T L) (htype : x.type = (s.file f).type)
    (hip : x.ip = (s.file f).ip) (hwritable : x.writable = (s.file f).writable)
    (href : x.type = .inode → 0 < x.ref) : (s.setFile f x).Running P T L := by
  have hopen := openers_touch htype hip
  have hrefs : (s.setFile f x).refs = s.refs := by
    unfold State.refs
    rw [hopen]
    rfl
  have hinv : FsInv s.refs T L (s.setFile f x) := by
    refine h.toFsInv.setFile (by rw [hopen]; exact h.opened) fun hx => ?_
    rw [hip, hwritable]
    exact ⟨href hx, (h.files f (htype ▸ hx)).2⟩
  exact ⟨by rwa [hrefs], h.holds⟩

lemma filealloc_spec (h : s.Running P T L) :
    wp filealloc s (fun r s' => s'.Running P T L ∧ ∀ f, r = some f →
      (s'.file f).type = .none ∧ (s'.file f).ref = 1) Quiet := by
  unfold filealloc
  rw [wp_bind, wp_get]
  split
  · rename_i f hfind
    have hfree := List.find?_some hfind
    rw [decide_eq_true_eq] at hfree
    -- a file that nothing refers to is closed
    have hclosed : (s.file f).type = .none := by
      cases htype : (s.file f).type with
      | none => rfl
      | inode =>
        have := (h.files f htype).1
        omega
    simp only [modifyFile, wp_bind, wp_get, wp_set, wp_pure]
    refine ⟨h.touchFile rfl rfl rfl fun _ => Int.one_pos, fun g hg => ?_⟩
    rw [← Option.some.inj hg]
    show (update s.file f _ f).type = _ ∧ (update s.file f _ f).ref = _
    rw [update_self]
    exact ⟨hclosed, rfl⟩
  · exact ⟨h, fun f hf => absurd hf (by simp)⟩

lemma fdalloc_spec : wp (fdalloc p f) s (fun _ s' => ∃ o, s' = { s with ofile := o }) Quiet := by
  unfold fdalloc
  rw [wp_bind, wp_get]
  split
  · exact ⟨_, rfl⟩
  · exact ⟨s.ofile, rfl⟩

/-- Closing a file drops its reference to an inode when it is the last one. -/
lemma fileclose_spec (hP : Volume.FreeClosed P) (h : s.Running P T L) :
    wp (fileclose f) s (fun _ s' => s'.Running P T L) Quiet := by
  unfold fileclose
  rw [wp_bind, wp_get]
  dsimp only
  rw [wp_ite]
  split
  · exact quiet_panic (by decide)
  rw [wp_ite]
  split
  · rename_i href
    exact h.touchFile rfl rfl rfl fun _ => href
  simp only [modifyFile, wp_bind, wp_get, wp_set]
  cases htype : (s.file f).type with
  | none => exact h.touchFile htype.symm rfl rfl (by simp)
  | inode =>
    let s1 := s.setFile f { s.file f with ref := 0, type := .none }
    -- what the file held is now a reference of the path
    have hopen : s.openers = (s.file f).ip ::ₘ s1.openers := by
      have := FsInv.openers_setFile s f { s.file f with ref := 0, type := .none }
      rw [File.refers, File.refers, if_pos htype, if_neg (by simp), add_zero] at this
      rw [← this, ← singleton_add, add_comm]
    have hrefs : s.refs = s.tag (s.file f).ip ::ₘ s1.refs := by
      unfold State.refs
      rw [hopen, cons_add, map_cons]
      rfl
    have h1 : FsInv s.refs T L s1 := by
      refine h.toFsInv.setFile ?_ (by simp)
      refine le_trans ?_ h.opened
      rw [hopen]
      exact le_cons_self _ _
    have h2 : FsInv s1.refs (s.tag (s.file f).ip ::ₘ T) L s1 := by
      refine h1.repin ?_ ?_ fun x hx => .inl ?_
      · rw [hrefs, cons_add, add_cons]
      · unfold State.refs
        rw [map_map]
        simp only [Function.comp_def, State.tag, map_id']
        exact le_add_right _ _
      · rw [hrefs]
        exact mem_cons_of_mem hx
    refine wp.seq (beginOp_spec (h2.kept h.holds)) fun _ s2 h3 => ?_
    refine wp.seq (iput_spec h3 hP.unheld) fun _ s3 h4 => ?_
    exact (endOp_spec h4).imp fun _ _ h5 => h5.running

lemma openFile_spec (hP : Volume.FreeClosed P)
    (h : s.Running P {(ip, n)} [(ip, t)]) (ht : (omode.wronly || omode.rdwr) → t ≠ tDir) :
    wp (openFile p omode ip) s (rests P) Quiet := by
  unfold openFile
  refine wp.seq (filealloc_spec h) fun r s1 h1 => ?_
  obtain ⟨h1, hfile⟩ := h1
  cases r with
  | none =>
    exact iunlockput_return hP h1.kept
  | some f =>
    obtain ⟨hclosed, href⟩ := hfile f rfl
    refine wp.seq fdalloc_spec fun r s2 h2 => ?_
    obtain ⟨o, rfl⟩ := h2
    cases r with
    | none =>
      refine wp.seq (fileclose_spec hP (h1.setOfile o)) fun _ s3 h3 => ?_
      exact iunlockput_return hP h3.kept
    | some fd =>
      refine wp.seq (iunlock_spec (h1.setOfile o).kept) fun _ s3 h3 => ?_
      obtain ⟨h3, hvalid, htype⟩ := h3
      refine wp.seq (endOp_log s3) fun _ s4 h4 => ?_
      obtain ⟨l, rfl⟩ := h4
      simp only [modifyFile, wp_bind, wp_get, wp_set, wp_pure]
      have hold : s3.file f = s1.file f := congrFun h3.file f
      have hn : (s3.inode ip).inum = n := h3.tags (ip, n) (mem_singleton_self _)
      have hrun := h3.running.setLog l
      let s4 : State := { s3 with log := l }
      let x : File := { s3.file f with type := .inode, ip := ip, off := 0, readable := !omode.wronly,
                                       writable := omode.wronly || omode.rdwr }
      -- the reference now belongs to the file
      have hopen : (s4.setFile f x).openers = ip ::ₘ s4.openers := by
        have := FsInv.openers_setFile s4 f x
        rw [File.refers, File.refers, if_pos (show x.type = .inode from rfl),
          if_neg (by show (s3.file f).type ≠ .inode; rw [hold, hclosed]; decide), add_zero] at this
        rw [this, ← singleton_add, add_comm]
      have hrefs : (s4.setFile f x).refs = (ip, n) ::ₘ s4.refs := by
        unfold State.refs
        rw [hopen, cons_add, map_cons]
        show (ip, (s3.inode ip).inum) ::ₘ _ = _
        rw [hn]
        rfl
      have halive : (diskInodes s4.disk n).type ≠ 0 := by
        have href : 0 < (s3.inode ip).ref := by
          have := h3.refs ip
          rw [Multiset.map_singleton, Multiset.count_singleton_self] at this
          omega
        obtain ⟨hdin, hne⟩ := h3.cached ip href hvalid
        rwa [hdin, hn] at hne
      have hpinned : FsInv ((ip, n) ::ₘ s4.refs) 0 [] s4 := by
        refine hrun.toFsInv.repin ?_ ?_ fun y hy => ?_
        · rw [add_zero, ← singleton_add, add_comm]
        · rw [map_cons]
          exact hrun.opened.trans (le_cons_self _ _)
        · exact (Multiset.mem_cons.mp hy).elim (fun heq => .inr (heq ▸ halive)) .inl
      have hend : FsInv ((ip, n) ::ₘ s4.refs) 0 [] (s4.setFile f x) := by
        refine hpinned.setFile ?_ fun _ => ⟨?_, hvalid, fun hw => ?_⟩
        · rw [hopen, map_cons]
          exact Multiset.cons_le_cons _ hrun.opened
        · show 0 < (s3.file f).ref
          rw [hold, href]
          exact Int.one_pos
        · show (s3.inode ip).din.type ≠ tDir
          rw [htype]
          exact ht hw
      exact ⟨hrefs ▸ hend, hrun.holds⟩

lemma sysOpen_spec (h : s.AtRest (D.holds none)) (hstart : omode.create → s.Starts D p path s.diskVolume) :
    wp (sysOpen p path omode) s (rests (D.holds none)) Quiet := by
  have h0 : Kept (fun v => D.holds none v ∧ (omode.create → s.Starts D p path v)) s s.refs 0 []
      s := h.kept.mono fun hh => ⟨hh, hstart⟩
  unfold sysOpen
  refine wp.seq (beginOp_spec h0) fun _ s1 h1 => ?_
  have hrun := h1.mono And.left
  rw [wp_ite]
  split
  · rename_i hcreate
    refine wp.seq (create_spec hrun (by decide) nofun
      (h1.holds.2 hcreate)) fun r s2 h2 => ?_
    cases r with
    | none => exact endOp_return h2
    | some ip =>
      obtain ⟨n, h2⟩ := h2
      exact openFile_spec (t := tFile) D.frees h2.running fun _ => by decide
  · refine wp.seq (namei_spec D.frees hrun exists_mem_refs) fun r s2 h2 => ?_
    cases r with
    | none => exact endOp_return h2
    | some ip =>
      obtain ⟨n, h2⟩ := h2
      refine wp.seq (ilock_spec h2) fun _ s3 h3 => ?_
      obtain ⟨h3, -, -⟩ := h3
      rw [wp_bind, wp_get, wp_ite]
      split
      · exact iunlockput_return D.frees h3
      · rename_i hdir
        have hlocked := (h3.locked (.head _)).2.2.2
        refine openFile_spec D.frees h3.running fun hw ht => hdir ⟨hlocked.trans ht, ?_⟩
        simp only [Bool.or_eq_true] at hw
        cases hw with
        | inl hw | inr hw => simp [OpenMode.rdonly, hw]

lemma FsInv.unpin_cwd (h : FsInv C T L s)
    (hU : C = (old, n) ::ₘ U) (hopened : s.openers ≤ U.map Prod.fst) : FsInv U ((old, n) ::ₘ T) L s := by
  refine h.repin ?_ hopened fun x hx => .inl (hU ▸ mem_cons_of_mem hx)
  rw [hU, cons_add, add_cons]

lemma exists_refs_cons (hold : s.cwd p = some old) :
    ∃ U, s.refs = s.tag old ::ₘ U ∧ s.openers ≤ U.map Prod.fst := by
  obtain ⟨W, hW⟩ := Multiset.exists_cons_of_mem (mem_cwds hold)
  refine ⟨(s.openers + W).map s.tag, ?_, ?_⟩
  · unfold State.refs
    rw [hW, add_cons, map_cons]
  · rw [map_map]
    exact (le_add_right _ W).trans (le_of_eq (map_id' _).symm)

lemma sysChdir_spec (hP : Volume.FreeClosed P) (h : s.AtRest P) : wp (sysChdir p path) s (rests P) Quiet := by
  unfold sysChdir
  refine wp.seq (beginOp_spec h.kept) fun _ s1 h1 => ?_
  refine wp.seq (namei_spec hP h1 exists_mem_refs) fun r s2 h2 => ?_
  cases r with
  | none => exact endOp_return h2
  | some ip =>
    obtain ⟨n, h2⟩ := h2
    refine wp.seq (ilock_spec h2) fun _ s3 h3 => ?_
    obtain ⟨h3, -, -⟩ := h3
    rw [wp_bind, wp_get, wp_ite]
    split
    · exact iunlockput_return hP h3
    have hn := h3.tags (ip, n) (mem_cons_self ..)
    have htype := h3.disk_type (.head _) hn
    have h3 : Kept (fun v => P v ∧ (v.din n).type ≠ 0) s s.refs ((ip, n) ::ₘ 0) _ s3 :=
      h3.mono fun hh => ⟨hh, htype.1 ▸ htype.2⟩
    refine wp.seq (iunlock_spec h3) fun _ s4 h4 => ?_
    obtain ⟨h4, -, -⟩ := h4
    rw [wp_bind, wp_get]
    cases hp : s4.cwd p with
    | none => exact quiet_panic (by decide)
    | some old =>
      have hold : s.cwd p = some old := by rw [← h4.cwd, hp]
      obtain ⟨U, hU, hopened⟩ := exists_refs_cons hold
      -- the reference of the working directory is given up, the one of the path takes its place
      have h5 : Kept (fun v => P v ∧ (v.din n).type ≠ 0) s U (s.tag old ::ₘ (ip, n) ::ₘ 0) [] s4 := by
        refine ⟨h4.toFsInv.unpin_cwd hU ?_, h4.file, h4.cwd, h4.holds⟩
        rwa [show s4.openers = s.openers by rw [State.openers, h4.file]; rfl]
      refine wp.seq (iput_spec h5 fun v v' hv hf hx => ⟨hP _ v v' hv.1 hf, ?_⟩) fun _ s6 h6 => ?_
      · rw [hf.din n (hx (ip, n) (Multiset.mem_add.mpr (.inr (mem_cons_self ..))))]
        exact hv.2
      refine wp.seq (endOp_spec h6) fun _ s7 h7 => ?_
      simp only [setCwd, wp_bind, wp_get, wp_set, wp_pure]
      have hrefs := refs_setCwd hold hU h7.file h7.cwd h7.pins (some ip)
      have hn7 := h7.tags (ip, n) (mem_cons_self ..)
      have hpinned : FsInv ((ip, n) ::ₘ U) 0 [] s7 := by
        refine h7.toFsInv.repin ?_ ?_ fun y hy => ?_
        · rw [cons_add, add_cons]
        · rw [map_cons]
          exact h7.opened.trans (le_cons_self _ _)
        · exact (Multiset.mem_cons.mp hy).elim (fun heq => .inr (heq ▸ h7.holds.2)) .inl
      refine ⟨?_, h7.holds.1⟩
      rw [hrefs, Option.elim_some, singleton_add, State.tag, hn7]
      exact hpinned.setProc _ _

/-- Only the offset of the file moves. -/
lemma advance_spec {r : Int} (h : s.Running P T L) :
    wp (advance f r) s (fun _ s' => s'.Running P T L ∧ s'.inode = s.inode ∧
      s'.file f = if 0 < r then { s.file f with off := ((s.file f).off + r.toNat) % 2 ^ 32 }
        else s.file f) Quiet := by
  unfold advance
  rw [wp_ite]
  split
  · have hself : ∀ x, (s.setFile f x).file f = x := fun x => update_self ..
    simp only [modifyFile, wp_bind, wp_get, wp_set, hself, and_true]
    exact ⟨h.touchFile rfl rfl rfl fun htype => (h.files f htype).1, rfl⟩
  · exact ⟨h, rfl, rfl⟩

lemma fileread_spec {len : Nat} (h : s.AtRest P) (hlen : len < 2 ^ 32) :
    wp (fileread f len) s (rests P) Quiet := by
  unfold fileread
  rw [wp_bind, wp_get]
  dsimp only
  rw [wp_ite]
  split
  · exact h
  cases (s.file f).type with
  | none => exact quiet_panic (by decide)
  | inode =>
    refine wp.seq (ilock_spec h.kept) fun _ s1 h1 => ?_
    obtain ⟨h1, -, -⟩ := h1
    refine wp.bind (readi_kept h1.toFsInv (.head _) hlen) (fun r s2 h2 => ?_)
      fun _ _ h => h.elim
    obtain ⟨rfl, -⟩ := h2
    refine wp.seq (advance_spec h1.running) fun _ s3 h3 => ?_
    exact wp.seq (iunlock_spec h3.1.kept) fun _ s4 h4 => h4.1.running

/-- A file that is open for writing is not a directory. -/
lemma filewriteLoop_spec {rounds : Nat} :
    ∀ {src : List UInt8} {s : State}, s.AtRest (D.holds none) → (s.file f).type = .inode →
      (s.file f).writable →
      wp (filewriteLoop f rounds src) s (rests (D.holds none)) Quiet := by
  induction rounds with
  | zero => exact fun h _ _ => h
  | succ rounds ih =>
    intro src s h htype hwritable
    unfold filewriteLoop
    rw [wp_ite]
    split
    · exact h
    rw [wp_bind, wp_get]
    refine wp.seq (beginOp_spec h.kept) fun _ s1 h1 => ?_
    refine wp.seq (ilock_spec h1) fun _ s2 h2 => ?_
    obtain ⟨h2, -, -⟩ := h2
    generalize (diskInodes s1.disk (s1.inode (s.file f).ip).inum).type = t at h2
    have hfile : s2.file f = s.file f := congrFun h2.file f
    have hdtype := h2.disk_type (.head _) rfl
    have hdir : t ≠ tDir := by
      rw [← (h2.locked List.mem_cons_self).2.2.2, ← hfile]
      exact (h2.files f (hfile ▸ htype)).2.2 (hfile ▸ hwritable)
    have hlen : (src.take writeMax).length < 2 ^ 31 :=
      (List.length_take_le _ _).trans_lt (by decide)
    refine wp.seq (writei_kept h2 (.head _) rfl hlen fun ht => absurd ht hdir)
      fun r s3 h3 => ?_
    have h3 : Kept (D.holds none) s s.refs 0 [((s.file f).ip, t)] s3 := by
      cases h3 with
      | inl h3 => exact h3.2.1.mono fun hw => D.writes h2.holds (hdtype.1 ▸ hdir) hw
      | inr h3 =>
        rw [h3.2]
        exact h2
    refine wp.seq (advance_spec h3.running) fun _ s4 h4 => ?_
    obtain ⟨h4, -, hfile4⟩ := h4
    have htype4 : (s4.file f).type = (s3.file f).type := by rw [hfile4]; split <;> rfl
    have hwritable4 : (s4.file f).writable = (s3.file f).writable := by rw [hfile4]; split <;> rfl
    refine wp.seq (iunlock_spec h4.kept) fun _ s5 h5 => ?_
    refine wp.seq (endOp_spec h5.1) fun _ s6 h6 => ?_
    rw [wp_ite]
    split
    · exact h6.running
    rw [wp_ite]
    split
    · exact quiet_panic (by decide)
    · have hfile3 : s3.file f = s.file f := congrFun h3.file f
      have hfile6 : s6.file f = s4.file f := congrFun h6.file f
      refine ih h6.running ?_ ?_
      · rw [hfile6, htype4, hfile3, htype]
      · rw [hfile6, hwritable4, hfile3, hwritable]

lemma filewrite_spec {src : List UInt8} (h : s.AtRest (D.holds none)) :
    wp (filewrite f src) s (rests (D.holds none)) Quiet := by
  unfold filewrite
  rw [wp_bind, wp_get]
  dsimp only
  rw [wp_ite]
  split
  · exact h
  rename_i hwritable
  cases htype : (s.file f).type with
  | none => exact quiet_panic (by decide)
  | inode =>
    refine wp.seq (filewriteLoop_spec h htype (by simpa using hwritable)) fun r s1 h1 => ?_
    rw [wp_pure]
    exact h1

lemma filedup_spec (h : s.Running P T L) :
    wp (filedup f) s (fun _ s' => s'.Running P T L ∧ s'.cwd = s.cwd) Quiet := by
  unfold filedup
  rw [wp_bind, wp_get, wp_ite]
  split
  · exact quiet_panic (by decide)
  · rename_i href
    refine ⟨h.touchFile rfl rfl rfl fun _ => ?_, rfl⟩
    show 0 < (s.file f).ref + 1
    omega

lemma sysDup_spec (h : s.AtRest P) : wp (sysDup p fd) s (rests P) Quiet := by
  unfold sysDup
  rw [wp_bind, wp_get]
  cases s.ofile p fd with
  | none => exact h
  | some f =>
    refine wp.seq fdalloc_spec fun r s1 h1 => ?_
    obtain ⟨o, rfl⟩ := h1
    cases r with
    | none => exact h.setOfile o
    | some fd' => exact wp.seq (filedup_spec (h.setOfile o)) fun _ _ h2 => h2.1

lemma sysClose_spec (hP : Volume.FreeClosed P) (h : s.AtRest P) : wp (sysClose p fd) s (rests P) Quiet := by
  unfold sysClose
  rw [wp_bind, wp_get]
  cases s.ofile p fd with
  | none => exact h
  | some f =>
    simp only [setFd, wp_bind, wp_get, wp_set, wp_pure]
    exact fileclose_spec hP (h.setOfile _)

lemma sysFstat_spec (h : s.AtRest P) : wp (sysFstat p fd) s (rests P) Quiet := by
  unfold sysFstat
  rw [wp_bind, wp_get]
  cases s.ofile p fd with
  | none => exact h
  | some f =>
    dsimp only
    cases (s.file f).type with
    | none => exact h
    | inode =>
      refine wp.seq (ilock_spec h.kept) fun _ s1 h1 => ?_
      rw [wp_bind, wp_get]
      exact wp.seq (iunlock_spec h1.1) fun _ _ h2 => h2.1.running

/-- The child holds what the parent holds. -/
lemma forkFiles_spec {q : ProcId} (h : s.AtRest P) (hq : s.cwd q = none) :
    wp (forkFiles p q) s (rests P) Quiet := by
  unfold forkFiles
  refine wp.seq (wp.forM (I := fun _ s' => s'.AtRest P ∧ s'.cwd = s.cwd)
    (fun fd fds s1 h1 => ?_) ⟨h, rfl⟩) fun _ s1 h1 => ?_
  · rw [wp_bind, wp_get]
    cases s1.ofile p fd with
    | none => exact h1
    | some f =>
      refine wp.seq (filedup_spec h1.1) fun _ s2 h2 => ?_
      exact ⟨h2.1.setOfile _, h2.2.trans h1.2⟩
  · obtain ⟨h1, hcwd⟩ := h1
    rw [wp_bind, wp_get]
    cases hp : s1.cwd p with
    | none => exact quiet_panic (by decide)
    | some ip =>
      have hip := mem_refs hp
      refine wp.seq (idup_spec h1.kept (h1.ref_pos hip) rfl) fun _ s2 h2 => ?_
      have h3 := h2.running
      have hip2 : s2.tag ip ∈ s2.refs := mem_refs (by rw [h2.cwd, hp])
      have htag : s2.tag ip = (ip, (s1.inode ip).inum) :=
        Prod.ext rfl (h2.tags _ (mem_cons_self ..))
      have hcwds := cwds_setCwd s2 q (some ip)
      rw [show s2.cwd q = none by rw [h2.cwd, hcwd, hq], Option.elim_none, add_zero] at hcwds
      have hrefs : ({ s2 with cwd := update s2.cwd q (some ip) } : State).refs =
          s2.tag ip ::ₘ s2.refs := by
        unfold State.refs
        rw [show ({ s2 with cwd := update s2.cwd q (some ip) } : State).cwds = s2.cwds + {ip}
          from hcwds, ← add_assoc, add_comm, singleton_add, map_cons]
        rfl
      have hpinned : FsInv (s2.tag ip ::ₘ s2.refs) 0 [] s2 := by
        refine h3.toFsInv.repin ?_ ?_ fun y hy => .inl ?_
        · rw [cons_add, add_cons, htag]
        · rw [map_cons]
          exact h3.opened.trans (le_cons_self _ _)
        · exact (Multiset.mem_cons.mp hy).elim (fun heq => heq ▸ hip2) id
      simp only [setCwd, wp_bind, wp_get, wp_set]
      refine ⟨?_, h3.holds⟩
      rw [hrefs]
      exact hpinned.setProc _ _

lemma exitFiles_spec (hP : Volume.FreeClosed P) (h : s.AtRest P) : wp (exitFiles p) s (rests P) Quiet := by
  unfold exitFiles
  refine wp.seq (wp.forM (I := fun _ s' => s'.AtRest P) (fun fd fds s1 h1 => ?_) h) fun _ s1 h1 => ?_
  · rw [wp_bind, wp_get]
    cases s1.ofile p fd with
    | none => exact h1
    | some f => exact wp.seq (fileclose_spec hP h1) fun _ s2 h2 => h2.setOfile _
  · refine wp.seq (beginOp_spec h1.kept) fun _ s2 h2 => ?_
    rw [wp_bind, wp_get]
    cases hp : s2.cwd p with
    | none => exact quiet_panic (by decide)
    | some ip =>
      have hold : s1.cwd p = some ip := by rw [← h2.cwd, hp]
      obtain ⟨U, hU, hopened⟩ := exists_refs_cons hold
      have h3 : Kept P s1 U (s1.tag ip ::ₘ 0) [] s2 := by
        refine ⟨h2.toFsInv.unpin_cwd hU ?_, h2.file, h2.cwd, h2.holds⟩
        rwa [show s2.openers = s1.openers by rw [State.openers, h2.file]; rfl]
      refine wp.seq (iput_spec h3 hP.unheld) fun _ s3 h4 => ?_
      refine wp.seq (endOp_spec h4) fun _ s4 h5 => ?_
      have hrefs := refs_setCwd hold hU h5.file h5.cwd h5.pins none
      simp only [setCwd, wp_bind, wp_get, wp_set]
      refine ⟨?_, h5.holds⟩
      rw [hrefs, Option.elim_none, zero_add]
      exact h5.toFsInv.setProc _ _

lemma sysSync_spec (h : s.AtRest P) : wp sysSync s (rests P) Quiet := by
  unfold sysSync
  rw [wp_bind, wp_get]
  split
  · exact h.setLog _
  · exact h

end Files

/-! ### All calls -/

lemma wp_discard {α : Type} {c : FM α} {Q : State → Prop} {E : Stop → State → Prop}
    (h : wp c s (fun _ s' => Q s') E) : wp (discard c : FM PUnit) s (fun _ s' => Q s') E := by
  have heq : (discard c : FM PUnit) = c >>= fun _ => pure PUnit.unit := by
    simp [discard, map_const, Functor.discard]
  rw [heq]
  exact wp.seq h fun _ _ h1 => h1

/-- What a law asks of the state in which a call is made. -/
def State.Allowed (D : Law) (s : State) (p : ProcId) : Call → Prop
  | .link _ new => D.room s.diskVolume ∧ s.Starts D p new s.diskVolume
  | .unlink _ => D.calm s.diskVolume
  | .openPath path omode => omode.create = true → s.Starts D p path s.diskVolume
  | .mkdir path => D.room s.diskVolume ∧ s.Starts D p path s.diskVolume
  | .mknod path _ _ => s.Starts D p path s.diskVolume
  | _ => True

variable {D : Law}

lemma Call.run_spec (c : Call) (h : s.AtRest (D.holds none))
    (hc : s.Enabled p c) (ha : s.Allowed D p c) : wp (c.run p) s (rests (D.holds none)) Quiet := by
  cases c with
  | dup fd => exact wp_discard (sysDup_spec h)
  | read fd len =>
    refine wp_discard ?_
    unfold sysRead
    rw [wp_bind, wp_get]
    cases s.ofile p fd with
    | none => exact h
    | some f => exact fileread_spec h (hc.2.trans (by decide))
  | write fd src =>
    refine wp_discard ?_
    unfold sysWrite
    rw [wp_bind, wp_get]
    cases s.ofile p fd with
    | none => exact h
    | some f => exact filewrite_spec h
  | close fd => exact wp_discard (sysClose_spec D.frees h)
  | fstat fd => exact wp_discard (sysFstat_spec h)
  | link old new => exact wp_discard (sysLink_spec h ha.1 ha.2)
  | unlink path => exact wp_discard (sysUnlink_spec h ha)
  | openPath path omode => exact wp_discard (sysOpen_spec h ha)
  | mkdir path => exact wp_discard (makeNode_spec h (by decide) (fun _ => ha.1) ha.2)
  | mknod path major minor =>
    exact wp_discard (makeNode_spec h (by decide) nofun ha)
  | chdir path => exact wp_discard (sysChdir_spec D.frees h)
  | exec path reads => exact wp_discard (sysExec_spec D.frees h fun r hr => (hc.2 r hr).2)
  | fork q =>
    refine forkFiles_spec h ?_
    simpa [State.Alive] using hc.2
  | exit => exact exitFiles_spec D.frees h
  | sync => exact wp_discard (sysSync_spec h)

lemma State.AtRest.step {a : ProcId × Call} (h : s.AtRest (D.holds none))
    (ha : s.Allowed D a.1 a.2) (hstep : s.step a = some s') : s'.AtRest (D.holds none) := by
  unfold State.step at hstep
  split at hstep
  · rename_i henabled
    split at hstep
    · rename_i hrun
      rw [← Option.some.inj hstep]
      exact (Call.run_spec a.2 h henabled ha).ok hrun
    · cases hstep
  · cases hstep

end Xv6.Fs
