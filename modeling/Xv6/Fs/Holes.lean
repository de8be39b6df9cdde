import Xv6.Fs.Ownership

/-!
# Files have no holes, so reading never allocates

`bmap` allocates a block wherever it finds none, on the way of a read as on that of a write. A read of a
file is not part of a transaction, so it must never come to that. It does not: from an image without
holes, `writei` only appends, `itrunc` sets the size to zero, and a new inode has size zero, so in every
state that system calls reach, the blocks that a file needs for its size are all there.
-/

namespace Xv6.Fs

open Lib Disk

variable {P : Volume → Prop} {disk : Nat → Block} {devsw : Fin nDev → Device} {s t : State}
  {i : InodeId}

/-- The steps of a read other than `readi` touch neither the disk nor the log, and stop for other reasons
than a missing transaction. -/
def SameDisk {α : Type} (s : State) (_ : α) (s' : State) : Prop := s'.disk = s.disk ∧ s'.log = s.log

def InTrans (e : Stop) (_ : State) : Prop := e ≠ .panic "log_write outside of trans"

lemma inTrans_panic {α : Type} {msg : String} {Q : α → State → Prop}
    (h : msg ≠ "log_write outside of trans") : wp (panic msg : FM α) s Q InTrans := by
  intro heq
  injection heq with heq
  exact h heq

lemma ilock_sameDisk : wp (ilock i) s (SameDisk s) InTrans := by
  unfold ilock acquiresleep
  rw [wp_bind, wp_get, wp_ite]
  split
  · exact inTrans_panic (by decide)
  simp only [modifyInode, wp_bind, wp_get, wp_set, wp_ite, wp_throw]
  split
  · exact fun heq => Stop.noConfusion heq
  split
  · split
    · exact inTrans_panic (by decide)
    · exact ⟨rfl, rfl⟩
  · exact ⟨rfl, rfl⟩

lemma iunlock_sameDisk : wp (iunlock i) s (SameDisk s) InTrans := by
  unfold iunlock releasesleep modifyInode
  simp only [wp_bind, wp_get, wp_set, wp_ite]
  split
  · exact inTrans_panic (by decide)
  · exact ⟨rfl, rfl⟩

lemma advance_sameDisk {f : FileId} {r : Int} : wp (advance f r) s (SameDisk s) InTrans := by
  unfold advance modifyFile
  rw [wp_ite]
  split
  · exact ⟨rfl, rfl⟩
  · exact ⟨rfl, rfl⟩

lemma fileread_sameDisk {f : FileId} {len : Nat} (h : s.AtRest P) (hlen : len < 2 ^ 32) :
    wp (fileread f len) s (SameDisk s) InTrans := by
  unfold fileread
  rw [wp_bind, wp_get]
  dsimp only
  rw [wp_ite]
  split
  · exact ⟨rfl, rfl⟩
  cases (s.file f).type with
  | none => exact inTrans_panic (by decide)
  | inode =>
    refine wp.bind ((ilock_spec h.kept).and ilock_sameDisk) (fun _ s1 h1 => ?_) fun _ _ he => he.2
    obtain ⟨⟨h1, -, -⟩, hdisk1, hlog1⟩ := h1
    refine wp.bind (readi_kept h1.toFsInv (.head _) hlen) (fun r s2 h2 => ?_)
      fun _ _ h => h.elim
    obtain ⟨rfl, -⟩ := h2
    refine wp.seq advance_sameDisk fun _ s3 h3 => ?_
    refine wp.seq iunlock_sameDisk fun _ s4 h4 => ?_
    exact ⟨h4.1.trans (h3.1.trans hdisk1), h4.2.trans (h3.2.trans hlog1)⟩

lemma read_sameDisk {p : ProcId} {fd : Fin nOFile} {len : Nat} (h : s.AtRest P)
    (hlen : len < 2 ^ 32) : wp (Call.run p (.read fd len)) s (SameDisk s) InTrans := by
  refine wp_discard (Q := fun s' => s'.disk = s.disk ∧ s'.log = s.log) ?_
  unfold sysRead
  rw [wp_bind, wp_get]
  cases s.ofile p fd with
  | none => exact ⟨rfl, rfl⟩
  | some f => exact fileread_sameDisk h hlen

/-- In every state that system calls reach from an image without holes no file has a hole, neither on
disk nor in the cache. So `bmap` finds every block of a file and changes nothing, and a read, which is
outside of every transaction, returns with the disk and the log as they were or stops for another reason
than that. -/
theorem no_holes {as : List (ProcId × Call)} (howned : (⟨diskInodes disk, disk⟩ : Volume).Owned)
    (hdata : (⟨diskInodes disk, disk⟩ : Volume).InData)
    (hregular : (⟨diskInodes disk, disk⟩ : Volume).Regular)
    (hrun : Run State.step anyStep (State.mount disk devsw) as t) :
    (∀ n, (t.diskVolume.din n).type ≠ 0 → ∀ bn, bn * bSize < (t.diskVolume.din n).size →
      t.diskVolume.node (blockPlace n bn) ≠ 0) ∧
    (∀ i, 0 < (t.inode i).ref → (t.inode i).valid = true → ∀ bn,
      bn * bSize < (t.inode i).din.size →
      (t.volume i).node (blockPlace (t.inode i).inum bn) ≠ 0 ∧
      bmap i bn t = .ok ((t.volume i).node (blockPlace (t.inode i).inum bn)) t) ∧
    ∀ p fd len, t.Enabled p (.read fd len) →
      (∀ a u, Call.run p (.read fd len) t = .ok a u → u.disk = t.disk ∧ u.log = t.log) ∧
      ∀ e u, Call.run p (.read fd len) t = .error e u → e ≠ .panic "log_write outside of trans" := by
  have h := atRest_of_run howned hdata hregular hrun
  have hmapped : ∀ n, (t.diskVolume.din n).type ≠ 0 → ∀ bn, bn * bSize < (t.diskVolume.din n).size →
      bn < maxFile ∧ t.diskVolume.node (blockPlace n bn) ≠ 0 := by
    intro n htype bn hbn
    have hsize := (h.regular n).size htype
    have hlt : bn < maxFile := Nat.lt_of_mul_lt_mul_right (hbn.trans_le hsize)
    exact ⟨hlt, (h.regular n).noHoles htype bn hlt hbn⟩
  refine ⟨fun n htype bn hbn => (hmapped n htype bn hbn).2, fun i href hvalid bn hbn => ?_,
    fun p fd len hen => ?_⟩
  · have hvol := h.volume href hvalid
    obtain ⟨hdin, htype⟩ := h.cached i href hvalid
    have hdisk : t.diskVolume.din (t.inode i).inum = (t.inode i).din := hdin.symm
    obtain ⟨hlt, hne⟩ := hmapped (t.inode i).inum (by rwa [hdisk]) bn (by rwa [hdisk])
    rw [← hvol] at hne
    exact ⟨hne, bmap_hit htype hlt hne⟩
  · have hread : wp (Call.run p (.read fd len)) t (SameDisk t) InTrans :=
      read_sameDisk h (hen.2.trans (by decide))
    exact ⟨fun a u hok => hread.ok hok, fun e u herr => hread.error herr⟩

/-- The file that has just been written has its block. -/
theorem no_holes_openWriteClose :
    ∃ t, Run State.step anyStep (State.mount (image (fileOf 0)) noDevices) openWriteClose t ∧
      0 * bSize < (t.diskVolume.din 2).size ∧ t.diskVolume.node (blockPlace 2 0) ≠ 0 := by
  obtain ⟨t, hrun, htype, hsize⟩ := run_of_check State.step anyStep
    (State.mount (image (fileOf 0)) noDevices) openWriteClose
    (fun t => (diskInodes t.disk 2).type ≠ 0 ∧ 0 * bSize < (diskInodes t.disk 2).size)
    (by decide +kernel)
  exact ⟨t, hrun, hsize, (no_holes (image_owned (by decide)) (image_inData (by decide)) image_regular
    hrun).1 2 htype 0 hsize⟩

end Xv6.Fs
