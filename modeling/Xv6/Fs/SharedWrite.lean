import Xv6.Fs.Ownership

/-!
# Processes that write through one open file

`fork` and `dup` share a `struct file`, and with it the offset. `filewrite` cuts what it is given into
pieces, and only the part of one round from `ilock` to `iunlock` is under the lock that protects the
offset: between two rounds of one call, other calls may write their pieces. `Writers` is this machine. A
call goes through the sections `begin_op`, `ilock` to `iunlock`, `end_op`, in rounds, and any process may
take the next section. What the calls were given, the pieces in the order in which they were written and
the results are recorded beside the state; no section reads them.

* `filewriteLoop_sections` — the loop of `filewrite` is these sections, one after the other;
* `Volume.Appends` — the bytes from the first offset on are the pieces in the order of writing, and the
  other bytes of the file are as they were;
* `Writers.Ok` — the invariant: the offset stands behind the last piece, and the pieces of a call and
  those of what it has left are the pieces of what it was given;
* `shared_writes` — the pieces of calls that all return the length of what they were given fill the range
  behind the first offset, each piece once, and those of one call in order.
-/

namespace Xv6.Fs

open Lib Disk

/-! ### One round of the loop -/

/-- The part of a round of `filewrite` from `ilock` to `iunlock`. -/
def writeSection (f : FileId) (chunk : List UInt8) : FM Int := do
  let ff := (← get).file f
  ilock ff.ip
  let r ← writei ff.ip chunk ff.off
  advance f r
  iunlock ff.ip
  return r

/-- The pieces in which `filewrite` writes `src`. -/
def writeChunks (src : List UInt8) : List (List UInt8) :=
  if src = [] then [] else src.take writeMax :: writeChunks (src.drop writeMax)
termination_by src.length
decreasing_by
  rename_i hne
  have := List.length_pos_of_ne_nil hne
  have : 0 < writeMax := by decide
  rw [List.length_drop]
  omega

@[simp] lemma writeChunks_nil : writeChunks [] = [] := by
  rw [writeChunks, if_pos rfl]

lemma writeChunks_of_ne {src : List UInt8} (h : src ≠ []) :
    writeChunks src = src.take writeMax :: writeChunks (src.drop writeMax) := by
  rw [writeChunks, if_neg h]

lemma flatten_writeChunks (src : List UInt8) : (writeChunks src).flatten = src := by
  induction src using writeChunks.induct with
  | case1 => rw [writeChunks_nil]; rfl
  | case2 src hne ih => rw [writeChunks_of_ne hne, List.flatten_cons, ih, List.take_append_drop]

lemma length_of_mem_writeChunks {src chunk : List UInt8} (h : chunk ∈ writeChunks src) :
    chunk ≠ [] ∧ chunk.length ≤ writeMax := by
  induction src using writeChunks.induct with
  | case1 => rw [writeChunks_nil] at h; exact absurd h List.not_mem_nil
  | case2 src hne ih =>
    rw [writeChunks_of_ne hne, List.mem_cons] at h
    cases h with
    | inl h =>
      subst h
      refine ⟨fun heq => hne ?_, List.length_take_le _ _⟩
      exact (List.take_eq_nil_iff.mp heq).resolve_left (by decide)
    | inr h => exact ih h

lemma filewriteLoop_sections (f : FileId) (rounds : Nat) (src : List UInt8) (s : State) :
    filewriteLoop f (rounds + 1) src s =
      (if src = [] then return true
      else do
        beginOp
        let r ← writeSection f (src.take writeMax)
        endOp
        if r < 0 then return false
        else if r ≠ (src.take writeMax).length then panic "short filewrite"
        else filewriteLoop f rounds (src.drop writeMax) : FM Bool) s := by
  rw [filewriteLoop]
  split
  · rfl
  · -- `begin_op` does not change the file
    simp only [writeSection, bind_assoc, pure_bind]
    by_cases hfull : logSize - 1 < s.log.lh.length
    · simp only [bind_run, get_run, beginOp, ite_run, if_pos hfull]
      rfl
    · simp only [bind_run, get_run, set_run, beginOp, ite_run, if_neg hfull]

/-! ### What the pieces do to the file -/

/-- The bytes of file `n` from `off` on are `data`, and the other ones are those of `v`. -/
structure Volume.Appends (v : Volume) (n off : Nat) (data : List UInt8) (v' : Volume) : Prop where
  type : (v'.din n).type = (v.din n).type
  /-- nothing is written behind the end of the file -/
  start : data ≠ [] → off ≤ (v.din n).size ∧ off + data.length ≤ maxFile * bSize
  size : (v'.din n).size = if data = [] then (v.din n).size else max (v.din n).size (off + data.length)
  bytes : ∀ x, x / bSize < maxFile → v'.byte n x = overwrite (v.byte n) off data x

namespace Volume.Appends

variable {v v' v'' : Volume} {n off : Nat} {data chunk : List UInt8}

lemma refl (v : Volume) (n off : Nat) : v.Appends n off [] v :=
  ⟨rfl, fun h => absurd rfl h, by rw [if_pos rfl], fun x _ => by rw [overwrite_nil]⟩

/-- One more piece, behind the others. -/
lemma snoc (h : v.Appends n off data v') (hw : v'.Writes n (off + data.length) chunk v'')
    (hne : chunk ≠ []) : v.Appends n off (data ++ chunk) v'' := by
  have hstart := hw.start
  have hsize := hw.size
  have hlimit := hw.limit
  have hold := h.size
  have hpos := List.length_pos_of_ne_nil hne
  have hlen : (data ++ chunk).length = data.length + chunk.length := List.length_append
  have hne' : data ++ chunk ≠ [] := fun heq => hne (List.append_eq_nil_iff.mp heq).2
  refine ⟨hw.type.trans h.type, fun _ => ⟨?_, by omega⟩, ?_, fun x hx => ?_⟩
  · by_cases hdata : data = []
    · rw [if_pos hdata] at hold
      omega
    · exact (h.start hdata).1
  · rw [if_neg hne', hsize, hlen]
    split at hold
    · omega
    · omega
  · rw [hw.bytes n x fun _ => hx, if_pos rfl, overwrite_congr (h.bytes x hx)]
    have := overwrite_overwrite (v.byte n) off data.length (data ++ chunk) (by omega) x
    rwa [List.take_left, List.drop_left] at this

lemma bytes_eq (h : v.Appends n off data v') : v'.bytes n off data.length = data := by
  unfold Volume.bytes
  refine List.ext_getElem (by simp) fun k hk hk' => ?_
  have hne : data ≠ [] := List.ne_nil_of_length_pos (by omega)
  have hlimit := (h.start hne).2
  have hlt : (off + k) / bSize < maxFile := Nat.div_lt_of_lt_mul (by rw [Nat.mul_comm]; omega)
  rw [List.getElem_map, List.getElem_range, h.bytes _ hlt, overwrite_inside _ hk',
    List.getD_eq_getElem?_getD, List.getElem?_eq_getElem hk', Option.getD_some]

lemma off_lt (h : v.Appends n off data v') (hne : data ≠ []) : off + data.length < 2 ^ 32 :=
  (h.start hne).2.trans_lt (by decide)

end Volume.Appends

/-- Since `s₀`, exactly `data` has been written through file `f`, from the offset that it had then. -/
structure Shared (f : FileId) (s₀ : State) (data : List UInt8) (s : State) : Prop where
  atRest : s.AtRest
    (s₀.diskVolume.Appends (s₀.inode (s₀.file f).ip).inum (s₀.file f).off data)
  file : s.file f = { s₀.file f with off := (s₀.file f).off + data.length }
  inum : (s.inode (s₀.file f).ip).inum = (s₀.inode (s₀.file f).ip).inum

section Section

variable {f : FileId} {s₀ s s' : State} {data chunk : List UInt8} {P : Volume → Prop}
  {T : Multiset (InodeId × Nat)} {L : List (InodeId × Int16)}

lemma Kept.inum_of_open (h : Kept P s₀ s₀.refs T L s) (hf : (s₀.file f).type = .inode) :
    (s.inode (s₀.file f).ip).inum = (s₀.inode (s₀.file f).ip).inum :=
  h.pins (s₀.tag _) (Multiset.mem_map_of_mem _
    (Multiset.mem_add.mpr (.inl (FsInv.mem_openers hf))))

namespace Shared

lemma start (h : s₀.AtRest P) : Shared f s₀ [] s₀ :=
  ⟨⟨h.toFsInv, .refl ..⟩, rfl, rfl⟩

/-- A path that does not change the open files. -/
lemma kept (h : Shared f s₀ data s) (htype : (s₀.file f).type = .inode)
    (h' : Kept (s₀.diskVolume.Appends (s₀.inode (s₀.file f).ip).inum (s₀.file f).off data) s s.refs 0 [] s') :
    Shared f s₀ data s' := by
  have htype' : (s.file f).type = .inode := by rw [h.file]; exact htype
  have hinum := h'.inum_of_open htype'
  rw [h.file] at hinum
  exact ⟨h'.running, by rw [h'.file, h.file], hinum.trans h.inum⟩

end Shared

lemma beginOp_shared (h : Shared f s₀ data s) (htype : (s₀.file f).type = .inode) :
    wp beginOp s (fun _ s' => Shared f s₀ data s') Quiet :=
  (beginOp_spec h.atRest.kept).mono (fun _ _ h' => h.kept htype h') fun _ _ he => he

lemma endOp_shared (h : Shared f s₀ data s) (htype : (s₀.file f).type = .inode) :
    wp endOp s (fun _ s' => Shared f s₀ data s') Quiet :=
  (endOp_spec h.atRest.kept).mono (fun _ _ h' => h.kept htype h') fun _ _ he => he

/-- What follows `writei` moves the offset, and nothing else. -/
lemma advance_iunlock_spec {r : Int} {t : Int16} (h : Kept P s₀ s₀.refs 0 [((s₀.file f).ip, t)] s)
    (htype : (s₀.file f).type = .inode) :
    wp (advance f r >>= fun _ => iunlock (s₀.file f).ip >>= fun _ => (pure r : FM Int)) s (fun r' s' =>
      r' = r ∧ s'.AtRest P ∧
      s'.file f = (if 0 < r then { s₀.file f with off := ((s₀.file f).off + r.toNat) % 2 ^ 32 }
        else s₀.file f) ∧
      (s'.inode (s₀.file f).ip).inum = (s₀.inode (s₀.file f).ip).inum) Quiet := by
  have hfile : s.file f = s₀.file f := congrFun h.file f
  refine wp.seq (advance_spec h.running) fun _ s1 h1 => ?_
  obtain ⟨h1, hinode1, hfile1⟩ := h1
  rw [hfile] at hfile1
  refine wp.seq (iunlock_spec h1.kept) fun _ s2 h2 => ?_
  obtain ⟨h2, -, -⟩ := h2
  have htype1 : (s1.file f).type = .inode := by
    rw [hfile1]
    split <;> exact htype
  have hip1 : (s1.file f).ip = (s₀.file f).ip := by
    rw [hfile1]
    split <;> rfl
  have hinum2 := h2.inum_of_open htype1
  rw [hip1, hinode1, h.inum_of_open htype] at hinum2
  exact ⟨rfl, h2.running, (congrFun h2.file f).trans hfile1, hinum2⟩

lemma writeSection_shared (h : Shared f s₀ data s) (htype : (s₀.file f).type = .inode)
    (hwritable : (s₀.file f).writable) (hdev : (s₀.diskVolume.din (s₀.inode (s₀.file f).ip).inum).type ≠ tDev)
    (hne : chunk ≠ []) (hlen : chunk.length ≤ writeMax) :
    wp (writeSection f chunk) s (fun r s' =>
      r = chunk.length ∧ Shared f s₀ (data ++ chunk) s' ∨ r = -1 ∧ Shared f s₀ data s') Quiet := by
  unfold writeSection
  rw [wp_bind, wp_get, h.file]
  dsimp only
  have htype' : (s.file f).type = .inode := by rw [h.file]; exact htype
  have hip : (s.file f).ip = (s₀.file f).ip := by rw [h.file]
  rw [← hip]
  refine wp.seq (ilock_spec h.atRest.kept) fun _ s1 h1 => ?_
  obtain ⟨h1, -, hinum1⟩ := h1
  have hn : (s1.inode (s.file f).ip).inum = (s₀.inode (s₀.file f).ip).inum := by rw [hinum1, hip, h.inum]
  generalize ht : (diskInodes s.disk (s.inode (s.file f).ip).inum).type = t at h1
  have htdev : t ≠ tDev := by
    rw [← ht, hip, h.inum]
    exact h.atRest.holds.type ▸ hdev
  have htdir : t ≠ tDir := by
    have hfile1 : s1.file f = s.file f := congrFun h1.file f
    have := (h1.files f (by rw [hfile1, htype'])).2.2 (by rw [hfile1, h.file]; exact hwritable)
    rwa [hfile1, (h1.locked List.mem_cons_self).2.2.2] at this
  refine wp.seq (writei_kept h1 (.head _) hn (hlen.trans_lt (by decide))
    fun ht => absurd ht htdir) fun r s2 h2 => ?_
  cases h2 with
  | inl h2 =>
    obtain ⟨rfl, h2, -⟩ := h2
    have happends := h1.holds.snoc h2.holds hne
    refine (advance_iunlock_spec (h2.mono fun _ => happends) htype').mono (fun r s3 h3 => ?_) fun _ _ he => he
    obtain ⟨rfl, h3, hfile3, hinum3⟩ := h3
    have hoff := happends.off_lt fun heq => hne (List.append_eq_nil_iff.mp heq).2
    rw [List.length_append, ← Nat.add_assoc] at hoff
    have hpos : (0 : Int) < chunk.length := Int.natCast_pos.mpr (List.length_pos_of_ne_nil hne)
    refine .inl ⟨rfl, h3, ?_, ?_⟩
    · rw [hfile3, if_pos hpos, h.file, Int.toNat_natCast, List.length_append, ← Nat.add_assoc,
        Nat.mod_eq_of_lt hoff]
    · rw [← hip, hinum3, hip, h.inum]
  | inr h2 =>
    obtain ⟨hr, rfl⟩ := h2
    obtain rfl := hr htdev
    refine (advance_iunlock_spec h1 htype').mono (fun r s3 h3 => ?_) fun _ _ he => he
    obtain ⟨rfl, h3, hfile3, hinum3⟩ := h3
    refine .inr ⟨rfl, h3, ?_, ?_⟩
    · rw [hfile3, if_neg (by decide), h.file]
    · rw [← hip, hinum3, hip, h.inum]

end Section

/-! ### The machine -/

/-- Where a call of `filewrite` stands; `rest` is what it has left to write. -/
inductive WriteCall
  | waiting
  /-- at the test of the loop -/
  | looping (rest : List UInt8)
  /-- behind `begin_op` -/
  | begun (rest : List UInt8)
  /-- behind `iunlock`, with the result of `writei` -/
  | wrote (rest : List UInt8) (r : Int)
  | returned (r : Int)
  deriving DecidableEq

/-- Calls of `filewrite` on one file, each under a name of its own. Which process makes a call does not
matter: that a process makes its calls one after the other only rules out some of the runs. -/
structure Writers (ι : Type) where
  fs : State
  call : ι → WriteCall
  /-- the pieces in the order in which they were written, with the call that each is of -/
  chunks : List (ι × List UInt8)

namespace Writers

variable {ι : Type} [DecidableEq ι]

/-- No call has been made yet. -/
def init (s : State) : Writers ι := ⟨s, fun _ => .waiting, []⟩

def setCall (w : Writers ι) (c : ι) (x : WriteCall) : Writers ι :=
  { w with call := Function.update w.call c x }

/-- Go through a section, and on from there. -/
def through {α : Type} (w : Writers ι) (sect : FM α) (next : α → Writers ι → Option (Writers ι)) :
    Option (Writers ι) :=
  match sect w.fs with
  | .ok a s => next a { w with fs := s }
  | .error _ _ => none

/-- The next section of call `c`, which was given `src c`. It is not taken if it sleeps or panics. -/
def step (f : FileId) (src : ι → List UInt8) (w : Writers ι) (c : ι) : Option (Writers ι) :=
  match w.call c with
  | .waiting =>
    if (w.fs.file f).writable = false then some (w.setCall c (.returned (-1)))
    else
      match (w.fs.file f).type with
      | .inode => some (w.setCall c (.looping (src c)))
      | .none => none
  | .looping rest =>
    if rest = [] then some (w.setCall c (.returned (src c).length))
    else w.through beginOp fun _ w => some (w.setCall c (.begun rest))
  | .begun rest =>
    w.through (writeSection f (rest.take writeMax)) fun r w =>
      let chunks := if 0 < r then w.chunks ++ [(c, rest.take writeMax)] else w.chunks
      some ({ w with chunks := chunks }.setCall c (.wrote rest r))
  | .wrote rest r =>
    w.through endOp fun _ w =>
      if r < 0 then some (w.setCall c (.returned (-1)))
      else if r ≠ (rest.take writeMax).length then none
      else some (w.setCall c (.looping (rest.drop writeMax)))
  | .returned _ => none

/-- The pieces that call `c` has written. -/
def pieces (w : Writers ι) (c : ι) : List (List UInt8) :=
  (w.chunks.filter fun x => x.1 = c).map Prod.snd

/-- All that has been written. -/
def written (w : Writers ι) : List UInt8 := (w.chunks.map Prod.snd).flatten

omit [DecidableEq ι] in
lemma through_eq_some {α : Type} {w t : Writers ι} {sect : FM α}
    {next : α → Writers ι → Option (Writers ι)} (h : w.through sect next = some t) :
    ∃ a s, sect w.fs = .ok a s ∧ next a { w with fs := s } = some t := by
  unfold through at h
  split at h
  · rename_i a s hs
    exact ⟨a, s, hs, h⟩
  · cases h

lemma length_written [Fintype ι] (w : Writers ι) : w.written.length = ∑ c, (w.pieces c).flatten.length := by
  unfold written pieces
  induction w.chunks with
  | nil => simp
  | cons x chunks ih =>
    have hcons : ∀ c, (((x :: chunks).filter fun y => y.1 = c).map Prod.snd).flatten.length =
        (if x.1 = c then x.2.length else 0) +
          ((chunks.filter fun y => y.1 = c).map Prod.snd).flatten.length := by
      intro c
      by_cases hc : x.1 = c
      · simp [hc]
      · simp [hc]
    rw [Finset.sum_congr rfl fun c _ => hcons c, Finset.sum_add_distrib, ← ih, Finset.sum_ite_eq,
      if_pos (Finset.mem_univ _), List.map_cons, List.flatten_cons, List.length_append]

end Writers

/-! ### The invariant -/

/-- The pieces that a call has written, and those of what it has left, are the pieces of `src`. A call
that is not refused has a file that is open for writing, which `writable` says. -/
def WriteCall.Ok (writable : Prop) (src : List UInt8) (pieces : List (List UInt8)) : WriteCall → Prop
  | .waiting => pieces = []
  | .looping rest => writable ∧ pieces ++ writeChunks rest = writeChunks src
  | .begun rest => writable ∧ rest ≠ [] ∧ pieces ++ writeChunks rest = writeChunks src
  | .wrote rest r => writable ∧ (r = -1 ∨
      r = (rest.take writeMax).length ∧ pieces ++ writeChunks (rest.drop writeMax) = writeChunks src)
  | .returned r => r = src.length → pieces = writeChunks src

/-- The file is as the pieces say, in the order of writing, and every call has written a part of its
pieces. -/
structure Writers.Ok {ι : Type} [DecidableEq ι] (f : FileId) (s₀ : State) (src : ι → List UInt8)
    (w : Writers ι) : Prop where
  shared : Shared f s₀ w.written w.fs
  calls : ∀ c, (w.call c).Ok ((s₀.file f).writable = true) (src c) (w.pieces c)

namespace Writers.Ok

variable {ι : Type} [DecidableEq ι] {f : FileId} {s₀ s : State} {src : ι → List UInt8} {w t : Writers ι}
  {c : ι}

lemma init {P : Volume → Prop} (h : s.AtRest P) : (Writers.init s).Ok f s src :=
  ⟨.start h, fun _ => rfl⟩

lemma setFs (h : w.Ok f s₀ src) (hs : Shared f s₀ w.written s) : ({ w with fs := s } : Writers ι).Ok f s₀ src :=
  ⟨hs, h.calls⟩

lemma setCall (h : w.Ok f s₀ src) {x : WriteCall}
    (hx : x.Ok ((s₀.file f).writable) (src c) (w.pieces c)) : (w.setCall c x).Ok f s₀ src := by
  refine ⟨h.shared, fun d => ?_⟩
  show (Function.update w.call c x d).Ok _ _ (w.pieces d)
  by_cases hd : d = c
  · subst hd
    rwa [Function.update_self]
  · rw [Function.update_of_ne hd]
    exact h.calls d

/-- Call `c` has written one more piece. -/
lemma push (h : w.Ok f s₀ src) {chunk : List UInt8} {x : WriteCall} (hs : Shared f s₀ (w.written ++ chunk) s)
    (hx : x.Ok ((s₀.file f).writable) (src c) (w.pieces c ++ [chunk])) :
    (({ w with fs := s, chunks := w.chunks ++ [(c, chunk)] } : Writers ι).setCall c x).Ok f s₀ src := by
  refine ⟨?_, fun d => ?_⟩
  · show Shared f s₀ ((w.chunks ++ [(c, chunk)]).map Prod.snd).flatten s
    rwa [List.map_append, List.flatten_append, List.map_singleton, List.flatten_singleton]
  · show (Function.update w.call c x d).Ok _ _
      (((w.chunks ++ [(c, chunk)]).filter fun x => x.1 = d).map Prod.snd)
    rw [List.filter_append, List.map_append]
    by_cases hd : d = c
    · subst hd
      rw [Function.update_self]
      simpa [Writers.pieces] using hx
    · rw [Function.update_of_ne hd]
      simpa [Writers.pieces, Ne.symm hd] using h.calls d

/-- Every section keeps the invariant. -/
lemma step (h : w.Ok f s₀ src) (htype : (s₀.file f).type = .inode)
    (hdev : (s₀.diskVolume.din (s₀.inode (s₀.file f).ip).inum).type ≠ tDev)
    (hstep : w.step f src c = some t) : t.Ok f s₀ src := by
  have hc := h.calls c
  unfold Writers.step at hstep
  split at hstep
  · rename_i hcall
    rw [hcall] at hc
    split at hstep
    · cases hstep
      exact h.setCall fun hr => by omega
    · rename_i hwritable
      rw [h.shared.file] at hwritable
      split at hstep
      · cases hstep
        refine h.setCall ⟨by simpa using hwritable, ?_⟩
        rw [show w.pieces c = [] from hc, List.nil_append]
      · cases hstep
  · rename_i rest hcall
    rw [hcall] at hc
    obtain ⟨hwritable, hpieces⟩ := hc
    split at hstep
    · rename_i hrest
      cases hstep
      refine h.setCall fun _ => ?_
      rw [← hpieces, hrest, writeChunks_nil, List.append_nil]
    · rename_i hrest
      obtain ⟨_, s, hs, hstep⟩ := through_eq_some hstep
      cases hstep
      exact (h.setFs ((beginOp_shared h.shared htype).ok hs)).setCall ⟨hwritable, hrest, hpieces⟩
  · rename_i rest hcall
    rw [hcall] at hc
    obtain ⟨hwritable, hrest, hpieces⟩ := hc
    rw [writeChunks_of_ne hrest] at hpieces
    obtain ⟨hne, hlen⟩ := @length_of_mem_writeChunks rest (rest.take writeMax) (by
      rw [writeChunks_of_ne hrest]; exact List.mem_cons_self)
    obtain ⟨r, s, hs, hstep⟩ := through_eq_some hstep
    cases hstep
    cases (writeSection_shared h.shared htype hwritable hdev hne hlen).ok hs with
    | inl hw =>
      obtain ⟨rfl, hs'⟩ := hw
      rw [if_pos (Int.natCast_pos.mpr (List.length_pos_of_ne_nil hne))]
      refine h.push hs' ⟨hwritable, .inr ⟨rfl, ?_⟩⟩
      rw [List.append_assoc, List.singleton_append, hpieces]
    | inr hw =>
      obtain ⟨rfl, hs'⟩ := hw
      exact (h.setFs hs').setCall ⟨hwritable, .inl rfl⟩
  · rename_i rest r hcall
    rw [hcall] at hc
    obtain ⟨hwritable, hr⟩ := hc
    obtain ⟨_, s, hs, hstep⟩ := through_eq_some hstep
    have h' := h.setFs ((endOp_shared h.shared htype).ok hs)
    split at hstep
    · cases hstep
      exact h'.setCall fun hr => by omega
    · split at hstep
      · cases hstep
      · cases hstep
        cases hr with
        | inl hr => omega
        | inr hr => exact h'.setCall ⟨hwritable, hr.2⟩
  · cases hstep

end Writers.Ok

/-! ### Runs -/

/-- Calls of `filewrite` on one open file of an inode that is not a device, of any lengths and interleaved
in any way, that all return the length of what they were given: the offset has moved by all of it, the
range behind the first offset holds the pieces in the order of writing, and the pieces of one call are
those into which `filewrite` cuts what it was given, in order and each once. -/
theorem shared_writes {disk : Nat → Block} {devsw : Fin nDev → Device} {s : State}
    {as : List (ProcId × Call)} (howned : (⟨diskInodes disk, disk⟩ : Volume).Owned)
    (hdata : (⟨diskInodes disk, disk⟩ : Volume).InData)
    (hregular : (⟨diskInodes disk, disk⟩ : Volume).Regular)
    (hrun : Run State.step anyStep (State.mount disk devsw) as s)
    {f : FileId} (htype : (s.file f).type = .inode)
    (hdev : (s.diskVolume.din (s.inode (s.file f).ip).inum).type ≠ tDev)
    {ι : Type} [Fintype ι] [DecidableEq ι] {src : ι → List UInt8} {cs : List ι} {t : Writers ι}
    (hwrites : Run (Writers.step f src) anyStep (Writers.init s) cs t)
    (hall : ∀ c, t.call c = .returned (src c).length) :
    (t.fs.file f).off = (s.file f).off + ∑ c, (src c).length ∧
    (t.fs.inode (t.fs.file f).ip).inum = (s.inode (s.file f).ip).inum ∧
    t.fs.diskVolume.bytes (s.inode (s.file f).ip).inum (s.file f).off (∑ c, (src c).length) =
      (t.chunks.map Prod.snd).flatten ∧
    ∀ c, (t.chunks.filter fun x => x.1 = c).map Prod.snd = writeChunks (src c) := by
  have hok : t.Ok f s src := hwrites.inv (I := Writers.Ok f s src)
    (.init (atRest_of_run howned hdata hregular hrun))
    fun _ _ _ h _ hstep => h.step htype hdev hstep
  have hpieces : ∀ c, t.pieces c = writeChunks (src c) := fun c => by
    have hc := hok.calls c
    rw [hall c] at hc
    exact hc rfl
  have hlen : t.written.length = ∑ c, (src c).length := by
    rw [t.length_written]
    refine Finset.sum_congr rfl fun c _ => ?_
    rw [hpieces c, flatten_writeChunks]
  refine ⟨?_, ?_, ?_, hpieces⟩
  · rw [hok.shared.file, hlen]
  · rw [hok.shared.file]
    exact hok.shared.inum
  · rw [← hlen]
    exact hok.shared.atRest.holds.bytes_eq

local instance neZero_two : NeZero 2 := ⟨by decide⟩

/-- A call of two pieces, and a short one. -/
def twoWrites (c : Fin 2) : List UInt8 := if c = 0 then List.replicate (writeMax + 1) 65 else [67]

/-- The sections of the two calls: the short one writes between the pieces of the other. -/
def twoWritesOrder : List (Fin 2) := [0, 1, 0, 0, 1, 1, 0, 0, 0, 1, 0, 1, 0]

theorem shared_writes_twoWrites :
    ∃ s t, Run State.step anyStep (State.mount (image (fileOf 0)) noDevices)
        [(0, .openPath [47, 102] ⟨false, true, false, false⟩)] s ∧
      Run (Writers.step 0 twoWrites) anyStep (Writers.init s) twoWritesOrder t ∧
      (∀ c, t.call c = .returned (twoWrites c).length) ∧
      t.chunks = [(0, List.replicate writeMax 65), (1, [67]), (0, [65])] ∧
      (t.fs.file 0).off = writeMax + 2 ∧
      t.fs.diskVolume.bytes 2 0 (writeMax + 2) = List.replicate writeMax 65 ++ [67, 65] := by
  obtain ⟨s, hrun, htype, hip, hoff, hdev, hexec⟩ := run_of_check State.step anyStep
    (State.mount (image (fileOf 0)) noDevices) [(0, .openPath [47, 102] ⟨false, true, false, false⟩)]
    (fun s => (s.file 0).type = .inode ∧ (s.inode (s.file 0).ip).inum = 2 ∧ (s.file 0).off = 0 ∧
      (diskInodes s.disk 2).type ≠ tDev ∧
      (exec (Writers.step 0 twoWrites) anyStep (Writers.init s) twoWritesOrder).any fun t =>
        (∀ c, t.call c = .returned (twoWrites c).length) ∧
          t.chunks = [(0, List.replicate writeMax 65), (1, [67]), (0, [65])])
    (by decide +kernel)
  obtain ⟨t, hwrites, hall, hchunks⟩ := run_of_check (Writers.step 0 twoWrites) anyStep (Writers.init s)
    twoWritesOrder _ hexec
  have h := shared_writes (image_owned (by decide)) (image_inData (by decide)) image_regular hrun htype
    (by rw [hip]; exact hdev) hwrites hall
  have hsum : ∑ c, (twoWrites c).length = writeMax + 2 := by decide +kernel
  rw [hip, hoff, hsum, hchunks, Nat.zero_add] at h
  exact ⟨s, t, hrun, hwrites, hall, hchunks, h.1, by simpa using h.2.2.1⟩

end Xv6.Fs
