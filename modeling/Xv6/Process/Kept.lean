import Xv6.Process.Steps

/-!
# Actions that leave the processes as they are

Most actions move a process between `RUNNABLE`, `RUNNING`, `SLEEPING` and `ZOMBIE`, mark it killed
or give it another parent, and leave alone what the invariants of the table speak about: which slots
are in use, whose they are, and where their memory is. `Kept` says this of one slot and `Quiet` of
the whole table. The scan of `exit` is the one loop among the actions: `Scanned` says what it does to
the slots it has visited.
-/

namespace Xv6.Process

open Function (update_self update_of_ne)
open Table (ForkMem ExecEnd initproc)

/-- The slot holds a process. -/
def Proc.Used (p : Proc) : Prop := p.state ≠ .unused

instance : DecidablePred Proc.Used := fun _ => inferInstanceAs (Decidable (_ ≠ _))

/-- The slot holds an LWP: `thread_create` filled it in, and nothing has reclaimed it yet. -/
def Proc.IsLwp (p : Proc) : Prop := p.Used ∧ 0 < p.lwpid ∧ p.forked = false

instance : DecidablePred Proc.IsLwp := fun _ => inferInstanceAs (Decidable (_ ∧ _ ∧ _))

/-- What tells one process from another. -/
structure Same (a b : Proc) : Prop where
  pgdir : b.pgdir = a.pgdir
  pid : b.pid = a.pid
  lwpid : b.lwpid = a.lwpid
  lwppid : b.lwppid = a.lwppid
  forked : b.forked = a.forked
  ended : b.cont = .threadExited ↔ a.cont = .threadExited
  zombie : a.state = .zombie → b.state = .zombie

/-- Where its heap and its stack end. -/
structure SameLayout (a b : Proc) : Prop where
  sz : b.sz = a.sz
  sbase : b.sbase = a.sbase
  snum : b.snum = a.snum

/-- The slot holds the process it held, or none as before. -/
def Keeps (a b : Proc) : Prop := (b.Used ↔ a.Used) ∧ (a.Used → Same a b)

lemma Same.refl (a : Proc) : Same a a := ⟨rfl, rfl, rfl, rfl, rfl, .rfl, id⟩

variable {a b c : Proc}

lemma Same.trans (h : Same a b) (h' : Same b c) : Same a c where
  pgdir := h'.pgdir.trans h.pgdir
  pid := h'.pid.trans h.pid
  lwpid := h'.lwpid.trans h.lwpid
  lwppid := h'.lwppid.trans h.lwppid
  forked := h'.forked.trans h.forked
  ended := h'.ended.trans h.ended
  zombie := h'.zombie ∘ h.zombie

lemma SameLayout.refl (a : Proc) : SameLayout a a := ⟨rfl, rfl, rfl⟩

lemma SameLayout.trans (h : SameLayout a b) (h' : SameLayout b c) : SameLayout a c where
  sz := h'.sz.trans h.sz
  sbase := h'.sbase.trans h.sbase
  snum := h'.snum.trans h.snum

namespace Keeps

variable {a b c : Proc}

lemma refl (a : Proc) : Keeps a a := ⟨.rfl, fun _ => .refl a⟩

lemma trans (h : Keeps a b) (h' : Keeps b c) : Keeps a c :=
  ⟨h'.1.trans h.1, fun ha => (h.2 ha).trans (h'.2 (h.1.mpr ha))⟩

lemma same (h : Keeps a b) (hb : b.Used) : Same a b := h.2 (h.1.mp hb)

lemma isLwp (h : Keeps a b) : b.IsLwp ↔ a.IsLwp := by
  unfold Proc.IsLwp
  by_cases ha : a.Used
  · rw [h.1, (h.2 ha).lwpid, (h.2 ha).forked]
  · simp [ha, h.1]

lemma of_unused (ha : ¬ a.Used) (hb : ¬ b.Used) : Keeps a b :=
  ⟨⟨fun h => absurd h hb, fun h => absurd h ha⟩, fun h => absurd h ha⟩

end Keeps

/-- `exit` lets the process out of its reaping loop, which only a manager enters, or past it. -/
def TailKept (a b : Proc) : Prop := b.cont = .exitTail → a.cont = .exitTail ∨ a.lwpid ≠ 0

/-- The slot is untouched in all that the invariants speak about. -/
structure Kept (a b : Proc) : Prop where
  keeps : Keeps a b
  layout : a.Used → SameLayout a b
  tail : a.Used → TailKept a b

lemma Kept.refl (a : Proc) : Kept a a := ⟨.refl a, fun _ => .refl a, fun _ => .inl⟩

lemma Kept.trans (h : Kept a b) (h' : Kept b c) : Kept a c where
  keeps := h.keeps.trans h'.keeps
  layout ha := (h.layout ha).trans (h'.layout (h.keeps.1.mpr ha))
  tail ha hc := by
    rcases h'.tail (h.keeps.1.mpr ha) hc with hb | hb
    · exact h.tail ha hb
    · exact .inr ((h.keeps.2 ha).lwpid ▸ hb)

lemma Kept.of_unused (ha : ¬ a.Used) (hb : ¬ b.Used) : Kept a b :=
  ⟨.of_unused ha hb, fun h => absurd h ha, fun h => absurd h ha⟩

variable {pa : Option ProcId} {st : ProcState} {ch : Option Chan} {k : Bool}

lemma Kept.update {r : Nat} {c : Cont} (hu : st = .unused ↔ a.state = .unused)
    (hz : a.state = .zombie → st = .zombie) (hc : c = .threadExited ↔ a.cont = .threadExited)
    (ht : c = .exitTail → a.cont = .exitTail ∨ a.lwpid ≠ 0) :
    Kept a
      { a with parent := pa, state := st, chan := ch, killed := k, retval := r, cont := c } where
  keeps := ⟨not_congr hu, fun _ => ⟨rfl, rfl, rfl, rfl, rfl, hc, hz⟩⟩
  layout _ := ⟨rfl, rfl, rfl⟩
  tail _ := ht

lemma Kept.mark : Kept a { a with parent := pa, chan := ch, killed := k } :=
  .update .rfl id .rfl .inl

/-- No slot comes into or goes out of use, and nothing that counts is changed. An attempt that
failed may have used up numbers, among them that of a page directory freed at once. -/
structure Quiet (s t : Table) : Prop where
  kept : ∀ q, Kept (s.proc q) (t.proc q)
  numLwp : t.numLwp = s.numLwp
  nextpid : s.nextpid ≤ t.nextpid
  nextlwpid : s.nextlwpid ≤ t.nextlwpid
  use : t.use = s.use
  pages : ∀ d, d < s.nextdir → t.pages d = s.pages d
  dirs : (t.nextdir = s.nextdir ∧ t.freed = s.freed) ∨
    (t.nextdir = s.nextdir + 1 ∧ t.freed = s.nextdir :: s.freed)
  stopped : t.stopped = s.stopped

/-! ### Changes of slots only -/

/-- Only slots change, and none of them in what the invariants speak about. -/
def SlotsKept (s t : Table) : Prop :=
  ∃ f, t = { s with proc := f } ∧ ∀ q, Kept (s.proc q) (f q)

variable {p : ProcId} {f : Proc → Proc} {s : Table}

namespace SlotsKept

variable {s t u : Table}

lemma refl (s : Table) : SlotsKept s s := ⟨s.proc, rfl, fun _ => .refl _⟩

lemma trans (h : SlotsKept s t) (h' : SlotsKept t u) : SlotsKept s u := by
  obtain ⟨f, rfl, hf⟩ := h
  obtain ⟨g, rfl, hg⟩ := h'
  exact ⟨g, rfl, fun q => (hf q).trans (hg q)⟩

lemma quiet (h : SlotsKept s t) : Quiet s t := by
  obtain ⟨f, rfl, hf⟩ := h
  exact ⟨hf, rfl, le_refl _, le_refl _, rfl, fun _ _ => rfl, .inl ⟨rfl, rfl⟩, rfl⟩

lemma modify (h : Kept (s.proc p) (f (s.proc p))) : SlotsKept s (s.modify p f) := by
  refine ⟨_, rfl, fun q => ?_⟩
  by_cases hq : q = p
  · rw [hq, update_self]
    exact h
  · rw [update_of_ne hq]
    exact .refl _

lemma wakeup1 (s : Table) (p : ProcId) : SlotsKept s (s.wakeup1 p) := by
  refine ⟨_, rfl, fun q => ?_⟩
  split
  · rename_i h
    exact .update (by simp [h.1]) (by simp [h.1]) .rfl .inl
  · exact .refl _

lemma wakeParent (s : Table) (p : ProcId) : SlotsKept s (s.wakeParent p) := by
  unfold Table.wakeParent
  split
  · exact wakeup1 _ _
  · exact .refl _

lemma adopt (s : Table) (p : ProcId) : SlotsKept s (s.adopt p) := by
  refine ⟨_, rfl, fun q => ?_⟩
  split
  · exact .mark
  · exact .refl _

lemma reparent (s : Table) (p : ProcId) : SlotsKept s (s.reparent p) := by
  unfold Table.reparent
  split
  · exact (adopt s p).trans (wakeup1 _ _)
  · exact adopt s p

lemma sleep {s : Table} {c : Cont} (hp : (s.proc p).state = .running)
    (he : (s.proc p).cont ≠ .threadExited) (hc : c ≠ .threadExited) (ht : c ≠ .exitTail) :
    SlotsKept s (s.sleep p c) :=
  modify (.update (by simp [hp]) (by simp [hp]) (by simp [he, hc]) fun h => absurd h ht)

lemma ret {s : Table} (he : (s.proc p).cont ≠ .threadExited) : SlotsKept s (s.ret p) :=
  modify (.update .rfl id (by simp [he]) fun h => absurd h (by simp))

end SlotsKept

/-! ### The quiet calls -/

section Quiet

open Table

variable {s t : Table} {p q : ProcId}

lemma findSlot_some {P : Proc → Bool} (h : s.findSlot P = some q) : P (s.proc q) := by
  simpa using List.find?_some h

lemma modify_self : (s.modify p f).proc p = f (s.proc p) :=
  update_self ..

lemma modify_of_ne (h : q ≠ p) : (s.modify p f).proc q = s.proc q :=
  update_of_ne h ..

lemma used_of_stands {c : Cont} (h : s.stands p c) : (s.proc p).Used := by
  simp [Proc.Used, h.1]

lemma used_of_calls (h : s.calls p) : (s.proc p).Used := used_of_stands h.1

lemma used_of_zombie (h : (s.proc q).state = .zombie) : (s.proc q).Used := by
  simp [Proc.Used, h]

lemma sched_quiet (h : s.sched p st = some t) : Quiet s t := by
  have move : ∀ (st : ProcState) (ch : Proc → Option Chan), (s.proc p).Used →
      (s.proc p).state ≠ .zombie → st ≠ .unused →
      SlotsKept s (s.modify p fun pr => { pr with state := st, chan := ch pr }) := by
    intro st ch hp hz hst
    exact .modify (.update (iff_of_false hst hp) (fun h => absurd h hz) .rfl .inl)
  unfold Table.sched at h
  split at h
  · split at h
    · rename_i hr
      cases h
      exact (move _ (fun _ => none) (by simp [Proc.Used, hr]) (by simp [hr]) (by simp)).quiet
    · cases h
  · split at h
    · rename_i hr
      cases h
      have hu : (s.proc p).Used ∧ (s.proc p).state ≠ .zombie := by
        rcases hr with hr | hr
        · simp [Proc.Used, hr]
        · simp [Proc.Used, hr.1]
      exact (move _ (fun pr => pr.chan) hu.1 hu.2 (by simp)).quiet
    · cases h
  · split at h
    · rename_i hr
      cases h
      have hr : (s.proc p).state = .running := hr.elim (fun h => h.1) fun h => h.1
      exact (move _ (fun _ => some .other) (by simp [Proc.Used, hr]) (by simp [hr])
        (by simp)).quiet
    · cases h
  · cases h

lemma exit_quiet (hp : s.stands p .user) (hi : p ≠ initproc) : Quiet s (s.exit p) := by
  unfold Table.exit
  rw [if_neg hi]
  split
  · refine SlotsKept.quiet (.modify (.update .rfl id ?_ fun h => absurd h (by simp)))
    simp [hp.2]
  · rename_i hl
    -- the manager of an LWP is marked, then the LWP leaves for its last critical section
    have htail : ∀ t, SlotsKept s t →
        SlotsKept s (t.modify p fun pr => { pr with cont := .exitTail }) := by
      intro t ht
      obtain ⟨f, rfl, hf⟩ := ht
      have hs := (hf p).keeps.2 (used_of_stands hp)
      refine .trans ⟨f, rfl, hf⟩ (.modify (.update .rfl id ?_ ?_))
      · simp [hs.ended, hp.2]
      · exact fun _ => .inr (hs.lwpid ▸ hl)
    refine (htail _ ?_).quiet
    split
    · split
      · exact .refl _
      · exact .modify .mark
    · exact .refl _

lemma exitEnd_quiet (hp : s.stands p .exitTail) : Quiet s (s.exitEnd p) := by
  obtain ⟨f, hf, hk⟩ := (SlotsKept.wakeParent s p).trans (.reparent _ p)
  have hs := (hk p).keeps.2 (used_of_stands hp)
  have hu := (hk p).keeps.1.mpr (used_of_stands hp)
  unfold Table.exitEnd
  rw [hf]
  refine SlotsKept.quiet (.trans ⟨f, rfl, hk⟩ (.modify (.update ?_ (fun _ => rfl) ?_ ?_)))
  · exact iff_of_false (by simp) hu
  · simp [hs.ended, hp.2]
  · exact nofun

lemma kill_quiet (pid : Nat) : Quiet s (s.kill p pid) := by
  have hit : ∀ pr : Proc, Kept pr pr.hit := by
    intro pr
    refine .update ?_ ?_ .rfl .inl <;> by_cases h : pr.state = .sleeping <;> simp [h]
  unfold Table.kill
  split
  · refine (SlotsKept.quiet ⟨_, rfl, fun q => ?_⟩)
    split
    · exact hit _
    · exact .refl _
  · split
    · exact (SlotsKept.modify (hit _)).quiet
    · exact (SlotsKept.refl s).quiet

end Quiet

/-! ### The scan of `exit` -/

/-- Slot `q` holds an LWP of the process `pid` that is ready to be reaped. -/
def Table.OwnZombie (s : Table) (pid : Nat) (q : ProcId) : Prop :=
  (s.proc q).lwppid = pid ∧ (s.proc q).state = .zombie

instance (s : Table) (pid : Nat) : DecidablePred (s.OwnZombie pid) :=
  fun _ => inferInstanceAs (Decidable (_ ∧ _))

/-- The process is marked or woken, nothing else. -/
def Stirred (a b : Proc) : Prop :=
  ∃ k st, b = { a with killed := k, state := st } ∧
    (st = a.state ∨ (a.state = .sleeping ∧ st = .runnable))

lemma Stirred.refl (a : Proc) : Stirred a a := ⟨a.killed, a.state, rfl, .inl rfl⟩

lemma Stirred.trans (h : Stirred a b) (h' : Stirred b c) : Stirred a c := by
  obtain ⟨k, st, rfl, hst⟩ := h
  obtain ⟨k', st', rfl, hst'⟩ := h'
  refine ⟨k', st', rfl, ?_⟩
  rcases hst with rfl | ⟨hs, rfl⟩
  · exact hst'
  · rcases hst' with rfl | ⟨hs', -⟩
    · exact .inr ⟨hs, rfl⟩
    · cases hs'

lemma Stirred.zombie (h : Stirred a b) : b.state = .zombie ↔ a.state = .zombie := by
  obtain ⟨k, st, rfl, rfl | ⟨hs, rfl⟩⟩ := h
  · exact .rfl
  · simp [hs]

lemma Stirred.used (h : Stirred a b) : b.Used ↔ a.Used := by
  obtain ⟨k, st, rfl, rfl | ⟨hs, rfl⟩⟩ := h
  · exact .rfl
  · simp [Proc.Used, hs]

lemma Stirred.lwppid (h : Stirred a b) : b.lwppid = a.lwppid := by
  obtain ⟨k, st, rfl, -⟩ := h
  rfl

lemma Stirred.cont (h : Stirred a b) : b.cont = a.cont := by
  obtain ⟨k, st, rfl, -⟩ := h
  rfl

lemma Stirred.kept (h : Stirred a b) : Kept a b := by
  have hz := h.zombie
  have hu := h.used
  obtain ⟨k, st, rfl, -⟩ := h
  exact .update (not_iff_not.mp hu) hz.mpr .rfl .inl

lemma wakeup1_stirred (s : Table) (p q : ProcId) : Stirred (s.proc q) ((s.wakeup1 p).proc q) := by
  simp only [Table.wakeup1]
  split
  · rename_i h
    exact ⟨_, _, rfl, .inr ⟨h.1, rfl⟩⟩
  · exact .refl _

/-- The stack of slot `q` is not mapped in the directories `pg`. -/
def Proc.StackUnmapped (p : Proc) (pg : Nat → Pages) : Prop :=
  ∀ d i, p.pgdir = some d → pgUp p.sbase ≤ i → i < pgUp (p.sbase + 2 * pgSize) → pg d i = false

lemma Proc.StackUnmapped.mono {p : Proc} {pg pg' : Nat → Pages} (h : p.StackUnmapped pg)
    (hpg : ∀ d i, pg' d i → pg d i) : p.StackUnmapped pg' := by
  intro d i hd hlo hhi
  have := h d i hd hlo hhi
  exact Bool.eq_false_iff.mpr fun h' => by simp [hpg d i h'] at this

/-- What the slots in `l`, visited for the process `pid`, have become. -/
structure Scanned (pid : Nat) (l : List ProcId) (s t : Table) : Prop where
  rest : ∃ f n pg, t = { s with proc := f, numLwp := n, pages := pg }
  reaped : ∀ q ∈ l, s.OwnZombie pid q → ¬ (t.proc q).Used
  stirred : ∀ q, (q ∈ l → ¬ s.OwnZombie pid q) → Stirred (s.proc q) (t.proc q)
  numLwp : t.numLwp = s.numLwp - (l.filter fun q => s.OwnZombie pid q).length
  pages : ∀ d i, t.pages d i = true → s.pages d i = true
  unmapped : ∀ q ∈ l, s.OwnZombie pid q → (s.proc q).StackUnmapped t.pages

lemma deallocStack_eq (s : Table) (q : ProcId) :
    ∃ pg, s.deallocStack q = { s with pages := pg } ∧
      (∀ d i, pg d i → s.pages d i) ∧ (s.proc q).StackUnmapped pg := by
  unfold Table.deallocStack
  split
  · rename_i d hd
    refine ⟨_, rfl, fun e i h => ?_, fun e i he hlo hhi => ?_⟩
    · by_cases he : e = d
      · rw [he, update_self] at h
        exact he ▸ deallocuvm_sub h
      · rwa [update_of_ne he] at h
    · obtain rfl : d = e := Option.mem_unique hd he
      rw [update_self]
      exact Bool.eq_false_iff.mpr fun h => absurd (deallocuvm_range h hhi) (by omega)
  · rename_i hd
    exact ⟨s.pages, rfl, fun _ _ h => h, fun d i h => absurd (hd.symm.trans h) (by simp)⟩

lemma exitVisit_scanned (pid : Nat) (s : Table) (q : ProcId) : Scanned pid [q] s (Table.exitVisit pid s q) := by
  unfold Table.exitVisit
  by_cases hown : (s.proc q).lwppid = pid
  · rw [if_pos hown]
    by_cases hz : (s.proc q).state = .zombie
    · -- reaped: its stack is unmapped and the slot emptied
      obtain ⟨pg, he, hpg, hun⟩ := deallocStack_eq s q
      rw [if_pos hz, he]
      have hoz : s.OwnZombie pid q := ⟨hown, hz⟩
      refine ⟨⟨_, _, _, rfl⟩, fun r hr _ => ?_, fun r hr => ?_, ?_, hpg, fun r hr _ => ?_⟩
      · obtain rfl := List.mem_singleton.mp hr
        simp [Table.modify, Proc.reaped, Proc.Used]
      · have hne : r ≠ q := fun h => hr (List.mem_singleton.mpr h) (h ▸ hoz)
        simp only [Table.modify, update_of_ne hne]
        exact .refl _
      · simp [hoz]
      · obtain rfl := List.mem_singleton.mp hr
        exact hun
    · rw [if_neg hz]
      have hoz : ¬ s.OwnZombie pid q := fun h => hz h.2
      have hnone : ∀ r ∈ [q], ¬ s.OwnZombie pid r := fun r hr => List.mem_singleton.mp hr ▸ hoz
      refine ⟨⟨_, _, _, rfl⟩, fun r hr h => absurd h (hnone r hr), fun r _ => ?_, ?_,
        fun _ _ h => h, fun r hr h => absurd h (hnone r hr)⟩
      · refine .trans ?_ (wakeup1_stirred _ q r)
        by_cases hr : r = q
        · rw [hr]
          simp only [Table.modify, update_self]
          exact ⟨_, _, rfl, .inl rfl⟩
        · simp only [Table.modify, update_of_ne hr]
          exact .refl _
      · simp [hoz, Table.wakeup1, Table.modify]
  · rw [if_neg hown]
    have hoz : ¬ s.OwnZombie pid q := fun h => hown h.1
    have hnone : ∀ r ∈ [q], ¬ s.OwnZombie pid r := fun r hr => List.mem_singleton.mp hr ▸ hoz
    refine ⟨⟨s.proc, s.numLwp, s.pages, rfl⟩, fun r hr h => absurd h (hnone r hr),
      fun r _ => .refl _, ?_, fun _ _ h => h, fun r hr h => absurd h (hnone r hr)⟩
    simp [hoz]

variable {q : ProcId}

lemma Scanned.cons {pid : Nat} {l : List ProcId} {t u : Table} (hq : q ∉ l)
    (h : Scanned pid [q] s t) (h' : Scanned pid l t u) : Scanned pid (q :: l) s u := by
  -- the slots still to be visited are own zombies as they were
  have hsame : ∀ r ≠ q, (t.OwnZombie pid r ↔ s.OwnZombie pid r) := by
    intro r hr
    have hst := h.stirred r fun hm => absurd (List.mem_singleton.mp hm) hr
    unfold Table.OwnZombie
    rw [hst.lwppid, hst.zombie]
  have hne : ∀ r ∈ l, r ≠ q := fun r hr he => hq (he ▸ hr)
  constructor
  case rest =>
    obtain ⟨f, n, pg, rfl⟩ := h.rest
    obtain ⟨f', n', pg', rfl⟩ := h'.rest
    exact ⟨f', n', pg', rfl⟩
  case reaped =>
    intro r hr hz
    rcases List.mem_cons.mp hr with rfl | hr
    · rw [(h'.stirred r fun hm => absurd hm hq).used]
      exact h.reaped r (List.mem_singleton.mpr rfl) hz
    · exact h'.reaped r hr ((hsame r (hne r hr)).mpr hz)
  case stirred =>
    intro r hr
    refine (h.stirred r fun hm => hr ?_).trans (h'.stirred r fun hm hz => hr ?_ ?_)
    · rw [List.mem_singleton.mp hm]
      exact .head _
    · exact .tail _ hm
    · exact (hsame r (hne r hm)).mp hz
  case numLwp =>
    have hfilter : (l.filter fun r => t.OwnZombie pid r) = l.filter fun r => s.OwnZombie pid r :=
      List.filter_congr fun r hr => by simp [hsame r (hne r hr)]
    rw [h'.numLwp, h.numLwp, hfilter, show q :: l = [q] ++ l from rfl, List.filter_append,
      List.length_append]
    push_cast
    ring
  case pages => exact fun d i hi => h.pages d i (h'.pages d i hi)
  case unmapped =>
    intro r hr hz
    rcases List.mem_cons.mp hr with rfl | hr
    · exact (h.unmapped r (List.mem_singleton.mpr rfl) hz).mono h'.pages
    · -- the slot still had its stack when it was visited
      have hst := h.stirred r fun hm => absurd (List.mem_singleton.mp hm) (hne r hr)
      have hl := hst.kept.layout (used_of_zombie hz.2)
      have hs := hst.kept.keeps.2 (used_of_zombie hz.2)
      have hun := h'.unmapped r hr ((hsame r (hne r hr)).mpr hz)
      unfold Proc.StackUnmapped at hun ⊢
      rwa [hs.pgdir, hl.sbase] at hun

lemma foldl_scanned (pid : Nat) (l : List ProcId) (hl : l.Nodup) (s : Table) :
    Scanned pid l s (l.foldl (Table.exitVisit pid) s) := by
  induction l generalizing s with
  | nil =>
    exact ⟨⟨_, _, _, rfl⟩, by simp, fun q _ => .refl _, by simp, fun _ _ h => h, by simp⟩
  | cons q l ih =>
    obtain ⟨hq, hl⟩ := List.nodup_cons.mp hl
    exact .cons hq (exitVisit_scanned pid s q) (ih hl _)

/-- The slots that a scan of `exit` by `p` reaps. -/
@[irreducible]
def Table.ownZombies (s : Table) (p : ProcId) : Finset ProcId :=
  Finset.univ.filter fun q => s.OwnZombie (s.proc p).pid q

lemma mem_ownZombies : q ∈ s.ownZombies p ↔ s.OwnZombie (s.proc p).pid q := by
  unfold Table.ownZombies
  simp

lemma length_ownZombies (s : Table) (p : ProcId) :
    ((List.finRange nProc).filter fun q => s.OwnZombie (s.proc p).pid q).length =
      (s.ownZombies p).card := by
  have hnd : ((List.finRange nProc).filter fun q => s.OwnZombie (s.proc p).pid q).Nodup :=
    (List.nodup_finRange nProc).filter _
  rw [← List.toFinset_card_of_nodup hnd]
  congr 1
  ext q
  simp [mem_ownZombies]

end Xv6.Process
