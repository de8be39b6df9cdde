import Xv6.Disk.Control

/-!
# The invariant that `bio.c` and `log.c` share

`Inv A view` ties what the system shows to a flat array of blocks `view`: outside of the log region
a `bread` returns `view`; a block whose content is only in the cache is listed in the log header; and
the log area holds what the header lists as soon as no operation is in progress or being copied.
The last clause is what makes `install_trans` harmless, since it copies the slots back over the
cache.
-/

namespace Xv6.Disk

open Function (update update_self update_of_ne)
open Lib

/-- Outside of the log region: the blocks that operations read and write. -/
def Home (b : Nat) : Prop := b < logStart ∨ logStart + logSize ≤ b

instance (b : Nat) : Decidable (Home b) := by
  unfold Home
  infer_instance

lemma not_home_logStart : ¬ Home logStart := by decide

lemma not_home_slot {t : Nat} (ht : t + 1 < logSize) : ¬ Home (slot t) := by
  unfold Home slot
  omega

lemma slot_lt {t : Nat} (ht : t + 1 < logSize) : slot t < fsSize := by
  unfold slot logStart fsSize
  unfold logSize at ht
  omega

lemma slot_ne_logStart (t : Nat) : slot t ≠ logStart := by
  unfold slot
  omega

lemma slot_inj {i j : Nat} (h : slot i = slot j) : i = j := by
  unfold slot at h
  omega

/-- What an action does to the flat array. -/
def Act.apply : Act → (Nat → Block) → Nat → Block
  | .logWrite _ b v, view => Function.update view b v
  | _, view => view

/-- Operations log blocks outside of the log region only. -/
def Act.InHome : Act → Prop
  | .logWrite _ b _ => Home b
  | _ => True

instance : (a : Act) → Decidable a.InHome
  | .logWrite _ b _ => inferInstanceAs (Decidable (Home b))
  | .beginOp _ => isTrue trivial
  | .bread _ _ => isTrue trivial
  | .brelse _ _ => isTrue trivial
  | .endOp _ => isTrue trivial
  | .run _ => isTrue trivial
  | .sysSync _ => isTrue trivial

namespace Abs

/-- Slot `j` of the log area holds the current content of the `j`-th listed block. -/
def SlotOk (A : Abs) (j : Nat) : Prop :=
  ∀ b, A.log.lh[j]? = some b → A.want (slot j) = A.want b

/-- What holds while a process is at a given point. -/
def Phase (A : Abs) : Pc → Prop
  | .writeLog t => (0 < t → A.log.lh.length < logSize) ∧ ∀ j, j < t → A.SlotOk j
  | .install _ t => ∀ j b, j < t → A.log.lh[j]? = some b → b ∉ A.pin
  | .reset _ => A.pin = ∅
  | .clearHead _ => A.log.lh = []
  | .readHead => A.log.lh = [] ∧ getHeader (A.want logStart) = []
  | _ => True

lemma phase_congr {A A' : Abs} (hwant : A'.want = A.want) (hpin : A'.pin = A.pin)
    (hlh : A'.log.lh = A.log.lh) (c : Pc) : A'.Phase c ↔ A.Phase c := by
  unfold Phase SlotOk
  rw [hwant, hpin, hlh]

lemma Phase.shrink {A A' : Abs} {c : Pc} (h : A.Phase c) (hc : c.writing = false)
    (hpin : A'.pin ⊆ A.pin) (hlh : A'.log.lh = A.log.lh ∨ A'.log.lh = [])
    (hhead : A'.want logStart = A.want logStart) : A'.Phase c := by
  have hnil : A.log.lh = [] → A'.log.lh = [] := by
    rcases hlh with hlh | hlh
    · rw [hlh]; exact id
    · exact fun _ => hlh
  cases c with
  | writeLog t => cases hc
  | install c t =>
    intro j b hj hb hm
    rcases hlh with hlh | hlh
    · rw [hlh] at hb
      exact h j b hj hb (hpin hm)
    · simp [hlh] at hb
  | reset c =>
    have h : A.pin = ∅ := h
    exact Finset.subset_empty.mp (h ▸ hpin)
  | clearHead c => exact hnil h
  | readHead => exact ⟨hnil h.1, by rw [hhead]; exact h.2⟩
  | _ => trivial

lemma phase_of_idle (A : Abs) {c : Pc} (hin : c.inCommit = false) (hsync : c.syncing = false)
    (hrec : c.recovering = false) : A.Phase c := by
  cases c with
  | writeLog t => cases hin
  | install c t | reset c | clearHead c => cases hsync
  | readHead => cases hrec
  | _ => trivial

/-- No process is installing blocks. -/
def NoSync (A : Abs) : Prop := ∀ p, (A.pc p).syncing = false

/-- No operation is in progress or being copied to the log area. -/
def Settled (A : Abs) : Prop := A.log.outstanding = 0 ∧ ∀ q, (A.pc q).writing = false

end Abs

/-- The invariant. -/
structure Inv (A : Abs) (view : Nat → Block) : Prop where
  ctl : Ctl A.log A.pc
  flat : ∀ b, Home b → A.want b = view b
  nodup : A.log.lh.Nodup
  home : ∀ b ∈ A.log.lh, Home b
  range : ∀ b ∈ A.log.lh, b < fsSize
  listed : ∀ b ∈ A.pin, b ∈ A.log.lh
  pinned : A.NoSync → ∀ b ∈ A.log.lh, b ∈ A.pin
  settled : A.Settled → A.log.lh.length < logSize ∧ ∀ j, A.SlotOk j
  phase : ∀ p, A.Phase (A.pc p)

namespace Inv

variable {A A' : Abs} {view : Nat → Block} {p : ProcId}

/-- While process `p` copies a transaction to the log area, nobody else is in a commit, in `sync` or
in recovery. -/
lemma others_idle (h : Inv A view) (hp : (A.pc p).writing) {q : ProcId} (hq : q ≠ p) :
    (A.pc q).inCommit = false ∧ (A.pc q).syncing = false ∧ (A.pc q).recovering = false := by
  have hin := Pc.inCommit_of_writing hp
  refine ⟨?_, ?_, ?_⟩
  · by_contra hc
    exact hq (h.ctl.commitOne q p (by simpa using hc) hin)
  · by_contra hc
    have := (h.ctl.syncIdle q (by simpa using hc)).2 p
    rw [hp] at this
    cases this
  · by_contra hc
    have := (h.ctl.idle_of_recovering (p := q) (by simpa using hc)).2 p hq.symm
    rw [hp] at this
    cases this

lemma control (h : Inv A view) (hctl : Ctl A'.log A'.pc) (hwant : A'.want = A.want)
    (hpin : A'.pin = A.pin) (hlh : A'.log.lh = A.log.lh) (hsync : A'.NoSync → A.NoSync ∨ A.log.lh = [])
    (hset : A'.Settled → A.log.lh.length < logSize ∧ ∀ j, A.SlotOk j)
    (hphase : ∀ q, A.Phase (A'.pc q)) : Inv A' view where
  ctl := hctl
  flat := by rw [hwant]; exact h.flat
  nodup := by rw [hlh]; exact h.nodup
  home := by rw [hlh]; exact h.home
  range := by rw [hlh]; exact h.range
  listed := by rw [hlh, hpin]; exact h.listed
  pinned := by
    rw [hlh, hpin]
    intro hno b hb
    rcases hsync hno with hno | hnil
    · exact h.pinned hno b hb
    · rw [hnil] at hb
      cases hb
  settled := by
    intro hs
    unfold Abs.SlotOk
    rw [hwant, hlh]
    exact hset hs
  phase := fun q => (Abs.phase_congr hwant hpin hlh _).mpr (hphase q)

lemma phase_jump (h : Inv A view) {c : Pc} (hc : A.Phase c) (q : ProcId) : A.Phase (update A.pc p c q) := by
  by_cases hq : q = p
  · rw [hq, update_self]; exact hc
  · rw [update_of_ne hq]; exact h.phase q

lemma noSync_of_jump {c : Pc} (hp : (A.pc p).syncing = false)
    (hno : ∀ q, (update A.pc p c q).syncing = false) : A.NoSync := by
  intro q
  by_cases hq : q = p
  · rw [hq]; exact hp
  · have := hno q
    rwa [update_of_ne hq] at this

lemma settled_of_jump {c : Pc} {l : Log} (hout : l.outstanding = A.log.outstanding)
    (hp : (A.pc p).writing = false)
    (hs : l.outstanding = 0 ∧ ∀ q, (update A.pc p c q).writing = false) : A.Settled := by
  refine ⟨hout ▸ hs.1, fun q => ?_⟩
  by_cases hq : q = p
  · rw [hq]; exact hp
  · have := hs.2 q
    rwa [update_of_ne hq] at this

section

variable (h : Inv A view)
include h

lemma jump {c : Pc} {l : Log} (hctl : Ctl l (update A.pc p c))
    (hlh : l.lh = A.log.lh) (hsync : (A.pc p).syncing = false ∨ A.log.lh = [] ∨ c.syncing)
    (hset : (l.outstanding = 0 ∧ ∀ q, (update A.pc p c q).writing = false) →
      A.log.lh.length < logSize ∧ ∀ j, A.SlotOk j)
    (hphase : A.Phase c) : Inv ((A.setLog l).jump p c) view := by
  refine h.control hctl rfl rfl hlh ?_ hset (h.phase_jump hphase)
  intro hno
  rcases hsync with hp | hnil | hc
  · exact .inl (noSync_of_jump hp hno)
  · exact .inr hnil
  · have := hno p
    simp only [Abs.jump_pc, update_self, hc] at this
    cases this

/-! ### Steps that change contents -/

lemma writeArea {x : Nat} {v : Block} {c : Pc} (hx : ¬ Home x)
    (hctl : Ctl A.log (update A.pc p c)) (hsync : (A.pc p).syncing = false ∨ A.log.lh = [])
    (hset : (A.log.outstanding = 0 ∧ ∀ q, (update A.pc p c q).writing = false) →
      A.log.lh.length < logSize ∧ ∀ j, (A.write x v).SlotOk j)
    (hphase : ∀ q, (A.write x v).Phase (update A.pc p c q)) : Inv ((A.write x v).jump p c) view where
  ctl := hctl
  flat := by
    intro b hb
    have hne : b ≠ x := by rintro rfl; exact hx hb
    simp only [Abs.jump_want, Abs.write_want, update_of_ne hne]
    exact h.flat b hb
  nodup := h.nodup
  home := h.home
  range := h.range
  listed := fun b hb => h.listed b (Finset.mem_of_mem_erase hb)
  pinned := by
    intro hno b hb
    have hne : b ≠ x := by rintro rfl; exact hx (h.home b hb)
    refine Finset.mem_erase.mpr ⟨hne, ?_⟩
    rcases hsync with hp | hnil
    · exact h.pinned (noSync_of_jump hp hno) b hb
    · simp only [Abs.jump_log, Abs.write_log, hnil] at hb
      cases hb
  settled := hset
  phase := hphase

/-- The loop of `write_log` goes on only while the transaction leaves room in the cache, so the slots
it writes are slots of the log area. -/
lemma room_of_logSlot {t : Nat} (hp : A.pc p = .writeLog t)
    (hroom : slot t ∈ A.pin ∨ A.pin.card < nBuf) : A.log.lh.length < logSize := by
  have hphase := h.phase p
  rw [hp] at hphase
  rcases Nat.eq_zero_or_pos t with rfl | ht
  · have hwr : (A.pc p).writing := by rw [hp]; rfl
    have hno : A.NoSync := by
      intro q
      by_cases hq : q = p
      · rw [hq, hp]; rfl
      · exact (h.others_idle hwr hq).2.1
    have hcard : A.pin.card < nBuf := by
      rcases hroom with hm | hc
      · exact absurd (h.home _ (h.listed _ hm)) (by decide)
      · exact hc
    calc A.log.lh.length = A.log.lh.toFinset.card := (List.toFinset_card_of_nodup h.nodup).symm
      _ ≤ A.pin.card := Finset.card_le_card fun b hb => h.pinned hno b (List.mem_toFinset.mp hb)
      _ < logSize := hcard
  · exact hphase.1 ht

lemma logSlot {t b : Nat} (hp : A.pc p = .writeLog t)
    (hb : A.log.lh[t]? = some b) (hroom : slot t ∈ A.pin ∨ A.pin.card < nBuf)
    (hctl : Ctl A.log (update A.pc p (.writeLog (t + 1)))) :
    Inv ((A.write (slot t) (A.want b)).jump p (.writeLog (t + 1))) view := by
  have hlen := h.room_of_logSlot hp hroom
  have ht : t < A.log.lh.length := (List.getElem?_eq_some_iff.mp hb).1
  have hslot : ¬ Home (slot t) := not_home_slot (by omega)
  have hwr : (A.pc p).writing := by rw [hp]; rfl
  have hphase := h.phase p
  rw [hp] at hphase
  have hok : ∀ j < t + 1, (A.write (slot t) (A.want b)).SlotOk j := by
    intro j hj d hd
    have hdne : d ≠ slot t := by
      rintro rfl
      exact hslot (h.home _ (List.mem_of_getElem? hd))
    simp only [Abs.write_want, update_of_ne hdne]
    by_cases hjt : j = t
    · subst hjt
      have hdb : d = b := Option.mem_unique hd hb
      rw [update_self, hdb]
    · rw [update_of_ne fun he => hjt (slot_inj he)]
      exact hphase.2 j (by omega) d hd
  refine h.writeArea hslot hctl (.inl (by rw [hp]; rfl)) ?_ ?_
  · intro hs
    have := hs.2 p
    rw [update_self] at this
    cases this
  · intro q
    by_cases hq : q = p
    · rw [hq, update_self]
      exact ⟨fun _ => hlen, hok⟩
    · rw [update_of_ne hq]
      obtain ⟨hin, hsync, hrec⟩ := h.others_idle hwr hq
      exact Abs.phase_of_idle _ hin hsync hrec

lemma slotOk_writeHead {j : Nat} (hj : A.SlotOk j) (v : Block) : (A.write logStart v).SlotOk j := by
  intro b hb
  have hne : b ≠ logStart := by
    rintro rfl
    exact not_home_logStart (h.home _ (List.mem_of_getElem? hb))
  simp only [Abs.write_want, update_of_ne hne, update_of_ne (slot_ne_logStart j)]
  exact hj b hb

lemma phase_writeHead {c : Pc} (hc : A.Phase c) (hne : c ≠ .readHead)
    (v : Block) : (A.write logStart v).Phase c := by
  cases c with
  | writeLog t => exact ⟨hc.1, fun j hj => h.slotOk_writeHead (hc.2 j hj) v⟩
  | install c t => exact fun j b hj hb hm => hc j b hj hb (Finset.mem_of_mem_erase hm)
  | reset c =>
    have hc : A.pin = ∅ := hc
    change A.pin.erase logStart = ∅
    rw [hc, Finset.erase_empty]
  | clearHead c => exact hc
  | readHead => exact absurd rfl hne
  | _ => trivial

lemma writeHead {c : Pc} (hp : A.pc p ≠ .user) (hctl : Ctl A.log (update A.pc p c))
    (hsync : (A.pc p).syncing = false ∨ A.log.lh = []) (hwr : (A.pc p).writing = false)
    (hc : A.Phase c) (hne : c ≠ .readHead) : Inv (A.writeHead.jump p c) view := by
  refine h.writeArea not_home_logStart hctl hsync ?_ ?_
  · intro hs
    obtain ⟨hlen, hok⟩ := h.settled (settled_of_jump rfl hwr hs)
    exact ⟨hlen, fun j => h.slotOk_writeHead (hok j) _⟩
  · intro q
    refine h.phase_writeHead (h.phase_jump hc q) ?_ _
    by_cases hq : q = p
    · rw [hq, update_self]; exact hne
    · rw [update_of_ne hq]
      intro hrh
      have hfirst := h.ctl.recoverFirst q (by rw [hrh]; rfl)
      have hrec : (A.pc initProc).recovering := by rw [← hfirst, hrh]; rfl
      exact hq (hfirst.trans (h.ctl.first_of_ne_user hp hrec).symm)

lemma settled_of_syncing (hp : (A.pc p).syncing) : A.Settled :=
  h.ctl.syncIdle p hp

lemma installSlot {c : Caller} {t b : Nat} (hp : A.pc p = .install c t)
    (hb : A.log.lh[t]? = some b) (hctl : Ctl A.log (update A.pc p (.install c (t + 1)))) :
    Inv ((A.write b (A.want (slot t))).jump p (.install c (t + 1))) view := by
  have hset := h.settled_of_syncing (p := p) (by rw [hp]; rfl)
  obtain ⟨hlen, hok⟩ := h.settled hset
  have hphase := h.phase p
  rw [hp] at hphase
  have hwant : (A.write b (A.want (slot t))).want = A.want := by
    rw [Abs.write_want, hok t b hb, Function.update_eq_self]
  have hslots : ∀ j, (A.write b (A.want (slot t))).SlotOk j := by
    intro j
    unfold Abs.SlotOk
    rw [hwant]
    exact hok j
  refine ⟨hctl, by rw [Abs.jump_want, hwant]; exact h.flat, h.nodup, h.home, h.range, ?_, ?_, ?_, ?_⟩
  · exact fun d hd => h.listed d (Finset.mem_of_mem_erase hd)
  · intro hno
    have := hno p
    simp only [Abs.jump_pc, update_self] at this
    cases this
  · exact fun _ => ⟨hlen, hslots⟩
  · intro q
    by_cases hq : q = p
    · subst hq
      simp only [Abs.jump_pc, update_self]
      intro j d hj hd hm
      have hm : d ∈ A.pin.erase b := hm
      by_cases hjt : j = t
      · subst hjt
        have hdb : d = b := Option.mem_unique hd hb
        exact absurd hdb (Finset.ne_of_mem_erase hm)
      · exact hphase j d (by omega) hd (Finset.mem_of_mem_erase hm)
    · simp only [Abs.jump_pc, Abs.write_pc, update_of_ne hq]
      exact (h.phase q).shrink (hset.2 q) (Finset.erase_subset _ _) (.inl rfl)
        (by rw [Abs.jump_want, hwant])

lemma reset {c : Caller} (hp : A.pc p = .reset c) (hctl : Ctl A.log (update A.pc p (.clearHead c))) :
    Inv ((A.setLog { A.log with lh := [] }).jump p (.clearHead c)) view := by
  have hset := h.settled_of_syncing (p := p) (by rw [hp]; rfl)
  have hpin : A.pin = ∅ := by
    have := h.phase p
    rwa [hp] at this
  refine ⟨hctl.congr_log rfl rfl, h.flat, List.nodup_nil, by simp, by simp, ?_, by simp, ?_, ?_⟩
  · intro b hb
    simp [hpin] at hb
  · exact fun _ => ⟨by simp [logSize], by simp [Abs.SlotOk]⟩
  · intro q
    by_cases hq : q = p
    · subst hq
      simp only [Abs.jump_pc, update_self]
      rfl
    · simp only [Abs.jump_pc, Abs.setLog_pc, update_of_ne hq]
      exact (h.phase q).shrink (hset.2 q) (Finset.Subset.refl _) (.inr rfl) rfl

lemma logWrite {b : Nat} {v : Block} (hp : A.pc p = .inOp)
    (hrec : (A.pc initProc).recovering = false) (hhome : Home b) (hb : b < fsSize) :
    Inv ((A.modify b v).setLog (A.log.add b)) (update view b v) := by
  have hpos := h.ctl.outstanding_pos hp
  have hmem : ∀ d, d ∈ (A.log.add b).lh ↔ d = b ∨ d ∈ A.log.lh := by
    intro d
    rw [Log.add_lh]
    split
    · rename_i hm
      constructor
      · exact .inr
      · rintro (rfl | hd)
        · exact hm
        · exact hd
    · simp [or_comm]
  refine ⟨h.ctl.congr_log (Log.add_outstanding _ _) (Log.add_committing _ _), ?_, ?_, ?_, ?_, ?_, ?_,
    ?_, ?_⟩
  · intro d hd
    by_cases hdb : d = b
    · simp [hdb]
    · simp only [Abs.setLog_want, Abs.modify_want, update_of_ne hdb]
      exact h.flat d hd
  · rw [Abs.setLog_log, Log.add_lh]
    split
    · exact h.nodup
    · rename_i hm
      exact List.nodup_append.mpr ⟨h.nodup, by simp, by
        intro d hd e he
        rw [List.mem_singleton.mp he]
        rintro rfl
        exact hm hd⟩
  · intro d hd
    rcases (hmem d).mp hd with rfl | hd
    · exact hhome
    · exact h.home d hd
  · intro d hd
    rcases (hmem d).mp hd with rfl | hd
    · exact hb
    · exact h.range d hd
  · intro d hd
    rcases Finset.mem_insert.mp hd with rfl | hd
    · exact (hmem d).mpr (.inl rfl)
    · exact (hmem d).mpr (.inr (h.listed d hd))
  · intro hno d hd
    rcases (hmem d).mp hd with rfl | hd
    · exact Finset.mem_insert_self _ _
    · exact Finset.mem_insert_of_mem (h.pinned hno d hd)
  · intro hs
    have hout := hs.1
    simp only [Abs.setLog_log, Log.add_outstanding] at hout
    omega
  · intro q
    exact Abs.phase_of_idle _ (h.ctl.not_inCommit_of_pos hpos q) (h.ctl.not_syncing_of_pos hpos q)
      (h.ctl.not_recovering hrec q)

/-- **One step.** Every step keeps the invariant, provided that `sys_sync` is alone. -/
lemma step {a : Act} (hhome : a.InHome) (halone : SyncAlone A.log A.pc a)
    (hs : A.Step a A') : Inv A' (a.apply view) := by
  have hctl := h.ctl.step halone hs
  cases hs with
  | beginOp hrec hp hcom hlen =>
    exact h.jump hctl rfl (.inl (by rw [hp]; rfl)) (fun hs => absurd hs.1 (by simp)) trivial
  | bread | brelse => exact h
  | logWrite hrec hp hlen hout hb => exact h.logWrite hp hrec hhome hb
  | @endOpLast p hrec hp hcom hlast =>
    refine h.jump hctl rfl (.inl (by rw [hp]; rfl)) (fun hs => ?_) trivial
    have := hs.2 p
    rw [update_self] at this
    cases this
  | endOp hrec hp hcom hlast =>
    exact h.jump hctl rfl (.inl (by rw [hp]; rfl)) (fun hs => absurd hs.1 hlast) trivial
  | sysSync hrec hp | isFull hp _ | notFull hp _ | endCommit hp =>
    refine h.jump hctl rfl (.inl (by rw [hp]; rfl)) (fun hs => ?_) trivial
    exact h.settled (settled_of_jump rfl (by rw [hp]; rfl) hs)
  | @commitSome p hp hpos =>
    refine h.jump hctl rfl (.inl (by rw [hp]; rfl)) (fun hs => ?_) ⟨by simp, by simp⟩
    have := hs.2 p
    rw [update_self] at this
    cases this
  | commitNone hp hnil =>
    refine h.jump hctl rfl (.inl (by rw [hp]; rfl)) (fun _ => ?_) trivial
    exact ⟨by simp [hnil, logSize], by simp [Abs.SlotOk, hnil]⟩
  | logSlot hp hb hroom => exact h.logSlot hp hb hroom hctl
  | @logDone p t hp ht =>
    -- the loop is over: every listed block is in its slot
    have hphase := h.phase p
    rw [hp] at hphase
    refine h.jump hctl rfl (.inl (by rw [hp]; rfl)) (fun _ => ⟨?_, ?_⟩) trivial
    · rcases Nat.eq_zero_or_pos t with rfl | hpos
      · unfold logSize
        omega
      · exact hphase.1 hpos
    · intro j b hb
      exact hphase.2 j ((List.getElem?_eq_some_iff.mp hb).1.trans_le ht) b hb
  | commitHead hp =>
    exact h.writeHead (by rw [hp]; simp) hctl (.inl (by rw [hp]; rfl)) (by rw [hp]; rfl) trivial
      (by simp)
  | @syncSkip _ c hp _ =>
    refine h.jump hctl rfl (.inl (by rw [hp]; rfl)) (fun hs => ?_) (by cases c <;> trivial)
    exact h.settled (settled_of_jump rfl (by rw [hp]; rfl) hs)
  | syncStart hp hlen =>
    refine h.jump hctl rfl (.inl (by rw [hp]; rfl)) (fun hs => ?_) (by simp [Abs.Phase])
    exact h.settled (settled_of_jump rfl (by rw [hp]; rfl) hs)
  | installSlot hp hb => exact h.installSlot hp hb hctl
  | @installDone p c t hp ht =>
    have hphase := h.phase p
    rw [hp] at hphase
    refine h.jump hctl rfl (.inr (.inr rfl)) (fun hs => ?_) ?_
    · exact h.settled (settled_of_jump rfl (by rw [hp]; rfl) hs)
    · refine Finset.eq_empty_of_forall_notMem fun b hb => ?_
      obtain ⟨j, hj, hjb⟩ := List.getElem_of_mem (h.listed b hb)
      exact hphase j b (by omega) (by rw [List.getElem?_eq_getElem hj, hjb]) hb
  | reset hp => exact h.reset hp (hctl.congr_log rfl rfl)
  | @clearHead p c hp =>
    have hnil : A.log.lh = [] := by
      have := h.phase p
      rwa [hp] at this
    exact h.writeHead (by rw [hp]; simp) hctl (.inr hnil) (by rw [hp]; rfl) (by cases c <;> trivial)
      (by cases c <;> simp [Caller.ret])
  | @readHead p hp =>
    have hphase := h.phase p
    rw [hp] at hphase
    have hlh : getHeader (A.want logStart) = A.log.lh := by rw [hphase.1, hphase.2]
    refine h.jump hctl hlh (.inl (by rw [hp]; rfl)) (fun hs => ?_) (by simp [Abs.Phase])
    exact h.settled (settled_of_jump rfl (by rw [hp]; rfl) hs)

end

/-- A machine switched on with an empty log. -/
lemma boot {disk : Nat → Block} (hempty : getHeader (disk logStart) = []) : Inv (Abs.boot disk) disk where
  ctl := ctl_boot disk
  flat := fun _ _ => rfl
  nodup := List.nodup_nil
  home := by simp [Abs.boot]
  range := by simp [Abs.boot]
  listed := by simp [Abs.boot]
  pinned := by simp [Abs.boot]
  settled := fun _ => ⟨by simp [Abs.boot, logSize], by simp [Abs.SlotOk, Abs.boot]⟩
  phase := by
    intro p
    change Abs.Phase _ (if p = initProc then .readHead else .user)
    split
    · exact ⟨rfl, hempty⟩
    · trivial

end Inv

/-! ### Whole runs -/

/-- The flat array after the actions of a run. -/
def flat (disk : Nat → Block) (as : List Act) : Nat → Block :=
  as.foldl (fun view a => a.apply view) disk

@[simp] lemma flat_snoc (disk : Nat → Block) (as : List Act) (a : Act) :
    flat disk (as ++ [a]) = a.apply (flat disk as) := by
  simp [flat]

/-- The steps under which the invariant is kept. -/
def FsStep (s : Sys) (a : Act) : Prop := a.InHome ∧ SyncAlone s.k.log s.pc a

instance (s : Sys) (a : Act) : Decidable (FsStep s a) :=
  inferInstanceAs (Decidable (a.InHome ∧ SyncAlone s.k.log s.pc a))

lemma Sys.running_of_step {s t : Sys} {a : Act} (h : s.step a = some t) : s.stopped = none := by
  unfold Sys.step at h
  cases hs : s.stopped with
  | none => rfl
  | some m => simp [hs] at h

/-- **Whole runs.** As long as the machine runs, it shows a state in which the invariant holds. -/
lemma inv_run {disk : Nat → Block} (hempty : getHeader (disk logStart) = []) {as : List Act}
    {s : Sys} (hrun : Run Sys.step FsStep (Sys.boot disk) as s) (hs : s.stopped = none) :
    ∃ A, Shows s A ∧ Inv A (flat disk as) := by
  have hinv := hrun.inv_trace (I := fun as s => s.stopped = none → ∃ A, Shows s A ∧ Inv A (flat disk as))
    (fun _ => ⟨_, shows_boot disk, Inv.boot hempty⟩) ?_
  · exact hinv hs
  · intro as s a t ih hstep ht hrunning
    obtain ⟨A, hshow, hA⟩ := ih (Sys.running_of_step ht)
    rcases hshow.step ht with ⟨A', hs', hshow'⟩ | ⟨hstop, -⟩
    · obtain ⟨hhome, halone⟩ := hstep
      rw [hshow.log, hshow.pc] at halone
      rw [flat_snoc]
      exact ⟨A', hshow', hA.step hhome halone hs'⟩
    · exact absurd hrunning hstop

end Xv6.Disk
