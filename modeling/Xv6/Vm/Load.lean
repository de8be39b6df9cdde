import Xv6.Vm.Calls
import Xv6.Vm.Exec

/-!
# The address space that `exec` builds

While `exec` reads the file, the new page directory maps the kernel and the pages below the size that it has
reached, and nothing else (`Space`). The segments of the file may come in any order and overlap: the size is
the largest end so far, and a segment lies below it, so that `loaduvm` finds its pages.

Whether the image is built depends on two things only: on the headers of the file, which ask for a size
(`imageSize`), and on memory, which has to last for the pages of that size and their page tables
(`imagePages`). `buildSpace_spec` says that these are also enough.
-/

namespace Xv6.Vm

open Function (update)

open Lib
open Process (pgUp growRange mem_growRange)
open Fs (overwrite)

-- a specification at a known size is not to be evaluated
attribute [local irreducible] allocuvm allocStack

/-! ### What the file asks for -/

/-- All pieces of a segment are in the file. -/
def segmentReads (file : List UInt8) (off sz : Nat) : Bool :=
  (List.range (pgUp sz)).all fun i => (header file ((off + i * pgSize) % 2 ^ 32) (pieceLen sz i)).isSome

/-- `exec` accepts the segment, with the size that it has reached. -/
def Proghdr.Accepted (ph : Proghdr) (file : List UInt8) (sz : Nat) : Prop :=
  ph.filesz ≤ ph.memsz ∧ ph.vaddr ≤ ph.vend ∧ ph.vend < kernBase ∧ max sz ph.vend ≠ 0 ∧
    ph.vaddr % pgSize = 0 ∧ segmentReads file ph.off ph.filesz = true

instance (ph : Proghdr) (file : List UInt8) (sz : Nat) : Decidable (ph.Accepted file sz) :=
  inferInstanceAs (Decidable (_ ∧ _))

/-- The size after `n` more program headers, the next one at `off`. -/
def programSize (file : List UInt8) : (n off sz : Nat) → Option Nat
  | 0, _, sz => some sz
  | n + 1, off, sz =>
    match header file off proghdrSize with
    | none => none
    | some b =>
      let ph := Proghdr.ofBytes b
      let next := (off + proghdrSize) % 2 ^ 32
      if ph.type ≠ elfProgLoad then programSize file n next sz
      else if ph.Accepted file sz then programSize file n next (max sz ph.vend)
      else none

/-- The pages of the address space for a file with the given header: with the guard page and the stack. -/
def spaceSize (file : List UInt8) (elf : Elfhdr) : Option Nat :=
  (programSize file elf.phnum elf.phoff 0).bind fun sz =>
    if pgUp sz + 2 < kernPage then some (pgUp sz + 2) else none

/-- The pages of the address space that the file asks for. -/
def imageSize (file : List UInt8) : Option Nat :=
  (header file 0 elfhdrSize).bind fun b =>
    if (Elfhdr.ofBytes b).magic ≠ elfMagic then none else spaceSize file (Elfhdr.ofBytes b)

variable {file : List UInt8}

variable {off sz : Nat}

lemma le_programSize {n sz' : Nat} (h : programSize file n off sz = some sz') : sz ≤ sz' := by
  induction n generalizing off sz with
  | zero => exact Nat.le_of_eq (Option.some.inj h)
  | succ n ih =>
    rw [programSize] at h
    split at h
    · cases h
    · dsimp only at h
      split at h
      · exact ih h
      · split at h
        · exact (Nat.le_max_left ..).trans (ih h)
        · cases h

/-- The indices of the page tables of an image of `n` pages. -/
def imageTabs (k : Image) (n : Nat) : Finset Nat := kernTabs k ∪ tablesFor (List.range n)

/-- The physical pages that an image of `n` pages takes: page tables, the page directory, and the pages. -/
def imagePages (k : Image) (n : Nat) : Nat := (imageTabs k n).card + n + 1

lemma imageTabs_mono (k : Image) {m n : Nat} (h : m ≤ n) : imageTabs k m ⊆ imageTabs k n := by
  refine Finset.union_subset_union_right (Finset.image_subset_image fun v hv => ?_)
  rw [List.mem_toFinset, List.mem_range] at hv ⊢
  exact hv.trans_le h

lemma imagePages_mono (k : Image) {m n : Nat} (h : m ≤ n) : imagePages k m ≤ imagePages k n := by
  have := Finset.card_le_card (imageTabs_mono k h)
  unfold imagePages
  omega

lemma imageTabs_grow (k : Image) {a b : Nat} (h : pgUp a ≤ pgUp b) :
    imageTabs k (pgUp b) = imageTabs k (pgUp a) ∪ tablesFor (growRange a b) := by
  have hrange : (List.range (pgUp b)).toFinset = (List.range (pgUp a)).toFinset ∪ (growRange a b).toFinset := by
    ext v
    simp only [Finset.mem_union, List.mem_toFinset, List.mem_range, mem_growRange]
    omega
  rw [imageTabs, imageTabs, Finset.union_assoc, tablesFor, hrange, Finset.image_union]
  rfl

/-! ### The new page directory -/

variable {k : Image} {fails : Nat → Bool} {own own₀ own' : Page → Place} {s s₀ s' : Phys}
  {d q t : Page} {v n m : Nat} {fl : Nat → Nat}

lemma wp_vm {α : Type} {c : M α} {Q : α → Phys → Prop} {E : Fault → Phys → Prop} :
    wp (vm c) s Q E ↔ wp c s Q fun e s' => E (.panic e) s' := by
  unfold wp vm
  cases c s <;> rfl

/-- A page directory `d` that maps the kernel and the virtual pages below `n`, with flags `fl`. The other
pages are where `own₀` says. -/
structure Space (k : Image) (own₀ : Page → Place) (d : Page) (fl : Nat → Nat) (n : Nat)
    (own : Page → Place) (s : Phys) : Prop where
  owns : Owns k own s
  dir : own d = .dir d
  back : freed d own = own₀
  le : n ≤ kernPage
  user : ∀ v < n, ∃ q, s.pteAt d v = some ⟨q, fl v⟩
  above : ∀ v, n ≤ v → v < kernPage → s.pteAt d v = none
  kern : ∀ w, kernPage ≤ w → w < nPages → ∀ e, s.pteAt d w = some e → e.user = false
  tabs : s.tabs d = imageTabs k n

/-- What memory lasts for, now and when it was `s₀`: an image of `n` pages has been built since. -/
def Supply (k : Image) (fails : Nat → Bool) (s₀ : Phys) (d : Page) (n : Nat) (s : Phys) : Prop :=
  ∀ T x, imageTabs k n ⊆ T → (Enough fails s d T x ↔ Gives fails s₀ (T.card + (x + n) + 1))

lemma Supply.gives (h : Supply k fails s₀ d n s) (htabs : s.tabs d = imageTabs k n) :
    Gives fails s₀ (imagePages k n) := by
  have := (h (imageTabs k n) 0 (Finset.Subset.refl _)).mp (by
    rw [← htabs, enough_tabs]
    exact Gives.zero)
  rwa [Nat.zero_add] at this

lemma Supply.not_gives (h : Supply k fails s₀ d n s) (hnm : n ≤ m) {A : Finset Nat}
    (hA : A ⊆ imageTabs k m) (hout : RunsOut fails s d (m - n) A) : ¬ Gives fails s₀ (imagePages k m) := by
  have := hout (imageTabs k m) 0 hA
  rwa [h _ _ (imageTabs_mono k hnm), show 0 + (m - n) + n = m by omega] at this

lemma Owns.pteAt_write (h : Owns k own s) (hq : (own q).Plain) (m : Table) (hd : own d = .dir d)
    (hv : v < nPages) : Phys.pteAt { s with mem := update s.mem q m } d v = s.pteAt d v := by
  have hdq : d ≠ q := fun heq => hq.1 d (heq ▸ hd)
  rw [Phys.pteAt, Phys.pteAt, tableAt_write m hdq]
  cases hu : s.tableAt d (v / nEntries) with
  | none => rfl
  | some u =>
    have huq : u ≠ q := fun heq => hq.2 d _ (heq ▸ h.table_of_pteAt hd hv hu)
    simp only [Option.bind_some, Function.update_of_ne huq]

lemma Owns.tabs_write (hq : (own q).Plain) (m : Table) (hd : own d = .dir d) :
    Phys.tabs { s with mem := update s.mem q m } d = s.tabs d := by
  have hdq : d ≠ q := fun heq => hq.1 d (heq ▸ hd)
  simp only [Phys.tabs, tableAt_write m hdq]

variable {e : Entry}

namespace Space

/-- A page that is mapped belongs to the page directory. -/
lemma own_eq (h : Space k own₀ d fl n own s) (hv : v < n) (he : s.pteAt d v = some e) :
    own e.page = .user d v :=
  (h.owns.user d v e.page).mpr ⟨h.dir, hv.trans_le h.le, by rw [Phys.userAt_eq_pteAt, he]; rfl⟩

lemma tableAt_isSome (h : Space k own₀ d fl n own s) (hv : v < nPages) :
    (s.tableAt d (v / nEntries)).isSome ↔ v / nEntries ∈ imageTabs k n := by
  rw [← h.tabs, Phys.mem_tabs]
  exact (and_iff_right (div_lt_of_page hv)).symm

lemma table_of_lt (h : Space k own₀ d fl n own s) (hv : v < n) : (s.tableAt d (v / nEntries)).isSome := by
  have hpage : v < nPages := (hv.trans_le h.le).trans (by decide)
  refine (h.tableAt_isSome hpage).mpr (Finset.mem_union_right _ (Finset.mem_image_of_mem _ ?_))
  exact List.mem_toFinset.mpr (List.mem_range.mpr hv)

lemma write (h : Space k own₀ d fl n own s) (hq : own q = .user d v) (m : Table) :
    Space k own₀ d fl n own { s with mem := update s.mem q m } := by
  have hplain : (own q).Plain := hq ▸ Place.plain_user d v
  have hpte : ∀ w, w < nPages →
      Phys.pteAt { s with mem := update s.mem q m } d w = s.pteAt d w := fun w hw =>
    h.owns.pteAt_write hplain m h.dir hw
  have hlt : ∀ {w}, w < kernPage → w < nPages := fun hw => hw.trans (by decide)
  refine ⟨h.owns.write hplain m, h.dir, h.back, h.le, fun w hw => ?_, fun w hlo hhi => ?_,
    fun w hlo hhi e he => ?_, ?_⟩
  · rw [hpte w (hlt (hw.trans_le h.le))]
    exact h.user w hw
  · rw [hpte w (hlt hhi)]
    exact h.above w hlo hhi
  · rw [hpte w hhi] at he
    exact h.kern w hlo hhi e he
  · rw [Owns.tabs_write hplain m h.dir, h.tabs]

end Space

lemma Supply.write (h : Supply k fails s₀ d n s) (hd : own d = .dir d) (hq : (own q).Plain) (m : Table) :
    Supply k fails s₀ d n { s with mem := update s.mem q m } := fun T x hT => by
  rw [← h T x hT, Enough, Enough, Owns.tabs_write hq m hd]
  exact Iff.rfl

/-! ### Building it -/

lemma user_eq_false_of_kmap {m : Kmap} (hm : m ∈ kmap k) (he : e.flags = m.perm) : e.user = false := by
  have hperm : m.perm = pteW ∨ m.perm = 0 := by
    simp only [kmap, List.mem_cons, List.not_mem_nil, or_false] at hm
    obtain rfl | rfl | rfl | rfl := hm
    · exact .inl rfl
    · exact .inr rfl
    · exact .inl rfl
    · exact .inl rfl
  unfold Entry.user
  rw [he]
  obtain hperm | hperm := hperm <;> rw [hperm] <;> rfl

variable {E : Panic → Phys → Prop}

lemma setupkvm_space (h : Owns k own s) :
    wp (setupkvm k fails) s (fun r s' => match r with
      | none => Owns k own s' ∧ ∀ n, ¬ Gives fails s (imagePages k n)
      | some d => own d = .free ∧ ∃ own', Space k own d (fun _ => pteWU) 0 own' s' ∧
          Supply k fails s d 0 s') E := by
  refine (setupkvm_spec h).imp fun r s' hs' => ?_
  obtain ⟨_, hr⟩ := hs'
  cases r with
  | none => exact ⟨hr.1, fun n => hr.2 (imageTabs k n) n Finset.subset_union_left⟩
  | some d =>
    obtain ⟨⟨hfree, -, own', h', htab⟩, hnew⟩ := hr
    have hdir : own' d = .dir d := by
      have := htab.eq (q := d) (by rw [Function.update_self]; simp)
      rwa [Function.update_self] at this
    have hnot : ∀ q, (own q).dirOf ≠ some d := fun q hq => by
      have := h.dir_of_dirOf hq
      rw [hfree] at this
      cases this
    have hback : freed d own' = own := by
      rw [htab.freed_eq]
      funext q
      unfold freed
      by_cases hq : q = d
      · subst hq
        simp [hfree, Place.dirOf]
      · rw [Function.update_of_ne hq, if_neg (hnot q)]
    have htabs : imageTabs k 0 = kernTabs k := by
      rw [imageTabs, List.range_zero]
      exact Finset.union_empty _
    refine ⟨hfree, own', ⟨h', hdir, hback, zero_le, (by simp), fun v _ hv => hnew.user v hv,
      fun w _ hw e he => ?_, by rw [hnew.tabs, htabs]⟩, fun T x hT => ?_⟩
    · obtain ⟨m, hm, hperm⟩ := hnew.perm w hw e he
      exact user_eq_false_of_kmap hm hperm
    · rw [htabs] at hT
      exact hnew.enough T x hT

variable {newsz oldsz : Nat}

lemma allocuvm_of_lt (hnew : newsz < kernBase) (h : newsz < oldsz) :
    allocuvm k fails d oldsz newsz s = .ok oldsz s := by
  rw [allocuvm, ite_run, if_neg hnew.not_ge, ite_run, if_pos h]
  rfl

lemma allocuvm_of_ge (h : kernBase ≤ newsz) : allocuvm k fails d oldsz newsz s = .ok 0 s := by
  rw [allocuvm, ite_run, if_pos h]
  rfl

/-- `allocuvm` makes the address space larger, or returns 0 for want of memory. The pages that it has
then are freed with the page directory. -/
lemma allocuvm_space (h : Space k own₀ d fl (pgUp oldsz) own s)
    (hsupply : Supply k fails s₀ d (pgUp oldsz) s) (hfl : ∀ v, pgUp oldsz ≤ v → fl v = pteWU)
    (hnew : newsz < kernBase) :
    wp (allocuvm k fails d oldsz newsz) s (fun r s' => ∃ own',
      r = max oldsz newsz ∧ Space k own₀ d fl (pgUp (max oldsz newsz)) own' s' ∧
        Supply k fails s₀ d (pgUp (max oldsz newsz)) s' ∨
      r = 0 ∧ Owns k own' s' ∧ own' d = .dir d ∧ freed d own' = own₀ ∧
        ¬ Gives fails s₀ (imagePages k (pgUp (max oldsz newsz)))) E := by
  by_cases hlt : newsz < oldsz
  · refine .of_ok (allocuvm_of_lt hnew hlt) ⟨own, .inl ?_⟩
    rw [Nat.max_eq_left hlt.le]
    exact ⟨rfl, h, hsupply⟩
  · have hle : oldsz ≤ newsz := not_lt.mp hlt
    have hpg : pgUp oldsz ≤ pgUp newsz := Process.pgUp_mono hle
    have hlen : (growRange oldsz newsz).length = pgUp newsz - pgUp oldsz := List.length_range'
    rw [Nat.max_eq_right hle]
    have hfresh : (∃ v ∈ growRange oldsz newsz, s.pteAt d v ≠ none) → ∀ s', E .remap s' :=
      fun ⟨v, hv, hne⟩ => by
        obtain ⟨hlo, hhi⟩ := mem_growRange.mp hv
        exact absurd (h.above v hlo (hhi.trans_le (pgUp_le_kernPage hnew.le))) hne
    refine (allocuvm_spec h.owns h.dir hfresh).imp fun r s' hs' => ?_
    obtain ⟨own', h', hstay, -, hfreed, hend⟩ := hs'
    have hdir := hstay.dir h.dir
    cases hend hle hnew with
    | inl hend =>
      obtain ⟨hr, -, hgrow, hflags⟩ := hend
      rw [hlen] at hgrow
      have hpte : ∀ w < nPages, w ∉ growRange oldsz newsz → s'.pteAt d w = s.pteAt d w := fun w hw hnot =>
        hgrow.pte d w h.dir hw fun _ hmem => hnot (List.mem_toFinset.mp hmem)
      refine ⟨own', .inl ⟨hr, ⟨h', hdir, hfreed.trans h.back, pgUp_le_kernPage hnew.le,
        fun v hv => ?_, fun v hlo hhi => ?_, fun w hlo hhi e he => ?_, ?_⟩, fun T x hT => ?_⟩⟩
      · by_cases hold : v < pgUp oldsz
        · have hnot : v ∉ growRange oldsz newsz := fun hmem =>
            hold.not_ge (mem_growRange.mp hmem).1
          rw [hpte v ((hold.trans_le h.le).trans (by decide)) hnot]
          exact h.user v hold
        · have hmem := mem_growRange.mpr ⟨not_lt.mp hold, hv⟩
          rw [hfl v (not_lt.mp hold)]
          exact hflags v hmem
      · have hnot : v ∉ growRange oldsz newsz := fun hmem => Nat.not_le.mpr (mem_growRange.mp hmem).2 hlo
        rw [hpte v (hhi.trans (by decide)) hnot]
        exact h.above v (hpg.trans hlo) hhi
      · have hnot : w ∉ growRange oldsz newsz := fun hmem =>
          ((mem_growRange.mp hmem).2.trans_le (pgUp_le_kernPage hnew.le)).not_ge hlo
        rw [hpte w hhi hnot] at he
        exact h.kern w hlo hhi e he
      · rw [hgrow.tabs, h.tabs, imageTabs_grow k hpg]
      · rw [imageTabs_grow k hpg] at hT
        rw [hgrow.enough T x (Finset.union_subset_right hT), hsupply T _ (Finset.union_subset_left hT),
          show x + (pgUp newsz - pgUp oldsz) + pgUp oldsz = x + pgUp newsz by omega]
    | inr hend =>
      obtain ⟨hr, hout⟩ := hend
      rw [hlen] at hout
      refine ⟨own', .inr ⟨hr, h', hdir, hfreed.trans h.back, hsupply.not_gives hpg ?_ hout⟩⟩
      rw [imageTabs_grow k hpg]
      exact Finset.subset_union_right

/-! ### Loading the file -/

lemma Word.page_of_present {w : Word} (h : w.present = some e) : w.page = e.page := by
  cases w with
  | entry e' => rw [Option.some.inj h.symm]; rfl
  | other _ => cases h

lemma Space.entry_of_lt (h : Space k own₀ d fl n own s) (hv : v < n) :
    ∃ t q, s.tableAt d (v / nEntries) = some t ∧ (s.mem t (v % nEntries)).present = some ⟨q, fl v⟩ ∧
      own q = .user d v := by
  obtain ⟨t, ht⟩ := Option.isSome_iff_exists.mp (h.table_of_lt hv)
  obtain ⟨q, hq⟩ := h.user v hv
  have hown := h.own_eq hv hq
  rw [Phys.pteAt, ht, Option.bind_some] at hq
  exact ⟨t, q, ht, hq, hown⟩

lemma header_isSome {len : Nat} :
    (header file off len).isSome ↔ ∃ b, readi file off len = some b ∧ b.length = len := by
  unfold header
  cases readi file off len with
  | none => simp
  | some b => simp [Option.filter]

variable {addr : Nat}

/-- `loaduvm` finds the pages, and returns 0 exactly if the file has all pieces. -/
lemma loadPages_spec {is : List Nat} (h : Space k own₀ d fl n own s) (hsupply : Supply k fails s₀ d n s)
    (his : ∀ i ∈ is, (addr + i * pgSize) % 2 ^ 32 / pgSize < n) :
    wp (loadPages fails d addr file off sz is) s (fun r s' =>
      (r = is.all fun i => (header file ((off + i * pgSize) % 2 ^ 32) (pieceLen sz i)).isSome) ∧
      Space k own₀ d fl n own s' ∧ Supply k fails s₀ d n s') fun _ _ => False := by
  induction is generalizing s with
  | nil => exact ⟨rfl, h, hsupply⟩
  | cons i is ih =>
    have hv := his i (.head _)
    rw [loadPages, wp_bind, wp_vm, wp_walkpgdir_false]
    generalize (addr + i * pgSize) % 2 ^ 32 / pgSize = v at hv
    obtain ⟨t, q, ht, hpte, hown⟩ := h.entry_of_lt hv
    rw [ht]
    simp only [wp_bind, wp_get]
    rw [Word.page_of_present hpte, List.all_cons]
    have hsome := @header_isSome file ((off + i * pgSize) % 2 ^ 32) (pieceLen sz i)
    split
    next hread =>
      have : (header file ((off + i * pgSize) % 2 ^ 32) (pieceLen sz i)).isSome = false := by
        rw [Bool.eq_false_iff, ne_eq, hsome, hread]
        rintro ⟨b, hb, -⟩
        cases hb
      rw [this]
      exact ⟨rfl, h, hsupply⟩
    next bs hread =>
      simp only [memmove, wp_bind, wp_get, wp_set, wp_ite]
      have h₁ := h.write hown (ofBytes (overwrite (byteAt (s.mem q)) 0 bs))
      have hsupply₁ := hsupply.write h.dir (hown ▸ Place.plain_user d v)
        (ofBytes (overwrite (byteAt (s.mem q)) 0 bs))
      split
      next hshort =>
        have : (header file ((off + i * pgSize) % 2 ^ 32) (pieceLen sz i)).isSome = false := by
          rw [Bool.eq_false_iff, ne_eq, hsome, hread]
          rintro ⟨b, hb, hlen⟩
          exact hshort (Option.some.inj hb ▸ hlen)
        rw [this]
        exact ⟨rfl, h₁, hsupply₁⟩
      next hfull =>
        have : (header file ((off + i * pgSize) % 2 ^ 32) (pieceLen sz i)).isSome :=
          hsome.mpr ⟨bs, hread, not_not.mp hfull⟩
        rw [this, Bool.true_and]
        exact ih h₁ hsupply₁ fun j hj => his j (.tail _ hj)

lemma loaduvm_spec (h : Space k own₀ d fl n own s)
    (hsupply : Supply k fails s₀ d n s) (haddr : addr % pgSize = 0) (hend : addr + sz ≤ n * pgSize) :
    wp (loaduvm fails d addr file off sz) s (fun r s' => r = segmentReads file off sz ∧
      Space k own₀ d fl n own s' ∧ Supply k fails s₀ d n s') fun _ _ => False := by
  rw [loaduvm, wp_ite, if_neg (not_not.mpr haddr)]
  refine loadPages_spec h hsupply fun i hi => ?_
  have hi := List.mem_range.mp hi
  have hle := h.le
  unfold pgUp pgSize at hi
  unfold kernPage at hle
  unfold pgSize at *
  omega

/-- The page directory is there to be freed, and what is not its own is where it was. -/
structure Doomed (k : Image) (own₀ : Page → Place) (d : Page) (own : Page → Place) (s : Phys) : Prop where
  owns : Owns k own s
  dir : own d = .dir d
  back : freed d own = own₀

lemma Space.doomed (h : Space k own₀ d fl n own s) : Doomed k own₀ d own s := ⟨h.owns, h.dir, h.back⟩

/-- The program headers are read to the end exactly if they are accepted and memory lasts. -/
lemma loadProgram_spec {cnt : Nat}
    (h : Space k own₀ d (fun _ => pteWU) (pgUp sz) own s) (hsupply : Supply k fails s₀ d (pgUp sz) s) :
    wp (loadProgram k fails d file cnt off sz) s (fun r s' => ∃ own', match r with
      | some sz' => programSize file cnt off sz = some sz' ∧
          Space k own₀ d (fun _ => pteWU) (pgUp sz') own' s' ∧ Supply k fails s₀ d (pgUp sz') s'
      | none => Doomed k own₀ d own' s' ∧ ∀ sz', programSize file cnt off sz = some sz' →
          ¬ Gives fails s₀ (imagePages k (pgUp sz'))) fun _ _ => False := by
  induction cnt generalizing off sz own s with
  | zero => exact ⟨own, rfl, h, hsupply⟩
  | succ cnt ih =>
    rw [loadProgram, programSize]
    cases header file off proghdrSize with
    | none => exact ⟨own, h.doomed, nofun⟩
    | some b =>
      dsimp only
      have hvaddr : (Proghdr.ofBytes b).vaddr < 2 ^ 32 := leNat_take_lt _
      have hmemsz : (Proghdr.ofBytes b).memsz < 2 ^ 32 := leNat_take_lt _
      generalize Proghdr.ofBytes b = ph at hvaddr hmemsz
      rw [wp_ite]
      by_cases htype : ph.type ≠ elfProgLoad
      · rw [if_pos htype, if_pos htype]
        exact ih h hsupply
      rw [if_neg htype, if_neg htype, wp_ite]
      by_cases hfile : ph.memsz < ph.filesz
      · rw [if_pos hfile, if_neg fun hacc : ph.Accepted file sz => hfile.not_ge hacc.1]
        exact ⟨own, h.doomed, nofun⟩
      rw [if_neg hfile, wp_ite]
      by_cases hwrap : ph.vend < ph.vaddr
      · rw [if_pos hwrap, if_neg fun hacc : ph.Accepted file sz => hwrap.not_ge hacc.2.1]
        exact ⟨own, h.doomed, nofun⟩
      rw [if_neg hwrap, wp_bind, wp_vm]
      by_cases hbig : kernBase ≤ ph.vend
      · refine .of_ok (allocuvm_of_ge hbig) ?_
        rw [wp_ite, if_pos rfl, if_neg fun hacc : ph.Accepted file sz => hacc.2.2.1.not_ge hbig]
        exact ⟨own, h.doomed, nofun⟩
      refine (allocuvm_space h hsupply (fun _ _ => rfl) (not_le.mp hbig)).imp fun r s₁ hr => ?_
      obtain ⟨own₁, ⟨rfl, h₁, hsupply₁⟩ | ⟨rfl, h₁, hd₁, hback₁, hout⟩⟩ := hr
      · rw [wp_ite]
        by_cases hzero : max sz ph.vend = 0
        · rw [if_pos hzero, if_neg fun hacc : ph.Accepted file sz => hacc.2.2.2.1 hzero]
          exact ⟨own₁, h₁.doomed, nofun⟩
        rw [if_neg hzero, wp_ite]
        by_cases halign : ph.vaddr % pgSize ≠ 0
        · rw [if_pos halign, if_neg fun hacc : ph.Accepted file sz => halign hacc.2.2.2.2.1]
          exact ⟨own₁, h₁.doomed, nofun⟩
        rw [if_neg halign]
        -- the segment ends below the size
        have hend : ph.vaddr + ph.filesz ≤ pgUp (max sz ph.vend) * pgSize := by
          have hvend : ph.vend = (ph.vaddr + ph.memsz) % 2 ^ 32 := rfl
          have hround : ph.vend ≤ pgUp (max sz ph.vend) * pgSize := by
            unfold pgUp pgSize
            omega
          omega
        refine (loaduvm_spec h₁ hsupply₁ (not_not.mp halign) hend).seq fun r s₂ ⟨hr, h₂, hsupply₂⟩ => ?_
        subst hr
        rw [wp_ite]
        by_cases hreads : segmentReads file ph.off ph.filesz = true
        · rw [if_pos hreads, if_pos (show ph.Accepted file sz from
            ⟨not_lt.mp hfile, not_lt.mp hwrap, not_le.mp hbig, hzero,
              not_not.mp halign, hreads⟩)]
          exact ih h₂ hsupply₂
        · rw [if_neg hreads, if_neg fun hacc : ph.Accepted file sz => hreads hacc.2.2.2.2.2]
          exact ⟨own₁, h₂.doomed, nofun⟩
      · rw [wp_ite, if_pos rfl]
        refine ⟨own₁, ⟨h₁, hd₁, hback₁⟩, fun sz' hsz' hgives => hout (hgives.mono (imagePages_mono k ?_))⟩
        split at hsz'
        · exact Process.pgUp_mono (le_programSize hsz')
        · cases hsz'

/-! ### The guard page -/

/-- The flags of the pages of an image of `n` pages. The page below the stack is not the user's. -/
def guarded (n v : Nat) : Nat := if v = n - 2 then pteW else pteWU

lemma clearpteu_space (h : Space k own₀ d (fun _ => pteWU) n own s) (hsupply : Supply k fails s₀ d n s)
    (hn : 2 ≤ n) :
    wp (clearpteu fails d (n - 2)) s (fun _ s' => Space k own₀ d (guarded n) n own s' ∧
      Supply k fails s₀ d n s') E := by
  obtain ⟨t, q, ht, hpte, -⟩ := h.entry_of_lt (show n - 2 < n by omega)
  have hpage : ∀ {v}, v < n → v < nPages := fun hv => (hv.trans_le h.le).trans (by decide)
  have htable : own t = .table d ((n - 2) / nEntries) :=
    h.owns.table_of_pteAt h.dir (hpage (by omega)) ht
  have hcleared : ((s.mem t ((n - 2) % nEntries)).clearU).present = some ⟨q, pteW⟩ := by
    cases hword : s.mem t ((n - 2) % nEntries) with
    | entry e =>
      rw [hword, Word.present_entry] at hpte
      have hflags : pteWU &&& 0xFFB = pteW := by decide
      rw [Option.some.inj hpte, ← hflags]
      rfl
    | other w =>
      rw [hword] at hpte
      cases hpte
  rw [clearpteu, wp_bind, wp_walkpgdir_false, ht]
  simp only [setEntry, wp_bind, wp_get, wp_set]
  have hgrow : Grows fails own d 0 ∅ {n - 2} s _ :=
    .setEntry h.owns htable (s.mem t ((n - 2) % nEntries)).clearU
  have hself := h.owns.pteAt_setEntry htable (s.mem t ((n - 2) % nEntries)).clearU
  have howns := h.owns.reflag (Word.clearU_page (s.mem t ((n - 2) % nEntries)))
  generalize ({ s with mem := _ } : Phys) = s' at hgrow hself howns
  have hother : ∀ v < nPages, v ≠ n - 2 → s'.pteAt d v = s.pteAt d v := fun v hv hne =>
    hgrow.pte d v h.dir hv fun _ hmem => hne (Finset.mem_singleton.mp hmem)
  refine ⟨⟨howns, h.dir, h.back, h.le, fun v hv => ?_, fun v hlo hhi => ?_, fun w hlo hhi e he => ?_, ?_⟩,
    fun T x hT => ?_⟩
  · unfold guarded
    by_cases hv' : v = n - 2
    · rw [if_pos hv', hv', hself]
      exact ⟨q, hcleared⟩
    · rw [if_neg hv', hother v (hpage hv) hv']
      exact h.user v hv
  · rw [hother v (hhi.trans (by decide)) (by omega)]
    exact h.above v hlo hhi
  · have hle := h.le
    rw [hother w hhi (by omega)] at he
    exact h.kern w hlo hhi e he
  · rw [hgrow.tabs, h.tabs, Finset.union_empty]
  · rw [hgrow.enough T x (Finset.empty_subset _), Nat.add_zero]
    exact hsupply T x hT

lemma pgUp_mul (n : Nat) : pgUp (n * pgSize) = n := by
  unfold pgUp pgSize
  omega

/-- The stack is there, or memory has run out. -/
lemma allocStack_spec (h : Space k own₀ d (fun _ => pteWU) n own s) (hsupply : Supply k fails s₀ d n s)
    (hm : m = n + 2) (hfit : m < kernPage) :
    wp (allocStack k fails d (n * pgSize)) s (fun r s' => ∃ own',
      r = some (m * pgSize) ∧ Space k own₀ d (guarded m) m own' s' ∧ Gives fails s₀ (imagePages k m) ∨
      r = none ∧ Doomed k own₀ d own' s' ∧ ¬ Gives fails s₀ (imagePages k m)) fun _ _ => False := by
  have hnew : m * pgSize < kernBase := by
    unfold kernPage at hfit
    unfold pgSize kernBase
    omega
  have hsize : n * pgSize + 2 * pgSize = m * pgSize := by rw [hm, Nat.add_mul]
  have hmax : max (n * pgSize) (m * pgSize) = m * pgSize :=
    Nat.max_eq_right (Nat.mul_le_mul_right _ (by omega))
  rw [← pgUp_mul n] at h hsupply
  rw [allocStack, wp_bind, wp_vm, hsize]
  refine (allocuvm_space h hsupply (fun _ _ => rfl) hnew).imp fun r s₁ hr => ?_
  rw [hmax, pgUp_mul] at hr
  obtain ⟨own₁, hr⟩ := hr
  cases hr with
  | inl hr =>
    obtain ⟨rfl, h₁, hsupply₁⟩ := hr
    have hpos : m * pgSize ≠ 0 := by
      unfold pgSize
      omega
    have hguard : (m * pgSize - 2 * pgSize) / pgSize = m - 2 := by
      unfold pgSize
      omega
    rw [wp_ite, if_neg hpos, wp_bind, wp_vm, hguard]
    refine (clearpteu_space h₁ hsupply₁ (by omega)).imp fun _ s₂ h₂ => ?_
    exact ⟨own₁, .inl ⟨rfl, h₂.1, h₂.2.gives h₂.1.tabs⟩⟩
  | inr hr =>
    obtain ⟨rfl, h₁, hd₁, hback₁, hout⟩ := hr
    rw [wp_ite, if_pos rfl]
    exact ⟨own₁, .inr ⟨rfl, ⟨h₁, hd₁, hback₁⟩, hout⟩⟩

lemma allocStack_of_ge (hm : m = n + 2) (h : kernPage ≤ m) :
    allocStack k fails d (n * pgSize) s = .ok none s := by
  have hbig : kernBase ≤ n * pgSize + 2 * pgSize := by
    unfold kernPage at h
    unfold pgSize kernBase
    omega
  have halloc : vm (allocuvm k fails d (n * pgSize) (n * pgSize + 2 * pgSize)) s = .ok 0 s := by
    unfold vm
    rw [allocuvm_of_ge hbig]
  rw [allocStack, bind_run, halloc]
  rfl

/-- The address space is made exactly if the headers ask for one and memory lasts for it. -/
lemma buildSpace_spec {elf : Elfhdr} (h : Space k own₀ d (fun _ => pteWU) 0 own s)
    (hsupply : Supply k fails s₀ d 0 s) :
    wp (buildSpace k fails d file elf) s (fun r s' => ∃ own',
      (∃ n, r = some (n * pgSize) ∧ spaceSize file elf = some n ∧ 2 ≤ n ∧ n < kernPage ∧
        Space k own₀ d (guarded n) n own' s' ∧ Gives fails s₀ (imagePages k n)) ∨
      r = none ∧ Doomed k own₀ d own' s' ∧
        ∀ n, spaceSize file elf = some n → ¬ Gives fails s₀ (imagePages k n)) fun _ _ => False := by
  have hzero : pgUp 0 = 0 := rfl
  rw [← hzero] at h hsupply
  unfold buildSpace spaceSize
  refine (loadProgram_spec h hsupply).seq fun r s₁ ⟨own₁, hr⟩ => ?_
  cases r with
  | none =>
    refine ⟨own₁, .inr ⟨rfl, hr.1, fun n hn hgives => ?_⟩⟩
    obtain ⟨sz, hsz, hn⟩ := Option.bind_eq_some_iff.mp hn
    obtain ⟨-, hn⟩ := Option.ite_none_right_eq_some.mp hn
    cases hn
    exact hr.2 sz hsz (hgives.mono (imagePages_mono k (Nat.le_add_right ..)))
  | some sz =>
    rw [hr.1, Option.bind_some]
    generalize hm : pgUp sz + 2 = m
    cases Nat.lt_or_ge m kernPage with
    | inl hfit =>
      rw [if_pos hfit]
      refine (allocStack_spec hr.2.1 hr.2.2 hm.symm hfit).imp fun r s₂ ⟨own₂, hr₂⟩ => ⟨own₂, ?_⟩
      refine hr₂.imp (fun ⟨hr, h₂, hgives⟩ => ⟨m, hr, rfl, by omega, hfit, h₂, hgives⟩) ?_
      intro ⟨hr, h₂, hout⟩
      refine ⟨hr, h₂, fun n hn => ?_⟩
      cases hn
      exact hout
    | inr hbig =>
      rw [if_neg hbig.not_gt]
      exact .of_ok (allocStack_of_ge hm.symm hbig) ⟨own₁, .inr ⟨rfl, hr.2.1.doomed, nofun⟩⟩

end Xv6.Vm
