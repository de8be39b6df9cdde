import Xv6.Vm.Load

/-!
# The arguments on the user stack

`exec` puts the strings of its arguments below the top of the new address space, one below the other, and
under them the words that `main` starts with. It does not check that they fit into the stack page. What
does not fit comes upon the guard page, and `copyout` returns `-1`, wherever in the user part it starts. But
a string that is longer than the address space takes `sp` below 0 and so into the part of the kernel. There,
`copyout` finds a page table or not: between the end of physical memory and the devices there is none, and
`uva2ka` reads the entry at address 0 (`reachesGap`).

`pushArgs_spec` says which of the three happens, and what is in memory if the arguments fit.
-/

namespace Xv6.Vm

open List (length_append length_cons map_cons sum_cons)
open Option (bind_eq_bind bind_some)
open Lib
open Process (pgUp)
open Fs (overwrite overwrite_inside overwrite_outside)

variable {k : Image} {fails : Nat → Bool} {own own₀ : Page → Place} {s s' : Phys} {d q : Page}
  {v n va : Nat} {bs : List UInt8}

/-! ### Where the kernel has page tables -/

lemma mem_kernTabs (hv : kernPage ≤ v) (hpage : v < nPages) :
    v / nEntries ∈ kernTabs k ↔ v < kernPage + physStop ∨ devSpace ≤ v := by
  have hdata := k.extMem_lt
  have hend := k.data_le.trans k.endPage_le
  have hpages : ∀ w, w ∈ kmapPages (kmap k) ↔
      kernPage ≤ w ∧ w < kernPage + physStop ∨ devSpace ≤ w ∧ w < nPages := fun w => by
    simp only [mem_kmapPages, kmap, List.mem_cons, List.not_mem_nil, or_false, exists_eq_or_imp,
      exists_eq_left]
    unfold kernPage extMem physStop devSpace nPages nEntries at *
    omega
  rw [kernTabs, Finset.mem_image]
  simp only [hpages]
  unfold kernPage physStop devSpace nPages nEntries at *
  constructor
  · rintro ⟨w, hw, heq⟩
    omega
  · intro hcase
    exact ⟨v, by omega, rfl⟩

lemma mem_imageTabs_kern (hn : n ≤ kernPage) (hv : kernPage ≤ v) :
    v / nEntries ∈ imageTabs k n ↔ v / nEntries ∈ kernTabs k := by
  rw [imageTabs, Finset.mem_union, or_iff_left]
  intro hmem
  obtain ⟨w, hw, heq⟩ := Finset.mem_image.mp hmem
  have hw := List.mem_range.mp (List.mem_toFinset.mp hw)
  unfold kernPage at hn hv
  unfold nEntries at heq
  omega

/-! ### `uva2ka` -/

lemma walkpgdir_false_run : walkpgdir fails d v false s = .ok (s.tableAt d (v / nEntries)) s := by
  unfold walkpgdir Phys.tableAt
  rw [bind_run, get_run]
  dsimp only
  cases (s.mem d (v / nEntries)).present <;> rfl

lemma uva2ka_run : uva2ka fails d v s = match s.tableAt d (v / nEntries) with
    | none => .error .nullPte s
    | some t => .ok (((s.mem t (v % nEntries)).present.filter Entry.user).map Entry.page) s := by
  have hwalk : vm (walkpgdir fails d v false) s = .ok (s.tableAt d (v / nEntries)) s := by
    unfold vm
    rw [walkpgdir_false_run]
  rw [uva2ka, bind_run, hwalk]
  cases s.tableAt d (v / nEntries) with
  | none => rfl
  | some t =>
    dsimp only
    rw [bind_run, get_run]
    dsimp only
    cases (s.mem t (v % nEntries)).present with
    | none => rfl
    | some e =>
      cases huser : e.user with
      | false | true => simp [huser, Option.filter, pure_run]

lemma uva2ka_of_not_user (htab : (s.tableAt d (v / nEntries)).isSome)
    (hno : ∀ e, s.pteAt d v = some e → e.user = false) : uva2ka fails d v s = .ok none s := by
  obtain ⟨t, ht⟩ := Option.isSome_iff_exists.mp htab
  rw [uva2ka_run, ht]
  rw [Phys.pteAt, ht, bind_some] at hno
  dsimp only
  cases hpte : (s.mem t (v % nEntries)).present with
  | none => rfl
  | some e => simp [Option.filter, hno e hpte]

lemma uva2ka_of_missing (htab : s.tableAt d (v / nEntries) = none) : uva2ka fails d v s = .error .nullPte s := by
  rw [uva2ka_run, htab]

variable {e : Entry}

lemma uva2ka_of_user (hpte : s.pteAt d v = some e) (huser : e.user) :
    uva2ka fails d v s = .ok (some e.page) s := by
  obtain ⟨t, ht, hpte⟩ := Option.bind_eq_some_iff.mp hpte
  rw [uva2ka_run, ht]
  dsimp only
  rw [hpte]
  simp [Option.filter, huser]

/-! ### `copyout` -/

lemma copyout_of_none (hbs : bs ≠ []) (h : uva2ka fails d (va / pgSize) s = .ok none s) :
    copyout fails d va bs s = .ok false s := by
  rw [copyout, if_neg hbs, bind_run, h]
  rfl

lemma copyout_of_missing (hbs : bs ≠ []) (h : uva2ka fails d (va / pgSize) s = .error .nullPte s) :
    copyout fails d va bs s = .error .nullPte s := by
  rw [copyout, if_neg hbs, bind_run, h]

lemma copyout_of_user (hbs : bs ≠ []) (hpte : s.pteAt d (va / pgSize) = some e)
    (huser : e.user) : copyout fails d va bs s =
      copyout fails d ((va / pgSize + 1) * pgSize % 2 ^ 32) (bs.drop (pgSize - va % pgSize))
        { s with
          mem := Function.update s.mem e.page
            (ofBytes (overwrite (byteAt (s.mem e.page)) (va % pgSize) (bs.take (pgSize - va % pgSize)))) } := by
  rw [copyout, if_neg hbs, bind_run, uva2ka_of_user hpte huser]
  dsimp only
  rw [bind_run, memmove, bind_run, get_run]
  rfl

lemma copyout_page (hbs : bs ≠ []) (hpte : s.pteAt d (va / pgSize) = some e)
    (huser : e.user) (hfit : va % pgSize + bs.length ≤ pgSize) :
    copyout fails d va bs s = .ok true { s with
      mem := Function.update s.mem e.page
        (ofBytes (overwrite (byteAt (s.mem e.page)) (va % pgSize) bs)) } := by
  rw [copyout_of_user hbs hpte huser, List.take_of_length_le (by omega), List.drop_eq_nil_of_le (by omega),
    copyout, if_pos rfl]
  rfl

lemma kernPage_mul_lt : kernPage * pgSize < 2 ^ 32 := by decide

lemma copyout_blocked (h : Space k own₀ d (guarded n) n own s) (hn : 2 ≤ n) (hbs : bs ≠ [])
    (hstart : va / pgSize ≤ n - 2) (hend : (n - 2) * pgSize < va + bs.length) :
    wp (copyout fails d va bs) s (fun r s' => r = false ∧ Space k own₀ d (guarded n) n own s')
      fun _ _ => False := by
  have hle := h.le
  -- the induction is on the pages up to the guard page
  induction hm : n - 2 - va / pgSize generalizing va bs s with
  | zero =>
    have hv : va / pgSize = n - 2 := by omega
    refine .of_ok (copyout_of_none hbs ?_) ⟨rfl, h⟩
    obtain ⟨g, hg⟩ := h.user (n - 2) (by omega)
    rw [hv]
    refine uva2ka_of_not_user (h.table_of_lt (by omega)) fun e he => ?_
    rw [hg, guarded, if_pos rfl] at he
    rw [← Option.some.inj he, Entry.user_eq]
    decide
  | succ m ih =>
    have hv : va / pgSize < n - 2 := by omega
    obtain ⟨g, hg⟩ := h.user (va / pgSize) (by omega)
    rw [guarded, if_neg (by omega)] at hg
    have hwp : copyout fails d va bs s = _ := copyout_of_user hbs hg (by rw [Entry.user_eq]; decide)
    have h' := h.write (h.own_eq (by omega) hg) (ofBytes (overwrite (byteAt (s.mem g)) (va % pgSize)
      (bs.take (pgSize - va % pgSize))))
    have hnext : (va / pgSize + 1) * pgSize % 2 ^ 32 = (va / pgSize + 1) * pgSize := by
      refine Nat.mod_eq_of_lt ((Nat.mul_le_mul_right pgSize ?_).trans_lt kernPage_mul_lt)
      omega
    rw [hnext] at hwp
    unfold wp
    rw [hwp]
    have hrest : (n - 2) * pgSize < (va / pgSize + 1) * pgSize + (bs.drop (pgSize - va % pgSize)).length := by
      rw [List.length_drop]
      unfold pgSize at hend hv ⊢
      omega
    refine ih h' (List.ne_nil_of_length_pos ?_) ?_ hrest ?_
    · unfold pgSize at hrest hv ⊢
      omega
    · rw [Nat.mul_div_cancel _ (by decide)]
      omega
    · rw [Nat.mul_div_cancel _ (by decide)]
      omega

/-! ### The memory of the user -/

/-- The byte that the user reads at an address. -/
def Phys.userByte (s : Phys) (d : Page) (va : Nat) : Option UInt8 :=
  (s.pteAt d (va / pgSize)).bind fun e =>
    if e.user then some (byteAt (s.mem e.page) (va % pgSize)) else none

/-- Memory that is read by `rd` has `bs` at `va`. -/
def Reads (rd : Nat → Option UInt8) (va : Nat) (bs : List UInt8) : Prop :=
  ∀ i < bs.length, rd (va + i) = bs[i]?

variable {rd : Nat → Option UInt8}

lemma Reads.append {xs ys : List UInt8} (h : Reads rd va (xs ++ ys)) :
    Reads rd va xs ∧ Reads rd (va + xs.length) ys := by
  refine ⟨fun i hi => ?_, fun i hi => ?_⟩
  · rw [h i (by rw [length_append]; omega), List.getElem?_append_left hi]
  · rw [Nat.add_assoc, h (xs.length + i) (by rw [length_append]; omega),
      List.getElem?_append_right (Nat.le_add_right ..), Nat.add_sub_cancel_left]

variable {b : UInt8}

lemma Reads.head (h : Reads rd va (b :: bs)) : rd va = some b :=
  h 0 (Nat.zero_lt_succ _)

lemma Reads.tail (h : Reads rd va (b :: bs)) : Reads rd (va + 1) bs :=
  (@Reads.append va rd [b] bs h).2

lemma Reads.congr {rd' : Nat → Option UInt8} (h : Reads rd va bs)
    (hsame : ∀ x, va ≤ x → x < va + bs.length → rd' x = rd x) : Reads rd' va bs :=
  fun i hi => by rw [hsame _ (Nat.le_add_right ..) (Nat.add_lt_add_left hi _), h i hi]

lemma Space.stackPage (h : Space k own₀ d (guarded n) n own s) (hn : 2 ≤ n) :
    ∃ q, s.pteAt d (n - 1) = some ⟨q, pteWU⟩ ∧ own q = .user d (n - 1) := by
  obtain ⟨q, hq⟩ := h.user (n - 1) (by omega)
  rw [guarded, if_neg (by omega)] at hq
  exact ⟨q, hq, h.own_eq (by omega) hq⟩

lemma userByte_of_pteAt (hpte : s.pteAt d (va / pgSize) = some ⟨q, pteWU⟩) :
    s.userByte d va = some (byteAt (s.mem q) (va % pgSize)) := by
  rw [Phys.userByte, hpte, bind_some, Entry.user_eq]
  rfl

lemma Space.copyout_fits (h : Space k own₀ d (guarded n) n own s) (hn : 2 ≤ n) (hbs : bs ≠ [])
    (hlo : (n - 1) * pgSize ≤ va) (hhi : va + bs.length ≤ n * pgSize) :
    ∃ s', copyout fails d va bs s = .ok true s' ∧ Space k own₀ d (guarded n) n own s' ∧ Reads (s'.userByte d) va bs ∧
      ∀ x, va + bs.length ≤ x → x < n * pgSize → s'.userByte d x = s.userByte d x := by
  obtain ⟨q, hpte, hown⟩ := h.stackPage hn
  have hpos := List.length_pos_of_ne_nil hbs
  have hpage : ∀ x, va ≤ x → x < n * pgSize → x / pgSize = n - 1 := fun x hle hlt => by
    unfold pgSize at *
    omega
  have hva := hpage va le_rfl (by omega)
  have hfit : va % pgSize + bs.length ≤ pgSize := by
    unfold pgSize at *
    omega
  have hrun : copyout fails d va bs s = _ :=
    copyout_page hbs (hva ▸ hpte) (by rw [Entry.user_eq]; rfl) hfit
  refine ⟨_, hrun, h.write hown _, ?_⟩
  generalize hm : ofBytes (overwrite (byteAt (s.mem q)) (va % pgSize) bs) = m
  have hread : ∀ x, va ≤ x → x < n * pgSize →
      Phys.userByte { s with mem := Function.update s.mem q m } d x =
        some (overwrite (byteAt (s.mem q)) (va % pgSize) bs (va % pgSize + (x - va))) := fun x hle hlt => by
    have hx := hpage x hle hlt
    have hpte' := h.owns.pteAt_write (hown ▸ Place.plain_user d _) m h.dir
      (show n - 1 < nPages from (Nat.sub_lt (by omega) Nat.one_pos).trans (h.le.trans_lt (by decide)))
    have hoff : x % pgSize = va % pgSize + (x - va) := by
      unfold pgSize at *
      omega
    rw [userByte_of_pteAt (hx ▸ hpte'.trans hpte)]
    dsimp only
    rw [Function.update_self, ← hm, byteAt_ofBytes, hoff]
  constructor
  · intro i hi
    rw [hread _ (Nat.le_add_right ..) (by omega), Nat.add_sub_cancel_left, overwrite_inside _ hi,
      List.getD_eq_getElem?_getD, List.getElem?_eq_getElem hi, Option.getD_some]
  · intro x hle hlt
    have hx := hpage x (by omega) hlt
    have hoff : x % pgSize = va % pgSize + (x - va) := by
      unfold pgSize at *
      omega
    rw [hread x (by omega) hlt, overwrite_outside _ (.inr (by omega)), ← hoff,
      userByte_of_pteAt (hx ▸ hpte)]

/-! ### Where the strings go -/

/-- The bytes that a string of length `len` takes: with its NUL, up to a multiple of 4. -/
def argBytes (len : Nat) : Nat := (len + 4) / 4 * 4

/-- The bytes that the strings take. -/
def stringBytes (lens : List Nat) : Nat := (lens.map argBytes).sum

/-- The bytes that the arguments take: the strings, and the words below them. -/
def stackBytes (lens : List Nat) : Nat := stringBytes lens + (lens.length + 4) * 4

/-- A string that starts `used` bytes below the size starts where there is no page table: the size is
smaller, and the address is one between physical memory and the devices. -/
def InGap (sz used : Nat) : Prop :=
  sz < used ∧ (kernPage + physStop) * pgSize + used ≤ 2 ^ 32 + sz ∧ 2 ^ 32 + sz < devSpace * pgSize + used

instance (sz used : Nat) : Decidable (InGap sz used) := inferInstanceAs (Decidable (_ ∧ _))

/-- The first string that does not fit into the stack page starts where there is no page table; the
strings before it take `used` bytes. -/
def reachesGap (sz : Nat) : (used : Nat) → List Nat → Bool
  | _, [] => false
  | used, len :: lens =>
    if used + argBytes len ≤ pgSize then reachesGap sz (used + argBytes len) lens
    else InGap sz (used + argBytes len)

variable {len sz used : Nat}

lemma below_of_le (hsz : sz < 2 ^ 31) (hsz4 : sz % 4 = 0) (hused : used % 4 = 0)
    (h : used + argBytes len ≤ sz) : below (sz - used) len = sz - (used + argBytes len) := by
  unfold below
  unfold argBytes at *
  omega

lemma below_of_lt (hsz4 : sz % 4 = 0) (hle : used ≤ sz)
    (hused : used % 4 = 0) (hlen : len < 2 ^ 31) (h : sz < used + argBytes len) :
    below (sz - used) len = 2 ^ 32 + sz - (used + argBytes len) := by
  unfold below
  unfold argBytes at *
  omega

lemma Space.copyout_kernel (h : Space k own₀ d (guarded n) n own s) (hbs : bs ≠ [])
    (hlo : kernBase ≤ va) (hhi : va < 2 ^ 32) :
    copyout fails d va bs s =
      if (kernPage + physStop) * pgSize ≤ va ∧ va < devSpace * pgSize then .error .nullPte s
      else .ok false s := by
  have hkern : kernPage ≤ va / pgSize := by
    unfold kernBase at hlo
    unfold kernPage pgSize
    omega
  have hpage : va / pgSize < nPages := by
    unfold nPages nEntries pgSize
    omega
  have htab := (h.tableAt_isSome hpage).trans
    ((mem_imageTabs_kern h.le hkern).trans (mem_kernTabs hkern hpage))
  split
  next hgap =>
    refine copyout_of_missing hbs (uva2ka_of_missing (Option.not_isSome_iff_eq_none.mp ?_))
    rw [htab]
    unfold pgSize at *
    omega
  next hgap =>
    refine copyout_of_none hbs (uva2ka_of_not_user (htab.mpr ?_) fun e he => h.kern _ hkern hpage e he)
    unfold pgSize at *
    omega

variable {a : List UInt8}

/-- What becomes of a string: it is in the stack page, or `copyout` returns `-1`, or there is no page
table. -/
lemma Space.copyout_string (h : Space k own₀ d (guarded n) n own s) (hn : 2 ≤ n) (hlt : n < kernPage)
    (hused : used ≤ pgSize) (hused4 : used % 4 = 0) (hlen : a.length < 2 ^ 31) :
    wp (copyout fails d (below (n * pgSize - used) a.length) (a ++ [0])) s
      (fun r s' => Space k own₀ d (guarded n) n own s' ∧
        (r ∧ used + argBytes a.length ≤ pgSize ∧
          below (n * pgSize - used) a.length = n * pgSize - (used + argBytes a.length) ∧
          Reads (s'.userByte d) (n * pgSize - (used + argBytes a.length)) (a ++ [0]) ∧
          (∀ x, n * pgSize - used ≤ x → x < n * pgSize → s'.userByte d x = s.userByte d x) ∨
        r = false ∧ pgSize < used + argBytes a.length ∧ ¬ InGap (n * pgSize) (used + argBytes a.length)))
      fun e _ => e = .nullPte ∧ pgSize < used + argBytes a.length ∧
        InGap (n * pgSize) (used + argBytes a.length) := by
  have hbs : a ++ [0] ≠ [] := List.append_ne_nil_of_right_ne_nil _ (List.cons_ne_nil 0 [])
  have hlen' : (a ++ [0]).length = a.length + 1 := length_append
  have hsz : n * pgSize < 2 ^ 31 := by
    unfold kernPage at hlt
    unfold pgSize
    omega
  have hsz4 : n * pgSize % 4 = 0 := by
    unfold pgSize
    omega
  have hround : a.length + 1 ≤ argBytes a.length ∧ argBytes a.length ≤ a.length + 4 := by
    unfold argBytes
    omega
  have htwo : 2 * pgSize ≤ n * pgSize := Nat.mul_le_mul_right _ hn
  by_cases hwrap : n * pgSize < used + argBytes a.length
  · have hsp := below_of_lt hsz4 (by unfold pgSize at *; omega) hused4 hlen hwrap
    rw [hsp]
    have hrun : copyout fails d (2 ^ 32 + n * pgSize - (used + argBytes a.length)) (a ++ [0]) s = _ :=
      h.copyout_kernel hbs (by unfold kernBase pgSize at *; omega) (by omega)
    have hgap : ((kernPage + physStop) * pgSize ≤ 2 ^ 32 + n * pgSize - (used + argBytes a.length) ∧
        2 ^ 32 + n * pgSize - (used + argBytes a.length) < devSpace * pgSize) ↔
        InGap (n * pgSize) (used + argBytes a.length) := by
      unfold InGap kernPage physStop devSpace pgSize at *
      omega
    have hbig : pgSize < used + argBytes a.length := by
      unfold pgSize at *
      omega
    unfold wp
    rw [hrun]
    split
    next r s' heq =>
      split at heq
      · cases heq
      next hno =>
        cases heq
        exact ⟨h, .inr ⟨rfl, hbig, fun hin => hno (hgap.mpr hin)⟩⟩
    next e s' heq =>
      split at heq
      next hyes =>
        cases heq
        exact ⟨rfl, hbig, hgap.mp hyes⟩
      · cases heq
  · have hsp := below_of_le hsz hsz4 hused4 (not_lt.mp hwrap)
    rw [hsp]
    by_cases hfit : used + argBytes a.length ≤ pgSize
    · obtain ⟨s', hrun, h', hreads, hsame⟩ := @Space.copyout_fits _ fails _ _ _ _ _
        (n * pgSize - (used + argBytes a.length)) _ h hn hbs (by rw [Nat.sub_mul]; omega) (by rw [hlen']; omega)
      refine .of_ok hrun ⟨h', .inl ⟨rfl, hfit, rfl, hreads, fun x hx => hsame x ?_⟩⟩
      rw [hlen']
      omega
    · refine (copyout_blocked h hn hbs ?_ ?_).mono (fun r s' ⟨hr, h'⟩ => ⟨h', .inr ⟨hr, ?_, ?_⟩⟩)
        fun _ _ h => h.elim
      · unfold pgSize at hfit hwrap ⊢
        omega
      · rw [hlen', Nat.sub_mul]
        have hpos : 4 ≤ pgSize := by decide
        omega
      · omega
      · exact fun hgap => hwrap hgap.1

/-! ### The strings -/

/-- The user reads the string `a` at `p`; it starts at a multiple of 4 and lies between `lo` and `hi`. -/
structure StringAt (s : Phys) (d : Page) (lo hi p : Nat) (a : List UInt8) : Prop where
  aligned : p % 4 = 0
  le : lo ≤ p
  end_le : p + a.length + 1 ≤ hi
  reads : Reads (s.userByte d) p (a ++ [0])

variable {hi lo : Nat}

lemma StringAt.mono {lo' hi' p : Nat} (h : StringAt s d lo hi p a) (hlo : lo' ≤ lo) (hhi : hi ≤ hi')
    (hsame : ∀ x, lo ≤ x → x < hi → s'.userByte d x = s.userByte d x) : StringAt s' d lo' hi' p a :=
  ⟨h.aligned, hlo.trans h.le, h.end_le.trans hhi, h.reads.congr fun x hle hlt => hsame x (h.le.trans hle) (by
    have := h.end_le
    rw [length_append, List.length_singleton] at hlt
    omega)⟩

lemma reachesGap_of_le {lens : List Nat} (h : used + stringBytes lens ≤ pgSize) :
    reachesGap sz used lens = false := by
  induction lens generalizing used with
  | nil => rfl
  | cons len lens ih =>
    rw [stringBytes, map_cons, sum_cons] at h
    rw [reachesGap, if_pos (by omega)]
    exact ih (by rw [stringBytes]; omega)

lemma stringBytes_cons (a : List UInt8) (argv : List (List UInt8)) :
    stringBytes ((a :: argv).map List.length) = argBytes a.length + stringBytes (argv.map List.length) := by
  rw [stringBytes, map_cons, map_cons, sum_cons]
  rfl

lemma stringBytes_mod (lens : List Nat) : stringBytes lens % 4 = 0 := by
  induction lens with
  | nil => rfl
  | cons len lens ih =>
    rw [stringBytes] at ih
    rw [stringBytes, map_cons, sum_cons]
    unfold argBytes at *
    omega

/-- Between `s` and `s'`, the strings of `argv` have been put at `qs`, down from `used` bytes below `sz`, and
`sp` is the address of the last one. -/
structure Pushed (s s' : Phys) (d : Page) (sz used : Nat) (argv : List (List UInt8)) (sp : Nat)
    (qs : List Nat) : Prop where
  fits : used + stringBytes (argv.map List.length) ≤ pgSize
  sp_eq : sp = sz - (used + stringBytes (argv.map List.length))
  strings : List.Forall₂ (StringAt s' d sp (sz - used)) qs argv
  same : ∀ x, sz - used ≤ x → x < sz → s'.userByte d x = s.userByte d x

variable {argv : List (List UInt8)}

variable {qs : List Nat}

lemma Pushed.cons {s₁ : Phys} {sp : Nat} (hsz : pgSize ≤ sz) (hsz4 : sz % 4 = 0) (hused4 : used % 4 = 0)
    (hreads : Reads (s₁.userByte d) (sz - (used + argBytes a.length)) (a ++ [0]))
    (hsame : ∀ x, sz - used ≤ x → x < sz → s₁.userByte d x = s.userByte d x)
    (h : Pushed s₁ s' d sz (used + argBytes a.length) argv sp qs) :
    Pushed s s' d sz used (a :: argv) sp ((sz - (used + argBytes a.length)) :: qs) := by
  have hsum := stringBytes_cons a argv
  have hle := h.fits
  have hsp := h.sp_eq
  have hround : a.length + 1 ≤ argBytes a.length ∧ argBytes a.length % 4 = 0 := by
    unfold argBytes
    omega
  refine ⟨by omega, by rw [hsp]; omega, .cons ⟨by omega, by omega, by omega, ?_⟩ ?_, fun x hlo hhi => ?_⟩
  · refine hreads.congr fun x hlo hhi => h.same x hlo ?_
    rw [length_append, List.length_singleton] at hhi
    omega
  · exact h.strings.imp fun p b hp => hp.mono le_rfl (by omega) fun _ _ _ => rfl
  · rw [h.same x (by omega) hhi, hsame x hlo hhi]

/-- All strings are in the stack page, or there are too many of them or they do not fit. -/
lemma pushStrings_spec {ptrs : List Nat}
    (h : Space k own₀ d (guarded n) n own s) (hn : 2 ≤ n) (hlt : n < kernPage)
    (hused : used ≤ pgSize) (hused4 : used % 4 = 0) (hlen : ∀ a ∈ argv, a.length < 2 ^ 31) :
    wp (pushStrings fails d argv (n * pgSize - used) ptrs) s
      (fun r s' => Space k own₀ d (guarded n) n own s' ∧ match r with
        | some (sp, ps) => ∃ qs, ps = ptrs ++ qs ∧ (ptrs.length ≤ maxArg → ps.length ≤ maxArg) ∧
            Pushed s s' d (n * pgSize) used argv sp qs
        | none => ptrs.length + argv.length ≤ maxArg → pgSize < used + stringBytes (argv.map List.length) ∧
            reachesGap (n * pgSize) used (argv.map List.length) = false)
      fun e _ => e = .nullPte ∧ reachesGap (n * pgSize) used (argv.map List.length) := by
  induction argv generalizing used ptrs s with
  | nil => exact ⟨h, [], (List.append_nil _).symm, id, hused, rfl, .nil, fun _ _ _ => rfl⟩
  | cons a argv ih =>
    rw [pushStrings, wp_ite]
    split
    next hmany =>
      refine ⟨h, fun hfew => ?_⟩
      rw [length_cons] at hfew
      omega
    next hmany =>
      refine (h.copyout_string hn hlt hused hused4 (hlen a (.head _))).bind
        (fun r s₁ ⟨h₁, hr⟩ => ?_) fun e _ ⟨he, hbig, hgap⟩ => ⟨he, ?_⟩
      · cases hr with
        | inl hr =>
          obtain ⟨rfl, hfit, hsp, hreads, hsame⟩ := hr
          have hfour : (used + argBytes a.length) % 4 = 0 := by
            unfold argBytes
            omega
          rw [wp_ite, if_pos rfl, hsp]
          refine (ih h₁ hfit hfour fun b hb => hlen b (.tail _ hb)).mono
            (fun r s₂ ⟨h₂, hr⟩ => ⟨h₂, ?_⟩) fun e _ ⟨he, hgap⟩ => ⟨he, ?_⟩
          · cases r with
            | none =>
              intro hfew
              rw [length_cons] at hfew
              obtain ⟨hbig, hgap⟩ := hr (by rw [length_append, List.length_singleton]; omega)
              rw [stringBytes_cons, map_cons, reachesGap, if_pos hfit]
              exact ⟨by omega, hgap⟩
            | some r =>
              obtain ⟨qs, hps, hfew, hpush⟩ := hr
              have hsz : pgSize ≤ n * pgSize := Nat.le_mul_of_pos_left _ (by omega)
              have hsz4 : n * pgSize % 4 = 0 := by
                unfold pgSize
                omega
              refine ⟨_, hps.trans (List.append_assoc ..), fun _ => hfew ?_,
                .cons hsz hsz4 hused4 hreads hsame hpush⟩
              rw [length_append, List.length_singleton]
              omega
          · rw [map_cons, reachesGap, if_pos hfit]
            exact hgap
        | inr hr =>
          obtain ⟨rfl, hbig, hgap⟩ := hr
          rw [wp_ite, if_neg Bool.false_ne_true, stringBytes_cons]
          refine ⟨h₁, fun _ => ⟨by omega, ?_⟩⟩
          rw [map_cons, reachesGap, if_neg hbig.not_ge]
          exact decide_eq_false hgap
      · rw [map_cons, reachesGap, if_neg hbig.not_ge]
        exact decide_eq_true hgap

/-! ### The words below them -/

lemma length_flatMap_leBytes (ws : List Nat) : (ws.flatMap leBytes).length = ws.length * 4 := by
  induction ws with
  | nil => rfl
  | cons w ws ih =>
    rw [List.flatMap_cons, length_append, ih, length_cons]
    show 4 + _ = _
    omega

lemma length_ustack (sp : Nat) (ptrs : List Nat) : (ustack sp ptrs).length = ptrs.length + 4 := by
  simp [ustack]

/-- The stack as `main` finds it, with `sp` at the end of its words. -/
structure Ready (s : Phys) (d : Page) (sz : Nat) (argv : List (List UInt8)) (sp' : Nat) (qs : List Nat) :
    Prop where
  fits : stackBytes (argv.map List.length) ≤ pgSize
  sp_eq : sp' = sz - stackBytes (argv.map List.length)
  words : Reads (s.userByte d) sp' ((ustack (sp' + (argv.length + 4) * 4) qs).flatMap leBytes)
  strings : List.Forall₂ (StringAt s d (sp' + (argv.length + 4) * 4) sz) qs argv

/-- `exec` sets up the stack, or the arguments do not fit. It reads at address 0 exactly if they reach the
gap. -/
lemma pushArgs_spec (h : Space k own₀ d (guarded n) n own s) (hn : 2 ≤ n)
    (hlt : n < kernPage) (hlen : ∀ a ∈ argv, a.length < 2 ^ 31) :
    wp (pushArgs fails d argv (n * pgSize)) s
      (fun r s' => Space k own₀ d (guarded n) n own s' ∧ match r with
        | some sp => ∃ qs, Ready s' d (n * pgSize) argv sp qs
        | none => argv.length ≤ maxArg → pgSize < stackBytes (argv.map List.length) ∧
            reachesGap (n * pgSize) 0 (argv.map List.length) = false)
      fun e _ => e = .nullPte ∧ reachesGap (n * pgSize) 0 (argv.map List.length) := by
  have hstrings : wp (pushStrings fails d argv (n * pgSize - 0) []) s _ _ :=
    pushStrings_spec h hn hlt zero_le rfl hlen
  have hbytes : stackBytes (argv.map List.length) =
      stringBytes (argv.map List.length) + (argv.length + 4) * 4 := by
    rw [stackBytes, List.length_map]
  rw [pushArgs]
  refine hstrings.seq fun r s₁ ⟨h₁, hr⟩ => ?_
  cases r with
  | none =>
    refine ⟨h₁, fun hfew => ?_⟩
    obtain ⟨hbig, hgap⟩ := hr (by rw [List.length_nil]; omega)
    exact ⟨by omega, hgap⟩
  | some r =>
    obtain ⟨sp, ps⟩ := r
    obtain ⟨qs, hps, hfew, hpush⟩ := hr
    rw [List.nil_append] at hps
    subst hps
    have hfew := hfew zero_le
    have hcount := hpush.strings.length_eq
    have hfits := hpush.fits
    have hsp := hpush.sp_eq
    rw [Nat.zero_add] at hfits hsp
    -- the words start in the stack page or in the guard page
    have hwords : ((ustack sp ps).flatMap leBytes).length = (argv.length + 4) * 4 := by
      rw [length_flatMap_leBytes, length_ustack, hcount]
    have hne : (ustack sp ps).flatMap leBytes ≠ [] := List.ne_nil_of_length_pos (by omega)
    have htwo : 2 * pgSize ≤ n * pgSize := Nat.mul_le_mul_right _ hn
    have hlow : sp = n * pgSize - stackBytes (argv.map List.length) + (argv.length + 4) * 4 := by
      unfold maxArg at hfew
      unfold pgSize at *
      omega
    have hsp' : (sp + 2 ^ 32 - (3 + ps.length + 1) * 4) % 2 ^ 32 =
        n * pgSize - stackBytes (argv.map List.length) := by
      unfold kernPage at hlt
      unfold pgSize at *
      omega
    generalize hend : n * pgSize - stackBytes (argv.map List.length) = sp' at hlow hsp'
    dsimp only
    rw [hsp']
    subst hlow
    by_cases hfit : stackBytes (argv.map List.length) ≤ pgSize
    · obtain ⟨s₂, hrun, h₂, hreads, hsame⟩ := @Space.copyout_fits _ fails _ _ _ _ _ sp' _ h₁ hn hne
        (by rw [Nat.sub_mul]; omega) (by omega)
      refine wp_bind.mpr (.of_ok hrun ?_)
      rw [wp_ite, if_pos rfl]
      refine ⟨h₂, ps, hfit, hend.symm, hreads, hpush.strings.imp fun p a hp => ?_⟩
      exact hp.mono le_rfl le_rfl fun x hlo hhi => hsame x (by omega) hhi
    · refine (copyout_blocked h₁ hn hne ?_ ?_).bind (fun r s₂ ⟨hr, h₂⟩ => ?_) fun _ _ h => h.elim
      · unfold pgSize at *
        omega
      · rw [Nat.sub_mul]
        have hpos : 0 < pgSize := by decide
        omega
      · subst hr
        rw [wp_ite, if_neg Bool.false_ne_true]
        exact ⟨h₂, fun _ => ⟨not_le.mp hfit, reachesGap_of_le (by rwa [Nat.zero_add])⟩⟩

/-! ### What `main` finds -/

/-- The word at an address. -/
def readWord (rd : Nat → Option UInt8) (va : Nat) : Option Nat := do
  let b₀ ← rd va
  let b₁ ← rd (va + 1)
  let b₂ ← rd (va + 2)
  let b₃ ← rd (va + 3)
  return leNat [b₀, b₁, b₂, b₃]

/-- The string at an address, up to a NUL that is among the next `fuel` bytes. -/
def readString (rd : Nat → Option UInt8) : (fuel va : Nat) → Option (List UInt8)
  | 0, _ => none
  | fuel + 1, va => do
    let b ← rd va
    if b = 0 then return [] else return b :: (← readString rd fuel (va + 1))

/-- The array of `argc` pointers at `va` and the strings that they point to; a 0 ends it. -/
def Phys.userArgs (s : Phys) (d : Page) : (argc va : Nat) → Option (List (Nat × List UInt8))
  | 0, va => do
    if (← readWord (s.userByte d) va) = 0 then return [] else none
  | argc + 1, va => do
    let p ← readWord (s.userByte d) va
    let a ← readString (s.userByte d) pgSize p
    return (p, a) :: (← s.userArgs d argc (va + 4))

/-- The stack as `main` finds it: the return address, `argc` and `argv`, and at `argv` the arguments. -/
def Phys.decodeStack (s : Phys) (d : Page) (esp : Nat) : Option (List (Nat × List UInt8)) := do
  if (← readWord (s.userByte d) esp) = 0xffffffff then
    let argc ← readWord (s.userByte d) (esp + 4)
    let argv ← readWord (s.userByte d) (esp + 8)
    s.userArgs d argc argv
  else none

lemma readWord_of_reads {w : Nat} (h : Reads rd va (leBytes w)) (hw : w < 2 ^ 32) : readWord rd va = some w := by
  have h₀ : rd va = _ := h 0 (show 0 < 4 by decide)
  have h₁ : rd (va + 1) = _ := h 1 (show 1 < 4 by decide)
  have h₂ : rd (va + 2) = _ := h 2 (show 2 < 4 by decide)
  have h₃ : rd (va + 3) = _ := h 3 (show 3 < 4 by decide)
  have hval := leNat_leBytes hw
  rw [readWord, h₀, h₁, h₂, h₃]
  exact congrArg some hval

lemma readString_of_reads {fuel : Nat}
    (h : Reads rd va (a ++ [0])) (hnul : 0 ∉ a) (hfuel : a.length < fuel) : readString rd fuel va = some a := by
  induction a generalizing va fuel with
  | nil =>
    obtain ⟨fuel, rfl⟩ := Nat.exists_eq_add_one_of_ne_zero hfuel.ne'
    rw [readString, h.head]
    rfl
  | cons b a ih =>
    obtain ⟨fuel, rfl⟩ := Nat.exists_eq_add_one_of_ne_zero (Nat.zero_lt_of_lt hfuel).ne'
    have hb : b ≠ 0 := fun heq => hnul (heq ▸ (.head _))
    have hrest := ih h.tail (fun hmem => hnul (.tail _ hmem)) (Nat.lt_of_succ_lt_succ hfuel)
    rw [readString, h.head, bind_eq_bind, bind_some, if_neg hb, hrest]
    rfl

lemma userArgs_of_reads
    (hwords : Reads (s.userByte d) va ((qs ++ [0]).flatMap leBytes)) (hhi : hi ≤ lo + pgSize) (hmax : hi ≤ 2 ^ 32)
    (hstrings : List.Forall₂ (StringAt s d lo hi) qs argv) (hnul : ∀ a ∈ argv, 0 ∉ a) :
    s.userArgs d argv.length va = some (qs.zip argv) := by
  induction hstrings generalizing va with
  | nil =>
    rw [List.length_nil, Phys.userArgs, readWord_of_reads hwords (by decide)]
    rfl
  | @cons p a qs argv hp hrest ih =>
    rw [List.cons_append, List.flatMap_cons] at hwords
    obtain ⟨hword, hwords⟩ := hwords.append
    have hend := hp.end_le
    have hle := hp.le
    have hstring := readString_of_reads hp.reads (hnul a (.head _)) (show a.length < pgSize by omega)
    have hargs := ih hwords fun b hb => hnul b (.tail _ hb)
    rw [length_cons, Phys.userArgs, readWord_of_reads hword (by omega)]
    simp only [bind_eq_bind, bind_some, hstring]
    rw [show va + 4 = va + (leBytes p).length from rfl, hargs]
    rfl

lemma Ready.decode {esp : Nat} (h : Ready s d sz argv esp qs) (hsz : sz < 2 ^ 31) (hnul : ∀ a ∈ argv, 0 ∉ a) :
    s.decodeStack d esp = some (qs.zip argv) ∧ readWord (s.userByte d) (esp + 8) = some (esp + 12) := by
  have hcount := h.strings.length_eq
  have hfits := h.fits
  have hesp := h.sp_eq
  rw [stackBytes, List.length_map] at hfits hesp
  have hargv : (esp + (argv.length + 4) * 4 + 2 ^ 32 - (qs.length + 1) * 4) % 2 ^ 32 = esp + 12 := by omega
  have hwords : Reads (s.userByte d) esp (leBytes 0xffffffff ++ (leBytes qs.length ++ (leBytes (esp + 12) ++
      (qs ++ [0]).flatMap leBytes))) := by
    have hwords := h.words
    rw [ustack, hargv] at hwords
    simpa only [List.flatMap_append, List.flatMap_cons, List.flatMap_nil, List.append_assoc,
      List.nil_append, List.append_nil] using hwords
  obtain ⟨hret, hwords⟩ := hwords.append
  obtain ⟨hargc, hwords⟩ := hwords.append
  obtain ⟨hptr, hwords⟩ := hwords.append
  have hret := readWord_of_reads hret (by decide)
  have hargc : readWord (s.userByte d) (esp + 4) = some qs.length := readWord_of_reads hargc (by
    unfold pgSize at hfits
    omega)
  have hptr : readWord (s.userByte d) (esp + 8) = some (esp + 12) := readWord_of_reads hptr (by omega)
  have hargs : s.userArgs d argv.length (esp + 12) = some (qs.zip argv) :=
    userArgs_of_reads hwords (by omega) (by omega) h.strings hnul
  refine ⟨?_, hptr⟩
  rw [Phys.decodeStack, hret]
  simp only [bind_eq_bind, bind_some, if_true, hargc, hptr]
  rw [hcount, hargs]

end Xv6.Vm
