import Xv6.Vm.Fork
import Xv6.Vm.Stack

/-!
# `exec`: the new image or the old one

`exec` has about ten places where it gives up. At all of them the new page directory is what has been taken
from the allocator, and `freevm` gives it back: afterwards every page is where it was (`exec_spec`). If `exec`
returns 0, the file has asked for a size, memory has lasted for it, and the arguments are on the stack page. The
one thing that can go wrong is the missing page table behind an argument that is too long.
-/

namespace Xv6.Vm

open Lib

variable {k : Image} {fails : Nat → Bool} {own own₀ : Page → Place} {s s' : Phys} {d d' : Page} {va : Nat}

/-! ### What stays when another page directory is freed -/

lemma Spares.userByte (hs : Spares d' own s s') (h : Owns k own s) (hd : own d = .dir d) (hne : d ≠ d')
    (hva : va / pgSize < kernPage) : s'.userByte d va = s.userByte d va := by
  have hother : ∀ {q : Page} {x : Place}, own q = x → x.dirOf = some d → x ≠ .held →
      s'.mem q = s.mem q := fun hq hx hheld =>
    hs _ (by rw [hq, hx]; exact fun heq => hne (Option.some.inj heq)) (hq ▸ hheld)
  have hpage : va / pgSize < nPages := hva.trans (by decide)
  have htab : ∀ i, s'.tableAt d i = s.tableAt d i := fun i => by
    rw [Phys.tableAt, Phys.tableAt, hother hd rfl (by simp)]
  have hpte : s'.pteAt d (va / pgSize) = s.pteAt d (va / pgSize) := by
    rw [Phys.pteAt, Phys.pteAt, htab]
    cases ht : s.tableAt d (va / pgSize / nEntries) with
    | none => rfl
    | some t =>
      rw [Option.bind_some, Option.bind_some, hother (h.table_of_pteAt hd hpage ht) rfl (by simp)]
  rw [Phys.userByte, Phys.userByte, hpte]
  cases he : s.pteAt d (va / pgSize) with
  | none => rfl
  | some e =>
    have hown : own e.page = .user d (va / pgSize) :=
      (h.user d _ e.page).mpr ⟨hd, hva, by rw [Phys.userAt_eq_pteAt, he]; rfl⟩
    rw [Option.bind_some, Option.bind_some, hother hown rfl (by simp)]

lemma Ready.congr {sz sp : Nat} {argv : List (List UInt8)} {qs : List Nat} (h : Ready s d sz argv sp qs)
    (hsz : pgSize ≤ sz) (hsame : ∀ x < sz, s'.userByte d x = s.userByte d x) : Ready s' d sz argv sp qs := by
  have hfits := h.fits
  have hsp := h.sp_eq
  have hcount := h.strings.length_eq
  refine ⟨hfits, hsp, h.words.congr fun x _ hx => hsame x ?_, h.strings.imp fun p a hp =>
    hp.mono le_rfl le_rfl fun x _ hx => hsame x hx⟩
  rw [length_flatMap_leBytes, length_ustack] at hx
  rw [stackBytes, List.length_map] at hfits hsp
  omega

/-! ### The whole of `exec` -/

/-- `exec` has made the new image: the file asks for it, memory lasts, and the arguments are on its stack. -/
structure Committed (k : Image) (fails : Nat → Bool) (ip : Option (List UInt8)) (argv : List (List UInt8))
    (s : Phys) (p' : Proc) (s' : Phys) : Prop where
  image : ∃ n, ip.bind imageSize = some n ∧ 2 ≤ n ∧ n < kernPage ∧ p'.sz = n * pgSize ∧
    Gives fails s (imagePages k n)
  owns : ∃ own', Owns k own' s' ∧ own' p'.pgdir = .dir p'.pgdir
  ready : ∃ qs, Ready s' p'.pgdir p'.sz argv p'.esp qs

/-- `exec` gives up only if the file asks for nothing, or memory does not last, or the arguments do not
fit. -/
def GivesUp (k : Image) (fails : Nat → Bool) (ip : Option (List UInt8)) (argv : List (List UInt8))
    (s : Phys) : Prop :=
  ∀ n, ip.bind imageSize = some n → Gives fails s (imagePages k n) → argv.length ≤ maxArg →
    pgSize < stackBytes (argv.map List.length) ∧ reachesGap (n * pgSize) 0 (argv.map List.length) = false

/-- An argument reaches the gap, in an image that is made. -/
def Strays (k : Image) (fails : Nat → Bool) (ip : Option (List UInt8)) (argv : List (List UInt8))
    (s : Phys) : Prop :=
  ∃ n, ip.bind imageSize = some n ∧ Gives fails s (imagePages k n) ∧
    reachesGap (n * pgSize) 0 (argv.map List.length) = true

/-- How `exec` ends. -/
def Ends (k : Image) (fails : Nat → Bool) (ip : Option (List UInt8)) (argv : List (List UInt8)) (p : Proc)
    (own : Page → Place) (s : Phys) (r : Int × Proc) (s' : Phys) : Prop :=
  r.1 = 0 ∧ Committed k fails ip argv s r.2 s' ∨
    r.1 = -1 ∧ r.2 = p ∧ Owns k own s' ∧ GivesUp k fails ip argv s

/-- The new page directory is given back. -/
lemma bad_spec {p : Proc} (h : Doomed k own₀ d own s) {E : Fault → Phys → Prop} :
    wp (bad k fails d p) s (fun r s' => r = (-1, p) ∧ Owns k own₀ s') E := by
  rw [bad, wp_bind, wp_vm]
  refine (freevm_spec h.owns h.dir).imp fun _ s' ⟨h', _⟩ => ⟨rfl, ?_⟩
  rwa [h.back] at h'

lemma Space.old_dir {fl : Nat → Nat} {n : Nat} (h : Space k own₀ d fl n own s) (hd : own₀ d' = .dir d') :
    own d' = .dir d' := by
  rw [← h.back, freed] at hd
  split at hd
  · cases hd
  · exact hd

variable {ip : Option (List UInt8)} {path : List UInt8} {argv : List (List UInt8)} {p : Proc} {s₁ : Phys}

/-- The last part of `exec`: the arguments, and the change to the new page directory. -/
lemma commit_spec {n eip : Nat} {name : List UInt8} (h : Space k own₀ d (guarded n) n own s₁) (hn : 2 ≤ n)
    (hlt : n < kernPage) (hd : own₀ d = .free) (hp : own₀ p.pgdir = .dir p.pgdir)
    (himage : ip.bind imageSize = some n) (hgives : Gives fails s (imagePages k n))
    (hlen : ∀ a ∈ argv, a.length < 2 ^ 31) :
    wp (do
      match ← pushArgs fails d argv (n * pgSize) with
      | none => bad k fails d p
      | some sp =>
        vm (freevm k fails (some p.pgdir))
        return (0, ⟨d, n * pgSize, eip, sp, name⟩)) s₁ (Ends k fails ip argv p own₀ s)
      fun e _ => e = .nullPte ∧ Strays k fails ip argv s := by
  refine (pushArgs_spec h hn hlt hlen).bind (fun r s₂ ⟨h₂, hr⟩ => ?_) fun e _ ⟨he, hgap⟩ =>
    ⟨he, n, himage, hgives, hgap⟩
  cases r with
  | none =>
    refine (bad_spec h₂.doomed).imp fun r s₃ ⟨hr', h₃⟩ => .inr ?_
    rw [hr']
    refine ⟨rfl, rfl, h₃, fun m hm _ hfew => ?_⟩
    rw [himage] at hm
    exact Option.some.inj hm ▸ hr hfew
  | some sp =>
    obtain ⟨qs, hready⟩ := hr
    have hne : d ≠ p.pgdir := fun heq => by
      rw [heq, hp] at hd
      cases hd
    rw [wp_bind, wp_vm]
    refine (freevm_spec h₂.owns (h₂.old_dir hp)).imp fun _ s₃ ⟨h₃, _, hspare⟩ => .inl ⟨rfl, ?_⟩
    refine ⟨⟨n, himage, hn, hlt, rfl, hgives⟩, ⟨_, h₃, ?_⟩, qs, hready.congr ?_ fun x hx => ?_⟩
    · rw [freed, if_neg, h₂.dir]
      rw [h₂.dir]
      exact fun heq => hne (Option.some.inj heq)
    · exact Nat.le_mul_of_pos_left _ (by omega)
    · exact hspare.userByte h₂.owns h₂.dir hne ((Nat.div_lt_of_lt_mul (by rwa [Nat.mul_comm])).trans hlt)

/-- `exec` ends with the new image or with everything where it was, or it follows a missing page table. -/
lemma exec_spec (h : Owns k own s) (hp : own p.pgdir = .dir p.pgdir) (hlen : ∀ a ∈ argv, a.length < 2 ^ 31) :
    wp (exec k fails ip path argv p) s (Ends k fails ip argv p own s)
      fun e _ => e = .nullPte ∧ Strays k fails ip argv s := by
  unfold exec
  cases ip with
  | none => exact .inr ⟨rfl, rfl, h, nofun⟩
  | some file =>
    have himage : (some file : Option (List UInt8)).bind imageSize = imageSize file := rfl
    dsimp only
    cases hheader : header file 0 elfhdrSize with
    | none =>
      refine .inr ⟨rfl, rfl, h, fun n hn => ?_⟩
      rw [himage, imageSize, hheader] at hn
      cases hn
    | some b =>
      dsimp only
      rw [wp_ite]
      split
      next hmagic =>
        refine .inr ⟨rfl, rfl, h, fun n hn => ?_⟩
        rw [himage, imageSize, hheader, Option.bind_some, if_pos hmagic] at hn
        cases hn
      next hmagic =>
        have hsize : imageSize file = spaceSize file (Elfhdr.ofBytes b) := by
          rw [imageSize, hheader, Option.bind_some, if_neg hmagic]
        rw [wp_bind, wp_vm]
        refine (setupkvm_space h).imp fun r s₁ hr => ?_
        cases r with
        | none => exact .inr ⟨rfl, rfl, hr.1, fun n _ hgives => absurd hgives (hr.2 n)⟩
        | some d =>
          obtain ⟨hfree, own₁, h₁, hsupply⟩ := hr
          refine (buildSpace_spec h₁ hsupply).bind (fun r s₂ ⟨own₂, hr⟩ => ?_) fun _ _ h => h.elim
          cases hr with
          | inl hr =>
            obtain ⟨n, rfl, hspace, hn, hlt, h₂, hgives⟩ := hr
            exact commit_spec h₂ hn hlt hfree hp (himage.trans (hsize.trans hspace)) hgives hlen
          | inr hr =>
            obtain ⟨rfl, h₂, hout⟩ := hr
            refine (bad_spec h₂).imp fun r s₃ ⟨hr', h₃⟩ => .inr ?_
            rw [hr']
            refine ⟨rfl, rfl, h₃, fun n hn hgives => absurd hgives (hout n ?_)⟩
            rw [← hsize]
            exact hn

lemma exec_succeeds {n : Nat} (h : Owns k own s) (hp : own p.pgdir = .dir p.pgdir)
    (himage : ip.bind imageSize = some n) (hgives : Gives fails s (imagePages k n))
    (hfew : argv.length ≤ maxArg) (hfit : stackBytes (argv.map List.length) ≤ pgSize) :
    ∃ p' s', exec k fails ip path argv p s = .ok (0, p') s' := by
  have hstrings : stringBytes (argv.map List.length) ≤ pgSize := (Nat.le_add_right ..).trans hfit
  have hlen : ∀ a ∈ argv, a.length < 2 ^ 31 := fun a ha => by
    have hmem : argBytes a.length ∈ (argv.map List.length).map argBytes :=
      List.mem_map_of_mem (List.mem_map_of_mem ha)
    have hle := List.le_sum_of_mem hmem
    unfold stringBytes pgSize at hstrings
    unfold argBytes at hle hstrings
    omega
  have hspec : wp (exec k fails ip path argv p) s _ _ := exec_spec h hp hlen
  cases hrun : exec k fails ip path argv p s with
  | ok r s' =>
    cases hspec.ok hrun with
    | inl hend => exact ⟨r.2, s', by rw [← hend.1]⟩
    | inr hend => exact absurd hfit (Nat.not_le.mpr (hend.2.2.2 n himage hgives hfew).1)
  | error e s' =>
    obtain ⟨-, m, hm, -, hgap⟩ := hspec.error hrun
    rw [reachesGap_of_le (by rwa [Nat.zero_add])] at hgap
    cases hgap

lemma imagePages_le (k : Image) {n : Nat} (hn : n ≤ kernPage) : imagePages k n ≤ nEntries + n + 1 := by
  have hsub : imageTabs k n ⊆ Finset.range nEntries := by
    refine Finset.union_subset (kernTabs_subset k) fun i hi => ?_
    obtain ⟨v, hv, rfl⟩ := Finset.mem_image.mp hi
    have hv := List.mem_range.mp (List.mem_toFinset.mp hv)
    exact Finset.mem_range.mpr (div_lt_of_user (hv.trans_le hn))
  have hcard := Finset.card_le_card hsub
  rw [Finset.card_range] at hcard
  unfold imagePages
  omega

/-- A file with an ELF header and no program headers. -/
def bareElf : List UInt8 := [0x7F, 0x45, 0x4C, 0x46] ++ List.replicate 48 0

lemma imageSize_bareElf : imageSize bareElf = some 2 := by decide +kernel

/-! ### Success or nothing -/

lemma two_le_imageSize {file : List UInt8} {n : Nat} (h : imageSize file = some n) : 2 ≤ n := by
  obtain ⟨b, -, h⟩ := Option.bind_eq_some_iff.mp h
  split at h
  · cases h
  · obtain ⟨sz, -, h⟩ := Option.bind_eq_some_iff.mp h
    obtain ⟨-, h⟩ := Option.ite_none_right_eq_some.mp h
    rw [← Option.some.inj h]
    exact Nat.le_add_left ..

lemma reachesGap_of_sum {sz used done : Nat} {lens : List Nat} (hsz : 2 * pgSize ≤ sz)
    (hused : used ≤ pgSize) (hdone : used ≤ 4 * done)
    (hsum : done + (lens.map fun len => len + 1).sum ≤ pgSize) : reachesGap sz used lens = false := by
  induction lens generalizing used done with
  | nil => rfl
  | cons len lens ih =>
    have hround : argBytes len ≤ len + 4 ∧ argBytes len ≤ 4 * (len + 1) := by
      unfold argBytes
      omega
    rw [List.map_cons, List.sum_cons] at hsum
    rw [reachesGap]
    split
    next hfit => exact @ih _ (done + (len + 1)) hfit (by omega) (by omega)
    next hbig =>
      refine decide_eq_false fun hgap => ?_
      have := hgap.1
      unfold pgSize at *
      omega

lemma Owns.freelist_perm (h : Owns k own s) (h' : Owns k own s') : s'.freelist.Perm s.freelist :=
  (List.perm_ext_iff_of_nodup h'.nodup h.nodup).mpr fun q => by rw [← h'.free, ← h.free]

/-- `exec` returns, whatever the file is and whenever `kalloc` fails, and if it returns `-1` the process is as
it was and no page is missing. -/
theorem exec_all_or_nothing {mem : Page → Table} {cs : List VmCall} {t : VmState}
    (hrun : Run (VmState.step k fails) anyStep (VmState.boot k mem) cs t) (hp : p.pgdir ∈ t.live)
    (hfit : (argv.map fun a => a.length + 1).sum ≤ pgSize) :
    ∃ r p' s', exec k fails ip path argv p t.phys = .ok (r, p') s' ∧ (r = 0 ∨ r = -1) ∧
      (r = -1 → p' = p ∧ s'.freelist.Perm t.phys.freelist) := by
  obtain ⟨own, h⟩ := exists_conserved hrun
  have hlen : ∀ a ∈ argv, a.length < 2 ^ 31 := fun a ha => by
    have hle := List.le_sum_of_mem (List.mem_map_of_mem (f := fun a => a.length + 1) ha)
    unfold pgSize at hfit
    omega
  have hspec : wp (exec k fails ip path argv p) t.phys _ _ :=
    exec_spec h.owns (h.roots.eq_dir h.owns hp) hlen
  cases hexec : exec k fails ip path argv p t.phys with
  | ok r s' =>
    refine ⟨r.1, r.2, s', rfl, ?_⟩
    cases hspec.ok hexec with
    | inl hend => exact ⟨.inl hend.1, fun heq => absurd (hend.1.symm.trans heq) (by decide)⟩
    | inr hend => exact ⟨.inr hend.1, fun _ => ⟨hend.2.1, h.owns.freelist_perm hend.2.2.1⟩⟩
  | error e s' =>
    -- the image has two pages at least, and no string is longer than one
    obtain ⟨-, n, hn, -, hgap⟩ := hspec.error hexec
    obtain ⟨file, -, hn⟩ := Option.bind_eq_some_iff.mp hn
    have hsum : 0 + ((argv.map List.length).map fun len => len + 1).sum ≤ pgSize := by
      rw [List.map_map, Nat.zero_add]
      exact hfit
    rw [reachesGap_of_sum (Nat.mul_le_mul_right _ (two_le_imageSize hn)) (Nat.zero_le _) (Nat.zero_le _) hsum]
      at hgap
    cases hgap

/-- A process with one page runs a file without program headers. -/
lemma exec_bareElf (argv : List (List UInt8)) (hfew : argv.length ≤ maxArg)
    (hfit : stackBytes (argv.map List.length) ≤ pgSize) : ∃ d, ∃ t : VmState, ∃ p' s',
    Run (VmState.step smallKernel fun _ => false) anyStep (VmState.boot smallKernel fun _ => zeroes)
      [.setupkvm, .allocuvm d 0 pgSize] t ∧ d ∈ t.live ∧
    exec smallKernel (fun _ => false) (some bareElf) [115, 104] argv ⟨d, pgSize, 0, 0, []⟩ t.phys =
      .ok (0, p') s' := by
  obtain ⟨d, t, own, hrun, hlive, h, -, -, henough⟩ := exists_firstPage
  have hp : d ∈ t.live := by
    rw [hlive]
    exact List.mem_cons_self
  have hgives : Gives (fun _ => false) t.phys (imagePages smallKernel 2) := by
    refine Gives.mono henough ((imagePages_le _ (by decide)).trans ?_)
    have : nEntries + 2 + 1 ≤ 4000 := by decide
    omega
  have hexec : ∃ p' s', exec smallKernel (fun _ => false) (some bareElf) [115, 104] argv
      ⟨d, pgSize, 0, 0, []⟩ t.phys = .ok (0, p') s' :=
    exec_succeeds h.owns (h.roots.eq_dir h.owns hp) imageSize_bareElf hgives hfew hfit
  obtain ⟨p', s', hexec⟩ := hexec
  exact ⟨d, t, p', s', hrun, hp, hexec⟩

theorem exec_all_or_nothing_bareElf : ∃ d, ∃ t : VmState, ∃ r p' s',
    Run (VmState.step smallKernel fun _ => false) anyStep (VmState.boot smallKernel fun _ => zeroes)
      [.setupkvm, .allocuvm d 0 pgSize] t ∧
    exec smallKernel (fun _ => false) (some bareElf) [115, 104] [[104, 105]] ⟨d, pgSize, 0, 0, []⟩ t.phys =
      .ok (r, p') s' ∧ r = 0 ∧
      (r = -1 → p' = ⟨d, pgSize, 0, 0, []⟩ ∧ s'.freelist.Perm t.phys.freelist) := by
  obtain ⟨d, t, p₀, s₀, hrun, hp, hzero⟩ := exec_bareElf [[104, 105]] (by decide) (by decide)
  have hnothing : ∃ r p' s', exec smallKernel (fun _ => false) (some bareElf) [115, 104] [[104, 105]]
      ⟨d, pgSize, 0, 0, []⟩ t.phys = .ok (r, p') s' ∧ _ ∧ _ := exec_all_or_nothing hrun hp (by decide)
  obtain ⟨r, p', s', hexec, -, hback⟩ := hnothing
  refine ⟨d, t, r, p', s', hrun, hexec, ?_, hback⟩
  rw [hzero] at hexec
  cases hexec
  rfl

/-! ### The arguments arrive -/

lemma Ready.esp_mod {sz esp : Nat} {qs : List Nat} (h : Ready s d sz argv esp qs)
    (hmod : sz % pgSize = 0) : esp % 4 = 0 := by
  have hstrings := stringBytes_mod (argv.map List.length)
  have hfits := h.fits
  have hesp := h.sp_eq
  rw [stackBytes] at hfits hesp
  unfold pgSize at *
  omega

/-- What `main` finds is what `exec` was given, aligned and in the page on top of the address space. -/
theorem exec_args_arrive {mem : Page → Table} {cs : List VmCall} {t : VmState}
    (hrun : Run (VmState.step k fails) anyStep (VmState.boot k mem) cs t) (hp : p.pgdir ∈ t.live)
    (hargv : ∀ a ∈ argv, 0 ∉ a ∧ a.length < 2 ^ 31) {p' : Proc}
    (hexec : exec k fails ip path argv p t.phys = .ok (0, p') s') :
    ∃ args, s'.decodeStack p'.pgdir p'.esp = some args ∧ args.map Prod.snd = argv ∧
      readWord (s'.userByte p'.pgdir) (p'.esp + 8) = some (p'.esp + 12) ∧ p'.esp % 4 = 0 ∧
      p'.sz % pgSize = 0 ∧ p'.sz ≤ p'.esp + pgSize ∧
      ∀ x ∈ args, x.1 % 4 = 0 ∧ p'.esp + (argv.length + 4) * 4 ≤ x.1 ∧ x.1 + x.2.length + 1 ≤ p'.sz := by
  obtain ⟨own, h⟩ := exists_conserved hrun
  have hend : Ends k fails ip argv p own t.phys (0, p') s' :=
    (exec_spec h.owns (h.roots.eq_dir h.owns hp) fun a ha => (hargv a ha).2).ok hexec
  cases hend with
  | inr hend => exact absurd (show (0 : Int) = -1 from hend.1) (by decide)
  | inl hend =>
    obtain ⟨n, -, hn, hlt, hsz, -⟩ := hend.2.image
    obtain ⟨qs, hready⟩ := hend.2.ready
    dsimp only at hsz hready
    have hmod : p'.sz % pgSize = 0 := by
      rw [hsz]
      exact Nat.mul_mod_left ..
    have hsmall : p'.sz < 2 ^ 31 := by
      rw [hsz]
      unfold kernPage at hlt
      unfold pgSize
      omega
    obtain ⟨hdecode, hptr⟩ := hready.decode hsmall fun a ha => (hargv a ha).1
    refine ⟨qs.zip argv, hdecode, ?_, hptr, hready.esp_mod hmod, hmod, ?_, fun x hx => ?_⟩
    · exact List.map_snd_zip (Nat.le_of_eq hready.strings.length_eq.symm)
    · have hfits := hready.fits
      have hesp := hready.sp_eq
      omega
    · have hstring := (List.forall₂_iff_zip.mp hready.strings).2 hx
      exact ⟨hstring.aligned, hstring.le, hstring.end_le⟩

/-- Two arguments, one of them empty. -/
theorem exec_args_arrive_bareElf : ∃ d, ∃ t : VmState, ∃ p' s' args,
    exec smallKernel (fun _ => false) (some bareElf) [115, 104] [[104, 105], []] ⟨d, pgSize, 0, 0, []⟩ t.phys =
      .ok (0, p') s' ∧
    s'.decodeStack p'.pgdir p'.esp = some args ∧ args.map Prod.snd = [[104, 105], []] := by
  obtain ⟨d, t, p', s', hrun, hp, hexec⟩ := exec_bareElf [[104, 105], []] (by decide) (by decide)
  obtain ⟨args, hdecode, hargs, -⟩ := exec_args_arrive hrun hp (by decide) hexec
  exact ⟨d, t, p', s', args, hexec, hdecode, hargs⟩

end Xv6.Vm
