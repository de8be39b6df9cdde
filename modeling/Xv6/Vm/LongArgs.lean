import Xv6.Process.Args
import Xv6.Vm.Commit

/-!
# Arguments of any length

`sys_exec` takes the arguments from the memory of the caller: at most 31 strings, each with its NUL below the
size of the process (`fetchArgs`). Nothing limits their lengths, so a process can pass a string that is longer
than the new address space, and `exec` then subtracts its length from `sp` modulo `2 ^ 32`.

`exec` follows a missing page table exactly if the first string that does not fit into the stack page ends up
between physical memory and the devices, and the image is made at all (`exec_finds_tables_iff`). A process of
some 32 megabytes can do this (`exec_longString`).
-/

namespace Xv6.Vm

open Lib
open Process (UserMem load fetchint fetchstr scanStr)

/-! ### Taking the arguments -/

/-- The memory of a process as the kernel sees it; `PTE_U` makes no difference to a load by the kernel. -/
def Phys.userMem (s : Phys) (d : Page) : UserMem := fun va =>
  (s.pteAt d (va / pgSize)).map fun e => byteAt (s.mem e.page) (va % pgSize)

/-- The loop of `sys_exec` over the array at `uargv`, from index `i` on; `argv` has room for `n` more. -/
def fetchArgs (sz : Nat) (mem : UserMem) (uargv : Nat) :
    (n i : Nat) → Except Process.Fault (Option (List (List UInt8)))
  | 0, _ => return none
  | n + 1, i => do
    match ← fetchint sz mem ((uargv + 4 * i) % 2 ^ 32) with
    | none => return none
    | some uarg =>
      if uarg = 0 then return some []
      else
        match ← fetchstr sz mem uarg with
        | none => return none
        | some len =>
          let a := (List.range len).map fun j => (mem (uarg + j)).getD 0
          return (← fetchArgs sz mem uargv n (i + 1)).map (a :: ·)

lemma bind_eq_ok {ε α β : Type} {c : Except ε α} {f : α → Except ε β} {b : β} :
    c >>= f = .ok b ↔ ∃ a, c = .ok a ∧ f a = .ok b := by
  cases c with
  | error e => exact ⟨nofun, fun ⟨a, ha, _⟩ => nomatch ha⟩
  | ok a => exact ⟨fun h => ⟨a, rfl, h⟩, fun ⟨a', ha, h⟩ => Except.ok.inj ha ▸ h⟩

variable {mem : UserMem}

variable {addr fuel len : Nat}

lemma lt_of_scanStr (h : scanStr mem addr fuel = .ok (some len)) : len < fuel := by
  induction fuel generalizing addr len with
  | zero => cases h
  | succ fuel ih =>
    obtain ⟨b, -, h⟩ := bind_eq_ok.mp h
    split at h
    · cases h
      exact Nat.zero_lt_succ _
    · obtain ⟨-, -, h⟩ := bind_eq_ok.mp h
      obtain ⟨r, hr, h⟩ := bind_eq_ok.mp h
      obtain ⟨len', rfl, rfl⟩ := Option.map_eq_some_iff.mp (Except.ok.inj h)
      exact Nat.succ_lt_succ (ih hr)

variable {n sz : Nat}

/-- There are fewer arguments than `argv` has room for, and each is shorter than the process. -/
lemma fetchArgs_bounds {uargv i : Nat} {argv : List (List UInt8)}
    (h : fetchArgs sz mem uargv n i = .ok (some argv)) : argv.length < n ∧ ∀ a ∈ argv, a.length < sz := by
  induction n generalizing i argv with
  | zero => cases h
  | succ n ih =>
    obtain ⟨uarg, -, h⟩ := bind_eq_ok.mp h
    cases uarg with
    | none => cases h
    | some uarg =>
      dsimp only at h
      split at h
      · cases h
        exact ⟨Nat.zero_lt_succ _, nofun⟩
      · obtain ⟨len, hlen, h⟩ := bind_eq_ok.mp h
        cases len with
        | none => cases h
        | some len =>
          obtain ⟨r, hr, h⟩ := bind_eq_ok.mp h
          obtain ⟨rest, rfl, rfl⟩ := Option.map_eq_some_iff.mp (Except.ok.inj h)
          obtain ⟨hcount, hall⟩ := ih hr
          refine ⟨Nat.succ_lt_succ hcount, List.forall_mem_cons.mpr ⟨?_, hall⟩⟩
          rw [List.length_map, List.length_range]
          unfold fetchstr at hlen
          split at hlen
          · cases hlen
          · have := lt_of_scanStr hlen
            omega

/-! ### When a page table is missing -/

variable {k : Image} {fails : Nat → Bool} {own : Page → Place} {s : Phys} {d : Page}
  {ip : Option (List UInt8)} {path : List UInt8} {argv : List (List UInt8)} {p : Proc}

lemma exec_of_strays (h : Owns k own s) (hp : own p.pgdir = .dir p.pgdir)
    (hlen : ∀ a ∈ argv, a.length < 2 ^ 31) (hfew : argv.length ≤ maxArg) (hstray : Strays k fails ip argv s) :
    ∃ s', exec k fails ip path argv p s = .error .nullPte s' := by
  obtain ⟨n, hn, hgives, hgap⟩ := hstray
  have hspec : wp (exec k fails ip path argv p) s _ _ := exec_spec h hp hlen
  cases hexec : exec k fails ip path argv p s with
  | error e s' => exact ⟨s', by rw [(hspec.error hexec).1]⟩
  | ok r s' =>
    cases hspec.ok hexec with
    | inl hend =>
      obtain ⟨qs, hready⟩ := hend.2.ready
      have hfits := hready.fits
      rw [stackBytes] at hfits
      rw [reachesGap_of_le (by omega)] at hgap
      cases hgap
    | inr hend =>
      rw [(hend.2.2.2 n hn hgives hfew).2] at hgap
      cases hgap

/-- `exec` finds a page table for every address that it copies to, and returns `-1` if the arguments do not
fit, exactly if no argument reaches the gap in the image that the file asks for. -/
theorem exec_finds_tables_iff {mem : Page → Table} {cs : List VmCall} {t : VmState} {uargv : Nat}
    (hrun : Run (VmState.step k fails) anyStep (VmState.boot k mem) cs t) (hp : p.pgdir ∈ t.live)
    (hsz : p.sz ≤ kernBase)
    (hargs : fetchArgs p.sz (t.phys.userMem p.pgdir) uargv maxArg 0 = .ok (some argv)) :
    ((∀ e s', exec k fails ip path argv p t.phys ≠ .error e s') ∧
      (pgSize < stackBytes (argv.map List.length) →
        ∃ s', exec k fails ip path argv p t.phys = .ok (-1, p) s')) ↔
      ∀ n, ip.bind imageSize = some n → Gives fails t.phys (imagePages k n) →
        reachesGap (n * pgSize) 0 (argv.map List.length) = false := by
  obtain ⟨hfew, hshort⟩ := fetchArgs_bounds hargs
  obtain ⟨own, h⟩ := exists_conserved hrun
  have hdir := h.roots.eq_dir h.owns hp
  have hlen : ∀ a ∈ argv, a.length < 2 ^ 31 := fun a ha => (hshort a ha).trans_le hsz
  constructor
  · intro ⟨hok, _⟩ n hn hgives
    by_contra hgap
    obtain ⟨s', hexec⟩ : ∃ s', exec k fails ip path argv p t.phys = .error .nullPte s' :=
      exec_of_strays h.owns hdir hlen (Nat.le_of_lt hfew) ⟨n, hn, hgives, Bool.eq_true_of_not_eq_false hgap⟩
    exact hok _ s' hexec
  · intro hgap
    have hspec : wp (exec k fails ip path argv p) t.phys _ _ := exec_spec h.owns hdir hlen
    cases hexec : exec k fails ip path argv p t.phys with
    | error e s' =>
      obtain ⟨-, n, hn, hgives, htrue⟩ := hspec.error hexec
      rw [hgap n hn hgives] at htrue
      cases htrue
    | ok r s' =>
      refine ⟨nofun, fun hbig => ⟨s', ?_⟩⟩
      cases hspec.ok hexec with
      | inl hend =>
        obtain ⟨qs, hready⟩ := hend.2.ready
        exact absurd hready.fits (Nat.not_le.mpr hbig)
      | inr hend => rw [← hend.1, ← hend.2.1]

/-! ### A long string -/

lemma exists_stored {mem : Page → Table} {cs : List VmCall} {t : VmState} (f : Nat → Table) {m : Nat}
    (hrun : Run (VmState.step k fails) anyStep (VmState.boot k mem) cs t) (hd : d ∈ t.live)
    (hn : n ≤ kernPage) (hmapped : ∀ v < n, t.phys.pteAt d v ≠ none) (hm : m ≤ n) :
    ∃ cs' t', Run (VmState.step k fails) anyStep (VmState.boot k mem) cs' t' ∧ t'.live = t.live ∧
      t'.phys.freelist = t.phys.freelist ∧ t'.phys.calls = t.phys.calls ∧
      (∀ v < n, t'.phys.pteAt d v = t.phys.pteAt d v) ∧
      ∀ v < m, ∀ e, t.phys.pteAt d v = some e → t'.phys.mem e.page = f v := by
  induction m with
  | zero => exact ⟨cs, t, hrun, rfl, rfl, rfl, fun _ _ => rfl, nofun⟩
  | succ m ih =>
    obtain ⟨cs', t', hrun', hlive, hfree, hcalls, hpte, hstored⟩ := ih (Nat.le_of_succ_le hm)
    obtain ⟨own, h⟩ := exists_conserved hrun'
    have hd' : d ∈ t'.live := hlive ▸ hd
    have hdir := h.roots.eq_dir h.owns hd'
    have hkern : ∀ {v}, v < n → v < kernPage := fun hv => hv.trans_le hn
    obtain ⟨e, he⟩ := Option.ne_none_iff_exists'.mp (hmapped m hm)
    have hown : ∀ v e, v < n → t.phys.pteAt d v = some e → own e.page = .user d v := fun v e hv he =>
      (h.owns.user d v e.page).mpr ⟨hdir, hkern hv, by rw [Phys.userAt_eq_pteAt, hpte v hv, he]; rfl⟩
    have hstep : t'.step k fails (.store d m (f m)) =
        some { t' with phys := { t'.phys with mem := Function.update t'.phys.mem e.page (f m) } } := by
      have hat : t'.phys.userAt d m = some e.page := ((h.owns.user d m e.page).mp (hown m e hm he)).2.2
      rw [VmState.step, if_pos ⟨hd', hkern hm⟩, hat]
      rfl
    refine ⟨_, _, hrun'.snoc trivial hstep, hlive, hfree, hcalls, fun v hv => ?_, fun v hv e' he' => ?_⟩
    · have hplain : (own e.page).Plain := hown m e hm he ▸ Place.plain_user d m
      rw [h.owns.pteAt_write hplain _ hdir ((hkern hv).trans (by decide)), hpte v hv]
    · dsimp only
      by_cases hvm : v = m
      · subst hvm
        rw [Option.mem_unique he' he, Function.update_self]
      · have hne : e'.page ≠ e.page := fun heq => hvm (by
          have := (hown v e' (by omega) he').symm.trans (heq ▸ hown m e hm he)
          exact (Place.user.inj this).2)
        rw [Function.update_of_ne hne, hstored v (by omega) e' he']

lemma scanStr_eq (hstr : ∀ j < len, mem (addr + j) = some 1)
    (hnul : mem (addr + len) = some 0) (hfuel : len < fuel) : scanStr mem addr fuel = .ok (some len) := by
  induction len generalizing addr fuel with
  | zero =>
    obtain ⟨fuel, rfl⟩ := Nat.exists_eq_add_one_of_ne_zero hfuel.ne'
    rw [Nat.add_zero] at hnul
    rw [scanStr, load, hnul]
    rfl
  | succ len ih =>
    obtain ⟨fuel, rfl⟩ := Nat.exists_eq_add_one_of_ne_zero (Nat.zero_lt_of_lt hfuel).ne'
    have hrest : scanStr mem (addr + 1) fuel = .ok (some len) := by
      refine ih (fun j hj => ?_) ?_ (Nat.lt_of_succ_lt_succ hfuel)
      · rw [Nat.add_right_comm]
        exact hstr (j + 1) (Nat.succ_lt_succ hj)
      · rw [Nat.add_right_comm]
        exact hnul
    have hfirst : mem addr = some 1 := hstr 0 (Nat.zero_lt_succ _)
    rw [scanStr, load, hfirst, hrest]
    rfl

/-- The bytes of a process that passes one string, of the `n` pages behind its first: a pointer to page 1 at
address 0, and a NUL behind the string. -/
def longString (n va : Nat) : UInt8 :=
  if va = 1 then 16 else if pgSize ≤ va ∧ va < (n + 1) * pgSize then 1 else 0

lemma fetchint_eq {b₀ b₁ b₂ b₃ : UInt8} (hsz : sz < 2 ^ 32)
    (haddr : addr + 4 ≤ sz) (h₀ : mem addr = some b₀) (h₁ : mem (addr + 1) = some b₁)
    (h₂ : mem (addr + 2) = some b₂) (h₃ : mem (addr + 3) = some b₃) : fetchint sz mem addr =
      .ok (some (b₀.toNat + 2 ^ 8 * b₁.toNat + 2 ^ 16 * b₂.toNat + 2 ^ 24 * b₃.toNat)) := by
  have hcheck : ¬ (sz ≤ addr ∨ sz < (addr + 4) % 2 ^ 32) := by omega
  rw [fetchint, if_neg hcheck, load, load, load, load, h₀, h₁, h₂, h₃]
  rfl

lemma fetchArgs_longString (hn : (n + 2) * pgSize ≤ kernBase)
    (hmem : ∀ va < (n + 2) * pgSize, mem va = some (longString n va)) :
    fetchArgs ((n + 2) * pgSize) mem 0 maxArg 0 = .ok (some [List.replicate (n * pgSize) 1]) := by
  have hsz : (n + 2) * pgSize < 2 ^ 32 := hn.trans_lt (by decide)
  have hend : (n + 2) * pgSize = n * pgSize + 2 * pgSize := Nat.add_mul ..
  have htop : (n + 1) * pgSize = n * pgSize + pgSize := Nat.succ_mul ..
  have hpage : 8 ≤ pgSize := by decide
  have hzero : ∀ va ≠ 1, va < pgSize → mem va = some 0 := fun va hne hlt => by
    rw [hmem va (by omega), longString, if_neg hne, if_neg (by omega)]
  -- the array has the address of page 1, and a 0
  have hfirst : fetchint ((n + 2) * pgSize) mem ((0 + 4 * 0) % 2 ^ 32) = .ok (some pgSize) :=
    fetchint_eq hsz (by omega) (hzero 0 (by decide) (by omega)) (hmem 1 (by omega))
      (hzero 2 (by decide) (by omega)) (hzero 3 (by decide) (by omega))
  have hsecond : fetchint ((n + 2) * pgSize) mem ((0 + 4 * 1) % 2 ^ 32) = .ok (some 0) :=
    fetchint_eq hsz (by omega) (hzero 4 (by decide) (by omega)) (hzero 5 (by decide) (by omega))
      (hzero 6 (by decide) (by omega)) (hzero 7 (by decide) (by omega))
  have hstr : ∀ j < n * pgSize, mem (pgSize + j) = some 1 := fun j hj => by
    rw [hmem _ (by omega), longString, if_neg (by omega), if_pos (by omega)]
  have hnul : mem (pgSize + n * pgSize) = some 0 := by
    rw [hmem _ (by omega), longString, if_neg (by omega), if_neg (by omega)]
  have hfetch : fetchstr ((n + 2) * pgSize) mem pgSize = .ok (some (n * pgSize)) := by
    rw [fetchstr, if_neg (by omega)]
    exact scanStr_eq hstr hnul (by omega)
  have hbytes : (List.range (n * pgSize)).map (fun j => (mem (pgSize + j)).getD 0) =
      List.replicate (n * pgSize) 1 := by
    refine List.eq_replicate_iff.mpr ⟨by rw [List.length_map, List.length_range], fun b hb => ?_⟩
    obtain ⟨j, hj, rfl⟩ := List.mem_map.mp hb
    rw [hstr j (List.mem_range.mp hj), Option.getD_some]
  have hrest : fetchArgs ((n + 2) * pgSize) mem 0 31 1 = .ok (some []) := by
    rw [fetchArgs, hsecond]
    rfl
  rw [maxArg, fetchArgs]
  refine bind_eq_ok.mpr ⟨_, hfirst, ?_⟩
  dsimp only
  rw [if_neg (by omega)]
  refine bind_eq_ok.mpr ⟨_, hfetch, bind_eq_ok.mpr ⟨_, hrest, ?_⟩⟩
  rw [hbytes]
  rfl

/-- A process of `n + 2` pages has a string of `n` pages to pass, and memory for a program of two pages. -/
lemma exists_longString (hn : n ≤ 0xC000) : ∃ d, ∃ t : VmState, ∃ cs,
    Run (VmState.step smallKernel fun _ => false) anyStep (VmState.boot smallKernel fun _ => zeroes) cs t ∧
    d ∈ t.live ∧ Gives (fun _ => false) t.phys (imagePages smallKernel 2) ∧
    fetchArgs ((n + 2) * pgSize) (t.phys.userMem d) 0 maxArg 0 = .ok (some [List.replicate (n * pgSize) 1]) := by
  have hkern : n + 2 ≤ kernPage := by
    unfold kernPage
    omega
  have hsize : (n + 2) * pgSize ≤ kernBase := Nat.mul_le_mul_right pgSize hkern
  obtain ⟨d, t, own, hrun, hlive, -, -, hmapped, henough⟩ := @exists_process (n + 2) 4000 (by
    unfold nEntries
    omega)
  have hd : d ∈ t.live := by
    rw [hlive]
    exact .head _
  have hmapped : ∀ v < n + 2, t.phys.pteAt d v ≠ none := fun v hv => (hmapped v (hv.trans_le hkern)).mpr hv
  obtain ⟨cs, t', hrun', hlive', hfree, hcalls, hpte, hstored⟩ :=
    exists_stored (fun v => ofBytes fun o => longString n (v * pgSize + o)) hrun hd hkern hmapped
      le_rfl
  refine ⟨d, t', cs, hrun', hlive' ▸ hd, ?_, fetchArgs_longString hsize fun va hva => ?_⟩
  · have hgives : Gives (fun _ => false) t.phys (imagePages smallKernel 2) := by
      refine Gives.mono henough ((imagePages_le _ (by decide)).trans ?_)
      have : nEntries + 2 + 1 ≤ 4000 := by decide
      omega
    unfold Gives at *
    rwa [hfree, hcalls]
  · have hv : va / pgSize < n + 2 := Nat.div_lt_of_lt_mul (by rwa [Nat.mul_comm])
    obtain ⟨e, he⟩ := Option.ne_none_iff_exists'.mp (hmapped _ hv)
    rw [Phys.userMem, hpte _ hv, he, Option.map_some, hstored _ hv e he, byteAt_ofBytes, Nat.mul_comm,
      Nat.div_add_mod]

/-- A process of 8196 pages passes a string that takes 8194 of them to a program of two pages. The string starts
at virtual address `0xFDFFFFFC` of the new address space, just below the devices, where there is no page
table. -/
theorem exec_longString : ∃ d, ∃ t : VmState, ∃ cs s',
    Run (VmState.step smallKernel fun _ => false) anyStep (VmState.boot smallKernel fun _ => zeroes) cs t ∧
    d ∈ t.live ∧
    fetchArgs ((8194 + 2) * pgSize) (t.phys.userMem d) 0 maxArg 0 =
      .ok (some [List.replicate (8194 * pgSize) 1]) ∧
    exec smallKernel (fun _ => false) (some bareElf) [115, 104] [List.replicate (8194 * pgSize) 1]
      ⟨d, (8194 + 2) * pgSize, 0, 0, []⟩ t.phys = .error .nullPte s' := by
  obtain ⟨d, t, cs, hrun, hd, hgives, hargs⟩ := @exists_longString 8194 (by decide)
  obtain ⟨own, h⟩ := exists_conserved hrun
  have hlens : [List.replicate (8194 * pgSize) (1 : UInt8)].map List.length = [8194 * pgSize] := by
    rw [List.map_singleton, List.length_replicate]
  have hstray : Strays smallKernel (fun _ => false) (some bareElf) [List.replicate (8194 * pgSize) 1]
      t.phys := ⟨2, imageSize_bareElf, hgives, by rw [hlens]; decide⟩
  obtain ⟨s', hexec⟩ : ∃ s', exec smallKernel (fun _ => false) (some bareElf) [115, 104]
      [List.replicate (8194 * pgSize) 1] ⟨d, (8194 + 2) * pgSize, 0, 0, []⟩ t.phys = .error .nullPte s' :=
    exec_of_strays h.owns (h.roots.eq_dir h.owns hd)
      (fun a ha => by rw [List.mem_singleton.mp ha, List.length_replicate]; decide) (by decide) hstray
  exact ⟨d, t, cs, s', hrun, hd, hargs, hexec⟩

/-- A string of one page does not fit, but it does not leave the address space either. -/
theorem exec_finds_tables_onePage : ∃ d, ∃ t : VmState, ∃ cs s',
    Run (VmState.step smallKernel fun _ => false) anyStep (VmState.boot smallKernel fun _ => zeroes) cs t ∧
    d ∈ t.live ∧ exec smallKernel (fun _ => false) (some bareElf) [115, 104] [List.replicate (1 * pgSize) 1]
      ⟨d, (1 + 2) * pgSize, 0, 0, []⟩ t.phys = .ok (-1, ⟨d, (1 + 2) * pgSize, 0, 0, []⟩) s' := by
  obtain ⟨d, t, cs, hrun, hd, -, hargs⟩ := @exists_longString 1 (by decide)
  have hlens : [List.replicate (1 * pgSize) (1 : UInt8)].map List.length = [1 * pgSize] := by
    rw [List.map_singleton, List.length_replicate]
  have hp : (⟨d, (1 + 2) * pgSize, 0, 0, []⟩ : Proc).pgdir ∈ t.live := hd
  have hreturns : pgSize < stackBytes ([List.replicate (1 * pgSize) (1 : UInt8)].map List.length) → ∃ s',
      exec smallKernel (fun _ => false) (some bareElf) [115, 104] [List.replicate (1 * pgSize) 1]
        ⟨d, (1 + 2) * pgSize, 0, 0, []⟩ t.phys = .ok (-1, ⟨d, (1 + 2) * pgSize, 0, 0, []⟩) s' :=
    ((exec_finds_tables_iff hrun hp (show (1 + 2) * pgSize ≤ kernBase by decide) hargs).mpr fun n hn _ => by
      rw [Option.some.inj (hn.symm.trans imageSize_bareElf), hlens]
      decide).2
  obtain ⟨s', hexec⟩ := hreturns (by rw [hlens]; decide)
  exact ⟨d, t, cs, s', hrun, hd, hexec⟩

end Xv6.Vm
