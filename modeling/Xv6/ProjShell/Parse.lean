import Xv6.Lib.Strtok

/-!
# Commands of a line (`proj_shell/src/shell.c`)

`get_parsed2` cuts a line at its semicolons and trims the pieces, and `get_parsed` cuts a piece at its white
space. Both do it in place, with `strtok`, and all of it in the one buffer that holds the line. So that the
later pieces are still there when the first is cut, the specifications say which part of the buffer a call
changes.

Both store their pointers in an array of `*bsize` entries and do not look at its end.
-/

namespace Xv6.ProjShell

open List (length_append length_cons)
open Lib

/-- Undefined behaviour. -/
inductive Crash
  /-- a store behind the end of the array of pointers -/
  | overflow
  /-- a string without its end, or a number that is not an `int` -/
  | outOfBounds
  /-- `strcmp` of a null pointer -/
  | nullName
  deriving DecidableEq

/-- The largest `int`. -/
def intMax : Nat := 2 ^ 31 - 1

def isBlank (c : Char) : Bool := c = ' ' || c = '\t' || c = '\n'

def isSemi (c : Char) : Bool := c = ';'

/-! ### `trim` -/

/-- `while(str[i + ix] != '\0') { str[i] = str[i + ix]; i++; }` -/
def shift (buf : List Char) (p ix i : Nat) : List Char × Nat :=
  if h : charAt buf (p + (i + ix)) ≠ nul then
    shift (buf.set (p + i) (charAt buf (p + (i + ix)))) p ix (i + 1)
  else (buf, i)
termination_by buf.length - (p + (i + ix))
decreasing_by
  have hlt : p + (i + ix) < buf.length := Nat.lt_of_not_le fun hge => h (by
    rw [charAt, List.getD_eq_getElem?_getD, List.getElem?_eq_none hge]
    rfl)
  rw [List.length_set]
  omega

/-- The second loop of `trim`, where `e` is `ix + 1`. -/
def lastChar (buf : List Char) (p i e : Nat) : Nat :=
  if h : charAt buf (p + i) ≠ nul then
    lastChar buf p (i + 1) (if isBlank (charAt buf (p + i)) then e else i + 1)
  else e
termination_by buf.length - (p + i)
decreasing_by
  have hlt : p + i < buf.length := Nat.lt_of_not_le fun hge => h (by
    rw [charAt, List.getD_eq_getElem?_getD, List.getElem?_eq_none hge]
    rfl)
  omega

/-- What `trim(str)` leaves. -/
def trimmed (buf : List Char) (p : Nat) : List Char :=
  let ix := skip isBlank buf p - p
  let (buf, i) := shift buf p ix 0
  let buf := buf.set (p + i) nul
  buf.set (p + lastChar buf p 0 0) nul

/-- `trim(str)` -/
def trim (buf : List Char) (p : Nat) : Except Crash (List Char) :=
  -- the last `i + ix` of the first loop is the length of the string
  if (cstr buf p).length ≤ intMax then .ok (trimmed buf p) else .error .outOfBounds

/-! ### `get_parsed` and `get_parsed2` -/

/-- The loop of both, with `acc` in the array of `cap` entries. -/
def parseLoop (sep : Char → Bool) (cap : Nat) (m : Mem) (s1 : Option Nat) (acc : List Nat) :
    Except Crash (List Nat × Mem) :=
  match _hs : strtok sep m s1 with
  | (none, m') => if acc.length < cap then .ok (acc, m') else .error .overflow
  | (some p, m') =>
    if acc.length < cap then parseLoop sep cap m' none (acc ++ [p]) else .error .overflow
termination_by m.buf.length - s1.getD m.save
decreasing_by
  obtain ⟨hlen, hlt, hbound⟩ := strtok_progress _hs
  rw [hlen]
  simp only [Option.getD_none]
  omega

/-- `get_parsed(input, &bsize)` -/
def getParsed (bsize : Nat) (m : Mem) (input : Nat) : Except Crash (List Nat × Mem) :=
  parseLoop isBlank bsize m (some input) []

/-- `get_parsed2(input, &bsize, &ix)`, with `ix` at 0. -/
def getParsed2 (bsize : Nat) (m : Mem) (input : Nat) : Except Crash (List Nat × Mem) := do
  let (command, m) ← parseLoop isSemi bsize m (some input) []
  let buf ← command.foldlM trim m.buf
  return (command, { m with buf })

/-! ### What they do -/

variable {buf : List Char} {p : Nat} {s : List Char} {sep : Char → Bool}

/-- The characters of a string are moved to the left. -/
lemma shift_spec {b : List Char} {ix i : Nat} (h : CStr buf (p + (i + ix)) b) :
    ∃ buf', shift buf p ix i = (buf', i + b.length) ∧
      SameOutside (p + i) (p + i + b.length) buf buf' ∧ (buf'.drop (p + i)).take b.length = b := by
  induction b generalizing buf i with
  | nil =>
    refine ⟨buf, ?_, .refl _ _ _, by simp⟩
    rw [shift, dif_neg (by rw [h.charAt_nil]; simp)]
    rfl
  | cons c b ih =>
    have hc : c ≠ nul := fun heq => h.noNul (heq ▸ (.head _))
    have hlt := h.lt_length
    have hrest : CStr (buf.set (p + i) c) (p + (i + 1 + ix)) b := by
      have hnext : CStr buf (p + (i + ix) + 1) b := CStr.suffix (a := [c]) h
      rw [show p + (i + 1 + ix) = p + (i + ix) + 1 by omega]
      exact hnext.outside (SameOutside.set (p + i) c le_rfl (Nat.lt_succ_self _)) (by omega)
    obtain ⟨buf', hshift, hsame, htake⟩ := ih hrest
    refine ⟨buf', ?_, ⟨?_, fun j hj => ?_⟩, ?_⟩
    · rw [shift, dif_pos (by rw [h.charAt_head]; exact hc), h.charAt_head, hshift, length_cons]
      congr 1
      omega
    · rw [hsame.length_eq, List.length_set]
    · rw [length_cons] at hj
      rw [hsame.same j (by omega), List.getElem?_set_ne (by omega)]
    · have hhead : buf'[p + i]? = some c := by
        rw [hsame.same _ (.inl (by omega)), List.getElem?_set_self (by omega)]
      have hlt' : p + i < buf'.length := by
        rw [hsame.length_eq, List.length_set]
        omega
      rw [List.drop_eq_getElem_cons hlt', length_cons, List.take_succ_cons]
      rw [List.getElem?_eq_getElem hlt'] at hhead
      rw [Option.some.inj hhead]
      exact congrArg _ htake

/-- `lastChar` finds the end of the last word. -/
lemma lastChar_spec {b : List Char} {i e : Nat} (h : CStr buf (p + i) b) :
    lastChar buf p i e = e ∧ (∀ c ∈ b, isBlank c) ∨
      ∃ j ≤ b.length, lastChar buf p i e = i + j ∧ ∀ c ∈ b.drop j, isBlank c := by
  induction b generalizing i e with
  | nil =>
    refine .inl ⟨?_, nofun⟩
    rw [lastChar, dif_neg (by rw [h.charAt_nil]; simp)]
  | cons c b ih =>
    have hc : c ≠ nul := fun heq => h.noNul (heq ▸ (.head _))
    have hrest : CStr buf (p + (i + 1)) b := CStr.suffix (a := [c]) h
    rw [lastChar, dif_pos (by rw [h.charAt_head]; exact hc), h.charAt_head]
    obtain ⟨heq, hall⟩ | ⟨j, hj, heq, hall⟩ := ih hrest (e := if isBlank c then e else i + 1)
    · cases hblank : isBlank c with
      | true =>
        rw [hblank] at heq
        exact .inl ⟨heq, List.forall_mem_cons.mpr ⟨hblank, hall⟩⟩
      | false =>
        rw [hblank] at heq
        exact .inr ⟨1, by simp, heq, hall⟩
    · refine .inr ⟨j + 1, Nat.succ_le_succ hj, ?_, hall⟩
      rw [heq]
      omega

/-- `trim` changes only its string, and leaves a string with the same words. -/
lemma trimmed_spec (h : CStr buf p s) :
    ∃ s', CStr (trimmed buf p) p s' ∧ s'.length ≤ s.length ∧ tokens isBlank s' = tokens isBlank s ∧
      SameOutside p (p + s.length + 1) buf (trimmed buf p) := by
  -- the blanks before the first word, and what follows them
  obtain ⟨a, b, rfl, ha, hb⟩ : ∃ a b, s = a ++ b ∧ (∀ c ∈ a, isBlank c) ∧
      ∀ c ∈ (b ++ [nul]).head?, isBlank c = false := by
    refine ⟨s.takeWhile isBlank, s.dropWhile isBlank, (List.takeWhile_append_dropWhile).symm,
      fun _ => List.mem_takeWhile_imp, fun c hc => ?_⟩
    cases hd : s.dropWhile isBlank with
    | nil =>
      obtain rfl : nul = c := by simpa [hd] using hc
      rfl
    | cons x t =>
      obtain rfl : x = c := by simpa [hd] using hc
      have := List.head_dropWhile_not isBlank (l := s) (by rw [hd]; exact List.cons_ne_nil x t)
      simpa [hd] using this
  have hix : skip isBlank buf p - p = a.length := by
    rw [h.skip_eq ha hb, Nat.add_sub_cancel_left]
  have hlt := h.lt_length
  rw [length_append] at hlt
  obtain ⟨buf₁, hshift, hsame₁, htake⟩ := shift_spec (p := p) (i := 0) (b := b) (by
    rw [Nat.zero_add]
    exact h.suffix)
  rw [Nat.zero_add] at hshift
  rw [Nat.add_zero] at hsame₁ htake
  -- after the first loop, the string is `b`
  have hb₁ : CStr (buf₁.set (p + b.length) nul) p b := by
    refine .of_drop (buf₁.drop (p + b.length + 1)) (fun hmem => h.noNul (List.mem_append_right _ hmem)) ?_
    have hlt₁ : b.length < (buf₁.drop p).length := by
      rw [List.length_drop, hsame₁.length_eq]
      omega
    rw [List.drop_set, if_neg (by omega), Nat.add_sub_cancel_left, List.set_eq_take_append_cons_drop,
      if_pos hlt₁, htake, List.drop_drop]
    rfl
  have hsame₂ : SameOutside p (p + (a ++ b).length + 1) buf (buf₁.set (p + b.length) nul) := by
    rw [length_append]
    exact (hsame₁.mono le_rfl (by omega)).trans (.set _ nul (by omega) (by omega))
  have htrim : trimmed buf p = (buf₁.set (p + b.length) nul).set
      (p + lastChar (buf₁.set (p + b.length) nul) p 0 0) nul := by
    rw [trimmed, hix, hshift]
  obtain ⟨e, he, hlast, hblank⟩ : ∃ e ≤ b.length,
      lastChar (buf₁.set (p + b.length) nul) p 0 0 = e ∧ ∀ c ∈ b.drop e, isBlank c := by
    obtain ⟨heq, hall⟩ | ⟨j, hj, heq, hall⟩ := lastChar_spec (i := 0) (e := 0) hb₁
    · exact ⟨0, zero_le, heq, hall⟩
    · exact ⟨j, hj, heq.trans (Nat.zero_add j), hall⟩
  have hlen : (b.take e).length = e := List.length_take_of_le he
  have hcut : CStr ((buf₁.set (p + b.length) nul).set (p + e) nul) p (b.take e) := by
    rw [← List.take_append_drop e b] at hb₁
    have := hb₁.cut
    rwa [hlen, List.take_append_drop] at this
  rw [htrim, hlast]
  refine ⟨b.take e, hcut, ?_, ?_, hsame₂.trans (.set _ nul (by omega) ?_)⟩
  · rw [hlen, length_append]
    omega
  · calc tokens isBlank (b.take e) = tokens isBlank (b.take e ++ b.drop e) :=
          (tokens_append_seps hblank _).symm
      _ = tokens isBlank (a ++ b) := by rw [List.take_append_drop, tokens_seps_append ha]
  · rw [length_append]
    omega

section

variable {cap : Nat} {m m' : Mem} {s1 : Option Nat} {acc : List Nat}

lemma parseLoop_none (h : strtok sep m s1 = (none, m')) :
    parseLoop sep cap m s1 acc = if acc.length < cap then .ok (acc, m') else .error .overflow := by
  rw [parseLoop]
  split
  next heq =>
    rw [h] at heq
    cases heq
    rfl
  next heq =>
    rw [h] at heq
    cases heq

lemma parseLoop_some (h : strtok sep m s1 = (some p, m')) :
    parseLoop sep cap m s1 acc =
      if acc.length < cap then parseLoop sep cap m' none (acc ++ [p]) else .error .overflow := by
  rw [parseLoop]
  split
  next heq =>
    rw [h] at heq
    cases heq
  next heq =>
    rw [h] at heq
    cases heq
    rfl

lemma room_succ {α : Type} {k : Nat} {x e : α} :
    (if acc.length < cap then if (acc ++ [p]).length + k < cap then x else e else e) =
      if acc.length + (k + 1) < cap then x else e := by
  rw [length_append, List.length_singleton, Nat.add_assoc, Nat.add_comm 1 k]
  split
  next => rfl
  next hlt => rw [if_neg (by omega)]

end

/-- The loop stores the tokens of its string, if there is room for them and the null pointer. -/
lemma parseLoop_spec {cap : Nat} (hsep : sep nul = false) {m : Mem} {s1 : Option Nat}
    (h : CStr m.buf (s1.getD m.save) s) (acc : List Nat) :
    ∃ ps m', Laid m'.buf (s1.getD m.save) (s1.getD m.save + s.length + 1) ps (tokens sep s) ∧
      SameOutside (s1.getD m.save) (s1.getD m.save + s.length + 1) m.buf m'.buf ∧
      parseLoop sep cap m s1 acc =
        if acc.length + (tokens sep s).length < cap then .ok (acc ++ ps, m') else .error .overflow := by
  induction hn : s.length using Nat.strongRecOn generalizing s m s1 acc with
  | ind n ih =>
    subst hn
    cases tokenView sep s with
    | none ha =>
      refine ⟨[], ⟨m.buf, s1.getD m.save + s.length⟩, ?_, .refl _ _ _, ?_⟩
      · rw [tokens_seps ha]
        exact Nat.le_succ_of_le (Nat.le_add_right _ _)
      · rw [parseLoop_none (strtok_none hsep h ha), tokens_seps ha, List.append_nil]
        rfl
    | last ha hne hw =>
      rename_i a w
      -- the next call finds the end of the string
      have hend : CStr m.buf (s1.getD m.save + a.length + w.length) [] := by
        rw [← List.append_nil w] at h
        exact h.suffix.suffix
      refine ⟨[s1.getD m.save + a.length], ⟨m.buf, s1.getD m.save + a.length + w.length⟩, ?_,
        .refl _ _ _, ?_⟩
      · rw [tokens_seps_append ha, tokens_word hne hw, length_append, ← Nat.add_assoc]
        exact ⟨Nat.le_add_right _ _, h.suffix, le_rfl⟩
      · rw [parseLoop_some (strtok_last h ha hne hw), parseLoop_none (strtok_end hsep hend),
          tokens_seps_append ha, tokens_word hne hw]
        exact room_succ (k := 0)
    | next ha hne hw hc =>
      rename_i a w r c
      have htok := strtok_next hsep h ha hne hw hc
      have hword : CStr (m.buf.set (s1.getD m.save + a.length + w.length) nul)
          (s1.getD m.save + a.length) w := h.suffix.cut
      have hlast : CStr m.buf (s1.getD m.save + a.length + w.length + 1) r :=
        CStr.suffix (a := [c]) h.suffix.suffix
      have hrest := hlast.outside (SameOutside.set _ nul le_rfl
        (Nat.lt_succ_self _)) (.inr le_rfl)
      have hlt : r.length < (a ++ (w ++ c :: r)).length := by
        simp only [length_append, length_cons]
        omega
      obtain ⟨ps, m', hlaid, hsame, heq⟩ :=
        @ih r.length hlt r ⟨_, s1.getD m.save + a.length + w.length + 1⟩ none hrest
          (acc ++ [s1.getD m.save + a.length]) rfl
      have hstart : s1.getD m.save + a.length + w.length + 1 + r.length + 1 =
          s1.getD m.save + (a ++ (w ++ c :: r)).length + 1 := by
        simp only [length_append, length_cons]
        omega
      simp only [Option.getD_none, hstart] at hlaid hsame
      rw [tokens_seps_append ha, tokens_next hne hw hc]
      refine ⟨(s1.getD m.save + a.length) :: ps, m', ⟨Nat.le_add_right _ _, ?_, hlaid⟩, ?_, ?_⟩
      · exact hword.outside hsame (.inl (by omega))
      · exact (SameOutside.set _ nul (by omega) (by omega)).trans (hsame.mono (by omega) le_rfl)
      · rw [parseLoop_some htok, heq, List.append_assoc]
        exact room_succ

/-- `get_parsed` gives the words of a string. -/
lemma getParsed_spec (bsize : Nat) {m : Mem} (h : CStr m.buf p s) :
    ∃ command m', command.map (cstr m'.buf) = tokens isBlank s ∧
      SameOutside p (p + s.length + 1) m.buf m'.buf ∧
      getParsed bsize m p =
        if (tokens isBlank s).length < bsize then .ok (command, m') else .error .overflow := by
  obtain ⟨ps, m', hlaid, hsame, heq⟩ :=
    @parseLoop_spec s isBlank bsize (by decide) m (some p) h []
  refine ⟨ps, m', hlaid.map_cstr, hsame, ?_⟩
  rw [getParsed, heq, List.length_nil, Nat.zero_add, List.nil_append]

/-- The strings that `trim` is called on stay where they are, with their words. -/
lemma trimAll_spec {lo hi : Nat} {ps : List Nat} {fs : List (List Char)} (h : Laid buf lo hi ps fs) :
    if ∀ f ∈ fs, f.length ≤ intMax then
      ∃ buf' fs', ps.foldlM trim buf = .ok buf' ∧ Laid buf' lo hi ps fs' ∧
        fs'.map (tokens isBlank) = fs.map (tokens isBlank) ∧ SameOutside lo hi buf buf'
    else ps.foldlM trim buf = .error .outOfBounds := by
  induction fs generalizing buf lo ps with
  | nil =>
    obtain _ | ⟨p, ps⟩ := ps
    · rw [if_pos nofun]
      exact ⟨buf, [], rfl, h, rfl, .refl _ _ _⟩
    · exact h.elim
  | cons f fs ih =>
    obtain _ | ⟨p, ps⟩ := ps
    · exact h.elim
    obtain ⟨hlo, hf, hrest⟩ := h
    obtain ⟨f', hf', hlen, hwords, hsame⟩ := trimmed_spec hf
    have hrest' := ih (hrest.frame fun i hi _ => hsame.same i (.inr hi))
    have hcons : ∀ buf', trim buf p = .ok buf' → (p :: ps).foldlM trim buf = ps.foldlM trim buf' :=
      fun buf' heq => by rw [List.foldlM_cons, heq]; rfl
    simp only [List.forall_mem_cons]
    by_cases hint : f.length ≤ intMax
    · rw [hcons (trimmed buf p) (by rw [trim, hf.cstr_eq, if_pos hint])]
      simp only [hint, true_and]
      split at hrest'
      next hall =>
        obtain ⟨buf', fs', hfold, hlaid, hmap, hsame'⟩ := hrest'
        rw [if_pos hall]
        refine ⟨buf', f' :: fs', hfold, ⟨hlo, hf'.outside hsame' (.inl (by omega)),
          hlaid.mono_left (by omega)⟩, ?_, ?_⟩
        · rw [List.map_cons, List.map_cons, hwords, hmap]
        · exact (hsame.mono hlo hrest.le).trans (hsame'.mono (by omega) le_rfl)
      next hall =>
        rw [if_neg hall]
        exact hrest'
    · rw [if_neg (fun hall => hint hall.1), List.foldlM_cons, trim, hf.cstr_eq, if_neg hint]
      rfl

/-- `get_parsed2` gives the fields between the semicolons that are not empty, trimmed. -/
lemma getParsed2_spec (bsize : Nat) {m : Mem} (h : CStr m.buf p s) :
    if (tokens isSemi s).length < bsize ∧ ∀ f ∈ tokens isSemi s, f.length ≤ intMax then
      ∃ command m' fs, getParsed2 bsize m p = .ok (command, m') ∧
        Laid m'.buf p (p + s.length + 1) command fs ∧
        fs.map (tokens isBlank) = (tokens isSemi s).map (tokens isBlank)
    else getParsed2 bsize m p =
      .error (if (tokens isSemi s).length < bsize then .outOfBounds else .overflow) := by
  obtain ⟨ps, m', hlaid, hsame, heq⟩ := @parseLoop_spec s isSemi bsize (by decide) m (some p) h []
  rw [List.length_nil, Nat.zero_add, List.nil_append] at heq
  have htrim := trimAll_spec hlaid
  by_cases hroom : (tokens isSemi s).length < bsize
  · rw [if_pos hroom] at heq
    simp only [hroom, true_and]
    split at htrim
    next hall =>
      obtain ⟨buf', fs', hfold, hlaid', hmap, -⟩ := htrim
      rw [if_pos hall]
      refine ⟨ps, { m' with buf := buf' }, fs', ?_, hlaid', hmap⟩
      simp only [getParsed2, heq, bind, Except.bind, hfold]
      rfl
    next hall =>
      simp only [if_neg hall, getParsed2, heq, bind, Except.bind, htrim, if_true]
  · rw [if_neg hroom] at heq
    simp only [hroom, false_and, if_false, getParsed2, heq, bind, Except.bind]

end Xv6.ProjShell
