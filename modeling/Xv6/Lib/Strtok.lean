import Mathlib

/-!
# C strings in a buffer, and `strtok`

A buffer is a list of characters, and a pointer into it an index. `CStr buf p s` says that the string at
`p`, up to the first null character, is `s`. A program that works on a part of the buffer leaves the rest
alone (`SameOutside`), and with it the strings that lie there.

`strtok` is that of the C standard: it skips separators, ends the token that it finds with a null character
and remembers where to go on. The tokens of a string are its maximal runs of characters that are not
separators (`tokens`).
-/

namespace Lib

open List (append_assoc append_nil length_append mem_append_right mem_cons_self)

/-- The null character. -/
def nul : Char := '\x00'

def charAt (buf : List Char) (i : Nat) : Char := buf.getD i nul

/-- The string at `p` is `s`. -/
structure CStr (buf : List Char) (p : Nat) (s : List Char) : Prop where
  noNul : nul ∉ s
  chars : (buf.drop p).take (s.length + 1) = s ++ [nul]

/-- What is read at `p`, up to a null character. -/
def cstr (buf : List Char) (p : Nat) : List Char := (buf.drop p).takeWhile (· ≠ nul)

/-- The buffers are equal but for the part from `lo` up to `hi`. -/
structure SameOutside (lo hi : Nat) (buf buf' : List Char) : Prop where
  length_eq : buf'.length = buf.length
  same : ∀ i, i < lo ∨ hi ≤ i → buf'[i]? = buf[i]?

/-- The first index from `p` on at which the character is not one of `P`. -/
def skip (P : Char → Bool) (buf : List Char) (p : Nat) : Nat := p + ((buf.drop p).takeWhile P).length

/-- A buffer, and the pointer that `strtok` remembers. -/
structure Mem where
  buf : List Char
  save : Nat

/-- `strtok(s1, …)`, where `none` is a null pointer. -/
def strtok (sep : Char → Bool) (m : Mem) (s1 : Option Nat) : Option Nat × Mem :=
  let p := skip sep m.buf (s1.getD m.save)
  if charAt m.buf p = nul then (none, { m with save := p })
  else
    let e := skip (fun c => c ≠ nul && !sep c) m.buf p
    if charAt m.buf e = nul then (some p, { m with save := e })
    else (some p, ⟨m.buf.set e nul, e + 1⟩)

/-- The maximal runs of characters that are not separators. -/
def tokens (sep : Char → Bool) (s : List Char) : List (List Char) := (s.splitOnP sep).filter (· ≠ [])

/-- The strings `ws` lie one after the other from `lo` up to `hi`, at the pointers `ps`. -/
def Laid (buf : List Char) : (lo hi : Nat) → List Nat → List (List Char) → Prop
  | lo, hi, [], [] => lo ≤ hi
  | lo, hi, p :: ps, w :: ws => lo ≤ p ∧ CStr buf p w ∧ Laid buf (p + w.length + 1) hi ps ws
  | _, _, _, _ => False

variable {buf buf' buf'' : List Char} {p lo hi : Nat} {s a b w r : List Char} {c : Char}
  {P sep : Char → Bool}

/-! ### Strings -/

namespace CStr

lemma drop_eq (h : CStr buf p s) : ∃ rest, buf.drop p = s ++ nul :: rest := by
  refine ⟨(buf.drop p).drop (s.length + 1), ?_⟩
  calc buf.drop p = (buf.drop p).take (s.length + 1) ++ (buf.drop p).drop (s.length + 1) :=
        (List.take_append_drop _ _).symm
    _ = s ++ nul :: (buf.drop p).drop (s.length + 1) := by rw [h.chars, append_assoc]; rfl

lemma of_drop (rest : List Char) (hs : nul ∉ s) (h : buf.drop p = s ++ nul :: rest) : CStr buf p s := by
  refine ⟨hs, ?_⟩
  rw [h, show s ++ nul :: rest = (s ++ [nul]) ++ rest by simp]
  exact List.take_left' (by simp)

lemma cstr_eq (h : CStr buf p s) : cstr buf p = s := by
  obtain ⟨rest, hrest⟩ := h.drop_eq
  have hall : ∀ c ∈ s, decide (c ≠ nul) := fun c hc =>
    decide_eq_true fun heq => h.noNul (heq ▸ hc)
  rw [cstr, hrest, List.takeWhile_append_of_pos hall]
  simp

lemma lt_length (h : CStr buf p s) : p + s.length < buf.length := by
  obtain ⟨rest, hrest⟩ := h.drop_eq
  have := congrArg List.length hrest
  rw [List.length_drop, length_append, List.length_cons] at this
  omega

lemma nul_mem (h : CStr buf p s) : nul ∈ buf := by
  obtain ⟨rest, hrest⟩ := h.drop_eq
  refine List.mem_of_mem_drop (i := p) ?_
  rw [hrest]
  exact mem_append_right s mem_cons_self

/-- A string ends at its first null character. -/
lemma of_takeWhile (s : List Char) : CStr (s ++ [nul]) 0 (s.takeWhile (· ≠ nul)) := by
  have hs : nul ∉ s.takeWhile (· ≠ nul) := fun hmem => by simpa using List.mem_takeWhile_imp hmem
  have hsplit : s.takeWhile (· ≠ nul) ++ (s.dropWhile (· ≠ nul) ++ [nul]) = s ++ [nul] := by
    rw [← append_assoc, List.takeWhile_append_dropWhile]
  cases hd : s.dropWhile (· ≠ nul) with
  | nil =>
    rw [hd] at hsplit
    exact of_drop [] hs hsplit.symm
  | cons c t =>
    have hc := List.head?_dropWhile_not (· ≠ nul) s
    rw [hd] at hsplit hc
    obtain rfl : c = nul := by simpa using hc
    exact of_drop (t ++ [nul]) hs hsplit.symm

/-- The string from a later pointer. -/
lemma suffix (h : CStr buf p (a ++ b)) : CStr buf (p + a.length) b := by
  obtain ⟨rest, hrest⟩ := h.drop_eq
  refine of_drop rest (fun hb => h.noNul (mem_append_right a hb)) ?_
  rw [← List.drop_drop, hrest, append_assoc, List.drop_left]

lemma charAt_head (h : CStr buf p (c :: s)) : charAt buf p = c := by
  obtain ⟨rest, hrest⟩ := h.drop_eq
  have hget : buf[p]? = some c := by
    rw [← Nat.add_zero p, ← List.getElem?_drop, hrest]
    rfl
  rw [charAt, List.getD_eq_getElem?_getD, hget]
  rfl

lemma charAt_nil (h : CStr buf p []) : charAt buf p = nul := by
  obtain ⟨rest, hrest⟩ := h.drop_eq
  have hget : buf[p]? = some nul := by
    rw [← Nat.add_zero p, ← List.getElem?_drop, hrest]
    rfl
  rw [charAt, List.getD_eq_getElem?_getD, hget]
  rfl

/-- A string is where the buffer has not changed. -/
lemma frame (h : CStr buf p s) (hsame : ∀ i, p ≤ i → i ≤ p + s.length → buf'[i]? = buf[i]?) : CStr buf' p s := by
  refine ⟨h.noNul, ?_⟩
  rw [← h.chars]
  refine List.ext_getElem? fun i => ?_
  rw [List.getElem?_take, List.getElem?_take, List.getElem?_drop, List.getElem?_drop]
  split
  · exact hsame _ (by omega) (by omega)
  · rfl

lemma outside (h : CStr buf p s) (hsame : SameOutside lo hi buf buf')
    (hout : p + s.length < lo ∨ hi ≤ p) : CStr buf' p s :=
  h.frame fun i hlo hhi => hsame.same i (by omega)

/-- A string is cut. -/
lemma cut (h : CStr buf p (w ++ r)) : CStr (buf.set (p + w.length) nul) p w := by
  obtain ⟨rest, hrest⟩ := h.drop_eq
  obtain ⟨x, xs, hxs⟩ : ∃ x xs, r ++ nul :: rest = x :: xs := List.exists_cons_of_ne_nil (by simp)
  refine of_drop xs (fun hw => h.noNul (List.mem_append_left _ hw)) ?_
  rw [List.drop_set, if_neg (by omega), Nat.add_sub_cancel_left, hrest, append_assoc, hxs,
    List.set_append_right _ _ le_rfl, Nat.sub_self]
  rfl

end CStr

/-! ### Changes in a part of the buffer -/

namespace SameOutside

lemma refl (lo hi : Nat) (buf : List Char) : SameOutside lo hi buf buf := ⟨rfl, fun _ _ => rfl⟩

lemma trans (h : SameOutside lo hi buf buf') (h' : SameOutside lo hi buf' buf'') :
    SameOutside lo hi buf buf'' :=
  ⟨h'.length_eq.trans h.length_eq, fun i hi => (h'.same i hi).trans (h.same i hi)⟩

lemma mono {lo' hi' : Nat} (h : SameOutside lo hi buf buf') (hlo : lo' ≤ lo) (hhi : hi ≤ hi') :
    SameOutside lo' hi' buf buf' := ⟨h.length_eq, fun i hi => h.same i (by omega)⟩

lemma set (i : Nat) (c : Char) (hlo : lo ≤ i) (hhi : i < hi) : SameOutside lo hi buf (buf.set i c) :=
  ⟨List.length_set, fun j hj => List.getElem?_set_ne (by omega)⟩

end SameOutside

/-! ### Strings that lie in order -/

namespace Laid

variable {ws : List (List Char)}

lemma le {ps : List Nat} (h : Laid buf lo hi ps ws) : lo ≤ hi := by
  induction ps generalizing lo ws with
  | nil =>
    cases ws with
    | nil => exact h
    | cons w ws => exact h.elim
  | cons p ps ih =>
    cases ws with
    | nil => exact h.elim
    | cons w ws =>
      have := ih h.2.2
      have := h.1
      omega

lemma mono_left {lo' : Nat} {ps : List Nat} (h : Laid buf lo hi ps ws)
    (hle : lo' ≤ lo) : Laid buf lo' hi ps ws := by
  cases ps with
  | nil =>
    cases ws with
    | nil => exact hle.trans h
    | cons w ws => exact h.elim
  | cons p ps =>
    cases ws with
    | nil => exact h.elim
    | cons w ws => exact ⟨hle.trans h.1, h.2⟩

lemma frame {ps : List Nat} (h : Laid buf lo hi ps ws)
    (hsame : ∀ i, lo ≤ i → i < hi → buf'[i]? = buf[i]?) : Laid buf' lo hi ps ws := by
  induction ps generalizing lo ws with
  | nil =>
    cases ws with
    | nil => exact h
    | cons w ws => exact h.elim
  | cons p ps ih =>
    cases ws with
    | nil => exact h.elim
    | cons w ws =>
      obtain ⟨hlo, hstr, hrest⟩ := h
      have hle := hrest.le
      exact ⟨hlo, hstr.frame fun i hi₁ hi₂ => hsame i (by omega) (by omega),
        ih hrest fun i hi₁ hi₂ => hsame i (by omega) hi₂⟩

/-- What is read at the pointers. -/
lemma map_cstr {ps : List Nat} (h : Laid buf lo hi ps ws) : ps.map (cstr buf) = ws := by
  induction ps generalizing lo ws with
  | nil =>
    cases ws with
    | nil => rfl
    | cons w ws => exact h.elim
  | cons p ps ih =>
    cases ws with
    | nil => exact h.elim
    | cons w ws => rw [List.map_cons, h.2.1.cstr_eq, ih h.2.2]

end Laid

/-! ### Tokens -/

/-- How a string begins, for `strtok`. -/
inductive TokenView (sep : Char → Bool) : List Char → Prop
  | none {a : List Char} (ha : ∀ c ∈ a, sep c = true) : TokenView sep a
  | last {a w : List Char} (ha : ∀ c ∈ a, sep c = true) (hne : w ≠ [])
      (hw : ∀ c ∈ w, sep c = false) : TokenView sep (a ++ w)
  | next {a w r : List Char} {c : Char} (ha : ∀ c ∈ a, sep c = true) (hne : w ≠ [])
      (hw : ∀ c ∈ w, sep c = false) (hc : sep c = true) : TokenView sep (a ++ (w ++ c :: r))

lemma tokenView (sep : Char → Bool) (s : List Char) : TokenView sep s := by
  have ha : ∀ c ∈ s.takeWhile sep, sep c := fun _ => List.mem_takeWhile_imp
  rw [← List.takeWhile_append_dropWhile (p := sep) (l := s)]
  cases hs : s.dropWhile sep with
  | nil =>
    rw [append_nil]
    exact .none ha
  | cons x t =>
    have hx : sep x = false := by
      have := List.head_dropWhile_not sep (l := s) (by rw [hs]; exact List.cons_ne_nil x t)
      simpa [hs] using this
    have hw : ∀ c ∈ (x :: t).takeWhile (!sep ·), sep c = false := fun c hc => by
      simpa using List.mem_takeWhile_imp hc
    have hne : (x :: t).takeWhile (!sep ·) ≠ [] := by simp [hx]
    rw [← List.takeWhile_append_dropWhile (p := (!sep ·)) (l := x :: t)]
    cases hr : (x :: t).dropWhile (!sep ·) with
    | nil =>
      rw [append_nil]
      exact .last ha hne hw
    | cons c r =>
      have hc : sep c := by
        have := List.head_dropWhile_not (!sep ·) (l := x :: t) (by rw [hr]; exact List.cons_ne_nil c r)
        simpa [hr] using this
      exact .next ha hne hw hc

lemma tokens_seps_append (ha : ∀ c ∈ a, sep c) (s : List Char) : tokens sep (a ++ s) = tokens sep s := by
  induction a with
  | nil => rfl
  | cons c a ih =>
    rw [List.cons_append, tokens, List.splitOnP_cons_eq_if_modifyHead,
      if_pos (ha c mem_cons_self)]
    exact ih fun c hc => ha c (.tail _ hc)

lemma tokens_seps (ha : ∀ c ∈ a, sep c) : tokens sep a = [] := by
  rw [← append_nil a, tokens_seps_append ha]
  simp [tokens]

lemma tokens_word (hne : w ≠ []) (hw : ∀ c ∈ w, sep c = false) : tokens sep w = [w] := by
  rw [tokens, List.splitOnP_eq_singleton hw]
  simp [hne]

lemma tokens_next (hne : w ≠ []) (hw : ∀ c ∈ w, sep c = false) (hc : sep c) (r : List Char) :
    tokens sep (w ++ c :: r) = w :: tokens sep r := by
  rw [tokens, List.splitOnP_append_cons_of_forall_mem hw c hc]
  simp [hne, tokens]

lemma tokens_eq_nil : tokens sep s = [] ↔ ∀ c ∈ s, sep c := by
  refine ⟨fun h => ?_, tokens_seps⟩
  cases tokenView sep s with
  | none ha => exact ha
  | last ha hne hw =>
    rw [tokens_seps_append ha, tokens_word hne hw] at h
    cases h
  | next ha hne hw hc =>
    rw [tokens_seps_append ha, tokens_next hne hw hc] at h
    cases h

lemma tokens_append_seps (hb : ∀ c ∈ b, sep c) (s : List Char) : tokens sep (s ++ b) = tokens sep s := by
  cases b with
  | nil => rw [append_nil]
  | cons c b =>
    have hrest : tokens sep b = [] := tokens_seps fun c hc => hb c (.tail _ hc)
    rw [tokens, List.splitOnP_append_cons s b (hb c mem_cons_self), List.filter_append]
    exact (congrArg _ hrest).trans (append_nil _)

/-- The tokens and the separators between them fit into the string. -/
lemma tokens_length (sep : Char → Bool) (s : List Char) : 2 * (tokens sep s).length ≤ s.length + 1 := by
  induction hn : s.length using Nat.strongRecOn generalizing s with
  | ind n ih =>
    cases tokenView sep s with
    | none ha =>
      rw [tokens_seps ha]
      exact zero_le
    | last ha hne hw =>
      rw [tokens_seps_append ha, tokens_word hne hw]
      have := List.length_pos_iff.mpr hne
      rw [length_append] at hn
      simp only [List.length_singleton]
      omega
    | next ha hne hw hc =>
      rename_i a w r c
      rw [tokens_seps_append ha, tokens_next hne hw hc]
      have := List.length_pos_iff.mpr hne
      simp only [length_append, List.length_cons] at hn ⊢
      have := ih r.length (by omega) r rfl
      omega

lemma mem_tokens (h : w ∈ tokens sep s) : w ≠ [] ∧ w.length ≤ s.length ∧ ∀ c ∈ w, c ∈ s := by
  induction hn : s.length using Nat.strongRecOn generalizing s with
  | ind n ih =>
    cases tokenView sep s with
    | none ha =>
      rw [tokens_seps ha] at h
      cases h
    | last ha hne hw =>
      rw [tokens_seps_append ha, tokens_word hne hw, List.mem_singleton] at h
      rw [length_append] at hn
      rw [h]
      exact ⟨hne, by omega, fun c hc => mem_append_right _ hc⟩
    | next ha hne hw hc =>
      rename_i a w' r c
      rw [tokens_seps_append ha, tokens_next hne hw hc] at h
      simp only [length_append, List.length_cons] at hn
      obtain rfl | h := List.mem_cons.mp h
      · exact ⟨hne, by omega, fun c hc => mem_append_right _ (List.mem_append_left _ hc)⟩
      · obtain ⟨hne', hlen, hmem⟩ := ih r.length (by omega) h rfl
        refine ⟨hne', by omega, fun c hc => ?_⟩
        exact mem_append_right _ (mem_append_right _ (.tail _ (hmem c hc)))

/-! ### `strtok` -/

/-- Over the first part of a string. -/
lemma CStr.skip_eq (h : CStr buf p (a ++ b)) (ha : ∀ c ∈ a, P c)
    (hb : ∀ c ∈ (b ++ [nul]).head?, P c = false) : skip P buf p = p + a.length := by
  obtain ⟨rest, hrest⟩ := h.drop_eq
  have hstop : (b ++ nul :: rest).takeWhile P = [] := by
    cases b with
    | nil => simp [hb nul rfl]
    | cons c b => simp [hb c rfl]
  rw [skip, hrest, append_assoc, List.takeWhile_append_of_pos ha, hstop, append_nil]

section

variable {m : Mem} {s1 : Option Nat}

lemma strtok_none (hsep : sep nul = false) (h : CStr m.buf (s1.getD m.save) a) (ha : ∀ c ∈ a, sep c) :
    strtok sep m s1 = (none, { m with save := s1.getD m.save + a.length }) := by
  rw [← append_nil a] at h
  have hskip : skip sep m.buf (s1.getD m.save) = s1.getD m.save + a.length :=
    h.skip_eq ha (by simp [hsep])
  simp only [strtok, hskip, h.suffix.charAt_nil, if_true]

/-- The end of the string is found again by a later call. -/
lemma strtok_end (hsep : sep nul = false) (h : CStr buf p []) : strtok sep ⟨buf, p⟩ none = (none, ⟨buf, p⟩) :=
  @strtok_none [] sep ⟨buf, p⟩ none hsep h (fun _ hc => absurd hc List.not_mem_nil)

/-- The separators before a token are skipped, and it ends before the next one. -/
lemma strtok_token (h : CStr m.buf (s1.getD m.save) (a ++ (w ++ r))) (ha : ∀ c ∈ a, sep c)
    (hne : w ≠ []) (hw : ∀ c ∈ w, sep c = false) (hr : ∀ c ∈ r.head?, sep c) :
    strtok sep m s1 =
      if charAt m.buf (s1.getD m.save + a.length + w.length) = nul then
        (some (s1.getD m.save + a.length), { m with save := s1.getD m.save + a.length + w.length })
      else (some (s1.getD m.save + a.length), ⟨m.buf.set (s1.getD m.save + a.length + w.length) nul,
        s1.getD m.save + a.length + w.length + 1⟩) := by
  have hnul : ∀ c ∈ w, c ≠ nul := fun c hc heq =>
    h.noNul (mem_append_right _ (List.mem_append_left _ (heq ▸ hc)))
  have hskip : skip sep m.buf (s1.getD m.save) = s1.getD m.save + a.length := by
    refine h.skip_eq ha fun c hc => ?_
    cases w with
    | nil => exact absurd rfl hne
    | cons x w =>
      obtain rfl : x = c := by simpa using hc
      exact hw x mem_cons_self
  have hend : skip (fun c => c ≠ nul && !sep c) m.buf (s1.getD m.save + a.length) =
      s1.getD m.save + a.length + w.length := by
    refine h.suffix.skip_eq (fun c hc => by simp [hnul c hc, hw c hc]) fun c hc => ?_
    cases r with
    | nil =>
      obtain rfl : nul = c := by simpa using hc
      simp
    | cons x r =>
      obtain rfl : x = c := by simpa using hc
      simp [hr x rfl]
  have hstart : charAt m.buf (s1.getD m.save + a.length) ≠ nul := by
    cases w with
    | nil => exact absurd rfl hne
    | cons x w =>
      rw [CStr.charAt_head (c := x) (s := w ++ r) h.suffix]
      exact hnul x mem_cons_self
  simp only [strtok, hskip, hend, if_neg hstart]

lemma strtok_last (h : CStr m.buf (s1.getD m.save) (a ++ w)) (ha : ∀ c ∈ a, sep c)
    (hne : w ≠ []) (hw : ∀ c ∈ w, sep c = false) :
    strtok sep m s1 =
      (some (s1.getD m.save + a.length), { m with save := s1.getD m.save + a.length + w.length }) := by
  rw [← append_nil w] at h
  rw [strtok_token h ha hne hw (by simp), if_pos h.suffix.suffix.charAt_nil]

lemma strtok_next (hsep : sep nul = false) (h : CStr m.buf (s1.getD m.save) (a ++ (w ++ c :: r)))
    (ha : ∀ c ∈ a, sep c) (hne : w ≠ []) (hw : ∀ c ∈ w, sep c = false) (hc : sep c) :
    strtok sep m s1 = (some (s1.getD m.save + a.length),
      ⟨m.buf.set (s1.getD m.save + a.length + w.length) nul,
        s1.getD m.save + a.length + w.length + 1⟩) := by
  have hnul : c ≠ nul := fun heq => by
    rw [heq, hsep] at hc
    cases hc
  rw [strtok_token h ha hne hw (by simpa using hc), h.suffix.suffix.charAt_head, if_neg hnul]

end

/-- A token is never empty, so that `strtok` goes on further along. -/
lemma strtok_progress {m m' : Mem} {s1 : Option Nat} (h : strtok sep m s1 = (some p, m')) :
    m'.buf.length = m.buf.length ∧ s1.getD m.save < m'.save ∧ s1.getD m.save < m.buf.length := by
  have hle : ∀ (P : Char → Bool) q, q ≤ skip P m.buf q := fun P q => Nat.le_add_right _ _
  unfold strtok at h
  simp only at h
  split at h
  next => cases h
  next hstart =>
    have hlt : skip sep m.buf (s1.getD m.save) < m.buf.length := by
      refine not_le.mp fun hge => hstart ?_
      rw [charAt, List.getD_eq_getElem?_getD, List.getElem?_eq_none hge]
      rfl
    have hfirst := hle sep (s1.getD m.save)
    have hend := hle (fun c => c ≠ nul && !sep c) (skip sep m.buf (s1.getD m.save))
    split at h
    next hnul =>
      cases h
      -- the token has a first character, so that it does not end where it starts
      have hne : skip (fun c => c ≠ nul && !sep c) m.buf (skip sep m.buf (s1.getD m.save)) ≠
          skip sep m.buf (s1.getD m.save) := fun heq => hstart (heq ▸ hnul)
      exact ⟨rfl, by simp only; omega, by omega⟩
    next =>
      cases h
      exact ⟨List.length_set, by simp only; omega, by omega⟩

end Lib
