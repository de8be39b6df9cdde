import Mathlib

/-!
# `grep` (`grep.c`)

A pattern is read as items, each a character or a starred character, with `^` in front and `$` at the end.
`match` tries every place of the text and `matchstar` every length of a repetition; what they accept is what
the items spell (`match_correct`).

`grep` reads into a buffer of 1024 bytes, writes the lines in it that match and keeps what is behind the last
newline for the next round. But where there is no newline in the buffer it keeps nothing, so that it depends
on how `read` cuts the stream (`grep_lines_iff`).

Strings are lists of characters without the NUL.
-/

namespace Xv6.Grep

open List (append_assoc length_append nil_append not_mem_nil)

/-! ### The matcher -/

/-- `re[0] == '.' || re[0] == *text` -/
def fits (c t : Char) : Bool := c = '.' || c = t

/-- The loop of `matchstar`, where `here` is `matchhere` with the rest of the pattern. -/
def matchstar (here : List Char → Bool) (c : Char) : List Char → Bool
  | [] => here []
  | t :: text => here (t :: text) || (fits c t && matchstar here c text)

/-- The last test of `matchhere`, where `here` is the call that follows it. -/
def matchone (here : List Char → Bool) (c : Char) : List Char → Bool
  | [] => false
  | t :: text => fits c t && here text

def matchhere : List Char → List Char → Bool
  | [], _ => true
  | [c], text =>
    if c = '$' then text.isEmpty else matchone (fun _ => true) c text
  | c :: d :: re, text =>
    if d = '*' then matchstar (matchhere re) c text
    else matchone (matchhere (d :: re)) c text

/-- The loop of `match`. -/
def matchAny (re : List Char) : List Char → Bool
  | [] => matchhere re []
  | t :: text => matchhere re (t :: text) || matchAny re text

/-- `match(re, text)` -/
def matchLine (re text : List Char) : Bool :=
  if re.head? = some '^' then matchhere re.tail text else matchAny re text

/-! ### What a pattern means -/

inductive Item
  | one (c : Char)
  /-- zero or more repetitions -/
  | star (c : Char)

/-- The items of a pattern, and whether a `$` follows them. -/
def items : List Char → List Item × Bool
  | [] => ([], false)
  | [c] => if c = '$' then ([], true) else ([.one c], false)
  | c :: d :: re =>
    if d = '*' then (.star c :: (items re).1, (items re).2)
    else (.one c :: (items (d :: re)).1, (items (d :: re)).2)

/-- The strings that the items spell. -/
inductive Spells : List Item → List Char → Prop
  | nil : Spells [] []
  | one {c t : Char} {is : List Item} {w : List Char} :
      fits c t = true → Spells is w → Spells (.one c :: is) (t :: w)
  | star {c : Char} {is : List Item} {r w : List Char} :
      (∀ t ∈ r, fits c t = true) → Spells is w → Spells (.star c :: is) (r ++ w)

/-- A prefix of the text is spelled, and all of it before a `$`. -/
def MatchesHere (p : List Item × Bool) (text : List Char) : Prop :=
  ∃ w b, text = w ++ b ∧ Spells p.1 w ∧ (p.2 = true → b = [])

variable {c : Char} {re text : List Char} {is : List Item} {stop : Bool}

lemma matchstar_iff {here : List Char → Bool} : matchstar here c text ↔
    ∃ r s, text = r ++ s ∧ (∀ t ∈ r, fits c t) ∧ here s := by
  induction text with
  | nil =>
    constructor
    · intro h
      exact ⟨[], [], rfl, List.forall_mem_nil _, h⟩
    · rintro ⟨r, s, heq, -, hs⟩
      obtain ⟨-, rfl⟩ := List.append_eq_nil_iff.mp heq.symm
      exact hs
  | cons t text ih =>
    rw [matchstar, Bool.or_eq_true, Bool.and_eq_true, ih]
    constructor
    · rintro (h | ⟨ht, r, s, rfl, hr, hs⟩)
      · exact ⟨[], t :: text, rfl, List.forall_mem_nil _, h⟩
      · exact ⟨t :: r, s, rfl, List.forall_mem_cons.mpr ⟨ht, hr⟩, hs⟩
    · rintro ⟨r, s, heq, hr, hs⟩
      cases r with
      | nil => exact .inl (heq ▸ hs)
      | cons x r =>
        cases heq
        obtain ⟨ht, hr⟩ := List.forall_mem_cons.mp hr
        exact .inr ⟨ht, r, s, rfl, hr, hs⟩

lemma matchesHere_star : MatchesHere (.star c :: is, stop) text ↔
    ∃ r s, text = r ++ s ∧ (∀ t ∈ r, fits c t) ∧ MatchesHere (is, stop) s := by
  constructor
  · rintro ⟨_, b, rfl, hw, hb⟩
    cases hw with
    | star hr hw => exact ⟨_, _, append_assoc .., hr, _, b, rfl, hw, hb⟩
  · rintro ⟨r, _, rfl, hr, w, b, rfl, hw, hb⟩
    exact ⟨r ++ w, b, (append_assoc ..).symm, .star hr hw, hb⟩

lemma matchesHere_one : MatchesHere (.one c :: is, stop) text ↔
    ∃ t s, text = t :: s ∧ fits c t ∧ MatchesHere (is, stop) s := by
  constructor
  · rintro ⟨_, b, rfl, hw, hb⟩
    cases hw with
    | one ht hw => exact ⟨_, _, rfl, ht, _, b, rfl, hw, hb⟩
  · rintro ⟨t, _, rfl, ht, w, b, rfl, hw, hb⟩
    exact ⟨t :: w, b, rfl, .one ht hw, hb⟩

lemma matchesHere_nil : MatchesHere ([], stop) text ↔ (stop → text = []) := by
  constructor
  · rintro ⟨_, b, rfl, hw, hb⟩
    cases hw
    exact hb
  · intro h
    exact ⟨[], text, rfl, .nil, h⟩

lemma matchone_iff {here : List Char → Bool} : matchone here c text ↔
    ∃ t s, text = t :: s ∧ fits c t ∧ here s := by
  cases text with
  | nil | cons t text => simp [matchone]

lemma matchhere_iff : matchhere re text ↔ MatchesHere (items re) text := by
  induction re using items.induct generalizing text with
  | case1 | case2 => simp [matchhere, items, matchesHere_nil]
  | case3 c hc =>
    rw [matchhere, items, if_neg hc, if_neg hc, matchone_iff, matchesHere_one]
    simp [matchesHere_nil]
  | case4 c re ih =>
    rw [matchhere, items, if_pos rfl, if_pos rfl, matchstar_iff, matchesHere_star]
    simp only [ih]
  | case5 c d re hd ih =>
    rw [matchhere, items, if_neg hd, if_neg hd, matchone_iff, matchesHere_one]
    simp only [ih]

lemma matchAny_eq (re text : List Char) : matchAny re text = matchstar (matchhere re) '.' text := by
  induction text with
  | nil => rfl
  | cons t text ih => simp [matchAny, matchstar, fits, ih]

lemma matchAny_iff : matchAny re text ↔ ∃ a s, text = a ++ s ∧ matchhere re s := by
  simp [matchAny_eq, matchstar_iff, fits]

/-- `match` accepts a text exactly if the items of the pattern spell a part of it: one at its start after a
`^`, and one at its end before a `$`. -/
theorem match_correct (re text : List Char) : matchLine re text = true ↔
    ∃ a w b, text = a ++ w ++ b ∧ (re.head? = some '^' → a = []) ∧
      Spells (items (if re.head? = some '^' then re.tail else re)).1 w ∧
      ((items (if re.head? = some '^' then re.tail else re)).2 = true → b = []) := by
  unfold matchLine
  split
  next hstart =>
    rw [matchhere_iff]
    constructor
    · rintro ⟨w, b, rfl, hw, hb⟩
      exact ⟨[], w, b, rfl, fun _ => rfl, hw, hb⟩
    · rintro ⟨a, w, b, rfl, ha, hw, hb⟩
      rw [ha hstart]
      exact ⟨w, b, rfl, hw, hb⟩
  next hstart =>
    rw [matchAny_iff]
    simp only [matchhere_iff]
    constructor
    · rintro ⟨a, _, rfl, w, b, rfl, hw, hb⟩
      exact ⟨a, w, b, (List.append_assoc ..).symm, fun h => absurd h hstart, hw, hb⟩
    · rintro ⟨a, w, b, rfl, -, hw, hb⟩
      exact ⟨a, w ++ b, List.append_assoc .., w, b, rfl, hw, hb⟩

example : matchLine "^a*b$".toList "aab".toList = true := by decide

/-! ### Reading -/

/-- `sizeof(buf)` -/
def bufSize : Nat := 1024

/-- The loop over the lines in the buffer, where `line` is what lies between `p` and the next character. What
is written, what is behind the last newline, and whether there was one. -/
def scan (re : List Char) : (line data : List Char) → List Char × List Char × Bool
  | line, [] => ([], line, false)
  | line, c :: data =>
    if c = '\n' then
      let r := scan re [] data
      ((if matchLine re line then line ++ ['\n'] else []) ++ r.1, r.2.1, true)
    else scan re (line ++ [c]) data

/-- The loop of `grep`, with `kept` in the buffer: `read` returns the chunks, one after the other. -/
def grep (re : List Char) : (kept : List Char) → List (List Char) → List Char
  | _, [] => []
  | kept, chunk :: chunks =>
    let r := scan re [] (kept ++ chunk)
    -- `if(p == buf) m = 0;`
    r.1 ++ grep re (if r.2.2 then r.2.1 else []) chunks

/-- What `read` may return when there are `m` characters in the buffer: what is left after a chunk is what
stands behind its last newline. -/
def Fits : (m : Nat) → List (List Char) → Prop
  | _, [] => True
  | m, chunk :: chunks => chunk ≠ [] ∧ chunk.length ≤ bufSize - m - 1 ∧
      Fits (if '\n' ∈ chunk then (chunk.reverse.takeWhile (· ≠ '\n')).length else 0) chunks

/-- The lines of a stream that match. -/
def expected (re stream : List Char) : List Char :=
  ((stream.splitOnP (· = '\n')).dropLast.filter (matchLine re)).flatMap (· ++ ['\n'])

variable {line data kept : List Char} {chunks : List (List Char)}

lemma expected_line (hline : '\n' ∉ line) : expected re line = [] := by
  rw [expected, List.splitOnP_eq_singleton fun c hc => decide_eq_false (ne_of_mem_of_not_mem hc hline)]
  rfl

lemma expected_cons (hline : '\n' ∉ line) (rest : List Char) : expected re (line ++ '\n' :: rest) =
    (if matchLine re line then line ++ ['\n'] else []) ++ expected re rest := by
  have hne := List.splitOnP_ne_nil (· = '\n') rest
  rw [expected, List.splitOnP_append_cons line rest rfl,
    List.splitOnP_eq_singleton fun c hc => decide_eq_false (ne_of_mem_of_not_mem hc hline),
    List.dropLast_append_of_ne_nil hne, List.singleton_append, List.filter_cons, expected]
  split <;> rfl

/-- What is written for the buffer, and that the rest is the start of the next line. -/
lemma scan_spec (re : List Char) (hline : '\n' ∉ line) (data : List Char) :
    '\n' ∉ (scan re line data).2.1 ∧ ((scan re line data).2.2 ↔ '\n' ∈ data) ∧
      ∀ y, expected re (line ++ data ++ y) =
        (scan re line data).1 ++ expected re ((scan re line data).2.1 ++ y) := by
  induction data generalizing line with
  | nil => exact ⟨hline, by simp [scan], fun y => by simp [scan]⟩
  | cons c data ih =>
    rw [scan]
    by_cases hc : c = '\n'
    · obtain ⟨hrest, -, heq⟩ := ih not_mem_nil
      rw [if_pos hc]
      refine ⟨hrest, by simp [hc], fun y => ?_⟩
      have hy := heq y
      rw [nil_append] at hy
      rw [hc, append_assoc, List.cons_append, expected_cons hline, hy, append_assoc]
    · have hline' : '\n' ∉ line ++ [c] := by simpa [hline] using Ne.symm hc
      obtain ⟨hrest, hfound, heq⟩ := ih hline'
      rw [if_neg hc]
      refine ⟨hrest, ?_, fun y => ?_⟩
      · rw [hfound, List.mem_cons, or_iff_right (Ne.symm hc)]
      · rw [← heq y, append_assoc line [c], List.singleton_append]

lemma Fits.ne_nil {m : Nat} (h : Fits m chunks) : ∀ chunk ∈ chunks, chunk ≠ [] := by
  induction chunks generalizing m with
  | nil => exact List.forall_mem_nil _
  | cons chunk chunks ih => exact List.forall_mem_cons.mpr ⟨h.1, ih h.2.2⟩

/-- A round in which the buffer has a newline loses nothing. -/
lemma grep_found (re kept : List Char) {chunk : List Char} (h : '\n' ∈ chunk) :
    ∃ rest, '\n' ∉ rest ∧ ∃ out, grep re kept (chunk :: chunks) = out ++ grep re rest chunks ∧
      expected re (kept ++ (chunk :: chunks).flatten) = out ++ expected re (rest ++ chunks.flatten) := by
  obtain ⟨hrest, hfound, heq⟩ := scan_spec re not_mem_nil (kept ++ chunk)
  refine ⟨_, hrest, (scan re [] (kept ++ chunk)).1, ?_, ?_⟩
  · rw [grep, if_pos (hfound.mpr (List.mem_append_right kept h))]
  · rw [← heq, nil_append, append_assoc, List.flatten_cons]

/-- One without a newline loses what is in the buffer. -/
lemma grep_lost (re : List Char) (hkept : '\n' ∉ kept) {chunk : List Char} (h : '\n' ∉ chunk) :
    grep re kept (chunk :: chunks) = grep re [] chunks := by
  have hdata : '\n' ∉ kept ++ chunk := fun hmem => (List.mem_append.mp hmem).elim hkept h
  obtain ⟨-, hfound, heq⟩ := scan_spec re not_mem_nil (kept ++ chunk)
  have hout := heq []
  rw [nil_append, List.append_nil, expected_line hdata] at hout
  rw [grep, if_neg fun hf => hdata (hfound.mp hf), (List.append_eq_nil_iff.mp hout.symm).1, nil_append]

/-- What stands before a line is part of it. -/
lemma expected_length (hline : '\n' ∉ line) (h : '\n' ∈ data) :
    (expected [] (line ++ data)).length = line.length + (expected [] data).length := by
  obtain ⟨a, b, rfl, ha⟩ := List.eq_append_cons_of_mem h
  have hmatch : ∀ s, matchLine [] s := fun s => by cases s <;> rfl
  have hla : '\n' ∉ line ++ a := fun hmem => (List.mem_append.mp hmem).elim hline ha
  rw [← append_assoc, expected_cons hla, expected_cons ha, if_pos (hmatch _), if_pos (hmatch _)]
  simp only [length_append]
  omega

/-- For the empty pattern, what is lost is missing. -/
lemma grep_length (hne : ∀ chunk ∈ chunks, chunk ≠ []) (hkept : '\n' ∉ kept) :
    (grep [] kept chunks).length ≤ (expected [] (kept ++ chunks.flatten)).length ∧
      (grep [] kept chunks = expected [] (kept ++ chunks.flatten) →
        chunks.Pairwise fun a b => '\n' ∈ b → '\n' ∈ a) := by
  induction chunks generalizing kept with
  | nil => exact ⟨zero_le, fun _ => .nil⟩
  | cons chunk chunks ih =>
    obtain ⟨hchunk, hne⟩ := List.forall_mem_cons.mp hne
    rw [List.pairwise_cons]
    by_cases hnl : '\n' ∈ chunk
    · obtain ⟨rest, hrest, out, hgrep, heq⟩ := grep_found [] kept hnl
      obtain ⟨hle, hpair⟩ := ih hne hrest
      rw [hgrep, heq, length_append, length_append]
      exact ⟨Nat.add_le_add_left hle _, fun h => ⟨fun _ _ _ => hnl, hpair (List.append_cancel_left h)⟩⟩
    · obtain ⟨hle, hpair⟩ := ih hne not_mem_nil
      have hpre : '\n' ∉ kept ++ chunk := fun hmem => (List.mem_append.mp hmem).elim hkept hnl
      rw [grep_lost [] hkept hnl, List.flatten_cons, ← append_assoc]
      rw [nil_append] at hle hpair
      by_cases hlater : '\n' ∈ chunks.flatten
      · have hlen := expected_length hpre hlater
        have hpos := List.length_pos_iff.mpr hchunk
        rw [length_append] at hlen
        refine ⟨by omega, fun h => ?_⟩
        rw [h] at hle
        omega
      · rw [expected_line hlater] at hle hpair
        have hnil : grep [] [] chunks = [] := List.length_eq_zero_iff.mp (Nat.le_zero.mp hle)
        rw [hnil]
        refine ⟨zero_le, fun _ => ⟨fun b hb hb' => ?_, hpair hnil⟩⟩
        exact absurd (List.mem_flatten_of_mem hb hb') hlater

lemma grep_eq (re : List Char) (h : chunks.Pairwise fun a b => '\n' ∈ b → '\n' ∈ a) (hkept : '\n' ∉ kept) :
    grep re kept chunks = expected re (kept ++ chunks.flatten) := by
  induction chunks generalizing kept with
  | nil =>
    rw [List.flatten_nil, List.append_nil, expected_line hkept]
    rfl
  | cons chunk chunks ih =>
    obtain ⟨hfirst, h⟩ := List.pairwise_cons.mp h
    by_cases hnl : '\n' ∈ chunk
    · obtain ⟨rest, hrest, out, hgrep, heq⟩ := grep_found re kept hnl
      rw [hgrep, heq, ih h hrest]
    · have hlater : '\n' ∉ chunks.flatten := fun hmem => by
        obtain ⟨b, hb, hmem⟩ := List.mem_flatten.mp hmem
        exact hnl (hfirst b hb hmem)
      have hall : '\n' ∉ kept ++ (chunk :: chunks).flatten := by
        simpa [hkept, hnl] using hlater
      rw [grep_lost re hkept hnl, ih h not_mem_nil, nil_append, expected_line hlater,
        expected_line hall]

/-- `grep` writes the lines that match, whatever the pattern is, exactly if no chunk without a newline comes
before one with a newline. -/
theorem grep_lines_iff (h : Fits 0 chunks) :
    (∀ re, grep re [] chunks = expected re chunks.flatten) ↔
      chunks.Pairwise fun a b => '\n' ∈ b → '\n' ∈ a := by
  constructor
  · intro hall
    exact (grep_length h.ne_nil List.not_mem_nil).2 (hall [])
  · intro hpair re
    exact grep_eq re hpair List.not_mem_nil

/-- The line `ab` arrives in two pieces, and is not found. -/
theorem grep_loses_start : Fits 0 [['a'], ['b', '\n']] ∧ grep ['a'] [] [['a'], ['b', '\n']] = [] ∧
    expected ['a'] ['a', 'b', '\n'] = ['a', 'b', '\n'] :=
  ⟨⟨nofun, by decide, nofun, by decide, trivial⟩, by decide, by decide⟩

/-- The second line arrives in two pieces. -/
theorem grep_lines_oneByOne :
    grep ['a'] [] [['a', '\n', 'b'], ['a', '\n']] = expected ['a'] ['a', '\n', 'b', 'a', '\n'] :=
  have h : Fits 0 [['a', '\n', 'b'], ['a', '\n']] := ⟨nofun, by decide, nofun, by decide, trivial⟩
  (grep_lines_iff h).mpr (by decide) ['a']

end Xv6.Grep
