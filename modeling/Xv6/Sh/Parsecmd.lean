import Xv6.Sh.Grammar

/-!
# `parsecmd`

The parser leaves its words in the line, from `q` up to `eq`. When the line has been parsed, `nulterminate`
writes a NUL at the end of each word. The end of a word is at a white space or a symbol or at the end of
the line, and so not in another word: every word of the tree can then be read as a string.
-/

namespace Xv6.Sh

open List (length_append mem_append mem_cons suffix_cons)
open Lib

/-! ### The words of a tree -/

/-- The words of a command, those it is run with and the files. -/
def Cmd.words : Cmd → List Word
  | .exec argv => argv
  | .redir cmd file _ _ => cmd.words ++ [file]
  | .pipe left right => left.words ++ right.words
  | .list left right => left.words ++ right.words
  | .back cmd => cmd.words

lemma Cmd.words_wrap (cmd : Cmd) (rs : List Redir) : (cmd.wrap rs).words = cmd.words ++ rs.map Redir.file := by
  induction rs generalizing cmd with
  | nil => simp [Cmd.wrap]
  | cons r rs ih =>
    show (Cmd.wrap (.redir cmd r.file r.mode r.fd) rs).words = _
    rw [ih]
    simp [Cmd.words]

lemma Cmd.words_backs (k : Nat) (cmd : Cmd) : (cmd.backs k).words = cmd.words := by
  induction k generalizing cmd with
  | zero => rfl
  | succ k ih => exact ih (.back cmd)

variable {ts : List Token} {rs : List Redir}

lemma Redirs.word_mem (h : Redirs ts rs) : ∀ w ∈ rs.map Redir.file, .word w ∈ ts := by
  induction h with
  | nil => simp
  | @cons t w r ts rs hr _ ih =>
    have hfile : r.file = w := by
      cases t with
      | lt | gt | append =>
        cases hr
        rfl
      | _ => cases hr
    intro v hv
    obtain hv | hv := List.mem_cons.mp hv
    · simp [hv, hfile]
    · simp [ih v hv]

lemma Args.word_mem {us : List Token} {ws : List Word} (h : Args us ws rs) :
    ∀ w ∈ ws ++ rs.map Redir.file, .word w ∈ us := by
  induction h with
  | nil => simp
  | @cons w ts rs us ws rs' hredirs _ ih =>
    intro v hv
    have := hredirs.word_mem v
    have := ih v
    simp only [List.map_append, mem_append, mem_cons, List.cons_append] at *
    grind

variable {c : Cmd}

lemma Derives.word_mem {nt : NonTerminal} (h : Derives nt ts c) : ∀ w ∈ c.words, .word w ∈ ts := by
  induction h with
  | line k _ ih =>
    intro w hw
    rw [Cmd.words_backs] at hw
    exact List.mem_append_left _ (ih w hw)
  | list k _ _ ih ih' =>
    intro w hw
    simp only [Cmd.words, Cmd.words_backs, mem_append] at hw
    simp only [mem_append, mem_cons]
    exact hw.imp (fun hw => .inl (ih w hw)) fun hw => .inr (ih' w hw)
  | one _ ih => exact ih
  | pipe _ _ ih ih' =>
    intro w hw
    simp only [Cmd.words, mem_append] at hw
    simp only [mem_append, mem_cons]
    exact hw.imp (ih w) fun hw => .inr (ih' w hw)
  | block _ hredirs ih =>
    intro w hw
    rw [Cmd.words_wrap, mem_append] at hw
    simp only [List.cons_append, mem_cons, mem_append]
    exact .inr (hw.imp (ih w) fun hw => .inr (hredirs.word_mem w hw))
  | exec hredirs hargs _ =>
    intro w hw
    have := hredirs.word_mem w
    have := hargs.word_mem w
    simp only [Cmd.words_wrap, Cmd.words, List.map_append, mem_append] at *
    grind

/-! ### Where words are -/

/-- The word is in the line, and ends where it can go no further. -/
structure Word.Marks (w : Word) (line : List Char) : Prop where
  suffix : w.q <:+ line
  split : w.q = w.text ++ w.eq
  chars : ∀ c ∈ w.text, isWordChar c = true
  ends : ∀ c ∈ w.eq.head?, isWordChar c = false

variable {w : Word}

lemma Word.Marks.mono {line line' : List Char} (h : w.Marks line) (hle : line <:+ line') : w.Marks line' :=
  ⟨h.suffix.trans hle, h.split, h.chars, h.ends⟩

lemma marks_dropWhile (q : List Char) : Word.Marks ⟨q, q.dropWhile isWordChar⟩ q := by
  have hsplit : q = q.takeWhile isWordChar ++ q.dropWhile isWordChar := by simp
  have htext : Word.text ⟨q, q.dropWhile isWordChar⟩ = q.takeWhile isWordChar := by
    have hlen := congrArg List.length hsplit
    rw [length_append] at hlen
    have : q.length - (q.dropWhile isWordChar).length = (q.takeWhile isWordChar).length := by omega
    show q.take (q.length - (q.dropWhile isWordChar).length) = _
    rw [this]
    exact (List.prefix_iff_eq_take.mp (List.takeWhile_prefix isWordChar)).symm
  refine ⟨List.suffix_refl q, ?_, ?_, ?_⟩
  · rw [htext]
    exact hsplit
  · rw [htext]
    intro c hc
    exact List.mem_takeWhile_imp hc
  · intro c hc
    have hhead := List.head?_dropWhile_not isWordChar q
    simp only [Option.mem_def] at hc
    rw [hc] at hhead
    exact hhead

variable {s s' : List Char}

lemma Scanned.suffix {t : Option Token} (h : Scanned s t s') : s' <:+ s := by
  cases h with
  | eof => exact List.suffix_refl _
  | append => exact (suffix_cons _ _).trans (suffix_cons _ _)
  | word c s _ => exact (List.dropWhile_suffix _).trans (suffix_cons c s)
  | _ => exact suffix_cons _ _

lemma Scanned.marks (h : Scanned s (some (.word w)) s') : w.Marks s := by
  cases h with
  | word c s hc =>
    have := marks_dropWhile (c :: s)
    rwa [List.dropWhile_cons_of_pos hc] at this

lemma tokens_marks (s : List Char) : ∀ w, .word w ∈ tokens s → w.Marks s := by
  fun_induction tokens s with
  | case1 => simp
  | case2 s t s' h ih =>
    have hscan := scanned_skip s
    rw [h] at hscan
    have hskip : skip s <:+ s := List.dropWhile_suffix _
    intro w hw
    obtain hw | hw := List.mem_cons.mp hw
    · subst hw
      exact hscan.marks.mono hskip
    · exact (ih w hw).mono (hscan.suffix.trans hskip)

/-! ### The memory of the line -/

lemma nulterminate_eq (n : Nat) (cmd : Cmd) (buf : List Char) :
    nulterminate n cmd buf =
      cmd.words.foldl (fun buf w => buf.set (n - w.eq.length) '\x00') buf := by
  induction cmd generalizing buf with
  | exec argv => rfl
  | redir cmd file mode fd ih => rw [nulterminate, ih, Cmd.words, List.foldl_append]; rfl
  | pipe left right ih ih' | list left right ih ih' =>
    rw [nulterminate, ih', ih, Cmd.words, List.foldl_append]
  | back cmd ih => rw [nulterminate, ih, Cmd.words]

lemma getElem?_foldl_set (n : Nat) (ws : List Word) (buf : List Char) (i : Nat) :
    (ws.foldl (fun buf w => buf.set (n - w.eq.length) '\x00') buf)[i]? =
      if (∃ w ∈ ws, n - w.eq.length = i) ∧ i < buf.length then some '\x00' else buf[i]? := by
  induction ws generalizing buf with
  | nil => simp
  | cons w ws ih =>
    rw [List.foldl_cons, ih, List.length_set, List.getElem?_set]
    simp only [List.exists_mem_cons_iff]
    by_cases hlater : ∃ v ∈ ws, n - v.eq.length = i
    all_goals by_cases hw : n - w.eq.length = i
    all_goals by_cases hi : i < buf.length
    all_goals simp [hlater, hw, hi]

lemma takeWhile_eq_of_getElem? {l text : List Char} (htext : '\x00' ∉ text)
    (hsame : ∀ i < text.length, l[i]? = text[i]?) (hend : l[text.length]? = some '\x00') :
    l.takeWhile (· != '\x00') = text := by
  induction text generalizing l with
  | nil =>
    obtain ⟨l, rfl⟩ : ∃ m, l = '\x00' :: m := by
      cases l with
      | nil => cases hend
      | cons c l => exact ⟨l, by simp at hend; rw [hend]⟩
    rfl
  | cons c text ih =>
    rw [mem_cons, not_or] at htext
    cases l with
    | nil => simp at hend
    | cons d l =>
      have hd : d = c := by simpa using hsame 0 (by simp)
      subst hd
      rw [List.takeWhile_cons_of_pos (by simpa using Ne.symm htext.1)]
      refine congrArg _ (ih htext.2 (fun i hi => ?_) (by simpa using hend))
      simpa using hsame (i + 1) (by simpa using hi)

lemma Word.Marks.end_not_word {chars : List Char} (h : w.Marks chars) {c : Char}
    (hc : chars[chars.length - w.eq.length]? = some c) : isWordChar c = false := by
  obtain ⟨pre, hpre⟩ := h.suffix
  rw [h.split, ← List.append_assoc] at hpre
  refine h.ends c ?_
  have hend : chars.length - w.eq.length = (pre ++ w.text).length := by
    have hlen := congrArg List.length hpre
    rw [length_append] at hlen
    omega
  rw [hend, ← hpre, List.getElem?_append_right le_rfl, Nat.sub_self] at hc
  rwa [List.head?_eq_getElem?]

section Nulterminate

variable {line : CString} {cmd : Cmd}

lemma getElem?_nulterminate (hmarks : ∀ v ∈ cmd.words, v.Marks line.chars) (hmark : w.Marks line.chars)
    {i : Nat} (hi : i < w.text.length) :
    (nulterminate line.chars.length cmd (line.chars ++ ['\x00']))[line.chars.length - w.q.length + i]? =
      w.text[i]? := by
  obtain ⟨pre, hpre⟩ := hmark.suffix
  have hsplit : line.chars = pre ++ w.text ++ w.eq := by rw [← hpre, List.append_assoc, ← hmark.split]
  have hlen := congrArg List.length hsplit
  have hqlen := congrArg List.length hmark.split
  simp only [length_append] at hlen hqlen
  have hstart : line.chars.length - w.q.length = pre.length := by omega
  have hchar : line.chars[pre.length + i]? = w.text[i]? := by
    rw [hsplit, List.append_assoc, List.getElem?_append_right (by omega)]
    rw [List.getElem?_append_left (by omega)]
    congr 1
    omega
  rw [hstart, nulterminate_eq, getElem?_foldl_set, if_neg, List.getElem?_append_left (by omega), hchar]
  rintro ⟨⟨v, hv, hend⟩, -⟩
  have hword := hmark.chars _ (List.getElem_mem hi)
  rw [List.getElem?_eq_getElem hi, ← hend] at hchar
  rw [(hmarks v hv).end_not_word hchar] at hword
  cases hword

lemma stringAt_nulterminate (hmarks : ∀ v ∈ cmd.words, v.Marks line.chars) (hw : w ∈ cmd.words) :
    stringAt line.chars.length
      (nulterminate line.chars.length cmd (line.chars ++ ['\x00'])) w.q = w.text := by
  have hmark := hmarks w hw
  have hqlen := congrArg List.length hmark.split
  have hle := hmark.suffix.length_le
  rw [length_append] at hqlen
  have hnul : '\x00' ∉ w.text := fun hmem => line.noNul (hmark.suffix.subset (by rw [hmark.split]; simp [hmem]))
  rw [stringAt]
  refine takeWhile_eq_of_getElem? hnul (fun i hi => ?_) ?_
  · rw [List.getElem?_drop, getElem?_nulterminate hmarks hmark hi]
  · rw [List.getElem?_drop, nulterminate_eq, getElem?_foldl_set, if_pos]
    simp only [length_append, List.length_singleton]
    exact ⟨⟨w, hw, by omega⟩, by omega⟩

end Nulterminate

/-! ### The whole line -/

variable {n : Nat}

lemma parseall_sound (hn : 4 * (tokens s).length + 4 ≤ n) :
    wp (parseall n) s (fun c _ => Derives .line (tokens s) c) fun e _ => e ≠ .deep := by
  refine ((soundTo n).parse .line s hn).seq fun c s₁ ⟨ts, hts, hc⟩ => ?_
  simp only [peek, wp_bind, wp_get, wp_set, wp_pure, wp_ite, wp_throw]
  split
  next hnil =>
    rw [tokens_eq_nil.mpr hnil, List.append_nil] at hts
    exact hts ▸ hc
  next => exact fun h => by cases h

lemma parseall_complete (h : Derives .line (tokens s) c)
    (hn : 4 * (tokens s).length + 4 ≤ n) : wp (parseall n) s (fun d _ => d = c) fun _ _ => False := by
  have hfollow : NonTerminal.line.Follows [] := fun t ht => by cases ht
  refine (h.finds hfollow (List.append_nil _).symm hn).seq fun d s₁ ⟨hd, h₁⟩ => ?_
  simp only [peek, wp_bind, wp_get, wp_set, wp_pure, wp_ite, wp_throw]
  rw [if_pos (tokens_eq_nil.mp h₁)]
  exact hd

lemma depth_le (line : CString) : 4 * (tokens line.chars).length + 4 ≤ 4 * line.chars.length + 4 := by
  have := length_tokens_le line.chars
  omega

lemma parsecmd_returns {line : CString} {cmd : Cmd} {buf : List Char} (h : parsecmd line = .ok (cmd, buf)) :
    Derives .line (tokens line.chars) cmd ∧
      buf = nulterminate line.chars.length cmd (line.chars ++ ['\x00']) := by
  unfold parsecmd at h
  split at h
  next c s' hok =>
    cases h
    exact ⟨(parseall_sound (depth_le line)).ok hok, rfl⟩
  next => cases h

/-- **The shell parses its grammar.** `parsecmd` comes to an end on every line, and returns a tree exactly
if the tokens of the line derive from the grammar: the tree of the derivation, whose words can be read as
strings where the tree points to. Otherwise the shell panics. -/
theorem parsecmd_grammar (line : CString) :
    (∀ cmd, (∃ buf, parsecmd line = .ok (cmd, buf)) ↔ Derives .line (tokens line.chars) cmd) ∧
      (∀ cmd buf, parsecmd line = .ok (cmd, buf) →
        ∀ w ∈ cmd.words, stringAt line.chars.length buf w.q = w.text) ∧
      ((∃ cmd buf, parsecmd line = .ok (cmd, buf)) ∨ ∃ why, parsecmd line = .error (.panic why)) := by
  refine ⟨fun cmd => ⟨fun ⟨buf, hcmd⟩ => (parsecmd_returns hcmd).1, fun hcmd => ?_⟩, ?_, ?_⟩
  · obtain ⟨d, s', hok, rfl⟩ := (parseall_complete hcmd (depth_le line)).returns
    exact ⟨_, by rw [parsecmd, hok]⟩
  · intro cmd buf hcmd w hw
    obtain ⟨hderives, rfl⟩ := parsecmd_returns hcmd
    exact stringAt_nulterminate (fun v hv => tokens_marks _ v (hderives.word_mem v hv)) hw
  · cases hrun : parseall (4 * line.chars.length + 4) line.chars with
    | ok cmd s' => exact .inl ⟨cmd, _, by rw [parsecmd, hrun]⟩
    | error e s' =>
      have hdeep := (parseall_sound (depth_le line)).error hrun
      cases e with
      | panic why => exact .inr ⟨why, by rw [parsecmd, hrun]⟩
      | deep => exact absurd rfl hdeep

/-- **`nulterminate` keeps the words.** Every argument and every file of the tree is a word among the tokens
of the line and is read as its text, and in no word of the line has a character changed. -/
theorem nulterminate_keeps_words {line : CString} {cmd : Cmd} {buf : List Char}
    (h : parsecmd line = .ok (cmd, buf)) :
    (∀ w ∈ cmd.words, .word w ∈ tokens line.chars ∧ stringAt line.chars.length buf w.q = w.text) ∧
      ∀ v, .word v ∈ tokens line.chars → ∀ i < v.text.length,
        buf[line.chars.length - v.q.length + i]? = v.text[i]? := by
  obtain ⟨hderives, rfl⟩ := parsecmd_returns h
  have hmarks : ∀ v ∈ cmd.words, v.Marks line.chars := fun v hv =>
    tokens_marks _ v (hderives.word_mem v hv)
  exact ⟨fun w hw => ⟨hderives.word_mem w hw, stringAt_nulterminate hmarks hw⟩, fun v hv i hi =>
    getElem?_nulterminate hmarks (tokens_marks _ v hv) hi⟩

theorem nulterminate_keeps_redir : ∃ cmd buf, parsecmd ⟨['a', '>', 'f'], by decide⟩ = .ok (cmd, buf) ∧
    ∀ w ∈ cmd.words, .word w ∈ tokens ['a', '>', 'f'] ∧ stringAt 3 buf w.q = w.text := by
  have h : parsecmd ⟨['a', '>', 'f'], by decide⟩ = .ok (.redir (.exec [⟨['a', '>', 'f'], ['>', 'f']⟩])
    ⟨['f'], []⟩ (oWronly ||| oCreate) 1, ['a', '\x00', 'f', '\x00']) := by decide +kernel
  exact ⟨_, _, h, (nulterminate_keeps_words h).1⟩

example : parsecmd ⟨"a>f|(".toList, by decide⟩ = .error (.panic .missingParen) := by decide +kernel

end Xv6.Sh
