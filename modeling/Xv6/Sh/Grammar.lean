import Xv6.Sh.Parser

/-!
# What the shell parses

The token sequence of a line is what `gettoken` returns when it is called until it returns 0. On the side
of the grammar, a derivation gives a token sequence and its tree. The parser is connected with it through
two facts: `peek` looks at the first token and `gettoken` takes it. Everything else is about sequences of
tokens:

* what a function returns is the tree of a derivation of the tokens it has taken (by induction on the
  depth of calls), and the depth is bounded by the number of tokens;
* where the tokens begin with a derivation and go on with one that may follow it, the function takes
  exactly those (by induction on the derivation).
-/

namespace Xv6.Sh

open List (append_assoc cons_append length_append length_cons tail_cons)
open Lib

/-! ### The token sequence of a line -/

lemma skip_length_le (s : List Char) : (skip s).length ≤ s.length :=
  List.length_dropWhile_le ..

lemma skip_skip (s : List Char) : skip (skip s) = skip s :=
  List.dropWhile_idempotent ..

lemma not_whitespace_of_skip {s t : List Char} {c : Char} (h : skip s = c :: t) : c ∉ whitespace := by
  have hhead := List.head?_dropWhile_not (whitespace.contains ·) s
  unfold skip at h
  rw [h] at hhead
  simpa using hhead

/-- What `scan` finds at a character that is not white space. -/
inductive Scanned : List Char → Option Token → List Char → Prop
  | eof : Scanned [] none []
  | bar (s) : Scanned ('|' :: s) (some .bar) s
  | lparen (s) : Scanned ('(' :: s) (some .lparen) s
  | rparen (s) : Scanned (')' :: s) (some .rparen) s
  | semi (s) : Scanned (';' :: s) (some .semi) s
  | amp (s) : Scanned ('&' :: s) (some .amp) s
  | lt (s) : Scanned ('<' :: s) (some .lt) s
  | append (s) : Scanned ('>' :: '>' :: s) (some .append) s
  | gt (s) : s.head? ≠ some '>' → Scanned ('>' :: s) (some .gt) s
  | word (c s) : isWordChar c = true →
      Scanned (c :: s) (some (.word ⟨c :: s, s.dropWhile isWordChar⟩)) (s.dropWhile isWordChar)

variable {s : List Char}

lemma scanned (h : ∀ c ∈ s.head?, c ∉ whitespace) : Scanned s (scan s).1 (scan s).2 := by
  unfold scan
  split
  · exact .eof
  · exact .bar _
  · exact .lparen _
  · exact .rparen _
  · exact .semi _
  · exact .amp _
  · exact .lt _
  · exact .append _
  next s hs =>
    refine .gt s fun hhead => ?_
    obtain ⟨t, rfl⟩ := List.head?_eq_some_iff.mp hhead
    exact hs t rfl
  next c s h₁ h₂ h₃ h₄ h₅ h₆ h₇ h₈ =>
    have hword : isWordChar c := by
      have hc := h c rfl
      simp_all [isWordChar, symbols]
    simp only [List.dropWhile_cons_of_pos hword]
    exact .word c s hword

lemma scanned_skip (s : List Char) : Scanned (skip s) (scan (skip s)).1 (scan (skip s)).2 := by
  refine scanned fun c hc => ?_
  obtain ⟨t, ht⟩ := List.head?_eq_some_iff.mp hc
  exact not_whitespace_of_skip ht

variable {t : Token}

variable {s' : List Char}

lemma Scanned.length_lt {s : List Char} (h : Scanned s (some t) s') : s'.length < s.length := by
  cases h with
  | word c s _ =>
    have := List.length_dropWhile_le isWordChar s
    simp only [length_cons]
    omega
  | append s =>
    simp only [length_cons]
    omega
  | _ => simp

/-- The tokens of a line. -/
def tokens (s : List Char) : List Token :=
  match _h : scan (skip s) with
  | (none, _) => []
  | (some t, s') => t :: tokens s'
termination_by s.length
decreasing_by
  have hscan := scanned_skip s
  rw [_h] at hscan
  have : s'.length < (skip s).length := hscan.length_lt
  have := skip_length_le s
  omega

lemma tokens_skip (s : List Char) : tokens (skip s) = tokens s := by
  rw [tokens, tokens, skip_skip]

lemma Scanned.tokens_eq_nil {s : List Char} (h : Scanned (skip s) none s') : skip s = [] := by
  generalize skip s = u at h
  cases h
  rfl

lemma scan_tokens (s : List Char) :
    (scan (skip s)).1 = (tokens s).head? ∧ tokens (scan (skip s)).2 = (tokens s).tail := by
  have hscan := scanned_skip s
  rw [tokens]
  split
  next s' h =>
    rw [h] at hscan ⊢
    have hnil := hscan.tokens_eq_nil
    rw [hnil] at h
    cases h
    exact ⟨rfl, by rw [tokens]; rfl⟩
  next t s' h =>
    rw [h]
    exact ⟨rfl, rfl⟩

lemma tokens_eq_nil : tokens s = [] ↔ skip s = [] := by
  constructor
  · intro h
    have hscan := scanned_skip s
    rw [(scan_tokens s).1, h] at hscan
    exact hscan.tokens_eq_nil
  · intro h
    have hhead := (scan_tokens s).1
    rw [h] at hhead
    exact List.head?_eq_none_iff.mp hhead.symm

lemma length_tokens_le (s : List Char) : (tokens s).length ≤ s.length := by
  fun_induction tokens s with
  | case1 => simp
  | case2 s t s' h ih =>
    have hscan := scanned_skip s
    rw [h] at hscan
    have : s'.length < (skip s).length := hscan.length_lt
    have := skip_length_le s
    simp only [length_cons]
    omega

/-- The token begins with one of the characters. -/
def Token.startsIn (toks : List Char) : Token → Bool
  | .bar => toks.contains '|'
  | .lparen => toks.contains '('
  | .rparen => toks.contains ')'
  | .semi => toks.contains ';'
  | .amp => toks.contains '&'
  | .lt => toks.contains '<'
  | .gt | .append => toks.contains '>'
  | .word _ => false

variable {toks : List Char}

lemma symbols_of_all (h : toks.all (symbols.contains ·)) : ∀ c ∈ toks, c ∈ symbols := by
  simpa using h

variable {E : Stop → List Char → Prop}

lemma wp_peek {Q : Bool → List Char → Prop} (htoks : ∀ c ∈ toks, c ∈ symbols)
    (h : ∀ s', tokens s' = tokens s → Q ((tokens s).head?.any (·.startsIn toks)) s') : wp (peek toks) s Q E := by
  have hsame : (skip s).head?.any (toks.contains ·) = (tokens s).head?.any (·.startsIn toks) := by
    have hscan := scanned_skip s
    rw [(scan_tokens s).1] at hscan
    generalize (scan (skip s)).2 = u at hscan
    generalize skip s = v, (tokens s).head? = t at hscan
    cases hscan with
    | word c s hc =>
      have : c ∉ toks := fun hmem => by
        have := htoks c hmem
        simp [isWordChar, this] at hc
      simpa [Token.startsIn] using this
    | _ => rfl
  simp only [peek, wp_bind, wp_get, wp_set, wp_pure, hsame]
  exact h _ (tokens_skip s)

lemma wp_gettoken {Q : Option Token → List Char → Prop}
    (h : ∀ s', tokens s' = (tokens s).tail → Q (tokens s).head? s') : wp gettoken s Q E := by
  obtain ⟨hhead, htail⟩ := scan_tokens s
  simp only [gettoken, wp_bind, wp_get, wp_set, wp_pure, hhead]
  exact h _ ((tokens_skip _).trans htail)

/-- The characters are those of one token. -/
def Token.IsOnly (t : Token) (toks : List Char) : Prop :=
  (∀ c ∈ toks, c ∈ symbols) ∧ ∀ u : Token, u.startsIn toks = true ↔ u = t

lemma isOnly_amp : Token.amp.IsOnly ['&'] :=
  ⟨symbols_of_all rfl, fun u => by cases u <;> simp [Token.startsIn]⟩

lemma isOnly_semi : Token.semi.IsOnly [';'] :=
  ⟨symbols_of_all rfl, fun u => by cases u <;> simp [Token.startsIn]⟩

lemma isOnly_bar : Token.bar.IsOnly ['|'] :=
  ⟨symbols_of_all rfl, fun u => by cases u <;> simp [Token.startsIn]⟩

lemma isOnly_lparen : Token.lparen.IsOnly ['('] :=
  ⟨symbols_of_all rfl, fun u => by cases u <;> simp [Token.startsIn]⟩

lemma isOnly_rparen : Token.rparen.IsOnly [')'] :=
  ⟨symbols_of_all rfl, fun u => by cases u <;> simp [Token.startsIn]⟩

lemma wp_peek_only {α : Type} (ht : t.IsOnly toks) {a b : Parser α} {Q : α → List Char → Prop}
    (hthen : ∀ s' ts, tokens s = t :: ts → tokens s' = tokens s → wp a s' Q E)
    (helse : ∀ s', (tokens s).head? ≠ some t → tokens s' = tokens s → wp b s' Q E) :
    wp (do if ← peek toks then a else b) s Q E := by
  refine wp_bind.mpr (wp_peek ht.1 fun s₁ h₁ => ?_)
  rw [wp_ite]
  split
  next hpeek =>
    cases hts : tokens s with
    | nil => simp [hts] at hpeek
    | cons u ts =>
      rw [hts] at hpeek
      obtain rfl := (ht.2 u).mp hpeek
      exact hthen s₁ ts hts h₁
  next hpeek =>
    refine helse s₁ (fun hhead => hpeek ?_) h₁
    rw [hhead]
    exact (ht.2 t).mpr rfl

lemma wp_symbol {α : Type} (ht : t.IsOnly toks) {a b : Parser α} {Q : α → List Char → Prop}
    (hthen : ∀ s' ts, tokens s = t :: ts → tokens s' = ts → wp a s' Q E)
    (helse : ∀ s', (tokens s).head? ≠ some t → tokens s' = tokens s → wp b s' Q E) :
    wp (do if ← peek toks then let _ ← gettoken; a else b) s Q E := by
  refine wp_peek_only ht (fun s₁ ts hts h₁ => wp_bind.mpr (wp_gettoken fun s₂ h₂ => ?_)) helse
  refine hthen s₂ ts hts ?_
  rw [h₂, h₁, hts]
  rfl

/-! ### The grammar -/

/-- `< file`, `> file` or `>> file`. -/
structure Redir where
  file : Word
  mode : Nat
  fd : Nat

def Token.redir (w : Word) : Token → Option Redir
  | .lt => some ⟨w, oRdonly, 0⟩
  | .gt | .append => some ⟨w, oWronly ||| oCreate, 1⟩
  | _ => none

/-- `redir*`, with `redir = ('<' | '>' | '>>') word`. -/
inductive Redirs : List Token → List Redir → Prop
  | nil : Redirs [] []
  | cons {t w r ts rs} : t.redir w = some r → Redirs ts rs → Redirs (t :: .word w :: ts) (r :: rs)

/-- `(word redir*)*` -/
inductive Args : List Token → List Word → List Redir → Prop
  | nil : Args [] [] []
  | cons {w ts rs us ws rs'} : Redirs ts rs → Args us ws rs' →
      Args (.word w :: ts ++ us) (w :: ws) (rs ++ rs')

/-- A command with redirections, the last outermost. -/
def Cmd.wrap (cmd : Cmd) (rs : List Redir) : Cmd :=
  rs.foldl (fun cmd r => .redir cmd r.file r.mode r.fd) cmd

/-- A command in the background, `k` times. -/
def Cmd.backs : Nat → Cmd → Cmd
  | 0, cmd => cmd
  | k + 1, cmd => backs k (.back cmd)

inductive NonTerminal
  | line
  | pipe
  | exec
  deriving DecidableEq

/-- The grammar, with the tree of each derivation. -/
inductive Derives : NonTerminal → List Token → Cmd → Prop
  /-- `line = pipe '&'*` -/
  | line {ts c} (k : Nat) : Derives .pipe ts c → Derives .line (ts ++ .replicate k .amp) (c.backs k)
  /-- `line = pipe '&'* ';' line` -/
  | list {ts c us d} (k : Nat) : Derives .pipe ts c → Derives .line us d →
      Derives .line (ts ++ .replicate k .amp ++ .semi :: us) (.list (c.backs k) d)
  /-- `pipe = exec` -/
  | one {ts c} : Derives .exec ts c → Derives .pipe ts c
  /-- `pipe = exec '|' pipe` -/
  | pipe {ts c us d} : Derives .exec ts c → Derives .pipe us d →
      Derives .pipe (ts ++ .bar :: us) (.pipe c d)
  /-- `exec = '(' line ')' redir*` -/
  | block {ts c us rs} : Derives .line ts c → Redirs us rs →
      Derives .exec (.lparen :: ts ++ .rparen :: us) (c.wrap rs)
  /-- `exec = redir* (word redir*)*`, of at most 9 words -/
  | exec {ts rs us ws rs'} : Redirs ts rs → Args us ws rs' → ws.length ≤ 9 →
      Derives .exec (ts ++ us) ((Cmd.exec ws).wrap (rs ++ rs'))

lemma Cmd.wrap_append (cmd : Cmd) (rs rs' : List Redir) : cmd.wrap (rs ++ rs') = (cmd.wrap rs).wrap rs' :=
  List.foldl_append

lemma Cmd.pushArg_wrap (w : Word) (cmd : Cmd) (rs : List Redir) :
    (cmd.wrap rs).pushArg w = (cmd.pushArg w).wrap rs := by
  induction rs generalizing cmd with
  | nil => rfl
  | cons r rs ih => exact ih (.redir cmd r.file r.mode r.fd)

/-! ### What is returned is a derivation -/

lemma parseredirs_sound (n : Nat) (cmd : Cmd) (s : List Char) (hn : (tokens s).length < n) :
    wp (parseredirs n cmd) s
      (fun c s' => ∃ ts rs, tokens s = ts ++ tokens s' ∧ Redirs ts rs ∧ c = cmd.wrap rs)
      fun e _ => e ≠ .deep := by
  induction n generalizing cmd s with
  | zero => omega
  | succ n ih =>
    simp only [parseredirs, wp_bind]
    refine wp_peek (symbols_of_all rfl) fun s₁ h₁ => ?_
    rw [wp_ite]
    split
    next hpeek =>
      refine wp_bind.mpr (wp_gettoken fun s₂ h₂ => wp_bind.mpr (wp_gettoken fun s₃ h₃ => ?_))
      rw [h₁] at h₂ ⊢
      rw [h₂] at h₃ ⊢
      cases hts : tokens s with
      | nil => simp [hts] at hpeek
      | cons t ts =>
        cases ts with
        | nil => simp
        | cons t' ts =>
          simp only [hts, tail_cons, length_cons, List.head?_cons] at h₃ hn hpeek ⊢
          cases t' with
          | word w =>
            -- what follows is a redirection to the file
            have hgo : ∀ r, t.redir w = some r →
                wp (parseredirs n (.redir cmd r.file r.mode r.fd)) s₃
                  (fun c s' => ∃ us rs, t :: .word w :: ts = us ++ tokens s' ∧ Redirs us rs ∧
                    c = cmd.wrap rs)
                  fun e _ => e ≠ .deep := fun r hr => by
              refine (ih (.redir cmd r.file r.mode r.fd) s₃ (by rw [h₃]; omega)).imp ?_
              rintro c s' ⟨us, rs, hus, hrs, hc⟩
              exact ⟨t :: .word w :: us, r :: rs, by rw [← h₃, hus]; rfl, .cons hr hrs, hc⟩
            cases t with
            | lt | gt | append => exact hgo _ rfl
            | _ => simp [Token.startsIn] at hpeek
          | _ => simp
    next hpeek => exact ⟨[], [], h₁.symm, .nil, rfl⟩

lemma parseargs_sound (n : Nat) (ws₀ : List Word) (rs₀ : List Redir) (s : List Char)
    (hn : (tokens s).length < n) (hlen : ws₀.length ≤ 9) :
    wp (parseargs n ((Cmd.exec ws₀).wrap rs₀) ws₀.length) s
      (fun c s' => ∃ us ws rs, tokens s = us ++ tokens s' ∧ Args us ws rs ∧
        (ws₀ ++ ws).length ≤ 9 ∧ c = (Cmd.exec (ws₀ ++ ws)).wrap (rs₀ ++ rs))
      fun e _ => e ≠ .deep := by
  induction n generalizing ws₀ rs₀ s with
  | zero => omega
  | succ n ih =>
    simp only [parseargs, wp_bind]
    refine wp_peek (symbols_of_all rfl) fun s₁ h₁ => ?_
    -- a loop that ends here has taken nothing
    have hdone : ∀ s', tokens s' = tokens s → ∃ us ws rs, tokens s = us ++ tokens s' ∧ Args us ws rs ∧
        (ws₀ ++ ws).length ≤ 9 ∧ (Cmd.exec ws₀).wrap rs₀ = (Cmd.exec (ws₀ ++ ws)).wrap (rs₀ ++ rs) :=
      fun s' hs' => ⟨[], [], [], hs'.symm, .nil, by simpa using hlen, by simp⟩
    rw [wp_ite]
    split
    · exact hdone s₁ h₁
    · refine wp_bind.mpr (wp_gettoken fun s₂ h₂ => ?_)
      rw [h₁] at h₂ ⊢
      cases hts : tokens s with
      | nil =>
        simp only [List.head?_nil, wp_pure]
        exact hts ▸ hdone s₂ (by rw [h₂, hts]; rfl)
      | cons t ts =>
        simp only [hts, tail_cons, length_cons, List.head?_cons] at h₂ hn ⊢
        cases t with
        | word w =>
          simp only [wp_ite, wp_throw]
          split
          · exact fun h => by cases h
          next hargs =>
            have hlen' : (ws₀ ++ [w]).length ≤ 9 := by
              unfold maxArgs at hargs
              simp only [length_append, List.length_singleton]
              omega
            refine (parseredirs_sound n _ s₂ (by rw [h₂]; omega)).seq ?_
            rintro c s₃ ⟨us, rs, hus, hrs, hc⟩
            rw [Cmd.pushArg_wrap, ← Cmd.wrap_append] at hc
            have hle : (tokens s₃).length ≤ ts.length := by
              rw [← h₂, hus, length_append]
              omega
            have harg : ws₀.length + 1 = (ws₀ ++ [w]).length := by simp
            rw [hc, harg]
            refine (ih (ws₀ ++ [w]) (rs₀ ++ rs) s₃ (by omega) hlen').imp ?_
            rintro d s' ⟨vs, ws, rs', hvs, hargs', hle', hd⟩
            refine ⟨.word w :: us ++ vs, w :: ws, rs ++ rs', ?_, .cons hrs hargs', ?_, ?_⟩
            · rw [← h₂, hus, hvs]
              simp
            · simpa using hle'
            · simpa using hd
        | _ =>
          simp only [wp_throw]
          exact fun h => by cases h

lemma parsebacks_sound (n : Nat) (cmd : Cmd) (s : List Char) (hn : (tokens s).length < n) :
    wp (parsebacks n cmd) s
      (fun c s' => ∃ k, tokens s = .replicate k .amp ++ tokens s' ∧ c = cmd.backs k)
      fun e _ => e ≠ .deep := by
  induction n generalizing cmd s with
  | zero => omega
  | succ n ih =>
    refine wp_symbol isOnly_amp (fun s₁ ts hts h₁ => ?_) fun s₁ _ h₁ => ⟨0, h₁.symm, rfl⟩
    rw [hts, length_cons] at hn
    refine (ih (.back cmd) s₁ (by rw [h₁]; omega)).imp ?_
    rintro c s' ⟨k, hk, hc⟩
    exact ⟨k + 1, by rw [hts, ← h₁, hk]; rfl, hc⟩

/-- What a function takes is a derivation of what it returns. -/
def Takes (nt : NonTerminal) (s : List Char) (c : Cmd) (s' : List Char) : Prop :=
  ∃ ts, tokens s = ts ++ tokens s' ∧ Derives nt ts c

/-- The depth of calls that is enough for a number of tokens. -/
def NonTerminal.depth (len : Nat) : NonTerminal → Nat
  | .line => 4 * len + 4
  | .pipe => 4 * len + 3
  | .exec => 4 * len + 2

/-- The functions of the parser, as the grammar has them. -/
def NonTerminal.parser : NonTerminal → Nat → Parser Cmd
  | .line => parseline
  | .pipe => parsepipe
  | .exec => parseexec

/-- With calls to depth `n`, whatever is returned is a derivation. -/
structure SoundTo (n : Nat) : Prop where
  parse : ∀ (nt : NonTerminal) s, nt.depth (tokens s).length ≤ n →
    wp (nt.parser n) s (Takes nt s) fun e _ => e ≠ .deep
  block : ∀ s, 4 * (tokens s).length + 1 ≤ n →
    wp (parseblock n) s (Takes .exec s) fun e _ => e ≠ .deep

variable {n : Nat}

lemma parseline_sound (ih : SoundTo n) (s : List Char) (hn : 4 * (tokens s).length + 4 ≤ n + 1) :
    wp (parseline (n + 1)) s (Takes .line s) fun e _ => e ≠ .deep := by
  rw [parseline]
  refine (ih.parse .pipe s (by simp only [NonTerminal.depth]; omega)).seq fun c s₁ ⟨ts, hts, hc⟩ => ?_
  have hlen := congrArg List.length hts
  rw [length_append] at hlen
  refine (parsebacks_sound n c s₁ (by omega)).seq fun d s₂ ⟨k, hk, hd⟩ => ?_
  subst hd
  have hlen' := congrArg List.length hk
  rw [length_append, List.length_replicate] at hlen'
  refine wp_symbol isOnly_semi (fun s₃ us hus h₃ => ?_) fun s₃ _ h₃ => ?_
  · have hlen'' := congrArg List.length hus
    rw [length_cons] at hlen''
    refine (ih.parse .line s₃ (by simp only [NonTerminal.depth, h₃]; omega)).seq
      fun e s' ⟨vs, hvs, he⟩ => ?_
    refine ⟨_, ?_, .list k hc he⟩
    rw [hts, hk, hus, ← h₃, hvs]
    simp
  · refine ⟨_, ?_, .line k hc⟩
    rw [hts, hk, h₃, append_assoc]

lemma parsepipe_sound (ih : SoundTo n) (s : List Char) (hn : 4 * (tokens s).length + 3 ≤ n + 1) :
    wp (parsepipe (n + 1)) s (Takes .pipe s) fun e _ => e ≠ .deep := by
  rw [parsepipe]
  refine (ih.parse .exec s (by simp only [NonTerminal.depth]; omega)).seq fun c s₁ ⟨ts, hts, hc⟩ => ?_
  have hlen := congrArg List.length hts
  rw [length_append] at hlen
  refine wp_symbol isOnly_bar (fun s₂ us hus h₂ => ?_) fun s₂ _ h₂ => ⟨ts, h₂ ▸ hts, .one hc⟩
  have hlen' := congrArg List.length hus
  rw [length_cons] at hlen'
  refine (ih.parse .pipe s₂ (by simp only [NonTerminal.depth, h₂]; omega)).seq
    fun d s' ⟨vs, hvs, hd⟩ => ?_
  refine ⟨_, ?_, .pipe hc hd⟩
  rw [hts, hus, ← h₂, hvs]
  simp

lemma parseblock_sound (ih : SoundTo n) (s : List Char) (hn : 4 * (tokens s).length + 1 ≤ n + 1) :
    wp (parseblock (n + 1)) s (Takes .exec s) fun e _ => e ≠ .deep := by
  rw [parseblock]
  refine wp_symbol isOnly_lparen (fun s₁ ts hts h₁ => ?_) fun s₁ _ _ => fun h => by cases h
  have hlen := congrArg List.length hts
  rw [length_cons] at hlen
  refine (ih.parse .line s₁ (by simp only [NonTerminal.depth, h₁]; omega)).seq
    fun c s₂ ⟨us, hus, hc⟩ => ?_
  have hlen' := congrArg List.length hus
  rw [length_append, h₁] at hlen'
  refine wp_symbol isOnly_rparen (fun s₃ vs hvs h₃ => ?_) fun s₃ _ _ => fun h => by cases h
  have hlen'' := congrArg List.length hvs
  rw [length_cons] at hlen''
  refine (parseredirs_sound n c s₃ (by rw [h₃]; omega)).imp ?_
  rintro _ s' ⟨ws, rs, hws, hrs, rfl⟩
  refine ⟨_, ?_, .block hc hrs⟩
  rw [hts, ← h₁, hus, hvs, ← h₃, hws]
  simp

lemma parseexec_sound (ih : SoundTo n) (s : List Char) (hn : 4 * (tokens s).length + 2 ≤ n + 1) :
    wp (parseexec (n + 1)) s (Takes .exec s) fun e _ => e ≠ .deep := by
  rw [parseexec]
  refine wp_peek_only isOnly_lparen (fun s₁ ts _ h₁ => ?_) fun s₁ _ h₁ => ?_
  · have hblock := ih.block s₁ (by rw [h₁]; omega)
    refine hblock.imp ?_
    rintro c s' ⟨us, hus, hc⟩
    exact ⟨us, h₁ ▸ hus, hc⟩
  · refine (parseredirs_sound n (.exec []) s₁ (by rw [h₁]; omega)).seq
      fun c s₂ ⟨ts, rs, hts, hrs, hc⟩ => ?_
    have hlen := congrArg List.length hts
    rw [length_append, h₁] at hlen
    rw [hc]
    refine (parseargs_sound n [] rs s₂ (by omega) (by decide)).imp ?_
    rintro d s' ⟨us, ws, rs', hus, hargs, hle, hd⟩
    refine ⟨ts ++ us, ?_, hd ▸ .exec hrs hargs hle⟩
    rw [← h₁, hts, hus, append_assoc]

lemma soundTo (n : Nat) : SoundTo n := by
  induction n with
  | zero =>
    refine ⟨fun nt s hn => ?_, fun s hn => by omega⟩
    cases nt <;> simp [NonTerminal.depth] at hn
  | succ n ih =>
    refine ⟨fun nt s hn => ?_, parseblock_sound ih⟩
    cases nt with
    | line => exact parseline_sound ih s hn
    | pipe => exact parsepipe_sound ih s hn
    | exec => exact parseexec_sound ih s hn

/-! ### Derivations are found -/

/-- The tokens that may come after a derivation. -/
def NonTerminal.followers : NonTerminal → List Token
  | .line => [.rparen]
  | .pipe => [.rparen, .amp, .semi]
  | .exec => [.rparen, .amp, .semi, .bar]

/-- The rest of the tokens may come after a derivation. -/
def NonTerminal.Follows (nt : NonTerminal) (rest : List Token) : Prop :=
  ∀ t ∈ rest.head?, t ∈ nt.followers

namespace NonTerminal.Follows

variable {nt : NonTerminal} {rest : List Token}

lemma cons {t : Token} (ht : t ∈ nt.followers) : nt.Follows (t :: rest) := fun u hu => by
  cases hu
  exact ht

lemma ne (h : nt.Follows rest) {t : Token} (ht : t ∉ nt.followers) : rest.head? ≠ some t :=
  fun heq => ht (h t heq)

lemma mono {nt' : NonTerminal} (h : nt.Follows rest) (hsub : nt.followers ⊆ nt'.followers) :
    nt'.Follows rest :=
  fun t ht => hsub (h t ht)

/-- Each `&` after a pipe. -/
lemma amps (h : NonTerminal.pipe.Follows rest) (k : Nat) :
    NonTerminal.pipe.Follows (.replicate k .amp ++ rest) := by
  cases k with
  | zero => exact h
  | succ k => exact cons (by decide)

lemma not_redir (h : NonTerminal.exec.Follows rest) :
    ∀ t ∈ rest.head?, t.startsIn ['<', '>'] = false := fun t ht => by
  have ht := h t ht
  simp only [followers, List.mem_cons, List.not_mem_nil, or_false] at ht
  obtain rfl | rfl | rfl | rfl := ht <;> rfl

end NonTerminal.Follows

variable {rs : List Redir} {ws : List Word}

variable {rest us : List Token}

lemma Args.not_redir (h : Args us ws rs) (hrest : NonTerminal.exec.Follows rest) :
    ∀ t ∈ (us ++ rest).head?, t.startsIn ['<', '>'] = false := fun t ht => by
  cases h with
  | nil => exact hrest.not_redir t ht
  | cons =>
    cases ht
    rfl

variable {ts : List Token} {cmd : Cmd}

lemma Redirs.complete (h : Redirs ts rs) (hrest : ∀ t ∈ rest.head?, t.startsIn ['<', '>'] = false)
    (hs : tokens s = ts ++ rest) (hn : ts.length < n) :
    wp (parseredirs n cmd) s (fun c s' => c = cmd.wrap rs ∧ tokens s' = rest) E := by
  induction h generalizing n cmd s with
  | nil =>
    obtain ⟨n, rfl⟩ := Nat.exists_eq_add_one_of_ne_zero hn.ne'
    simp only [parseredirs, wp_bind]
    refine wp_peek (symbols_of_all rfl) fun s₁ h₁ => ?_
    rw [wp_ite, if_neg]
    · exact ⟨rfl, h₁.trans hs⟩
    · rw [hs, List.nil_append]
      cases rest with
      | nil => simp
      | cons t rest => simpa using hrest t rfl
  | @cons t w r ts rs hr _ ih =>
    obtain ⟨n, rfl⟩ := Nat.exists_eq_add_one_of_ne_zero (Nat.zero_lt_of_lt hn).ne'
    simp only [parseredirs, wp_bind]
    refine wp_peek (symbols_of_all rfl) fun s₁ h₁ => ?_
    have hstart : (tokens s).head?.any (·.startsIn ['<', '>']) := by
      rw [hs]
      cases t with
      | lt | gt | append => rfl
      | _ => cases hr
    rw [wp_ite, if_pos hstart]
    refine wp_bind.mpr (wp_gettoken fun s₂ h₂ => wp_bind.mpr (wp_gettoken fun s₃ h₃ => ?_))
    rw [h₁, hs] at h₂ ⊢
    rw [h₂] at h₃ ⊢
    have hgo : wp (parseredirs n (.redir cmd r.file r.mode r.fd)) s₃
        (fun c s' => c = (Cmd.redir cmd r.file r.mode r.fd).wrap rs ∧ tokens s' = rest) E :=
      ih h₃ (by simp only [length_cons] at hn; omega)
    cases t with
    | lt | gt | append =>
      cases hr
      exact hgo
    | _ => cases hr

lemma Args.complete (h : Args us ws rs) (hrest : NonTerminal.exec.Follows rest) {ws₀ : List Word}
    {rs₀ : List Redir} (hs : tokens s = us ++ rest) (hn : us.length < n) (hlen : (ws₀ ++ ws).length ≤ 9) :
    wp (parseargs n ((Cmd.exec ws₀).wrap rs₀) ws₀.length) s
      (fun c s' => c = (Cmd.exec (ws₀ ++ ws)).wrap (rs₀ ++ rs) ∧ tokens s' = rest) E := by
  induction h generalizing n ws₀ rs₀ s with
  | nil =>
    obtain ⟨n, rfl⟩ := Nat.exists_eq_add_one_of_ne_zero hn.ne'
    simp only [parseargs, wp_bind]
    refine wp_peek (symbols_of_all rfl) fun s₁ h₁ => ?_
    simp only [List.append_nil, List.nil_append] at hs ⊢
    rw [wp_ite]
    split
    · exact ⟨rfl, h₁.trans hs⟩
    next hpeek =>
      cases rest with
      | nil =>
        refine wp_bind.mpr (wp_gettoken fun s₂ h₂ => ?_)
        rw [h₁, hs] at h₂ ⊢
        exact ⟨rfl, h₂⟩
      | cons t rest =>
        have ht := hrest t rfl
        rw [hs] at hpeek
        simp only [NonTerminal.followers, List.mem_cons, List.not_mem_nil, or_false] at ht
        obtain rfl | rfl | rfl | rfl := ht <;> exact absurd rfl hpeek
  | @cons w ts rs us ws rs' hredirs hargs ih =>
    obtain ⟨n, rfl⟩ := Nat.exists_eq_add_one_of_ne_zero (Nat.zero_lt_of_lt hn).ne'
    simp only [parseargs, wp_bind]
    refine wp_peek (symbols_of_all rfl) fun s₁ h₁ => ?_
    rw [wp_ite, if_neg (by rw [hs]; simp [Token.startsIn])]
    refine wp_bind.mpr (wp_gettoken fun s₂ h₂ => ?_)
    rw [h₁, hs] at h₂ ⊢
    simp only [cons_append, List.head?_cons, tail_cons, append_assoc] at h₂ ⊢
    simp only [length_append, length_cons] at hlen hn
    rw [wp_ite, if_neg (by unfold maxArgs; omega)]
    rw [Cmd.pushArg_wrap]
    refine (hredirs.complete (hargs.not_redir hrest) h₂ (by omega)).seq fun c s₃ hs₃ => ?_
    obtain ⟨hc, h₃⟩ := hs₃
    have harg : ws₀.length + 1 = (ws₀ ++ [w]).length := by simp
    rw [hc, ← Cmd.wrap_append, harg]
    refine (ih h₃ (by omega) (by simpa using hlen)).imp ?_
    rintro d s' ⟨hd, hs'⟩
    exact ⟨by simpa using hd, hs'⟩

lemma parsebacks_complete (hrest : rest.head? ≠ some .amp) (k : Nat)
    (hs : tokens s = .replicate k .amp ++ rest) (hn : k < n)
    : wp (parsebacks n cmd) s (fun c s' => c = cmd.backs k ∧ tokens s' = rest) E := by
  induction k generalizing n cmd s with
  | zero =>
    obtain ⟨n, rfl⟩ := Nat.exists_eq_add_one_of_ne_zero hn.ne'
    refine wp_symbol isOnly_amp (fun s₁ ts hts h₁ => ?_) fun s₁ _ h₁ => ⟨rfl, h₁.trans hs⟩
    rw [hs] at hts
    exact absurd (congrArg List.head? hts) hrest
  | succ k ih =>
    obtain ⟨n, rfl⟩ := Nat.exists_eq_add_one_of_ne_zero (Nat.zero_lt_of_lt hn).ne'
    refine wp_symbol isOnly_amp (fun s₁ ts hts h₁ => ?_) fun s₁ hne _ => ?_
    · rw [hs] at hts
      cases hts
      exact ih h₁ (by omega)
    · rw [hs] at hne
      exact absurd rfl hne

variable {rs' : List Redir}

lemma head_exec_ne_lparen {rs : List Redir}
    (hts : Redirs ts rs) (hus : Args us ws rs') (hrest : NonTerminal.exec.Follows rest) :
    (ts ++ us ++ rest).head? ≠ some .lparen := by
  cases hts with
  | cons hr =>
    intro heq
    cases heq
    cases hr
  | nil =>
    cases hus with
    | cons => exact fun heq => by cases heq
    | nil => exact hrest.ne (by decide)

/-- A function of the parser finds the derivation where it is, and takes its tokens. -/
def Finds (nt : NonTerminal) (ts : List Token) (c : Cmd) : Prop :=
  ∀ {rest : List Token} {n : Nat} {s : List Char}, nt.Follows rest → tokens s = ts ++ rest →
    nt.depth ts.length ≤ n → wp (nt.parser n) s (fun d s' => d = c ∧ tokens s' = rest) fun _ _ => False

namespace Finds

variable {ts us : List Token} {c d : Cmd}

/-- The beginning of `parseline`. -/
lemma backs (h : Finds .pipe ts c) (k : Nat) {s : List Char}
    (hrest : NonTerminal.pipe.Follows rest) (hamp : rest.head? ≠ some .amp)
    (hs : tokens s = ts ++ (.replicate k .amp ++ rest)) (hn : 4 * (ts.length + k) + 3 ≤ n) :
    wp (do parsebacks n (← parsepipe n)) s (fun d s' => d = c.backs k ∧ tokens s' = rest)
      fun _ _ => False := by
  refine (h (hrest.amps k) hs (by simp only [NonTerminal.depth]; omega)).seq fun d s₁ ⟨hd, h₁⟩ => ?_
  subst hd
  exact parsebacks_complete hamp k h₁ (by omega)

lemma line (h : Finds .pipe ts c) (k : Nat) : Finds .line (ts ++ .replicate k .amp) (c.backs k) := by
  intro rest n s hrest hs hn
  simp only [NonTerminal.depth, length_append, List.length_replicate] at hn
  obtain ⟨n, rfl⟩ : ∃ m, n = m + 1 := ⟨n - 1, by omega⟩
  rw [append_assoc] at hs
  rw [NonTerminal.parser, parseline]
  have hbacks := h.backs k (hrest.mono (by decide)) (hrest.ne (by decide)) hs (n := n) (by omega)
  rw [wp_bind] at hbacks
  refine hbacks.seq fun d s₁ hd => ?_
  refine hd.seq fun e s₂ ⟨he, h₂⟩ => ?_
  refine wp_symbol isOnly_semi (fun s₃ us hus _ => ?_) fun s₃ _ h₃ => ⟨he, h₃.trans h₂⟩
  rw [h₂] at hus
  exact absurd (congrArg List.head? hus) (hrest.ne (by decide))

lemma list (h : Finds .pipe ts c) (k : Nat) (h' : Finds .line us d) :
    Finds .line (ts ++ .replicate k .amp ++ .semi :: us) (.list (c.backs k) d) := by
  intro rest n s hrest hs hn
  simp only [NonTerminal.depth, length_append, List.length_replicate, length_cons] at hn
  obtain ⟨n, rfl⟩ : ∃ m, n = m + 1 := ⟨n - 1, by omega⟩
  rw [append_assoc, append_assoc, cons_append] at hs
  rw [NonTerminal.parser, parseline]
  have hbacks := h.backs k (.cons (by decide)) (fun heq => by cases heq) hs (n := n) (by omega)
  rw [wp_bind] at hbacks
  refine hbacks.seq fun _ s₁ hd => ?_
  refine hd.seq fun e s₂ ⟨he, h₂⟩ => ?_
  subst he
  refine wp_symbol isOnly_semi (fun s₃ vs hvs h₃ => ?_) fun s₃ hne _ => ?_
  · rw [h₂] at hvs
    cases hvs
    refine (h' hrest h₃ (by simp only [NonTerminal.depth]; omega)).seq fun e s₄ ⟨he, h₄⟩ => ?_
    subst he
    exact ⟨rfl, h₄⟩
  · rw [h₂] at hne
    exact absurd rfl hne

lemma one (h : Finds .exec ts c) : Finds .pipe ts c := by
  intro rest n s hrest hs hn
  simp only [NonTerminal.depth] at hn
  obtain ⟨n, rfl⟩ : ∃ m, n = m + 1 := ⟨n - 1, by omega⟩
  rw [NonTerminal.parser, parsepipe]
  refine (h (hrest.mono (by decide)) hs (by simp only [NonTerminal.depth]; omega)).seq
    fun d s₁ ⟨hd, h₁⟩ => ?_
  refine wp_symbol isOnly_bar (fun s₂ us hus _ => ?_) fun s₂ _ h₂ => ⟨hd, h₂.trans h₁⟩
  rw [h₁] at hus
  exact absurd (congrArg List.head? hus) (hrest.ne (by decide))

lemma pipe (h : Finds .exec ts c) (h' : Finds .pipe us d) : Finds .pipe (ts ++ .bar :: us) (.pipe c d) := by
  intro rest n s hrest hs hn
  simp only [NonTerminal.depth, length_append, length_cons] at hn
  obtain ⟨n, rfl⟩ : ∃ m, n = m + 1 := ⟨n - 1, by omega⟩
  rw [append_assoc, cons_append] at hs
  rw [NonTerminal.parser, parsepipe]
  refine (h (.cons (by decide)) hs (by simp only [NonTerminal.depth]; omega)).seq
    fun d s₁ ⟨hd, h₁⟩ => ?_
  subst hd
  refine wp_symbol isOnly_bar (fun s₂ vs hvs h₂ => ?_) fun s₂ hne _ => ?_
  · rw [h₁] at hvs
    cases hvs
    refine (h' hrest h₂ (by simp only [NonTerminal.depth]; omega)).seq fun e s₃ ⟨he, h₃⟩ => ?_
    subst he
    exact ⟨rfl, h₃⟩
  · rw [h₁] at hne
    exact absurd rfl hne

lemma block (h : Finds .line ts c) {rs : List Redir} (hredirs : Redirs us rs) :
    Finds .exec (.lparen :: ts ++ .rparen :: us) (c.wrap rs) := by
  intro rest n s hrest hs hn
  simp only [NonTerminal.depth, length_append, length_cons] at hn
  obtain ⟨n, rfl⟩ : ∃ m, n = m + 2 := ⟨n - 2, by omega⟩
  rw [append_assoc, cons_append, cons_append] at hs
  rw [NonTerminal.parser, parseexec]
  refine wp_peek_only isOnly_lparen (fun s₁ vs hvs h₁ => ?_) fun s₁ hne _ => absurd (by rw [hs]; rfl) hne
  rw [parseblock]
  refine wp_symbol isOnly_lparen (fun s₂ vs hvs h₂ => ?_) fun s₂ hne _ =>
    absurd (by rw [h₁, hs]; rfl) hne
  rw [h₁, hs] at hvs
  cases hvs
  refine (h (.cons (by decide)) h₂ (by simp only [NonTerminal.depth]; omega)).seq
    fun d s₃ ⟨hd, h₃⟩ => ?_
  subst hd
  refine wp_symbol isOnly_rparen (fun s₄ vs hvs h₄ => ?_) fun s₄ hne _ =>
    absurd (by rw [h₃]; rfl) hne
  rw [h₃] at hvs
  cases hvs
  exact hredirs.complete hrest.not_redir h₄ (by omega)

lemma exec {rs : List Redir} {ws : List Word} (hredirs : Redirs ts rs) (hargs : Args us ws rs')
    (hle : ws.length ≤ 9) : Finds .exec (ts ++ us) ((Cmd.exec ws).wrap (rs ++ rs')) := by
  intro rest n s hrest hs hn
  simp only [NonTerminal.depth, length_append] at hn
  obtain ⟨n, rfl⟩ : ∃ m, n = m + 1 := ⟨n - 1, by omega⟩
  rw [NonTerminal.parser, parseexec]
  refine wp_peek_only isOnly_lparen (fun s₁ vs hvs h₁ => ?_) fun s₁ _ h₁ => ?_
  · rw [hs] at hvs
    exact absurd (congrArg List.head? hvs) (head_exec_ne_lparen hredirs hargs hrest)
  · rw [hs, append_assoc] at h₁
    refine (hredirs.complete (hargs.not_redir hrest) h₁ (by omega)).seq fun d s₂ ⟨hd, h₂⟩ => ?_
    subst hd
    have hle' : ([] ++ ws).length ≤ 9 := hle
    exact hargs.complete hrest h₂ (by omega) hle'

end Finds

lemma Derives.finds {nt : NonTerminal} {c : Cmd} (h : Derives nt ts c) : Finds nt ts c := by
  induction h with
  | line k _ ih => exact ih.line k
  | list k _ _ ih ih' => exact ih.list k ih'
  | one _ ih => exact ih.one
  | pipe _ _ ih ih' => exact ih.pipe ih'
  | block _ hredirs ih => exact ih.block hredirs
  | exec hredirs hargs hle => exact Finds.exec hredirs hargs hle

end Xv6.Sh
