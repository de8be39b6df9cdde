import Xv6.ProjShell.Parse

/-!
# The shell of the first project (`proj_shell/src/shell.c`)

For each line that `getline` returns, `main` runs the commands of the line. In batch mode every command is
handed to `execvp`. In interactive mode `quit` and `cd` are built in, and the line comes from `get_line`,
which shrinks and grows its block to a size that it doubles from 50 on.

A line is asked to run those of its fields that have a word in them. What the shell does with a line is
computed from the words of the fields that `get_parsed2` finds (`shell_eq`). It is what the line asks for
when no array overflows, each field that is reached has a word, and the character that is cut off at the
end of the line is its newline.
-/

namespace Xv6.ProjShell

open Lib

inductive Mode
  | interactive
  | batch
  deriving DecidableEq

inductive Action
  /-- `execvp` in a child, with `none` for the null pointer -/
  | exec (name : Option (List Char)) (argv : List (List Char))
  | chdir (dir : List Char)
  deriving DecidableEq

inductive Ending
  /-- the next line is read -/
  | next
  | exit
  | crash (c : Crash)
  deriving DecidableEq

/-- What is done for a line. -/
structure Outcome where
  ran : List Action
  ending : Ending
  deriving DecidableEq

def Outcome.after (a : Action) (o : Outcome) : Outcome := { o with ran := a :: o.ran }

/-- A line as `getline` returns it. -/
structure Line where
  text : List Char
  newline : Bool
  oneLine : '\n' ∉ text
  nonempty : text ≠ [] ∨ newline = true

def Line.raw (line : Line) : List Char := line.text ++ if line.newline then ['\n'] else []

/-! ### The code -/

/-- `line[strlen(line) - 1] = 0` -/
def chop (buf : List Char) : Except Crash (List Char) :=
  if nul ∉ buf then .error .outOfBounds
  else if (cstr buf 0).length = 0 then .error .outOfBounds
  else .ok (buf.set ((cstr buf 0).length - 1) nul)

/-- The bytes that `realloc` adds are not determined. -/
def realloc (junk : Nat → Char) (buf : List Char) (n : Nat) : List Char :=
  (List.range n).map fun i => buf.getD i (junk i)

/-- `while(r > *bsize) { (*bsize) *= 2; input = realloc(input, *bsize); }` -/
def growLoop (junk : Nat → Char) (r bsize : Nat) (hpos : 0 < bsize) (buf : List Char) :
    Except Crash (List Char × Nat) :=
  if bsize < r then
    if bsize * 2 ≤ intMax then
      growLoop junk r (bsize * 2) (Nat.mul_pos hpos Nat.two_pos) (realloc junk buf (bsize * 2))
    else .error .outOfBounds
  else .ok (buf, bsize)
termination_by r - bsize

/-- `get_line(input, n, &bsize)`, with `bsize` at 50: the line and the new `bsize`. -/
def getLine (junk : Nat → Char) (raw : List Char) : Except Crash (Option (List Char × Nat)) := do
  if raw.length ≤ 1 then return none
  let (input, bsize) ← growLoop junk raw.length 50 (by decide) (raw ++ [nul])
  let input ← chop input
  return some (input, bsize)

/-- The body of the loop over the commands of a line, after `get_parsed`. -/
def runCommand (mode : Mode) (command : List (List Char)) : Except Ending Action :=
  match mode, command with
  | .batch, command => .ok (.exec command.head? command)
  | .interactive, [] => .error (.crash .nullName)
  | .interactive, name :: args =>
    if name = "quit".toList then .error .exit
    else if name = "cd".toList then .ok (.chdir (args.headD "/".toList))
    else .ok (.exec (some name) (name :: args))

/-- The loop over the commands of a line. In batch mode `bsize` is 50 all along. -/
def commandLoop (mode : Mode) : (bsize : Nat) → List Nat → Mem → Outcome
  | _, [], _ => ⟨[], .next⟩
  | bsize, input :: command2, m =>
    match getParsed bsize m input with
    | .error c => ⟨[], .crash c⟩
    | .ok (command, m) =>
      match runCommand mode (command.map (cstr m.buf)) with
      | .error e => ⟨[], e⟩
      | .ok a => (commandLoop mode 50 command2 m).after a

/-- What both loops of `main` do with a line. -/
def runLine (mode : Mode) (bsize : Nat) (input : List Char) : Outcome :=
  match getParsed2 bsize ⟨input, 0⟩ 0 with
  | .error c => ⟨[], .crash c⟩
  | .ok (command2, m) => commandLoop mode bsize command2 m

/-- One round of `main`. -/
def shell (mode : Mode) (junk : Nat → Char) (line : Line) : Outcome :=
  match mode with
  | .batch =>
    match chop (line.raw ++ [nul]) with
    | .error c => ⟨[], .crash c⟩
    | .ok input => runLine .batch 50 input
  | .interactive =>
    match getLine junk line.raw with
    | .error c => ⟨[], .crash c⟩
    | .ok none => ⟨[], .next⟩
    | .ok (some (input, bsize)) => runLine .interactive bsize input

/-! ### What a line asks for -/

/-- The argument vector of a field. -/
def words (field : List Char) : List (List Char) := tokens isBlank field

/-- The argument vectors of the fields that have a character other than a blank. -/
def commands (text : List Char) : List (List (List Char)) :=
  ((text.splitOnP isSemi).filter fun field => field.any fun c => !isBlank c).map words

/-- What a command stands for, with `none` for `quit`. -/
def meaning (mode : Mode) (argv : List (List Char)) : Option Action :=
  match mode with
  | .batch => some (.exec argv.head? argv)
  | .interactive =>
    if argv.head? = some "quit".toList then none
    else if argv.head? = some "cd".toList then some (.chdir (argv.getD 1 "/".toList))
    else some (.exec argv.head? argv)

/-- The commands in their order, up to `quit`. -/
def perform (mode : Mode) : List (List (List Char)) → Outcome
  | [] => ⟨[], .next⟩
  | argv :: rest =>
    match meaning mode argv with
    | none => ⟨[], .exit⟩
    | some a => (perform mode rest).after a

def asked (mode : Mode) (text : List Char) : Outcome := perform mode (commands text)

/-! ### When the shell does it -/

/-- The string that `getline` leaves. -/
def Line.seen (line : Line) : List Char := line.raw.takeWhile (· ≠ nul)

/-- The line after its last character is cut off. -/
def Line.kept (line : Line) : List Char := line.seen.dropLast

/-- The argument vectors of the fields that `strtok` finds between the semicolons. -/
def Line.argvs (line : Line) : List (List (List Char)) := (tokens isSemi line.kept).map words

/-- The argument vectors up to `quit`. -/
def reached (mode : Mode) : List (List (List Char)) → List (List (List Char))
  | [] => []
  | argv :: rest => argv :: if meaning mode argv = none then [] else reached mode rest

/-- There is room for the line and the pointers to its fields. -/
def Line.Sizes (mode : Mode) (line : Line) : Prop :=
  line.seen ≠ [] ∧
    match mode with
    | .batch => (tokens isSemi line.kept).length < 50 ∧
        ∀ field ∈ tokens isSemi line.kept, field.length ≤ intMax
    | .interactive => line.seen.length < 100 ∧ line.raw.length ≤ 50 * 2 ^ 25

/-- Each field that is reached has a word, and there is room for the pointers to its words. -/
def Fits (mode : Mode) (argvs : List (List (List Char))) : Prop :=
  ∀ argv ∈ reached mode argvs, argv ≠ [] ∧ argv.length < 50

/-- What makes the shell do what the line asks for. The last part is about a line that has no newline at its
end, or a null character in it. -/
structure Line.Safe (mode : Mode) (line : Line) : Prop where
  sizes : line.Sizes mode
  fits : Fits mode line.argvs
  cut : asked mode line.kept = asked mode line.text

/-! ### The commands of a line -/

/-- What the shell does with the argument vectors of a line. -/
def runArgvs (mode : Mode) : (bsize : Nat) → List (List (List Char)) → Outcome
  | _, [] => ⟨[], .next⟩
  | bsize, argv :: rest =>
    if argv.length < bsize then
      match runCommand mode argv with
      | .error e => ⟨[], e⟩
      | .ok a => (runArgvs mode 50 rest).after a
    else ⟨[], .crash .overflow⟩

/-- Neither undefined behaviour nor a null command name. -/
structure Outcome.Clean (o : Outcome) : Prop where
  ending : ∀ c, o.ending ≠ .crash c
  ran : ∀ argv, .exec none argv ∉ o.ran

lemma words_ne_nil {field : List Char} : words field ≠ [] ↔ (field.any fun c => !isBlank c) := by
  rw [Ne, words, tokens_eq_nil, List.any_eq_true]
  simp

lemma filter_words (s : List Char) : ((tokens isSemi s).map words).filter (· ≠ []) = commands s := by
  rw [tokens, commands, List.filter_map, List.filter_filter]
  congr 1
  refine List.filter_congr fun field _ => ?_
  rw [Bool.eq_iff_iff]
  simp only [Function.comp_apply, Bool.and_eq_true, decide_eq_true_eq, words_ne_nil]
  refine ⟨And.left, fun hany => ⟨hany, ?_⟩⟩
  rintro rfl
  cases hany

section

variable {mode : Mode} {argv : List (List Char)} {argvs : List (List (List Char))} {o : Outcome}

lemma Outcome.clean_after {a : Action} : (o.after a).Clean ↔ (∀ argv, a ≠ .exec none argv) ∧ o.Clean := by
  constructor
  · intro h
    exact ⟨fun argv heq => h.ran argv (heq ▸ (.head _)), h.ending,
      fun argv hmem => h.ran argv (List.mem_cons_of_mem a hmem)⟩
  · rintro ⟨ha, h⟩
    refine ⟨h.ending, fun argv hmem => ?_⟩
    obtain heq | hmem := List.mem_cons.mp hmem
    · exact ha argv heq.symm
    · exact h.ran argv hmem

/-- A command with a name does what it stands for. -/
lemma runCommand_eq (hne : argv ≠ []) :
    runCommand mode argv =
      match meaning mode argv with
      | none => .error .exit
      | some a => .ok a := by
  obtain ⟨name, args, rfl⟩ := List.exists_cons_of_ne_nil hne
  cases mode with
  | batch => rfl
  | interactive =>
    simp only [runCommand, meaning, List.head?_cons, Option.some.injEq]
    split
    next => rfl
    next =>
      split
      next => cases args <;> rfl
      next => rfl

lemma meaning_named (hne : argv ≠ []) {a : Action} (h : meaning mode argv = some a) :
    ∀ argv', a ≠ .exec none argv' := by
  obtain ⟨name, args, rfl⟩ := List.exists_cons_of_ne_nil hne
  rintro argv' rfl
  cases mode with
  | batch => cases h
  | interactive =>
    simp only [meaning] at h
    split at h
    next => cases h
    next =>
      split at h
      next => cases h
      next => cases h

lemma perform_clean (h : ∀ argv ∈ argvs, argv ≠ []) : (perform mode argvs).Clean := by
  induction argvs with
  | nil => exact ⟨nofun, fun _ => List.not_mem_nil⟩
  | cons argv rest ih =>
    rw [List.forall_mem_cons] at h
    rw [perform]
    split
    next => exact ⟨nofun, fun _ => List.not_mem_nil⟩
    next a ha => exact Outcome.clean_after.mpr ⟨meaning_named h.1 ha, ih h.2⟩

lemma asked_clean (mode : Mode) (text : List Char) : (asked mode text).Clean := by
  refine perform_clean fun argv hmem => ?_
  rw [← filter_words] at hmem
  exact of_decide_eq_true (List.mem_filter.mp hmem).2

lemma runArgvs_clean (h : (runArgvs mode 50 argvs).Clean) : Fits mode argvs := by
  induction argvs with
  | nil => exact fun _ hmem => absurd hmem List.not_mem_nil
  | cons argv rest ih =>
    rw [runArgvs] at h
    by_cases hlen : argv.length < 50
    · rw [if_pos hlen] at h
      by_cases hne : argv = []
      · subst hne
        cases mode with
        | batch => exact ((Outcome.clean_after.mp h).1 [] rfl).elim
        | interactive => exact (h.ending _ rfl).elim
      · rw [runCommand_eq hne] at h
        refine List.forall_mem_cons.mpr ⟨⟨hne, hlen⟩, fun argv' hmem => ?_⟩
        cases hm : meaning mode argv with
        | none =>
          rw [if_pos hm] at hmem
          exact absurd hmem List.not_mem_nil
        | some a =>
          rw [if_neg (by rw [hm]; nofun)] at hmem
          rw [hm] at h
          exact ih (Outcome.clean_after.mp h).2 argv' hmem
    · rw [if_neg hlen] at h
      exact (h.ending _ rfl).elim

/-- Otherwise the commands are those that the line asks for. -/
lemma runArgvs_eq (h : Fits mode argvs) : runArgvs mode 50 argvs = perform mode (argvs.filter (· ≠ [])) := by
  induction argvs with
  | nil => rfl
  | cons argv rest ih =>
    obtain ⟨⟨hne, hlen⟩, hrest⟩ := List.forall_mem_cons.mp h
    rw [List.filter_cons_of_pos (by simpa using hne), runArgvs, if_pos hlen, perform, runCommand_eq hne]
    cases hm : meaning mode argv with
    | none => rfl
    | some a =>
      rw [if_neg (by rw [hm]; nofun)] at hrest
      exact congrArg (Outcome.after a) (ih hrest)

end

/-! ### From the line to its commands -/

section

variable {mode : Mode} {bsize : Nat} {buf s : List Char}

/-- Each command is parsed from its string, which no other command overwrites. -/
lemma commandLoop_eq {m : Mem} {lo hi : Nat} {ps : List Nat} {fs : List (List Char)}
    (h : Laid m.buf lo hi ps fs) : commandLoop mode bsize ps m = runArgvs mode bsize (fs.map words) := by
  induction fs generalizing m lo ps bsize with
  | nil =>
    cases ps with
    | nil => rfl
    | cons p ps => exact h.elim
  | cons f fs ih =>
    cases ps with
    | nil => exact h.elim
    | cons p ps =>
      obtain ⟨-, hf, hrest⟩ := h
      obtain ⟨command, m', hargv, hsame, hparsed⟩ := getParsed_spec bsize hf
      change _ = words f at hargv
      rw [show tokens isBlank f = words f from rfl] at hparsed
      rw [commandLoop, hparsed, List.map_cons, runArgvs]
      by_cases hlen : (words f).length < bsize
      · rw [if_pos hlen, if_pos hlen]
        simp only [hargv]
        cases runCommand mode (words f) with
        | error e => rfl
        | ok a =>
          exact congrArg (Outcome.after a) (ih (hrest.frame fun i hi _ => hsame.same i (.inr hi)))
      · rw [if_neg hlen, if_neg hlen]

lemma runArgvs_room {argvs : List (List (List Char))} (hroom : ∀ argv ∈ argvs, argv.length < 50)
    (hb : 50 ≤ bsize) : runArgvs mode bsize argvs = runArgvs mode 50 argvs := by
  cases argvs with
  | nil => rfl
  | cons argv rest =>
    have hlen := hroom argv (.head _)
    rw [runArgvs, runArgvs, if_pos hlen, if_pos (hlen.trans_le hb)]

/-- What is done for the fields of a line. -/
def runFields (mode : Mode) (bsize : Nat) (fields : List (List Char)) : Outcome :=
  if fields.length < bsize then
    if ∀ field ∈ fields, field.length ≤ intMax then runArgvs mode bsize (fields.map words)
    else ⟨[], .crash .outOfBounds⟩
  else ⟨[], .crash .overflow⟩

lemma runLine_eq (h : CStr buf 0 s) : runLine mode bsize buf = runFields mode bsize (tokens isSemi s) := by
  have hparsed := @getParsed2_spec 0 s bsize ⟨buf, 0⟩ h
  split at hparsed
  next hroom =>
    obtain ⟨command2, m', fs, heq, hlaid, hmap⟩ := hparsed
    rw [runFields, if_pos hroom.1, if_pos hroom.2]
    simp only [runLine, heq, commandLoop_eq hlaid]
    exact congrArg _ hmap
  next hover =>
    simp only [runLine, hparsed, runFields]
    split
    next hroom => rw [if_neg fun hint => hover ⟨hroom, hint⟩]
    next => rfl

lemma runFields_crash {fields : List (List Char)}
    (hover : ¬(fields.length < bsize ∧ ∀ f ∈ fields, f.length ≤ intMax)) :
    ¬(runFields mode bsize fields).Clean := by
  intro hclean
  rw [runFields] at hclean
  split at hclean
  next hroom =>
    rw [if_neg fun hint => hover ⟨hroom, hint⟩] at hclean
    exact hclean.ending _ rfl
  next => exact hclean.ending _ rfl

lemma chop_nil (h : CStr buf 0 []) : chop buf = .error .outOfBounds := by
  rw [chop, if_neg (not_not_intro h.nul_mem), h.cstr_eq]
  rfl

lemma chop_spec (h : CStr buf 0 s) (hne : s ≠ []) : ∃ buf', chop buf = .ok buf' ∧ CStr buf' 0 s.dropLast := by
  have hlen : 0 + s.dropLast.length = s.length - 1 := by rw [Nat.zero_add, List.length_dropLast]
  refine ⟨buf.set (s.length - 1) nul, ?_, ?_⟩
  · rw [chop, if_neg (not_not_intro h.nul_mem), h.cstr_eq, if_neg (List.length_eq_zero_iff.not.mpr hne)]
  · rw [← List.dropLast_concat_getLast hne] at h
    rw [← hlen]
    exact h.cut

end

/-! ### `get_line` -/

section

variable {junk : Nat → Char} {buf s : List Char} {n : Nat}

lemma realloc_cstr (h : CStr buf 0 s) (hn : s.length < n) : CStr (realloc junk buf n) 0 s := by
  refine h.frame fun i _ hi => ?_
  have hlt := h.lt_length
  rw [realloc, List.getElem?_map, List.getElem?_range (by omega), Option.map_some,
    List.getD_eq_getElem?_getD, List.getElem?_eq_getElem (by omega), Option.getD_some]

lemma realloc_noNul (h : nul ∉ buf.take n) : nul ∉ realloc (fun _ => 'x') buf n := by
  intro hmem
  obtain ⟨i, hi, heq⟩ := List.mem_map.mp hmem
  rw [List.mem_range] at hi
  rw [List.getD_eq_getElem?_getD] at heq
  cases hget : buf[i]? with
  | none =>
    rw [hget] at heq
    exact absurd heq (by decide : 'x' ≠ nul)
  | some c =>
    rw [hget] at heq
    obtain rfl : c = nul := heq
    exact h (List.mem_of_getElem? (by rw [List.getElem?_take_of_lt hi, hget]))

/-- `bsize` stays an `int` for lines up to the largest number of the form 50, 100, 200, ... that is one, and
then a string of less than 100 characters survives. -/
lemma growLoop_spec (junk : Nat → Char) (r : Nat) {j k : Nat} (hk : k + j = 25) (hpos : 0 < 50 * 2 ^ k)
    (buf : List Char) :
    ∃ buf' bsize, (∀ s, CStr buf 0 s → s.length < 50 * 2 ^ k * 2 → CStr buf' 0 s) ∧ 50 ≤ bsize ∧
      (r ≤ 50 * 2 ^ 25 → r ≤ bsize ∧ bsize ≤ intMax) ∧
      growLoop junk r (50 * 2 ^ k) hpos buf =
        if r ≤ 50 * 2 ^ 25 then .ok (buf', bsize) else .error .outOfBounds := by
  induction j generalizing k buf with
  | zero =>
    obtain rfl : k = 25 := hk
    refine ⟨buf, 50 * 2 ^ 25, fun _ h _ => h, by decide, fun hr => ⟨hr, by decide⟩, ?_⟩
    rw [growLoop]
    by_cases hr : r ≤ 50 * 2 ^ 25
    · rw [if_pos hr, if_neg hr.not_gt]
    · rw [if_neg hr, if_pos (not_le.mp hr), if_neg (by decide)]
  | succ j ih =>
    have hdouble : 50 * 2 ^ k * 2 = 50 * 2 ^ (k + 1) := by rw [Nat.pow_succ, Nat.mul_assoc]
    have hle : 50 * 2 ^ (k + 1) ≤ 50 * 2 ^ 25 :=
      Nat.mul_le_mul_left 50 (Nat.pow_le_pow_right Nat.two_pos (by omega))
    have hstep : 50 * 2 ^ k ≤ 50 * 2 ^ (k + 1) := by omega
    by_cases hr : 50 * 2 ^ k < r
    · obtain ⟨buf', bsize, hbuf, hb, hbound, heq⟩ := @ih (k + 1) (by omega) (hpos.trans_le hstep)
        (realloc junk buf (50 * 2 ^ (k + 1)))
      refine ⟨buf', bsize, fun s h hs => hbuf s (realloc_cstr h (by omega)) (by omega), hb, hbound, ?_⟩
      rw [growLoop, if_pos hr]
      simp only [hdouble]
      rw [if_pos (hle.trans (by decide)), heq]
    · refine ⟨buf, 50 * 2 ^ k, fun _ h _ => h, Nat.le_mul_of_pos_right 50 (Nat.two_pow_pos k),
        fun _ => ⟨not_lt.mp hr, (Nat.le_trans hstep hle).trans (by decide)⟩, ?_⟩
      rw [growLoop, if_neg hr, if_pos (by omega)]

lemma growLoop_noNul {r bsize : Nat} (hpos : 0 < bsize) (h : nul ∉ buf) :
    ∀ x, growLoop (fun _ => 'x') r bsize hpos buf = .ok x → nul ∉ x.1 := by
  induction hn : r - bsize using Nat.strongRecOn generalizing bsize buf with
  | ind n ih =>
    subst hn
    intro x hx
    rw [growLoop] at hx
    split at hx
    next hr =>
      split at hx
      next =>
        exact ih (r - bsize * 2) (by omega) (Nat.mul_pos hpos Nat.two_pos)
          (realloc_noNul fun hmem => h (List.mem_of_mem_take hmem)) rfl x hx
      next => cases hx
    next =>
      cases hx
      exact h

end

/-! ### A line of input -/

section

variable {mode : Mode} {line : Line} {junk : Nat → Char}

lemma Line.raw_pos (line : Line) : 0 < line.raw.length := by
  rw [Line.raw, List.length_append]
  cases line.nonempty with
  | inl htext => exact Nat.add_pos_left (List.length_pos_iff.mpr htext) _
  | inr hnewline => simp [hnewline]

lemma Line.seen_cstr (line : Line) : CStr (line.raw ++ [nul]) 0 line.seen := .of_takeWhile line.raw

lemma Line.seen_length_le (line : Line) : line.seen.length ≤ line.raw.length :=
  (List.takeWhile_prefix _).length_le

lemma Line.short (h : line.seen.length < 100) : (tokens isSemi line.kept).length < 50 ∧
      (∀ field ∈ tokens isSemi line.kept, field.length ≤ intMax) ∧
      ∀ argv ∈ line.argvs, argv.length < 50 := by
  have hkept : line.kept.length ≤ 98 := by
    rw [Line.kept, List.length_dropLast]
    omega
  refine ⟨?_, fun field hmem => ?_, fun argv hmem => ?_⟩
  · have := tokens_length isSemi line.kept
    omega
  · have := (mem_tokens hmem).2.1
    exact (Nat.le_trans this hkept).trans (by decide)
  · obtain ⟨field, hfield, rfl⟩ := List.mem_map.mp hmem
    have hlen := (mem_tokens hfield).2.1
    have := tokens_length isBlank field
    rw [words]
    omega

lemma Line.kept_nil (h : line.raw.length ≤ 1) : line.kept = [] := by
  have := line.seen_length_le
  exact List.length_eq_zero_iff.mp (by rw [Line.kept, List.length_dropLast]; omega)

/-- `get_line` returns the line without its last character. -/
lemma getLine_spec (junk : Nat → Char) (hraw : 1 < line.raw.length) (hseen : line.seen.length < 100) :
    if line.seen ≠ [] ∧ line.raw.length ≤ 50 * 2 ^ 25 then
      ∃ input bsize, getLine junk line.raw = .ok (some (input, bsize)) ∧ CStr input 0 line.kept ∧
        50 ≤ bsize else ∃ c, getLine junk line.raw = .error c := by
  obtain ⟨buf, bsize, hbuf, hb, -, hgrow⟩ := growLoop_spec junk line.raw.length (k := 0) (j := 25)
    rfl (by decide) (line.raw ++ [nul])
  have hbuf := hbuf _ line.seen_cstr hseen
  simp only [getLine, if_neg hraw.not_ge]
  change growLoop junk line.raw.length 50 _ _ = _ at hgrow
  rw [hgrow]
  by_cases hint : line.raw.length ≤ 50 * 2 ^ 25
  · by_cases hne : line.seen = []
    · rw [if_neg (fun h => h.1 hne), if_pos hint]
      rw [hne] at hbuf
      refine ⟨.outOfBounds, ?_⟩
      simp only [bind, Except.bind, chop_nil hbuf]
    · obtain ⟨input, hchop, hinput⟩ := chop_spec hbuf hne
      rw [if_pos ⟨hne, hint⟩, if_pos hint]
      refine ⟨input, bsize, ?_, hinput, hb⟩
      simp only [bind, Except.bind, hchop]
      rfl
  · rw [if_neg (fun h => hint h.2), if_neg hint]
    exact ⟨.outOfBounds, rfl⟩

lemma getLine_long (hseen : 100 ≤ line.seen.length) : ∃ c, getLine (fun _ => 'x') line.raw = .error c := by
  have hraw := line.seen_length_le
  have hcstr := line.seen_cstr
  have htake : nul ∉ (line.raw ++ [nul]).take 100 := by
    obtain ⟨rest, hrest⟩ := hcstr.drop_eq
    rw [List.drop_zero] at hrest
    rw [hrest, List.take_append_of_le_length hseen]
    exact fun hmem => hcstr.noNul (List.mem_of_mem_take hmem)
  simp only [getLine, if_neg (show ¬line.raw.length ≤ 1 by omega)]
  rw [growLoop, if_pos (by omega), if_pos (by decide)]
  cases hgrow : growLoop (fun _ => 'x') line.raw.length (50 * 2) (by decide)
      (realloc (fun _ => 'x') (line.raw ++ [nul]) (50 * 2)) with
  | error c => exact ⟨c, rfl⟩
  | ok x =>
    have hnul := growLoop_noNul _ (realloc_noNul htake) x hgrow
    refine ⟨.outOfBounds, ?_⟩
    simp only [bind, Except.bind, chop, if_pos hnul]

lemma shell_batch (hne : line.seen ≠ []) :
    shell .batch junk line = runFields .batch 50 (tokens isSemi line.kept) := by
  obtain ⟨input, hchop, hinput⟩ := chop_spec line.seen_cstr hne
  simp only [shell, hchop]
  exact runLine_eq hinput

lemma shell_batch_nil (hnil : line.seen = []) : shell .batch junk line = ⟨[], .crash .outOfBounds⟩ := by
  have hchop : chop (line.raw ++ [nul]) = .error .outOfBounds := chop_nil (hnil ▸ line.seen_cstr)
  simp only [shell, hchop]

/-- What the shell does with a line that there is room for. -/
lemma shell_eq (h : line.Sizes mode) : shell mode junk line = runArgvs mode 50 line.argvs := by
  cases mode with
  | batch =>
    obtain ⟨hne, hroom, hint⟩ := h
    rw [shell_batch hne, runFields, if_pos hroom, if_pos hint]
    rfl
  | interactive =>
    obtain ⟨hne, hseen, hint⟩ := h
    by_cases hraw : line.raw.length ≤ 1
    · simp only [shell, getLine, if_pos hraw, Line.argvs, Line.kept_nil hraw]
      rfl
    · obtain ⟨hroom, hlen, hargvs⟩ := Line.short hseen
      have hline := getLine_spec junk (not_le.mp hraw) hseen
      rw [if_pos ⟨hne, hint⟩] at hline
      obtain ⟨input, bsize, heq, hinput, hb⟩ := hline
      simp only [shell, heq]
      rw [runLine_eq hinput, runFields, if_pos (by omega), if_pos hlen]
      exact runArgvs_room hargvs hb

lemma asked_nul (hraw : line.raw.length ≤ 1) (hseen : line.seen = []) :
    (⟨[], .next⟩ : Outcome) ≠ asked mode line.text := by
  obtain ⟨c, hc⟩ : ∃ c, line.raw = [c] := List.length_eq_one_iff.mp (by
    have := line.raw_pos
    omega)
  obtain rfl : c = nul := by
    rw [Line.seen, hc] at hseen
    simpa using hseen
  have htext : line.text = [nul] := by
    rw [Line.raw] at hc
    split at hc
    next => cases htext : line.text <;> simp [htext, nul] at hc
    next => simpa using hc
  rw [htext]
  cases mode with
  | batch | interactive => decide

lemma Outcome.ne_asked {o : Outcome} {text : List Char} (h : ¬o.Clean) : o ≠ asked mode text :=
  fun heq => h (heq ▸ asked_clean mode text)

lemma shell_ne (h : ¬line.Sizes mode) : ∃ junk, shell mode junk line ≠ asked mode line.text := by
  cases mode with
  | batch =>
    refine ⟨fun _ => nul, Outcome.ne_asked ?_⟩
    by_cases hne : line.seen = []
    · rw [shell_batch_nil hne]
      exact fun hclean => hclean.ending _ rfl
    · rw [shell_batch hne]
      exact runFields_crash fun hover => h ⟨hne, hover⟩
  | interactive =>
    have hcrash : ∀ junk c, getLine junk line.raw = .error c → ¬(shell .interactive junk line).Clean := by
      intro junk c heq hclean
      simp only [shell, heq] at hclean
      exact hclean.ending c rfl
    by_cases hseen : 100 ≤ line.seen.length
    · obtain ⟨c, heq⟩ := getLine_long hseen
      exact ⟨fun _ => 'x', Outcome.ne_asked (hcrash _ c heq)⟩
    refine ⟨fun _ => nul, ?_⟩
    have hsafe : ¬(line.seen ≠ [] ∧ line.raw.length ≤ 50 * 2 ^ 25) := fun hsafe =>
      h ⟨hsafe.1, not_le.mp hseen, hsafe.2⟩
    by_cases hraw : line.raw.length ≤ 1
    · have hnil : line.seen = [] := by
        by_contra hne
        exact hsafe ⟨hne, by omega⟩
      simp only [shell, getLine, if_pos hraw]
      exact asked_nul hraw hnil
    · have hline := getLine_spec (fun _ => nul) (not_le.mp hraw) (not_le.mp hseen)
      rw [if_neg hsafe] at hline
      obtain ⟨c, heq⟩ := hline
      exact Outcome.ne_asked (hcrash _ c heq)

/-- The shell runs what a line asks for, whatever `realloc` adds, exactly for the lines that are safe. -/
theorem shell_runs_asked (mode : Mode) (line : Line) :
    (∀ junk, shell mode junk line = asked mode line.text) ↔ line.Safe mode := by
  constructor
  · intro h
    have hsizes : line.Sizes mode := by
      by_contra hnot
      obtain ⟨junk, hne⟩ := shell_ne hnot
      exact hne (h junk)
    have hrun : runArgvs mode 50 line.argvs = asked mode line.text :=
      (shell_eq hsizes).symm.trans (h fun _ => nul)
    have hfits : Fits mode line.argvs := runArgvs_clean (hrun ▸ asked_clean mode line.text)
    refine ⟨hsizes, hfits, ?_⟩
    rw [← hrun, runArgvs_eq hfits, Line.argvs, filter_words, asked]
  · intro h junk
    rw [shell_eq h.sizes, runArgvs_eq h.fits, Line.argvs, filter_words]
    exact h.cut

end

/-- In `ls; ;pwd`, the field in the middle is blank. -/
def blankField : Line := ⟨"ls; ;pwd".toList, true, by decide, .inr rfl⟩

/-- The name that is compared with `quit`, and the one that `execvp` gets, is a null pointer. -/
theorem shell_blank_field :
    (∀ junk, shell .interactive junk blankField =
      ⟨[.exec (some "ls".toList) ["ls".toList]], .crash .nullName⟩) ∧
    (∀ junk, shell .batch junk blankField =
      ⟨[.exec (some "ls".toList) ["ls".toList], .exec none [], .exec (some "pwd".toList) ["pwd".toList]],
        .next⟩) ∧
    ∀ mode, asked mode blankField.text =
      ⟨[.exec (some "ls".toList) ["ls".toList], .exec (some "pwd".toList) ["pwd".toList]], .next⟩ := by
  refine ⟨fun junk => ?_, fun junk => ?_, fun mode => ?_⟩
  · rw [shell_eq ⟨by decide, by decide⟩]
    decide
  · rw [shell_eq ⟨by decide, by decide⟩]
    decide
  · cases mode with
    | interactive | batch => decide

end Xv6.ProjShell
