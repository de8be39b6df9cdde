import Xv6.ProjShell.Main

/-!
# Where the shell reads and stores too much

Three places of `shell.c` are right only for some lines. The arrays of `get_parsed2` and `get_parsed` have
`*bsize` entries, which is 50 for all commands of a line but the first, and in batch mode for all of them
(`arrays_hold_iff`). The last character of a line is cut off in any case, also where the last line of a
batch file has no newline (`batch_newline_iff`). `get_line` compares the result of `getline` with `*bsize`
after it has become a `size_t`, so that the `-1` at the end of the input is a very long line
(`get_line_ends_iff`).
-/

namespace Xv6.ProjShell

open Lib

variable {mode : Mode} {bsize : Nat} {argv : List (List Char)} {argvs : List (List (List Char))}

/-! ### The arrays of pointers -/

/-- The argument vectors that are reached: those up to `quit`, or to a command without a name in interactive
mode. -/
def entered (mode : Mode) : List (List (List Char)) → List (List (List Char))
  | [] => []
  | argv :: rest =>
    argv :: match runCommand mode argv with
      | .ok _ => entered mode rest
      | .error _ => []

lemma runCommand_ne_overflow {e : Ending} (h : runCommand mode argv = .error e) : e ≠ .crash .overflow := by
  unfold runCommand at h
  split at h
  next => cases h
  next =>
    cases h
    nofun
  next =>
    split at h
    · cases h
      nofun
    · split at h <;> cases h

lemma forall_entered {P : List (List Char) → Prop} :
    ((∀ argv ∈ argvs.head?, P argv) ∧ ∀ argv ∈ (entered mode argvs).tail, P argv) ↔
      ∀ argv ∈ entered mode argvs, P argv := by
  cases argvs with
  | nil => simp [entered]
  | cons argv rest => simp [entered]

lemma entered_batch : entered .batch argvs = argvs := by
  induction argvs with
  | nil => rfl
  | cons argv rest ih => exact congrArg (List.cons argv) ih

lemma entered_subset : entered mode argvs ⊆ argvs := by
  induction argvs with
  | nil => exact List.Subset.refl _
  | cons argv rest ih =>
    rw [entered]
    cases runCommand mode argv with
    | error e => simp
    | ok a => exact List.cons_subset_cons argv ih

/-- The words of the first command have `bsize` entries, those of the later ones 50. -/
lemma runArgvs_overflow : (runArgvs mode bsize argvs).ending ≠ .crash .overflow ↔
    (∀ argv ∈ argvs.head?, argv.length < bsize) ∧ ∀ argv ∈ (entered mode argvs).tail, argv.length < 50 := by
  induction argvs generalizing bsize with
  | nil => simp [runArgvs, entered]
  | cons argv rest ih =>
    rw [runArgvs, entered]
    by_cases hlen : argv.length < bsize
    · rw [if_pos hlen]
      cases hcmd : runCommand mode argv with
      | error e => simpa [hlen] using runCommand_ne_overflow hcmd
      | ok a => simpa [hlen, Outcome.after] using ih.trans forall_entered
    · rw [if_neg hlen]
      simp [hlen]

variable {fields : List (List Char)}

lemma runFields_overflow : (runFields mode bsize fields).ending ≠ .crash .overflow ↔ fields.length < bsize ∧
      ((∀ field ∈ fields, field.length ≤ intMax) →
        (runArgvs mode bsize (fields.map words)).ending ≠ .crash .overflow) := by
  rw [runFields]
  by_cases hroom : fields.length < bsize
  · rw [if_pos hroom, and_iff_right hroom]
    by_cases hint : ∀ field ∈ fields, field.length ≤ intMax
    · rw [if_pos hint]
      exact ⟨fun h _ => h, fun h => h hint⟩
    · rw [if_neg hint]
      exact ⟨fun _ h => absurd h hint, fun _ => by simp⟩
  · rw [if_neg hroom]
    exact ⟨fun h => absurd rfl h, fun h => absurd h.1 hroom⟩

section

variable {c : Crash} {junk : Nat → Char} {line : Line} {buf : List Char}

lemma chop_error (h : chop buf = .error c) : c = .outOfBounds := by
  unfold chop at h
  split at h
  · exact (Except.error.inj h).symm
  · split at h
    · exact (Except.error.inj h).symm
    · cases h

/-- Before it is parsed, a line does not overflow an array. -/
lemma getLine_error (h : getLine junk line.raw = .error c) : c = .outOfBounds := by
  obtain ⟨buf, bsize, -, -, -, hgrow⟩ := growLoop_spec junk line.raw.length (k := 0) (j := 25)
    rfl (by decide) (line.raw ++ [nul])
  change growLoop junk line.raw.length 50 _ _ = _ at hgrow
  simp only [getLine, hgrow] at h
  split at h
  · cases h
  · split at h
    · cases hchop : chop buf with
      | error c' =>
        rw [← chop_error hchop]
        simp only [bind, Except.bind, hchop] at h
        exact (Except.error.inj h).symm
      | ok input =>
        simp only [bind, Except.bind, hchop] at h
        cases h
    · exact (Except.error.inj h).symm

/-- In interactive mode a line of fewer than 100 characters has too few fields and words for an overflow. -/
lemma shell_short (hseen : line.seen.length < 100) :
    (shell .interactive junk line).ending ≠ .crash .overflow := by
  by_cases hsizes : line.Sizes .interactive
  · rw [shell_eq hsizes, runArgvs_overflow]
    have hargvs := (Line.short hseen).2.2
    exact ⟨fun argv h => hargvs argv (List.mem_of_mem_head? h), fun argv h => hargvs argv
      (entered_subset (List.mem_of_mem_tail h))⟩
  · cases hline : getLine junk line.raw with
    | error c => simp [shell, hline, getLine_error hline]
    | ok r =>
      by_cases hraw : line.raw.length ≤ 1
      · simp [shell, getLine, hraw, pure, Except.pure]
      · have hspec := getLine_spec junk (not_le.mp hraw) hseen
        rw [if_neg fun h => hsizes ⟨h.1, hseen, h.2⟩] at hspec
        obtain ⟨c, hc⟩ := hspec
        rw [hline] at hc
        cases hc

end

/-- Fifty commands on a line. -/
def fiftyFields : Line :=
  ⟨(List.replicate 50 ['a', ';']).flatten, true, by decide, .inr rfl⟩

/-- What is done after `o`, if that has come to its end. -/
def Outcome.andThen (o o' : Outcome) : Outcome :=
  if o.ending = .next then { o' with ran := o.ran ++ o'.ran } else o

/-- The loop of batch mode. A file is the lines that `getline` returns. A child shares the offset of the file;
one whose `execvp` fails is assumed to leave it alone. (An `exit` that gives back what was read ahead, as that
of glibc, moves it, and the lines after `nosuch` are then read twice.) -/
def batch : List Line → Outcome
  | [] => ⟨[], .next⟩
  | line :: rest => (shell .batch (fun _ => nul) line).andThen (batch rest)

lemma andThen_assoc (o o' o'' : Outcome) : (o.andThen o').andThen o'' = o.andThen (o'.andThen o'') := by
  unfold Outcome.andThen
  split
  next =>
    dsimp only
    split
    next => rw [List.append_assoc]
    next => rfl
  next => rfl

lemma andThen_inj {o o₁ o₂ : Outcome} : o.andThen o₁ = o.andThen o₂ ↔ o.ending ≠ .next ∨ o₁ = o₂ := by
  unfold Outcome.andThen
  by_cases hnext : o.ending = .next
  · rw [if_pos hnext, if_pos hnext]
    constructor
    · intro h
      obtain ⟨ran₁, end₁⟩ := o₁
      obtain ⟨ran₂, end₂⟩ := o₂
      obtain ⟨hran, hend⟩ := Outcome.mk.inj h
      cases List.append_cancel_left hran
      cases hend
      exact .inr rfl
    · rintro (h | rfl)
      · exact absurd hnext h
      · rfl
  · rw [if_neg hnext, if_neg hnext]
    exact ⟨fun _ => .inl hnext, fun _ => rfl⟩

lemma batch_append (file : List Line) (line : Line) :
    batch (file ++ [line]) = (batch file).andThen (shell .batch (fun _ => nul) line) := by
  induction file with
  | nil =>
    rw [List.nil_append, batch, batch]
    generalize shell .batch (fun _ => nul) line = o
    obtain ⟨ran, ending⟩ := o
    unfold Outcome.andThen
    split
    next hnext =>
      cases hnext
      simp [batch]
    next => rfl
  | cons first file ih => rw [List.cons_append, batch, ih, batch, andThen_assoc]

/-- What stands behind a part of a string only makes its last token longer. -/
lemma tokens_append (sep : Char → Bool) (u : List Char) :
    ∃ F w, (∀ c ∈ w, sep c = false) ∧ (w = [] ↔ ∀ d ∈ u.getLast?, sep d) ∧
      ∀ y, tokens sep (u ++ y) = F ++ tokens sep (w ++ y) := by
  induction u using List.reverseRecOn with
  | nil => exact ⟨[], [], List.forall_mem_nil _, by simp, fun y => rfl⟩
  | append_singleton u d ih =>
    cases hd : sep d with
    | true =>
      refine ⟨tokens sep u, [], List.forall_mem_nil _, by simp [hd], fun y => ?_⟩
      rw [List.append_assoc, List.singleton_append, tokens, List.splitOnP_append_cons u y hd,
        List.filter_append]
      rfl
    | false =>
      obtain ⟨F, w, hw, -, heq⟩ := ih
      refine ⟨F, w ++ [d], ?_, by simp [hd], fun y => ?_⟩
      · simpa [or_imp, forall_and] using ⟨hw, hd⟩
      · rw [List.append_assoc, heq, List.append_assoc]

lemma tokens_snoc_ne {sep : Char → Bool} {c : Char} (hc : sep c = false) (u : List Char) :
    tokens sep (u ++ [c]) ≠ tokens sep u := by
  obtain ⟨F, w, hw, -, heq⟩ := tokens_append sep u
  have hu := heq []
  rw [List.append_nil, List.append_nil] at hu
  have hwc : ∀ x ∈ w ++ [c], sep x = false := by simpa [or_imp, forall_and] using ⟨hw, hc⟩
  rw [heq, hu, tokens_word (List.append_ne_nil_of_right_ne_nil w (List.cons_ne_nil c [])) hwc]
  intro h
  have h := List.append_cancel_left h
  by_cases hne : w = []
  · rw [hne, tokens_seps (List.forall_mem_nil _)] at h
    cases h
  · rw [tokens_word hne hw] at h
    simpa using List.head_eq_of_cons_eq h

/-- The last character can be missed: it is a semicolon, or a blank behind another character of its field. -/
def Spare (u : List Char) (c : Char) : Prop :=
  isSemi c = true ∨ isBlank c = true ∧ ∃ d ∈ u.getLast?, isSemi d = false

/-- The arrays have room for a line of batch mode, and the lengths of its fields are `int`s. -/
def FieldsFit (fields : List (List Char)) : Prop :=
  fields.length < 50 ∧ (∀ field ∈ fields, field.length ≤ intMax) ∧ ∀ field ∈ fields, (words field).length < 50

lemma runArgvs_next (h : ∀ argv ∈ argvs, argv.length < 50) :
    runArgvs .batch 50 argvs = ⟨argvs.map fun argv => .exec argv.head? argv, .next⟩ := by
  induction argvs with
  | nil => rfl
  | cons argv rest ih =>
    obtain ⟨hlen, h⟩ := List.forall_mem_cons.mp h
    rw [runArgvs, if_pos hlen]
    simp only [runCommand, ih h]
    rfl

lemma FieldsFit.run (h : FieldsFit fields) : runFields .batch 50 fields =
    ⟨(fields.map words).map fun argv => .exec argv.head? argv, .next⟩ := by
  rw [runFields, if_pos h.1, if_pos h.2.1, runArgvs_next (List.forall_mem_map.mpr h.2.2)]

lemma runFields_next_iff : (runFields .batch 50 fields).ending = .next ↔ FieldsFit fields := by
  refine ⟨fun h => ?_, fun h => by rw [h.run]⟩
  have hover := runFields_overflow.mp (show (runFields .batch 50 fields).ending ≠ _ by rw [h]; nofun)
  have hint : ∀ field ∈ fields, field.length ≤ intMax := by
    by_contra hint
    rw [runFields, if_pos hover.1, if_neg hint] at h
    cases h
  have hroom := forall_entered.mp (runArgvs_overflow.mp (hover.2 hint))
  rw [entered_batch] at hroom
  exact ⟨hover.1, hint, List.forall_mem_map.mp hroom⟩

/-- Deleting the last character of a line leaves its commands exactly if it can be missed. -/
lemma runFields_dropLast {u : List Char} {c : Char} (h : FieldsFit (tokens isSemi (u ++ [c]))) :
    runFields .batch 50 (tokens isSemi u) = runFields .batch 50 (tokens isSemi (u ++ [c])) ↔ Spare u c := by
  cases hsemi : isSemi c with
  | true =>
    rw [tokens_append_seps (by simpa using hsemi)]
    exact ⟨fun _ => .inl hsemi, fun _ => rfl⟩
  | false =>
    obtain ⟨F, w, hw, hnil, heq⟩ := tokens_append isSemi u
    have hu := heq []
    rw [List.append_nil, List.append_nil] at hu
    have hwc : ∀ x ∈ w ++ [c], isSemi x = false := by simpa [or_imp, forall_and] using ⟨hw, hsemi⟩
    have ht : tokens isSemi (u ++ [c]) = F ++ [w ++ [c]] := by
      rw [heq, tokens_word (List.append_ne_nil_of_right_ne_nil w (List.cons_ne_nil c [])) hwc]
    constructor
    · intro hsame
      have hfits := runFields_next_iff.mp (show (runFields .batch 50 (tokens isSemi u)).ending = .next by
        rw [hsame, h.run])
      rw [h.run, hfits.run] at hsame
      have hargvs : (tokens isSemi u).map words = (tokens isSemi (u ++ [c])).map words := by
        refine (List.map_inj_right fun a b hab => ?_).mp (Outcome.mk.inj hsame).1
        exact (Action.exec.inj hab).2
      rw [ht, hu, List.map_append, List.map_append] at hargvs
      have hargvs := List.append_cancel_left hargvs
      by_cases hwnil : w = []
      · rw [hwnil, tokens_seps (List.forall_mem_nil _)] at hargvs
        cases hargvs
      · rw [tokens_word hwnil hw] at hargvs
        have hwords : words w = words (w ++ [c]) := List.head_eq_of_cons_eq hargvs
        refine .inr ⟨(Bool.not_eq_false _).mp fun hblank => tokens_snoc_ne hblank w hwords.symm, ?_⟩
        by_contra hall
        exact hwnil (hnil.mpr fun d hd => (Bool.not_eq_false _).mp fun hd' => hall ⟨d, hd, hd'⟩)
    · rintro (hc | ⟨hblank, d, hd, hd'⟩)
      · exact absurd (hsemi.symm.trans hc) nofun
      · have hwnil : w ≠ [] := fun hwnil => by
          rw [hnil.mp hwnil d hd] at hd'
          cases hd'
        rw [tokens_word hwnil hw] at hu
        have hwords : words (w ++ [c]) = words w := tokens_append_seps (by simpa using hblank) w
        obtain ⟨hroom, hint, hlen⟩ := h
        have hfits : FieldsFit (tokens isSemi u) := by
          rw [ht, List.forall_mem_append, List.forall_mem_singleton] at hint hlen
          rw [ht, List.length_append] at hroom
          rw [hwords] at hlen
          rw [List.length_append] at hint
          rw [hu, FieldsFit, List.length_append, List.forall_mem_append, List.forall_mem_append,
            List.forall_mem_singleton, List.forall_mem_singleton]
          exact ⟨hroom, ⟨hint.1, by omega⟩, hlen⟩
        rw [hfits.run, FieldsFit.run ⟨hroom, hint, hlen⟩, hu, ht]
        simp only [List.map_append, List.map_singleton, hwords]

/-- The last line of a file. -/
def lastLine (u : List Char) (c : Char) (h : '\n' ∉ u ++ [c]) (newline : Bool) : Line :=
  ⟨u ++ [c], newline, h, .inl (List.append_ne_nil_of_right_ne_nil u (List.cons_ne_nil c []))⟩

/-- A batch file does the same with and without the newline at its end, and runs its last line to the end if
it gets there, exactly if it does not get there, or the line fits into the arrays and either has a null
character in it or a last character that can be missed. -/
theorem batch_newline_iff (file : List Line) (u : List Char) (c : Char) (h : '\n' ∉ u ++ [c]) :
    batch (file ++ [lastLine u c h false]) = batch (file ++ [lastLine u c h true]) ∧
        ((batch file).ending = .next → (batch (file ++ [lastLine u c h true])).ending = .next) ↔
      (batch file).ending ≠ .next ∨
        ((lastLine u c h true).seen ≠ [] ∧ FieldsFit (tokens isSemi (lastLine u c h true).kept)) ∧
          (nul ∈ u ++ [c] ∨ Spare u c) := by
  rw [batch_append, batch_append, andThen_inj]
  by_cases hfile : (batch file).ending = .next
  swap
  · exact iff_of_true ⟨.inl hfile, fun h => absurd h hfile⟩ (.inl hfile)
  rw [or_iff_right (not_not.mpr hfile), or_iff_right (not_not.mpr hfile), Outcome.andThen, if_pos hfile]
  simp only [hfile, forall_const]
  by_cases hnul : nul ∈ u ++ [c]
  · -- the string ends before the newline
    obtain ⟨s, rest, hsplit, hs⟩ := List.eq_append_cons_of_mem hnul
    have hseen : ∀ b, (lastLine u c h b).seen = s := fun b => by
      have hall : ∀ x ∈ s, decide (x ≠ nul) = true := fun x hx =>
        decide_eq_true (ne_of_mem_of_not_mem hx hs)
      show (u ++ [c] ++ if b = true then ['\n'] else []).takeWhile _ = s
      rw [hsplit, List.append_assoc, List.takeWhile_append_of_pos hall]
      simp
    have hleft : nul ∈ u ++ [c] ∨ Spare u c := .inl hnul
    rw [Line.kept, hseen, and_iff_left hleft]
    by_cases hne : s = []
    · rw [shell_batch_nil ((hseen true).trans hne)]
      exact iff_of_false (fun h => by cases h.2) fun h => h.1 hne
    · rw [shell_batch ((hseen false).symm ▸ hne), shell_batch ((hseen true).symm ▸ hne), Line.kept, Line.kept,
        hseen, hseen, runFields_next_iff, and_iff_right rfl, and_iff_right hne]
  · have hseen : ∀ b, (lastLine u c h b).seen = u ++ [c] ++ if b then ['\n'] else [] := fun b => by
      have hall : ∀ x ∈ u ++ [c] ++ if b then ['\n'] else [], decide (x ≠ nul) = true := by
        intro x hx
        refine decide_eq_true ?_
        rintro rfl
        obtain hx | hx := List.mem_append.mp hx
        · exact hnul hx
        · cases b <;> simp [nul] at hx
      exact List.takeWhile_eq_self_iff.mpr hall
    have hshort := hseen false
    have hlong := hseen true
    rw [if_neg (by simp), List.append_nil] at hshort
    rw [if_pos rfl] at hlong
    have hneu : u ++ [c] ≠ [] := List.append_ne_nil_of_right_ne_nil u (List.cons_ne_nil c [])
    have hnel := List.append_ne_nil_of_left_ne_nil hneu ['\n']
    rw [shell_batch (hshort ▸ hneu), shell_batch (hlong ▸ hnel), Line.kept, Line.kept, hshort, hlong,
      List.dropLast_concat, List.dropLast_concat, or_iff_right hnul, runFields_next_iff, and_iff_right hnel,
      and_comm]
    exact and_congr_right fun hfits => runFields_dropLast hfits

/-- The file `ls`, without a newline, runs `l`. -/
theorem last_character_cut :
    batch [lastLine ['l'] 's' (by decide) false] = ⟨[.exec (some ['l']) [['l']]], .next⟩ ∧
      batch [lastLine ['l'] 's' (by decide) true] = ⟨[.exec (some ['l', 's']) [['l', 's']]], .next⟩ := by
  constructor
  · rw [batch, shell_batch (by decide)]
    decide +kernel
  · rw [batch, shell_batch (by decide)]
    decide +kernel

/-- `ls;` and `ls;` with a newline. -/
theorem batch_newline_semicolon :
    batch ([] ++ [lastLine ['l', 's'] ';' (by decide) false]) =
      batch ([] ++ [lastLine ['l', 's'] ';' (by decide) true]) :=
  ((batch_newline_iff [] ['l', 's'] ';' (by decide)).mpr
    (.inr ⟨⟨by decide, runFields_next_iff.mp (by decide +kernel)⟩, .inr (.inl rfl)⟩)).1

/-! ### The loop of `get_line` -/

/-- `size_t r = getline(..)` -/
def toSize (ret : Int) : Nat := (ret % 2 ^ 64).toNat

/-- For what `getline` returns, whatever is in the buffer: `get_line` returns `NULL`, or its loop ends with an
`int` that is not less than the length, exactly if the length is at most `50 * 2 ^ 25`. -/
theorem get_line_ends_iff (junk : Nat → Char) (ret : Int) (buf : List Char) :
    (toSize ret ≤ 1 ∨ ∃ input bsize, growLoop junk (toSize ret) 50 (by decide) buf = .ok (input, bsize) ∧
      toSize ret ≤ bsize ∧ bsize ≤ intMax) ↔ toSize ret ≤ 50 * 2 ^ 25 := by
  obtain ⟨input, bsize, -, -, hbound, hgrow⟩ := growLoop_spec junk (toSize ret) (k := 0) (j := 25)
    rfl (by decide) buf
  change growLoop junk (toSize ret) 50 _ _ = _ at hgrow
  rw [hgrow]
  by_cases hr : toSize ret ≤ 50 * 2 ^ 25
  · rw [if_pos hr]
    exact ⟨fun _ => hr, fun _ => .inr ⟨input, bsize, rfl, hbound hr⟩⟩
  · rw [if_neg hr]
    refine ⟨?_, fun h => absurd h hr⟩
    rintro (h | ⟨input, bsize, h, -⟩)
    · exact absurd (h.trans (by decide)) hr
    · cases h

/-- At the end of the input `getline` returns `-1`, and `*bsize` overflows. -/
theorem get_line_at_eof : ¬toSize (-1) ≤ 1 ∧
    ∀ junk buf, growLoop junk (toSize (-1)) 50 (by decide) buf = .error .outOfBounds := by
  refine ⟨by decide, fun junk buf => ?_⟩
  obtain ⟨input, bsize, -, -, -, hgrow⟩ := growLoop_spec junk (toSize (-1)) (k := 0) (j := 25)
    rfl (by decide) buf
  change growLoop junk (toSize (-1)) 50 _ _ = _ at hgrow
  rw [hgrow, if_neg (by decide)]

end Xv6.ProjShell
