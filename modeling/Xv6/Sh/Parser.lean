import Xv6.Lib.Hoare

/-!
# The parser of the shell (`sh.c`)

A pointer into the command line is the list of the characters from there to the end of the line, so that
`es` is the empty list and `s++` drops the first character. The functions share the cursor `*ps`, which is
the state of the programs below. They return a command or stop with a `panic`, which ends the shell.

The functions call each other, and loop, as long as the line goes on. Here each takes a bound on the depth
of its calls and stops with `Stop.deep` when this is used up; `parsecmd` gives a bound that is enough for
its line.
-/

namespace Xv6.Sh

open Lib

/-- A line of characters that a NUL ends. -/
structure CString where
  chars : List Char
  noNul : '\x00' ∉ chars

/-- A counted string of the line, from `q` up to `eq`. -/
structure Word where
  q : List Char
  eq : List Char
  deriving DecidableEq, Repr

/-- The characters of a counted string. -/
def Word.text (w : Word) : List Char := w.q.take (w.q.length - w.eq.length)

/-- `struct cmd` and what it is part of. -/
inductive Cmd
  | exec (argv : List Word)
  | redir (cmd : Cmd) (file : Word) (mode fd : Nat)
  | pipe (left right : Cmd)
  | list (left right : Cmd)
  | back (cmd : Cmd)
  deriving DecidableEq, Repr

/-- `MAXARGS` -/
def maxArgs : Nat := 10

/-- `O_RDONLY`, `O_WRONLY` and `O_CREATE` of `fcntl.h`. -/
def oRdonly : Nat := 0x000
def oWronly : Nat := 0x001
def oCreate : Nat := 0x200

/-! ### Tokens -/

def whitespace : List Char := [' ', '\t', '\r', '\n', '\x0b']
def symbols : List Char := ['<', '|', '>', '&', ';', '(', ')']

/-- `while(s < es && strchr(whitespace, *s)) s++` -/
def skip (s : List Char) : List Char := s.dropWhile (whitespace.contains ·)

/-- The characters over which `gettoken` goes in a word. -/
def isWordChar (c : Char) : Bool := !whitespace.contains c && !symbols.contains c

/-- What `gettoken` returns, other than 0. `append` is its `'+'` and `word` its `'a'`, with `q` and `eq`. -/
inductive Token
  | bar
  | lparen
  | rparen
  | semi
  | amp
  | lt
  | gt
  | append
  | word (w : Word)
  deriving DecidableEq, Repr

/-- The switch of `gettoken`, at a character that is not white space: the token, and the rest. -/
def scan : List Char → Option Token × List Char
  | [] => (none, [])
  | '|' :: s => (some .bar, s)
  | '(' :: s => (some .lparen, s)
  | ')' :: s => (some .rparen, s)
  | ';' :: s => (some .semi, s)
  | '&' :: s => (some .amp, s)
  | '<' :: s => (some .lt, s)
  | '>' :: '>' :: s => (some .append, s)
  | '>' :: s => (some .gt, s)
  | c :: s =>
    let eq := (c :: s).dropWhile isWordChar
    (some (.word ⟨c :: s, eq⟩), eq)

/-- Why the shell panics. -/
inductive Panic
  /-- `missing file for redirection` -/
  | missingFile
  /-- `parseblock` -/
  | parseblock
  /-- `syntax - missing )` -/
  | missingParen
  /-- `syntax`, in `parseexec` -/
  | badToken
  /-- `too many args` -/
  | tooManyArgs
  /-- `leftovers`, and then `syntax`, in `parsecmd` -/
  | leftovers (s : List Char)
  deriving DecidableEq, Repr

inductive Stop
  | panic (why : Panic)
  /-- the calls are deeper than the bound -/
  | deep
  deriving DecidableEq, Repr

abbrev Parser := EStateM Stop (List Char)

/-- `gettoken` -/
def gettoken : Parser (Option Token) := do
  let (ret, s) := scan (skip (← get))
  set (skip s)
  return ret

/-- `peek` -/
def peek (toks : List Char) : Parser Bool := do
  let s := skip (← get)
  set s
  return s.head?.any (toks.contains ·)

/-! ### Commands -/

/-- `parseredirs` -/
def parseredirs : Nat → Cmd → Parser Cmd
  | 0, _ => throw .deep
  | n + 1, cmd => do
    if ← peek ['<', '>'] then
      let tok ← gettoken
      match ← gettoken with
      | some (.word w) =>
        match tok with
        | some .lt => parseredirs n (.redir cmd w oRdonly 0)
        | some .gt => parseredirs n (.redir cmd w (oWronly ||| oCreate) 1)
        | some .append => parseredirs n (.redir cmd w (oWronly ||| oCreate) 1)
        | _ => parseredirs n cmd
      | _ => throw (.panic .missingFile)
    else return cmd

/-- `cmd->argv[argc] = q`, `cmd->eargv[argc] = eq`, where `cmd` is the `execcmd` inside of `ret`. -/
def Cmd.pushArg (w : Word) : Cmd → Cmd
  | .exec argv => .exec (argv ++ [w])
  | .redir cmd file mode fd => .redir (cmd.pushArg w) file mode fd
  | cmd => cmd

/-- The loop of `parseexec`. -/
def parseargs : Nat → Cmd → Nat → Parser Cmd
  | 0, _, _ => throw .deep
  | n + 1, ret, argc => do
    if ← peek ['|', ')', '&', ';'] then return ret
    else match ← gettoken with
      | none => return ret
      | some (.word w) =>
        if argc + 1 ≥ maxArgs then throw (.panic .tooManyArgs)
        else
          let ret ← parseredirs n (ret.pushArg w)
          parseargs n ret (argc + 1)
      | some _ => throw (.panic .badToken)

/-- `while(peek(ps, es, "&"))`, in `parseline` -/
def parsebacks : Nat → Cmd → Parser Cmd
  | 0, _ => throw .deep
  | n + 1, cmd => do
    if ← peek ['&'] then
      let _ ← gettoken
      parsebacks n (.back cmd)
    else return cmd

mutual

/-- `parseline` -/
def parseline : Nat → Parser Cmd
  | 0 => throw .deep
  | n + 1 => do
    let cmd ← parsepipe n
    let cmd ← parsebacks n cmd
    if ← peek [';'] then
      let _ ← gettoken
      return .list cmd (← parseline n)
    else return cmd

/-- `parsepipe` -/
def parsepipe : Nat → Parser Cmd
  | 0 => throw .deep
  | n + 1 => do
    let cmd ← parseexec n
    if ← peek ['|'] then
      let _ ← gettoken
      return .pipe cmd (← parsepipe n)
    else return cmd

/-- `parseblock` -/
def parseblock : Nat → Parser Cmd
  | 0 => throw .deep
  | n + 1 => do
    if ← peek ['('] then
      let _ ← gettoken
      let cmd ← parseline n
      if ← peek [')'] then
        let _ ← gettoken
        parseredirs n cmd
      else throw (.panic .missingParen)
    else throw (.panic .parseblock)

/-- `parseexec` -/
def parseexec : Nat → Parser Cmd
  | 0 => throw .deep
  | n + 1 => do
    if ← peek ['('] then parseblock n
    else
      let ret ← parseredirs n (.exec [])
      parseargs n ret 0

end

/-- `nulterminate`, on the memory of the line, which is `n` characters long. -/
def nulterminate (n : Nat) : Cmd → List Char → List Char
  | .exec argv, buf => argv.foldl (fun buf w => buf.set (n - w.eq.length) '\x00') buf
  | .redir cmd file _ _, buf => (nulterminate n cmd buf).set (n - file.eq.length) '\x00'
  | .pipe left right, buf => nulterminate n right (nulterminate n left buf)
  | .list left right, buf => nulterminate n right (nulterminate n left buf)
  | .back cmd, buf => nulterminate n cmd buf

/-- `parsecmd` up to `nulterminate`. -/
def parseall (n : Nat) : Parser Cmd := do
  let cmd ← parseline n
  let _ ← peek []
  let s ← get
  if s = [] then return cmd
  else throw (.panic (.leftovers s))

/-- `parsecmd`: the command, and the memory of the line. -/
def parsecmd (line : CString) : Except Stop (Cmd × List Char) :=
  match parseall (4 * line.chars.length + 4) line.chars with
  | .ok cmd _ => .ok (cmd, nulterminate line.chars.length cmd (line.chars ++ ['\x00']))
  | .error e _ => .error e

/-- The string at the address `q` of the memory of the line. -/
def stringAt (n : Nat) (buf : List Char) (q : List Char) : List Char :=
  (buf.drop (n - q.length)).takeWhile (· != '\x00')

end Xv6.Sh
