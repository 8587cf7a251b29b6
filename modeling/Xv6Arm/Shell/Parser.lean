import Xv6Arm.Shell.Model
import Mathlib.Data.List.Basic

/-!
# The shell's parser

`parsecmd` of `sh.c` and the functions below it.  They share one cursor in the
line.  A pointer into the line is what is left of the line from there on, so the
cursor is the list of characters that are not read yet, it is at `es` where that
list is empty, and the character there is the NUL that ends the line.

The loops and the recursion take a bound on the number of rounds and calls.
Running out of it is an outcome of its own and not a panic.

An argument or a file name is a pair of pointers into the line (`argv` and
`eargv`, `file` and `efile`).  It becomes a string when `nulterminate` writes a NUL
where it ends.
-/

namespace Xv6Arm.Shell

def MAXARGS : Nat := 10

def whitespace : List Char := [' ', '\t', '\r', '\n', '\x0b']

def symbols : List Char := ['<', '|', '>', '&', ';', '(', ')']

def isBlank (c : Char) : Bool := whitespace.contains c

/-- Characters of the words. -/
def isWordChar (c : Char) : Bool := !whitespace.contains c && !symbols.contains c

/-- A counted string: the pointer to its start and the pointer to its end. -/
structure Span where
  q : List Char
  eq : List Char
  deriving DecidableEq, Repr

/-- Why the parser does not return. -/
inductive Stop where
  | panic (s : String)
  | fuel
  deriving DecidableEq, Repr

abbrev Parse (α : Type) := Except Stop α

/-! ## Tokens -/

/-- `while(s < es && strchr(whitespace, *s)) s++;` -/
def skip (s : List Char) : List Char := s.dropWhile isBlank

/-- The `switch` of `gettoken`: the kind of the token and the cursor after it. -/
def scan : List Char → Char × List Char
  | [] => ('\x00', [])
  | c :: s =>
      if ['|', '(', ')', ';', '&', '<'].contains c then (c, s)
      else if c = '>' then
        if s.head? = some '>' then ('+', s.tail) else ('>', s)
      else ('a', (c :: s).dropWhile isWordChar)

/-- What `gettoken` returns through its result and its pointers. -/
structure Gotten where
  ret : Char
  str : Span
  rest : List Char

def gettoken (s : List Char) : Gotten :=
  let r := scan (skip s)
  ⟨r.1, ⟨skip s, r.2⟩, skip r.2⟩

/-- Skips blanks, and tests whether one of the characters is next. -/
def peek (toks s : List Char) : Bool × List Char :=
  ((skip s).head?.any fun c => toks.contains c, skip s)

/-! ## Commands -/

/-- `cmd->argv[argc] = q`, where `cmd` is the simple command inside the redirections
that were parsed up to now. -/
def Cmd.addArg {σ : Type} (a : σ) : Cmd σ → Cmd σ
  | .exec argv => .exec (argv ++ [a])
  | .redir cmd file mode fd => .redir (cmd.addArg a) file mode fd
  | cmd => cmd

/-- The `switch` of `parseredirs`. -/
def redircmd {σ : Type} (tok : Char) (cmd : Cmd σ) (file : σ) : Cmd σ :=
  if tok = '<' then .redir cmd file O_RDONLY .stdin
  else if tok = '>' then .redir cmd file (O_WRONLY ||| O_CREATE) .stdout
  else if tok = '+' then .redir cmd file (O_WRONLY ||| O_CREATE) .stdout
  else cmd

def parseredirs : Nat → Cmd Span → List Char → Parse (Cmd Span × List Char)
  | 0, _, _ => .error .fuel
  | n + 1, cmd, s =>
      let p := peek ['<', '>'] s
      if p.1 then
        let t := gettoken p.2
        let f := gettoken t.rest
        if f.ret ≠ 'a' then .error (.panic "missing file for redirection")
        else parseredirs n (redircmd t.ret cmd f.str) f.rest
      else .ok (cmd, p.2)

/-- The loop of `parseexec`. -/
def parseargs : Nat → Nat → Cmd Span → List Char → Parse (Cmd Span × List Char)
  | 0, _, _, _ => .error .fuel
  | n + 1, argc, ret, s =>
      let p := peek ['|', ')', '&', ';'] s
      if p.1 then .ok (ret, p.2)
      else
        let t := gettoken p.2
        if t.ret = '\x00' then .ok (ret, t.rest)
        else if t.ret ≠ 'a' then .error (.panic "syntax")
        else if MAXARGS ≤ argc + 1 then .error (.panic "too many args")
        else do
          let r ← parseredirs n (ret.addArg t.str) t.rest
          parseargs n (argc + 1) r.1 r.2

/-- The loop of `parseline`. -/
def parsebacks : Nat → Cmd Span → List Char → Parse (Cmd Span × List Char)
  | 0, _, _ => .error .fuel
  | n + 1, cmd, s =>
      let p := peek ['&'] s
      if p.1 then parsebacks n (.back cmd) (gettoken p.2).rest else .ok (cmd, p.2)

mutual

def parseline : Nat → List Char → Parse (Cmd Span × List Char)
  | 0, _ => .error .fuel
  | n + 1, s => do
      let r ← parsepipe n s
      let r ← parsebacks n r.1 r.2
      let p := peek [';'] r.2
      if p.1 then
        let r' ← parseline n (gettoken p.2).rest
        .ok (.list r.1 r'.1, r'.2)
      else .ok (r.1, p.2)

def parsepipe : Nat → List Char → Parse (Cmd Span × List Char)
  | 0, _ => .error .fuel
  | n + 1, s => do
      let r ← parseexec n s
      let p := peek ['|'] r.2
      if p.1 then
        let r' ← parsepipe n (gettoken p.2).rest
        .ok (.pipe r.1 r'.1, r'.2)
      else .ok (r.1, p.2)

def parseexec : Nat → List Char → Parse (Cmd Span × List Char)
  | 0, _ => .error .fuel
  | n + 1, s =>
      let p := peek ['('] s
      if p.1 then parseblock n p.2
      else do
        let r ← parseredirs n (.exec []) p.2
        parseargs n 0 r.1 r.2

def parseblock : Nat → List Char → Parse (Cmd Span × List Char)
  | 0, _ => .error .fuel
  | n + 1, s =>
      let p := peek ['('] s
      if p.1 then do
        let r ← parseline n (gettoken p.2).rest
        let p' := peek [')'] r.2
        if p'.1 then parseredirs n r.1 (gettoken p'.2).rest
        else .error (.panic "syntax - missing )")
      else .error (.panic "parseblock")

end

/-! ## Strings -/

/-- The place of a pointer in the buffer that holds the line. -/
def addr (line p : List Char) : Nat := line.length - p.length

/-- NUL-terminates all the counted strings. -/
def nulterminate (line : List Char) : Cmd Span → List Char → List Char
  | .exec argv, buf => argv.foldl (fun b a => b.set (addr line a.eq) '\x00') buf
  | .redir cmd file _ _, buf => (nulterminate line cmd buf).set (addr line file.eq) '\x00'
  | .pipe left right, buf => nulterminate line right (nulterminate line left buf)
  | .list left right, buf => nulterminate line right (nulterminate line left buf)
  | .back cmd, buf => nulterminate line cmd buf

/-- The tree, and the buffer that its pointers point into. -/
def parsecmd (fuel : Nat) (s : List Char) : Parse (Cmd Span × List Char) := do
  let r ← parseline fuel s
  let p := peek [] r.2
  if p.2 ≠ [] then .error (.panic "syntax")
  else .ok (r.1, nulterminate s r.1 (s ++ ['\x00']))

/-- The string at a pointer. -/
def stringAt (line buf p : List Char) : List Char :=
  (buf.drop (addr line p)).takeWhile fun c => c ≠ '\x00'

end Xv6Arm.Shell
