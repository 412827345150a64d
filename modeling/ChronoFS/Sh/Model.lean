import ChronoFS.Params

/-!
# The parser of the shell

`gettoken`, `peek`, `parsecmd` with its recursive descent, and `nulterminate` of `sh.c`. A command
line is a buffer of characters that ends with a NUL, and a `char*` into it is a position. The cursor
`*ps` is the state of the parser, and the end `es` of the line is its length.

The functions that call themselves or loop have a number of calls and passes (`fuel`) that they may
make; `Stop.fuel` says that this number was too small.
-/

namespace ChronoFS.Sh

/-- `MAXARGS`. -/
abbrev MAXARGS : ℕ := 10

/-- A command line. -/
structure CString where
  /-- The characters before the NUL. -/
  bytes : List UInt8
  /-- The NUL ends the line. -/
  noNul : (0 : UInt8) ∉ bytes

namespace CString

/-- `strlen`. -/
def length (s : CString) : ℕ := s.bytes.length

/-- The character at a position. -/
def charAt (s : CString) (p : ℕ) : UInt8 := s.bytes.getD p 0

end CString

/-- The characters of a string. -/
def chars (l : List Char) : List UInt8 := l.map Char.toUInt8

/-- `char whitespace[] = " \t\r\n\v"`. -/
def whitespace : List UInt8 := chars [' ', '\t', '\r', '\n', '\x0b']

/-- `char symbols[] = "<|>&;()"`. -/
def symbols : List UInt8 := chars ['<', '|', '>', '&', ';', '(', ')']

/-- `strchr(whitespace, c)`. -/
def isSpace (c : UInt8) : Bool := whitespace.contains c

/-- The characters of a word. -/
def isWord (c : UInt8) : Bool := !whitespace.contains c && !symbols.contains c

/-- What `gettoken` returns; at the end of the line it returns 0, which is `none`. -/
inductive Kind
  /-- `'|'`. -/
  | bar
  /-- `'('`. -/
  | lparen
  /-- `')'`. -/
  | rparen
  /-- `';'`. -/
  | semi
  /-- `'&'`. -/
  | amp
  /-- `'<'`. -/
  | lt
  /-- `'>'`. -/
  | gt
  /-- `'+'`, for `>>`. -/
  | gtgt
  /-- `'a'`, a word. -/
  | word
  deriving DecidableEq

/-- `struct cmd` and what it is a part of. A string is its first and its last position. -/
inductive Cmd
  /-- `execcmd`, up to the null pointer of `argv`. -/
  | exec (argv : List (ℕ × ℕ))
  /-- `redircmd`. -/
  | redir (cmd : Cmd) (file efile : ℕ) (mode : UInt32) (fd : ℕ)
  /-- `pipecmd`. -/
  | pipe (left right : Cmd)
  /-- `listcmd`. -/
  | list (left right : Cmd)
  /-- `backcmd`. -/
  | back (cmd : Cmd)
  deriving DecidableEq

/-- The fields of a `redircmd` that is around a command. -/
structure Redir where
  /-- `file`. -/
  file : ℕ
  /-- `efile`. -/
  efile : ℕ
  /-- `mode`. -/
  mode : UInt32
  /-- `fd`. -/
  fd : ℕ

/-- The command with redirections around it, the first one innermost. -/
def wrap (cmd : Cmd) (rs : List Redir) : Cmd :=
  rs.foldl (fun cmd r => .redir cmd r.file r.efile r.mode r.fd) cmd

/-- Why the parser has not returned. -/
inductive Stop
  /-- `panic`. -/
  | panic (msg : String)
  /-- Not enough calls and passes. -/
  | fuel
  deriving DecidableEq

/-- The parser; the state is `*ps`. -/
abbrev Parse := EStateM Stop ℕ

/-! ## Tokens -/

/-- `while(s < es && f(*s)) s++`, over the characters from a position on. -/
def skipFrom (f : UInt8 → Bool) : (p : ℕ) → List UInt8 → ℕ
  | p, [] => p
  | p, c :: cs => if f c then skipFrom f (p + 1) cs else p

variable (s : CString)

/-- `while(s < es && f(*s)) s++`. -/
def skip (f : UInt8 → Bool) (p : ℕ) : ℕ := skipFrom f p (s.bytes.drop p)

/-- The characters that are a token on their own. -/
def single (c : UInt8) : Option Kind :=
  if c = '|'.toUInt8 then some .bar
  else if c = '('.toUInt8 then some .lparen
  else if c = ')'.toUInt8 then some .rparen
  else if c = ';'.toUInt8 then some .semi
  else if c = '&'.toUInt8 then some .amp
  else if c = '<'.toUInt8 then some .lt
  else none

/-- The `switch` of `gettoken`: the token at a position, and its end. -/
def lex (q : ℕ) : Option Kind × ℕ :=
  if s.charAt q = 0 then (none, q)
  else match single (s.charAt q) with
  | some k => (some k, q + 1)
  | none =>
    if s.charAt q = '>'.toUInt8 then
      if s.charAt (q + 1) = '>'.toUInt8 then (some .gtgt, q + 2) else (some .gt, q + 1)
    else (some .word, skip s isWord q)

/-- `gettoken`: what it returns, `*q` and `*eq`. -/
def gettoken : Parse (Option Kind × ℕ × ℕ) := do
  let p ← get
  let q := skip s isSpace p
  set (skip s isSpace (lex s q).2)
  return ((lex s q).1, q, (lex s q).2)

/-- `peek`. -/
def peek (toks : List UInt8) : Parse Bool := do
  let p ← get
  let q := skip s isSpace p
  set q
  return s.charAt q != 0 && toks.contains (s.charAt q)

/-! ## Commands -/

/-- The `switch` of `parseredirs`. -/
def redirOf (tok : Option Kind) (q eq : ℕ) : List Redir :=
  match tok with
  | some .lt => [⟨q, eq, O_RDONLY, 0⟩]
  | some .gt => [⟨q, eq, O_WRONLY ||| O_CREATE, 1⟩]
  | some .gtgt => [⟨q, eq, O_WRONLY ||| O_CREATE, 1⟩]
  | _ => []

/-- The loop of `parseredirs`; `rs` are the redirections that are around the command. -/
def parseredirs : (fuel : ℕ) → (rs : List Redir) → Parse (List Redir)
  | 0, _ => throw .fuel
  | fuel + 1, rs => do
    let more ← peek s (chars ['<', '>'])
    if more then
      let tok ← gettoken s
      let file ← gettoken s
      if file.1 = some .word then
        parseredirs fuel (rs ++ redirOf tok.1 file.2.1 file.2.2)
      else throw (.panic "missing file for redirection")
    else return rs

/-- The loop of `parseexec`. The `execcmd` is inside of the redirections that are around it, so its
`argv` is on its own until the end. -/
def parseargs : (fuel : ℕ) → (argv : List (ℕ × ℕ)) → (rs : List Redir) →
    Parse (List (ℕ × ℕ) × List Redir)
  | 0, _, _ => throw .fuel
  | fuel + 1, argv, rs => do
    let done ← peek s (chars ['|', ')', '&', ';'])
    if done then return (argv, rs)
    else
      let tok ← gettoken s
      if tok.1 = none then return (argv, rs)
      else if tok.1 = some .word then
        if MAXARGS ≤ argv.length + 1 then throw (.panic "too many args")
        else
          let rs ← parseredirs s fuel rs
          parseargs fuel (argv ++ [(tok.2.1, tok.2.2)]) rs
      else throw (.panic "syntax")

/-- The loop of `parseline`. -/
def parsebacks : (fuel : ℕ) → (cmd : Cmd) → Parse Cmd
  | 0, _ => throw .fuel
  | fuel + 1, cmd => do
    let more ← peek s (chars ['&'])
    if more then
      let _ ← gettoken s
      parsebacks fuel (.back cmd)
    else return cmd

mutual

/-- `parseline`. -/
def parseline : (fuel : ℕ) → Parse Cmd
  | 0 => throw .fuel
  | fuel + 1 => do
    let cmd ← parsepipe fuel
    let cmd ← parsebacks s fuel cmd
    let more ← peek s (chars [';'])
    if more then
      let _ ← gettoken s
      let right ← parseline fuel
      return .list cmd right
    else return cmd

/-- `parsepipe`. -/
def parsepipe : (fuel : ℕ) → Parse Cmd
  | 0 => throw .fuel
  | fuel + 1 => do
    let cmd ← parseexec fuel
    let more ← peek s (chars ['|'])
    if more then
      let _ ← gettoken s
      let right ← parsepipe fuel
      return .pipe cmd right
    else return cmd

/-- `parseexec`. -/
def parseexec : (fuel : ℕ) → Parse Cmd
  | 0 => throw .fuel
  | fuel + 1 => do
    let block ← peek s (chars ['('])
    if block then parseblock fuel
    else
      let rs ← parseredirs s fuel []
      let args ← parseargs s fuel [] rs
      return wrap (.exec args.1) args.2

/-- `parseblock`. -/
def parseblock : (fuel : ℕ) → Parse Cmd
  | 0 => throw .fuel
  | fuel + 1 => do
    let opened ← peek s (chars ['('])
    if opened then
      let _ ← gettoken s
      let cmd ← parseline fuel
      let closed ← peek s (chars [')'])
      if closed then
        let _ ← gettoken s
        let rs ← parseredirs s fuel []
        return wrap cmd rs
      else throw (.panic "syntax - missing )")
    else throw (.panic "parseblock")

end

/-! ## The line -/

/-- `nulterminate`, on a buffer. -/
def nulterminate : Cmd → (buf : List UInt8) → List UInt8
  | .exec argv, buf => argv.foldl (fun buf a => buf.set a.2 0) buf
  | .redir cmd _ efile _ _, buf => (nulterminate cmd buf).set efile 0
  | .pipe left right, buf => nulterminate right (nulterminate left buf)
  | .list left right, buf => nulterminate right (nulterminate left buf)
  | .back cmd, buf => nulterminate cmd buf

/-- `parsecmd`, before `nulterminate`. -/
def parsewhole (fuel : ℕ) : Parse Cmd := do
  let cmd ← parseline s fuel
  let _ ← peek s []
  let p ← get
  if p = s.length then return cmd
  else throw (.panic "syntax")

/-- `parsecmd`: the command, and the buffer that it points into. -/
def parsecmd (fuel : ℕ) : Except Stop (Cmd × List UInt8) :=
  match parsewhole s fuel 0 with
  | .ok cmd _ => .ok (cmd, nulterminate cmd (s.bytes ++ [0]))
  | .error e _ => .error e

end ChronoFS.Sh
