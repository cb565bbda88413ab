/-
The parser of the shell, `user/sh.c`.  A pointer into the command line is the part of the line
from there to its end, so `s < es` is `s ≠ []`.  `malloc` succeeds.  A loop or a call takes a
bound on the number of rounds or nested calls that are left.
-/
import EAFITos.FileTable

universe u v

namespace EAFITos.Shell

def MAXARGS : Nat := 10

def O_RDONLY : Nat := 0x000

def O_CREATE : Nat := 0x200

def O_TRUNC : Nat := 0x400

/-- `struct cmd`, over the type of its words.  The `argv` of an `execcmd` are the entries before
the first null pointer. -/
inductive Cmd (W : Type u) where
  | exec (argv : List W)
  | redir (cmd : Cmd W) (file : W) (mode fd : Nat)
  | pipe (left right : Cmd W)
  | list (left right : Cmd W)
  | back (cmd : Cmd W)
  deriving DecidableEq, Repr

namespace Cmd

variable {W : Type u} {V : Type v}

def map (f : W → V) : Cmd W → Cmd V
  | exec argv => exec (argv.map f)
  | redir cmd file mode fd => redir (cmd.map f) (f file) mode fd
  | pipe left right => pipe (left.map f) (right.map f)
  | list left right => list (left.map f) (right.map f)
  | back cmd => back (cmd.map f)

def words : Cmd W → List W
  | exec argv => argv
  | redir cmd file _ _ => cmd.words ++ [file]
  | pipe left right | list left right => left.words ++ right.words
  | back cmd => cmd.words

/-- Store an argument in the `execcmd` below the redirections. -/
def addArg (w : W) : Cmd W → Cmd W
  | exec argv => exec (argv ++ [w])
  | redir cmd file mode fd => redir (cmd.addArg w) file mode fd
  | cmd => cmd

end Cmd

/-- Where a word begins and where it ends. -/
structure Word where
  q : List Char
  eq : List Char
  deriving DecidableEq, Repr

/-- Why the parser stops without a tree: a panic, a store outside `argv`, or it is still
running when the bound is used up. -/
inductive Stop where
  | panic (message : String)
  | outOfBounds
  | running
  deriving DecidableEq, Repr

def whitespace : List Char := [' ', '\t', '\r', '\n', '\x0b']

def symbols : List Char := ['<', '|', '>', '&', ';', '(', ')']

def isSpace (c : Char) : Bool := whitespace.contains c

/-- The characters that the last loop of a word passes. -/
def isWordChar (c : Char) : Bool := !whitespace.contains c && !symbols.contains c

/-- `while(s < es && strchr(whitespace, *s)) s++` -/
def skip (s : List Char) : List Char := s.dropWhile isSpace

/-- What `gettoken` returns, with the values stored through its pointers. -/
structure Got where
  ret : Char
  q : List Char
  eq : List Char
  s : List Char

/-- The `switch(*s)` of `gettoken`: the kind of the token and where it ends. -/
def scan : List Char → Char × List Char
  | [] => ('\x00', [])
  | '\x00' :: s => ('\x00', '\x00' :: s)
  | '|' :: s => ('|', s)
  | '(' :: s => ('(', s)
  | ')' :: s => (')', s)
  | ';' :: s => (';', s)
  | '&' :: s => ('&', s)
  | '<' :: s => ('<', s)
  | '>' :: '>' :: s => ('+', s)
  | '>' :: s => ('>', s)
  | s => ('a', s.dropWhile isWordChar)

def gettoken (s : List Char) : Got :=
  let q := skip s
  let (ret, eq) := scan q
  ⟨ret, q, eq, skip eq⟩

def peek (s toks : List Char) : Bool × List Char :=
  let s := skip s
  (match s with
    | [] => false
    | c :: _ => toks.contains c, s)

/-- The `switch(tok)` of `parseredirs`. -/
def redircmd (tok : Char) (cmd : Cmd Word) (file : Word) : Cmd Word :=
  match tok with
  | '<' => .redir cmd file O_RDONLY 0
  | '>' => .redir cmd file (O_WRONLY ||| O_CREATE ||| O_TRUNC) 1
  | '+' => .redir cmd file (O_WRONLY ||| O_CREATE) 1
  | _ => cmd

def parseredirs : Nat → Cmd Word → List Char → Except Stop (Cmd Word × List Char)
  | 0, _, _ => .error .running
  | fuel + 1, cmd, s =>
    let (found, s) := peek s ['<', '>']
    if found then
      let tok := gettoken s
      let file := gettoken tok.s
      if file.ret ≠ 'a' then
        .error (.panic "missing file for redirection")
      else
        parseredirs fuel (redircmd tok.ret cmd ⟨file.q, file.eq⟩) file.s
    else
      .ok (cmd, s)

/-- The last two stores of `parseexec`. -/
def parseargsEnd (ret : Cmd Word) (argc : Nat) (s : List Char) :
    Except Stop (Cmd Word × List Char) :=
  if MAXARGS ≤ argc then .error .outOfBounds else .ok (ret, s)

/-- The loop of `parseexec`.  `ret` is the `execcmd` inside the redirections read so far. -/
def parseargs : Nat → Cmd Word → Nat → List Char → Except Stop (Cmd Word × List Char)
  | 0, _, _, _ => .error .running
  | fuel + 1, ret, argc, s =>
    let (found, s) := peek s ['|', ')', '&', ';']
    if found then
      parseargsEnd ret argc s
    else
      let tok := gettoken s
      if tok.ret = '\x00' then
        parseargsEnd ret argc tok.s
      else if tok.ret ≠ 'a' then
        .error (.panic "syntax")
      else if MAXARGS ≤ argc then
        .error .outOfBounds
      else if MAXARGS ≤ argc + 1 then
        .error (.panic "too many args")
      else do
        let (ret, s) ← parseredirs fuel (ret.addArg ⟨tok.q, tok.eq⟩) tok.s
        parseargs fuel ret (argc + 1) s

/-- The loop of `parseline`. -/
def parsebacks : Nat → Cmd Word → List Char → Except Stop (Cmd Word × List Char)
  | 0, _, _ => .error .running
  | fuel + 1, cmd, s =>
    let (found, s) := peek s ['&']
    if found then
      parsebacks fuel (.back cmd) (gettoken s).s
    else
      .ok (cmd, s)

mutual

def parseline : Nat → List Char → Except Stop (Cmd Word × List Char)
  | 0, _ => .error .running
  | fuel + 1, s => do
    let (cmd, s) ← parsepipe fuel s
    let (cmd, s) ← parsebacks fuel cmd s
    let (found, s) := peek s [';']
    if found then
      let (right, s) ← parseline fuel (gettoken s).s
      .ok (.list cmd right, s)
    else
      .ok (cmd, s)

def parsepipe : Nat → List Char → Except Stop (Cmd Word × List Char)
  | 0, _ => .error .running
  | fuel + 1, s => do
    let (cmd, s) ← parseexec fuel s
    let (found, s) := peek s ['|']
    if found then
      let (right, s) ← parsepipe fuel (gettoken s).s
      .ok (.pipe cmd right, s)
    else
      .ok (cmd, s)

def parseblock : Nat → List Char → Except Stop (Cmd Word × List Char)
  | 0, _ => .error .running
  | fuel + 1, s =>
    let (found, s) := peek s ['(']
    if !found then
      .error (.panic "parseblock")
    else do
      let (cmd, s) ← parseline fuel (gettoken s).s
      let (found, s) := peek s [')']
      if !found then
        .error (.panic "syntax - missing )")
      else
        parseredirs fuel cmd (gettoken s).s

def parseexec : Nat → List Char → Except Stop (Cmd Word × List Char)
  | 0, _ => .error .running
  | fuel + 1, s =>
    let (found, s) := peek s ['(']
    if found then
      parseblock fuel s
    else do
      let (ret, s) ← parseredirs fuel (.exec []) s
      parseargs fuel ret 0 s

end

/-- The characters of a buffer before the first NUL. -/
def cString (buf : List Char) : List Char := buf.takeWhile (· ≠ '\x00')

/-- `nulterminate`: end every word of the tree in the buffer.  `len` is the length of the line, so
a pointer is at index `len` less the length of what follows. -/
def nulterminate (len : Nat) : Cmd Word → List Char → List Char
  | .exec argv, buf => argv.foldl (fun buf w => buf.set (len - w.eq.length) '\x00') buf
  | .redir cmd file _ _, buf => (nulterminate len cmd buf).set (len - file.eq.length) '\x00'
  | .pipe left right, buf | .list left right, buf =>
    nulterminate len right (nulterminate len left buf)
  | .back cmd, buf => nulterminate len cmd buf

/-- `parsecmd` on a buffer: the buffer with the words terminated, and the tree. -/
def parsecmd (buf : List Char) : Except Stop (List Char × Cmd Word) := do
  let s := cString buf
  let (cmd, rest) ← parseline (4 * s.length + 4) s
  let (_, rest) := peek rest []
  if rest ≠ [] then
    .error (.panic "syntax")
  else
    .ok (nulterminate s.length cmd buf, cmd)

/-- The tree that the caller of `parsecmd` sees: its words are the strings in the buffer. -/
def parse (buf : List Char) : Except Stop (Cmd (List Char)) := do
  let (buf', cmd) ← parsecmd buf
  .ok (cmd.map fun w => cString (buf'.drop ((cString buf).length - w.q.length)))

end EAFITos.Shell
