import Mathlib

/-!
# The parser of the shell

`gettoken`, `peek`, the functions of the recursive descent and `nulterminate` of
`user/sh.c`.  A `char *` into the line is the list of the characters from there to
the end `es`, so `s++` is the tail and two pointers are equal when their lists have
the same length; the character at `es` is NUL.  The recursion is bounded by a number
of frames, and `malloc` succeeds.
-/

namespace Xv6.ShellParser

abbrev Byte := BitVec 8

def ch (c : Char) : Byte := BitVec.ofNat 8 c.toNat

abbrev Ptr := List Byte

def whitespace : List Byte := [ch ' ', ch '\t', ch '\r', ch '\n', 11]

def symbols : List Byte := [ch '<', ch '|', ch '>', ch '&', ch ';', ch '(', ch ')']

def isSpace (c : Byte) : Bool := whitespace.contains c

/-- The characters that the last loop of `gettoken` runs over. -/
def isWordChar (c : Byte) : Bool := !whitespace.contains c && !symbols.contains c

def MAXARGS : ℕ := 10

def O_RDONLY : ℕ := 0x000
def O_WRONLY : ℕ := 0x001
def O_CREATE : ℕ := 0x200
def O_TRUNC : ℕ := 0x400

/-- How the parser can stop without a command. -/
inductive Failure where
  /-- "syntax" -/
  | syntaxError
  /-- "missing file for redirection" -/
  | missingFile
  /-- "parseblock" -/
  | parseblock
  /-- "syntax - missing )" -/
  | missingParen
  /-- "too many args" -/
  | tooManyArgs
  /-- No frames are left for the recursion. -/
  | stack
  deriving DecidableEq

/-- `struct cmd`. -/
inductive Cmd where
  | exec (argv : List (Ptr × Ptr))
  | redir (cmd : Cmd) (file efile : Ptr) (mode fd : ℕ)
  | pipe (left right : Cmd)
  | list (left right : Cmd)
  | back (cmd : Cmd)

/-! ## Tokens -/

def skip (s : Ptr) : Ptr := s.dropWhile isSpace

/-- The `switch` of `gettoken`: the result and the end of the token. -/
def scan : Ptr → Byte × Ptr
  | [] => (0, [])
  | c :: rest =>
    if c = 0 then (0, c :: rest)
    else if c ∈ [ch '|', ch '(', ch ')', ch ';', ch '&', ch '<'] then (c, rest)
    else if c = ch '>' then
      if rest.head? = some (ch '>') then (ch '+', rest.tail) else (c, rest)
    else (ch 'a', (c :: rest).dropWhile isWordChar)

/-- What `gettoken` returns and stores in `*q`, `*eq` and `*ps`. -/
structure Lexeme where
  ret : Byte
  q : Ptr
  eq : Ptr
  ps : Ptr

def gettoken (s : Ptr) : Lexeme :=
  let q := skip s
  ⟨(scan q).1, q, (scan q).2, skip (scan q).2⟩

def peek (s : Ptr) (toks : List Byte) : Bool × Ptr :=
  ((skip s).head?.any fun c => decide (c ≠ 0) && toks.contains c, skip s)

/-! ## Recursive descent -/

/-- The arguments of a call of `redircmd` in `parseredirs`. -/
structure Redirection where
  file : Ptr
  efile : Ptr
  mode : ℕ
  fd : ℕ

/-- `redircmd` for each redirection, the first one innermost. -/
def wrap (cmd : Cmd) (redirs : List Redirection) : Cmd :=
  redirs.foldl (fun cmd r => .redir cmd r.file r.efile r.mode r.fd) cmd

def redirection (tok : Byte) (q eq : Ptr) : List Redirection :=
  if tok = ch '<' then [⟨q, eq, O_RDONLY, 0⟩]
  else if tok = ch '>' then [⟨q, eq, O_WRONLY ||| O_CREATE ||| O_TRUNC, 1⟩]
  else if tok = ch '+' then [⟨q, eq, O_WRONLY ||| O_CREATE, 1⟩]
  else []

/-- The loop of `parseredirs`; every round takes a character. -/
def parseredirsLoop : ℕ → Ptr → Except Failure (List Redirection × Ptr)
  | 0, s => .ok ([], s)
  | rounds + 1, s =>
    let (found, s) := peek s [ch '<', ch '>']
    if found then
      let tok := gettoken s
      let file := gettoken tok.ps
      if file.ret ≠ ch 'a' then .error .missingFile
      else (parseredirsLoop rounds file.ps).map fun (redirs, s) =>
        (redirection tok.ret file.q file.eq ++ redirs, s)
    else .ok ([], s)

def parseredirs (s : Ptr) : Except Failure (List Redirection × Ptr) :=
  parseredirsLoop (s.length + 1) s

/-- The loop of `parseexec`.  The node of the command is inside the redirections
from the first on, and gets its arguments later. -/
def parseargs : ℕ → List (Ptr × Ptr) → List Redirection → Ptr → Except Failure (Cmd × Ptr)
  | 0, argv, redirs, s => .ok (wrap (.exec argv) redirs, s)
  | rounds + 1, argv, redirs, s =>
    let (found, s) := peek s [ch '|', ch ')', ch '&', ch ';']
    if found then .ok (wrap (.exec argv) redirs, s)
    else
      let tok := gettoken s
      if tok.ret = 0 then .ok (wrap (.exec argv) redirs, tok.ps)
      else if tok.ret ≠ ch 'a' then .error .syntaxError
      else
        let argv := argv ++ [(tok.q, tok.eq)]
        if MAXARGS ≤ argv.length then .error .tooManyArgs
        else
          match parseredirs tok.ps with
          | .error failure => .error failure
          | .ok (more, s) => parseargs rounds argv (redirs ++ more) s

def parseback : ℕ → Cmd → Ptr → Cmd × Ptr
  | 0, cmd, s => (cmd, s)
  | rounds + 1, cmd, s =>
    let (found, s) := peek s [ch '&']
    if found then parseback rounds (.back cmd) (gettoken s).ps else (cmd, s)

mutual
def parseline : ℕ → Ptr → Except Failure (Cmd × Ptr)
  | 0, _ => .error .stack
  | frames + 1, s =>
    match parsepipe frames s with
    | .error failure => .error failure
    | .ok (cmd, s) =>
      let (cmd, s) := parseback (s.length + 1) cmd s
      let (found, s) := peek s [ch ';']
      if found then
        (parseline frames (gettoken s).ps).map fun (right, s) => (.list cmd right, s)
      else .ok (cmd, s)

def parsepipe : ℕ → Ptr → Except Failure (Cmd × Ptr)
  | 0, _ => .error .stack
  | frames + 1, s =>
    match parseexec frames s with
    | .error failure => .error failure
    | .ok (cmd, s) =>
      let (found, s) := peek s [ch '|']
      if found then
        (parsepipe frames (gettoken s).ps).map fun (right, s) => (.pipe cmd right, s)
      else .ok (cmd, s)

def parseexec : ℕ → Ptr → Except Failure (Cmd × Ptr)
  | 0, _ => .error .stack
  | frames + 1, s =>
    let (found, s) := peek s [ch '(']
    if found then parseblock frames s
    else
      match parseredirs s with
      | .error failure => .error failure
      | .ok (redirs, s) => parseargs (s.length + 1) [] redirs s

def parseblock : ℕ → Ptr → Except Failure (Cmd × Ptr)
  | 0, _ => .error .stack
  | frames + 1, s =>
    let (found, s) := peek s [ch '(']
    if found = false then .error .parseblock
    else
      match parseline frames (gettoken s).ps with
      | .error failure => .error failure
      | .ok (cmd, s) =>
        let (found, s) := peek s [ch ')']
        if found = false then .error .missingParen
        else (parseredirs (gettoken s).ps).map fun (redirs, s) => (wrap cmd redirs, s)
end

/-- `*p = 0`; at the end of the line there is a NUL already. -/
def putNul (line : List Byte) (p : Ptr) : List Byte := line.set (line.length - p.length) 0

def nulterminate : Cmd → List Byte → List Byte
  | .exec argv, line => argv.foldl (fun line arg => putNul line arg.2) line
  | .redir cmd _ efile _ _, line => putNul (nulterminate cmd line) efile
  | .pipe left right, line => nulterminate right (nulterminate left line)
  | .list left right, line => nulterminate right (nulterminate left line)
  | .back cmd, line => nulterminate cmd line

def cstring (line : List Byte) : List Byte := line.takeWhile fun c => decide (c ≠ 0)

/-- `parsecmd`: the command, and the line after `nulterminate`. -/
def parsecmd (line : List Byte) : Except Failure (Cmd × List Byte) :=
  let s := cstring line
  match parseline (4 * s.length + 4) s with
  | .error failure => .error failure
  | .ok (cmd, rest) =>
    if (peek rest []).2 ≠ [] then .error .syntaxError
    else .ok (cmd, nulterminate cmd s)

/-! ## Command trees and how they are printed -/

/-- A nonempty string without NUL, white space and symbols. -/
structure Word where
  chars : List Byte
  nonempty : chars ≠ []
  plain : ∀ c ∈ chars, c ≠ 0 ∧ isWordChar c = true

inductive Kind where
  /-- `<` -/
  | input
  /-- `>` -/
  | output
  /-- `>>` -/
  | append
  deriving DecidableEq

def Kind.mode : Kind → ℕ
  | .input => O_RDONLY
  | .output => O_WRONLY ||| O_CREATE ||| O_TRUNC
  | .append => O_WRONLY ||| O_CREATE

def Kind.fd : Kind → ℕ
  | .input => 0
  | .output => 1
  | .append => 1

inductive Tree where
  | exec (words : List Word) (few : words.length < MAXARGS)
  | redir (cmd : Tree) (kind : Kind) (file : Word)
  | pipe (left right : Tree)
  | list (left right : Tree)
  | back (cmd : Tree)

inductive Symbol where
  | lparen
  | rparen
  | bar
  | semicolon
  | ampersand
  | redir (kind : Kind)
  deriving DecidableEq

inductive Token where
  | symbol (mark : Symbol)
  | word (name : Word)

def Symbol.text : Symbol → List Byte
  | .lparen => [ch '(']
  | .rparen => [ch ')']
  | .bar => [ch '|']
  | .semicolon => [ch ';']
  | .ampersand => [ch '&']
  | .redir .input => [ch '<']
  | .redir .output => [ch '>']
  | .redir .append => [ch '>', ch '>']

def Token.text : Token → List Byte
  | .symbol mark => mark.text
  | .word name => name.chars

def parens (tokens : List Token) : List Token := .symbol .lparen :: tokens ++ [.symbol .rparen]

def Tree.tokens : Tree → List Token
  | .exec words _ => words.map .word
  | .redir cmd kind file => parens cmd.tokens ++ [.symbol (.redir kind), .word file]
  | .pipe left right => parens left.tokens ++ .symbol .bar :: parens right.tokens
  | .list left right => parens left.tokens ++ .symbol .semicolon :: parens right.tokens
  | .back cmd => parens cmd.tokens ++ [.symbol .ampersand]

def Separated (text : List Byte) : Prop := ∀ c, text.head? = some c → isSpace c = true

/-- A text with these tokens, any white space before and after them and at least one
character of white space between two of them. -/
inductive Spaced : List Token → List Byte → Prop where
  | done {blank : List Byte} : (∀ c ∈ blank, isSpace c = true) → Spaced [] blank
  | token {blank rest : List Byte} {token : Token} {tokens : List Token} :
      (∀ c ∈ blank, isSpace c = true) → Separated rest → Spaced tokens rest →
      Spaced (token :: tokens) (blank ++ (token.text ++ rest))

def Prints (tree : Tree) (text : List Byte) : Prop := Spaced tree.tokens text

/-! ## What is read back -/

/-- A tree with strings. -/
inductive Ast where
  | exec (argv : List (List Byte))
  | redir (cmd : Ast) (file : List Byte) (mode fd : ℕ)
  | pipe (left right : Ast)
  | list (left right : Ast)
  | back (cmd : Ast)
  deriving DecidableEq

def Tree.ast : Tree → Ast
  | .exec words _ => .exec (words.map Word.chars)
  | .redir cmd kind file => .redir cmd.ast file.chars kind.mode kind.fd
  | .pipe left right => .pipe left.ast right.ast
  | .list left right => .list left.ast right.ast
  | .back cmd => .back cmd.ast

def stringAt (line : List Byte) (p : Ptr) : List Byte :=
  cstring (line.drop (line.length - p.length))

/-- The tree of a command, with its strings read from the line. -/
def Cmd.ast (line : List Byte) : Cmd → Ast
  | .exec argv => .exec (argv.map fun arg => stringAt line arg.1)
  | .redir cmd file _ mode fd => .redir (cmd.ast line) (stringAt line file) mode fd
  | .pipe left right => .pipe (left.ast line) (right.ast line)
  | .list left right => .list (left.ast line) (right.ast line)
  | .back cmd => .back (cmd.ast line)

end Xv6.ShellParser
