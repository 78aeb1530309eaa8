import Mathlib.Logic.Function.Iterate
import Xv6.Params

/-!
# The language of the shell

What a command line means, without the parser: a line is split into tokens,
the tokens derive from a grammar, and a derivation has a tree.

    line  -> pipe '&'* (';' line)?
    pipe  -> exec ('|' pipe)?
    exec  -> '(' line ')' redir* | redir* (word redir*)*
    redir -> ('<' | '>' | '>>') word

A simple command has at most `MAXARGS - 1` words. A list of redirections is
applied from left to right, so that the last one is at the top of the tree.
-/

namespace Xv6.Sh

/-- Entries of `argv`, with the null pointer at its end. -/
abbrev MAXARGS : Nat := 10

/-- A word, as bytes. -/
abbrev Word : Type := List UInt8

/-! ## Tokens -/

def whitespace : List UInt8 :=
  [' '.toUInt8, '\t'.toUInt8, '\r'.toUInt8, '\n'.toUInt8, 11]

def symbols : List UInt8 := ['<', '|', '>', '&', ';', '(', ')'].map Char.toUInt8

def isSpace (c : UInt8) : Bool := whitespace.contains c

/-- The byte belongs to a word. -/
def isWordByte (c : UInt8) : Bool := !whitespace.contains c && !symbols.contains c

inductive Tok where
  | bar
  | amp
  | semi
  | lpar
  | rpar
  | lt
  | gt
  | gtgt
  | word (text : Word)
  deriving DecidableEq, Repr

/-- The token of a symbol other than `>`. -/
def symbolTok (c : UInt8) : Option Tok :=
  if c = '|'.toUInt8 then some .bar
  else if c = '&'.toUInt8 then some .amp
  else if c = ';'.toUInt8 then some .semi
  else if c = '('.toUInt8 then some .lpar
  else if c = ')'.toUInt8 then some .rpar
  else if c = '<'.toUInt8 then some .lt
  else none

/-- Split a line into tokens; a word is a maximal run of bytes that are
neither whitespace nor symbols. -/
def lex : List UInt8 → List Tok
  | [] => []
  | c :: cs =>
    if isSpace c then lex cs
    else if c = '>'.toUInt8 then
      if cs.head? = some '>'.toUInt8 then .gtgt :: lex cs.tail else .gt :: lex cs
    else
      match symbolTok c with
      | some tok => tok :: lex cs
      | none => .word (c :: cs.takeWhile isWordByte) :: lex (cs.dropWhile isWordByte)
  termination_by l => l.length
  decreasing_by
    all_goals simp only [List.length_cons, List.length_tail]
    all_goals first
      | omega
      | exact Nat.lt_succ_of_le (List.dropWhile_sublist _).length_le

/-! ## Trees -/

inductive Tree where
  | exec (argv : List Word)
  | redir (cmd : Tree) (file : Word) (mode : Int) (fd : Nat)
  | pipe (left right : Tree)
  | list (left right : Tree)
  | back (cmd : Tree)
  deriving DecidableEq, Repr

/-! ## The grammar -/

inductive RedirOp where
  | lt
  | gt
  | gtgt
  deriving DecidableEq, Repr

namespace RedirOp

def tok : RedirOp → Tok
  | .lt => .lt
  | .gt => .gt
  | .gtgt => .gtgt

/-- The flags of `open`; their bits are disjoint. -/
def mode : RedirOp → Int
  | .lt => O_RDONLY
  | .gt => O_WRONLY + O_CREATE + O_TRUNC
  | .gtgt => O_WRONLY + O_CREATE

/-- The file descriptor that is redirected. -/
def fd : RedirOp → Nat
  | .lt => 0
  | .gt => 1
  | .gtgt => 1

end RedirOp

structure Redir where
  op : RedirOp
  file : Word
  deriving DecidableEq, Repr

def Redir.toks (r : Redir) : List Tok := [r.op.tok, .word r.file]

def Redir.apply (cmd : Tree) (r : Redir) : Tree := .redir cmd r.file r.op.mode r.op.fd

/-- A word of a simple command with the redirections after it. -/
structure Arg where
  word : Word
  redirs : List Redir
  deriving DecidableEq, Repr

def Arg.toks (a : Arg) : List Tok := .word a.word :: a.redirs.flatMap Redir.toks

mutual

/-- The tokens derive from `line`, with the tree of the derivation. -/
inductive Line : List Tok → Tree → Prop where
  | last {ts : List Tok} {cmd : Tree} (n : Nat) (pipe : Pipe ts cmd) :
      Line (ts ++ List.replicate n .amp) (Tree.back^[n] cmd)
  | seq {ts ts' : List Tok} {cmd cmd' : Tree} (n : Nat) (pipe : Pipe ts cmd)
      (line : Line ts' cmd') :
      Line (ts ++ List.replicate n .amp ++ .semi :: ts') (.list (Tree.back^[n] cmd) cmd')

inductive Pipe : List Tok → Tree → Prop where
  | last {ts : List Tok} {cmd : Tree} (exec : Exec ts cmd) : Pipe ts cmd
  | bar {ts ts' : List Tok} {cmd cmd' : Tree} (exec : Exec ts cmd) (pipe : Pipe ts' cmd') :
      Pipe (ts ++ .bar :: ts') (.pipe cmd cmd')

inductive Exec : List Tok → Tree → Prop where
  | block {ts : List Tok} {cmd : Tree} (rs : List Redir) (line : Line ts cmd) :
      Exec (.lpar :: ts ++ .rpar :: rs.flatMap Redir.toks) (rs.foldl Redir.apply cmd)
  | simple (rs : List Redir) (as : List Arg) (few : as.length ≤ MAXARGS - 1) :
      Exec (rs.flatMap Redir.toks ++ as.flatMap Arg.toks)
        ((rs ++ as.flatMap Arg.redirs).foldl Redir.apply (.exec (as.map Arg.word)))

end

end Xv6.Sh
