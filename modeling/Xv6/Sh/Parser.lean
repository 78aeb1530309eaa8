import Xv6.Sh.Grammar

/-!
# The parser of the shell

`gettoken`, `peek`, the functions of the recursive descent and `nulterminate`
of `user/sh.c`. The line stands in memory with a NUL after it; a pointer into
it is an offset, and `es` is the offset of the NUL.

The parser does not copy words. The tree that it builds points to the first
byte of each word and to the byte after it, and `nulterminate` then stores a
NUL there, in place.

The functions call each other, and each call takes one from a number of
rounds; running out of them is the failure `rounds`, which is not one of the
source. Memory for the tree is not limited here.
-/

namespace Xv6.Sh

/-- A line of bytes before its NUL. -/
structure Input where
  bytes : List UInt8
  nonul : 0 ∉ bytes

namespace Input

variable (line : Input)

/-- The offset of the NUL. -/
def es : Nat := line.bytes.length

/-- The byte at an offset, NUL from the end of the line on. -/
def byte (s : Nat) : UInt8 := line.bytes.getD s 0

/-- `while(s < es && p(*s)) s++`, with `n` bytes left. -/
def scan (p : UInt8 → Bool) : Nat → Nat → Nat
  | 0, s => s
  | n + 1, s => if p (line.byte s) then scan p n (s + 1) else s

def skip (p : UInt8 → Bool) (s : Nat) : Nat := line.scan p (line.es - s) s

end Input

/-! ## Tokens -/

/-- What `gettoken` returns and stores. -/
structure Lexeme where
  ret : UInt8
  q : Nat
  eq : Nat
  s : Nat

def gettoken (line : Input) (s : Nat) : Lexeme :=
  let q := line.skip isSpace s
  let c := line.byte q
  let (ret, eq) :=
    if c = 0 then (c, q)
    else if c = '|'.toUInt8 ∨ c = '('.toUInt8 ∨ c = ')'.toUInt8 ∨ c = ';'.toUInt8 ∨
        c = '&'.toUInt8 ∨ c = '<'.toUInt8 then (c, q + 1)
    else if c = '>'.toUInt8 then
      if line.byte (q + 1) = '>'.toUInt8 then ('+'.toUInt8, q + 2) else (c, q + 1)
    else ('a'.toUInt8, line.skip isWordByte q)
  { ret := ret, q := q, eq := eq, s := line.skip isSpace eq }

/-- The offset after whitespace, and whether one of `toks` is there. -/
def peek (line : Input) (s : Nat) (toks : List Char) : Nat × Bool :=
  let s := line.skip isSpace s
  (s, line.byte s ≠ 0 ∧ (toks.map Char.toUInt8).contains (line.byte s))

/-! ## Commands -/

/-- `struct cmd`; words are pairs of offsets. -/
inductive Cmd where
  | exec (argv : List (Nat × Nat))
  | redir (cmd : Cmd) (file efile : Nat) (mode : Int) (fd : Nat)
  | pipe (left right : Cmd)
  | list (left right : Cmd)
  | back (cmd : Cmd)
  deriving DecidableEq, Repr

/-- Store the next argument in the exec node that `parseexec` made, which is
below the redirections that came after it. -/
def Cmd.addArg (q eq : Nat) : Cmd → Cmd
  | .exec argv => .exec (argv ++ [(q, eq)])
  | .redir cmd file efile mode fd => .redir (cmd.addArg q eq) file efile mode fd
  | cmd => cmd

inductive Fail where
  /-- `panic("syntax")` -/
  | unexpected
  /-- `panic("syntax")` after `leftovers` -/
  | leftovers
  /-- `panic("missing file for redirection")` -/
  | missingFile
  /-- `panic("parseblock")` -/
  | parseblock
  /-- `panic("syntax - missing )")` -/
  | missingParen
  /-- `panic("too many args")` -/
  | tooManyArgs
  | rounds
  deriving DecidableEq, Repr

/-- A command and the offset after it. -/
abbrev Parsed : Type := Except Fail (Cmd × Nat)

def parseredirs (line : Input) : Nat → Cmd → Nat → Parsed
  | 0, _, _ => .error .rounds
  | n + 1, cmd, s =>
    let (s, more) := peek line s ['<', '>']
    if more then
      let tok := gettoken line s
      let word := gettoken line tok.s
      if word.ret ≠ 'a'.toUInt8 then .error .missingFile
      else if tok.ret = '<'.toUInt8 then
        parseredirs line n (.redir cmd word.q word.eq O_RDONLY 0) word.s
      else if tok.ret = '>'.toUInt8 then
        parseredirs line n (.redir cmd word.q word.eq (O_WRONLY + O_CREATE + O_TRUNC) 1) word.s
      else if tok.ret = '+'.toUInt8 then
        parseredirs line n (.redir cmd word.q word.eq (O_WRONLY + O_CREATE) 1) word.s
      else parseredirs line n cmd word.s
    else .ok (cmd, s)

/-- The loop of `parseexec`, after `argc` words. -/
def parseargs (line : Input) : Nat → Nat → Cmd → Nat → Parsed
  | 0, _, _, _ => .error .rounds
  | n + 1, argc, ret, s =>
    let (s, stop) := peek line s ['|', ')', '&', ';']
    if stop then .ok (ret, s)
    else
      let tok := gettoken line s
      if tok.ret = 0 then .ok (ret, tok.s)
      else if tok.ret ≠ 'a'.toUInt8 then .error .unexpected
      else if MAXARGS ≤ argc + 1 then .error .tooManyArgs
      else do
        let (ret, s) ← parseredirs line (line.es + 1) (ret.addArg tok.q tok.eq) tok.s
        parseargs line n (argc + 1) ret s

/-- The loop of `parseline` over `&`. -/
def parsebacks (line : Input) : Nat → Cmd → Nat → Parsed
  | 0, _, _ => .error .rounds
  | n + 1, cmd, s =>
    let (s, more) := peek line s ['&']
    if more then parsebacks line n (.back cmd) (gettoken line s).s else .ok (cmd, s)

mutual

def parseline (line : Input) : Nat → Nat → Parsed
  | 0, _ => .error .rounds
  | n + 1, s => do
    let (cmd, s) ← parsepipe line n s
    let (cmd, s) ← parsebacks line (line.es + 1) cmd s
    let (s, more) := peek line s [';']
    if more then do
      let (right, s) ← parseline line n (gettoken line s).s
      pure (.list cmd right, s)
    else pure (cmd, s)

def parsepipe (line : Input) : Nat → Nat → Parsed
  | 0, _ => .error .rounds
  | n + 1, s => do
    let (cmd, s) ← parseexec line n s
    let (s, more) := peek line s ['|']
    if more then do
      let (right, s) ← parsepipe line n (gettoken line s).s
      pure (.pipe cmd right, s)
    else pure (cmd, s)

def parseexec (line : Input) : Nat → Nat → Parsed
  | 0, _ => .error .rounds
  | n + 1, s => do
    let (s, block) := peek line s ['(']
    if block then parseblock line n s
    else do
      let (ret, s) ← parseredirs line (line.es + 1) (.exec []) s
      parseargs line (line.es + 1) 0 ret s

def parseblock (line : Input) : Nat → Nat → Parsed
  | 0, _ => .error .rounds
  | n + 1, s => do
    let (s, block) := peek line s ['(']
    if !block then .error .parseblock
    else do
      let (cmd, s) ← parseline line n (gettoken line s).s
      let (s, close) := peek line s [')']
      if !close then .error .missingParen
      else parseredirs line (line.es + 1) cmd (gettoken line s).s

end

/-! ## NULs -/

/-- The bytes of the line's memory. -/
abbrev Mem : Type := Nat → UInt8

/-- NUL-terminate all the counted strings. -/
def nulterminate : Cmd → Mem → Mem
  | .exec argv, mem => argv.foldl (fun mem arg => Function.update mem arg.2 0) mem
  | .redir cmd _ efile _ _, mem => Function.update (nulterminate cmd mem) efile 0
  | .pipe left right, mem => nulterminate right (nulterminate left mem)
  | .list left right, mem => nulterminate right (nulterminate left mem)
  | .back cmd, mem => nulterminate cmd mem

/-- The tree and the memory that `parsecmd` leaves. -/
def parsecmd (line : Input) : Except Fail (Cmd × Mem) := do
  let (cmd, s) ← parseline line (4 * line.es + 4) 0
  let (s, _) := peek line s []
  if s ≠ line.es then .error .leftovers
  else pure (cmd, nulterminate cmd line.byte)

end Xv6.Sh
