import Mathlib.Logic.Function.Basic

/-!
# The console

`consoleintr` and `consoleread` of `kernel/console.c`, with the ring `cons`
that they share and any number of processes that read.

Both functions hold `cons.lock` from their first statement to their return,
but for the `sleep` of `consoleread`. An event of the machine is therefore an
interrupt, or what a reader does from the moment it has the lock until it
sleeps or returns. `kill` does not take the lock; a reader looks at
`p->killed` only where it would go to sleep, so `kill` is an event of its own.
`procdump` prints the process table and touches nothing here.

Whether a copy to the caller's buffer succeeds is an input. `got` holds the
bytes that were copied, the `i`th of which went to `dst + i`.

Ghosts: `history` has the bytes that came in and the bytes that readers took
off the ring, in the order in which both happened, and `reads` the calls that
have returned, the last one first.
-/

namespace Xv6.Console

/-- Bytes in the ring. -/
abbrev INPUT_BUF : UInt32 := 128

/-- `C(x)`, the key `x` with control. -/
def C (x : Char) : UInt8 := x.toUInt8 - '@'.toUInt8

/-- `'\n'`. -/
abbrev LF : UInt8 := 10

/-- `'\r'`. -/
abbrev CR : UInt8 := 13

/-- `'\x7f'`. -/
abbrev DEL : UInt8 := 0x7f

/-- What `consputc` takes for a key that erases. -/
abbrev BACKSPACE : Nat := 0x100

/-- `cons`, and the bytes sent to the uart by `consputc`. -/
structure Cons where
  buf : Nat → UInt8
  r : UInt32
  w : UInt32
  e : UInt32
  sent : List UInt8

namespace Cons

def consputc (cons : Cons) (c : Nat) : Cons :=
  if c = BACKSPACE then { cons with sent := cons.sent ++ [8, 32, 8] }
  else { cons with sent := cons.sent ++ [c.toUInt8] }

/-- `cons.e--; consputc(BACKSPACE)`. -/
def erase (cons : Cons) : Cons := consputc { cons with e := cons.e - 1 } BACKSPACE

/-- `cons.buf[i % INPUT_BUF]`. -/
def byteAt (cons : Cons) (i : UInt32) : UInt8 := cons.buf (i % INPUT_BUF).toNat

/-- The loop of `^U`. -/
def killLine (cons : Cons) : Cons :=
  if cons.e ≠ cons.w ∧ cons.byteAt (cons.e - 1) ≠ LF then killLine cons.erase else cons
termination_by (cons.e - cons.w).toNat
decreasing_by
  rename_i h
  have hne : cons.e.toNat ≠ cons.w.toNat := fun heq => h.1 (UInt32.toNat_inj.mp heq)
  show (cons.e - 1 - cons.w).toNat < (cons.e - cons.w).toNat
  have he := cons.e.toNat_lt
  have hw := cons.w.toNat_lt
  rw [UInt32.toNat_sub, UInt32.toNat_sub, UInt32.toNat_sub, UInt32.toNat_one]
  omega

/-- `cons.buf[cons.e++ % INPUT_BUF] = c`. -/
def store (cons : Cons) (c : UInt8) : Cons :=
  { cons with
    buf := Function.update cons.buf (cons.e % INPUT_BUF).toNat c
    e := cons.e + 1 }

/-- The default case of `consoleintr`, and whether it wakes up the readers. -/
def input (cons : Cons) (c : UInt8) : Cons × Bool :=
  if c ≠ 0 ∧ cons.e - cons.r < INPUT_BUF then
    let c := if c = CR then LF else c
    let cons := (cons.consputc c.toNat).store c
    if c = LF ∨ c = C 'D' ∨ cons.e = cons.r + INPUT_BUF then
      ({ cons with w := cons.e }, true)
    else (cons, false)
  else (cons, false)

def consoleintr (cons : Cons) (c : UInt8) : Cons × Bool :=
  if c = C 'P' then (cons, false)
  else if c = C 'U' then (cons.killLine, false)
  else if c = C 'H' ∨ c = DEL then
    if cons.e ≠ cons.w then (cons.erase, false) else (cons, false)
  else cons.input c

/-- The next byte for a reader. -/
def next (cons : Cons) : Option UInt8 :=
  if cons.r = cons.w then none else some (cons.byteAt cons.r)

end Cons

/-! ## Readers -/

/-- The bytes of a call of `consoleread`. -/
structure Bytes where
  /-- Copied to the caller. -/
  got : List UInt8 := []
  /-- Taken off the ring. -/
  took : List UInt8 := []
  deriving DecidableEq, Repr

inductive Stop where
  /-- `sleep(&cons.r, &cons.lock)`, with `n` bytes still to read. -/
  | sleeps (n : Nat)
  | returns (v : Int)
  deriving DecidableEq, Repr

/-- The loop of `consoleread`, up to where it sleeps or returns. The argument
`n` counts down from `target`. -/
def consolereadLoop (killed : Bool) (copied : Nat → Bool) (target : Nat) :
    Nat → Cons → Bytes → Cons × Bytes × Stop
  | 0, cons, b => (cons, b, .returns target)
  | n + 1, cons, b =>
    if cons.r = cons.w then
      if killed then (cons, b, .returns (-1)) else (cons, b, .sleeps (n + 1))
    else
      let c := cons.byteAt cons.r
      let cons := { cons with r := cons.r + 1 }
      if c = C 'D' then
        -- the `^D` is saved for the next call if this one has bytes
        if n + 1 < target then
          ({ cons with r := cons.r - 1 }, b, .returns (target - (n + 1 : Nat)))
        else (cons, { b with took := b.took ++ [c] }, .returns (target - (n + 1 : Nat)))
      else if copied b.got.length then
        let b := { got := b.got ++ [c], took := b.took ++ [c] }
        if c = LF then (cons, b, .returns (target - n))
        else consolereadLoop killed copied target n cons b
      else (cons, { b with took := b.took ++ [c] }, .returns (target - (n + 1 : Nat)))

/-- A process in `consoleread`, outside its lock. -/
structure Reader where
  target : Nat
  n : Nat
  bytes : Bytes
  asleep : Bool
  deriving DecidableEq, Repr

/-- A call that has returned. `next` is the byte that it left to the next
reader. -/
structure Ended where
  n : Nat
  bytes : Bytes
  ret : Int
  killed : Bool
  next : Option UInt8
  deriving DecidableEq, Repr

/-- What happened to a byte. -/
inductive Mark where
  | typed (c : UInt8)
  | took (p : Nat) (c : UInt8)
  deriving DecidableEq, Repr

/-- The byte that a reader took. -/
def Mark.taken? : Mark → Option UInt8
  | .typed _ => none
  | .took _ c => some c

structure World where
  cons : Cons
  reader : Nat → Option Reader
  killed : Nat → Bool
  history : List Mark
  reads : List Ended

inductive Event where
  /-- `consoleintr(c)`. -/
  | intr (c : UInt8)
  /-- Process `p` calls `consoleread` for `n` bytes. -/
  | read (p : Nat) (n : Int) (copied : Nat → Bool)
  /-- A reader that was woken up has the lock again. -/
  | resume (p : Nat) (copied : Nat → Bool)
  | kill (p : Nat)
  /-- The slot of `p` goes to a new process. -/
  | allocproc (p : Nat)

namespace World

/-- Process `p` gives up the lock, asleep or on its return. `b` is what the
call had before it took the lock, and `b'` what it copied in all and took off
the ring since. -/
def leave (w : World) (p target : Nat) (b : Bytes) (cons : Cons) (b' : Bytes) : Stop → World
  | .sleeps n =>
    { w with
      cons
      history := w.history ++ b'.took.map (.took p)
      reader := Function.update w.reader p
        (some { target, n, bytes := ⟨b'.got, b.took ++ b'.took⟩, asleep := true }) }
  | .returns v =>
    { w with
      cons
      history := w.history ++ b'.took.map (.took p)
      reader := Function.update w.reader p none
      reads := ⟨target, ⟨b'.got, b.took ++ b'.took⟩, v, w.killed p, cons.next⟩ :: w.reads }

/-- What process `p` does under the lock. -/
def enter (w : World) (p : Nat) (copied : Nat → Bool) (target n : Nat) (b : Bytes) : World :=
  let (cons, b', stop) :=
    consolereadLoop (w.killed p) copied target n w.cons { b with took := [] }
  w.leave p target b cons b' stop

/-- `wakeup(&cons.r)`. -/
def wakeup (w : World) : World :=
  { w with reader := fun p => (w.reader p).map fun rd => { rd with asleep := false } }

def next : Event → World → Option World
  | .intr c, w =>
    let (cons, wakes) := w.cons.consoleintr c
    let w := { w with cons, history := w.history ++ [.typed c] }
    some (if wakes then w.wakeup else w)
  | .read p n copied, w =>
    -- for a negative `n` the loop is not entered, as for zero
    if (w.reader p).isNone then some (w.enter p copied n.toNat n.toNat {}) else none
  | .resume p copied, w =>
    match w.reader p with
    | some rd => if rd.asleep then none else some (w.enter p copied rd.target rd.n rd.bytes)
    | none => none
  | .kill p, w =>
    some { w with
      killed := Function.update w.killed p true
      reader := Function.update w.reader p
        ((w.reader p).map fun rd => { rd with asleep := false }) }
  | .allocproc p, w =>
    if (w.reader p).isNone then some { w with killed := Function.update w.killed p false }
    else none

/-- After `consoleinit`. -/
def start : World where
  cons := ⟨fun _ => 0, 0, 0, 0, []⟩
  reader _ := none
  killed _ := false
  history := []
  reads := []

/-- The bytes that readers took, in order. -/
def taken (w : World) : List UInt8 := w.history.filterMap Mark.taken?

end World

end Xv6.Console
