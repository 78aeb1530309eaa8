import Mathlib.Logic.Function.Basic
import Xv6.Lib.CInt
import Xv6.Params

/-!
# Pipes

`pipewrite`, `piperead` and `pipeclose` of `kernel/pipe.c`, called by any
number of processes on one pipe, with `sleep`, `wakeup` and `kill` of
`kernel/proc.c`.

Each thread has a place in its code, and an event takes one thread one step
on: it takes `pi->lock`, goes once through a loop, or looks at one process in
the loop of `wakeup`. `sleep` is cut where it has released `pi->lock`; the
process is then falling asleep and holds its `p->lock`, which `wakeup` and
`kill` wait for. `kill` does not take `pi->lock` and may come between any two
steps.

Whether `copyin` and `copyout` succeed, and the bytes that come from the
writers, are inputs of the steps. Once both ends are closed the page of the
pipe goes back to the allocator; nobody uses it then, and this is left out.

Ghosts: `put` and `taken` are the bytes that went into the ring and came out
of it, the last one at the end, and a writer remembers whether it has stored a
byte since it took the lock.
-/

namespace Xv6.Pipe

open Xv6.Lib.CInt

/-- Bytes in the ring. -/
abbrev PIPESIZE : Nat := 512

/-- The channels `&pi->nread` and `&pi->nwrite`. -/
inductive Chan where
  | nread
  | nwrite
  deriving DecidableEq, Repr

/-- What follows a `wakeup`. -/
inductive After where
  /-- Give up `pi->lock` and return. -/
  | release
  /-- `pipewrite` sleeps, with `i` of `n` bytes stored. -/
  | sleepWrite (n : Int) (i : Nat)
  deriving DecidableEq, Repr

/-- Where a thread is. -/
inductive Pc where
  | idle
  /-- `pipewrite` is about to take the lock, first or after a sleep. -/
  | writeLock (n : Int) (i : Nat)
  /-- The loop of `pipewrite`. -/
  | write (n : Int) (i : Nat) (stored : Bool)
  | readLock (n : Int)
  /-- The loop of `piperead` that waits for a byte. -/
  | readWait (n : Int)
  /-- The loop of `piperead` that takes bytes. -/
  | read (n : Int) (i : Nat)
  /-- `wakeup` is about to look at process `j`. -/
  | wakeup (chan : Chan) (j : Nat) (after : After)
  | closeLock (writable : Bool)
  deriving DecidableEq, Repr

inductive State where
  | awake
  /-- In `sleep`, with `p->lock` taken and `pi->lock` released. -/
  | falling (chan : Chan)
  | sleeping (chan : Chan)
  deriving DecidableEq, Repr

structure Thread where
  state : State := .awake
  killed : Bool := false
  pc : Pc := .idle

/-- The bytes of `struct pipe` and its counters. -/
structure Ring where
  data : Nat → UInt8
  nread : Nat
  nwrite : Nat
  put : List UInt8
  taken : List UInt8

namespace Ring

/-- `pi->nwrite == pi->nread + PIPESIZE`. -/
def full (r : Ring) : Bool := r.nwrite = uint32 (r.nread + PIPESIZE)

def empty (r : Ring) : Bool := r.nread = r.nwrite

/-- `pi->data[pi->nwrite++ % PIPESIZE] = ch`. -/
def store (r : Ring) (ch : UInt8) : Ring :=
  { r with
    data := Function.update r.data (r.nwrite % PIPESIZE) ch
    nwrite := uint32 (r.nwrite + 1)
    put := r.put ++ [ch] }

/-- `ch = pi->data[pi->nread++ % PIPESIZE]`. -/
def take (r : Ring) : Ring :=
  { r with
    nread := uint32 (r.nread + 1)
    taken := r.taken ++ [r.data (r.nread % PIPESIZE)] }

/-- The number of bytes in the ring, `pi->nwrite - pi->nread`. -/
def used (r : Ring) : Nat := uint32 (r.nwrite - r.nread)

/-- The bytes in the ring, the oldest first. -/
def content (r : Ring) : List UInt8 :=
  (List.range r.used).map fun k => r.data ((r.nread + k) % PIPESIZE)

end Ring

/-- `struct pipe` and the processes. -/
structure World where
  lock : Option Nat
  ring : Ring
  readopen : Bool
  writeopen : Bool
  thread : Nat → Thread

inductive Event where
  | writeCall (p : Nat) (n : Int)
  | readCall (p : Nat) (n : Int)
  | closeCall (p : Nat) (writable : Bool)
  /-- One step of a thread. `byte` is what `copyin` delivers, if it
  succeeds, and `copied` says whether `copyout` does. -/
  | run (p : Nat) (byte : Option UInt8) (copied : Bool)
  | kill (p : Nat)
  deriving DecidableEq, Repr

namespace World

def setThread (w : World) (p : Nat) (f : Thread → Thread) : World :=
  { w with thread := Function.update w.thread p (f (w.thread p)) }

def goto (w : World) (p : Nat) (pc : Pc) : World := w.setThread p fun t => { t with pc := pc }

/-- Take `pi->lock` and go on at `pc`; nothing if it would spin. -/
def acquire (w : World) (p : Nat) (pc : Pc) : Option World :=
  if w.lock = none then some ({ w with lock := some p }.goto p pc) else none

/-- Release `pi->lock` and return from the call. -/
def finish (w : World) (p : Nat) : World := { w with lock := none }.goto p .idle

/-- `sleep`, up to the release of `pi->lock`. The thread goes on at `pc` when
it wakes up. -/
def sleep (w : World) (p : Nat) (chan : Chan) (pc : Pc) : World :=
  { w with lock := none }.setThread p fun t => { t with state := .falling chan, pc := pc }

/-- One turn of the loop of `pipewrite`. -/
def writeTurn (w : World) (p : Nat) (n : Int) (i : Nat) (byte : Option UInt8) : World :=
  if (i : Int) < n then
    if !w.readopen || (w.thread p).killed then w.finish p
    else if w.ring.full then w.goto p (.wakeup .nread 0 (.sleepWrite n i))
    else
      match byte with
      | none => w.goto p (.wakeup .nread 0 .release)
      | some ch => { w with ring := w.ring.store ch }.goto p (.write n (i + 1) true)
  else w.goto p (.wakeup .nread 0 .release)

/-- One turn of the loop in which `piperead` waits. -/
def readWaitTurn (w : World) (p : Nat) (n : Int) : World :=
  if w.ring.empty && w.writeopen then
    if (w.thread p).killed then w.finish p else w.sleep p .nread (.readLock n)
  else w.goto p (.read n 0)

/-- One turn of the loop in which `piperead` takes bytes. -/
def readTurn (w : World) (p : Nat) (n : Int) (i : Nat) (copied : Bool) : World :=
  if (i : Int) < n ∧ ¬w.ring.empty then
    if copied then { w with ring := w.ring.take }.goto p (.read n (i + 1))
    else { w with ring := w.ring.take }.goto p (.wakeup .nwrite 0 .release)
  else w.goto p (.wakeup .nwrite 0 .release)

/-- `wakeup` looks at process `j`. -/
def wake (w : World) (chan : Chan) (j : Nat) : World :=
  w.setThread j fun t => if t.state = .sleeping chan then { t with state := .awake } else t

/-- `p->lock` of the process is free. -/
def unlocked (w : World) (p : Nat) : Bool :=
  match (w.thread p).state with
  | .falling _ => false
  | _ => true

/-- One turn of the loop of `wakeup`, or what follows it. -/
def wakeupTurn (w : World) (p : Nat) (chan : Chan) (j : Nat) (after : After) : Option World :=
  if j < NPROC then
    if w.unlocked j then some ((w.wake chan j).goto p (.wakeup chan (j + 1) after)) else none
  else
    match after with
    | .release => some (w.finish p)
    | .sleepWrite n i => some (w.sleep p .nwrite (.writeLock n i))

/-- `pipeclose`, with the lock. -/
def close (w : World) (p : Nat) (writable : Bool) : World :=
  if writable then { w with writeopen := false }.goto p (.wakeup .nread 0 .release)
  else { w with readopen := false }.goto p (.wakeup .nwrite 0 .release)

/-- A thread that is awake goes on from where it is. -/
def run (w : World) (p : Nat) (byte : Option UInt8) (copied : Bool) : Option World :=
  match (w.thread p).pc with
  | .idle => none
  | .writeLock n i => w.acquire p (.write n i false)
  | .write n i _ => some (w.writeTurn p n i byte)
  | .readLock n => w.acquire p (.readWait n)
  | .readWait n => some (w.readWaitTurn p n)
  | .read n i => some (w.readTurn p n i copied)
  | .wakeup chan j after => w.wakeupTurn p chan j after
  | .closeLock writable =>
    if w.lock = none then some ({ w with lock := some p }.close p writable) else none

/-- A process that is not in a call makes one. -/
def call (w : World) (p : Nat) (pc : Pc) : Option World :=
  if p < NPROC ∧ (w.thread p).state = .awake ∧ (w.thread p).pc = .idle then some (w.goto p pc)
  else none

def next : Event → World → Option World
  | .writeCall p n, w => w.call p (.writeLock n 0)
  | .readCall p n, w => w.call p (.readLock n)
  | .closeCall p writable, w => w.call p (.closeLock writable)
  | .run p byte copied, w =>
    match (w.thread p).state with
    | .awake => w.run p byte copied
    | .falling chan => some (w.setThread p fun t => { t with state := .sleeping chan })
    | .sleeping _ => none
  | .kill p, w =>
    if w.unlocked p then
      some (w.setThread p fun t => { t with
        killed := true
        state := match t.state with
          | .sleeping _ => .awake
          | s => s })
    else none

/-- The pipe after `pipealloc`, which does not clear the ring. -/
def start (data : Nat → UInt8) : World where
  lock := none
  ring := { data := data, nread := 0, nwrite := 0, put := [], taken := [] }
  readopen := true
  writeopen := true
  thread := fun _ => {}

end World

end Xv6.Pipe
