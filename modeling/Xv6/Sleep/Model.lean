import Mathlib.Logic.Function.Basic

/-!
# Sleep and wakeup

`sleep`, `wakeup` and `kill` of `kernel/proc.c`, for any number of processes
that share some state under a spinlock `lk` and sleep on one channel until a
condition on that state holds.

Every `acquire`, every `release` and every write is a step of its own. The
scheduler and `kill` have their steps too: a process that has called `sched`
goes on when some CPU has locked it, found it `RUNNABLE` and switched to it.
`lk` is not the `p->lock` of any process, so that `sleep` swaps the one for the
other.

The code that uses `sleep` and `wakeup` is a `Client`. What a client does
between `acquire(&lk)` and `release(&lk)` is a list of instructions: the loop
`while(!cond) sleep(chan, lk)`, or an update of the shared state, which may
call `wakeup(chan)` next. Clients also change the shared state without the
lock, by `free`.
-/

namespace Xv6.Sleep

/-! ## Clients -/

/-- What is done under the lock. -/
inductive Instr (S : Type) where
  /-- `while(!cond) sleep(chan, lk)`. -/
  | wait
  /-- An update; the flag says whether `wakeup(chan)` follows. There is no
  result where the update panics. -/
  | set (f : S → Option (S × Bool))

/-- The code that shares a state of type `S`. -/
structure Client (S : Type) where
  /-- The functions that processes call. -/
  Op : Type
  /-- Their code, from `acquire(&lk)` to `release(&lk)`. -/
  code : Nat → Op → List (Instr S)
  /-- When a process may call them. -/
  ready : Nat → Op → S → Bool
  /-- The condition that processes wait for. -/
  cond : S → Bool
  /-- What processes do to the shared state without the lock. -/
  Free : Type
  free : Nat → Free → S → Option S

/-! ## Processes -/

/-- `p->state` of a process that is there. -/
inductive State where
  | running
  | runnable
  | sleeping
  deriving DecidableEq, Repr

/-- Who holds a `p->lock`. -/
inductive Owner where
  | thread (p : Nat)
  /-- `scheduler`, before its test. -/
  | scheduler
  /-- A call of `kill`. -/
  | killer
  deriving DecidableEq, Repr

/-- Where a thread is, with the instructions that are left. -/
inductive Pc (S : Type) where
  | idle
  /-- About to `acquire(&lk)`. -/
  | acquire (code : List (Instr S))
  /-- Under the lock. -/
  | run (code : List (Instr S))
  /-- `wakeup`, about to take the lock of process `j`. -/
  | wakeLock (j : Nat) (code : List (Instr S))
  /-- About to look at the state and the channel of `j`. -/
  | wakeTest (j : Nat) (code : List (Instr S))
  /-- About to release the lock of `j`. -/
  | wakeUnlock (j : Nat) (code : List (Instr S))
  /-- `sleep`, about to `acquire(&p->lock)`. -/
  | sleepLock (code : List (Instr S))
  /-- About to `release(lk)`. -/
  | sleepRelease (code : List (Instr S))
  /-- About to set `p->chan`. -/
  | sleepChan (code : List (Instr S))
  /-- About to set `p->state`. -/
  | sleepState (code : List (Instr S))
  /-- About to leave the CPU. -/
  | sched (code : List (Instr S))
  /-- Off the CPU. -/
  | off (code : List (Instr S))
  /-- Back in `sleep`, about to clear `p->chan`. -/
  | tidy (code : List (Instr S))
  /-- About to `release(&p->lock)`. -/
  | sleepUnlock (code : List (Instr S))

/-- `struct proc`, and where its thread is. -/
structure Proc (S : Type) where
  state : State := .running
  /-- `p->chan == chan`. -/
  chan : Bool := false
  lock : Option Owner := none
  killed : Bool := false
  pc : Pc S := .idle

/-- The lock, the shared state and the processes. -/
structure World (S : Type) where
  lk : Option Nat
  shared : S
  proc : Nat → Proc S

/-- What can happen next. -/
inductive Event {S : Type} (c : Client S) where
  | call (p : Nat) (op : c.Op)
  /-- The thread of `p` takes a step. -/
  | step (p : Nat)
  /-- `scheduler` locks `p`. -/
  | schedLock (p : Nat)
  /-- It switches to `p`, or gives the lock up. -/
  | schedTest (p : Nat)
  /-- The three steps of `kill` at `p`. -/
  | killLock (p : Nat)
  | killWrite (p : Nat)
  | killUnlock (p : Nat)
  | free (p : Nat) (f : c.Free)

namespace World

variable {S : Type} (w : World S)

/-- Change process `p`. -/
def setProc (p : Nat) (f : Proc S → Proc S) : World S :=
  { w with proc := Function.update w.proc p (f (w.proc p)) }

/-- The thread of `p` goes on at `pc`. -/
def goto (p : Nat) (pc : Pc S) : World S := w.setProc p fun pr => { pr with pc }

/-- The lock of `p` goes to `owner`. -/
def setLock (p : Nat) (owner : Option Owner) : World S :=
  w.setProc p fun pr => { pr with lock := owner }

/-- `p->state = RUNNABLE`. -/
def wake (j : Nat) : World S := w.setProc j fun pr => { pr with state := .runnable }

variable (c : Client S) (n : Nat)

/-- One step of the thread of `p`; `n` is the size of the process table. -/
def step (p : Nat) : Option (World S) :=
  match (w.proc p).pc with
  | .idle => none
  | .acquire code => if w.lk = none then some ({ w with lk := some p }.goto p (.run code)) else none
  | .run [] => some ({ w with lk := none }.goto p .idle)
  | .run (.wait :: code) =>
    if c.cond w.shared then some (w.goto p (.run code))
    else some (w.goto p (.sleepLock (.wait :: code)))
  | .run (.set f :: code) =>
    match f w.shared with
    | none => none
    | some (s, true) => some ({ w with shared := s }.goto p (.wakeLock 0 code))
    | some (s, false) => some ({ w with shared := s }.goto p (.run code))
  | .wakeLock j code =>
    if j = n then some (w.goto p (.run code))
    else if (w.proc j).lock = none then
      some ((w.setLock j (some (.thread p))).goto p (.wakeTest j code))
    else none
  | .wakeTest j code =>
    if (w.proc j).state = .sleeping ∧ (w.proc j).chan = true then
      some ((w.wake j).goto p (.wakeUnlock j code))
    else some (w.goto p (.wakeUnlock j code))
  | .wakeUnlock j code => some ((w.setLock j none).goto p (.wakeLock (j + 1) code))
  | .sleepLock code =>
    if (w.proc p).lock = none then
      some ((w.setLock p (some (.thread p))).goto p (.sleepRelease code))
    else none
  | .sleepRelease code => some ({ w with lk := none }.goto p (.sleepChan code))
  | .sleepChan code =>
    some ((w.setProc p fun pr => { pr with chan := true }).goto p (.sleepState code))
  | .sleepState code =>
    some ((w.setProc p fun pr => { pr with state := .sleeping }).goto p (.sched code))
  -- the CPU is back in `scheduler`, which releases `p->lock`
  | .sched code => some ((w.setLock p none).goto p (.off code))
  | .off _ => none
  | .tidy code =>
    some ((w.setProc p fun pr => { pr with chan := false }).goto p (.sleepUnlock code))
  | .sleepUnlock code => some ((w.setLock p none).goto p (.acquire code))

/-- `swtch` to the thread of `p`, which then holds `p->lock`. -/
def resume (p : Nat) (code : List (Instr S)) : World S :=
  w.setProc p fun pr => { pr with state := .running, lock := some (.thread p), pc := .tidy code }

/-- `scheduler` holds `p->lock` and looks at `p->state`. -/
def schedTest (p : Nat) : Option (World S) :=
  match (w.proc p).pc with
  | .off code =>
    if (w.proc p).state = .runnable then some (w.resume p code)
    else some (w.setLock p none)
  | _ => some (w.setLock p none)

/-- The world after an event, if it can happen. -/
def next {c : Client S} : Event c → Option (World S)
  | .call p op =>
    if p < n then
      match (w.proc p).pc with
      | .idle =>
        if c.ready p op w.shared then some (w.goto p (.acquire (c.code p op))) else none
      | _ => none
    else none
  | .step p => w.step c n p
  | .schedLock p =>
    if (w.proc p).lock = none then some (w.setLock p (some .scheduler)) else none
  | .schedTest p => if (w.proc p).lock = some .scheduler then w.schedTest p else none
  | .killLock p =>
    if (w.proc p).lock = none then some (w.setLock p (some .killer)) else none
  | .killWrite p =>
    if (w.proc p).lock = some .killer then
      some (w.setProc p fun pr =>
        { pr with
          killed := true
          state := if pr.state = .sleeping then .runnable else pr.state })
    else none
  | .killUnlock p => if (w.proc p).lock = some .killer then some (w.setLock p none) else none
  | .free p f =>
    match (w.proc p).pc with
    | .idle => (c.free p f w.shared).map fun s => { w with shared := s }
    | _ => none

end World

/-- `World.next` in the order of arguments that runs take. -/
def next {S : Type} (c : Client S) (n : Nat) (e : Event c) (w : World S) : Option (World S) :=
  w.next n e

/-- Nobody has called anything. -/
def start {S : Type} (s : S) : World S where
  lk := none
  shared := s
  proc _ := {}

end Xv6.Sleep
