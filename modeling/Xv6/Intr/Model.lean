import Mathlib.Logic.Function.Basic

/-!
# Interrupts and kernel threads

`push_off` and `pop_off` of `kernel/spinlock.c` under `acquire` and `release`,
and under `sched`, `yield`, `sleep`, `exit` and `scheduler` of `kernel/proc.c`,
for any number of processors and processes.

A thread is the scheduler of a processor, or a process in the kernel. What it
still has to do of the functions it called is the list `todo`; where that is
empty it is in code of its own, and may call what such code calls. The
operations of the list are the accesses to what threads share: the interrupt
flag `sstatus.SIE`, `noff` and `intena` of the processor, the spinlocks and
`p->state`. A local variable of the source becomes an argument of the
operation that uses it.

A processor with its flag set may take an interrupt between any two
operations. The handler runs on the stack of the thread with the flag clear,
and may `yield`; `saved` is what the thread was about to do.

Ghosts: `depth` counts the calls of `push_off` of a thread that `pop_off` has
not undone, `held` has the spinlocks that it is to release, and `entry` is the
flag as it was when the thread last went from depth 0 to depth 1.
-/

namespace Xv6.Intr

/-- `enum procstate`. -/
inductive PState where
  | unused
  | sleeping
  | runnable
  | running
  | zombie
  deriving DecidableEq, Repr

/-- A spinlock: the `p->lock` of a process, or any other. -/
inductive LockId where
  | proc (p : Nat)
  | other (k : Nat)
  deriving DecidableEq, Repr

/-- An access to what threads share. -/
inductive Op where
  /-- `push_off`: `old = intr_get()`. -/
  | pushOff
  /-- `intr_off()`. -/
  | intrOff (old : Bool)
  /-- `if(noff == 0) intena = old; noff += 1`. -/
  | count (old : Bool)
  /-- `acquire` after `push_off`. -/
  | spin (lk : LockId)
  /-- `release` up to `pop_off`. -/
  | unlock (lk : LockId)
  /-- The whole of `pop_off`: the flag is clear. -/
  | popOff
  /-- `p->state = s`. -/
  | setState (p : Nat) (s : PState)
  /-- `sched` up to `swtch`. -/
  | sched
  /-- `mycpu()->intena = intena`, back in `sched`. -/
  | restore (intena : Bool)
  /-- `scheduler` holds the lock of `p` and looks at its state. -/
  | pick (p : Nat)
  /-- `c->proc = 0`. -/
  | clearProc
  /-- `panic("zombie exit")`. -/
  | zombieExit
  deriving DecidableEq, Repr

/-- `acquire(lk)`. -/
def acquire (lk : LockId) : List Op := [.pushOff, .spin lk]

/-- `release(lk)`. -/
def release (lk : LockId) : List Op := [.unlock lk, .popOff]

/-- `yield()` in process `p`. -/
def yield (p : Nat) : List Op :=
  acquire (.proc p) ++ [.setState p .runnable, .sched] ++ release (.proc p)

/-- `sleep(chan, lk)` in process `p`. -/
def sleep (p : Nat) (lk : LockId) : List Op :=
  if lk ≠ .proc p then
    acquire (.proc p) ++ release lk ++ [.setState p .sleeping, .sched] ++ release (.proc p) ++
      acquire lk
  else [.setState p .sleeping, .sched]

/-- The end of `exit`, with `p->lock` held. The source sets `ZOMBIE` before it
releases the lock of the parent, here that was released before: `p->lock` is held
over both, and nobody else looks at `p->state` without it. -/
def exit (p : Nat) : List Op := [.setState p .zombie, .sched, .zombieExit]

/-- A thread: the scheduler of a processor, or a process. -/
inductive Tid where
  | sched (c : Nat)
  | proc (p : Nat)
  deriving DecidableEq, Repr

/-- What a thread still has to do, and the ghosts about it. -/
structure Thread where
  todo : List Op := []
  saved : Option (List Op) := none
  depth : Nat := 0
  held : List LockId := []
  entry : Option Bool := none
  deriving DecidableEq, Repr

/-- A new process is about to leave `scheduler`'s lock in `forkret`. -/
def forkret (p : Nat) : Thread := { todo := release (.proc p), depth := 1 }

/-- `struct cpu`, the interrupt flag and the thread that runs. -/
structure Cpu where
  noff : Int := 0
  intena : Bool := false
  sie : Bool := false
  proc : Option Nat := none
  run : Tid

/-- The processors, the threads and what they share. -/
structure World where
  cpu : Nat → Cpu
  thread : Tid → Thread
  /-- The processor that holds a spinlock. -/
  lock : LockId → Option Nat
  state : Nat → PState

/-- The panics of these functions. -/
inductive Panic where
  | acquire
  | release
  | popOffInterruptible
  | popOff
  | schedLock
  | schedLocks
  | schedRunning
  | schedInterruptible
  | zombieExit
  deriving DecidableEq, Repr

/-- Why an event does not lead on. -/
inductive Stop where
  /-- The event cannot happen here. -/
  | stuck
  | panic (x : Panic)
  deriving DecidableEq, Repr

/-- What a thread does in its own code. -/
inductive Call where
  | acquire (lk : LockId)
  | release (lk : LockId)
  | pushOff
  | popOff
  | intrOn
  | intrOff
  | sleep (lk : LockId)
  | yield
  | exit
  /-- One turn of the loop of `wakeup`, `p->lock` being held. -/
  | wakeup (p : Nat)
  /-- `allocproc` and the end of `fork`, `np->lock` being held. -/
  | fork (p : Nat)
  | freeproc (p : Nat)
  /-- One turn of the loop of `scheduler`. -/
  | schedule (p : Nat)
  deriving DecidableEq, Repr

/-- What can happen next. -/
inductive Event where
  /-- The thread on processor `c` takes the next operation. -/
  | op (c : Nat)
  | call (c : Nat) (call : Call)
  /-- An interrupt, and the return from it. -/
  | trap (c : Nat)
  | sret (c : Nat)
  deriving DecidableEq, Repr

namespace World

variable (w : World) (c : Nat)

/-- The thread on processor `c`. -/
def live : Thread := w.thread (w.cpu c).run

/-- Change processor `c`. -/
def setCpu (f : Cpu → Cpu) : World := { w with cpu := Function.update w.cpu c (f (w.cpu c)) }

/-- Change thread `t`. -/
def setThread (t : Tid) (f : Thread → Thread) : World :=
  { w with thread := Function.update w.thread t (f (w.thread t)) }

/-- Change the thread on `c`. -/
def setLive (f : Thread → Thread) : World := w.setThread (w.cpu c).run f

/-- A spinlock goes to a processor, or is free. -/
def setLock (lk : LockId) (x : Option Nat) : World :=
  { w with lock := Function.update w.lock lk x }

/-- `p->state = s`. -/
def setState (p : Nat) (s : PState) : World := { w with state := Function.update w.state p s }

/-- The thread on `c` goes on with `todo`. -/
def goto (todo : List Op) : World := w.setLive c fun t => { t with todo }

/-- `pop_off`. -/
def popOff (rest : List Op) : Except Stop World :=
  if (w.cpu c).sie then .error (.panic .popOffInterruptible)
  else if (w.cpu c).noff < 1 then .error (.panic .popOff)
  else
    let noff := (w.cpu c).noff - 1
    .ok ((w.setCpu c fun k =>
        { k with noff, sie := if noff = 0 ∧ k.intena = true then true else k.sie }).setLive c
      fun t => { t with todo := rest, depth := t.depth - 1 })

/-- `swtch` of process `p` to the scheduler, to whom its lock goes. -/
def swtchOut (p : Nat) (rest : List Op) : World :=
  ((w.setThread (.proc p) fun t =>
      { t with todo := .restore (w.cpu c).intena :: rest, held := [] }).setThread (.sched c)
    fun t => { t with held := [.proc p], entry := none }).setCpu c fun k => { k with run := .sched c }

/-- `sched`. -/
def sched (rest : List Op) : Except Stop World :=
  match (w.cpu c).proc with
  | none => .error .stuck
  | some p =>
    if w.lock (.proc p) ≠ some c then .error (.panic .schedLock)
    else if (w.cpu c).noff ≠ 1 then .error (.panic .schedLocks)
    else if w.state p = .running then .error (.panic .schedRunning)
    else if (w.cpu c).sie then .error (.panic .schedInterruptible)
    else .ok (w.swtchOut c p rest)

/-- `swtch` of the scheduler to process `p`. -/
def swtchIn (p : Nat) (rest : List Op) : World :=
  (((w.setState p .running).setThread (.sched c) fun t =>
      { t with todo := .clearProc :: (release (.proc p) ++ rest), held := [] }).setThread (.proc p)
    fun t => { t with held := [.proc p] }).setCpu c fun k => { k with proc := some p, run := .proc p }

/-- The next operation of the thread on `c`. -/
def op : Except Stop World :=
  match (w.live c).todo with
  | [] => .error .stuck
  | .pushOff :: rest => .ok (w.goto c (.intrOff (w.cpu c).sie :: rest))
  | .intrOff old :: rest =>
    .ok ((w.setLive c fun t =>
        { t with
          todo := .count old :: rest
          entry := if t.depth = 0 then some (w.cpu c).sie else t.entry }).setCpu c
      fun k => { k with sie := false })
  | .count old :: rest =>
    .ok ((w.setCpu c fun k =>
        { k with intena := if k.noff = 0 then old else k.intena, noff := k.noff + 1 }).setLive c
      fun t => { t with todo := rest, depth := t.depth + 1 })
  | .spin lk :: rest =>
    if w.lock lk = some c then .error (.panic .acquire)
    else if w.lock lk ≠ none then .error .stuck
    else .ok ((w.setLock lk (some c)).setLive c fun t => { t with todo := rest, held := lk :: t.held })
  | .unlock lk :: rest =>
    if w.lock lk ≠ some c then .error (.panic .release)
    else
      .ok ((w.setLock lk none).setLive c fun t => { t with todo := rest, held := t.held.erase lk })
  | .popOff :: rest => w.popOff c rest
  | .setState p s :: rest => .ok ((w.setState p s).goto c rest)
  | .sched :: rest => w.sched c rest
  | .restore intena :: rest => .ok ((w.setCpu c fun k => { k with intena }).goto c rest)
  | .pick p :: rest =>
    if w.state p = .runnable then .ok (w.swtchIn c p rest)
    else .ok (w.goto c (release (.proc p) ++ rest))
  | .clearProc :: rest => .ok ((w.setCpu c fun k => { k with proc := none }).goto c rest)
  | .zombieExit :: _ => .error (.panic .zombieExit)

/-- A call from code that keeps the rules: it releases what it holds, sleeps
with exactly one spinlock and yields with none. -/
def call : Call → Except Stop World
  | .acquire lk => if lk ∈ (w.live c).held then .error .stuck else .ok (w.goto c (acquire lk))
  | .release lk => if lk ∈ (w.live c).held then .ok (w.goto c (release lk)) else .error .stuck
  | .pushOff => .ok (w.goto c [.pushOff])
  | .popOff =>
    if (w.live c).held.length < (w.live c).depth then .ok (w.goto c [.popOff]) else .error .stuck
  | .intrOn =>
    if (w.live c).depth = 0 ∧ (w.live c).saved = none then
      .ok (w.setCpu c fun k => { k with sie := true })
    else .error .stuck
  | .intrOff =>
    if (w.live c).depth = 0 then .ok (w.setCpu c fun k => { k with sie := false })
    else .error .stuck
  | .sleep lk =>
    match (w.cpu c).run, (w.cpu c).proc with
    | .proc _, some p =>
      if (w.live c).held = [lk] ∧ (w.live c).depth = 1 then .ok (w.goto c (sleep p lk))
      else .error .stuck
    | _, _ => .error .stuck
  | .yield =>
    match (w.cpu c).run, (w.cpu c).proc with
    | .proc _, some p =>
      if (w.live c).depth = 0 then .ok (w.goto c (yield p)) else .error .stuck
    | _, _ => .error .stuck
  | .exit =>
    match (w.cpu c).run, (w.cpu c).proc with
    | .proc _, some p =>
      if (w.live c).held = [.proc p] ∧ (w.live c).depth = 1 then .ok (w.goto c (exit p))
      else .error .stuck
    | _, _ => .error .stuck
  | .wakeup p =>
    if .proc p ∈ (w.live c).held ∧ w.state p = .sleeping then .ok (w.setState p .runnable)
    else .error .stuck
  | .fork p =>
    if .proc p ∈ (w.live c).held ∧ w.state p = .unused then
      .ok ((w.setThread (.proc p) fun _ => forkret p).setState p .runnable)
    else .error .stuck
  | .freeproc p =>
    if .proc p ∈ (w.live c).held ∧ w.state p = .zombie then .ok (w.setState p .unused)
    else .error .stuck
  | .schedule p =>
    match (w.cpu c).run with
    | .sched _ =>
      if (w.live c).depth = 0 ∧ (w.live c).saved = none then
        .ok (w.goto c (acquire (.proc p) ++ [.pick p]))
      else .error .stuck
    | .proc _ => .error .stuck

/-- One event; a handler is done where it has nothing left to do. -/
def step : Event → Except Stop World
  | .op c => w.op c
  | .call c x => if (w.live c).todo = [] then w.call c x else .error .stuck
  | .trap c =>
    if (w.cpu c).sie ∧ (w.live c).saved = none then
      .ok ((w.setLive c fun t => { t with saved := some t.todo, todo := [] }).setCpu c
        fun k => { k with sie := false })
    else .error .stuck
  | .sret c =>
    match (w.live c).saved with
    | none => .error .stuck
    | some todo =>
      if (w.live c).todo = [] ∧ (w.live c).depth = 0 then
        .ok ((w.setLive c fun t => { t with saved := none, todo }).setCpu c
          fun k => { k with sie := true })
      else .error .stuck

end World

/-- The world after an event that happens and does not panic. -/
def next (e : Event) (w : World) : Option World := (w.step e).toOption

/-- All processors are about to schedule, and there is one process. -/
def start : World where
  cpu c := { run := .sched c }
  thread
    | .sched _ => {}
    | .proc p => forkret p
  lock _ := none
  state p := if p = 0 then .runnable else .unused

end Xv6.Intr
