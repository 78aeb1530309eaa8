import Mathlib.Logic.Function.Basic
import Xv6.Lib.CInt
import Xv6.Params

/-!
# `fork`, `exit`, `wait`, `kill` and the scheduler

The process table of `kernel/proc.c` at the granularity of `p->lock`. Each
process has a place in its kernel code, right before its next lock
operation or its next read of another process's `parent` field without
that process's lock. One event takes a process to its next such place; a
section under one lock is a part of one event, and locks that are held over
several sections (`exit` holds its parent's lock and its own while it gives
its children away, `wait` holds its own while it scans the table) are part
of the state.

Any number of processes may be running at once. A running process can lose
the processor wherever it holds no lock. What else the calls do (memory,
files) is left out, up to the outcomes that decide what happens to the
process table: which allocation of `fork` fails, and whether the `copyout`
of `wait` does.

Ghosts: each process has a number of its own, never used again, `exits`
records the status each process passed to `exit`, and `reaped` what each
`wait` returned.
-/

namespace Xv6.Sched

open Xv6.Lib.CInt

/-- `enum procstate`. -/
inductive PState where
  | unused
  | sleeping
  | runnable
  | running
  | zombie
  deriving DecidableEq, Repr

/-- A sleep channel: the address of a process, or of something else. -/
inductive Chan where
  | proc (p : Nat)
  | other (n : Nat)
  deriving DecidableEq, Repr

/-- Where the kernel thread of a process is. -/
inductive Pc where
  /-- In none of the calls below. -/
  | user
  /-- `fork`: `allocproc` is about to lock slot `i`. -/
  | allocproc (i : Nat)
  /-- `kill` is about to lock slot `i`. -/
  | kill (pid : Int) (i : Nat)
  /-- `exit` is about to lock `initproc` to wake it up. -/
  | exitWakeInit (status : Int)
  /-- `exit` is about to lock the process itself and read its parent. -/
  | exitParent (status : Int)
  /-- `exit` is about to lock `original_parent`. -/
  | exitLockParent (status : Int) (original_parent : Nat)
  /-- `exit` holds the lock of `original_parent` and is about to lock the
  process itself. -/
  | exitLock (status : Int) (original_parent : Nat)
  /-- `reparent` is about to read the parent of slot `i`. -/
  | reparent (status : Int) (original_parent i : Nat)
  /-- `reparent` is about to lock slot `i`, a child. -/
  | reparentLock (status : Int) (original_parent i : Nat)
  /-- `wait` is about to lock the process itself. -/
  | waitLock (addr : Nat)
  /-- `wait` is about to read the parent of slot `i`. -/
  | wait (addr : Nat) (havekids : Bool) (i : Nat)
  /-- `wait` is about to lock slot `i`, a child. -/
  | waitLockChild (addr i : Nat)
  /-- In the `sleep` of `wait`. -/
  | waitSleep (addr : Nat)
  deriving DecidableEq, Repr

/-- `struct proc`, the fields that the calls use, and the thread. -/
structure Proc where
  state : PState := .unused
  pid : Int := 0
  parent : Option Nat := none
  chan : Option Chan := none
  killed : Bool := false
  xstate : Int := 0
  /-- The process whose thread holds `p->lock`. -/
  lock : Option Nat := none
  pc : Pc := .user
  /-- Ghost: the number of the process. -/
  uid : Nat := 0

/-- What a `wait` that returned a pid returned. -/
structure Reaped where
  /-- The process that called `wait`, and the slot that was freed. -/
  caller : Nat
  slot : Nat
  uid : Nat
  pid : Int
  /-- The argument of `wait`, and what was stored there. -/
  addr : Nat
  delivered : Option Int
  deriving DecidableEq

/-- The process table and what goes with it. -/
structure Table where
  proc : Nat → Proc
  nextpid : Int
  /-- Ghost: how many pids were handed out. -/
  handed : Nat
  /-- Ghost: the processes that called `exit`, with the status. -/
  exits : List (Nat × Int)
  /-- Ghost: the processes returned by `wait`, the last one first. -/
  reaped : List Reaped

/-- The slot `allocproc` gives to the first process. -/
abbrev initproc : Nat := 0

/-- How the allocations of `fork` go. -/
inductive Alloc where
  | noTrapframe
  | noPagetable
  | noMemory
  | ok
  deriving DecidableEq, Repr

inductive Call where
  | fork
  | exit (status : Int)
  | wait (addr : Nat)
  | kill (pid : Int)
  deriving DecidableEq, Repr

inductive Event where
  /-- A system call of a running process. -/
  | call (p : Nat) (c : Call)
  /-- A running process goes on in its call. -/
  | run (p : Nat) (alloc : Alloc) (copied : Bool)
  /-- `sched` of a zombie hands `p->lock` to the scheduler, which releases
  it. -/
  | schedRelease (p : Nat)
  | yield (p : Nat)
  /-- `sleep` with a lock other than `p->lock`. -/
  | sleep (p : Nat) (chan : Chan)
  /-- One turn of the loop of `wakeup`. -/
  | wakeup (p : Nat) (chan : Chan)
  /-- One turn of the loop of `scheduler`. -/
  | schedule (p : Nat)
  deriving DecidableEq, Repr

namespace Table

/-- Change one slot. -/
def setProc (t : Table) (p : Nat) (f : Proc → Proc) : Table :=
  { t with proc := Function.update t.proc p (f (t.proc p)) }

/-- The thread of `p` moves on to `pc`. -/
def goto (t : Table) (p : Nat) (pc : Pc) : Table := t.setProc p fun pr => { pr with pc := pc }

def acquire (t : Table) (p holder : Nat) : Table :=
  t.setProc p fun pr => { pr with lock := some holder }

def release (t : Table) (p : Nat) : Table := t.setProc p fun pr => { pr with lock := none }

/-- `acquire` would not spin. -/
def unlocked (t : Table) (p : Nat) : Bool := (t.proc p).lock.isNone

/-- `wakeup1`. -/
def wakeup1 (t : Table) (p : Nat) : Table :=
  t.setProc p fun pr =>
    if pr.chan = some (.proc p) ∧ pr.state = .sleeping then { pr with state := .runnable } else pr

/-- `freeproc`, the part that concerns the process table. -/
def freeproc (t : Table) (p : Nat) : Table :=
  t.setProc p fun pr =>
    { pr with
      pid := 0, parent := none, chan := none, killed := false, xstate := 0, state := .unused }

/-- `allocpid`. -/
def allocpid (t : Table) : Table :=
  { t with nextpid := int32 (t.nextpid + 1), handed := t.handed + 1 }

/-- `fork` from the `found` label of `allocproc` on, with slot `np` locked. -/
def forkFound (t : Table) (p np : Nat) (alloc : Alloc) : Table :=
  let t1 := t.allocpid.setProc np fun pr => { pr with pid := t.nextpid }
  let t2 :=
    match alloc with
    | .noTrapframe => t1
    | .noPagetable | .noMemory => t1.freeproc np
    | .ok => t1.setProc np fun pr =>
        { pr with parent := some p, state := .runnable, pc := .user, uid := t.handed + 1 }
  t2.goto p .user

/-- One turn of the loop of `kill`. -/
def killTurn (t : Table) (p : Nat) (pid : Int) (i : Nat) : Table :=
  if (t.proc i).pid = pid then
    (t.setProc i fun pr =>
      { pr with
        killed := true
        state := if pr.state = .sleeping then .runnable else pr.state }).goto p .user
  else t.goto p (.kill pid (i + 1))

/-- The end of `exit`, all children given away. -/
def exitZombie (t : Table) (p : Nat) (status : Int) (original_parent : Nat) : Table :=
  ((t.wakeup1 original_parent).setProc p fun pr =>
    { pr with xstate := status, state := .zombie, pc := .user }).release original_parent

/-- `wait` with the lock of child `np`. -/
def waitChild (t : Table) (p addr np : Nat) (copied : Bool) : Table :=
  if (t.proc np).state = .zombie then
    if addr ≠ 0 ∧ ¬copied then (t.release p).goto p .user
    else
      let r : Reaped :=
        { caller := p, slot := np, uid := (t.proc np).uid, pid := (t.proc np).pid, addr := addr
          delivered := if addr ≠ 0 then some (t.proc np).xstate else none }
      { ((t.freeproc np).release p).goto p .user with reaped := r :: t.reaped }
  else t.goto p (.wait addr true (np + 1))

/-- The end of a scan of `wait` without an exited child. -/
def waitEnd (t : Table) (p addr : Nat) (havekids : Bool) : Table :=
  if !havekids || (t.proc p).killed then (t.release p).goto p .user
  else
    ((t.setProc p fun pr => { pr with chan := some (.proc p), state := .sleeping }).release p).goto
      p (.waitSleep addr)

/-- The thread of `p` goes on from where it is; nothing if it would spin. -/
def run (t : Table) (p : Nat) (alloc : Alloc) (copied : Bool) : Option Table :=
  match (t.proc p).pc with
  | .user | .waitSleep _ => none
  | .allocproc i =>
    if NPROC ≤ i then some (t.goto p .user)
    else if !t.unlocked i then none
    else if (t.proc i).state = .unused then some (t.forkFound p i alloc)
    else some (t.goto p (.allocproc (i + 1)))
  | .kill pid i =>
    if NPROC ≤ i then some (t.goto p .user)
    else if !t.unlocked i then none
    else some (t.killTurn p pid i)
  | .exitWakeInit status =>
    if !t.unlocked initproc then none
    else some ((t.wakeup1 initproc).goto p (.exitParent status))
  | .exitParent status =>
    if !t.unlocked p then none
    else
      match (t.proc p).parent with
      | some q => some (t.goto p (.exitLockParent status q))
      | none => none
  | .exitLockParent status q =>
    if !t.unlocked q then none
    else some ((t.acquire q p).goto p (.exitLock status q))
  | .exitLock status q =>
    if !t.unlocked p then none
    else some ((t.acquire p p).goto p (.reparent status q 0))
  | .reparent status q i =>
    if NPROC ≤ i then some (t.exitZombie p status q)
    else if (t.proc i).parent = some p then some (t.goto p (.reparentLock status q i))
    else some (t.goto p (.reparent status q (i + 1)))
  | .reparentLock status q i =>
    if !t.unlocked i then none
    else
      some ((t.setProc i fun pr => { pr with parent := some initproc }).goto p
        (.reparent status q (i + 1)))
  | .waitLock addr =>
    if !t.unlocked p then none
    else some ((t.acquire p p).goto p (.wait addr false 0))
  | .wait addr havekids i =>
    if NPROC ≤ i then some (t.waitEnd p addr havekids)
    else if (t.proc i).parent = some p then some (t.goto p (.waitLockChild addr i))
    else some (t.goto p (.wait addr havekids (i + 1)))
  | .waitLockChild addr i =>
    if !t.unlocked i then none
    else some (t.waitChild p addr i copied)

/-- The start of a system call; `exit` panics in the first process. -/
def call (t : Table) (p : Nat) : Call → Option Table
  | .fork => some (t.goto p (.allocproc 0))
  | .exit status =>
    if p = initproc then none
    else
      some { t.goto p (.exitWakeInit status) with
        exits := ((t.proc p).uid, status) :: t.exits }
  | .wait addr => some (t.goto p (.waitLock addr))
  | .kill pid => some (t.goto p (.kill pid 0))

end Table

/-- The thread holds no lock here, so that it can be interrupted. -/
def Pc.interruptible : Pc → Bool
  | .user | .allocproc _ | .kill _ _ | .exitWakeInit _ | .exitParent _ | .exitLockParent _ _
  | .waitLock _ => true
  | _ => false

/-- `scheduler` switches to `p`, which goes on in `forkret`, `yield` or
`sleep`. In the `sleep` of `wait` it keeps `p->lock` and scans again. -/
def Table.resume (t : Table) (p : Nat) : Table :=
  match (t.proc p).pc with
  | .waitSleep addr => t.setProc p fun pr =>
      { pr with state := .running, chan := none, lock := some p, pc := .wait addr false 0 }
  | _ => t.setProc p fun pr => { pr with state := .running, chan := none }

/-- One event. -/
def Table.next : Event → Table → Option Table
  | .call p c, t =>
    if p < NPROC ∧ (t.proc p).state = .running ∧ (t.proc p).pc = .user then t.call p c else none
  | .run p alloc copied, t =>
    if p < NPROC ∧ (t.proc p).state = .running then t.run p alloc copied else none
  | .schedRelease p, t =>
    if (t.proc p).state = .zombie ∧ (t.proc p).lock = some p then some (t.release p) else none
  | .yield p, t =>
    if (t.proc p).state = .running ∧ (t.proc p).pc.interruptible ∧ t.unlocked p then
      some (t.setProc p fun pr => { pr with state := .runnable })
    else none
  | .sleep p chan, t =>
    if (t.proc p).state = .running ∧ (t.proc p).pc.interruptible ∧ t.unlocked p then
      some (t.setProc p fun pr => { pr with chan := some chan, state := .sleeping })
    else none
  | .wakeup p chan, t =>
    if t.unlocked p then
      some (t.setProc p fun pr =>
        if pr.state = .sleeping ∧ pr.chan = some chan then { pr with state := .runnable } else pr)
    else none
  | .schedule p, t =>
    if t.unlocked p ∧ (t.proc p).state = .runnable then some (t.resume p) else none

/-- The table after `userinit`: the first process is runnable. -/
def Table.start : Table where
  proc := fun p =>
    if p = initproc then { state := .runnable, pid := 1, uid := 1 } else {}
  nextpid := 2
  handed := 1
  exits := []
  reaped := []

end Xv6.Sched
