import Mathlib.Data.Option.Basic
import Xv6.Sched.Model

/-!
# Processors, stacks and context switches

The scheduler of `kernel/proc.c` once more, with the processors in view.
`Sched.Model` lets a process run without saying where; here each processor
executes on a stack, its scheduler's own or the kernel stack of a process,
and `swtch` exchanges what it executes for a saved context. There is any
number of processors.

One step of a processor goes from one operation on a `p->lock` to the next. A
`p->lock` remembers the processor that took it, as `lk->cpu` does, so it stays
locked when that processor switches to another stack. `acquire` on a lock
that is taken, `release` of one that this processor does not hold and a
`sched` that would panic are no steps.

A processor with interrupts on may be interrupted between any two steps, to
run `wakeup` for a device or, in a process, to `yield`; interrupts are off
while it holds a `p->lock` (`Pc.quiet` are the places where it holds none).
A process sleeps on other locks at `Pc.user`, which stands for user mode and
all kernel code outside the calls below; those locks are left out, so that
`sched` does not look at `noff`.
-/

namespace Xv6.Smp

open Xv6.Lib.CInt
open Xv6.Sched (PState Chan Alloc Call initproc)

/-- Where a stack is. `p` is the local variable that a function sets to
`myproc()`. -/
inductive Pc where
  | user
  /-- A new process, about to release the lock of slot `p`. -/
  | forkret (p : Nat)
  /-- `wakeup`, called at `ret`, is about to lock slot `i`. -/
  | wakeup (chan : Chan) (i : Nat) (ret : Pc)
  | wakeupLocked (chan : Chan) (i : Nat) (ret : Pc)
  /-- `yield`, called at `ret`, is about to lock `p`. -/
  | yield (p : Nat) (ret : Pc)
  | yieldLocked (p : Nat) (ret : Pc)
  /-- Back from `sched`. -/
  | yieldBack (p : Nat) (ret : Pc)
  | sleep (p : Nat) (chan : Chan)
  | sleepLocked (p : Nat) (chan : Chan)
  | sleepBack (p : Nat)
  | kill (pid : Int) (i : Nat)
  | killLocked (pid : Int) (i : Nat)
  /-- `fork`: `allocproc` is about to lock slot `i`. -/
  | allocproc (p i : Nat)
  | allocprocLocked (p i : Nat)
  /-- `exit` is about to lock `initproc`. -/
  | exitInit (p : Nat) (status : Int)
  | exitInitLocked (p : Nat) (status : Int)
  /-- `exit` is about to lock `p` and read its parent. -/
  | exitParent (p : Nat) (status : Int)
  | exitParentLocked (p : Nat) (status : Int)
  | exitLockParent (p : Nat) (status : Int) (original_parent : Nat)
  /-- `exit` has locked the parent and is about to lock `p`. -/
  | exitLock (p : Nat) (status : Int) (original_parent : Nat)
  /-- `reparent` is about to read the parent of slot `i`. -/
  | reparent (p : Nat) (status : Int) (original_parent i : Nat)
  | reparentLock (p : Nat) (status : Int) (original_parent i : Nat)
  | reparentLocked (p : Nat) (status : Int) (original_parent i : Nat)
  /-- A zombie, about to call `sched`. -/
  | exitSched (p : Nat)
  | waitLock (p addr : Nat)
  /-- `wait` is about to read the parent of slot `i`. -/
  | wait (p addr : Nat) (havekids : Bool) (i : Nat)
  | waitLockChild (p addr i : Nat)
  | waitLocked (p addr i : Nat)
  /-- `wait` has released the child and is about to release `p`. -/
  | waitDone (p : Nat)
  /-- Back from the `sched` of the `sleep` of `wait`. -/
  | waitBack (p addr : Nat)
  /-- `scheduler` is about to lock slot `i`. -/
  | scheduler (i : Nat)
  | schedulerLocked (i : Nat)
  /-- Back from the `swtch` into slot `i`. -/
  | schedulerBack (i : Nat)
  /-- After the `sched` of `exit`. -/
  | zombieExit
  deriving DecidableEq

/-- The places of the modelled code where no `p->lock` is held and
interrupts may be on. -/
def Pc.quiet : Pc → Bool
  | .user | .wakeup .. | .yield .. | .kill .. | .allocproc .. | .exitInit .. | .exitParent ..
  | .exitLockParent .. | .waitLock .. | .scheduler _ => true
  | _ => false

/-- `struct context`: a stack and where it is. The stack is the kernel stack
of a process, or the stack of a scheduler. -/
structure Context where
  stack : Option Nat
  pc : Pc
  deriving DecidableEq

/-- `struct cpu`, and what the processor executes. -/
structure Cpu where
  proc : Option Nat
  context : Context
  live : Context

/-- `struct proc`. -/
structure Proc where
  /-- The processor that holds `p->lock`. -/
  lock : Option Nat
  state : PState
  parent : Option Nat
  chan : Option Chan
  killed : Bool
  xstate : Int
  pid : Int
  context : Context

structure World where
  cpu : Nat → Cpu
  proc : Nat → Proc
  nextpid : Int

inductive Event where
  /-- A process makes a system call. -/
  | call (c : Nat) (call : Call)
  /-- A process calls `sleep` with a lock other than its own. -/
  | sleep (c : Nat) (chan : Chan)
  /-- A process is interrupted by the timer. -/
  | timer (c : Nat)
  /-- A device interrupts, or kernel code calls `wakeup`. -/
  | intr (c : Nat) (chan : Chan)
  /-- A processor goes on. -/
  | run (c : Nat) (alloc : Alloc) (copied : Bool)
  deriving DecidableEq

namespace World

def setCpu (w : World) (c : Nat) (f : Cpu → Cpu) : World :=
  { w with cpu := Function.update w.cpu c (f (w.cpu c)) }

def setProc (w : World) (p : Nat) (f : Proc → Proc) : World :=
  { w with proc := Function.update w.proc p (f (w.proc p)) }

/-- Processor `c` goes on at `pc` on the stack it is on. -/
def goto (w : World) (c : Nat) (pc : Pc) : World :=
  w.setCpu c fun cpu => { cpu with live := { cpu.live with pc := pc } }

/-- Take the lock of slot `i` and go on at `pc`. -/
def acquire (w : World) (c i : Nat) (pc : Pc) : Option World :=
  if (w.proc i).lock = none then
    some ((w.setProc i fun pr => { pr with lock := some c }).goto c pc)
  else none

/-- Release the lock of slot `i` and go on at `pc`. -/
def release (w : World) (c i : Nat) (pc : Pc) : Option World :=
  if (w.proc i).lock = some c then
    some ((w.setProc i fun pr => { pr with lock := none }).goto c pc)
  else none

/-- `sched`, which continues at `back` when the process is resumed. -/
def sched (w : World) (c : Nat) (back : Pc) : Option World :=
  match (w.cpu c).proc with
  | none => none
  | some p =>
    if (w.proc p).lock = some c ∧ (w.proc p).state ≠ .running then
      some ((w.setProc p fun pr =>
          { pr with context := { stack := (w.cpu c).live.stack, pc := back } }).setCpu c fun cpu =>
        { cpu with live := cpu.context })
    else none

/-- The body of the loop of `wakeup`. -/
def wakeupBody (w : World) (chan : Chan) (i : Nat) : World :=
  w.setProc i fun pr =>
    if pr.state = .sleeping ∧ pr.chan = some chan then { pr with state := .runnable } else pr

def wakeup1 (w : World) (i : Nat) : World :=
  w.setProc i fun pr =>
    if pr.chan = some (.proc i) ∧ pr.state = .sleeping then { pr with state := .runnable } else pr

/-- What `kill` does to the process it found. -/
def killBody (w : World) (i : Nat) : World :=
  w.setProc i fun pr =>
    { pr with
      killed := true
      state := if pr.state = .sleeping then .runnable else pr.state }

def freeproc (w : World) (i : Nat) : World :=
  w.setProc i fun pr =>
    { pr with
      pid := 0, parent := none, chan := none, killed := false, xstate := 0, state := .unused }

/-- `allocproc` from `found` on, and the rest of `fork` for the child. -/
def forkBody (w : World) (p i : Nat) (alloc : Alloc) : World :=
  let w1 := { w with nextpid := int32 (w.nextpid + 1) }.setProc i fun pr =>
    { pr with pid := w.nextpid }
  match alloc with
  | .noTrapframe => w1
  | .noPagetable => w1.freeproc i
  | .noMemory =>
    (w1.setProc i fun pr => { pr with context := { stack := some i, pc := .forkret i } }).freeproc i
  | .ok => w1.setProc i fun pr =>
      { pr with
        context := { stack := some i, pc := .forkret i }
        parent := some p
        state := .runnable }

/-- `sleep` from `p->chan = chan` to `sched`. -/
def sleepBody (w : World) (c p : Nat) (chan : Chan) (back : Pc) : Option World :=
  (w.setProc p fun pr => { pr with chan := some chan, state := .sleeping }).sched c back

/-- `exit` from `wakeup1(original_parent)` to the release of the parent. -/
def exitBody (w : World) (p : Nat) (status : Int) (original_parent : Nat) : World :=
  (w.wakeup1 original_parent).setProc p fun pr => { pr with xstate := status, state := .zombie }

/-- `scheduler` switches to the process in slot `i`. -/
def swtchTo (w : World) (c i : Nat) : World :=
  (w.setProc i fun pr => { pr with state := .running }).setCpu c fun cpu =>
    { proc := some i
      context := { stack := cpu.live.stack, pc := .schedulerBack i }
      live := (w.proc i).context }

/-- The next step of processor `c`. -/
def run (w : World) (c : Nat) (alloc : Alloc) (copied : Bool) : Option World :=
  match (w.cpu c).live.pc with
  | .user | .zombieExit => none
  | .forkret _ =>
    match (w.cpu c).proc with
    | some p => w.release c p .user
    | none => none
  | .wakeup chan i ret =>
    if i < NPROC then w.acquire c i (.wakeupLocked chan i ret) else some (w.goto c ret)
  | .wakeupLocked chan i ret => (w.wakeupBody chan i).release c i (.wakeup chan (i + 1) ret)
  | .yield p ret => w.acquire c p (.yieldLocked p ret)
  | .yieldLocked p ret =>
    (w.setProc p fun pr => { pr with state := .runnable }).sched c (.yieldBack p ret)
  | .yieldBack p ret => w.release c p ret
  | .sleep p chan => w.acquire c p (.sleepLocked p chan)
  | .sleepLocked p chan => w.sleepBody c p chan (.sleepBack p)
  | .sleepBack p => (w.setProc p fun pr => { pr with chan := none }).release c p .user
  | .kill pid i =>
    if i < NPROC then w.acquire c i (.killLocked pid i) else some (w.goto c .user)
  | .killLocked pid i =>
    if (w.proc i).pid = pid then (w.killBody i).release c i .user
    else w.release c i (.kill pid (i + 1))
  | .allocproc p i =>
    if i < NPROC then w.acquire c i (.allocprocLocked p i) else some (w.goto c .user)
  | .allocprocLocked p i =>
    if (w.proc i).state = .unused then (w.forkBody p i alloc).release c i .user
    else w.release c i (.allocproc p (i + 1))
  | .exitInit p status => w.acquire c initproc (.exitInitLocked p status)
  | .exitInitLocked p status => (w.wakeup1 initproc).release c initproc (.exitParent p status)
  | .exitParent p status => w.acquire c p (.exitParentLocked p status)
  | .exitParentLocked p status =>
    match (w.proc p).parent with
    | some original_parent => w.release c p (.exitLockParent p status original_parent)
    | none => none
  | .exitLockParent p status original_parent =>
    w.acquire c original_parent (.exitLock p status original_parent)
  | .exitLock p status original_parent => w.acquire c p (.reparent p status original_parent 0)
  | .reparent p status original_parent i =>
    if i < NPROC then
      if (w.proc i).parent = some p then some (w.goto c (.reparentLock p status original_parent i))
      else some (w.goto c (.reparent p status original_parent (i + 1)))
    else (w.exitBody p status original_parent).release c original_parent (.exitSched p)
  | .reparentLock p status original_parent i =>
    w.acquire c i (.reparentLocked p status original_parent i)
  | .reparentLocked p status original_parent i =>
    (w.setProc i fun pr => { pr with parent := some initproc }).release c i
      (.reparent p status original_parent (i + 1))
  | .exitSched _ => w.sched c .zombieExit
  | .waitLock p addr => w.acquire c p (.wait p addr false 0)
  | .wait p addr havekids i =>
    if i < NPROC then
      if (w.proc i).parent = some p then some (w.goto c (.waitLockChild p addr i))
      else some (w.goto c (.wait p addr havekids (i + 1)))
    else if !havekids || (w.proc p).killed then w.release c p .user
    else w.sleepBody c p (.proc p) (.waitBack p addr)
  | .waitLockChild p addr i => w.acquire c i (.waitLocked p addr i)
  | .waitLocked p addr i =>
    if (w.proc i).state = .zombie then
      if addr ≠ 0 ∧ ¬copied then w.release c i (.waitDone p)
      else (w.freeproc i).release c i (.waitDone p)
    else w.release c i (.wait p addr true (i + 1))
  | .waitDone p => w.release c p .user
  | .waitBack p addr =>
    some ((w.setProc p fun pr => { pr with chan := none }).goto c (.wait p addr false 0))
  | .scheduler i =>
    if i < NPROC then w.acquire c i (.schedulerLocked i) else some (w.goto c (.scheduler 0))
  | .schedulerLocked i =>
    if (w.proc i).state = .runnable then some (w.swtchTo c i)
    else w.release c i (.scheduler (i + 1))
  | .schedulerBack i =>
    (w.setCpu c fun cpu => { cpu with proc := none }).release c i (.scheduler (i + 1))

/-- The first place of a system call of process `p`. -/
def entry (p : Nat) : Call → Option Pc
  | .fork => some (.allocproc p 0)
  -- `exit` of the first process panics.
  | .exit status => if p = initproc then none else some (.exitInit p status)
  | .wait addr => some (.waitLock p addr)
  | .kill pid => some (.kill pid 0)

def next : Event → World → Option World
  | .call c call, w =>
    match (w.cpu c).proc with
    | some p => if (w.cpu c).live.pc = .user then (entry p call).map (w.goto c) else none
    | none => none
  | .sleep c chan, w =>
    match (w.cpu c).proc with
    | some p => if (w.cpu c).live.pc = .user then some (w.goto c (.sleep p chan)) else none
    | none => none
  | .timer c, w =>
    match (w.cpu c).proc with
    | some p =>
      if (w.cpu c).live.pc.quiet then some (w.goto c (.yield p (w.cpu c).live.pc)) else none
    | none => none
  | .intr c chan, w =>
    if (w.cpu c).live.pc.quiet then some (w.goto c (.wakeup chan 0 (w.cpu c).live.pc)) else none
  | .run c alloc copied, w => w.run c alloc copied

/-- The processors in their schedulers and the first process runnable, after `userinit`. -/
def start : World where
  cpu := fun _ =>
    { proc := none
      context := { stack := none, pc := .scheduler 0 }
      live := { stack := none, pc := .scheduler 0 } }
  proc := fun p =>
    { lock := none
      state := if p = initproc then .runnable else .unused
      parent := none
      chan := none
      killed := false
      xstate := 0
      pid := if p = initproc then 1 else 0
      context := { stack := some p, pc := .forkret p } }
  nextpid := 2

end World

end Xv6.Smp
