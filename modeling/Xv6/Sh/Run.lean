import Mathlib.Logic.Function.Basic
import Mathlib.Data.List.Basic
import Xv6.Params
import Xv6.Sh.Parser

/-!
# Running a command line

`runcmd` of `user/sh.c` on a command tree, and the system calls it makes, as
far as they go on descriptors: `fdalloc`, `sys_dup`, `sys_close` and
`sys_pipe` of `kernel/sysfile.c`, `filedup` and `fileclose` of
`kernel/file.c`, and what `fork`, `exit` and `wait` of `kernel/proc.c` do with
the descriptor table and with children.

`runcmd` turns a node of the tree into the calls that a process makes for it.
All processes take turns in any order, one call at a time. Whether the kernel
has the memory, the process slot or the file for a call is an input; a call
also fails if its descriptor is not open or the table is full. The program
that `exec` starts may close descriptors, fork and exit at any time, and does
nothing else with them.

An open file is named by where it was opened. A node is named by the way to
it, and runs once, so no two files get one name; that is proved, not assumed.

Ghosts: the node a process is at, and the log of what the processes made and
started, each time with the descriptor table.
-/

namespace Xv6.Sh

/-! ## The calls of `runcmd` -/

/-- A step from a node of the tree to one below it. -/
inductive Dir where
  | left
  | right
  /-- The command of a `REDIR` or `BACK` node. -/
  | inner
  deriving DecidableEq, Repr

/-- A node of the tree: the way from the root, the last step first. -/
abbrev Node : Type := List Dir

/-- The descriptor that a call is given: a number, or an entry of the array
`p` of `runcmd`. -/
inductive Fd where
  | num (fd : Nat)
  | p0
  | p1
  deriving DecidableEq, Repr

/-- The descriptor, for the values in the array `p`. -/
def Fd.value (p : Nat × Nat) : Fd → Nat
  | .num fd => fd
  | .p0 => p.1
  | .p1 => p.2

/-- What a process does until it exits, or runs another program. When a call
fails, `exec` goes on, `open`, `pipe` and `fork` exit, and the results of
`close`, `dup` and `wait` are not looked at. -/
inductive Code where
  | runcmd (node : Node) (cmd : Cmd)
  | exec (argv : List (Nat × Nat)) (next : Code)
  | openFile (file : Nat) (mode : Int) (next : Code)
  | close (fd : Fd) (next : Code)
  | dup (fd : Fd) (next : Code)
  | pipe (next : Code)
  | fork (child next : Code)
  | wait (next : Code)
  | exit
  deriving DecidableEq, Repr

/-- A child of a `PIPE` node puts one end of the pipe in the place of `fd`. -/
def wire (fd : Nat) (own : Fd) (next : Code) : Code :=
  .close (.num fd) (.dup own (.close .p0 (.close .p1 next)))

/-- Execute a command. Never returns. -/
def runcmd (node : Node) : Cmd → Code
  | .exec [] => .exit
  | .exec (arg :: args) => .exec (arg :: args) .exit
  | .redir cmd file _ mode fd =>
    .close (.num fd) (.openFile file mode (.runcmd (.inner :: node) cmd))
  | .list left right =>
    .fork (.runcmd (.left :: node) left) (.wait (.runcmd (.right :: node) right))
  | .pipe left right =>
    .pipe
      (.fork (wire 1 .p1 (.runcmd (.left :: node) left))
        (.fork (wire 0 .p0 (.runcmd (.right :: node) right))
          (.close .p0 (.close .p1 (.wait (.wait .exit))))))
  | .back cmd => .fork (.runcmd (.inner :: node) cmd) .exit

/-! ## Files -/

/-- A `struct file`, by where it was opened. -/
inductive OpenFile where
  /-- One that the shell has. -/
  | shell (f : Nat)
  /-- The file of a `REDIR` node. -/
  | redir (node : Node)
  /-- One end of the pipe of a `PIPE` node. -/
  | pipe (node : Node) (writable : Bool)
  deriving DecidableEq, Repr

structure PipeEnds where
  readopen : Bool := false
  writeopen : Bool := false
  deriving DecidableEq, Repr

/-- The reference counts of the open files, and the pipes. -/
structure Files where
  ref : OpenFile → Nat
  pipe : Node → PipeEnds

namespace Files

variable (s : Files)

/-- Nothing if it would panic. -/
def filedup (f : OpenFile) : Option Files :=
  if s.ref f < 1 then none else some { s with ref := Function.update s.ref f (s.ref f + 1) }

def pipeclose (node : Node) (writable : Bool) : Files :=
  let ends :=
    if writable then { s.pipe node with writeopen := false }
    else { s.pipe node with readopen := false }
  { s with pipe := Function.update s.pipe node ends }

/-- Nothing if it would panic. -/
def fileclose (f : OpenFile) : Option Files :=
  if s.ref f < 1 then none
  else
    let s' := { s with ref := Function.update s.ref f (s.ref f - 1) }
    if 0 < s.ref f - 1 then some s'
    else
      match f with
      | .pipe node writable => some (s'.pipeclose node writable)
      | _ => some s'

/-- A file that was just allocated. -/
def filealloc (f : OpenFile) : Files := { s with ref := Function.update s.ref f 1 }

/-- The pipe of a node, with a file for each end. -/
def pipealloc (node : Node) : Files :=
  let s' := (s.filealloc (.pipe node false)).filealloc (.pipe node true)
  { s' with pipe := Function.update s.pipe node ⟨true, true⟩ }

end Files

/-- `p->ofile`. -/
abbrev Table : Type := Nat → Option OpenFile

/-- The lowest descriptor that is free. -/
def fdalloc (t : Table) : Option Nat := (List.range NOFILE).find? fun fd => (t fd).isNone

def argfd (t : Table) (fd : Nat) : Option OpenFile := if fd < NOFILE then t fd else none

/-- Go over all the descriptors of a process. -/
def overTable (op : Files → OpenFile → Option Files) (t : Table) (s : Files) : Option Files :=
  (List.range NOFILE).foldlM (fun s fd => (t fd).elim (some s) (op s)) s

/-! ## Processes -/

inductive State where
  | code (c : Code)
  /-- In a program that `exec` started. -/
  | program
  | zombie
  | unused
  deriving DecidableEq, Repr

/-- `parent` is nothing for the shell and for children of `init`. -/
structure Proc where
  state : State
  node : Node
  p : Nat × Nat
  ofile : Table
  parent : Option Nat

/-- What a process did at a node. -/
inductive Mark where
  | exec (node : Node)
  | redir (node : Node)
  | pipe (node : Node)
  deriving DecidableEq, Repr

structure World where
  procs : List Proc
  files : Files
  log : List (Mark × Table) := []

namespace World

variable (w : World) (i : Nat) (q : Proc)

def set : World := { w with procs := w.procs.set i q }

/-- A call that fails leaves everything as it is. -/
def failed : Option (World × Bool) := some (w.set i q, false)

/-! The calls give the new state and whether they succeeded. `q` is the
process after the call, apart from what the call changes. -/

def close (fd : Nat) : Option (World × Bool) :=
  match argfd q.ofile fd with
  | none => w.failed i q
  | some f =>
    (w.files.fileclose f).map fun files =>
      ({ w.set i { q with ofile := Function.update q.ofile fd none } with files := files }, true)

def dup (fd : Nat) : Option (World × Bool) :=
  match argfd q.ofile fd with
  | none => w.failed i q
  | some f =>
    match fdalloc q.ofile with
    | none => w.failed i q
    | some new =>
      (w.files.filedup f).map fun files =>
        ({ w.set i { q with ofile := Function.update q.ofile new (some f) } with files := files },
          true)

def openFile (ok : Bool) : Option (World × Bool) :=
  match ok, fdalloc q.ofile with
  | true, some fd =>
    let f := OpenFile.redir q.node
    some ({ w.set i { q with ofile := Function.update q.ofile fd (some f) } with
      files := w.files.filealloc f
      log := (.redir q.node, q.ofile) :: w.log }, true)
  | _, _ => w.failed i { q with state := .code .exit }

def pipe (ok : Bool) : Option (World × Bool) :=
  let rf := OpenFile.pipe q.node false
  let wf := OpenFile.pipe q.node true
  match ok, fdalloc q.ofile with
  | true, some fd0 =>
    let ofile := Function.update q.ofile fd0 (some rf)
    match fdalloc ofile with
    | some fd1 =>
      some ({ w.set i { q with
          p := (fd0, fd1)
          ofile := Function.update ofile fd1 (some wf) } with
        files := w.files.pipealloc q.node
        log := (.pipe q.node, q.ofile) :: w.log }, true)
    | none => w.failed i { q with state := .code .exit }
  | _, _ => w.failed i { q with state := .code .exit }

/-- The processes when `q` has a child that is in the state `child`. -/
def forked (child : State) : List Proc :=
  w.procs.set i q ++ [{ q with state := child, parent := some i }]

/-- The processes when `q` has exited: its children go to `init`. -/
def exited : List Proc :=
  (w.procs.set i { q with state := .zombie, ofile := fun _ => none }).map fun c =>
    if c.parent = some i then { c with parent := none } else c

/-- The child starts in the state `child`. -/
def fork (child : State) (ok : Bool) : Option (World × Bool) :=
  if ok then
    (overTable Files.filedup q.ofile w.files).map fun files =>
      ({ w with procs := w.forked i q child, files := files }, true)
  else w.failed i { q with state := .code .exit }

/-- The first child that has exited is freed; nothing if the process would
sleep. -/
def wait : Option (World × Bool) :=
  match w.procs.findIdx? fun c => c.parent = some i ∧ c.state = .zombie with
  | some j =>
    some ({ w with procs := (w.procs.set i q).modify j fun c =>
      { c with state := .unused, parent := none } }, true)
  | none => if w.procs.any fun c => c.parent = some i then none else w.failed i q

def exit : Option (World × Bool) :=
  (overTable Files.fileclose q.ofile w.files).map fun files =>
    ({ w with procs := w.exited i q, files := files }, true)

def exec (next : Code) (ok : Bool) : Option (World × Bool) :=
  if ok then
    some ({ w.set i { q with state := .program } with log := (.exec q.node, q.ofile) :: w.log },
      true)
  else w.failed i { q with state := .code next }

/-- A process goes on with its code. -/
def run (ok : Bool) : Code → Option (World × Bool)
  | .runcmd node cmd =>
    some (w.set i { q with node := node, state := .code (Sh.runcmd node cmd) }, true)
  | .exec _ next => w.exec i q next ok
  | .openFile _ _ next => w.openFile i { q with state := .code next } ok
  | .close fd next => w.close i { q with state := .code next } (fd.value q.p)
  | .dup fd next => w.dup i { q with state := .code next } (fd.value q.p)
  | .pipe next => w.pipe i { q with state := .code next } ok
  | .fork child next => w.fork i { q with state := .code next } (.code child) ok
  | .wait next => w.wait i { q with state := .code next }
  | .exit => w.exit i q

end World

inductive Event where
  /-- A process that is still in the shell goes on. `ok` says whether the
  kernel has what the call needs. -/
  | run (i : Nat) (ok : Bool)
  /-- A program calls `exit`, `close` or `fork`. -/
  | exit (i : Nat)
  | close (i fd : Nat)
  | fork (i : Nat)
  deriving DecidableEq, Repr

/-- What an event does, and whether its call succeeds. -/
def outcome (e : Event) (w : World) : Option (World × Bool) :=
  match e with
  | .run i ok =>
    w.procs[i]?.bind fun q =>
      match q.state with
      | .code c => w.run i q ok c
      | _ => none
  | .exit i => w.procs[i]?.bind fun q => if q.state = .program then w.exit i q else none
  | .close i fd => w.procs[i]?.bind fun q => if q.state = .program then w.close i q fd else none
  | .fork i =>
    w.procs[i]?.bind fun q => if q.state = .program then w.fork i q .program true else none

def next (e : Event) (w : World) : Option World := (outcome e w).map Prod.fst

/-- The call of the event succeeds. -/
def succeeds (e : Event) (w : World) : Bool := (outcome e w).all Prod.snd

/-- The shell has the descriptors 0, 1 and 2. -/
def shellTable (f : Nat → Nat) : Table := fun fd => if fd < 3 then some (.shell (f fd)) else none

/-- The number of descriptors of a table that are open on a file. -/
def Table.holds (t : Table) (f : OpenFile) : Nat :=
  (List.range NOFILE).countP fun fd => t fd = some f

/-- The references to the shell's files in other processes. -/
def abroad (elsewhere : Nat → Nat) : OpenFile → Nat
  | .shell g => elsewhere g
  | _ => 0

/-- The shell has read a line and is about to run it. -/
def start (cmd : Cmd) (f : Nat → Nat) (elsewhere : Nat → Nat) : World where
  procs := [{
    state := .code (.fork (.runcmd [] cmd) (.wait .exit))
    node := []
    p := (0, 0)
    ofile := shellTable f
    parent := none }]
  files := {
    ref := fun file => (shellTable f).holds file + abroad elsewhere file
    pipe := fun _ => {} }

end Xv6.Sh
