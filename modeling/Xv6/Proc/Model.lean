import Xv6.File.Model

/-!
# Processes

The process table of `kernel/proc.c` and the functions that make, grow, copy
and tear down a process, as actions on the state `Kernel`.

A call runs to its end before another one starts, with one exception: `exit`
is cut at each slot of the table of mappings, where it may sleep while it
writes a mapping back. A process that is past the closing of its files is
`exiting i`, with slot `i` next.

Two fields are not in the source. `Vma.base` is the address that `sys_mmap`
returned for the mapping, which no call changes, and `Proc.image` marks the
pages that `exec` and `growproc` handed out. No modelled function reads
them.
-/

namespace Xv6.Sys

open Xv6.Lib Xv6.Lib.CInt Xv6.Vm
open Act (get modify panic)

/-! ## State -/

/-- `struct mmapitem`, with the address the mapping was made at. -/
structure Vma where
  used : Bool := false
  addr : Nat := 0
  length : Int := 0
  prot : Int := 0
  flags : Int := 0
  vfd : Int := 0
  vfile : Nat := 0
  offset : Int := 0
  base : Nat := 0

/-- What a process does. Sleeping and running processes are `runnable`. -/
inductive ProcState where
  | unused
  | runnable
  | exiting (i : Nat)
  | zombie
  deriving DecidableEq, Repr

/-- The registers in the trap frame that `exec` sets. -/
structure Regs where
  epc : Nat := 0
  sp : Nat := 0
  a1 : Nat := 0

/-- `struct proc`. -/
structure Proc where
  state : ProcState := .unused
  parent : Option Nat := none
  killed : Bool := false
  xstate : Int := 0
  pid : Nat := 0
  sz : Nat := 0
  pagetable : PageTable := PageTable.null
  trapframe : Nat := 0
  ofile : Nat → Option Nat := fun _ => none
  cwd : Option Nat := none
  vma : Nat → Vma := fun _ => {}
  image : Nat → Bool := fun _ => false
  regs : Regs := {}

/-- The process table over the open files. Process 0 is `initproc`. -/
structure Kernel where
  files : Files
  proc : Nat → Proc
  nextpid : Nat

/-- An action of the kernel. -/
abbrev KernelM := Act Panic Kernel

/-- An action on the open files. -/
def onFiles {α : Type} (m : FilesM α) : KernelM α :=
  Act.within Kernel.files (fun k s => { k with files := s }) m

/-- An action on physical memory. -/
def onMem {α : Type} (m : KmemM α) : KernelM α := onFiles (onKmem m)

/-- Change a process. -/
def setProc (p : Nat) (f : Proc → Proc) : KernelM Unit :=
  modify fun k => { k with proc := Function.update k.proc p (f (k.proc p)) }

/-- An action that gives a new page table for process `p`. -/
def onPagetable {α : Type} (p : Nat) (m : PageTable → KmemM (PageTable × α)) : KernelM α := do
  let k ← get
  let (pagetable, a) ← onMem (m (k.proc p).pagetable)
  setProc p fun pr => { pr with pagetable := pagetable }
  pure a

/-! ## Page tables of processes -/

/-- A page table with no user memory, but with the trampoline and trap frame
pages. -/
def procPagetable (trapframe : Nat) : KmemM (Option PageTable) := do
  match ← uvmcreate with
  | none => pure none
  | some pagetable => do
    let k ← get
    let (pagetable, r) ← mappages pagetable TRAMPOLINE PGSIZE k.trampoline (PTE_R ||| PTE_X)
    if r < 0 then do
      uvmfree pagetable 0
      pure none
    else do
      let (pagetable, r) ← mappages pagetable TRAPFRAME PGSIZE trapframe (PTE_R ||| PTE_W)
      if r < 0 then do
        let pagetable ← uvmunmap pagetable TRAMPOLINE 1 false
        uvmfree pagetable 0
        pure none
      else pure (some pagetable)

/-- Free a process's page table and the physical memory it refers to. -/
def procFreepagetable (pagetable : PageTable) (sz : Nat) : KmemM Unit := do
  let pagetable ← uvmunmap pagetable TRAMPOLINE 1 false
  let pagetable ← uvmunmap pagetable TRAPFRAME 1 false
  uvmfree pagetable sz

/-! ## Making and freeing processes -/

/-- Free a process and the data hanging from it, including user pages. -/
def freeproc (p : Nat) : KernelM Unit := do
  let k ← get
  let pr := k.proc p
  Act.when (pr.trapframe ≠ 0) (onMem (kfree pr.trapframe))
  Act.when (pr.pagetable.addr ≠ 0) (onMem (procFreepagetable pr.pagetable pr.sz))
  setProc p fun pr => { pr with
    trapframe := 0, pagetable := PageTable.null, sz := 0, pid := 0, parent := none,
    killed := false, xstate := 0, state := .unused }

/-- Take an unused process and give it a trap frame and an empty page
table. -/
def allocproc : KernelM (Option Nat) := do
  let k ← get
  match (List.range NPROC).find? fun p => (k.proc p).state = .unused with
  | none => pure none
  | some p => do
    modify fun k => { k with nextpid := k.nextpid + 1 }
    setProc p fun pr => { pr with pid := k.nextpid }
    match ← onMem kalloc with
    | none => do
      setProc p fun pr => { pr with trapframe := 0 }
      pure none
    | some trapframe => do
      setProc p fun pr => { pr with trapframe := trapframe }
      match ← onMem (procPagetable trapframe) with
      | none => do
        setProc p fun pr => { pr with pagetable := PageTable.null }
        freeproc p
        pure none
      | some pagetable => do
        setProc p fun pr => { pr with pagetable := pagetable, vma := fun _ => {} }
        pure (some p)

/-- Set up the first user process: one page for its code, in the directory
with inode number `root`. -/
def userinit (root : Nat) : KernelM Unit := do
  match ← allocproc with
  | none => pure ()
  | some p => do
    let mem := (← onMem kalloc).getD 0
    onMem (memset mem 0)
    let _ ← onPagetable p fun pagetable =>
      mappages pagetable 0 PGSIZE mem (PTE_W ||| PTE_R ||| PTE_X ||| PTE_U)
    let cwd ← onFiles (iget root)
    setProc p fun pr => { pr with
      sz := PGSIZE, cwd := some cwd, state := .runnable, image := fun v => v = 0,
      regs := { pr.regs with epc := 0, sp := PGSIZE } }

/-- Grow or shrink user memory by `n` bytes. -/
def growproc (p : Nat) (n : Int) : KernelM Int := do
  let k ← get
  let sz := uint32 (k.proc p).sz
  let newsz := uint32 (sz + n)
  if 0 < n then do
    let sz' ← onPagetable p fun pagetable => uvmalloc pagetable sz newsz
    if uint32 sz' = 0 then pure (-1)
    else do
      setProc p fun pr => { pr with
        sz := uint32 sz',
        image := fun v => pr.image v || (pgRoundUp sz ≤ v * PGSIZE && v * PGSIZE < newsz) }
      pure 0
  else if n < 0 then do
    let sz' ← onPagetable p fun pagetable => uvmdealloc pagetable sz newsz
    setProc p fun pr => { pr with
      sz := uint32 sz',
      image := fun v => pr.image v && (sz ≤ newsz || v * PGSIZE < pgRoundUp newsz) }
    pure 0
  else do
    setProc p fun pr => { pr with sz := sz }
    pure 0

/-- Copy the parent's open files to the child, one reference each. -/
def forkFiles (p np : Nat) : KernelM Unit :=
  Act.iter (fun fd _ => do
    let k ← get
    match (k.proc p).ofile fd with
    | none => pure ()
    | some f => do
      onFiles (filedup f)
      setProc np fun pr => { pr with ofile := Function.update pr.ofile fd (some f) }) NOFILE 0 ()

/-- Copy the parent's used mappings to the child, one reference each. -/
def forkVmas (p np : Nat) : KernelM Unit :=
  Act.iter (fun i _ => do
    let k ← get
    let v := (k.proc p).vma i
    if v.used then do
      setProc np fun pr => { pr with vma := Function.update pr.vma i v }
      onFiles (filedup v.vfile)
    else pure ()) MAXMMAPITEM 0 ()

/-- Copy the parent's current directory to the child. -/
def forkCwd (p np : Nat) : KernelM Unit := do
  let k ← get
  match (k.proc p).cwd with
  | none => pure ()
  | some cwd => do
    onFiles (idup cwd)
    setProc np fun pr => { pr with cwd := some cwd }

/-- Create a new process, copying the parent. -/
def fork (p : Nat) : KernelM Int := do
  match ← allocproc with
  | none => pure (-1)
  | some np => do
    let k ← get
    let r ← onPagetable np fun pagetable => uvmcopy (k.proc p).pagetable pagetable (k.proc p).sz
    if r < 0 then do
      freeproc np
      pure (-1)
    else do
      setProc np fun pr => { pr with
        sz := (k.proc p).sz, parent := some p, image := (k.proc p).image, regs := (k.proc p).regs }
      forkFiles p np
      forkCwd p np
      forkVmas p np
      setProc np fun pr => { pr with state := .runnable }
      let k ← get
      pure (k.proc np).pid

/-! ## The end of a process -/

/-- `exit` up to its loop over the mappings: close all open files. -/
def exit (p : Nat) (status : Int) : KernelM Unit := do
  if p = 0 then panic .initExiting
  else do
    Act.iter (fun fd _ => do
      let k ← get
      match (k.proc p).ofile fd with
      | none => pure ()
      | some f => do
        onFiles (fileclose f)
        setProc p fun pr => { pr with ofile := Function.update pr.ofile fd none }) NOFILE 0 ()
    setProc p fun pr => { pr with xstate := status, state := .exiting 0 }

/-- The bit `b`, a power of two, of an `int`. -/
def hasBit (x b : Int) : Bool := x / b % 2 = 1

/-- Write a range of user memory back to the file of a mapping, if the
mapping is shared and writable. -/
def writeBack (pagetable : PageTable) (v : Vma) (addr : Nat) (length : Int) : KernelM Unit :=
  Act.when (v.flags = MAP_SHARED ∧ hasBit v.prot PROT_WRITE) do
    let _ ← onFiles (filewrite pagetable v.vfile addr length)

/-- Remove the `length / PGSIZE` pages of process `p` from `addr` on. -/
def unmapPages (p addr : Nat) (length : Int) : KernelM Unit :=
  onPagetable p fun pagetable => do
    let pagetable ← uvmunmap pagetable addr (uint64 (length.tdiv PGSIZE)) true
    pure (pagetable, ())

/-- One round of the loop of `exit` over the mappings. -/
def exitVma (p i : Nat) : KernelM Unit := do
  let k ← get
  let v := (k.proc p).vma i
  Act.when v.used do
    writeBack (k.proc p).pagetable v v.addr v.length
    onFiles (fileclose v.vfile)
    unmapPages p v.addr v.length
    setProc p fun pr => { pr with vma := Function.update pr.vma i { pr.vma i with used := false } }
  setProc p fun pr => { pr with state := .exiting (i + 1) }

/-- Pass abandoned children to `init`. -/
def reparent (p : Nat) : KernelM Unit :=
  modify fun k => { k with proc := fun q =>
    if (k.proc q).parent = some p then { k.proc q with parent := some 0 } else k.proc q }

/-- The rest of `exit`: give up the current directory, pass the children to
`init`, and become a zombie. -/
def exitEnd (p : Nat) : KernelM Unit := do
  let k ← get
  Act.when (k.proc p).cwd.isSome (onFiles (iput ((k.proc p).cwd.getD 0)))
  setProc p fun pr => { pr with cwd := none }
  reparent p
  setProc p fun pr => { pr with state := .zombie }

/-- The little-endian bytes of a list of words of `width` bytes each. -/
def wordBytes (width : Nat) (ws : List Nat) : Bytes := fun i =>
  UInt8.ofNat (ws.getD (i / width) 0 / 256 ^ (i % width))

/-- Free an exited child and return its pid. `none` when there are children
but none of them has exited: the call sleeps. -/
def wait (p addr : Nat) : KernelM (Option Int) := do
  let k ← get
  match (List.range NPROC).find? fun np =>
      (k.proc np).parent = some p && (k.proc np).state = .zombie with
  | some np =>
    let pid := (k.proc np).pid
    let reap : KernelM (Option Int) := do
      freeproc np
      pure (some pid)
    if addr ≠ 0 then
      match copyout (k.proc p).pagetable k.files.kmem.mem addr
          (wordBytes 4 [uint32 (k.proc np).xstate]) 0 4 with
      | (mem, ok) => do
        onMem (modify fun m => { m with mem := mem })
        if ok then reap else pure (some (-1))
    else reap
  | none =>
    if (List.range NPROC).any fun np => (k.proc np).parent = some p then pure none
    else pure (some (-1))

end Xv6.Sys
