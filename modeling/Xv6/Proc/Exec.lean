import Xv6.Proc.Model

/-!
# `exec`

`kernel/exec.c` on the bytes of the executable: the ELF header and the program
headers are read from the inode, the segments are loaded into a new page
table, and the arguments are pushed on its stack before the process is given
the new image. The path is given by the inode that `namei` finds, and the
arguments by the strings that `sys_exec` has fetched.
-/

namespace Xv6.Sys

open Xv6.Lib Xv6.Lib.CInt Xv6.Vm
open Act (get modify panic)

/-- The 64-bit word at offset `off`, least significant byte first. -/
def get64 (b : Bytes) (off : Nat) : Nat := get32 b off + 2 ^ 32 * get32 b (off + 4)

/-- `struct proghdr`, the fields that `exec` reads. -/
structure ProgHdr where
  type : Nat
  off : Nat
  vaddr : Nat
  filesz : Nat
  memsz : Nat

/-- `"\x7FELF"` in little endian. -/
abbrev ELF_MAGIC : Nat := 0x464C457F

abbrev ELF_PROG_LOAD : Nat := 1

/-- `sizeof(struct elfhdr)`. -/
abbrev elfhdrSize : Nat := 64

/-- `sizeof(struct proghdr)`. -/
abbrev proghdrSize : Nat := 56

/-- A program header at the start of a buffer. -/
def progHdr (b : Bytes) : ProgHdr where
  type := get32 b 0
  off := get64 b 8
  vaddr := get64 b 16
  filesz := get64 b 32
  memsz := get64 b 40

/-- Load `sz` bytes of an inode into pages of a page table that are already
there. -/
def loadseg (pagetable : PageTable) (va : Nat) (ip : DInode) (offset sz : Nat) :
    KmemM Int :=
  if va % PGSIZE ≠ 0 then panic .loadsegAligned
  else do
    let body := fun j (_ : Unit) => do
      let i := j * PGSIZE
      let pa := walkaddr pagetable (uint64 (va + i))
      if pa = 0 then panic .loadsegAddress
      else do
        let n := if sz - i < PGSIZE then sz - i else PGSIZE
        let k ← get
        let (page, r) := readi ip kernelOut (k.mem pa) 0 (uint32 (offset + i)) n
        modify fun k => { k with mem := Function.update k.mem pa page }
        if r ≠ n then pure (.inr ()) else pure (.inl ())
    match ← Act.loop body (pageRounds 0 sz) 0 () with
    | .inl () => pure 0
    | .inr () => pure (-1)

/-- Load the program header at offset `off` of the file into a new image of
size `sz`: `.inr` when `exec` gives up, with the size the image has then. -/
def loadProgHdr (ip : DInode) (off : Nat) (pagetable : PageTable) (sz : Nat) :
    KmemM ((PageTable × Nat) ⊕ (PageTable × Nat)) := do
  let (buf, r) := readi ip kernelOut (fun _ => 0) 0 off proghdrSize
  let ph := progHdr buf
  if r ≠ proghdrSize then pure (.inr (pagetable, sz))
  else if ph.type ≠ ELF_PROG_LOAD then pure (.inl (pagetable, sz))
  else if ph.memsz < ph.filesz then pure (.inr (pagetable, sz))
  else if uint64 (ph.vaddr + ph.memsz) < ph.vaddr then pure (.inr (pagetable, sz))
  else do
    let (pagetable, sz1) ← uvmalloc pagetable sz (ph.vaddr + ph.memsz)
    if sz1 = 0 then pure (.inr (pagetable, sz))
    else if ph.vaddr % PGSIZE ≠ 0 then pure (.inr (pagetable, sz1))
    else do
      let r ← loadseg pagetable ph.vaddr ip (uint32 ph.off) (uint32 ph.filesz)
      if r < 0 then pure (.inr (pagetable, sz1)) else pure (.inl (pagetable, sz1))

/-- Load the program of an executable whose header is `elf`. -/
def loadProgram (ip : DInode) (elf : Bytes) (pagetable : PageTable) :
    KmemM ((PageTable × Nat) ⊕ (PageTable × Nat)) :=
  Act.loop (fun i (image : PageTable × Nat) =>
    loadProgHdr ip (uint32 (get64 elf 32 + i * proghdrSize)) image.1 image.2)
    (get16 elf 56) 0 (pagetable, 0)

/-- Push argument strings on the stack of a new image, from `sp` down: the
memory, the stack pointer and the addresses of the strings, or `none` when
there are too many, the stack is full or the copy fails. -/
def pushArgs (pagetable : PageTable) (stackbase : Nat) : List (List UInt8) → Nat →
    (Nat → Bytes) → Nat → List Nat → (Nat → Bytes) × Option (Nat × List Nat)
  | [], _, mem, sp, ustack => (mem, some (sp, ustack))
  | arg :: argv, argc, mem, sp, ustack =>
    if MAXARG ≤ argc then (mem, none)
    else
      let sp := uint64 (sp - (arg.length + 1))
      let sp := sp - sp % 16
      if sp < stackbase then (mem, none)
      else
        match copyout pagetable mem sp (bytesOf arg) 0 (arg.length + 1) with
        | (mem, false) => (mem, none)
        | (mem, true) => pushArgs pagetable stackbase argv (argc + 1) mem sp (ustack ++ [sp])

/-- Allocate the two pages of the stack of a new image of size `sz`: the first
is inaccessible, the second is the stack. Gives the page table and the size of
the image, and whether there was memory for them. -/
def allocStack (pagetable : PageTable) (sz : Nat) : KmemM (PageTable × Nat × Bool) := do
  let sz := pgRoundUp sz
  let (pagetable, sz1) ← uvmalloc pagetable sz (uint64 (sz + 2 * PGSIZE))
  if sz1 = 0 then pure (pagetable, sz, false)
  else do
    let pagetable ← uvmclear pagetable (uint64 (sz1 - 2 * PGSIZE))
    pure (pagetable, sz1, true)

/-- Push the arguments and then the array of their addresses on the stack of a
new image of size `sz`: the memory, and the stack pointer if there was room. -/
def pushStack (pagetable : PageTable) (sz : Nat) (argv : List (List UInt8)) (mem : Nat → Bytes) :
    (Nat → Bytes) × Option Nat :=
  let stackbase := uint64 (sz - PGSIZE)
  match pushArgs pagetable stackbase argv 0 mem sz [] with
  | (mem, none) => (mem, none)
  | (mem, some (sp, ustack)) =>
    let words := ustack ++ [0]
    let sp := uint64 (sp - words.length * 8)
    let sp := sp - sp % 16
    if sp < stackbase then (mem, none)
    else
      match copyout pagetable mem sp (wordBytes 8 words) 0 (words.length * 8) with
      | (mem, false) => (mem, none)
      | (mem, true) => (mem, some sp)

/-- The new image of `exec` in an empty page table, with an empty stack: its page
table and size, or `none` after what was made of it is freed. `put` releases
the inode, which `exec` does between the two halves. -/
def execImage (ip : DInode) (elf : Bytes) (put : FilesM Unit) (pagetable : PageTable) :
    KernelM (Option (PageTable × Nat)) := do
  match ← onMem (loadProgram ip elf pagetable) with
  | .inr (pagetable, sz) => do
    onMem (procFreepagetable pagetable sz)
    onFiles put
    pure none
  | .inl (pagetable, sz) => do
    onFiles put
    let (pagetable, sz, ok) ← onMem (allocStack pagetable sz)
    if ok then pure (some (pagetable, sz))
    else do
      onMem (procFreepagetable pagetable sz)
      pure none

/-- Push the arguments on the stack of the new image and commit to it, or free
it. -/
def execCommit (p entry : Nat) (argv : List (List UInt8)) (pagetable : PageTable) (sz : Nat) :
    KernelM Int := do
  let k ← get
  match pushStack pagetable sz argv k.files.kmem.mem with
  | (mem, none) => do
    onMem (modify fun m => { m with mem := mem })
    onMem (procFreepagetable pagetable sz)
    pure (-1)
  | (mem, some sp) => do
    onMem (modify fun m => { m with mem := mem })
    setProc p fun pr => { pr with
      pagetable := pagetable, sz := sz, image := fun v => v * PGSIZE < sz,
      regs := { epc := entry, sp := sp, a1 := sp } }
    onMem (procFreepagetable (k.proc p).pagetable (k.proc p).sz)
    pure argv.length

/-- The part of `exec` that does not look at the arguments: the entry point, page
table and size of the new image, or `none` if there is no such image. -/
def execLoad (p : Nat) (found : Option Nat) : KernelM (Option (Nat × PageTable × Nat)) := do
  match found with
  | none => pure none
  | some inum => do
    let i ← onFiles (iget inum)
    onFiles (ilock (some i))
    let k ← get
    let ip := k.files.dinode inum
    let (elf, r) := readi ip kernelOut (fun _ => 0) 0 0 elfhdrSize
    if r ≠ elfhdrSize ∨ get32 elf 0 ≠ ELF_MAGIC then do
      onFiles (iput i)
      pure none
    else do
      match ← onMem (procPagetable (k.proc p).trapframe) with
      | none => do
        onFiles (iput i)
        pure none
      | some pagetable => do
        let image ← execImage ip elf (iput i) pagetable
        pure (image.map fun (pagetable, sz) => (get64 elf 24, pagetable, sz))

/-- Replace the image of process `p` by the executable with inode number
`found`. -/
def exec (p : Nat) (found : Option Nat) (argv : List (List UInt8)) : KernelM Int := do
  match ← execLoad p found with
  | none => pure (-1)
  | some (entry, pagetable, sz) => execCommit p entry argv pagetable sz

end Xv6.Sys
