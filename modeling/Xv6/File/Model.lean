import Xv6.Vm.Model

/-!
# Open files

The file table of `kernel/file.c`, the inode cache of `kernel/fs.c` and the
part of `kernel/pipe.c` that allocates and closes pipes, as actions on the
state `Files`.

A file's content is a byte array: `readi` and `writei` go through it block by
block as the C code goes through the buffer cache, and a `copyin` that fails
in the middle of a block leaves in it the bytes that were copied. The disk
has room for every block that is written.

Left out, because no modelled function depends on them: the locks, which a
call takes and gives back; the link count, since no modelled call removes a
name, so that `iput` never frees an inode; the bytes in a pipe and on the
console, so that what a read of these delivers is an input of the call.
-/

namespace Xv6.Sys

open Xv6.Lib Xv6.Lib.CInt Xv6.Vm
open Act (get modify panic)

/-! ## State -/

/-- What a `struct file` is open on. -/
inductive FdType where
  | none
  | pipe
  | inode
  | device
  deriving DecidableEq, Repr

/-- `struct file`. `ip` is a slot of the inode cache, and like `pipe` it
keeps its last value when the file is closed. -/
structure File where
  type : FdType := .none
  ref : Int := 0
  readable : Bool := false
  writable : Bool := false
  pipe : Nat := 0
  ip : Option Nat := none
  off : Nat := 0
  major : Int := 0

/-- The two ends of a pipe. -/
structure Pipe where
  readopen : Bool
  writeopen : Bool

/-- The type of an inode on disk. -/
inductive InodeType where
  | free
  | dir
  | file
  | device
  deriving DecidableEq, Repr

/-- A slot of the inode cache. The fields it caches are those of the inode
on disk, which every change goes through to. -/
structure Inode where
  inum : Nat := 0
  ref : Int := 0
  valid : Bool := false

/-- An inode and its content. -/
structure DInode where
  type : InodeType
  major : Int
  size : Nat
  data : Bytes

/-- The file table, the pipes by the address of their page, the inode cache
and the inodes, over physical memory. -/
structure Files where
  kmem : Kmem
  file : Nat → File
  pipe : Nat → Pipe
  inode : Nat → Inode
  dinode : Nat → DInode

/-- An action on the open files. -/
abbrev FilesM := Act Panic Files

/-- An action on physical memory. -/
def onKmem {α : Type} (m : KmemM α) : FilesM α :=
  Act.within Files.kmem (fun s k => { s with kmem := k }) m

/-- Change one entry of the file table. -/
def setFile (f : Nat) (file : File) : FilesM Unit :=
  modify fun s => { s with file := Function.update s.file f file }

/-! ## `kernel/fs.c`: the inode cache -/

/-- Find the inode in the cache or take the first free slot for it. -/
def iget (inum : Nat) : FilesM Nat := do
  let s ← get
  match (List.range NINODE).find? fun i => 0 < (s.inode i).ref && (s.inode i).inum == inum with
  | some i => do
    modify fun s => { s with
      inode := Function.update s.inode i { s.inode i with ref := (s.inode i).ref + 1 } }
    pure i
  | none =>
    match (List.range NINODE).find? fun i => (s.inode i).ref == 0 with
    | none => panic .igetNoInodes
    | some i => do
      modify fun s => { s with
        inode := Function.update s.inode i { inum := inum, ref := 1, valid := false } }
      pure i

/-- Increment the reference count of an inode. -/
def idup (i : Nat) : FilesM Unit :=
  modify fun s => { s with
    inode := Function.update s.inode i { s.inode i with ref := (s.inode i).ref + 1 } }

/-- Lock an inode, reading it from disk if necessary. -/
def ilock (ip : Option Nat) : FilesM Unit :=
  match ip with
  | none => panic .ilock
  | some i => do
    let s ← get
    if (s.inode i).ref < 1 then panic .ilock
    else if (s.inode i).valid then pure ()
    else if (s.dinode (s.inode i).inum).type = .free then panic .ilockNoType
    else modify fun s => { s with
      inode := Function.update s.inode i { s.inode i with valid := true } }

/-- Drop a reference to an inode. -/
def iput (i : Nat) : FilesM Unit :=
  modify fun s => { s with
    inode := Function.update s.inode i { s.inode i with ref := (s.inode i).ref - 1 } }

/-! ## `kernel/fs.c`: content -/

/-- The rounds of `readi`, at most `fuel` of them. `out` is
`either_copyout`. -/
def readiBlocks {σ : Type} (data : Bytes) (out : Nat → Bytes → Nat → Nat → σ → σ × Bool) :
    Nat → σ → Nat → Nat → Nat → Nat → σ × Int
  | 0, s, _, _, tot, _ => (s, tot)
  | fuel + 1, s, dst, off, tot, n =>
    if n ≤ tot then (s, tot)
    else
      let m := min (n - tot) (BSIZE - off % BSIZE)
      match out dst data off m s with
      | (s, false) => (s, -1)
      | (s, true) => readiBlocks data out fuel s (uint64 (dst + m)) (off + m) (tot + m) n

/-- Read `n` bytes of an inode from `off` on. -/
def readi {σ : Type} (ip : DInode) (out : Nat → Bytes → Nat → Nat → σ → σ × Bool) (s : σ)
    (dst off n : Nat) : σ × Int :=
  if ip.size < off ∨ uint32 (off + n) < off then (s, 0)
  else
    let n := if ip.size < off + n then ip.size - off else n
    readiBlocks ip.data out (n / BSIZE + 2) s dst off 0 n

/-- `either_copyout` to a buffer of the kernel. -/
def kernelOut (dst : Nat) (src : Bytes) (s m : Nat) (buf : Bytes) : Bytes × Bool :=
  (splice buf dst src s m, true)

/-- `either_copyout` to user memory. -/
def userOut (pagetable : PageTable) (dst : Nat) (src : Bytes) (s m : Nat) (mem : Nat → Bytes) :
    (Nat → Bytes) × Bool :=
  copyout pagetable mem dst src s m

/-- The rounds of `writei`, at most `fuel` of them: the content, the offset
and the number of bytes reached. -/
def writeiBlocks (pagetable : PageTable) (mem : Nat → Bytes) : Nat → Bytes → Nat → Nat → Nat →
    Nat → Bytes × Nat × Nat
  | 0, data, _, off, tot, _ => (data, off, tot)
  | fuel + 1, data, src, off, tot, n =>
    if n ≤ tot then (data, off, tot)
    else
      let m := min (n - tot) (BSIZE - off % BSIZE)
      match copyin pagetable mem data off src m with
      | (data, false) => (data, off, tot)
      | (data, true) =>
        writeiBlocks pagetable mem fuel data (uint64 (src + m)) (off + m) (tot + m) n

/-- Write `n` bytes from the user address `src` to an inode at `off`. -/
def writei (pagetable : PageTable) (mem : Nat → Bytes) (ip : DInode) (src off n : Nat) :
    DInode × Int :=
  if ip.size < off ∨ uint32 (off + n) < off then (ip, -1)
  else if MAXFILE * BSIZE < off + n then (ip, -1)
  else
    let (data, off, tot) := writeiBlocks pagetable mem (n / BSIZE + 2) ip.data src off 0 n
    ({ ip with data := data, size := if ip.size < off then off else ip.size }, tot)

/-- Discard the content of an inode. -/
def itrunc (ip : DInode) : DInode := { ip with size := 0, data := fun _ => 0 }

/-! ## `kernel/pipe.c` and `kernel/file.c` -/

/-- Close one end of a pipe, and free it when both ends are closed. -/
def pipeclose (pi : Nat) (writable : Bool) : FilesM Unit := do
  let s ← get
  let p := if writable then { s.pipe pi with writeopen := false }
    else { s.pipe pi with readopen := false }
  modify fun s => { s with pipe := Function.update s.pipe pi p }
  Act.when (!p.readopen && !p.writeopen) (onKmem (kfree pi))

/-- Allocate a file structure. -/
def filealloc : FilesM (Option Nat) := do
  let s ← get
  match (List.range NFILE).find? fun f => (s.file f).ref == 0 with
  | none => pure none
  | some f => do
    setFile f { s.file f with ref := 1 }
    pure (some f)

/-- Increment the reference count of a file. -/
def filedup (f : Nat) : FilesM Unit := do
  let s ← get
  if (s.file f).ref < 1 then panic .filedup
  else setFile f { s.file f with ref := (s.file f).ref + 1 }

/-- Give up what a closed file was open on. -/
def fileRelease (ff : File) : FilesM Unit :=
  match ff.type, ff.ip with
  | .pipe, _ => pipeclose ff.pipe ff.writable
  | .inode, some i => iput i
  | .device, some i => iput i
  | _, _ => pure ()

/-- Decrement the reference count of a file, and close it when it reaches
0. -/
def fileclose (f : Nat) : FilesM Unit := do
  let s ← get
  let ff := s.file f
  if ff.ref < 1 then panic .fileclose
  else if 0 < ff.ref - 1 then setFile f { ff with ref := ff.ref - 1 }
  else do
    setFile f { ff with ref := 0, type := .none }
    fileRelease ff

/-- Allocate a pipe with two files for its ends. -/
def pipealloc : FilesM (Option (Nat × Nat)) := do
  match ← filealloc with
  | none => pure none
  | some f0 => do
    match ← filealloc with
    | none => do
      fileclose f0
      pure none
    | some f1 => do
      match ← onKmem kalloc with
      | none => do
        fileclose f0
        fileclose f1
        pure none
      | some pi => do
        modify fun s => { s with pipe := Function.update s.pipe pi ⟨true, true⟩ }
        let s ← get
        setFile f0 { s.file f0 with type := .pipe, readable := true, writable := false, pipe := pi }
        let s ← get
        setFile f1 { s.file f1 with type := .pipe, readable := false, writable := true, pipe := pi }
        pure (some (f0, f1))

/-- The major number of the console, the one device with a driver. -/
abbrev CONSOLE : Int := 1

/-- The bytes of a list. -/
def bytesOf (bs : List UInt8) : Bytes := fun i => bs.getD i 0

/-- Deliver bytes to the user one by one, as `piperead` and `consoleread` do:
the memory and how many arrived. -/
def deliver (pagetable : PageTable) : List UInt8 → (Nat → Bytes) → Nat → Nat → (Nat → Bytes) × Nat
  | [], mem, _, got => (mem, got)
  | b :: bs, mem, addr, got =>
    match copyout pagetable mem (uint64 (addr + got)) (bytesOf [b]) 0 1 with
    | (mem, false) => (mem, got)
    | (mem, true) => deliver pagetable bs mem addr (got + 1)

/-- Read from a file to the user address `addr`. `input` is what a pipe or
the console delivers. -/
def fileread (pagetable : PageTable) (f addr : Nat) (n : Int) (input : List UInt8) :
    FilesM Int := do
  let s ← get
  let file := s.file f
  if !file.readable then pure (-1)
  else
    let fromInput : FilesM Int := do
      let (mem, got) := deliver pagetable (input.take n.toNat) s.kmem.mem addr 0
      onKmem (modify fun k => { k with mem := mem })
      pure got
    match file.type with
    | .pipe => fromInput
    | .device => if file.major ≠ CONSOLE then pure (-1) else fromInput
    | .inode => do
      ilock file.ip
      let ip := s.dinode (s.inode (file.ip.getD 0)).inum
      let (mem, r) := readi ip (userOut pagetable) s.kmem.mem addr file.off (uint32 n)
      onKmem (modify fun k => { k with mem := mem })
      Act.when (0 < r) (setFile f { file with off := uint32 (file.off + r) })
      pure r
    | .none => panic .fileread

/-- The most bytes of one chunk of `filewrite`. -/
abbrev maxChunk : Nat := ((MAXOPBLOCKS - 1 - 1 - 2) / 2) * BSIZE

/-- One chunk of `filewrite`, when `i` of the `n` bytes are written: how many
are then, and whether the chunk was written in full. -/
def filewriteChunk (pagetable : PageTable) (f addr n i : Nat) : FilesM (Nat ⊕ Nat) := do
  let n1 := min (n - i) maxChunk
  let s ← get
  let file := s.file f
  ilock file.ip
  let inum := (s.inode (file.ip.getD 0)).inum
  let (ip, r) := writei pagetable s.kmem.mem (s.dinode inum) (uint64 (addr + i)) file.off n1
  modify fun s => { s with dinode := Function.update s.dinode inum ip }
  Act.when (0 < r) (setFile f { file with off := uint32 (file.off + r) })
  if r ≠ n1 then pure (.inr i) else pure (.inl (i + n1))

/-- Write to a file from the user address `addr`. -/
def filewrite (pagetable : PageTable) (f addr : Nat) (n : Int) : FilesM Int := do
  let s ← get
  let file := s.file f
  if !file.writable then pure (-1)
  else
    match file.type with
    | .pipe => pure n
    | .device => if file.major ≠ CONSOLE then pure (-1) else pure n
    | .inode => do
      let rounds := (n.toNat + (maxChunk - 1)) / maxChunk
      match ← Act.loop (fun _ i => filewriteChunk pagetable f addr n.toNat i) rounds 0 0 with
      | .inl i => pure (if (i : Int) = n then n else -1)
      | .inr i => pure (if (i : Int) = n then n else -1)
    | .none => panic .filewrite

end Xv6.Sys
