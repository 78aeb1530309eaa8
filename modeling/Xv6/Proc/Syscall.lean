import Xv6.Proc.Exec

/-!
# System calls, page faults and runs

The system calls of `kernel/sysfile.c` and `kernel/sysproc.c` that a process
makes on its memory and its open files, the page-fault branch of `usertrap`,
and the machine they make up: `Event` is what a process can do next, `step`
is what the kernel then does, and `Run` is any sequence of events of any
processes.

Arguments are the 64-bit registers of the caller. A path is given by the
inode number it leads to, if any. A load or a store goes through the page
table as the hardware does, and traps where the entry does not allow it.
-/

namespace Xv6.Sys

open Xv6.Lib Xv6.Lib.CInt Xv6.Vm
open Act (get modify panic)

/-! ## Arguments -/

/-- `argint`. -/
def argint (a : UInt64) : Int := int32 a.toNat

theorem argint_bounds (a : UInt64) : -2 ^ 31 ≤ argint a ∧ argint a < 2 ^ 31 := int32_bounds _

/-- `argaddr`. -/
def argaddr (a : UInt64) : Nat := a.toNat

/-- `argfd`: the file of a descriptor, if it is open. -/
def argfd (pr : Proc) (a : UInt64) : Option Nat :=
  if argint a < 0 ∨ (NOFILE : Int) ≤ argint a then none else pr.ofile (argint a).toNat

/-- Allocate a file descriptor for the file. -/
def fdalloc (p f : Nat) : KernelM (Option Nat) := do
  let k ← get
  match (List.range NOFILE).find? fun fd => (k.proc p).ofile fd = none with
  | none => pure none
  | some fd => do
    setProc p fun pr => { pr with ofile := Function.update pr.ofile fd (some f) }
    pure (some fd)

/-! ## Files -/

/-- The inode that `sys_open` goes on with: an existing one, or a new file
when `O_CREATE` is set and `inum` is free. -/
def openInode (inum : Nat) (omode : Int) : FilesM Unit := do
  let s ← get
  Act.when (hasBit omode O_CREATE ∧ (s.dinode inum).type = .free)
    (modify fun s => { s with
      dinode := Function.update s.dinode inum ⟨.file, 0, 0, fun _ => 0⟩ })

/-- The mode does not fit the type of the inode: a directory opened for
writing or creating, or a device without a number. -/
def openRefused (ip : DInode) (omode : Int) : Bool :=
  if hasBit omode O_CREATE then ip.type = .dir || (ip.type = .device && (ip.major < 0 || NDEV ≤ ip.major))
  else (ip.type = .dir && omode ≠ O_RDONLY) ||
    (ip.type = .device && (ip.major < 0 || NDEV ≤ ip.major))

/-- The `struct file` that `sys_open` fills in. -/
def openFile (file : File) (ip : DInode) (i : Nat) (omode : Int) : File :=
  let file := if ip.type = .device then { file with type := .device, major := ip.major }
    else { file with type := .inode, off := 0 }
  { file with
    ip := some i
    readable := !hasBit omode O_WRONLY
    writable := hasBit omode O_WRONLY || hasBit omode O_RDWR }

def sysOpen (p : Nat) (found : Option Nat) (mode : UInt64) : KernelM Int := do
  let omode := argint mode
  match found with
  | none => pure (-1)
  | some inum => do
    onFiles (openInode inum omode)
    let i ← onFiles (iget inum)
    onFiles (ilock (some i))
    let k ← get
    let ip := k.files.dinode inum
    if openRefused ip omode then do
      onFiles (iput i)
      pure (-1)
    else do
      match ← onFiles filealloc with
      | none => do
        onFiles (iput i)
        pure (-1)
      | some f => do
        match ← fdalloc p f with
        | none => do
          onFiles (fileclose f)
          onFiles (iput i)
          pure (-1)
        | some fd => do
          let k ← get
          onFiles (setFile f (openFile (k.files.file f) ip i omode))
          Act.when (hasBit omode O_TRUNC ∧ ip.type = .file)
            (onFiles (modify fun s => { s with dinode := Function.update s.dinode inum (itrunc ip) }))
          pure fd

/-- Undo a `sys_pipe` whose descriptors could not be made or delivered. -/
def pipeUndo (p rf wf : Nat) (fds : List Nat) : KernelM Int := do
  setProc p fun pr => { pr with ofile := fun fd => if fd ∈ fds then none else pr.ofile fd }
  onFiles (fileclose rf)
  onFiles (fileclose wf)
  pure (-1)

def sysPipe (p : Nat) (fdarray : UInt64) : KernelM Int := do
  match ← onFiles pipealloc with
  | none => pure (-1)
  | some (rf, wf) => do
    match ← fdalloc p rf with
    | none => pipeUndo p rf wf []
    | some fd0 => do
      match ← fdalloc p wf with
      | none => pipeUndo p rf wf [fd0]
      | some fd1 => do
        let k ← get
        let pagetable := (k.proc p).pagetable
        match copyout pagetable k.files.kmem.mem (argaddr fdarray) (wordBytes 4 [fd0]) 0 4 with
        | (mem, false) => do
          onMem (modify fun m => { m with mem := mem })
          pipeUndo p rf wf [fd0, fd1]
        | (mem, true) =>
          match copyout pagetable mem (uint64 (argaddr fdarray + 4)) (wordBytes 4 [fd1]) 0 4 with
          | (mem, false) => do
            onMem (modify fun m => { m with mem := mem })
            pipeUndo p rf wf [fd0, fd1]
          | (mem, true) => do
            onMem (modify fun m => { m with mem := mem })
            pure 0

def sysDup (p : Nat) (fd : UInt64) : KernelM Int := do
  let k ← get
  match argfd (k.proc p) fd with
  | none => pure (-1)
  | some f => do
    match ← fdalloc p f with
    | none => pure (-1)
    | some fd' => do
      onFiles (filedup f)
      pure fd'

def sysClose (p : Nat) (fd : UInt64) : KernelM Int := do
  let k ← get
  match argfd (k.proc p) fd with
  | none => pure (-1)
  | some f => do
    setProc p fun pr => { pr with ofile := Function.update pr.ofile (argint fd).toNat none }
    onFiles (fileclose f)
    pure 0

/-- Make the directory that the path leads to the current one. -/
def sysChdir (p : Nat) (found : Option Nat) : KernelM Int := do
  match found with
  | none => pure (-1)
  | some inum => do
    let i ← onFiles (iget inum)
    onFiles (ilock (some i))
    let k ← get
    if (k.files.dinode inum).type ≠ .dir then do
      onFiles (iput i)
      pure (-1)
    else do
      Act.when (k.proc p).cwd.isSome (onFiles (iput ((k.proc p).cwd.getD 0)))
      setProc p fun pr => { pr with cwd := some i }
      pure 0

def sysRead (p : Nat) (fd addr n : UInt64) (input : List UInt8) : KernelM Int := do
  let k ← get
  match argfd (k.proc p) fd with
  | none => pure (-1)
  | some f => onFiles (fileread (k.proc p).pagetable f (argaddr addr) (argint n) input)

def sysWrite (p : Nat) (fd addr n : UInt64) : KernelM Int := do
  let k ← get
  match argfd (k.proc p) fd with
  | none => pure (-1)
  | some f => onFiles (filewrite (k.proc p).pagetable f (argaddr addr) (argint n))

/-! ## Mappings -/

/-- The first free slot of a table of mappings. -/
def freeSlot (vma : Nat → Vma) : Option Nat :=
  (List.range MAXMMAPITEM).find? fun i => !(vma i).used

def sysMmap (p : Nat) (addr length prot flags fd offset : UInt64) : KernelM Int := do
  let k ← get
  let pr := k.proc p
  match argfd pr fd with
  | none => pure (-1)
  | some vfile =>
    if argaddr addr ≠ 0 ∨ argint offset ≠ 0 ∨ argint length < 0 then pure (-1)
    else if (k.files.file vfile).writable = false ∧ hasBit (argint prot) PROT_WRITE ∧
        argint flags = MAP_SHARED then pure (-1)
    else
      match freeSlot pr.vma with
      | none => panic .noEmptyMmapitem
      | some i => do
        let v : Vma :=
          { used := true, addr := pr.sz, length := argint length, prot := argint prot,
            flags := argint flags, vfd := argint fd, vfile := vfile, offset := 0, base := pr.sz }
        setProc p fun pr => { pr with vma := Function.update pr.vma i v }
        onFiles (filedup vfile)
        setProc p fun pr => { pr with sz := uint64 (pr.sz + argint length) }
        pure pr.sz

/-- The mapping contains the address, which `mmap_handler` holds in an
`int`. -/
def Vma.contains (v : Vma) (va : Int) : Bool :=
  v.used && v.addr ≤ uint64 va && uint64 va < uint64 (v.addr + v.length)

/-- The first mapping that contains the address. -/
def faultSlot (vma : Nat → Vma) (va : Int) : Option Nat :=
  (List.range MAXMMAPITEM).find? fun i => (vma i).contains va

/-- The flags of the entry for a page of the mapping. -/
def Vma.pteFlags (v : Vma) : Nat :=
  PTE_U ||| (if hasBit v.prot PROT_READ then PTE_R else 0) |||
    (if hasBit v.prot PROT_WRITE then PTE_W else 0) |||
    (if hasBit v.prot PROT_EXEC then PTE_X else 0)

/-- Fill a page with the file's content for `va` and map it. -/
def mapFilePage (p : Nat) (v : Vma) (va : Int) (pa : Nat) : KernelM Int := do
  onMem (memset pa 0)
  let k ← get
  let file := k.files.file v.vfile
  onFiles (ilock file.ip)
  let ip := k.files.dinode (k.files.inode (file.ip.getD 0)).inum
  let offset := int32 (uint64 (v.offset + pgRoundDown (uint64 (va - v.addr))))
  let k ← get
  let (page, readbytes) := readi ip kernelOut (k.files.kmem.mem pa) 0 (uint32 offset) PGSIZE
  onMem (modify fun m => { m with mem := Function.update m.mem pa page })
  if readbytes = 0 then do
    onMem (kfree pa)
    pure (-1)
  else do
    let r ← onPagetable p fun pagetable =>
      mappages pagetable (pgRoundDown (uint64 va)) PGSIZE pa v.pteFlags
    if r ≠ 0 then do
      onMem (kfree pa)
      pure (-1)
    else pure 0

/-- Bring in the page of a mapping for a fault at `va`. -/
def mmapHandler (p : Nat) (va : Int) (cause : Nat) : KernelM Int := do
  let k ← get
  match faultSlot (k.proc p).vma va with
  | none => pure (-1)
  | some i =>
    let v := (k.proc p).vma i
    let file := k.files.file v.vfile
    if cause = 13 ∧ file.readable = false then pure (-1)
    else if cause = 15 ∧ file.writable = false then pure (-1)
    else do
      match ← onMem kalloc with
      | none => pure (-1)
      | some pa => mapFilePage p v va pa

/-- The page-fault branch of `usertrap`, for a process with stack pointer
`sp`. -/
def pageFault (p sp va cause : Nat) : KernelM Unit := do
  let k ← get
  if uint64 (pgRoundUp sp - 1) < va ∧ va < (k.proc p).sz then do
    let r ← mmapHandler p (int32 va) cause
    Act.when (r ≠ 0) (setProc p fun pr => { pr with killed := true })
  else setProc p fun pr => { pr with killed := true }

/-- What `sys_munmap` makes of a mapping that the call hits. -/
def Vma.munmapHit (v : Vma) (addr : Nat) (length : Int) : Option Vma :=
  if v.used ∧ length ≤ v.length then
    if v.addr = addr then
      some { v with addr := uint64 (v.addr + length), length := int32 (v.length - length) }
    else if uint64 (v.addr + length) = uint64 (v.addr + v.length) then
      some { v with length := int32 (v.length - length) }
    else none
  else none

/-- The first mapping that a call of `sys_munmap` hits. -/
def munmapSlot (vma : Nat → Vma) (addr : Nat) (length : Int) : Option Nat :=
  (List.range MAXMMAPITEM).find? fun i => ((vma i).munmapHit addr length).isSome

def sysMunmap (p : Nat) (a0 a1 : UInt64) : KernelM Int := do
  let addr := argaddr a0
  let length := argint a1
  let k ← get
  let pr := k.proc p
  match munmapSlot pr.vma addr length with
  | none => pure (-1)
  | some i => do
    let v := ((pr.vma i).munmapHit addr length).getD (pr.vma i)
    setProc p fun pr => { pr with vma := Function.update pr.vma i v }
    writeBack pr.pagetable v addr length
    unmapPages p addr length
    Act.when (v.length = 0) do
      onFiles (fileclose v.vfile)
      setProc p fun pr => { pr with vma := Function.update pr.vma i { v with used := false } }
    pure 0

def sysSbrk (p : Nat) (n : UInt64) : KernelM Int := do
  let k ← get
  let addr := int32 (k.proc p).sz
  let r ← growproc p (argint n)
  if r < 0 then pure (-1) else pure addr

/-! ## Memory accesses -/

/-- The entry for `va` that the hardware finds, if it allows user accesses of
the kind; an entry that is writable must also be readable. -/
def userPage (pagetable : PageTable) (va flags : Nat) : Option Nat :=
  if va < MAXVA ∧ hasFlag (pagetable.pte va) PTE_V ∧ hasFlag (pagetable.pte va) PTE_U ∧
      hasFlag (pagetable.pte va) PTE_R ∧ hasFlag (pagetable.pte va) flags then
    some (pte2pa (pagetable.pte va))
  else none

/-- A user load: it changes nothing, or it traps. -/
def load (p : Nat) (sp va : UInt64) : KernelM Unit := do
  let k ← get
  match userPage (k.proc p).pagetable va.toNat PTE_R with
  | some _ => pure ()
  | none => pageFault p sp.toNat va.toNat 13

/-- A user store of one byte, or its trap. -/
def store (p : Nat) (sp va : UInt64) (b : UInt8) : KernelM Unit := do
  let k ← get
  match userPage (k.proc p).pagetable va.toNat PTE_W with
  | some pa => onMem (modify fun m => { m with
      mem := Function.update m.mem pa (Function.update (m.mem pa) (va.toNat % PGSIZE) b) })
  | none => pageFault p sp.toNat va.toNat 15

/-! ## Runs -/

/-- What a process does next. -/
inductive Event where
  | load (sp va : UInt64)
  | store (sp va : UInt64) (b : UInt8)
  | openFile (found : Option Nat) (mode : UInt64)
  | pipe (fdarray : UInt64)
  | dup (fd : UInt64)
  | close (fd : UInt64)
  | chdir (found : Option Nat)
  | read (fd addr n : UInt64) (input : List UInt8)
  | write (fd addr n : UInt64)
  | mmap (addr length prot flags fd offset : UInt64)
  | munmap (addr length : UInt64)
  | sbrk (n : UInt64)
  | fork
  | exec (found : Option Nat) (argv : List (List UInt8))
  | exit (status : UInt64)
  | exitVma
  | exitEnd
  | wait (addr : UInt64)

/-- What the kernel does for an event of process `p`, with the value it
returns to the process. -/
def step (p : Nat) : Event → KernelM Int
  | .load sp va => do
    load p sp va
    pure 0
  | .store sp va b => do
    store p sp va b
    pure 0
  | .openFile found mode => sysOpen p found mode
  | .pipe fdarray => sysPipe p fdarray
  | .dup fd => sysDup p fd
  | .close fd => sysClose p fd
  | .chdir found => sysChdir p found
  | .read fd addr n input => sysRead p fd addr n input
  | .write fd addr n => sysWrite p fd addr n
  | .mmap addr length prot flags fd offset => sysMmap p addr length prot flags fd offset
  | .munmap addr length => sysMunmap p addr length
  | .sbrk n => sysSbrk p n
  | .fork => fork p
  | .exec found argv => exec p found argv
  | .exit status => do
    exit p (argint status)
    pure 0
  | .exitVma => do
    let k ← get
    match (k.proc p).state with
    | .exiting i => do
      exitVma p i
      pure 0
    | _ => pure 0
  | .exitEnd => do
    exitEnd p
    pure 0
  | .wait addr => do
    let r ← wait p (argaddr addr)
    pure (r.getD 0)

/-- The process can do the event: it is alive, a killed process only exits,
and a process that exits goes through its mappings in order. Anything else
it does from user mode, where `userret` takes it only while its trap frame is
mapped. -/
def Enabled (k : Kernel) (p : Nat) : Event → Prop
  | .exitVma => p < NPROC ∧ ∃ i, i < MAXMMAPITEM ∧ (k.proc p).state = .exiting i
  | .exitEnd => p < NPROC ∧ (k.proc p).state = .exiting MAXMMAPITEM
  | .exit _ => p < NPROC ∧ (k.proc p).state = .runnable
  | _ => p < NPROC ∧ (k.proc p).state = .runnable ∧ (k.proc p).killed = false ∧
    hasFlag ((k.proc p).pagetable.pte TRAPFRAME) PTE_V

theorem Enabled.live {k : Kernel} {p : Nat} {e : Event} (h : Enabled k p e) :
    p < NPROC ∧ (k.proc p).state ≠ .unused := by
  have hstate : ∃ st ≠ .unused, p < NPROC ∧ (k.proc p).state = st := by
    cases e with
    | exitVma =>
      obtain ⟨hp, i, _, hst⟩ := h
      exact ⟨_, by simp, hp, hst⟩
    | exitEnd => exact ⟨_, by simp, h⟩
    | exit status => exact ⟨_, by simp, h⟩
    | _ => exact ⟨_, by simp, h.1, h.2.1⟩
  obtain ⟨st, hne, hp, hst⟩ := hstate
  exact ⟨hp, fun hunused => hne (hst.symm.trans hunused)⟩

/-- A machine with nothing running yet: no process, no open file or pipe, and
a free list of pages of the memory after the kernel, each once. -/
structure Fresh (k : Kernel) : Prop where
  proc : ∀ p, k.proc p = {}
  file : ∀ f, k.files.file f = {}
  inode : ∀ i, k.files.inode i = {}
  nodup : k.files.kmem.freelist.Nodup
  ram : ∀ pa ∈ k.files.kmem.freelist, pa % PGSIZE = 0 ∧ k.files.kmem.kend ≤ pa ∧ pa < PHYSTOP
  kend : KERNBASE ≤ k.files.kmem.kend
  trampoline : k.files.kmem.trampoline % PGSIZE = 0 ∧ k.files.kmem.trampoline < PHYSTOP
  text : k.files.kmem.trampoline < k.files.kmem.kend
  pipe : ∀ pa, k.files.pipe pa = ⟨false, false⟩

/-- The state in which the first process starts. -/
def Boot (k : Kernel) : Prop :=
  ∃ k0 root, Fresh k0 ∧ userinit root k0 = .ok ((), k) ∧ (k.proc 0).state = .runnable

/-- Some sequence of events of any processes leads from `k0` to `k`, each of
them meeting `cond` in the state before it. -/
inductive Run (cond : Kernel → Nat → Event → Prop) (k0 : Kernel) : Kernel → Prop where
  | refl : Run cond k0 k0
  | step {k k' : Kernel} {p : Nat} {e : Event} {r : Int} (run : Run cond k0 k)
      (enabled : Enabled k p e) (hcond : cond k p e) (hstep : step p e k = .ok (r, k')) :
      Run cond k0 k'

/-- What holds at the start and is passed on by every step holds in every
state of a run. -/
theorem run_invariant {cond : Kernel → Nat → Event → Prop} {k0 k : Kernel} {I : Kernel → Prop}
    (hrun : Run cond k0 k) (h0 : I k0)
    (hstep : ∀ k p e r k', I k → Enabled k p e → cond k p e → step p e k = .ok (r, k') → I k') :
    I k := by
  induction hrun with
  | refl => exact h0
  | step _ henabled hcond hk' ih => exact hstep _ _ _ _ _ ih henabled hcond hk'

instance (k : Kernel) (p : Nat) (e : Event) : Decidable (Enabled k p e) :=
  match e with
  | .exitVma =>
    inferInstanceAs (Decidable (p < NPROC ∧ ∃ i, i < MAXMMAPITEM ∧ (k.proc p).state = .exiting i))
  | .exitEnd => inferInstanceAs (Decidable (p < NPROC ∧ (k.proc p).state = .exiting MAXMMAPITEM))
  | .exit _ => inferInstanceAs (Decidable (p < NPROC ∧ (k.proc p).state = .runnable))
  | .load _ _ | .store _ _ _ | .openFile _ _ | .pipe _ | .dup _ | .close _ | .chdir _
  | .read _ _ _ _ | .write _ _ _ | .mmap _ _ _ _ _ _ | .munmap _ _ | .sbrk _ | .fork | .exec _ _ | .wait _ =>
    inferInstanceAs (Decidable (p < NPROC ∧ (k.proc p).state = .runnable ∧
      (k.proc p).killed = false ∧ hasFlag ((k.proc p).pagetable.pte TRAPFRAME) PTE_V))

section events

variable {cond : Kernel → Nat → Event → Prop} {check : Kernel → Nat → Event → Bool}
  (hcheck : ∀ k p e, check k p e = true → cond k p e) {es : List (Nat × Event)} {k k' : Kernel}

/-- The state after a list of events, if each of them can happen, passes the
check and does not panic. -/
def runEvents (check : Kernel → Nat → Event → Bool) : List (Nat × Event) → Kernel → Option Kernel
  | [], k => some k
  | (p, e) :: es, k =>
    if Enabled k p e ∧ check k p e then
      match step p e k with
      | .ok (_, k') => runEvents check es k'
      | .error _ => none
    else none

include hcheck in
theorem run_of_runEvents {k0 : Kernel} (hrun : Run cond k0 k)
    (h : runEvents check es k = some k') : Run cond k0 k' := by
  induction es generalizing k with
  | nil =>
    cases h
    exact hrun
  | cons pe es ih =>
    obtain ⟨p, e⟩ := pe
    rw [runEvents] at h
    split at h
    · rename_i henabled
      split at h
      · rename_i hstep
        exact ih (.step hrun henabled.1 (hcheck k p e henabled.2) hstep) h
      · exact absurd h (by simp)
    · exact absurd h (by simp)

/-- Start the machine `k` and run a list of events. -/
def bootEvents (check : Kernel → Nat → Event → Bool) (root : Nat) (es : List (Nat × Event))
    (k : Kernel) : Option Kernel :=
  match userinit root k with
  | .ok (_, k') => if (k'.proc 0).state = .runnable then runEvents check es k' else none
  | .error _ => none

include hcheck in
theorem init_of_bootEvents {root : Nat} (h : bootEvents check root es k = some k') :
    ∃ k0, userinit root k = .ok ((), k0) ∧ (k0.proc 0).state = .runnable ∧ Run cond k0 k' := by
  unfold bootEvents at h
  split at h
  · rename_i k0 hinit
    split at h
    · rename_i hstate
      exact ⟨k0, hinit, hstate, run_of_runEvents hcheck .refl h⟩
    · exact absurd h (by simp)
  · exact absurd h (by simp)

/-! ## A small machine -/

/-- A machine with 24 free pages and a disk with a directory, inode 1, and a
file of 6000 bytes, inode 2. -/
def smallMachine : Kernel where
  files := {
    kmem := {
      kend := 0x80030000
      trampoline := 0x80007000
      freelist := (List.range 24).map fun i => 0x80040000 + PGSIZE * i
      mem := fun _ _ => 0 }
    file := fun _ => {}
    pipe := fun _ => ⟨false, false⟩
    inode := fun _ => {}
    dinode := fun i =>
      if i = 1 then ⟨.dir, 0, 1024, fun _ => 0⟩
      else if i = 2 then ⟨.file, 0, 6000, fun o => UInt8.ofNat o⟩
      else ⟨.free, 0, 0, fun _ => 0⟩ }
  proc := fun _ => {}
  nextpid := 1

theorem fresh_smallMachine : Fresh smallMachine where
  proc _ := rfl
  file _ := rfl
  inode _ := rfl
  nodup := by decide +kernel
  ram := by decide +kernel
  kend := by decide
  trampoline := by decide
  text := by decide
  pipe _ := rfl

include hcheck in
/-- Events that the small machine goes through, with a fact about the state
they lead to, are a run. -/
theorem smallMachine_run (es : List (Nat × Event)) (fact : Kernel → Bool)
    (h : (bootEvents check 1 es smallMachine).any fact = true) :
    ∃ k0 k, Boot k0 ∧ Run cond k0 k ∧ fact k = true := by
  obtain ⟨k, hk, hfact⟩ := Option.any_eq_true _ _ |>.mp h
  obtain ⟨k0, hinit, hstate, hrun⟩ := init_of_bootEvents hcheck hk
  exact ⟨k0, k, ⟨smallMachine, 1, fresh_smallMachine, hinit, hstate⟩, hrun, hfact⟩

theorem smallMachine_anyRun (es : List (Nat × Event)) (fact : Kernel → Bool)
    (h : (bootEvents (fun _ _ _ => true) 1 es smallMachine).any fact = true) :
    ∃ k0 k, Boot k0 ∧ Run (fun _ _ _ => True) k0 k ∧ fact k = true :=
  smallMachine_run (fun _ _ _ _ => trivial) es fact h

end events

/-- The process can do the event, and the kernel then stops with a panic of
the given text. -/
def stepPanics (p : Nat) (e : Event) (text : String) (k : Kernel) : Bool :=
  decide (Enabled k p e) &&
    match step p e k with
    | .ok _ => false
    | .error e => e.text = text

theorem stepPanics_iff {p : Nat} {e : Event} {text : String} {k : Kernel} :
    stepPanics p e text k = true ↔
      Enabled k p e ∧ ∃ err, step p e k = .error err ∧ err.text = text := by
  unfold stepPanics
  rw [Bool.and_eq_true, decide_eq_true_eq]
  refine and_congr_right fun _ => ?_
  cases h : step p e k with
  | ok r => simp
  | error err => simp

/-- The process can do the event, and the value it gets and the state after it
pass the test. -/
def stepGives (p : Nat) (e : Event) (fact : Int → Kernel → Bool) (k : Kernel) : Bool :=
  decide (Enabled k p e) &&
    match step p e k with
    | .ok (r, k') => fact r k'
    | .error _ => false

theorem stepGives_iff {p : Nat} {e : Event} {fact : Int → Kernel → Bool} {k : Kernel} :
    stepGives p e fact k = true ↔
      Enabled k p e ∧ ∃ r k', step p e k = .ok (r, k') ∧ fact r k' = true := by
  unfold stepGives
  rw [Bool.and_eq_true, decide_eq_true_eq]
  refine and_congr_right fun _ => ?_
  cases h : step p e k with
  | ok rk =>
    obtain ⟨r, k'⟩ := rk
    simp
  | error err => simp

end Xv6.Sys
