import Xv6.Lib.Act
import Xv6.Vm.PageTable

/-!
# Physical memory and user page tables

`kernel/kalloc.c` and `kernel/vm.c` as actions on the state `Kmem`: the free
list of `kmem` and the bytes of physical memory, by page. A page table is a
value that a function takes and gives back, as the C functions do through the
pointer to its root page.

Addresses and sizes are 64-bit values held as natural numbers, with the wrap
of the C arithmetic written out where it can happen. A loop over the pages
from `a` up to an end is `pageRounds` rounds; the address of a round does not
wrap, since `walk` panics from `MAXVA` on.

A `walk` that does not allocate leaves the table as it is, so the functions
that only read a table (`walkaddr`, `copyin`) are plain functions.
-/

namespace Xv6.Vm

open Xv6.Lib Xv6.Lib.CInt

/-- The panics of the modelled functions. -/
inductive Panic where
  | kfree
  | walk
  | remap
  | uvmunmapNotAligned
  | uvmunmapWalk
  | uvmunmapNotALeaf
  | uvmclear
  | uvmcopyPte
  | freewalkLeaf
  /-- Not a panic of the source: `freewalk` takes a page of user data for a
  page-table page, and the model does not follow it there. -/
  | freewalkStray
  | loadsegAligned
  | loadsegAddress
  | ilock
  | ilockNoType
  | igetNoInodes
  | filedup
  | fileclose
  | fileread
  | filewrite
  | noEmptyMmapitem
  | initExiting
  deriving DecidableEq, Repr

/-- The text of a panic. -/
def Panic.text : Panic → String
  | .kfree => "kfree"
  | .walk => "walk"
  | .remap => "remap"
  | .uvmunmapNotAligned => "uvmunmap: not aligned"
  | .uvmunmapWalk => "uvmunmap: walk"
  | .uvmunmapNotALeaf => "uvmunmap: not a leaf"
  | .uvmclear => "uvmclear"
  | .uvmcopyPte => "uvmcopy: pte should exist"
  | .freewalkLeaf => "freewalk: leaf"
  | .freewalkStray => ""
  | .loadsegAligned => "loadseg: va must be page aligned"
  | .loadsegAddress => "loadseg: address should exist"
  | .ilock => "ilock"
  | .ilockNoType => "ilock: no type"
  | .igetNoInodes => "iget: no inodes"
  | .filedup => "filedup"
  | .fileclose => "fileclose"
  | .fileread => "fileread"
  | .filewrite => "filewrite"
  | .noEmptyMmapitem => "no empty mmapitem!"
  | .initExiting => "init exiting"

/-! ## `kernel/kalloc.c` -/

/-- Physical memory: the first address after the kernel, the page of the
kernel that holds the trampoline code, the free pages, and the bytes of each
page by the page's address. -/
structure Kmem where
  kend : Nat
  trampoline : Nat
  freelist : List Nat
  mem : Nat → Bytes

/-- An action on physical memory. -/
abbrev KmemM := Act Panic Kmem

open Act (get modify panic)

/-- Fill a page. -/
def memset (pa : Nat) (c : UInt8) : KmemM Unit :=
  modify fun k => { k with mem := Function.update k.mem pa fun _ => c }

/-- Free a page of physical memory, filling it with junk. -/
def kfree (pa : Nat) : KmemM Unit := do
  let k ← get
  if pa % PGSIZE ≠ 0 ∨ pa < k.kend ∨ PHYSTOP ≤ pa then
    panic .kfree
  else do
    memset pa 1
    modify fun k => { k with freelist := pa :: k.freelist }

/-- Allocate one page of physical memory, filled with junk, if there is
one. -/
def kalloc : KmemM (Option Nat) := do
  let k ← get
  match k.freelist with
  | [] => pure none
  | r :: next => do
    modify fun k => { k with freelist := next }
    memset r 5
    pure (some r)

/-! ## `walk` and `mappages` -/

/-- One level of `walk`: the page that entry `i` of a page-table page points
to, created when it is missing and `alloc` is set. -/
def descend {α : Type} (fresh : Nat → α) (dir : DirPage α) (i : Nat) (alloc : Bool) :
    KmemM (DirPage α × Option α) :=
  match dir.entry i with
  | some page => pure (dir, some page)
  | none =>
    if alloc then do
      match ← kalloc with
      | none => pure (dir, none)
      | some pa => do
        memset pa 0
        pure ({ dir with entry := Function.update dir.entry i (some (fresh pa)) },
          some (fresh pa))
    else pure (dir, none)

/-- Find the entry for `va`, creating the missing page-table pages if `alloc`
is set. Gives the table and whether there is an entry. -/
def walk (pagetable : PageTable) (va : Nat) (alloc : Bool) : KmemM (PageTable × Bool) :=
  if MAXVA ≤ va then panic .walk
  else do
    let (pagetable, mid) ← descend (fun pa => ⟨pa, fun _ => none⟩) pagetable (px 2 va) alloc
    match mid with
    | none => pure (pagetable, false)
    | some mid => do
      let (mid, leaf) ← descend (fun pa => ⟨pa, fun _ => 0⟩) mid (px 1 va) alloc
      pure ({ pagetable with entry := Function.update pagetable.entry (px 2 va) (some mid) },
        leaf.isSome)

/-- The physical address of the user page at `va`, 0 if there is none. -/
def walkaddr (pagetable : PageTable) (va : Nat) : Nat :=
  if MAXVA ≤ va then 0
  else if !pagetable.tableAt va then 0
  else if !hasFlag (pagetable.pte va) PTE_V then 0
  else if !hasFlag (pagetable.pte va) PTE_U then 0
  else pte2pa (pagetable.pte va)

/-- Map the pages of `[va, va + size)` to consecutive physical pages from
`pa` on. Gives -1 if a page-table page could not be allocated. -/
def mappages (pagetable : PageTable) (va size pa perm : Nat) : KmemM (PageTable × Int) := do
  let first := pgRoundDown va
  let last := pgRoundDown (uint64 (va + size - 1))
  let rounds := uint64 (last - first) / PGSIZE + 1
  let body := fun i pagetable => do
    let a := uint64 (first + i * PGSIZE)
    let (pagetable, found) ← walk pagetable a true
    if !found then pure (.inr pagetable)
    else if hasFlag (pagetable.pte a) PTE_V then panic .remap
    else pure (.inl (pagetable.setPte a (pa2pte (pa + i * PGSIZE) ||| perm ||| PTE_V)))
  match ← Act.loop body rounds 0 pagetable with
  | .inl pagetable => pure (pagetable, 0)
  | .inr pagetable => pure (pagetable, -1)

/-! ## User memory -/

/-- The rounds of `for(a = first; a < last; a += PGSIZE)`. -/
def pageRounds (first last : Nat) : Nat := (last - first + (PGSIZE - 1)) / PGSIZE

/-- Remove `npages` of mappings from `va` on; pages that are not present are
passed over. -/
def uvmunmap (pagetable : PageTable) (va npages : Nat) (doFree : Bool) : KmemM PageTable :=
  if va % PGSIZE ≠ 0 then panic .uvmunmapNotAligned
  else
    let body := fun i pagetable => do
      let a := va + i * PGSIZE
      let (pagetable, found) ← walk pagetable a false
      if !found then panic .uvmunmapWalk
      else if !hasFlag (pagetable.pte a) PTE_V then pure pagetable
      else if pteFlags (pagetable.pte a) = PTE_V then panic .uvmunmapNotALeaf
      else do
        Act.when doFree (kfree (pte2pa (pagetable.pte a)))
        pure (pagetable.setPte a 0)
    Act.iter body (pageRounds va (uint64 (va + npages * PGSIZE))) 0 pagetable

/-- An empty user page table, if there is memory for its root. -/
def uvmcreate : KmemM (Option PageTable) := do
  match ← kalloc with
  | none => pure none
  | some pa => do
    memset pa 0
    pure (some ⟨pa, fun _ => none⟩)

/-- Bring the process size from `oldsz` down to `newsz`. -/
def uvmdealloc (pagetable : PageTable) (oldsz newsz : Nat) : KmemM (PageTable × Nat) :=
  if oldsz ≤ newsz then pure (pagetable, oldsz)
  else if pgRoundUp newsz < pgRoundUp oldsz then do
    let npages := int32 ((pgRoundUp oldsz - pgRoundUp newsz) / PGSIZE : Nat)
    let pagetable ← uvmunmap pagetable (pgRoundUp newsz) (uint64 npages) true
    pure (pagetable, newsz)
  else pure (pagetable, newsz)

/-- Allocate the pages that bring the process size from `oldsz` up to
`newsz`. Gives the new size, 0 if the memory ran out. -/
def uvmalloc (pagetable : PageTable) (oldsz newsz : Nat) : KmemM (PageTable × Nat) :=
  if newsz < oldsz then pure (pagetable, oldsz)
  else do
    let first := pgRoundUp oldsz
    let body := fun i pagetable => do
      let a := first + i * PGSIZE
      match ← kalloc with
      | none => do
        let (pagetable, _) ← uvmdealloc pagetable a first
        pure (.inr pagetable)
      | some mem => do
        memset mem 0
        let (pagetable, r) ← mappages pagetable a PGSIZE mem (PTE_W ||| PTE_X ||| PTE_R ||| PTE_U)
        if r ≠ 0 then do
          kfree mem
          let (pagetable, _) ← uvmdealloc pagetable a first
          pure (.inr pagetable)
        else pure (.inl pagetable)
    match ← Act.loop body (pageRounds first newsz) 0 pagetable with
    | .inl pagetable => pure (pagetable, newsz)
    | .inr pagetable => pure (pagetable, 0)

/-- `freewalk` on a page-table page of the lowest level. A valid entry there
is a leaf, unless all of its permission bits are clear: then it is taken for
a pointer to a further page-table page. -/
def freewalkLeafPage (page : LeafPage) : KmemM Unit := do
  Act.iter (fun i _ =>
    if hasFlag (page.pte i) PTE_V && !hasFlag (page.pte i) (PTE_R ||| PTE_W ||| PTE_X) then
      panic .freewalkStray
    else if hasFlag (page.pte i) PTE_V then panic .freewalkLeaf
    else pure ()) 512 0 ()
  kfree page.addr

/-- `freewalk` on a page-table page of an upper level, given what it does one
level down. -/
def freewalkDirPage {α : Type} (freeChild : α → KmemM Unit) (page : DirPage α) : KmemM Unit := do
  Act.iter (fun i _ =>
    match page.entry i with
    | some child => freeChild child
    | none => pure ()) 512 0 ()
  kfree page.addr

/-- Free the page-table pages. All leaf mappings must already have been
removed. -/
def freewalk (pagetable : PageTable) : KmemM Unit :=
  freewalkDirPage (freewalkDirPage freewalkLeafPage) pagetable

/-- Free the user memory pages, then the page-table pages. -/
def uvmfree (pagetable : PageTable) (sz : Nat) : KmemM Unit :=
  (if 0 < sz then uvmunmap pagetable 0 (pgRoundUp sz / PGSIZE) true else pure pagetable) >>=
    freewalk

/-- Copy the present pages below `sz` of the table `old` into `new`, with
their contents. -/
def uvmcopy (old new : PageTable) (sz : Nat) : KmemM (PageTable × Int) := do
  let body := fun j new => do
    let i := j * PGSIZE
    let (_, found) ← walk old i false
    if !found then panic .uvmcopyPte
    else if !hasFlag (old.pte i) PTE_V then pure (.inl new)
    else do
      match ← kalloc with
      | none => do
        let new ← uvmunmap new 0 (i / PGSIZE) true
        pure (.inr new)
      | some mem => do
        modify fun k => { k with mem := Function.update k.mem mem (k.mem (pte2pa (old.pte i))) }
        let (new, r) ← mappages new i PGSIZE mem (pteFlags (old.pte i))
        if r ≠ 0 then do
          kfree mem
          let new ← uvmunmap new 0 (i / PGSIZE) true
          pure (.inr new)
        else pure (.inl new)
  match ← Act.loop body (pageRounds 0 sz) 0 new with
  | .inl new => pure (new, 0)
  | .inr new => pure (new, -1)

/-- Take the page at `va` away from user mode, for the guard page of the
stack. -/
def uvmclear (pagetable : PageTable) (va : Nat) : KmemM PageTable := do
  let (pagetable, found) ← walk pagetable va false
  if !found then panic .uvmclear
  else
    let pte := pagetable.pte va
    pure (pagetable.setPte va (pte ^^^ (pte &&& PTE_U)))

/-! ## Copies between the kernel and user memory -/

/-- `copyout`, with at most `fuel` pages to go: the memory after the copy and
whether all of it was copied. -/
def copyoutPages (pagetable : PageTable) : Nat → (Nat → Bytes) → Nat → Bytes → Nat → Nat →
    (Nat → Bytes) × Bool
  | 0, mem, _, _, _, _ => (mem, true)
  | fuel + 1, mem, dstva, src, s, len =>
    if len = 0 then (mem, true)
    else
      let va0 := pgRoundDown dstva
      let pa0 := walkaddr pagetable va0
      if pa0 = 0 then (mem, false)
      else
        let n := min (PGSIZE - (dstva - va0)) len
        let mem' := Function.update mem pa0 (splice (mem pa0) (dstva - va0) src s n)
        copyoutPages pagetable fuel mem' (uint64 (va0 + PGSIZE)) src (s + n) (len - n)

/-- Copy `len` bytes of `src`, from offset `s` on, to the user address
`dstva`. -/
def copyout (pagetable : PageTable) (mem : Nat → Bytes) (dstva : Nat) (src : Bytes) (s len : Nat) :
    (Nat → Bytes) × Bool :=
  copyoutPages pagetable (len / PGSIZE + 2) mem dstva src s len

/-- `copyin`, with at most `fuel` pages to go: the destination after the copy
and whether all of it was copied. -/
def copyinPages (pagetable : PageTable) (mem : Nat → Bytes) : Nat → Bytes → Nat → Nat → Nat →
    Bytes × Bool
  | 0, dst, _, _, _ => (dst, true)
  | fuel + 1, dst, d, srcva, len =>
    if len = 0 then (dst, true)
    else
      let va0 := pgRoundDown srcva
      let pa0 := walkaddr pagetable va0
      if pa0 = 0 then (dst, false)
      else
        let n := min (PGSIZE - (srcva - va0)) len
        let dst' := splice dst d (mem pa0) (srcva - va0) n
        copyinPages pagetable mem fuel dst' (d + n) (uint64 (va0 + PGSIZE)) (len - n)

/-- Copy `len` bytes from the user address `srcva` to offset `d` of `dst`. -/
def copyin (pagetable : PageTable) (mem : Nat → Bytes) (dst : Bytes) (d srcva len : Nat) :
    Bytes × Bool :=
  copyinPages pagetable mem (len / PGSIZE + 2) dst d srcva len

end Xv6.Vm
