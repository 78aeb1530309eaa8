import Xv6.Lib.Act
import Xv6.Vm.Model

/-!
# Page tables as words of physical memory

`walk`, `mappages` and `uvmunmap` of `kernel/vm.c` once more, this time on
the memory they work on. In `Vm.Model` a page table is a tree; here it is the
address of a page of 512 words, and an entry of a page names the next page by
its physical address. Nothing in the memory keeps two entries from naming the
same page, or a page-table page from being on the free list.

`word a` is the 64-bit word at address `a`. The pages that `kalloc` and
`kfree` handle are filled as in the source, and a page on the free list holds
the address of the next one in its first word.
-/

namespace Xv6.Vm.Words

open Xv6.Lib Xv6.Lib.CInt
open Xv6.Lib.Act (get modify panic)

/-- Physical memory and the free list of `kalloc.c`. -/
structure Ram where
  kend : Nat
  freelist : List Nat
  word : Nat → Nat

abbrev RamM := Act Panic Ram

def setWord (a w : Nat) : RamM Unit :=
  modify fun s => { s with word := Function.update s.word a w }

/-- `memset` of a page with a byte; `w` is the word it makes. -/
def fill (pa w : Nat) : RamM Unit :=
  modify fun s =>
    { s with word := fun a => if pa ≤ a ∧ a < pa + PGSIZE then w else s.word a }

def kfree (pa : Nat) : RamM Unit := do
  let s ← get
  if pa % PGSIZE ≠ 0 ∨ pa < s.kend ∨ PHYSTOP ≤ pa then
    panic .kfree
  else do
    fill pa 0x0101010101010101
    setWord pa (s.freelist.headD 0)
    modify fun s => { s with freelist := pa :: s.freelist }

def kalloc : RamM (Option Nat) := do
  let s ← get
  match s.freelist with
  | [] => pure none
  | r :: next => do
    modify fun s => { s with freelist := next }
    fill r 0x0505050505050505
    pure (some r)

/-- One turn of the loop of `walk`: the page that entry `PX(level, va)` of
page `pagetable` names. -/
def walkLevel (pagetable level va : Nat) (alloc : Bool) : RamM (Option Nat) := do
  let pte := pagetable + 8 * px level va
  let s ← get
  if hasFlag (s.word pte) PTE_V then pure (some (pte2pa (s.word pte)))
  else if !alloc then pure none
  else do
    match ← kalloc with
    | none => pure none
    | some page => do
      fill page 0
      setWord pte (pa2pte page ||| PTE_V)
      pure (some page)

/-- The address of the entry for `va`, or none. -/
def walk (pagetable va : Nat) (alloc : Bool) : RamM (Option Nat) :=
  if MAXVA ≤ va then panic .walk
  else do
    match ← walkLevel pagetable 2 va alloc with
    | none => pure none
    | some mid => do
      match ← walkLevel mid 1 va alloc with
      | none => pure none
      | some leaf => pure (some (leaf + 8 * px 0 va))

def mappages (pagetable va size pa perm : Nat) : RamM Int := do
  let first := pgRoundDown va
  let last := pgRoundDown (uint64 (va + size - 1))
  -- The loop goes on until `a == last`, with wrapping additions.
  let rounds := uint64 (last - first) / PGSIZE + 1
  let body := fun i (_ : Unit) => do
    let a := uint64 (first + i * PGSIZE)
    match ← walk pagetable a true with
    | none => pure (.inr ())
    | some pte => do
      let s ← get
      if hasFlag (s.word pte) PTE_V then panic .remap
      else do
        setWord pte (pa2pte (uint64 (pa + i * PGSIZE)) ||| perm ||| PTE_V)
        pure (.inl ())
  match ← Act.loop body rounds 0 () with
  | .inl _ => pure 0
  | .inr _ => pure (-1)

def uvmunmap (pagetable va npages : Nat) (doFree : Bool) : RamM Unit :=
  if va % PGSIZE ≠ 0 then panic .uvmunmapNotAligned
  else
    let body := fun i (_ : Unit) => do
      match ← walk pagetable (va + i * PGSIZE) false with
      | none => panic .uvmunmapWalk
      | some pte => do
        let s ← get
        if !hasFlag (s.word pte) PTE_V then pure ()
        else if pteFlags (s.word pte) = PTE_V then panic .uvmunmapNotALeaf
        else do
          Act.when doFree (kfree (pte2pa (s.word pte)))
          setWord pte 0
    Act.iter body (pageRounds va (uint64 (va + npages * PGSIZE))) 0 ()

/-- The entry for `va` that `walk` finds, if it is valid. -/
def lookup (s : Ram) (pagetable va : Nat) : Option Nat :=
  match walk pagetable va false s with
  | .ok (some pte, s') => if hasFlag (s'.word pte) PTE_V then some (s'.word pte) else none
  | _ => none

end Xv6.Vm.Words
