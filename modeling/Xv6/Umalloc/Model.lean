import Mathlib.Logic.Function.Basic
import Xv6.Lib.CInt

/-!
# The memory allocator of user programs

`malloc` and `free` of `user/umalloc.c`. Every block starts with a header of
16 bytes, and its size counts headers, the block's own among them. The free
blocks are on a circular list that goes through the static header `base`, and
`freep` is where the last call left off.

The heap is the two fields of all headers, by address. Addresses are of 64
bits and sizes of 32. What `sbrk` answers is an input of the call: nothing, or
how far above all earlier memory the new region begins. `limit` is how many
units there are to give in all.

The loops have a number of rounds that they may take. A call that needs more
gives `none`; that a call which may take enough rounds returns is a theorem.
-/

namespace Xv6.Umalloc

open Xv6.Lib.CInt

/-- `sizeof(Header)`. -/
abbrev HEADER : Nat := 16

/-- Where a program and its memory lie. -/
structure Layout where
  /-- The address of the static header `base`. -/
  base : Nat
  /-- The break when the program starts. -/
  brk : Nat
  /-- How many units `sbrk` can give. -/
  limit : Nat
  base_pos : 0 < base
  base_below : base < brk
  brk_below : brk < 2 ^ 64

/-- The headers in memory, `freep`, and the regions that `sbrk` gave, by
address and number of units, the last one first. -/
structure Heap where
  ptr : Nat → Nat
  size : Nat → Nat
  freep : Nat := 0
  regions : List (Nat × Nat) := []

/-- `p + n` for a `Header *`. -/
def plus (p n : Nat) : Nat := uint64 ((p : Int) + (HEADER * n : Nat))

namespace Heap

variable (h : Heap)

def setPtr (p q : Nat) : Heap := { h with ptr := Function.update h.ptr p q }

def setSize (p n : Nat) : Heap := { h with size := Function.update h.size p n }

/-- The loop of `free`, from `p` on. -/
def freeLoop (bp : Nat) : Nat → Nat → Option Nat
  | 0, _ => none
  | fuel + 1, p =>
    if p < bp ∧ bp < h.ptr p then some p
    else if h.ptr p ≤ p ∧ (p < bp ∨ bp < h.ptr p) then some p
    else freeLoop bp fuel (h.ptr p)

/-- Join the block to the one after it. -/
def linkUpper (bp p : Nat) : Heap :=
  if plus bp (h.size bp) = h.ptr p then
    (h.setSize bp (uint32 (h.size bp + h.size (h.ptr p)))).setPtr bp (h.ptr (h.ptr p))
  else h.setPtr bp (h.ptr p)

/-- Join the block to the one before it. -/
def linkLower (bp p : Nat) : Heap :=
  if plus p (h.size p) = bp then
    (h.setSize p (uint32 (h.size p + h.size bp))).setPtr p (h.ptr bp)
  else h.setPtr p bp

def free (fuel ap : Nat) : Option Heap :=
  let bp := uint64 ((ap : Int) - HEADER)
  (h.freeLoop bp fuel h.freep).map fun p =>
    { (h.linkUpper bp p).linkLower bp p with freep := p }

variable (L : Layout)

/-- The end of the memory that the program has. -/
def top : Nat :=
  match h.regions with
  | [] => L.brk
  | (a, n) :: _ => a + HEADER * n

def units : Nat := (h.regions.map Prod.snd).sum

/-- The part of the regions that is below `brk`. -/
def lower (brk : Nat) (regions : List (Nat × Nat)) : List (Nat × Nat) :=
  (regions.filter fun r => r.1 < brk).map fun r => (r.1, min r.2 ((brk - r.1) / HEADER))

/-- `sbrk(n)`, with the break `gap` above the memory there is. It gives the
old break and the regions after the break has moved, which it does not do
below 0. -/
def sbrk (n : Int) : Option Nat → Option (Nat × List (Nat × Nat))
  | none => none
  | some gap =>
    let a := h.top L + gap
    if n < 0 then some (a, if a + n < 0 then h.regions else lower (a + n).toNat h.regions)
    else if h.units + n.toNat / HEADER ≤ L.limit ∧ a + n.toNat < 2 ^ 64 then
      some (a, (a, n.toNat / HEADER) :: h.regions)
    else none

/-- How many units `morecore` wants. -/
def wanted (nu : Nat) : Nat := if nu < 4096 then 4096 else nu

/-- What `morecore` passes for them, in 64 bits, as it comes to `sbrk`. -/
def asked (nu : Nat) : Int := int32 (HEADER * nu : Nat)

/-- Gives `freep`, or 0. -/
def morecore (fuel nu : Nat) (gap : Option Nat) : Option (Heap × Nat) :=
  let nu := wanted nu
  match h.sbrk L (asked nu) gap with
  | none => some (h, 0)
  | some (p, regions) =>
    let h := { h.setSize p nu with regions }
    (h.free fuel (plus p 1)).map fun h => (h, h.freep)

/-- Take `nunits` of the block `p`, which comes after `prevp`. -/
def carve (prevp p nunits : Nat) : Heap × Nat :=
  if h.size p = nunits then ({ h.setPtr prevp (h.ptr p) with freep := prevp }, plus p 1)
  else
    let h := h.setSize p (h.size p - nunits)
    let q := plus p (h.size p)
    ({ h.setSize q nunits with freep := prevp }, plus q 1)

/-- The loop of `malloc`. -/
def mallocLoop (nunits : Nat) : Nat → List (Option Nat) → Heap → Nat → Nat → Option (Heap × Nat)
  | 0, _, _, _, _ => none
  | fuel + 1, gaps, h, prevp, p =>
    if nunits ≤ h.size p then some (h.carve prevp p nunits)
    else if p = h.freep then
      match h.morecore L fuel nunits (gaps.head?.getD none) with
      | none => none
      | some (h, q) =>
        if q = 0 then some (h, 0) else mallocLoop nunits fuel gaps.tail h q (h.ptr q)
    else mallocLoop nunits fuel gaps h p (h.ptr p)

/-- The numbers of units for which the loop calls `sbrk`. -/
def asks (nunits : Nat) : Nat → List (Option Nat) → Heap → Nat → List Nat
  | 0, _, _, _ => []
  | fuel + 1, gaps, h, p =>
    if nunits ≤ h.size p then []
    else if p = h.freep then
      wanted nunits :: match h.morecore L fuel nunits (gaps.head?.getD none) with
        | none => []
        | some (h, q) => if q = 0 then [] else asks nunits fuel gaps.tail h (h.ptr q)
    else asks nunits fuel gaps h (h.ptr p)

/-- How many units a block for `nbytes` has. -/
def nunitsOf (nbytes : Nat) : Nat := uint32 ((nbytes + HEADER - 1) / HEADER + 1 : Nat)

/-- The list with nothing in it, at the first call. -/
def init : Heap :=
  if h.freep = 0 then { (h.setPtr L.base L.base).setSize L.base 0 with freep := L.base } else h

def malloc (fuel nbytes : Nat) (gaps : List (Option Nat)) : Option (Heap × Nat) :=
  let h := h.init L
  mallocLoop L (nunitsOf nbytes) fuel gaps h h.freep (h.ptr h.freep)

def mallocAsks (fuel nbytes : Nat) (gaps : List (Option Nat)) : List Nat :=
  let h := h.init L
  asks L (nunitsOf nbytes) fuel gaps h (h.ptr h.freep)

end Heap

/-! ## A program that uses it -/

/-- The heap, and the blocks that the program has: what `malloc` returned and
how many bytes were asked for. -/
structure World where
  heap : Heap
  live : List (Nat × Nat) := []

inductive Event where
  | malloc (fuel nbytes : Nat) (gaps : List (Option Nat))
  | free (fuel ap : Nat)

/-- `malloc` of a size that `sbrk` can take, or `free` of a block that the
program has. -/
def next (L : Layout) : Event → World → Option World
  | .malloc fuel n gaps, w =>
    if ((n + 15) / 16 + 1) * 16 < 2 ^ 31 then
      (w.heap.malloc L fuel n gaps).map fun (heap, r) =>
        { heap, live := if r = 0 then w.live else (r, n) :: w.live }
    else none
  | .free fuel ap, w =>
    if ap ∈ w.live.map Prod.fst then
      (w.heap.free fuel ap).map fun heap => { heap, live := w.live.eraseP fun x => x.1 == ap }
    else none

/-- Nothing allocated, and anything in memory. -/
def start (ptr size : Nat → Nat) : World := { heap := { ptr, size } }

end Xv6.Umalloc
