import Mathlib.Data.Finset.Card
import Xv6.Lib.Crash
import Xv6.Lib.CInt
import Xv6.Params

/-!
# The redo log of `kernel/log.c`

The functions of `kernel/log.c` as programs that can lose power. The
durable part of the machine is the disk, one block at a time: `bwrite` is
the only durable write. Everything else (the buffer cache, `log.lh`, the
counters) is lost when the power goes.

A buffer that is not cached is read from the disk. Evictions are left out:
`bget` recycles only buffers with reference count zero, a block that was
changed and not yet written home is pinned by `log_write`, and so an
evicted buffer always holds what the disk holds. What is kept of the limit
of the cache is that `bget` panics when all `NBUF` buffers are pinned and
none of them is the one it looks for.

Two fields are ghosts that no function reads back: `current`, the number of
the transaction the run is at, and `reached`, the number of the last
transaction whose committing header write got to the disk.
-/

namespace Xv6.Log

open Xv6.Lib.Crash Xv6.Lib.CInt

/-- The `BSIZE` bytes of a disk block, by offset. -/
abbrev Block := Bytes

/-- The disk: one block for each block number. -/
abbrev Disk := Nat → Block

/-- `log.start` and `log.size`, as `initlog` takes them from the super
block: the header block and the blocks after it. -/
structure Layout where
  start : Nat
  size : Nat
  size_pos : 0 < size

/-- The in-memory `struct logheader`. -/
structure LogHeader where
  n : Int
  block : Nat → Nat

/-- The disk and what the kernel keeps in memory. -/
structure Machine where
  /-- The durable blocks. -/
  disk : Disk
  /-- Cached buffers by block number. -/
  cache : Nat → Option Block
  /-- The block numbers of the cached buffers that `bpin` took a reference
  on, one for each reference. -/
  pins : List Nat
  lh : LogHeader
  outstanding : Int
  committing : Bool
  /-- Ghost: the number of the transaction the run is at. -/
  current : Nat
  /-- Ghost: the last transaction whose committing header reached the disk. -/
  reached : Nat

/-- Where a run stops by itself: the panics of `log.c`, the one of `bget`, and
a `begin_op` that sleeps with no other operation left to wake it. -/
inductive Stop where
  | tooBigATransaction
  | logWriteOutsideOfTrans
  | logCommitting
  | noBuffers
  | asleep
  deriving DecidableEq

/-- A program of the logging code. -/
abbrev LogM := Prog Stop Machine

variable (log : Layout)

/-! ## Buffers -/

/-- `bget` finds no buffer for block `b`: all of them are pinned, for other
blocks. -/
def NoBuffer (pins : List Nat) (b : Nat) : Prop := b ∉ pins ∧ NBUF ≤ pins.toFinset.card

instance (pins : List Nat) (b : Nat) : Decidable (NoBuffer pins b) :=
  inferInstanceAs (Decidable (_ ∧ _))

/-- `bread`: the cached buffer, or the disk block, which is then cached. -/
def bread (b : Nat) : LogM Block := do
  let s ← Prog.get
  if NoBuffer s.pins b then Prog.halt .noBuffers
  else match s.cache b with
    | some data => return data
    | none =>
      Prog.modify fun s => { s with cache := Function.update s.cache b (some (s.disk b)) }
      return s.disk b

/-- `memmove` into the buffer of block `b`, then `bwrite`. -/
def bwrite (b : Nat) (data : Block) : LogM Unit :=
  Prog.commit fun s =>
    { s with
      disk := Function.update s.disk b data
      cache := Function.update s.cache b (some data) }

def bpin (b : Nat) : LogM Unit :=
  Prog.modify fun s => { s with pins := b :: s.pins }

def bunpin (b : Nat) : LogM Unit :=
  Prog.modify fun s => { s with pins := s.pins.erase b }

/-! ## The on-disk header -/

/-- `hb->n` of a header block. -/
@[irreducible] def headN (hb : Block) : Int := int32 (get32 hb 0)

/-- `hb->block[i]` of a header block. -/
@[irreducible] def headBlock (hb : Block) (i : Nat) : Nat := get32 hb (4 + 4 * i)

/-- The header block after the assignments of `write_head`. -/
def putHead (lh : LogHeader) (hb : Block) : Block :=
  go lh.n.toNat
where
  /-- `hb` with `hb->n` and the first `i` block numbers stored. -/
  go : Nat → Block
    | 0 => put32 hb 0 (uint32 lh.n)
    | i + 1 => put32 (go i) (4 + 4 * i) (lh.block i)

/-- `read_head`: the on-disk header into `log.lh`. Only the first `n`
block numbers are copied. -/
def readHead : LogM Unit := do
  let buf ← bread log.start
  Prog.modify fun s =>
    { s with lh :=
      { n := headN buf
        block := fun i => if (i : Int) < headN buf then headBlock buf i else s.lh.block i } }

/-- `write_head`: `log.lh` into the on-disk header. With `n > 0` this is
the point at which the current transaction commits. -/
def writeHead : LogM Unit := do
  let buf ← bread log.start
  Prog.commit fun s =>
    { s with
      disk := Function.update s.disk log.start (putHead s.lh buf)
      cache := Function.update s.cache log.start (some (putHead s.lh buf))
      reached := if 0 < s.lh.n then s.current else s.reached }

/-! ## Commit and recovery -/

/-- `install_trans`: copy committed blocks from the log to their home
location. -/
def installTrans (recovering : Bool) : LogM Unit := do
  let s ← Prog.get
  Prog.forTo s.lh.n.toNat fun tail => do
    let lbuf ← bread (log.start + tail + 1)
    let _dbuf ← bread (s.lh.block tail)
    bwrite (s.lh.block tail) lbuf
    if recovering then return () else bunpin (s.lh.block tail)

/-- `log.lh.n = 0`. -/
def clearLh : LogM Unit :=
  Prog.modify fun s => { s with lh := { s.lh with n := 0 } }

def recoverFromLog : LogM Unit := do
  readHead log
  installTrans log true
  clearLh
  writeHead log

/-- `write_log`: copy modified blocks from the cache to the log. -/
def writeLog : LogM Unit := do
  let s ← Prog.get
  Prog.forTo s.lh.n.toNat fun tail => do
    let _to ← bread (log.start + tail + 1)
    let source ← bread (s.lh.block tail)
    bwrite (log.start + tail + 1) source

def commit : LogM Unit := do
  let s ← Prog.get
  if 0 < s.lh.n then
    writeLog log
    writeHead log
    installTrans log false
    clearLh
    writeHead log
  else return ()

/-! ## Operations -/

/-- The value of `i` after `for (i = 0; i < n; i++) if (p(i)) break;`. -/
def firstIndex (p : Nat → Bool) (n : Nat) : Nat := ((List.range n).find? p).getD n

/-- The caller's change of the buffer of block `b` to `data`, then
`log_write`. -/
def logWrite (b : Nat) (data : Block) : LogM Unit := do
  let _ ← bread b
  Prog.modify fun s => { s with cache := Function.update s.cache b (some data) }
  let s ← Prog.get
  if (LOGSIZE : Int) ≤ s.lh.n ∨ (log.size : Int) - 1 ≤ s.lh.n then
    Prog.halt .tooBigATransaction
  else if s.outstanding < 1 then
    Prog.halt .logWriteOutsideOfTrans
  else
    let i := firstIndex (fun i => s.lh.block i == b) s.lh.n.toNat
    Prog.modify fun s => { s with lh := { s.lh with block := Function.update s.lh.block i b } }
    if (i : Int) = s.lh.n then
      bpin b
      Prog.modify fun s => { s with lh := { s.lh with n := s.lh.n + 1 } }
    else return ()

/-- `begin_op` of the only operation that runs: a `sleep` in it has nobody
to wake it up. -/
def beginOp : LogM Unit := do
  let s ← Prog.get
  if s.committing then Prog.halt .asleep
  else if (LOGSIZE : Int) < s.lh.n + (s.outstanding + 1) * MAXOPBLOCKS then
    Prog.halt .asleep
  else Prog.modify fun s => { s with outstanding := s.outstanding + 1 }

/-- `end_op`: commits if this was the last outstanding operation. -/
def endOp : LogM Unit := do
  Prog.modify fun s => { s with outstanding := s.outstanding - 1 }
  let s ← Prog.get
  if s.committing then Prog.halt .logCommitting
  else if s.outstanding = 0 then
    Prog.modify fun s => { s with committing := true }
    commit log
    Prog.modify fun s => { s with committing := false }
  else return ()

/-- One transaction, number `num`: the updates, each a block number with
its new contents, between `begin_op` and `end_op`. -/
def transaction (num : Nat) (updates : List (Nat × Block)) : LogM Unit := do
  Prog.modify fun s => { s with current := num }
  beginOp
  Prog.forEach updates fun u => logWrite log u.1 u.2
  endOp log

/-- Boot, then the transactions in order, numbered from one. -/
def session (txs : List (List (Nat × Block))) : LogM Unit := do
  recoverFromLog log
  Prog.forEach (txs.zipIdx 1) fun tx => transaction log tx.2 tx.1

/-! ## Power loss -/

/-- The machine after the power came back: the disk and nothing else. -/
def reboot (s : Machine) : Machine where
  disk := s.disk
  cache := fun _ => none
  pins := []
  lh := { n := 0, block := fun _ => 0 }
  outstanding := 0
  committing := false
  current := 0
  reached := s.reached

/-- The machine at the first boot from disk `d`. -/
def boot (d : Disk) : Machine :=
  reboot
    { disk := d, cache := fun _ => none, pins := []
      lh := { n := 0, block := fun _ => 0 }, outstanding := 0, committing := false
      current := 0, reached := 0 }

/-- The machine where a run ended, whether it finished, stopped or lost
power. -/
def endState {α : Type} : Outcome Stop Machine α → Machine
  | .done _ s _ => s
  | .halted _ s => s
  | .lost s => s

/-- Run the transactions from disk `d` until the power goes (`power`), then
boot again once for each number in `crashes` and lose power again after
that many disk writes of the recovery. -/
def afterCrashes (d : Disk) (txs : List (List (Nat × Block))) (power : Option Nat)
    (crashes : List Nat) : Machine :=
  crashes.foldl (fun s k => endState ((recoverFromLog log).run (reboot s) (some k)))
    (endState ((session log txs).run (boot d) power))

end Xv6.Log
