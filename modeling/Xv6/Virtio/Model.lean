import Mathlib.Logic.Function.Basic
import Xv6.Lib.Act
import Xv6.Lib.Trans
import Xv6.Params

/-!
# The disk driver

`virtio_disk_rw` and `virtio_disk_intr` of `kernel/virtio_disk.c`, run by any
number of threads, and the device on the other side of the rings.

Each thread has a place in its code, and an event takes one thread or the
device one step on. A step of a thread goes from one point where something
else can look at what it touches to the next: what only changes under
`vdisk_lock`, or in descriptors that are not in the avail ring, changes in one
step, while storing an entry of a ring and moving the index on are two.
`sleep` is cut where it has given up the lock; `kill` wakes a sleeper as
`wakeup` does.

A thread calls the driver as `bread` and `bwrite` of `kernel/bio.c` do, with
the sleep-lock of the buffer held, which `bget` took for it.

The device takes entries out of the avail ring in order, carries out the
requests it has in any order, each by following the chain of descriptors, and
then reports each in the used ring. It may do this at any time.

Ghosts: the requests are numbered in the order in which they entered the avail
ring, and `avails`, `fetched`, `posted` and `seen` are the rings' histories.
A thread that waits remembers its number.
-/

namespace Xv6.Virtio

open Xv6.Lib

/-- Descriptors, and entries of each ring. -/
abbrev NUM : Nat := 8

def VRING_DESC_F_NEXT : UInt16 := 1
def VRING_DESC_F_WRITE : UInt16 := 2
def VIRTIO_BLK_T_IN : UInt32 := 0
def VIRTIO_BLK_T_OUT : UInt32 := 1

/-! ## Memory shared with the device -/

/-- The addresses that the driver puts into descriptors. -/
inductive Addr where
  | null
  /-- `&disk.ops[i]` -/
  | ops (i : Nat)
  /-- `b->data` -/
  | data (b : Nat)
  /-- `&disk.info[i].status` -/
  | status (i : Nat)
  deriving DecidableEq, Repr

structure VirtqDesc where
  addr : Addr := .null
  len : UInt32 := 0
  flags : UInt16 := 0
  next : UInt16 := 0
  deriving DecidableEq, Repr

structure VirtqAvail where
  idx : UInt16 := 0
  ring : Nat → UInt16 := fun _ => 0

structure VirtqUsed where
  idx : UInt16 := 0
  ring : Nat → UInt32 := fun _ => 0

structure VirtioBlkReq where
  type : UInt32 := 0
  reserved : UInt32 := 0
  sector : UInt64 := 0
  deriving DecidableEq, Repr

structure Info where
  b : Option Nat := none
  status : UInt8 := 0
  deriving DecidableEq, Repr

/-- `struct disk`, as `virtio_disk_init` leaves it. -/
structure Disk where
  desc : Nat → VirtqDesc := fun _ => {}
  avail : VirtqAvail := {}
  used : VirtqUsed := {}
  free : Nat → Bool := fun _ => true
  usedIdx : UInt16 := 0
  info : Nat → Info := fun _ => {}
  ops : Nat → VirtioBlkReq := fun _ => {}

/-- The parts of `struct buf` that matter here; `lock` is the holder of the
sleep-lock. -/
structure Buf where
  lock : Option Nat := none
  blockno : UInt32 := 0
  disk : Bool := false
  deriving DecidableEq, Repr

/-! ## Requests -/

/-- What the device reads off a chain. -/
structure Op where
  req : VirtioBlkReq
  data : Addr
  len : UInt32
  /-- The device writes the data. -/
  write : Bool
  /-- The entry of `disk.info` whose status the device writes. -/
  status : Nat
  deriving DecidableEq, Repr

/-- Follow the three descriptors from `head` on. -/
def Disk.op (d : Disk) (head : Nat) : Option Op :=
  let d0 := d.desc head
  let d1 := d.desc d0.next.toNat
  let d2 := d.desc d1.next.toNat
  if d0.flags &&& VRING_DESC_F_NEXT ≠ 0 ∧ d1.flags &&& VRING_DESC_F_NEXT ≠ 0 ∧
      d2.flags &&& VRING_DESC_F_NEXT = 0 ∧ d2.flags &&& VRING_DESC_F_WRITE ≠ 0 then
    match d0.addr, d2.addr with
    | .ops i, .status j =>
      some ⟨d.ops i, d1.addr, d1.len, d1.flags &&& VRING_DESC_F_WRITE ≠ 0, j⟩
    | _, _ => none
  else none

/-- A request that the device has taken; `op` is what it carried out. -/
structure Pending where
  num : Nat
  head : Nat
  op : Option Op := none
  deriving DecidableEq, Repr

structure Device where
  lastAvail : UInt16 := 0
  pending : List Pending := []
  /-- The request whose entry is in the used ring while the index has not
  been moved on. -/
  posting : Option Pending := none

/-! ## Threads -/

/-- The arguments of `virtio_disk_rw`. -/
structure Call where
  b : Nat
  write : Bool
  deriving DecidableEq, Repr

/-- `idx[0]`, `idx[1]` and `idx[2]`. -/
structure Chain where
  head : Nat
  data : Nat
  status : Nat
  deriving DecidableEq, Repr

/-- The channels `&disk.free[0]` and `b`. -/
inductive Chan where
  | free
  | buf (b : Nat)
  deriving DecidableEq, Repr

/-- Where a thread is. -/
inductive Pc where
  | idle
  /-- The thread has the buffer locked and is not in the driver. -/
  | holding (b : Nat)
  /-- `virtio_disk_rw` is about to take `vdisk_lock`. -/
  | enter (c : Call)
  | alloc (c : Call)
  /-- Asleep on `&disk.free[0]`. -/
  | asleepFree (c : Call)
  /-- Woken, about to take `vdisk_lock` at the end of `sleep`. -/
  | wokenFree (c : Call)
  | format (c : Call) (x : Chain)
  /-- About to store the head of the chain in the avail ring. -/
  | publish (c : Call) (x : Chain)
  /-- About to add one to `disk.avail->idx`. -/
  | bump (c : Call) (x : Chain)
  /-- At the test of `while(b->disk == 1)`, for request `n`. -/
  | waiting (c : Call) (x : Chain) (n : Nat)
  | asleep (c : Call) (x : Chain) (n : Nat)
  | woken (c : Call) (x : Chain) (n : Nat)
  /-- After the loop, about to free the chain. -/
  | finish (c : Call) (x : Chain) (n : Nat)
  /-- About to give up `vdisk_lock` and return. -/
  | leave (c : Call) (n : Nat)
  /-- `virtio_disk_intr` is about to take `vdisk_lock`. -/
  | intrEnter
  /-- At the test of `while(disk.used_idx != disk.used->idx)`. -/
  | intrTest
  | intrRead
  /-- The handler has read the entry. -/
  | intrDone (id : Nat)
  | intrLeave
  deriving DecidableEq, Repr

/-- What `wakeup(chan)` makes of a thread. -/
def Pc.wake (chan : Chan) : Pc → Pc
  | .asleepFree c => if chan = .free then .wokenFree c else .asleepFree c
  | .asleep c x n => if chan = .buf c.b then .woken c x n else .asleep c x n
  | pc => pc

/-- What `kill` makes of a thread. -/
def Pc.kill : Pc → Pc
  | .asleepFree c => .wokenFree c
  | .asleep c x n => .woken c x n
  | pc => pc

/-- A request that the device has reported. -/
structure Served where
  num : Nat
  op : Op
  deriving DecidableEq, Repr

structure World where
  /-- The holder of `vdisk_lock`. -/
  lock : Option Nat := none
  disk : Disk := {}
  buf : Nat → Buf := fun _ => {}
  device : Device := {}
  thread : Nat → Pc := fun _ => .idle
  /-- A thread hit a panic, or the device a chain that is no request. -/
  crashed : Bool := false
  /-- The thread and the head of the chain for each entry of the avail ring so
  far. -/
  avails : List (Nat × Nat) := []
  /-- How many of these the device has taken. -/
  fetched : Nat := 0
  /-- The entries of the used ring so far. -/
  posted : List Served := []
  /-- How many of these the interrupt handler has gone through. -/
  seen : Nat := 0

/-! ## The driver -/

inductive Panic where
  | freeDesc1
  | freeDesc2
  deriving DecidableEq, Repr

abbrev DiskM (α : Type) : Type := Act Panic World α

open Act

def wakeup (chan : Chan) : DiskM Unit :=
  modify fun w => { w with thread := fun u => (w.thread u).wake chan }

def onDisk (f : Disk → Disk) : DiskM Unit := modify fun w => { w with disk := f w.disk }

def allocDesc : DiskM (Option Nat) := do
  let w ← get
  match (List.range NUM).find? fun i => w.disk.free i with
  | some i => do
    onDisk fun d => { d with free := Function.update d.free i false }
    pure (some i)
  | none => pure none

def freeDesc (i : Nat) : DiskM Unit := do
  let w ← get
  if NUM ≤ i then panic .freeDesc1
  else if w.disk.free i then panic .freeDesc2
  else do
    onDisk fun d => { d with
      desc := Function.update d.desc i {}, free := Function.update d.free i true }
    wakeup .free

/-- The rounds of `free_chain`. Each frees a descriptor that was not free, so
that there is no round after `NUM` of them. -/
def freeRounds : Nat → Nat → DiskM Unit
  | 0, _ => pure ()
  | rounds + 1, i => do
    let w ← get
    let flag := (w.disk.desc i).flags
    let nxt := (w.disk.desc i).next.toNat
    freeDesc i
    Act.when (flag &&& VRING_DESC_F_NEXT ≠ 0) (freeRounds rounds nxt)

def freeChain (i : Nat) : DiskM Unit := freeRounds (NUM + 1) i

/-- The loop goes over the three descriptors; a failure gives back those
before it. -/
def alloc3Desc : DiskM (Option Chain) := do
  match ← allocDesc with
  | none => pure none
  | some head =>
    match ← allocDesc with
    | none => do
      freeDesc head
      pure none
    | some data =>
      match ← allocDesc with
      | none => do
        freeDesc head
        freeDesc data
        pure none
      | some status => pure (some ⟨head, data, status⟩)

/-- The header of a request for the block. -/
def Call.req (c : Call) (blockno : UInt32) : VirtioBlkReq :=
  { type := if c.write then VIRTIO_BLK_T_OUT else VIRTIO_BLK_T_IN
    reserved := 0
    sector := (blockno * 2).toUInt64 }

def Chain.headDesc (x : Chain) : VirtqDesc :=
  { addr := .ops x.head, len := 16, flags := VRING_DESC_F_NEXT, next := UInt16.ofNat x.data }

def Call.dataDesc (c : Call) (x : Chain) : VirtqDesc :=
  { addr := .data c.b, len := UInt32.ofNat BSIZE
    flags := (if c.write then 0 else VRING_DESC_F_WRITE) ||| VRING_DESC_F_NEXT
    next := UInt16.ofNat x.status }

def Chain.statusDesc (x : Chain) : VirtqDesc :=
  { addr := .status x.head, len := 1, flags := VRING_DESC_F_WRITE, next := 0 }

/-- Fill in the descriptors of a request for the block. -/
def Disk.format (d : Disk) (c : Call) (x : Chain) (blockno : UInt32) : Disk :=
  let desc := Function.update d.desc x.head x.headDesc
  let desc := Function.update desc x.data (c.dataDesc x)
  { d with
    ops := Function.update d.ops x.head (c.req blockno)
    desc := Function.update desc x.status x.statusDesc
    info := Function.update d.info x.head ⟨some c.b, 0xff⟩ }

namespace World

variable (w : World) (t : Nat)

def goto (pc : Pc) : World := { w with thread := Function.update w.thread t pc }

/-- Take `vdisk_lock`, if it is free. -/
def acquire (pc : Pc) : Option World :=
  if w.lock = none then some { w.goto t pc with lock := some t } else none

/-- Give up `vdisk_lock`. -/
def release (pc : Pc) : World := { w.goto t pc with lock := none }

/-- Run a piece of the driver and go on with its result. -/
def exec {α : Type} (m : DiskM α) (next : α → World → World) : World :=
  match m w with
  | .ok (a, w') => next a w'
  | .error _ => { w with crashed := true }

def setBuf (b : Nat) (f : Buf → Buf) : World :=
  { w with buf := Function.update w.buf b (f (w.buf b)) }

/-- `disk.avail->ring[disk.avail->idx % NUM] = idx[0]` -/
def storeAvail (head : Nat) : World :=
  { w with disk := { w.disk with avail := { w.disk.avail with
      ring := Function.update w.disk.avail.ring (w.disk.avail.idx.toNat % NUM)
        (UInt16.ofNat head) } } }

/-- `disk.avail->idx += 1` -/
def bumpAvail (head : Nat) : World :=
  { w with
    disk := { w.disk with avail := { w.disk.avail with idx := w.disk.avail.idx + 1 } }
    avails := w.avails ++ [(t, head)] }

/-- The body of the loop of `virtio_disk_intr`, from the check of the status
on. -/
def complete (id : Nat) : World :=
  if (w.disk.info id).status ≠ 0 then { w with crashed := true }
  else
    match (w.disk.info id).b with
    | none => { w with crashed := true }
    | some b =>
      { w.setBuf b fun buf => { buf with disk := false } with
        thread := Function.update (fun u => (w.thread u).wake (.buf b)) t .intrTest
        disk := { w.disk with usedIdx := w.disk.usedIdx + 1 }
        seen := w.seen + 1 }

/-- One step of a thread that is in the driver. -/
def run : Option World :=
  match w.thread t with
  | .enter c | .wokenFree c => w.acquire t (.alloc c)
  | .alloc c => some <| w.exec alloc3Desc fun r w' =>
    match r with
    | some x => w'.goto t (.format c x)
    | none => w'.release t (.asleepFree c)
  | .format c x =>
    let w' := { w with disk := w.disk.format c x (w.buf c.b).blockno }
    some <| (w'.setBuf c.b fun buf => { buf with disk := true }).goto t (.publish c x)
  | .publish c x => some <| (w.storeAvail x.head).goto t (.bump c x)
  | .bump c x => some <| (w.bumpAvail t x.head).goto t (.waiting c x w.avails.length)
  | .waiting c x n => some <|
    if (w.buf c.b).disk then w.release t (.asleep c x n) else w.goto t (.finish c x n)
  | .woken c x n => w.acquire t (.waiting c x n)
  | .finish c x n =>
    let clear := onDisk fun d => { d with
      info := Function.update d.info x.head { d.info x.head with b := none } }
    some <| w.exec (do clear; freeChain x.head) fun _ w' => w'.goto t (.leave c n)
  | .leave c _ => some <| w.release t (.holding c.b)
  | .intrEnter => w.acquire t .intrTest
  | .intrTest => some <|
    w.goto t (if w.disk.usedIdx ≠ w.disk.used.idx then .intrRead else .intrLeave)
  | .intrRead => some <|
    w.goto t (.intrDone (w.disk.used.ring (w.disk.usedIdx.toNat % NUM)).toNat)
  | .intrDone id => some <| w.complete t id
  | .intrLeave => some <| w.release t .idle
  | _ => none

end World

/-! ## The device -/

namespace World

variable (w : World)

/-- Take the next entry of the avail ring. -/
def fetch : Option World :=
  if w.device.lastAvail ≠ w.disk.avail.idx then
    let p : Pending :=
      { num := w.fetched, head := (w.disk.avail.ring (w.device.lastAvail.toNat % NUM)).toNat }
    some { w with
      device := { w.device with
        lastAvail := w.device.lastAvail + 1, pending := w.device.pending ++ [p] }
      fetched := w.fetched + 1 }
  else none

/-- Carry out a request and write its status. -/
def serve (i : Nat) : Option World :=
  match w.device.pending[i]? with
  | some ⟨num, head, none⟩ =>
    match w.disk.op head with
    | none => some { w with crashed := true }
    | some op =>
      let info := { w.disk.info op.status with status := 0 }
      some { w with
        disk := { w.disk with info := Function.update w.disk.info op.status info }
        device := { w.device with pending := w.device.pending.set i ⟨num, head, some op⟩ } }
  | _ => none

/-- Store the head of a request that is done in the used ring. -/
def post (i : Nat) : Option World :=
  match w.device.pending[i]?, w.device.posting with
  | some p, none =>
    if p.op.isSome then
      some { w with
        disk := { w.disk with used := { w.disk.used with
          ring := Function.update w.disk.used.ring (w.disk.used.idx.toNat % NUM)
            (UInt32.ofNat p.head) } }
        device := { w.device with pending := w.device.pending.eraseIdx i, posting := some p } }
    else none
  | _, _ => none

/-- Move the index of the used ring on. -/
def bumpUsed : Option World :=
  match w.device.posting with
  | some ⟨num, _, some op⟩ => some { w with
      disk := { w.disk with used := { w.disk.used with idx := w.disk.used.idx + 1 } }
      device := { w.device with posting := none }
      posted := w.posted ++ [⟨num, op⟩] }
  | _ => none

end World

/-! ## Runs -/

inductive Event where
  /-- `bget` gives the thread a buffer, for some block. -/
  | lockBuf (t b : Nat) (blockno : UInt32)
  | unlockBuf (t : Nat)
  /-- The thread calls `virtio_disk_rw` on its buffer. -/
  | call (t : Nat) (write : Bool)
  /-- An interrupt runs `virtio_disk_intr`. -/
  | interrupt (t : Nat)
  | run (t : Nat)
  | kill (t : Nat)
  | fetch
  | serve (i : Nat)
  | post (i : Nat)
  | bumpUsed
  deriving DecidableEq, Repr

namespace World

/-- The state after an event, if it can happen. -/
def next (e : Event) (w : World) : Option World :=
  if w.crashed then none
  else
    match e with
    | .lockBuf t b blockno =>
      if w.thread t = .idle ∧ (w.buf b).lock = none then
        some ((w.setBuf b fun buf => { buf with lock := some t, blockno := blockno }).goto t (.holding b))
      else none
    | .unlockBuf t =>
      match w.thread t with
      | .holding b => some ((w.setBuf b fun buf => { buf with lock := none }).goto t .idle)
      | _ => none
    | .call t write =>
      match w.thread t with
      | .holding b => some (w.goto t (.enter ⟨b, write⟩))
      | _ => none
    | .interrupt t => if w.thread t = .idle then some (w.goto t .intrEnter) else none
    | .run t => w.run t
    | .kill t => some (w.goto t (w.thread t).kill)
    | .fetch => w.fetch
    | .serve i => w.serve i
    | .post i => w.post i
    | .bumpUsed => w.bumpUsed

/-- The state after `virtio_disk_init`. -/
def start : World := {}

end World

end Xv6.Virtio
