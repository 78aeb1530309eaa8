import Xv6.Virtio.Model

/-!
# Chains of descriptors

What a thread has in its place: the lock, a buffer, a chain of descriptors, a
request it waits for. Then what the functions of the driver do that take
descriptors and give them back. They run under the lock, and apart from
waking threads they change only which descriptors are free, and the content of
descriptors that they free.
-/

namespace Xv6.Virtio

open Xv6.Lib Function
open Act

variable {pc : Pc} {x : Chain} {w : World}

/-! ## What a thread has -/

namespace Pc

/-- The thread has `vdisk_lock`. -/
def locked : Pc → Bool
  | .alloc _ | .format _ _ | .publish _ _ | .bump _ _ | .waiting _ _ _ | .finish _ _ _
  | .leave _ _ | .intrTest | .intrRead | .intrDone _ | .intrLeave => true
  | _ => false

/-- The buffer whose sleep-lock the thread has. -/
def buf : Pc → Option Nat
  | .holding b => some b
  | .enter c | .alloc c | .asleepFree c | .wokenFree c | .format c _ | .publish c _ | .bump c _
  | .waiting c _ _ | .asleep c _ _ | .woken c _ _ | .finish c _ _ | .leave c _ => some c.b
  | _ => none

/-- The descriptors that the thread has. -/
def chain : Pc → Option Chain
  | .format _ x | .publish _ x | .bump _ x | .waiting _ x _ | .asleep _ x _ | .woken _ x _
  | .finish _ x _ => some x
  | _ => none

/-- The request that the thread waits for. -/
def waits : Pc → Option (Call × Chain × Nat)
  | .waiting c x n | .asleep c x n | .woken c x n => some (c, x, n)
  | _ => none

/-- The thread is in a call of `virtio_disk_rw`. -/
def inCall : Pc → Bool
  | .idle | .holding _ | .intrEnter | .intrTest | .intrRead | .intrDone _ | .intrLeave => false
  | _ => true

theorem chain_of_waits {c : Call} {n : Nat} (h : pc.waits = some (c, x, n)) :
    pc.chain = some x := by
  cases pc <;> simp_all [waits, chain]

theorem buf_of_waits {c : Call} {n : Nat} (h : pc.waits = some (c, x, n)) : pc.buf = some c.b := by
  cases pc <;> simp_all [waits, buf]

theorem inCall_of_chain (h : pc.chain = some x) : pc.inCall = true := by
  cases pc <;> simp_all [inCall, chain]

/-- Places that differ only in whether the thread sleeps. -/
structure Same (pc pc' : Pc) : Prop where
  locked : pc'.locked = pc.locked
  buf : pc'.buf = pc.buf
  chain : pc'.chain = pc.chain
  waits : pc'.waits = pc.waits

/-- What `wakeup` and `kill` do to a thread. -/
inductive Woken : Pc → Pc → Prop where
  | same (pc : Pc) : Woken pc pc
  | free (c : Call) : Woken (.asleepFree c) (.wokenFree c)
  | buf (c : Call) (x : Chain) (n : Nat) : Woken (.asleep c x n) (.woken c x n)

theorem Woken.toSame {pc' : Pc} (h : Woken pc pc') : pc.Same pc' := by
  cases h <;> exact ⟨rfl, rfl, rfl, rfl⟩

theorem Woken.trans {pc' pc'' : Pc} (h : Woken pc pc') (h' : Woken pc' pc'') : Woken pc pc'' := by
  cases h with
  | same => exact h'
  | free c =>
    cases h'
    exact .free c
  | buf c x n =>
    cases h'
    exact .buf c x n

theorem woken_wake (chan : Chan) (pc : Pc) : Woken pc (pc.wake chan) := by
  cases pc <;> simp only [wake]
  case asleepFree c => split; exacts [.free c, .same _]
  case asleep c x n => split; exacts [.buf c x n, .same _]
  all_goals exact .same _

theorem woken_kill (pc : Pc) : Woken pc pc.kill := by
  cases pc
  case asleepFree c => exact .free c
  case asleep c x n => exact .buf c x n
  all_goals exact .same _

end Pc

/-- The descriptors of a chain. -/
def Chain.list (x : Chain) : List Nat := [x.head, x.data, x.status]

/-- Three different descriptors. -/
structure Chain.Ok (x : Chain) : Prop where
  nodup : x.list.Nodup
  bound : ∀ i ∈ x.list, i < NUM

theorem Chain.head_mem (x : Chain) : x.head ∈ x.list := List.mem_cons_self

/-! ## Taking and freeing descriptors -/

/-- Only the descriptors changed, and threads may have been woken. -/
structure Touched (w w' : World) : Prop where
  rest : ∃ free desc thread, w' =
    { w with disk := { w.disk with free := free, desc := desc }, thread := thread }
  woken : ∀ u, (w.thread u).Woken (w'.thread u)

theorem Touched.refl (w : World) : Touched w w := ⟨⟨_, _, _, rfl⟩, fun _ => .same _⟩

theorem Touched.trans {w' w'' : World} (h : Touched w w') (h' : Touched w' w'') :
    Touched w w'' := by
  refine ⟨?_, fun u => (h.woken u).trans (h'.woken u)⟩
  obtain ⟨_, _, _, rfl⟩ := h.rest
  obtain ⟨_, _, _, rfl⟩ := h'.rest
  exact ⟨_, _, _, rfl⟩

theorem Touched.chain {w' : World} (h : Touched w w') (u : Nat) :
    (w'.thread u).chain = (w.thread u).chain :=
  (h.woken u).toSame.chain

section descriptors

variable {i : Nat}

theorem wp_allocDesc {Q : Option Nat → World → Prop}
    (hnone : Q none w) (hsome : ∀ i w', i < NUM → w.disk.free i = true → Touched w w' →
      w'.disk.free = update w.disk.free i false → w'.disk.desc = w.disk.desc → Q (some i) w') :
    wp allocDesc Q (fun _ => False) w := by
  unfold allocDesc
  rw [wp_bind, wp_get]
  split
  · rename_i i hfind
    unfold onDisk
    rw [wp_bind, wp_modify, wp_pure]
    exact hsome i _ (List.mem_range.mp (List.mem_of_find?_eq_some hfind))
      (List.find?_some hfind) ⟨⟨_, _, _, rfl⟩, fun _ => .same _⟩ rfl rfl
  · exact wp_pure.mpr hnone

theorem wp_freeDesc {Q : Unit → World → Prop} (hi : i < NUM) (hfree : w.disk.free i = false)
    (hQ : ∀ w', Touched w w' → w'.disk.free = update w.disk.free i true →
      w'.disk.desc = update w.disk.desc i {} → Q () w') : wp (freeDesc i) Q (fun _ => False) w := by
  unfold freeDesc
  rw [wp_bind, wp_get]
  refine wp_ite (fun h => absurd hi (Nat.not_lt.mpr h)) fun _ => ?_
  refine wp_ite (fun h => absurd (hfree.symm.trans h) (by decide)) fun _ => ?_
  unfold onDisk wakeup
  rw [wp_bind, wp_modify, wp_modify]
  exact hQ _ ⟨⟨_, _, _, rfl⟩, fun u => Pc.woken_wake _ _⟩ rfl rfl

/-- Taking a free descriptor and giving it back changes nothing. -/
theorem update_free_back {free free' : Nat → Bool} (h : free i = true)
    (hf : free' = update free i false) : update free' i true = free := by
  rw [hf, update_idem, ← h, update_eq_self]

/-- `alloc3_desc` takes a chain of free descriptors, or leaves the same ones
free and the others as they are. -/
theorem wp_alloc3Desc
    {Q : Option Chain → World → Prop} (hnone : ∀ w', Touched w w' → w'.disk.free = w.disk.free →
      (∀ i, w.disk.free i = false → w'.disk.desc i = w.disk.desc i) → Q none w')
    (hsome : ∀ x w', Touched w w' → x.Ok → (∀ i ∈ x.list, w.disk.free i = true) →
      (∀ i, w'.disk.free i = if i ∈ x.list then false else w.disk.free i) →
      w'.disk.desc = w.disk.desc → Q (some x) w') : wp alloc3Desc Q (fun _ => False) w := by
  unfold alloc3Desc
  rw [wp_bind]
  refine wp_allocDesc (wp_pure.mpr (hnone w (.refl w) rfl fun _ _ => rfl)) ?_
  intro head w1 hhead hfree1 ht1 hf1 hd1
  simp only
  rw [wp_bind]
  have hbusy : ∀ i, w.disk.free i = false → i ≠ head := by
    rintro i hi rfl
    exact absurd (hi.symm.trans hfree1) (by decide)
  refine wp_allocDesc ?_ ?_
  · rw [wp_bind]
    refine wp_freeDesc hhead (by rw [hf1, update_self]) fun w2 ht2 hf2 hd2 => ?_
    refine wp_pure.mpr (hnone w2 (ht1.trans ht2) (hf2.trans (update_free_back hfree1 hf1)) fun i hi => ?_)
    rw [hd2, hd1, update_of_ne (hbusy i hi)]
  intro data w2 hdata hfree2 ht2 hf2 hd2
  have hne : data ≠ head := by
    rintro rfl
    rw [hf1, update_self] at hfree2
    cases hfree2
  have hfree2' : w.disk.free data = true := by
    rwa [hf1, update_of_ne hne] at hfree2
  have hbusy2 : ∀ i, w.disk.free i = false → i ≠ data := by
    rintro i hi rfl
    exact absurd (hi.symm.trans hfree2') (by decide)
  simp only
  rw [wp_bind]
  refine wp_allocDesc ?_ ?_
  · rw [wp_bind]
    have hhead2 : w2.disk.free head = false := by
      rw [hf2, update_of_ne hne.symm, hf1, update_self]
    refine wp_freeDesc hhead hhead2 fun w3 ht3 hf3 hd3 => ?_
    rw [wp_bind]
    have hdata3 : w3.disk.free data = false := by
      rw [hf3, update_of_ne hne, hf2, update_self]
    refine wp_freeDesc hdata hdata3 fun w4 ht4 hf4 hd4 => ?_
    refine wp_pure.mpr (hnone w4 ((ht1.trans ht2).trans (ht3.trans ht4)) ?_ fun i hi => ?_)
    · rw [hf4, hf3, update_comm hne.symm, update_free_back hfree2 hf2,
        update_free_back hfree1 hf1]
    · rw [hd4, update_of_ne (hbusy2 i hi), hd3, update_of_ne (hbusy i hi), hd2, hd1]
  intro status w3 hstatus hfree3 ht3 hf3 hd3
  have hne1 : status ≠ data := by
    rintro rfl
    rw [hf2, update_self] at hfree3
    cases hfree3
  have hne2 : status ≠ head := by
    rintro rfl
    rw [hf2, update_of_ne hne1, hf1, update_self] at hfree3
    cases hfree3
  have hfree3' : w.disk.free status = true := by
    rwa [hf2, update_of_ne hne1, hf1, update_of_ne hne2] at hfree3
  refine wp_pure.mpr (hsome _ w3 ((ht1.trans ht2).trans ht3) ⟨?_, ?_⟩ ?_ (fun i => ?_)
    (hd3.trans (hd2.trans hd1)))
  · simp [Chain.list, hne.symm, hne1.symm, hne2.symm]
  · simp [Chain.list, hhead, hdata, hstatus]
  · simp [Chain.list, hfree1, hfree2', hfree3']
  · simp only [hf3, hf2, hf1, update_apply, Chain.list, List.mem_cons, List.not_mem_nil,
      or_false]
    split_ifs <;> simp_all

end descriptors

/-! ## Chains that are filled in -/

/-- The request of a call, as the device should see it. -/
def Call.op (c : Call) (blockno : UInt32) (head : Nat) : Op :=
  { req := c.req blockno, data := .data c.b, len := UInt32.ofNat BSIZE, write := !c.write
    status := head }

/-- The descriptors are linked to a chain. -/
structure Disk.Linked (d : Disk) (c : Call) (x : Chain) : Prop where
  head : d.desc x.head = x.headDesc
  data : d.desc x.data = c.dataDesc x
  status : d.desc x.status = x.statusDesc

/-- The chain is a request for the block. -/
structure Disk.Formatted (d : Disk) (c : Call) (x : Chain) (blockno : UInt32) : Prop
    extends d.Linked c x where
  ops : d.ops x.head = c.req blockno
  info : (d.info x.head).b = some c.b

section formatted

variable {d d' : Disk} {c : Call} {blockno : UInt32}

theorem Chain.Ok.ne (h : x.Ok) : x.head ≠ x.data ∧ x.head ≠ x.status ∧ x.data ≠ x.status := by
  have hnodup := h.nodup
  simp only [Chain.list, List.nodup_cons, List.mem_cons, List.not_mem_nil, or_false,
    not_or] at hnodup
  exact ⟨hnodup.1.1, hnodup.1.2, hnodup.2.1⟩

theorem Chain.Ok.toNat (h : x.Ok) {i : Nat} (hi : i ∈ x.list) : (UInt16.ofNat i).toNat = i := by
  have hbound := h.bound i hi
  rw [UInt16.toNat_ofNat']
  exact Nat.mod_eq_of_lt (Nat.lt_trans hbound (by decide))

theorem Disk.formatted_format (h : x.Ok) : (d.format c x blockno).Formatted c x blockno := by
  obtain ⟨h1, h2, h3⟩ := h.ne
  refine ⟨⟨?_, ?_, ?_⟩, ?_, ?_⟩
  · simp only [Disk.format, update_of_ne h2, update_of_ne h1,
      update_self]
  · simp only [Disk.format, update_of_ne h3, update_self]
  · simp only [Disk.format, update_self]
  · simp only [Disk.format, update_self]
  · simp only [Disk.format, update_self]

theorem Disk.Formatted.congr (h : d.Formatted c x blockno)
    (hdesc : ∀ i ∈ x.list, d'.desc i = d.desc i) (hops : d'.ops x.head = d.ops x.head)
    (hinfo : (d'.info x.head).b = (d.info x.head).b) : d'.Formatted c x blockno where
  head := (hdesc _ (by simp [Chain.list])).trans h.head
  data := (hdesc _ (by simp [Chain.list])).trans h.data
  status := (hdesc _ (by simp [Chain.list])).trans h.status
  ops := hops.trans h.ops
  info := hinfo.trans h.info

theorem headDesc_next (x : Chain) : x.headDesc.flags &&& VRING_DESC_F_NEXT ≠ 0 := by
  show VRING_DESC_F_NEXT &&& VRING_DESC_F_NEXT ≠ 0
  decide

theorem dataDesc_next (c : Call) (x : Chain) : (c.dataDesc x).flags &&& VRING_DESC_F_NEXT ≠ 0 := by
  obtain ⟨b, write⟩ := c
  show ((if write then 0 else VRING_DESC_F_WRITE) ||| VRING_DESC_F_NEXT) &&& VRING_DESC_F_NEXT ≠ 0
  cases write <;> decide

theorem dataDesc_write (c : Call) (x : Chain) :
    decide ((c.dataDesc x).flags &&& VRING_DESC_F_WRITE ≠ 0) = !c.write := by
  obtain ⟨b, write⟩ := c
  show decide (((if write then 0 else VRING_DESC_F_WRITE) ||| VRING_DESC_F_NEXT) &&&
    VRING_DESC_F_WRITE ≠ 0) = !write
  cases write <;> decide

theorem statusDesc_flags (x : Chain) : x.statusDesc.flags &&& VRING_DESC_F_NEXT = 0 ∧
    x.statusDesc.flags &&& VRING_DESC_F_WRITE ≠ 0 := by
  show VRING_DESC_F_WRITE &&& VRING_DESC_F_NEXT = 0 ∧ VRING_DESC_F_WRITE &&& VRING_DESC_F_WRITE ≠ 0
  decide

/-- The device reads the request of the call off its chain. -/
theorem Disk.Formatted.op (h : d.Formatted c x blockno) (hx : x.Ok) :
    d.op x.head = some (c.op blockno x.head) := by
  have hdata : x.headDesc.next.toNat = x.data := hx.toNat (by simp [Chain.list])
  have hstatus : (c.dataDesc x).next.toNat = x.status := hx.toNat (by simp [Chain.list])
  unfold Disk.op
  simp only [h.head, hdata, h.data, hstatus, h.status]
  rw [if_pos ⟨headDesc_next x, dataDesc_next c x, statusDesc_flags x⟩, dataDesc_write]
  simp only [Chain.headDesc, Chain.statusDesc, h.ops]
  rfl

/-- `free_chain` frees the three descriptors. -/
theorem wp_freeChain {Q : Unit → World → Prop} (hx : x.Ok) (hf : w.disk.Linked c x)
    (hbusy : ∀ i ∈ x.list, w.disk.free i = false) (hQ : ∀ w', Touched w w' →
      (∀ i, w'.disk.free i = if i ∈ x.list then true else w.disk.free i) →
      (∀ i ∉ x.list, w'.disk.desc i = w.disk.desc i) → Q () w') :
    wp (freeChain x.head) Q (fun _ => False) w := by
  obtain ⟨h1, h2, h3⟩ := hx.ne
  have hhead := hx.bound x.head (by simp [Chain.list])
  have hdata := hx.bound x.data (by simp [Chain.list])
  have hstatus := hx.bound x.status (by simp [Chain.list])
  unfold freeChain freeRounds
  rw [wp_bind, wp_get, wp_bind]
  refine wp_freeDesc hhead (hbusy _ (by simp [Chain.list])) fun w1 ht1 hf1 hd1 => ?_
  refine wp_when (fun _ => ?_) fun hno => absurd (hf.head ▸ headDesc_next x) hno
  rw [hf.head, show x.headDesc.next.toNat = x.data from hx.toNat (by simp [Chain.list])]
  have hdesc1 : w1.disk.desc x.data = c.dataDesc x := by
    rw [hd1, update_of_ne h1.symm, hf.data]
  unfold freeRounds
  rw [wp_bind, wp_get, wp_bind]
  have hfree1 : w1.disk.free x.data = false := by
    rw [hf1, update_of_ne h1.symm]
    exact hbusy _ (by simp [Chain.list])
  refine wp_freeDesc hdata hfree1 fun w2 ht2 hf2 hd2 => ?_
  refine wp_when (fun _ => ?_) fun hno => absurd (hdesc1 ▸ dataDesc_next c x) hno
  rw [hdesc1, show (c.dataDesc x).next.toNat = x.status from hx.toNat (by simp [Chain.list])]
  have hdesc2 : w2.disk.desc x.status = x.statusDesc := by
    rw [hd2, update_of_ne h3.symm, hd1, update_of_ne h2.symm, hf.status]
  unfold freeRounds
  rw [wp_bind, wp_get, wp_bind]
  have hfree2 : w2.disk.free x.status = false := by
    rw [hf2, update_of_ne h3.symm, hf1, update_of_ne h2.symm]
    exact hbusy _ (by simp [Chain.list])
  refine wp_freeDesc hstatus hfree2 fun w3 ht3 hf3 hd3 => ?_
  refine wp_when (fun hyes => absurd (hdesc2 ▸ (statusDesc_flags x).1) hyes) fun _ => ?_
  refine hQ w3 ((ht1.trans ht2).trans ht3) (fun i => ?_) fun i hi => ?_
  · simp only [hf3, hf2, hf1, update_apply, Chain.list, List.mem_cons,
      List.not_mem_nil, or_false]
    split_ifs <;> simp_all
  · simp only [Chain.list, List.mem_cons, List.not_mem_nil, or_false, not_or] at hi
    rw [hd3, update_of_ne hi.2.2, hd2, update_of_ne hi.2.1, hd1,
      update_of_ne hi.1]

end formatted

end Xv6.Virtio
