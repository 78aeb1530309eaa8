import Mathlib.Data.List.Nodup
import Mathlib.Data.List.Perm.Subperm
import Xv6.Virtio.Requests

/-!
# What holds in every state of the driver

`World.Ok` ties threads, descriptors and requests together: who holds which
descriptors, which thread waits for a live request, and what each thread knows
in its place. Every event keeps it.

Most steps of a thread leave the rings alone and change nothing that another
thread relies on. `Ok.step` treats these at once; what is left to show is
about the thread that takes the step. The steps that move a request on are
treated one by one.
-/

namespace Xv6.Virtio

open Xv6.Lib Function
open Act

variable {c : Call} {x : Chain} {n : Nat} {pc pc₀ : Pc}

namespace World

/-! ## The invariant -/

/-- The locks are held where the threads rely on them. -/
structure Locks (w : World) : Prop where
  lock : ∀ t, (w.thread t).locked = true → w.lock = some t
  buf : ∀ t b, (w.thread t).buf = some b → (w.buf b).lock = some t

/-- The descriptors that are not free are those in the threads' chains, each
in one. -/
structure Owners (w : World) : Prop where
  ok : ∀ t x, (w.thread t).chain = some x → x.Ok
  busy : ∀ t x i, (w.thread t).chain = some x → i ∈ x.list → w.disk.free i = false
  apart : ∀ t u x y i, (w.thread t).chain = some x → (w.thread u).chain = some y →
    i ∈ x.list → i ∈ y.list → t = u
  used : ∀ i, i < NUM → w.disk.free i = false → ∃ t x, (w.thread t).chain = some x ∧ i ∈ x.list

/-- The device has reported request `n`, which thread `t` made for the call. -/
def Done (w : World) (t : Nat) (c : Call) (n : Nat) : Prop :=
  ∃ head, w.avails[n]? = some (t, head) ∧ ⟨n, c.op (w.buf c.b).blockno head⟩ ∈ w.posted

/-- What thread `t` knows in its place. -/
def ThreadOk (w : World) (t : Nat) : Pc → Prop
  | .publish c x => w.disk.Formatted c x (w.buf c.b).blockno ∧ (w.buf c.b).disk = true
  | .bump c x => w.disk.Formatted c x (w.buf c.b).blockno ∧ (w.buf c.b).disk = true ∧
    w.disk.avail.ring (w.avails.length % NUM) = UInt16.ofNat x.head
  | .waiting c x n | .asleep c x n | .woken c x n =>
    w.disk.Formatted c x (w.buf c.b).blockno ∧ w.avails[n]? = some (t, x.head) ∧
      (n ∈ w.live ∧ (w.buf c.b).disk = true ∨ n ∉ w.live ∧ w.Done t c n)
  | .finish c x n => w.disk.Formatted c x (w.buf c.b).blockno ∧ w.Done t c n
  | .leave c n => w.Done t c n
  | .intrRead => w.seen < w.posted.length
  | .intrDone id => ∃ s u, w.posted[w.seen]? = some s ∧ w.avails[s.num]? = some (u, id)
  | _ => True

structure Ok (w : World) : Prop where
  sane : w.crashed = false
  locks : w.Locks
  owners : w.Owners
  rings : w.Rings
  waits : ∀ n ∈ w.live, ∃ t c x, (w.thread t).waits = some (c, x, n)
  carried : ∀ n op t c x, w.Carried n op → (w.thread t).waits = some (c, x, n) →
    op = c.op (w.buf c.b).blockno x.head ∧ (w.disk.info x.head).status = 0
  thread : ∀ t, w.ThreadOk t (w.thread t)

variable {w w' : World} {t u : Nat}

theorem ThreadOk.waits (h : w.ThreadOk t (w.thread t))
    (hwaits : (w.thread t).waits = some (c, x, n)) :
    w.disk.Formatted c x (w.buf c.b).blockno ∧ w.avails[n]? = some (t, x.head) ∧
      (n ∈ w.live ∧ (w.buf c.b).disk = true ∨ n ∉ w.live ∧ w.Done t c n) := by
  cases hpc : w.thread t <;> rw [hpc] at h hwaits <;> simp only [Pc.waits] at hwaits
  all_goals first
    | (cases hwaits; exact h)
    | cases hwaits

theorem threadOk_of_waits (hwaits : pc.waits = some (c, x, n))
    (hf : w.disk.Formatted c x (w.buf c.b).blockno) (he : w.avails[n]? = some (t, x.head))
    (hstate : n ∈ w.live ∧ (w.buf c.b).disk = true ∨ n ∉ w.live ∧ w.Done t c n) :
    w.ThreadOk t pc := by
  cases pc <;> simp only [Pc.waits] at hwaits
  all_goals first
    | (cases hwaits; exact ⟨hf, he, hstate⟩)
    | cases hwaits

theorem ThreadOk.woken {pc' : Pc} (h : w.ThreadOk t pc) (hw : pc.Woken pc') : w.ThreadOk t pc' := by
  cases hw with
  | same => exact h
  | free => trivial
  | buf => exact h

/-! ## Room in the rings -/

theorem Ok.of_live (h : w.Ok) (hn : n ∈ w.live) :
    ∃ t c x, (w.thread t).waits = some (c, x, n) ∧ (w.thread t).chain = some x ∧
      w.avails[n]? = some (t, x.head) := by
  obtain ⟨t, c, x, hwaits⟩ := h.waits n hn
  exact ⟨t, c, x, hwaits, Pc.chain_of_waits hwaits, ((h.thread t).waits hwaits).2.1⟩

/-- The head of the chain of request `n`. -/
def headOf (w : World) (n : Nat) : Nat := (w.avails[n]?.getD (0, 0)).2

theorem headOf_eq {head : Nat} (h : w.avails[n]? = some (t, head)) : w.headOf n = head := by
  unfold headOf
  rw [h, Option.getD_some]

theorem Ok.heads (h : w.Ok) : (w.live.map w.headOf).Nodup ∧ ∀ i ∈ w.live.map w.headOf, i < NUM := by
  constructor
  · refine List.Nodup.map_on (fun n hn m hm heq => ?_) h.rings.nodup
    obtain ⟨t, c, x, hwaits, hchain, he⟩ := h.of_live hn
    obtain ⟨u, c', y, hwaits', hchain', he'⟩ := h.of_live hm
    rw [headOf_eq he, headOf_eq he'] at heq
    have htu := h.owners.apart t u x y x.head hchain hchain' x.head_mem (heq ▸ y.head_mem)
    subst htu
    rw [hwaits] at hwaits'
    exact congrArg (·.2.2) (Option.some.inj hwaits')
  · intro i hi
    obtain ⟨n, hn, rfl⟩ := List.mem_map.mp hi
    obtain ⟨t, c, x, -, -, he⟩ := h.of_live hn
    rw [headOf_eq he]
    exact h.rings.bound _ (List.mem_of_getElem? he)

theorem length_le_num {l : List Nat} (hnodup : l.Nodup) (hbound : ∀ i ∈ l, i < NUM) :
    l.length ≤ NUM := by
  have hsub := List.subperm_of_subset hnodup fun i hi => List.mem_range.mpr (hbound i hi)
  have hle := hsub.length_le
  rwa [List.length_range] at hle

theorem Ok.room (h : w.Ok) : w.live.length ≤ NUM := by
  obtain ⟨hnodup, hbound⟩ := h.heads
  have hle := length_le_num hnodup hbound
  rwa [List.length_map] at hle

/-- A thread with a chain that is not in the rings yet finds room for it. -/
theorem Ok.room_lt (h : w.Ok) (hchain : (w.thread t).chain = some x)
    (hwaits : (w.thread t).waits = none) : w.live.length < NUM := by
  obtain ⟨hnodup, hbound⟩ := h.heads
  have hfresh : x.head ∉ w.live.map w.headOf := by
    intro hmem
    obtain ⟨n, hn, heq⟩ := List.mem_map.mp hmem
    obtain ⟨u, c, y, hwaits', hchain', he⟩ := h.of_live hn
    rw [headOf_eq he] at heq
    have htu := h.owners.apart t u x y x.head hchain hchain' x.head_mem (heq ▸ y.head_mem)
    subst htu
    rw [hwaits] at hwaits'
    cases hwaits'
  have hle := length_le_num (List.nodup_cons.mpr ⟨hfresh, hnodup⟩) fun i hi => by
    rcases List.mem_cons.mp hi with rfl | hi
    · exact (h.owners.ok t x hchain).bound _ x.head_mem
    · exact hbound i hi
  rwa [List.length_cons, List.length_map] at hle

/-! ## What other threads rely on -/

/-- Nothing changed that thread `u` relies on. -/
structure Frame (w w' : World) (u : Nat) : Prop where
  chain : ∀ x, (w.thread u).chain = some x → ∀ i ∈ x.list, w'.disk.desc i = w.disk.desc i ∧
    w'.disk.ops i = w.disk.ops i ∧ (w'.disk.info i).b = (w.disk.info i).b
  buf : ∀ b, (w.thread u).buf = some b →
    (w'.buf b).blockno = (w.buf b).blockno ∧ (w'.buf b).disk = (w.buf b).disk
  avails : w.avails <+: w'.avails
  posted : w.posted <+: w'.posted
  live : ∀ c x n, (w.thread u).waits = some (c, x, n) → (n ∈ w'.live ↔ n ∈ w.live)
  locked : (w.thread u).locked = true → w'.avails = w.avails ∧
    w'.disk.avail = w.disk.avail ∧ w'.seen = w.seen

theorem getElem?_grown {α : Type} {l l' : List α} {a : α} (h : l <+: l') (ha : l[n]? = some a) :
    l'[n]? = some a := by
  obtain ⟨r, rfl⟩ := h
  exact getElem?_append_of_some ha

theorem Frame.formatted (f : Frame w w' u) (hchain : (w.thread u).chain = some x)
    (hbuf : (w.thread u).buf = some c.b) (h : w.disk.Formatted c x (w.buf c.b).blockno) :
    w'.disk.Formatted c x (w'.buf c.b).blockno := by
  rw [(f.buf _ hbuf).1]
  exact h.congr (fun i hi => (f.chain x hchain i hi).1) (f.chain x hchain _ x.head_mem).2.1
    (f.chain x hchain _ x.head_mem).2.2

theorem Frame.done (f : Frame w w' u) (hbuf : (w.thread u).buf = some c.b) (h : w.Done u c n) :
    w'.Done u c n := by
  obtain ⟨head, he, hposted⟩ := h
  refine ⟨head, getElem?_grown f.avails he, ?_⟩
  rw [(f.buf _ hbuf).1]
  exact f.posted.subset hposted

theorem ThreadOk.frame (h : w.ThreadOk u (w.thread u)) (f : Frame w w' u) :
    w'.ThreadOk u (w.thread u) := by
  have hwaits : ∀ c x n, (w.thread u).waits = some (c, x, n) →
      w'.disk.Formatted c x (w'.buf c.b).blockno ∧ w'.avails[n]? = some (u, x.head) ∧
        (n ∈ w'.live ∧ (w'.buf c.b).disk = true ∨ n ∉ w'.live ∧ w'.Done u c n) := by
    intro c x n hpc
    obtain ⟨hf, he, hstate⟩ := h.waits hpc
    refine ⟨f.formatted (Pc.chain_of_waits hpc) (Pc.buf_of_waits hpc) hf,
      getElem?_grown f.avails he, ?_⟩
    rw [f.live c x n hpc, (f.buf _ (Pc.buf_of_waits hpc)).2]
    exact hstate.imp_right fun hdone => ⟨hdone.1, f.done (Pc.buf_of_waits hpc) hdone.2⟩
  cases hpc : w.thread u with
  | publish c x =>
    rw [hpc] at h
    refine ⟨f.formatted (by rw [hpc]; rfl) (by rw [hpc]; rfl) h.1, ?_⟩
    rw [(f.buf c.b (by rw [hpc]; rfl)).2]
    exact h.2
  | bump c x =>
    rw [hpc] at h
    obtain ⟨havails, havail, -⟩ := f.locked (by rw [hpc]; rfl)
    refine ⟨f.formatted (by rw [hpc]; rfl) (by rw [hpc]; rfl) h.1, ?_⟩
    rw [(f.buf c.b (by rw [hpc]; rfl)).2, havails, havail]
    exact h.2
  | waiting c x n => exact hwaits c x n (by rw [hpc]; rfl)
  | asleep c x n => exact hwaits c x n (by rw [hpc]; rfl)
  | woken c x n => exact hwaits c x n (by rw [hpc]; rfl)
  | finish c x n =>
    rw [hpc] at h
    exact ⟨f.formatted (by rw [hpc]; rfl) (by rw [hpc]; rfl) h.1,
      f.done (by rw [hpc]; rfl) h.2⟩
  | leave c n =>
    rw [hpc] at h
    exact f.done (by rw [hpc]; rfl) h
  | intrRead =>
    rw [hpc] at h
    obtain ⟨-, -, hseen⟩ := f.locked (by rw [hpc]; rfl)
    show w'.seen < w'.posted.length
    rw [hseen]
    exact Nat.lt_of_lt_of_le h f.posted.length_le
  | intrDone id =>
    rw [hpc] at h
    obtain ⟨s, v, hs, hv⟩ := h
    obtain ⟨-, -, hseen⟩ := f.locked (by rw [hpc]; rfl)
    refine ⟨s, v, ?_, getElem?_grown f.avails hv⟩
    rw [hseen]
    exact getElem?_grown f.posted hs
  | _ => trivial

/-! ## Steps that leave the rings alone -/

/-- A step of thread `t` spares the rings and the other threads. -/
structure Spares (w w' : World) (t : Nat) : Prop where
  rings : SameRings w w'
  others : ∀ u, u ≠ t → (w.thread u).Woken (w'.thread u)
  lock : ∀ u, u ≠ t → w.lock = some u → w'.lock = some u
  buf : ∀ u, u ≠ t → ∀ b, (w.thread u).buf = some b → w'.buf b = w.buf b
  chain : ∀ u, u ≠ t → ∀ x, (w.thread u).chain = some x → ∀ i ∈ x.list,
    w'.disk.desc i = w.disk.desc i ∧ w'.disk.ops i = w.disk.ops i ∧
      w'.disk.info i = w.disk.info i

/-- What there is to show about thread `t` itself. -/
structure Own (w w' : World) (t : Nat) : Prop where
  locked : (w'.thread t).locked = true → w'.lock = some t
  buf : ∀ b, (w'.thread t).buf = some b → (w'.buf b).lock = some t
  /-- It still waits for a request that is live. -/
  waits : ∀ c x n, (w.thread t).waits = some (c, x, n) → n ∈ w.live →
    (w'.thread t).waits = some (c, x, n)
  /-- It waits for no other request than before. -/
  kept : ∀ c x n, (w'.thread t).waits = some (c, x, n) →
    (w.thread t).waits = some (c, x, n) ∧ w'.buf c.b = w.buf c.b ∧
      w'.disk.info x.head = w.disk.info x.head
  thread : w'.ThreadOk t (w'.thread t)

theorem Spares.frame (hs : Spares w w' t) (hu : u ≠ t) : Frame w w' u where
  chain x hx i hi := by
    obtain ⟨hdesc, hops, hinfo⟩ := hs.chain u hu x hx i hi
    exact ⟨hdesc, hops, by rw [hinfo]⟩
  buf b hb := by rw [hs.buf u hu b hb]; exact ⟨rfl, rfl⟩
  avails := ⟨[], by rw [List.append_nil, hs.rings.avails]⟩
  posted := ⟨[], by rw [List.append_nil, hs.rings.posted]⟩
  live c x n _ := by rw [hs.rings.live]
  locked _ := ⟨hs.rings.avails, hs.rings.avail, hs.rings.seen⟩

theorem Ok.step (h : w.Ok) (hs : Spares w w' t) (ho : Own w w' t) (howners : w'.Owners)
    (hsane : w'.crashed = false) : w'.Ok where
  sane := hsane
  locks := by
    refine ⟨fun u hlocked => ?_, fun u b hb => ?_⟩
    · by_cases hu : u = t
      · subst hu
        exact ho.locked hlocked
      · rw [(hs.others u hu).toSame.locked] at hlocked
        exact hs.lock u hu (h.locks.lock u hlocked)
    · by_cases hu : u = t
      · subst hu
        exact ho.buf b hb
      · rw [(hs.others u hu).toSame.buf] at hb
        rw [hs.buf u hu b hb]
        exact h.locks.buf u b hb
  owners := howners
  rings := h.rings.same hs.rings
  waits n hn := by
    rw [hs.rings.live] at hn
    obtain ⟨u, c, x, hwaits⟩ := h.waits n hn
    refine ⟨u, c, x, ?_⟩
    by_cases hu : u = t
    · subst hu
      exact ho.waits c x n hwaits hn
    · rw [(hs.others u hu).toSame.waits, hwaits]
  carried n op u c x hop hwaits := by
    rw [hs.rings.carried] at hop
    by_cases hu : u = t
    · subst hu
      obtain ⟨hwaits, hbuf, hinfo⟩ := ho.kept c x n hwaits
      rw [hbuf, hinfo]
      exact h.carried n op u c x hop hwaits
    · rw [(hs.others u hu).toSame.waits] at hwaits
      rw [hs.buf u hu _ (Pc.buf_of_waits hwaits),
        (hs.chain u hu x (Pc.chain_of_waits hwaits) _ x.head_mem).2.2]
      exact h.carried n op u c x hop hwaits
  thread u := by
    by_cases hu : u = t
    · subst hu
      exact ho.thread
    · exact ((h.thread u).frame (hs.frame hu)).woken (hs.others u hu)

theorem Owners.same (h : w.Owners) (hfree : w'.disk.free = w.disk.free)
    (hchain : ∀ u, (w'.thread u).chain = (w.thread u).chain) : w'.Owners where
  ok u x hx := h.ok u x (hchain u ▸ hx)
  busy u x i hx hi := by
    rw [hfree]
    exact h.busy u x i (hchain u ▸ hx) hi
  apart u v x y i hx hy := h.apart u v x y i (hchain u ▸ hx) (hchain v ▸ hy)
  used i hi hbusy := by
    rw [hfree] at hbusy
    obtain ⟨u, x, hx, hmem⟩ := h.used i hi hbusy
    exact ⟨u, x, (hchain u).trans hx, hmem⟩

/-! ## Moves -/

/-- Only the lock and the place of thread `t` change. -/
def move (w : World) (t : Nat) (lock : Option Nat) (pc : Pc) : World :=
  { w with lock := lock, thread := Function.update w.thread t pc }

theorem spares_move {lock : Option Nat} (hlock : ∀ u ≠ t, w.lock = some u → lock = some u) :
    Spares w (w.move t lock pc) t where
  rings := ⟨rfl, rfl, rfl, rfl, rfl, rfl, rfl, rfl⟩
  others u hu := by
    show (w.thread u).Woken (update w.thread t pc u)
    rw [update_of_ne hu]
    exact .same _
  lock := hlock
  buf _ _ _ _ := rfl
  chain _ _ _ _ _ _ := ⟨rfl, rfl, rfl⟩

theorem move_thread (lock : Option Nat) (pc : Pc) : (w.move t lock pc).thread t = pc :=
  update_self ..

theorem Ok.move (h : w.Ok) {lock : Option Nat} (hpc₀ : w.thread t = pc₀)
    (hlock : ∀ u ≠ t, w.lock = some u → lock = some u) (hlocked : pc.locked = true → lock = some t)
    (hbuf : ∀ b, pc.buf = some b → pc₀.buf = some b) (hchain : pc.chain = pc₀.chain)
    (hwaits : ∀ c x n, pc₀.waits = some (c, x, n) → n ∈ w.live → pc.waits = some (c, x, n))
    (hkept : ∀ c x n, pc.waits = some (c, x, n) → pc₀.waits = some (c, x, n))
    (hthread : w.ThreadOk t pc) : (w.move t lock pc).Ok := by
  subst hpc₀
  have hpc := @move_thread w t lock pc
  refine h.step (spares_move hlock) ⟨?_, ?_, ?_, ?_, ?_⟩ (h.owners.same rfl fun u => ?_) h.sane
  · rw [hpc]
    exact hlocked
  · rw [hpc]
    exact fun b hb => h.locks.buf t b (hbuf b hb)
  · rw [hpc]
    exact hwaits
  · rw [hpc]
    exact fun c x n hn => ⟨hkept c x n hn, rfl, rfl⟩
  · rw [hpc]
    exact hthread
  · by_cases hu : u = t
    · subst hu
      rw [hpc, hchain]
    · show (update w.thread t pc u).chain = _
      rw [update_of_ne hu]

theorem Ok.acquire (h : w.Ok) (hpc₀ : w.thread t = pc₀) (hrun : w.acquire t pc = some w')
    (hbuf : pc.buf = pc₀.buf) (hchain : pc.chain = pc₀.chain) (hwaits : pc.waits = pc₀.waits)
    (hthread : w.ThreadOk t pc) : w'.Ok := by
  unfold World.acquire at hrun
  rw [Option.ite_none_right_eq_some] at hrun
  obtain ⟨hfree, hrun⟩ := hrun
  cases hrun
  refine h.move hpc₀ (fun u _ hu => ?_) (fun _ => rfl) (fun b hb => hbuf ▸ hb) hchain
    (fun _ _ _ hn _ => hwaits ▸ hn) (fun _ _ _ hn => hwaits ▸ hn) hthread
  exact absurd (hfree.symm.trans hu) (by simp)

theorem Ok.release (h : w.Ok) (hpc₀ : w.thread t = pc₀) (hlocked : pc₀.locked = true)
    (hpc : pc.locked = false) (hbuf : ∀ b, pc.buf = some b → pc₀.buf = some b)
    (hchain : pc.chain = pc₀.chain) (hwaits : pc.waits = pc₀.waits)
    (hthread : w.ThreadOk t pc) : (w.release t pc).Ok := by
  refine h.move hpc₀ (fun u hne hu => ?_) (fun hl => absurd (hpc.symm.trans hl) (by decide)) hbuf hchain
    (fun _ _ _ hn _ => hwaits ▸ hn) (fun _ _ _ hn => hwaits ▸ hn) hthread
  exact absurd (Option.some.inj ((h.locks.lock t (hpc₀ ▸ hlocked)).symm.trans hu)).symm hne

theorem Ok.goto
    (h : w.Ok) (hpc₀ : w.thread t = pc₀) (hlocked : pc.locked = true → pc₀.locked = true)
    (hbuf : ∀ b, pc.buf = some b → pc₀.buf = some b) (hchain : pc.chain = pc₀.chain)
    (hwaits : pc.waits = pc₀.waits) (hthread : w.ThreadOk t pc) : (w.goto t pc).Ok :=
  h.move hpc₀ (fun _ _ hu => hu) (fun hl => h.locks.lock t (hpc₀ ▸ hlocked hl)) hbuf hchain
    (fun _ _ _ hn _ => hwaits ▸ hn) (fun _ _ _ hn => hwaits ▸ hn) hthread

/-! ## Taking and freeing a chain -/

theorem Owners.take (h : w.Owners) (hx : x.Ok) (hwas : ∀ i ∈ x.list, w.disk.free i = true)
    (hfree : ∀ i, w'.disk.free i = if i ∈ x.list then false else w.disk.free i)
    (hnone : (w.thread t).chain = none) (hchain : (w'.thread t).chain = some x)
    (hothers : ∀ u ≠ t, (w'.thread u).chain = (w.thread u).chain) : w'.Owners := by
  -- A descriptor that was free is in no other chain.
  have hfresh : ∀ u y i, (w.thread u).chain = some y → i ∈ y.list → i ∉ x.list := by
    intro u y i hy hi hmem
    exact absurd ((hwas i hmem).symm.trans (h.busy u y i hy hi)) (by decide)
  have hcases : ∀ u y, (w'.thread u).chain = some y →
      u = t ∧ y = x ∨ u ≠ t ∧ (w.thread u).chain = some y := by
    intro u y hy
    by_cases hu : u = t
    · subst hu
      exact .inl ⟨rfl, Option.some.inj (hy.symm.trans hchain)⟩
    · exact .inr ⟨hu, (hothers u hu).symm.trans hy⟩
  refine ⟨fun u y hy => ?_, fun u y i hy hi => ?_, fun u v y z i hy hz hi hi' => ?_,
    fun i hi hbusy => ?_⟩
  · rcases hcases u y hy with ⟨-, rfl⟩ | ⟨-, hy⟩
    · exact hx
    · exact h.ok u y hy
  · rw [hfree]
    rcases hcases u y hy with ⟨-, rfl⟩ | ⟨-, hy⟩
    · exact if_pos hi
    · rw [if_neg (hfresh u y i hy hi)]
      exact h.busy u y i hy hi
  · rcases hcases u y hy with ⟨hu, rfl⟩ | ⟨-, hy⟩ <;> rcases hcases v z hz with ⟨hv, rfl⟩ | ⟨-, hz⟩
    · rw [hu, hv]
    · exact absurd hi (hfresh v z i hz hi')
    · exact absurd hi' (hfresh u y i hy hi)
    · exact h.apart u v y z i hy hz hi hi'
  · rw [hfree] at hbusy
    by_cases hmem : i ∈ x.list
    · exact ⟨t, x, hchain, hmem⟩
    · rw [if_neg hmem] at hbusy
      obtain ⟨u, y, hy, hiy⟩ := h.used i hi hbusy
      have hu : u ≠ t := by
        rintro rfl
        exact absurd (hnone.symm.trans hy) (by simp)
      exact ⟨u, y, (hothers u hu).trans hy, hiy⟩

theorem Owners.give (h : w.Owners) (hchain : (w.thread t).chain = some x)
    (hfree : ∀ i, w'.disk.free i = if i ∈ x.list then true else w.disk.free i)
    (hnone : (w'.thread t).chain = none)
    (hothers : ∀ u ≠ t, (w'.thread u).chain = (w.thread u).chain) : w'.Owners := by
  have hold : ∀ u y, (w'.thread u).chain = some y → u ≠ t ∧ (w.thread u).chain = some y := by
    intro u y hy
    have hu : u ≠ t := by
      rintro rfl
      exact absurd (hnone.symm.trans hy) (by simp)
    exact ⟨hu, (hothers u hu).symm.trans hy⟩
  refine ⟨fun u y hy => h.ok u y (hold u y hy).2, fun u y i hy hi => ?_,
    fun u v y z i hy hz => h.apart u v y z i (hold u y hy).2 (hold v z hz).2,
    fun i hi hbusy => ?_⟩
  · obtain ⟨hu, hy⟩ := hold u y hy
    rw [hfree, if_neg fun hmem => hu (h.apart u t y x i hy hchain hi hmem)]
    exact h.busy u y i hy hi
  · rw [hfree] at hbusy
    by_cases hmem : i ∈ x.list
    · rw [if_pos hmem] at hbusy
      cases hbusy
    · rw [if_neg hmem] at hbusy
      obtain ⟨u, y, hy, hiy⟩ := h.used i hi hbusy
      have hu : u ≠ t := by
        rintro rfl
        exact hmem (Option.some.inj (hchain.symm.trans hy) ▸ hiy)
      exact ⟨u, y, (hothers u hu).trans hy, hiy⟩

end World

end Xv6.Virtio
