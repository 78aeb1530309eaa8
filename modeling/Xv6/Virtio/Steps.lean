import Xv6.Virtio.Invariant

/-!
# Every event keeps the invariant

First the steps of `virtio_disk_rw` and `virtio_disk_intr` that take, fill in
and free chains, then the steps that move a request from one stage to the
next: into the avail ring, to the device, through the device, into the used
ring and past the interrupt handler.
-/

namespace Xv6.Virtio

open Xv6.Lib Function
open Act

variable {lock : Option Nat} {pc pc₀ : Pc} {c : Call} {x : Chain} {id : Nat}

namespace World

variable {w w' w1 : World} {t u : Nat}

/-! ## Chains -/

theorem spares_touched (ht : Touched w w1)
    (hdesc : ∀ u ≠ t, ∀ x, (w.thread u).chain = some x → ∀ i ∈ x.list,
      w1.disk.desc i = w.disk.desc i) (hlock : ∀ u ≠ t, w.lock = some u → lock = some u) :
    Spares w (w1.move t lock pc) t := by
  have hwoken := ht.woken
  obtain ⟨free, desc, thread, rfl⟩ := ht.rest
  refine ⟨⟨rfl, rfl, rfl, rfl, rfl, rfl, rfl, rfl⟩, fun u hu => ?_, hlock, fun _ _ _ _ => rfl,
    fun u hu x hx i hi => ⟨hdesc u hu x hx i hi, rfl, rfl⟩⟩
  show (w.thread u).Woken (update thread t pc u)
  rw [update_of_ne hu]
  exact hwoken u

/-- The part of a step of thread `t` to a place where it waits for nothing. -/
theorem own_of_idle (hlocked : pc.locked = true → lock = some t)
    (hbuf : ∀ b, pc.buf = some b → (w1.buf b).lock = some t) (hpc₀ : w.thread t = pc₀)
    (hwaits : pc₀.waits = none) (hpc : pc.waits = none) (hthread : (w1.move t lock pc).ThreadOk t pc) :
    Own w (w1.move t lock pc) t := by
  have hpc' := @move_thread w1 t lock pc
  constructor
  · rw [hpc']
    exact hlocked
  · rw [hpc']
    exact hbuf
  · intro c x n hn
    rw [hpc₀, hwaits] at hn
    cases hn
  · intro c x n hn
    rw [hpc', hpc] at hn
    cases hn
  · rw [hpc']
    exact hthread

theorem move_chain (hu : u ≠ t) : ((w.move t lock pc).thread u).chain = (w.thread u).chain := by
  show (update w.thread t pc u).chain = _
  rw [update_of_ne hu]

theorem Ok.lock_of_locked (h : w.Ok) (hpc₀ : w.thread t = pc₀) (hlocked : pc₀.locked = true)
    (hu : u ≠ t) : w.lock ≠ some u := fun hlock =>
  hu (Option.some.inj (hlock.symm.trans (h.locks.lock t (hpc₀ ▸ hlocked))))

/-- `alloc3_desc`, and `sleep` if it fails. -/
theorem Ok.alloc (h : w.Ok) (hpc : w.thread t = .alloc c) :
    (w.exec alloc3Desc fun r w' => match r with
      | some x => w'.goto t (.format c x)
      | none => w'.release t (.asleepFree c)).Ok := by
  have hlock := h.locks.lock t (by rw [hpc]; rfl)
  have hbuf := h.locks.buf t c.b (by rw [hpc]; rfl)
  have hspec : wp alloc3Desc (fun r w1 => (match r with
      | some x => w1.goto t (.format c x)
      | none => w1.release t (.asleepFree c)).Ok) (fun _ => False) w := by
    refine wp_alloc3Desc (fun w1 ht hfree hdesc => ?_) fun x w1 ht hx hwas hfree hdesc => ?_
    · show (w1.move t none (.asleepFree c)).Ok
      have hspares : Spares w (w1.move t none (.asleepFree c)) t :=
        spares_touched ht (fun u hu x hx i hi => hdesc i (h.owners.busy u x i hx hi))
          fun u hu hl => absurd hl (h.lock_of_locked hpc rfl hu)
      have hchain : ∀ u, ((w1.move t none (.asleepFree c)).thread u).chain =
          (w.thread u).chain := by
        intro u
        by_cases hu : u = t
        · subst hu
          rw [move_thread, hpc]
          rfl
        · rw [move_chain hu, ht.chain]
      obtain ⟨_, _, _, rfl⟩ := ht.rest
      refine h.step hspares ?_ (h.owners.same hfree hchain) h.sane
      refine own_of_idle (fun hl => absurd hl Bool.false_ne_true) (fun b hb => ?_)
        hpc rfl rfl trivial
      cases hb
      exact hbuf
    · show (w1.move t w1.lock (.format c x)).Ok
      have hspares : Spares w (w1.move t w1.lock (.format c x)) t := by
        refine spares_touched ht (fun u hu y hy i hi => by rw [hdesc]) fun u hu hl => ?_
        exact absurd hl (h.lock_of_locked hpc rfl hu)
      have howners : (w1.move t w1.lock (.format c x)).Owners := by
        refine h.owners.take hx hwas hfree (by rw [hpc]; rfl) ?_ fun u hu => ?_
        · rw [move_thread]
          rfl
        · rw [move_chain hu, ht.chain]
      obtain ⟨_, _, _, rfl⟩ := ht.rest
      refine h.step hspares ?_ howners h.sane
      refine own_of_idle (fun _ => hlock) (fun b hb => ?_) hpc rfl rfl trivial
      cases hb
      exact hbuf
  obtain ⟨r, w1, hrun, hok⟩ := wp_total hspec
  unfold World.exec
  rw [hrun]
  exact hok

/-- Threads in the driver have different buffers. -/
theorem Ok.buf_ne (h : w.Ok) {b b' : Nat} (hb : (w.thread t).buf = some b) (hu : u ≠ t)
    (hb' : (w.thread u).buf = some b') : b' ≠ b := by
  rintro rfl
  exact hu (Option.some.inj ((h.locks.buf u b' hb').symm.trans (h.locks.buf t b' hb)))

theorem format_of_not_mem {d : Disk} {blockno : UInt32} {i : Nat} (hi : i ∉ x.list) :
    (d.format c x blockno).desc i = d.desc i ∧
      (d.format c x blockno).ops i = d.ops i ∧ (d.format c x blockno).info i = d.info i := by
  simp only [Chain.list, List.mem_cons, List.not_mem_nil, or_false, not_or] at hi
  obtain ⟨h1, h2, h3⟩ := hi
  simp only [Disk.format, update_of_ne h1, update_of_ne h2,
    update_of_ne h3]
  exact ⟨trivial, trivial, trivial⟩

theorem Ok.format (h : w.Ok) (hpc : w.thread t = .format c x) :
    ((setBuf { w with disk := w.disk.format c x (w.buf c.b).blockno } c.b
      fun buf => { buf with disk := true }).goto t (.publish c x)).Ok := by
  have hlock := h.locks.lock t (by rw [hpc]; rfl)
  have hbuf : (w.thread t).buf = some c.b := by rw [hpc]; rfl
  have hchain : (w.thread t).chain = some x := by rw [hpc]; rfl
  have hx := h.owners.ok t x hchain
  let w1 := setBuf { w with disk := w.disk.format c x (w.buf c.b).blockno } c.b
    fun buf => { buf with disk := true }
  have hspares : Spares w (w1.move t w1.lock (.publish c x)) t := by
    refine ⟨⟨rfl, rfl, rfl, rfl, rfl, rfl, rfl, rfl⟩, fun u hu => ?_, fun _ _ hl => hl,
      fun u hu b hb => ?_, fun u hu y hy i hi => ?_⟩
    · show (w.thread u).Woken (update w.thread t (.publish c x) u)
      rw [update_of_ne hu]
      exact .same _
    · exact update_of_ne (h.buf_ne hbuf hu hb) _ _
    · exact format_of_not_mem fun hmem => hu (h.owners.apart u t y x i hy hchain hi hmem)
  have hown : Own w (w1.move t w1.lock (.publish c x)) t := by
    refine own_of_idle (fun _ => hlock) (fun b hb => ?_) hpc rfl rfl ?_
    · cases hb
      show (update w.buf c.b _ c.b).lock = some t
      rw [update_self]
      exact h.locks.buf t c.b hbuf
    · show (w.disk.format c x (w.buf c.b).blockno).Formatted c x
        (update w.buf c.b _ c.b).blockno ∧ (update w.buf c.b _ c.b).disk = true
      rw [update_self]
      exact ⟨Disk.formatted_format hx, rfl⟩
  have howners : (w1.move t w1.lock (.publish c x)).Owners := by
    refine h.owners.same rfl fun u => ?_
    by_cases hu : u = t
    · subst hu
      rw [move_thread, hchain]
      rfl
    · exact move_chain hu
  exact h.step hspares hown howners h.sane

/-- `disk.info[idx[0]].b = 0` and `free_chain`. -/
theorem Ok.finish (h : w.Ok) {n : Nat} (hpc : w.thread t = .finish c x n) :
    (w.exec (do
      onDisk fun d => { d with
        info := update d.info x.head { d.info x.head with b := none } }
      freeChain x.head) fun _ w' => w'.goto t (.leave c n)).Ok := by
  have hlock := h.locks.lock t (by rw [hpc]; rfl)
  have hbuf : (w.thread t).buf = some c.b := by rw [hpc]; rfl
  have hchain : (w.thread t).chain = some x := by rw [hpc]; rfl
  have hthread := h.thread t
  rw [hpc] at hthread
  obtain ⟨hformatted, hdone⟩ := hthread
  let w0 : World := { w with
    disk.info := update w.disk.info x.head { w.disk.info x.head with b := none } }
  have hspec : wp (freeChain x.head) (fun _ w1 => (w1.move t w1.lock (.leave c n)).Ok)
      (fun _ => False) w0 := by
    have hlinked : w0.disk.Linked c x := ⟨hformatted.head, hformatted.data, hformatted.status⟩
    refine wp_freeChain (h.owners.ok t x hchain) hlinked
      (fun i hi => h.owners.busy t x i hchain hi) fun w1 ht hfree hdesc => ?_
    have hspares : Spares w (w1.move t w1.lock (.leave c n)) t := by
      have hout : ∀ u ≠ t, ∀ y, (w.thread u).chain = some y → ∀ i ∈ y.list, i ∉ x.list :=
        fun u hu y hy i hi hmem => hu (h.owners.apart u t y x i hy hchain hi hmem)
      have hspares0 : Spares w0 (w1.move t w1.lock (.leave c n)) t := by
        refine spares_touched ht (fun u hu y hy i hi => hdesc i (hout u hu y hy i hi))
          fun u hu hl => ?_
        exact absurd hl (h.lock_of_locked hpc rfl hu)
      obtain ⟨h1, h2, h3, h4, h5, h6, h7, h8⟩ := hspares0.rings
      refine ⟨⟨h1, h2, h3, h4, h5, h6, h7, h8⟩, hspares0.others, hspares0.lock, hspares0.buf,
        fun u hu y hy i hi => ?_⟩
      obtain ⟨hd, ho, hi'⟩ := hspares0.chain u hu y hy i hi
      refine ⟨hd, ho, hi'.trans (update_of_ne ?_ _ _)⟩
      rintro rfl
      exact hout u hu y hy _ hi x.head_mem
    have howners : (w1.move t w1.lock (.leave c n)).Owners := by
      refine h.owners.give hchain hfree ?_ fun u hu => ?_
      · rw [move_thread]
        rfl
      · rw [move_chain hu, ht.chain]
    obtain ⟨_, _, _, rfl⟩ := ht.rest
    refine h.step hspares ?_ howners h.sane
    refine own_of_idle (fun _ => hlock) (fun b hb => ?_) hpc rfl rfl hdone
    cases hb
    exact h.locks.buf t c.b hbuf
  have hwp : wp (do
      onDisk fun d => { d with
        info := update d.info x.head { d.info x.head with b := none } }
      freeChain x.head) (fun _ w1 => (w1.move t w1.lock (.leave c n)).Ok) (fun _ => False) w := by
    unfold onDisk
    rw [wp_bind, wp_modify]
    exact hspec
  obtain ⟨r, w1, hrun, hok⟩ := wp_total hwp
  unfold World.exec
  rw [hrun]
  exact hok

/-! ## Into the avail ring -/

/-- Another thread than the one with the lock is in no place that needs it. -/
theorem Ok.unlocked (h : w.Ok) (hpc₀ : w.thread t = pc₀) (hlocked : pc₀.locked = true)
    (hu : u ≠ t) : (w.thread u).locked = false :=
  Bool.eq_false_iff.mpr fun hl => h.lock_of_locked hpc₀ hlocked hu (h.locks.lock u hl)

theorem Ok.publish (h : w.Ok) (hpc : w.thread t = .publish c x) :
    ((w.storeAvail x.head).goto t (.bump c x)).Ok := by
  have hchain : (w.thread t).chain = some x := by rw [hpc]; rfl
  have hthread := h.thread t
  rw [hpc] at hthread
  obtain ⟨hformatted, hdisk⟩ := hthread
  have hstill : (w.storeAvail x.head).disk.Formatted c x (w.buf c.b).blockno :=
    hformatted.congr (fun _ _ => rfl) rfl rfl
  have hstored : (w.storeAvail x.head).Ok := by
    refine ⟨h.sane, ⟨h.locks.lock, h.locks.buf⟩, h.owners.same rfl fun _ => rfl,
      h.rings.storeAvail (h.room_lt hchain (by rw [hpc]; rfl)) x.head, h.waits, h.carried,
      fun u => ?_⟩
    by_cases hu : u = t
    · subst hu
      show (w.storeAvail x.head).ThreadOk u (w.thread u)
      rw [hpc]
      exact ⟨hstill, hdisk⟩
    · exact (h.thread u).frame ⟨fun _ _ _ _ => ⟨rfl, rfl, rfl⟩, fun _ _ => ⟨rfl, rfl⟩,
        List.prefix_rfl, List.prefix_rfl, fun _ _ _ _ => Iff.rfl,
        fun hl => absurd ((h.unlocked hpc rfl hu).symm.trans hl) (by decide)⟩
  refine hstored.goto hpc (fun _ => rfl) (fun _ hb => hb) rfl rfl ⟨hstill, hdisk, ?_⟩
  show update w.disk.avail.ring (w.disk.avail.idx.toNat % NUM) (UInt16.ofNat x.head)
    (w.avails.length % NUM) = _
  rw [h.rings.availIdx, toNat_ofNat_mod, update_self]

/-- The entry counts from here on, and the thread waits for it. -/
theorem Ok.bump (h : w.Ok) (hpc : w.thread t = .bump c x) :
    ((w.bumpAvail t x.head).goto t (.waiting c x w.avails.length)).Ok := by
  have hlocked : (w.thread t).locked = true := by rw [hpc]; rfl
  have hbuf : (w.thread t).buf = some c.b := by rw [hpc]; rfl
  have hchain : (w.thread t).chain = some x := by rw [hpc]; rfl
  have hthread := h.thread t
  rw [hpc] at hthread
  obtain ⟨hformatted, hdisk, hring⟩ := hthread
  let w1 := w.bumpAvail t x.head
  have hself : (w1.goto t (.waiting c x w.avails.length)).thread t =
    .waiting c x w.avails.length := update_self ..
  have hother : ∀ u ≠ t, (w1.goto t (.waiting c x w.avails.length)).thread u = w.thread u :=
    fun u hu => update_of_ne hu _ _
  have hlive : ∀ n, n ∈ w1.live ↔ n = w.avails.length ∨ n ∈ w.live := fun n => by
    rw [(live_bumpAvail h.rings t x.head).mem_iff, List.mem_cons]
  constructor
  case sane => exact h.sane
  case locks =>
    refine ⟨fun u hl => ?_, fun u b hb => ?_⟩
    · by_cases hu : u = t
      · subst hu
        exact h.locks.lock u hlocked
      · exact h.locks.lock u (hother u hu ▸ hl)
    · by_cases hu : u = t
      · subst hu
        rw [hself] at hb
        exact h.locks.buf u b (hbuf.trans hb)
      · exact h.locks.buf u b (hother u hu ▸ hb)
  case owners =>
    refine h.owners.same rfl fun u => ?_
    by_cases hu : u = t
    · subst hu
      rw [hself, hchain]
      rfl
    · rw [hother u hu]
  case rings =>
    have hbound := (h.owners.ok t x hchain).bound _ x.head_mem
    exact (h.rings.bumpAvail hbound hring).same ⟨rfl, rfl, rfl, rfl, rfl, rfl, rfl, rfl⟩
  case waits =>
    intro n hn
    rcases (hlive n).mp hn with rfl | hn
    · exact ⟨t, c, x, by rw [hself]; rfl⟩
    · obtain ⟨u, c', y, hwaits⟩ := h.waits n hn
      have hu : u ≠ t := by
        rintro rfl
        rw [hpc] at hwaits
        cases hwaits
      exact ⟨u, c', y, by rw [hother u hu, hwaits]⟩
  case carried =>
    intro n op u c' y hop hwaits
    have hold : w.Carried n op := hop
    by_cases hu : u = t
    · subst hu
      rw [hself] at hwaits
      cases hwaits
      exact absurd (h.rings.live_lt hold.live) (Nat.lt_irrefl _)
    · rw [hother u hu] at hwaits
      exact h.carried n op u c' y hold hwaits
  case thread =>
    intro u
    by_cases hu : u = t
    · subst hu
      rw [hself]
      exact ⟨hformatted.congr (fun _ _ => rfl) rfl rfl, List.getElem?_concat_length,
        .inl ⟨(hlive _).mpr (.inl rfl), hdisk⟩⟩
    · rw [hother u hu]
      refine (h.thread u).frame ⟨fun _ _ _ _ => ⟨rfl, rfl, rfl⟩, fun _ _ => ⟨rfl, rfl⟩,
        List.prefix_append _ _, List.prefix_rfl, fun c' y n hwaits => ?_,
        fun hl => absurd ((h.unlocked hpc rfl hu).symm.trans hl) (by decide)⟩
      have hlt := (List.getElem?_eq_some_iff.mp ((h.thread u).waits hwaits).2.1).1
      exact (hlive n).trans (or_iff_right (Nat.ne_of_lt hlt))

/-! ## Past the interrupt handler -/

/-- The entry that the handler has read is that of a thread that waits. -/
theorem Ok.handler (h : w.Ok) (hpc : w.thread t = .intrDone id) :
    ∃ s u c x, w.posted[w.seen]? = some s ∧ (w.thread u).waits = some (c, x, s.num) ∧
      x.head = id ∧ s.num ∈ w.live ∧ (w.disk.info id).b = some c.b ∧
      s.op = c.op (w.buf c.b).blockno id ∧ (w.disk.info id).status = 0 := by
  have hthread := h.thread t
  rw [hpc] at hthread
  obtain ⟨s, v, hs, hv⟩ := hthread
  have hmem : s ∈ w.posted.drop w.seen := by
    refine List.mem_iff_getElem?.mpr ⟨0, ?_⟩
    rw [List.getElem?_drop]
    exact hs
  have hlive := mem_live_of_posted hmem
  obtain ⟨u, c, x, hwaits, hchain, he⟩ := h.of_live hlive
  have hid : x.head = id := congrArg Prod.snd (Option.some.inj (he.symm.trans hv))
  obtain ⟨hformatted, -, -⟩ := (h.thread u).waits hwaits
  obtain ⟨hop, hstatus⟩ := h.carried s.num s.op u c x (.inr hmem) hwaits
  subst hid
  exact ⟨s, u, c, x, hs, hwaits, rfl, hlive, hformatted.info, hop, hstatus⟩

/-- The state after the handler has gone through the entry of a request for
buffer `b`. -/
def passed (w : World) (t b : Nat) : World :=
  { w.setBuf b fun buf => { buf with disk := false } with
    thread := Function.update (fun u => (w.thread u).wake (.buf b)) t .intrTest
    disk := { w.disk with usedIdx := w.disk.usedIdx + 1 }
    seen := w.seen + 1 }

theorem passed_blockno (b b' : Nat) : ((w.passed t b).buf b').blockno = (w.buf b').blockno ∧
    ((w.passed t b).buf b').lock = (w.buf b').lock := by
  show (update w.buf b _ b').blockno = _ ∧ (update w.buf b _ b').lock = _
  by_cases hb : b' = b
  · subst hb
    rw [update_self]
    exact ⟨rfl, rfl⟩
  · rw [update_of_ne hb]
    exact ⟨rfl, rfl⟩

theorem Ok.passed (h : w.Ok) {v : Nat} {s : Served} (hpc : w.thread t = .intrDone id)
    (hs : w.posted[w.seen]? = some s) (hwaits : (w.thread v).waits = some (c, x, s.num))
    (hop : s.op = c.op (w.buf c.b).blockno x.head) : (w.passed t c.b).Ok := by
  have hlocked : (w.thread t).locked = true := by rw [hpc]; rfl
  have hself : (w.passed t c.b).thread t = .intrTest := by
    unfold World.passed
    simp only [update_self]
  have hother : ∀ u ≠ t, (w.thread u).Woken ((w.passed t c.b).thread u) := fun u hu => by
    unfold World.passed
    simp only [update_of_ne hu]
    exact Pc.woken_wake _ _
  have hseen := (List.getElem?_eq_some_iff.mp hs).1
  have hrings : (w.passed t c.b).Rings :=
    (h.rings.advance hseen).same ⟨rfl, rfl, rfl, rfl, rfl, rfl, rfl, rfl⟩
  have hperm : w.live.Perm (s.num :: (w.passed t c.b).live) := live_advance hs
  have hgone : s.num ∉ (w.passed t c.b).live :=
    (List.nodup_cons.mp (hperm.nodup_iff.mp h.rings.nodup)).1
  have hlive : ∀ n, n ∈ w.live ↔ n = s.num ∨ n ∈ (w.passed t c.b).live := fun n => by
    rw [hperm.mem_iff, List.mem_cons]
  have hnot : ∀ u c' y n, (w.thread u).waits = some (c', y, n) → u ≠ t := by
    rintro u c' y n hw rfl
    rw [hpc] at hw
    cases hw
  constructor
  case sane => exact h.sane
  case locks =>
    refine ⟨fun u hl => ?_, fun u b hb => ?_⟩
    · by_cases hu : u = t
      · subst hu
        exact h.locks.lock u hlocked
      · exact h.locks.lock u ((hother u hu).toSame.locked ▸ hl)
    · rw [(passed_blockno _ _).2]
      by_cases hu : u = t
      · subst hu
        rw [hself] at hb
        cases hb
      · exact h.locks.buf u b ((hother u hu).toSame.buf ▸ hb)
  case owners =>
    refine h.owners.same rfl fun u => ?_
    by_cases hu : u = t
    · subst hu
      rw [hself, hpc]
      rfl
    · exact (hother u hu).toSame.chain
  case rings => exact hrings
  case waits =>
    intro n hn
    obtain ⟨u, c', y, hw⟩ := h.waits n ((hlive n).mpr (.inr hn))
    exact ⟨u, c', y, (hother u (hnot u c' y n hw)).toSame.waits.trans hw⟩
  case carried =>
    intro n op u c' y hcar hw
    have hold : w.Carried n op := by
      refine hcar.imp_right fun hmem => ?_
      exact List.drop_subset_drop_left w.posted (Nat.le_succ w.seen) hmem
    have hu : u ≠ t := by
      rintro rfl
      rw [hself] at hw
      cases hw
    rw [(passed_blockno _ _).1]
    exact h.carried n op u c' y hold ((hother u hu).toSame.waits ▸ hw)
  case thread =>
    intro u
    by_cases hu : u = t
    · subst hu
      rw [hself]
      trivial
    refine ThreadOk.woken ?_ (hother u hu)
    by_cases huv : u = v
    · subst huv
      obtain ⟨hformatted, he, -⟩ := (h.thread u).waits hwaits
      refine threadOk_of_waits hwaits ?_ he (.inr ⟨hgone, x.head, he, ?_⟩)
      · rw [(passed_blockno _ _).1]
        exact hformatted.congr (fun _ _ => rfl) rfl rfl
      · rw [(passed_blockno _ _).1, ← hop]
        exact List.mem_of_getElem? hs
    · refine (h.thread u).frame ⟨fun _ _ _ _ => ⟨rfl, rfl, rfl⟩, fun b hb => ?_,
        List.prefix_rfl, List.prefix_rfl, fun c' y n hw => ?_,
        fun hl => absurd ((h.unlocked hpc rfl hu).symm.trans hl) (by decide)⟩
      · refine ⟨(passed_blockno _ _).1, ?_⟩
        show (update w.buf c.b _ b).disk = _
        rw [update_of_ne (h.buf_ne (Pc.buf_of_waits hwaits) huv hb)]
      · rw [hlive n]
        refine (or_iff_right ?_).symm
        rintro rfl
        have he := ((h.thread u).waits hw).2.1.symm.trans ((h.thread v).waits hwaits).2.1
        exact huv (congrArg Prod.fst (Option.some.inj he))

theorem Ok.complete (h : w.Ok) (hpc : w.thread t = .intrDone id) : (w.complete t id).Ok := by
  obtain ⟨s, v, c, x, hs, hwaits, hid, -, hb, hop, hstatus⟩ := h.handler hpc
  unfold World.complete
  rw [if_neg (not_not_intro hstatus), hb]
  rw [← hid] at hop
  exact h.passed hpc hs hwaits hop

end World

end Xv6.Virtio
