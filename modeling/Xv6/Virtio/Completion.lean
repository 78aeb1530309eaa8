import Xv6.Virtio.Steps

/-!
# Completions match requests

The steps of the device, and with them every event, keep the invariant of the
driver. So in every state that is reached the chains of the threads are
disjoint and not free, what the interrupt handler reads is the chain of a
thread that waits, a call returns after the device has carried out its own
request, and no entry of a ring is lost.
-/

namespace Xv6.Virtio

open Xv6.Lib Function
open Act

namespace World

variable {w w' : World} {t u : Nat}

/-! ## Steps of the device -/

/-- The device leaves alone what the threads rely on. -/
structure DeviceStep (w w' : World) : Prop where
  sane : w'.crashed = w.crashed
  lock : w'.lock = w.lock
  buf : w'.buf = w.buf
  thread : w'.thread = w.thread
  free : w'.disk.free = w.disk.free
  desc : w'.disk.desc = w.disk.desc
  ops : w'.disk.ops = w.disk.ops
  info : ∀ i, (w'.disk.info i).b = (w.disk.info i).b
  avail : w'.disk.avail = w.disk.avail
  avails : w'.avails = w.avails
  seen : w'.seen = w.seen
  posted : w.posted <+: w'.posted
  live : w'.live.Perm w.live

section

variable (h : w.Ok)
include h

theorem Ok.device (hs : DeviceStep w w') (hrings : w'.Rings)
    (hcarried : ∀ n op t c x, w'.Carried n op → (w.thread t).waits = some (c, x, n) →
      op = c.op (w.buf c.b).blockno x.head ∧ (w'.disk.info x.head).status = 0) : w'.Ok where
  sane := hs.sane.trans h.sane
  locks := by
    refine ⟨?_, ?_⟩
    · rw [hs.thread, hs.lock]
      exact h.locks.lock
    · rw [hs.thread, hs.buf]
      exact h.locks.buf
  owners := h.owners.same hs.free fun u => by rw [hs.thread]
  rings := hrings
  waits n hn := by
    rw [hs.thread]
    exact h.waits n (hs.live.mem_iff.mp hn)
  carried := by
    rw [hs.thread, hs.buf]
    exact hcarried
  thread u := by
    rw [hs.thread]
    refine (h.thread u).frame ⟨fun x _ i _ => ?_, fun b _ => ?_, ?_, hs.posted,
      fun _ _ n _ => hs.live.mem_iff, fun _ => ⟨hs.avails, hs.avail, hs.seen⟩⟩
    · rw [hs.desc, hs.ops]
      exact ⟨rfl, rfl, hs.info i⟩
    · rw [hs.buf]
      exact ⟨rfl, rfl⟩
    · exact ⟨[], by rw [List.append_nil, hs.avails]⟩

theorem Ok.fetch (hnext : w.fetch = some w') : w'.Ok := by
  obtain ⟨e, he, rfl⟩ := fetch_eq h.rings hnext
  have hlt := (List.getElem?_eq_some_iff.mp he).1
  refine h.device ⟨rfl, rfl, rfl, rfl, rfl, rfl, rfl, fun _ => rfl, rfl, rfl, rfl,
    List.prefix_rfl, live_take hlt e.2⟩ (h.rings.take he) fun n op t c x hcar hwaits => ?_
  refine h.carried n op t c x (hcar.imp_left ?_) hwaits
  rintro ⟨p, hp, hnum, hop⟩
  rcases mem_taken_take.mp hp with rfl | hp
  · cases hop
  · exact ⟨p, hp, hnum, hop⟩

theorem Ok.serve {i : Nat} (hnext : w.serve i = some w') : w'.Ok := by
  obtain ⟨p, hp, -, hcases⟩ := serve_eq hnext
  -- The request is live, so its chain is what the thread that waits for it made of it.
  have hmem : p ∈ w.device.taken := List.mem_append_left _ (List.mem_of_getElem? hp)
  obtain ⟨v, c, x, hwaits, hchain, he⟩ := h.of_live (mem_live_of_taken hmem)
  obtain ⟨v', he'⟩ := h.rings.taken p hmem
  have hhead : p.head = x.head := congrArg Prod.snd (Option.some.inj (he'.symm.trans he))
  have hop : w.disk.op p.head = some (c.op (w.buf c.b).blockno x.head) := by
    rw [hhead]
    exact ((h.thread v).waits hwaits).1.op (h.owners.ok v x hchain)
  rcases hcases with ⟨hnone, -⟩ | ⟨op, hsome, rfl⟩
  · exact absurd (hnone.symm.trans hop) (by simp)
  obtain rfl := Option.some.inj (hsome.symm.trans hop)
  have hinfo : ∀ j, ((w.carry i p (c.op (w.buf c.b).blockno x.head)).disk.info j).b =
      (w.disk.info j).b ∧ ((w.disk.info j).status = 0 ∨ j = x.head →
        ((w.carry i p (c.op (w.buf c.b).blockno x.head)).disk.info j).status = 0) := by
    intro j
    show (update w.disk.info x.head _ j).b = _ ∧
      (_ → (update w.disk.info x.head _ j).status = 0)
    by_cases hj : j = x.head
    · subst hj
      rw [update_self]
      exact ⟨rfl, fun _ => rfl⟩
    · rw [update_of_ne hj]
      exact ⟨rfl, fun hor => hor.resolve_right hj⟩
  refine h.device ⟨rfl, rfl, rfl, rfl, rfl, rfl, rfl, fun j => (hinfo j).1, rfl, rfl, rfl,
    List.prefix_rfl, List.Perm.of_eq (live_carry hp)⟩ (h.rings.carry hp)
    fun n op t c' y hcar hw => ?_
  rcases hcar with ⟨q, hq, rfl, hqop⟩ | hmem'
  · rcases mem_taken_carry hq with rfl | hq
    · have heq := he.symm.trans ((h.thread t).waits hw).2.1
      obtain rfl : v = t := congrArg Prod.fst (Option.some.inj heq)
      cases hwaits.symm.trans hw
      obtain rfl := Option.some.inj hqop
      exact ⟨rfl, (hinfo _).2 (.inr rfl)⟩
    · obtain ⟨hop', hstatus⟩ := h.carried q.num op t c' y (.inl ⟨q, hq, rfl, hqop⟩) hw
      exact ⟨hop', (hinfo _).2 (.inl hstatus)⟩
  · obtain ⟨hop', hstatus⟩ := h.carried n op t c' y (.inr hmem') hw
    exact ⟨hop', (hinfo _).2 (.inl hstatus)⟩

theorem Ok.post {i : Nat} (hnext : w.post i = some w') : w'.Ok := by
  obtain ⟨p, hp, hposting, hop, rfl⟩ := post_eq hnext
  refine h.device ⟨rfl, rfl, rfl, rfl, rfl, rfl, rfl, fun _ => rfl, rfl, rfl, rfl,
    List.prefix_rfl, live_putUsed hp hposting⟩ (h.rings.putUsed h.room hp hposting hop)
    fun n op t c x hcar hwaits => ?_
  refine h.carried n op t c x (hcar.imp_left ?_) hwaits
  rintro ⟨q, hq, hnum, hqop⟩
  exact ⟨q, (taken_putUsed hp hposting).mem_iff.mp hq, hnum, hqop⟩

theorem Ok.bumpUsed (hnext : w.bumpUsed = some w') : w'.Ok := by
  obtain ⟨num, head, op', hposting, rfl⟩ := bumpUsed_eq hnext
  refine h.device ⟨rfl, rfl, rfl, rfl, rfl, rfl, rfl, fun _ => rfl, rfl, rfl, rfl,
    List.prefix_append _ _, live_report h.rings hposting⟩ (h.rings.report hposting)
    fun n op t c x hcar hwaits => ?_
  refine h.carried n op t c x ?_ hwaits
  have htaken := taken_report hposting
  rcases hcar with ⟨q, hq, hnum, hqop⟩ | hmem
  · refine .inl ⟨q, ?_, hnum, hqop⟩
    rw [htaken]
    exact List.mem_append_left _ hq
  · change ⟨n, op⟩ ∈ (w.posted ++ [Served.mk num op']).drop w.seen at hmem
    rw [List.drop_append_of_le_length h.rings.seen] at hmem
    rcases List.mem_append.mp hmem with hmem | hmem
    · exact .inr hmem
    · cases List.mem_singleton.mp hmem
      refine .inl ⟨⟨num, head, some op'⟩, ?_, rfl, rfl⟩
      rw [htaken]
      exact List.mem_append_right _ List.mem_cons_self

/-! ## Every event -/

/-- A thread outside of the driver changes a buffer that no other thread has. -/
theorem Ok.setBuf {b : Nat} {f : Buf → Buf} {pc pc₀ : Pc} (hpc₀ : w.thread t = pc₀)
    (hfree : ∀ u ≠ t, (w.thread u).buf ≠ some b) (hwas : pc₀.chain = none)
    (hwaits : pc₀.waits = none) (hchain : pc.chain = none) (hwaits' : pc.waits = none)
    (hlocked : pc.locked = false)
    (hbuf : ∀ b', pc.buf = some b' → b' = b ∧ (f (w.buf b)).lock = some t)
    (hthread : ∀ w1 : World, w1.ThreadOk t pc) : ((w.setBuf b f).goto t pc).Ok := by
  subst hpc₀
  have hspares : Spares w ((w.setBuf b f).move t w.lock pc) t := by
    refine ⟨⟨rfl, rfl, rfl, rfl, rfl, rfl, rfl, rfl⟩, fun u hu => ?_, fun _ _ hl => hl,
      fun u hu b' hb' => update_of_ne ?_ _ _, fun _ _ _ _ _ _ => ⟨rfl, rfl, rfl⟩⟩
    · show (w.thread u).Woken (update w.thread t pc u)
      rw [update_of_ne hu]
      exact .same _
    · rintro rfl
      exact hfree u hu hb'
  have hown : Own w ((w.setBuf b f).move t w.lock pc) t := by
    refine own_of_idle (fun hl => absurd (hlocked.symm.trans hl) (by decide)) (fun b' hb' => ?_)
      rfl hwaits hwaits' (hthread _)
    obtain ⟨rfl, hlock⟩ := hbuf b' hb'
    show (update w.buf b' _ b').lock = some t
    rw [update_self]
    exact hlock
  refine h.step hspares hown (h.owners.same rfl fun u => ?_) h.sane
  by_cases hu : u = t
  · subst hu
    show (update w.thread u pc u).chain = _
    rw [update_self, hwas, hchain]
  · exact move_chain hu

theorem Ok.waiting {c : Call} {x : Chain} {n : Nat} (hpc : w.thread t = .waiting c x n) :
    (if (w.buf c.b).disk then w.release t (.asleep c x n) else w.goto t (.finish c x n)).Ok := by
  have hthread := h.thread t
  rw [hpc] at hthread
  split
  · exact h.release hpc rfl rfl (fun _ hb => hb) rfl rfl hthread
  · rename_i hdisk
    obtain ⟨hformatted, -, hstate⟩ := hthread
    rcases hstate with ⟨-, hyes⟩ | ⟨hgone, hdone⟩
    · exact absurd hyes hdisk
    · refine h.move hpc (fun _ _ hl => hl) (fun _ => h.locks.lock t (by rw [hpc]; rfl))
        (fun _ hb => hb) rfl (fun c' y m hm hlive => ?_) (fun _ _ _ hm => ?_) ⟨hformatted, hdone⟩
      · cases hm
        exact absurd hlive hgone
      · cases hm

theorem Ok.intrTest (hpc : w.thread t = .intrTest) :
    (w.goto t (if w.disk.usedIdx ≠ w.disk.used.idx then .intrRead else .intrLeave)).Ok := by
  split
  · rename_i hne
    refine h.goto hpc (fun _ => rfl) (fun _ hb => ?_) rfl rfl ?_
    · cases hb
    · refine Nat.lt_of_le_of_ne h.rings.seen fun heq => hne ?_
      rw [h.rings.lastUsed, h.rings.usedIdx, heq]
  · refine h.goto hpc (fun _ => rfl) (fun _ hb => ?_) rfl rfl trivial
    cases hb

theorem Ok.intrRead (hpc : w.thread t = .intrRead) :
    (w.goto t (.intrDone (w.disk.used.ring (w.disk.usedIdx.toNat % NUM)).toNat)).Ok := by
  have hthread := h.thread t
  rw [hpc] at hthread
  have hseen : w.seen < w.posted.length := hthread
  have hs := List.getElem?_eq_getElem hseen
  obtain ⟨e, he, hring⟩ := h.rings.used _ _ (Nat.le_refl _) hs
  have hbound : e.2 < NUM := h.rings.bound e (List.mem_of_getElem? he)
  have hid : (w.disk.used.ring (w.disk.usedIdx.toNat % NUM)).toNat = e.2 := by
    rw [h.rings.lastUsed, toNat_ofNat_mod, hring, UInt32.toNat_ofNat',
      Nat.mod_eq_of_lt (Nat.lt_trans hbound (by decide))]
  rw [hid]
  refine h.goto hpc (fun _ => rfl) (fun _ hb => ?_) rfl rfl ⟨_, e.1, hs, he⟩
  cases hb

theorem Ok.run (hnext : w.run t = some w') : w'.Ok := by
  have hnone : ∀ {b : Nat} {o : Option Nat}, none = some b → o = some b := fun hb => by cases hb
  unfold World.run at hnext
  generalize hpc : w.thread t = pc at hnext
  cases pc with
  | enter c | wokenFree c =>
    exact h.acquire hpc hnext rfl rfl rfl trivial
  | alloc c =>
    cases hnext
    exact h.alloc hpc
  | format c x =>
    cases hnext
    exact h.format hpc
  | publish c x =>
    cases hnext
    exact h.publish hpc
  | bump c x =>
    cases hnext
    exact h.bump hpc
  | waiting c x n =>
    cases hnext
    exact h.waiting hpc
  | woken c x n =>
    have hthread := h.thread t
    rw [hpc] at hthread
    exact h.acquire hpc hnext rfl rfl rfl hthread
  | finish c x n =>
    cases hnext
    exact h.finish hpc
  | leave c n =>
    cases hnext
    exact h.release hpc rfl rfl (fun _ hb => hb) rfl rfl trivial
  | intrEnter =>
    exact h.acquire hpc hnext rfl rfl rfl trivial
  | intrTest =>
    cases hnext
    exact h.intrTest hpc
  | intrRead =>
    cases hnext
    exact h.intrRead hpc
  | intrDone id =>
    cases hnext
    exact h.complete hpc
  | intrLeave =>
    cases hnext
    exact h.release hpc rfl rfl (fun _ hb => hnone hb) rfl rfl trivial
  | _ =>
    cases hnext

theorem Ok.next {e : Event} (hnext : w.next e = some w') : w'.Ok := by
  have hnone : ∀ {b : Nat} {o : Option Nat}, none = some b → o = some b := fun hb => by cases hb
  unfold World.next at hnext
  rw [if_neg (by rw [h.sane]; decide)] at hnext
  cases e with
  | lockBuf t b blockno =>
    simp only [Option.ite_none_right_eq_some] at hnext
    obtain ⟨⟨hpc, hlock⟩, hnext⟩ := hnext
    cases hnext
    refine h.setBuf hpc (fun u _ hb => ?_) rfl rfl rfl rfl rfl (fun b' hb' => ⟨(Option.some.inj hb').symm, rfl⟩)
      fun _ => trivial
    exact absurd (hlock.symm.trans (h.locks.buf u b hb)) (by simp)
  | unlockBuf t =>
    simp only at hnext
    split at hnext
    · rename_i b hpc
      cases hnext
      refine h.setBuf hpc (fun u hu hb => ?_) rfl rfl rfl rfl rfl (fun b' hb' => by cases hb') fun _ => trivial
      exact h.buf_ne (by rw [hpc]; rfl) hu hb rfl
    · cases hnext
  | call t write =>
    simp only at hnext
    split at hnext
    · rename_i b hpc
      cases hnext
      exact h.goto hpc (fun hl => absurd hl Bool.false_ne_true) (fun _ hb => hb) rfl rfl trivial
    · cases hnext
  | interrupt t =>
    simp only [Option.ite_none_right_eq_some] at hnext
    obtain ⟨hpc, hnext⟩ := hnext
    cases hnext
    exact h.goto hpc (fun hl => absurd hl Bool.false_ne_true) (fun _ hb => hnone hb) rfl rfl trivial
  | run t => exact h.run hnext
  | kill t =>
    have hsame := (Pc.woken_kill (w.thread t)).toSame
    cases hnext
    exact h.goto rfl (fun hl => hsame.locked ▸ hl)
      (fun b hb => hsame.buf ▸ hb) hsame.chain hsame.waits
      ((h.thread t).woken (Pc.woken_kill _))
  | fetch => exact h.fetch hnext
  | serve i => exact h.serve hnext
  | post i => exact h.post hnext
  | bumpUsed => exact h.bumpUsed hnext

end

theorem ok_start : start.Ok where
  sane := rfl
  locks := ⟨fun _ hl => absurd hl Bool.false_ne_true, fun _ _ hb => by cases hb⟩
  owners := by
    refine ⟨?_, ?_, ?_, ?_⟩
    · exact fun t x hx => by cases hx
    · exact fun t x i hx => by cases hx
    · exact fun t u x y i hx => by cases hx
    · exact fun i _ hbusy => by cases hbusy
  rings := by
    refine ⟨rfl, rfl, Nat.le_refl _, rfl, rfl, Nat.le_refl _, List.nodup_nil, ?_, ?_, ?_, ?_, ?_⟩
    · exact fun e he => by cases he
    · exact fun n e _ he => by cases he
    · exact fun m s _ hs => by cases hs
    · exact fun p hp => by cases hp
    · exact fun p hp => by cases hp
  waits n hn := by cases hn
  carried n op t c x hcar hwaits := by cases hwaits
  thread t := trivial

/-! ## In every reached state -/

/-- Completions are matched to requests. -/
structure Matched (w : World) : Prop where
  /-- No panic was reached, and the device met no chain that is no request. -/
  sane : w.crashed = false
  /-- The chain of a thread has three descriptors, none of them free. -/
  chains : ∀ t x, (w.thread t).chain = some x →
    x.list.Nodup ∧ ∀ i ∈ x.list, i < NUM ∧ w.disk.free i = false
  disjoint : ∀ t u x y, t ≠ u → (w.thread t).chain = some x → (w.thread u).chain = some y →
    x.list.Disjoint y.list
  /-- What the handler reads is the chain of a request on its way, for the
  buffer in `info`. -/
  handler : ∀ t id, w.thread t = .intrDone id → ∃ u c x n,
    (w.thread u).waits = some (c, x, n) ∧ x.head = id ∧ n ∈ w.live ∧
      (w.disk.info id).b = some c.b
  /-- A thread that has left the loop of `virtio_disk_rw` does so after its
  request. -/
  returns : ∀ t c n, (∃ x, w.thread t = .finish c x n) ∨ w.thread t = .leave c n → w.Done t c n
  /-- Entries of the avail ring stay until the device takes them. -/
  avail : ∀ n e, w.fetched ≤ n → w.avails[n]? = some e →
    w.disk.avail.ring (n % NUM) = UInt16.ofNat e.2
  /-- Entries of the used ring stay until the handler takes them. -/
  used : ∀ m s, w.seen ≤ m → w.posted[m]? = some s →
    ∃ e, w.avails[s.num]? = some e ∧ w.disk.used.ring (m % NUM) = UInt32.ofNat e.2
  quiet : (∀ t, (w.thread t).inCall = false) → ∀ i, i < NUM → w.disk.free i = true

theorem Ok.matched (h : w.Ok) : w.Matched where
  sane := h.sane
  chains t x hx := ⟨(h.owners.ok t x hx).nodup, fun i hi =>
    ⟨(h.owners.ok t x hx).bound i hi, h.owners.busy t x i hx hi⟩⟩
  disjoint t u x y hne hx hy i hi hi' := hne (h.owners.apart t u x y i hx hy hi hi')
  handler t id hpc := by
    obtain ⟨s, u, c, x, -, hwaits, hid, hlive, hb, -, -⟩ := h.handler hpc
    exact ⟨u, c, x, s.num, hwaits, hid, hlive, hb⟩
  returns t c n hpc := by
    have hthread := h.thread t
    rcases hpc with ⟨x, hpc⟩ | hpc
    · rw [hpc] at hthread
      exact hthread.2
    · rw [hpc] at hthread
      exact hthread
  avail := h.rings.avail
  used := h.rings.used
  quiet hout i hi := by
    cases hbusy : w.disk.free i with
    | true => rfl
    | false =>
      obtain ⟨t, x, hx, -⟩ := h.owners.used i hi hbusy
      exact absurd ((Pc.inCall_of_chain hx).symm.trans (hout t)) (by decide)

open Xv6.Lib.Trans in
/-- In every state that any number of threads, interrupts and the device can
reach, completions are matched to requests. -/
theorem completions_matched (h : Reach (fun e w => w.next e) (fun _ _ => True) start w) :
    w.Matched :=
  (h.invariant ok_start fun _ _ _ hok _ hnext => hok.next hnext).matched

/-- Two threads have a request each, and the device completes the second
first: the handler reads the chain of the second. -/
theorem completions_matched_reordered : ∃ w, Matched w ∧ w.thread 2 = .intrDone 3 ∧
    w.thread 1 = .asleep ⟨1, true⟩ ⟨3, 4, 5⟩ 1 := by
  have hrun : ((Trans.follow (fun e w => World.next e w) (fun _ _ => true)
      ([.lockBuf 0 0 7, .call 0 false] ++ List.replicate 6 (.run 0) ++
        [.lockBuf 1 1 9, .call 1 true] ++ List.replicate 6 (.run 1) ++
        [.fetch, .fetch, .serve 1, .post 1, .bumpUsed, .interrupt 2, .run 2, .run 2, .run 2])
      start).any fun w => w.thread 2 = .intrDone 3 ∧
        w.thread 1 = .asleep ⟨1, true⟩ ⟨3, 4, 5⟩ 1) = true := by
    decide +kernel
  obtain ⟨w, hreach, hfact⟩ := Trans.Reach.of_any hrun
  exact ⟨w, completions_matched hreach, by simpa using hfact⟩

end World

end Xv6.Virtio
