import Mathlib.Data.List.Perm.Basic
import Xv6.Virtio.Chains

/-!
# Requests on their way

A request is live from the moment its entry is in the avail ring until the
interrupt handler has gone through its entry in the used ring. `Rings` says
that the rings hold what their histories say they do. It speaks only of the
rings, the device and the histories, and is kept as long as the rings do not
run full. The indices are the lengths of the histories in sixteen bits; the
size of the rings divides `2 ^ 16`, so the place of an entry does not notice
the wrap.
-/

namespace Xv6.Virtio

open Xv6.Lib Function

variable {n head i num : Nat} {op : Op} {p : Pending}

/-- The requests that the device has taken and not reported. -/
def Device.taken (d : Device) : List Pending := d.pending ++ d.posting.toList

namespace World

variable (w : World)

/-- The numbers of the requests that are live. -/
def live : List Nat :=
  List.range' w.fetched (w.avails.length - w.fetched) ++ w.device.taken.map (·.num) ++
    (w.posted.drop w.seen).map (·.num)

/-- The device carried out `op` for the live request `n`. -/
def Carried (n : Nat) (op : Op) : Prop :=
  (∃ p ∈ w.device.taken, p.num = n ∧ p.op = some op) ∨ ⟨n, op⟩ ∈ w.posted.drop w.seen

/-- The rings and the device agree with the histories. -/
structure Rings : Prop where
  availIdx : w.disk.avail.idx = UInt16.ofNat w.avails.length
  lastAvail : w.device.lastAvail = UInt16.ofNat w.fetched
  fetched : w.fetched ≤ w.avails.length
  usedIdx : w.disk.used.idx = UInt16.ofNat w.posted.length
  lastUsed : w.disk.usedIdx = UInt16.ofNat w.seen
  seen : w.seen ≤ w.posted.length
  nodup : w.live.Nodup
  bound : ∀ e ∈ w.avails, e.2 < NUM
  /-- Entries of the avail ring that the device has not taken. -/
  avail : ∀ n e, w.fetched ≤ n → w.avails[n]? = some e →
    w.disk.avail.ring (n % NUM) = UInt16.ofNat e.2
  /-- Entries of the used ring that the handler has not gone through. -/
  used : ∀ m s, w.seen ≤ m → w.posted[m]? = some s →
    ∃ e, w.avails[s.num]? = some e ∧ w.disk.used.ring (m % NUM) = UInt32.ofNat e.2
  taken : ∀ p ∈ w.device.taken, ∃ t, w.avails[p.num]? = some (t, p.head)
  posting : ∀ p, w.device.posting = some p →
    p.op.isSome ∧ w.disk.used.ring (w.posted.length % NUM) = UInt32.ofNat p.head

/-- The states agree on the rings, the device and the histories. -/
structure SameRings (w w' : World) : Prop where
  avail : w'.disk.avail = w.disk.avail
  used : w'.disk.used = w.disk.used
  usedIdx : w'.disk.usedIdx = w.disk.usedIdx
  device : w'.device = w.device
  avails : w'.avails = w.avails
  fetched : w'.fetched = w.fetched
  posted : w'.posted = w.posted
  seen : w'.seen = w.seen

variable {w} {w' : World}

theorem SameRings.live (h : SameRings w w') : w'.live = w.live := by
  unfold World.live
  rw [h.fetched, h.avails, h.device, h.posted, h.seen]

theorem SameRings.carried (h : SameRings w w') : w'.Carried n op ↔ w.Carried n op := by
  unfold World.Carried
  rw [h.device, h.posted, h.seen]

theorem Rings.same (hr : w.Rings) (h : SameRings w w') : w'.Rings where
  availIdx := by rw [h.avail, h.avails, hr.availIdx]
  lastAvail := by rw [h.device, h.fetched, hr.lastAvail]
  fetched := by rw [h.fetched, h.avails]; exact hr.fetched
  usedIdx := by rw [h.used, h.posted, hr.usedIdx]
  lastUsed := by rw [h.usedIdx, h.seen, hr.lastUsed]
  seen := by rw [h.seen, h.posted]; exact hr.seen
  nodup := by rw [h.live]; exact hr.nodup
  bound := by rw [h.avails]; exact hr.bound
  avail := by rw [h.fetched, h.avails, h.avail]; exact hr.avail
  used := by rw [h.seen, h.posted, h.avails, h.used]; exact hr.used
  taken := by rw [h.device, h.avails]; exact hr.taken
  posting := by rw [h.device, h.used, h.posted]; exact hr.posting

/-! ## Indices -/

theorem toNat_ofNat_mod (n : Nat) : (UInt16.ofNat n).toNat % NUM = n % NUM := by
  rw [UInt16.toNat_ofNat']
  exact Nat.mod_mod_of_dvd n (by decide)

theorem ofNat_succ (n : Nat) : UInt16.ofNat n + 1 = UInt16.ofNat (n + 1) := by
  rw [UInt16.ofNat_add]
  rfl

/-- Entries that are less than a ring apart are at different places. -/
theorem mod_ne {m : Nat} (h : n < m) (hm : m - n < NUM) : n % NUM ≠ m % NUM := by
  simp only [NUM] at *
  omega

theorem mem_live_of_taken (h : p ∈ w.device.taken) : p.num ∈ w.live := by
  unfold World.live
  rw [List.mem_append, List.mem_append]
  exact .inl (.inr (List.mem_map_of_mem h))

theorem mem_live_of_posted {s : Served} (h : s ∈ w.posted.drop w.seen) : s.num ∈ w.live := by
  unfold World.live
  rw [List.mem_append]
  exact .inr (List.mem_map_of_mem h)

theorem Carried.live (h : w.Carried n op) : n ∈ w.live := by
  rcases h with ⟨p, hp, rfl, -⟩ | hs
  · exact mem_live_of_taken hp
  · exact mem_live_of_posted hs

theorem length_live (w : World) : w.live.length =
    (w.avails.length - w.fetched) + w.device.taken.length + (w.posted.length - w.seen) := by
  unfold World.live
  simp only [List.length_append, List.length_range', List.length_map, List.length_drop]

/-! ## Steps of the rings -/

theorem Rings.storeAvail (hr : w.Rings) (hroom : w.live.length < NUM) (head : Nat) :
    (w.storeAvail head).Rings where
  availIdx := hr.availIdx
  lastAvail := hr.lastAvail
  fetched := hr.fetched
  usedIdx := hr.usedIdx
  lastUsed := hr.lastUsed
  seen := hr.seen
  nodup := hr.nodup
  bound := hr.bound
  avail n e hn he := by
    -- The new entry is at the place of the next number, where no live one is.
    have hlt : n < w.avails.length := (List.getElem?_eq_some_iff.mp he).1
    have hlive := length_live w
    have hne : n % NUM ≠ w.avails.length % NUM := mod_ne hlt (by have : w.fetched ≤ n := hn; omega)
    unfold World.storeAvail
    simp only
    rw [hr.availIdx, toNat_ofNat_mod, update_of_ne hne]
    exact hr.avail n e hn he
  used := hr.used
  taken := hr.taken
  posting := hr.posting

theorem live_bumpAvail (hr : w.Rings) (t head : Nat) :
    (w.bumpAvail t head).live.Perm (w.avails.length :: w.live) := by
  have hle := hr.fetched
  unfold World.live World.bumpAvail
  simp only [List.length_append, List.length_singleton]
  have hrange : List.range' w.fetched (w.avails.length + 1 - w.fetched) =
      List.range' w.fetched (w.avails.length - w.fetched) ++ [w.avails.length] := by
    rw [show w.avails.length + 1 - w.fetched = (w.avails.length - w.fetched) + 1 by omega,
      List.range'_1_concat]
    congr 2
    omega
  rw [hrange, List.append_assoc, List.append_assoc, List.append_assoc, List.singleton_append]
  exact List.perm_middle

theorem Rings.live_lt (hr : w.Rings) (hn : n ∈ w.live) : n < w.avails.length := by
  unfold World.live at hn
  rw [List.mem_append, List.mem_append] at hn
  rcases hn with (hn | hn) | hn
  · have hle := hr.fetched
    have := List.mem_range'_1.mp hn
    omega
  · obtain ⟨p, hp, rfl⟩ := List.mem_map.mp hn
    obtain ⟨t, ht⟩ := hr.taken p hp
    exact (List.getElem?_eq_some_iff.mp ht).1
  · obtain ⟨s, hs, rfl⟩ := List.mem_map.mp hn
    obtain ⟨i, hi⟩ := List.mem_iff_getElem?.mp hs
    rw [List.getElem?_drop] at hi
    obtain ⟨e, he, -⟩ := hr.used _ s (Nat.le_add_right _ _) hi
    exact (List.getElem?_eq_some_iff.mp he).1

/-- An entry of a history stays where it is when the history grows. -/
theorem getElem?_append_of_some {α : Type} {l l' : List α} {a : α} (h : l[n]? = some a) :
    (l ++ l')[n]? = some a := by
  rw [List.getElem?_append_left (List.getElem?_eq_some_iff.mp h).1, h]

theorem Rings.bumpAvail (hr : w.Rings) {t : Nat} (hhead : head < NUM)
    (hring : w.disk.avail.ring (w.avails.length % NUM) = UInt16.ofNat head) :
    (w.bumpAvail t head).Rings where
  availIdx := by
    unfold World.bumpAvail
    simp only [List.length_append, List.length_singleton]
    rw [hr.availIdx, ofNat_succ]
  lastAvail := hr.lastAvail
  fetched := by
    have hle := hr.fetched
    unfold World.bumpAvail
    simp only [List.length_append, List.length_singleton]
    omega
  usedIdx := hr.usedIdx
  lastUsed := hr.lastUsed
  seen := hr.seen
  nodup := by
    rw [(live_bumpAvail hr t head).nodup_iff, List.nodup_cons]
    exact ⟨fun h => absurd (hr.live_lt h) (Nat.lt_irrefl _), hr.nodup⟩
  bound e he := by
    rcases List.mem_append.mp he with he | he
    · exact hr.bound e he
    · rw [List.mem_singleton.mp he]
      exact hhead
  avail n e hn he := by
    change (w.avails ++ [(t, head)])[n]? = some e at he
    rcases Nat.lt_or_ge n w.avails.length with hlt | hge
    · rw [List.getElem?_append_left hlt] at he
      exact hr.avail n e hn he
    · obtain ⟨hlt, he⟩ := List.getElem?_eq_some_iff.mp he
      rw [List.length_append, List.length_singleton] at hlt
      have hn : n = w.avails.length := by omega
      subst hn
      rw [List.getElem_concat_length rfl] at he
      subst he
      exact hring
  used m s hm hs := by
    obtain ⟨e, he, hused⟩ := hr.used m s hm hs
    exact ⟨e, getElem?_append_of_some he, hused⟩
  taken p hp := by
    obtain ⟨u, hu⟩ := hr.taken p hp
    exact ⟨u, getElem?_append_of_some hu⟩
  posting := hr.posting

/-- The handler has gone through an entry. -/
def advance (w : World) : World :=
  { w with disk := { w.disk with usedIdx := w.disk.usedIdx + 1 }, seen := w.seen + 1 }

theorem live_advance {s : Served} (hs : w.posted[w.seen]? = some s) :
    w.live.Perm (s.num :: w.advance.live) := by
  obtain ⟨hlt, hs⟩ := List.getElem?_eq_some_iff.mp hs
  unfold World.live World.advance
  simp only
  rw [List.drop_eq_getElem_cons hlt, hs, List.map_cons]
  exact List.perm_middle

theorem Rings.advance (hr : w.Rings) (hseen : w.seen < w.posted.length) : w.advance.Rings where
  availIdx := hr.availIdx
  lastAvail := hr.lastAvail
  fetched := hr.fetched
  usedIdx := hr.usedIdx
  lastUsed := by
    unfold World.advance
    simp only
    rw [hr.lastUsed, ofNat_succ]
  seen := hseen
  nodup := by
    have hnodup := hr.nodup
    rw [(live_advance (List.getElem?_eq_getElem hseen)).nodup_iff, List.nodup_cons] at hnodup
    exact hnodup.2
  bound := hr.bound
  avail := hr.avail
  used m s hm hs := hr.used m s (Nat.le_of_succ_le hm) hs
  taken := hr.taken
  posting := hr.posting

/-! ## Steps of the device -/

/-- The device takes the entry with the next number. -/
def take (w : World) (head : Nat) : World :=
  { w with
    device := { w.device with
      lastAvail := w.device.lastAvail + 1, pending := w.device.pending ++ [⟨w.fetched, head, none⟩] }
    fetched := w.fetched + 1 }

theorem fetch_eq (hr : w.Rings) (h : w.fetch = some w') :
    ∃ e, w.avails[w.fetched]? = some e ∧ w' = w.take e.2 := by
  unfold World.fetch at h
  rw [Option.ite_none_right_eq_some] at h
  obtain ⟨hne, h⟩ := h
  cases h
  have hlt : w.fetched < w.avails.length := by
    rcases Nat.lt_or_eq_of_le hr.fetched with hlt | heq
    · exact hlt
    · exact absurd (by rw [hr.lastAvail, hr.availIdx, heq]) hne
  obtain ⟨e, he⟩ : ∃ e, w.avails[w.fetched]? = some e := ⟨_, List.getElem?_eq_getElem hlt⟩
  have hbound : e.2 < NUM := hr.bound e (List.mem_of_getElem? he)
  have hhead : (w.disk.avail.ring (w.device.lastAvail.toNat % NUM)).toNat = e.2 := by
    rw [hr.lastAvail, toNat_ofNat_mod, hr.avail _ e (Nat.le_refl _) he, UInt16.toNat_ofNat']
    exact Nat.mod_eq_of_lt (Nat.lt_trans hbound (by decide))
  exact ⟨e, he, by rw [hhead]; rfl⟩

theorem mem_taken_take :
    p ∈ (w.take head).device.taken ↔ p = ⟨w.fetched, head, none⟩ ∨ p ∈ w.device.taken := by
  unfold World.take Device.taken
  simp only [List.mem_append, List.mem_singleton]
  tauto

theorem live_take (hlt : w.fetched < w.avails.length) (head : Nat) :
    (w.take head).live.Perm w.live := by
  have hrange : List.range' w.fetched (w.avails.length - w.fetched) =
      w.fetched :: List.range' (w.fetched + 1) (w.avails.length - (w.fetched + 1)) := by
    rw [show w.avails.length - w.fetched = (w.avails.length - (w.fetched + 1)) + 1 by omega,
      List.range'_succ]
  unfold World.live
  rw [hrange, List.perm_iff_count]
  intro n
  simp only [World.take, Device.taken, List.count_append, List.map_append, List.map_cons,
    List.map_nil, List.count_cons, List.count_nil]
  omega

theorem Rings.take (hr : w.Rings) {e : Nat × Nat} (he : w.avails[w.fetched]? = some e) :
    (w.take e.2).Rings where
  availIdx := hr.availIdx
  lastAvail := by
    unfold World.take
    simp only
    rw [hr.lastAvail, ofNat_succ]
  fetched := (List.getElem?_eq_some_iff.mp he).1
  usedIdx := hr.usedIdx
  lastUsed := hr.lastUsed
  seen := hr.seen
  nodup := (live_take (List.getElem?_eq_some_iff.mp he).1 e.2).nodup_iff.mpr hr.nodup
  bound := hr.bound
  avail n e' hn he' := hr.avail n e' (Nat.le_of_succ_le hn) he'
  used := hr.used
  taken p hp := by
    rcases mem_taken_take.mp hp with rfl | hp
    · exact ⟨e.1, he⟩
    · exact hr.taken p hp
  posting := hr.posting

/-- The device has carried out the request at place `i` of its list. -/
def carry (w : World) (i : Nat) (p : Pending) (op : Op) : World :=
  let info := { w.disk.info op.status with status := 0 }
  { w with
    disk := { w.disk with info := Function.update w.disk.info op.status info }
    device := { w.device with pending := w.device.pending.set i ⟨p.num, p.head, some op⟩ } }

theorem serve_eq (h : w.serve i = some w') :
    ∃ p, w.device.pending[i]? = some p ∧ p.op = none ∧
      (w.disk.op p.head = none ∧ w' = { w with crashed := true } ∨
        ∃ op, w.disk.op p.head = some op ∧ w' = w.carry i p op) := by
  unfold World.serve at h
  split at h
  · rename_i num head hi
    refine ⟨_, hi, rfl, ?_⟩
    split at h
    · rename_i hop
      exact .inl ⟨hop, (Option.some.inj h).symm⟩
    · rename_i op hop
      exact .inr ⟨op, hop, (Option.some.inj h).symm⟩
  · cases h

theorem mem_taken_carry {q : Pending} (hq : q ∈ (w.carry i p op).device.taken) :
    q = ⟨p.num, p.head, some op⟩ ∨ q ∈ w.device.taken := by
  unfold World.carry Device.taken at hq
  rcases List.mem_append.mp hq with hq | hq
  · rcases List.mem_or_eq_of_mem_set hq with hq | rfl
    · exact .inr (List.mem_append_left _ hq)
    · exact .inl rfl
  · exact .inr (List.mem_append_right _ hq)

theorem live_carry (hp : w.device.pending[i]? = some p) : (w.carry i p op).live = w.live := by
  have hnums : (w.device.pending.set i ⟨p.num, p.head, some op⟩).map (·.num) =
      w.device.pending.map (·.num) := by
    obtain ⟨hi, rfl⟩ := List.getElem?_eq_some_iff.mp hp
    rw [List.map_set]
    refine List.ext_getElem (by simp) fun j hj hj' => ?_
    rw [List.getElem_set]
    split
    · rename_i hij
      subst hij
      rw [List.getElem_map]
    · rfl
  unfold World.live World.carry Device.taken
  simp only [List.map_append, hnums]

theorem Rings.carry (hr : w.Rings) (hp : w.device.pending[i]? = some p) :
    (w.carry i p op).Rings where
  availIdx := hr.availIdx
  lastAvail := hr.lastAvail
  fetched := hr.fetched
  usedIdx := hr.usedIdx
  lastUsed := hr.lastUsed
  seen := hr.seen
  nodup := by
    rw [live_carry hp]
    exact hr.nodup
  bound := hr.bound
  avail := hr.avail
  used := hr.used
  taken q hq := by
    rcases mem_taken_carry hq with rfl | hq
    · exact hr.taken p (List.mem_append_left _ (List.mem_of_getElem? hp))
    · exact hr.taken q hq
  posting := hr.posting

/-- The device puts the request at place `i` of its list into the used ring. -/
def putUsed (w : World) (i : Nat) (p : Pending) : World :=
  let ring := Function.update w.disk.used.ring (w.disk.used.idx.toNat % NUM) (UInt32.ofNat p.head)
  { w with
    disk := { w.disk with used := { w.disk.used with ring := ring } }
    device := { w.device with pending := w.device.pending.eraseIdx i, posting := some p } }

theorem post_eq (h : w.post i = some w') :
    ∃ p, w.device.pending[i]? = some p ∧ w.device.posting = none ∧ p.op.isSome = true ∧
      w' = w.putUsed i p := by
  unfold World.post at h
  split at h
  · rename_i p hp hposting
    rw [Option.ite_none_right_eq_some] at h
    exact ⟨p, hp, hposting, h.1, (Option.some.inj h.2).symm⟩
  · cases h

theorem taken_putUsed (hp : w.device.pending[i]? = some p) (hposting : w.device.posting = none) :
    (w.putUsed i p).device.taken.Perm w.device.taken := by
  obtain ⟨hi, rfl⟩ := List.getElem?_eq_some_iff.mp hp
  unfold World.putUsed Device.taken
  simp only [hposting, Option.toList_some, Option.toList_none, List.append_nil]
  exact List.perm_append_comm.trans (List.getElem_cons_eraseIdx_perm hi)

theorem live_putUsed (hp : w.device.pending[i]? = some p) (hposting : w.device.posting = none) :
    (w.putUsed i p).live.Perm w.live :=
  ((taken_putUsed hp hposting).map _ |>.append_left _).append_right _

theorem Rings.putUsed (hr : w.Rings) (hroom : w.live.length ≤ NUM)
    (hp : w.device.pending[i]? = some p) (hposting : w.device.posting = none)
    (hop : p.op.isSome = true) : (w.putUsed i p).Rings where
  availIdx := hr.availIdx
  lastAvail := hr.lastAvail
  fetched := hr.fetched
  usedIdx := hr.usedIdx
  lastUsed := hr.lastUsed
  seen := hr.seen
  nodup := (live_putUsed hp hposting).nodup_iff.mpr hr.nodup
  bound := hr.bound
  avail := hr.avail
  used m s hm hs := by
    -- The request itself is live, so the entries before it do not fill the ring.
    obtain ⟨e, he, hring⟩ := hr.used m s hm hs
    have hlt : m < w.posted.length := (List.getElem?_eq_some_iff.mp hs).1
    have hpos : 0 < w.device.taken.length :=
      List.length_pos_of_mem (List.mem_append_left _ (List.mem_of_getElem? hp))
    have hlive := length_live w
    have hne : m % NUM ≠ w.posted.length % NUM := by
      have hm' : w.seen ≤ m := hm
      exact mod_ne hlt (by omega)
    refine ⟨e, he, ?_⟩
    unfold World.putUsed
    simp only
    rw [hr.usedIdx, toNat_ofNat_mod, update_of_ne hne]
    exact hring
  taken q hq := hr.taken q ((taken_putUsed hp hposting).mem_iff.mp hq)
  posting q hq := by
    obtain rfl := Option.some.inj hq
    refine ⟨hop, ?_⟩
    unfold World.putUsed
    simp only
    rw [hr.usedIdx, toNat_ofNat_mod, update_self]

/-- The device has reported a request. -/
def report (w : World) (s : Served) : World :=
  { w with
    disk := { w.disk with used := { w.disk.used with idx := w.disk.used.idx + 1 } }
    device := { w.device with posting := none }
    posted := w.posted ++ [s] }

theorem bumpUsed_eq (h : w.bumpUsed = some w') :
    ∃ num head op, w.device.posting = some ⟨num, head, some op⟩ ∧ w' = w.report ⟨num, op⟩ := by
  unfold World.bumpUsed at h
  split at h
  · rename_i num head op hposting
    exact ⟨num, head, op, hposting, (Option.some.inj h).symm⟩
  · cases h

theorem taken_report (h : w.device.posting = some ⟨num, head, some op⟩) :
    w.device.taken = (w.report ⟨num, op⟩).device.taken ++ [⟨num, head, some op⟩] := by
  unfold World.report Device.taken
  simp only [h, Option.toList_some, Option.toList_none, List.append_nil]

theorem live_report (hr : w.Rings) (h : w.device.posting = some ⟨num, head, some op⟩) :
    (w.report ⟨num, op⟩).live.Perm w.live := by
  have hdrop : (w.posted ++ [Served.mk num op]).drop w.seen =
      w.posted.drop w.seen ++ [⟨num, op⟩] :=
    List.drop_append_of_le_length hr.seen
  unfold World.live
  rw [taken_report h, List.perm_iff_count]
  intro n
  simp only [World.report, Device.taken, hdrop, List.map_append, List.count_append, List.map_cons,
    List.map_nil]
  omega

theorem Rings.report (hr : w.Rings) (h : w.device.posting = some ⟨num, head, some op⟩) :
    (w.report ⟨num, op⟩).Rings where
  availIdx := hr.availIdx
  lastAvail := hr.lastAvail
  fetched := hr.fetched
  usedIdx := by
    unfold World.report
    simp only [List.length_append, List.length_singleton]
    rw [hr.usedIdx, ofNat_succ]
  lastUsed := hr.lastUsed
  seen := by
    unfold World.report
    simp only [List.length_append, List.length_singleton]
    exact Nat.le_succ_of_le hr.seen
  nodup := (live_report hr h).nodup_iff.mpr hr.nodup
  bound := hr.bound
  avail := hr.avail
  used m s hm hs := by
    change (w.posted ++ [Served.mk num op])[m]? = some s at hs
    rcases Nat.lt_or_ge m w.posted.length with hlt | hge
    · rw [List.getElem?_append_left hlt] at hs
      exact hr.used m s hm hs
    · obtain ⟨hlt, hs⟩ := List.getElem?_eq_some_iff.mp hs
      rw [List.length_append, List.length_singleton] at hlt
      have hm : m = w.posted.length := by omega
      subst hm
      rw [List.getElem_concat_length rfl] at hs
      subst hs
      obtain ⟨t, ht⟩ := hr.taken ⟨num, head, some op⟩ (by
        rw [taken_report h]
        exact List.mem_append_right _ List.mem_cons_self)
      exact ⟨_, ht, (hr.posting _ h).2⟩
  taken q hq := hr.taken q (by
    rw [taken_report h]
    exact List.mem_append_left _ hq)
  posting q hq := absurd hq (by simp [World.report])

end World

end Xv6.Virtio
