import Mathlib.Data.List.Basic
import Xv6.Lib.Trans
import Xv6.Pipe.Model

/-!
# A pipe is a queue

The counters of a pipe are the lengths of the two ghost sequences, cut to 32
bits, and the byte of position `k` of `put` lies at `k % PIPESIZE` from the
moment it is stored until it is taken. `Ring.Fifo` says so. As `PIPESIZE`
divides `2 ^ 32`, the wrap of the counters moves no byte, and as at most
`PIPESIZE` bytes lie between the two lengths, equality of the counters tells
full from empty.

Only three things happen to a ring: nothing, a `store` into one that is not
full and a `take` out of one that is not empty (`ring_next`).
-/

namespace Xv6.Pipe

open Xv6.Lib.CInt Xv6.Lib.Trans

namespace Ring

/-- The wrap of a 32-bit counter does not move the slot it points at. -/
theorem slot_eq (m k : Nat) : (m % 2 ^ 32 + k) % PIPESIZE = (m + k) % PIPESIZE := by
  simp only [PIPESIZE]
  omega

/-- The ring holds what was put in and not taken out yet. -/
structure Fifo (r : Ring) : Prop where
  order : r.taken <+: r.put
  room : r.put.length ≤ r.taken.length + PIPESIZE
  nread : r.nread = r.taken.length % 2 ^ 32
  nwrite : r.nwrite = r.put.length % 2 ^ 32
  kept : ∀ k, r.taken.length ≤ k → (hk : k < r.put.length) → r.data (k % PIPESIZE) = r.put[k]

variable {r : Ring}

theorem Fifo.used_eq (h : r.Fifo) : r.used = r.put.length - r.taken.length := by
  have hle := h.order.length_le
  have hroom := h.room
  unfold used uint32
  rw [h.nread, h.nwrite]
  simp only [PIPESIZE] at hroom
  omega

theorem Fifo.used_le (h : r.Fifo) : r.used ≤ PIPESIZE := by
  have hroom := h.room
  rw [h.used_eq]
  omega

theorem Fifo.full_iff (h : r.Fifo) : r.full = true ↔ r.put.length = r.taken.length + PIPESIZE := by
  have hle := h.order.length_le
  have hroom := h.room
  unfold full uint32
  rw [decide_eq_true_iff, h.nread, h.nwrite]
  simp only [PIPESIZE] at hroom ⊢
  omega

theorem Fifo.empty_iff (h : r.Fifo) : r.empty = true ↔ r.put.length = r.taken.length := by
  have hle := h.order.length_le
  have hroom := h.room
  unfold empty
  rw [decide_eq_true_iff, h.nread, h.nwrite]
  simp only [PIPESIZE] at hroom
  omega

/-- What was taken and what is in the ring is what was put. -/
theorem Fifo.put_eq (h : r.Fifo) : r.put = r.taken ++ r.content := by
  obtain ⟨rest, hrest⟩ := h.order
  have hlen : rest.length = r.used := by
    rw [h.used_eq, ← hrest, List.length_append]
    omega
  rw [← hrest]
  congr 1
  apply List.ext_getElem
  · rw [content, List.length_map, List.length_range, hlen]
  · intro k hk hk'
    have hput : r.taken.length + k < r.put.length := by
      rw [← hrest, List.length_append]
      omega
    have hkept := h.kept (r.taken.length + k) (by omega) hput
    simp only [content, List.getElem_map, List.getElem_range]
    rw [h.nread, slot_eq, hkept]
    simp [← hrest]

theorem Fifo.store (h : r.Fifo) (hfull : ¬r.full = true) (ch : UInt8) : (r.store ch).Fifo := by
  have hle := h.order.length_le
  have hroom := h.room
  rw [h.full_iff] at hfull
  refine ⟨h.order.trans (List.prefix_append _ _), ?_, h.nread, ?_, ?_⟩
  · simp only [Ring.store, List.length_append, List.length_singleton]
    omega
  · simp only [Ring.store, List.length_append, List.length_singleton, h.nwrite]
    unfold uint32
    omega
  · intro k hk hput
    simp only [Ring.store, List.length_append, List.length_singleton] at hk hput ⊢
    have hslot : r.nwrite % PIPESIZE = r.put.length % PIPESIZE := by
      rw [h.nwrite]
      exact slot_eq _ 0
    rw [hslot]
    by_cases hlast : k = r.put.length
    · subst hlast
      rw [Function.update_self, List.getElem_concat_length rfl]
    · -- At most `PIPESIZE` bytes are in the ring, so an older one lies elsewhere.
      have hne : k % PIPESIZE ≠ r.put.length % PIPESIZE := by
        simp only [PIPESIZE] at hroom hfull ⊢
        omega
      rw [Function.update_of_ne hne, List.getElem_append_left (by omega)]
      exact h.kept k hk (by omega)

theorem Fifo.take (h : r.Fifo) (hempty : ¬r.empty = true) : r.take.Fifo := by
  have hle := h.order.length_le
  have hroom := h.room
  rw [h.empty_iff] at hempty
  have hlt : r.taken.length < r.put.length := by omega
  have hbyte : r.data (r.nread % PIPESIZE) = r.put[r.taken.length] := by
    have hslot : r.nread % PIPESIZE = r.taken.length % PIPESIZE := by
      rw [h.nread]
      exact slot_eq _ 0
    rw [hslot]
    exact h.kept _ le_rfl hlt
  refine ⟨?_, ?_, ?_, h.nwrite, ?_⟩
  · obtain ⟨rest, hrest⟩ := h.order
    rcases rest with _ | ⟨b, rest⟩
    · exact absurd (congrArg List.length hrest) (by simpa using hempty ∘ Eq.symm)
    · refine ⟨rest, ?_⟩
      have hb : r.put[r.taken.length] = b := by simp [← hrest]
      simp only [Ring.take]
      rw [hbyte, hb, List.append_assoc]
      exact hrest
  · simp only [Ring.take, List.length_append, List.length_singleton]
    omega
  · simp only [Ring.take, List.length_append, List.length_singleton, h.nread]
    unfold uint32
    omega
  · intro k hk hput
    simp only [Ring.take, List.length_append, List.length_singleton] at hk hput ⊢
    exact h.kept k (by omega) hput

end Ring

/-! ## What a step does to the ring -/

/-- What one step can do to a ring. -/
inductive RingStep (r : Ring) : Ring → Prop where
  | same : RingStep r r
  | store (ch : UInt8) (hfull : ¬r.full = true) : RingStep r (r.store ch)
  | take (hempty : ¬r.empty = true) : RingStep r r.take

theorem RingStep.fifo {r r' : Ring} (h : RingStep r r') (hfifo : r.Fifo) : r'.Fifo := by
  cases h with
  | same => exact hfifo
  | store ch hfull => exact hfifo.store hfull ch
  | take hempty => exact hfifo.take hempty

namespace World

variable {w w' : World}

theorem ring_writeTurn (w : World) (p : Nat) (n : Int) (i : Nat) (byte : Option UInt8) :
    RingStep w.ring (w.writeTurn p n i byte).ring := by
  unfold writeTurn
  split_ifs with hi hstop hfull
  · exact .same
  · exact .same
  · cases byte with
    | none => exact .same
    | some ch => exact .store ch hfull
  · exact .same

theorem ring_readTurn (w : World) (p : Nat) (n : Int) (i : Nat) (copied : Bool) :
    RingStep w.ring (w.readTurn p n i copied).ring := by
  unfold readTurn
  split_ifs with hi hcopied
  · exact .take hi.2
  · exact .take hi.2
  · exact .same

theorem ring_wakeupTurn {p : Nat} {chan : Chan} {j : Nat} {after : After}
    (h : w.wakeupTurn p chan j after = some w') : w'.ring = w.ring := by
  unfold wakeupTurn at h
  split_ifs at h
  · cases h
    rfl
  · cases after <;> cases h <;> rfl

theorem ring_acquire {p : Nat} {pc : Pc} (h : w.acquire p pc = some w') : w'.ring = w.ring := by
  unfold acquire at h
  split_ifs at h
  cases h
  rfl

theorem ring_call {p : Nat} {pc : Pc} (h : w.call p pc = some w') : w'.ring = w.ring := by
  unfold call at h
  split_ifs at h
  cases h
  rfl

theorem ring_run {p : Nat} {byte : Option UInt8} {copied : Bool}
    (h : w.run p byte copied = some w') : RingStep w.ring w'.ring := by
  unfold run at h
  split at h
  · cases h
  · rw [ring_acquire h]
    exact .same
  · cases h
    exact w.ring_writeTurn _ _ _ _
  · rw [ring_acquire h]
    exact .same
  · cases h
    unfold readWaitTurn
    split_ifs <;> exact .same
  · cases h
    exact w.ring_readTurn _ _ _ _
  · rw [ring_wakeupTurn h]
    exact .same
  · next writable _ =>
    split_ifs at h
    cases h
    cases writable <;> exact .same

theorem ring_next {e : Event} (h : next e w = some w') : RingStep w.ring w'.ring := by
  cases e with
  | writeCall p n => exact ring_call h ▸ .same
  | readCall p n => exact ring_call h ▸ .same
  | closeCall p writable => exact ring_call h ▸ .same
  | run p byte copied =>
    simp only [next] at h
    split at h
    · exact ring_run h
    · cases h
      exact .same
    · cases h
  | kill p =>
    simp only [next] at h
    split_ifs at h
    cases h
    exact .same

/-- **A pipe is a queue.**  Whatever calls were made on a pipe and however
they were interleaved, at most `PIPESIZE` bytes are in the ring, and what was
taken out followed by what is in the ring is what was put in. -/
theorem pipe_fifo {data : Nat → UInt8} (h : Reach next (fun _ _ => True) (start data) w) :
    w.ring.used ≤ PIPESIZE ∧ w.ring.put = w.ring.taken ++ w.ring.content := by
  have hfifo : w.ring.Fifo := by
    refine h.invariant ?_ fun e w w' hw _ hnext => (ring_next hnext).fifo hw
    refine ⟨List.nil_prefix, by simp [start], rfl, rfl, ?_⟩
    intro k _ hk
    exact absurd hk (by simp [start])
  exact ⟨hfifo.used_le, hfifo.put_eq⟩

/-- Two bytes written, one of them read. -/
def passOne : List Event :=
  [.writeCall 0 2, .readCall 1 1, .run 0 none true, .run 0 (some 7) true, .run 0 (some 8) true] ++
    List.replicate (NPROC + 2) (.run 0 none true) ++
    [.run 1 none true, .run 1 none true, .run 1 none true]

theorem pipe_fifo_pass : ∃ w, follow next (fun _ _ => true) passOne (start fun _ => 0) = some w ∧
    w.ring.taken = [7] ∧ w.ring.content = [8] ∧
    w.ring.used ≤ PIPESIZE ∧ w.ring.put = w.ring.taken ++ w.ring.content := by
  have hrun : ((follow next (fun _ _ => true) passOne (start fun _ => 0)).any fun w =>
      w.ring.taken = [7] ∧ w.ring.content = [8]) = true := by
    decide +kernel
  obtain ⟨w, hw, hbytes⟩ := (Option.any_eq_true _ _).mp hrun
  have hreach : Reach next (fun _ _ => True) (start fun _ => 0) w :=
    Reach.start.follow (fun _ _ _ => trivial) hw
  have hfact : w.ring.taken = [7] ∧ w.ring.content = [8] := by simpa using hbytes
  exact ⟨w, hw, hfact.1, hfact.2, pipe_fifo hreach⟩

end World

end Xv6.Pipe
