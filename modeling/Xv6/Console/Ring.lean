import Mathlib.Data.List.Induction
import Xv6.Console.Model

/-!
# The ring of the console

`Cons.Holds cons ready line` says which bytes lie in the ring: those between
`cons.r` and `cons.w` are committed and belong to the readers, those between
`cons.w` and `cons.e` are still being edited. The indices only enter by their
distances, so that it makes no difference how often they have wrapped; and as
`INPUT_BUF` divides `2^32`, the slot of an index does not jump when it does.

Each way in which the code moves an index has a lemma here that says what it
does to the two lists.
-/

namespace Xv6.Console

open Function

/-- The ring has the committed bytes `ready`, the oldest first, and then the
bytes `line`. -/
structure Cons.Holds (cons : Cons) (ready line : List UInt8) : Prop where
  w : (cons.w - cons.r).toNat = ready.length
  e : (cons.e - cons.r).toNat = ready.length + line.length
  room : ready.length + line.length ≤ INPUT_BUF.toNat
  bytes : ∀ i c, (ready ++ line)[i]? = some c →
    cons.buf ((cons.r.toNat + i) % INPUT_BUF.toNat) = c

namespace Cons

variable {cons : Cons} {ready line : List UInt8} {c : UInt8}

theorem byteAt_eq (cons : Cons) (i : UInt32) :
    cons.byteAt i = cons.buf (i.toNat % INPUT_BUF.toNat) := by
  unfold byteAt
  rw [UInt32.toNat_mod]

theorem toNat_INPUT_BUF : INPUT_BUF.toNat = 128 := rfl

@[simp]
theorem holds_consputc {x : Nat} : (cons.consputc x).Holds ready line ↔ cons.Holds ready line := by
  unfold consputc
  split <;> exact ⟨fun h => ⟨h.w, h.e, h.room, h.bytes⟩, fun h => ⟨h.w, h.e, h.room, h.bytes⟩⟩

theorem Holds.r_eq_w (h : cons.Holds ready line) : cons.r = cons.w ↔ ready = [] := by
  have hw := h.w
  have hr := cons.r.toNat_lt
  have hw' := cons.w.toNat_lt
  rw [UInt32.toNat_sub] at hw
  rw [← UInt32.toNat_inj, ← List.length_eq_zero_iff]
  omega

theorem Holds.e_eq_w (h : cons.Holds ready line) : cons.e = cons.w ↔ line = [] := by
  have hw := h.w
  have he := h.e
  have hr := cons.r.toNat_lt
  have hw' := cons.w.toNat_lt
  have he' := cons.e.toNat_lt
  rw [UInt32.toNat_sub] at hw he
  rw [← UInt32.toNat_inj, ← List.length_eq_zero_iff]
  omega

/-- A reader takes a byte. -/
theorem Holds.take (h : cons.Holds (c :: ready) line) :
    cons.byteAt cons.r = c ∧ { cons with r := cons.r + 1 }.Holds ready line := by
  have hw := h.w
  have he := h.e
  have hroom := h.room
  have hr := cons.r.toNat_lt
  have hw' := cons.w.toNat_lt
  have he' := cons.e.toNat_lt
  rw [UInt32.toNat_sub] at hw he
  rw [List.length_cons] at hw he hroom
  rw [toNat_INPUT_BUF] at hroom
  refine ⟨?_, ?_, ?_, ?_, ?_⟩
  · rw [byteAt_eq]
    exact h.bytes 0 c rfl
  · show (cons.w - (cons.r + 1)).toNat = _
    rw [UInt32.toNat_sub, UInt32.toNat_add, UInt32.toNat_one]
    omega
  · show (cons.e - (cons.r + 1)).toNat = _
    rw [UInt32.toNat_sub, UInt32.toNat_add, UInt32.toNat_one]
    omega
  · rw [toNat_INPUT_BUF]
    omega
  · intro i d hd
    have hslot : ((cons.r + 1).toNat + i) % INPUT_BUF.toNat =
        (cons.r.toNat + (i + 1)) % INPUT_BUF.toNat := by
      rw [UInt32.toNat_add, UInt32.toNat_one, toNat_INPUT_BUF]
      omega
    rw [hslot]
    exact h.bytes (i + 1) d hd

theorem Holds.erase (h : cons.Holds ready (line ++ [c])) :
    cons.byteAt (cons.e - 1) = c ∧ cons.erase.Holds ready line := by
  have he := h.e
  have hroom := h.room
  have hr := cons.r.toNat_lt
  have he' := cons.e.toNat_lt
  rw [UInt32.toNat_sub] at he
  rw [List.length_append, List.length_singleton] at he hroom
  rw [toNat_INPUT_BUF] at hroom
  constructor
  · rw [byteAt_eq]
    have hslot : (cons.e - 1).toNat % INPUT_BUF.toNat =
        (cons.r.toNat + (ready ++ line).length) % INPUT_BUF.toNat := by
      rw [UInt32.toNat_sub, UInt32.toNat_one, toNat_INPUT_BUF, List.length_append]
      omega
    rw [hslot]
    refine h.bytes _ c ?_
    rw [← List.append_assoc]
    exact List.getElem?_concat_length
  · rw [Cons.erase, holds_consputc]
    refine ⟨h.w, ?_, ?_, fun i d hd => h.bytes i d ?_⟩
    · show (cons.e - 1 - cons.r).toNat = _
      rw [UInt32.toNat_sub, UInt32.toNat_sub, UInt32.toNat_one]
      omega
    · rw [toNat_INPUT_BUF]
      omega
    · rw [← List.append_assoc]
      rw [List.getElem?_append_left (List.getElem?_eq_some_iff.mp hd).1]
      exact hd

section

variable (h : cons.Holds ready line)
include h

/-- `^U` takes back the whole line, which has no end of line in it. -/
theorem Holds.killLine (hline : LF ∉ line) : cons.killLine.Holds ready [] := by
  induction line using List.reverseRecOn generalizing cons with
  | nil =>
    rw [Cons.killLine, if_neg fun hne => hne.1 (h.e_eq_w.mpr rfl)]
    exact h
  | append_singleton line c ih =>
    rw [List.mem_append, List.mem_singleton, not_or] at hline
    have hne : cons.e ≠ cons.w := fun heq => by simpa using h.e_eq_w.mp heq
    rw [Cons.killLine, if_pos ⟨hne, by rw [h.erase.1]; exact fun heq => hline.2 heq.symm⟩]
    exact ih h.erase.2 hline.1

theorem Holds.lt_iff :
    cons.e - cons.r < INPUT_BUF ↔ ready.length + line.length < INPUT_BUF.toNat := by
  rw [UInt32.lt_iff_toNat_lt, h.e]

theorem Holds.full_iff :
    cons.e = cons.r + INPUT_BUF ↔ ready.length + line.length = INPUT_BUF.toNat := by
  have he := h.e
  have hr := cons.r.toNat_lt
  have he' := cons.e.toNat_lt
  have hroom := h.room
  rw [UInt32.toNat_sub] at he
  rw [toNat_INPUT_BUF] at hroom
  rw [← UInt32.toNat_inj, UInt32.toNat_add, toNat_INPUT_BUF]
  omega

theorem Holds.store (hroom : ready.length + line.length < INPUT_BUF.toNat) :
    (cons.store c).Holds ready (line ++ [c]) := by
  have he := h.e
  have hr := cons.r.toNat_lt
  have he' := cons.e.toNat_lt
  rw [UInt32.toNat_sub] at he
  rw [toNat_INPUT_BUF] at hroom
  have hslot : (cons.e % INPUT_BUF).toNat =
      (cons.r.toNat + (ready ++ line).length) % INPUT_BUF.toNat := by
    rw [UInt32.toNat_mod, toNat_INPUT_BUF, List.length_append]
    omega
  refine ⟨h.w, ?_, ?_, ?_⟩
  · show (cons.e + 1 - cons.r).toNat = _
    rw [UInt32.toNat_sub, UInt32.toNat_add, UInt32.toNat_one, List.length_append,
      List.length_singleton]
    omega
  · rw [List.length_append, List.length_singleton, toNat_INPUT_BUF]
    omega
  · intro i d hd
    show update cons.buf (cons.e % INPUT_BUF).toNat c
      ((cons.r.toNat + i) % INPUT_BUF.toNat) = d
    rw [← List.append_assoc] at hd
    rcases Nat.lt_or_ge i (ready ++ line).length with hi | hi
    · rw [List.getElem?_append_left hi] at hd
      rw [update_of_ne, h.bytes i d hd]
      -- two bytes of the ring never share a slot
      rw [hslot, toNat_INPUT_BUF]
      rw [List.length_append] at hi ⊢
      omega
    · rw [List.getElem?_append_right hi] at hd
      obtain ⟨hlt, hd⟩ := List.getElem?_eq_some_iff.mp hd
      have hi' : i = (ready ++ line).length := by
        rw [List.length_singleton] at hlt
        omega
      subst hi'
      rw [hslot, update_self]
      simpa using hd

/-- `cons.w = cons.e`. -/
theorem Holds.commit : { cons with w := cons.e }.Holds (ready ++ line) [] := by
  refine ⟨?_, ?_, ?_, ?_⟩
  · rw [List.length_append]
    exact h.e
  · rw [List.length_append]
    exact h.e
  · rw [List.length_append]
    exact h.room
  · rw [List.append_nil]
    exact h.bytes

theorem Holds.next : cons.next = ready.head? := by
  cases ready with
  | nil => exact if_pos (h.r_eq_w.mpr rfl)
  | cons c ready =>
    unfold Cons.next
    rw [if_neg fun heq => by simpa using h.r_eq_w.mp heq, h.take.1]
    rfl

end

end Cons

end Xv6.Console
