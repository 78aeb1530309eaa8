import Mathlib.Logic.Function.Basic
import Xv6.Lib.CInt

/-!
# The two copies of `memmove`

`memmove` of `kernel/string.c` and of `user/ulib.c`. Both copy byte by byte,
upwards or downwards; the kernel goes down only where the destination begins
inside the source, the library whenever it does not begin below it. Memory is
the bytes by address, and pointers wrap at 64 bits.

Everywhere else in the model a call of `memmove` is one `splice`. That this is
what either loop leaves is shown here.
-/

namespace Xv6

open Xv6.Lib.CInt

/-- `while(n-- > 0) *d++ = *s++;` -/
def copyUp (mem : Bytes) (d s : Nat) : Nat → Bytes
  | 0 => mem
  | n + 1 => copyUp (Function.update mem d (mem s)) (uint64 (d + 1)) (uint64 (s + 1)) n

/-- `while(n-- > 0) *--d = *--s;` -/
def copyDown (mem : Bytes) (d s : Nat) : Nat → Bytes
  | 0 => mem
  | n + 1 =>
    let d' := uint64 (d - 1)
    let s' := uint64 (s - 1)
    copyDown (Function.update mem d' (mem s')) d' s' n

/-- `memmove` of the kernel: what it returns, and memory after it. -/
def memmove (mem : Bytes) (dst src n : Nat) : Nat × Bytes :=
  if src < dst ∧ dst < uint64 (src + n) then
    (dst, copyDown mem (uint64 (dst + n)) (uint64 (src + n)) n)
  else (dst, copyUp mem dst src n)

/-- `memmove` of the user library, where `n` is an `int`. -/
def Ulib.memmove (mem : Bytes) (dst src : Nat) (n : Int) : Nat × Bytes :=
  if dst < src then (dst, copyUp mem dst src n.toNat)
  else (dst, copyDown mem (uint64 (dst + n)) (uint64 (src + n)) n.toNat)

variable {mem : Bytes} {d s n : Nat}

/-- A copy upwards reads no byte that it has written, unless the destination
begins inside the source. -/
theorem copyUp_eq (hd : d + n ≤ 2 ^ 64) (hs : s + n ≤ 2 ^ 64) (hsafe : d ≤ s ∨ s + n ≤ d) :
    copyUp mem d s n = splice mem d mem s n := by
  induction n generalizing mem d s with
  | zero => exact (splice_zero ..).symm
  | succ n ih =>
    have hrest : copyUp (Function.update mem d (mem s)) (uint64 (d + 1)) (uint64 (s + 1)) n =
        splice (Function.update mem d (mem s)) (d + 1) (Function.update mem d (mem s)) (s + 1) n := by
      -- after the last byte the pointers may wrap, and nothing more is copied
      rcases Nat.eq_zero_or_pos n with rfl | hn
      · exact (splice_zero ..).symm
      · rw [← Nat.cast_add_one, ← Nat.cast_add_one, uint64_of_lt (by omega), uint64_of_lt (by omega)]
        exact ih (by omega) (by omega) (by omega)
    rw [copyUp, hrest]
    funext i
    simp only [splice, Function.update_apply]
    split_ifs <;> first | omega | (congr 1 <;> omega)

/-- A copy downwards reads no byte that it has written, unless the source
begins inside the destination. -/
theorem copyDown_eq (hd : d + n ≤ 2 ^ 64) (hs : s + n ≤ 2 ^ 64) (hsafe : s ≤ d ∨ d + n ≤ s) :
    copyDown mem (uint64 (d + n)) (uint64 (s + n)) n = splice mem d mem s n := by
  induction n generalizing mem with
  | zero => exact (splice_zero ..).symm
  | succ n ih =>
    have hback (p : Nat) (hp : p + (n + 1) ≤ 2 ^ 64) :
        uint64 (uint64 (p + (n + 1 : Nat)) - 1) = p + n := by
      unfold uint64
      omega
    have hstart (p : Nat) (hp : p + (n + 1) ≤ 2 ^ 64) : uint64 (p + n) = p + n := by
      rw [← Nat.cast_add, uint64_of_lt (by omega)]
    have hrest := @ih (Function.update mem (d + n) (mem (s + n))) (by omega) (by omega) (by omega)
    rw [hstart d hd, hstart s hs] at hrest
    rw [copyDown, hback d hd, hback s hs, hrest]
    funext i
    simp only [splice, Function.update_apply]
    split_ifs <;> first | omega | (congr 1 <;> omega)

/-- Whatever way the two ranges overlap, either `memmove` leaves at the
destination what was at the source and changes nothing else. -/
theorem memmove_eq_splice (mem : Bytes) (dst src : Nat) :
    (∀ n < 2 ^ 32, dst + n ≤ 2 ^ 64 → src + n ≤ 2 ^ 64 →
      memmove mem dst src n = (dst, splice mem dst mem src n)) ∧
    (∀ n : Int, -2 ^ 31 ≤ n → n < 2 ^ 31 → dst + n ≤ 2 ^ 64 → src + n ≤ 2 ^ 64 →
      Ulib.memmove mem dst src n = (dst, splice mem dst mem src n.toNat)) ∧
    (∀ n < 2 ^ 31, dst + n ≤ 2 ^ 64 → src + n ≤ 2 ^ 64 →
      Ulib.memmove mem dst src n = memmove mem dst src n) := by
  have hkernel (n : Nat) (hd : dst + n ≤ 2 ^ 64) (hs : src + n ≤ 2 ^ 64) :
      memmove mem dst src n = (dst, splice mem dst mem src n) := by
    unfold memmove
    split
    case isTrue h => rw [copyDown_eq hd hs (.inl (by omega))]
    case isFalse h =>
      rcases Nat.lt_or_ge src dst with hlt | hle
      · rw [← Nat.cast_add, uint64_of_lt (by omega)] at h
        rw [copyUp_eq hd hs (by omega)]
      · rw [copyUp_eq hd hs (.inl hle)]
  have hlib (n : Int) (hd : dst + n ≤ 2 ^ 64) (hs : src + n ≤ 2 ^ 64) :
      Ulib.memmove mem dst src n = (dst, splice mem dst mem src n.toNat) := by
    rcases lt_or_ge n 0 with hneg | hpos
    · -- a negative length moves the pointers, and the loop copies nothing
      rw [Ulib.memmove, Int.toNat_of_nonpos hneg.le, splice_zero]
      split <;> rfl
    · obtain ⟨n, rfl⟩ := Int.eq_ofNat_of_zero_le hpos
      unfold Ulib.memmove
      split
      case isTrue h => rw [Int.toNat_natCast, copyUp_eq (by omega) (by omega) (.inl h.le)]
      case isFalse h =>
        rw [Int.toNat_natCast, copyDown_eq (by omega) (by omega) (.inl (by omega))]
  refine ⟨fun n _ hd hs => hkernel n hd hs, fun n _ _ hd hs => hlib n hd hs, fun n _ hd hs => ?_⟩
  rw [hlib n (by omega) (by omega), hkernel n hd hs, Int.toNat_natCast]

/-- Eight bytes moved up by three, and down by three. -/
theorem memmove_eq_splice_overlap :
    memmove UInt8.ofNat 3 0 8 = (3, splice UInt8.ofNat 3 UInt8.ofNat 0 8) ∧
      Ulib.memmove UInt8.ofNat 0 3 8 = (0, splice UInt8.ofNat 0 UInt8.ofNat 3 8) ∧
      Ulib.memmove UInt8.ofNat 3 0 8 = memmove UInt8.ofNat 3 0 8 := by
  refine ⟨?_, ?_, ?_⟩
  · exact (memmove_eq_splice UInt8.ofNat 3 0).1 8 (by decide) (by decide) (by decide)
  · exact (memmove_eq_splice UInt8.ofNat 0 3).2.1 8 (by decide) (by decide) (by decide) (by decide)
  · exact (memmove_eq_splice UInt8.ofNat 3 0).2.2 8 (by decide) (by decide) (by decide)

end Xv6
