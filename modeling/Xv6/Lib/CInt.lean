import Mathlib.Tactic.Common
import Mathlib.Data.Int.ModEq

/-!
# C integers and little-endian words

The fixed-width integers of C as Lean numbers: an `unsigned` value is a
natural number below `2 ^ w`, a signed one an integer in
`[- 2 ^ (w - 1), 2 ^ (w - 1))`. The functions here are the conversions
between them, which all keep the value modulo `2 ^ w`.

`get32` and `put32` read and write a 32-bit word in a byte array, least
significant byte first, and `get16` a 16-bit one. A byte array
is a function from offsets to bytes.
-/

namespace Xv6.Lib.CInt

/-- Conversion to a 32-bit `int`. -/
@[irreducible] def int32 (x : Int) : Int := Int.bmod x (2 ^ 32)

/-- Conversion to a 32-bit `unsigned int`. -/
@[irreducible] def uint32 (x : Int) : Nat := (x % 2 ^ 32).toNat

/-- Conversion to a 64-bit `unsigned long`. -/
@[irreducible] def uint64 (x : Int) : Nat := (x % 2 ^ 64).toNat

theorem uint32_lt (x : Int) : uint32 x < 2 ^ 32 := by
  unfold uint32
  omega

theorem uint64_lt (x : Int) : uint64 x < 2 ^ 64 := by
  unfold uint64
  omega

theorem uint64_shift (addr m j : Nat) :
    uint64 ((uint64 ((addr : Int) + m) : Int) + j) = uint64 ((addr : Int) + (m + j : Nat)) := by
  unfold uint64
  omega

theorem uint32_natCast (n : Nat) : uint32 n = n % 2 ^ 32 := by
  unfold uint32
  omega

theorem uint64_natCast (n : Nat) : uint64 n = n % 2 ^ 64 := by
  unfold uint64
  omega

theorem uint32_of_lt {n : Nat} (h : n < 2 ^ 32) : uint32 n = n := by
  rw [uint32_natCast, Nat.mod_eq_of_lt h]

theorem uint64_of_lt {n : Nat} (h : n < 2 ^ 64) : uint64 n = n := by
  rw [uint64_natCast, Nat.mod_eq_of_lt h]

theorem int32_of_bounds {x : Int} (hlo : -2 ^ 31 ≤ x) (hhi : x < 2 ^ 31) : int32 x = x := by
  unfold int32
  exact Int.bmod_eq_of_le (by omega) (by omega)

theorem int32_bounds (x : Int) : -2 ^ 31 ≤ int32 x ∧ int32 x < 2 ^ 31 := by
  unfold int32
  have hlo := Int.le_bmod (x := x) (m := 2 ^ 32) (by decide)
  have hhi := Int.bmod_lt (x := x) (m := 2 ^ 32) (by decide)
  omega

theorem int32_le_self {x : Int} (h : 0 ≤ x) : int32 x ≤ x := by
  unfold int32
  rw [Int.bmod_def]
  split <;> omega

/-- Bytes by offset. -/
abbrev Bytes := Nat → UInt8

/-- The bytes `dst` with `n` of them, from offset `d` on, taken from offset
`s` of `src`. -/
def splice (dst : Bytes) (d : Nat) (src : Bytes) (s n : Nat) : Bytes := fun i =>
  if d ≤ i ∧ i < d + n then src (s + (i - d)) else dst i

theorem splice_inside {dst src : Bytes} {d s n i : Nat} (hlo : d ≤ i) (hhi : i < d + n) :
    splice dst d src s n i = src (s + (i - d)) :=
  if_pos ⟨hlo, hhi⟩

theorem splice_outside {dst src : Bytes} {d s n i : Nat} (h : i < d ∨ d + n ≤ i) :
    splice dst d src s n i = dst i :=
  if_neg (by omega)

theorem splice_zero (dst : Bytes) (d : Nat) (src : Bytes) (s : Nat) : splice dst d src s 0 = dst :=
  funext fun _ => splice_outside (by omega)

theorem splice_add (dst : Bytes) (d : Nat) (src : Bytes) (s m n : Nat) :
    splice (splice dst d src s m) (d + m) src (s + m) n = splice dst d src s (m + n) := by
  funext i
  unfold splice
  by_cases hrest : d + m ≤ i ∧ i < d + m + n
  · have hat : s + m + (i - (d + m)) = s + (i - d) := by omega
    rw [if_pos hrest, if_pos (by omega), hat]
  · rw [if_neg hrest]
    by_cases hfirst : d ≤ i ∧ i < d + m
    · rw [if_pos hfirst, if_pos (by omega)]
    · rw [if_neg hfirst, if_neg (by omega)]

/-- The 16-bit word at offset `off`, least significant byte first. -/
def get16 (b : Bytes) (off : Nat) : Nat := (b off).toNat + 2 ^ 8 * (b (off + 1)).toNat

/-- The 32-bit word at offset `off`, least significant byte first. -/
def get32 (b : Bytes) (off : Nat) : Nat :=
  (b off).toNat + 2 ^ 8 * (b (off + 1)).toNat + 2 ^ 16 * (b (off + 2)).toNat +
    2 ^ 24 * (b (off + 3)).toNat

/-- Store the 32-bit word `v` at offset `off`, least significant byte
first. -/
def put32 (b : Bytes) (off v : Nat) : Bytes := fun i =>
  if i = off then UInt8.ofNat v
  else if i = off + 1 then UInt8.ofNat (v / 2 ^ 8)
  else if i = off + 2 then UInt8.ofNat (v / 2 ^ 16)
  else if i = off + 3 then UInt8.ofNat (v / 2 ^ 24)
  else b i

/-- A word depends on its four bytes only. -/
theorem get32_congr {b b' : Bytes} {off off' : Nat} (h : ∀ i < 4, b (off + i) = b' (off' + i)) :
    get32 b off = get32 b' off' := by
  have h0 := h 0 (by decide)
  have h1 := h 1 (by decide)
  have h2 := h 2 (by decide)
  have h3 := h 3 (by decide)
  simp only [Nat.add_zero] at h0
  unfold get32
  rw [h0, h1, h2, h3]

/-- A word reads back as it was stored, modulo its width. -/
theorem get32_put32_self (b : Bytes) (off v : Nat) : get32 (put32 b off v) off = v % 2 ^ 32 := by
  simp only [get32, put32, ↓reduceIte, show off + 1 ≠ off by omega,
    show off + 2 ≠ off by omega, show off + 3 ≠ off by omega,
    show off + 2 ≠ off + 1 by omega, show off + 3 ≠ off + 1 by omega,
    show off + 3 ≠ off + 2 by omega, UInt8.toNat_ofNat']
  omega

/-- A store leaves every word that does not overlap it alone. -/
theorem get32_put32_of_disjoint (b : Bytes) {off off' : Nat} (v : Nat)
    (h : off + 4 ≤ off' ∨ off' + 4 ≤ off) : get32 (put32 b off v) off' = get32 b off' := by
  refine get32_congr fun k hk => ?_
  unfold put32
  rw [if_neg (by omega), if_neg (by omega), if_neg (by omega), if_neg (by omega)]

end Xv6.Lib.CInt
