import Xv6.Vm.CopyExact

/-!
# What `copyin` and `copyout` copy

Both loops go through the user range page by page, with 64-bit addresses that
wrap. They succeed exactly if `walkaddr` finds a page for every byte of the
range, and then `copyin` delivers the bytes of the range in order. `copyout`
changes no byte outside the range, and if no two addresses of the range are
one byte of memory, the bytes are found there afterwards.
-/

namespace Xv6.Vm

open Xv6.Lib Xv6.Lib.CInt

variable {pt : PageTable} {mem : Nat → Bytes}
variable {va j len s dstva : Nat} {src : Bytes}

/-- `walkaddr` finds the page of a user address. -/
def UserAddr (pt : PageTable) (va : Nat) : Prop :=
  walkaddr pt (pgRoundDown va) ≠ 0

instance (pt : PageTable) (va : Nat) : Decidable (UserAddr pt va) :=
  inferInstanceAs (Decidable (_ ≠ _))

/-- The byte at a user address, through `walkaddr`. -/
def userByte (pt : PageTable) (mem : Nat → Bytes) (va : Nat) : UInt8 :=
  mem (walkaddr pt (pgRoundDown va)) (va - pgRoundDown va)

/-- The page and the offset that a user address stands for. -/
def userCell (pt : PageTable) (va : Nat) : Nat × Nat :=
  (walkaddr pt (pgRoundDown va), va - pgRoundDown va)

theorem userAddr_iff : UserAddr pt va ↔ UserPage pt va := by
  unfold UserAddr
  rw [ne_eq, walkaddr_eq_zero_iff, not_not]

theorem UserPage.uint64_add (h : UserPage pt (va + j)) : uint64 ((va : Int) + j) = va + j := by
  have hmax := h.1.1
  unfold uint64
  simp only [MAXVA] at hmax
  omega

theorem UserPage.cell (h : UserPage pt (va + j)) :
    userCell pt (uint64 ((va : Int) + j)) = (pte2pa (pt.pte (va + j)), (va + j) % PGSIZE) := by
  rw [h.uint64_add, userCell, walkaddr_of_userPage h, sub_pgRoundDown]

theorem userByte_eq :
    userByte pt mem va = mem (userCell pt va).1 (userCell pt va).2 := rfl

/-- A range that wraps has a bad page, the one at the end of the address space. -/
theorem userAddr_range (hva : va < 2 ^ 64) :
    (∀ j < len, UserAddr pt (uint64 ((va : Int) + j))) ↔ ∀ j < len, UserPage pt (va + j) := by
  refine ⟨fun h j hj => ?_, fun h j hj => ?_⟩
  · by_cases hwrap : va + j < 2 ^ 64
    · have hpage := userAddr_iff.mp (h j hj)
      rwa [show uint64 ((va : Int) + j) = va + j by unfold uint64; omega] at hpage
    · have hlast := userAddr_iff.mp (h (2 ^ 64 - 1 - va) (by omega))
      have hmax := hlast.1.1
      rw [show uint64 ((va : Int) + (2 ^ 64 - 1 - va : Nat)) = 2 ^ 64 - 1 by unfold uint64; omega]
        at hmax
      exact absurd hmax (by decide)
  · rw [(h j hj).uint64_add, userAddr_iff]
    exact h j hj

/-! ## The whole range -/

theorem copyin_ok {dst : Bytes} {d srcva : Nat} (hsrc : srcva < 2 ^ 64) :
    (copyin pt mem dst d srcva len).2 = true ↔
      ∀ j < len, UserAddr pt (uint64 ((srcva : Int) + j)) := by
  rw [copyin_exact, decide_eq_true_iff, goodBytes_eq_iff, userAddr_range hsrc]

theorem copyout_ok (hdst : dstva < 2 ^ 64) :
    (copyout pt mem dstva src s len).2 = true ↔
      ∀ j < len, UserAddr pt (uint64 ((dstva : Int) + j)) := by
  rw [copyout_exact, decide_eq_true_iff, goodBytes_eq_iff, userAddr_range hdst]

/-- The bytes that a successful `copyin` delivers. -/
theorem copyin_bytes {dst : Bytes} {d srcva : Nat}
    (hok : (copyin pt mem dst d srcva len).2 = true) (i : Nat) :
    (copyin pt mem dst d srcva len).1 i =
      if d ≤ i ∧ i < d + len then userByte pt mem (uint64 ((srcva : Int) + (i - d : Nat)))
      else dst i := by
  rw [copyin_exact, decide_eq_true_iff] at hok
  rw [copyin_exact, hok]
  show (if d ≤ i ∧ i < d + len then _ else _) = _
  split
  · rename_i hi
    have hpage := goodBytes_eq_iff.mp hok (i - d) (by omega)
    rw [userByte_eq, hpage.cell]
    rfl
  · rfl

/-- Two memories give the same byte at a user address. -/
def SameAt (pt : PageTable) (mem mem' : Nat → Bytes) (va : Nat) : Prop :=
  walkaddr pt (pgRoundDown va) ≠ 0 →
    mem' (walkaddr pt (pgRoundDown va)) (va - pgRoundDown va) =
      mem (walkaddr pt (pgRoundDown va)) (va - pgRoundDown va)

/-- The good bytes of a range are the same in two memories that agree on the range. -/
theorem getBytes_congr {mem' : Nat → Bytes}
    (h : ∀ j < len, SameAt pt mem mem' (uint64 ((va : Int) + j))) (dst : Bytes) (d : Nat) :
    getBytes pt mem' dst d va (goodBytes pt va len) =
      getBytes pt mem dst d va (goodBytes pt va len) := by
  funext i
  unfold getBytes
  split
  · rename_i hi
    have hpage := (goodBytes_spec pt va len).1 (i - d) (by omega)
    have hsame : userByte pt mem' _ = userByte pt mem _ :=
      h (i - d) (Nat.lt_of_lt_of_le (by omega) (goodBytes_le pt va len)) ?_
    · rwa [userByte_eq, userByte_eq, hpage.cell] at hsame
    · rw [hpage.uint64_add]
      exact userAddr_iff.mpr hpage
  · rfl

/-- `copyout` changes no byte that its range does not stand for. -/
theorem copyout_frame {pa k : Nat}
    (hother : ∀ j < len, userCell pt (uint64 ((dstva : Int) + j)) ≠ (pa, k)) :
    (copyout pt mem dstva src s len).1 pa k = mem pa k := by
  rw [copyout_exact]
  by_contra hne
  obtain ⟨j, hj, hcell⟩ := putBytes_changed hne
  refine hother j (Nat.lt_of_lt_of_le hj (goodBytes_le _ _ _)) ?_
  rw [((goodBytes_spec pt dstva len).1 j hj).cell, hcell.1, hcell.2]

/-- The bytes of a successful `copyout` to a range of distinct bytes. -/
theorem copyout_bytes (hok : (copyout pt mem dstva src s len).2 = true)
    (hapart : ∀ i k, i < len → k < len → userCell pt (uint64 ((dstva : Int) + i)) =
      userCell pt (uint64 ((dstva : Int) + k)) → i = k) (hj : j < len) :
    userByte pt (copyout pt mem dstva src s len).1 (uint64 ((dstva : Int) + j)) = src (s + j) := by
  rw [copyout_exact, decide_eq_true_iff] at hok
  have hgood := goodBytes_eq_iff.mp hok
  rw [copyout_exact, hok, userByte_eq, (hgood j hj).cell]
  refine putBytes_at ⟨rfl, rfl⟩ (fun i hi hcell => hapart i j hi hj ?_) hj
  rw [(hgood i hi).cell, (hgood j hj).cell, hcell.1, hcell.2]

end Xv6.Vm
