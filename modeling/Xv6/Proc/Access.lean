import Xv6.Vm.Copy
import Xv6.Vm.Masked
import Xv6.Proc.PageFault

/-!
# Kernel accesses against user accesses

A system call that is given a user buffer goes through `copyin` or `copyout`,
which translate its addresses with `walkaddr`. The process itself goes
through the hardware: a load or a store that finds no suitable entry traps,
and is tried again unless the page-fault branch of `usertrap` killed the
process. `LoadsRange` and `StoresRange` are accesses of the second kind to
every byte of a range, in order.

The two do not agree in general. `walkaddr` brings in no page of a mapping
and looks at neither the read nor the write permission of an entry. What each
of them does is said here, exactly when they agree in `Xv6.Proc.Agree`.
-/

namespace Xv6.Sys

open Xv6.Lib Xv6.Lib.CInt Xv6.Vm
open Act

variable {bs : List UInt8}

/-! ## User accesses -/

/-- The access of event `e` to `va` is tried until the hardware finds the page,
and the process survives the traps before that. -/
inductive Tries (p : Nat) (e : Event) (va : UInt64) (flags : Nat) : Kernel → Kernel → Prop where
  | hit {k k' : Kernel} {r : Int} (hpage : userPage (k.proc p).pagetable va.toNat flags ≠ none)
      (hstep : step p e k = .ok (r, k')) : Tries p e va flags k k'
  | fault {k k1 k' : Kernel} {r : Int}
      (hnone : userPage (k.proc p).pagetable va.toNat flags = none)
      (htrap : step p e k = .ok (r, k1)) (halive : (k1.proc p).killed = false)
      (hagain : Tries p e va flags k1 k') : Tries p e va flags k k'

/-- The byte that the hardware finds at `va`. -/
def loadedByte (k : Kernel) (p : Nat) (va : UInt64) : UInt8 :=
  k.files.kmem.mem ((userPage (k.proc p).pagetable va.toNat PTE_R).getD 0) (va.toNat % PGSIZE)

/-- A load from `va` gives a byte in the end. -/
def LoadsByte (p : Nat) (sp va : UInt64) (b : UInt8) (k k' : Kernel) : Prop :=
  Tries p (.load sp va) va PTE_R k k' ∧ b = loadedByte k' p va

/-- A store to `va` goes through in the end. -/
def StoresByte (p : Nat) (sp va : UInt64) (b : UInt8) : Kernel → Kernel → Prop :=
  Tries p (.store sp va b) va PTE_W

/-- Accesses to the addresses from `va` on, one for each byte of a list. -/
inductive EachByte (byte : UInt64 → UInt8 → Kernel → Kernel → Prop) :
    UInt64 → List UInt8 → Kernel → Kernel → Prop where
  | nil {va : UInt64} {k : Kernel} : EachByte byte va [] k k
  | cons {va : UInt64} {k k1 k' : Kernel} {b : UInt8} {bs : List UInt8} (hbyte : byte va b k k1)
      (hrest : EachByte byte (va + 1) bs k1 k') : EachByte byte va (b :: bs) k k'

/-- Loads from `n` addresses from `va` on. -/
def LoadsRange (p : Nat) (sp va : UInt64) (n : Nat) (k : Kernel) (bs : List UInt8)
    (k' : Kernel) : Prop :=
  bs.length = n ∧ EachByte (LoadsByte p sp) va bs k k'

/-- Stores of some bytes to the addresses from `va` on. -/
def StoresRange (p : Nat) (sp : UInt64) : UInt64 → List UInt8 → Kernel → Kernel → Prop :=
  EachByte (StoresByte p sp)

/-- `copyin` of a range succeeds exactly if loads from it do, and delivers
what they give. -/
def CopyinAgrees (k : Kernel) (p : Nat) (sp va : UInt64) (len : Nat) : Prop :=
  ∀ (dst : Bytes) (d : Nat),
    let r := copyin (k.proc p).pagetable k.files.kmem.mem dst d va.toNat len
    (r.2 = true ↔ ∃ bs k', LoadsRange p sp va len k bs k') ∧
    ∀ bs k', LoadsRange p sp va len k bs k' → bs = (List.range len).map fun j => r.1 (d + j)

/-- `copyout` to a range succeeds exactly if stores to it do. -/
def CopyoutAgrees (k : Kernel) (p : Nat) (sp va : UInt64) (len : Nat) : Prop :=
  ∀ (src : Bytes) (s : Nat),
    (copyout (k.proc p).pagetable k.files.kmem.mem va.toNat src s len).2 = true ↔
      ∃ k', StoresRange p sp va ((List.range len).map fun j => src (s + j)) k k'

/-- The entry for `va` is there for the hardware and for `walkaddr`. -/
def Present (k : Kernel) (p : Nat) (flags : Nat) (va : UInt64) : Prop :=
  UserAddr (k.proc p).pagetable va.toNat ∧
    userPage (k.proc p).pagetable va.toNat flags ≠ none

/-! ## Addresses -/

theorem toNat_add_ofNat (va : UInt64) (j : Nat) :
    (va + UInt64.ofNat j).toNat = uint64 ((va.toNat : Int) + j) := by
  rw [UInt64.toNat_add, UInt64.toNat_ofNat']
  unfold uint64
  omega

theorem add_ofNat_zero (va : UInt64) : va + UInt64.ofNat 0 = va := UInt64.add_zero va

theorem add_one_ofNat (va : UInt64) (j : Nat) :
    va + 1 + UInt64.ofNat j = va + UInt64.ofNat (j + 1) := by
  rw [← UInt64.toNat_inj]
  simp only [UInt64.toNat_add, UInt64.toNat_ofNat', UInt64.toNat_one]
  omega

theorem pte_pgRoundDown (pt : PageTable) (va : Nat) : pt.pte (pgRoundDown va) = pt.pte va :=
  PageTable.pte_eq_of_page (Nat.mul_div_cancel _ (by decide))

/-- Where both find a page they find the same. -/
theorem walkaddr_of_userPage {pt : PageTable} {va flags pa : Nat} (huser : UserAddr pt va)
    (hpage : userPage pt va flags = some pa) : walkaddr pt (pgRoundDown va) = pa := by
  obtain ⟨-, -, -, heq⟩ := walkaddr_ne_zero huser
  unfold userPage at hpage
  rw [Option.ite_none_right_eq_some, Option.some.injEq] at hpage
  rw [heq, pte_pgRoundDown, hpage.2]

/-! ## Pages that are there -/

section hits

variable {k k' : Kernel} {p : Nat} {sp va : UInt64} {b : UInt8}

theorem step_load_hit (sp : UInt64) (hpage : userPage (k.proc p).pagetable va.toNat PTE_R ≠ none) :
    ∃ r k', step p (.load sp va) k = .ok (r, k') ∧ k' = k := by
  obtain ⟨pa, hpa⟩ := Option.ne_none_iff_exists'.mp hpage
  refine wp_total ?_
  unfold step load
  rw [wp_bind, wp_bind, wp_get, hpa]
  exact wp_pure.mpr (wp_pure.mpr rfl)

/-- A store to a page that is there goes through and changes only bytes. -/
theorem step_store_hit (sp : UInt64) (b : UInt8)
    (hpage : userPage (k.proc p).pagetable va.toNat PTE_W ≠ none) :
    ∃ r k', step p (.store sp va b) k = .ok (r, k') ∧ Refilled k k' := by
  obtain ⟨pa, hpa⟩ := Option.ne_none_iff_exists'.mp hpage
  refine wp_total ?_
  unfold step store
  rw [wp_bind, wp_bind, wp_get, hpa]
  simp only
  rw [wp_onMem, wp_modify]
  exact wp_pure.mpr ⟨rfl, rfl, rfl, rfl, rfl, rfl⟩

/-- Loads from a range that is there give its bytes and change nothing. -/
theorem loads_present (h : EachByte (LoadsByte p sp) va bs k k') (hpage : ∀ j < bs.length,
      userPage (k.proc p).pagetable (va + UInt64.ofNat j).toNat PTE_R ≠ none) :
    bs = (List.range bs.length).map fun j => loadedByte k p (va + UInt64.ofNat j) := by
  induction h with
  | nil => rfl
  | @cons va k k1 k' b bs hbyte _ ih =>
    have hfirst := hpage 0 (Nat.succ_pos _)
    rw [add_ofNat_zero] at hfirst
    obtain ⟨htries, rfl⟩ := hbyte
    obtain rfl : k1 = k := by
      cases htries with
      | hit _ hstep =>
        obtain ⟨r, k2, hload, rfl⟩ := step_load_hit sp hfirst
        cases hload.symm.trans hstep
        rfl
      | fault hnone => exact absurd hnone hfirst
    rw [List.length_cons, List.range_succ_eq_map, List.map_cons, List.map_map, add_ofNat_zero]
    congr 1
    refine (ih fun j hj => ?_).trans (List.map_congr_left fun j _ => ?_)
    · rw [add_one_ofNat]
      exact hpage (j + 1) (Nat.succ_lt_succ hj)
    · rw [add_one_ofNat]
      rfl

end hits

/-! ## The kernel's copies -/

section agree

variable {k : Kernel} {p : Nat} {sp va : UInt64} {len : Nat}

theorem copyin_range (dst : Bytes) (d : Nat) :
    (copyin (k.proc p).pagetable k.files.kmem.mem dst d va.toNat len).2 = true ↔
      ∀ j < len, UserAddr (k.proc p).pagetable (va + UInt64.ofNat j).toNat := by
  rw [copyin_ok (UInt64.toNat_lt va)]
  simp only [toNat_add_ofNat]

theorem copyout_range (src : Bytes) (s : Nat) :
    (copyout (k.proc p).pagetable k.files.kmem.mem va.toNat src s len).2 = true ↔
      ∀ j < len, UserAddr (k.proc p).pagetable (va + UInt64.ofNat j).toNat := by
  rw [copyout_ok (UInt64.toNat_lt va)]
  simp only [toNat_add_ofNat]

/-- Both ways to a byte that is there lead to the same one. -/
theorem Present.byte (h : Present k p PTE_R va) :
    loadedByte k p va = userByte (k.proc p).pagetable k.files.kmem.mem va.toNat := by
  obtain ⟨huser, hpage⟩ := h
  obtain ⟨pa, hpa⟩ := Option.ne_none_iff_exists'.mp hpage
  unfold loadedByte userByte
  rw [walkaddr_of_userPage huser hpa, hpa, Option.getD_some]
  congr 1
  unfold pgRoundDown
  have hdiv := Nat.div_add_mod va.toNat PGSIZE
  rw [Nat.mul_comm] at hdiv
  omega

end agree

instance (k : Kernel) (p flags : Nat) (va : UInt64) : Decidable (Present k p flags va) :=
  inferInstanceAs (Decidable (_ ∧ _))

end Xv6.Sys
