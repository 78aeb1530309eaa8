import Xv6.Vm.CopyExact
import Xv6.Proc.Grants

/-!
# The address that the fault handler works on

`usertrap` passes the 64-bit fault address to `mmap_handler`, which takes an
`int` and compares it, extended again, with the addresses of the mappings. The
handler therefore works on the address of the fault exactly if that address
survives the way through an `int`: below `2 ^ 31`, or in the last `2 ^ 31` bytes
of the address space. For every other address there is a process for which the
handler does not find the mapping that the address is in.
-/

namespace Xv6.Sys

open Xv6.Lib Xv6.Lib.CInt Xv6.Vm
open Act

/-- The 64-bit address lies in the mapping. -/
def Vma.covers (v : Vma) (va : Nat) : Bool :=
  v.used && v.addr ≤ va && va < uint64 (v.addr + v.length)

/-- The handler selects the first mapping that the fault address is in, and the
page that it maps is the page of the fault address. -/
structure FullAddress (k : Kernel) (p va cause : Nat) : Prop where
  selects : faultSlot (k.proc p).vma (int32 va) =
    (List.range MAXMMAPITEM).find? fun i => ((k.proc p).vma i).covers va
  page : ∀ k', mmapHandler p (int32 va) cause k = .ok (0, k') →
    ∀ x, x < MAXVA → (NewPage k p x k' ↔ x / PGSIZE = va / PGSIZE)

/-- The address is the same after it went through an `int`. -/
def KeptByInt (va : Nat) : Prop := va < 2 ^ 31 ∨ 2 ^ 64 - 2 ^ 31 ≤ va

theorem uint64_int32_eq_iff {va : Nat} (hva : va < 2 ^ 64) :
    uint64 (int32 va) = va ↔ KeptByInt va := by
  have hcong : (int32 va - va) % 2 ^ 32 = 0 := by
    unfold int32
    have hmod := Int.bmod_emod (x := (va : Int)) (m := 2 ^ 32)
    omega
  obtain ⟨hlo, hhi⟩ := int32_bounds va
  unfold uint64 KeptByInt
  omega

section handler

variable {k k' : Kernel} {p va cause : Nat}

theorem newPage_iff (h : mmapHandler p (int32 va) cause k = .ok (0, k')) {x : Nat}
    (hx : x < MAXVA) : NewPage k p x k' ↔ x / PGSIZE = faultPage va / PGSIZE := by
  obtain ⟨j, pa, hj, hbrought⟩ := ((wp_ok wp_mmapHandler_exact h).zero rfl).2
  have hpte := hbrought.pte x (by simp only [MAXVA] at hx; omega)
  constructor
  · rintro ⟨habsent, hvalid⟩
    by_contra hother
    rw [hpte, if_neg hother] at hvalid
    exact habsent hvalid
  · intro hpage
    refine ⟨?_, ?_⟩
    · rw [PageTable.pte_eq_of_page hpage]
      exact hj.absent
    · rw [hpte, if_pos hpage]
      exact valid_mkPte _ _

theorem fullAddress_of_kept (hva : va < 2 ^ 64) (hkept : KeptByInt va) :
    FullAddress k p va cause where
  selects := by
    have haddr := (uint64_int32_eq_iff hva).mpr hkept
    unfold faultSlot Vma.contains
    rw [haddr]
    rfl
  page := by
    intro k' h x hx
    rw [newPage_iff h hx, faultPage, (uint64_int32_eq_iff hva).mpr hkept, div_pgRoundDown]

end handler

/-- A process with one mapping, of one byte. -/
def oneByteMapping (va : Nat) : Kernel :=
  { smallMachine with
    proc := fun _ => { sz := va + 1, vma := fun _ => { used := true, addr := va, length := 1 } } }

/-- The handler does not find the mapping of a single byte whose address changes
on the way through an `int`. -/
theorem not_fullAddress {va : Nat} (hva : va < 2 ^ 64) (hkept : ¬KeptByInt va) (p cause : Nat) :
    ¬FullAddress (oneByteMapping va) p va cause := by
  intro h
  have hne : uint64 (int32 va) ≠ va := fun heq => hkept ((uint64_int32_eq_iff hva).mp heq)
  have hlast : va + 1 < 2 ^ 64 := by
    unfold KeptByInt at hkept
    omega
  have hend : uint64 ((va : Int) + 1) = va + 1 := by
    rw [← Nat.cast_one, ← Nat.cast_add, uint64_of_lt hlast]
  have hselects := h.selects
  have hcovers : (List.range MAXMMAPITEM).find?
      (fun i => (((oneByteMapping va).proc p).vma i).covers va) = some 0 := by
    have hfirst : (((oneByteMapping va).proc p).vma 0).covers va = true := by
      simp [oneByteMapping, Vma.covers, hend]
    exact (List.find?_eq_some_iff_getElem ..).mpr
      ⟨hfirst, 0, by decide, rfl, nofun⟩
  rw [hcovers] at hselects
  have hin := List.find?_some (show (List.range MAXMMAPITEM).find?
    (fun i => (((oneByteMapping va).proc p).vma i).contains (int32 va)) = some 0 from hselects)
  simp only [oneByteMapping, Vma.contains, Bool.true_and, Bool.and_eq_true] at hin
  have hlow : va ≤ uint64 (int32 va) := of_decide_eq_true hin.1
  have hhigh : uint64 (int32 va) < uint64 ((va : Int) + 1) := of_decide_eq_true hin.2
  omega

/-- For every fault address: the handler works on the full address, for every
process with a size above it, exactly if the address is the same after it went
through an `int`. Faults at two such addresses on different pages never bring
in the same page. -/
theorem fault_full_address_iff (va va' : UInt64) :
    ((∀ k p cause, va.toNat < (k.proc p).sz → FullAddress k p va.toNat cause) ↔
      KeptByInt va.toNat) ∧
    (KeptByInt va.toNat → KeptByInt va'.toNat → va.toNat / PGSIZE ≠ va'.toNat / PGSIZE →
      ∀ k k1 k' k1' p q cause cause' x, x < MAXVA →
        mmapHandler p (int32 va.toNat) cause k = .ok (0, k1) →
        mmapHandler q (int32 va'.toNat) cause' k' = .ok (0, k1') →
        NewPage k p x k1 → ¬NewPage k' q x k1') := by
  refine ⟨⟨fun h => ?_, fun hkept k p cause _ => fullAddress_of_kept va.toNat_lt hkept⟩, ?_⟩
  · by_contra hkept
    exact not_fullAddress va.toNat_lt hkept 0 13
      (h (oneByteMapping va.toNat) 0 13 (Nat.lt_succ_self va.toNat))
  · intro hkept hkept' hpages k k1 k' k1' p q cause cause' x hx hfault hfault' hnew hnew'
    have hpage := ((fullAddress_of_kept va.toNat_lt hkept).page k1 hfault x hx).mp hnew
    have hpage' := ((fullAddress_of_kept va'.toNat_lt hkept').page k1' hfault' x hx).mp hnew'
    exact hpages (hpage.symm.trans hpage')

/-- A process maps three files, one after the other, until it has more than
`2 ^ 32` bytes. A fault at `0x100001000`, in the third mapping, is served from
the first one: the page that is mapped is the one at `0x1000`. -/
theorem fault_maps_another_page :
    ∃ k0 k k', Boot k0 ∧ Run (fun _ _ _ => True) k0 k ∧
      Enabled k 0 (.load 0x1000 0x100001000) ∧
      0x100001000 < (k.proc 0).sz ∧
      ((k.proc 0).vma 0).covers 0x100001000 = false ∧
      ((k.proc 0).vma 2).covers 0x100001000 = true ∧
      mmapHandler 0 (int32 0x100001000) 13 k = .ok (0, k') ∧
      NewPage k 0 0x1000 k' ∧ ¬FullAddress k 0 0x100001000 13 := by
  obtain ⟨k0, k, hboot, hrun, hfact⟩ := smallMachine_anyRun
    [(0, .openFile (some 2) 0), (0, .mmap 0 0x7ffff000 1 2 0 0), (0, .mmap 0 0x7ffff000 1 2 0 0),
      (0, .mmap 0 0x3000 1 2 0 0)]
    (fun k => decide (Enabled k 0 (.load 0x1000 0x100001000)) &&
      decide (0x100001000 < (k.proc 0).sz ∧ ((k.proc 0).vma 0).covers 0x100001000 = false ∧
        ((k.proc 0).vma 2).covers 0x100001000 = true ∧
        ¬Valid ((k.proc 0).pagetable.pte 0x1000)) &&
      (mmapHandler 0 (int32 0x100001000) 13 k).toOption.any fun (r : Int × Kernel) =>
        decide (r.1 = 0 ∧ Valid ((r.2.proc 0).pagetable.pte 0x1000))) (by decide +kernel)
  rw [Bool.and_eq_true, Bool.and_eq_true, decide_eq_true_eq, decide_eq_true_eq] at hfact
  obtain ⟨⟨henabled, hsz, hfirst, hthird, habsent⟩, hhandler⟩ := hfact
  obtain ⟨⟨r, k'⟩, hk', hret⟩ := Act.ok_of_any hhandler
  obtain ⟨rfl, hvalid⟩ := of_decide_eq_true hret
  refine ⟨k0, k, k', hboot, hrun, henabled, hsz, hfirst, hthird, hk', ⟨habsent, hvalid⟩, ?_⟩
  intro hfull
  have hpage := (hfull.page k' hk' 0x1000 (by decide)).mp ⟨habsent, hvalid⟩
  exact absurd hpage (by decide)

end Xv6.Sys
