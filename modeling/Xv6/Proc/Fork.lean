import Xv6.Vm.CopyTable
import Xv6.Proc.Syscall

/-!
# When `fork` can copy the parent

`uvmcopy` walks every page below the size of the parent. A process that has
mapped more than it has touched need not have a page-table page for each of
them, and then `uvmcopy` panics. If it runs out of memory it removes the pages
of the child from 0 on, and panics where the child has no page-table page, that
is, for a region of 2 MB in which no page has been copied yet.

`ForkCan` says that neither can happen with the memory that is free, page by
page as far as that memory reaches, and `uvmcopy_returns_iff` that it is exact.
-/

namespace Xv6.Sys

open Xv6.Lib Xv6.Lib.CInt Xv6.Vm
open Act

/-- Every page below the size that `uvmcopy` gets to with the free pages of `k`
is one where it does not panic. -/
def ForkCan (k : Kmem) (old new : PageTable) (sz : Nat) : Prop :=
  ∀ j, j * PGSIZE < sz → copyCost old new j ≤ k.freelist.length →
    CanCopy k.freelist.length old new j

section copy

variable {old new : PageTable} {sz : Nat} {k : Kmem}

/-- For every parent and every state of memory: `uvmcopy` returns if and only if
the parent meets `ForkCan`. -/
theorem uvmcopy_returns_iff (hk : k.Ok) (hold : Valid (old.pte TRAPFRAME)) (hnew : Bare new) :
    (∃ r k', uvmcopy old new sz k = .ok (r, k')) ↔ ForkCan k old new sz := by
  constructor
  · rintro ⟨r, k', hr⟩ j hj hreach
    have hmono : ∀ {i m}, i ≤ m → copyCost old new i ≤ copyCost old new m := mapCost_mono _ _ _
    refine ends_ok r k' hr ?_
    refine wp_uvmcopy_bare hk hold hnew (fun new' k' hc => ?_) fun i new' k' hv _ hshort hun => ?_
    · -- every round had the pages it needs
      have hround := lt_pageRounds.mpr hj
      have hspent := hc.spent
      have hmore := hmono (show j + 1 ≤ _ from hround)
      exact ⟨(hc.seen j hround).1, (hc.seen j hround).2, fun _ => hc.fresh j hround,
        fun _ hless => by omega⟩
    · -- memory ran out in round `i`, so later rounds are not reached
      have hle : j ≤ i := by
        by_contra hlt
        exact Nat.not_lt.mpr (Nat.le_trans (hmono (Nat.lt_of_not_le hlt)) hreach) hshort
      rcases Nat.lt_or_eq_of_le hle with hlt | rfl
      · have hmore := hmono (show j + 1 ≤ _ from hlt)
        exact ⟨(hun.seen j hlt).1, (hun.seen j hlt).2, fun _ => hun.fresh j hlt,
          fun _ hless => by omega⟩
      · refine ⟨Nat.lt_of_le_of_lt (hnew.le hun.fresh) (by decide), ?_, fun hless hv' => ?_,
          fun _ _ i hi => ⟨hun.table i hi, hun.leaf i hi⟩⟩
        · exact PageTable.tableAt_of_pte fun hzero => not_valid_zero (hzero ▸ hv)
        · have htable : new.tableAt (j * PGSIZE) = true :=
            PageTable.tableAt_of_pte fun hzero => not_valid_zero (hzero ▸ hv')
          rw [copyCost, mapCost, if_pos hv, if_pos (.inl htable)] at hshort
          change _ < copyCost old new j + 1 + 0 at hshort
          omega
  · intro h
    have hwp : wp (uvmcopy old new sz) (fun _ _ => True) (fun _ => False) k :=
      wp_uvmcopy_exact hk (fun j _ => hnew.valid hold) (fun hnot => hnot h) (fun _ _ _ => trivial)
        fun _ _ _ _ _ _ _ _ => trivial
    obtain ⟨r, k', hr, -⟩ := wp_total hwp
    exact ⟨r, k', hr⟩

/-- The copy of a process with one page. -/
theorem uvmcopy_returns_page :
    ∃ r k', uvmcopy (frameTable true) (frameTable false) PGSIZE threeFree = .ok (r, k') := by
  refine (uvmcopy_returns_iff ok_threeFree (by decide +kernel) bare_frameTable).mpr fun j hj _ => ?_
  obtain rfl : j = 0 := by
    simp only [PGSIZE] at hj
    omega
  exact ⟨by decide, by decide +kernel, fun _ => bare_frameTable.empty _ (by decide),
    fun _ _ i hi => absurd hi (Nat.not_lt_zero i)⟩

end copy

/-- A process maps more than 2 MB of a file and forks. -/
theorem fork_panics : ∃ k0 k, Boot k0 ∧ Run (fun _ _ _ => True) k0 k ∧ Enabled k 0 .fork ∧
    ∃ err, step 0 .fork k = .error err ∧ err.text = "uvmcopy: pte should exist" := by
  obtain ⟨k0, k, hboot, hrun, hfact⟩ := smallMachine_anyRun
    [(0, .openFile (some 2) 0), (0, .mmap 0 0x200000 1 2 0 0)]
    (stepPanics 0 .fork "uvmcopy: pte should exist") (by decide +kernel)
  exact ⟨k0, k, hboot, hrun, stepPanics_iff.mp hfact⟩

end Xv6.Sys
