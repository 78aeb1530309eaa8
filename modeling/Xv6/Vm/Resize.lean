import Xv6.Vm.Fill

/-!
# Growing and shrinking undo each other

`uvmalloc` and `uvmdealloc` round the sizes they are given on their own. They
agree on the boundary page: both take it to belong to the smaller size, so the
pages that `uvmalloc` adds from `old` to `new` are those that `uvmdealloc` from
`new` to `old` removes (`deallocRounds_eq`).

The user leaves of a table are its valid entries below the trap frame.
-/

namespace Xv6.Vm

open Xv6.Lib Xv6.Lib.CInt
open Act

variable {pt pt' : PageTable} {k k' : Kmem} {old new : Nat}

/-- The user leaves are the pages below the size. -/
def LeavesUpTo (pt : PageTable) (sz : Nat) : Prop :=
  ∀ va < TRAPFRAME, Valid (pt.pte va) ↔ va < pgRoundUp sz

def SameLeaves (pt pt' : PageTable) : Prop :=
  ∀ va < TRAPFRAME, pt'.pte va = pt.pte va ∨
    ¬Valid (pt'.pte va) ∧ ¬Valid (pt.pte va)

/-- What `uvmalloc` from `old` to `new` leaves. -/
structure GrownBy (pt : PageTable) (k : Kmem) (old new : Nat) (pt' : PageTable)
    (k' : Kmem) : Prop where
  leaves : LeavesUpTo pt' new
  /-- The old pages are where they were, and no page that was in use is written. -/
  kept : ∀ va < pgRoundUp old, pt'.pte va = pt.pte va
  mem : ∀ pa ∉ k.freelist, k'.mem pa = k.mem pa
  added : ∀ va, pgRoundUp old ≤ va → va < pgRoundUp new → ∃ pa ∈ k.freelist,
    pt'.pte va = mkPte pa heapPerm ∧ k'.mem pa = fun _ => 0
  /-- `uvmdealloc` takes it all back. -/
  undone : ∃ pt'' k'', uvmdealloc pt' new old k' = .ok ((pt'', old), k'') ∧
    SameLeaves pt pt''

theorem add_pageRounds (hle : old ≤ new) (hnew : new + PGSIZE ≤ 2 ^ 64) :
    pgRoundUp old + pageRounds (pgRoundUp old) new * PGSIZE = pgRoundUp new := by
  rw [pgRoundUp_eq hnew, pgRoundUp_eq (Nat.le_trans (Nat.add_le_add_right hle _) hnew)]
  unfold pageRounds
  simp only [PGSIZE]
  omega

/-- The two functions go through the same pages. -/
theorem deallocRounds_eq (hle : old ≤ new) (hnew : new + PGSIZE ≤ 2 ^ 64) :
    deallocRounds new old = pageRounds (pgRoundUp old) new := by
  have hadd := add_pageRounds hle hnew
  rw [deallocRounds, ← hadd, Nat.add_sub_cancel_left, Nat.mul_div_cancel _ (by decide)]

theorem Restored.sameLeaves {first : Nat} (h : Restored pt first k pt' k') : SameLeaves pt pt' :=
  fun va hva => h.pte va (Nat.lt_trans hva (by decide))

theorem Restored.leafPages {first : Nat} (h : Restored pt first k pt' k') :
    leafPages pt' = leafPages pt := by
  refine Finset.sum_congr rfl fun v hv => ?_
  have hlow : v * PGSIZE < 2 ^ 39 := by
    have hlt := Finset.mem_range.mp hv
    simp only [userPages, TRAMPOLINE, MAXVA, PGSIZE] at hlt ⊢
    omega
  rcases h.pte _ hlow with hpte | ⟨hnew, hold⟩
  · rw [hpte]
  · rw [leafPart_of_not_valid hnew, leafPart_of_not_valid hold]

theorem Filled.grownBy (h : Filled pt (pgRoundUp old) (pageRounds (pgRoundUp old) new) k
      pt' k') (hk : k.Ok) (hle : old ≤ new) (hnew : new ≤ TRAPFRAME)
    (hleaves : LeavesUpTo pt old) : GrownBy pt k old new pt' k' := by
  have hwrap : new + PGSIZE ≤ 2 ^ 64 := Nat.le_trans (Nat.add_le_add_right hnew _) (by decide)
  have haligned := pgRoundUp_aligned old
  have hend := add_pageRounds hle hwrap
  have hround : pgRoundUp new ≤ TRAPFRAME := pgRoundUp_le (by decide) hnew (by decide)
  have hlow : ∀ {va}, va < TRAPFRAME → va < 2 ^ 39 := fun hva => Nat.lt_trans hva (by decide)
  constructor
  case leaves =>
    intro va hva
    by_cases hin : pgRoundUp old ≤ va ∧ va < pgRoundUp new
    · obtain ⟨pa, -, hpte⟩ := h.pte va (hlow hva) hin.1 (by omega)
      rw [hpte]
      exact iff_of_true (valid_mkPte _ _) hin.2
    · rw [h.rest va (hlow hva) (by omega), hleaves va hva]
      omega
  case kept =>
    intro va hva
    exact h.rest va (hlow (by omega)) (by omega)
  case mem => exact h.mem
  case added =>
    intro va hge hlt
    have hpage : va / PGSIZE = (pgRoundUp old + (va - pgRoundUp old) / PGSIZE * PGSIZE) / PGSIZE := by
      simp only [PGSIZE] at haligned ⊢
      omega
    obtain ⟨pa, hpa, hpte, hzero⟩ := h.given ((va - pgRoundUp old) / PGSIZE) (by
      simp only [PGSIZE] at hend ⊢
      omega)
    exact ⟨pa, hpa, (PageTable.pte_eq_of_page hpage).trans hpte, hzero⟩
  case undone =>
    have hrounds := deallocRounds_eq hle hwrap
    have hback : wp (uvmdealloc pt' new old)
        (fun r k'' => r.2 = old ∧ SameLeaves pt r.1) (fun _ => False) k' := by
      refine Grown.wp_takeBack (by rw [hrounds]; exact h.toGrown) hk
        (fun _ => Nat.le_trans hnew (by decide)) hle h.mem (fun i hi => ?_)
        fun pt'' k'' hrestored _ _ => ⟨rfl, hrestored.sameLeaves⟩
      obtain ⟨pa, hpa, hpte, -⟩ := h.given i (hrounds ▸ hi)
      exact ⟨pa, hpa, hpte⟩
    obtain ⟨⟨pt'', r⟩, k'', hrun, rfl, hsame⟩ := wp_total hback
    exact ⟨pt'', k'', hrun, hsame⟩

/-- From any table whose user leaves are the pages below `old`, to any size up
to the trap frame: `uvmalloc` returns `new`, with exactly the pages below `new`,
which `uvmdealloc` turns back, or it returns 0 with the leaves as before, and
only page-table pages are gone from the free list. -/
theorem uvmalloc_uvmdealloc_exact (hk : k.Ok) (hle : old ≤ new) (hnew : new ≤ TRAPFRAME)
    (hleaves : LeavesUpTo pt old) :
    ∃ pt' r k', uvmalloc pt old new k = .ok ((pt', r), k') ∧
      (r = new ∧ GrownBy pt k old new pt' k' ∨
        r = 0 ∧ SameLeaves pt pt' ∧
          (k'.freelist : Multiset Nat) + tablePages pt' =
            (k.freelist : Multiset Nat) + tablePages pt) := by
  have hwrap : new + PGSIZE ≤ 2 ^ 64 := Nat.le_trans (Nat.add_le_add_right hnew _) (by decide)
  have hend := add_pageRounds hle hwrap
  have hround : pgRoundUp new ≤ TRAPFRAME := pgRoundUp_le (by decide) hnew (by decide)
  have hbelow : ∀ i < pageRounds (pgRoundUp old) new, pgRoundUp old + i * PGSIZE < TRAPFRAME := by
    intro i hi
    have hmul := Nat.mul_lt_mul_of_pos_right hi (show 0 < PGSIZE by decide)
    omega
  have hrun : wp (uvmalloc pt old new) (fun r k' =>
      r.2 = new ∧ GrownBy pt k old new r.1 k' ∨
        r.2 = 0 ∧ SameLeaves pt r.1 ∧ (k'.freelist : Multiset Nat) + tablePages r.1 =
          (k.freelist : Multiset Nat) + tablePages pt) (fun _ => False) k := by
    refine wp_uvmalloc_exact hk (by omega) (fun hnot => hnot fun i hi _ => ?_)
      (fun hlt => absurd hlt (Nat.not_lt.mpr hle)) (fun pt' k' hback _ hpages _ _ => .inr ?_)
      fun pt' k' _ hfilled => .inl ⟨rfl, hfilled.grownBy hk hle hnew hleaves⟩
    · refine ⟨Nat.lt_trans (hbelow i hi) (by decide), fun hv => ?_⟩
      have hlt := (hleaves _ (hbelow i hi)).mp hv
      omega
    · refine ⟨rfl, hback.sameLeaves, ?_⟩
      have hheld := hpages (Nat.le_trans hnew (by decide))
      unfold pagesOf at hheld
      rw [hback.leafPages, ← add_assoc, ← add_assoc] at hheld
      exact add_right_cancel hheld
  obtain ⟨⟨pt', r⟩, k', hret, hcase⟩ := wp_total hrun
  exact ⟨pt', r, k', hret, hcase⟩

/-- An empty table and three free pages. -/
def blankTable : PageTable := ⟨0x80005000, fun _ => none⟩

def threePages : Kmem where
  kend := 0x80001000
  trampoline := 0x80000000
  freelist := [0x80002000, 0x80003000, 0x80004000]
  mem := fun _ _ => 0

/-- They do for one byte. -/
theorem uvmalloc_uvmdealloc_exact_byte : ∃ pt' k',
    uvmalloc blankTable 0 1 threePages = .ok ((pt', 1), k') ∧
      GrownBy blankTable threePages 0 1 pt' k' := by
  have hnone : LeavesUpTo blankTable 0 := fun va _ => by
    rw [pgRoundUp_of_aligned (by decide) (by decide)]
    exact iff_of_false not_valid_zero (Nat.not_lt_zero va)
  obtain ⟨pt', r, k', hret, hcase⟩ := @uvmalloc_uvmdealloc_exact blankTable threePages 0 1
    ⟨by decide, ⟨by decide, by decide⟩, by decide⟩ (by decide) (by decide) hnone
  have hone : ((uvmalloc blankTable 0 1 threePages).toOption.any fun r => decide (r.1.2 = 1)) = true := by
    decide +kernel
  rw [hret] at hone
  obtain rfl : r = 1 := of_decide_eq_true hone
  rcases hcase with ⟨-, hgrown⟩ | ⟨hzero, -⟩
  · exact ⟨pt', k', hret, hgrown⟩
  · cases hzero

end Xv6.Vm
