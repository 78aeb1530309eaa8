import Xv6.Lib.Sum
import Xv6.Vm.Model

/-!
# The pages that a page table holds

What an entry that `mappages` writes reads back as, and the physical pages a
page table accounts for: its page-table pages (`tablePages`) and the pages
that it maps below the trampoline (`leafPages`), which are those of user
memory and the trap frame, each as often as it occurs. The trampoline is a
page of the kernel that every table maps.

A function of `kernel/vm.c` moves pages between the free list and a page table
and loses none, so what is said of it below is an equation between sums of
free pages and pages held.
-/

namespace Xv6.Vm

open Xv6.Lib Xv6.Lib.CInt Function

variable {w pa perm va : Nat} {pt : PageTable}

/-! ## Entries -/

/-- The entry that `mappages` writes. -/
def mkPte (pa perm : Nat) : Nat := pa2pte pa ||| perm ||| PTE_V

/-- The entry is valid. -/
abbrev Valid (w : Nat) : Prop := hasFlag w PTE_V = true

theorem valid_iff : Valid w ↔ w % 2 = 1 := by
  unfold Valid hasFlag
  rw [Nat.and_one_is_mod, bne_iff_ne]
  omega

theorem valid_mkPte (pa perm : Nat) : Valid (mkPte pa perm) := by
  rw [valid_iff, mkPte, show (2 : Nat) = 2 ^ 1 from rfl, Nat.or_mod_two_pow]
  rcases Nat.mod_two_eq_zero_or_one (pa2pte pa ||| perm) with h | h
  · rw [Nat.pow_one, h]
    rfl
  · rw [Nat.pow_one, h]
    rfl

theorem not_valid_zero : ¬Valid 0 := by decide

/-- A page address that fits an entry. -/
structure PageAddr (pa : Nat) : Prop where
  aligned : pa % PGSIZE = 0
  fits : pa < 2 ^ 56

theorem pteFlags_mkPte (hperm : perm < 1024) : pteFlags (mkPte pa perm) = perm ||| PTE_V := by
  have hlow : pa2pte pa % 2 ^ 10 = 0 := by
    unfold pa2pte
    rw [Nat.shiftLeft_eq, Nat.shiftRight_eq_div_pow, uint64_natCast]
    omega
  unfold pteFlags mkPte
  rw [show (0x3FF : Nat) = 2 ^ 10 - 1 from rfl, Nat.and_two_pow_sub_one_eq_mod,
    Nat.or_mod_two_pow, Nat.or_mod_two_pow, hlow, Nat.zero_or, Nat.mod_eq_of_lt hperm]
  rfl

theorem hasFlag_mkPte {flag : Nat} (hflag : flag < 32) (hvalid : PTE_V &&& flag = 0) :
    hasFlag (mkPte pa perm) flag = hasFlag perm flag := by
  have hlow : ∀ w, w &&& flag = w % 32 &&& flag := fun w => by
    rw [show (32 : Nat) = 2 ^ 5 from rfl, ← Nat.and_two_pow_sub_one_eq_mod, Nat.and_assoc,
      Nat.and_comm (2 ^ 5 - 1), Nat.and_two_pow_sub_one_of_lt_two_pow hflag]
  have hpa : pa2pte pa % 32 = 0 := by
    unfold pa2pte
    rw [Nat.shiftLeft_eq, uint64_natCast]
    omega
  have hmod : mkPte pa perm % 32 = perm % 32 ||| PTE_V := by
    unfold mkPte
    rw [show (32 : Nat) = 2 ^ 5 from rfl, Nat.or_mod_two_pow, Nat.or_mod_two_pow,
      show (2 : Nat) ^ 5 = 32 from rfl, hpa, Nat.zero_or]
    rfl
  unfold hasFlag
  rw [hlow, hmod, hlow perm, Nat.and_or_distrib_right, hvalid, Nat.or_zero]

theorem hasFlag_mkPte_user (pa perm : Nat) : hasFlag (mkPte pa perm) PTE_U = hasFlag perm PTE_U :=
  hasFlag_mkPte (by decide) rfl

/-- The address of a page can be read back from its entry. -/
theorem pte2pa_mkPte_of_lt (haligned : pa % PGSIZE = 0) (hlt : pa < 2 ^ 64) (hperm : perm < 1024) :
    pte2pa (mkPte pa perm) = pa := by
  have hhigh : pa2pte pa >>> 10 = pa / PGSIZE := by
    unfold pa2pte
    rw [Nat.shiftLeft_eq, Nat.shiftRight_eq_div_pow, Nat.shiftRight_eq_div_pow, uint64_natCast]
    simp only [PGSIZE]
    omega
  have hshift : mkPte pa perm >>> 10 = pa / PGSIZE := by
    unfold mkPte
    rw [Nat.shiftRight_or_distrib, Nat.shiftRight_or_distrib, hhigh,
      Nat.shiftRight_eq_div_pow perm, Nat.div_eq_of_lt (show perm < 2 ^ 10 from hperm), Nat.or_zero,
      show PTE_V >>> 10 = 0 from rfl, Nat.or_zero]
  unfold pte2pa
  rw [hshift, Nat.shiftLeft_eq, uint64_natCast]
  simp only [PGSIZE] at haligned ⊢
  omega

theorem pte2pa_mkPte (hpa : PageAddr pa) (hperm : perm < 1024) : pte2pa (mkPte pa perm) = pa :=
  pte2pa_mkPte_of_lt hpa.aligned (hpa.fits.trans (by decide)) hperm

/-! ## Pages held -/

/-- The page that an entry maps. -/
def leafPart (w : Nat) : Multiset Nat := if hasFlag w PTE_V then {pte2pa w} else 0

/-- The number of pages below the trampoline. -/
def userPages : Nat := TRAMPOLINE / PGSIZE

/-- The pages that a page table maps below the trampoline. -/
def leafPages (pt : PageTable) : Multiset Nat :=
  ∑ v ∈ Finset.range userPages, leafPart (pt.pte (v * PGSIZE))

/-- A page-table page of the lowest level, if there is one. -/
def lowPart : Option LeafPage → Multiset Nat
  | none => 0
  | some leaf => {leaf.addr}

/-- A page-table page of the middle level and those below it. -/
def midPart : Option (DirPage LeafPage) → Multiset Nat
  | none => 0
  | some mid => {mid.addr} + ∑ j ∈ Finset.range 512, lowPart (mid.entry j)

/-- The page-table pages of a page table. -/
def tablePages (pt : PageTable) : Multiset Nat :=
  {pt.addr} + ∑ i ∈ Finset.range 512, midPart (pt.entry i)

/-- The pages that a page table holds. -/
def pagesOf (pt : PageTable) : Multiset Nat := tablePages pt + leafPages pt

theorem px_lt (level va : Nat) : px level va < 512 := Nat.mod_lt _ (by decide)

theorem leafPart_of_not_valid (h : ¬Valid w) : leafPart w = 0 := if_neg h

theorem leafPart_of_valid (h : Valid w) : leafPart w = {pte2pa w} := if_pos h

theorem count_leafPages_pos :
    0 < (leafPages pt).count pa ↔ ∃ v < userPages,
      Valid (pt.pte (v * PGSIZE)) ∧ pte2pa (pt.pte (v * PGSIZE)) = pa := by
  unfold leafPages
  rw [Multiset.count_pos, Multiset.mem_sum]
  refine exists_congr fun v => and_congr Finset.mem_range ?_
  unfold leafPart
  split
  · rename_i hv
    rw [Multiset.mem_singleton]
    exact ⟨fun h => ⟨hv, h.symm⟩, fun h => h.2.symm⟩
  · rename_i hv
    exact ⟨fun h => absurd h (Multiset.notMem_zero _), fun h => absurd h.1 hv⟩

/-- A page that is counted once is mapped once. -/
theorem leafPages_unique {v : Nat} (honce : (leafPages pt).count pa ≤ 1) (hv : v < userPages)
    (hw : w < userPages) (hvalid : Valid (pt.pte (v * PGSIZE)))
    (hpa : pte2pa (pt.pte (v * PGSIZE)) = pa) (hvalid' : Valid (pt.pte (w * PGSIZE)))
    (hpa' : pte2pa (pt.pte (w * PGSIZE)) = pa) : v = w := by
  by_contra hne
  unfold leafPages at honce
  rw [Multiset.count_sum'] at honce
  have hpair := Finset.add_le_sum (f := fun v => (leafPart (pt.pte (v * PGSIZE))).count pa)
    (fun _ _ => Nat.zero_le _) (Finset.mem_range.mpr hv) (Finset.mem_range.mpr hw) hne
  simp only [leafPart_of_valid hvalid, leafPart_of_valid hvalid', hpa, hpa',
    Multiset.count_singleton_self] at hpair
  omega

theorem leafPages_congr {pt' : PageTable} (h : ∀ va, pt'.pte va = pt.pte va) :
    leafPages pt' = leafPages pt := by
  unfold leafPages
  simp only [h]

/-- A store of an entry exchanges the page of the old entry for that of the
new one. -/
theorem leafPages_setPte (htable : pt.tableAt va = true) (hva : va < TRAMPOLINE) :
    leafPages (pt.setPte va w) + leafPart (pt.pte va) = leafPages pt + leafPart w := by
  have hva39 : va < 2 ^ 39 := by
    simp only [TRAMPOLINE, MAXVA, PGSIZE] at hva
    omega
  have hpage : va / PGSIZE * PGSIZE / PGSIZE = va / PGSIZE := by
    simp only [PGSIZE]
    omega
  have hmem : va / PGSIZE ∈ Finset.range userPages := by
    rw [Finset.mem_range]
    simp only [userPages, TRAMPOLINE, MAXVA, PGSIZE] at hva ⊢
    omega
  have hat : (pt.setPte va w).pte (va / PGSIZE * PGSIZE) = w := by
    rw [PageTable.pte_setPte htable hva39 (by simp only [PGSIZE]; omega), if_pos hpage]
  have hold : pt.pte (va / PGSIZE * PGSIZE) = pt.pte va :=
    PageTable.pte_eq_of_page hpage
  have hchange := sum_change (f := fun v => leafPart (pt.pte (v * PGSIZE)))
    (g := fun v => leafPart ((pt.setPte va w).pte (v * PGSIZE))) hmem
  simp only [hat, hold] at hchange
  apply hchange
  intro v hv hne
  rw [Finset.mem_range, userPages] at hv
  rw [PageTable.pte_setPte htable hva39
    (by simp only [TRAMPOLINE, MAXVA, PGSIZE] at hv ⊢; omega), if_neg]
  intro h
  apply hne
  simp only [PGSIZE] at h ⊢
  omega

/-- A store of an entry for the trampoline changes no page below it. -/
theorem leafPages_setPte_high (htable : pt.tableAt va = true) (hlow : TRAMPOLINE ≤ va)
    (hva : va < MAXVA) : leafPages (pt.setPte va w) = leafPages pt := by
  unfold leafPages
  apply Finset.sum_congr rfl
  intro v hv
  rw [Finset.mem_range, userPages] at hv
  rw [PageTable.pte_setPte htable (by simp only [MAXVA] at hva; omega)
    (by simp only [TRAMPOLINE, MAXVA, PGSIZE] at hv ⊢; omega), if_neg]
  simp only [TRAMPOLINE, MAXVA, PGSIZE] at hv hlow hva ⊢
  omega

/-- A change of one page of the middle level changes the page-table pages by
as much. -/
theorem tablePages_update (pt : PageTable) {i : Nat} (mid : Option (DirPage LeafPage))
    (hi : i < 512) :
    tablePages { pt with entry := update pt.entry i mid } +
      midPart (pt.entry i) = tablePages pt + midPart mid := by
  have hchange := sum_change (f := fun i => midPart (pt.entry i))
    (g := fun j => midPart (update pt.entry i mid j)) (Finset.mem_range.mpr hi)
  simp only [update_self] at hchange
  unfold tablePages
  rw [add_assoc, add_assoc, hchange]
  intro j _ hne
  rw [update_of_ne hne]

/-- A change of one page of the lowest level changes the pages of the middle
one by as much. -/
theorem midPart_update (mid : DirPage LeafPage) {j : Nat} (leaf : Option LeafPage) (hj : j < 512) :
    midPart (some { mid with entry := update mid.entry j leaf }) +
      lowPart (mid.entry j) = midPart (some mid) + lowPart leaf := by
  have hchange := sum_change (f := fun j => lowPart (mid.entry j))
    (g := fun i => lowPart (update mid.entry j leaf i)) (Finset.mem_range.mpr hj)
  simp only [update_self] at hchange
  unfold midPart
  rw [add_assoc, add_assoc, hchange]
  intro i _ hne
  rw [update_of_ne hne]

theorem tablePages_setPte : tablePages (pt.setPte va w) = tablePages pt := by
  unfold PageTable.setPte
  cases hmid : pt.entry (px 2 va) with
  | none => rfl
  | some mid =>
    cases hleaf : mid.entry (px 1 va) with
    | none => simp only [hleaf]
    | some leaf =>
      simp only [hleaf]
      have hlow := midPart_update mid
        (some { leaf with pte := update leaf.pte (px 0 va) w }) (px_lt 1 va)
      rw [hleaf] at hlow
      apply add_right_cancel (b := midPart (pt.entry (px 2 va)))
      rw [tablePages_update _ _ (px_lt 2 va), hmid, add_right_cancel hlow]

end Xv6.Vm
