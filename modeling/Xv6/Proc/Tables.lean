import Xv6.Vm.CopyExact
import Xv6.Vm.CopyTable
import Xv6.Proc.Exec

/-!
# The page tables of processes lose no page

A page table is made with the trampoline and the trap frame in it, filled by
`exec`, and freed without the two. The trap frame is a page that the process
owns; the table that maps it accounts for it. So making a table for the page
`trapframe` puts that page on the books, and freeing a table takes the page of
its trap frame off them again.
-/

namespace Xv6.Sys

open Xv6.Lib Xv6.Lib.CInt Xv6.Vm Function
open Act

variable {sz trapframe : Nat} {pt : PageTable} {k : Kmem} {ip : DInode}

/-! ## Removing the trampoline and the trap frame -/

section drop

variable {pt' : PageTable} {k' : Kmem}

theorem leafPages_dropFrame (h : Unmapped pt TRAPFRAME 1 false k pt' k') :
    leafPages pt' + leafPart (pt.pte TRAPFRAME) = leafPages pt := by
  obtain ⟨n, hpages, hlast⟩ : ∃ n, userPages = n + 1 ∧ n * PGSIZE = TRAPFRAME :=
    ⟨TRAPFRAME / PGSIZE, by decide, by decide⟩
  have hgone : ¬Valid (pt'.pte TRAPFRAME) := by
    intro hv
    rw [h.pte _ (by decide)] at hv
    split at hv
    · exact not_valid_zero hv
    · rename_i hout
      exact hout ⟨Nat.le_refl _, by decide, hv⟩
  unfold leafPages
  rw [hpages, Finset.sum_range_succ, Finset.sum_range_succ, hlast, leafPart_of_not_valid hgone,
    add_zero]
  congr 1
  refine Finset.sum_congr rfl fun v hv => ?_
  rw [Finset.mem_range] at hv
  have hlow : v * PGSIZE < TRAPFRAME := by
    rw [← hlast]
    exact Nat.mul_lt_mul_of_pos_right hv (by decide)
  rw [h.pte _ (Nat.lt_trans hlow (by decide)), if_neg fun hc => absurd hc.1 (Nat.not_le.mpr hlow)]

theorem not_valid_dropTramp (h : Unmapped pt TRAMPOLINE 1 false k pt' k') {x : Nat}
    (hle : TRAMPOLINE ≤ x) (hlt : x < MAXVA) : ¬Valid (pt'.pte x) := by
  intro hv
  rw [h.pte _ (Nat.lt_trans hlt (by decide))] at hv
  split at hv
  · exact not_valid_zero hv
  · rename_i hout
    refine hout ⟨hle, ?_, hv⟩
    simp only [TRAMPOLINE, MAXVA, PGSIZE] at hlt ⊢
    omega

/-- Removing one page without freeing it. -/
theorem wp_uvmunmap_one {va : Nat} {Q : PageTable → Kmem → Prop} (hva : va + PGSIZE < 2 ^ 64)
    (h : ∀ pt', Unmapped pt va 1 false k pt' k → Q pt' k) :
    wp (uvmunmap pt va 1 false) Q (fun _ => True) k := by
  refine wp_uvmunmap fun pt' k' _ hun => ?_
  rw [unmapRounds_of_lt (by omega)] at hun
  obtain rfl := hun.keep rfl
  exact h pt' hun

/-- A table is freed but for the page of its trap frame. -/
theorem wp_procFreepagetable :
    Ends (procFreepagetable pt sz) (fun k' =>
      ∃ ps, Freed ps k k' ∧ ps + leafPart (pt.pte TRAPFRAME) = pagesOf pt) k := by
  unfold Ends procFreepagetable
  rw [wp_bind]
  refine wp_uvmunmap_one (by decide) fun pagetable1 hun1 => ?_
  rw [wp_bind]
  refine wp_uvmunmap_one (by decide) fun pagetable2 hun2 => ?_
  have htramp : ∀ x, TRAMPOLINE ≤ x → x < MAXVA → ¬Valid (pagetable2.pte x) := by
    intro x hle hlt hv
    rw [hun2.pte x (Nat.lt_trans hlt (by decide))] at hv
    split at hv
    · exact not_valid_zero hv
    · exact not_valid_dropTramp hun1 hle hlt hv
  refine wp_post (wp_uvmfree htramp) fun _ k' hfreed => ⟨_, hfreed, ?_⟩
  have hframe : pagetable1.pte TRAPFRAME = pt.pte TRAPFRAME := hun1.sameFrame (by decide)
  have hleaves := leafPages_dropFrame hun2
  rw [hframe, hun1.high (Nat.le_refl _)] at hleaves
  unfold pagesOf
  rw [hun2.tables, hun1.tables, ← hleaves]
  abel

end drop

/-! ## Making a table -/

/-- A table that maps the trampoline, and the page `trapframe` as the trap
frame. -/
structure TableFor (trapframe : Nat) (pt : PageTable) (k : Kmem) : Prop where
  addr : pt.addr ≠ 0
  tramp : MapsTramp pt k
  frame : Valid (pt.pte TRAPFRAME)
  page : pte2pa (pt.pte TRAPFRAME) = trapframe

theorem TableFor.moves {pt' : PageTable} {k' : Kmem} (h : TableFor trapframe pt k)
    (hm : Moves pt k pt' k') (hframe : SameFrame pt pt') : TableFor trapframe pt' k' where
  addr := by
    rw [hm.addr]
    exact h.addr
  tramp := h.tramp.moves hm
  frame := hframe.valid h.frame
  page := by
    rw [hframe]
    exact h.page

theorem TableFor.leafPart (h : TableFor trapframe pt k) :
    leafPart (pt.pte TRAPFRAME) = {trapframe} := by
  rw [leafPart_of_valid h.frame, h.page]

theorem TableFor.count_pagesOf_pos (h : TableFor trapframe pt k) :
    0 < (pagesOf pt).count trapframe := by
  have hlast : TRAPFRAME / PGSIZE * PGSIZE = TRAPFRAME := by decide
  have hleaf : 0 < (leafPages pt).count trapframe := by
    refine count_leafPages_pos.mpr ⟨TRAPFRAME / PGSIZE, by decide, ?_⟩
    rw [hlast]
    exact ⟨h.frame, h.page⟩
  unfold pagesOf
  rw [Multiset.count_add]
  omega

/-- The root page alone. -/
def emptyTable (pa : Nat) : PageTable := ⟨pa, fun _ => none⟩

theorem pte_emptyTable (pa va : Nat) : (emptyTable pa).pte va = 0 := rfl

theorem pagesOf_emptyTable (pa : Nat) : pagesOf (emptyTable pa) = {pa} := by
  have hleaves : leafPages (emptyTable pa) = 0 := leafPages_eq_zero fun x _ => not_valid_zero
  rw [pagesOf, hleaves, add_zero]
  simp [tablePages, emptyTable, midPart]

section make

theorem wp_uvmcreate {Q : Option PageTable → Kmem → Prop} (hk : k.Ok) (hnone : Q none k)
    (hsome : ∀ pa k', pa ≠ 0 → k.Keeps k' → (k'.freelist : Multiset Nat) + pagesOf (emptyTable pa) =
      k.freelist → Q (some (emptyTable pa)) k') : wp uvmcreate Q (fun _ => True) k := by
  unfold uvmcreate
  rw [wp_bind]
  refine wp_kalloc (fun _ => wp_pure.mpr hnone) fun r next hfree => ?_
  have hmem : ∀ x ≠ r, update (update k.mem r fun _ => 5) r
      (fun _ => (0 : UInt8)) x = k.mem x := by
    intro x hx
    rw [update_of_ne hx, update_of_ne hx]
  have hr := hk.free r (by rw [hfree]; exact List.mem_cons_self)
  have hpos : KERNBASE ≤ r := Nat.le_trans hk.kend hr.2.1
  rw [wp_bind, wp_memset, wp_pure]
  refine hsome r _ (fun h0 => ?_) (Kmem.takes_cons hfree hmem).toKeeps ?_
  · rw [h0] at hpos
    exact absurd hpos (by decide)
  · rw [pagesOf_emptyTable, hfree, ← Multiset.cons_coe, ← Multiset.singleton_add, add_comm]

/-- A table is made for a page, which the table then holds; or there was not
enough memory, and nothing is taken. -/
theorem wp_procPagetable (hk : k.Ok) (htext : k.trampoline < k.kend) (hpage : PageAddr trapframe) :
    wp (procPagetable trapframe) (fun r k' => k.Keeps k' ∧ match r with
      | none => (k'.freelist : Multiset Nat) = k.freelist
      | some pt => TableFor trapframe pt k' ∧
        (∀ x < TRAPFRAME, ¬Valid (pt.pte x)) ∧
        (k'.freelist : Multiset Nat) + pagesOf pt =
          (k.freelist : Multiset Nat) + {trapframe}) (fun _ => True) k := by
  unfold procPagetable
  rw [wp_bind]
  refine wp_uvmcreate hk (wp_pure.mpr ⟨.refl k, rfl⟩) fun pa k1 hpa hkeeps1 hfree1 => ?_
  rw [wp_bind, wp_get, wp_bind]
  refine wp_mappages (by decide) (by decide) ?_ ?_
  · intro pagetable2 k2 _ hwalked
    change wp (uvmfree pagetable2 0 >>= _) _ _ _
    rw [wp_bind]
    have htramp : ∀ x, TRAMPOLINE ≤ x → x < MAXVA → ¬Valid (pagetable2.pte x) := by
      intro x _ _
      rw [hwalked.pte, pte_emptyTable]
      exact not_valid_zero
    refine wp_post (wp_uvmfree htramp) (fun _ k3 hfreed => wp_pure.mpr ⟨?_, ?_⟩)
    · exact (hkeeps1.trans hwalked.toKeeps).trans hfreed.toKeeps
    · rw [hfreed.freelist, hwalked.held, hfree1]
  · intro pagetable2 k2 _ hmap
    have htrampPage : PageAddr k1.trampoline := (hkeeps1.ok hk).trampoline
    have hkend : k2.kend = k1.kend := hmap.kend
    have htramp : MapsTramp pagetable2 k2 := by
      have hpte := hmap.pte TRAMPOLINE (by decide)
      rw [if_pos rfl] at hpte
      refine ⟨?_, ?_, ?_⟩
      · rw [hpte]
        exact valid_mkPte _ _
      · rw [hpte, pte2pa_mkPte htrampPage (by decide), hkend, hkeeps1.kend, hkeeps1.trampoline]
        exact htext
      · rw [hpte, hasFlag_mkPte_user]
        decide
    have hfree2 : (k2.freelist : Multiset Nat) + pagesOf pagetable2 = k.freelist := by
      rw [← hfree1]
      unfold pagesOf
      rw [hmap.high (Nat.le_refl _), ← add_assoc, hmap.tables, add_assoc]
    change wp (mappages pagetable2 TRAPFRAME PGSIZE trapframe (PTE_R ||| PTE_W) >>= _) _ _ _
    rw [wp_bind]
    refine wp_mappages (by decide) (by decide) ?_ ?_
    · intro pagetable3 k3 _ hwalked
      change wp (uvmunmap pagetable3 TRAMPOLINE 1 false >>= _) _ _ _
      rw [wp_bind]
      refine wp_uvmunmap_one (by decide) fun pagetable4 hun => ?_
      rw [wp_bind]
      refine wp_post (wp_uvmfree fun x hle hlt => not_valid_dropTramp hun hle hlt)
        (fun _ k4 hfreed => wp_pure.mpr ⟨?_, ?_⟩)
      · exact ((hkeeps1.trans hmap.toKeeps).trans hwalked.toKeeps).trans hfreed.toKeeps
      · have hsame : pagesOf pagetable4 = pagesOf pagetable3 := by
          unfold pagesOf
          rw [hun.tables, hun.high (Nat.le_refl _)]
        rw [hfreed.freelist, hsame, hwalked.held, hfree2]
    · intro pagetable3 k3 _ hmap3
      have hpte := hmap3.pte TRAPFRAME (by decide)
      rw [if_pos rfl] at hpte
      have hother : pagetable3.pte TRAMPOLINE = pagetable2.pte TRAMPOLINE := by
        rw [hmap3.pte TRAMPOLINE (by decide), if_neg (by decide)]
      have hkend3 : k3.kend = k2.kend := hmap3.kend
      refine wp_pure.mpr ⟨(hkeeps1.trans hmap.toKeeps).trans hmap3.toKeeps,
        ⟨?_, htramp.of_pte hother hkend3, ?_, ?_⟩, fun x hx => ?_, ?_⟩
      · rw [hmap3.addr, hmap.addr]
        exact hpa
      · rw [hpte]
        exact valid_mkPte _ _
      · rw [hpte, pte2pa_mkPte hpage (by decide)]
      · have hlt : x < 2 ^ 39 := Nat.lt_trans hx (by decide)
        have hframe : ¬x / PGSIZE = TRAPFRAME / PGSIZE := by
          simp only [TRAPFRAME, TRAMPOLINE, MAXVA, PGSIZE] at hx ⊢
          omega
        have htop : ¬x / PGSIZE = TRAMPOLINE / PGSIZE := by
          simp only [TRAPFRAME, TRAMPOLINE, MAXVA, PGSIZE] at hx ⊢
          omega
        rw [hmap3.pte x hlt, if_neg hframe, hmap.pte x hlt, if_neg htop, pte_emptyTable]
        exact not_valid_zero
      · have hleaves := hmap3.leaves (by decide)
        rw [leafPart_of_valid (valid_mkPte _ _), pte2pa_mkPte hpage (by decide)] at hleaves
        rw [← hfree2]
        unfold pagesOf
        rw [hleaves, ← add_assoc, ← add_assoc, hmap3.tables]
        abel

end make

/-! ## Filling a table -/

/-- An image in the making: a page table and a size, after pages have moved
from the free list to it. -/
structure Filled (pt : PageTable) (k : Kmem) (image : PageTable × Nat) (k' : Kmem) :
    Prop where
  moves : Moves pt k image.1 k'
  frame : SameFrame pt image.1
  size : image.2 ≤ TRAMPOLINE

section fill

theorem keeps_loadseg {va : Nat} {offset : Nat} : Keeps Kmem.bare (loadseg pt va ip offset sz) := by
  refine .ite .panic (.bind (.loop (fun j _ => ?_) _ _ _) fun r => ?_)
  · refine .ite .panic (.bind .get fun k => ?_)
    split
    exact .bind (.modify fun _ => rfl) fun _ => .ite .pure .pure
  · split <;> exact .pure

theorem wp_loadProgHdr {off : Nat} (hk : k.Ok) (htable : TableFor trapframe pt k)
    (hsz : sz ≤ TRAMPOLINE) :
    wp (loadProgHdr ip off pt sz) (fun r k' => match r with
      | .inl image => Filled pt k image k'
      | .inr image => Filled pt k image k') (fun _ => True) k := by
  have hsame : Filled pt k (pt, sz) k := ⟨.refl, .refl, hsz⟩
  unfold loadProgHdr
  split
  extract_lets ph
  refine wp_ite (fun _ => wp_pure.mpr hsame) fun _ => ?_
  refine wp_ite (fun _ => wp_pure.mpr hsame) fun _ => ?_
  refine wp_ite (fun _ => wp_pure.mpr hsame) fun _ => ?_
  refine wp_ite (fun _ => wp_pure.mpr hsame) fun _ => ?_
  rw [wp_bind]
  refine wp_post (wp_uvmalloc_moves hk htable.tramp htable.frame hsz) ?_
  rintro ⟨pagetable1, sz1⟩ k1 ⟨hmoves, hframe, hsz1, -⟩
  refine wp_ite (fun _ => wp_pure.mpr ⟨hmoves, hframe, hsz⟩) fun _ => ?_
  refine wp_ite (fun _ => wp_pure.mpr ⟨hmoves, hframe, hsz1⟩) fun _ => ?_
  rw [wp_bind]
  refine keeps_loadseg.wp fun r k2 hbare => ?_
  have hfilled : Filled pt k (pagetable1, sz1) k2 :=
    ⟨hmoves.trans (.of_bare hbare), hframe, hsz1⟩
  exact wp_ite (fun _ => wp_pure.mpr hfilled) fun _ => wp_pure.mpr hfilled

theorem wp_loadProgram {elf : Bytes} (hk : k.Ok) (htable : TableFor trapframe pt k) :
    wp (loadProgram ip elf pt) (fun r k' => match r with
      | .inl image => Filled pt k image k'
      | .inr image => Filled pt k image k') (fun _ => True) k := by
  refine wp_loop (fun _ image k' => Filled pt k image k') ⟨.refl, .refl, Nat.zero_le _⟩ ?_
    fun image k' h => h
  rintro i ⟨pagetable1, sz1⟩ k1 _ _ ⟨hmoves1, hframe1, hsz1⟩
  have htable1 := htable.moves hmoves1 hframe1
  refine wp_post (wp_loadProgHdr (hmoves1.ok hk) htable1 hsz1) ?_
  rintro (image | image) k2 ⟨hmoves2, hframe2, hsz2⟩
  · exact ⟨hmoves1.trans hmoves2, hframe1.trans hframe2, hsz2⟩
  · exact ⟨hmoves1.trans hmoves2, hframe1.trans hframe2, hsz2⟩

/-- The last page of an image of size `sz` is mapped for the user, and there is
a page below it. -/
structure StackPage (pt : PageTable) (sz : Nat) : Prop where
  aligned : sz % PGSIZE = 0
  guard : 2 * PGSIZE ≤ sz
  page : UserPage pt (sz - PGSIZE)

theorem wp_allocStack (hk : k.Ok) (htable : TableFor trapframe pt k) (hsz : sz ≤ TRAMPOLINE) :
    wp (allocStack pt sz) (fun r k' => Filled pt k (r.1, r.2.1) k' ∧
      (r.2.2 = true → StackPage r.1 r.2.1)) (fun _ => True) k := by
  have hround : pgRoundUp sz ≤ TRAMPOLINE := pgRoundUp_le (by decide) hsz (by decide)
  have haligned := pgRoundUp_aligned sz
  have hend : uint64 ((pgRoundUp sz : Nat) + 2 * (PGSIZE : Nat)) = pgRoundUp sz + 2 * PGSIZE := by
    unfold uint64
    simp only [TRAMPOLINE, MAXVA, PGSIZE] at hround ⊢
    omega
  unfold allocStack
  extract_lets sz'
  rw [wp_bind]
  refine wp_post (wp_uvmalloc_moves hk htable.tramp htable.frame hround) ?_
  rintro ⟨pagetable1, sz1⟩ k1 ⟨hmoves1, hframe1, hsz1, hnew⟩
  refine wp_ite (fun _ => wp_pure.mpr ⟨⟨hmoves1, hframe1, hround⟩, fun h => by cases h⟩)
    fun h0 => ?_
  have hsame : pgRoundUp (pgRoundUp sz) = pgRoundUp sz :=
    pgRoundUp_of_aligned haligned (Nat.le_trans (Nat.add_le_add_right hround _) (by decide))
  change pgRoundUp sz ≤ uint64 ((pgRoundUp sz : Nat) + 2 * (PGSIZE : Nat)) → _ at hnew
  rw [hend, hsame] at hnew
  obtain ⟨rfl, hfilled⟩ := hnew (Nat.le_add_right _ _) h0
  have hguard : uint64 ((pgRoundUp sz + 2 * PGSIZE : Nat) - 2 * (PGSIZE : Nat)) = pgRoundUp sz := by
    unfold uint64
    simp only [TRAMPOLINE, MAXVA, PGSIZE] at hround ⊢
    omega
  rw [wp_bind, hguard]
  have hlow : pgRoundUp sz < TRAPFRAME := by
    simp only [TRAPFRAME, TRAMPOLINE, MAXVA, PGSIZE] at hsz1 ⊢
    omega
  refine wp_post (wp_uvmclear_moves (.inl hlow)) ?_
  rintro pagetable2 k2 ⟨hmoves2, hframe2, hrest⟩
  refine wp_pure.mpr ⟨⟨hmoves1.trans hmoves2, hframe1.trans hframe2, hsz1⟩, fun _ => ?_⟩
  have hrounds : 1 < pageRounds (pgRoundUp sz) (pgRoundUp sz + 2 * PGSIZE) := by
    unfold pageRounds
    simp only [PGSIZE]
    omega
  -- the second of the new pages is not the one that is cleared
  obtain ⟨pa, hpa, hpte, -⟩ := hfilled.given 1 hrounds
  have hmax : pgRoundUp sz + 1 * PGSIZE < MAXVA := by
    simp only [TRAMPOLINE, MAXVA, PGSIZE] at hsz1 ⊢
    omega
  rw [← hrest _ (lt_of_lt_maxva hmax) (by simp only [PGSIZE]; omega)] at hpte
  have hbase : pgRoundUp sz + 2 * PGSIZE - PGSIZE = pgRoundUp sz + 1 * PGSIZE := by omega
  refine ⟨?_, Nat.le_add_left _ _, ?_⟩
  · simp only [PGSIZE] at haligned ⊢
    omega
  · dsimp only
    rw [hbase]
    refine ⟨⟨hmax, ?_, ?_⟩, ?_⟩
    · rw [hpte]
      exact valid_mkPte _ _
    · rw [hpte, hasFlag_mkPte_user]
      decide
    · rw [hpte, pte2pa_mkPte (hk.pageAddr hpa) (by decide)]
      have hkend := (hk.free pa hpa).2.1
      have hbase := hk.kend
      simp only [KERNBASE] at hbase
      omega

end fill

end Xv6.Sys
