import Xv6.Vm.Cost
import Xv6.Vm.Grow

/-!
# What `uvmalloc` takes and fills

`Grown` says what becomes of the table; this is about memory. All pages that
`uvmalloc` takes come off the free list and are filled with zeros, the ones for
the user as well as the page-table pages, and every other page keeps its bytes.
How many these are is `growCost`, so it is known for which free lists `uvmalloc`
runs out of memory.

The pages that it takes back are pages that it took, so `kfree` accepts them,
and the only panics are those of `mappages`, at the pages that are reached.
-/

namespace Xv6.Vm

open Xv6.Lib Xv6.Lib.CInt Function
open Act

variable {k : Kmem} {r va : Nat} {next : List Nat} {pt : PageTable}
  {P : Prop} {Q : PageTable × Nat → Kmem → Prop}

theorem lt_of_lt_maxva {x : Nat} (h : x < MAXVA) : x < 2 ^ 39 := Nat.lt_trans h (by decide)

/-! ## The rounds -/

/-- The free pages that `n` rounds of `uvmalloc` from `first` on take. -/
abbrev growCost (pt : PageTable) (first : Nat) : Nat → Nat :=
  mapCost (first + · * PGSIZE) (fun _ => True) pt

/-- The table and memory after `n` rounds of `uvmalloc` from `first` on, with
the pages it took. -/
structure Filled (pt : PageTable) (first n : Nat) (k : Kmem) (pt' : PageTable)
    (k' : Kmem) : Prop extends Grown pt first n k pt' k', k.Takes k' where
  /-- The pages of the range are free pages, and zero. -/
  given : ∀ i, i < n → ∃ pa, pa ∈ k.freelist ∧
    pt'.pte (first + i * PGSIZE) = mkPte pa heapPerm ∧ k'.mem pa = fun _ => 0
  tabled : Tabled (first + · * PGSIZE) (fun _ => True) pt n pt'
  spent : k.freelist.length = k'.freelist.length + growCost pt first n

theorem Filled.zero {first : Nat} : Filled pt first 0 k pt k where
  toGrown := .zero
  suffix := List.suffix_refl _
  mem := fun _ _ => rfl
  given := nofun
  tabled := .zero
  spent := rfl

section step

variable {pt' pt'' : PageTable} {first n : Nat} {k' k'' : Kmem}

theorem Filled.cost (h : Filled pt first n k pt' k') :
    growCost pt first (n + 1) = growCost pt first n + 1 + missingTables pt' (first + n * PGSIZE) :=
  h.tabled.cost trivial

theorem Filled.succ (h : Filled pt first n k pt' k') (hk : k.Ok) (haligned : first % PGSIZE = 0)
    (hfree : k'.freelist = r :: next) (hlt : first + n * PGSIZE < MAXVA)
    (hmap : Mapped pt' (first + n * PGSIZE) (mkPte r heapPerm) (k'.take r next) pt'' k'')
    (hreached : Reached pt' (first + n * PGSIZE) pt'')
    (hspent : next.length = k''.freelist.length + missingTables pt' (first + n * PGSIZE)) :
    Filled pt first (n + 1) k pt'' k'' := by
  have htakes := h.toTakes.trans ((Kmem.take_takes hfree).trans hmap.toTakes)
  -- a page that is zero stays zero
  have hzeros : ∀ {pa}, (k'.take r next).mem pa = (fun _ => 0) → k''.mem pa = fun _ => 0 :=
    fun {pa} hpa => (hmap.blank pa).elim (fun heq => heq.trans hpa) id
  have hlength : k'.freelist.length = next.length + 1 := by rw [hfree, List.length_cons]
  refine ⟨h.toGrown.succ hk haligned hfree (fun _ hx => update_of_ne hx ..) hlt hmap, htakes.suffix,
    htakes.mem, ?_, h.tabled.succ trivial hreached, ?_⟩
  · refine Nat.forall_lt_succ_right.mpr ⟨fun i hi => ?_, ?_⟩
    · obtain ⟨pa, hpa, hpte, hzero⟩ := h.given i hi
      refine ⟨pa, hpa, ?_, hzeros ((Kmem.take_blank pa).elim (fun heq => heq.trans hzero) id)⟩
      have hbelow := (h.fresh i hi).1
      have hother : ¬(first + i * PGSIZE) / PGSIZE = (first + n * PGSIZE) / PGSIZE := by
        simp only [PGSIZE] at haligned ⊢
        omega
      rw [hmap.pte (first + i * PGSIZE) (lt_of_lt_maxva hbelow), if_neg hother, hpte]
    · refine ⟨r, h.suffix.subset (by rw [hfree]; exact List.mem_cons_self), ?_,
        hzeros (update_self ..)⟩
      rw [hmap.pte (first + n * PGSIZE) (lt_of_lt_maxva hlt), if_pos rfl]
  · have hbefore := h.spent
    have hcost := h.cost
    omega

theorem Filled.walkFailed (h : Filled pt first n k pt' k') {junk' : Bytes}
    (hfree : k'.freelist = r :: next) (hw : Walked pt' va (k'.take r next) pt'' false k'') :
    Grown pt first n k pt''
        { k'' with freelist := r :: k''.freelist, mem := update k''.mem r junk' } ∧
      (∀ x ∉ k.freelist, update k''.mem r junk' x = k.mem x) ∧ ∀ i < n, ∃ pa, pa ∈ k.freelist ∧
        pt''.pte (first + i * PGSIZE) = mkPte pa heapPerm := by
  have htakes := h.toTakes.trans ((Kmem.take_takes hfree).trans hw.toTakes)
  refine ⟨h.toGrown.walkFailed hfree (fun _ hx => update_of_ne hx ..) hw, fun x hx => ?_, fun i hi => ?_⟩
  · have hne : x ≠ r := by
      rintro rfl
      exact hx (h.suffix.subset (by rw [hfree]; exact List.mem_cons_self))
    rw [update_of_ne hne, htakes.mem x hx]
  · obtain ⟨pa, hpa, hpte, -⟩ := h.given i hi
    exact ⟨pa, hpa, by rw [hw.pte, hpte]⟩

/-- Taking back pages that came off the free list. -/
theorem Grown.wp_takeBack {oldsz newsz : Nat}
    (h : Grown pt (pgRoundUp newsz) (deallocRounds oldsz newsz) k pt' k') (hk : k.Ok)
    (hold : newsz < oldsz → oldsz ≤ MAXVA) (hle : newsz ≤ oldsz)
    (hmem : ∀ x ∉ k.freelist, k'.mem x = k.mem x)
    (hgiven : ∀ i < deallocRounds oldsz newsz, ∃ pa, pa ∈ k.freelist ∧
      pt'.pte (pgRoundUp newsz + i * PGSIZE) = mkPte pa heapPerm)
    (hok : ∀ pt'' k'', Restored pt (pgRoundUp newsz) k pt'' k'' →
      (∀ x ∉ k.freelist, k''.mem x = k.mem x) →
      (oldsz ≤ TRAMPOLINE → (k''.freelist : Multiset Nat) + pagesOf pt'' =
        (k.freelist : Multiset Nat) + pagesOf pt) → Q (pt'', newsz) k'') :
    wp (uvmdealloc pt' oldsz newsz) Q (fun _ => P) k' := by
  have haligned := pgRoundUp_aligned newsz
  refine h.wp_uvmdealloc_exact hold hle ?_ ?_
  · intro i hi
    obtain ⟨pa, hpa, hpte⟩ := hgiven i hi
    rw [hpte, pte2pa_mkPte (hk.pageAddr hpa) (by decide), Kmem.Ram, h.kend]
    exact hk.free pa hpa
  · intro pt'' k'' hun
    refine hok pt'' k'' (h.restored haligned hun) (fun x hx => ?_) fun hbelow =>
      h.held hun ?_
    · rw [hun.mem x ?_, hmem x hx]
      intro y hlow hhigh _ hpa
      have hpage : y / PGSIZE =
          (pgRoundUp newsz + (y - pgRoundUp newsz) / PGSIZE * PGSIZE) / PGSIZE := by
        simp only [PGSIZE] at haligned ⊢
        omega
      obtain ⟨pa, hin, hpte⟩ := hgiven ((y - pgRoundUp newsz) / PGSIZE) (by
        simp only [PGSIZE] at hhigh ⊢
        omega)
      rw [PageTable.pte_eq_of_page hpage, hpte, pte2pa_mkPte (hk.pageAddr hin) (by decide)] at hpa
      exact hx (hpa ▸ hin)
    · have hround := pgRoundUp_le (by decide) hbelow (by decide)
      rw [add_deallocRounds (pgRoundUp_mono hle ?_)]
      · exact hround
      · exact Nat.le_trans (Nat.add_le_add_right hbelow _) (by decide)

end step

/-- None of `n` pages from `first` on is beyond the address space or mapped, as
far as the free pages of `k` reach. -/
def CanGrow (k : Kmem) (pt : PageTable) (first n : Nat) : Prop :=
  ∀ i < n, growCost pt first i < k.freelist.length →
    first + i * PGSIZE < MAXVA ∧ ¬Valid (pt.pte (first + i * PGSIZE))

/-- What `uvmalloc` does, and exactly when it panics: at a page beyond the
address space or one that is mapped, if there are free pages up to it. -/
theorem wp_uvmalloc_exact {oldsz newsz : Nat} (hk : k.Ok) (hold : oldsz + PGSIZE ≤ 2 ^ 64)
    (hpanic : ¬CanGrow k pt (pgRoundUp oldsz) (pageRounds (pgRoundUp oldsz) newsz) → P)
    (hsmall : newsz < oldsz → Q (pt, oldsz) k)
    (hfail : ∀ pt' k', Restored pt (pgRoundUp oldsz) k pt' k' →
      (∀ x ∉ k.freelist, k'.mem x = k.mem x) →
      (newsz ≤ TRAMPOLINE → (k'.freelist : Multiset Nat) + pagesOf pt' =
        (k.freelist : Multiset Nat) + pagesOf pt) →
      CanGrow k pt (pgRoundUp oldsz) (pageRounds (pgRoundUp oldsz) newsz) →
      k.freelist.length < growCost pt (pgRoundUp oldsz) (pageRounds (pgRoundUp oldsz) newsz) →
      Q (pt', 0) k') (hok : ∀ pt' k', oldsz ≤ newsz → Filled pt (pgRoundUp oldsz)
      (pageRounds (pgRoundUp oldsz) newsz) k pt' k' → Q (pt', newsz) k') :
    wp (uvmalloc pt oldsz newsz) Q (fun _ => P) k := by
  have haligned := pgRoundUp_aligned oldsz
  have hfirst := pgRoundUp_add_le hold
  unfold uvmalloc
  refine wp_ite (fun h => wp_pure.mpr (hsmall h)) fun hle => ?_
  rw [wp_bind]
  apply wp_loop (fun i pt' k' => Filled pt (pgRoundUp oldsz) i k pt' k')
    Filled.zero
  · intro i pt' k' _ hi hinv
    rw [Nat.zero_add] at hi
    have hspent := hinv.spent
    have hnext := hinv.cost
    have hmono : ∀ {j}, i + 1 ≤ j → growCost pt (pgRoundUp oldsz) (i + 1) ≤
      growCost pt (pgRoundUp oldsz) j := mapCost_mono _ _ _
    -- the rounds so far are taken back
    have hundo : ∀ pt'' k'', Grown pt (pgRoundUp oldsz) i k pt'' k'' →
        (∀ x ∉ k.freelist, k''.mem x = k.mem x) →
        (∀ j < i, ∃ pa, pa ∈ k.freelist ∧
          pt''.pte (pgRoundUp oldsz + j * PGSIZE) = mkPte pa heapPerm) →
        k.freelist.length < growCost pt (pgRoundUp oldsz) (i + 1) →
        (growCost pt (pgRoundUp oldsz) i < k.freelist.length →
          pgRoundUp oldsz + i * PGSIZE < MAXVA ∧
            ¬Valid (pt.pte (pgRoundUp oldsz + i * PGSIZE))) →
        wp (uvmdealloc pt'' (pgRoundUp oldsz + i * PGSIZE) (pgRoundUp oldsz))
          (fun r s => Q (r.1, 0) s) (fun _ => P) k'' := by
      intro pt'' k'' hgrown hmem hgiven hshort hpage
      have hcan : CanGrow k pt (pgRoundUp oldsz) (pageRounds (pgRoundUp oldsz) newsz) := by
        intro j hj hfree
        rcases Nat.lt_trichotomy j i with hlt | rfl | hgt
        · exact hgrown.fresh j hlt
        · exact hpage hfree
        · have hmore := hmono (Nat.succ_le_of_lt hgt)
          omega
      have hup := pgRoundUp_of_aligned haligned hfirst
      have hrounds : deallocRounds (pgRoundUp oldsz + i * PGSIZE) (pgRoundUp oldsz) = i := by
        rw [deallocRounds, hup, pgRoundUp_of_aligned (add_mul_aligned haligned i)
          (hgrown.next_le hfirst), Nat.add_sub_cancel_left, Nat.mul_div_cancel _ (by decide)]
      have hmax : pgRoundUp oldsz < pgRoundUp oldsz + i * PGSIZE →
          pgRoundUp oldsz + i * PGSIZE ≤ MAXVA := by
        intro hlt
        have hpos : 0 < i := Nat.pos_of_mul_pos_right (Nat.lt_add_right_iff_pos.mp hlt)
        have hlast := (hgrown.fresh (i - 1) (by omega)).1
        simp only [MAXVA, PGSIZE] at hlast haligned ⊢
        omega
      refine Grown.wp_takeBack (by rw [hup, hrounds]; exact hgrown) hk hmax (Nat.le_add_right _ _)
        hmem (by rw [hup, hrounds]; exact hgiven) fun pt₁ k₁ hback hmem₁ hpages => ?_
      rw [hup] at hback
      refine hfail _ _ hback hmem₁ (fun hle => hpages ?_) hcan (Nat.lt_of_lt_of_le hshort (hmono hi))
      unfold pageRounds at hi
      simp only [PGSIZE] at hi ⊢
      omega
    rw [wp_bind]
    apply wp_kalloc
    · intro hempty
      rw [hempty, List.length_nil] at hspent
      rw [wp_bind]
      refine wp_post (hundo _ _ hinv.toGrown hinv.mem (fun j hj => ?_) (by omega) (by omega))
        fun _ _ h => wp_pure.mpr (wp_pure.mpr h)
      obtain ⟨pa, hpa, hpte, -⟩ := hinv.given j hj
      exact ⟨pa, hpa, hpte⟩
    · intro r next hfree
      have hlength : k'.freelist.length = next.length + 1 := by rw [hfree, List.length_cons]
      have hr := (hinv.ok hk).free r (by rw [hfree]; exact List.mem_cons_self)
      rw [wp_bind, wp_memset_take, wp_bind]
      apply wp_mappages_exact (add_mul_aligned haligned i) (hinv.toGrown.next_le hfirst)
      · exact fun hge => hpanic fun hcan => Nat.not_lt.mpr hge (hcan i hi (by omega)).1
      · intro hmax hv
        refine hpanic fun hcan => (hcan i hi (by omega)).2 ?_
        rwa [hinv.rest _ (lt_of_lt_maxva hmax) (by omega)] at hv
      · intro pt'' k'' hmax hw _ hshort
        change wp (kfree r >>= _) _ _ _
        rw [wp_bind]
        have hkend : k''.kend = k'.kend := hw.kend
        refine wp_kfree_page hr.1 (by rw [hkend]; exact hr.2.1) hr.2.2 ?_
        obtain ⟨hgrown, hmem, hgiven⟩ := hinv.walkFailed hfree hw
        rw [wp_bind]
        change next.length < _ at hshort
        refine wp_post (hundo _ _ hgrown hmem hgiven (by omega) fun _ => ⟨hmax, fun hv => ?_⟩)
          fun _ _ h => wp_pure.mpr (wp_pure.mpr h)
        -- a page that is mapped lacks no page-table page
        rw [← hinv.rest _ (lt_of_lt_maxva hmax) (by omega)] at hv
        rw [missingTables_eq, if_pos (PageTable.tableAt_of_pte fun h0 => ?_)] at hshort
        · exact Nat.not_lt_zero _ hshort
        · exact not_valid_zero (h0 ▸ hv)
      · intro pt'' k'' hmax hmap hreached hspent'
        exact wp_pure.mpr (hinv.succ hk haligned hfree hmax hmap hreached hspent')
  · intro pt' k' h
    rw [Nat.zero_add] at h
    exact wp_pure.mpr (hok _ _ (by omega) h)

end Xv6.Vm
