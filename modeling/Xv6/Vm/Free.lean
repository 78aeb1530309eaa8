import Xv6.Vm.Fill

/-!
# What `freewalk` and `uvmfree` do

`freewalk` gives back the page-table pages of a table without valid entries,
level by level.
-/

namespace Xv6.Vm

open Xv6.Lib Xv6.Lib.CInt
open Act

variable {k : Kmem} {pt : PageTable}

/-- Memory after the pages `ps` are freed. -/
structure Freed (ps : Multiset Nat) (k k' : Kmem) : Prop extends k.Keeps k' where
  freelist : (k'.freelist : Multiset Nat) = (k.freelist : Multiset Nat) + ps
  /-- A page that is not free has its bytes. -/
  mem : ∀ x ∉ k'.freelist, k'.mem x = k.mem x

theorem Freed.zero (k : Kmem) : Freed 0 k k := ⟨.refl k, (add_zero _).symm, fun _ _ => rfl⟩

theorem Freed.mem_of_mem {ps : Multiset Nat} {k' : Kmem} (h : Freed ps k k') {x : Nat}
    (hx : x ∈ k.freelist) : x ∈ k'.freelist := by
  rw [← Multiset.mem_coe, h.freelist]
  exact Multiset.mem_add.mpr (.inl hx)

theorem Freed.trans {ps qs : Multiset Nat} {k' k'' : Kmem} (h : Freed ps k k')
    (h' : Freed qs k' k'') : Freed (ps + qs) k k'' := by
  refine ⟨h.toKeeps.trans h'.toKeeps, ?_, fun x hx => ?_⟩
  · rw [h'.freelist, h.freelist, add_assoc]
  · exact (h'.mem x hx).trans (h.mem x fun hin => hx (h'.mem_of_mem hin))

theorem wp_kfree_freed {pa : Nat} : Ends (kfree pa) (Freed {pa} k) k := by
  apply wp_kfree trivial
  intro ha hb hc
  refine ⟨⟨rfl, rfl, fun hk => hk.cons ha hb hc⟩, ?_, fun x hx => ?_⟩
  · rw [← Multiset.cons_coe, ← Multiset.singleton_add, add_comm]
  · exact Function.update_of_ne (List.ne_of_not_mem_cons hx) _ _

/-! ## `freewalk` -/

theorem wp_freewalkLeafPage {page : LeafPage} :
    wp (freewalkLeafPage page) (fun _ k' => Freed (lowPart (some page)) k k' ∧
      ∀ t < 512, ¬Valid (page.pte t)) (fun _ => True) k := by
  unfold freewalkLeafPage
  rw [wp_bind]
  refine wp_post (wp_iter (fun i _ k' => k' = k ∧ ∀ t < i, ¬Valid (page.pte t)) ⟨rfl, ?_⟩ ?_) ?_
  · intro t ht
    exact absurd ht (Nat.not_lt_zero t)
  · rintro t _ k' _ ht ⟨hk', hnone⟩
    by_cases hv : Valid (page.pte t)
    · refine wp_ite (fun _ => wp_panic.mpr trivial) fun _ => ?_
      exact wp_ite (fun _ => wp_panic.mpr trivial) fun h => absurd hv h
    · have hv' : hasFlag (page.pte t) PTE_V = false := by simpa using hv
      simp only [hv', Bool.false_and, Bool.false_eq_true, ↓reduceIte]
      exact wp_pure.mpr ⟨hk', Nat.forall_lt_succ_right.mpr ⟨hnone, hv⟩⟩
  · rintro _ k' ⟨rfl, hnone⟩
    exact wp_post wp_kfree_freed fun _ _ h => ⟨h, hnone⟩

/-- A page-table page of an upper level goes back with everything below
it. -/
theorem wp_freewalkDirPage {α : Type} (part : Option α → Multiset Nat) (hnone : part none = 0)
    (empty : α → Prop) {freeChild : α → KmemM Unit} {page : DirPage α}
    (hchild : ∀ child k, wp (freeChild child)
      (fun _ k' => Freed (part (some child)) k k' ∧ empty child) (fun _ => True) k) :
    wp (freewalkDirPage freeChild page)
      (fun _ k' => Freed ({page.addr} + ∑ i ∈ Finset.range 512, part (page.entry i)) k k' ∧
        ∀ i < 512, ∀ child, page.entry i = some child → empty child) (fun _ => True) k := by
  unfold freewalkDirPage
  rw [wp_bind]
  refine wp_post (wp_iter (fun i _ k' =>
    Freed (∑ j ∈ Finset.range i, part (page.entry j)) k k' ∧
      ∀ j < i, ∀ child, page.entry j = some child → empty child) ⟨?_, ?_⟩ ?_) ?_
  · rw [Finset.sum_range_zero]
    exact Freed.zero k
  · intro j hj
    exact absurd hj (Nat.not_lt_zero j)
  · rintro i _ k' _ hi ⟨hinv, hempty⟩
    rw [Finset.sum_range_succ]
    cases hentry : page.entry i with
    | none =>
      rw [hnone, add_zero]
      refine wp_pure.mpr ⟨hinv, Nat.forall_lt_succ_right.mpr ⟨hempty, fun child hchild => ?_⟩⟩
      exact absurd (hentry.symm.trans hchild) (by simp)
    | some child =>
      refine wp_post (hchild child k') ?_
      rintro _ k'' ⟨hfreed, hchild'⟩
      refine ⟨hinv.trans hfreed, Nat.forall_lt_succ_right.mpr ⟨hempty, fun child' heq => ?_⟩⟩
      exact Option.some.inj (hentry.symm.trans heq) ▸ hchild'
  · rintro _ k' ⟨hinv, hempty⟩
    refine wp_post wp_kfree_freed ?_
    intro _ k'' hfreed
    have h := hinv.trans hfreed
    rw [Nat.zero_add, add_comm] at h
    exact ⟨h, hempty⟩

/-- `freewalk` frees the page-table pages, and gets to its end only when there
is no valid entry left. -/
theorem wp_freewalk :
    wp (freewalk pt) (fun _ k' => Freed (tablePages pt) k k' ∧
      ∀ x, x < 2 ^ 39 → ¬Valid (pt.pte x)) (fun _ => True) k := by
  let leafEmpty : LeafPage → Prop := fun leaf => ∀ t < 512, ¬Valid (leaf.pte t)
  let midEmpty : DirPage LeafPage → Prop := fun mid =>
    ∀ j < 512, ∀ leaf, mid.entry j = some leaf → leafEmpty leaf
  refine wp_post (wp_freewalkDirPage midPart rfl midEmpty fun mid k => ?_) ?_
  · exact wp_freewalkDirPage lowPart rfl leafEmpty fun leaf k => wp_freewalkLeafPage
  · rintro _ k' ⟨hfreed, hempty⟩
    refine ⟨hfreed, fun x _ hv => ?_⟩
    unfold PageTable.pte PageTable.leafPage at hv
    cases hmid : pt.entry (px 2 x) with
    | none =>
      rw [hmid] at hv
      exact not_valid_zero hv
    | some mid =>
      rw [hmid, Option.bind_some] at hv
      cases hentry : mid.entry (px 1 x) with
      | none =>
        rw [hentry] at hv
        exact not_valid_zero hv
      | some leaf =>
        rw [hentry] at hv
        exact hempty _ (px_lt 2 x) mid hmid _ (px_lt 1 x) leaf hentry _ (px_lt 0 x) hv

/-! ## `uvmfree` -/

theorem lt_of_mem_userPages {v : Nat} (hv : v ∈ Finset.range userPages) : v * PGSIZE < 2 ^ 39 := by
  rw [Finset.mem_range, userPages] at hv
  simp only [TRAMPOLINE, MAXVA, PGSIZE] at hv ⊢
  omega

theorem leafPages_eq_zero (h : ∀ x, x < 2 ^ 39 → ¬Valid (pt.pte x)) : leafPages pt = 0 :=
  Finset.sum_eq_zero fun _ hv => leafPart_of_not_valid (h _ (lt_of_mem_userPages hv))

theorem unmapRounds_pgRoundUp (sz : Nat) :
    unmapRounds 0 (pgRoundUp sz / PGSIZE) = pgRoundUp sz / PGSIZE := by
  apply unmapRounds_of_lt
  rw [Nat.zero_add, Nat.div_mul_cancel (Nat.dvd_of_mod_eq_zero (pgRoundUp_aligned sz))]
  exact Nat.lt_of_le_of_lt (Nat.div_mul_le_self _ _) (uint64_lt _)

/-- What `uvmfree` does to a table without the trampoline: it gives back what
the table holds. -/
theorem wp_uvmfree {sz : Nat} (htramp : ∀ x, TRAMPOLINE ≤ x → x < MAXVA → ¬Valid (pt.pte x)) :
    Ends (uvmfree pt sz) (Freed (pagesOf pt) k) k := by
  unfold Ends uvmfree
  rw [wp_bind]
  apply wp_ite
  · intro hpos
    refine wp_uvmunmap fun pt' k' hal hun => ?_
    rw [unmapRounds_pgRoundUp sz] at hun
    have hleaves := hun.leaves rfl fun x hx hle hlt => htramp x hx (hun.lt_maxva hal hle hlt)
    refine wp_post wp_freewalk ?_
    rintro _ k'' ⟨hfreed, hnone⟩
    rw [leafPages_eq_zero hnone, add_zero] at hleaves
    refine ⟨hun.toKeeps.trans hfreed.toKeeps, ?_, fun y hy => ?_⟩
    · rw [hfreed.freelist, hleaves, hun.tables, pagesOf]
      abel
    · refine (hfreed.mem y hy).trans (hun.mem y fun x hle hlt hv hpa => hy ?_)
      rw [← hpa]
      exact hfreed.mem_of_mem (hun.freed rfl x hle hlt hv).2
  · intro _
    rw [wp_pure]
    refine wp_post wp_freewalk ?_
    rintro _ k' ⟨hfreed, hnone⟩
    rw [pagesOf, leafPages_eq_zero hnone, add_zero]
    exact hfreed

end Xv6.Vm
