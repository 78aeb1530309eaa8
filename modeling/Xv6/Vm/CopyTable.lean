import Xv6.Vm.Balance

/-!
# What `uvmcopy` copies

`uvmcopy` goes through the pages of the parent below a size. A page that the
parent has not touched yet is left out; for the others it takes a page off the
free list, copies the bytes and maps the copy for the child with the flags of
the original. `Copied` says what has become of the child's table and of memory
after any number of rounds, and `Undone` what is left after the error exit.

## The page-table pages

The error exit goes through the pages of the child from 0 on, and it needs a
page-table page for each of them. Which of these there are depends on the
pages copied before, and how many free pages the rounds take is `copyCost`. With
that the rule `wp_uvmcopy_exact` names the free memory that leads to each of the
panics.
-/

namespace Xv6.Vm

open Xv6.Lib Xv6.Lib.CInt Function
open Act

variable {x w n r : Nat} {Q : PageTable × Int → Kmem → Prop} {P : Prop} {next : List Nat}
  {junk : Bytes}

/-! ## What the rounds take -/

/-- After `n` rounds the child has a page-table page for `x`. -/
abbrev CopyTable (old new : PageTable) : Nat → Nat → Prop :=
  TableAfter (· * PGSIZE) (fun i => Valid (old.pte (i * PGSIZE))) new

/-- The free pages that `n` rounds take: for each page of the parent the copy,
and the page-table pages that are missing for it. -/
abbrev copyCost (old new : PageTable) : Nat → Nat :=
  mapCost (· * PGSIZE) (fun i => Valid (old.pte (i * PGSIZE))) new

/-! ## The rounds -/

/-- The table of the child after `n` rounds, and what memory has been given to
it. This is what the error exit relies on. -/
structure Copying (old new : PageTable) (n : Nat) (k : Kmem) (new' : PageTable) (k' : Kmem) : Prop
    extends k.Keeps k' where
  addr : new'.addr = new.addr
  /-- The parent has a page-table page for each of the pages. -/
  seen : ∀ i, i < n → i * PGSIZE < MAXVA ∧ old.tableAt (i * PGSIZE) = true
  /-- The child had none of the pages. -/
  fresh : ∀ i, i < n → ¬Valid (new.pte (i * PGSIZE))
  /-- The pages of the parent are mapped to pages off the free list. -/
  given : ∀ i, i < n → Valid (old.pte (i * PGSIZE)) → ∃ pa, pa ∈ k.freelist ∧
    new'.pte (i * PGSIZE) = mkPte pa (pteFlags (old.pte (i * PGSIZE)))
  rest : ∀ x, x < 2 ^ 39 → ¬(x < n * PGSIZE ∧ Valid (old.pte x)) → new'.pte x = new.pte x
  table : ∀ x, new'.tableAt x = true ↔ CopyTable old new n x
  pages : n * PGSIZE ≤ TRAMPOLINE → (k'.freelist : Multiset Nat) + pagesOf new' =
    (k.freelist : Multiset Nat) + pagesOf new
  mem : ∀ x ∉ k.freelist, k'.mem x = k.mem x

/-- The table of the child and memory after `n` rounds that went well. -/
structure Copied (old new : PageTable) (n : Nat) (k : Kmem) (new' : PageTable) (k' : Kmem) : Prop
    extends Copying old new n k new' k', k.Takes k' where
  tabled : Tabled (· * PGSIZE) (fun i => Valid (old.pte (i * PGSIZE))) new n new'
  spent : k.freelist.length = k'.freelist.length + copyCost old new n
  taken : k.freelist.Nodup → ∀ i, i < n → Valid (old.pte (i * PGSIZE)) →
    pte2pa (new'.pte (i * PGSIZE)) ∉ k'.freelist
  distinct : k.freelist.Nodup → ∀ i j, i < n → j < n → Valid (old.pte (i * PGSIZE)) →
    Valid (old.pte (j * PGSIZE)) →
    pte2pa (new'.pte (i * PGSIZE)) = pte2pa (new'.pte (j * PGSIZE)) → i = j
  /-- The bytes of a page that is not itself on the free list are copied. -/
  bytes : k.freelist.Nodup → ∀ i, i < n → Valid (old.pte (i * PGSIZE)) →
    pte2pa (old.pte (i * PGSIZE)) ∉ k.freelist →
    k'.mem (pte2pa (new'.pte (i * PGSIZE))) = k.mem (pte2pa (old.pte (i * PGSIZE)))

theorem Copied.cost {old new new' : PageTable} {k k' : Kmem} (h : Copied old new n k new' k')
    (hv : Valid (old.pte (n * PGSIZE))) : copyCost old new (n + 1) =
      copyCost old new n + 1 + missingTables new' (n * PGSIZE) :=
  h.tabled.cost hv

theorem PageTable.pte_page (pt : PageTable) (x : Nat) :
    pt.pte x = pt.pte (x / PGSIZE * PGSIZE) := by
  refine PageTable.pte_eq_of_page ?_
  rw [Nat.mul_div_cancel _ (by decide)]

theorem pteFlags_lt (w : Nat) : pteFlags w < 1024 := Nat.lt_of_le_of_lt Nat.and_le_right (by decide)

section rounds

variable {old new new' new'' : PageTable} {k k' k'' : Kmem}

theorem Copied.zero : Copied old new 0 k new k where
  toKeeps := .refl k
  suffix := List.suffix_refl _
  addr := rfl
  seen := nofun
  fresh := nofun
  given := nofun
  rest := fun _ _ _ => rfl
  table := Tabled.zero.table
  pages := fun _ => rfl
  mem := fun _ _ => rfl
  tabled := .zero
  spent := rfl
  taken := nofun
  distinct := nofun
  bytes := nofun

theorem lt_of_valid {i : Nat} (hi : i < n + 1) (hv : ¬Valid (old.pte (n * PGSIZE)))
    (hvi : Valid (old.pte (i * PGSIZE))) : i < n := by
  rcases Nat.lt_succ_iff_lt_or_eq.mp hi with hi | rfl
  · exact hi
  · exact absurd hvi hv

theorem Copied.skip (h : Copied old new n k new' k') (hlt : n * PGSIZE < MAXVA)
    (htable : old.tableAt (n * PGSIZE) = true) (hv : ¬Valid (old.pte (n * PGSIZE)))
    (hv' : ¬Valid (new.pte (n * PGSIZE))) : Copied old new (n + 1) k new' k' where
  toKeeps := h.toKeeps
  suffix := h.suffix
  addr := h.addr
  seen := Nat.forall_lt_succ_right.mpr ⟨h.seen, hlt, htable⟩
  fresh := Nat.forall_lt_succ_right.mpr ⟨h.fresh, hv'⟩
  given := fun i hi hvi => h.given i (lt_of_valid hi hv hvi) hvi
  rest := fun x hx hout => by
    refine h.rest x hx fun hin => hout ⟨Nat.lt_of_lt_of_le hin.1 ?_, hin.2⟩
    exact Nat.mul_le_mul_right _ (Nat.le_succ n)
  table := (h.tabled.skip hv).table
  pages := fun hle => h.pages (Nat.le_trans (Nat.mul_le_mul_right _ (Nat.le_succ n)) hle)
  mem := h.mem
  tabled := h.tabled.skip hv
  spent := by
    rw [copyCost, mapCost, if_neg hv]
    exact h.spent
  taken := fun hnodup i hi hvi => h.taken hnodup i (lt_of_valid hi hv hvi) hvi
  distinct := fun hnodup i j hi hj hvi hvj =>
    h.distinct hnodup i j (lt_of_valid hi hv hvi) (lt_of_valid hj hv hvj) hvi hvj
  bytes := fun hnodup i hi hvi => h.bytes hnodup i (lt_of_valid hi hv hvi) hvi

/-- The free list and memory after a page is taken for the copy of the page
`src`. -/
def Kmem.copyTo (k : Kmem) (r src : Nat) (next : List Nat) (junk : Bytes) : Kmem :=
  { k with
    freelist := next
    mem := Function.update (Function.update k.mem r junk) r (Function.update k.mem r junk src) }

theorem Kmem.copyTo_takes {src : Nat} (hfree : k.freelist = r :: next) :
    k.Takes (k.copyTo r src next junk) := by
  refine Kmem.takes_cons hfree fun x hx => ?_
  rw [update_of_ne hx, update_of_ne hx]

theorem Mapped.pte_copy {i : Nat} (h : Mapped new' (n * PGSIZE) w k' new'' k'')
    (hi : i * PGSIZE < MAXVA) :
    new''.pte (i * PGSIZE) = if i = n then w else new'.pte (i * PGSIZE) := by
  rw [h.pte _ (lt_of_lt_maxva hi), Nat.mul_div_cancel _ (by decide), Nat.mul_div_cancel _ (by decide)]

theorem Copied.succ (h : Copied old new n k new' k') (hk : k.Ok) (hlt : n * PGSIZE < MAXVA)
    (htable : old.tableAt (n * PGSIZE) = true) (hv : Valid (old.pte (n * PGSIZE)))
    (hfree : k'.freelist = r :: next)
    (hmap : Mapped new' (n * PGSIZE) (mkPte r (pteFlags (old.pte (n * PGSIZE))))
      (k'.copyTo r (pte2pa (old.pte (n * PGSIZE))) next junk) new'' k'')
    (hreached : Reached new' (n * PGSIZE) new'')
    (hspent : next.length = k''.freelist.length + missingTables new' (n * PGSIZE)) :
    Copied old new (n + 1) k new'' k'' := by
  have hr' : r ∈ k'.freelist := by
    rw [hfree]
    exact List.mem_cons_self
  have hr : r ∈ k.freelist := h.suffix.subset hr'
  have hpage : PageAddr r := hk.pageAddr hr
  have htakes : k'.Takes k'' := (Kmem.copyTo_takes hfree).trans hmap.toTakes
  have hnext : ∀ x ∉ k'.freelist, k''.mem x = k'.mem x := htakes.mem
  have hself : new''.pte (n * PGSIZE) = mkPte r (pteFlags (old.pte (n * PGSIZE))) := by
    rw [hmap.pte_copy hlt, if_pos rfl]
  have hpa : pte2pa (new''.pte (n * PGSIZE)) = r := by
    rw [hself, pte2pa_mkPte hpage (pteFlags_lt _)]
  have hearlier : ∀ i < n, new''.pte (i * PGSIZE) = new'.pte (i * PGSIZE) := by
    intro i hi
    rw [hmap.pte_copy (h.seen i hi).1, if_neg (by omega)]
  -- The page is not on the free list any more, since it was there once.
  have hgone : k.freelist.Nodup → r ∉ next := by
    intro hnodup
    have hnodup' := h.suffix.sublist.nodup hnodup
    rw [hfree, List.nodup_cons] at hnodup'
    exact hnodup'.1
  have hafter : k''.freelist ⊆ next := hmap.suffix.subset
  refine ⟨⟨h.toKeeps.trans htakes.toKeeps, hmap.addr.trans h.addr, ?_, ?_, ?_, ?_, ?_, ?_, ?_⟩,
    htakes.suffix.trans h.suffix, ?_, ?_, ?_, ?_, ?_⟩
  · exact Nat.forall_lt_succ_right.mpr ⟨h.seen, hlt, htable⟩
  · refine Nat.forall_lt_succ_right.mpr ⟨h.fresh, ?_⟩
    rw [← h.rest _ (lt_of_lt_maxva hlt) fun hc => Nat.lt_irrefl _ hc.1]
    exact hmap.fresh
  · refine Nat.forall_lt_succ_right.mpr ⟨fun i hi hvi => ?_, fun _ => ⟨r, hr, hself⟩⟩
    rw [hearlier i hi]
    exact h.given i hi hvi
  · intro x hx hout
    have hother : ¬x / PGSIZE = n * PGSIZE / PGSIZE := by
      intro heq
      refine hout ⟨?_, by rwa [PageTable.pte_eq_of_page heq]⟩
      simp only [PGSIZE] at heq ⊢
      omega
    rw [hmap.pte x hx, if_neg hother]
    refine h.rest x hx fun hin => hout ⟨Nat.lt_of_lt_of_le hin.1 ?_, hin.2⟩
    exact Nat.mul_le_mul_right _ (Nat.le_succ n)
  · exact (h.tabled.succ hv hreached).table
  · intro hle
    have hlow : n * PGSIZE < TRAMPOLINE := by
      simp only [PGSIZE] at hle ⊢
      omega
    have hpages := hmap.pages hpage (pteFlags_lt _) hlow
    have hbefore := h.pages (Nat.le_of_lt hlow)
    rw [hfree, ← Multiset.cons_coe, ← Multiset.singleton_add] at hbefore
    rw [hpages, ← hbefore]
    change (next : Multiset Nat) + _ + _ = _
    abel
  · intro x hx
    rw [hnext x fun hx' => hx (h.suffix.subset hx'), h.mem x hx]
  · exact h.tabled.succ hv hreached
  · have hcost := h.spent
    rw [hfree, List.length_cons, hspent] at hcost
    have hround := h.cost hv
    omega
  · intro hnodup
    refine Nat.forall_lt_succ_right.mpr ⟨fun i hi hvi => ?_, fun _ => ?_⟩
    · rw [hearlier i hi]
      exact fun hin => h.taken hnodup i hi hvi (htakes.suffix.subset hin)
    · rw [hpa]
      exact fun hin => hgone hnodup (hafter hin)
  · intro hnodup i j hi hj hvi hvj heq
    rcases Nat.lt_succ_iff_lt_or_eq.mp hi with hi | rfl
    · rcases Nat.lt_succ_iff_lt_or_eq.mp hj with hj | rfl
      · rw [hearlier i hi, hearlier j hj] at heq
        exact h.distinct hnodup i j hi hj hvi hvj heq
      · rw [hearlier i hi, hpa] at heq
        exact absurd (heq ▸ hr') (h.taken hnodup i hi hvi)
    · rcases Nat.lt_succ_iff_lt_or_eq.mp hj with hj | rfl
      · rw [hearlier j hj, hpa] at heq
        exact absurd (heq ▸ hr') (h.taken hnodup j hj hvj)
      · rfl
  · intro hnodup
    refine Nat.forall_lt_succ_right.mpr ⟨fun i hi hvi hsrc => ?_, fun _ hsrc => ?_⟩
    · rw [hearlier i hi, hnext _ (h.taken hnodup i hi hvi)]
      exact h.bytes hnodup i hi hvi hsrc
    · have hne : pte2pa (old.pte (n * PGSIZE)) ≠ r := fun heq => hsrc (heq ▸ hr)
      rw [hpa, hmap.mem r (hgone hnodup)]
      change update _ r _ r = _
      rw [update_self, update_of_ne hne, h.mem _ hsrc]

theorem Copied.walkFailed (h : Copied old new n k new' k') {va src : Nat} {junk' : Bytes}
    (hfree : k'.freelist = r :: next)
    (hw : Walked new' va (k'.copyTo r src next junk) new'' false k'')
    (htables : ∀ x, new''.tableAt x = new'.tableAt x) :
    Copying old new n k new''
      { k'' with freelist := r :: k''.freelist, mem := update k''.mem r junk' } := by
  have hr' : r ∈ k'.freelist := by
    rw [hfree]
    exact List.mem_cons_self
  have hr : r ∈ k.freelist := h.suffix.subset hr'
  have htakes : k.Takes k'' := h.toTakes.trans ((Kmem.copyTo_takes hfree).trans hw.toTakes)
  refine ⟨⟨htakes.kend, htakes.trampoline, fun hk => ?_⟩, hw.addr.trans h.addr, h.seen, h.fresh, ?_,
    ?_, ?_, ?_, ?_⟩
  · obtain ⟨haligned, habove, hbelow⟩ := hk.free r hr
    exact (htakes.ok hk).cons haligned (by rw [htakes.kend]; exact habove) hbelow
  · intro i hi hvi
    rw [hw.pte]
    exact h.given i hi hvi
  · intro x hx hout
    rw [hw.pte, h.rest x hx hout]
  · intro x
    rw [htables, h.table]
  · intro hle
    have hheld := hw.held
    rw [← h.pages hle, hfree, ← Multiset.cons_coe, ← Multiset.cons_coe, Multiset.cons_add,
      Multiset.cons_add, hheld]
    rfl
  · intro x hx
    have hne : x ≠ r := fun heq => hx (heq ▸ hr)
    exact (update_of_ne hne _ _).trans (htakes.mem x hx)

/-- The table of the child and memory after the error exit of round `n`. -/
structure Undone (old new : PageTable) (n : Nat) (k : Kmem) (new' : PageTable) (k' : Kmem) : Prop
    extends k.Keeps k' where
  addr : new'.addr = new.addr
  /-- The valid entries are those from before. -/
  pte : ∀ x, x < 2 ^ 39 → new'.pte x = new.pte x ∨ ¬Valid (new'.pte x) ∧ ¬Valid (new.pte x)
  pages : n * PGSIZE ≤ TRAMPOLINE → (k'.freelist : Multiset Nat) + pagesOf new' =
    (k.freelist : Multiset Nat) + pagesOf new
  mem : ∀ x ∉ k.freelist, k'.mem x = k.mem x
  seen : ∀ i, i < n → i * PGSIZE < MAXVA ∧ old.tableAt (i * PGSIZE) = true
  fresh : ∀ i, i < n → ¬Valid (new.pte (i * PGSIZE))
  table : ∀ i, i < n → CopyTable old new n (i * PGSIZE)
  leaf : ∀ i, i < n → Valid (old.pte (i * PGSIZE)) → pteFlags (old.pte (i * PGSIZE)) ≠ PTE_V

/-- An entry for a copy has the flags of the original. -/
theorem pteFlags_copy {pa : Nat} (hw : Valid w) :
    pteFlags (mkPte pa (pteFlags w)) = pteFlags w := by
  have hodd : pteFlags w % 2 = 1 := by
    rw [valid_iff] at hw
    unfold pteFlags
    rw [show (0x3FF : Nat) = 2 ^ 10 - 1 from rfl, Nat.and_two_pow_sub_one_eq_mod]
    omega
  have hset : ∀ f < 1024, f % 2 = 1 → f ||| PTE_V = f := by decide +kernel
  rw [pteFlags_mkPte (pteFlags_lt w), hset _ (pteFlags_lt w) hodd]

theorem Copying.wp_undo {Q : PageTable → Kmem → Prop} (h : Copying old new n k new' k') (hk : k.Ok)
    (hpanic : ¬(∀ i < n, CopyTable old new n (i * PGSIZE) ∧ (Valid (old.pte (i * PGSIZE)) →
      pteFlags (old.pte (i * PGSIZE)) ≠ PTE_V)) → P)
    (hok : ∀ new'' k'', Undone old new n k new'' k'' → Q new'' k'') :
    wp (uvmunmap new' 0 (n * PGSIZE / PGSIZE) true) Q (fun _ => P) k' := by
  rw [Nat.mul_div_cancel _ (by decide)]
  have hrounds : unmapRounds 0 n = n := by
    refine unmapRounds_of_lt ?_
    rcases Nat.eq_zero_or_pos n with rfl | hpos
    · decide
    · have hlast := (h.seen (n - 1) (by omega)).1
      simp only [MAXVA, PGSIZE] at hlast ⊢
      omega
  -- A page of the child is one that the parent has.
  have hcopy : ∀ i < n, Valid (new'.pte (i * PGSIZE)) → Valid (old.pte (i * PGSIZE)) := by
    intro i hi hv
    by_contra hold
    rw [h.rest _ (lt_of_lt_maxva (h.seen i hi).1) fun hin => hold hin.2] at hv
    exact h.fresh i hi hv
  apply wp_uvmunmap_exact
  · refine fun hnot => hpanic fun hcan => hnot ⟨rfl, fun i hi => ?_⟩
    rw [hrounds] at hi
    rw [Nat.zero_add]
    refine ⟨(h.seen i hi).1, (h.table _).mpr (hcan i hi).1, fun hv => ?_⟩
    obtain ⟨pa, hpa, hpte⟩ := h.given i hi (hcopy i hi hv)
    constructor
    · rw [hpte, pteFlags_copy (hcopy i hi hv)]
      exact (hcan i hi).2 (hcopy i hi hv)
    · rw [hpte, pte2pa_mkPte (hk.pageAddr hpa) (pteFlags_lt _), Kmem.Ram, h.kend]
      exact fun _ => hk.free pa hpa
  · intro new'' k'' _ hun hcan
    rw [hrounds] at hun hcan
    refine hok new'' k'' ⟨h.toKeeps.trans hun.toKeeps, hun.addr.trans h.addr, ?_, ?_, ?_, h.seen,
      h.fresh, ?_, ?_⟩
    · intro x hx
      rw [hun.pte x hx]
      by_cases hin : x < n * PGSIZE
      · have habsent : ¬Valid (new.pte x) := by
          rw [new.pte_page x]
          refine h.fresh _ ?_
          simp only [PGSIZE] at hin ⊢
          omega
        by_cases hv : Valid (new'.pte x)
        · rw [if_pos ⟨Nat.zero_le x, by rwa [Nat.zero_add], hv⟩]
          exact .inr ⟨not_valid_zero, habsent⟩
        · rw [if_neg fun hc => hv hc.2.2]
          exact .inr ⟨hv, habsent⟩
      · rw [if_neg fun hc => hin (by rw [← Nat.zero_add (n * PGSIZE)]; exact hc.2.1)]
        exact .inl (h.rest x hx fun hc => hin hc.1)
    · intro hle
      have hleaves := hun.leaves rfl fun x hx _ hlt => absurd hx (by omega)
      rw [← h.pages hle, pagesOf, pagesOf, hun.tables, add_left_comm, hleaves, add_left_comm]
    · intro x hx
      rw [hun.mem x ?_, h.mem x hx]
      intro y _ hy hv hpa
      rw [Nat.zero_add] at hy
      have hin : y / PGSIZE < n := by
        simp only [PGSIZE] at hy ⊢
        omega
      rw [new'.pte_page y] at hv hpa
      obtain ⟨pa, hmem, hpte⟩ := h.given _ hin (hcopy _ hin hv)
      rw [hpte, pte2pa_mkPte (hk.pageAddr hmem) (pteFlags_lt _)] at hpa
      exact hx (hpa ▸ hmem)
    · intro i hi
      have htable := (hun.table i hi).2
      rw [Nat.zero_add] at htable
      exact (h.table _).mp htable
    · intro i hi hv
      obtain ⟨pa, -, hpte⟩ := h.given i hi hv
      have hself := (hcan i hi).2
      rw [Nat.zero_add, hpte] at hself
      have hflags := (hself (valid_mkPte _ _)).leaf
      rwa [pteFlags_copy hv] at hflags

end rounds

theorem lt_pageRounds {j sz : Nat} : j < pageRounds 0 sz ↔ j * PGSIZE < sz := by
  unfold pageRounds
  simp only [PGSIZE]
  omega

/-- With `free` free pages `uvmcopy` does not panic in round `j`, nor when it
gives up there. -/
structure CanCopy (free : Nat) (old new : PageTable) (j : Nat) : Prop where
  max : j * PGSIZE < MAXVA
  table : old.tableAt (j * PGSIZE) = true
  /-- A page for the copy is left only if the child has no such page. -/
  absent : copyCost old new j < free → ¬Valid (new.pte (j * PGSIZE))
  /-- Where memory runs out, all pages below have page-table pages and leaf
  entries. -/
  undo : Valid (old.pte (j * PGSIZE)) → free < copyCost old new (j + 1) →
    ∀ i < j, CopyTable old new j (i * PGSIZE) ∧
      (Valid (old.pte (i * PGSIZE)) → pteFlags (old.pte (i * PGSIZE)) ≠ PTE_V)

/-- What `uvmcopy` does for a child with no page that the parent does not have,
and exactly when it panics. -/
theorem wp_uvmcopy_exact {k : Kmem} {old new : PageTable}
    {sz : Nat} (hk : k.Ok) (hnew : ∀ j, j * PGSIZE < sz → (∀ i < j, ¬Valid (new.pte (i * PGSIZE))) →
      Valid (new.pte (j * PGSIZE)) → Valid (old.pte (j * PGSIZE)))
    (hpanic : ¬(∀ j, j * PGSIZE < sz → copyCost old new j ≤ k.freelist.length →
      CanCopy k.freelist.length old new j) → P)
    (hok : ∀ new' k', Copied old new (pageRounds 0 sz) k new' k' → Q (new', 0) k')
    (hfail : ∀ j new' k', j * PGSIZE < sz → Valid (old.pte (j * PGSIZE)) →
      copyCost old new j ≤ k.freelist.length → k.freelist.length < copyCost old new (j + 1) →
      Undone old new j k new' k' → Q (new', -1) k') : wp (uvmcopy old new sz) Q (fun _ => P) k := by
  unfold uvmcopy
  rw [wp_bind]
  refine wp_loop (fun j new' k' => Copied old new j k new' k') Copied.zero ?_ ?_
  · intro j new' k' _ hj hinv
    rw [Nat.zero_add, lt_pageRounds] at hj
    have hspent := hinv.spent
    have hreach : copyCost old new j ≤ k.freelist.length := by omega
    rw [wp_bind]
    refine wp_walk_false (fun hge => hpanic fun hcan => Nat.not_lt.mpr hge (hcan j hj hreach).max)
      fun hlt => ?_
    cases hfound : old.tableAt (j * PGSIZE) with
    | false =>
      refine wp_panic.mpr (hpanic fun hcan => ?_)
      rw [(hcan j hj hreach).table] at hfound
      cases hfound
    | true =>
    simp only [Bool.not_true, Bool.false_eq_true, ↓reduceIte]
    by_cases hv : Valid (old.pte (j * PGSIZE))
    · have hcost := hinv.cost hv
      -- the error exit, from the state that either of the failures leaves
      have hundo : ∀ new'' k'', Copying old new j k new'' k'' →
          k.freelist.length < copyCost old new (j + 1) →
          wp (uvmunmap new'' 0 (j * PGSIZE / PGSIZE) true) (fun new3 k3 => Q (new3, -1) k3)
            (fun _ => P) k'' := by
        intro new'' k'' hcopying hshort
        exact hcopying.wp_undo hk
          (fun hnot => hpanic fun hcan => hnot ((hcan j hj hreach).undo hv hshort))
          fun new3 k3 hundone => hfail j new3 k3 hj hv hreach hshort hundone
      rw [if_neg (by simp [hv]), wp_bind]
      refine wp_kalloc (fun hempty => ?_) fun r next hfree => ?_
      · rw [wp_bind]
        rw [hempty, List.length_nil] at hspent
        exact wp_post (hundo _ _ hinv.toCopying (by omega))
          (fun _ _ h => wp_pure.mpr (wp_pure.mpr h))
      · have hr : k'.Ram r := (hinv.ok hk).free r (by rw [hfree]; exact List.mem_cons_self)
        have hlength : k'.freelist.length = next.length + 1 := by rw [hfree, List.length_cons]
        rw [wp_bind, wp_modify, wp_bind]
        change wp (mappages new' (j * PGSIZE) PGSIZE r (pteFlags (old.pte (j * PGSIZE)))) _ _
          (k'.copyTo r (pte2pa (old.pte (j * PGSIZE))) next fun _ => 5)
        refine wp_mappages_exact (Nat.mul_mod_left _ _) ?_ (fun hge => ?_) (fun _ hv' => ?_) ?_ ?_
        · simp only [MAXVA, PGSIZE] at hlt ⊢
          omega
        · omega
        · rw [hinv.rest _ (lt_of_lt_maxva hlt) fun hc => Nat.lt_irrefl _ hc.1] at hv'
          exact hpanic fun hcan => (hcan j hj hreach).absent (by omega) hv'
        · intro new'' k'' _ hw htables hshort
          change wp (kfree r >>= _) _ _ _
          rw [wp_bind]
          have hkend : k''.kend = k'.kend := hw.kend
          refine wp_kfree_page hr.1 (by rw [hkend]; exact hr.2.1) hr.2.2 ?_
          change next.length < _ at hshort
          rw [wp_bind]
          exact wp_post (hundo _ _ (hinv.walkFailed hfree hw htables) (by omega))
            (fun _ _ h => wp_pure.mpr (wp_pure.mpr h))
        · intro new'' k'' _ hmap hreached hspent'
          exact wp_pure.mpr (hinv.succ hk hlt hfound hv hfree hmap hreached hspent')
    · have hv' : hasFlag (old.pte (j * PGSIZE)) PTE_V = false := by simpa using hv
      simp only [hv', Bool.not_false, ↓reduceIte]
      exact wp_pure.mpr (hinv.skip hlt hfound hv fun hc =>
        hv (hnew j hj hinv.fresh hc))
  · intro new' k' h
    rw [Nat.zero_add] at h
    exact wp_pure.mpr (hok new' k' h)

/-! ## The copy for a new process -/

section fork

variable {old new : PageTable} {sz : Nat} {k : Kmem}

/-- A table with the trap frame and nothing below it. -/
structure Bare (new : PageTable) : Prop where
  frame : Valid (new.pte TRAPFRAME)
  empty : ∀ x, x < TRAPFRAME → ¬Valid (new.pte x)

theorem Bare.le (h : Bare new) (hfresh : ∀ i < n, ¬Valid (new.pte (i * PGSIZE))) :
    n * PGSIZE ≤ TRAPFRAME := by
  by_contra hlt
  refine hfresh (TRAPFRAME / PGSIZE) ?_ h.frame
  simp only [TRAPFRAME, TRAMPOLINE, MAXVA, PGSIZE] at hlt ⊢
  omega

/-- The first page that the child has is the trap frame, which the parent has
as well. -/
theorem Bare.valid (h : Bare new) (hold : Valid (old.pte TRAPFRAME)) {j : Nat}
    (hfresh : ∀ i < j, ¬Valid (new.pte (i * PGSIZE))) (hv : Valid (new.pte (j * PGSIZE))) :
    Valid (old.pte (j * PGSIZE)) := by
  have hge : TRAPFRAME ≤ j * PGSIZE := Nat.le_of_not_lt fun hlt => h.empty _ hlt hv
  rw [Nat.le_antisymm (h.le hfresh) hge]
  exact hold

theorem wp_uvmcopy_bare (hk : k.Ok) (hold : Valid (old.pte TRAPFRAME)) (hnew : Bare new)
    (hok : ∀ new' k', Copied old new (pageRounds 0 sz) k new' k' → Q (new', 0) k')
    (hfail : ∀ j new' k', Valid (old.pte (j * PGSIZE)) → copyCost old new j ≤ k.freelist.length →
      k.freelist.length < copyCost old new (j + 1) → Undone old new j k new' k' → Q (new', -1) k') :
    wp (uvmcopy old new sz) Q (fun _ => True) k :=
  wp_uvmcopy_exact hk (fun _ _ => hnew.valid hold) (fun _ => trivial) hok
    fun j new' k' _ => hfail j new' k'

/-- A copy of a table that maps the trap frame loses no page. -/
theorem wp_uvmcopy_moves (hk : k.Ok) (htramp : MapsTramp new k) (hold : Valid (old.pte TRAPFRAME))
    (hnew : Bare new) :
    wp (uvmcopy old new sz) (fun r k' => Moves new k r.1 k' ∧ SameFrame new r.1)
      (fun _ => True) k := by
  refine wp_uvmcopy_bare hk hold hnew (fun new' k' h => ?_) fun j new' k' _ _ _ h => ?_
  · have hle := hnew.le h.fresh
    refine ⟨⟨h.toKeeps, h.addr, h.rest _ (by decide) fun hc => ?_, h.pages ?_⟩,
      h.rest _ (by decide) fun hc => absurd hc.1 (Nat.not_lt.mpr hle)⟩
    · exact absurd (Nat.lt_of_lt_of_le hc.1 hle) (by decide)
    · exact Nat.le_trans hle (by decide)
  · have hsame : ∀ x, x < 2 ^ 39 → Valid (new.pte x) → new'.pte x = new.pte x := fun x hx hv =>
      (h.pte x hx).resolve_right fun hc => hc.2 hv
    exact ⟨⟨h.toKeeps, h.addr, hsame _ (by decide) htramp.valid,
      h.pages (Nat.le_trans (hnew.le h.fresh) (by decide))⟩, hsame _ (by decide) hnew.frame⟩

/-- A table with the trap frame, and with the page at address 0 if `low`. -/
def frameTable (low : Bool) : PageTable :=
  ⟨0x80050000, fun i =>
    if i = 255 then some ⟨0x80051000, fun j =>
      if j = 511 then some ⟨0x80052000, fun t => if t = 510 then mkPte 0x80055000 PTE_R else 0⟩
      else none⟩
    else if low ∧ i = 0 then some ⟨0x80053000, fun j =>
      if j = 0 then some ⟨0x80054000, fun t => if t = 0 then mkPte 0x80056000 heapPerm else 0⟩
      else none⟩
    else none⟩

theorem bare_frameTable : Bare (frameTable false) := by
  refine ⟨by decide +kernel, fun x hx => ?_⟩
  have hpte : (frameTable false).pte x = if px 2 x = 255 ∧ px 1 x = 511 ∧ px 0 x = 510 then
      mkPte 0x80055000 PTE_R else 0 := by
    unfold PageTable.pte PageTable.leafPage frameTable
    by_cases h2 : px 2 x = 255
    · by_cases h1 : px 1 x = 511
      · simp [h2, h1]
      · simp [h2, h1]
    · simp [h2]
  rw [hpte, if_neg]
  · exact not_valid_zero
  · simp only [px, TRAPFRAME, TRAMPOLINE, MAXVA, PGSIZE] at hx ⊢
    omega

/-- A memory with three free pages. -/
def threeFree : Kmem :=
  ⟨0x80030000, 0x80007000, [0x80040000, 0x80041000, 0x80042000], fun _ _ => 7⟩

theorem ok_threeFree : threeFree.Ok := ⟨by decide, ⟨by decide, by decide⟩, by decide⟩

end fork

end Xv6.Vm
