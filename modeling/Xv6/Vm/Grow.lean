import Xv6.Vm.Unmap

/-!
# What `uvmdealloc` and `uvmalloc` do

`uvmalloc` maps one new page after the other; `Grown` says what has become of
the table and of memory after any number of rounds. When the memory runs out
it takes back what it mapped, so that the table has the same valid entries as
before. The loop itself is in `Xv6.Vm.Fill`.
-/

namespace Xv6.Vm

open Xv6.Lib Xv6.Lib.CInt
open Act

variable {Q : PageTable × Nat → Kmem → Prop} {P : Prop} {k k'' k' : Kmem}
  {pt pt'' pt' : PageTable} {first n : Nat}

/-! ## `uvmdealloc` -/

/-- The pages that `uvmdealloc` removes. -/
def deallocRounds (oldsz newsz : Nat) : Nat := (pgRoundUp oldsz - pgRoundUp newsz) / PGSIZE

theorem add_deallocRounds {oldsz newsz : Nat} (h : pgRoundUp newsz ≤ pgRoundUp oldsz) :
    pgRoundUp newsz + deallocRounds oldsz newsz * PGSIZE = pgRoundUp oldsz := by
  have h1 := pgRoundUp_aligned oldsz
  have h2 := pgRoundUp_aligned newsz
  unfold deallocRounds
  simp only [PGSIZE] at h1 h2 ⊢
  omega

/-- What `uvmdealloc` does, and exactly when it panics. -/
theorem wp_uvmdealloc_exact {oldsz newsz : Nat} (hold : newsz < oldsz → oldsz ≤ MAXVA)
    (hpanic : ¬(∀ i < deallocRounds oldsz newsz,
      CanUnmap k pt true (pgRoundUp newsz + i * PGSIZE)) → P)
    (hsame : oldsz ≤ newsz → Q (pt, oldsz) k) (hok : ∀ pt' k', newsz < oldsz →
      Unmapped pt (pgRoundUp newsz) (deallocRounds oldsz newsz) true k pt' k' →
      (∀ i < deallocRounds oldsz newsz,
        CanUnmap k pt true (pgRoundUp newsz + i * PGSIZE)) → Q (pt', newsz) k') :
    wp (uvmdealloc pt oldsz newsz) Q (fun _ => P) k := by
  unfold uvmdealloc
  refine wp_ite (fun h => wp_pure.mpr (hsame h)) ?_
  intro hlt
  have hnew : newsz < oldsz := by omega
  have hroundOld : pgRoundUp oldsz ≤ MAXVA := pgRoundUp_le (by decide) (hold hnew) (by decide)
  apply wp_ite
  · intro hpages
    have hsum := add_deallocRounds (Nat.le_of_lt hpages)
    have hcount : uint64 (int32 (deallocRounds oldsz newsz : Nat)) = deallocRounds oldsz newsz := by
      simp only [MAXVA, PGSIZE] at hroundOld hsum
      rw [int32_of_bounds (by omega) (by omega), uint64_of_lt (by omega)]
    have hrounds : unmapRounds (pgRoundUp newsz) (deallocRounds oldsz newsz)
        = deallocRounds oldsz newsz := by
      apply unmapRounds_of_lt
      rw [hsum]
      exact Nat.lt_of_le_of_lt hroundOld (by decide)
    rw [wp_bind]
    unfold deallocRounds at hcount
    rw [hcount]
    change wp (uvmunmap pt (pgRoundUp newsz) (deallocRounds oldsz newsz) true) _ _ k
    refine wp_uvmunmap_exact (fun hnot => hpanic fun hcan => hnot ?_) fun pt' k' _ hun hcan => ?_
    · refine ⟨pgRoundUp_aligned newsz, fun i hi => ?_⟩
      rw [hrounds] at hi
      have hmul := Nat.mul_lt_mul_of_pos_right hi (show 0 < PGSIZE by decide)
      exact ⟨by omega, hcan i hi⟩
    · rw [hrounds] at hun hcan
      exact wp_pure.mpr (hok pt' k' hnew hun hcan)
  · intro hpages
    have hzero : deallocRounds oldsz newsz = 0 := by
      unfold deallocRounds
      rw [Nat.sub_eq_zero_of_le (Nat.le_of_not_lt hpages), Nat.zero_div]
    rw [wp_pure]
    apply hok _ _ hnew
    · rw [hzero]
      exact Unmapped.zero
    · intro i hi
      rw [hzero] at hi
      exact absurd hi (Nat.not_lt_zero i)

/-! ## `uvmalloc` -/

/-- The permissions of a page of the heap or stack. -/
abbrev heapPerm : Nat := PTE_W ||| PTE_X ||| PTE_R ||| PTE_U

/-- The page table and memory after `n` rounds of `uvmalloc` from `first`
on. -/
structure Grown (pt : PageTable) (first n : Nat) (k : Kmem) (pt' : PageTable)
    (k' : Kmem) : Prop extends k.Keeps k' where
  addr : pt'.addr = pt.addr
  /-- No page of the range was mapped before. -/
  fresh : ∀ i, i < n → first + i * PGSIZE < MAXVA ∧ ¬Valid (pt.pte (first + i * PGSIZE))
  /-- The entries of the range map new pages. -/
  pte : ∀ x, x < 2 ^ 39 → first ≤ x → x < first + n * PGSIZE →
    ∃ pa, PageAddr pa ∧ pt'.pte x = mkPte pa heapPerm
  /-- No other entry changes. -/
  rest : ∀ x, x < 2 ^ 39 → ¬(first ≤ x ∧ x < first + n * PGSIZE) →
    pt'.pte x = pt.pte x
  table : ∀ i, i < n → pt'.tableAt (first + i * PGSIZE) = true
  tableAt : ∀ x, pt.tableAt x = true → pt'.tableAt x = true
  pages : first + n * PGSIZE ≤ TRAMPOLINE →
    (k'.freelist : Multiset Nat) + pagesOf pt' =
      (k.freelist : Multiset Nat) + pagesOf pt

theorem Grown.zero : Grown pt first 0 k pt k where
  toKeeps := .refl k
  addr := rfl
  fresh := nofun
  pte := fun x _ hle hlt => by omega
  rest := fun _ _ _ => rfl
  table := nofun
  tableAt := fun _ h => h
  pages := fun _ => rfl

section step

theorem Grown.succ (h : Grown pt first n k pt' k')
    (hk : k.Ok) (haligned : first % PGSIZE = 0) {r : Nat} {next : List Nat}
    {mem : Nat → Bytes} (hfree : k'.freelist = r :: next) (hmem : ∀ x ≠ r, mem x = k'.mem x)
    (hlt : first + n * PGSIZE < MAXVA) (hmap : Mapped pt' (first + n * PGSIZE) (mkPte r heapPerm)
      { k' with freelist := next, mem := mem } pt'' k'') : Grown pt first (n + 1) k pt'' k'' := by
  have hr : PageAddr r := (h.ok hk).pageAddr (by rw [hfree]; exact List.mem_cons_self)
  have hpte : ∀ x, x < 2 ^ 39 → x / PGSIZE ≠ (first + n * PGSIZE) / PGSIZE →
      pt''.pte x = pt'.pte x := by
    intro x hx hne
    rw [hmap.pte x hx, if_neg hne]
  have hnext : ¬(first ≤ first + n * PGSIZE ∧ first + n * PGSIZE < first + n * PGSIZE) := by omega
  refine ⟨?_, hmap.addr.trans h.addr, ?_, ?_, ?_, ?_, fun x hx => hmap.tableAt x (h.tableAt x hx), ?_⟩
  · exact h.toKeeps.trans ((Kmem.takes_cons hfree hmem).toKeeps.trans hmap.toKeeps)
  · refine Nat.forall_lt_succ_right.mpr ⟨h.fresh, hlt, ?_⟩
    rw [← h.rest _ (by simp only [MAXVA] at hlt; omega) hnext]
    exact hmap.fresh
  · intro x hx hle hlt'
    by_cases hpage : x / PGSIZE = (first + n * PGSIZE) / PGSIZE
    · refine ⟨r, hr, ?_⟩
      rw [hmap.pte x hx, if_pos hpage]
    · have hin := (range_succ haligned).mp ⟨hle, hlt'⟩
      rw [or_iff_left hpage] at hin
      rw [hpte x hx hpage]
      exact h.pte x hx hle hin.2
  · intro x hx hout
    have hout' : ¬(first ≤ x ∧ x < first + n * PGSIZE) ∧
        x / PGSIZE ≠ (first + n * PGSIZE) / PGSIZE := by
      rw [range_succ haligned, not_or] at hout
      exact hout
    rw [hpte x hx hout'.2, h.rest x hx hout'.1]
  · exact Nat.forall_lt_succ_right.mpr ⟨fun i hi => hmap.tableAt _ (h.table i hi), hmap.table⟩
  · intro hle
    have hlow : first + n * PGSIZE < TRAMPOLINE := range_lt_of_succ_le hle
    rw [hmap.pages hr (by decide) hlow, ← h.pages (Nat.le_of_lt hlow), hfree, ← Multiset.cons_coe,
      ← Multiset.singleton_add]
    abel

theorem Grown.next_le (h : Grown pt first n k pt' k') (hfirst : first + PGSIZE ≤ 2 ^ 64) :
    first + n * PGSIZE + PGSIZE ≤ 2 ^ 64 := by
  rcases Nat.eq_zero_or_pos n with rfl | hn
  · omega
  · have hlast := (h.fresh (n - 1) (by omega)).1
    simp only [MAXVA, PGSIZE] at hlast ⊢
    omega

/-- A table that maps the trampoline only grows below it. -/
theorem Grown.below (h : Grown pt first n k pt' k') (haligned : first % PGSIZE = 0)
    (htramp : Valid (pt.pte TRAMPOLINE)) (hfirst : first ≤ TRAMPOLINE) :
    first + n * PGSIZE ≤ TRAMPOLINE := by
  by_contra hlt
  obtain ⟨i, hi⟩ : ∃ i, TRAMPOLINE = first + i * PGSIZE := by
    refine ⟨(TRAMPOLINE - first) / PGSIZE, ?_⟩
    simp only [TRAMPOLINE, MAXVA, PGSIZE] at haligned hfirst ⊢
    omega
  have hin : i < n := by
    rw [hi] at hlt
    exact Nat.lt_of_mul_lt_mul_right (a := PGSIZE) (by omega)
  have hfresh := (h.fresh i hin).2
  rw [← hi] at hfresh
  exact hfresh htramp

end step

/-- The page table and memory after an allocation of user memory that was
taken back. -/
structure Restored (pt : PageTable) (first : Nat) (k : Kmem) (pt' : PageTable)
    (k' : Kmem) : Prop extends k.Keeps k' where
  addr : pt'.addr = pt.addr
  /-- The valid entries are as before. -/
  pte : ∀ x, x < 2 ^ 39 → pt'.pte x = pt.pte x ∨
    ¬Valid (pt'.pte x) ∧ ¬Valid (pt.pte x)
  tableAt : ∀ x, pt.tableAt x = true → pt'.tableAt x = true
  pages : Valid (pt.pte TRAMPOLINE) → first ≤ TRAMPOLINE →
    (k'.freelist : Multiset Nat) + pagesOf pt' =
      (k.freelist : Multiset Nat) + pagesOf pt

/-- The pages that were taken are back. -/
theorem Grown.held (h : Grown pt first n k pt' k')
    (hun : Unmapped pt' first n true k' pt'' k'') (hbelow : first + n * PGSIZE ≤ TRAMPOLINE) :
    (k''.freelist : Multiset Nat) + pagesOf pt'' = (k.freelist : Multiset Nat) + pagesOf pt := by
  have hgrown := h.pages hbelow
  have hleaves := hun.leaves rfl fun x hx _ hlt => by omega
  unfold pagesOf at hgrown ⊢
  rw [← hgrown, hun.tables, add_left_comm, hleaves]
  abel

/-- Taking back all the rounds of `uvmalloc`. -/
theorem Grown.restored (h : Grown pt first n k pt' k') (haligned : first % PGSIZE = 0)
    (hun : Unmapped pt' first n true k' pt'' k'') : Restored pt first k pt'' k'' where
  toKeeps := h.toKeeps.trans hun.toKeeps
  addr := hun.addr.trans h.addr
  pte := fun x hx => by
    rw [hun.pte x hx]
    by_cases hin : first ≤ x ∧ x < first + n * PGSIZE
    · right
      obtain ⟨pa, _, hpa⟩ := h.pte x hx hin.1 hin.2
      have hv : Valid (pt'.pte x) := by
        rw [hpa]
        exact valid_mkPte _ _
      rw [if_pos ⟨hin.1, hin.2, hv⟩]
      refine ⟨not_valid_zero, ?_⟩
      have hpage : x / PGSIZE = (first + (x - first) / PGSIZE * PGSIZE) / PGSIZE := by
        have hle := hin.1
        simp only [PGSIZE] at haligned ⊢
        omega
      rw [PageTable.pte_eq_of_page hpage]
      refine (h.fresh _ ?_).2
      have hlt := hin.2
      have hle := hin.1
      simp only [PGSIZE] at hlt ⊢
      omega
    · left
      rw [if_neg (fun hc => hin ⟨hc.1, hc.2.1⟩), h.rest x hx hin]
  tableAt := fun x hx => by rw [hun.tableAt, h.tableAt x hx]
  pages := fun htramp hfirst => h.held hun (h.below haligned htramp hfirst)

/-- A page that could not be mapped goes back to the free list. -/
theorem Grown.walkFailed {va : Nat} (h : Grown pt first n k pt' k') {r : Nat} {next : List Nat}
    {mem mem' : Nat → Bytes} (hfree : k'.freelist = r :: next) (hmem : ∀ x ≠ r, mem x = k'.mem x)
    (hw : Walked pt' va { k' with freelist := next, mem := mem } pt'' false k'') :
    Grown pt first n k pt'' { k'' with freelist := r :: k''.freelist, mem := mem' } where
  kend := hw.kend.trans h.kend
  trampoline := hw.trampoline.trans h.trampoline
  ok := fun hk => by
    have hk' := h.ok hk
    have hr := hk'.free r (by rw [hfree]; exact List.mem_cons_self)
    have hkend : k''.kend = k'.kend := hw.kend
    exact (hw.ok ((Kmem.takes_cons hfree hmem).ok hk')).cons hr.1 (by rw [hkend]; exact hr.2.1) hr.2.2
  addr := hw.addr.trans h.addr
  fresh := h.fresh
  pte := fun x hx hle hlt => by
    rw [hw.pte]
    exact h.pte x hx hle hlt
  rest := fun x hx hout => by rw [hw.pte, h.rest x hx hout]
  table := fun i hi => hw.tableAt (h.table i hi)
  tableAt := fun x hx => hw.tableAt (h.tableAt x hx)
  pages := fun hle => by
    rw [← h.pages hle, hfree, ← Multiset.cons_coe, ← Multiset.cons_coe, Multiset.cons_add,
      Multiset.cons_add, hw.held]

theorem pteFlags_heap (pa : Nat) : pteFlags (mkPte pa heapPerm) ≠ PTE_V := by
  rw [pteFlags_mkPte (by decide)]
  decide

/-- `uvmdealloc` takes back what `uvmalloc` added. -/
theorem Grown.wp_uvmdealloc_exact {oldsz newsz : Nat}
    (h : Grown pt (pgRoundUp newsz) (deallocRounds oldsz newsz) k pt' k')
    (hold : newsz < oldsz → oldsz ≤ MAXVA)
    (hle : newsz ≤ oldsz) (hram : ∀ i < deallocRounds oldsz newsz,
      k'.Ram (pte2pa (pt'.pte (pgRoundUp newsz + i * PGSIZE)))) (hok : ∀ pt'' k'',
      Unmapped pt' (pgRoundUp newsz) (deallocRounds oldsz newsz) true k' pt'' k'' →
        Q (pt'', newsz) k'') : wp (uvmdealloc pt' oldsz newsz) Q (fun _ => P) k' := by
  refine Vm.wp_uvmdealloc_exact hold (fun hnot => absurd (fun i hi => ?_) hnot) ?_ ?_
  · have hlt := (h.fresh i hi).1
    obtain ⟨pa, hpa, hpte⟩ := h.pte (pgRoundUp newsz + i * PGSIZE)
      (by simp only [MAXVA] at hlt; omega) (Nat.le_add_right _ _)
      (Nat.add_lt_add_left (Nat.mul_lt_mul_of_pos_right hi (by decide)) _)
    refine ⟨h.table i hi, fun _ => ⟨?_, fun _ => hram i hi⟩⟩
    rw [hpte]
    exact pteFlags_heap _
  · intro hge
    obtain rfl : newsz = oldsz := Nat.le_antisymm hle hge
    refine hok _ _ ?_
    rw [deallocRounds, Nat.sub_self, Nat.zero_div]
    exact Unmapped.zero
  · exact fun pt'' k'' _ hun _ => hok _ _ hun

end Xv6.Vm
