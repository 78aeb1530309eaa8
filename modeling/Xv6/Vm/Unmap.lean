import Xv6.Vm.Walk

/-!
# What `uvmunmap` and `uvmdealloc` do

`uvmunmap` goes through the pages of a range one by one; `Unmapped` says what
has become of the table and of memory after any number of rounds, and the
rule `wp_uvmunmap` lists under which circumstances each of its panics is
reached.
-/

namespace Xv6.Vm

open Xv6.Lib Xv6.Lib.CInt
open Act

/-- The rounds of `uvmunmap`. -/
def unmapRounds (va npages : Nat) : Nat := pageRounds va (uint64 (va + npages * PGSIZE))

/-- Without wrap, `uvmunmap` makes one round for each page. -/
theorem unmapRounds_of_lt {va npages : Nat} (h : va + npages * PGSIZE < 2 ^ 64) :
    unmapRounds va npages = npages := by
  have hend : uint64 ((va : Int) + (npages : Int) * (PGSIZE : Nat)) = va + npages * PGSIZE := by
    unfold uint64
    simp only [PGSIZE] at h ⊢
    omega
  unfold unmapRounds pageRounds
  rw [hend]
  simp only [PGSIZE]
  omega

/-- The page table and memory after `n` rounds of `uvmunmap` from `va` on. -/
structure Unmapped (pt : PageTable) (va n : Nat) (doFree : Bool) (k : Kmem)
    (pt' : PageTable) (k' : Kmem) : Prop extends k.Keeps k' where
  addr : pt'.addr = pt.addr
  /-- Every page of the range has a page-table page. -/
  table : ∀ i, i < n → va + i * PGSIZE < MAXVA ∧ pt.tableAt (va + i * PGSIZE) = true
  tableAt : ∀ x, pt'.tableAt x = pt.tableAt x
  /-- The valid entries of the range are cleared, and no other. -/
  pte : ∀ x, x < 2 ^ 39 → pt'.pte x =
    if va ≤ x ∧ x < va + n * PGSIZE ∧ Valid (pt.pte x) then 0 else pt.pte x
  tables : tablePages pt' = tablePages pt
  /-- The pages of the range go to the free list. -/
  leaves : doFree = true →
    (∀ x, TRAMPOLINE ≤ x → va ≤ x → x < va + n * PGSIZE → ¬Valid (pt.pte x)) →
    (k'.freelist : Multiset Nat) + leafPages pt' =
      (k.freelist : Multiset Nat) + leafPages pt
  /-- The pages of the range are freed, and none of them is a page of the
  kernel. -/
  freed : doFree = true → ∀ x, va ≤ x → x < va + n * PGSIZE → Valid (pt.pte x) →
    k.kend ≤ pte2pa (pt.pte x) ∧ pte2pa (pt.pte x) ∈ k'.freelist
  keep : doFree = false → k' = k
  high : TRAMPOLINE ≤ va → leafPages pt' = leafPages pt
  /-- Only the pages of the range have new contents. -/
  mem : ∀ pa, (∀ x, va ≤ x → x < va + n * PGSIZE → Valid (pt.pte x) →
    pte2pa (pt.pte x) ≠ pa) → k'.mem pa = k.mem pa

section step

variable {pt pt' : PageTable} {va n : Nat} {doFree : Bool} {k k' : Kmem}

theorem Unmapped.zero : Unmapped pt va 0 doFree k pt k where
  toKeeps := .refl k
  addr := rfl
  table := nofun
  tableAt := fun _ => rfl
  pte := fun x _ => by rw [if_neg (by omega)]
  tables := rfl
  leaves := fun _ _ => rfl
  freed := fun _ x hle hlt => by omega
  keep := fun _ => rfl
  high := fun _ => rfl
  mem := fun _ _ => rfl

theorem Unmapped.pte_next (h : Unmapped pt va n doFree k pt' k') (hlt : va + n * PGSIZE < MAXVA) :
    pt'.pte (va + n * PGSIZE) = pt.pte (va + n * PGSIZE) := by
  rw [h.pte _ (by simp only [MAXVA] at hlt; omega), if_neg (by omega)]

/-- An address of the range after one more round lies in the range before it
or on the page of the round. -/
theorem range_succ {x : Nat} (haligned : va % PGSIZE = 0) :
    va ≤ x ∧ x < va + (n + 1) * PGSIZE ↔
      (va ≤ x ∧ x < va + n * PGSIZE) ∨ x / PGSIZE = (va + n * PGSIZE) / PGSIZE := by
  simp only [PGSIZE] at haligned ⊢
  omega

theorem range_lt_succ : va + n * PGSIZE < va + (n + 1) * PGSIZE :=
  Nat.add_lt_add_left (Nat.mul_lt_mul_of_pos_right (Nat.lt_succ_self n) (by decide)) va

theorem lt_range_succ {x : Nat} (h : x < va + n * PGSIZE) : x < va + (n + 1) * PGSIZE :=
  Nat.lt_trans h range_lt_succ

theorem range_lt_of_succ_le {b : Nat} (h : va + (n + 1) * PGSIZE ≤ b) : va + n * PGSIZE < b :=
  Nat.lt_of_lt_of_le range_lt_succ h

theorem Unmapped.skip (h : Unmapped pt va n doFree k pt' k') (haligned : va % PGSIZE = 0)
    (hlt : va + n * PGSIZE < MAXVA) (htable : pt.tableAt (va + n * PGSIZE) = true)
    (hv : ¬Valid (pt.pte (va + n * PGSIZE))) : Unmapped pt va (n + 1) doFree k pt' k' where
  toKeeps := h.toKeeps
  addr := h.addr
  table := Nat.forall_lt_succ_right.mpr ⟨h.table, hlt, htable⟩
  tableAt := h.tableAt
  pte := fun x hx => by
    rw [h.pte x hx]
    by_cases hpage : x / PGSIZE = (va + n * PGSIZE) / PGSIZE
    · have hx' : ¬Valid (pt.pte x) := by rwa [PageTable.pte_eq_of_page hpage]
      rw [if_neg (fun hc => hx' hc.2.2), if_neg (fun hc => hx' hc.2.2)]
    · have hiff := range_succ (n := n) (x := x) haligned
      simp only [hpage, or_false] at hiff
      simp only [← and_assoc, hiff]
  tables := h.tables
  leaves := fun hf hhigh => h.leaves hf fun x hx hle hlt' => hhigh x hx hle (lt_range_succ hlt')
  freed := fun hf x hle hlt' hx => by
    rcases (range_succ haligned).mp ⟨hle, hlt'⟩ with hin | hpage
    · exact h.freed hf x hin.1 hin.2 hx
    · rw [PageTable.pte_eq_of_page hpage] at hx
      exact absurd hx hv
  keep := h.keep
  high := h.high
  mem := fun pa hpa => h.mem pa fun x hle hlt' => hpa x hle (lt_range_succ hlt')

/-- A round that removes a page. -/
theorem Unmapped.clear (h : Unmapped pt va n doFree k pt' k') (haligned : va % PGSIZE = 0)
    (hlt : va + n * PGSIZE < MAXVA) (htable : pt.tableAt (va + n * PGSIZE) = true)
    (hv : Valid (pt.pte (va + n * PGSIZE))) {k'' : Kmem}
    (hkeeps : k'.Keeps k'') (hfree : doFree = true → k'.kend ≤ pte2pa (pt.pte (va + n * PGSIZE)) ∧
      k''.freelist = pte2pa (pt.pte (va + n * PGSIZE)) :: k'.freelist)
    (hkeep : doFree = false → k'' = k')
    (hmem : ∀ pa, pte2pa (pt.pte (va + n * PGSIZE)) ≠ pa → k''.mem pa = k'.mem pa) :
    Unmapped pt va (n + 1) doFree k (pt'.setPte (va + n * PGSIZE) 0) k'' := by
  have htable' : pt'.tableAt (va + n * PGSIZE) = true := by rw [h.tableAt, htable]
  have hlt39 : va + n * PGSIZE < 2 ^ 39 := by
    simp only [MAXVA] at hlt
    omega
  have hpte := h.pte_next hlt
  refine ⟨h.toKeeps.trans hkeeps, ?_, Nat.forall_lt_succ_right.mpr ⟨h.table, hlt, htable⟩, ?_, ?_, ?_, ?_, ?_, ?_, ?_, ?_⟩
  · rw [PageTable.setPte_addr, h.addr]
  · intro x
    rw [PageTable.tableAt_setPte, h.tableAt]
  · intro x hx
    rw [PageTable.pte_setPte htable' hlt39 hx, h.pte x hx]
    by_cases hpage : x / PGSIZE = (va + n * PGSIZE) / PGSIZE
    · have hin := (range_succ haligned).mpr (Or.inr hpage)
      have hx' : Valid (pt.pte x) := by rwa [PageTable.pte_eq_of_page hpage]
      rw [if_pos hpage, if_pos ⟨hin.1, hin.2, hx'⟩]
    · have hiff := range_succ (n := n) (x := x) haligned
      simp only [hpage, or_false] at hiff
      rw [if_neg hpage]
      simp only [← and_assoc, hiff]
  · rw [tablePages_setPte, h.tables]
  · intro hf hhigh
    have hlow : va + n * PGSIZE < TRAMPOLINE := by
      by_contra hge
      exact hhigh _ (Nat.le_of_not_lt hge) (Nat.le_add_right _ _) range_lt_succ hv
    have hset := leafPages_setPte (w := 0) htable' hlow
    rw [hpte, leafPart_of_valid hv, leafPart_of_not_valid not_valid_zero, add_zero] at hset
    have hbefore := h.leaves hf fun x hx hle hlt' => hhigh x hx hle (lt_range_succ hlt')
    rw [(hfree hf).2, ← Multiset.cons_coe, ← Multiset.singleton_add, ← hbefore, ← hset]
    abel
  · intro hf x hle hlt' hx
    rcases (range_succ haligned).mp ⟨hle, hlt'⟩ with hin | hpage
    · obtain ⟨hkend, hmem'⟩ := h.freed hf x hin.1 hin.2 hx
      rw [(hfree hf).2]
      exact ⟨hkend, List.mem_cons_of_mem _ hmem'⟩
    · rw [PageTable.pte_eq_of_page hpage, (hfree hf).2, ← h.kend]
      exact ⟨(hfree hf).1, List.mem_cons_self⟩
  · intro hf
    rw [hkeep hf, h.keep hf]
  · intro hhigh
    rw [leafPages_setPte_high htable' (Nat.le_trans hhigh (Nat.le_add_right _ _)) hlt, h.high hhigh]
  · intro pa hpa
    rw [hmem pa ?_, h.mem pa ?_]
    · intro x hle hlt'
      exact hpa x hle (lt_range_succ hlt')
    · exact hpa _ (Nat.le_add_right _ _) (range_lt_of_succ_le (Nat.le_refl _)) hv

theorem Unmapped.lt_maxva (h : Unmapped pt va n doFree k pt' k') (haligned : va % PGSIZE = 0)
    {x : Nat} (hle : va ≤ x) (hx : x < va + n * PGSIZE) : x < MAXVA := by
  rcases Nat.eq_zero_or_pos n with rfl | hn
  · omega
  · have hlast := (h.table (n - 1) (by omega)).1
    simp only [MAXVA, PGSIZE] at hlast hx haligned ⊢
    omega

end step

/-- The entry is a leaf, of a page that `kfree` takes if it is to be freed. -/
structure Removable (k : Kmem) (doFree : Bool) (w : Nat) : Prop where
  leaf : pteFlags w ≠ PTE_V
  ram : doFree = true → k.Ram (pte2pa w)

/-- `uvmunmap` does not panic over the page at `va`. -/
def CanUnmap (k : Kmem) (pt : PageTable) (doFree : Bool) (va : Nat) : Prop :=
  pt.tableAt va = true ∧ (Valid (pt.pte va) → Removable k doFree (pt.pte va))

/-- What `uvmunmap` does, and exactly when it panics. -/
theorem wp_uvmunmap_exact {Q : PageTable → Kmem → Prop}
    {P : Prop} {k : Kmem} {pt : PageTable} {va npages : Nat} {doFree : Bool}
    (hpanic : ¬(va % PGSIZE = 0 ∧ ∀ i < unmapRounds va npages, va + i * PGSIZE < MAXVA ∧
      CanUnmap k pt doFree (va + i * PGSIZE)) → P) (hok : ∀ pt' k', va % PGSIZE = 0 →
      Unmapped pt va (unmapRounds va npages) doFree k pt' k' →
      (∀ i < unmapRounds va npages, CanUnmap k pt doFree (va + i * PGSIZE)) →
      Q pt' k') : wp (uvmunmap pt va npages doFree) Q (fun _ => P) k := by
  unfold uvmunmap
  refine wp_ite (fun h => wp_panic.mpr (hpanic fun hcan => h hcan.1)) ?_
  intro hal
  have hva : va % PGSIZE = 0 := by omega
  refine wp_post (wp_iter (fun i pt' k' => Unmapped pt va i doFree k pt' k' ∧
      ∀ j < i, CanUnmap k pt doFree (va + j * PGSIZE))
    ⟨Unmapped.zero, nofun⟩ ?_)
    (fun pt' k' h => hok pt' k' hva ?_ ?_)
  · intro i pt' k' _ hi hinv'
    obtain ⟨hinv, hdone⟩ := hinv'
    rw [Nat.zero_add] at hi
    rw [wp_bind]
    refine wp_walk_false (fun hge => hpanic fun hcan => ?_) ?_
    · exact Nat.not_lt.mpr hge (hcan.2 i hi).1
    intro hlt
    simp only [hinv.tableAt, hinv.pte_next hlt]
    cases hfound : pt.tableAt (va + i * PGSIZE) with
    | false =>
      refine wp_panic.mpr (hpanic fun hcan => ?_)
      rw [(hcan.2 i hi).2.1] at hfound
      cases hfound
    | true =>
      simp only [Bool.not_true, Bool.false_eq_true, ↓reduceIte]
      by_cases hv : Valid (pt.pte (va + i * PGSIZE))
      · simp only [hv, Bool.not_true, Bool.false_eq_true, ↓reduceIte]
        refine wp_ite (fun h => wp_panic.mpr (hpanic fun hcan => ((hcan.2 i hi).2.2 hv).leaf h)) ?_
        intro hflags
        have hnext : (doFree = true → k.Ram (pte2pa (pt.pte (va + i * PGSIZE)))) →
            ∀ j < i + 1, CanUnmap k pt doFree (va + j * PGSIZE) :=
          fun hram => Nat.forall_lt_succ_right.mpr ⟨hdone, hfound, fun _ => ⟨hflags, hram⟩⟩
        rw [wp_bind]
        cases doFree with
        | true =>
          apply wp_when
          · intro _
            have hsame : ∀ pa, k'.Ram pa ↔ k.Ram pa := by
              intro pa
              unfold Kmem.Ram
              rw [hinv.kend]
            refine wp_kfree_exact (fun hram => hpanic fun hcan => ?_) ?_
            · exact hram ((hsame _).mpr (((hcan.2 i hi).2.2 hv).ram rfl))
            intro hram
            rw [wp_pure]
            refine ⟨hinv.clear hva hlt hfound hv
              ⟨rfl, rfl, fun hk => hk.cons hram.1 hram.2.1 hram.2.2⟩
              (fun _ => ⟨hram.2.1, rfl⟩) (fun hf => absurd hf (by decide)) ?_,
              hnext fun _ => (hsame _).mp hram⟩
            intro pa hne
            exact Function.update_of_ne hne.symm _ _
          · intro hf
            exact absurd rfl hf
        | false =>
          apply wp_when
          · intro hf
            exact absurd hf (by decide)
          · intro _
            rw [wp_pure]
            exact ⟨hinv.clear hva hlt hfound hv (.refl _) (fun hf => absurd hf (by decide))
              (fun _ => rfl) (fun _ _ => rfl), hnext fun hf => absurd hf (by decide)⟩
      · have hv' : hasFlag (pt.pte (va + i * PGSIZE)) PTE_V = false := by simpa using hv
        simp only [hv', Bool.not_false, ↓reduceIte]
        exact wp_pure.mpr ⟨hinv.skip hva hlt hfound hv,
          Nat.forall_lt_succ_right.mpr ⟨hdone, hfound, fun hv' => absurd hv' hv⟩⟩
  · rw [Nat.zero_add] at h
    exact h.1
  · rw [Nat.zero_add] at h
    exact h.2

theorem wp_uvmunmap {Q : PageTable → Kmem → Prop} {k : Kmem} {pt : PageTable}
    {va npages : Nat} {doFree : Bool} (hok : ∀ pt' k', va % PGSIZE = 0 →
      Unmapped pt va (unmapRounds va npages) doFree k pt' k' → Q pt' k') :
    wp (uvmunmap pt va npages doFree) Q (fun _ => True) k :=
  wp_uvmunmap_exact (fun _ => trivial) fun pt' k' hva hun _ => hok pt' k' hva hun

end Xv6.Vm
