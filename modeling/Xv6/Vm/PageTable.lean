import Mathlib.Logic.Function.Basic
import Mathlib.Data.Nat.Bitwise
import Xv6.Lib.CInt
import Xv6.Params

/-!
# Page tables

The three-level page table of Sv39, as `kernel/riscv.h` and `kernel/vm.c`
lay it out: a page of the two upper levels holds 512 pointers to pages of the
level below, a page of the lowest level 512 page-table entries. A page-table
page is a value that carries the physical address of its page, so a table is
a tree by construction.

`PageTable.pte` and `PageTable.setPte` are the reads and writes through the
pointer that `walk` returns, and `PageTable.tableAt` says that there is such a
pointer. The lemmas here say how the three depend on each other, in terms of
pages: a virtual address below `2 ^ 39` is given by its three indices and its
offset, so two addresses share an entry exactly when they share a page.
-/

namespace Xv6.Vm

open Xv6.Lib.CInt Function

variable {sz va va' : Nat}

/-! ## `kernel/riscv.h` -/

/-- `PGROUNDUP`, on a 64-bit size. -/
def pgRoundUp (sz : Nat) : Nat := uint64 (sz + PGSIZE - 1) / PGSIZE * PGSIZE

/-- `PGROUNDDOWN`, on a 64-bit address. -/
def pgRoundDown (a : Nat) : Nat := a / PGSIZE * PGSIZE

/-- `PA2PTE`. -/
def pa2pte (pa : Nat) : Nat := uint64 ((pa >>> 12) <<< 10 : Nat)

/-- `PTE2PA`. -/
def pte2pa (pte : Nat) : Nat := uint64 ((pte >>> 10) <<< 12 : Nat)

/-- `PTE_FLAGS`. -/
def pteFlags (pte : Nat) : Nat := pte &&& 0x3FF

/-- `PX`: the 9-bit index of `va` into a page-table page of the level. -/
def px (level va : Nat) : Nat := va / 2 ^ (12 + 9 * level) % 512

/-- The entry has one of the given flags. -/
def hasFlag (pte flags : Nat) : Bool := pte &&& flags != 0

/-! ## Rounding -/

theorem pgRoundUp_eq (h : sz + PGSIZE ≤ 2 ^ 64) :
    pgRoundUp sz = (sz + (PGSIZE - 1)) / PGSIZE * PGSIZE := by
  unfold pgRoundUp uint64
  simp only [PGSIZE] at h ⊢
  omega

theorem pgRoundUp_aligned (sz : Nat) : pgRoundUp sz % PGSIZE = 0 := Nat.mul_mod_left _ _

theorem le_pgRoundUp (h : sz + PGSIZE ≤ 2 ^ 64) : sz ≤ pgRoundUp sz := by
  rw [pgRoundUp_eq h]
  simp only [PGSIZE]
  omega

/-- The page after the rounded size does not wrap. -/
theorem pgRoundUp_add_le (h : sz + PGSIZE ≤ 2 ^ 64) : pgRoundUp sz + PGSIZE ≤ 2 ^ 64 := by
  rw [pgRoundUp_eq h]
  simp only [PGSIZE] at h ⊢
  omega

theorem add_mul_aligned {a : Nat} (h : a % PGSIZE = 0) (i : Nat) : (a + i * PGSIZE) % PGSIZE = 0 := by
  rw [Nat.add_mul_mod_self_right, h]

theorem pgRoundUp_le {b : Nat} (hb : b % PGSIZE = 0) (h : sz ≤ b) (hlt : b + PGSIZE ≤ 2 ^ 64) :
    pgRoundUp sz ≤ b := by
  rw [pgRoundUp_eq (by omega)]
  simp only [PGSIZE] at hb ⊢
  omega

theorem pgRoundUp_mono {b : Nat} (h : sz ≤ b) (hlt : b + PGSIZE ≤ 2 ^ 64) :
    pgRoundUp sz ≤ pgRoundUp b :=
  pgRoundUp_le (pgRoundUp_aligned b) (Nat.le_trans h (le_pgRoundUp hlt)) (pgRoundUp_add_le hlt)

theorem pgRoundUp_of_aligned (h : sz % PGSIZE = 0) (hlt : sz + PGSIZE ≤ 2 ^ 64) :
    pgRoundUp sz = sz :=
  Nat.le_antisymm (pgRoundUp_le h (Nat.le_refl _) hlt) (le_pgRoundUp hlt)

theorem pgRoundDown_add_le {a : Nat} (h : a < 2 ^ 64) : pgRoundDown a + PGSIZE ≤ 2 ^ 64 := by
  unfold pgRoundDown
  simp only [PGSIZE]
  omega

theorem lt_of_lt_pgRoundUp {n : Nat} (hsz : sz + PGSIZE ≤ 2 ^ 64) (h : n * PGSIZE < pgRoundUp sz) :
    n * PGSIZE < sz := by
  rw [pgRoundUp_eq hsz] at h
  simp only [PGSIZE] at h ⊢
  omega

/-! ## Page-table pages -/

/-- A page-table page of the lowest level: 512 entries. -/
structure LeafPage where
  addr : Nat
  pte : Nat → Nat

/-- A page-table page of an upper level: 512 entries, each invalid or a
pointer to a page of the level below. -/
structure DirPage (α : Type) where
  addr : Nat
  entry : Nat → Option α

/-- A page table, by its root page. -/
abbrev PageTable := DirPage (DirPage LeafPage)

namespace PageTable

/-- No page table: the null pointer. -/
def null : PageTable := ⟨0, fun _ => none⟩

/-- The page of the lowest level for `va`, if it exists. -/
def leafPage (pagetable : PageTable) (va : Nat) : Option LeafPage :=
  (pagetable.entry (px 2 va)).bind fun mid => mid.entry (px 1 va)

/-- The page-table page that holds the entry for `va` exists. -/
def tableAt (pagetable : PageTable) (va : Nat) : Bool := (pagetable.leafPage va).isSome

/-- The entry for `va`, zero where its page-table page does not exist. -/
def pte (pagetable : PageTable) (va : Nat) : Nat :=
  match pagetable.leafPage va with
  | some leaf => leaf.pte (px 0 va)
  | none => 0

/-- Store the entry for `va`. -/
def setPte (pagetable : PageTable) (va w : Nat) : PageTable :=
  match pagetable.entry (px 2 va) with
  | none => pagetable
  | some mid =>
    match mid.entry (px 1 va) with
    | none => pagetable
    | some leaf =>
      let leaf' := { leaf with pte := Function.update leaf.pte (px 0 va) w }
      let mid' := { mid with entry := Function.update mid.entry (px 1 va) (some leaf') }
      { pagetable with entry := Function.update pagetable.entry (px 2 va) (some mid') }

end PageTable

/-! ## Indices -/

theorem px_eq_of_page (h : va / PGSIZE = va' / PGSIZE) (level : Nat) :
    px level va = px level va' := by
  unfold px
  rw [pow_add, ← Nat.div_div_eq_div_mul, ← Nat.div_div_eq_div_mul]
  have h' : va / 2 ^ 12 = va' / 2 ^ 12 := h
  rw [h']

/-- Below `2 ^ 39` the three indices give the page. -/
theorem page_eq_of_px (hva : va < 2 ^ 39) (hva' : va' < 2 ^ 39) (h2 : px 2 va = px 2 va')
    (h1 : px 1 va = px 1 va') (h0 : px 0 va = px 0 va') : va / PGSIZE = va' / PGSIZE := by
  unfold px at h0 h1 h2
  simp only [Nat.reduceMul, Nat.reduceAdd, Nat.reducePow, PGSIZE] at h0 h1 h2 hva hva' ⊢
  omega

namespace PageTable

variable {pagetable : PageTable} {w : Nat}

theorem pte_eq_of_page (h : va / PGSIZE = va' / PGSIZE) : pagetable.pte va = pagetable.pte va' := by
  simp only [pte, leafPage, px_eq_of_page h]

theorem tableAt_of_pte (h : pagetable.pte va ≠ 0) : pagetable.tableAt va = true := by
  unfold pte at h
  unfold tableAt
  cases hl : pagetable.leafPage va with
  | none =>
    rw [hl] at h
    exact absurd rfl h
  | some leaf => rfl

/-! ## Storing an entry -/

theorem leafPage_setPte (h : pagetable.tableAt va = true) :
    (pagetable.setPte va w).leafPage va' =
      if px 2 va' = px 2 va ∧ px 1 va' = px 1 va then (pagetable.leafPage va).map fun leaf =>
          { leaf with pte := update leaf.pte (px 0 va) w } else pagetable.leafPage va' := by
  unfold tableAt leafPage at h
  cases hmid : pagetable.entry (px 2 va) with
  | none => simp [hmid] at h
  | some mid =>
    cases hleaf : mid.entry (px 1 va) with
    | none => simp [hmid, hleaf] at h
    | some leaf =>
      simp only [setPte, leafPage, hmid, hleaf, Option.bind_some]
      by_cases h2 : px 2 va' = px 2 va
      · rw [h2, update_self, Option.bind_some]
        by_cases h1 : px 1 va' = px 1 va
        · simp [h1]
        · simp [h1, hmid]
      · rw [update_of_ne h2, if_neg (fun hc => h2 hc.1)]

theorem tableAt_setPte : (pagetable.setPte va w).tableAt va' = pagetable.tableAt va' := by
  by_cases h : pagetable.tableAt va = true
  · unfold tableAt
    rw [leafPage_setPte h]
    split
    · rename_i hpx
      rw [Option.isSome_map, leafPage, leafPage, hpx.1, hpx.2]
    · rfl
  · have hset : pagetable.setPte va w = pagetable := by
      unfold tableAt leafPage at h
      unfold setPte
      cases hmid : pagetable.entry (px 2 va) with
      | none => rfl
      | some mid =>
        cases hleaf : mid.entry (px 1 va) with
        | none => simp only [hleaf]
        | some leaf => simp [hmid, hleaf] at h
    rw [hset]

theorem pte_setPte (h : pagetable.tableAt va = true) (hva : va < 2 ^ 39) (hva' : va' < 2 ^ 39) :
    (pagetable.setPte va w).pte va' = if va' / PGSIZE = va / PGSIZE then w
      else pagetable.pte va' := by
  unfold pte
  rw [leafPage_setPte h]
  by_cases hpage : va' / PGSIZE = va / PGSIZE
  · rw [if_pos hpage, if_pos ⟨px_eq_of_page hpage 2, px_eq_of_page hpage 1⟩]
    unfold tableAt at h
    cases hl : pagetable.leafPage va with
    | none => simp [hl] at h
    | some leaf => simp [px_eq_of_page hpage 0]
  · rw [if_neg hpage]
    by_cases hpx : px 2 va' = px 2 va ∧ px 1 va' = px 1 va
    · rw [if_pos hpx]
      -- same page-table page, another entry of it
      have h0 : px 0 va' ≠ px 0 va := fun h0 =>
        hpage (page_eq_of_px hva' hva hpx.1 hpx.2 h0)
      have hl : pagetable.leafPage va' = pagetable.leafPage va := by
        rw [leafPage, leafPage, hpx.1, hpx.2]
      rw [hl]
      cases pagetable.leafPage va with
      | none => rfl
      | some leaf => simp [update_of_ne h0]
    · rw [if_neg hpx]

theorem setPte_addr : (pagetable.setPte va w).addr = pagetable.addr := by
  unfold setPte
  split
  · rfl
  · split
    · rfl
    · rfl

end PageTable

end Xv6.Vm
