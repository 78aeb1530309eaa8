import Xv6.Vm.Walk

/-!
# How many free pages it takes to map pages

`uvmcopy`, `uvmalloc` and the page-fault handler take pages off the free list
one after the other, for a page that is mapped and for the page-table pages that
are missing on the way to it. What is missing depends on the pages mapped
before. `mapCost` counts what a number of rounds takes, from the table that
there is before the first one, and `Tabled` says which page-table pages there
are after them.

Round `i` is about the page at `va i`, and maps it if `D i`.
-/

namespace Xv6.Vm

variable (va : Nat → Nat) (D : Nat → Prop) (pt : PageTable)

/-- After `n` rounds there is a page-table page of the middle level for `x`. -/
def MidAfter (n x : Nat) : Prop :=
  pt.midAt x = true ∨ ∃ i, i < n ∧ D i ∧ px 2 x = px 2 (va i)

/-- After `n` rounds there is a page-table page of the lowest level for `x`. -/
def TableAfter (n x : Nat) : Prop :=
  pt.tableAt x = true ∨ ∃ i, i < n ∧ D i ∧ px 2 x = px 2 (va i) ∧ px 1 x = px 1 (va i)

variable [DecidablePred D]

instance (n x : Nat) : Decidable (MidAfter va D pt n x) :=
  inferInstanceAs (Decidable (_ ∨ _))

instance (n x : Nat) : Decidable (TableAfter va D pt n x) :=
  inferInstanceAs (Decidable (_ ∨ _))

/-- The free pages that `n` rounds take: each page that is mapped, and the
page-table pages that are missing for it. -/
def mapCost : Nat → Nat
  | 0 => 0
  | n + 1 =>
    if D n then
      mapCost n + 1 + if TableAfter va D pt n (va n) then 0
        else if MidAfter va D pt n (va n) then 1 else 2
    else mapCost n

variable {n m : Nat}

theorem mapCost_mono (h : n ≤ m) : mapCost va D pt n ≤ mapCost va D pt m := by
  induction m with
  | zero => rw [Nat.le_zero.mp h]
  | succ m ih =>
    rcases Nat.le_succ_iff.mp h with hle | rfl
    · refine Nat.le_trans (ih hle) ?_
      rw [mapCost]
      split
      · omega
      · exact Nat.le_refl _
    · exact Nat.le_refl _

variable {va D pt} {x : Nat} {pt' pt'' : PageTable}

section tables

omit [DecidablePred D]

theorem tableAfter_succ : TableAfter va D pt (n + 1) x ↔ TableAfter va D pt n x ∨
    D n ∧ px 2 x = px 2 (va n) ∧ px 1 x = px 1 (va n) := by
  rw [TableAfter, TableAfter, Nat.exists_lt_succ_right, or_assoc]

theorem midAfter_succ : MidAfter va D pt (n + 1) x ↔ MidAfter va D pt n x ∨
    D n ∧ px 2 x = px 2 (va n) := by
  rw [MidAfter, MidAfter, Nat.exists_lt_succ_right, or_assoc]

/-- The page-table pages after `n` rounds. -/
structure Tabled (va : Nat → Nat) (D : Nat → Prop) (pt : PageTable) (n : Nat)
    (pt' : PageTable) : Prop where
  table : ∀ x, pt'.tableAt x = true ↔ TableAfter va D pt n x
  mid : ∀ x, pt'.midAt x = true ↔ MidAfter va D pt n x

theorem Tabled.zero : Tabled va D pt 0 pt :=
  ⟨fun x => by simp [TableAfter], fun x => by simp [MidAfter]⟩

theorem Tabled.skip (h : Tabled va D pt n pt') (hD : ¬D n) : Tabled va D pt (n + 1) pt' :=
  ⟨fun x => by simp [tableAfter_succ, hD, h.table], fun x => by simp [midAfter_succ, hD, h.mid]⟩

theorem Tabled.succ (h : Tabled va D pt n pt') (hD : D n) (hreached : Reached pt' (va n) pt'') :
    Tabled va D pt (n + 1) pt'' :=
  ⟨fun x => by rw [hreached.table, h.table, tableAfter_succ, and_iff_right hD],
    fun x => by rw [hreached.mid, h.mid, midAfter_succ, and_iff_right hD]⟩

theorem Tabled.idle (hD : ∀ i < n, ¬D i) : Tabled va D pt n pt := by
  induction n with
  | zero => exact .zero
  | succ n ih => exact (ih fun i hi => hD i (Nat.lt_succ_of_lt hi)).skip (hD n (Nat.lt_succ_self n))

end tables

theorem Tabled.cost (h : Tabled va D pt n pt') (hD : D n) :
    mapCost va D pt (n + 1) = mapCost va D pt n + 1 + missingTables pt' (va n) := by
  rw [mapCost, if_pos hD, missingTables_eq]
  simp only [h.table, h.mid]

theorem mapCost_idle (hD : ∀ i < n, ¬D i) : mapCost va D pt n = 0 := by
  induction n with
  | zero => rfl
  | succ n ih =>
    rw [mapCost, if_neg (hD n (Nat.lt_succ_self n)), ih fun i hi => hD i (Nat.lt_succ_of_lt hi)]

/-- From the same tables on, rounds about the same pages take the same. -/
theorem mapCost_shift {D' : Nat → Prop} [DecidablePred D'] {before before' : PageTable}
    (h : Tabled va D before m pt) (h' : Tabled va D' before' m pt)
    (hD : ∀ i, m ≤ i → (D i ↔ D' i)) (hle : m ≤ n) :
    mapCost va D before n + mapCost va D' before' m =
      mapCost va D' before' n + mapCost va D before m := by
  -- the same page-table pages are there after each round
  have htables : ∀ n, m ≤ n →
      (∀ x, TableAfter va D before n x ↔ TableAfter va D' before' n x) ∧
      ∀ x, MidAfter va D before n x ↔ MidAfter va D' before' n x := by
    intro n hn
    induction n, hn using Nat.le_induction with
    | base => exact ⟨fun x => by rw [← h.table, h'.table], fun x => by rw [← h.mid, h'.mid]⟩
    | succ n hn ih =>
      exact ⟨fun x => by rw [tableAfter_succ, tableAfter_succ, ih.1, hD n hn],
        fun x => by rw [midAfter_succ, midAfter_succ, ih.2, hD n hn]⟩
  induction n, hle using Nat.le_induction with
  | base => exact Nat.add_comm _ _
  | succ n hn ih =>
    rw [mapCost, mapCost]
    simp only [hD n hn, (htables n hn).1, (htables n hn).2]
    split <;> omega

theorem mapCost_congr {D' : Nat → Prop} [DecidablePred D'] (hD : ∀ i, D i ↔ D' i) :
    mapCost va D pt n = mapCost va D' pt n :=
  mapCost_shift (m := 0) .zero .zero (fun i _ => hD i) (Nat.zero_le n)

/-- Mapping the first page, and then the others, takes what mapping all of them
does. -/
theorem mapCost_first {D' : Nat → Prop} [DecidablePred D'] {v : Nat} (hbelow : ∀ i < v, ¬D i)
    (hv : D v) (hD : ∀ i, D' i ↔ D i ∧ i ≠ v) (hreached : Reached pt (va v) pt') (hlt : v < n) :
    mapCost va D pt n = mapCost va D' pt' n + missingTables pt (va v) + 1 := by
  have hidle : Tabled va D pt v pt := .idle hbelow
  have hnone : ∀ i < v + 1, ¬D' i := by
    intro i hi hD'
    obtain ⟨hDi, hne⟩ := (hD i).mp hD'
    exact hbelow i (by omega) hDi
  have hcost := hidle.cost hv
  have hidle' : Tabled va D' pt' (v + 1) pt' := .idle hnone
  have hshift := mapCost_shift (hidle.succ hv hreached) hidle'
    (fun i hi => by rw [hD, and_iff_left (by omega)]) hlt
  rw [mapCost_idle hbelow] at hcost
  rw [mapCost_idle hnone] at hshift
  change _ + 0 = _ + mapCost va D pt (v + 1) at hshift
  omega

end Xv6.Vm
