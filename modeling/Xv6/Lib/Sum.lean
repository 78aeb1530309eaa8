import Mathlib.Algebra.BigOperators.Group.Finset.Basic
import Mathlib.Algebra.BigOperators.Group.Finset.Sigma
import Mathlib.Algebra.Order.BigOperators.Group.Finset
import Mathlib.Tactic.Abel

/-!
# Sums that change in one place

A total over a finite set of holders, when one of them changes what it
holds. The laws are stated without subtraction, so that they also serve for
totals that are multisets.

`tally` counts references: how many of the first `n` holders name a thing.
-/

namespace Xv6.Lib

variable {ι M : Type} [DecidableEq ι] [AddCommMonoid M]

/-- When one summand changes, the total changes by as much. -/
theorem sum_change {s : Finset ι} {f g : ι → M} {i : ι} (hi : i ∈ s)
    (h : ∀ j ∈ s, j ≠ i → g j = f j) : ∑ j ∈ s, g j + f i = ∑ j ∈ s, f j + g i := by
  have hrest : ∑ j ∈ s.erase i, g j = ∑ j ∈ s.erase i, f j := by
    apply Finset.sum_congr rfl
    intro j hj
    exact h j (Finset.mem_of_mem_erase hj) (Finset.ne_of_mem_erase hj)
  rw [← Finset.add_sum_erase s g hi, ← Finset.add_sum_erase s f hi, hrest]
  abel

/-- The same for the elements of a list. -/
theorem sum_map_set {α : Type} {l : List α} {i : Nat} {a b : α} (g : α → M) (h : l[i]? = some a) :
    ((l.set i b).map g).sum + g a = (l.map g).sum + g b := by
  have hlt : i < l.length := (List.getElem?_eq_some_iff.mp h).1
  obtain ⟨l₁, l₂, hl, -, hset⟩ := @List.exists_of_set α i b l hlt
  have ha : l[i] = a := (List.getElem?_eq_some_iff.mp h).2
  rw [hset, hl, ha]
  simp only [List.map_append, List.map_cons, List.sum_append, List.sum_cons]
  abel

/-! ## Counting references -/

/-- One at what `o` names, if anything. -/
def token (o : Option Nat) (i : Nat) : Int := if o = some i then 1 else 0

/-- How many of the first `n` holders name `i`. -/
def tally (n : Nat) (g : Nat → Option Nat) (i : Nat) : Int := ∑ j ∈ Finset.range n, token (g j) i

theorem token_none : token none = 0 := by
  funext i
  exact if_neg (by simp)

theorem token_nonneg (o : Option Nat) (i : Nat) : 0 ≤ token o i := by
  unfold token
  split <;> decide

theorem token_self (i : Nat) : token (some i) i = 1 := if_pos rfl

theorem tally_nonneg (n : Nat) (g : Nat → Option Nat) (i : Nat) : 0 ≤ tally n g i :=
  Finset.sum_nonneg fun j _ => token_nonneg (g j) i

theorem one_le_tally {n j i : Nat} {g : Nat → Option Nat} (hj : j < n) (h : g j = some i) :
    1 ≤ tally n g i := by
  have hle : token (g j) i ≤ tally n g i := Finset.single_le_sum (f := fun j => token (g j) i)
    (fun j _ => token_nonneg (g j) i) (Finset.mem_range.mpr hj)
  rwa [h, token_self] at hle

/-- One holder now names `o`. -/
theorem tally_change {n j : Nat} (hj : j < n) (g g' : Nat → Option Nat) (h : ∀ l ≠ j, g' l = g l)
    (i : Nat) : tally n g' i = tally n g i - token (g j) i + token (g' j) i := by
  have hsum := sum_change (f := fun l => token (g l) i) (g := fun l => token (g' l) i)
    (Finset.mem_range.mpr hj) fun l _ hl => by rw [h l hl]
  unfold tally
  omega

theorem tally_congr {n : Nat} {g g' : Nat → Option Nat} (h : ∀ j < n, g' j = g j) (i : Nat) :
    tally n g' i = tally n g i :=
  Finset.sum_congr rfl fun j hj => by rw [h j (Finset.mem_range.mp hj)]

end Xv6.Lib
