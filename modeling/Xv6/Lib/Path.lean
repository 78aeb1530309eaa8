import Mathlib.Tactic.Common
import Mathlib.Logic.Function.Basic
import Mathlib.Data.List.Nodup

/-!
# Linked lists that live in a `next` function

A singly linked list is a function `next` together with a place to start.
`Path next a xs b` says that following `next` from `a` leads through the nodes
`xs`, in this order, to the last of them, `b`; with no node in between it ends
where it starts. `Cycle next a xs` is a path back to `a`.

What the lemmas give is how paths are put together and cut, that an update of
`next` at a node that no step leaves from changes no path, and that a cycle
can be read from any of its nodes.
-/

namespace Xv6.Lib

variable {α : Type} {next : α → α} {a b c v w : α} {xs ys : List α}

/-- Following `next` from `a` goes through `xs` and ends at `b`. -/
def Path (next : α → α) : α → List α → α → Prop
  | a, [], b => a = b
  | a, x :: xs, b => next a = x ∧ Path next x xs b

theorem Path.append (h : Path next a xs b) (h' : Path next b ys c) : Path next a (xs ++ ys) c := by
  induction xs generalizing a with
  | nil =>
    have hab : a = b := h
    subst hab
    exact h'
  | cons x xs ih => exact ⟨h.1, ih h.2⟩

theorem Path.split (h : Path next a (xs ++ ys) c) : ∃ b, Path next a xs b ∧ Path next b ys c := by
  induction xs generalizing a with
  | nil => exact ⟨a, rfl, h⟩
  | cons x xs ih =>
    obtain ⟨b, hxs, hys⟩ := ih h.2
    exact ⟨b, ⟨h.1, hxs⟩, hys⟩

/-- A path ends at the last of its nodes. -/
theorem Path.end_eq (h : Path next a (xs ++ [c]) b) : b = c := by
  obtain ⟨d, -, -, hend⟩ := h.split
  exact hend.symm

section

variable (h : Path next a xs b)
include h

theorem Path.end_mem : b ∈ a :: xs := by
  induction xs generalizing a with
  | nil =>
    have hab : a = b := h
    rw [hab]
    exact List.mem_cons_self
  | cons x xs ih => exact List.mem_cons_of_mem _ (ih h.2)

/-- The nodes of a path, up to the last one, are where its steps leave from. -/
theorem Path.update [DecidableEq α] (hv : v ∉ (a :: xs).dropLast) :
    Path (Function.update next v w) a xs b := by
  induction xs generalizing a with
  | nil => exact h
  | cons x xs ih =>
    rw [List.dropLast_cons_of_ne_nil (List.cons_ne_nil _ _), List.mem_cons, not_or] at hv
    refine ⟨?_, ih h.2 hv.2⟩
    rw [Function.update_of_ne (Ne.symm hv.1)]
    exact h.1

/-- A path can start at another node, which `next` sends to the same place. -/
theorem Path.redirect [DecidableEq α] (hne : xs ≠ [])
    (hv : v ∉ xs.dropLast) : Path (Function.update next v (next a)) v xs b := by
  cases xs with
  | nil => exact absurd rfl hne
  | cons x xs =>
    refine ⟨?_, h.2.update hv⟩
    rw [Function.update_self]
    exact h.1

theorem Path.dropLast : (a :: xs).dropLast ++ [b] = a :: xs := by
  induction xs generalizing a with
  | nil =>
    have hab : a = b := h
    rw [hab]
    rfl
  | cons x xs ih =>
    rw [List.dropLast_cons_of_ne_nil (List.cons_ne_nil _ _), List.cons_append, ih h.2]

/-- No step of a path without repetition leaves from its end. -/
theorem Path.end_notMem (hnodup : (a :: xs).Nodup) : b ∉ (a :: xs).dropLast := by
  rw [← h.dropLast, List.nodup_append] at hnodup
  exact fun hmem => hnodup.2.2 b hmem b (List.mem_singleton_self b) rfl

end

/-- A path that goes up stays below its end. -/
theorem Path.le_end {next : Nat → Nat} {a b : Nat} {xs : List Nat} (h : Path next a xs b)
    (hup : (a :: xs).Pairwise (· < ·)) : ∀ x ∈ a :: xs, x ≤ b := by
  induction xs generalizing a with
  | nil =>
    intro x hx
    have hab : a = b := h
    exact Nat.le_of_eq ((List.mem_singleton.mp hx).trans hab)
  | cons y ys ih =>
    intro x hx
    obtain ⟨hay, hup⟩ := List.pairwise_cons.mp hup
    have hbelow := ih h.2 hup
    rcases List.mem_cons.mp hx with rfl | hx
    · exact Nat.le_of_lt (Nat.lt_of_lt_of_le (hay y List.mem_cons_self) (hbelow y List.mem_cons_self))
    · exact hbelow x hx

/-! ## Cycles -/

/-- Following `next` from `a` goes through `xs` and back to `a`. -/
def Cycle (next : α → α) (a : α) (xs : List α) : Prop := Path next a (xs ++ [a]) a

/-- The two parts of a cycle at one of its nodes. -/
theorem Cycle.cut (h : Cycle next a xs) (hc : c ∈ a :: xs) :
    ∃ us vs, xs = us ++ vs ∧ Path next a us c ∧ Path next c (vs ++ [a]) a := by
  rcases List.mem_cons.mp hc with rfl | hmem
  · exact ⟨[], xs, rfl, rfl, h⟩
  · obtain ⟨us, vs, rfl⟩ := List.append_of_mem hmem
    have hsplit : Path next a ((us ++ [c]) ++ (vs ++ [a])) a := by
      have hcycle : Path next a _ a := h
      rwa [List.append_assoc, List.cons_append, List.append_cons] at hcycle
    obtain ⟨d, hus, hvs⟩ := hsplit.split
    cases hus.end_eq
    exact ⟨us ++ [c], vs, by rw [List.append_assoc]; rfl, hus, hvs⟩

/-- A cycle can be read from any of its nodes. -/
theorem Cycle.rotate (h : Cycle next a xs) (hc : c ∈ a :: xs) :
    ∃ zs, Cycle next c zs ∧ (c :: zs).Perm (a :: xs) := by
  obtain ⟨us, vs, rfl, hus, hvs⟩ := h.cut hc
  rcases List.eq_nil_or_concat us with rfl | ⟨us, d, rfl⟩
  · have hac : a = c := hus
    subst hac
    exact ⟨vs, hvs, .refl _⟩
  · rw [List.concat_eq_append] at hus ⊢
    cases hus.end_eq
    refine ⟨vs ++ [a] ++ us, ?_, ?_⟩
    · have hround := hvs.append hus
      rwa [← List.append_assoc] at hround
    · have hperm : ((c :: vs) ++ (a :: us)).Perm ((a :: us) ++ (c :: vs)) := List.perm_append_comm
      simpa only [List.append_assoc, List.cons_append, List.nil_append] using hperm

theorem Cycle.next_mem (h : Cycle next a xs) (hc : c ∈ a :: xs) : next c ∈ a :: xs := by
  obtain ⟨zs, hcycle, hperm⟩ := h.rotate hc
  rw [← hperm.mem_iff]
  cases zs with
  | nil =>
    rw [hcycle.1]
    exact List.mem_cons_self
  | cons z zs =>
    rw [hcycle.1]
    exact List.mem_cons_of_mem _ List.mem_cons_self

/-- A cycle without repetition comes to each of its nodes, to its first one
last, before it leaves the first one again. -/
theorem Cycle.reach (h : Cycle next a xs) (hnodup : (a :: xs).Nodup) (hc : c ∈ a :: xs) :
    ∃ us, Path next (next a) us c ∧ a ∉ (next a :: us).dropLast ∧ us.length ≤ xs.length := by
  have hmem : c ∈ xs ++ [a] := by
    rw [List.mem_append, List.mem_singleton]
    exact (List.mem_cons.mp hc).symm
  obtain ⟨us, vs, heq⟩ := List.append_of_mem hmem
  have hround : Path next a ((us ++ [c]) ++ vs) a := by
    have hcycle : Path next a (xs ++ [a]) a := h
    rwa [heq, List.append_cons] at hcycle
  obtain ⟨d, hpath, -⟩ := hround.split
  cases hpath.end_eq
  have hxs : us ++ (c :: vs).dropLast = xs := by
    rw [← List.dropLast_append_of_ne_nil (List.cons_ne_nil _ _), ← heq, List.dropLast_concat]
  obtain ⟨y, ws, hws⟩ := List.exists_cons_of_ne_nil
    (List.append_ne_nil_of_right_ne_nil us (List.cons_ne_nil c []))
  have hus : (y :: ws).dropLast = us := by rw [← hws, List.dropLast_concat]
  rw [hws] at hpath
  have hlength := congrArg List.length hws
  rw [List.length_append, List.length_cons, List.length_cons, List.length_nil] at hlength
  refine ⟨ws, ?_, ?_, ?_⟩
  · rw [hpath.1]
    exact hpath.2
  · rw [hpath.1, hus]
    intro ha
    refine (List.nodup_cons.mp hnodup).1 ?_
    rw [← hxs]
    exact List.mem_append_left _ ha
  · rw [← hxs, List.length_append]
    omega

end Xv6.Lib
