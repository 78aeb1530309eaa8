import Mathlib.Data.List.Basic
import Mathlib.Tactic.Common

/-!
# The matcher of `grep`

`match`, `matchhere` and `matchstar` of `user/grep.c`. A string is the list of
its characters, without the zero that ends it. All three are total: `matchhere`
goes down the pattern, and the two loops go down the text.

`Matches re s rest` is what a pattern stands for, read left to right: it
describes the part `s` of a text that goes on with `rest`, which matters for a
final `$` only. A character with a `*` after it is always a repetition, also if
it is `$`, `^` or another `*`.
-/

namespace Xv6.Grep

@[match_pattern] abbrev DOLLAR : UInt8 := 36
@[match_pattern] abbrev STAR : UInt8 := 42
@[match_pattern] abbrev DOT : UInt8 := 46
@[match_pattern] abbrev CARET : UInt8 := 94

/-- `matchstar(c, re, text)`, where `here` is `matchhere` for `re`. -/
def matchstar (c : UInt8) (here : List UInt8 → Bool) : List UInt8 → Bool
  | [] => here []
  | t :: text => here (t :: text) || (t == c || c == DOT) && matchstar c here text

/-- `matchhere(re, text)`. -/
def matchhere : List UInt8 → List UInt8 → Bool
  | [], _ => true
  | c :: STAR :: re, text => matchstar c (fun rest => matchhere re rest) text
  | [DOLLAR], text => text.isEmpty
  | _ :: _, [] => false
  | c :: re, t :: text => (c == DOT || c == t) && matchhere re text

/-- The loop of `match`. -/
def search (re : List UInt8) : List UInt8 → Bool
  | [] => matchhere re []
  | t :: text => matchhere re (t :: text) || search re text

/-- `match(re, text)`. -/
def matchText : List UInt8 → List UInt8 → Bool
  | CARET :: re, text => matchhere re text
  | re, text => search re text

/-- The pattern describes the part `s` of a text that goes on with `rest`. -/
inductive Matches : List UInt8 → List UInt8 → List UInt8 → Prop where
  | nil {rest} : Matches [] [] rest
  | star {c re xs s rest} : (∀ x ∈ xs, x = c ∨ c = DOT) → Matches re s rest →
    Matches (c :: STAR :: re) (xs ++ s) rest
  | final : Matches [DOLLAR] [] []
  | char {c re x s rest} : re.head? ≠ some STAR → c :: re ≠ [DOLLAR] → c = DOT ∨ c = x →
    Matches re s rest → Matches (c :: re) (x :: s) rest

variable {c : UInt8} {re text : List UInt8}

theorem matchstar_iff {here : List UInt8 → Bool} :
    matchstar c here text = true ↔
      ∃ xs rest, text = xs ++ rest ∧ (∀ x ∈ xs, x = c ∨ c = DOT) ∧ here rest = true := by
  induction text with
  | nil => simp [matchstar]
  | cons t text ih =>
    rw [matchstar, Bool.or_eq_true, Bool.and_eq_true, Bool.or_eq_true, beq_iff_eq, beq_iff_eq, ih]
    constructor
    · rintro (hhere | ⟨ht, xs, rest, rfl, hxs, hrest⟩)
      · exact ⟨[], t :: text, rfl, nofun, hhere⟩
      · exact ⟨t :: xs, rest, rfl, List.forall_mem_cons.mpr ⟨ht, hxs⟩, hrest⟩
    · rintro ⟨xs, rest, heq, hxs, hrest⟩
      cases xs with
      | nil => exact .inl (heq ▸ hrest)
      | cons x xs =>
        obtain ⟨rfl, rfl⟩ := List.cons.inj heq
        obtain ⟨ht, hxs⟩ := List.forall_mem_cons.mp hxs
        exact .inr ⟨ht, xs, rest, rfl, hxs, hrest⟩

theorem matchhere_iff :
    matchhere re text = true ↔ ∃ s rest, text = s ++ rest ∧ Matches re s rest := by
  fun_induction matchhere re text with
  | case1 text => exact ⟨fun _ => ⟨[], text, rfl, .nil⟩, fun _ => rfl⟩
  | case2 text c re ih =>
    rw [matchstar_iff]
    constructor
    · rintro ⟨xs, rest, rfl, hxs, hrest⟩
      obtain ⟨s, rest, rfl, hs⟩ := (ih rest).mp hrest
      exact ⟨xs ++ s, rest, (List.append_assoc ..).symm, .star hxs hs⟩
    · rintro ⟨s, rest, rfl, hs⟩
      cases hs with
      | star hxs hs => exact ⟨_, _, List.append_assoc .., hxs, (ih _).mpr ⟨_, _, rfl, hs⟩⟩
      | char hstar => exact absurd rfl hstar
  | case3 text =>
    constructor
    · intro hempty
      obtain rfl := List.isEmpty_iff.mp hempty
      exact ⟨[], [], rfl, .final⟩
    · rintro ⟨s, rest, rfl, hs⟩
      cases hs with
      | final => rfl
      | char _ hfinal => exact absurd rfl hfinal
  | case4 c re hstar hfinal =>
    refine ⟨nofun, ?_⟩
    rintro ⟨s, rest, heq, hs⟩
    cases hs with
    | star => exact (hstar _ rfl).elim
    | final => exact (hfinal rfl rfl).elim
    | char => cases heq
  | case5 c re t text hstar hfinal ih =>
    rw [Bool.and_eq_true, Bool.or_eq_true, beq_iff_eq, beq_iff_eq, ih]
    constructor
    · rintro ⟨hc, s, rest, rfl, hs⟩
      refine ⟨t :: s, rest, rfl, .char (fun hhead => ?_) (fun heq => ?_) hc hs⟩
      · obtain ⟨re', rfl⟩ := List.head?_eq_some_iff.mp hhead
        exact hstar re' rfl
      · obtain ⟨rfl, rfl⟩ := List.cons.inj heq
        exact hfinal rfl rfl
    · rintro ⟨s, rest, heq, hs⟩
      cases hs with
      | star => exact (hstar _ rfl).elim
      | final => exact (hfinal rfl rfl).elim
      | char _ _ hc hs =>
        obtain ⟨rfl, rfl⟩ := List.cons.inj heq
        exact ⟨hc, _, _, rfl, hs⟩

theorem search_iff : search re text = true ↔
    ∃ before s rest, text = before ++ (s ++ rest) ∧ Matches re s rest := by
  induction text with
  | nil => simp [search, matchhere_iff]
  | cons t text ih =>
    rw [search, Bool.or_eq_true, matchhere_iff, ih]
    constructor
    · rintro (⟨s, rest, heq, hs⟩ | ⟨before, s, rest, rfl, hs⟩)
      · exact ⟨[], s, rest, heq, hs⟩
      · exact ⟨t :: before, s, rest, rfl, hs⟩
    · rintro ⟨before, s, rest, heq, hs⟩
      cases before with
      | nil => exact .inl ⟨s, rest, heq, hs⟩
      | cons x before =>
        obtain ⟨rfl, rfl⟩ := List.cons.inj heq
        exact .inr ⟨before, s, rest, rfl, hs⟩

/-- The matcher finds a part of the text that the pattern describes, at the
beginning if the pattern starts with `^`, exactly if there is one. -/
theorem match_decides (re text : List UInt8) :
    matchText re text = true ↔ ∃ before s rest, text = before ++ (s ++ rest) ∧
      (re.head? = some CARET → before = []) ∧
      Matches (if re.head? = some CARET then re.tail else re) s rest := by
  unfold matchText
  split
  · rw [matchhere_iff]
    constructor
    · rintro ⟨s, rest, heq, hs⟩
      exact ⟨[], s, rest, heq, fun _ => rfl, hs⟩
    · rintro ⟨before, s, rest, heq, hbefore, hs⟩
      rw [hbefore rfl] at heq
      exact ⟨s, rest, heq, hs⟩
  · rename_i hcaret
    have hhead : re.head? ≠ some CARET := fun hhead => by
      obtain ⟨re', rfl⟩ := List.head?_eq_some_iff.mp hhead
      exact hcaret re' rfl
    simp only [hhead, if_false, false_implies, true_and]
    exact search_iff

end Xv6.Grep
