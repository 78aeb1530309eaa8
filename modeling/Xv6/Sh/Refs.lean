import Mathlib.Algebra.Order.BigOperators.Group.List
import Xv6.Lib.Sum
import Xv6.Sh.Pool

/-!
# Reference counts and pipes while a command line runs

A file has as many references as descriptors are open on it, and an end of a
pipe is open exactly while it has some. Both are about the operations of the
file table, and about sums over all processes in which one process changes.
-/

namespace Xv6.Sh

open Xv6.Lib Function

variable {s s' : Files} {f g : OpenFile} {t : Table} {w w' : World} {i : Nat} {q : Proc}

/-! ## Descriptors of one table -/

/-- One if the entry is open on the file. -/
def one (o : Option OpenFile) (f : OpenFile) : Nat := if o = some f then 1 else 0

theorem countP_update {fd n : Nat} {o : Option OpenFile} (hfd : fd < n) :
    (List.range n).countP (fun k => update t fd o k = some f) + one (t fd) f =
      (List.range n).countP (fun k => t k = some f) + one o f := by
  induction n with
  | zero => cases hfd
  | succ n ih =>
    rw [List.range_succ, List.countP_append, List.countP_append, List.countP_singleton,
      List.countP_singleton]
    by_cases heq : fd = n
    · subst heq
      have hsame : (List.range fd).countP (fun k => update t fd o k = some f) =
          (List.range fd).countP (fun k => t k = some f) := by
        refine List.countP_congr fun k hk => ?_
        rw [update_of_ne (Nat.ne_of_lt (List.mem_range.mp hk))]
      rw [hsame, update_self]
      unfold one
      simp only [decide_eq_true_eq]
      omega
    · rw [update_of_ne (Ne.symm heq)]
      have hrest := ih (by omega)
      omega

theorem Table.holds_pos {fd : Nat} (hfd : fd < NOFILE) (h : t fd = some f) : 1 ≤ t.holds f :=
  List.countP_pos_iff.mpr ⟨fd, List.mem_range.mpr hfd, decide_eq_true h⟩

/-! ## The file table -/

/-- One end of a pipe is open. -/
def PipeEnds.isOpen (p : PipeEnds) (writable : Bool) : Bool :=
  if writable then p.writeopen else p.readopen

/-- The ends of the pipes that were made are open while they have
references. -/
def Files.Agrees (s : Files) (made : Node → Prop) : Prop :=
  ∀ n writable, made n → (s.pipe n).isOpen writable = decide (0 < s.ref (.pipe n writable))

variable {made : Node → Prop}

theorem filedup_some (h : s.filedup f = some s') :
    1 ≤ s.ref f ∧ s' = { s with ref := update s.ref f (s.ref f + 1) } := by
  unfold Files.filedup at h
  split at h
  · cases h
  · cases h
    exact ⟨by omega, rfl⟩

theorem isOpen_close (p : PipeEnds) (writable writable' : Bool) :
    (if writable then { p with writeopen := false }
      else { p with readopen := false } : PipeEnds).isOpen writable' =
      (p.isOpen writable' && writable' != writable) := by
  cases writable <;> cases writable' <;> simp [PipeEnds.isOpen]

theorem fileclose_some (h : s.fileclose f = some s') :
    1 ≤ s.ref f ∧ s'.ref = update s.ref f (s.ref f - 1) ∧
      ∀ n writable, (s'.pipe n).isOpen writable =
        ((s.pipe n).isOpen writable && !decide (f = .pipe n writable ∧ s.ref f = 1)) := by
  unfold Files.fileclose at h
  split at h
  · cases h
  rename_i href
  dsimp only at h
  split at h
  · rename_i hmore
    cases h
    refine ⟨by omega, rfl, fun n writable => ?_⟩
    have hnot : ¬ (f = .pipe n writable ∧ s.ref f = 1) := by omega
    simp [hnot]
  · rename_i hlast
    have hone : s.ref f = 1 := by omega
    cases f with
    | pipe node writable' =>
      cases h
      refine ⟨by omega, rfl, fun n writable => ?_⟩
      show (update s.pipe node _ n).isOpen writable = _
      by_cases hn : n = node
      · subst hn
        rw [update_self, isOpen_close]
        cases writable <;> cases writable' <;> simp [hone]
      · rw [update_of_ne hn]
        simp [Ne.symm hn]
    | shell k =>
      cases h
      exact ⟨by omega, rfl, fun n writable => by simp⟩
    | redir node =>
      cases h
      exact ⟨by omega, rfl, fun n writable => by simp⟩

theorem fileclose_isSome (h : 1 ≤ s.ref f) : (s.fileclose f).isSome := by
  unfold Files.fileclose
  rw [if_neg (by omega)]
  dsimp only
  split
  · rfl
  · cases f <;> rfl

theorem Files.Agrees.filedup (hs : s.Agrees made) (h : s.filedup f = some s') : s'.Agrees made := by
  obtain ⟨hpos, rfl⟩ := filedup_some h
  intro n writable hn
  rw [hs n writable hn]
  by_cases hf : OpenFile.pipe n writable = f
  · subst hf
    simp only [update_self]
    exact decide_eq_decide.mpr (by omega)
  · simp only [update_of_ne hf]

theorem Files.Agrees.fileclose (hs : s.Agrees made) (h : s.fileclose f = some s') :
    s'.Agrees made := by
  obtain ⟨hpos, href, hopen⟩ := fileclose_some h
  intro n writable hn
  rw [hopen, hs n writable hn, href]
  by_cases hf : f = .pipe n writable
  · subst hf
    rw [update_self, Bool.eq_iff_iff]
    simp only [true_and, Bool.and_eq_true, Bool.not_eq_true', decide_eq_true_eq,
      decide_eq_false_iff_not]
    omega
  · rw [update_of_ne (Ne.symm hf)]
    simp [hf]

/-! ## All the descriptors of a process -/

/-- An operation that adds `d` to the count of its file, done for each descriptor. -/
theorem foldlM_ref {op : Files → OpenFile → Option Files}
    {d : Int} (hop : ∀ {s s' g}, s.Agrees made → op s g = some s' →
      s'.Agrees made ∧ ∀ f, (s'.ref f : Int) = s.ref f + if g = f then d else 0) {l : List Nat}
    (hs : s.Agrees made) (h : l.foldlM (fun s fd => (t fd).elim (some s) (op s)) s = some s') :
    s'.Agrees made ∧ ∀ f, (s'.ref f : Int) = s.ref f + d * l.countP fun fd => t fd = some f := by
  induction l generalizing s with
  | nil =>
    cases h
    exact ⟨hs, fun _ => by simp⟩
  | cons fd l ih =>
    rw [List.foldlM_cons] at h
    obtain ⟨s1, hs1, hrest⟩ := Option.bind_eq_some_iff.mp h
    cases hfd : t fd with
    | none =>
      rw [hfd] at hs1
      cases hs1
      obtain ⟨hagrees, href⟩ := ih hs hrest
      exact ⟨hagrees, fun f => by simp [href f, hfd]⟩
    | some g =>
      rw [hfd] at hs1
      obtain ⟨hagrees1, href1⟩ := hop hs hs1
      obtain ⟨hagrees, href⟩ := ih hagrees1 hrest
      refine ⟨hagrees, fun f => ?_⟩
      rw [href f, href1 f, List.countP_cons, hfd]
      by_cases hgf : g = f
      · simp only [hgf, decide_true, if_true]
        rw [Int.natCast_add, Int.mul_add, Int.natCast_one, Int.mul_one]
        omega
      · simp [hgf]

/-- `fork` takes one more reference for each descriptor. -/
theorem overTable_filedup (hs : s.Agrees made) (h : overTable Files.filedup t s = some s') :
    (∀ f, s'.ref f = s.ref f + t.holds f) ∧ s'.Agrees made := by
  obtain ⟨hagrees, href⟩ := foldlM_ref (d := 1) (fun hs h => ⟨hs.filedup h, fun f => by
    obtain ⟨-, rfl⟩ := filedup_some h
    grind⟩) hs h
  exact ⟨fun f => by unfold Table.holds; have := href f; omega, hagrees⟩

/-- `exit` gives the references of all descriptors up. -/
theorem overTable_fileclose (hs : s.Agrees made) (h : overTable Files.fileclose t s = some s') :
    (∀ f, s'.ref f + t.holds f = s.ref f) ∧ s'.Agrees made := by
  obtain ⟨hagrees, href⟩ := foldlM_ref (d := -1) (fun hs h => ⟨hs.fileclose h, fun f => by
    obtain ⟨hpos, href, -⟩ := fileclose_some h
    rw [href]
    grind⟩) hs h
  exact ⟨fun f => by unfold Table.holds; have := href f; omega, hagrees⟩

/-- `fork` does not panic if every file of the table has a reference. -/
theorem foldlM_filedup_isSome {l : List Nat} (h : ∀ fd ∈ l, ∀ f, t fd = some f → 1 ≤ s.ref f) :
    (l.foldlM (fun s fd => (t fd).elim (some s) s.filedup) s).isSome := by
  induction l generalizing s with
  | nil => rfl
  | cons fd l ih =>
    rw [List.foldlM_cons]
    cases hfd : t fd with
    | none => exact ih fun g hg => h g (List.mem_cons_of_mem _ hg)
    | some f =>
      have hpos := h fd List.mem_cons_self f hfd
      have hdup : s.filedup f = some { s with ref := update s.ref f (s.ref f + 1) } :=
        if_neg (by omega)
      show ((s.filedup f).bind _).isSome
      rw [hdup]
      refine ih fun g hg f' hf' => ?_
      have hpos' := h g (List.mem_cons_of_mem _ hg) f' hf'
      dsimp only
      rw [update_apply]
      split <;> omega

/-- `exit` does not panic if every file has as many references as the table
has descriptors for it. -/
theorem foldlM_fileclose_isSome {l : List Nat}
    (h : ∀ f, (l.countP fun fd => t fd = some f) ≤ s.ref f) :
    (l.foldlM (fun s fd => (t fd).elim (some s) s.fileclose) s).isSome := by
  induction l generalizing s with
  | nil => rfl
  | cons fd l ih =>
    rw [List.foldlM_cons]
    cases hfd : t fd with
    | none =>
      refine ih fun f => ?_
      have hf := h f
      rwa [List.countP_cons_of_neg (by simp [hfd])] at hf
    | some f =>
      have hf := h f
      rw [List.countP_cons_of_pos (by simp [hfd])] at hf
      obtain ⟨s1, hs1⟩ := Option.isSome_iff_exists.mp (fileclose_isSome (s := s) (f := f) (by omega))
      show ((s.fileclose f).bind _).isSome
      rw [hs1]
      refine ih fun g => ?_
      obtain ⟨-, href, -⟩ := fileclose_some hs1
      have hg := h g
      rw [href]
      by_cases hgf : g = f
      · subst hgf
        rw [update_self]
        omega
      · rw [update_of_ne hgf]
        rwa [List.countP_cons_of_neg (by simp [hfd, Ne.symm hgf])] at hg

end Xv6.Sh
