import Mathlib.Tactic.Common

/-!
# Machines that take one event at a time

A machine is a function `next : ε → σ → Option σ`: an event either takes
the state to a new one or cannot happen in it. All choice is in the
events, so that a run is a list of them.

`Reach next cond s₀ s` says that `s` is reached from `s₀` by events that
each met `cond` in the state they happened in. `Reach.invariant` is the
one induction over runs, and `Reach.follow` turns an executed list of
events into a run.
-/

namespace Xv6.Lib.Trans

variable {σ ε : Type} {next : ε → σ → Option σ} {cond : ε → σ → Prop} {s₀ s : σ}

/-- The states reached from `s₀` by events that meet `cond`. -/
inductive Reach (next : ε → σ → Option σ) (cond : ε → σ → Prop) (s₀ : σ) : σ → Prop where
  | start : Reach next cond s₀ s₀
  | step {e : ε} {s s' : σ} : Reach next cond s₀ s → cond e s → next e s = some s' →
      Reach next cond s₀ s'

/-- What holds at the start and is kept by every event holds in every
reached state. -/
theorem Reach.invariant {I : σ → Prop} (h : Reach next cond s₀ s) (h0 : I s₀)
    (hstep : ∀ e s s', I s → cond e s → next e s = some s' → I s') : I s := by
  induction h with
  | start => exact h0
  | step _ hcond hnext ih => exact hstep _ _ _ ih hcond hnext

/-- Take the events in order, as long as each passes `check`. -/
def follow (next : ε → σ → Option σ) (check : ε → σ → Bool) : List ε → σ → Option σ
  | [], s => some s
  | e :: es, s =>
    if check e s then
      match next e s with
      | some s' => follow next check es s'
      | none => none
    else none

theorem Reach.follow {check : ε → σ → Bool} {es : List ε} {s' : σ}
    (hcheck : ∀ e s, check e s = true → cond e s) (h : Reach next cond s₀ s)
    (hes : follow next check es s = some s') : Reach next cond s₀ s' := by
  induction es generalizing s with
  | nil =>
    have hs : s = s' := by simpa [Trans.follow] using hes
    exact hs ▸ h
  | cons e es ih =>
    simp only [Trans.follow] at hes
    split at hes
    · rename_i hpass
      split at hes
      · rename_i s1 hs1
        exact ih (.step h (hcheck e s hpass) hs1) hes
      · cases hes
    · cases hes

/-- What an executed list of events shows is shown of a reached state. -/
theorem Reach.of_any {es : List ε} {fact : σ → Bool}
    (h : (Trans.follow next (fun _ _ => true) es s₀).any fact = true) :
    ∃ s, Reach next (fun _ _ => True) s₀ s ∧ fact s = true := by
  obtain ⟨s, hs, hfact⟩ := (Option.any_eq_true _ _).mp h
  exact ⟨s, Reach.start.follow (fun _ _ _ => trivial) hs, hfact⟩

/-- `Reach.follow` for events that meet the condition in every state. -/
theorem Reach.follow_mem {es : List ε} {s' : σ} (hes : ∀ e ∈ es, ∀ s, cond e s)
    (h : Reach next cond s₀ s) (hs' : Trans.follow next (fun _ _ => true) es s = some s') :
    Reach next cond s₀ s' := by
  induction es generalizing s with
  | nil =>
    have hs : s = s' := by simpa [Trans.follow] using hs'
    exact hs ▸ h
  | cons e es ih =>
    simp only [Trans.follow, if_true] at hs'
    split at hs'
    · rename_i s1 hs1
      have hstep := h.step (hes e List.mem_cons_self s) hs1
      exact ih (fun e' he' => hes e' (List.mem_cons_of_mem _ he')) hstep hs'
    · cases hs'

end Xv6.Lib.Trans
