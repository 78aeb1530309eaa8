import Xv6.Lib.Act

/-!
# Two runs side by side

`Twin R m m'` says that two actions started in states related by `R` both stop
with the same error, or both return the same value in states that are related
again. With one action on both sides it says that what `R` leaves open in a
state has no influence on what the action gives and where it stops.

The rules follow the constructors of actions. Reading the state is where the
two sides part: `.get` goes on with two continuations, one for each state,
and it is for the relation to say that they are the same in what matters.
-/

namespace Xv6.Lib.Act

variable {ε σ τ α β : Type}

/-- The same error, or the same value in related states. -/
def Agree (R : σ → σ → Prop) : Except ε (α × σ) → Except ε (α × σ) → Prop
  | .ok (a, s), .ok (a', s') => a = a' ∧ R s s'
  | .error e, .error e' => e = e'
  | _, _ => False

/-- From related states the two actions agree. -/
structure Twin (R : σ → σ → Prop) (m m' : Act ε σ α) : Prop where
  agree : ∀ s s', R s s' → Agree R (m s) (m' s')

variable {R : σ → σ → Prop}

/-- What both actions return. -/
theorem Twin.ok {m m' : Act ε σ α} {s s' t t' : σ} {a a' : α} (h : Twin R m m') (hs : R s s')
    (hm : m s = .ok (a, t)) (hm' : m' s' = .ok (a', t')) : a = a' ∧ R t t' := by
  have hagree := h.agree s s' hs
  rwa [hm, hm'] at hagree

protected theorem Twin.pure {a : α} : Twin R (pure a : Act ε σ α) (pure a) := ⟨fun _ _ h => ⟨rfl, h⟩⟩

protected theorem Twin.panic {e : ε} : Twin R (panic e : Act ε σ α) (panic e) := ⟨fun _ _ _ => rfl⟩

protected theorem Twin.modify {f f' : σ → σ} (h : ∀ s s', R s s' → R (f s) (f' s')) :
    Twin R (modify f : Act ε σ Unit) (modify f') := ⟨fun s s' hs => ⟨rfl, h s s' hs⟩⟩

protected theorem Twin.bind {m m' : Act ε σ α} {f f' : α → Act ε σ β} (hm : Twin R m m')
    (hf : ∀ a, Twin R (f a) (f' a)) : Twin R (m >>= f) (m' >>= f') := by
  refine ⟨fun s s' hs => ?_⟩
  have hagree := hm.agree s s' hs
  cases h : m s with
  | ok r =>
    cases h' : m' s' with
    | ok r' =>
      rw [h, h'] at hagree
      obtain ⟨ha, hr⟩ := hagree
      simp only [bind, h, h', ← ha]
      exact (hf r.1).agree r.2 r'.2 hr
    | error e' =>
      rw [h, h'] at hagree
      exact hagree.elim
  | error e =>
    cases h' : m' s' with
    | ok r' =>
      rw [h, h'] at hagree
      exact hagree.elim
    | error e' =>
      rw [h, h'] at hagree
      simp only [bind, h, h']
      exact hagree

protected theorem Twin.get {f f' : σ → Act ε σ β} (h : ∀ s s', R s s' → Twin R (f s) (f' s')) :
    Twin R (get >>= f) (get >>= f') :=
  ⟨fun s s' hs => (h s s' hs).agree s s' hs⟩

protected theorem Twin.ite {c : Prop} [Decidable c] {m m' n n' : Act ε σ α} (hm : Twin R m m')
    (hn : Twin R n n') : Twin R (if c then m else n) (if c then m' else n') := by
  split
  · exact hm
  · exact hn

protected theorem Twin.when {c : Prop} [Decidable c] {m m' : Act ε σ Unit} (hm : Twin R m m') :
    Twin R (when c m) (when c m') :=
  .ite hm .pure

/-- Actions on a part of the states, when the relation says so much about the
parts. -/
protected theorem Twin.within {part : σ → τ} {put : σ → τ → σ} {m m' : Act ε τ α} {S : τ → τ → Prop}
    (hm : Twin S m m') (hpart : ∀ s s', R s s' → S (part s) (part s'))
    (hput : ∀ s s' t t', R s s' → S t t' → R (put s t) (put s' t')) :
    Twin R (within part put m) (within part put m') := by
  refine ⟨fun s s' hs => ?_⟩
  have hagree := hm.agree _ _ (hpart s s' hs)
  unfold within
  cases h : m (part s) with
  | ok r =>
    cases h' : m' (part s') with
    | ok r' =>
      rw [h, h'] at hagree
      exact ⟨hagree.1, hput s s' r.2 r'.2 hs hagree.2⟩
    | error e' =>
      rw [h, h'] at hagree
      exact hagree.elim
  | error e =>
    cases h' : m' (part s') with
    | ok r' =>
      rw [h, h'] at hagree
      exact hagree.elim
    | error e' =>
      rw [h, h'] at hagree
      exact hagree

protected theorem Twin.iter {body body' : Nat → α → Act ε σ α} (h : ∀ i a, Twin R (body i a) (body' i a))
    (n i : Nat) (a : α) : Twin R (iter body n i a) (iter body' n i a) := by
  induction n generalizing i a with
  | zero => exact .pure
  | succ n ih => exact .bind (h i a) fun a' => ih (i + 1) a'

protected theorem Twin.loop {body body' : Nat → α → Act ε σ (α ⊕ β)}
    (h : ∀ i a, Twin R (body i a) (body' i a)) (n i : Nat) (a : α) :
    Twin R (loop body n i a) (loop body' n i a) := by
  induction n generalizing i a with
  | zero => exact .pure
  | succ n ih =>
    refine .bind (h i a) fun r => ?_
    cases r with
    | inl a' => exact ih (i + 1) a'
    | inr b => exact .pure

end Xv6.Lib.Act
