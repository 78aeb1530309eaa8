import Mathlib.Tactic.Common

/-!
# Actions over a state that may stop

`Act ε σ α` is a C function as the rest of the system sees it: it reads and
changes a state `σ`, and either returns an `α` or stops the machine with an
error `ε` (a kernel panic). Once it has stopped nothing runs any more, so
the state at that moment is not kept.

`wp m Q E s` says that `m` started in `s` returns with `Q` or stops with an
error in `E`. It is an equation in each of the constructors, so a proof
about a function is read off its text: `wp_bind` goes through its calls,
`wp_iter` and `wp_loop` take an invariant indexed by the number of rounds
done, and `wp_mono` plugs in what is known of a callee.

`within` runs an action on a part of the state. What such an action leaves
of the rest is then known without a proof. `Keeps view m` says that `m`
leaves alone what `view` shows of the state, and has a rule for each
constructor.
-/

namespace Xv6.Lib

/-- An action on the state `σ` that returns an `α` or stops with an `ε`. -/
def Act (ε σ α : Type) : Type := σ → Except ε (α × σ)

namespace Act

variable {ε σ τ α β : Type}

instance : Monad (Act ε σ) where
  pure a := fun s => .ok (a, s)
  bind m f := fun s =>
    match m s with
    | .ok (a, s') => f a s'
    | .error e => .error e

/-- The current state. -/
def get : Act ε σ σ := fun s => .ok (s, s)

/-- Change the state. -/
def modify (f : σ → σ) : Act ε σ Unit := fun s => .ok ((), f s)

/-- Stop the machine. -/
def panic (e : ε) : Act ε σ α := fun _ => .error e

/-- Run an action if a condition holds. -/
def when (c : Prop) [Decidable c] (m : Act ε σ Unit) : Act ε σ Unit := if c then m else pure ()

/-- Run an action on the part of the state that `part` selects. -/
def within (part : σ → τ) (put : σ → τ → σ) (m : Act ε τ α) : Act ε σ α := fun s =>
  match m (part s) with
  | .ok (a, t) => .ok (a, put s t)
  | .error e => .error e

/-- `n` rounds of a loop that carries a value, counted from `i`. -/
def iter (body : Nat → α → Act ε σ α) : Nat → Nat → α → Act ε σ α
  | 0, _, a => pure a
  | n + 1, i, a => do
    let a' ← body i a
    iter body n (i + 1) a'

/-- At most `n` rounds of a loop that carries a value, counted from `i`. A
round that gives `.inr b` leaves the loop with `b`. -/
def loop (body : Nat → α → Act ε σ (α ⊕ β)) : Nat → Nat → α → Act ε σ (α ⊕ β)
  | 0, _, a => pure (.inl a)
  | n + 1, i, a => do
    match ← body i a with
    | .inl a' => loop body n (i + 1) a'
    | .inr b => pure (.inr b)

/-! ## Weakest preconditions -/

/-- What `m` gave, an `α` and a state or an error, meets `Q` or `E`. -/
def Meets (Q : α → σ → Prop) (E : ε → Prop) : Except ε (α × σ) → Prop
  | .ok (a, s) => Q a s
  | .error e => E e

/-- From `s` the action returns with `Q` or stops with an error in `E`. -/
structure wp (m : Act ε σ α) (Q : α → σ → Prop) (E : ε → Prop) (s : σ) : Prop where
  meets : Meets Q E (m s)

variable {m m' : Act ε σ α} {f : α → Act ε σ β} {Q Q' : α → σ → Prop} {E E' : ε → Prop} {s s' : σ}
  {a : α} {c : Prop} [Decidable c] {part : σ → τ} {put : σ → τ → σ}

theorem wp_iff : wp m Q E s ↔ Meets Q E (m s) :=
  ⟨fun h => h.meets, fun h => ⟨h⟩⟩

theorem get_bind (f : σ → Act ε σ β) (s : σ) : (get >>= f) s = f s s := rfl

theorem bind_ok (h : m s = .ok (a, s')) (f : α → Act ε σ β) : (m >>= f) s = f a s' := by
  simp only [bind, h]

theorem ok_of_bind {r : β × σ}
    (h : (m >>= f) s = .ok r) : ∃ a s', m s = .ok (a, s') ∧ f a s' = .ok r := by
  simp only [bind] at h
  split at h
  · exact ⟨_, _, ‹_›, h⟩
  · exact absurd h (by simp)

/-- A run whose result passes a test has a result. -/
theorem ok_of_any {r : Except ε α} {test : α → Bool} (h : r.toOption.any test = true) :
    ∃ a, r = .ok a ∧ test a = true := by
  cases r with
  | error e => cases h
  | ok a => exact ⟨a, rfl, h⟩

/-- The run itself, as what is known of its end. -/
theorem wp_run : wp m (fun a s' => m s = .ok (a, s')) (fun _ => True) s := by
  rw [wp_iff]
  cases m s with
  | ok r => rfl
  | error e => trivial

theorem wp_pure : wp (pure a) Q E s ↔ Q a s := wp_iff

theorem wp_get {Q : σ → σ → Prop} : wp get Q E s ↔ Q s s := wp_iff

theorem wp_modify {f : σ → σ} {Q : Unit → σ → Prop} : wp (modify f) Q E s ↔ Q () (f s) := wp_iff

theorem wp_panic {e : ε} : wp (panic e) Q E s ↔ E e := wp_iff

theorem wp_bind {Q : β → σ → Prop} :
    wp (m >>= f) Q E s ↔ wp m (fun a s' => wp (f a) Q E s') E s := by
  rw [wp_iff, wp_iff]
  cases h : m s with
  | ok r =>
    simp only [bind, h, Meets]
    exact wp_iff.symm
  | error e => simp only [bind, h, Meets]

theorem wp_within {m : Act ε τ α} :
    wp (within part put m) Q E s ↔ wp m (fun a t => Q a (put s t)) E (part s) := by
  rw [wp_iff, wp_iff]
  unfold within
  cases h : m (part s) with
  | ok r => rfl
  | error e => rfl

/-- What is known of a callee is enough when it implies what is needed. -/
theorem wp_mono (h : wp m Q' E' s)
    (hQ : ∀ a s', Q' a s' → Q a s') (hE : ∀ e, E' e → E e) : wp m Q E s := by
  rw [wp_iff] at *
  cases hm : m s with
  | ok r =>
    rw [hm] at h
    exact hQ _ _ h
  | error e =>
    rw [hm] at h
    exact hE _ h

theorem wp_post (h : wp m Q' E s) (hQ : ∀ a s', Q' a s' → Q a s') : wp m Q E s :=
  wp_mono h hQ fun _ h => h

/-- What holds of the state when an action is done holds when its value is
returned. -/
theorem wp_ret {f : α → β} {P : σ → Prop} (h : wp m (fun _ => P) E s) :
    wp (m >>= fun a => pure (f a)) (fun _ => P) E s :=
  wp_bind.mpr (wp_post h fun _ _ h => wp_pure.mpr h)

/-- Two facts about one run. -/
theorem wp_and (h : wp m Q E s)
    (h' : wp m Q' E' s) : wp m (fun a s' => Q a s' ∧ Q' a s') (fun e => E e ∧ E' e) s := by
  rw [wp_iff] at *
  cases hm : m s with
  | ok r =>
    rw [hm] at h h'
    exact ⟨h, h'⟩
  | error e =>
    rw [hm] at h h'
    exact ⟨h, h'⟩

theorem wp_ok (h : wp m Q E s) (hm : m s = .ok (a, s')) : Q a s' := by
  rw [wp_iff] at h
  rw [hm] at h
  exact h

/-- The same, where the goal says what `Q` is. -/
@[elab_as_elim]
theorem ends_ok (a : α) (s' : σ) (hm : m s = .ok (a, s')) (h : wp m Q (fun _ => True) s) : Q a s' :=
  wp_ok h hm

theorem wp_error {e : ε} (h : wp m Q E s) (hm : m s = .error e) : E e := by
  rw [wp_iff] at h
  rw [hm] at h
  exact h

/-- An action that cannot stop with an error returns. -/
theorem wp_total (h : wp m Q (fun _ => False) s) : ∃ a s', m s = .ok (a, s') ∧ Q a s' := by
  cases hm : m s with
  | ok r => exact ⟨r.1, r.2, rfl, wp_ok h hm⟩
  | error e => exact (wp_error h hm).elim

/-- A branch is met when both of its arms are. -/
theorem wp_ite (ht : c → wp m Q E s) (hf : ¬c → wp m' Q E s) : wp (if c then m else m') Q E s := by
  by_cases hc : c
  · rw [if_pos hc]
    exact ht hc
  · rw [if_neg hc]
    exact hf hc

theorem wp_when {m : Act ε σ Unit} {Q : Unit → σ → Prop}
    (ht : c → wp m Q E s) (hf : ¬c → Q () s) : wp (when c m) Q E s :=
  wp_ite ht fun hc => wp_pure.mpr (hf hc)

/-- A loop keeps an invariant that every round passes on. -/
theorem wp_iter {body : Nat → α → Act ε σ α} (inv : Nat → α → σ → Prop) {n i : Nat} (h0 : inv i a s)
    (hstep : ∀ j a s, i ≤ j → j < i + n → inv j a s → wp (body j a) (inv (j + 1)) E s) :
    wp (iter body n i a) (inv (i + n)) E s := by
  induction n generalizing i a s with
  | zero => exact wp_pure.mpr h0
  | succ n ih =>
    rw [iter, wp_bind]
    refine wp_post (hstep i a s (Nat.le_refl _) (by omega) h0) ?_
    intro a' s' h'
    rw [show i + (n + 1) = i + 1 + n by omega]
    refine ih h' fun j a s hle hlt hinv => hstep j a s (by omega) (by omega) hinv

/-- A loop that may be left early: the invariant holds when all rounds are
done, and the round that leaves gives the result. -/
theorem wp_loop {body : Nat → α → Act ε σ (α ⊕ β)} {Q : α ⊕ β → σ → Prop}
    (inv : Nat → α → σ → Prop) {n i : Nat} (h0 : inv i a s)
    (hstep : ∀ j a s, i ≤ j → j < i + n → inv j a s →
      wp (body j a) (fun r s' => match r with
        | .inl a' => inv (j + 1) a' s'
        | .inr b => Q (.inr b) s') E s)
    (hend : ∀ a s, inv (i + n) a s → Q (.inl a) s) :
    wp (loop body n i a) Q E s := by
  induction n generalizing i a s with
  | zero => exact wp_pure.mpr (hend a s h0)
  | succ n ih =>
    rw [loop, wp_bind]
    refine wp_post (hstep i a s (Nat.le_refl _) (by omega) h0) ?_
    intro r s' h'
    cases r with
    | inl a' =>
      refine ih h' (fun j a s hle hlt hinv => hstep j a s (by omega) (by omega) hinv) ?_
      intro a s hinv
      exact hend a s (by rwa [show i + (n + 1) = i + 1 + n by omega])
    | inr b => exact wp_pure.mpr h'

theorem wp_any (hQ : ∀ a s', Q a s') (hE : ∀ e, E e) : wp m Q E s := by
  rw [wp_iff]
  cases m s with
  | ok r => exact hQ _ _
  | error e => exact hE e

/-! ## What an action passes on -/

/-- Unless it stops, the action started in `s` ends in a state in `I`. -/
abbrev Ends (m : Act ε σ α) (I : σ → Prop) (s : σ) : Prop :=
  wp m (fun _ s' => I s') (fun _ => True) s

/-- The action leads from states in `I` to states in `I`, unless it stops. -/
structure Stable (I : σ → Prop) (m : Act ε σ α) : Prop where
  stays : ∀ s, I s → wp m (fun _ s' => I s') (fun _ => True) s

section stable

variable {I : σ → Prop}

theorem Stable.wp (h : Stable I m) (hs : I s) (hQ : ∀ a s', I s' → Q a s') :
    wp m Q (fun _ => True) s :=
  wp_post (h.stays s hs) hQ

/-- What the action keeps may be used where it returns. -/
theorem Stable.assume (h : Stable I m) (hs : I s)
    (hm : Act.wp m (fun a s' => I s' → Q a s') (fun _ => True) s) : Act.wp m Q (fun _ => True) s :=
  wp_mono (wp_and hm (h.stays s hs)) (fun _ _ h => h.1 h.2) fun _ _ => trivial

protected theorem Stable.pure : Stable I (pure a : Act ε σ α) := ⟨fun _ hs => wp_pure.mpr hs⟩

protected theorem Stable.get : Stable I (get : Act ε σ σ) := ⟨fun _ hs => wp_get.mpr hs⟩

protected theorem Stable.panic {e : ε} : Stable I (panic e : Act ε σ α) := ⟨fun _ _ => wp_panic.mpr trivial⟩

protected theorem Stable.modify {f : σ → σ} (h : ∀ s, I s → I (f s)) :
    Stable I (modify f : Act ε σ Unit) := ⟨fun s hs => wp_modify.mpr (h s hs)⟩

protected theorem Stable.bind (hm : Stable I m)
    (hf : ∀ a, Stable I (f a)) : Stable I (m >>= f) := by
  refine ⟨fun s hs => ?_⟩
  rw [wp_bind]
  refine hm.wp hs (fun a s' hs' => ?_)
  exact (hf a).stays s' hs'

protected theorem Stable.ite (hm : Stable I m)
    (hm' : Stable I m') : Stable I (if c then m else m') := by
  split
  · exact hm
  · exact hm'

protected theorem Stable.when {m : Act ε σ Unit} (hm : Stable I m) : Stable I (when c m) :=
  .ite hm .pure

/-- An action on a part of the state, when the invariant says so much about
that part. -/
protected theorem Stable.within {m : Act ε τ α} {J : τ → Prop}
    (hm : Stable J m) (hpart : ∀ s, I s → J (part s)) (hput : ∀ s t, I s → J t → I (put s t)) :
    Stable I (within part put m) := by
  refine ⟨fun s hs => ?_⟩
  rw [wp_within]
  exact hm.wp (hpart s hs) (fun _ t ht => hput s t hs ht)

protected theorem Stable.iter {body : Nat → α → Act ε σ α} (h : ∀ i a, Stable I (body i a)) (n i : Nat)
    (a : α) : Stable I (iter body n i a) := by
  induction n generalizing i a with
  | zero => exact .pure
  | succ n ih => exact .bind (h i a) fun a' => ih (i + 1) a'

protected theorem Stable.loop {body : Nat → α → Act ε σ (α ⊕ β)} (h : ∀ i a, Stable I (body i a))
    (n i : Nat) (a : α) : Stable I (loop body n i a) := by
  induction n generalizing i a with
  | zero => exact .pure
  | succ n ih =>
    refine .bind (h i a) fun r => ?_
    cases r with
    | inl a' => exact ih (i + 1) a'
    | inr b => exact .pure

end stable

/-! ## What an action does not change -/

/-- The action leaves what `view` shows of the state as it is. -/
structure Keeps {β : Type*} (view : σ → β) (m : Act ε σ α) : Prop where
  stable : ∀ v, Stable (fun s => view s = v) m

section keeps

variable {δ : Type*} {view : σ → δ}

theorem Keeps.wp (h : Keeps view m) (hQ : ∀ a s', view s' = view s → Q a s') :
    wp m Q (fun _ => True) s :=
  (h.stable (view s)).wp rfl hQ

protected theorem Keeps.pure : Keeps view (pure a : Act ε σ α) := ⟨fun _ => .pure⟩

protected theorem Keeps.get : Keeps view (get : Act ε σ σ) := ⟨fun _ => .get⟩

protected theorem Keeps.panic {e : ε} : Keeps view (panic e : Act ε σ α) := ⟨fun _ => .panic⟩

protected theorem Keeps.modify {f : σ → σ} (h : ∀ s, view (f s) = view s) :
    Keeps view (modify f : Act ε σ Unit) := ⟨fun _ => .modify fun s hs => (h s).trans hs⟩

protected theorem Keeps.bind (hm : Keeps view m)
    (hf : ∀ a, Keeps view (f a)) : Keeps view (m >>= f) :=
  ⟨fun v => .bind (hm.stable v) fun a => (hf a).stable v⟩

protected theorem Keeps.ite (hm : Keeps view m)
    (hm' : Keeps view m') : Keeps view (if c then m else m') :=
  ⟨fun v => .ite (hm.stable v) (hm'.stable v)⟩

protected theorem Keeps.when {m : Act ε σ Unit} (hm : Keeps view m) : Keeps view (when c m) :=
  .ite hm .pure

protected theorem Keeps.within {m : Act ε τ α}
    (h : ∀ s t, view (put s t) = view s) : Keeps view (within part put m) := by
  refine ⟨fun v => ⟨fun s hs => ?_⟩⟩
  rw [wp_within]
  exact wp_any (fun _ t => (h s t).trans hs) (fun _ => trivial)

/-- An action on a part of the state keeps what depends on a view of the part
that it keeps. -/
protected theorem Keeps.within_of {γ : Type*} {m : Act ε τ α} {inner : τ → γ}
    (hm : Keeps inner m) (h : ∀ s t, inner t = inner (part s) → view (put s t) = view s) :
    Keeps view (within part put m) := by
  refine ⟨fun v => ⟨fun s hs => ?_⟩⟩
  rw [wp_within]
  exact hm.wp (fun _ t ht => (h s t ht).trans hs)

protected theorem Keeps.iter {body : Nat → α → Act ε σ α} (h : ∀ i a, Keeps view (body i a)) (n i : Nat)
    (a : α) : Keeps view (iter body n i a) :=
  ⟨fun v => .iter (fun i a => (h i a).stable v) n i a⟩

protected theorem Keeps.loop {body : Nat → α → Act ε σ (α ⊕ β)} (h : ∀ i a, Keeps view (body i a))
    (n i : Nat) (a : α) : Keeps view (loop body n i a) :=
  ⟨fun v => .loop (fun i a => (h i a).stable v) n i a⟩

/-- What keeps a view keeps what the view determines. -/
theorem Keeps.comp {γ : Type*} (h : Keeps view m) (g : δ → γ) : Keeps (g ∘ view) m :=
  ⟨fun _ => ⟨fun _ hs => h.wp (fun _ _ hs' => (congrArg g hs').trans hs)⟩⟩

/-- What depends only on a view that the action keeps is stable. -/
theorem Keeps.stable_of (h : Keeps view m) {I : σ → Prop}
    (hI : ∀ s s', view s' = view s → I s → I s') : Stable I m :=
  ⟨fun s hs => h.wp (fun _ s' hs' => hI s s' hs' hs)⟩

end keeps

end Act

end Xv6.Lib
