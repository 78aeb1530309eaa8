import Mathlib.Tactic.Common

/-!
# Programs that can lose power

A program over a state `σ` that reads the state, changes it, and changes its
durable part one atomic write at a time. Power may go between two durable
writes and nowhere else: a change of the volatile part that power loss
would undo is not a point where a crash can be told apart from a crash one
durable write earlier.

`Prog` is the syntax, so that a program translated from C keeps the shape
of the C function, and `run` is the meaning. `run p s power` counts the
durable writes down: with `power = some k` the power goes right before the
durable write number `k`, counted from zero, and with `none` it never goes.

`Triple` is partial correctness with two extra postconditions, one for a
program that stops by itself (a panic) and one for the state at the moment
the power goes. `triple_bind`, `triple_commit` and `triple_forTo` are the
rules the proofs use: a loop is proved by an invariant indexed by the loop
counter, and the crash condition is the same at every point of the loop.
-/

namespace Xv6.Lib.Crash

/-- A program with durable writes. `halt` stops the machine with an error,
`change` updates the state without a durable write, and `persist` is one
atomic durable write. -/
inductive Prog (ε σ α : Type) : Type where
  | pure (a : α)
  | halt (e : ε)
  | read (next : σ → Prog ε σ α)
  | change (f : σ → σ) (next : Prog ε σ α)
  | persist (f : σ → σ) (next : Prog ε σ α)

/-- How a run ends: with a result and the power that is left, stopped by
itself, or without power. -/
inductive Outcome (ε σ α : Type) : Type where
  | done (a : α) (s : σ) (power : Option Nat)
  | halted (e : ε) (s : σ)
  | lost (s : σ)

namespace Prog

variable {ε σ α β : Type}

/-- Run `p` and continue with its result. -/
def bind : Prog ε σ α → (α → Prog ε σ β) → Prog ε σ β
  | .pure a, f => f a
  | .halt e, _ => .halt e
  | .read next, f => .read (fun s => (next s).bind f)
  | .change g next, f => .change g (next.bind f)
  | .persist g next, f => .persist g (next.bind f)

instance : Monad (Prog ε σ) where
  pure := Prog.pure
  bind := Prog.bind

/-- The current state. -/
def get : Prog ε σ σ := .read .pure

/-- A change of the state that is no durable write. -/
def modify (f : σ → σ) : Prog ε σ Unit := .change f (.pure ())

/-- One atomic durable write. -/
def commit (f : σ → σ) : Prog ε σ Unit := .persist f (.pure ())

/-- `for (i = 0; i < n; i++) body(i)`. -/
def forTo (n : Nat) (body : Nat → Prog ε σ Unit) : Prog ε σ Unit :=
  go n 0
where
  /-- The `left` remaining turns of the loop, from turn `i` on. -/
  go : Nat → Nat → Prog ε σ Unit
    | 0, _ => .pure ()
    | left + 1, i => (body i).bind fun _ => go left (i + 1)

/-- `for (x in xs) body(x)`. -/
def forEach {γ : Type} : List γ → (γ → Prog ε σ Unit) → Prog ε σ Unit
  | [], _ => .pure ()
  | x :: xs, body => (body x).bind fun _ => forEach xs body

/-- The meaning of a program. -/
def run : Prog ε σ α → σ → Option Nat → Outcome ε σ α
  | .pure a, s, power => .done a s power
  | .halt e, s, _ => .halted e s
  | .read next, s, power => (next s).run s power
  | .change f next, s, power => next.run (f s) power
  | .persist _ _, s, some 0 => .lost s
  | .persist f next, s, some (k + 1) => next.run (f s) (some k)
  | .persist f next, s, none => next.run (f s) none

/-- Continue a finished run; a run that stopped stays as it is. -/
def Outcome.andThen (o : Outcome ε σ α) (f : α → σ → Option Nat → Outcome ε σ β) :
    Outcome ε σ β :=
  match o with
  | .done a s power => f a s power
  | .halted e s => .halted e s
  | .lost s => .lost s

theorem run_bind (p : Prog ε σ α) (f : α → Prog ε σ β) (s : σ) (power : Option Nat) :
    (p.bind f).run s power =
      Outcome.andThen (p.run s power) (fun a s' power' => (f a).run s' power') := by
  induction p generalizing s power with
  | pure a => rfl
  | halt e => rfl
  | read next ih => exact ih s s power
  | change g next ih => exact ih (g s) power
  | persist g next ih =>
    match power with
    | some 0 => rfl
    | some (k + 1) => exact ih (g s) (some k)
    | none => exact ih (g s) none

/-- What follows a program that stops is not run. -/
theorem run_bind_halted {p : Prog ε σ α} {f : α → Prog ε σ β} {s s' : σ} {e : ε}
    {power : Option Nat} (h : p.run s power = .halted e s') :
    (p >>= f).run s power = .halted e s' := by
  change (p.bind f).run s power = _
  rw [run_bind, h]
  rfl

/-- With unlimited power the power is never lost. -/
theorem run_none_ne_lost (p : Prog ε σ α) (s s' : σ) : p.run s none ≠ .lost s' := by
  induction p generalizing s with
  | pure a => simp [run]
  | halt e => simp [run]
  | read next ih => exact ih s s
  | change g next ih => exact ih (g s)
  | persist g next ih => exact ih (g s)

/-- Unlimited power stays unlimited. -/
theorem run_none_power (p : Prog ε σ α) {s s' : σ} {a : α} {power : Option Nat}
    (h : p.run s none = .done a s' power) : power = none := by
  induction p generalizing s with
  | pure b => simp only [run, Outcome.done.injEq] at h; exact h.2.2.symm
  | halt e => simp [run] at h
  | read next ih => exact ih s h
  | change g next ih => exact ih h
  | persist g next ih => exact ih h

end Prog

open Prog (run_bind forTo forEach)

section Triple

variable {ε σ α β γ : Type}

/-- What a run promises of its three endings. -/
def Outcome.Sat (o : Outcome ε σ α) (Q : α → σ → Prop) (H C : σ → Prop) : Prop :=
  match o with
  | .done a s _ => Q a s
  | .halted _ s => H s
  | .lost s => C s

/-- From a state with `P`, a run of `p` that ends does so in `Q`, one that
stops by itself does so in `H`, and one that loses power does so in `C`. -/
def Triple (P : σ → Prop) (p : Prog ε σ α) (Q : α → σ → Prop) (H C : σ → Prop) : Prop :=
  ∀ s power, P s → Outcome.Sat (p.run s power) Q H C

variable {P P' H C : σ → Prop}

/-- Weaken the postcondition and strengthen the precondition. -/
theorem triple_conseq {p : Prog ε σ α} {Q Q' : α → σ → Prop} (h : Triple P' p Q' H C)
    (hP : ∀ s, P s → P' s) (hQ : ∀ a s, Q' a s → Q a s) : Triple P p Q H C := by
  intro s power hs
  have hsat := h s power (hP s hs)
  revert hsat
  cases p.run s power with
  | done a s' power' => exact hQ a s'
  | halted e s' => exact id
  | lost s' => exact id

variable {Q : α → σ → Prop}

/-- A triple holds if it holds of each state of the precondition alone. -/
theorem triple_forall {p : Prog ε σ α}
    (h : ∀ s, P s → Triple (fun s' => s' = s) p Q H C) : Triple P p Q H C :=
  fun s power hs => h s hs s power rfl

theorem triple_pure {a : α} (h : ∀ s, P s → Q a s) : Triple P (pure a : Prog ε σ α) Q H C :=
  fun s _ hs => h s hs

theorem triple_halt {e : ε} (h : ∀ s, P s → H s) : Triple P (Prog.halt e : Prog ε σ α) Q H C :=
  fun s _ hs => h s hs

variable {R : β → σ → Prop}

/-- Sequencing: the middle condition may depend on the result. -/
theorem triple_bind {p : Prog ε σ α} {f : α → Prog ε σ β}
    (hp : Triple P p Q H C) (hf : ∀ a, Triple (Q a) (f a) R H C) : Triple P (p >>= f) R H C := by
  intro s power hs
  have hsat := hp s power hs
  show Outcome.Sat ((p.bind f).run s power) R H C
  rw [run_bind]
  revert hsat
  cases p.run s power with
  | done a s' power' => exact fun hq => hf a s' power' hq
  | halted e s' => exact id
  | lost s' => exact id

/-- Reading the state hands it to the rest of the program. -/
theorem triple_get {f : σ → Prog ε σ β}
    (h : ∀ s, P s → Triple (fun s' => s' = s) (f s) R H C) : Triple P (Prog.get >>= f) R H C :=
  fun s power hs => h s hs s power rfl

/-- Reading the state keeps what is known of it. -/
theorem triple_read {f : σ → Prog ε σ β}
    (h : ∀ s, P s → Triple P (f s) R H C) : Triple P (Prog.get >>= f) R H C :=
  fun s power hs => h s hs s power hs

theorem triple_modify {g : σ → σ} {Q : Unit → σ → Prop} (h : ∀ s, P s → Q () (g s)) :
    Triple P (Prog.modify g : Prog ε σ Unit) Q H C :=
  fun s _ hs => h s hs

/-- A durable write: the crash condition has to hold right before it. -/
theorem triple_commit {g : σ → σ} {Q : Unit → σ → Prop} (hC : ∀ s, P s → C s)
    (h : ∀ s, P s → Q () (g s)) : Triple P (Prog.commit g : Prog ε σ Unit) Q H C := by
  intro s power hs
  match power with
  | some 0 => exact hC s hs
  | some (k + 1) => exact h s hs
  | none => exact h s hs

/-- A loop with an invariant indexed by the counter. -/
theorem triple_forTo {n : Nat} {body : Nat → Prog ε σ Unit} (Inv : Nat → σ → Prop)
    (h : ∀ i < n, Triple (Inv i) (body i) (fun _ => Inv (i + 1)) H C) :
    Triple (Inv 0) (forTo n body) (fun _ => Inv n) H C := by
  have hgo : ∀ left i, i + left = n →
      Triple (Inv i) (forTo.go body left i) (fun _ => Inv n) H C := by
    intro left
    induction left with
    | zero =>
      intro i hi
      have hin : i = n := by omega
      subst hin
      exact triple_pure (fun s hs => hs)
    | succ left ih =>
      intro i hi
      exact triple_bind (h i (by omega)) (fun _ => ih (i + 1) (by omega))
  exact hgo n 0 (by omega)

/-- A loop over a list with an invariant indexed by the elements already
handled. -/
theorem triple_forEach {xs : List γ} {body : γ → Prog ε σ Unit} (Inv : List γ → σ → Prop)
    (h : ∀ done x rest, xs = done ++ x :: rest →
      Triple (Inv done) (body x) (fun _ => Inv (done ++ [x])) H C) :
    Triple (Inv []) (forEach xs body) (fun _ => Inv xs) H C := by
  have hgo : ∀ rest done, xs = done ++ rest →
      Triple (Inv done) (forEach rest body) (fun _ => Inv xs) H C := by
    intro rest
    induction rest with
    | nil =>
      intro done hxs
      have hdone : xs = done := by simpa using hxs
      rw [hdone]
      exact triple_pure (fun s hs => hs)
    | cons x rest ih =>
      intro done hxs
      exact triple_bind (h done x rest hxs) (fun _ => ih (done ++ [x]) (by simp [hxs]))
  exact hgo xs [] rfl

end Triple

section Keeps

variable {ε σ α β ν : Type} {view : σ → ν}

/-- A run of `p` with unlimited power that ends leaves `view` as it was. -/
def Keeps (view : σ → ν) (p : Prog ε σ α) : Prop :=
  ∀ v, Triple (fun s => view s = v) p (fun _ s => view s = v) (fun _ => True) (fun _ => True)

theorem keeps_pure (a : α) : Keeps view (pure a : Prog ε σ α) :=
  fun _ => triple_pure fun _ hs => hs

theorem keeps_bind {p : Prog ε σ α} {f : α → Prog ε σ β} (hp : Keeps view p)
    (hf : ∀ a, Keeps view (f a)) : Keeps view (p >>= f) :=
  fun v => triple_bind (hp v) fun a => hf a v

theorem keeps_get {f : σ → Prog ε σ β} (hf : ∀ s, Keeps view (f s)) : Keeps view (Prog.get >>= f) :=
  fun v => triple_read fun s _ => hf s v

theorem keeps_modify {g : σ → σ} (h : ∀ s, view (g s) = view s) :
    Keeps view (Prog.modify g : Prog ε σ Unit) :=
  fun _ => triple_modify fun s hs => (h s).trans hs

theorem keeps_commit {g : σ → σ} (h : ∀ s, view (g s) = view s) :
    Keeps view (Prog.commit g : Prog ε σ Unit) :=
  fun _ => triple_commit (fun _ _ => trivial) fun s hs => (h s).trans hs

theorem keeps_forTo {n : Nat} {body : Nat → Prog ε σ Unit} (h : ∀ i, Keeps view (body i)) :
    Keeps view (forTo n body) :=
  fun v => triple_forTo (fun _ s => view s = v) fun i _ => h i v

/-- What a program keeps, it keeps a part of. -/
theorem Keeps.comp {μ : Type} {p : Prog ε σ α} (h : Keeps view p) (f : ν → μ) :
    Keeps (fun s => f (view s)) p := by
  intro w
  refine triple_forall fun s hs => ?_
  refine triple_conseq (h (view s)) ?_ ?_
  · rintro s' rfl
    rfl
  · intro _ s' hs'
    exact (congrArg f hs').trans hs

theorem Keeps.of_run {p : Prog ε σ α} {s s' : σ} {a : α} {power power' : Option Nat}
    (h : Keeps view p) (hrun : p.run s power = .done a s' power') : view s' = view s := by
  have hsat := h (view s) s power rfl
  rw [hrun] at hsat
  exact hsat

end Keeps

end Xv6.Lib.Crash
