import Xv6.Sleep.Wakeup

/-!
# Sleep-locks

`acquiresleep` and `releasesleep` of `kernel/sleeplock.c` are a client of
`sleep` and `wakeup`: the shared state is `struct sleeplock`, the spinlock is
`lk->lk` and the condition that the lock is free. The ghost `inside` has the
processes that have set `lk->locked` in `acquiresleep` and not cleared it in
`releasesleep`.

At the end, the two facts that everything which sleeps in the kernel rests on:
no client that wakes up its sleepers strands one of them, and a sleep-lock
excludes.
-/

namespace Xv6.Sleep

open Xv6.Lib.Trans Function

/-! ## `struct sleeplock` -/

structure Lock where
  locked : Bool
  pid : Int
  inside : Nat → Bool

inductive LockOp where
  | acquiresleep
  | releasesleep
  deriving DecidableEq, Repr

namespace Lock

/-- `lk->locked = 1`. -/
def lock (p : Nat) : Instr Lock :=
  .set fun l => some ({ l with locked := true, inside := Function.update l.inside p true }, false)

/-- `lk->locked = 0`. -/
def unlock (p : Nat) : Instr Lock :=
  .set fun l => some ({ l with locked := false, inside := Function.update l.inside p false }, false)

/-- `lk->pid = pid`. -/
def setPid (pid : Int) (wakeup : Bool) : Instr Lock := .set fun l => some ({ l with pid }, wakeup)

/-- `pid` has the process ids. -/
def client (pid : Nat → Int) : Client Lock where
  Op := LockOp
  code
    | p, .acquiresleep => [.wait, lock p, setPid (pid p) false]
    | p, .releasesleep => [unlock p, setPid 0 true]
  ready
    | p, .acquiresleep, l => !l.inside p
    | p, .releasesleep, l => l.inside p
  cond l := !l.locked
  Free := Empty
  free _ f _ := nomatch f

/-- After `initsleeplock`. -/
def init : Lock := ⟨false, 0, fun _ => false⟩

/-- Who is inside has the lock, and is alone. -/
structure Inv (l : Lock) : Prop where
  locked : ∀ p, l.inside p = true → l.locked = true
  alone : ∀ p q, l.inside p = true → l.inside q = true → p = q

/-- The assertions of `acquiresleep` and `releasesleep`. -/
inductive Pre (pid : Nat → Int) (p : Nat) : List (Instr Lock) → Lock → Prop where
  | acquire (l : Lock) : Pre pid p [.wait, lock p, setPid (pid p) false] l
  | free (l : Lock) (h : l.locked = false) : Pre pid p [lock p, setPid (pid p) false] l
  | taken (l : Lock) : Pre pid p [setPid (pid p) false] l
  | release (l : Lock) (h : l.inside p = true) : Pre pid p [unlock p, setPid 0 true] l
  | freed (l : Lock) : Pre pid p [setPid 0 true] l
  | done (l : Lock) : Pre pid p [] l

theorem inv_init : init.Inv := ⟨nofun, nofun⟩

theorem inv_lock {l : Lock} {p : Nat} (h : l.Inv) (hfree : l.locked = false) :
    Inv { l with locked := true, inside := update l.inside p true } := by
  have hnone : ∀ q, l.inside q ≠ true := fun q hq =>
    absurd (hfree.symm.trans (h.locked q hq)) Bool.false_ne_true
  have hself : ∀ q, update l.inside p true q = true → q = p := fun q hq => by
    by_contra hne
    rw [update_of_ne hne] at hq
    exact hnone q hq
  refine ⟨fun _ _ => rfl, fun q r hq hr => ?_⟩
  rw [hself q hq, hself r hr]

theorem inv_unlock {l : Lock} {p : Nat} (h : l.Inv) (hp : l.inside p = true) :
    Inv { l with locked := false, inside := update l.inside p false } := by
  have hnone : ∀ q, update l.inside p false q ≠ true := fun q hq => by
    by_cases hne : q = p
    · subst hne
      rw [update_self] at hq
      cases hq
    · rw [update_of_ne hne] at hq
      exact hne (h.alone q p hq hp)
  exact ⟨fun q hq => absurd hq (hnone q), fun q _ hq => absurd hq (hnone q)⟩

/-- What an update does to a free lock, and whether it calls `wakeup`. -/
def probe : Instr Lock → Option (Bool × Bool)
  | .wait => none
  | .set f => (f init).map fun r => (r.1.locked, r.2)

theorem lock_ne_unlock (p q : Nat) : lock p ≠ unlock q := fun heq => by
  have hprobe : some (true, false) = some (false, false) := congrArg probe heq
  cases hprobe

theorem setPid_ne (x y : Int) : setPid x false ≠ setPid y true := fun heq => by
  have hprobe : some (false, false) = some (false, true) := congrArg probe heq
  cases hprobe

/-- An update of `p` spares what the processes without `lk->lk` rely on. -/
theorem Pre.stable {pid : Nat → Int} {l l' : Lock} {p q : Nat} {code : List (Instr Lock)}
    (h : Pre pid q code l) (houter : Outer (client pid) q code)
    (hinside : q ≠ p → l'.inside q = l.inside q) (hq : q ≠ p) : Pre pid q code l' := by
  cases h with
  | acquire => exact .acquire l'
  | taken => exact .taken l'
  | freed => exact .freed l'
  | done => exact .done l'
  | release _ hin => exact .release l' ((hinside hq).trans hin)
  | free =>
    -- `acquiresleep` is here only with the lock
    rcases houter with ⟨op, hop⟩ | ⟨rest, hrest⟩
    · cases op with
      | acquiresleep => cases hop
      | releasesleep => exact absurd (List.cons.inj hop).1 (lock_ne_unlock q q)
    · cases hrest

def outline (pid : Nat → Int) : Outline (client pid) init where
  inv := Inv
  pre := Pre pid
  owes code := code = [setPid 0 true]
  start := inv_init
  call := by
    intro p op l _ hready
    cases op with
    | acquiresleep => exact .acquire l
    | releasesleep => exact .release l hready
  wait := by
    intro p code l _ hpre hcond
    cases hpre with
    | acquire => exact .free l (by simpa [client] using hcond)
  set := by
    intro p f code l l' b hinv hpre hf
    cases hpre with
    | free _ hfree =>
      cases hf
      exact ⟨inv_lock hinv hfree, .taken _⟩
    | taken =>
      cases hf
      exact ⟨⟨hinv.locked, hinv.alone⟩, .done _⟩
    | release _ hin =>
      cases hf
      exact ⟨inv_unlock hinv hin, .freed _⟩
    | freed =>
      cases hf
      exact ⟨⟨hinv.locked, hinv.alone⟩, .done _⟩
  wakes := by
    intro p f code l l' b _ hpre hf hcase
    cases hpre with
    | free =>
      cases hf
      rcases hcase with ⟨-, hcond⟩ | howes
      · cases hcond
      · exact absurd (List.cons.inj howes).2 (List.cons_ne_nil _ _)
    | taken =>
      cases hf
      rcases hcase with ⟨hcond, hcond'⟩ | howes
      · exact absurd (hcond.symm.trans hcond') Bool.false_ne_true
      · exact absurd (List.cons.inj howes).1 (setPid_ne _ _)
    | release =>
      cases hf
      exact .inr rfl
    | freed =>
      cases hf
      exact .inl rfl
  owes_nil := nofun
  owes_wait := nofun
  stable := by
    intro p f code l l' b q code' _ hpre hf hq houter hpre'
    refine hpre'.stable houter (fun _ => ?_) hq
    cases hpre with
    | free =>
      cases hf
      exact Function.update_of_ne hq _ _
    | taken =>
      cases hf
      rfl
    | release =>
      cases hf
      exact Function.update_of_ne hq _ _
    | freed =>
      cases hf
      rfl
  free := by
    intro p f
    cases f

/-- Two processes are never inside together. -/
def Excludes (w : World Lock) : Prop :=
  ∀ p q, w.shared.inside p = true → w.shared.inside q = true → p = q

end Lock

/-- `sleep` and `wakeup` lose no wakeup, for any client that calls `wakeup`
when it makes the condition true; and sleep-locks built on them exclude, and
leave nobody asleep on a lock that is free. -/
theorem sleep_wakeup (n : Nat) :
    (∀ (S : Type) (c : Client S) (inv : S → Prop) (s₀ : S), inv s₀ → c.Wakes inv →
      ∀ w, Reach (next c n) (fun _ _ => True) (start s₀) w → w.NobodySleeps c) ∧
    ∀ (pid : Nat → Int) (w : World Lock),
      Reach (next (Lock.client pid) n) (fun _ _ => True) (start Lock.init) w →
        Lock.Excludes w ∧ w.NobodySleeps (Lock.client pid) := by
  constructor
  · intro S c inv s₀ hs₀ hwakes w hreach
    exact (World.reach_ok (hwakes.outline hs₀) hreach).nobodySleeps
  · intro pid w hreach
    have hok := World.reach_ok (Lock.outline pid) hreach
    have hinv : w.shared.Inv := hok.inv
    exact ⟨hinv.alone, hok.nobodySleeps⟩

/-- Process 0 has the lock, process 1 sleeps on it and is woken up. -/
def handOver : List (Event (Lock.client fun p => p)) :=
  [.call 0 .acquiresleep] ++ List.replicate 5 (.step 0) ++ [.call 1 .acquiresleep] ++
    List.replicate 7 (.step 1) ++ [.call 0 .releasesleep] ++ List.replicate 11 (.step 0) ++
    [.schedLock 1, .schedTest 1] ++ List.replicate 6 (.step 1)

theorem sleep_wakeup_handOver :
    ∃ w, Reach (next (Lock.client fun p => p) 2) (fun _ _ => True) (start Lock.init) w ∧
      w.shared.inside 1 = true ∧ w.shared.inside 0 ≠ true := by
  have hrun : ((follow (next (Lock.client fun p => p) 2) (fun _ _ => true) handOver
      (start Lock.init)).any fun w => w.shared.inside 1) = true := by
    decide +kernel
  obtain ⟨w, hreach, hin⟩ := Reach.of_any hrun
  refine ⟨w, hreach, hin, fun hzero => ?_⟩
  exact absurd (((sleep_wakeup 2).2 _ w hreach).1 0 1 hzero hin) (by decide)

end Xv6.Sleep
