import Xv6.Sched.Tree

/-!
# No parent sleeps over a dead child

`wait` holds `p->lock` from its scan of the table to its `sleep`, and `exit`
turns into a zombie under the lock of its parent, whom it wakes up. The parent
that `exit` locks is the one that it read some time before. It can only have
changed to the first process since then, because only a parent gives its
children away and it gives them to the first process; so for every other parent
it is the right one.

`Watch` is what each process relies on at its place in the code, and `Spares`
what an event leaves alone of it.
-/

namespace Xv6.Sched

open Xv6.Lib.Trans Function

variable {pc : Pc} {f : Proc → Proc} {n : Nat}

/-! ## What a place in the code relies on -/

/-- The parent that `exit` has read. -/
def Pc.origin : Pc → Option Nat
  | .exitLockParent _ q | .exitLock _ q | .reparent _ q _ | .reparentLock _ q _ => some q
  | _ => none

/-- The parent that `exit` has locked. -/
def Pc.heldOrigin : Pc → Option Nat
  | .exitLock _ q | .reparent _ q _ | .reparentLock _ q _ => some q
  | _ => none

/-- How many slots a scan of `wait` has looked at. -/
def Pc.scan : Pc → Option Nat
  | .wait _ _ i | .waitLockChild _ i => some i
  | _ => none

/-- The scan of `wait` has found a child. -/
def Pc.foundKid : Pc → Bool
  | .wait _ havekids _ => havekids
  | _ => false

def Pc.inSleep : Pc → Bool
  | .waitSleep _ => true
  | _ => false

/-- None of the above. -/
def Pc.plain : Pc → Bool
  | .user | .allocproc _ | .kill _ _ | .exitWakeInit _ | .exitParent _ | .waitLock _ => true
  | _ => false

/-- What process `p` relies on. -/
structure Table.Watch (t : Table) (p : Nat) : Prop where
  dead : (t.proc p).state = .unused ∨ (t.proc p).state = .zombie → (t.proc p).pc = .user
  origin : ∀ q, (t.proc p).pc.origin = some q →
    (t.proc p).parent = some q ∨ (t.proc p).parent = some initproc
  held : ∀ q, (t.proc p).pc.heldOrigin = some q →
    (t.proc p).state = .running ∧ (t.proc q).lock = some p
  own : ∀ n, (t.proc p).pc.scan = some n → (t.proc p).state = .running ∧ (t.proc p).lock = some p
  seen : ∀ n, (t.proc p).pc.scan = some n → p ≠ initproc →
    ∀ i, i < n → (t.proc i).parent = some p → (t.proc i).state ≠ .zombie
  kid : (t.proc p).pc.foundKid = true → p ≠ initproc → ∃ i, (t.proc i).parent = some p
  asleep : (t.proc p).pc.inSleep = true → p ≠ initproc → (t.proc p).state = .sleeping →
    (t.proc p).chan = some (.proc p) ∧ (∃ i, (t.proc i).parent = some p) ∧
      ∀ i, (t.proc i).parent = some p → (t.proc i).state ≠ .zombie

/-- The process looks for dead children, or sleeps until one dies. -/
def Table.Looks (t : Table) (q : Nat) : Prop :=
  (t.proc q).pc.scan ≠ none ∨ (t.proc q).pc.inSleep = true ∧ (t.proc q).state = .sleeping

/-- What an event leaves alone of what `q` relies on. -/
structure Table.Spares (t t' : Table) (q : Nat) : Prop where
  pc : (t'.proc q).pc = (t.proc q).pc
  state : (t'.proc q).state = (t.proc q).state ∨
    (t.proc q).state = .sleeping ∧ (t'.proc q).state = .runnable
  chan : (t'.proc q).chan = (t.proc q).chan
  parent : (t'.proc q).parent = (t.proc q).parent ∨ (t'.proc q).parent = some initproc
  locks : ∀ r, (t.proc r).lock = some q → (t'.proc r).lock = some q
  kids : q ≠ initproc → ∀ i, (t'.proc i).parent = some q ↔ (t.proc i).parent = some q
  zombies : q ≠ initproc → t.Looks q → ∀ i, (t'.proc i).parent = some q →
    (t'.proc i).state = .zombie → (t.proc i).state = .zombie

section watch

variable {t t' t1 : Table} {p q i : Nat} {pr : Proc}

theorem setProc_proc_self (t : Table) (p : Nat) (f : Proc → Proc) :
    (t.setProc p f).proc p = f (t.proc p) :=
  update_self _ _ _

theorem setProc_proc_of_ne (t : Table) {p q : Nat} (f : Proc → Proc) (h : q ≠ p) :
    (t.setProc p f).proc q = t.proc q :=
  update_of_ne h _ _

/-- What holds of the slot that changes, and of the others as they were, holds of all. -/
theorem setProc_cases {P : Nat → Proc → Prop} (hi : P i (f (t.proc i))) (h : ∀ j, P j (t.proc j))
    (j : Nat) : P j ((t.setProc i f).proc j) := by
  by_cases hj : j = i
  · subst hj
    rwa [setProc_proc_self]
  · rw [setProc_proc_of_ne _ _ hj]
    exact h j

/-- What a change of one slot leaves alone there, it leaves alone. -/
theorem setProc_field {α : Type} (field : Proc → α) (h : field (f (t.proc i)) = field (t.proc i))
    (j : Nat) : field ((t.setProc i f).proc j) = field (t.proc j) :=
  setProc_cases (P := fun j pr => field pr = field (t.proc j)) h (fun _ => rfl) j

theorem goto_proc_self (t : Table) (p : Nat) (pc : Pc) :
    (t.goto p pc).proc p = { t.proc p with pc := pc } :=
  setProc_proc_self ..

theorem goto_parent (t : Table) (p : Nat) (pc : Pc) (i : Nat) :
    ((t.goto p pc).proc i).parent = (t.proc i).parent :=
  setProc_field Proc.parent rfl i

theorem goto_lock (t : Table) (p : Nat) (pc : Pc) (i : Nat) :
    ((t.goto p pc).proc i).lock = (t.proc i).lock :=
  setProc_field Proc.lock rfl i

theorem not_dead {state : PState} {P : Prop} (h : state = .running)
    (hdead : state = .unused ∨ state = .zombie) : P := by
  rw [h] at hdead
  exact absurd hdead (by decide)

theorem Table.Spares.running (s : t.Spares t' q) (h : (t.proc q).state = .running) :
    (t'.proc q).state = .running := by
  rcases s.state with hsame | ⟨hsleep, -⟩
  · exact hsame.trans h
  · exact absurd (hsleep.symm.trans h) (by decide)

theorem Table.Watch.frame (h : t.Watch q) (s : t.Spares t' q) : t'.Watch q where
  dead hdead := by
    rw [s.pc]
    rcases s.state with hsame | ⟨-, hrun⟩
    · rw [hsame] at hdead
      exact h.dead hdead
    · rw [hrun] at hdead
      exact absurd hdead (by decide)
  origin r hr := by
    rw [s.pc] at hr
    rcases s.parent with hsame | hinit
    · rw [hsame]
      exact h.origin r hr
    · exact .inr hinit
  held r hr := by
    rw [s.pc] at hr
    exact (h.held r hr).imp s.running (s.locks r)
  own n hn := by
    rw [s.pc] at hn
    exact (h.own n hn).imp s.running (s.locks q)
  seen n hn hinit i hi hchild hzombie := by
    rw [s.pc] at hn
    exact h.seen n hn hinit i hi ((s.kids hinit i).mp hchild)
      (s.zombies hinit (.inl (by rw [hn]; nofun)) i hchild hzombie)
  kid hkid hinit := by
    rw [s.pc] at hkid
    obtain ⟨i, hi⟩ := h.kid hkid hinit
    exact ⟨i, (s.kids hinit i).mpr hi⟩
  asleep hpc hinit hsleep := by
    rw [s.pc] at hpc
    have hsleep' : (t.proc q).state = .sleeping := by
      rcases s.state with hsame | ⟨-, hrun⟩
      · exact hsame.symm.trans hsleep
      · exact absurd (hrun.symm.trans hsleep) (by decide)
    obtain ⟨hchan, ⟨i, hi⟩, hnone⟩ := h.asleep hpc hinit hsleep'
    refine ⟨s.chan.trans hchan, ⟨i, (s.kids hinit i).mpr hi⟩, fun j hj hzombie => ?_⟩
    exact hnone j ((s.kids hinit j).mp hj) (s.zombies hinit (.inr ⟨hpc, hsleep'⟩) j hj hzombie)

theorem Table.Watch.of_exit (hself : t.proc p = pr) (hscan : pr.pc.scan = none)
    (hkid : pr.pc.foundKid = false) (hsleep : pr.pc.inSleep = false)
    (hdead : pr.state = .unused ∨ pr.state = .zombie → pr.pc = .user)
    (horigin : ∀ q, pr.pc.origin = some q → pr.parent = some q ∨ pr.parent = some initproc)
    (hheld : ∀ q, pr.pc.heldOrigin = some q →
      pr.state = .running ∧ (t.proc q).lock = some p) : t.Watch p := by
  subst hself
  constructor
  case dead => exact hdead
  case origin => exact horigin
  case held => exact hheld
  case own => exact fun n hn => absurd (hscan.symm.trans hn) (by simp)
  case seen => exact fun n hn => absurd (hscan.symm.trans hn) (by simp)
  case kid => exact fun h => absurd (hkid.symm.trans h) (by simp)
  case asleep => exact fun h => absurd (hsleep.symm.trans h) (by simp)

theorem Pc.plain_cases (h : pc.plain = true) :
    pc.origin = none ∧ pc.heldOrigin = none ∧ pc.scan = none ∧ pc.foundKid = false ∧
      pc.inSleep = false := by
  cases pc <;> first | exact ⟨rfl, rfl, rfl, rfl, rfl⟩ | cases h

theorem Table.Watch.of_plain (hself : t.proc p = pr) (hpc : pr.pc.plain = true)
    (hdead : pr.state = .unused ∨ pr.state = .zombie → pr.pc = .user) : t.Watch p := by
  obtain ⟨horigin, hheld, hscan, hkid, hsleep⟩ := Pc.plain_cases hpc
  refine .of_exit hself hscan hkid hsleep hdead (fun q hq => ?_) fun q hq => ?_
  · exact absurd (horigin.symm.trans hq) (by simp)
  · exact absurd (hheld.symm.trans hq) (by simp)

theorem Table.Watch.of_user (hpc : (t.proc p).pc = .user) : t.Watch p :=
  .of_plain rfl (by rw [hpc]; rfl) fun _ => hpc

theorem spares_of_proc (h : t'.proc = t.proc) : t.Spares t' q where
  pc := by rw [h]
  state := .inl (by rw [h])
  chan := by rw [h]
  parent := .inl (by rw [h])
  locks r hr := by rw [h]; exact hr
  kids _ i := by rw [h]
  zombies _ _ i _ hz := by rw [← h]; exact hz

/-- An event that changes one slot. -/
theorem spares_setProc
    (hself : q = i → (f (t.proc i)).pc = (t.proc i).pc ∧ (f (t.proc i)).chan = (t.proc i).chan ∧
      ((f (t.proc i)).state = (t.proc i).state ∨
        (t.proc i).state = .sleeping ∧ (f (t.proc i)).state = .runnable) ∧
      ((f (t.proc i)).parent = (t.proc i).parent ∨ (f (t.proc i)).parent = some initproc))
    (hlock : (t.proc i).lock = some q → (f (t.proc i)).lock = some q)
    (hkids : q ≠ initproc → ((f (t.proc i)).parent = some q ↔ (t.proc i).parent = some q))
    (hzombie : q ≠ initproc → t.Looks q → (f (t.proc i)).parent = some q →
      (f (t.proc i)).state = .zombie → (t.proc i).state = .zombie) :
    t.Spares (t.setProc i f) q := by
  have hslot : ((t.setProc i f).proc q).pc = (t.proc q).pc ∧
      ((t.setProc i f).proc q).chan = (t.proc q).chan ∧
      (((t.setProc i f).proc q).state = (t.proc q).state ∨
        (t.proc q).state = .sleeping ∧ ((t.setProc i f).proc q).state = .runnable) ∧
      (((t.setProc i f).proc q).parent = (t.proc q).parent ∨
        ((t.setProc i f).proc q).parent = some initproc) := by
    by_cases h : q = i
    · subst h
      rw [setProc_proc_self]
      exact hself rfl
    · rw [setProc_proc_of_ne _ _ h]
      exact ⟨rfl, rfl, .inl rfl, .inl rfl⟩
  obtain ⟨hpc, hchan, hstate, hparent⟩ := hslot
  exact {
    pc := hpc
    state := hstate
    chan := hchan
    parent := hparent
    locks := setProc_cases (P := fun r pr => (t.proc r).lock = some q → pr.lock = some q) hlock
      fun _ => id
    kids := fun hinit => setProc_cases
      (P := fun j pr => pr.parent = some q ↔ (t.proc j).parent = some q) (hkids hinit) fun _ => .rfl
    zombies := fun hinit hlooks => setProc_cases
      (P := fun j pr => pr.parent = some q → pr.state = .zombie → (t.proc j).state = .zombie)
      (hzombie hinit hlooks) fun _ _ => id }

theorem spares_goto (t : Table) (h : q ≠ p) : t.Spares (t.goto p pc) q :=
  spares_setProc (absurd · h) id (fun _ => Iff.rfl) fun _ _ _ hz => hz

theorem spares_acquire {holder : Nat} (h : (t.proc i).lock = none) :
    t.Spares (t.acquire i holder) q :=
  spares_setProc (fun _ => ⟨rfl, rfl, .inl rfl, .inl rfl⟩) (fun hq => by rw [h] at hq; cases hq)
    (fun _ => Iff.rfl) fun _ _ _ hz => hz

theorem spares_release (h : (t.proc i).lock = some p) (hq : q ≠ p) : t.Spares (t.release i) q :=
  spares_setProc (fun _ => ⟨rfl, rfl, .inl rfl, .inl rfl⟩)
    (fun h' => absurd (Option.some.inj (h.symm.trans h')).symm hq) (fun _ => Iff.rfl)
    fun _ _ _ hz => hz

/-- A slot that is woken up, and may be marked as killed. -/
theorem spares_wake (hpc : (f (t.proc i)).pc = (t.proc i).pc)
    (hchan : (f (t.proc i)).chan = (t.proc i).chan)
    (hparent : (f (t.proc i)).parent = (t.proc i).parent)
    (hlock : (f (t.proc i)).lock = (t.proc i).lock)
    (hstate : (f (t.proc i)).state = (t.proc i).state ∨
      (t.proc i).state = .sleeping ∧ (f (t.proc i)).state = .runnable) :
    t.Spares (t.setProc i f) q := by
  refine spares_setProc (fun _ => ⟨hpc, hchan, hstate, .inl hparent⟩) (fun h => hlock.trans h)
    (fun _ => by rw [hparent]) fun _ _ _ hz => ?_
  rcases hstate with hsame | ⟨-, hrun⟩
  · exact hsame.symm.trans hz
  · exact absurd (hrun.symm.trans hz) (by decide)

theorem spares_wakeIf {c : Proc → Prop} [DecidablePred c]
    (hc : c (t.proc i) → (t.proc i).state = .sleeping) :
    t.Spares (t.setProc i fun pr => if c pr then { pr with state := .runnable } else pr) q := by
  by_cases h : c (t.proc i)
  · refine spares_wake ?_ ?_ ?_ ?_ ?_
    all_goals simp only [if_pos h]
    exact .inr ⟨hc h, trivial⟩
  · refine spares_wake ?_ ?_ ?_ ?_ ?_
    all_goals simp only [if_neg h]
    exact .inl trivial

theorem spares_wakeup1 (t : Table) : t.Spares (t.wakeup1 i) q :=
  spares_wakeIf (c := fun pr => pr.chan = some (.proc i) ∧ pr.state = .sleeping) And.right

theorem Table.Watch.of_scan (hself : t.proc p = pr) (hscan : pr.pc.scan = some n)
    (hrun : pr.state = .running) (hlock : pr.lock = some p)
    (hseen : p ≠ initproc → ∀ i < n, (t.proc i).parent = some p → (t.proc i).state ≠ .zombie)
    (hkid : pr.pc.foundKid = true → p ≠ initproc → ∃ i, (t.proc i).parent = some p) :
    t.Watch p := by
  subst hself
  have hnone : (t.proc p).pc.origin = none ∧ (t.proc p).pc.heldOrigin = none ∧
      (t.proc p).pc.inSleep = false := by
    cases hpc : (t.proc p).pc <;> rw [hpc] at hscan <;>
      first | exact ⟨rfl, rfl, rfl⟩ | cases hscan
  constructor
  case dead => exact not_dead hrun
  case origin => exact fun q hq => absurd (hnone.1.symm.trans hq) (by simp)
  case held => exact fun q hq => absurd (hnone.2.1.symm.trans hq) (by simp)
  case own => exact fun _ _ => ⟨hrun, hlock⟩
  case seen =>
    intro m hm
    obtain rfl := Option.some.inj (hscan.symm.trans hm)
    exact hseen
  case kid => exact hkid
  case asleep => exact fun h => absurd (hnone.2.2.symm.trans h) (by simp)

theorem watch_goto_plain (h : ∀ q, t.Watch q) (hp : (t.proc p).state = .running) (q : Nat)
    (hpc : pc.plain = true := by rfl) : (t.goto p pc).Watch q := by
  by_cases hq : q = p
  · subst hq
    exact .of_plain (goto_proc_self ..) hpc (not_dead hp)
  · exact (h q).frame (spares_goto t hq)

end watch

/-! ## The events -/

section steps

variable {t t' : Table} {p q i : Nat}

theorem unlocked_iff : t.unlocked p = true ↔ (t.proc p).lock = none := by
  unfold Table.unlocked
  exact Option.isNone_iff_eq_none

theorem free_of_unlocked (h : ¬(!t.unlocked p) = true) : (t.proc p).lock = none := by
  rwa [Bool.not_eq_true', Bool.not_eq_false, unlocked_iff] at h

/-- `fork` fills a free slot. -/
theorem watch_forkFound (hT : t.tree.Rooted) (h : ∀ q, t.Watch q) (alloc : Alloc)
    (hp : (t.proc p).state = .running) (hi : (t.proc i).state = .unused) (q : Nat) :
    (t.forkFound p i alloc).Watch q := by
  have hpi : p ≠ i := by
    rintro rfl
    exact absurd (hp.symm.trans hi) (by decide)
  have hfree : (t.proc i).parent = none := hT.free i (life_unused.mpr hi)
  have hpci : (t.proc i).pc = .user := (h i).dead (.inl hi)
  -- Everything happens in slot `i`, which nobody relies on.
  obtain ⟨f, hf, hparent, hstate, hlock, hpc⟩ : ∃ f : Proc → Proc,
      (t.forkFound p i alloc).proc = ((t.setProc i f).goto p .user).proc ∧
      ((f (t.proc i)).parent = none ∨ (f (t.proc i)).parent = some p) ∧
      (f (t.proc i)).state ≠ .zombie ∧ (f (t.proc i)).lock = (t.proc i).lock ∧
      (f (t.proc i)).pc = .user := by
    cases alloc with
    | noTrapframe =>
      exact ⟨fun pr => { pr with pid := t.nextpid }, rfl, .inl hfree, by rw [hi]; decide, rfl, hpci⟩
    | noPagetable | noMemory =>
      refine ⟨fun pr => { pr with
          pid := 0, parent := none, chan := none, killed := false, xstate := 0, state := .unused },
        ?_, .inl rfl, PState.noConfusion, rfl, hpci⟩
      unfold Table.forkFound Table.freeproc Table.goto Table.setProc Table.allocpid
      simp only [update_self, update_idem]
    | ok =>
      refine ⟨fun pr => { pr with
          pid := t.nextpid, parent := some p, state := .runnable, pc := .user
          uid := t.handed + 1 }, ?_, .inr rfl, PState.noConfusion, rfl, rfl⟩
      unfold Table.forkFound Table.goto Table.setProc Table.allocpid
      simp only [update_self, update_idem]
  have hwatch : ∀ q, ((t.setProc i f).goto p .user).Watch q := by
    intro q
    by_cases hqi : q = i
    · subst hqi
      refine .of_user ?_
      rw [Table.goto, setProc_proc_of_ne _ _ hpi.symm, setProc_proc_self]
      exact hpc
    by_cases hqp : q = p
    · subst hqp
      refine .of_user ?_
      rw [goto_proc_self]
    refine ((h q).frame ?_).frame (spares_goto _ hqp)
    refine spares_setProc (absurd · hqi) (fun hq => hlock.trans hq) (fun _ => ?_)
      fun _ _ _ hz => absurd hz hstate
    rw [hfree]
    refine ⟨fun hq => ?_, fun hq => by cases hq⟩
    rcases hparent with hnone | hsome
    · exact absurd (hnone.symm.trans hq) (by simp)
    · exact absurd (Option.some.inj (hsome.symm.trans hq)).symm hqp
  exact (hwatch q).frame (spares_of_proc hf)

/-- `reparent` gives child `i` of `p` to the first process. -/
theorem watch_reparentLock {status : Int} {o : Nat} (hT : t.tree.Rooted) (h : ∀ q, t.Watch q)
    (hp : (t.proc p).state = .running) (hpc : (t.proc p).pc = .reparentLock status o i) (q : Nat) :
    ((t.setProc i fun pr => { pr with parent := some initproc }).goto p
      (.reparent status o (i + 1))).Watch q := by
  have hchild : (t.proc i).parent = some p := hT.target p i (congrArg (Phase.target ∘ Pc.phase) hpc)
  have hspare : ∀ q, q ≠ p →
      t.Spares (t.setProc i fun pr => { pr with parent := some initproc }) q := by
    intro q hq
    refine spares_setProc (fun _ => ⟨rfl, rfl, .inl rfl, .inr rfl⟩) id (fun hinit => ?_)
      fun _ _ _ hz => hz
    rw [hchild]
    refine ⟨fun hf => absurd (Option.some.inj hf).symm hinit, fun hf => ?_⟩
    exact absurd (Option.some.inj hf).symm hq
  by_cases hq : q = p
  swap
  · exact ((h q).frame (hspare q hq)).frame (spares_goto _ hq)
  subst hq
  set t1 := t.setProc i fun pr => { pr with parent := some initproc }
  have hrun : (t1.proc q).state = .running := (setProc_field Proc.state rfl q).trans hp
  refine .of_exit (goto_proc_self ..) rfl rfl rfl (not_dead hrun) (fun r hr => ?_) fun r hr => ?_
  · obtain rfl := Option.some.inj hr
    show (t1.proc q).parent = _ ∨ (t1.proc q).parent = _
    by_cases hqi : q = i
    · subst hqi
      rw [setProc_proc_self]
      exact .inr rfl
    · rw [setProc_proc_of_ne _ _ hqi]
      exact (h q).origin o (by rw [hpc]; rfl)
  · obtain rfl := Option.some.inj hr
    rw [goto_lock, setProc_field Proc.lock rfl]
    exact ⟨hrun, ((h q).held o (by rw [hpc]; rfl)).2⟩

/-- A place of `exit` to the next one with the same parent. -/
theorem watch_exit_goto {o : Nat} (h : ∀ q, t.Watch q) (hp : (t.proc p).state = .running)
    (horigin : (t.proc p).parent = some o ∨ (t.proc p).parent = some initproc)
    (hheld : pc.heldOrigin = some o → (t.proc o).lock = some p) (q : Nat)
    (hpc : pc.scan = none ∧ pc.foundKid = false ∧ pc.inSleep = false ∧ pc.origin = some o ∧
      ∀ r, pc.heldOrigin = some r → r = o := by
        exact ⟨rfl, rfl, rfl, rfl, fun r hr => by cases hr <;> rfl⟩) : (t.goto p pc).Watch q := by
  by_cases hq : q = p
  swap
  · exact (h q).frame (spares_goto _ hq)
  subst hq
  obtain ⟨hscan, hkid, hsleep, ho, hsame⟩ := hpc
  refine .of_exit (goto_proc_self ..) hscan hkid hsleep (not_dead hp) (fun r hr => ?_)
    fun r hr => ?_
  · obtain rfl := Option.some.inj (ho.symm.trans hr)
    exact horigin
  · obtain rfl := hsame r hr
    rw [goto_lock]
    exact ⟨hp, hheld hr⟩

theorem watch_acquire {holder : Nat} (h : ∀ q, t.Watch q) (hlock : (t.proc i).lock = none)
    (q : Nat) : (t.acquire i holder).Watch q :=
  (h q).frame (spares_acquire hlock)

theorem acquire_fields (t : Table) (i holder j : Nat) :
    ((t.acquire i holder).proc j).state = (t.proc j).state ∧
      ((t.acquire i holder).proc j).parent = (t.proc j).parent ∧
      ((t.acquire i holder).proc j).lock = if j = i then some holder else (t.proc j).lock := by
  refine ⟨setProc_field Proc.state rfl j, setProc_field Proc.parent rfl j, ?_⟩
  unfold Table.acquire
  split
  · rename_i h
    rw [h, setProc_proc_self]
  · rename_i h
    rw [setProc_proc_of_ne _ _ h]

/-- The end of `exit`: the parent is awake, or it is the first process. -/
theorem watch_exitZombie {status : Int} {o : Nat} (h : ∀ q, t.Watch q)
    (hpc : (t.proc p).pc = .reparent status o n) (q : Nat) : (t.exitZombie p status o).Watch q := by
  have hlock : (t.proc o).lock = some p := ((h p).held o (by rw [hpc]; rfl)).2
  have horigin := (h p).origin o (by rw [hpc]; rfl)
  unfold Table.exitZombie
  set f : Proc → Proc := fun pr => { pr with xstate := status, state := .zombie, pc := .user } with hf
  have hwoken : ∀ j, ((t.wakeup1 o).proc j).lock = (t.proc j).lock ∧
      ((t.wakeup1 o).proc j).parent = (t.proc j).parent := by
    intro j
    constructor
    · exact setProc_field Proc.lock (by split <;> rfl) j
    · exact setProc_field Proc.parent (by split <;> rfl) j
  have hlock' : (((t.wakeup1 o).setProc p f).proc o).lock = (t.proc o).lock :=
    (setProc_field Proc.lock rfl o).trans (hwoken o).1
  by_cases hq : q = p
  · subst hq
    refine .of_user ((setProc_field Proc.pc rfl q).trans ?_)
    rw [setProc_proc_self]
  refine Table.Watch.frame ?_ (spares_release (hlock'.trans hlock) hq)
  have hwatch := (h q).frame (@spares_wakeup1 q o t)
  refine hwatch.frame (spares_setProc (absurd · hq) id (fun _ => Iff.rfl) ?_)
  intro hinit hlooks hparent
  -- The parent is the one that was locked, and it has been woken up.
  replace hparent : (t.proc p).parent = some q := (hwoken p).2.symm.trans hparent
  have hoq : o = q := by
    rcases horigin with ho | ho
    · exact Option.some.inj (ho.symm.trans hparent)
    · exact absurd (Option.some.inj (ho.symm.trans hparent)).symm hinit
  subst hoq
  rcases hlooks with hscan | ⟨hsleep, hstate⟩
  · obtain ⟨n, hscan⟩ := Option.ne_none_iff_exists'.mp hscan
    have hown := (hwatch.own n hscan).2
    rw [(hwoken o).1, hlock] at hown
    exact absurd (Option.some.inj hown).symm hq
  · have hchan := (hwatch.asleep hsleep hinit hstate).1
    unfold Table.wakeup1 at hstate hchan
    rw [setProc_proc_self] at hstate hchan
    split at hstate
    · cases hstate
    · rename_i hno
      rw [if_neg hno] at hchan
      exact absurd ⟨hchan, hstate⟩ hno

theorem watch_scan_goto (h : ∀ q, t.Watch q) (hp : (t.proc p).state = .running)
    (hlock : (t.proc p).lock = some p)
    (hseen : p ≠ initproc → ∀ i < n, (t.proc i).parent = some p → (t.proc i).state ≠ .zombie)
    (q : Nat)
    (hkid : pc.foundKid = true → p ≠ initproc → ∃ i, (t.proc i).parent = some p := by nofun)
    (hscan : pc.scan = some n := by rfl) : (t.goto p pc).Watch q := by
  by_cases hq : q = p
  swap
  · exact (h q).frame (spares_goto _ hq)
  subst hq
  refine .of_scan (goto_proc_self ..) hscan hp hlock (fun hinit i hi hchild => ?_)
    fun hfound hinit => ?_
  · rw [goto_parent] at hchild
    rw [Table.goto, setProc_field Proc.state rfl]
    exact hseen hinit i hi hchild
  · obtain ⟨i, hi⟩ := hkid hfound hinit
    exact ⟨i, (goto_parent ..).trans hi⟩

theorem watch_release_goto (h : ∀ q, t.Watch q) (hp : (t.proc p).state = .running)
    (hlock : (t.proc p).lock = some p) (q : Nat) : ((t.release p).goto p .user).Watch q := by
  by_cases hq : q = p
  · subst hq
    refine .of_user ?_
    rw [goto_proc_self]
  · exact ((h q).frame (spares_release hlock hq)).frame (spares_goto _ hq)

theorem watch_waitChild {addr : Nat} {copied : Bool} (hT : t.tree.Rooted) (h : ∀ q, t.Watch q)
    (hp : (t.proc p).state = .running) (hpc : (t.proc p).pc = .waitLockChild addr i) (q : Nat) :
    (t.waitChild p addr i copied).Watch q := by
  have hchild : (t.proc i).parent = some p := hT.target p i (congrArg (Phase.target ∘ Pc.phase) hpc)
  have hlock := ((h p).own i (by rw [hpc]; rfl)).2
  have hseen := (h p).seen i (by rw [hpc]; rfl)
  unfold Table.waitChild
  split
  · rename_i hzombie
    split
    · exact watch_release_goto h hp hlock q
    · have hpi : p ≠ i := by
        rintro rfl
        exact absurd (hp.symm.trans hzombie) (by decide)
      suffices hwatch : (((t.freeproc i).release p).goto p .user).Watch q from
        hwatch.frame (spares_of_proc rfl)
      by_cases hqi : q = i
      · subst hqi
        refine .of_user ?_
        rw [Table.goto, setProc_proc_of_ne _ _ hpi.symm]
        unfold Table.release Table.freeproc
        rw [setProc_proc_of_ne _ _ hpi.symm, setProc_proc_self]
        exact (h q).dead (.inr hzombie)
      by_cases hqp : q = p
      · subst hqp
        refine .of_user ?_
        rw [goto_proc_self]
      -- The child that is freed is a child of `p`.
      have hfree : t.Spares (t.freeproc i) q := by
        refine spares_setProc (absurd · hqi) id (fun _ => ?_) fun _ _ hf => by cases hf
        rw [hchild]
        exact ⟨fun hf => (by cases hf), fun hf => absurd (Option.some.inj hf).symm hqp⟩
      refine (((h q).frame hfree).frame (spares_release ?_ hqp)).frame (spares_goto _ hqp)
      unfold Table.freeproc
      rw [setProc_proc_of_ne _ _ hpi, hlock]
  · rename_i hlive
    exact watch_scan_goto h hp hlock
      (fun hinit => Nat.forall_lt_succ_right.mpr ⟨hseen hinit, fun _ => hlive⟩) q
      fun _ _ => ⟨i, hchild⟩

/-- The end of a scan: a process that goes to sleep has a child, and all are alive. -/
theorem watch_waitEnd {addr : Nat} {havekids : Bool} (hT : t.tree.Rooted) (h : ∀ q, t.Watch q)
    (hp : (t.proc p).state = .running) (hpc : (t.proc p).pc = .wait addr havekids i)
    (hi : NPROC ≤ i) (q : Nat) : (t.waitEnd p addr havekids).Watch q := by
  have hlock := ((h p).own i (by rw [hpc]; rfl)).2
  have hseen := (h p).seen i (by rw [hpc]; rfl)
  have hkid := (h p).kid
  rw [hpc] at hkid
  unfold Table.waitEnd
  split
  · exact watch_release_goto h hp hlock q
  rename_i hstay
  rw [Bool.or_eq_true, not_or, Bool.not_eq_true', Bool.not_eq_false] at hstay
  set f : Proc → Proc := fun pr => { pr with chan := some (.proc p), state := .sleeping } with hf
  have hparent : ∀ j, ((((t.setProc p f).release p).goto p (.waitSleep addr)).proc j).parent =
      (t.proc j).parent := by
    intro j
    rw [goto_parent]
    exact (setProc_field Proc.parent rfl j).trans (setProc_field Proc.parent rfl j)
  by_cases hq : q = p
  swap
  · refine (((h q).frame ?_).frame (spares_release ?_ hq)).frame (spares_goto _ hq)
    · exact spares_setProc (absurd · hq) id (fun _ => Iff.rfl) fun _ _ _ hz => by cases hz
    · rw [setProc_proc_self]
      exact hlock
  subst hq
  have hself : (((t.setProc q f).release q).goto q (.waitSleep addr)).proc q =
      { t.proc q with
        chan := some (.proc q), state := .sleeping, lock := none, pc := .waitSleep addr } := by
    rw [goto_proc_self]
    unfold Table.release
    rw [setProc_proc_self, setProc_proc_self]
  constructor
  case dead =>
    rw [hself]
    exact fun hdead => absurd hdead (by simp)
  case asleep =>
    intro _ hinit _
    refine ⟨by rw [hself], ?_, fun j hj => ?_⟩
    · obtain ⟨j, hj⟩ := hkid hstay.1 hinit
      exact ⟨j, (hparent j).trans hj⟩
    · rw [hparent] at hj
      have hjlt : j < NPROC := by
        by_contra hge
        have hunused := hT.bound j (Nat.not_lt.mp hge)
        have hnone : (t.proc j).parent = none := hT.free j hunused
        exact absurd (hnone.symm.trans hj) (by simp)
      by_cases hjq : j = q
      · subst hjq
        rw [hself]
        exact PState.noConfusion
      · have hother : (((t.setProc q f).release q).goto q (.waitSleep addr)).proc j = t.proc j := by
          rw [Table.goto, setProc_proc_of_ne _ _ hjq]
          unfold Table.release
          rw [setProc_proc_of_ne _ _ hjq, setProc_proc_of_ne _ _ hjq]
        rw [hother]
        exact hseen hinit j (by omega) hj
  all_goals
    rw [hself]
    first
    | (intro _ hn; cases hn)
    | (intro hn; cases hn)

theorem watch_run {alloc : Alloc} {copied : Bool} (hT : t.tree.Rooted) (h : ∀ q, t.Watch q)
    (hp : (t.proc p).state = .running) (hrun : t.run p alloc copied = some t') (q : Nat) :
    t'.Watch q := by
  unfold Table.run at hrun
  split at hrun
  case h_1 | h_2 => cases hrun
  case h_3 i hpc =>
    split_ifs at hrun with hend hlock hfree
    all_goals cases hrun
    · exact watch_goto_plain h hp q
    · exact watch_forkFound hT h alloc hp hfree q
    · exact watch_goto_plain h hp q
  case h_4 pid i hpc =>
    split_ifs at hrun with hend hlock
    all_goals cases hrun
    · exact watch_goto_plain h hp q
    · unfold Table.killTurn
      split
      · refine watch_goto_plain (fun r => (h r).frame (spares_wake rfl rfl rfl rfl ?_)) ?_ q
        · by_cases hsleep : (t.proc i).state = .sleeping
          · exact .inr ⟨hsleep, if_pos hsleep⟩
          · exact .inl (if_neg hsleep)
        · by_cases hpi : p = i
          · subst hpi
            rw [setProc_proc_self]
            show (if (t.proc p).state = .sleeping then PState.runnable else (t.proc p).state) = _
            rw [hp]
            rfl
          · rw [setProc_proc_of_ne _ _ hpi]
            exact hp
      · exact watch_goto_plain h hp q
  case h_5 status hpc =>
    split_ifs at hrun with hlock
    cases hrun
    refine watch_goto_plain (fun r => (h r).frame (spares_wakeup1 t)) ?_ q
    exact (spares_wakeup1 t).running hp
  case h_6 status hpc =>
    split_ifs at hrun with hlock
    split at hrun
    · rename_i o hparent
      cases hrun
      exact watch_exit_goto h hp (.inl hparent) (fun hr => by cases hr) q
    · cases hrun
  case h_7 status o hpc =>
    split_ifs at hrun with hlock
    cases hrun
    refine watch_exit_goto (watch_acquire h (free_of_unlocked hlock)) ?_ ?_ (fun _ => ?_) q
    · exact (acquire_fields ..).1.trans hp
    · rw [(acquire_fields ..).2.1]
      exact (h p).origin o (by rw [hpc]; rfl)
    · rw [(acquire_fields ..).2.2, if_pos rfl]
  case h_8 status o hpc =>
    split_ifs at hrun with hlock
    cases hrun
    refine watch_exit_goto (watch_acquire h (free_of_unlocked hlock)) ?_ ?_ (fun _ => ?_) q
    · exact (acquire_fields ..).1.trans hp
    · rw [(acquire_fields ..).2.1]
      exact (h p).origin o (by rw [hpc]; rfl)
    · rw [(acquire_fields ..).2.2]
      split
      · rfl
      · exact ((h p).held o (by rw [hpc]; rfl)).2
  case h_9 status o i hpc =>
    have horigin := (h p).origin o (by rw [hpc]; rfl)
    have hheld := ((h p).held o (by rw [hpc]; rfl)).2
    split_ifs at hrun with hend hchild
    all_goals cases hrun
    · exact watch_exitZombie h hpc q
    all_goals exact watch_exit_goto h hp horigin (fun _ => hheld) q
  case h_10 status o i hpc =>
    split_ifs at hrun with hlock
    cases hrun
    exact watch_reparentLock hT h hp hpc q
  case h_11 addr hpc =>
    split_ifs at hrun with hlock
    cases hrun
    refine watch_scan_goto (n := 0) (watch_acquire h (free_of_unlocked hlock)) ?_ ?_
      (fun _ => nofun) q
    · exact (acquire_fields ..).1.trans hp
    · rw [(acquire_fields ..).2.2, if_pos rfl]
  case h_12 addr havekids i hpc =>
    have hown := ((h p).own i (by rw [hpc]; rfl)).2
    have hseen := (h p).seen i (by rw [hpc]; rfl)
    have hkid := (h p).kid
    rw [hpc] at hkid
    split_ifs at hrun with hend hchild
    all_goals cases hrun
    · exact watch_waitEnd hT h hp hpc hend q
    · exact watch_scan_goto h hp hown hseen q
    · exact watch_scan_goto h hp hown (fun hinit => Nat.forall_lt_succ_right.mpr
        ⟨hseen hinit, fun hparent => absurd hparent hchild⟩) q hkid
  case h_13 addr i hpc =>
    split_ifs at hrun with hlock
    cases hrun
    exact watch_waitChild hT h hp hpc q

theorem watch_stop (h : ∀ q, t.Watch q) (hpc : (t.proc p).pc.interruptible = true)
    (hfpc : (f (t.proc p)).pc = (t.proc p).pc)
    (hfparent : (f (t.proc p)).parent = (t.proc p).parent)
    (hflock : (f (t.proc p)).lock = (t.proc p).lock)
    (hfstate : (f (t.proc p)).state = .runnable ∨ (f (t.proc p)).state = .sleeping) (q : Nat) :
    (t.setProc p f).Watch q := by
  have hlive : ¬((f (t.proc p)).state = .unused ∨ (f (t.proc p)).state = .zombie) := by
    rcases hfstate with hs | hs <;> rw [hs] <;> decide
  by_cases hq : q = p
  swap
  · exact (h q).frame (spares_setProc (absurd · hq) (fun hl => hflock.trans hl)
      (fun _ => by rw [hfparent]) fun _ _ _ hz => absurd (.inr hz) hlive)
  subst hq
  have hnone : (t.proc q).pc.heldOrigin = none ∧ (t.proc q).pc.scan = none ∧
      (t.proc q).pc.foundKid = false ∧ (t.proc q).pc.inSleep = false := by
    cases hp : (t.proc q).pc <;> rw [hp] at hpc <;> first | exact ⟨rfl, rfl, rfl, rfl⟩ | cases hpc
  refine .of_exit (setProc_proc_self ..) ?_ ?_ ?_ (fun hdead => absurd hdead hlive) ?_ ?_
  · rw [hfpc]
    exact hnone.2.1
  · rw [hfpc]
    exact hnone.2.2.1
  · rw [hfpc]
    exact hnone.2.2.2
  · intro r hr
    rw [hfpc] at hr
    rw [hfparent]
    exact (h q).origin r hr
  · intro r hr
    rw [hfpc, hnone.1] at hr
    cases hr

theorem watch_resume (h : ∀ q, t.Watch q) (hlock : (t.proc p).lock = none)
    (hp : (t.proc p).state = .runnable) (q : Nat) : (t.resume p).Watch q := by
  unfold Table.resume
  split
  · rename_i addr hpc
    by_cases hq : q = p
    swap
    · exact (h q).frame (spares_setProc (absurd · hq) (fun hl => by rw [hlock] at hl; cases hl)
        (fun _ => Iff.rfl) fun _ _ _ hz => by cases hz)
    subst hq
    exact .of_scan (n := 0) (setProc_proc_self ..) rfl rfl rfl (fun _ => nofun) nofun
  · rename_i hnot
    by_cases hq : q = p
    swap
    · exact (h q).frame (spares_setProc (absurd · hq) id (fun _ => Iff.rfl)
        fun _ _ _ hz => by cases hz)
    subst hq
    have hrun : ∀ {P : Prop}, (t.proc q).state = .running → P := fun hr =>
      absurd (hp.symm.trans hr) (by decide)
    refine .of_exit (setProc_proc_self ..) ?_ ?_ ?_ (not_dead rfl) (h q).origin fun r hr =>
      hrun ((h q).held r hr).1
    · show (t.proc q).pc.scan = none
      cases hscan : (t.proc q).pc.scan with
      | none => rfl
      | some n => exact hrun ((h q).own n hscan).1
    · show (t.proc q).pc.foundKid = false
      cases hpc : (t.proc q).pc with
      | wait addr havekids n => exact hrun ((h q).own n (by rw [hpc]; rfl)).1
      | _ => rfl
    · show (t.proc q).pc.inSleep = false
      cases hpc : (t.proc q).pc with
      | waitSleep addr => exact absurd hpc (hnot addr)
      | _ => rfl

theorem watch_next {e : Event} (hT : t.tree.Rooted) (h : ∀ q, t.Watch q)
    (hnext : Table.next e t = some t') (q : Nat) : t'.Watch q := by
  cases e <;> simp only [Table.next, Option.ite_none_right_eq_some] at hnext <;>
    obtain ⟨hp, hnext⟩ := hnext
  case call p c =>
    cases c with
    | fork | wait _ | kill _ =>
      cases hnext
      exact watch_goto_plain h hp.2.1 q
    | exit status =>
      simp only [Table.call] at hnext
      split_ifs at hnext with hinit
      cases hnext
      exact (watch_goto_plain h hp.2.1 q).frame
        (@spares_of_proc (t.goto p (.exitWakeInit status)) _ q rfl)
  case run p alloc copied =>
    exact watch_run hT h hp.2 hnext q
  case schedRelease p =>
    cases hnext
    by_cases hq : q = p
    · subst hq
      refine .of_user ?_
      unfold Table.release
      rw [setProc_proc_self]
      exact (h q).dead (.inr hp.1)
    · exact (h q).frame (spares_release hp.2 hq)
  case yield p =>
    cases hnext
    exact watch_stop h hp.2.1 rfl rfl rfl (.inl rfl) q
  case sleep p chan =>
    cases hnext
    exact watch_stop h hp.2.1 rfl rfl rfl (.inr rfl) q
  case wakeup p chan =>
    cases hnext
    exact (h q).frame
      (spares_wakeIf (c := fun pr => pr.state = .sleeping ∧ pr.chan = some chan) And.left)
  case schedule p =>
    cases hnext
    exact watch_resume h (unlocked_iff.mp hp.1) hp.2 q

end steps

/-! ## Every reachable state -/

theorem reach_watch {t : Table} (h : Reach Table.next (fun _ _ => True) Table.start t) :
    t.tree.Ok ∧ ∀ q, t.Watch q := by
  refine h.invariant (I := fun t => t.tree.Ok ∧ ∀ q, t.Watch q) ⟨ok_start, fun q => ?_⟩ ?_
  · refine .of_user ?_
    show (if q = initproc then _ else _ : Proc).pc = .user
    split <;> rfl
  · intro e t t' hinv _ hnext
    exact ⟨(tree_next hnext).ok hinv.1, watch_next hinv.1.rooted hinv.2 hnext⟩

/-- No process but the first sleeps in `wait` over an exited child, or without
a child. -/
def Table.NoVain (t : Table) : Prop :=
  ∀ p, p ≠ initproc → (t.proc p).lock = none → (t.proc p).state = .sleeping →
    (∃ addr, (t.proc p).pc = .waitSleep addr) →
    (t.proc p).chan = some (.proc p) ∧ (∃ i, (t.proc i).parent = some p) ∧
      ∀ i, (t.proc i).parent = some p → (t.proc i).state ≠ .zombie

theorem parent_sleeps_over_living {t : Table}
    (h : Reach Table.next (fun _ _ => True) Table.start t) : t.NoVain := by
  intro p hinit _ hsleep hpc
  obtain ⟨addr, hpc⟩ := hpc
  exact ((reach_watch h).2 p).asleep (by rw [hpc]; rfl) hinit hsleep

/-- A child of the first process forks and waits for its own child. -/
def waitEvents : List Event :=
  [.schedule 0, .call 0 .fork, .run 0 .ok true, .run 0 .ok true, .schedule 1,
    .call 1 .fork, .run 1 .ok true, .run 1 .ok true, .run 1 .ok true, .call 1 (.wait 0)] ++
    List.replicate (NPROC + 3) (.run 1 .ok true)

theorem parent_sleeps_over_living_child :
    ∃ t, Reach Table.next (fun _ _ => True) Table.start t ∧
      (t.proc 1).state = .sleeping ∧ (t.proc 2).parent = some 1 ∧ (t.proc 2).state ≠ .zombie := by
  have hcheck : ((follow Table.next (fun _ _ => true) waitEvents Table.start).any fun t =>
      decide ((t.proc 1).lock = none ∧ (t.proc 1).state = .sleeping ∧
        (t.proc 1).pc = .waitSleep 0 ∧ (t.proc 2).parent = some 1)) = true := by
    decide +kernel
  obtain ⟨t, hreach, hfact⟩ := Reach.of_any hcheck
  obtain ⟨hlock, hstate, hpc, hparent⟩ := of_decide_eq_true hfact
  have hvain := parent_sleeps_over_living hreach 1 (by decide) hlock hstate ⟨0, hpc⟩
  exact ⟨t, hreach, hstate, hparent, hvain.2.2 2 hparent⟩

end Xv6.Sched
