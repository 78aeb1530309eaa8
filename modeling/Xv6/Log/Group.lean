import Mathlib.Data.Finset.Card
import Xv6.Lib.Trans
import Xv6.Log.CrashAtomic

/-!
# Group commit: operations that share the log

`kernel/log.c` at the granularity of `log.lock`. Any number of processes
run operations; each is between two of the places where it takes or
releases `log.lock`, and one event takes one process to its next such
place. The sections under the lock are `begin_op`, the part of
`log_write` after its two tests, and the two halves of `end_op`. The tests
of `log_write` are made before the lock is taken and are an event of their
own, together with the `bread` of the caller before them. `commit()` runs
between the two halves of the last `end_op`, without the lock; it is one event,
with the body translated in `Xv6.Log.Model`.

A process has the buffer of its block from that `bread` until `log_write`
returns. With the pinned ones these are the buffers in use that are counted;
processes that only read have others, so that the source panics in `bget` in
more states than these. `log.lh.block` has `LOGSIZE` entries, and a store past
its end is not followed: `logAppend` has no next state there, and by the
invariant below it is not reached.

The ghost fields record what the claims of the design comment in `log.c`
are about: for each operation its updates, each with the number of commits
that had run before it, and which operations have ended since the last
commit.
-/

namespace Xv6.Log

open Xv6.Lib.Crash Xv6.Lib.Trans Function

variable {m : Machine} {b : Nat}

/-! ## The machine -/

/-- Where a process is: outside of an operation, between `begin_op` and
`end_op`, in `log_write` for block `b` past the two tests, or in `end_op`
as the process that commits, before or after `commit()`. -/
inductive Pc where
  | outside
  | running
  | logging (b : Nat)
  | committing
  | committed
  deriving DecidableEq

/-- The process has begun an operation and not yet ended it. -/
def Pc.InOp : Pc → Bool
  | .running | .logging _ => true
  | _ => false

/-- The process is in `end_op` and has `log.committing` set. -/
def Pc.InCommit : Pc → Bool
  | .committing | .committed => true
  | _ => false

/-- A block an operation has logged, and how many commits came before. -/
abbrev Update := Nat × Nat

/-- The log and the processes that use it. -/
structure Group where
  m : Machine
  pc : Nat → Pc
  /-- The processes in `log_write`, each with the block of the buffer it has. -/
  held : List (Nat × Nat)
  /-- Ghost: how often `commit()` has run. -/
  commits : Nat
  /-- Ghost: the updates of the operation a process is in. -/
  op : Nat → List Update
  /-- Ghost: the operations that called `end_op` since the last commit. -/
  ended : List (List Update)
  /-- Ghost: the operations that ended before the last commit. -/
  past : List (List Update)

inductive Event where
  | beginOp (p : Nat)
  | logTest (p b : Nat) (data : Block)
  | logAppend (p : Nat)
  | endOp (p : Nat)
  | commit (p : Nat)
  | endCommit (p : Nat)

variable (log : Layout)

/-- The first test of `log_write`. -/
def tooBig (m : Machine) : Bool :=
  decide ((LOGSIZE : Int) ≤ m.lh.n ∨ (log.size : Int) - 1 ≤ m.lh.n)

/-- `log_write` from `acquire(&log.lock)` on. -/
def logAppend (b : Nat) (m : Machine) : Option Machine :=
  let i := firstIndex (fun i => m.lh.block i == b) m.lh.n.toNat
  if LOGSIZE ≤ i then none
  else if (i : Int) = m.lh.n then
    some { m with
      lh := { n := m.lh.n + 1, block := Function.update m.lh.block i b }
      pins := b :: m.pins }
  else some { m with lh := { m.lh with block := Function.update m.lh.block i b } }

/-- The blocks of the buffers in use. -/
def Group.inUse (g : Group) : List Nat := g.m.pins ++ g.held.map Prod.snd

/-- Process `p` moves on to `pc`, with the log at `m`. -/
def Group.move (g : Group) (p : Nat) (pc : Pc) (m : Machine) : Group :=
  { g with m := m, pc := Function.update g.pc p pc }

/-- One event: the next state, the panic it ends in, or `asleep` where the
process is not at this place of its program or sleeps on `log`. -/
def Group.step (g : Group) : Event → Except Stop Group
  | .beginOp p =>
    if g.pc p ≠ .outside then .error .asleep
    else if g.m.committing then .error .asleep
    else if (LOGSIZE : Int) < g.m.lh.n + (g.m.outstanding + 1) * MAXOPBLOCKS then .error .asleep
    else .ok { g.move p .running { g.m with outstanding := g.m.outstanding + 1 } with
      op := Function.update g.op p [] }
  | .logTest p b data =>
    -- the caller has read the block and changed the buffer before it calls log_write
    if g.pc p ≠ .running then .error .asleep
    else if NoBuffer g.inUse b then .error .noBuffers
    else if tooBig log g.m then .error .tooBigATransaction
    else if g.m.outstanding < 1 then .error .logWriteOutsideOfTrans
    else .ok { g.move p (.logging b)
        { g.m with cache := Function.update g.m.cache b (some data) } with
      held := (p, b) :: g.held }
  | .logAppend p =>
    match g.pc p with
    | .logging b =>
      match logAppend b g.m with
      | some m => .ok { g.move p .running m with
          held := g.held.filter fun h => h.1 ≠ p
          op := Function.update g.op p ((b, g.commits) :: g.op p) }
      | none => .error .asleep
    | _ => .error .asleep
  | .endOp p =>
    if g.pc p ≠ .running then .error .asleep
    else if g.m.committing then .error .logCommitting
    else if g.m.outstanding - 1 = 0 then
      .ok { g.move p .committing
          { g.m with outstanding := g.m.outstanding - 1, committing := true } with
        ended := g.op p :: g.ended }
    else
      .ok { g.move p .outside { g.m with outstanding := g.m.outstanding - 1 } with
        ended := g.op p :: g.ended }
  | .commit p =>
    if g.pc p ≠ .committing then .error .asleep
    else
      match (commit log).run g.m none with
      | .done _ m _ => .ok { g.move p .committed m with
          commits := g.commits + 1
          ended := []
          past := g.ended ++ g.past }
      | .halted e _ => .error e
      | .lost _ => .error .asleep
  | .endCommit p =>
    if g.pc p ≠ .committed then .error .asleep
    else .ok (g.move p .outside { g.m with committing := false })

/-- The next state, where there is one. -/
def Group.next (e : Event) (g : Group) : Option Group := (g.step log e).toOption

/-- No process is in an operation and nothing was logged. -/
def Group.start (m : Machine) : Group where
  m := m
  pc := fun _ => .outside
  held := []
  commits := 0
  op := fun _ => []
  ended := []
  past := []

/-- The machine after `recover_from_log` from some disk with a sound log
header. -/
def Recovered (m : Machine) : Prop :=
  ∃ d, HeaderOk log d ∧ (recoverFromLog log).run (boot d) none = .done () m none

/-! ## The blocks in the log -/

/-- The block numbers in `log.lh`. -/
def logged (m : Machine) : List Nat := (List.range m.lh.n.toNat).map m.lh.block

theorem mem_logged : b ∈ logged m ↔ ∃ i < m.lh.n.toNat, m.lh.block i = b := by
  simp [logged]

/-- The scan of `log_write` ends at the index of the block, or at `n`. -/
theorem firstIndex_cases (p : Nat → Bool) (n : Nat) :
    (firstIndex p n < n ∧ p (firstIndex p n) = true) ∨
      (firstIndex p n = n ∧ ∀ i < n, p i = false) := by
  cases h : (List.range n).find? p with
  | none =>
    right
    rw [List.find?_eq_none] at h
    refine ⟨by simp [firstIndex, List.find?_eq_none.mpr h], fun i hi => ?_⟩
    simpa using h i (List.mem_range.mpr hi)
  | some i =>
    left
    have hi : firstIndex p n = i := by simp [firstIndex, h]
    rw [hi]
    exact ⟨List.mem_range.mp (List.mem_of_find?_eq_some h), List.find?_some h⟩

/-- `log.lh` with `b` added at the end, and `b` pinned. -/
def Machine.addLogged (m : Machine) (b : Nat) : Machine :=
  { m with
    lh := { n := m.lh.n + 1, block := Function.update m.lh.block m.lh.n.toNat b }
    pins := b :: m.pins }

/-- The locked part of `log_write` either finds the block and changes
nothing, or adds it. -/
theorem logAppend_cases {m' : Machine} (h0 : 0 ≤ m.lh.n) (h : logAppend b m = some m') :
    (b ∈ logged m ∧ m' = m) ∨ (b ∉ logged m ∧ m.lh.n < LOGSIZE ∧ m' = m.addLogged b) := by
  unfold logAppend at h
  extract_lets i at h
  rcases firstIndex_cases (fun i => m.lh.block i == b) m.lh.n.toNat with ⟨hi, hb⟩ | ⟨hi, hb⟩
  · left
    change i < _ at hi
    have hbi : m.lh.block i = b := by simpa using hb
    have hne : ¬((i : Int) = m.lh.n) := by omega
    have hkeep : update m.lh.block i b = m.lh.block := by
      rw [← hbi, update_eq_self]
    refine ⟨mem_logged.mpr ⟨i, hi, hbi⟩, ?_⟩
    by_cases hlt : LOGSIZE ≤ i
    · rw [if_pos hlt] at h
      cases h
    · rw [if_neg hlt, if_neg hne, hkeep] at h
      exact (Option.some.inj h).symm
  · right
    change i = _ at hi
    have heq : (i : Int) = m.lh.n := by omega
    by_cases hlt : LOGSIZE ≤ i
    · rw [if_pos hlt] at h
      cases h
    · rw [if_neg hlt, if_pos heq, hi] at h
      refine ⟨?_, by omega, (Option.some.inj h).symm⟩
      rintro hmem
      obtain ⟨j, hj, hjb⟩ := mem_logged.mp hmem
      simpa [hjb] using hb j hj

theorem logged_addLogged (h0 : 0 ≤ m.lh.n) (b : Nat) :
    logged (m.addLogged b) = logged m ++ [b] := by
  have hn : (m.lh.n + 1).toNat = m.lh.n.toNat + 1 := by omega
  simp only [logged, Machine.addLogged, hn, List.range_succ, List.map_append, List.map_cons,
    List.map_nil, update_self, List.append_cancel_right_eq]
  refine List.map_congr_left fun i hi => ?_
  exact update_of_ne (Nat.ne_of_lt (List.mem_range.mp hi)) _ _

/-! ## What `commit()` leaves of the control state -/

/-- The part of the machine that copying blocks does not touch. -/
structure Held where
  lh : LogHeader
  pins : List Nat
  outstanding : Int
  committing : Bool
  current : Nat

def Machine.held (m : Machine) : Held :=
  ⟨m.lh, m.pins, m.outstanding, m.committing, m.current⟩

theorem keeps_bread (b : Nat) : Keeps Machine.held (bread b) := by
  refine keeps_get fun s => ?_
  split
  · exact fun _ => triple_halt fun _ _ => trivial
  cases s.cache b with
  | some data => exact keeps_pure data
  | none => exact keeps_bind (keeps_modify fun _ => rfl) fun _ => keeps_pure _

theorem keeps_bwrite (b : Nat) (data : Block) : Keeps Machine.held (bwrite b data) :=
  keeps_commit fun _ => rfl

theorem keeps_writeHead : Keeps Machine.held (writeHead log) :=
  keeps_bind (keeps_bread _) fun _ => keeps_commit fun _ => rfl

theorem keeps_writeLog : Keeps Machine.held (writeLog log) := by
  refine keeps_get fun s => keeps_forTo fun i => ?_
  exact keeps_bind (keeps_bread _) fun _ => keeps_bind (keeps_bread _) fun _ => keeps_bwrite _ _

theorem keeps_installTrans : Keeps Machine.held (installTrans log true) := by
  refine keeps_get fun s => keeps_forTo fun i => ?_
  refine keeps_bind (keeps_bread _) fun _ => keeps_bind (keeps_bread _) fun _ => ?_
  exact keeps_bind (keeps_bwrite _ _) fun _ => keeps_pure _

/-- The pins after `install_trans` has unpinned the first `i` blocks. -/
def unpinned (lh : LogHeader) (pins : List Nat) (i : Nat) : List Nat :=
  pins.diff ((List.range i).map lh.block)

theorem triple_installTrans_held (v : Held) :
    Triple (fun s => s.held = v) (installTrans log false)
      (fun _ s => s.held = { v with pins := unpinned v.lh v.pins v.lh.n.toNat })
      (fun _ => True) (fun _ => True) := by
  refine triple_read fun s hs => ?_
  have hlh : s.lh = v.lh := congrArg Held.lh hs
  rw [hlh]
  refine triple_conseq (triple_forTo
    (fun i s => s.held = { v with pins := unpinned v.lh v.pins i }) fun i _ => ?_) ?_ fun _ _ h => h
  · refine triple_bind (keeps_bread _ _) fun _ => triple_bind (keeps_bread _ _) fun _ => ?_
    refine triple_bind (keeps_bwrite _ _ _) fun _ => triple_modify fun s' hs' => ?_
    have hpins : s'.pins = unpinned v.lh v.pins i := congrArg Held.pins hs'
    change { s'.held with pins := s'.pins.erase (v.lh.block i) } = _
    rw [hs', hpins]
    simp [unpinned, List.range_succ, List.diff_append]
  · exact fun s' hs' => hs'

/-- After `commit()` the log is empty, each logged block has lost one pin,
and the two counters are as before. -/
theorem commit_held {m' : Machine} (h0 : 0 ≤ m.lh.n) {power : Option Nat}
    (hrun : (commit log).run m none = .done () m' power) :
    m'.lh.n = 0 ∧ m'.outstanding = m.outstanding ∧ m'.committing = m.committing ∧
      m'.current = m.current ∧ m'.pins = m.pins.diff (logged m) := by
  have htriple : Triple (fun s => s = m) (commit log)
      (fun _ s => s.lh.n = 0 ∧ s.outstanding = m.outstanding ∧ s.committing = m.committing ∧
        s.current = m.current ∧ s.pins = m.pins.diff (logged m))
      (fun _ => True) (fun _ => True) := by
    refine triple_get fun s hs => ?_
    subst hs
    by_cases hlt : 0 < s.lh.n
    · rw [if_pos hlt]
      refine triple_conseq (triple_bind (keeps_writeLog log s.held) fun _ =>
        triple_bind (keeps_writeHead log s.held) fun _ =>
        triple_bind (triple_installTrans_held log s.held) fun _ =>
        triple_bind (triple_modify (Q := fun _ s' => s'.held =
          { s.held with
            lh := { s.lh with n := 0 }
            pins := unpinned s.lh s.pins s.lh.n.toNat }) ?_) fun _ =>
        keeps_writeHead log _) ?_ ?_
      · intro s' hs'
        change { s'.held with lh := { s'.held.lh with n := 0 } } = _
        rw [hs']
        rfl
      · rintro s' rfl
        rfl
      · intro _ s' hs'
        refine ⟨congrArg (fun v => v.lh.n) hs', congrArg Held.outstanding hs',
          congrArg Held.committing hs', congrArg Held.current hs', congrArg Held.pins hs'⟩
    · rw [if_neg hlt]
      refine triple_pure ?_
      rintro s' rfl
      have hn : s'.lh.n = 0 := by omega
      simp [hn, logged]
  have hsat := htriple m none rfl
  rw [hrun] at hsat
  exact hsat

/-! ## What each event does -/

section Events

variable {log} {g g' : Group} {p : Nat} {data : Block}

theorem step_of_next {e : Event} (h : Group.next log e g = some g') : g.step log e = .ok g' := by
  unfold Group.next at h
  cases hs : g.step log e with
  | error stop => simp [hs, Except.toOption] at h
  | ok g1 =>
    rw [hs] at h
    exact congrArg Except.ok (Option.some.inj h)

theorem next_beginOp (h : Group.next log (.beginOp p) g = some g') :
    g.pc p = .outside ∧ g.m.committing = false ∧
      g.m.lh.n + (g.m.outstanding + 1) * MAXOPBLOCKS ≤ LOGSIZE ∧
      g' = { g.move p .running { g.m with outstanding := g.m.outstanding + 1 } with
        op := update g.op p [] } := by
  have hs := step_of_next h
  simp only [Group.step] at hs
  split_ifs at hs with hpc hcom hfull
  exact ⟨not_not.mp hpc, by simpa using hcom, by omega, (Except.ok.inj hs).symm⟩

theorem next_logTest (h : Group.next log (.logTest p b data) g = some g') :
    g.pc p = .running ∧ ¬NoBuffer g.inUse b ∧
      g' = { g.move p (.logging b) { g.m with cache := update g.m.cache b (some data) } with
        held := (p, b) :: g.held } := by
  have hs := step_of_next h
  simp only [Group.step] at hs
  split_ifs at hs with hpc hfull hbig hout
  exact ⟨not_not.mp hpc, hfull, (Except.ok.inj hs).symm⟩

theorem next_logAppend (h : Group.next log (.logAppend p) g = some g') :
    ∃ b m, g.pc p = .logging b ∧ logAppend b g.m = some m ∧
      g' = { g.move p .running m with
        held := g.held.filter fun h => h.1 ≠ p
        op := update g.op p ((b, g.commits) :: g.op p) } := by
  have hs := step_of_next h
  simp only [Group.step] at hs
  split at hs
  · rename_i b hpc
    split at hs
    · rename_i m hm
      exact ⟨b, m, hpc, hm, (Except.ok.inj hs).symm⟩
    · cases hs
  · cases hs

/-- The first half of `end_op`: the last operation goes on to commit. -/
theorem next_endOp (h : Group.next log (.endOp p) g = some g') :
    g.pc p = .running ∧ g.m.committing = false ∧
      ((g.m.outstanding = 1 ∧
          g' = { g.move p .committing { g.m with outstanding := 0, committing := true } with
            ended := g.op p :: g.ended }) ∨
        (g.m.outstanding ≠ 1 ∧
          g' = { g.move p .outside { g.m with outstanding := g.m.outstanding - 1 } with
            ended := g.op p :: g.ended })) := by
  have hs := step_of_next h
  simp only [Group.step] at hs
  split_ifs at hs with hpc hcom hlast
  · have hone : g.m.outstanding = 1 := by omega
    rw [hone] at hs
    exact ⟨not_not.mp hpc, by simpa using hcom, .inl ⟨hone, (Except.ok.inj hs).symm⟩⟩
  · exact ⟨not_not.mp hpc, by simpa using hcom, .inr ⟨by omega, (Except.ok.inj hs).symm⟩⟩

theorem next_commit (h : Group.next log (.commit p) g = some g') :
    ∃ m, g.pc p = .committing ∧ (commit log).run g.m none = .done () m none ∧
      g' = { g.move p .committed m with
        commits := g.commits + 1
        ended := []
        past := g.ended ++ g.past } := by
  have hs := step_of_next h
  simp only [Group.step] at hs
  split_ifs at hs with hpc
  split at hs
  · rename_i m power hrun
    obtain rfl := Prog.run_none_power _ hrun
    exact ⟨m, not_not.mp hpc, hrun, (Except.ok.inj hs).symm⟩
  all_goals cases hs

theorem next_commit_of_run (hpc : g.pc p = .committing)
    (hrun : (commit log).run g.m none = .done () m none) :
    Group.next log (.commit p) g = some { g.move p .committed m with
      commits := g.commits + 1
      ended := []
      past := g.ended ++ g.past } := by
  simp [Group.next, Group.step, hpc, hrun, Except.toOption]

theorem next_endCommit (h : Group.next log (.endCommit p) g = some g') :
    g.pc p = .committed ∧ g' = g.move p .outside { g.m with committing := false } := by
  have hs := step_of_next h
  simp only [Group.step] at hs
  split_ifs at hs with hpc
  exact ⟨not_not.mp hpc, (Except.ok.inj hs).symm⟩

end Events

/-! ## The control invariant -/

/-- Some operation of `ops` has updated block `b`. -/
def Updates (ops : List (List Update)) (b : Nat) : Prop := ∃ o ∈ ops, ∃ u ∈ o, u.1 = b

/-- The processes of `S` are in an operation and `log` counts them; at most
one process commits, and only while no other is in an operation; the log
holds exactly the blocks of the operations since the last commit, each
once and each pinned once; no operation has updates from both sides of
a commit; and no more buffers are in use than there are. -/
structure Control (S : Finset Nat) (g : Group) : Prop where
  member : ∀ p, p ∈ S ↔ (g.pc p).InOp = true
  outstanding : g.m.outstanding = S.card
  flag : ∀ p, (g.pc p).InCommit = true → g.m.committing = true
  unique : ∀ p q, (g.pc p).InCommit = true → (g.pc q).InCommit = true → p = q
  alone : g.m.committing = true → S = ∅
  nonneg : 0 ≤ g.m.lh.n
  nodup : (logged g.m).Nodup
  pins : ∀ b, g.m.pins.count b = if b ∈ logged g.m then 1 else 0
  blocks : ∀ b, b ∈ logged g.m ↔ (∃ p ∈ S, ∃ u ∈ g.op p, u.1 = b) ∨ Updates g.ended b
  active : ∀ p ∈ S, ∀ u ∈ g.op p, u.2 = g.commits
  closed : ∀ o ∈ g.ended, ∀ u ∈ o, u.2 = g.commits
  unsplit : ∀ o ∈ g.past, ∀ u ∈ o, ∀ v ∈ o, u.2 = v.2
  held : ∀ p b, g.pc p = .logging b → (p, b) ∈ g.held
  buffers : g.inUse.toFinset.card ≤ NBUF

section Invariant

variable {log} {S : Finset Nat} {g g' : Group} {p : Nat}

/-- A process that does not go to commit leaves the committing ones as they
are. -/
theorem inCommit_of_update {pc : Pc} {q : Nat} (hpc : pc.InCommit = false)
    (h : (update g.pc p pc q).InCommit = true) : (g.pc q).InCommit = true := by
  by_cases hq : q = p
  · subst hq
    rw [update_self, hpc] at h
    cases h
  · rwa [update_of_ne hq] at h

/-- A process that does not go to `log_write` leaves those in it as they
are. -/
theorem logging_of_update (pc : Pc) {q b : Nat} (hpc : ∀ x, pc ≠ .logging x)
    (h : update g.pc p pc q = .logging b) : g.pc q = .logging b := by
  by_cases hq : q = p
  · subst hq
    rw [update_self] at h
    exact absurd h (hpc b)
  · rwa [update_of_ne hq] at h

theorem member_insert (pc : Pc) (hS : ∀ q, q ∈ S ↔ (g.pc q).InOp = true) (hpc : pc.InOp = true)
    (q : Nat) : q ∈ insert p S ↔ (update g.pc p pc q).InOp = true := by
  by_cases hq : q = p
  · subst hq
    simp [hpc]
  · rw [update_of_ne hq, Finset.mem_insert, hS]
    simp [hq]

theorem member_erase (pc : Pc) (hS : ∀ q, q ∈ S ↔ (g.pc q).InOp = true) (hpc : pc.InOp = false)
    (q : Nat) : q ∈ S.erase p ↔ (update g.pc p pc q).InOp = true := by
  by_cases hq : q = p
  · subst hq
    simp [hpc]
  · rw [update_of_ne hq, Finset.mem_erase, hS]
    simp [hq]

theorem Control.beginOp (hg : Control S g) (h : Group.next log (.beginOp p) g = some g') :
    Control (insert p S) g' := by
  obtain ⟨hpc, hcom, -, rfl⟩ := next_beginOp h
  have hp : p ∉ S := by
    rw [hg.member, hpc]
    simp [Pc.InOp]
  have hold : ∀ q ∈ S, update g.op p [] q = g.op q := by
    intro q hq
    refine update_of_ne ?_ _ _
    rintro rfl
    exact hp hq
  exact { hg with
    member := member_insert _ hg.member rfl
    outstanding := by
      change g.m.outstanding + 1 = _
      rw [hg.outstanding, Finset.card_insert_of_notMem hp]
      omega
    flag := fun q hq => hg.flag q (inCommit_of_update rfl hq)
    unique := fun q r hq hr =>
      hg.unique q r (inCommit_of_update rfl hq) (inCommit_of_update rfl hr)
    alone := fun hc => absurd (hcom.symm.trans hc) (by decide)
    blocks := by
      intro b
      change b ∈ logged g.m ↔ _ ∨ Updates g.ended b
      rw [hg.blocks b]
      refine or_congr ⟨?_, ?_⟩ Iff.rfl
      · rintro ⟨q, hq, u, hu, hub⟩
        refine ⟨q, Finset.mem_insert_of_mem hq, u, ?_, hub⟩
        change u ∈ update g.op p [] q
        rw [hold q hq]
        exact hu
      · rintro ⟨q, hq, u, hu, hub⟩
        rcases Finset.mem_insert.mp hq with rfl | hq
        · simp at hu
        · exact ⟨q, hq, u, hold q hq ▸ hu, hub⟩
    active := by
      intro q hq u hu
      rcases Finset.mem_insert.mp hq with rfl | hq
      · simp at hu
      · exact hg.active q hq u (hold q hq ▸ hu)
    held := fun q b hq => hg.held q b (logging_of_update _ (fun _ => Pc.noConfusion) hq) }

theorem Control.logTest {data : Block} (hg : Control S g)
    (h : Group.next log (.logTest p b data) g = some g') : Control S g' := by
  obtain ⟨hpc, hfull, rfl⟩ := next_logTest h
  have hp : p ∈ S := (hg.member p).mpr (by rw [hpc]; rfl)
  have hmember := member_insert (p := p) (.logging b) hg.member rfl
  rw [Finset.insert_eq_of_mem hp] at hmember
  exact { hg with
    member := hmember
    flag := fun q hq => hg.flag q (inCommit_of_update rfl hq)
    unique := fun q r hq hr =>
      hg.unique q r (inCommit_of_update rfl hq) (inCommit_of_update rfl hr)
    held := by
      intro q x hq
      by_cases hqp : q = p
      · subst hqp
        obtain rfl := Pc.logging.inj ((update_self ..).symm.trans hq)
        exact List.mem_cons_self
      · exact List.mem_cons_of_mem _ (hg.held q x ((update_of_ne hqp _ _).symm.trans hq))
    buffers := by
      have hinsert : (g.m.pins ++ ((p, b) :: g.held).map Prod.snd).toFinset =
          insert b g.inUse.toFinset := by
        ext x
        simp [Group.inUse]
      have hle := hg.buffers
      change (g.m.pins ++ ((p, b) :: g.held).map Prod.snd).toFinset.card ≤ NBUF
      rw [hinsert]
      by_cases hb : b ∈ g.inUse
      · rwa [Finset.insert_eq_of_mem (List.mem_toFinset.mpr hb)]
      · have hroom := not_and.mp hfull hb
        have hcard := Finset.card_insert_le b g.inUse.toFinset
        omega }

/-- The buffers in use are no more if each was in use before. -/
theorem Control.buffers_of_subset (hg : Control S g) {used : List Nat} (h : used ⊆ g.inUse) :
    used.toFinset.card ≤ NBUF :=
  Nat.le_trans (card_toFinset_le h) hg.buffers

/-- The blocks of the operations in progress after `p` logged `b`. -/
theorem exists_update_cons {op : Nat → List Update} {k x : Nat} (hp : p ∈ S) :
    (∃ q ∈ S, ∃ u ∈ update op p ((b, k) :: op p) q, u.1 = x) ↔
      x = b ∨ ∃ q ∈ S, ∃ u ∈ op q, u.1 = x := by
  constructor
  · rintro ⟨q, hq, u, hu, hux⟩
    by_cases hqp : q = p
    · subst hqp
      rw [update_self] at hu
      rcases List.mem_cons.mp hu with rfl | hu
      · exact .inl hux.symm
      · exact .inr ⟨q, hq, u, hu, hux⟩
    · rw [update_of_ne hqp] at hu
      exact .inr ⟨q, hq, u, hu, hux⟩
  · rintro (rfl | ⟨q, hq, u, hu, hux⟩)
    · exact ⟨p, hp, (x, k), by simp, rfl⟩
    · by_cases hqp : q = p
      · subst hqp
        exact ⟨q, hq, u, by simp [hu], hux⟩
      · exact ⟨q, hq, u, by rwa [update_of_ne hqp], hux⟩

/-- What the locked part of `log_write` does to the list of blocks and to
the pins. -/
theorem Control.logAppend_m (hg : Control S g) (hm : logAppend b g.m = some m) :
    m.outstanding = g.m.outstanding ∧ m.committing = g.m.committing ∧ 0 ≤ m.lh.n ∧
      (logged m).Nodup ∧ (∀ x, m.pins.count x = if x ∈ logged m then 1 else 0) ∧
      m.pins ⊆ b :: g.m.pins ∧ ∀ x, x ∈ logged m ↔ x = b ∨ x ∈ logged g.m := by
  rcases logAppend_cases hg.nonneg hm with ⟨hmem, rfl⟩ | ⟨hmem, -, rfl⟩
  · refine ⟨rfl, rfl, hg.nonneg, hg.nodup, hg.pins, List.subset_cons_self _ _, fun x => ⟨.inr, ?_⟩⟩
    rintro (rfl | hx)
    · exact hmem
    · exact hx
  · have hnonneg := hg.nonneg
    have hlogged := logged_addLogged hg.nonneg b
    refine ⟨rfl, rfl, ?_, ?_, fun x => ?_, List.Subset.refl _, fun x => ?_⟩
    · change 0 ≤ g.m.lh.n + 1
      omega
    · rw [hlogged]
      refine hg.nodup.append (List.nodup_singleton b) ?_
      simpa using hmem
    · rw [hlogged]
      by_cases hx : x = b
      · subst hx
        simp [Machine.addLogged, hg.pins, hmem]
      · simp [Machine.addLogged, hg.pins, hx, Ne.symm hx]
    · rw [hlogged]
      simp [or_comm]

theorem Control.logAppend (hg : Control S g)
    (h : Group.next log (.logAppend p) g = some g') : Control S g' := by
  obtain ⟨b, m, hpc, hm, rfl⟩ := next_logAppend h
  have hp : p ∈ S := (hg.member p).mpr (by rw [hpc]; rfl)
  have hmember := member_insert (p := p) .running hg.member rfl
  rw [Finset.insert_eq_of_mem hp] at hmember
  obtain ⟨hout, hcom, hnonneg, hnodup, hpins, hsub, hmem⟩ := hg.logAppend_m hm
  exact { hg with
    member := hmember
    outstanding := hout.trans hg.outstanding
    flag := fun q hq => hcom.trans (hg.flag q (inCommit_of_update rfl hq))
    unique := fun q r hq hr =>
      hg.unique q r (inCommit_of_update rfl hq) (inCommit_of_update rfl hr)
    alone := fun hc => hg.alone (hcom.symm.trans hc)
    nonneg := hnonneg
    nodup := hnodup
    pins := hpins
    blocks := by
      intro x
      refine (hmem x).trans ?_
      refine Iff.trans ?_ (or_congr (exists_update_cons hp).symm Iff.rfl)
      rw [hg.blocks x, or_assoc]
      exact Iff.rfl
    active := by
      intro q hq u hu
      change u ∈ update g.op p ((b, g.commits) :: g.op p) q at hu
      by_cases hqp : q = p
      · subst hqp
        rw [update_self] at hu
        rcases List.mem_cons.mp hu with rfl | hu
        · rfl
        · exact hg.active q hq u hu
      · rw [update_of_ne hqp] at hu
        exact hg.active q hq u hu
    held := by
      intro q x hq
      have hqp : q ≠ p := by
        rintro rfl
        exact Pc.noConfusion ((update_self ..).symm.trans hq)
      refine List.mem_filter.mpr ⟨hg.held q x ((update_of_ne hqp _ _).symm.trans hq), ?_⟩
      simpa using hqp
    buffers := by
      refine hg.buffers_of_subset fun x hx => ?_
      rcases List.mem_append.mp hx with hx | hx
      · rcases List.mem_cons.mp (hsub hx) with rfl | hx
        · exact List.mem_append_right _ (List.mem_map.mpr ⟨_, hg.held p x hpc, rfl⟩)
        · exact List.mem_append_left _ hx
      · exact List.mem_append_right _ (List.map_subset _ (List.filter_subset_self _) hx) }

theorem Control.endOp (hg : Control S g) (h : Group.next log (.endOp p) g = some g') :
    Control (S.erase p) g' := by
  obtain ⟨hpc, hcom, hcases⟩ := next_endOp h
  have hp : p ∈ S := (hg.member p).mpr (by rw [hpc]; rfl)
  have hout := hg.outstanding
  have hcard : ((S.erase p).card : Int) = S.card - 1 := by
    rw [Finset.card_erase_of_mem hp]
    have := Finset.card_pos.mpr ⟨p, hp⟩
    omega
  have hquiet : ∀ q, (g.pc q).InCommit ≠ true := fun q hq =>
    absurd (hcom.symm.trans (hg.flag q hq)) (by decide)
  have hblocks : ∀ x, x ∈ logged g.m ↔
      (∃ q ∈ S.erase p, ∃ u ∈ g.op q, u.1 = x) ∨ Updates (g.op p :: g.ended) x := by
    intro x
    rw [hg.blocks x]
    constructor
    · rintro (⟨q, hq, u, hu, hux⟩ | ⟨o, ho, u, hu, hux⟩)
      · by_cases hqp : q = p
        · subst hqp
          exact .inr ⟨g.op q, by simp, u, hu, hux⟩
        · exact .inl ⟨q, Finset.mem_erase.mpr ⟨hqp, hq⟩, u, hu, hux⟩
      · exact .inr ⟨o, List.mem_cons_of_mem _ ho, u, hu, hux⟩
    · rintro (⟨q, hq, u, hu, hux⟩ | ⟨o, ho, u, hu, hux⟩)
      · exact .inl ⟨q, Finset.mem_of_mem_erase hq, u, hu, hux⟩
      · rcases List.mem_cons.mp ho with rfl | ho
        · exact .inl ⟨p, hp, u, hu, hux⟩
        · exact .inr ⟨o, ho, u, hu, hux⟩
  have hclosed : ∀ o ∈ g.op p :: g.ended, ∀ u ∈ o, u.2 = g.commits := by
    intro o ho u hu
    rcases List.mem_cons.mp ho with rfl | ho
    · exact hg.active p hp u hu
    · exact hg.closed o ho u hu
  have hactive : ∀ q ∈ S.erase p, ∀ u ∈ g.op q, u.2 = g.commits :=
    fun q hq => hg.active q (Finset.mem_of_mem_erase hq)
  rcases hcases with ⟨hone, rfl⟩ | ⟨-, rfl⟩
  · -- the last operation out: nobody is left in an operation
    have hempty : S.erase p = ∅ := by
      rw [← Finset.card_eq_zero]
      omega
    have hself : ∀ q, (update g.pc p .committing q).InCommit = true → q = p := by
      intro q hq
      by_contra hqp
      rw [update_of_ne hqp] at hq
      exact hquiet q hq
    exact { hg with
      member := member_erase _ hg.member rfl
      outstanding := by
        change (0 : Int) = _
        omega
      flag := fun _ _ => rfl
      unique := fun q r hq hr => (hself q hq).trans (hself r hr).symm
      alone := fun _ => hempty
      blocks := hblocks
      active := hactive
      closed := hclosed
      held := fun q b hq => hg.held q b (logging_of_update _ (fun _ => Pc.noConfusion) hq) }
  · exact { hg with
      member := member_erase _ hg.member rfl
      outstanding := by
        change g.m.outstanding - 1 = _
        omega
      flag := fun q hq => absurd (inCommit_of_update rfl hq) (hquiet q)
      unique := fun q _ hq _ => absurd (inCommit_of_update rfl hq) (hquiet q)
      alone := fun hc => absurd (hcom.symm.trans hc) (by decide)
      blocks := hblocks
      active := hactive
      closed := hclosed
      held := fun q b hq => hg.held q b (logging_of_update _ (fun _ => Pc.noConfusion) hq) }

theorem Control.commit (hg : Control S g) (h : Group.next log (.commit p) g = some g') :
    Control S g' := by
  obtain ⟨m, hpc, hrun, rfl⟩ := next_commit h
  obtain ⟨hn, hout, hcom, -, hpins⟩ := commit_held log hg.nonneg hrun
  have hflag : g.m.committing = true := hg.flag p (by rw [hpc]; rfl)
  have hS : S = ∅ := hg.alone hflag
  have hnone : logged m = [] := by simp [logged, hn]
  have hcommit : ∀ q, (update g.pc p .committed q).InCommit = true →
      (g.pc q).InCommit = true := by
    intro q hq
    by_cases hqp : q = p
    · subst hqp
      rw [hpc]
      rfl
    · rwa [update_of_ne hqp] at hq
  have hmember := member_erase (p := p) .committed hg.member rfl
  rw [hS, Finset.erase_empty, ← hS] at hmember
  exact {
    member := hmember
    outstanding := hout.trans hg.outstanding
    flag := fun _ _ => hcom.trans hflag
    unique := fun q r hq hr => hg.unique q r (hcommit q hq) (hcommit r hr)
    alone := fun _ => hS
    nonneg := le_of_eq hn.symm
    nodup := by
      change (logged m).Nodup
      rw [hnone]
      exact List.nodup_nil
    pins := by
      intro b
      change m.pins.count b = if b ∈ logged m then 1 else 0
      rw [hpins, List.count_diff, hg.pins, hnone, hg.nodup.count, Nat.sub_self]
      rfl
    blocks := by
      intro b
      change b ∈ logged m ↔ _
      simp [hnone, hS, Updates]
    active := by
      rw [hS]
      exact fun q hq => absurd hq (Finset.notMem_empty q)
    closed := fun o ho => absurd ho List.not_mem_nil
    unsplit := by
      intro o ho u hu v hv
      rcases List.mem_append.mp ho with ho | ho
      · rw [hg.closed o ho u hu, hg.closed o ho v hv]
      · exact hg.unsplit o ho u hu v hv
    held := fun q b hq => hg.held q b (logging_of_update _ (fun _ => Pc.noConfusion) hq)
    buffers := by
      refine hg.buffers_of_subset fun x hx => ?_
      rcases List.mem_append.mp hx with hx | hx
      · change x ∈ m.pins at hx
        rw [hpins] at hx
        exact List.mem_append_left _ (List.diff_subset _ _ hx)
      · exact List.mem_append_right _ hx }

theorem Control.endCommit (hg : Control S g)
    (h : Group.next log (.endCommit p) g = some g') : Control S g' := by
  obtain ⟨hpc, rfl⟩ := next_endCommit h
  have hcommit : (g.pc p).InCommit = true := by
    rw [hpc]
    rfl
  have hS : S = ∅ := hg.alone (hg.flag p hcommit)
  have hnone : ∀ q, (update g.pc p .outside q).InCommit ≠ true := by
    intro q hq
    by_cases hqp : q = p
    · subst hqp
      rw [update_self] at hq
      cases hq
    · rw [update_of_ne hqp] at hq
      exact hqp (hg.unique q p hq hcommit)
  have hmember := member_erase (p := p) .outside hg.member rfl
  rw [hS, Finset.erase_empty, ← hS] at hmember
  exact { hg with
    member := hmember
    flag := fun q hq => absurd hq (hnone q)
    unique := fun q _ hq _ => absurd hq (hnone q)
    alone := fun _ => hS
    held := fun q b hq => hg.held q b (logging_of_update _ (fun _ => Pc.noConfusion) hq) }

theorem recovered_pins (hm : Recovered log m) : m.pins = [] := by
  obtain ⟨d, -, hrun⟩ := hm
  have hkeep : Keeps Machine.pins (recoverFromLog log) := by
    refine keeps_bind (keeps_bind ((keeps_bread _).comp Held.pins) fun _ =>
      keeps_modify fun _ => rfl) fun _ => ?_
    refine keeps_bind ((keeps_installTrans log).comp Held.pins) fun _ => ?_
    exact keeps_bind (keeps_modify fun _ => rfl) fun _ => (keeps_writeHead log).comp Held.pins
  rw [hkeep.of_run hrun]
  rfl

theorem recovered_settled (hm : Recovered log m) : ∃ T, Settled log T m ∧ m.reached = 0 := by
  obtain ⟨d, hd, hrun⟩ := hm
  refine ⟨replay log d, ?_⟩
  have htriple : Triple (At False d d (boot d).rest) (recoverFromLog log)
      (fun _ s => Settled log (replay log d) s ∧ s.reached = (boot d).rest.reached)
      (fun _ => True) (Lost fun _ _ => True) :=
    triple_recoverFromLog ⟨hd, fun _ _ => rfl⟩ rfl rfl fun _ _ => trivial
  have hsat := htriple (boot d) none (at_reboot (boot d))
  rw [hrun] at hsat
  exact hsat

theorem control_start (hm : Recovered log m) : Control ∅ (Group.start m) := by
  obtain ⟨T, hset, -⟩ := recovered_settled hm
  have hnone : logged (Group.start m).m = [] := by simp [logged, Group.start, hset.lh]
  exact {
    member := fun p => by simp [Group.start, Pc.InOp]
    outstanding := hset.outstanding
    flag := fun p hp => by simp [Group.start, Pc.InCommit] at hp
    unique := fun p _ hp _ => by simp [Group.start, Pc.InCommit] at hp
    alone := fun _ => rfl
    nonneg := le_of_eq hset.lh.symm
    nodup := by
      rw [hnone]
      exact List.nodup_nil
    pins := fun b => by rw [hnone]; simp [Group.start, recovered_pins hm]
    blocks := fun b => by rw [hnone]; simp [Updates, Group.start]
    active := fun p hp => absurd hp (Finset.notMem_empty p)
    closed := fun o ho => absurd ho List.not_mem_nil
    unsplit := fun o ho => absurd ho List.not_mem_nil
    held := fun p b hp => Pc.noConfusion hp
    buffers := by simp [Group.inUse, Group.start, recovered_pins hm] }

theorem control_next {e : Event} (hg : ∃ S, Control S g) (h : Group.next log e g = some g') :
    ∃ S, Control S g' := by
  obtain ⟨S, hg⟩ := hg
  cases e with
  | beginOp p => exact ⟨_, hg.beginOp h⟩
  | logTest p b data => exact ⟨S, hg.logTest h⟩
  | logAppend p => exact ⟨S, hg.logAppend h⟩
  | endOp p => exact ⟨_, hg.endOp h⟩
  | commit p => exact ⟨S, hg.commit h⟩
  | endCommit p => exact ⟨S, hg.endCommit h⟩

end Invariant

end Xv6.Log
