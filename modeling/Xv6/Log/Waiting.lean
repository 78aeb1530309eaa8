import Xv6.Log.GroupCommit
import Xv6.Sleep.Wakeup

/-!
# Nobody is stranded in `begin_op`

The processes that use the log are a client of `sleep` and `wakeup`. The
shared state is the log of `Xv6.Log.Group`, the spinlock `log.lock`, the
channel `&log`, and the condition is the one that `begin_op` waits for: nobody
commits, and the operation fits. The functions called are the sections of
`begin_op`, `log_write` and `end_op` under the lock; the tests of `log_write`
and `commit()` run without it.

`commit()` changes `log.lh.n` without the lock, which would lose a wakeup if
the condition did not stay false until `log.committing` is cleared.
-/

namespace Xv6.Log

open Xv6.Lib.Trans Function

/-! ## The client -/

inductive LogOp where
  | beginOp
  | logAppend
  | endOp
  | endCommit
  deriving DecidableEq, Repr

inductive LogFree where
  | logTest (b : Nat) (data : Block)
  | commit

/-- What `begin_op` waits for. -/
def admits (g : Group) : Bool :=
  !g.m.committing && decide (g.m.lh.n + (g.m.outstanding + 1) * MAXOPBLOCKS ≤ (LOGSIZE : Int))

/-- An event of the group, and whether `wakeup(&log)` follows. -/
def underLock (log : Layout) (e : Event) (wakes : Group → Bool) : Sleep.Instr Group :=
  .set fun g => (Group.next log e g).map fun g' => (g', wakes g')

def client (log : Layout) : Sleep.Client Group where
  Op := LogOp
  code
    | p, .beginOp => [.wait, underLock log (.beginOp p) fun _ => false]
    | p, .logAppend => [underLock log (.logAppend p) fun _ => false]
    -- `end_op` wakes up the others unless it goes on to commit
    | p, .endOp => [underLock log (.endOp p) fun g => decide (g.m.outstanding ≠ 0)]
    | p, .endCommit => [underLock log (.endCommit p) fun _ => true]
  ready
    | p, .beginOp, g => g.pc p = .outside
    | p, .logAppend, g => match g.pc p with
      | .logging _ => true
      | _ => false
    | p, .endOp, g => g.pc p = .running
    | p, .endCommit, g => g.pc p = .committed
  cond := admits
  Free := LogFree
  free
    | p, .logTest b data, g => Group.next log (.logTest p b data) g
    | p, .commit, g => Group.next log (.commit p) g

/-! ## An idle log is empty -/

/-- Once nobody is in an operation or commits, the log is empty. -/
structure Emptied (g : Group) : Prop where
  committed : ∀ p, g.pc p = .committed → g.m.lh.n = 0
  idle : g.m.outstanding = 0 → g.m.committing = false → g.m.lh.n = 0

section Idle

variable {log : Layout} {S : Finset Nat} {g g' : Group} {p : Nat} {e : Event}

/-- Nobody has committed where somebody is in an operation. -/
theorem Control.not_committed (hc : Control S g) (hp : (g.pc p).InOp = true) (q : Nat) :
    g.pc q ≠ .committed := by
  intro hq
  have hempty := hc.alone (hc.flag q (by rw [hq]; rfl))
  have hmem := (hc.member p).mpr hp
  rw [hempty] at hmem
  exact absurd hmem (Finset.notMem_empty p)

theorem committed_of_update {pc : Pc} {q : Nat} (hpc : pc ≠ .committed)
    (h : update g.pc p pc q = .committed) : g.pc q = .committed := by
  by_cases hq : q = p
  · subst hq
    rw [update_self] at h
    exact absurd h hpc
  · rwa [update_of_ne hq] at h

theorem emptied_next (hc : Control S g) (h : Emptied g) (hnext : Group.next log e g = some g') :
    Emptied g' := by
  have hout := hc.outstanding
  cases e with
  | beginOp p =>
    obtain ⟨-, -, -, rfl⟩ := next_beginOp hnext
    refine ⟨fun q hq => h.committed q (committed_of_update Pc.noConfusion hq), fun hzero => ?_⟩
    have hzero' : g.m.outstanding + 1 = 0 := hzero
    omega
  | logTest p b data =>
    obtain ⟨-, -, rfl⟩ := next_logTest hnext
    exact ⟨fun q hq => h.committed q (committed_of_update Pc.noConfusion hq), h.idle⟩
  | logAppend p =>
    obtain ⟨b, m, hpc, hm, rfl⟩ := next_logAppend hnext
    have hin : (g.pc p).InOp = true := by rw [hpc]; rfl
    refine ⟨fun q hq => ?_, fun hzero => ?_⟩
    · exact absurd (committed_of_update Pc.noConfusion hq) (hc.not_committed hin q)
    · -- the operation of `p` is outstanding
      have hpos := Finset.card_pos.mpr ⟨p, (hc.member p).mpr hin⟩
      have hzero' : m.outstanding = 0 := hzero
      rcases logAppend_cases hc.nonneg hm with ⟨-, rfl⟩ | ⟨-, -, rfl⟩
      · omega
      · change g.m.outstanding = 0 at hzero'
        omega
  | endOp p =>
    obtain ⟨hpc, -, hcases⟩ := next_endOp hnext
    have hin : (g.pc p).InOp = true := by rw [hpc]; rfl
    rcases hcases with ⟨-, rfl⟩ | ⟨hne, rfl⟩
    · refine ⟨fun q hq => ?_, fun _ hfalse => by cases hfalse⟩
      exact absurd (committed_of_update Pc.noConfusion hq) (hc.not_committed hin q)
    · refine ⟨fun q hq => ?_, fun hzero => ?_⟩
      · exact absurd (committed_of_update Pc.noConfusion hq) (hc.not_committed hin q)
      · have hzero' : g.m.outstanding - 1 = 0 := hzero
        omega
  | commit p =>
    obtain ⟨m, hpc, hrun, rfl⟩ := next_commit hnext
    obtain ⟨hn, -⟩ := commit_held log hc.nonneg hrun
    exact ⟨fun _ _ => hn, fun _ _ => hn⟩
  | endCommit p =>
    obtain ⟨hpc, rfl⟩ := next_endCommit hnext
    have hn := h.committed p hpc
    exact ⟨fun _ _ => hn, fun _ _ => hn⟩

/-! ## Whoever makes room wakes up the others -/

def LogInv (g : Group) : Prop := (∃ S, Control S g) ∧ Emptied g

theorem logInv_next (h : LogInv g) (hnext : Group.next log e g = some g') : LogInv g' := by
  obtain ⟨⟨S, hc⟩, hempty⟩ := h
  exact ⟨control_next ⟨S, hc⟩ hnext, emptied_next hc hempty hnext⟩

theorem admits_iff : admits g = true ↔
    g.m.committing = false ∧ g.m.lh.n + (g.m.outstanding + 1) * MAXOPBLOCKS ≤ (LOGSIZE : Int) := by
  simp [admits]

/-- An event with a flag that is set whenever the event makes room. -/
theorem underLock_wakes {wakes : Group → Bool} {f : Group → Option (Group × Bool)}
    {b : Bool} (hf : underLock log e wakes = .set f) (hinv : LogInv g) (hset : f g = some (g', b))
    (hwakes : Group.next log e g = some g' → admits g = false → admits g' = true →
      wakes g' = true) : LogInv g' ∧ (admits g = false → admits g' = true → b = true) := by
  cases hf
  obtain ⟨g1, hnext, heq⟩ := Option.map_eq_some_iff.mp hset
  cases heq
  exact ⟨logInv_next hinv hnext, hwakes hnext⟩

theorem admits_logAppend (hc : Control S g) (hnext : Group.next log (.logAppend p) g = some g')
    (h : admits g' = true) : admits g = true := by
  obtain ⟨b, m, -, hm, rfl⟩ := next_logAppend hnext
  rcases logAppend_cases hc.nonneg hm with ⟨-, rfl⟩ | ⟨-, -, rfl⟩
  · exact h
  · obtain ⟨hcom, hroom⟩ := admits_iff.mp h
    have hroom' : g.m.lh.n + 1 + (g.m.outstanding + 1) * MAXOPBLOCKS ≤ (LOGSIZE : Int) := hroom
    exact admits_iff.mpr ⟨hcom, by omega⟩

theorem client_wakes (log : Layout) : (client log).Wakes LogInv where
  set := by
    intro p op f hmem g g' b hinv hset
    obtain ⟨S, hc⟩ := hinv.1
    cases op with
    | beginOp =>
      simp only [client, List.mem_cons, List.not_mem_nil, or_false, reduceCtorEq, false_or] at hmem
      refine underLock_wakes hmem.symm hinv hset fun hnext hfull _ => ?_
      obtain ⟨-, hcom, hroom, -⟩ := next_beginOp hnext
      exact absurd (hfull.symm.trans (admits_iff.mpr ⟨hcom, hroom⟩)) Bool.false_ne_true
    | logAppend =>
      simp only [client, List.mem_singleton] at hmem
      refine underLock_wakes hmem.symm hinv hset fun hnext hfull hroom => ?_
      exact absurd (hfull.symm.trans (admits_logAppend hc hnext hroom)) Bool.false_ne_true
    | endOp =>
      simp only [client, List.mem_singleton] at hmem
      refine underLock_wakes hmem.symm hinv hset fun hnext _ hroom => ?_
      obtain ⟨-, -, hcases⟩ := next_endOp hnext
      rcases hcases with ⟨-, rfl⟩ | ⟨hne, rfl⟩
      · -- the last operation goes on to commit
        exact absurd (admits_iff.mp hroom).1 Bool.noConfusion
      · show decide (g.m.outstanding - 1 ≠ 0) = true
        rw [decide_eq_true_iff]
        omega
    | endCommit =>
      simp only [client, List.mem_singleton] at hmem
      exact underLock_wakes hmem.symm hinv hset fun _ _ _ => rfl
  free := by
    intro p f g g' hinv hf
    cases f with
    | logTest b data =>
      refine ⟨logInv_next hinv hf, fun hfull => ?_⟩
      obtain ⟨-, -, -, rfl⟩ := next_logTest hf
      exact hfull
    | commit =>
      refine ⟨logInv_next hinv hf, fun _ => ?_⟩
      -- `log.committing` stays set until the lock is taken again
      obtain ⟨⟨S, hc⟩, -⟩ := hinv
      obtain ⟨m, hpc, hrun, rfl⟩ := next_commit hf
      obtain ⟨-, -, hcom, -⟩ := commit_held log hc.nonneg hrun
      have hflag := hc.flag p (by rw [hpc]; rfl)
      rw [← Bool.not_eq_true]
      intro hroom
      have hfalse : m.committing = false := (admits_iff.mp hroom).1
      rw [hcom, hflag] at hfalse
      cases hfalse

end Idle

/-! ## Runs -/

/-- Nobody sleeps on `&log` while there is room, and there is room once the
operations have ended. -/
structure NotStranded (w : Sleep.World Group) : Prop where
  awake : w.lk = none → w.shared.m.committing = false →
    w.shared.m.lh.n + (w.shared.m.outstanding + 1) * MAXOPBLOCKS ≤ (LOGSIZE : Int) →
    ∀ q, ¬((w.proc q).state = .sleeping ∧ (w.proc q).chan = true)
  emptied : w.shared.m.outstanding = 0 → w.shared.m.committing = false → w.shared.m.lh.n = 0
  admitted : w.shared.m.outstanding = 0 → w.shared.m.committing = false → admits w.shared = true

theorem begin_op_not_stranded (log : Layout) {m : Machine} (hm : Recovered log m) (n : Nat)
    {w : Sleep.World Group}
    (h : Reach (Sleep.next (client log) n) (fun _ _ => True) (Sleep.start (Group.start m)) w) :
    NotStranded w := by
  obtain ⟨T, hset, -⟩ := recovered_settled hm
  have hstart : LogInv (Group.start m) :=
    ⟨⟨∅, control_start hm⟩, fun _ hp => Pc.noConfusion hp, fun _ _ => hset.lh⟩
  have hok := Sleep.World.reach_ok ((client_wakes log).outline hstart) h
  have hinv : LogInv w.shared := hok.inv
  have hempty := hinv.2.idle
  refine ⟨fun hlk hcom hroom => ?_, hempty, fun hout hcom => ?_⟩
  · exact hok.nobodySleeps hlk (admits_iff.mpr ⟨hcom, hroom⟩)
  · rw [admits_iff, hempty hout hcom, hout]
    exact ⟨hcom, by decide⟩

/-- Three operations reserve the whole log; a fourth process sleeps in
`begin_op` until one of them ends. -/
def queueEvents : List (Sleep.Event (client mkfsLog)) :=
  ([0, 1, 2].flatMap fun p => .call p .beginOp :: List.replicate 4 (.step p)) ++
    .call 3 .beginOp :: List.replicate 7 (.step 3) ++
    .call 0 .endOp :: List.replicate 16 (.step 0)

theorem begin_op_not_stranded_fourth :
    ∃ w, Reach (Sleep.next (client mkfsLog) 4) (fun _ _ => True)
        (Sleep.start (Group.start booted)) w ∧
      w.shared.m.outstanding = 2 ∧ (w.proc 3).chan = true ∧ (w.proc 3).state ≠ .sleeping := by
  have hrun : ((follow (Sleep.next (client mkfsLog) 4) (fun _ _ => true) queueEvents
      (Sleep.start (Group.start booted))).any fun w =>
        decide (w.lk = none ∧ w.shared.m.committing = false ∧ w.shared.m.lh.n = 0 ∧
          w.shared.m.outstanding = 2 ∧ (w.proc 3).chan = true)) = true := by
    decide +kernel
  obtain ⟨w, hreach, hfact⟩ := Reach.of_any hrun
  obtain ⟨hlk, hcom, hn, hout, hchan⟩ := of_decide_eq_true hfact
  refine ⟨w, hreach, hout, hchan, fun hsleep => ?_⟩
  have hroom : w.shared.m.lh.n + (w.shared.m.outstanding + 1) * MAXOPBLOCKS ≤ (LOGSIZE : Int) := by
    rw [hn, hout]
    decide
  exact (begin_op_not_stranded mkfsLog recovered_booted 4 hreach).awake hlk hcom hroom 3
    ⟨hsleep, hchan⟩

end Xv6.Log
