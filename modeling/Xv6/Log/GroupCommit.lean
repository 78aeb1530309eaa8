import Mathlib.Algebra.BigOperators.Group.Finset.Basic
import Xv6.Lib.Sum
import Xv6.Log.Group

/-!
# Isolation and capacity of group commit

Two results about every schedule of `Xv6.Log.Group`.

*Isolation.*  While `commit()` runs no operation is in progress and none
starts, so a commit takes all updates of the operations that ended since
the commit before it and nothing of any other. That this is also what
reaches the disk needs the log to be large enough for the blocks in it.
The tests of `log_write` that are meant to see to it are made before
`log.lock` is taken, so that two processes can both pass them with one
place left, and the log that `mkfs` lays out then has one block too many.
What saves the disk is the size of the buffer cache: the `LOGSIZE` blocks in
the log pin all `NBUF` buffers, so that `commit()` panics in `bget` before its
first write (`commit_full`). With `LOGSIZE` blocks for the log and its header
the law holds in every state (`group_commit_isolation`).

*Capacity.*  `begin_op` reserves `MAXOPBLOCKS` of `LOGSIZE` blocks for each
operation, while the log that `mkfs` lays out has `LOGSIZE` blocks with the
header, and `log_write` wants one more to be free even for a block that is
already logged. Three operations that use what was reserved for them reach
the panic (`reservation_overrun`); reserving against `log.size - 1` blocks,
not all of them used, is enough (`reservation_suffices`).
-/

namespace Xv6.Log

open Xv6.Lib.Crash Xv6.Lib.Trans Function

variable {log : Layout}

/-! ## The blocks on the disk -/

/-- All blocks in the log are home blocks, and outside of them the buffers
hold what the disk holds. -/
structure Stored (log : Layout) (g : Group) : Prop where
  home : ∀ b ∈ logged g.m, log.IsHome b
  pending : ∀ p b, g.pc p = .logging b → log.IsHome b
  clean : ∀ b, b ∉ logged g.m → (∀ p, g.pc p ≠ .logging b) → g.m.content b = g.m.disk b
  empty : headN (g.m.disk log.start) = 0
  reached : g.m.reached ≤ g.m.current

/-- What a step has to meet: a logged block lies outside of the log area. -/
def HomeLogged (log : Layout) : Event → Group → Prop
  | .logTest _ b _, _ => log.IsHome b
  | _, _ => True

section Stored

variable {S : Finset Nat} {g g' : Group} {p : Nat}

/-- A step that leaves disk, buffers and `log.lh` alone and moves a process
that is not in `log_write` to another such place. -/
theorem Stored.move (pc : Pc) (hg : Stored log g) (hat : ∀ x, g.pc p ≠ .logging x)
    (hpc : ∀ x, pc ≠ .logging x) (hlh : g'.m.lh = g.m.lh) (hdisk : g'.m.disk = g.m.disk)
    (hcache : g'.m.cache = g.m.cache) (hcur : g'.m.current = g.m.current)
    (hreached : g'.m.reached = g.m.reached) (hpc' : g'.pc = update g.pc p pc) : Stored log g' := by
  have hlogged : logged g'.m = logged g.m := by simp [logged, hlh]
  have hcontent : g'.m.content = g.m.content := by
    funext b
    simp [Machine.content, hdisk, hcache]
  exact {
    home := hlogged ▸ hg.home
    pending := fun q b hq => hg.pending q b (logging_of_update _ hpc (hpc' ▸ hq))
    clean := by
      intro b hb hnone
      rw [hcontent, hdisk]
      refine hg.clean b (hlogged ▸ hb) fun q hq => hnone q ?_
      have hqp : q ≠ p := by
        rintro rfl
        exact hat b hq
      rw [hpc', update_of_ne hqp, hq]
    empty := hdisk ▸ hg.empty
    reached := by
      rw [hreached, hcur]
      exact hg.reached }

theorem Stored.logTest {b : Nat} {data : Block} (hg : Stored log g) (hb : log.IsHome b)
    (h : Group.next log (.logTest p b data) g = some g') : Stored log g' := by
  obtain ⟨hpc, -, rfl⟩ := next_logTest h
  exact { hg with
    pending := by
      intro q x hq
      change update g.pc p (.logging b) q = .logging x at hq
      by_cases hqp : q = p
      · subst hqp
        rw [update_self] at hq
        cases hq
        exact hb
      · rw [update_of_ne hqp] at hq
        exact hg.pending q x hq
    clean := by
      intro x hx hnone
      have hxb : x ≠ b := by
        rintro rfl
        exact hnone p (update_self _ _ _)
      change Machine.content { g.m with cache := update g.m.cache b (some data) } x = _
      rw [content_update_cache, update_of_ne hxb]
      refine hg.clean x hx fun q hq => hnone q ?_
      have hqp : q ≠ p := by
        rintro rfl
        rw [hpc] at hq
        cases hq
      exact (update_of_ne hqp _ _).trans hq }

theorem Stored.logAppend (hc : Control S g) (hg : Stored log g)
    (h : Group.next log (.logAppend p) g = some g') : Stored log g' := by
  obtain ⟨b, m, hpc, hm, rfl⟩ := next_logAppend h
  obtain ⟨-, -, -, -, -, -, hmem⟩ := hc.logAppend_m hm
  have hsame : m.content = g.m.content ∧ m.disk = g.m.disk ∧ m.reached = g.m.reached ∧
      m.current = g.m.current := by
    rcases logAppend_cases hc.nonneg hm with ⟨-, rfl⟩ | ⟨-, -, rfl⟩
    · exact ⟨rfl, rfl, rfl, rfl⟩
    · exact ⟨rfl, rfl, rfl, rfl⟩
  obtain ⟨hcontent, hdisk, hreached, hcurrent⟩ := hsame
  exact {
    home := by
      intro x hx
      rcases (hmem x).mp hx with rfl | hx
      · exact hg.pending p x hpc
      · exact hg.home x hx
    pending := fun q x hq => hg.pending q x (logging_of_update _ (fun _ => Pc.noConfusion) hq)
    clean := by
      intro x hx hnone
      have hxb : x ≠ b := by
        rintro rfl
        exact hx ((hmem x).mpr (.inl rfl))
      change m.content x = m.disk x
      rw [hcontent, hdisk]
      refine hg.clean x (fun hx' => hx ((hmem x).mpr (.inr hx'))) fun q hq => hnone q ?_
      have hqp : q ≠ p := by
        rintro rfl
        rw [hpc] at hq
        cases hq
        exact hxb rfl
      exact (update_of_ne hqp _ _).trans hq
    empty := by
      change headN (m.disk log.start) = 0
      rw [hdisk]
      exact hg.empty
    reached := by
      change m.reached ≤ m.current
      rw [hreached, hcurrent]
      exact hg.reached }

/-- The blocks in the log with their buffered contents. -/
def pendingTx (m : Machine) : List (Nat × Block) := (logged m).map fun b => (b, m.content b)

theorem map_fst_pendingTx (m : Machine) : (pendingTx m).map Prod.fst = logged m := by
  simp [pendingTx, Function.comp_def]

theorem length_pendingTx (m : Machine) : (pendingTx m).length = m.lh.n.toNat := by
  simp [pendingTx, logged]

theorem blockOf_pendingTx {m : Machine} {j : Nat} (hj : j < m.lh.n.toNat) :
    blockOf (pendingTx m) j = m.lh.block j := by
  simp [blockOf, map_fst_pendingTx, logged, hj]

theorem dataOf_pendingTx {m : Machine} {j : Nat} (hj : j < m.lh.n.toNat) :
    dataOf (pendingTx m) j = m.content (m.lh.block j) := by
  simp [dataOf, pendingTx, logged, hj]

/-- The buffers hold the disk with the logged blocks applied. -/
theorem content_eq_applyTx {m : Machine} (hnodup : (logged m).Nodup)
    (hclean : ∀ b ∉ logged m, m.content b = m.disk b) :
    m.content = applyTx m.disk (pendingTx m) := by
  funext b
  by_cases hb : b ∈ logged m
  · obtain ⟨j, hj, rfl⟩ := mem_logged.mp hb
    have htx : ((pendingTx m).map Prod.fst).Nodup := by
      rw [map_fst_pendingTx]
      exact hnodup
    have happly := applyTx_blockOf m.disk htx (j := j) (by rw [length_pendingTx]; exact hj)
    rw [blockOf_pendingTx hj, dataOf_pendingTx hj] at happly
    exact happly.symm
  · rw [hclean b hb, applyTx_eq_install]
    refine (install_of_ne fun j hj hjb => hb ?_).symm
    rw [length_pendingTx] at hj
    rw [blockOf_pendingTx hj] at hjb
    exact mem_logged.mpr ⟨j, hj, hjb⟩

theorem Control.mem_pins (hc : Control S g) {b : Nat} : b ∈ g.m.pins ↔ b ∈ logged g.m := by
  rw [← List.count_pos_iff, hc.pins]
  split <;> simp_all

theorem Control.card_pins (hc : Control S g) : g.m.pins.toFinset.card = g.m.lh.n.toNat := by
  have hsame : g.m.pins.toFinset = (logged g.m).toFinset := by
    ext b
    rw [List.mem_toFinset, List.mem_toFinset, hc.mem_pins]
  rw [hsame, List.toFinset_card_of_nodup hc.nodup]
  simp [logged]

/-- There is a pinned buffer for each logged block, so the log is no longer than
the cache. -/
theorem Control.n_le (hc : Control S g) : g.m.lh.n.toNat ≤ NBUF := by
  rw [← hc.card_pins]
  exact hc.buffers_of_subset (List.subset_append_left _ _)

/-- With a buffer left `commit()` runs to its end and brings every home block to
what its buffer holds. -/
theorem commit_stores (hsize : LOGSIZE ≤ log.size) (hc : Control S g)
    (hg : Stored log g) (hpc : g.pc p = .committing) (hroom : g.m.lh.n.toNat < NBUF) :
    ∃ m, (commit log).run g.m none = .done () m none ∧
      Settled log g.m.content { m with committing := false } ∧ m.reached ≤ g.m.current := by
  have hflag : g.m.committing = true := hc.flag p (by rw [hpc]; rfl)
  have hS : S = ∅ := hc.alone hflag
  have hidle : ∀ q b, g.pc q ≠ .logging b := by
    intro q b hq
    have hmem : q ∈ S := (hc.member q).mpr (by rw [hq]; rfl)
    rw [hS] at hmem
    exact Finset.notMem_empty q hmem
  have hcontent := content_eq_applyTx hc.nodup fun b hb => hg.clean b hb fun q => hidle q b
  have hnonneg := hc.nonneg
  have hcache : NBUF = LOGSIZE := rfl
  have hlen := length_pendingTx g.m
  have htx : IsTransaction log (pendingTx g.m) := by
    refine ⟨by rw [map_fst_pendingTx]; exact hc.nodup, ?_, by omega⟩
    intro u hu
    obtain ⟨b, hb, rfl⟩ := List.mem_map.mp hu
    exact hg.home b hb
  have htriple := triple_commitTx False.elim (H := fun _ => False) (D := fun _ _ => True)
    (A := g.m.disk) (v := g.m.rest) htx (by omega) hg.empty (fun _ _ => rfl)
    (by change g.m.lh.n = _; omega)
    (fun j hj => (blockOf_pendingTx (by omega)).symm)
    (by change g.m.outstanding = 0; rw [hc.outstanding, hS]; rfl) hg.reached
    (fun _ _ => trivial) (fun _ _ => trivial)
  rw [← hcontent] at htriple
  have hsat := htriple g.m none ⟨rfl, rfl, rfl, .inr (by rwa [hc.card_pins])⟩
  cases hrun : (commit log).run g.m none with
  | done a m power =>
    obtain rfl := Prog.run_none_power _ hrun
    rw [hrun] at hsat
    exact ⟨m, rfl, hsat.1, hsat.2.1⟩
  | halted e m =>
    rw [hrun] at hsat
    exact hsat.elim
  | lost m => exact absurd hrun (Prog.run_none_ne_lost _ _ _)

/-- With all buffers pinned `commit()` panics where it reads its first log
block, and has written nothing. -/
theorem commit_full (hsize : LOGSIZE ≤ log.size) (hc : Control S g) (hg : Stored log g)
    (hfull : g.m.lh.n.toNat = NBUF) : (commit log).run g.m none = .halted .noBuffers g.m := by
  have hcache : NBUF = 30 ∧ LOGSIZE = 30 := ⟨rfl, rfl⟩
  have hnone : NoBuffer g.m.pins (log.start + 0 + 1) := by
    refine ⟨fun hmem => ?_, by rw [hc.card_pins, hfull]⟩
    exact (hg.home _ (hc.mem_pins.mp hmem)).ne_log (i := 1) (by omega) rfl
  have hbread : (bread (log.start + 0 + 1)).run g.m none = .halted .noBuffers g.m := by
    change Prog.run (ite _ _ _) g.m none = _
    rw [if_pos hnone]
    rfl
  have hwrite : (writeLog log).run g.m none = .halted .noBuffers g.m := by
    change (Prog.forTo g.m.lh.n.toNat _).run g.m none = _
    rw [hfull]
    exact Prog.run_bind_halted (Prog.run_bind_halted hbread)
  change Prog.run (ite _ _ _) g.m none = _
  rw [if_pos (by omega)]
  exact Prog.run_bind_halted hwrite

theorem Stored.commit (hsize : LOGSIZE ≤ log.size) (hc : Control S g) (hg : Stored log g)
    (h : Group.next log (.commit p) g = some g') : Stored log g' := by
  obtain ⟨m, hpc, hrun, rfl⟩ := next_commit h
  have hroom : g.m.lh.n.toNat < NBUF := by
    refine Nat.lt_of_le_of_ne hc.n_le fun hfull => ?_
    rw [commit_full hsize hc hg hfull] at hrun
    cases hrun
  obtain ⟨m', hrun', hset, hreached⟩ := commit_stores hsize hc hg hpc hroom
  rw [hrun] at hrun'
  cases hrun'
  obtain ⟨hn, -, -, hcurrent, -⟩ := commit_held log hc.nonneg hrun
  have hnone : logged m = [] := by simp [logged, hn]
  exact {
    home := by
      change ∀ b ∈ logged m, _
      rw [hnone]
      exact fun b hb => absurd hb List.not_mem_nil
    pending := fun q b hq => hg.pending q b (logging_of_update _ (fun _ => Pc.noConfusion) hq)
    clean := fun b _ _ => congrFun hset.clean b
    empty := hset.empty
    reached := by
      change m.reached ≤ m.current
      rw [hcurrent]
      exact hreached }

theorem stored_start {m : Machine} (hm : Recovered log m) : Stored log (Group.start m) := by
  obtain ⟨T, hset, hreached⟩ := recovered_settled hm
  have hn : (Group.start m).m.lh.n = 0 := hset.lh
  exact {
    home := fun b hb => by simp [logged, hn] at hb
    pending := fun _ _ h => by cases h
    clean := fun b _ _ => congrFun hset.clean b
    empty := hset.empty
    reached := le_of_eq_of_le hreached (Nat.zero_le _) }

theorem stored_next {e : Event} (hsize : LOGSIZE ≤ log.size) (hc : Control S g) (hg : Stored log g)
    (hhome : HomeLogged log e g) (h : Group.next log e g = some g') : Stored log g' := by
  cases e with
  | beginOp p =>
    obtain ⟨hpc, -, -, rfl⟩ := next_beginOp h
    exact hg.move .running (fun x hx => by simp [hpc] at hx) (fun _ => Pc.noConfusion)
      rfl rfl rfl rfl rfl rfl
  | logTest p b data => exact hg.logTest hhome h
  | logAppend p => exact hg.logAppend hc h
  | endOp p =>
    obtain ⟨hpc, -, hcases⟩ := next_endOp h
    have hat : ∀ x, g.pc p ≠ .logging x := fun x hx => by simp [hpc] at hx
    rcases hcases with ⟨-, rfl⟩ | ⟨-, rfl⟩
    · exact hg.move .committing hat (fun _ => Pc.noConfusion) rfl rfl rfl rfl rfl rfl
    · exact hg.move .outside hat (fun _ => Pc.noConfusion) rfl rfl rfl rfl rfl rfl
  | commit p => exact hg.commit hsize hc h
  | endCommit p =>
    obtain ⟨hpc, rfl⟩ := next_endCommit h
    exact hg.move .outside (fun x hx => by simp [hpc] at hx) (fun _ => Pc.noConfusion)
      rfl rfl rfl rfl rfl rfl

end Stored

/-! ## Isolation -/

/-- The law of group commit in one state. -/
structure Isolated (log : Layout) (g : Group) : Prop where
  committing : g.m.committing = true → g.m.outstanding = 0
  /-- No `begin_op` completes and no `log_write` runs during `commit()`. -/
  exclusive : ∀ p, (g.pc p).InCommit = true → ∀ q,
    Group.next log (.beginOp q) g = none ∧
    (∀ b data, Group.next log (.logTest q b data) g = none) ∧
    Group.next log (.logAppend q) g = none
  distinct : (logged g.m).Nodup
  pinned : ∀ b, g.m.pins.count b = if b ∈ logged g.m then 1 else 0
  /-- A commit starts when all operations have ended. It brings to the disk
  exactly the blocks of those that ended since the last one, or it finds a
  pinned block in every buffer of the cache, panics and writes nothing. -/
  durable : ∀ p, g.pc p = .committing →
    (∀ q, (g.pc q).InOp = false) ∧
    ((∃ g', Group.next log (.commit p) g = some g' ∧ ∀ b, log.IsHome b →
        (Updates g.ended b → g'.m.disk b = g.m.content b) ∧
        (¬Updates g.ended b → g'.m.disk b = g.m.disk b)) ∨
      (logged g.m).length = NBUF ∧ ∃ m, (commit log).run g.m none = .halted .noBuffers m ∧
        m.disk = g.m.disk)
  /-- All updates of an operation come between the same two commits. -/
  unsplit : (∀ p, (g.pc p).InOp = true → ∀ u ∈ g.op p, ∀ v ∈ g.op p, u.2 = v.2) ∧
    ∀ o ∈ g.ended ++ g.past, ∀ u ∈ o, ∀ v ∈ o, u.2 = v.2

section Isolation

variable {S : Finset Nat} {g : Group}

theorem Control.next_none {p : Nat} (hc : Control S g) (hp : (g.pc p).InCommit = true) (q : Nat) :
    Group.next log (.beginOp q) g = none ∧ (∀ b data, Group.next log (.logTest q b data) g = none) ∧
      Group.next log (.logAppend q) g = none := by
  have hflag := hc.flag p hp
  have hout : ∀ pc, g.pc q = pc → pc.InOp ≠ true := by
    rintro pc rfl hq
    have hmem := (hc.member q).mpr hq
    rw [hc.alone hflag] at hmem
    exact Finset.notMem_empty q hmem
  refine ⟨?_, fun b data => ?_, ?_⟩
  · rw [Option.eq_none_iff_forall_ne_some]
    intro g' h
    obtain ⟨-, hcom, -⟩ := next_beginOp h
    exact absurd (hcom.symm.trans hflag) (by decide)
  · rw [Option.eq_none_iff_forall_ne_some]
    intro g' h
    exact hout _ (next_logTest h).1 rfl
  · rw [Option.eq_none_iff_forall_ne_some]
    intro g' h
    obtain ⟨b, m, hpc, -⟩ := next_logAppend h
    exact hout _ hpc rfl

theorem isolated_of_inv (hsize : LOGSIZE ≤ log.size) (hc : Control S g) (hg : Stored log g) :
    Isolated log g where
  committing := by
    intro hcom
    rw [hc.outstanding, hc.alone hcom]
    rfl
  exclusive := fun p hp q => hc.next_none hp q
  distinct := hc.nodup
  pinned := hc.pins
  durable := by
    intro p hpc
    have hS : S = ∅ := hc.alone (hc.flag p (by rw [hpc]; rfl))
    have hidle : ∀ q, (g.pc q).InOp = false := by
      intro q
      rw [Bool.eq_false_iff]
      intro hq
      have hmem := (hc.member q).mpr hq
      rw [hS] at hmem
      exact Finset.notMem_empty q hmem
    have hended : ∀ b, b ∈ logged g.m ↔ Updates g.ended b := by
      intro b
      rw [hc.blocks b, hS]
      simp
    refine ⟨hidle, ?_⟩
    rcases Nat.lt_or_eq_of_le hc.n_le with hroom | hfull
    swap
    · exact .inr ⟨by simpa [logged] using hfull, g.m, commit_full hsize hc hg hfull, rfl⟩
    obtain ⟨m, hrun, hset, -⟩ := commit_stores hsize hc hg hpc hroom
    refine .inl ⟨_, next_commit_of_run hpc hrun, fun b hb => ?_⟩
    refine ⟨fun _ => hset.home b hb, fun hnot => (hset.home b hb).trans ?_⟩
    refine hg.clean b (fun hmem => hnot ((hended b).mp hmem)) fun q hq => ?_
    have hq' := hidle q
    rw [hq] at hq'
    cases hq'
  unsplit := by
    refine ⟨fun p hp u hu v hv => ?_, fun o ho u hu v hv => ?_⟩
    · have hmem := (hc.member p).mpr hp
      rw [hc.active p hmem u hu, hc.active p hmem v hv]
    · rcases List.mem_append.mp ho with ho | ho
      · rw [hc.closed o ho u hu, hc.closed o ho v hv]
      · exact hc.unsplit o ho u hu v hv

/-- In every schedule of operations on blocks outside of the log area, group
commit is isolated in every state. -/
theorem group_commit_isolation {log : Layout} (hsize : LOGSIZE ≤ log.size) {m : Machine}
    (hm : Recovered log m) {g : Group}
    (hrun : Reach (Group.next log) (HomeLogged log) (Group.start m) g) : Isolated log g := by
  have hinv : (∃ S, Control S g) ∧ Stored log g := by
    refine hrun.invariant (I := fun g => (∃ S, Control S g) ∧ Stored log g)
      ⟨⟨∅, control_start hm⟩, stored_start hm⟩ ?_
    rintro e g g' ⟨⟨S, hc⟩, hg⟩ hhome hnext
    exact ⟨control_next ⟨S, hc⟩ hnext, stored_next hsize hc hg hhome hnext⟩
  obtain ⟨⟨S, hc⟩, hg⟩ := hinv
  exact isolated_of_inv hsize hc hg

/-! ### Schedules on the disk that `mkfs` makes -/

/-- The log of an image made by `mkfs`: `nlog = LOGSIZE` blocks after the
boot block and the super block. -/
def mkfsLog : Layout := ⟨2, LOGSIZE, by decide⟩

/-- The machine booted from an empty disk. -/
def booted : Machine := endState ((recoverFromLog mkfsLog).run (boot fun _ _ => 0) none)

theorem recovered_booted : Recovered mkfsLog booted := by
  refine ⟨_, headerOk_zero mkfsLog, ?_⟩
  have htriple : Triple (At False (fun _ _ => 0) (fun _ _ => 0) (boot fun _ _ => 0).rest)
      (recoverFromLog mkfsLog)
      (fun _ s => Settled mkfsLog (replay mkfsLog fun _ _ => 0) s ∧
        s.reached = (boot fun _ _ => 0).rest.reached)
      (fun _ => False) (Lost fun _ _ => True) :=
    triple_recoverFromLog ⟨headerOk_zero mkfsLog, fun _ _ => rfl⟩ rfl rfl fun _ _ => trivial
  have hsat := htriple (boot fun _ _ => 0) none (at_reboot (boot fun _ _ => 0))
  unfold booted
  cases hrun : (recoverFromLog mkfsLog).run (boot fun _ _ => 0) none with
  | done a m power =>
    obtain rfl := Prog.run_none_power _ hrun
    rfl
  | halted e m =>
    rw [hrun] at hsat
    exact hsat.elim
  | lost m => exact absurd hrun (Prog.run_none_ne_lost _ _ _)

/-- Process `p` logs `n` blocks from block `b` on, one after the other. -/
def logBlocks (p b n : Nat) : List Event :=
  (List.range n).flatMap fun i => [.logTest p (b + i) (fun _ => 7), .logAppend p]

/-- Three operations have logged 28 blocks, and two of them pass the tests
of `log_write` before either takes the lock. -/
def overrunEvents : List Event :=
  [.beginOp 0, .beginOp 1, .beginOp 2] ++ logBlocks 0 100 9 ++ logBlocks 1 110 9 ++
    logBlocks 2 120 10 ++
    [.logTest 0 109 (fun _ => 7), .logTest 1 119 (fun _ => 7), .logAppend 0, .logAppend 1,
      .endOp 0, .endOp 1, .endOp 2]

instance (log : Layout) (b : Nat) : Decidable (log.IsHome b) :=
  inferInstanceAs (Decidable (_ ∧ _))

instance (log : Layout) (e : Event) (g : Group) : Decidable (HomeLogged log e g) :=
  match e with
  | .logTest _ b _ => inferInstanceAs (Decidable (log.IsHome b))
  | .beginOp _ | .logAppend _ | .endOp _ | .commit _ | .endCommit _ => .isTrue trivial

/-- Two operations that overlap, right before the commit of both; and a commit
that will find all buffers pinned. -/
theorem group_commit_isolation_two :
    (∃ g, Reach (Group.next mkfsLog) (HomeLogged mkfsLog) (Group.start booted) g ∧
      g.pc 1 = .committing ∧ Updates g.ended 50 ∧ Isolated mkfsLog g) ∧
    ∃ g, Reach (Group.next mkfsLog) (HomeLogged mkfsLog) (Group.start booted) g ∧
      g.pc 2 = .committing ∧ g.m.lh.n = NBUF ∧ Isolated mkfsLog g := by
  have htwo : ((follow (Group.next mkfsLog) (fun e g => decide (HomeLogged mkfsLog e g))
      ([.beginOp 0, .beginOp 1] ++ logBlocks 0 50 2 ++ logBlocks 1 51 2 ++ [.endOp 0, .endOp 1])
      (Group.start booted)).any fun g => decide (g.pc 1 = .committing) &&
        g.ended.any fun o => o.any fun u => u.1 == 50) = true := by
    decide +kernel
  have hfull : ((follow (Group.next mkfsLog) (fun e g => decide (HomeLogged mkfsLog e g))
      overrunEvents (Group.start booted)).any fun g =>
        decide (g.pc 2 = .committing ∧ g.m.lh.n = (NBUF : Int))) = true := by
    decide +kernel
  rw [Option.any_eq_true] at htwo hfull
  obtain ⟨g, hg, hcheck⟩ := htwo
  obtain ⟨g', hg', hcheck'⟩ := hfull
  simp only [Bool.and_eq_true, decide_eq_true_eq, List.any_eq_true, beq_iff_eq] at hcheck hcheck'
  have hreach := Reach.start.follow (fun _ _ h => of_decide_eq_true h) hg
  have hreach' := Reach.start.follow (fun _ _ h => of_decide_eq_true h) hg'
  have hsize : LOGSIZE ≤ mkfsLog.size := Nat.le_refl _
  exact ⟨⟨g, hreach, hcheck.1, hcheck.2, group_commit_isolation hsize recovered_booted hreach⟩,
    g', hreach', hcheck'.1, hcheck'.2, group_commit_isolation hsize recovered_booted hreach'⟩

end Isolation

/-! ## Capacity -/

/-- The distinct blocks the operation of `p` has logged. -/
def opBlocks (g : Group) (p : Nat) : Finset Nat := ((g.op p).map Prod.fst).toFinset

/-- Every operation logs at most `MAXOPBLOCKS` distinct blocks. -/
def WithinBudget : Event → Group → Prop
  | .logTest p b _, g => (insert b (opBlocks g p)).card ≤ MAXOPBLOCKS
  | _, _ => True

/-- `begin_op` leaves a block of the log area free behind the header and
what it reserves. -/
def Reserved (log : Layout) : Event → Group → Prop
  | .beginOp _, g =>
    g.m.lh.n + (g.m.outstanding + 1) * MAXOPBLOCKS < (log.size : Int) - 1
  | _, _ => True

/-- The blocks that the operation of `p` may still log. -/
def left (g : Group) (p : Nat) : Int := MAXOPBLOCKS - (opBlocks g p).card

/-- The log has room for all that the operations in progress may still log. -/
structure Room (log : Layout) (S : Finset Nat) (g : Group) : Prop where
  room : g.m.lh.n + ∑ p ∈ S, left g p < (log.size : Int) - 1
  within : ∀ p ∈ S, 0 ≤ left g p
  pending : ∀ p b, g.pc p = .logging b → (insert b (opBlocks g p)).card ≤ MAXOPBLOCKS

section Capacity

variable {S : Finset Nat} {g g' : Group} {p : Nat}

theorem Room.beginOp (hc : Control S g) (hg : Room log S g) (hres : Reserved log (.beginOp p) g)
    (h : Group.next log (.beginOp p) g = some g') : Room log (insert p S) g' := by
  obtain ⟨hpc, -, -, rfl⟩ := next_beginOp h
  have hp : p ∉ S := by
    rw [hc.member, hpc]
    simp [Pc.InOp]
  set g' := { g.move p .running { g.m with outstanding := g.m.outstanding + 1 } with
    op := update g.op p [] } with hg'
  have hself : left g' p = MAXOPBLOCKS := by simp [left, opBlocks, hg']
  have hblocks : ∀ q ≠ p, opBlocks g' q = opBlocks g q := by
    intro q hq
    simp [opBlocks, hg', update_of_ne hq]
  have hother : ∀ q ∈ S, left g' q = left g q := by
    intro q hq
    rw [left, hblocks q (by rintro rfl; exact hp hq)]
    rfl
  have hsum : ∑ q ∈ S, left g q ≤ S.card * MAXOPBLOCKS := by
    have hle := Finset.sum_le_card_nsmul S (left g) MAXOPBLOCKS fun q _ => by
      unfold left
      omega
    simpa using hle
  have hout := hc.outstanding
  refine ⟨?_, ?_, ?_⟩
  · have hcongr : ∑ q ∈ S, left g' q = ∑ q ∈ S, left g q := Finset.sum_congr rfl hother
    rw [Finset.sum_insert hp, hself, hcongr]
    change g.m.lh.n + _ < _
    simp only [Reserved] at hres
    rw [hout, add_mul, one_mul] at hres
    omega
  · intro q hq
    rcases Finset.mem_insert.mp hq with rfl | hq
    · rw [hself]
      omega
    · rw [hother q hq]
      exact hg.within q hq
  · intro q b hq
    have hq' := logging_of_update (g := g) (p := p) .running (fun _ => Pc.noConfusion) hq
    rw [hblocks q (by rintro rfl; rw [hpc] at hq'; cases hq')]
    exact hg.pending q b hq'

theorem Room.logTest {b : Nat} {data : Block} (hg : Room log S g)
    (hbudget : WithinBudget (.logTest p b data) g)
    (h : Group.next log (.logTest p b data) g = some g') : Room log S g' := by
  obtain ⟨-, -, rfl⟩ := next_logTest h
  refine ⟨hg.room, hg.within, ?_⟩
  intro q x hq
  change update g.pc p (.logging b) q = .logging x at hq
  by_cases hqp : q = p
  · subst hqp
    rw [update_self] at hq
    cases hq
    exact hbudget
  · rw [update_of_ne hqp] at hq
    exact hg.pending q x hq

/-- A block that is new in the log is also new for the operation, so what
the log gains the operation loses from its budget. -/
theorem Room.logAppend (hc : Control S g) (hg : Room log S g)
    (h : Group.next log (.logAppend p) g = some g') : Room log S g' := by
  obtain ⟨b, m, hpc, hm, rfl⟩ := next_logAppend h
  have hp : p ∈ S := (hc.member p).mpr (by rw [hpc]; rfl)
  have hcard := hg.pending p b hpc
  set g' := { g.move p .running m with
    held := g.held.filter fun h => h.1 ≠ p
    op := update g.op p ((b, g.commits) :: g.op p) } with hg'
  have hself : opBlocks g' p = insert b (opBlocks g p) := by simp [opBlocks, hg']
  have hblocks : ∀ q ≠ p, opBlocks g' q = opBlocks g q := by
    intro q hq
    simp [opBlocks, hg', update_of_ne hq]
  have hsum : ∑ q ∈ S, left g' q + left g p = ∑ q ∈ S, left g q + left g' p := by
    refine Xv6.Lib.sum_change hp fun q _ hq => ?_
    rw [left, hblocks q hq]
    rfl
  have hleft : m.lh.n + left g' p ≤ g.m.lh.n + left g p := by
    unfold left
    rw [hself]
    rcases logAppend_cases hc.nonneg hm with ⟨-, rfl⟩ | ⟨hnew, -, rfl⟩
    · have hle := Finset.card_le_card (Finset.subset_insert b (opBlocks g p))
      omega
    · have hb : b ∉ opBlocks g p := by
        intro hb
        obtain ⟨u, hu, rfl⟩ := List.mem_map.mp (List.mem_toFinset.mp hb)
        exact hnew ((hc.blocks u.1).mpr (.inl ⟨p, hp, u, hu, rfl⟩))
      rw [Finset.card_insert_of_notMem hb]
      change g.m.lh.n + 1 + _ ≤ _
      omega
  have hroom := hg.room
  refine ⟨?_, ?_, ?_⟩
  · change m.lh.n + _ < _
    omega
  · intro q hq
    by_cases hqp : q = p
    · subst hqp
      rw [left, hself]
      omega
    · rw [left, hblocks q hqp]
      exact hg.within q hq
  · intro q x hq
    have hqp : q ≠ p := by
      rintro rfl
      rw [hg'] at hq
      change update g.pc q .running q = .logging x at hq
      rw [update_self] at hq
      cases hq
    rw [hblocks q hqp]
    refine hg.pending q x ?_
    exact logging_of_update (g := g) (p := p) .running (fun _ => Pc.noConfusion) hq

theorem Room.endOp (hc : Control S g) (hg : Room log S g)
    (h : Group.next log (.endOp p) g = some g') : Room log (S.erase p) g' := by
  obtain ⟨hpc, -, hcases⟩ := next_endOp h
  have hp : p ∈ S := (hc.member p).mpr (by rw [hpc]; rfl)
  have hsum : ∑ q ∈ S.erase p, left g q ≤ ∑ q ∈ S, left g q := by
    have hadd := Finset.add_sum_erase S (left g) hp
    have hleft := hg.within p hp
    omega
  have hroom := hg.room
  have hwithin : ∀ q ∈ S.erase p, 0 ≤ left g q :=
    fun q hq => hg.within q (Finset.mem_of_mem_erase hq)
  rcases hcases with ⟨-, rfl⟩ | ⟨-, rfl⟩
  · refine ⟨?_, hwithin, fun q b hq => hg.pending q b ?_⟩
    · change g.m.lh.n + ∑ q ∈ S.erase p, left g q < _
      omega
    · exact logging_of_update .committing (fun _ => Pc.noConfusion) hq
  · refine ⟨?_, hwithin, fun q b hq => hg.pending q b ?_⟩
    · change g.m.lh.n + ∑ q ∈ S.erase p, left g q < _
      omega
    · exact logging_of_update .outside (fun _ => Pc.noConfusion) hq

theorem Room.commit (hc : Control S g) (hg : Room log S g)
    (h : Group.next log (.commit p) g = some g') : Room log S g' := by
  obtain ⟨m, hpc, hrun, rfl⟩ := next_commit h
  obtain ⟨hn, -⟩ := commit_held log hc.nonneg hrun
  have hroom := hg.room
  have hnonneg := hc.nonneg
  refine ⟨?_, hg.within, fun q b hq => hg.pending q b ?_⟩
  · change m.lh.n + ∑ q ∈ S, left g q < _
    omega
  · exact logging_of_update .committed (fun _ => Pc.noConfusion) hq

theorem Room.endCommit (hg : Room log S g) (h : Group.next log (.endCommit p) g = some g') :
    Room log S g' := by
  obtain ⟨hpc, rfl⟩ := next_endCommit h
  refine ⟨hg.room, hg.within, fun q b hq => hg.pending q b ?_⟩
  exact logging_of_update .outside (fun _ => Pc.noConfusion) hq

/-- With each operation inside its budget and the reservation made against
the blocks that `log_write` really has, `log_write` never finds the
transaction too big. -/
theorem reservation_suffices {log : Layout} (hsize : log.size = LOGSIZE) {m : Machine}
    (hm : Recovered log m) {g : Group}
    (hrun : Reach (Group.next log) (fun e g => WithinBudget e g ∧ Reserved log e g)
      (Group.start m) g) (p b : Nat) (data : Block) :
    g.step log (.logTest p b data) ≠ .error .tooBigATransaction := by
  have hinv : ∃ S, Control S g ∧ Room log S g := by
    refine hrun.invariant (I := fun g => ∃ S, Control S g ∧ Room log S g) ?_ ?_
    · obtain ⟨T, hset, -⟩ := recovered_settled hm
      refine ⟨∅, control_start hm, ?_, fun p hp => absurd hp (Finset.notMem_empty p),
        fun p b hp => by cases hp⟩
      change m.lh.n + _ < _
      simp [hset.lh, hsize]
    · rintro e g g' ⟨S, hc, hg⟩ ⟨hbudget, hres⟩ hnext
      cases e with
      | beginOp p => exact ⟨_, hc.beginOp hnext, hg.beginOp hc hres hnext⟩
      | logTest p b data => exact ⟨_, hc.logTest hnext, hg.logTest hbudget hnext⟩
      | logAppend p => exact ⟨_, hc.logAppend hnext, hg.logAppend hc hnext⟩
      | endOp p => exact ⟨_, hc.endOp hnext, hg.endOp hc hnext⟩
      | commit p => exact ⟨_, hc.commit hnext, hg.commit hc hnext⟩
      | endCommit p => exact ⟨_, hc.endCommit hnext, hg.endCommit hnext⟩
  obtain ⟨S, hc, hg⟩ := hinv
  have hroom := hg.room
  have hsum := Finset.sum_nonneg hg.within
  have hsmall : tooBig log g.m = false := by
    simp only [tooBig, decide_eq_false_iff_not, not_or, not_le]
    omega
  simp only [Group.step, hsmall, Bool.false_eq_true, if_false]
  split_ifs <;> simp

instance (e : Event) (g : Group) : Decidable (WithinBudget e g) :=
  match e with
  | .logTest _ _ _ => inferInstanceAs (Decidable (_ ≤ _))
  | .beginOp _ | .logAppend _ | .endOp _ | .commit _ | .endCommit _ => .isTrue trivial

instance (log : Layout) (e : Event) (g : Group) : Decidable (Reserved log e g) :=
  match e with
  | .beginOp _ => inferInstanceAs (Decidable (_ < _))
  | .logTest _ _ _ | .logAppend _ | .endOp _ | .commit _ | .endCommit _ => .isTrue trivial

/-- Three operations admitted by `begin_op`, the last one about to log the
last of its ten blocks, panic. -/
theorem reservation_overrun :
    ∃ g, mkfsLog.size = LOGSIZE ∧ Recovered mkfsLog booted ∧
      Reach (Group.next mkfsLog) WithinBudget (Group.start booted) g ∧
      WithinBudget (.logTest 2 129 fun _ => 7) g ∧
      g.step mkfsLog (.logTest 2 129 fun _ => 7) = .error .tooBigATransaction := by
  have hcheck : ((follow (Group.next mkfsLog) (fun e g => decide (WithinBudget e g))
      ([.beginOp 0, .beginOp 1, .beginOp 2] ++ logBlocks 0 100 10 ++ logBlocks 1 110 10 ++
        logBlocks 2 120 9) (Group.start booted)).any fun g =>
      decide (WithinBudget (.logTest 2 129 fun _ => 7) g ∧ g.pc 2 = .running ∧
        ¬NoBuffer g.inUse 129) && tooBig mkfsLog g.m) = true := by
    decide +kernel
  rw [Option.any_eq_true] at hcheck
  obtain ⟨g, hg, hcheck⟩ := hcheck
  simp only [Bool.and_eq_true, decide_eq_true_eq] at hcheck
  obtain ⟨⟨hbudget, hpc, hfree⟩, hbig⟩ := hcheck
  refine ⟨g, rfl, recovered_booted, Reach.start.follow (fun _ _ h => of_decide_eq_true h) hg,
    hbudget, ?_⟩
  simp [Group.step, hpc, hbig, hfree]

/-- A run of two operations, one of which has logged all of its ten blocks. -/
theorem reservation_suffices_two :
    ∃ g, Reach (Group.next mkfsLog) (fun e g => WithinBudget e g ∧ Reserved mkfsLog e g)
        (Group.start booted) g ∧ g.m.lh.n = 10 ∧ g.m.outstanding = 2 ∧
      g.step mkfsLog (.logTest 1 60 fun _ => 7) ≠ .error .tooBigATransaction := by
  have hcheck : ((follow (Group.next mkfsLog)
      (fun e g => decide (WithinBudget e g ∧ Reserved mkfsLog e g))
      ([.beginOp 0, .beginOp 1] ++ logBlocks 0 50 10) (Group.start booted)).any fun g =>
        decide (g.m.lh.n = 10 ∧ g.m.outstanding = 2)) = true := by
    decide +kernel
  rw [Option.any_eq_true] at hcheck
  obtain ⟨g, hg, hcheck⟩ := hcheck
  have hreach : Reach (Group.next mkfsLog) (fun e g => WithinBudget e g ∧ Reserved mkfsLog e g)
      (Group.start booted) g := Reach.start.follow (fun _ _ h => of_decide_eq_true h) hg
  obtain ⟨hn, hout⟩ := of_decide_eq_true hcheck
  exact ⟨g, hreach, hn, hout, reservation_suffices rfl recovered_booted hreach 1 60 _⟩

end Capacity

end Xv6.Log
