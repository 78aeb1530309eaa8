import Xv6.Sched.Tree

/-!
# Whom `kill` hits

A process that has `killed` set was named by a call of `kill`, or its own trap
set the flag. To say so, the process table is run together with a history: the
arguments of the calls of `kill` with the slots they looked at and the number of
pids that were handed out then, the processes that trapped, and what the calls
that returned 0 found.

`kill` does not look at the state of a slot. A free slot has pid 0, or the pid
that was handed out for a process that could not be made, and `killed` is not
cleared when the slot is given to a new process; so `kill(0)` marks a process
that is not there yet. In runs where no call of `kill` comes to a free slot
with its pid, the flag is only ever set for the process that was named.
-/

namespace Xv6.Sched

open Xv6.Lib.Trans Function

variable {i p : Nat}

/-! ## Runs with a history -/

/-- The process table and what has happened to it. -/
structure History where
  table : Table
  /-- The argument of a call of `kill` and a slot that it looked at, with the
  number of pids that were handed out then. -/
  kills : List (Int × Nat × Nat)
  /-- The processes whose own trap set `killed`. -/
  traps : List Nat
  /-- The argument of each call of `kill` that returned 0, and whether there
  was a process with this pid. -/
  zeros : List (Int × Bool)

inductive KillEvent where
  | sched (e : Event)
  /-- `usertrap` sets `p->killed`: an access that no mapping allows, or an
  unexpected trap. -/
  | trap (p : Nat)
  deriving DecidableEq, Repr

/-- The event is a turn of a call of `kill`: its argument and the slot. -/
def Table.killing (t : Table) : Event → Option (Int × Nat)
  | .run p _ _ =>
    match (t.proc p).pc with
    | .kill pid i => if i < NPROC then some (pid, i) else none
    | _ => none
  | _ => none

/-- There is a process with the pid. -/
def Table.hasPid (t : Table) (pid : Int) : Bool :=
  (List.range NPROC).any fun p => (t.proc p).state ≠ .unused && (t.proc p).pid = pid

/-- What a turn of `kill` adds to the history. -/
def History.note (h : History) (t : Table) : Option (Int × Nat) → History
  | none => { h with table := t }
  | some (pid, i) => { h with
      table := t
      kills := (pid, i, h.table.handed) :: h.kills
      zeros := if (h.table.proc i).pid = pid then (pid, h.table.hasPid pid) :: h.zeros else h.zeros }

def History.next : KillEvent → History → Option History
  | .sched e, h => (h.table.next e).map fun t => h.note t (h.table.killing e)
  | .trap p, h =>
    if p < NPROC ∧ (h.table.proc p).state = .running ∧ (h.table.proc p).pc = .user then
      some { h with
        table := h.table.setProc p fun pr => { pr with killed := true }
        traps := (h.table.proc p).uid :: h.traps }
    else none

def History.start : History := ⟨Table.start, [], [], []⟩

/-! ## What an event does to a slot -/

/-- What an event does to slot `q`, as far as `kill` can tell. -/
inductive SlotStep (t t' : Table) (e : Event) (q : Nat) : Prop where
  | same (state : (t'.proc q).state = .unused ↔ (t.proc q).state = .unused)
      (killed : (t'.proc q).killed = (t.proc q).killed) (pid : (t'.proc q).pid = (t.proc q).pid)
      (uid : (t'.proc q).uid = (t.proc q).uid)
  | freed (state : (t'.proc q).state = .unused) (killed : (t'.proc q).killed = false)
  /-- A pid is handed out for a slot that stays free. -/
  | wasted (state : (t.proc q).state = .unused) (state' : (t'.proc q).state = .unused)
      (killed : (t'.proc q).killed = (t.proc q).killed)
  | born (state : (t.proc q).state = .unused) (killed : (t'.proc q).killed = (t.proc q).killed)
      (uid : (t'.proc q).uid = t'.handed)
  | killed (pid : (t'.proc q).pid = (t.proc q).pid) (uid : (t'.proc q).uid = (t.proc q).uid)
      (state : (t'.proc q).state = .unused ↔ (t.proc q).state = .unused)
      (turn : t.killing e = some ((t.proc q).pid, q))

/-- The fields that `kill` looks at or sets, and the number of the process. -/
def Proc.brief (pr : Proc) : Bool × Bool × Int × Nat :=
  (pr.state = .unused, pr.killed, pr.pid, pr.uid)

section slot

variable {t t' : Table} {e : Event} {q : Nat}

theorem SlotStep.of_brief (h : (t'.proc q).brief = (t.proc q).brief) : SlotStep t t' e q := by
  simp only [Proc.brief, Prod.mk.injEq, decide_eq_decide] at h
  exact .same h.1 h.2.1 h.2.2.1 h.2.2.2

theorem brief_setProc {f : Proc → Proc} (h : (f (t.proc p)).brief = (t.proc p).brief) (q : Nat) :
    ((t.setProc p f).proc q).brief = (t.proc q).brief := by
  unfold Table.setProc
  by_cases hq : q = p
  · subst hq
    simp only [update_self, h]
  · simp only [update_of_ne hq]

theorem brief_goto (t : Table) (p : Nat) (pc : Pc) (q : Nat) :
    ((t.goto p pc).proc q).brief = (t.proc q).brief :=
  brief_setProc (by rfl) q

theorem brief_release (t : Table) (p q : Nat) : ((t.release p).proc q).brief = (t.proc q).brief :=
  brief_setProc (by rfl) q

/-- A process that goes from one state of a live process to another. -/
theorem brief_of_live {pr pr' : Proc} (hs : pr.state ≠ .unused) (hs' : pr'.state ≠ .unused)
    (hkilled : pr'.killed = pr.killed) (hpid : pr'.pid = pr.pid) (huid : pr'.uid = pr.uid) :
    pr'.brief = pr.brief := by
  simp only [Proc.brief, hkilled, hpid, huid, hs, hs']

theorem brief_wakeup1 (t : Table) (p q : Nat) :
    ((t.wakeup1 p).proc q).brief = (t.proc q).brief := by
  refine brief_setProc ?_ q
  split
  · rename_i hsleep
    exact brief_of_live (by simp [hsleep.2]) (by simp) rfl rfl rfl
  · rfl

theorem slot_forkFound {alloc : Alloc} (hi : (t.proc i).state = .unused) (q : Nat) :
    SlotStep t (t.forkFound p i alloc) e q := by
  have hother : ∀ {u : Table}, (∀ q ≠ i, (u.proc q).brief = (t.proc q).brief) → q ≠ i →
      SlotStep t (u.goto p .user) e q := fun hu hq =>
    .of_brief ((brief_goto ..).trans (hu q hq))
  unfold Table.forkFound
  extract_lets t1 t2
  have ht1 : ∀ q ≠ i, (t1.proc q).brief = (t.proc q).brief := fun q hq => by
    simp only [t1, Table.setProc, Table.allocpid, update_of_ne hq]
  have hself : t1.proc i = { t.proc i with pid := t.nextpid } := by
    simp only [t1, Table.setProc, Table.allocpid, update_self]
  have ht2 : ∀ q ≠ i, (t2.proc q).brief = (t.proc q).brief := fun q hq => by
    simp only [t2]
    cases alloc with
    | noTrapframe => exact ht1 q hq
    | noPagetable | noMemory | ok =>
      simp only [Table.freeproc, Table.setProc, update_of_ne hq]
      exact ht1 q hq
  by_cases hq : q = i
  swap
  · exact hother ht2 hq
  subst hq
  have hgoto := brief_goto t2 p .user q
  simp only [Proc.brief, Prod.mk.injEq, decide_eq_decide] at hgoto
  obtain ⟨hstate, hkilled, -, huid⟩ := hgoto
  cases alloc with
  | noTrapframe =>
    have h2 : t2.proc q = { t.proc q with pid := t.nextpid } := hself
    refine .wasted hi (hstate.mpr ?_) (hkilled.trans ?_)
    · rw [h2]
      exact hi
    · rw [h2]
  | noPagetable | noMemory =>
    refine .freed (hstate.mpr ?_) (hkilled.trans ?_)
    · simp only [t2, Table.freeproc, Table.setProc, update_self]
    · simp only [t2, Table.freeproc, Table.setProc, update_self]
  | ok =>
    refine .born hi (hkilled.trans ?_) (huid.trans ?_)
    · simp only [t2, Table.setProc, update_self, hself]
    · simp only [t2, Table.setProc, update_self]
      rfl

theorem slot_killTurn {pid : Int} (hturn : t.killing e = some (pid, i)) (q : Nat) :
    SlotStep t (t.killTurn p pid i) e q := by
  unfold Table.killTurn
  split
  swap
  · exact .of_brief (brief_goto ..)
  rename_i hpid
  have hgoto := brief_goto (t.setProc i fun pr =>
    { pr with killed := true, state := if pr.state = .sleeping then .runnable else pr.state }) p
    .user q
  by_cases hq : q = i
  · subst hq
    simp only [Proc.brief, Prod.mk.injEq, decide_eq_decide] at hgoto
    obtain ⟨hstate, -, hpid', huid⟩ := hgoto
    refine .killed (hpid'.trans ?_) (huid.trans ?_) (hstate.trans ?_) (by rw [hpid]; exact hturn)
    · simp only [Table.setProc, update_self]
    · simp only [Table.setProc, update_self]
    · simp only [Table.setProc, update_self]
      split
      · rename_i hsleep
        simp [hsleep]
      · rfl
  · refine .of_brief (hgoto.trans ?_)
    simp only [Table.setProc, update_of_ne hq]

theorem slot_waitChild {addr : Nat} {copied : Bool} (q : Nat) :
    SlotStep t (t.waitChild p addr i copied) e q := by
  unfold Table.waitChild
  split
  swap
  · exact .of_brief (brief_goto ..)
  split
  · exact .of_brief ((brief_goto ..).trans (brief_release ..))
  extract_lets r
  have hrest : ((((t.freeproc i).release p).goto p .user).proc q).brief =
      ((t.freeproc i).proc q).brief := (brief_goto ..).trans (brief_release ..)
  by_cases hq : q = i
  · subst hq
    simp only [Proc.brief, Prod.mk.injEq, decide_eq_decide] at hrest
    refine .freed (hrest.1.mpr ?_) (hrest.2.1.trans ?_)
    · simp only [Table.freeproc, Table.setProc, update_self]
    · simp only [Table.freeproc, Table.setProc, update_self]
  · refine .of_brief (hrest.trans ?_)
    simp only [Table.freeproc, Table.setProc, update_of_ne hq]

theorem brief_waitEnd {addr : Nat} {havekids : Bool} (hp : (t.proc p).state = .running) (q : Nat) :
    ((t.waitEnd p addr havekids).proc q).brief = (t.proc q).brief := by
  unfold Table.waitEnd
  split
  · exact (brief_goto ..).trans (brief_release ..)
  · refine (brief_goto ..).trans ((brief_release ..).trans (brief_setProc ?_ q))
    exact brief_of_live (by simp [hp]) (by simp) rfl rfl rfl

theorem brief_exitZombie {status : Int} (hp : (t.proc p).state = .running) (q : Nat) :
    ((t.exitZombie p status i).proc q).brief = (t.proc q).brief := by
  refine (brief_release ..).trans ((brief_setProc ?_ q).trans (brief_wakeup1 ..))
  have hlive := brief_wakeup1 t i p
  simp only [Proc.brief, Prod.mk.injEq, decide_eq_decide] at hlive
  refine brief_of_live ?_ (by simp) rfl rfl rfl
  rw [ne_eq, hlive.1, hp]
  exact PState.noConfusion

theorem slot_run {alloc : Alloc} {copied : Bool} (hp : (t.proc p).state = .running)
    (h : t.run p alloc copied = some t') (q : Nat) : SlotStep t t' (.run p alloc copied) q := by
  have hgoto : ∀ pc, SlotStep t (t.goto p pc) (.run p alloc copied) q := fun _ =>
    .of_brief (brief_goto ..)
  unfold Table.run at h
  split at h
  case h_1 | h_2 => cases h
  case h_3 =>
    split_ifs at h with _ _ hi
    all_goals cases h
    exacts [hgoto _, slot_forkFound hi q, hgoto _]
  case h_4 pid i hpc =>
    split_ifs at h with hend
    all_goals cases h
    · exact hgoto _
    · refine slot_killTurn ?_ q
      simp only [Table.killing, hpc]
      rw [if_pos (by omega)]
  case h_5 =>
    split_ifs at h
    cases h
    exact .of_brief ((brief_goto ..).trans (brief_wakeup1 ..))
  case h_6 =>
    split_ifs at h
    split at h
    all_goals cases h
    exact hgoto _
  case h_7 | h_8 | h_11 =>
    split_ifs at h
    cases h
    exact .of_brief ((brief_goto ..).trans (brief_setProc (by rfl) q))
  case h_9 =>
    split_ifs at h
    all_goals cases h
    exacts [.of_brief (brief_exitZombie hp q), hgoto _, hgoto _]
  case h_10 =>
    split_ifs at h
    cases h
    exact .of_brief ((brief_goto ..).trans (brief_setProc (by rfl) q))
  case h_12 =>
    split_ifs at h
    all_goals cases h
    exacts [.of_brief (brief_waitEnd hp q), hgoto _, hgoto _]
  case h_13 =>
    split_ifs at h
    cases h
    exact slot_waitChild q

theorem slot_next (h : t.next e = some t') (q : Nat) : SlotStep t t' e q := by
  cases e <;> simp only [Table.next, Option.ite_none_right_eq_some] at h <;> obtain ⟨hp, h⟩ := h
  case call p c =>
    cases c with
    | fork | wait _ | kill _ =>
      cases h
      exact .of_brief (brief_goto ..)
    | exit status =>
      simp only [Table.call] at h
      split_ifs at h
      cases h
      exact .of_brief (brief_goto ..)
  case run p alloc copied =>
    exact slot_run hp.2 h q
  case schedRelease p =>
    cases h
    exact .of_brief (brief_release ..)
  case yield p | sleep p chan =>
    cases h
    exact .of_brief (brief_setProc (brief_of_live (by simp [hp.1]) (by simp) rfl rfl rfl) q)
  case wakeup p chan =>
    cases h
    refine .of_brief (brief_setProc ?_ q)
    split
    · rename_i hsleep
      exact brief_of_live (by simp [hsleep.1]) (by simp) rfl rfl rfl
    · rfl
  case schedule p =>
    cases h
    unfold Table.resume
    split
    all_goals
      exact .of_brief (brief_setProc (brief_of_live (by simp [hp.2]) (by simp) rfl rfl rfl) q)

end slot

/-! ## The law -/

/-- The calls of `kill` come to no free slot with their pid. -/
def SparesFree : KillEvent → History → Prop
  | .sched e, h => ∀ pid i, h.table.killing e = some (pid, i) →
    (h.table.proc i).state = .unused → (h.table.proc i).pid ≠ pid
  | .trap _, _ => True

/-- A call of `kill` with its pid looked at the slot of process `p` since it was
created, or its own trap set the flag. The call may have been made before. -/
def Named (h : History) (p : Nat) : Prop :=
  (h.table.proc p).uid ∈ h.traps ∨
    ∃ n, ((h.table.proc p).pid, p, n) ∈ h.kills ∧ (h.table.proc p).uid ≤ n

/-- `kill` only hits the named process. -/
structure KillNamed (h : History) : Prop where
  killed : ∀ p, (h.table.proc p).state ≠ .unused → (h.table.proc p).killed = true → Named h p
  /-- A process starts with the flag clear. -/
  fresh : ∀ e h' p, History.next e h = some h' → (h.table.proc p).state = .unused →
    (h'.table.proc p).state ≠ .unused → (h'.table.proc p).killed = false
  zero : ∀ z ∈ h.zeros, z.2 = true

/-- What the runs keep. -/
structure History.Ok (h : History) : Prop where
  tree : h.table.tree.Ok
  free : ∀ p, (h.table.proc p).state = .unused → (h.table.proc p).killed = false
  killed : ∀ p, (h.table.proc p).state ≠ .unused → (h.table.proc p).killed = true → Named h p
  zero : ∀ z ∈ h.zeros, z.2 = true

section law

variable {h h' : History} {t' : Table} {e : Event}

theorem note_table (h : History) (t : Table) (o : Option (Int × Nat)) : (h.note t o).table = t := by
  cases o <;> rfl

/-- Naming a process lasts as long as the process. -/
theorem Named.note {o : Option (Int × Nat)} (hn : Named h p)
    (hpid : (t'.proc p).pid = (h.table.proc p).pid)
    (huid : (t'.proc p).uid = (h.table.proc p).uid) : Named (h.note t' o) p := by
  unfold Named
  rw [note_table, hpid, huid]
  cases o with
  | none => exact hn
  | some turn => exact hn.imp_right fun ⟨n, hn, hle⟩ => ⟨n, List.mem_cons_of_mem _ hn, hle⟩

theorem hasPid_of_live {t : Table} (hp : p < NPROC) (hlive : (t.proc p).state ≠ .unused) :
    t.hasPid (t.proc p).pid = true := by
  refine List.any_eq_true.mpr ⟨p, List.mem_range.mpr hp, ?_⟩
  simp [hlive]

theorem killing_lt {t : Table} {pid : Int} (h : t.killing e = some (pid, i)) : i < NPROC := by
  unfold Table.killing at h
  split at h
  · split at h
    · split at h
      · rename_i hlt
        obtain ⟨-, rfl⟩ := Prod.mk.inj (Option.some.inj h)
        exact hlt
      · cases h
    · cases h
  · cases h

theorem History.Ok.sched (hok : h.Ok) (hspares : SparesFree (.sched e) h)
    (hnext : h.table.next e = some t') : (h.note t' (h.table.killing e)).Ok := by
  refine ⟨?_, fun p hp => ?_, fun p hp hk => ?_, fun z hz => ?_⟩
  · rw [note_table]
    exact Tree.Step.ok hok.tree (tree_next hnext)
  · rw [note_table] at hp ⊢
    rcases slot_next hnext p with
      ⟨hstate, hkilled, _, _⟩ | ⟨_, hkilled⟩ | ⟨hstate, _, hkilled⟩ | ⟨hstate, hkilled, _⟩ |
      ⟨_, _, hstate, hturn⟩
    · rw [hkilled]
      exact hok.free p (hstate.mp hp)
    · exact hkilled
    · rw [hkilled]
      exact hok.free p hstate
    · rw [hkilled]
      exact hok.free p hstate
    · exact absurd rfl (hspares _ p hturn (hstate.mp hp))
  · rw [note_table] at hp hk
    rcases slot_next hnext p with
      ⟨hstate, hkilled, hpid, huid⟩ | ⟨hstate, _⟩ | ⟨_, hstate, _⟩ | ⟨hstate, hkilled, _⟩ |
      ⟨hpid, huid, hstate, hturn⟩
    · refine (hok.killed p (fun hu => hp (hstate.mpr hu)) ?_).note hpid huid
      rw [← hkilled]
      exact hk
    · exact absurd hstate hp
    · exact absurd hstate hp
    · rw [hkilled, hok.free p hstate] at hk
      exact absurd hk Bool.false_ne_true
    · -- the call that is running now names the process
      refine .inr ⟨h.table.handed, ?_, ?_⟩
      · rw [note_table, hpid, hturn]
        exact List.mem_cons_self ..
      · rw [note_table, huid]
        exact (hok.tree.counted.number _ fun hl => hp (hstate.mpr (life_unused.mp hl))).2.1
  · cases hturn : h.table.killing e with
    | none =>
      rw [hturn] at hz
      exact hok.zero z hz
    | some turn =>
      obtain ⟨pid, i⟩ := turn
      rw [hturn] at hz
      simp only [History.note] at hz
      split at hz
      · rename_i hpid
        rcases List.mem_cons.mp hz with rfl | hz
        · rw [← hpid]
          refine hasPid_of_live (killing_lt hturn) fun hfree => ?_
          exact hspares pid i hturn hfree hpid
        · exact hok.zero z hz
      · exact hok.zero z hz

theorem History.Ok.trap (hok : h.Ok) (hp : (h.table.proc p).state = .running) :
    History.Ok { h with
      table := h.table.setProc p fun pr => { pr with killed := true }
      traps := (h.table.proc p).uid :: h.traps } := by
  have hself : (h.table.setProc p fun pr => { pr with killed := true }).proc p =
      { h.table.proc p with killed := true } := update_self ..
  have hother : ∀ q, q ≠ p →
      (h.table.setProc p fun pr => { pr with killed := true }).proc q = h.table.proc q :=
    fun q hq => update_of_ne hq ..
  refine ⟨?_, fun q hq => ?_, fun q hq hk => ?_, hok.zero⟩
  · have hsame : (h.table.setProc p fun pr => { pr with killed := true }).tree = h.table.tree :=
      tree_setProc_same rfl
    simp only [hsame]
    exact hok.tree
  · by_cases hqp : q = p
    · subst hqp
      rw [hself] at hq
      rw [hp] at hq
      cases hq
    · simp only [hother q hqp] at hq ⊢
      exact hok.free q hq
  · unfold Named
    by_cases hqp : q = p
    · subst hqp
      rw [hself]
      exact .inl (List.mem_cons_self ..)
    · simp only [hother q hqp] at hq hk ⊢
      exact (hok.killed q hq hk).imp_left (List.mem_cons_of_mem _)

theorem History.Ok.next {ke : KillEvent} (hok : h.Ok) (hspares : SparesFree ke h)
    (hnext : History.next ke h = some h') : h'.Ok := by
  cases ke with
  | sched e =>
    obtain ⟨t', ht', rfl⟩ := Option.map_eq_some_iff.mp hnext
    exact hok.sched hspares ht'
  | trap p =>
    simp only [History.next] at hnext
    split at hnext
    · rename_i hp
      obtain rfl := Option.some.inj hnext
      exact hok.trap hp.2.1
    · cases hnext

theorem History.Ok.start : History.start.Ok := by
  refine ⟨ok_start, fun p _ => ?_, fun p _ hk => ?_, fun z hz => ?_⟩
  · unfold History.start Table.start
    simp only
    split <;> rfl
  · unfold History.start Table.start at hk
    simp only at hk
    split at hk <;> cases hk
  · exact absurd hz List.not_mem_nil

/-- The flag of a new process is that of the free slot. -/
theorem History.Ok.fresh {ke : KillEvent} (hok : h.Ok) (hnext : History.next ke h = some h')
    (hfree : (h.table.proc p).state = .unused) (hlive : (h'.table.proc p).state ≠ .unused) :
    (h'.table.proc p).killed = false := by
  cases ke with
  | sched e =>
    obtain ⟨t', ht', rfl⟩ := Option.map_eq_some_iff.mp hnext
    rw [note_table] at hlive ⊢
    rcases slot_next ht' p with
      ⟨hstate, _, _, _⟩ | ⟨hstate, _⟩ | ⟨_, hstate, _⟩ | ⟨_, hkilled, _⟩ | ⟨_, _, hstate, _⟩
    · exact absurd (hstate.mpr hfree) hlive
    · exact absurd hstate hlive
    · exact absurd hstate hlive
    · rw [hkilled]
      exact hok.free p hfree
    · exact absurd (hstate.mpr hfree) hlive
  | trap q =>
    simp only [History.next] at hnext
    split at hnext
    · obtain rfl := Option.some.inj hnext
      refine absurd ?_ hlive
      by_cases hp : p = q
      · subst hp
        simp only [Table.setProc, update_self]
        exact hfree
      · simp only [Table.setProc, update_of_ne hp]
        exact hfree
    · cases hnext

end law

/-- In every run in which no call of `kill` comes to a free slot with its pid,
`kill` hits only the process it names, a new process is not killed, and a call
that returns 0 found a process. -/
theorem kill_hits_named {h : History} (hreach : Reach History.next SparesFree History.start h) :
    KillNamed h := by
  have hok : h.Ok := hreach.invariant (I := History.Ok) .start
    fun _ _ _ hok hspares hnext => hok.next hspares hnext
  exact ⟨hok.killed, fun e h' p hnext hfree hlive => hok.fresh hnext hfree hlive, hok.zero⟩

def sparesCheck : KillEvent → History → Bool
  | .sched e, h =>
    match h.table.killing e with
    | some (pid, i) => (h.table.proc i).state ≠ .unused || (h.table.proc i).pid ≠ pid
    | none => true
  | .trap _, _ => true

theorem sparesFree_of_sparesCheck (e : KillEvent) (h : History) (hcheck : sparesCheck e h = true) :
    SparesFree e h := by
  cases e with
  | trap p => trivial
  | sched e =>
    intro pid i hturn hfree hpid
    simp only [sparesCheck, hturn, hfree, hpid, ne_eq, not_true_eq_false, decide_false,
      Bool.or_self, Bool.false_eq_true] at hcheck

/-- The first process forks and kills its child, pid 2. -/
def killChild : List KillEvent :=
  [.sched (.schedule 0), .sched (.call 0 .fork), .sched (.run 0 .ok true),
    .sched (.run 0 .ok true), .sched (.call 0 (.kill 2)), .sched (.run 0 .ok true),
    .sched (.run 0 .ok true)]

theorem kill_hits_named_child : ∃ h, Reach History.next SparesFree History.start h ∧
    (h.table.proc 1).killed = true ∧ Named h 1 := by
  have hcheck : ((follow History.next sparesCheck killChild History.start).any fun h =>
      decide ((h.table.proc 1).state = .runnable ∧ (h.table.proc 1).killed = true)) = true := by
    decide +kernel
  obtain ⟨h, hfollow, hfact⟩ := (Option.any_eq_true _ _).mp hcheck
  obtain ⟨hstate, hkilled⟩ := of_decide_eq_true hfact
  have hreach : Reach History.next SparesFree History.start h :=
    Reach.start.follow sparesFree_of_sparesCheck hfollow
  refine ⟨h, hreach, hkilled, (kill_hits_named hreach).killed 1 ?_ hkilled⟩
  rw [hstate]
  exact PState.noConfusion

/-- The first process calls `kill(0)`, which marks the free slot 1, and then
forks. -/
def killNobody : List KillEvent :=
  [.sched (.schedule 0), .sched (.call 0 (.kill 0)), .sched (.run 0 .ok true),
    .sched (.run 0 .ok true), .sched (.call 0 .fork), .sched (.run 0 .ok true),
    .sched (.run 0 .ok true)]

/-- The child is killed, and nobody has named it. -/
theorem kill_hits_unborn : ∃ h, Reach History.next (fun _ _ => True) History.start h ∧
    (h.table.proc 1).state = .runnable ∧ (h.table.proc 1).killed = true ∧ ¬Named h 1 ∧
    ¬KillNamed h := by
  have hcheck : ((follow History.next (fun _ _ => true) killNobody History.start).any fun h =>
      decide ((h.table.proc 1).state = .runnable ∧ (h.table.proc 1).killed = true ∧
        (h.table.proc 1).pid = 2 ∧ h.traps = [] ∧ h.kills = [(0, 1, 1), (0, 0, 1)])) = true := by
    decide +kernel
  obtain ⟨h, hreach, hfact⟩ := Reach.of_any hcheck
  obtain ⟨hstate, hkilled, hpid, htraps, hkills⟩ := of_decide_eq_true hfact
  have hnot : ¬Named h 1 := by
    unfold Named
    rw [hpid, htraps, hkills]
    simp
  refine ⟨h, hreach, hstate, hkilled, hnot,
    fun hnamed => hnot (hnamed.killed 1 ?_ hkilled)⟩
  rw [hstate]
  exact PState.noConfusion

end Xv6.Sched
