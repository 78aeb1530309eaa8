import Xv6.Lib.Trans
import Xv6.Pipe.Model
import Xv6.Sh.Ledger

/-!
# Pipelines are wired as they should be

From the ledger follows, for every command tree and every interleaving in which
the calls succeed: each program starts with the descriptors 0, 1 and 2; an end
of a pipe is held only on its side of the `PIPE` node; and once the processes
of one side have exited, that end is closed, so that the other side sees it.

The run also comes to an end. Each step of the shell takes one off a bound on
what is left to do, a process that waits has a child that is not done, and when
all have exited every node of the tree has left its mark.
-/

namespace Xv6.Sh

open Xv6.Lib Xv6.Lib.Trans

variable {w w' : World} {e : Event} {i : Nat} {q : Proc} {cmd : Cmd} {elsewhere : Nat → Nat}
variable {fd : Nat} {n : Node} {writable : Bool} {c : Code}

/-! ## Who holds a pipe -/

/-- The node that the process is at, or is about to run. -/
def Proc.place (q : Proc) : Node :=
  match q.state with
  | .code (.runcmd n _) => n
  | _ => q.node

/-- The process is at work on the set-up of the pipe of `n`. -/
def Proc.SetsUp (q : Proc) (n : Node) : Prop :=
  q.node = n ∧ ∃ c, q.state = .code c ∧ c.usesPipe = true

def Proc.Exited (q : Proc) : Prop := q.state = .zombie ∨ q.state = .unused

theorem Proc.place_of_program (h : ∀ c, q.state ≠ .code c) : q.place = q.node := by
  unfold Proc.place
  split
  · rename_i hstate
    exact absurd hstate (h _)
  · rfl

/-- Who has an end of a pipe is setting it up, or may have it. -/
theorem Proc.Ok.holds (hq : q.Ok) (hfd : q.ofile fd = some (.pipe n writable)) :
    q.SetsUp n ∨ MayHold q.place n writable fd := by
  have hsafe := hq.safe
  unfold Proc.Safe at hsafe
  split at hsafe
  · rename_i c hc
    have hheld : Held q.node c q.ofile → q.place = q.node →
        q.SetsUp n ∨ MayHold q.place n writable fd := fun hheld hplace => by
      rw [hplace]
      exact (hheld fd n writable hfd).imp (fun hn => ⟨hn.1.symm, c, hc, hn.2⟩) id
    have hnode : (∀ m cmd, c ≠ .runcmd m cmd) → q.place = q.node := fun hne => by
      unfold Proc.place
      split
      · rename_i hstate
        rw [hc] at hstate
        exact absurd (State.code.inj hstate) (hne _ _)
      · rfl
    cases c with
    | runcmd m cmd =>
      have hplace : q.place = m := by
        unfold Proc.place
        rw [hc]
      rw [hplace]
      exact .inr (Plain.held hsafe fd n writable hfd)
    | exec argv next => exact hheld (WellHeld.toHeld (Plain.held hsafe) _) (hnode nofun)
    | openFile file mode next => exact hheld hsafe.1 (hnode nofun)
    | close c next => exact hheld hsafe.1 (hnode nofun)
    | dup c next => exact hheld hsafe.1 (hnode nofun)
    | pipe next => exact hheld (WellHeld.toHeld hsafe.1 _) (hnode nofun)
    | fork child next => exact hheld hsafe.1 (hnode nofun)
    | wait next => exact hheld hsafe.1 (hnode nofun)
    | exit => exact hheld (WellHeld.toHeld hsafe _) (hnode nofun)
  · rename_i hstate
    rw [Proc.place_of_program (by rw [hstate]; nofun)]
    exact .inr (hsafe fd n writable hfd)
  · rw [hsafe fd] at hfd
    cases hfd
  · rw [hsafe fd] at hfd
    cases hfd

/-- The side of a `PIPE` node that an end of its pipe is for. -/
def side (writable : Bool) : Dir := if writable then .left else .right

theorem MayHold.side {node : Node} (h : MayHold node n writable fd) :
    side writable :: n <:+ node := by
  unfold MayHold at h
  cases writable with
  | false => exact h.2
  | true => exact h.2

/-- The pipe was made, and nobody is at work on its set-up any more. -/
def World.SetUp (w : World) (n : Node) : Prop := .pipe n ∈ w.marks ∧ ∀ q ∈ w.procs, ¬ q.SetsUp n

/-- Nobody has the end of the pipe, and it is closed. -/
def World.Released (w : World) (n : Node) (writable : Bool) : Prop :=
  (∀ q ∈ w.procs, ∀ fd, q.ofile fd ≠ some (.pipe n writable)) ∧
    (w.files.pipe n).isOpen writable = false

/-- An end of a pipe is closed when the processes of its side have exited. -/
theorem Ledger.released (h : Ledger cmd elsewhere w) (hn : w.SetUp n)
    (hside : ∀ q ∈ w.procs, side writable :: n <:+ q.place → q.Exited) : w.Released n writable := by
  have hnone : ∀ q ∈ w.procs, ∀ fd, q.ofile fd ≠ some (.pipe n writable) := by
    intro q hq fd hfd
    rcases (h.ok q hq).holds hfd with hsets | hmay
    · exact hn.2 q hq hsets
    · have hsafe := (h.ok q hq).safe
      unfold Proc.Safe at hsafe
      rcases hside q hq hmay.side with hstate | hstate <;> rw [hstate] at hsafe <;>
        exact absurd (hsafe fd) (by rw [hfd]; nofun)
  refine ⟨hnone, ?_⟩
  have hzero : w.files.ref (.pipe n writable) = 0 := by
    rw [h.counted]
    show (w.procs.map (holding _)).sum + 0 = 0
    rw [Nat.add_zero, List.sum_eq_zero]
    intro x hx
    obtain ⟨q, hq, rfl⟩ := List.mem_map.mp hx
    exact List.countP_eq_zero.mpr fun fd _ => by simp [hnone q hq fd]
  rw [h.agrees n writable hn.1, hzero]
  rfl

/-! ## No process waits for ever -/

/-- A child comes after its parent, until it was waited for. -/
structure Family (procs : List Proc) : Prop where
  after : ∀ (j : Nat) (c : Proc) (k : Nat), procs[j]? = some c → c.parent = some k → k < j
  freed : ∀ c ∈ procs, c.state = .unused → c.parent = none

theorem Effect.family {s s' : Files} {q' : Proc} {log : List (Mark × Table)}
    (h : Effect s q q' s' log) : q'.parent = q.parent ∧ q'.state ≠ .unused := by
  cases h with
  | runcmd hstate => exact ⟨rfl, nofun⟩
  | exec hstate => exact ⟨rfl, nofun⟩
  | openFile hstate hfd => exact ⟨rfl, nofun⟩
  | close hcloses hg hfiles =>
    cases hcloses with
    | code hstate => exact ⟨rfl, nofun⟩
    | program hstate => exact ⟨rfl, nofun⟩
  | dup hstate hg hnewfd hfiles => exact ⟨rfl, nofun⟩
  | pipe hstate hfd0 hfd1 => exact ⟨rfl, nofun⟩

/-- A process changes, and keeps its parent or loses it. -/
theorem Family.set {procs : List Proc} (h : Family procs) (q' : Proc) (hi : procs[i]? = some q)
    (hparent : q'.parent = q.parent ∨ q'.parent = none)
    (hfreed : q'.state = .unused → q'.parent = none) : Family (procs.set i q') := by
  refine ⟨fun j c k hj hk => ?_, fun c hc hunused => ?_⟩
  · rw [List.getElem?_set] at hj
    split at hj
    · rename_i heq
      subst heq
      split at hj
      · cases hj
        rcases hparent with hparent | hparent
        · exact h.after i q k hi (hparent ▸ hk)
        · rw [hparent] at hk
          cases hk
      · cases hj
    · exact h.after j c k hj hk
  · rcases List.mem_or_eq_of_mem_set hc with hc | rfl
    · exact h.freed c hc hunused
    · exact hfreed hunused

theorem Family.step (h : Family w.procs) (hi : w.procs[i]? = some q) (hdid : Did w i q w') :
    Family w'.procs := by
  cases hdid with
  | alone heffect =>
    obtain ⟨hparent, hstate⟩ := heffect.family
    exact h.set _ hi (.inl hparent) fun hunused => absurd hunused hstate
  | fork hforks hfiles =>
    rename_i child state files
    have hstates : state ≠ .unused ∧ child ≠ .unused := by
      cases hforks with
      | code _ => exact ⟨nofun, nofun⟩
      | program _ => exact ⟨nofun, nofun⟩
    have hset := h.set { q with state := state } hi (.inl rfl)
      fun hunused => absurd hunused hstates.1
    refine ⟨fun j c k hj hk => ?_, fun c hc hunused => ?_⟩
    · change (w.procs.set i { q with state := state } ++ [_])[j]? = some c at hj
      rcases Nat.lt_or_ge j (w.procs.set i { q with state := state }).length with hlt | hge
      · rw [List.getElem?_append_left hlt] at hj
        exact hset.after j c k hj hk
      · rw [List.getElem?_append_right hge] at hj
        have hlast := (List.mem_singleton.mp (List.mem_of_getElem? hj))
        rw [hlast] at hk
        cases hk
        have hlt := (List.getElem?_eq_some_iff.mp hi).1
        rw [List.length_set] at hge
        omega
    · rcases List.mem_append.mp hc with hc | hc
      · exact hset.freed c hc hunused
      · rw [List.mem_singleton.mp hc] at hunused
        exact absurd hunused hstates.2
  | wait hstate hj hparent hzombie hne =>
    rename_i next j c
    have hset := h.set { q with state := .code next } hi (.inl rfl) nofun
    have hj' : (w.procs.set i { q with state := .code next })[j]? = some c := by
      rw [List.getElem?_set_ne (Ne.symm hne), hj]
    exact hset.set _ hj' (.inr rfl) fun _ => rfl
  | exit hexits hfiles =>
    have hset := h.set { q with state := .zombie, ofile := fun _ => none } hi (.inl rfl) nofun
    refine ⟨fun j c k hj hk => ?_, fun c hc hunused => ?_⟩
    · change (List.map _ _)[j]? = some c at hj
      rw [List.getElem?_map] at hj
      obtain ⟨c', hc', heq⟩ := Option.map_eq_some_iff.mp hj
      split at heq
      · rw [← heq] at hk
        cases hk
      · rw [← heq] at hk
        exact hset.after j c' k hc' hk
    · obtain ⟨c', hc', heq⟩ := List.mem_map.mp hc
      split at heq
      · rw [← heq]
      · rw [← heq] at hunused ⊢
        exact hset.freed c' hc' hunused

theorem Ledger.ref_pos (h : Ledger cmd elsewhere w) (hi : w.procs[i]? = some q) {f : OpenFile}
    (hf : argfd q.ofile fd = some f) : 1 ≤ w.files.ref f := by
  obtain ⟨hlt, hopen⟩ := argfd_some hf
  exact Nat.le_trans (Table.holds_pos hlt hopen) (h.holding_le hi f)

/-- A process that does not wait can go on, whatever its call returns. -/
theorem Ledger.run_isSome (h : Ledger cmd elsewhere w) (hi : w.procs[i]? = some q)
    (hwait : ∀ next, c ≠ .wait next) : (w.run i q true c).isSome := by
  cases c with
  | runcmd node cmd => rfl
  | exec argv next => rfl
  | openFile file mode next =>
    simp only [World.run, World.openFile]
    split <;> rfl
  | close fd next =>
    simp only [World.run, World.close]
    split
    · rfl
    · rename_i f hf
      rw [Option.isSome_map]
      exact fileclose_isSome (h.ref_pos hi hf)
  | dup fd next =>
    simp only [World.run, World.dup]
    split
    · rfl
    · rename_i f hf
      split
      · rfl
      · have hpos := h.ref_pos hi hf
        unfold Files.filedup
        rw [Option.isSome_map, if_neg (by omega)]
        rfl
  | pipe next =>
    simp only [World.run, World.pipe]
    split
    · split <;> rfl
    · rfl
  | fork child next =>
    simp only [World.run, World.fork]
    rw [if_pos trivial, Option.isSome_map]
    refine foldlM_filedup_isSome fun fd hfd f hf => ?_
    have hopen : argfd q.ofile fd = some f := (if_pos (List.mem_range.mp hfd)).trans hf
    exact h.ref_pos hi hopen
  | wait next => exact absurd rfl (hwait next)
  | exit =>
    simp only [World.run, World.exit]
    rw [Option.isSome_map]
    exact foldlM_fileclose_isSome fun f => h.holding_le hi f

theorem outcome_run (hi : w.procs[i]? = some q) (hq : q.state = .code c) :
    outcome (.run i true) w = w.run i q true c := by
  simp [outcome, hi, hq]

/-- As long as one process is in the shell and none in a program, one can go
on. The induction is on the processes after this one: one that waits has a
child among them. -/
theorem Ledger.progress (h : Ledger cmd elsewhere w) (hfamily : Family w.procs)
    (hprogram : ∀ q ∈ w.procs, q.state ≠ .program) (hi : w.procs[i]? = some q)
    (hq : q.state = .code c) : ∃ k, (next (.run k true) w).isSome := by
  obtain ⟨n, hn⟩ : ∃ n, n = w.procs.length - i := ⟨_, rfl⟩
  induction n using Nat.strong_induction_on generalizing i q c with
  | h n ih =>
    by_cases hwait : ∃ next, c = .wait next
    · obtain ⟨next, rfl⟩ := hwait
      by_cases hrun : (w.run i q true (.wait next)).isSome
      · refine ⟨i, ?_⟩
        rw [Sh.next, outcome_run hi hq, Option.isSome_map]
        exact hrun
      · simp only [World.run, World.wait] at hrun
        split at hrun
        · exact absurd rfl hrun
        · rename_i hnone
          split at hrun
          · rename_i hany
            obtain ⟨child, hmem, hparent⟩ := List.any_eq_true.mp hany
            have hparent := of_decide_eq_true hparent
            obtain ⟨j, hj⟩ := List.mem_iff_getElem?.mp hmem
            have hlt := hfamily.after j child i hj hparent
            have hbound := (List.getElem?_eq_some_iff.mp hj).1
            have hzombie : child.state ≠ .zombie := fun hstate => by
              have hfalse := of_decide_eq_false (List.findIdx?_eq_none_iff.mp hnone child hmem)
              exact hfalse ⟨hparent, hstate⟩
            cases hstate : child.state with
            | code c' => exact ih _ (by omega) hj hstate rfl
            | program => exact absurd hstate (hprogram child hmem)
            | zombie => exact absurd hstate hzombie
            | unused =>
              rw [hfamily.freed child hmem hstate] at hparent
              cases hparent
          · exact absurd rfl hrun
    · refine ⟨i, ?_⟩
      rw [Sh.next, outcome_run hi hq, Option.isSome_map]
      exact h.run_isSome hi fun next heq => hwait ⟨next, heq⟩

/-! ## The shell comes to an end -/

/-- How many steps it takes to run a command. -/
def Cmd.work : Cmd → Nat
  | .exec _ => 2
  | .redir cmd _ _ _ _ => cmd.work + 3
  | .list left right => left.work + right.work + 3
  | .pipe left right => left.work + right.work + 17
  | .back cmd => cmd.work + 3

/-- How many steps the code of a process takes, with those of its children. -/
def Code.work : Code → Nat
  | .runcmd _ cmd => cmd.work
  | .exec _ _ => 1
  | .openFile _ _ next => next.work + 1
  | .close _ next => next.work + 1
  | .dup _ next => next.work + 1
  | .pipe next => next.work + 1
  | .fork child next => child.work + next.work + 1
  | .wait next => next.work + 1
  | .exit => 1

theorem runcmd_work (node : Node) (cmd : Cmd) : (runcmd node cmd).work + 1 = cmd.work := by
  cases cmd with
  | exec argv => cases argv <;> rfl
  | redir cmd file efile mode fd => rfl
  | list left right =>
    simp only [runcmd, Code.work, Cmd.work]
    omega
  | pipe left right =>
    simp only [runcmd, wire, Code.work, Cmd.work]
    omega
  | back cmd => rfl

def Proc.work (q : Proc) : Nat :=
  match q.state with
  | .code c => c.work
  | _ => 0

theorem Proc.work_code (h : q.state = .code c) : q.work = c.work := by
  unfold Proc.work
  rw [h]

theorem Proc.work_program (h : q.state = .program) : q.work = 0 := by
  unfold Proc.work
  rw [h]

theorem work_weight : Weight Proc.work where
  parent _ _ := rfl
  freed q h := by
    unfold Proc.work
    rw [h]

/-- One if the process is in the shell. -/
def Proc.inShell (q : Proc) : Nat :=
  match q.state with
  | .code _ => 1
  | _ => 0

theorem Proc.inShell_code (h : q.state = .code c) : q.inShell = 1 := by
  unfold Proc.inShell
  rw [h]

theorem Proc.inShell_program (h : q.state = .program) : q.inShell = 0 := by
  unfold Proc.inShell
  rw [h]

theorem Effect.work {s s' : Files} {q' : Proc} {log : List (Mark × Table)}
    (h : Effect s q q' s' log) : q'.work + q.inShell = q.work := by
  cases h with
  | runcmd hstate =>
    rw [Proc.work_code hstate, Proc.inShell_code hstate]
    exact runcmd_work _ _
  | exec hstate =>
    rw [Proc.work_code hstate, Proc.inShell_code hstate]
    rfl
  | openFile hstate hfd =>
    rw [Proc.work_code hstate, Proc.inShell_code hstate]
    rfl
  | close hcloses hg hfiles =>
    cases hcloses with
    | code hstate =>
      rw [Proc.work_code hstate, Proc.inShell_code hstate]
      rfl
    | program hstate =>
      rw [Proc.work_program hstate, Proc.inShell_program hstate]
      rfl
  | dup hstate hg hnewfd hfiles =>
    rw [Proc.work_code hstate, Proc.inShell_code hstate]
    rfl
  | pipe hstate hfd0 hfd1 =>
    rw [Proc.work_code hstate, Proc.inShell_code hstate]
    rfl

/-- Every step of the shell takes one off what is left. -/
theorem Did.work (hdid : Did w i q w') (hi : w.procs[i]? = some q) :
    w'.total Proc.work + q.inShell = w.total Proc.work := by
  cases hdid with
  | alone heffect =>
    rename_i q' files log
    have htotal := total_set Proc.work q' hi
    have hwork := heffect.work
    show ((w.procs.set i q').map Proc.work).sum + _ = _
    omega
  | fork hforks hfiles =>
    rename_i child state files
    have htotal := total_forked Proc.work { q with state := state } child hi
    dsimp only at htotal
    have hwork : Proc.work { q with state := state } +
        Proc.work { q with state := child, parent := some i } + q.inShell = q.work := by
      cases hforks with
      | code hstate =>
        rw [Proc.work_code hstate, Proc.inShell_code hstate]
        show _ + _ + 1 = _ + _ + 1
        rw [Nat.add_comm (Proc.work _)]
        rfl
      | program hstate =>
        rw [Proc.work_program hstate, Proc.inShell_program hstate]
        rfl
    show ((w.forked i { q with state := state } child).map Proc.work).sum + _ = _
    omega
  | wait hstate hj hparent hzombie hne =>
    rename_i next j c
    have htotal := total_reaped work_weight { q with state := .code next } hi hj hzombie hne
    have hwork : Proc.work { q with state := .code next } + 1 = q.work := by
      rw [Proc.work_code hstate]
      rfl
    rw [Proc.inShell_code hstate]
    show ((w.reaped i { q with state := .code next } j c).map Proc.work).sum + _ = _
    omega
  | exit hexits hfiles =>
    have htotal := total_exited work_weight hi
    have hdead : Proc.work { q with state := .zombie, ofile := fun _ => none } = 0 := rfl
    have hwork : q.work = q.inShell := by
      rcases hexits with hstate | hstate
      · rw [Proc.work_code hstate, Proc.inShell_code hstate]
        rfl
      · rw [Proc.work_program hstate, Proc.inShell_program hstate]
    show ((w.exited i q).map Proc.work).sum + _ = _
    omega

/-! ## Every run -/

variable {f : Nat → Nat}

theorem plain_shellTable : Plain [] (shellTable f) := by
  refine ⟨fun fd => ?_, fun fd n writable hfd => ?_⟩
  · unfold shellTable
    split <;> simp [*]
  · unfold shellTable at hfd
    split at hfd <;> cases hfd

theorem ledger_start : Ledger cmd elsewhere (start cmd f elsewhere) := by
  have hplain := plain_shellTable (f := f)
  refine ⟨fun q hq => ?_, fun file => rfl, fun file m hfile _ => ?_, nofun, ?_, nofun⟩
  · rw [List.mem_singleton.mp hq]
    refine ⟨⟨hplain.held.toHeld _, hplain, hplain.held.toHeld _, hplain.held⟩, fun fd hfd => ?_⟩
    exact hplain.eq_none (by unfold NOFILE at hfd; omega)
  · have hnone : (shellTable f).holds file = 0 := by
      refine List.countP_eq_zero.mpr fun fd _ hopen => ?_
      have hopen := of_decide_eq_true hopen
      unfold shellTable at hopen
      split at hopen
      · cases hopen
        cases hfile
      · cases hopen
    show (shellTable f).holds file + abroad elsewhere file = 0
    rw [hnone, abroad_of_mark hfile]
  · show (0 : Multiset Mark) + ((cmd.marks [] ++ [] : List Mark) + 0) = cmd.marks []
    rw [zero_add, add_zero, List.append_nil]

theorem family_start : Family (start cmd f elsewhere).procs := by
  refine ⟨fun j c k hj hk => ?_, fun c hc hunused => ?_⟩
  · rw [List.mem_singleton.mp (List.mem_of_getElem? hj)] at hk
    cases hk
  · exact congrArg Proc.parent (List.mem_singleton.mp hc)

theorem reach_ledger (hreach : Reach next (fun e w => succeeds e w = true) (start cmd f elsewhere) w) :
    Ledger cmd elsewhere w ∧ Family w.procs := by
  refine hreach.invariant (I := fun w => Ledger cmd elsewhere w ∧ Family w.procs)
    ⟨ledger_start, family_start⟩ fun e s s' hs hsucceeds hnext => ?_
  obtain ⟨q, hi, hdid, -⟩ := outcome_did (outcome_of_succeeds hnext hsucceeds)
  exact ⟨hs.1.step hi hdid, hs.2.step hi hdid⟩

/-- A run has no more steps of the shell than there is work. -/
theorem countP_le_work {es : List Event} (hes : follow next succeeds es w = some w') :
    es.countP Event.isRun ≤ w.total Proc.work := by
  induction es generalizing w with
  | nil => exact Nat.zero_le _
  | cons e es ih =>
    simp only [follow] at hes
    split at hes
    · rename_i hsucceeds
      split at hes
      · rename_i w1 hw1
        obtain ⟨q, hi, hdid, hrun, -⟩ := outcome_did (outcome_of_succeeds hw1 hsucceeds)
        have hwork := hdid.work hi
        have hrest := ih hes
        rw [List.countP_cons]
        split
        · rename_i hisRun
          obtain ⟨c, hc⟩ := hrun hisRun
          rw [Proc.inShell_code hc] at hwork
          omega
        · omega
      · cases hes
    · cases hes

/-- All processes have exited. -/
def World.Finished (w : World) : Prop := ∀ q ∈ w.procs, q.Exited

theorem Ledger.marks_perm (h : Ledger cmd elsewhere w) (hfinished : w.Finished) :
    w.marks.Perm (cmd.marks []) := by
  have hzero : w.total pending = 0 := by
    refine List.sum_eq_zero fun x hx => ?_
    obtain ⟨q, hq, rfl⟩ := List.mem_map.mp hx
    unfold pending
    rcases hfinished q hq with hstate | hstate <;> rw [hstate]
  have htodo := h.todo
  rw [hzero, add_zero] at htodo
  exact Multiset.coe_eq_coe.mp htodo

/-- `piperead` on a pipe with these ends does not sleep, and returns 0 when
there are no bytes left. -/
def PipeEnds.SeesEnd (ends : PipeEnds) : Prop :=
  ∀ (v : Pipe.World) (p : Nat) (n : Int) (copied : Bool), v.writeopen = ends.writeopen →
    v.readWaitTurn p n = v.goto p (.read n 0) ∧
      (v.ring.empty = true → v.readTurn p n 0 copied = v.goto p (.wakeup .nwrite 0 .release))

theorem PipeEnds.seesEnd {ends : PipeEnds} (h : ends.writeopen = false) : ends.SeesEnd := by
  intro v p n copied hv
  rw [h] at hv
  constructor
  · unfold Pipe.World.readWaitTurn
    simp [hv]
  · intro hempty
    unfold Pipe.World.readTurn
    simp [hempty]

/-- In every run of a command line in which the calls of the shell succeed:
each program was started with the descriptors 0, 1 and 2 and no others; who has
an end of a pipe is setting the pipe up, or has the write end as descriptor 1
on the left of the pipe or the read end as descriptor 0 on the right; once a
pipe is set up and the processes on one side have exited, nobody has that end,
and a reader sees the end of the file. The run ends with every node of the tree
having done its part once. -/
theorem runcmd_wires_pipes
    (hreach : Reach next (fun e w => succeeds e w = true) (start cmd f elsewhere) w) :
    (∀ n t, (Mark.exec n, t) ∈ w.log → ∀ fd, (t fd).isSome ↔ fd < 3) ∧
      (∀ q ∈ w.procs, ∀ fd n writable, q.ofile fd = some (.pipe n writable) →
        q.SetsUp n ∨ MayHold q.place n writable fd) ∧
      (∀ n writable, w.SetUp n → (∀ q ∈ w.procs, side writable :: n <:+ q.place → q.Exited) →
        w.Released n writable ∧ (writable = true → (w.files.pipe n).SeesEnd)) ∧
      (w.Finished → w.marks.Perm (cmd.marks [])) ∧
      (¬ w.Finished → (∃ q ∈ w.procs, q.state = .program) ∨
        ∃ i, (next (.run i true) w).isSome) ∧
      ∀ es w', follow next succeeds es w = some w' →
        es.countP Event.isRun ≤ w.total Proc.work := by
  obtain ⟨hledger, hfamily⟩ := reach_ledger hreach
  refine ⟨hledger.started, fun q hq fd n writable hfd => (hledger.ok q hq).holds hfd, ?_,
    hledger.marks_perm, ?_, fun es w' hes => countP_le_work hes⟩
  · intro n writable hsetUp hside
    have hreleased := hledger.released hsetUp hside
    refine ⟨hreleased, fun hw => PipeEnds.seesEnd ?_⟩
    have hclosed := hreleased.2
    rw [hw] at hclosed
    exact hclosed
  · intro hunfinished
    by_cases hprogram : ∃ q ∈ w.procs, q.state = .program
    · exact .inl hprogram
    · have hnone : ∀ q ∈ w.procs, q.state ≠ .program := fun q hq hstate => hprogram ⟨q, hq, hstate⟩
      simp only [World.Finished, not_forall] at hunfinished
      obtain ⟨q, hq, hexited⟩ := hunfinished
      obtain ⟨i, hi⟩ := List.mem_iff_getElem?.mp hq
      cases hstate : q.state with
      | code c => exact .inr (hledger.progress hfamily hnone hi hstate)
      | program => exact absurd hstate (hnone q hq)
      | zombie => exact absurd (.inl hstate) hexited
      | unused => exact absurd (.inr hstate) hexited

/-- Two programs with a pipe between them, both started, and the left one
exited. -/
theorem runcmd_wires_pipes_two :
    ∃ w, Reach next (fun e w => succeeds e w = true)
        (start (.pipe (.exec [(0, 1)]) (.exec [(2, 3)])) id fun _ => 1) w ∧
      (∀ n t, (Mark.exec n, t) ∈ w.log → ∀ fd, (t fd).isSome ↔ fd < 3) ∧
      w.marks = [.exec [.right], .exec [.left], .pipe []] ∧
      w.Released [] true ∧ (w.files.pipe []).SeesEnd := by
  have hrun : ((follow next succeeds
      ([0, 1, 1, 1, 1, 2, 2, 2, 2, 2, 2, 3, 3, 3, 3, 3, 3, 1, 1].map (Event.run · true) ++ [.exit 2])
      (start (.pipe (.exec [(0, 1)]) (.exec [(2, 3)])) id fun _ => 1)).any fun w =>
        decide (w.marks = [.exec [.right], .exec [.left], .pipe []] ∧
          w.procs.map (fun q => (q.state, q.node)) = [(.code (.wait .exit), []),
            (.code (.wait (.wait .exit)), []), (.zombie, [.left]), (.program, [.right])])) = true := by
    decide +kernel
  obtain ⟨w, hw, hfacts⟩ := (Option.any_eq_true _ _).mp hrun
  obtain ⟨hmarks, hprocs⟩ := of_decide_eq_true hfacts
  have hreach : Reach next (fun e w => succeeds e w = true)
      (start (.pipe (.exec [(0, 1)]) (.exec [(2, 3)])) id fun _ => 1) w :=
    Reach.start.follow (fun _ _ h => h) hw
  obtain ⟨hstarted, -, hends, -⟩ := runcmd_wires_pipes hreach
  have hstate : ∀ q ∈ w.procs, (q.state, q.node) ∈ [(State.code (.wait .exit), ([] : Node)),
      (.code (.wait (.wait .exit)), []), (.zombie, [.left]), (.program, [.right])] := fun q hq => by
    rw [← hprocs]
    exact List.mem_map_of_mem (f := fun q : Proc => (q.state, q.node)) hq
  have hsetUp : w.SetUp [] := by
    refine ⟨by rw [hmarks]; decide, fun q hq hsets => ?_⟩
    obtain ⟨-, c, hc, huses⟩ := hsets
    have hmem := hstate q hq
    simp only [hc, List.mem_cons, Prod.mk.injEq, State.code.injEq, reduceCtorEq, List.not_mem_nil,
      false_and, or_false] at hmem
    rcases hmem with ⟨rfl, -⟩ | ⟨rfl, -⟩ <;> cases huses
  have hleft : ∀ q ∈ w.procs, side true :: [] <:+ q.place → q.Exited := by
    intro q hq hplace
    have hmem := hstate q hq
    unfold Proc.place at hplace
    simp only [List.mem_cons, Prod.mk.injEq, List.not_mem_nil, or_false] at hmem
    rcases hmem with ⟨hs, hn⟩ | ⟨hs, hn⟩ | ⟨hs, hn⟩ | ⟨hs, hn⟩ <;> rw [hs] at hplace
    · rw [hn] at hplace
      exact absurd hplace (by decide)
    · rw [hn] at hplace
      exact absurd hplace (by decide)
    · exact .inl hs
    · rw [hn] at hplace
      exact absurd hplace (by decide)
  obtain ⟨hreleased, hsees⟩ := hends [] true hsetUp hleft
  exact ⟨w, hreach, hstarted, hmarks, hreleased, hsees rfl⟩

end Xv6.Sh
