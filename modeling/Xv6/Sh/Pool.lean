import Xv6.Sh.Wiring

/-!
# All the processes of a command line

`Did` lists what an event can do when its call succeeds, with everything it
changes, and `outcome_did` reads it off the functions of the model once.

The first thing that follows is about each process for itself: `Proc.Ok` says
that the code it has left is safe for its table. A step of one process does
not touch the others, and a child starts with a table that its code is safe
for.
-/

namespace Xv6.Sh

open Function

variable {w w' : World} {e : Event} {i : Nat} {q : Proc}

/-! ## What an event does -/

/-- What the process does next is to close `fd`, and then it is in state `s`. -/
inductive Proc.Closes (q : Proc) : Nat → State → Prop where
  | code {fd : Fd} {next : Code} : q.state = .code (.close fd next) →
      q.Closes (fd.value q.p) (.code next)
  | program {fd : Nat} : q.state = .program → q.Closes fd .program

/-- What the process does next is to fork, and then the child is in state
`child` and it is in state `s`. -/
inductive Proc.Forks (q : Proc) : State → State → Prop where
  | code {child next : Code} : q.state = .code (.fork child next) →
      q.Forks (.code child) (.code next)
  | program : q.state = .program → q.Forks .program .program

/-- What the process does next is to exit. -/
def Proc.Exits (q : Proc) : Prop := q.state = .code .exit ∨ q.state = .program

/-- What a process becomes by a step that concerns no other process, with the
files after it and what is logged. -/
inductive Effect (s : Files) (q : Proc) : Proc → Files → List (Mark × Table) → Prop where
  | runcmd {node : Node} {cmd : Cmd} : q.state = .code (.runcmd node cmd) →
      Effect s q { q with node := node, state := .code (runcmd node cmd) } s []
  | exec {argv : List (Nat × Nat)} {next : Code} : q.state = .code (.exec argv next) →
      Effect s q { q with state := .program } s [(.exec q.node, q.ofile)]
  | openFile {file : Nat} {mode : Int} {next : Code} {fd : Nat} :
      q.state = .code (.openFile file mode next) → fdalloc q.ofile = some fd →
      Effect s q
        { q with
          state := .code next
          ofile := Function.update q.ofile fd (some (.redir q.node)) }
        (s.filealloc (.redir q.node)) [(.redir q.node, q.ofile)]
  | close {fd : Nat} {state : State} {f : OpenFile} {s' : Files} : q.Closes fd state →
      argfd q.ofile fd = some f → s.fileclose f = some s' →
      Effect s q { q with state := state, ofile := Function.update q.ofile fd none } s' []
  | dup {fd : Fd} {next : Code} {f : OpenFile} {new : Nat} {s' : Files} :
      q.state = .code (.dup fd next) → argfd q.ofile (fd.value q.p) = some f →
      fdalloc q.ofile = some new → s.filedup f = some s' →
      Effect s q
        { q with
          state := .code next
          ofile := Function.update q.ofile new (some f) }
        s' []
  | pipe {next : Code} {fd0 fd1 : Nat} : q.state = .code (.pipe next) →
      fdalloc q.ofile = some fd0 →
      fdalloc (Function.update q.ofile fd0 (some (.pipe q.node false))) = some fd1 →
      Effect s q
        { q with
          state := .code next
          p := (fd0, fd1)
          ofile := Function.update (Function.update q.ofile fd0 (some (.pipe q.node false))) fd1
            (some (.pipe q.node true)) }
        (s.pipealloc q.node) [(.pipe q.node, q.ofile)]

/-- The processes when `q` has waited for its child `c`, which is process `j`. -/
def World.reaped (w : World) (i : Nat) (q : Proc) (j : Nat) (c : Proc) : List Proc :=
  (w.procs.set i q).set j { c with state := .unused, parent := none }

/-- A successful step of process `i`, which is `q`. -/
inductive Did (w : World) (i : Nat) (q : Proc) : World → Prop where
  | alone {q' : Proc} {files : Files} {log : List (Mark × Table)} : Effect w.files q q' files log →
      Did w i q { procs := w.procs.set i q', files := files, log := log ++ w.log }
  | fork {child state : State} {files : Files} : q.Forks child state →
      overTable Files.filedup q.ofile w.files = some files →
      Did w i q { w with procs := w.forked i { q with state := state } child, files := files }
  | wait {next : Code} {j : Nat} {c : Proc} : q.state = .code (.wait next) →
      w.procs[j]? = some c → c.parent = some i → c.state = .zombie → j ≠ i →
      Did w i q { w with procs := w.reaped i { q with state := .code next } j c }
  | exit {files : Files} : q.Exits → overTable Files.fileclose q.ofile w.files = some files →
      Did w i q { w with procs := w.exited i q, files := files }

theorem World.failed_ne {r : World} : w.failed i q ≠ some (r, true) := by
  unfold World.failed
  simp

theorem findIdx?_child {procs : List Proc} {j : Nat}
    (h : procs.findIdx? (fun c => c.parent = some i ∧ c.state = .zombie) = some j) :
    ∃ c, procs[j]? = some c ∧ c.parent = some i ∧ c.state = .zombie := by
  obtain ⟨hlt, hchild, -⟩ := List.findIdx?_eq_some_iff_getElem.mp h
  exact ⟨procs[j], List.getElem?_eq_getElem hlt, of_decide_eq_true hchild⟩

/-- What a process that is still in the shell does. -/
theorem run_did {ok : Bool} {c : Code} (hi : w.procs[i]? = some q) (hq : q.state = .code c)
    (hrun : w.run i q ok c = some (w', true)) : Did w i q w' := by
  cases c with
  | runcmd node cmd =>
    cases hrun
    exact .alone (.runcmd hq)
  | exec argv next =>
    simp only [World.run, World.exec] at hrun
    split at hrun
    · cases hrun
      exact .alone (.exec hq)
    · exact absurd hrun World.failed_ne
  | openFile file mode next =>
    simp only [World.run, World.openFile] at hrun
    split at hrun
    · rename_i fd hfd
      cases hrun
      exact .alone (.openFile hq hfd)
    · exact absurd hrun World.failed_ne
  | close fd next =>
    simp only [World.run, World.close] at hrun
    split at hrun
    · exact absurd hrun World.failed_ne
    · rename_i f hf
      obtain ⟨files, hfiles, heq⟩ := Option.map_eq_some_iff.mp hrun
      cases heq
      exact .alone (.close (.code hq) hf hfiles)
  | dup fd next =>
    simp only [World.run, World.dup] at hrun
    split at hrun
    · exact absurd hrun World.failed_ne
    · rename_i f hf
      split at hrun
      · exact absurd hrun World.failed_ne
      · rename_i new hnew
        obtain ⟨files, hfiles, heq⟩ := Option.map_eq_some_iff.mp hrun
        cases heq
        exact .alone (.dup hq hf hnew hfiles)
  | pipe next =>
    simp only [World.run, World.pipe] at hrun
    split at hrun
    · rename_i fd0 hfd0
      split at hrun
      · rename_i fd1 hfd1
        cases hrun
        exact .alone (.pipe hq hfd0 hfd1)
      · exact absurd hrun World.failed_ne
    · exact absurd hrun World.failed_ne
  | fork child next =>
    simp only [World.run, World.fork] at hrun
    split at hrun
    · obtain ⟨files, hfiles, heq⟩ := Option.map_eq_some_iff.mp hrun
      cases heq
      exact .fork (.code hq) hfiles
    · exact absurd hrun World.failed_ne
  | wait next =>
    simp only [World.run, World.wait] at hrun
    split at hrun
    · rename_i j hj
      obtain ⟨c, hjc, hparent, hzombie⟩ := findIdx?_child hj
      have hji : j ≠ i := by
        rintro rfl
        rw [Option.some.inj (hi.symm.trans hjc), hzombie] at hq
        cases hq
      cases hrun
      rw [List.modify_eq_set_getElem?, List.getElem?_set_ne (Ne.symm hji), hjc]
      exact .wait hq hjc hparent hzombie hji
    · split at hrun
      · cases hrun
      · exact absurd hrun World.failed_ne
  | exit =>
    obtain ⟨files, hfiles, heq⟩ := Option.map_eq_some_iff.mp hrun
    cases heq
    exact .exit (.inl hq) hfiles

/-- The process that takes the step. -/
def Event.proc : Event → Nat
  | .run i _ => i
  | .exit i => i
  | .close i _ => i
  | .fork i => i

/-- It is a step of the shell, not of a program. -/
def Event.isRun : Event → Bool
  | .run _ _ => true
  | _ => false

/-- A call that succeeds is a step of a process, which is in the shell or in
a program. -/
theorem outcome_did (h : outcome e w = some (w', true)) :
    ∃ q, w.procs[e.proc]? = some q ∧ Did w e.proc q w' ∧
      (e.isRun = true → ∃ c, q.state = .code c) ∧ (e.isRun = false → q.state = .program) := by
  cases e with
  | run i ok =>
    obtain ⟨q, hi, hq⟩ := Option.bind_eq_some_iff.mp h
    split at hq
    · rename_i c hc
      exact ⟨q, hi, run_did hi hc hq, fun _ => ⟨c, hc⟩, nofun⟩
    · cases hq
  | exit i =>
    obtain ⟨q, hi, hq⟩ := Option.bind_eq_some_iff.mp h
    split at hq
    · rename_i hstate
      obtain ⟨files, hfiles, heq⟩ := Option.map_eq_some_iff.mp hq
      cases heq
      exact ⟨q, hi, .exit (.inr hstate) hfiles, nofun, fun _ => hstate⟩
    · cases hq
  | close i fd =>
    obtain ⟨q, hi, hq⟩ := Option.bind_eq_some_iff.mp h
    split at hq
    · rename_i hstate
      unfold World.close at hq
      split at hq
      · exact absurd hq World.failed_ne
      · rename_i f hf
        obtain ⟨files, hfiles, heq⟩ := Option.map_eq_some_iff.mp hq
        cases heq
        have heffect := Effect.close (.program hstate) hf hfiles
        rw [← hstate] at heffect
        exact ⟨q, hi, .alone heffect, nofun, fun _ => hstate⟩
    · cases hq
  | fork i =>
    obtain ⟨q, hi, hq⟩ := Option.bind_eq_some_iff.mp h
    split at hq
    · rename_i hstate
      obtain ⟨files, hfiles, heq⟩ := Option.map_eq_some_iff.mp hq
      cases heq
      have hdid := Did.fork (w := w) (i := i) (.program hstate) hfiles
      have hsame : { q with state := .program } = q := by rw [← hstate]
      rw [hsame] at hdid
      exact ⟨q, hi, hdid, nofun, fun _ => hstate⟩
    · cases hq

theorem outcome_of_succeeds (hnext : next e w = some w') (hsucceeds : succeeds e w = true) :
    outcome e w = some (w', true) := by
  obtain ⟨⟨r, ok⟩, hr, heq⟩ := Option.map_eq_some_iff.mp hnext
  have hw : r = w' := heq
  unfold succeeds at hsucceeds
  rw [hr] at hsucceeds
  have hok : ok = true := hsucceeds
  rw [hr, hok, hw]

/-! ## Each process for itself -/

/-- The code of the process is safe for its table. -/
def Proc.Safe (q : Proc) : Prop :=
  match q.state with
  | .code c => c.Safe q.node q.p q.ofile
  | .program => WellHeld q.node q.ofile
  | .zombie => ∀ fd, q.ofile fd = none
  | .unused => ∀ fd, q.ofile fd = none

structure Proc.Ok (q : Proc) : Prop where
  safe : q.Safe
  table : ∀ fd, NOFILE ≤ fd → q.ofile fd = none

theorem Proc.Ok.code {c : Code} (h : q.Ok) (hq : q.state = .code c) : c.Safe q.node q.p q.ofile := by
  have hsafe := h.safe
  unfold Proc.Safe at hsafe
  rwa [hq] at hsafe

theorem Proc.Ok.program (h : q.Ok) (hq : q.state = .program) : WellHeld q.node q.ofile := by
  have hsafe := h.safe
  unfold Proc.Safe at hsafe
  rwa [hq] at hsafe

theorem Proc.Ok.table_update (h : q.Ok) {fd : Nat} {o : Option OpenFile} (hfd : fd < NOFILE) :
    ∀ g, NOFILE ≤ g → update q.ofile fd o g = none := by
  intro g hg
  rw [update_of_ne (by omega)]
  exact h.table g hg

theorem ok_set {procs : List Proc} {q' : Proc} (h : ∀ r ∈ procs, r.Ok) (hq' : q'.Ok) :
    ∀ r ∈ procs.set i q', r.Ok := by
  intro r hr
  rcases List.mem_or_eq_of_mem_set hr with hr | rfl
  · exact h r hr
  · exact hq'

theorem Effect.ok {s s' : Files} {q' : Proc} {log : List (Mark × Table)}
    (heffect : Effect s q q' s' log) (hq : q.Ok) : q'.Ok := by
  cases heffect with
  | runcmd hstate => exact ⟨Plain.runcmd (hq.code hstate) _, hq.table⟩
  | exec hstate => exact ⟨Plain.held (hq.code hstate), hq.table⟩
  | openFile hstate hfd =>
    exact ⟨(hq.code hstate).2 _ hfd, hq.table_update (fdalloc_some hfd).1⟩
  | close hcloses hf hfiles =>
    cases hcloses with
    | code hstate => exact ⟨(hq.code hstate).2 _ hf, hq.table_update (argfd_some hf).1⟩
    | program hstate => exact ⟨(hq.program hstate).close, hq.table_update (argfd_some hf).1⟩
  | dup hstate hf hnew hfiles =>
    exact ⟨(hq.code hstate).2 _ _ hf hnew, hq.table_update (fdalloc_some hnew).1⟩
  | pipe hstate hfd0 hfd1 =>
    refine ⟨(hq.code hstate).2 _ _ hfd0 hfd1, fun g hg => ?_⟩
    have hlt0 := (fdalloc_some hfd0).1
    have hlt1 := (fdalloc_some hfd1).1
    dsimp only
    rw [update_of_ne (by omega), update_of_ne (by omega)]
    exact hq.table g hg

theorem Did.ok (hdid : Did w i q w') (hi : w.procs[i]? = some q) (h : ∀ r ∈ w.procs, r.Ok) :
    ∀ r ∈ w'.procs, r.Ok := by
  have hq := h q (List.mem_of_getElem? hi)
  cases hdid with
  | alone heffect => exact ok_set h (heffect.ok hq)
  | fork hforks hfiles =>
    intro r hr
    rcases List.mem_append.mp hr with hr | hr
    · refine ok_set h ?_ r hr
      cases hforks with
      | code hstate => exact ⟨(hq.code hstate).2.2, hq.table⟩
      | program hstate => exact ⟨hq.program hstate, hq.table⟩
    · rw [List.mem_singleton.mp hr]
      cases hforks with
      | code hstate => exact ⟨(hq.code hstate).2.1, hq.table⟩
      | program hstate => exact ⟨hq.program hstate, hq.table⟩
  | wait hstate hj hparent hzombie hne =>
    rename_i c
    have hc := h c (List.mem_of_getElem? hj)
    have hempty : ∀ fd, c.ofile fd = none := by
      have hsafe := hc.safe
      unfold Proc.Safe at hsafe
      rwa [hzombie] at hsafe
    exact ok_set (ok_set h ⟨(hq.code hstate).2, hq.table⟩) ⟨hempty, hc.table⟩
  | exit hexits hfiles =>
    intro r hr
    obtain ⟨r', hr', rfl⟩ := List.mem_map.mp hr
    have hdead : Proc.Ok { q with state := .zombie, ofile := fun _ => none } :=
      ⟨fun _ => rfl, fun _ _ => rfl⟩
    have hok := ok_set h hdead r' hr'
    split
    · exact ⟨hok.safe, hok.table⟩
    · exact hok

end Xv6.Sh
