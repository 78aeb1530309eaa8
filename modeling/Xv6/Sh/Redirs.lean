import Xv6.Sh.Pool
import Xv6.Sh.Terminate

/-!
# The order of redirections

`parseredirs` puts each redirection around the command it has so far, so the
one that is written last is the outermost node. `runcmd` starts with the
outermost node. Of the redirections of one command the last is therefore
performed first, and where two are for one descriptor the first stays.

`Wraps` is the command with the nodes around it. `Calls` follows the process
that runs it, whatever the other processes do to the files in the meantime;
every call in it succeeds. A redirection takes three calls: the one of
`runcmd`, `close` and `open`.
-/

namespace Xv6.Sh

open Input Function

variable {line : Input} {body cmd : Cmd} {node : Node} {rs : List Redir} {q q' q₁ q₂ : Proc}
  {log log₁ log₂ : List (Mark × Table)} {k : Nat}

/-! ## The command that is parsed -/

/-- The tokens of a command with its redirections in the order in which they
are written: those among the words of a simple command, or those after a
block. -/
inductive Written : List Tok → List Redir → Tree → Prop where
  | block {ts : List Tok} {t : Tree} (rs : List Redir) (line : Line ts t) :
      Written (.lpar :: ts ++ .rpar :: rs.flatMap Redir.toks) rs t
  | simple (rs : List Redir) (as : List Arg) :
      Written (rs.flatMap Redir.toks ++ as.flatMap Arg.toks) (rs ++ as.flatMap Arg.redirs)
        (.exec (as.map Arg.word))

/-- The `REDIR` nodes of the redirections around `body`. -/
inductive Wraps (line : Input) (body : Cmd) : List Redir → Cmd → Prop where
  | nil : Wraps line body [] body
  | snoc {rs : List Redir} {cmd : Cmd} {file efile : Nat} {r : Redir} (h : Wraps line body rs cmd)
      (word : WordAt line file efile r.file) :
      Wraps line body (rs ++ [r]) (.redir cmd file efile r.op.mode r.op.fd)

theorem Wraps.last (h : Wraps line body rs cmd) : (rs = [] ∧ cmd = body) ∨
    ∃ rs' r cmd' file efile, rs = rs' ++ [r] ∧ cmd = .redir cmd' file efile r.op.mode r.op.fd ∧
      Wraps line body rs' cmd' := by
  cases h with
  | nil => exact .inl ⟨rfl, rfl⟩
  | snoc h _ => exact .inr ⟨_, _, _, _, _, rfl, rfl, h⟩

/-- The node of redirection `i` of `n` around the command of `node`. -/
def place (node : Node) (n i : Nat) : Node := List.replicate (n - 1 - i) .inner ++ node

theorem Exec.written {pre : List Tok} {t : Tree} (h : Exec pre t) :
    ∃ rs b, Written pre rs b ∧ t = rs.foldl Redir.apply b := by
  cases h with
  | block rs line => exact ⟨rs, _, .block rs line, rfl⟩
  | simple rs as _ => exact ⟨_, _, .simple rs as, rfl⟩

theorem Denotes.wraps {b : Tree} (h : Denotes line cmd (rs.foldl Redir.apply b)) :
    ∃ body, Wraps line body rs cmd ∧ Denotes line body b := by
  induction rs using List.reverseRecOn generalizing cmd with
  | nil => exact ⟨cmd, .nil, h⟩
  | append_singleton rs r ih =>
    rw [List.foldl_append] at h
    cases h with
    | redir _ _ sub word =>
      obtain ⟨body, hwraps, hbody⟩ := ih sub
      exact ⟨body, .snoc hwraps word, hbody⟩

/-! ## The calls of one process -/

/-- Process `q` becomes `q'` by `k` successful steps of the shell's code, with
what they log. -/
inductive Calls : Nat → Proc → List (Mark × Table) → Proc → Prop where
  | done {q : Proc} : Calls 0 q [] q
  | call {k : Nat} {q q₁ q' : Proc} {s s₁ : Files} {log log' : List (Mark × Table)} {c : Code}
      (hq : q.state = .code c) (h : Effect s q q₁ s₁ log) (rest : Calls k q₁ log' q') :
      Calls (k + 1) q (log' ++ log) q'

/-- The code leaves a process no choice. -/
theorem Effect.unique {s s' s₁ s₂ : Files} {c : Code} (hq : q.state = .code c)
    (h₁ : Effect s q q₁ s₁ log₁) (h₂ : Effect s' q q₂ s₂ log₂) : q₁ = q₂ ∧ log₁ = log₂ := by
  cases h₁ <;> cases h₂ <;> grind [Proc.Closes]

theorem Calls.unique (h₁ : Calls k q log₁ q₁) (h₂ : Calls k q log₂ q₂) : q₁ = q₂ ∧ log₁ = log₂ := by
  induction h₁ generalizing log₂ q₂ with
  | done =>
    cases h₂
    exact ⟨rfl, rfl⟩
  | call hq h _ ih =>
    cases h₂ with
    | call _ h' rest' =>
      obtain ⟨rfl, rfl⟩ := h.unique hq h'
      obtain ⟨rfl, rfl⟩ := ih rest'
      exact ⟨rfl, rfl⟩

theorem calls_redir {file efile : Nat} {r : Redir}
    (hq : q.state = .code (.runcmd node (.redir cmd file efile r.op.mode r.op.fd)))
    (hopen : ∀ fd < 2, (q.ofile fd).isSome)
    (rest : Calls k { q with
      node := node
      state := .code (.runcmd (.inner :: node) cmd)
      ofile := update q.ofile r.op.fd (some (.redir node)) } log q') :
    ∃ t, Calls (k + 3) q (log ++ [(.redir node, t)]) q' := by
  have hfd : r.op.fd < 2 := by cases r.op <;> decide
  obtain ⟨f, hf⟩ := Option.isSome_iff_exists.mp (hopen _ hfd)
  have hargfd : argfd q.ofile r.op.fd = some f := by
    rw [argfd, if_pos (by unfold NOFILE; omega), hf]
  have hfree : fdalloc (update q.ofile r.op.fd none) = some r.op.fd := by
    refine fdalloc_eq (by unfold NOFILE; omega) (update_self _ _ _) fun g hg => ?_
    rw [update_of_ne (by omega)]
    exact hopen g (by omega)
  -- The file may be open elsewhere, so that the close only counts down.
  let s : Files := ⟨fun _ => 2, fun _ => {}⟩
  have hopened := Calls.call rfl (.openFile (s := s) (q := { q with
    node := node
    state := .code (.openFile file r.op.mode (.runcmd (.inner :: node) cmd))
    ofile := update q.ofile r.op.fd none }) rfl hfree) (by rw [update_idem]; exact rest)
  have hclosed := Calls.call rfl (.close (s := s) (q := { q with
    node := node
    state := .code (runcmd node (.redir cmd file efile r.op.mode r.op.fd)) }) (.code rfl)
    hargfd rfl) hopened
  have hrun := Calls.call hq (.runcmd (s := s) hq) hclosed
  rw [List.append_nil, List.append_nil] at hrun
  exact ⟨_, hrun⟩

/-! ## What the redirections do -/

theorem place_succ {n i : Nat} (hi : i < n) : place node (n + 1) i = place (.inner :: node) n i := by
  obtain ⟨d, rfl⟩ : ∃ d, n = i + 1 + d := ⟨n - (i + 1), by omega⟩
  have hleft : i + 1 + d + 1 - 1 - i = d + 1 := by omega
  have hright : i + 1 + d - 1 - i = d := by omega
  rw [place, place, hleft, hright, List.replicate_succ', List.append_assoc]
  rfl

/-- The redirections around a command are performed from the last to the
first, and the first for a descriptor stays. -/
structure FirstWins (node : Node) (rs : List Redir) (body : Cmd) (t : Table)
    (log : List (Mark × Table)) (q' : Proc) : Prop where
  reached : q'.state = .code (.runcmd (List.replicate rs.length .inner ++ node) body)
  order : log.map Prod.fst =
    (List.range rs.length).map fun i => .redir (place node rs.length i)
  first : ∀ i r, rs[i]? = some r → (∀ j < i, ∀ r', rs[j]? = some r' → r'.op.fd ≠ r.op.fd) →
    q'.ofile r.op.fd = some (.redir (place node rs.length i))
  others : ∀ fd, (∀ r ∈ rs, r.op.fd ≠ fd) → q'.ofile fd = t fd

theorem Wraps.calls (h : Wraps line body rs cmd) (hq : q.state = .code (.runcmd node cmd))
    (hopen : ∀ fd < 2, (q.ofile fd).isSome) :
    ∃ log q', Calls (3 * rs.length) q log q' ∧ FirstWins node rs body q.ofile log q' := by
  induction h generalizing node q with
  | nil =>
    refine ⟨[], q, .done, hq, rfl, ?_, fun _ _ => rfl⟩
    intro i r hr
    cases hr
  | @snoc rs cmd file efile r _ _ ih =>
    -- The node of `r` comes first; the others are around the command below it.
    obtain ⟨log, q', hcalls, hfirst⟩ := @ih (.inner :: node) { q with
      node := node
      state := .code (.runcmd (.inner :: node) cmd)
      ofile := update q.ofile r.op.fd (some (.redir node)) } rfl (by
        intro fd hfd
        dsimp only
        rw [update_apply]
        split
        · rfl
        · exact hopen fd hfd)
    obtain ⟨t, hcalls'⟩ := calls_redir hq hopen hcalls
    have hlength : (rs ++ [r]).length = rs.length + 1 := by simp
    refine ⟨_, q', by rwa [hlength], ?_, ?_, ?_, ?_⟩
    · rw [hfirst.reached, hlength, List.replicate_succ', List.append_assoc]
      rfl
    · rw [List.map_append, hfirst.order, hlength, List.range_succ, List.map_append]
      congr 1
      · refine List.map_congr_left fun i hi => ?_
        rw [place_succ (List.mem_range.mp hi)]
      · simp [place]
    · intro i r' hr' hbefore
      rw [hlength]
      by_cases hi : i < rs.length
      · rw [List.getElem?_append_left hi] at hr'
        rw [place_succ hi]
        refine hfirst.first i r' hr' fun j hj r'' hr'' => hbefore j hj r'' ?_
        rwa [List.getElem?_append_left (by omega)]
      · rw [List.getElem?_append_right (by omega)] at hr'
        obtain ⟨hi', rfl⟩ : i - rs.length = 0 ∧ r = r' := by
          cases hj : i - rs.length with
          | zero => simpa [hj] using hr'
          | succ j => simp [hj] at hr'
        obtain rfl : i = rs.length := by omega
        rw [hfirst.others]
        · simp [place]
        · intro r' hr'
          obtain ⟨j, hj, hget⟩ := List.mem_iff_getElem.mp hr'
          refine hbefore j hj r' ?_
          rw [List.getElem?_append_left hj, List.getElem?_eq_getElem hj, hget]
    · intro fd hne
      rw [hfirst.others fd fun r' hr' => hne r' (List.mem_append_left _ hr')]
      exact update_of_ne (hne r (by simp)).symm _ _

/-- Descriptors refer to the files of their last redirections, and each
redirection was performed in the order in which it was written; the log has
the most recent first. -/
structure LastWins (node : Node) (rs : List Redir) (body : Cmd) (log : List (Mark × Table))
    (q' : Proc) : Prop where
  reached : q'.state = .code (.runcmd (List.replicate rs.length .inner ++ node) body)
  order : log.reverse.map Prod.fst =
    (List.range rs.length).map fun i => .redir (place node rs.length i)
  last : ∀ i r, rs[i]? = some r → (∀ j > i, ∀ r', rs[j]? = some r' → r'.op.fd ≠ r.op.fd) →
    q'.ofile r.op.fd = some (.redir (place node rs.length i))

theorem FirstWins.length_le {t : Table} (h : FirstWins node rs body t log q')
    (h' : LastWins node rs body log q') : rs.length ≤ 1 := by
  by_contra hlen
  have horder := h'.order
  rw [List.map_reverse, h.order] at horder
  -- The first redirection would have to be the one that was performed first.
  have hhead := congrArg (fun l => l[0]?) horder
  rw [List.getElem?_reverse (by simp; omega), List.length_map, List.length_range,
    List.getElem?_map, List.getElem?_map, List.getElem?_range (by omega),
    List.getElem?_range (by omega)] at hhead
  have hdepth := congrArg List.length (Mark.redir.inj (Option.some.inj hhead))
  simp only [place, List.length_append, List.length_replicate] at hdepth
  omega

/-- **The last redirection wins for at most one redirection.**  A command that
`parseexec` accepts is a command with the redirections that were written
around it. For every process that runs it with descriptors 0 and 1 open, if
all its calls succeed, the descriptors are then those of the last
redirections, performed in order, exactly when there are not two of them. -/
theorem last_redir_wins_iff {n s s' : Nat} {ts : List Tok} (hat : At line s ts)
    (hparse : parseexec line n s = .ok (cmd, s')) :
    ∃ pre rest rs b body, ts = pre ++ rest ∧ Written pre rs b ∧ Denotes line body b ∧
      Wraps line body rs cmd ∧
      ∀ node q, q.state = .code (.runcmd node cmd) → (∀ fd < 2, (q.ofile fd).isSome) →
        ((∀ log q', Calls (3 * rs.length) q log q' → LastWins node rs body log q') ↔
          rs.length ≤ 1) := by
  obtain ⟨pre, rest, t, rfl, -, hexec, hden⟩ := ((parses line n).2.2.1 hat).2 _ hparse
  obtain ⟨rs, b, hwritten, rfl⟩ := hexec.written
  obtain ⟨body, hwraps, hbody⟩ := hden.wraps
  refine ⟨pre, rest, rs, b, body, rfl, hwritten, hbody, hwraps, fun node q hq hopen => ?_⟩
  obtain ⟨log, q', hcalls, hfirst⟩ := hwraps.calls hq hopen
  constructor
  · intro hlast
    exact hfirst.length_le (hlast log q' hcalls)
  · intro hlen log' q'' hcalls'
    obtain ⟨rfl, rfl⟩ := hcalls.unique hcalls'
    refine ⟨hfirst.reached, ?_, ?_⟩
    · have hlog := congrArg List.length hfirst.order
      rw [List.length_map, List.length_map, List.length_range] at hlog
      have hreverse : log.reverse = log := by
        match log, hlog with
        | [], _ => rfl
        | [_], _ => rfl
        | _ :: _ :: _, hlog => simp only [List.length_cons] at hlog; omega
      rw [hreverse]
      exact hfirst.order
    · intro i r hr _
      refine hfirst.first i r hr fun j hj => ?_
      have hi := (List.getElem?_eq_some_iff.mp hr).1
      omega

/-- The process that runs a command for the shell. -/
def runner (cmd : Cmd) : Proc where
  state := .code (.runcmd [] cmd)
  node := []
  p := (0, 0)
  ofile := shellTable id
  parent := none

/-- The line `x>a`. -/
def oneRedir : Input := ⟨['x', '>', 'a'].map Char.toUInt8, by decide⟩

theorem last_redir_wins_iff_one : ∃ cmd r body, parseexec oneRedir 1 0 = .ok (cmd, 3) ∧
    Wraps oneRedir body [r] cmd ∧
    ∀ log q', Calls 3 (runner cmd) log q' → LastWins [] [r] body log q' := by
  have hparse : parseexec oneRedir 1 0 =
      .ok (.redir (.exec [(0, 1)]) 2 3 (RedirOp.mode .gt) 1, 3) := by decide +kernel
  obtain ⟨pre, rest, rs, b, body, hlex, hwritten, hbody, hwraps, hiff⟩ :=
    last_redir_wins_iff (At.start oneRedir) hparse
  have hrun := (hiff [] (runner _) rfl (by decide)).mpr
  obtain ⟨rfl, rfl⟩ | ⟨rs', r, cmd', file, efile, rfl, hcmd, hinner⟩ := hwraps.last
  · -- a redirection is the body of a block only, which starts with a parenthesis
    generalize hrs : ([] : List Redir) = rs at hwritten
    cases hbody
    cases hwritten
    have hfirst : (lex oneRedir.bytes).head? ≠ some .lpar := by decide +kernel
    exact absurd (congrArg List.head? hlex) hfirst
  · obtain ⟨rfl, -⟩ := Cmd.redir.inj hcmd
    obtain ⟨rfl, -⟩ | ⟨_, _, _, _, _, -, hexec, -⟩ := hinner.last
    · exact ⟨_, r, body, hparse, hwraps, hrun (Nat.le_refl 1)⟩
    · cases hexec

/-- The line `x>a>b`. -/
def twoRedirs : Input := ⟨['x', '>', 'a', '>', 'b'].map Char.toUInt8, by decide⟩

/-- The command of the line. -/
def twoRedirsCmd : Cmd :=
  .redir (.redir (.exec [(0, 1)]) 2 3 (RedirOp.mode .gt) 1) 4 5 (RedirOp.mode .gt) 1

/-- Of the two, `b` is opened first, at the outer node, and `a` is what
descriptor 1 refers to when the command is reached. -/
theorem first_redir_wins_two : parseexec twoRedirs 1 0 = .ok (twoRedirsCmd, 5) ∧
    ∃ log q', Calls 6 (runner twoRedirsCmd) log q' ∧
      q'.state = .code (.runcmd [.inner, .inner] (.exec [(0, 1)])) ∧
      log.reverse.map Prod.fst = [.redir [], .redir [.inner]] ∧
      q'.ofile 1 = some (.redir [.inner]) := by
  have hwraps : Wraps twoRedirs (.exec [(0, 1)]) [⟨.gt, [97]⟩, ⟨.gt, [98]⟩] twoRedirsCmd :=
    @Wraps.snoc _ _ [⟨.gt, [97]⟩] _ 4 5 ⟨.gt, [98]⟩
      (@Wraps.snoc _ _ [] _ 2 3 ⟨.gt, [97]⟩ .nil
        ⟨by decide, by decide, by decide, by decide +kernel, by decide⟩)
      ⟨by decide, by decide, by decide, by decide +kernel, by decide⟩
  obtain ⟨log, q', hcalls, hfirst⟩ := hwraps.calls (q := runner twoRedirsCmd) rfl (by decide)
  refine ⟨by decide +kernel, log, q', hcalls, hfirst.reached, ?_, ?_⟩
  · rw [List.map_reverse, hfirst.order]
    rfl
  · exact hfirst.first 0 ⟨.gt, [97]⟩ rfl nofun

end Xv6.Sh
