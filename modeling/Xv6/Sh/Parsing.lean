import Xv6.Sh.Loops

/-!
# The recursive descent

`parseline`, `parsepipe`, `parseexec` and `parseblock` against the grammar.
What one of them returns is derived by its nonterminal, whatever comes after
it, and the rounds are enough: four for each token, as a block goes through all
four functions before it takes the parenthesis. The other way, a derivation is
found if what follows it cannot go on with it. The two operators, `|` and `;`,
are one rule.

Each of these is an induction on the rounds, for the four functions together.
-/

namespace Xv6.Sh

open Input

variable {line : Input} {n s : Nat} {ts rest : List Tok}

/-! ## One symbol -/

theorem eq_of_first {t t' : Tok} {c : Char} (ht : t.first = some c) (hc : c ≠ '>')
    (ht' : t'.first = some c) : t' = t := by
  cases t <;> cases ht
  case gt | gtgt => exact absurd rfl hc
  all_goals
    cases t'
    all_goals first | rfl | exact absurd ht' (by decide) | cases ht'

theorem startsWith_first {t : Tok} {c : Char} {chars : List Char} (ht : t.first = some c)
    (hc : c ∈ chars) : startsWith chars (t :: ts) = true := by
  rw [startsWith, List.head?_cons, Option.bind_some, ht, Option.any_some]
  exact List.contains_iff_mem.mpr hc

/-- `peek` for one symbol: the token is there and `gettoken` takes it, or it is not. -/
theorem At.one {t : Tok} {c : Char} (h : At line s ts) (ht : t.first = some c) (hc : c ≠ '>') :
    (∃ rest, ts = t :: rest ∧ (Sh.peek line s [c]).2 = true ∧
      At line (gettoken line (Sh.peek line s [c]).1).s rest) ∨
    startsWith [c] ts = false ∧ (Sh.peek line s [c]).2 = false ∧
      At line (Sh.peek line s [c]).1 ts := by
  have hpeek : (Sh.peek line s [c]).2 = startsWith [c] ts := by
    rw [peek_eq fun a ha => List.mem_singleton.mp ha ▸ first_mem ht, h.toks]
  rw [hpeek]
  cases hstart : startsWith [c] ts with
  | false => exact .inr ⟨rfl, rfl, h.peek [c]⟩
  | true =>
    cases ts with
    | nil => cases hstart
    | cons t' rest =>
      have hfirst : t'.first = some c := by
        unfold startsWith at hstart
        rw [List.head?_cons, Option.bind_some, Option.any_eq_true] at hstart
        obtain ⟨a, ha, hmem⟩ := hstart
        rw [List.contains_iff_mem, List.mem_singleton] at hmem
        rw [ha, hmem]
      obtain rfl := eq_of_first ht hc hfirst
      exact .inl ⟨rest, rfl, rfl, (h.peek [c]).next⟩

/-! ## One call -/

/-- A first part, and after the symbol `c` another one. -/
def infixed (line : Input) (c : Char) (op : Cmd → Cmd → Cmd) (first again : Nat → Parsed)
    (s : Nat) : Parsed :=
  first s >>= fun r =>
    if (peek line r.2 [c]).2 then
      again (gettoken line (peek line r.2 [c]).1).s >>= fun r' => .ok (op r.1 r'.1, r'.2)
    else .ok (r.1, (peek line r.2 [c]).1)

/-- A pipe and the ampersands after it. -/
def parsejob (line : Input) (n s : Nat) : Parsed :=
  parsepipe line n s >>= fun r => parsebacks line (line.es + 1) r.1 r.2

theorem parseline_succ :
    parseline line (n + 1) s = infixed line ';' .list (parsejob line n) (parseline line n) s := by
  rw [parseline, infixed, parsejob]
  cases parsepipe line n s <;> rfl

theorem parsepipe_succ :
    parsepipe line (n + 1) s = infixed line '|' .pipe (parseexec line n) (parsepipe line n) s := by
  rw [parsepipe]
  rfl

theorem parseexec_succ : parseexec line (n + 1) s =
    if (peek line s ['(']).2 then parseblock line n (peek line s ['(']).1
    else parseredirs line (line.es + 1) (.exec []) (peek line s ['(']).1 >>= fun r =>
      parseargs line (line.es + 1) 0 r.1 r.2 := by
  rw [parseexec]

theorem parseblock_succ : parseblock line (n + 1) s =
    if (peek line s ['(']).2 = false then .error .parseblock
    else parseline line n (gettoken line (peek line s ['(']).1).s >>= fun r =>
      if (peek line r.2 [')']).2 = false then .error .missingParen
      else parseredirs line (line.es + 1) r.1 (gettoken line (peek line r.2 [')']).1).s := by
  rw [parseblock]
  simp only [Bool.not_eq_true']

/-! ## The grammar of the two operators -/

def Job (ts : List Tok) (t : Tree) : Prop :=
  ∃ k ts' cmd, ts = ts' ++ List.replicate k .amp ∧ t = Tree.back^[k] cmd ∧ Pipe ts' cmd

/-- `Y` is a list of `X` with `tok` between them. -/
structure Infix (line : Input) (tok : Tok) (c : Char) (op : Cmd → Cmd → Cmd)
    (opT : Tree → Tree → Tree) (X Y : List Tok → Tree → Prop) : Prop where
  first : tok.first = some c
  ne : c ≠ '>'
  denotes : ∀ {l r t t'}, Denotes line l t → Denotes line r t' → Denotes line (op l r) (opT t t')
  iff : ∀ {ts t}, Y ts t ↔ X ts t ∨
    ∃ ts1 ts2 t1 t2, ts = ts1 ++ tok :: ts2 ∧ t = opT t1 t2 ∧ X ts1 t1 ∧ Y ts2 t2

theorem infix_line : Infix line .semi ';' .list .list Job Line where
  first := rfl
  ne := by decide
  denotes := .list
  iff := by
    intro ts t
    constructor
    · rintro (⟨k, pipe⟩ | ⟨k, pipe, hline⟩)
      · exact .inl ⟨k, _, _, rfl, rfl, pipe⟩
      · exact .inr ⟨_, _, _, _, rfl, rfl, ⟨k, _, _, rfl, rfl, pipe⟩, hline⟩
    · rintro (⟨k, _, _, rfl, rfl, pipe⟩ | ⟨_, _, _, _, rfl, rfl, ⟨k, _, _, rfl, rfl, pipe⟩, hline⟩)
      · exact .last k pipe
      · exact .seq k pipe hline

theorem infix_pipe : Infix line .bar '|' .pipe .pipe Exec Pipe where
  first := rfl
  ne := by decide
  denotes := .pipe
  iff := by
    intro ts t
    constructor
    · rintro (exec | ⟨exec, hpipe⟩)
      · exact .inl exec
      · exact .inr ⟨_, _, _, _, rfl, rfl, exec, hpipe⟩
    · rintro (exec | ⟨_, _, _, _, rfl, rfl, exec, hpipe⟩)
      · exact .last exec
      · exact .bar exec hpipe

/-! ## What is accepted is derived -/

section operators

variable {tok : Tok} {c : Char} {op : Cmd → Cmd → Cmd} {opT : Tree → Tree → Tree}
  {X Y : List Tok → Tree → Prop} {first again : Nat → Parsed} {b : Nat} {chars : List Char}

/-- What the function accepts is derived by the nonterminal, and four rounds
for each token and `b` more are enough. -/
def Parses (line : Input) (X : List Tok → Tree → Prop) (b n : Nat) (parse : Nat → Parsed) : Prop :=
  ∀ ⦃s ts⦄, At line s ts → Gives (parse s) (n < 4 * ts.length + b) fun r =>
    ∃ pre rest t, ts = pre ++ rest ∧ At line r.2 rest ∧ X pre t ∧ Denotes line r.1 t

theorem infixed_parses (hI : Infix line tok c op opT X Y) (hfirst : Parses line X b n first)
    (hagain : Parses line Y (b + 1) n again) :
    Parses line Y (b + 1) (n + 1) (infixed line c op first again) := by
  intro s ts h
  refine (hfirst h).bind (by omega) ?_
  rintro ⟨cmd, s1⟩ ⟨pre, rest, t, rfl, h1, hX, hden⟩
  rcases h1.one hI.first hI.ne with ⟨rest, rfl, hpeek, h2⟩ | ⟨-, hpeek, h2⟩
  · simp only [hpeek, if_true]
    refine (hagain h2).bind (fun hn => ?_) ?_
    · simp only [List.length_append, List.length_cons]
      omega
    · rintro ⟨right, s3⟩ ⟨pre', rest, t', rfl, h3, hY, hden'⟩
      exact gives_ok ⟨_, rest, _, by simp, h3, hI.iff.mpr (.inr ⟨_, _, _, _, rfl, rfl, hX, hY⟩),
        hI.denotes hden hden'⟩
  · simp only [hpeek, Bool.false_eq_true, if_false]
    exact gives_ok ⟨pre, rest, t, rfl, h2, hI.iff.mpr (.inl hX), hden⟩

theorem parsejob_parses (hpipe : Parses line Pipe b n (parsepipe line n)) :
    Parses line Job b n (parsejob line n) := by
  intro s ts h
  refine (hpipe h).bind id ?_
  rintro ⟨cmd, s1⟩ ⟨pre, rest, t, rfl, h1, hX, hden⟩
  refine (parsebacks_gives h1).imp h1.enough ?_
  rintro r ⟨k, rest, rfl, h2, hden2⟩
  exact ⟨_, rest, _, by simp, h2, ⟨k, _, _, rfl, rfl, hX⟩, hden2 _ hden⟩

theorem parseexec_parses (hblock : Parses line Exec b n (parseblock line n)) :
    Parses line Exec (b + 1) (n + 1) (parseexec line (n + 1)) := by
  intro s ts h
  have h1 := h.peek ['(']
  rw [parseexec_succ]
  split
  · exact (hblock h1).imp (by omega) fun _ => id
  · refine (parseredirs_gives h1).bind h1.enough ?_
    rintro ⟨ret, s1⟩ ⟨rs, rest, rfl, h2, hden⟩
    refine (@parseargs_gives rs [] line _ _ ret _ h2 (hden _ (.exec .nil)) (Nat.zero_le _)).imp
      h2.enough ?_
    rintro r ⟨as, rest, rfl, h3, hfew, hden'⟩
    rw [List.length_nil, Nat.zero_add] at hfew
    exact ⟨_, rest, _, by simp, h3, .simple rs as hfew, hden'⟩

theorem parseblock_parses (hline : Parses line Line (b + 3) n (parseline line n)) :
    Parses line Exec b (n + 1) (parseblock line (n + 1)) := by
  intro s ts h
  rw [parseblock_succ]
  rcases h.one (t := .lpar) rfl (by decide) with ⟨ts, rfl, hpeek, h1⟩ | ⟨-, hpeek, -⟩
  · rw [if_neg (by rw [hpeek]; decide)]
    refine (hline h1).bind (fun hn => by rw [List.length_cons]; omega) ?_
    rintro ⟨cmd1, s1⟩ ⟨pre, rest, t, rfl, h2, hX, hden⟩
    rcases h2.one (t := .rpar) rfl (by decide) with ⟨rest, rfl, hclose, h3⟩ | ⟨-, hclose, -⟩
    · simp only [hclose, Bool.true_eq_false, if_false]
      refine (parseredirs_gives h3).imp h3.enough ?_
      rintro r ⟨rs, rest, rfl, h4, hden'⟩
      exact ⟨_, rest, _, by simp, h4, .block rs hX, hden' _ hden⟩
    · simp only [hclose, if_true]
      exact gives_error (by decide)
  · rw [if_pos hpeek]
    exact gives_error (by decide)

theorem parses (line : Input) (n : Nat) :
    Parses line Line 4 n (parseline line n) ∧ Parses line Pipe 3 n (parsepipe line n) ∧
      Parses line Exec 2 n (parseexec line n) ∧ Parses line Exec 1 n (parseblock line n) := by
  induction n with
  | zero =>
    refine ⟨?_, ?_, ?_, ?_⟩
    all_goals
      intro s ts h
      refine ⟨fun _ => by omega, fun r hparse => ?_⟩
    · rw [parseline] at hparse
      cases hparse
    · rw [parsepipe] at hparse
      cases hparse
    · rw [parseexec] at hparse
      cases hparse
    · rw [parseblock] at hparse
      cases hparse
  | succ n ih =>
    obtain ⟨hline, hpipe, hexec, hblock⟩ := ih
    refine ⟨fun s => ?_, fun s => ?_, parseexec_parses hblock, parseblock_parses hline⟩
    · rw [parseline_succ]
      exact infixed_parses infix_line (parsejob_parses hpipe) hline (s := s)
    · rw [parsepipe_succ]
      exact infixed_parses infix_pipe hexec hpipe (s := s)

/-! ## What is derived is accepted -/

/-- The function finds a derivation that is followed by one of `chars`, if it
has `n` rounds. -/
def Complete (line : Input) (X : List Tok → Tree → Prop) (chars : List Char) (b n : Nat)
    (parse : Nat → Parsed) : Prop :=
  ∀ ⦃s pre rest t⦄, At line s (pre ++ rest) → X pre t → Follow chars rest →
    4 * (pre ++ rest).length + b ≤ n →
    ∃ cmd s', parse s = .ok (cmd, s') ∧ At line s' rest ∧ Denotes line cmd t

/-- A derivation of `exec` that is a block. -/
def Block (ts : List Tok) (t : Tree) : Prop :=
  ∃ ts' cmd, ∃ rs : List Redir, Line ts' cmd ∧ ts = .lpar :: ts' ++ .rpar :: rs.flatMap Redir.toks ∧
    t = rs.foldl Redir.apply cmd

theorem infixed_complete (hI : Infix line tok c op opT X Y) (hc : c ∉ chars)
    (hfirst : Complete line X (c :: chars) b n first)
    (hagain : Complete line Y chars (b + 1) n again) :
    Complete line Y chars (b + 1) (n + 1) (infixed line c op first again) := by
  intro s pre rest t h hY hfollow hn
  unfold infixed
  rcases hI.iff.mp hY with hX | ⟨ts1, ts2, t1, t2, rfl, rfl, hX, hY⟩
  · obtain ⟨cmd, s1, hp, h1, hden⟩ :=
      hfirst h hX (hfollow.mono fun _ => List.mem_cons_of_mem _) (by omega)
    have hstop : startsWith [c] rest = false := hfollow.not_startsWith fun a ha hac =>
      hc (List.mem_singleton.mp hac ▸ ha)
    rcases h1.one hI.first hI.ne with ⟨rest, rfl, -, -⟩ | ⟨-, hpeek, h2⟩
    · rw [startsWith_first hI.first List.mem_cons_self] at hstop
      cases hstop
    · refine ⟨cmd, _, ?_, h2, hden⟩
      rw [hp]
      exact if_neg (by rw [hpeek]; decide)
  · rw [List.append_assoc, List.cons_append] at h hn
    obtain ⟨cmd, s1, hp, h1, hden⟩ :=
      hfirst h hX (.inr (startsWith_first hI.first List.mem_cons_self)) (by omega)
    rcases h1.one hI.first hI.ne with ⟨rest', heq, hpeek, h2⟩ | ⟨hno, -, -⟩
    · obtain rfl := (List.cons.inj heq).2
      simp only [List.length_append, List.length_cons] at hn
      obtain ⟨right, s3, hr, h3, hden'⟩ :=
        hagain h2 hY hfollow (by rw [List.length_append]; omega)
      refine ⟨op cmd right, s3, ?_, h3, hI.denotes hden hden'⟩
      rw [hp]
      refine (if_pos hpeek).trans ?_
      rw [hr]
      rfl
    · rw [startsWith_first hI.first List.mem_cons_self] at hno
      cases hno

theorem parsejob_complete (hpipe : Complete line Pipe [')', '&', ';'] b n (parsepipe line n)) :
    Complete line Job [';', ')'] b n (parsejob line n) := by
  intro s pre rest t h hX hfollow hn
  obtain ⟨k, ts, cmd, rfl, rfl, pipe⟩ := hX
  have hamp : Follow [')', '&', ';'] (List.replicate k .amp ++ rest) := by
    cases k with
    | zero => exact hfollow.mono (by simp)
    | succ k => exact .inr rfl
  rw [List.append_assoc] at h hn
  obtain ⟨cmd1, s1, hp, h1, hden⟩ := hpipe h pipe hamp hn
  have hlen := h1.length_le
  rw [List.length_append, List.length_replicate] at hlen
  obtain ⟨cmd2, s2, hb, h2, hden2⟩ := parsebacks_complete (n := line.es + 1) h1
    (hfollow.not_startsWith (by simp)) (by omega) hden
  refine ⟨cmd2, s2, ?_, h2, hden2⟩
  unfold parsejob
  rw [hp]
  exact hb

end operators

theorem startsWith_simple {rs : List Redir} {as : List Arg} (h : FollowExec rest) :
    startsWith ['('] (rs.flatMap Redir.toks ++ (as.flatMap Arg.toks ++ rest)) = false := by
  cases rs with
  | cons r rs =>
    obtain ⟨op, w⟩ := r
    cases op <;> rfl
  | nil =>
    cases as with
    | cons a as => rfl
    | nil => exact h.not_startsWith (by simp)

theorem parseexec_complete
    (hblock : Complete line Block ['|', ')', '&', ';'] 1 n (parseblock line n)) :
    Complete line Exec ['|', ')', '&', ';'] 2 (n + 1) (parseexec line (n + 1)) := by
  intro s pre rest t h hX hfollow hn
  rw [parseexec_succ]
  cases hX with
  | @block ts cmd rs hline =>
    rcases h.one (t := .lpar) rfl (by decide) with ⟨ts', -, hpeek, -⟩ | ⟨hno, -, -⟩
    · rw [if_pos hpeek]
      exact hblock (h.peek ['(']) ⟨ts, cmd, rs, hline, rfl, rfl⟩ hfollow (by omega)
    · cases hno
  | simple rs as few =>
    rw [List.append_assoc] at h
    have hlpar := @startsWith_simple rest rs as hfollow
    rcases h.one (t := .lpar) rfl (by decide) with ⟨ts', heq, -, -⟩ | ⟨-, hpeek, h1⟩
    · rw [heq] at hlpar
      cases hlpar
    · have hlen := h1.length_le
      rw [List.length_append, List.length_append] at hlen
      have hrs := length_redirs_le rs
      have has := length_args_le as
      obtain ⟨ret, s2, hr, h2, hden⟩ := parseredirs_complete (n := line.es + 1) h1
        (startsWith_args hfollow) (by omega) (.exec .nil)
      obtain ⟨cmd, s3, ha, h3, hden'⟩ := parseargs_complete (n := line.es + 1) h2 hfollow hden
        (by rw [List.length_nil, Nat.zero_add]; exact few) (by omega)
      refine ⟨cmd, s3, ?_, h3, hden'⟩
      rw [if_neg (by rw [hpeek]; decide), hr]
      exact ha

theorem parseblock_complete (hline : Complete line Line [')'] 4 n (parseline line n)) :
    Complete line Block ['|', ')', '&', ';'] 1 (n + 1) (parseblock line (n + 1)) := by
  intro s pre rest t h hX hfollow hn
  obtain ⟨ts, cmd, rs, hY, rfl, rfl⟩ := hX
  have hts : .lpar :: ts ++ .rpar :: rs.flatMap Redir.toks ++ rest =
      .lpar :: (ts ++ .rpar :: (rs.flatMap Redir.toks ++ rest)) := by simp
  rw [hts] at h hn
  rw [List.length_cons] at hn
  rw [parseblock_succ]
  rcases h.one (t := .lpar) rfl (by decide) with ⟨ts', heq, hpeek, h1⟩ | ⟨hno, -, -⟩
  · obtain rfl := (List.cons.inj heq).2
    obtain ⟨cmd1, s1, hl, h2, hden⟩ := hline h1 hY (.inr rfl) (by omega)
    rcases h2.one (t := .rpar) rfl (by decide) with ⟨ts', heq', hclose, h3⟩ | ⟨hno, -, -⟩
    · obtain rfl := (List.cons.inj heq').2
      have hlen := h3.length_le
      rw [List.length_append] at hlen
      have hrs := length_redirs_le rs
      obtain ⟨cmd2, s2, hr, h4, hden'⟩ := parseredirs_complete (n := line.es + 1) h3
        (hfollow.not_startsWith (by simp)) (by omega) hden
      refine ⟨cmd2, s2, ?_, h4, hden'⟩
      rw [if_neg (by rw [hpeek]; decide), hl]
      refine (if_neg ?_).trans hr
      rw [hclose]
      decide
    · cases hno
  · cases hno

theorem complete (line : Input) (n : Nat) :
    Complete line Line [')'] 4 n (parseline line n) ∧
      Complete line Pipe [')', '&', ';'] 3 n (parsepipe line n) ∧
      Complete line Exec ['|', ')', '&', ';'] 2 n (parseexec line n) ∧
      Complete line Block ['|', ')', '&', ';'] 1 n (parseblock line n) := by
  induction n with
  | zero =>
    refine ⟨?_, ?_, ?_, ?_⟩
    all_goals
      intro s pre rest t h hX hfollow hn
      omega
  | succ n ih =>
    obtain ⟨hline, hpipe, hexec, hblock⟩ := ih
    refine ⟨fun s => ?_, fun s => ?_, parseexec_complete hblock, parseblock_complete hline⟩
    · rw [parseline_succ]
      exact infixed_complete infix_line (by decide) (parsejob_complete hpipe) hline (s := s)
    · rw [parsepipe_succ]
      exact infixed_complete infix_pipe (by decide) hexec hpipe (s := s)

end Xv6.Sh
