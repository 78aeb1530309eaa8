import Mathlib.Data.List.Forall2
import Mathlib.Data.List.Induction
import Xv6.Sh.Lexing

/-!
# The loops of the parser

`parseredirs` takes redirections as long as there are any, the loop of
`parseexec` words and redirections, and the loop of `parseline` ampersands.
For each of them: what it returns is a piece of the grammar, one round for each
token is enough, and a piece of the grammar is taken as a whole if what follows
does not go on with it.
-/

namespace Xv6.Sh

open Input

variable {rs : List Redir} {ws : List Word} {t : Tok} {s' : Nat}

/-! ## Results -/

/-- What is returned meets `Q`, and only where `P` holds do the rounds run out. -/
def Gives {α : Type} (x : Except Fail α) (P : Prop) (Q : α → Prop) : Prop :=
  (x = .error .rounds → P) ∧ ∀ a, x = .ok a → Q a

section Gives

variable {α β : Type} {x : Except Fail α} {P P' : Prop} {Q : α → Prop} {Q' : β → Prop}

theorem gives_ok {a : α} (h : Q a) : Gives (.ok a) P Q :=
  ⟨nofun, fun _ heq => Except.ok.inj heq ▸ h⟩

theorem gives_error {e : Fail} (h : e ≠ .rounds) : Gives (.error e) P Q :=
  ⟨fun heq => absurd (Except.error.inj heq) h, nofun⟩

theorem Gives.bind {f : α → Except Fail β} (h : Gives x P Q) (hP : P → P')
    (hf : ∀ a, Q a → Gives (f a) P' Q') : Gives (x >>= f) P' Q' := by
  cases x with
  | error e => exact ⟨fun heq => hP (h.1 (Except.error.inj heq ▸ rfl)), nofun⟩
  | ok a => exact hf a (h.2 a rfl)

theorem Gives.imp {R : α → Prop} (h : Gives x P Q) (hP : P → P') (hR : ∀ a, Q a → R a) :
    Gives x P' R :=
  ⟨fun heq => hP (h.1 heq), fun a heq => hR a (h.2 a heq)⟩

end Gives

/-! ## Commands with words as offsets -/

/-- The command stands for the tree. -/
inductive Denotes (line : Input) : Cmd → Tree → Prop where
  | exec {argv : List (Nat × Nat)} {ws : List Word}
      (words : List.Forall₂ (fun a w => WordAt line a.1 a.2 w) argv ws) :
      Denotes line (.exec argv) (.exec ws)
  | redir {cmd : Cmd} {t : Tree} {file efile : Nat} {w : Word} (mode : Int) (fd : Nat)
      (sub : Denotes line cmd t) (word : WordAt line file efile w) :
      Denotes line (.redir cmd file efile mode fd) (.redir t w mode fd)
  | pipe {left right : Cmd} {l r : Tree} (hl : Denotes line left l) (hr : Denotes line right r) :
      Denotes line (.pipe left right) (.pipe l r)
  | list {left right : Cmd} {l r : Tree} (hl : Denotes line left l) (hr : Denotes line right r) :
      Denotes line (.list left right) (.list l r)
  | back {cmd : Cmd} {t : Tree} (sub : Denotes line cmd t) : Denotes line (.back cmd) (.back t)

variable {line : Input}

/-- An argument goes to the exec node below the redirections. -/
theorem Denotes.addArg {ret : Cmd} {q eq : Nat} {w : Word}
    (h : Denotes line ret (rs.foldl Redir.apply (.exec ws))) (hw : WordAt line q eq w) :
    Denotes line (ret.addArg q eq) (rs.foldl Redir.apply (.exec (ws ++ [w]))) := by
  induction rs using List.reverseRecOn generalizing ret with
  | nil =>
    cases h with
    | exec words => exact .exec (List.rel_append words (.cons hw .nil))
  | append_singleton rs r ih =>
    rw [List.foldl_append, List.foldl_cons, List.foldl_nil] at h ⊢
    cases h with
    | redir _ _ sub word => exact .redir _ _ (ih sub) word

/-! ## Redirections -/

/-- The redirection operator of a token. -/
def Tok.redirOp : Tok → Option RedirOp
  | .lt => some .lt
  | .gt => some .gt
  | .gtgt => some .gtgt
  | _ => none

theorem startsWith_redir {ts : List Tok} : startsWith ['<', '>'] (t :: ts) = t.redirOp.isSome := by
  cases t <;> rfl

theorem exists_of_redirOp (h : t.redirOp.isSome = true) : ∃ op : RedirOp, t = op.tok := by
  cases t
  case lt => exact ⟨.lt, rfl⟩
  case gt => exact ⟨.gt, rfl⟩
  case gtgt => exact ⟨.gtgt, rfl⟩
  all_goals cases h

theorem ret_eq_word (h : t.ret = 'a'.toUInt8) : ∃ w, t = .word w := by
  cases t
  case word w => exact ⟨w, rfl⟩
  all_goals exact absurd h (by decide)

section redirs

variable {n s : Nat} {cmd cmd' : Cmd} {ts rest : List Tok}

/-- A loop gets a round for each byte of the line. -/
theorem At.enough {P : Prop} (h : At line s ts) (hn : line.es + 1 ≤ ts.length) : P :=
  absurd (Nat.lt_of_succ_le hn) (Nat.not_lt_of_le h.length_le)

theorem parseredirs_stop (h : At line s ts) (hstop : startsWith ['<', '>'] ts = false) :
    parseredirs line (n + 1) cmd s = .ok (cmd, (peek line s ['<', '>']).1) := by
  have hpeek : (peek line s ['<', '>']).2 = false := by
    rw [peek_eq (by simp), h.toks, hstop]
  rw [parseredirs]
  simp only [hpeek, Bool.false_eq_true, if_false]

theorem parseredirs_op {op : RedirOp} (h : At line s (op.tok :: ts)) :
    ∃ s1, At line s1 ts ∧ parseredirs line (n + 1) cmd s =
      if (gettoken line s1).ret ≠ 'a'.toUInt8 then .error .missingFile
      else parseredirs line n (.redir cmd (gettoken line s1).q (gettoken line s1).eq op.mode op.fd)
        (gettoken line s1).s := by
  have hpeek : (peek line s ['<', '>']).2 = true := by
    rw [peek_eq (by simp), h.toks, startsWith_redir]
    cases op <;> rfl
  have hret := (h.peek ['<', '>']).ret
  refine ⟨_, (h.peek ['<', '>']).next, ?_⟩
  rw [parseredirs]
  simp only [hpeek, if_true]
  split
  · rfl
  · rw [hret]
    cases op
    · exact if_pos rfl
    · rw [if_neg (by decide)]
      exact if_pos rfl
    · rw [if_neg (by decide), if_neg (by decide)]
      exact if_pos rfl

/-- What comes after an operator is a word, or the parser stops. -/
theorem file_cases {s1 : Nat} (h : At line s1 ts) :
    (∃ w rest, ts = .word w :: rest ∧ (gettoken line s1).ret = 'a'.toUInt8) ∨
      (∀ w rest, ts ≠ .word w :: rest) ∧ (gettoken line s1).ret ≠ 'a'.toUInt8 := by
  cases ts with
  | nil =>
    refine .inr ⟨fun w rest hts => absurd hts (by simp), ?_⟩
    rw [h.nil.1]
    decide
  | cons t ts =>
    by_cases hret : t.ret = 'a'.toUInt8
    · obtain ⟨w, rfl⟩ := ret_eq_word hret
      exact .inl ⟨w, ts, rfl, h.ret⟩
    · refine .inr ⟨fun w rest hts => ?_, by rw [h.ret]; exact hret⟩
      cases hts
      exact hret rfl

theorem parseredirs_gives (h : At line s ts) :
    Gives (parseredirs line n cmd s) (n ≤ ts.length) fun r =>
      ∃ (rs : List Redir) (rest : List Tok), ts = rs.flatMap Redir.toks ++ rest ∧ At line r.2 rest ∧
        ∀ t, Denotes line cmd t → Denotes line r.1 (rs.foldl Redir.apply t) := by
  induction n generalizing cmd s ts with
  | zero => exact ⟨fun _ => Nat.zero_le _, nofun⟩
  | succ n ih =>
    cases hstop : startsWith ['<', '>'] ts with
    | false =>
      rw [parseredirs_stop h hstop]
      exact gives_ok ⟨[], ts, rfl, h.peek ['<', '>'], fun t ht => ht⟩
    | true =>
      cases ts with
      | nil => cases hstop
      | cons t ts =>
        rw [startsWith_redir] at hstop
        obtain ⟨op, rfl⟩ := exists_of_redirOp hstop
        obtain ⟨s1, h1, hround⟩ := @parseredirs_op line n s cmd ts op h
        rw [hround]
        rcases file_cases h1 with ⟨w, rest, rfl, hword⟩ | ⟨-, hno⟩
        · rw [if_neg (not_not_intro hword)]
          refine (ih h1.next).imp (fun hn => ?_) ?_
          · simp only [List.length_cons]
            omega
          · rintro r ⟨rs, rest', rfl, hat, hden⟩
            exact ⟨⟨op, w⟩ :: rs, rest', rfl, hat, fun t ht => hden _ (.redir _ _ ht h1.word)⟩
        · rw [if_pos hno]
          exact gives_error (by decide)

theorem parseredirs_complete {t : Tree} (h : At line s (rs.flatMap Redir.toks ++ rest))
    (hstop : startsWith ['<', '>'] rest = false) (hn : rs.length < n) (hden : Denotes line cmd t) :
    ∃ cmd' s', parseredirs line n cmd s = .ok (cmd', s') ∧ At line s' rest ∧
      Denotes line cmd' (rs.foldl Redir.apply t) := by
  induction rs generalizing n cmd s t with
  | nil =>
    obtain ⟨n, rfl⟩ := Nat.exists_eq_succ_of_ne_zero (Nat.ne_of_gt hn)
    exact ⟨cmd, _, parseredirs_stop h hstop, h.peek _, hden⟩
  | cons r rs ih =>
    obtain ⟨n, rfl⟩ := Nat.exists_eq_succ_of_ne_zero (Nat.ne_of_gt (Nat.zero_lt_of_lt hn))
    obtain ⟨op, w⟩ := r
    obtain ⟨s1, h1, hround⟩ :=
      @parseredirs_op line n s cmd (.word w :: (rs.flatMap Redir.toks ++ rest)) op h
    have hword : (gettoken line s1).ret = 'a'.toUInt8 := h1.ret
    rw [hround, if_neg (not_not_intro hword)]
    exact ih h1.next (Nat.lt_of_succ_lt_succ hn) (.redir _ _ hden h1.word)

end redirs

/-! ## Words -/

section args

variable {n argc s : Nat} {ret cmd' : Cmd} {ts rest : List Tok}

/-- The tokens are at their end, or go on with one of the bytes. -/
def Follow (chars : List Char) (rest : List Tok) : Prop :=
  rest = [] ∨ startsWith chars rest = true

theorem Follow.not_startsWith {chars chars' : List Char} (h : Follow chars rest)
    (hdisjoint : ∀ c ∈ chars, c ∉ chars') : startsWith chars' rest = false := by
  rcases h with rfl | h
  · rfl
  · unfold startsWith at h ⊢
    cases hfirst : rest.head?.bind Tok.first with
    | none => rfl
    | some c =>
      rw [hfirst, Option.any_some, List.contains_iff_mem] at h
      rw [Option.any_some, Bool.eq_false_iff, Ne, List.contains_iff_mem]
      exact hdisjoint c h

theorem Follow.mono {chars chars' : List Char} (h : Follow chars rest)
    (hsub : ∀ c ∈ chars, c ∈ chars') : Follow chars' rest := by
  rcases h with rfl | h
  · exact .inl rfl
  · refine .inr ?_
    unfold startsWith at h ⊢
    cases hfirst : rest.head?.bind Tok.first with
    | none =>
      rw [hfirst] at h
      cases h
    | some c =>
      rw [hfirst, Option.any_some, List.contains_iff_mem] at h
      rw [Option.any_some, List.contains_iff_mem]
      exact hsub c h

/-- A simple command ends here. -/
abbrev FollowExec : List Tok → Prop := Follow ['|', ')', '&', ';']

theorem parseargs_follow (h : At line s ts) (hstop : FollowExec ts) :
    ∃ s', At line s' ts ∧ parseargs line (n + 1) argc ret s = .ok (ret, s') := by
  rcases hstop with rfl | hstop
  · have hpeek : (peek line s ['|', ')', '&', ';']).2 = false := by
      rw [peek_eq (by simp), h.toks]
      rfl
    obtain ⟨hret, hnext⟩ := (h.peek ['|', ')', '&', ';']).nil
    refine ⟨_, hnext, ?_⟩
    rw [parseargs]
    simp only [hpeek, Bool.false_eq_true, if_false, hret, if_true]
  · have hpeek : (peek line s ['|', ')', '&', ';']).2 = true := by
      rw [peek_eq (by simp), h.toks, hstop]
    refine ⟨_, h.peek ['|', ')', '&', ';'], ?_⟩
    rw [parseargs]
    simp only [hpeek, if_true]

theorem parseargs_word {w : Word} (h : At line s (.word w :: ts)) :
    ∃ q eq s1, WordAt line q eq w ∧ At line s1 ts ∧ parseargs line (n + 1) argc ret s =
      if MAXARGS ≤ argc + 1 then .error .tooManyArgs
      else parseredirs line (line.es + 1) (ret.addArg q eq) s1 >>= fun r =>
        parseargs line n (argc + 1) r.1 r.2 := by
  have hpeek : (peek line s ['|', ')', '&', ';']).2 = false := by
    rw [peek_eq (by simp), h.toks]
    rfl
  have hat := h.peek ['|', ')', '&', ';']
  have hret : (gettoken line (peek line s ['|', ')', '&', ';']).1).ret = 'a'.toUInt8 := hat.ret
  refine ⟨_, _, _, hat.word, hat.next, ?_⟩
  rw [parseargs]
  simp only [hpeek, Bool.false_eq_true, if_false, hret]
  rw [if_neg (by decide), if_neg (by decide)]

theorem parseargs_other (h : At line s (t :: ts)) (hstop : ¬FollowExec (t :: ts))
    (hword : ∀ w, t ≠ .word w) : parseargs line (n + 1) argc ret s = .error .unexpected := by
  have hpeek : (peek line s ['|', ')', '&', ';']).2 = false := by
    rw [peek_eq (by simp), h.toks]
    exact Bool.eq_false_iff.mpr fun hyes => hstop (.inr hyes)
  have hret := (h.peek ['|', ')', '&', ';']).ret
  rw [parseargs]
  simp only [hpeek, Bool.false_eq_true, if_false, hret]
  rw [if_neg, if_pos]
  · intro hyes
    obtain ⟨w, rfl⟩ := ret_eq_word hyes
    exact hword w rfl
  · cases t
    case word w => exact absurd rfl (hword w)
    all_goals decide

theorem parseargs_gives (h : At line s ts)
    (hden : Denotes line ret (rs.foldl Redir.apply (.exec ws))) (hfew : ws.length ≤ MAXARGS - 1) :
    Gives (parseargs line n ws.length ret s) (n ≤ ts.length) fun r =>
      ∃ (as : List Arg) (rest : List Tok), ts = as.flatMap Arg.toks ++ rest ∧ At line r.2 rest ∧
        ws.length + as.length ≤ MAXARGS - 1 ∧
        Denotes line r.1 ((rs ++ as.flatMap Arg.redirs).foldl Redir.apply
          (.exec (ws ++ as.map Arg.word))) := by
  induction n generalizing ret s ts rs ws with
  | zero => exact ⟨fun _ => Nat.zero_le _, nofun⟩
  | succ n ih =>
    by_cases hstop : FollowExec ts
    · obtain ⟨s1, h1, hround⟩ := @parseargs_follow line n ws.length s ret ts h hstop
      rw [hround]
      exact gives_ok ⟨[], ts, rfl, h1, hfew, by simpa using hden⟩
    cases ts with
    | nil => exact absurd (.inl rfl) hstop
    | cons t ts =>
      by_cases hword : ∃ w, t = .word w
      · obtain ⟨w, rfl⟩ := hword
        obtain ⟨q, eq, s1, hw, h1, hround⟩ := @parseargs_word line n ws.length s ret ts w h
        rw [hround]
        split
        · exact gives_error (by decide)
        · rename_i hmore
          refine (parseredirs_gives h1).bind h1.enough ?_
          rintro ⟨ret1, s2⟩ ⟨rs1, ts1, rfl, h2, hden1⟩
          have hden2 := hden1 _ (hden.addArg hw)
          rw [← List.foldl_append] at hden2
          have hlen : (ws ++ [w]).length = ws.length + 1 := by simp
          rw [← hlen]
          refine (ih h2 hden2 (by rw [hlen]; omega)).imp (fun hn => ?_) ?_
          · rw [List.length_cons, List.length_append]
            omega
          · rintro r ⟨as, rest, rfl, hrest, hcount, hfinal⟩
            refine ⟨⟨w, rs1⟩ :: as, rest, by simp [Arg.toks], hrest, ?_, by simpa using hfinal⟩
            rw [List.length_cons]
            omega
      · rw [parseargs_other h hstop fun w hw => hword ⟨w, hw⟩]
        exact gives_error (by decide)

theorem startsWith_args {as : List Arg} (hstop : FollowExec rest) :
    startsWith ['<', '>'] (as.flatMap Arg.toks ++ rest) = false := by
  cases as with
  | cons a as => rfl
  | nil => exact hstop.not_startsWith (by simp)

theorem length_redirs_le (rs : List Redir) : rs.length ≤ (rs.flatMap Redir.toks).length := by
  induction rs with
  | nil => exact Nat.le_refl _
  | cons r rs ih =>
    rw [List.flatMap_cons, List.length_append, List.length_cons]
    have : r.toks.length = 2 := rfl
    omega

theorem length_args_le (as : List Arg) : as.length ≤ (as.flatMap Arg.toks).length := by
  induction as with
  | nil => exact Nat.le_refl _
  | cons a as ih =>
    rw [List.flatMap_cons, List.length_append, List.length_cons]
    have : 1 ≤ a.toks.length := Nat.succ_le_succ (Nat.zero_le _)
    omega

theorem parseargs_complete {as : List Arg} (h : At line s (as.flatMap Arg.toks ++ rest))
    (hstop : FollowExec rest) (hden : Denotes line ret (rs.foldl Redir.apply (.exec ws)))
    (hfew : ws.length + as.length ≤ MAXARGS - 1) (hn : as.length < n) :
    ∃ cmd' s', parseargs line n ws.length ret s = .ok (cmd', s') ∧ At line s' rest ∧
      Denotes line cmd' ((rs ++ as.flatMap Arg.redirs).foldl Redir.apply
        (.exec (ws ++ as.map Arg.word))) := by
  induction as generalizing n ret s rs ws with
  | nil =>
    obtain ⟨n, rfl⟩ := Nat.exists_eq_succ_of_ne_zero (Nat.ne_of_gt hn)
    obtain ⟨s1, h1, hround⟩ := @parseargs_follow line n ws.length s ret rest h hstop
    exact ⟨ret, s1, hround, h1, by simpa using hden⟩
  | cons a as ih =>
    obtain ⟨n, rfl⟩ := Nat.exists_eq_succ_of_ne_zero (Nat.ne_of_gt (Nat.zero_lt_of_lt hn))
    obtain ⟨w, rs1⟩ := a
    rw [List.length_cons] at hfew hn
    have hts : (Arg.mk w rs1 :: as).flatMap Arg.toks ++ rest =
        .word w :: (rs1.flatMap Redir.toks ++ (as.flatMap Arg.toks ++ rest)) := by
      simp [Arg.toks]
    rw [hts] at h
    obtain ⟨q, eq, s1, hw, h1, hround⟩ := @parseargs_word line n ws.length s ret _ w h
    have hlen1 := h1.length_le
    rw [List.length_append] at hlen1
    have hlen2 := length_redirs_le rs1
    obtain ⟨ret1, s2, hredirs, h2, hden2⟩ :=
      parseredirs_complete h1 (startsWith_args hstop) (n := line.es + 1) (by omega)
        (hden.addArg hw)
    rw [← List.foldl_append] at hden2
    have hlen : (ws ++ [w]).length = ws.length + 1 := by simp
    rw [hround, if_neg (by omega), hredirs]
    show ∃ cmd' s', parseargs line n (ws.length + 1) ret1 s2 = .ok (cmd', s') ∧ _
    rw [← hlen]
    have hfew' : (ws ++ [w]).length + as.length ≤ MAXARGS - 1 := by omega
    obtain ⟨cmd', s', hparse, hrest, hfinal⟩ := ih (n := n) h2 hden2 hfew' (by omega)
    exact ⟨cmd', s', hparse, hrest, by simpa using hfinal⟩

end args

/-! ## Ampersands -/

section backs

variable {n s : Nat} {cmd cmd' : Cmd} {ts rest : List Tok}

theorem parsebacks_stop (h : At line s ts) (hstop : startsWith ['&'] ts = false) :
    parsebacks line (n + 1) cmd s = .ok (cmd, (peek line s ['&']).1) := by
  have hpeek : (peek line s ['&']).2 = false := by
    rw [peek_eq (by simp), h.toks, hstop]
  rw [parsebacks]
  simp only [hpeek, Bool.false_eq_true, if_false]

theorem parsebacks_amp (h : At line s (.amp :: ts)) :
    ∃ s1, At line s1 ts ∧ parsebacks line (n + 1) cmd s = parsebacks line n (.back cmd) s1 := by
  have hpeek : (peek line s ['&']).2 = true := by
    rw [peek_eq (by simp), h.toks]
    rfl
  refine ⟨_, (h.peek ['&']).next, ?_⟩
  rw [parsebacks]
  simp only [hpeek, if_true]

theorem startsWith_amp (h : startsWith ['&'] ts = true) : ∃ rest, ts = .amp :: rest := by
  cases ts with
  | nil => cases h
  | cons t ts =>
    cases t
    case amp => exact ⟨ts, rfl⟩
    all_goals exact absurd h Bool.false_ne_true

theorem parsebacks_gives (h : At line s ts) :
    Gives (parsebacks line n cmd s) (n ≤ ts.length) fun r =>
      ∃ (k : Nat) (rest : List Tok), ts = List.replicate k .amp ++ rest ∧ At line r.2 rest ∧
        ∀ t, Denotes line cmd t → Denotes line r.1 (Tree.back^[k] t) := by
  induction n generalizing cmd s ts with
  | zero => exact ⟨fun _ => Nat.zero_le _, nofun⟩
  | succ n ih =>
    cases hstop : startsWith ['&'] ts with
    | false =>
      rw [parsebacks_stop h hstop]
      exact gives_ok ⟨0, ts, rfl, h.peek ['&'], fun t ht => ht⟩
    | true =>
      obtain ⟨ts1, rfl⟩ := startsWith_amp hstop
      obtain ⟨s1, h1, hround⟩ := @parsebacks_amp line n s cmd ts1 h
      rw [hround]
      refine (ih h1).imp Nat.succ_le_succ ?_
      rintro r ⟨k, rest, rfl, hrest, hden⟩
      exact ⟨k + 1, rest, rfl, hrest, fun t ht => hden _ (.back ht)⟩

theorem parsebacks_complete {k : Nat} {t : Tree} (h : At line s (List.replicate k .amp ++ rest))
    (hstop : startsWith ['&'] rest = false) (hn : k < n) (hden : Denotes line cmd t) :
    ∃ cmd' s', parsebacks line n cmd s = .ok (cmd', s') ∧ At line s' rest ∧
      Denotes line cmd' (Tree.back^[k] t) := by
  induction k generalizing n cmd s t with
  | zero =>
    obtain ⟨n, rfl⟩ := Nat.exists_eq_succ_of_ne_zero (Nat.ne_of_gt hn)
    rw [List.replicate_zero, List.nil_append] at h
    exact ⟨cmd, _, parsebacks_stop h hstop, h.peek _, hden⟩
  | succ k ih =>
    obtain ⟨n, rfl⟩ := Nat.exists_eq_succ_of_ne_zero (Nat.ne_of_gt (Nat.zero_lt_of_lt hn))
    rw [List.replicate_succ, List.cons_append] at h
    obtain ⟨s1, h1, hround⟩ := @parsebacks_amp line n s cmd _ h
    rw [hround]
    exact ih h1 (Nat.lt_of_succ_lt_succ hn) (.back hden)

end backs

end Xv6.Sh
