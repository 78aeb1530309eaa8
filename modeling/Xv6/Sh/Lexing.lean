import Mathlib.Data.List.GetD
import Mathlib.Data.List.TakeWhile
import Xv6.Sh.Parser

/-!
# What `gettoken` and `peek` see

An offset stands for the tokens from there on. `gettoken` takes the first of
them off, and `peek` looks at it; both may move over whitespace, which changes
nothing about the tokens.
-/

namespace Xv6.Sh

variable {c : UInt8} {t : Tok}

/-! ## Tokens of a list of bytes -/

theorem lex_nil : lex [] = [] := by
  rw [lex]

theorem lex_space {cs : List UInt8} (h : isSpace c = true) : lex (c :: cs) = lex cs := by
  rw [lex, if_pos h]

theorem lex_dropWhile (l : List UInt8) : lex (l.dropWhile isSpace) = lex l := by
  induction l with
  | nil => rfl
  | cons c cs ih =>
    rw [List.dropWhile_cons]
    split
    · rename_i h
      rw [ih, lex_space h]
    · rfl

/-- The byte that `gettoken` returns for a token. -/
def Tok.ret : Tok → UInt8
  | .bar => '|'.toUInt8
  | .amp => '&'.toUInt8
  | .semi => ';'.toUInt8
  | .lpar => '('.toUInt8
  | .rpar => ')'.toUInt8
  | .lt => '<'.toUInt8
  | .gt => '>'.toUInt8
  | .gtgt => '+'.toUInt8
  | .word _ => 'a'.toUInt8

/-- The first byte of a symbol. -/
def Tok.first : Tok → Option Char
  | .bar => some '|'
  | .amp => some '&'
  | .semi => some ';'
  | .lpar => some '('
  | .rpar => some ')'
  | .lt => some '<'
  | .gt | .gtgt => some '>'
  | .word _ => none

/-- The symbols that are one byte in every case. -/
theorem symbolTok_some (h : symbolTok c = some t) :
    (c = '|'.toUInt8 ∨ c = '('.toUInt8 ∨ c = ')'.toUInt8 ∨ c = ';'.toUInt8 ∨
      c = '&'.toUInt8 ∨ c = '<'.toUInt8) ∧
    t.ret = c ∧ (∃ a, t.first = some a ∧ a.toUInt8 = c) ∧ c ≠ '>'.toUInt8 ∧
      isSpace c = false ∧ ∀ w, t ≠ .word w := by
  unfold symbolTok at h
  split_ifs at h with h1 h2 h3 h4 h5 h6
  all_goals
    cases h
    subst c
    exact ⟨by decide, rfl, ⟨_, rfl, rfl⟩, by decide, by decide, fun _ => by simp⟩

theorem symbolTok_none (h : symbolTok c = none) :
    ¬(c = '|'.toUInt8 ∨ c = '('.toUInt8 ∨ c = ')'.toUInt8 ∨ c = ';'.toUInt8 ∨
      c = '&'.toUInt8 ∨ c = '<'.toUInt8) := by
  unfold symbolTok at h
  split_ifs at h with h1 h2 h3 h4 h5 h6
  simp only [not_or]
  exact ⟨h1, h4, h5, h3, h2, h6⟩

theorem isWordByte_of_symbolTok (hspace : isSpace c = false) (hgt : c ≠ '>'.toUInt8)
    (h : symbolTok c = none) : isWordByte c = true := by
  have hnot := symbolTok_none h
  simp only [not_or] at hnot
  obtain ⟨h1, h2, h3, h4, h5, h6⟩ := hnot
  unfold isWordByte
  unfold isSpace at hspace
  rw [hspace]
  simp [symbols, h1, h2, h3, h4, h5, h6, hgt]

/-- The bytes start with a token, and leave the rest. -/
inductive Starts : List UInt8 → Tok → List UInt8 → Prop where
  | symbol {c : UInt8} {t : Tok} (cs : List UInt8) (h : symbolTok c = some t) :
      Starts (c :: cs) t cs
  | gt {cs : List UInt8} (h : cs.head? ≠ some '>'.toUInt8) :
      Starts ('>'.toUInt8 :: cs) .gt cs
  | gtgt (cs : List UInt8) : Starts ('>'.toUInt8 :: '>'.toUInt8 :: cs) .gtgt cs
  | word {c : UInt8} (cs : List UInt8) (hspace : isSpace c = false) (hgt : c ≠ '>'.toUInt8)
      (h : symbolTok c = none) :
      Starts (c :: cs) (.word (c :: cs.takeWhile isWordByte)) (cs.dropWhile isWordByte)

theorem Starts.lex {l l' : List UInt8} (h : Starts l t l') : lex l = t :: lex l' := by
  cases h with
  | symbol cs h =>
    obtain ⟨-, -, -, hgt, hspace, -⟩ := symbolTok_some h
    rw [Sh.lex, if_neg (by rw [hspace]; decide), if_neg hgt]
    simp only [h]
  | gt h =>
    rw [Sh.lex, if_neg (by decide), if_pos rfl, if_neg h]
  | gtgt cs =>
    rw [Sh.lex, if_neg (by decide), if_pos rfl, if_pos List.head?_cons, List.tail_cons]
  | word cs hspace hgt h =>
    rw [Sh.lex, if_neg (by rw [hspace]; decide), if_neg hgt]
    simp only [h]

/-- Bytes that do not start with whitespace start with a token. -/
theorem starts_of_not_space (cs : List UInt8) (h : isSpace c = false) :
    ∃ t l', Starts (c :: cs) t l' := by
  by_cases hgt : c = '>'.toUInt8
  · subst hgt
    by_cases hhead : cs.head? = some '>'.toUInt8
    · obtain ⟨ds, rfl⟩ := List.head?_eq_some_iff.mp hhead
      exact ⟨_, _, .gtgt ds⟩
    · exact ⟨_, _, .gt hhead⟩
  · cases hsym : symbolTok c with
    | some t => exact ⟨_, _, .symbol cs hsym⟩
    | none => exact ⟨_, _, .word cs h hgt hsym⟩

theorem Starts.length_lt {l l' : List UInt8} (h : Starts l t l') : l'.length < l.length := by
  cases h with
  | symbol cs h => exact Nat.lt_succ_self _
  | gt h => exact Nat.lt_succ_self _
  | gtgt cs => exact Nat.lt_succ_of_lt (Nat.lt_succ_self _)
  | word cs hspace hgt h => exact Nat.lt_succ_of_le (List.dropWhile_sublist _).length_le

theorem length_lex_le (l : List UInt8) : (lex l).length ≤ l.length := by
  induction hn : l.length using Nat.strong_induction_on generalizing l with
  | _ n ih =>
    subst hn
    cases l with
    | nil => simp [lex_nil]
    | cons c cs =>
      cases hspace : isSpace c with
      | true =>
        rw [lex_space hspace]
        exact Nat.le_succ_of_le (ih _ (Nat.lt_succ_self _) cs rfl)
      | false =>
        obtain ⟨t, l', hstarts⟩ := starts_of_not_space cs hspace
        rw [hstarts.lex, List.length_cons]
        exact Nat.lt_of_le_of_lt (ih _ hstarts.length_lt l' rfl) hstarts.length_lt

/-! ## Offsets -/

namespace Input

variable (line : Input)

/-- The tokens from an offset on. -/
def toks (s : Nat) : List Tok := lex (line.bytes.drop s)

variable {line} {s : Nat}

theorem byte_of_drop {cs : List UInt8} (h : line.bytes.drop s = c :: cs) :
    s < line.es ∧ line.byte s = c ∧ line.bytes.drop (s + 1) = cs := by
  have hlt : s < line.bytes.length := by
    by_contra hge
    rw [List.drop_eq_nil_of_le (Nat.le_of_not_lt hge)] at h
    cases h
  rw [List.drop_eq_getElem_cons hlt, List.cons.injEq] at h
  refine ⟨hlt, ?_, h.2⟩
  unfold byte
  rw [List.getD_eq_getElem _ _ hlt, h.1]

theorem byte_of_le (h : line.es ≤ s) : line.byte s = 0 := by
  unfold byte
  rw [List.getD_eq_default _ _ h]

theorem byte_ne_zero (h : s < line.es) : line.byte s ≠ 0 := by
  unfold byte
  rw [List.getD_eq_getElem _ _ h]
  intro hzero
  exact line.nonul (hzero ▸ List.getElem_mem h)

theorem skip_eq (p : UInt8 → Bool) (s : Nat) :
    line.skip p s = s + ((line.bytes.drop s).takeWhile p).length := by
  have hscan : ∀ n s, line.es - s = n →
      line.scan p n s = s + ((line.bytes.drop s).takeWhile p).length := by
    intro n
    induction n with
    | zero =>
      intro s hs
      rw [List.drop_eq_nil_of_le (Nat.sub_eq_zero_iff_le.mp hs)]
      rfl
    | succ n ih =>
      intro s hs
      have hlt : s < line.bytes.length := by
        unfold es at hs
        omega
      have hdrop := List.drop_eq_getElem_cons hlt
      have hbyte : line.byte s = line.bytes[s] := (byte_of_drop hdrop).2.1
      unfold scan
      rw [hdrop, List.takeWhile_cons, hbyte]
      split
      · rw [ih (s + 1) (by omega), List.length_cons]
        omega
      · rfl
  exact hscan _ s rfl

theorem drop_skip (p : UInt8 → Bool) (s : Nat) :
    line.bytes.drop (line.skip p s) = (line.bytes.drop s).dropWhile p := by
  have hleft : ∀ l : List UInt8, l.drop (l.takeWhile p).length = l.dropWhile p := by
    intro l
    have h := @List.drop_left _ (l.takeWhile p) (l.dropWhile p)
    rwa [List.takeWhile_append_dropWhile] at h
  rw [skip_eq, ← List.drop_drop, hleft]

theorem skip_le (p : UInt8 → Bool) (h : s ≤ line.es) : line.skip p s ≤ line.es := by
  have hle := (List.takeWhile_sublist p (l := line.bytes.drop s)).length_le
  rw [List.length_drop] at hle
  rw [skip_eq]
  unfold es at *
  omega

theorem toks_skip (s : Nat) : line.toks (line.skip isSpace s) = line.toks s := by
  unfold toks
  rw [drop_skip, lex_dropWhile]

/-- After whitespace there is the end of the line or a token. -/
theorem skip_cases (line : Input) (s : Nat) :
    line.es ≤ line.skip isSpace s ∧ line.toks s = [] ∨
      ∃ t l', Starts (line.bytes.drop (line.skip isSpace s)) t l' ∧ line.toks s = t :: lex l' := by
  cases hdrop : line.bytes.drop (line.skip isSpace s) with
  | nil =>
    refine .inl ⟨List.drop_eq_nil_iff.mp hdrop, ?_⟩
    rw [← toks_skip]
    unfold toks
    rw [hdrop, lex_nil]
  | cons c cs =>
    have hspace : isSpace c = false := by
      have hhead := List.head?_dropWhile_not isSpace (line.bytes.drop s)
      rw [← drop_skip, hdrop] at hhead
      simpa using hhead
    obtain ⟨t, l', hstarts⟩ := starts_of_not_space cs hspace
    refine .inr ⟨t, l', hstarts, ?_⟩
    rw [← toks_skip]
    unfold toks
    rw [hdrop, hstarts.lex]

/-- The word between two offsets, with no byte of a word after it. -/
structure WordAt (line : Input) (q eq : Nat) (w : Word) : Prop where
  le : q ≤ eq
  bound : eq ≤ line.es
  text : line.bytes.drop q = w ++ line.bytes.drop eq
  bytes : ∀ c ∈ w, isWordByte c = true
  stop : eq < line.es → isWordByte (line.byte eq) = false

end Input

open Input

/-! ## `gettoken` and `peek` -/

section functions

variable {line : Input} {s : Nat}

theorem gettoken_nil (hs : s ≤ line.es) (h : line.toks s = []) :
    (gettoken line s).ret = 0 ∧ line.toks (gettoken line s).s = [] ∧
      (gettoken line s).s ≤ line.es := by
  rcases skip_cases line s with ⟨hle, -⟩ | ⟨t, l', -, htoks⟩
  · have hzero := byte_of_le hle
    unfold gettoken
    simp only [hzero, if_true, toks_skip]
    exact ⟨trivial, h, skip_le _ (skip_le _ hs)⟩
  · exact absurd (htoks.symm.trans h) (by simp)

theorem not_symbol_gt (h : c = '>'.toUInt8) :
    ¬(c = '|'.toUInt8 ∨ c = '('.toUInt8 ∨ c = ')'.toUInt8 ∨ c = ';'.toUInt8 ∨
      c = '&'.toUInt8 ∨ c = '<'.toUInt8) := by
  subst h
  decide

theorem gettoken_cons {ts : List Tok} (h : line.toks s = t :: ts) :
    (gettoken line s).ret = t.ret ∧ line.toks (gettoken line s).s = ts ∧
      (gettoken line s).s ≤ line.es ∧
      ∀ w, t = .word w → WordAt line (gettoken line s).q (gettoken line s).eq w := by
  rcases skip_cases line s with ⟨-, htoks⟩ | ⟨t', l', hstarts, htoks⟩
  · exact absurd (htoks.symm.trans h) (by simp)
  obtain ⟨rfl, rfl⟩ := List.cons.inj (htoks.symm.trans h)
  unfold gettoken
  generalize line.skip isSpace s = q at hstarts ⊢
  generalize hl : line.bytes.drop q = l at hstarts
  -- The branch of the switch is given by the first byte.
  cases hstarts with
  | symbol cs hsym =>
    obtain ⟨hlt, hbyte, hrest⟩ := byte_of_drop hl
    obtain ⟨hc, hret, -, -, -, hword⟩ := symbolTok_some hsym
    have hne : line.byte q ≠ 0 := byte_ne_zero hlt
    rw [← hbyte] at hc hret
    simp only [if_neg hne, if_pos hc, toks_skip]
    refine ⟨hret.symm, ?_, skip_le _ hlt, fun w hw => absurd hw (hword w)⟩
    unfold toks
    rw [hrest]
  | gt hhead =>
    obtain ⟨hlt, hbyte, hrest⟩ := byte_of_drop hl
    have hnext : line.byte (q + 1) ≠ '>'.toUInt8 := by
      intro heq
      refine hhead ?_
      rw [← hrest]
      have hlt' : q + 1 < line.es := by
        by_contra hge
        rw [byte_of_le (Nat.le_of_not_lt hge)] at heq
        exact absurd heq (by decide)
      have hdrop := List.drop_eq_getElem_cons hlt'
      rw [hdrop, List.head?_cons, ← (byte_of_drop hdrop).2.1, heq]
    simp only [if_neg (byte_ne_zero hlt), if_neg (not_symbol_gt hbyte), if_pos hbyte, if_neg hnext,
      toks_skip]
    refine ⟨hbyte, ?_, skip_le _ hlt, fun w hw => by cases hw⟩
    unfold toks
    rw [hrest]
  | gtgt cs =>
    obtain ⟨hlt, hbyte, hrest⟩ := byte_of_drop hl
    obtain ⟨hlt', hbyte', hrest'⟩ := byte_of_drop hrest
    simp only [if_neg (byte_ne_zero hlt), if_neg (not_symbol_gt hbyte), if_pos hbyte,
      if_pos hbyte', toks_skip]
    refine ⟨rfl, ?_, skip_le _ hlt', fun w hw => by cases hw⟩
    unfold toks
    rw [← hrest']
  | word cs hspace hgt hsym =>
    obtain ⟨hlt, hbyte, hrest⟩ := byte_of_drop hl
    have hne : line.byte q ≠ 0 := byte_ne_zero hlt
    have hnot := symbolTok_none hsym
    rw [← hbyte] at hnot hgt
    simp only [if_neg hne, if_neg hnot, if_neg hgt, toks_skip]
    have hwordbyte := isWordByte_of_symbolTok hspace (hbyte ▸ hgt) hsym
    have hdrop : line.bytes.drop (line.skip isWordByte q) = cs.dropWhile isWordByte := by
      rw [drop_skip, hl, List.dropWhile_cons, if_pos hwordbyte]
    have heq := skip_le isWordByte (Nat.le_of_lt hlt)
    refine ⟨rfl, by unfold toks; rw [hdrop], skip_le _ heq, fun w hw => ?_⟩
    cases hw
    refine ⟨?_, heq, ?_, ?_, fun hend => ?_⟩
    · rw [skip_eq]
      exact Nat.le_add_right _ _
    · rw [hl, hdrop, List.cons_append, List.takeWhile_append_dropWhile]
    · intro c' hc'
      rcases List.mem_cons.mp hc' with rfl | hc'
      · exact hwordbyte
      · exact List.mem_takeWhile_imp hc'
    · have hhead := List.head?_dropWhile_not isWordByte (line.bytes.drop q)
      have hcons := List.drop_eq_getElem_cons hend
      rw [← drop_skip, hcons] at hhead
      rw [(byte_of_drop hcons).2.1]
      simpa using hhead

theorem first_mem {a : Char} (h : t.first = some a) : a ∈ ['<', '|', '>', '&', ';', '(', ')'] := by
  cases t <;> cases h <;> decide

/-- The next token starts with one of the bytes. -/
def startsWith (chars : List Char) (ts : List Tok) : Bool :=
  (ts.head?.bind Tok.first).any fun c => chars.contains c

/-- `peek` for symbols says whether the next token starts with one of them. -/
theorem peek_eq {chars : List Char} (hchars : ∀ c ∈ chars, c ∈ ['<', '|', '>', '&', ';', '(', ')']) :
    (peek line s chars).2 = startsWith chars (line.toks s) := by
  have hmem : ∀ c ∈ ['<', '|', '>', '&', ';', '(', ')'],
      (chars.map Char.toUInt8).contains c.toUInt8 = chars.contains c := by
    have hinj : (['<', '|', '>', '&', ';', '(', ')'].all fun a =>
        ['<', '|', '>', '&', ';', '(', ')'].all fun c =>
          decide (a.toUInt8 = c.toUInt8 → a = c)) = true := by decide
    intro c hc
    rw [Bool.eq_iff_iff, List.contains_iff_mem, List.contains_iff_mem, List.mem_map]
    refine ⟨fun ⟨a, ha, heq⟩ => ?_, fun hmem => ⟨c, hmem, rfl⟩⟩
    have heq' := of_decide_eq_true
      (List.all_eq_true.mp (List.all_eq_true.mp hinj a (hchars a ha)) c hc)
    exact heq' heq ▸ ha
  rcases skip_cases line s with ⟨hle, htoks⟩ | ⟨t, l', hstarts, htoks⟩
  · have hzero := byte_of_le hle
    unfold peek
    rw [htoks]
    simp [hzero, startsWith]
  have hpeek : ∀ c cs, line.bytes.drop (line.skip isSpace s) = c :: cs →
      (peek line s chars).2 = (chars.map Char.toUInt8).contains c := by
    intro c cs hdrop
    obtain ⟨hlt, hbyte, -⟩ := byte_of_drop hdrop
    have hne : c ≠ 0 := hbyte ▸ byte_ne_zero hlt
    unfold peek
    simp only [hbyte]
    rw [Bool.eq_iff_iff, decide_eq_true_iff]
    exact and_iff_right hne
  generalize hl : line.bytes.drop (line.skip isSpace s) = l at hstarts
  rw [htoks]
  cases hstarts with
  | symbol cs hsym =>
    obtain ⟨-, -, ⟨a, ha, rfl⟩, -, -, -⟩ := symbolTok_some hsym
    rw [hpeek _ _ hl, hmem a (first_mem ha)]
    unfold startsWith
    rw [List.head?_cons, Option.bind_some, ha, Option.any_some]
  | gt hhead =>
    rw [hpeek _ _ hl]
    exact hmem '>' (by decide)
  | gtgt cs =>
    rw [hpeek _ _ hl]
    exact hmem '>' (by decide)
  | word cs hspace hgt hsym =>
    rw [hpeek _ _ hl]
    show _ = false
    rw [Bool.eq_false_iff, Ne, List.contains_iff_mem, List.mem_map]
    rintro ⟨a, ha, rfl⟩
    have hwordbyte := isWordByte_of_symbolTok hspace hgt hsym
    have hsymbol : symbols.contains a.toUInt8 = true :=
      List.contains_iff_mem.mpr (List.mem_map_of_mem (hchars a ha))
    unfold isWordByte at hwordbyte
    rw [hsymbol] at hwordbyte
    simp at hwordbyte

end functions

/-! ## Offsets with the tokens after them -/

/-- The tokens of the line from offset `s` on are `ts`. -/
structure At (line : Input) (s : Nat) (ts : List Tok) : Prop where
  bound : s ≤ line.es
  toks : line.toks s = ts

section offsets

variable {line : Input} {s : Nat} {ts : List Tok}

theorem At.peek (h : At line s ts) (chars : List Char) : At line (peek line s chars).1 ts :=
  ⟨skip_le _ h.bound, (toks_skip s).trans h.toks⟩

theorem At.nil (h : At line s []) : (gettoken line s).ret = 0 ∧ At line (gettoken line s).s [] := by
  obtain ⟨hret, htoks, hbound⟩ := gettoken_nil h.bound h.toks
  exact ⟨hret, hbound, htoks⟩

theorem At.next (h : At line s (t :: ts)) : At line (gettoken line s).s ts :=
  ⟨(gettoken_cons h.toks).2.2.1, (gettoken_cons h.toks).2.1⟩

theorem At.ret (h : At line s (t :: ts)) : (gettoken line s).ret = t.ret := (gettoken_cons h.toks).1

theorem At.word {w : Word} (h : At line s (.word w :: ts)) :
    WordAt line (gettoken line s).q (gettoken line s).eq w :=
  (gettoken_cons h.toks).2.2.2 w rfl

theorem At.length_le (h : At line s ts) : ts.length ≤ line.es := by
  rw [← h.toks]
  have hle := length_lex_le (line.bytes.drop s)
  rw [List.length_drop] at hle
  exact Nat.le_trans hle (Nat.sub_le _ _)

/-- Only whitespace is left, and `peek` moves to the end. -/
theorem At.end_iff (h : At line s ts) (chars : List Char) :
    (Sh.peek line s chars).1 = line.es ↔ ts = [] := by
  have hle : line.skip isSpace s ≤ line.es := skip_le _ h.bound
  rw [← h.toks]
  show line.skip isSpace s = line.es ↔ _
  rcases skip_cases line s with ⟨hge, htoks⟩ | ⟨t, l', hstarts, htoks⟩
  · exact ⟨fun _ => htoks, fun _ => Nat.le_antisymm hle hge⟩
  · rw [htoks]
    refine ⟨fun heq => ?_, fun hnil => by cases hnil⟩
    rw [heq, show line.bytes.drop line.es = [] from List.drop_length] at hstarts
    cases hstarts

end offsets

end Xv6.Sh
