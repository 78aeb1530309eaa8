import Xv6.Sh.Parsing

/-!
# Strings in place

`nulterminate` stores its NULs into the line that the tree points into, so
that a word and the byte that ends another one could overlap. They do not: a
word ends at a byte that belongs to no word. After all NULs are stored, each
pointer of the tree reads its word and no more.

With this `parsecmd` as a whole meets the grammar.
-/

namespace Xv6.Sh

open Input Function

/-! ## Reading the tree -/

/-- The string at an offset, up to its NUL; there is one at `es`. -/
def cstr (es : Nat) (mem : Mem) (q : Nat) : Word :=
  ((List.range' q (es - q)).map mem).takeWhile (· ≠ 0)

/-- The tree with the strings that its pointers read. -/
def Cmd.read (es : Nat) (mem : Mem) : Cmd → Tree
  | .exec argv => .exec (argv.map fun arg => cstr es mem arg.1)
  | .redir cmd file _ mode fd => .redir (cmd.read es mem) (cstr es mem file) mode fd
  | .pipe left right => .pipe (left.read es mem) (right.read es mem)
  | .list left right => .list (left.read es mem) (right.read es mem)
  | .back cmd => .back (cmd.read es mem)

/-! ## NULs -/

/-- The offsets after the words of a command. -/
def Cmd.ends : Cmd → List Nat
  | .exec argv => argv.map Prod.snd
  | .redir cmd _ efile _ _ => efile :: cmd.ends
  | .pipe left right => left.ends ++ right.ends
  | .list left right => left.ends ++ right.ends
  | .back cmd => cmd.ends

theorem foldl_update_zero (argv : List (Nat × Nat)) (mem : Mem) (i : Nat) :
    argv.foldl (fun mem arg => update mem arg.2 0) mem i =
      if i ∈ argv.map Prod.snd then 0 else mem i := by
  induction argv generalizing mem with
  | nil => rfl
  | cons arg argv ih =>
    rw [List.foldl_cons, ih, List.map_cons]
    by_cases hi : i ∈ argv.map Prod.snd
    · rw [if_pos hi, if_pos (List.mem_cons_of_mem _ hi)]
    · rw [if_neg hi, update_apply]
      simp only [List.mem_cons, hi, or_false]

/-- `nulterminate` stores NULs at the ends of words and changes nothing else. -/
theorem nulterminate_apply (cmd : Cmd) (mem : Mem) (i : Nat) :
    nulterminate cmd mem i = if i ∈ cmd.ends then 0 else mem i := by
  induction cmd generalizing mem with
  | exec argv => exact foldl_update_zero argv mem i
  | redir cmd file efile mode fd ih =>
    show update (nulterminate cmd mem) efile 0 i =
      if i ∈ efile :: cmd.ends then 0 else mem i
    rw [update_apply, ih]
    by_cases hi : i = efile
    · rw [if_pos hi, if_pos (by rw [hi]; exact List.mem_cons_self)]
    · rw [if_neg hi]
      simp only [List.mem_cons, hi, false_or]
  | pipe left right ihl ihr | list left right ihl ihr =>
    show nulterminate right (nulterminate left mem) i =
      if i ∈ left.ends ++ right.ends then 0 else mem i
    rw [ihr, ihl]
    by_cases hr : i ∈ right.ends
    · rw [if_pos hr, if_pos (List.mem_append_right _ hr)]
    · rw [if_neg hr]
      simp only [List.mem_append, hr, or_false]
  | back cmd ih => exact ih mem

section reading

variable {line : Input} {q eq : Nat} {w : Word} {mem : Mem}

theorem Input.WordAt.eq_add (h : WordAt line q eq w) : eq = q + w.length := by
  have hlen := congrArg List.length h.text
  rw [List.length_append, List.length_drop, List.length_drop] at hlen
  have hle := h.le
  have hbound := h.bound
  unfold es at hbound
  omega

theorem Input.WordAt.byte (h : WordAt line q eq w) {i : Nat} (hi : i < w.length) :
    line.byte (q + i) = w[i] := by
  have hdrop : line.bytes.drop (q + i) = w[i] :: (w.drop (i + 1) ++ line.bytes.drop eq) := by
    rw [← List.drop_drop, h.text, List.drop_append_of_le_length (Nat.le_of_lt hi),
      List.drop_eq_getElem_cons hi, List.cons_append]
  exact (byte_of_drop hdrop).2.1

/-- The word is read back if its bytes are as they were and a NUL follows. -/
theorem cstr_eq (h : WordAt line q eq w) (hmem : ∀ i < w.length, mem (q + i) = line.byte (q + i))
    (hend : mem eq = 0) : cstr line.es mem q = w := by
  have heq := h.eq_add
  have hbound := h.bound
  have hword : (List.range' q w.length).map mem = w := by
    refine List.ext_getElem (by simp) fun i h1 h2 => ?_
    rw [List.getElem_map, List.getElem_range', Nat.one_mul, hmem i h2, h.byte h2]
  have hne : ∀ c ∈ w, decide (c ≠ 0) = true := by
    intro c hc
    obtain ⟨i, hi, rfl⟩ := List.mem_iff_getElem.mp hc
    rw [decide_eq_true_iff, ← h.byte hi]
    exact byte_ne_zero (by omega)
  have hsplit : line.es - q = w.length + (line.es - eq) := by omega
  unfold cstr
  rw [hsplit, ← List.range'_append_1, List.map_append, hword, ← heq,
    List.takeWhile_append_of_pos hne]
  cases hrest : line.es - eq with
  | zero => simp
  | succ n =>
    rw [List.range'_succ, List.map_cons, hend, List.takeWhile_cons, if_neg (by decide),
      List.append_nil]

end reading

/-! ## The whole parser -/

section whole

variable {line : Input} {cmd : Cmd} {t : Tree} {mem : Mem}

/-- No word of a command goes over the end of one. -/
theorem Denotes.ends_not_word (h : Denotes line cmd t) :
    ∀ i ∈ cmd.ends, i < line.es → isWordByte (line.byte i) = false := by
  induction h with
  | exec words =>
    intro i hi
    induction words with
    | nil => cases hi
    | cons hw words ih =>
      rcases List.mem_cons.mp hi with rfl | hi
      · exact hw.stop
      · exact ih hi
  | redir mode fd sub word ih =>
    intro i hi
    rcases List.mem_cons.mp hi with rfl | hi
    · exact word.stop
    · exact ih i hi
  | pipe hl hr ihl ihr | list hl hr ihl ihr =>
    intro i hi
    rcases List.mem_append.mp hi with hi | hi
    · exact ihl i hi
    · exact ihr i hi
  | back sub ih => exact ih

/-- With the bytes of words as they were and NULs at the ends, the command reads as its tree. -/
theorem Denotes.read (h : Denotes line cmd t)
    (hword : ∀ i < line.es, isWordByte (line.byte i) = true → mem i = line.byte i)
    (hends : ∀ i ∈ cmd.ends, mem i = 0) : cmd.read line.es mem = t := by
  have hcstr : ∀ {q eq : Nat} {w : Word}, WordAt line q eq w → mem eq = 0 →
      cstr line.es mem q = w := by
    intro q eq w hw hend
    refine cstr_eq hw (fun i hi => ?_) hend
    have hlt : q + i < line.es := by
      have heq := hw.eq_add
      have hbound := hw.bound
      omega
    exact hword _ hlt (by rw [hw.byte hi]; exact hw.bytes _ (List.getElem_mem hi))
  induction h with
  | exec words =>
    unfold Cmd.read
    congr 1
    induction words with
    | nil => rfl
    | cons hw words ih =>
      rw [List.map_cons, hcstr hw (hends _ List.mem_cons_self),
        ih fun i hi => hends i (List.mem_cons_of_mem _ hi)]
  | redir mode fd sub word ih =>
    unfold Cmd.read
    rw [ih fun i hi => hends i (List.mem_cons_of_mem _ hi),
      hcstr word (hends _ List.mem_cons_self)]
  | pipe hl hr ihl ihr | list hl hr ihl ihr =>
    unfold Cmd.read
    rw [ihl fun i hi => hends i (List.mem_append_left _ hi),
      ihr fun i hi => hends i (List.mem_append_right _ hi)]
  | back sub ih =>
    unfold Cmd.read
    rw [ih hends]

theorem Denotes.nulterminate (h : Denotes line cmd t) :
    cmd.read line.es (Sh.nulterminate cmd line.byte) = t := by
  refine h.read (fun i hi hword => ?_) (fun i hi => ?_)
  · rw [nulterminate_apply, if_neg]
    intro hmem
    rw [h.ends_not_word i hmem hi] at hword
    cases hword
  · rw [nulterminate_apply, if_pos hi]

theorem At.start (line : Input) : At line 0 (lex line.bytes) :=
  ⟨Nat.zero_le _, rfl⟩

/-- `parsecmd` accepts a line exactly if its tokens derive from the grammar,
the tree that it returns, read through its pointers after `nulterminate`, is
the only one of a derivation, and on every other line it stops with an error. -/
theorem parsecmd_grammar (line : Input) :
    (∃ cmd mem, parsecmd line = .ok (cmd, mem) ∧
      ∀ t, Line (lex line.bytes) t ↔ t = cmd.read line.es mem) ∨
    (∃ e, parsecmd line = .error e ∧ e ≠ .rounds ∧ ∀ t, ¬Line (lex line.bytes) t) := by
  have h := At.start line
  have hfuel : 4 * (lex line.bytes).length + 4 ≤ 4 * line.es + 4 := by
    have hlen := h.length_le
    omega
  -- A derivation is found, and leaves nothing after it.
  have hfound : ∀ t, Line (lex line.bytes) t → ∃ cmd s, parseline line (4 * line.es + 4) 0 =
      .ok (cmd, s) ∧ At line s [] ∧ Denotes line cmd t := by
    intro t ht
    rw [← List.append_nil (lex line.bytes)] at h hfuel
    exact (complete line _).1 h ht (.inl rfl) hfuel
  cases hparse : parseline line (4 * line.es + 4) 0 with
  | error e =>
    refine .inr ⟨e, ?_, ?_, fun t ht => ?_⟩
    · unfold parsecmd
      rw [hparse]
      rfl
    · rintro rfl
      exact absurd (((parses line _).1 h).1 hparse) (Nat.not_lt_of_le hfuel)
    · obtain ⟨cmd, s, hok, -, -⟩ := hfound t ht
      rw [hparse] at hok
      cases hok
  | ok r =>
    obtain ⟨cmd, s⟩ := r
    obtain ⟨pre, rest, t, hts, hs, hline, hden⟩ := ((parses line _).1 h).2 _ hparse
    have hcmd : parsecmd line = if (peek line s []).1 ≠ line.es then .error .leftovers
        else .ok (cmd, nulterminate cmd line.byte) := by
      unfold parsecmd
      rw [hparse]
      rfl
    by_cases hend : (peek line s []).1 = line.es
    · obtain rfl := (hs.end_iff []).mp hend
      rw [List.append_nil] at hts
      refine .inl ⟨cmd, _, hcmd.trans (if_neg (not_not_intro hend)), fun t' => ?_⟩
      rw [hden.nulterminate, hts]
      refine ⟨fun ht' => ?_, fun ht' => ht' ▸ hline⟩
      obtain ⟨cmd', s', hok, -, hden'⟩ := hfound t' (hts ▸ ht')
      rw [hparse] at hok
      cases hok
      exact hden'.nulterminate.symm.trans hden.nulterminate
    · refine .inr ⟨.leftovers, hcmd.trans (if_pos hend), by decide, fun t' ht' => ?_⟩
      obtain ⟨cmd', s', hok, hs', -⟩ := hfound t' ht'
      rw [hparse] at hok
      cases hok
      exact hend ((hs'.end_iff []).mpr rfl)

end whole

end Xv6.Sh
