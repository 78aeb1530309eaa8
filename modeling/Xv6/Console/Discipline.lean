import Xv6.Lib.Trans
import Xv6.Console.Ring

/-!
# The line discipline

`edit` says what the keys mean, without the ring and its indices: it goes
through a history of bytes typed and bytes taken, and keeps the committed
input and the line that is being edited. Bytes taken only count, because a
full buffer drops what is typed.

The console refines it. What lies in the ring is what `edit` has committed
and the readers have not taken, followed by the line; so the bytes that
readers take are the committed input from its beginning. `Reads` is the same
for one reader: what it takes off a list of committed bytes, and where it
stops.
-/

namespace Xv6.Console

open Xv6.Lib.Trans Function

/-! ## The meaning of the keys -/

/-- The input after line editing. -/
structure Edited where
  /-- The input up to the last committed line. -/
  committed : List UInt8 := []
  /-- How many bytes of it readers have taken. -/
  taken : Nat := 0
  line : List UInt8 := []

namespace Edited

/-- Committed and not taken. -/
def ready (d : Edited) : List UInt8 := d.committed.drop d.taken

def pending (d : Edited) : Nat := d.ready.length + d.line.length

/-- A byte is added to the line, and the line committed if this ends it. -/
def add (d : Edited) (c : UInt8) : Edited :=
  if c = LF ∨ c = C 'D' ∨ d.pending + 1 = INPUT_BUF.toNat then
    { d with committed := d.committed ++ (d.line ++ [c]), line := [] }
  else { d with line := d.line ++ [c] }

def key (d : Edited) (c : UInt8) : Edited :=
  if c = 0 ∨ c = C 'P' then d
  else if c = C 'U' then { d with line := [] }
  else if c = C 'H' ∨ c = DEL then { d with line := d.line.dropLast }
  else if d.pending < INPUT_BUF.toNat then d.add (if c = CR then LF else c)
  else d

/-- Readers took `k` bytes. -/
def advance (d : Edited) (k : Nat) : Edited := { d with taken := d.taken + k }

def mark (d : Edited) : Mark → Edited
  | .typed c => d.key c
  | .took _ _ => d.advance 1

end Edited

def edit (history : List Mark) : Edited := history.foldl Edited.mark {}

/-! ## An interrupt -/

section Interrupt

variable {cons : Cons} {d : Edited} {c : UInt8}

theorem input_holds (hd : d.taken ≤ d.committed.length) (h : cons.Holds d.ready d.line)
    (hline : LF ∉ d.line) (hc : c ≠ 0) (hroom : d.pending < INPUT_BUF.toNat) {b : UInt8}
    (hb : (if c = CR then LF else c) = b) :
    (cons.input c).1.Holds (d.add b).ready (d.add b).line ∧ LF ∉ (d.add b).line ∧
      (d.add b).taken ≤ (d.add b).committed.length ∧
      ((cons.input c).2 = false → (d.add b).ready = d.ready) := by
  have hlt : c ≠ 0 ∧ cons.e - cons.r < INPUT_BUF := ⟨hc, h.lt_iff.mpr hroom⟩
  unfold Cons.input
  rw [if_pos hlt, hb]
  dsimp only
  have hstore : ((cons.consputc b.toNat).store b).Holds d.ready (d.line ++ [b]) :=
    (Cons.holds_consputc.mpr h).store hroom
  have hfull := hstore.full_iff
  rw [List.length_append, List.length_singleton, ← Nat.add_assoc] at hfull
  unfold Edited.add
  by_cases hend : b = LF ∨ b = C 'D' ∨ d.pending + 1 = INPUT_BUF.toNat
  · rw [if_pos hend, if_pos (hend.imp_right (.imp_right hfull.mpr)), Edited.ready,
      List.drop_append_of_le_length hd]
    refine ⟨hstore.commit, List.not_mem_nil, ?_, fun hf => by cases hf⟩
    rw [List.length_append]
    exact Nat.le_add_right_of_le hd
  · rw [if_neg hend, if_neg fun h' => hend (h'.imp_right (.imp_right hfull.mp))]
    refine ⟨hstore, ?_, hd, fun _ => rfl⟩
    rw [List.mem_append, List.mem_singleton, not_or]
    exact ⟨hline, fun heq => hend (.inl heq.symm)⟩

theorem intr_holds (hd : d.taken ≤ d.committed.length) (h : cons.Holds d.ready d.line)
    (hline : LF ∉ d.line) :
    (cons.consoleintr c).1.Holds (d.key c).ready (d.key c).line ∧ LF ∉ (d.key c).line ∧
      (d.key c).taken ≤ (d.key c).committed.length ∧
      ((cons.consoleintr c).2 = false → (d.key c).ready = d.ready) := by
  have hsame : cons.Holds d.ready d.line ∧ LF ∉ d.line ∧ d.taken ≤ d.committed.length ∧
      (false = false → d.ready = d.ready) := ⟨h, hline, hd, fun _ => rfl⟩
  unfold Cons.consoleintr Edited.key
  by_cases hP : c = C 'P'
  · rw [if_pos hP, if_pos (.inr hP)]
    exact hsame
  rw [if_neg hP]
  by_cases hU : c = C 'U'
  · rw [if_pos hU, if_neg (by rw [hU]; decide), if_pos hU]
    exact ⟨h.killLine hline, List.not_mem_nil, hd, fun _ => rfl⟩
  rw [if_neg hU, if_neg hU]
  by_cases hH : c = C 'H' ∨ c = DEL
  · have hnot : ¬(c = 0 ∨ c = C 'P') := by rcases hH with rfl | rfl <;> decide
    rw [if_pos hH, if_pos hH, if_neg hnot]
    rcases List.eq_nil_or_concat d.line with hnil | ⟨l, b, hl⟩
    · have heq : ¬(cons.e ≠ cons.w) := not_not.mpr (h.e_eq_w.mpr hnil)
      rw [if_neg heq, hnil]
      rw [hnil] at h
      exact ⟨h, List.not_mem_nil, hd, fun _ => rfl⟩
    · rw [List.concat_eq_append] at hl
      have hne : cons.e ≠ cons.w := fun heq => by
        rw [h.e_eq_w.mp heq] at hl
        simp at hl
      rw [if_pos hne, hl, List.dropLast_concat]
      rw [hl] at h hline
      exact ⟨h.erase.2, fun hmem => hline (List.mem_append_left _ hmem), hd, fun _ => rfl⟩
  rw [if_neg hH, if_neg hH]
  by_cases h0 : c = 0
  · rw [if_pos (.inl h0), Cons.input, if_neg fun hne => hne.1 h0]
    exact hsame
  rw [if_neg (by rw [not_or]; exact ⟨h0, hP⟩)]
  by_cases hroom : d.pending < INPUT_BUF.toNat
  · rw [if_pos hroom]
    exact input_holds hd h hline h0 hroom rfl
  · rw [if_neg hroom, Cons.input, if_neg fun hlt => hroom (h.lt_iff.mp hlt.2)]
    exact hsame

end Interrupt

/-! ## A reader -/

/-- A byte that does not end a read. -/
def Plain (c : UInt8) : Prop := c ≠ LF ∧ c ≠ C 'D'

/-- What a reader that wants `n` more bytes does with the committed bytes: those
it takes off, those it copies, those it leaves, and how it stops. -/
inductive Reads (killed : Bool) (target : Nat) :
    Nat → List UInt8 → List UInt8 → List UInt8 → List UInt8 → Stop → Prop where
  | full {t rest : List UInt8} (hplain : ∀ c ∈ t, Plain c) :
      Reads killed target t.length (t ++ rest) t t rest (.returns target)
  | line {t rest : List UInt8} {m : Nat} (hplain : ∀ c ∈ t, Plain c) :
      Reads killed target (t.length + 1 + m) (t ++ LF :: rest) (t ++ [LF]) (t ++ [LF]) rest
        (.returns (target - m))
  | eof {rest : List UInt8} (hn : 0 < target) :
      Reads killed target target (C 'D' :: rest) [C 'D'] [] rest (.returns 0)
  | saved {t rest : List UInt8} {m : Nat} (hplain : ∀ c ∈ t, Plain c) (hm : m + 1 < target) :
      Reads killed target (t.length + (m + 1)) (t ++ C 'D' :: rest) t t (C 'D' :: rest)
        (.returns (target - (m + 1 : Nat)))
  | killed {t : List UInt8} {m : Nat} (hplain : ∀ c ∈ t, Plain c) (hkilled : killed = true) :
      Reads killed target (t.length + (m + 1)) t t t [] (.returns (-1))
  | sleeps {t : List UInt8} {m : Nat} (hplain : ∀ c ∈ t, Plain c) (hkilled : killed = false) :
      Reads killed target (t.length + (m + 1)) t t t [] (.sleeps (m + 1))

section Reader

variable {killed : Bool} {copied : Nat → Bool} {target n : Nat} {cons : Cons}
  {ready line took gave rest : List UInt8} {stop : Stop} {c : UInt8}

/-- One more byte at the front. -/
theorem Reads.byte (hc : Plain c) (hn : n < target)
    (h : Reads killed target n ready took gave rest stop) :
    Reads killed target (n + 1) (c :: ready) (c :: took) (c :: gave) rest stop := by
  have hall : ∀ {t : List UInt8}, (∀ b ∈ t, Plain b) → ∀ b ∈ c :: t, Plain b := by
    intro t ht b hb
    rcases List.mem_cons.mp hb with rfl | hb
    · exact hc
    · exact ht b hb
  cases h with
  | @full t _ hplain => exact .full (hall hplain)
  | @line t rest m hplain =>
    have h' : Reads killed target ((c :: t).length + 1 + m) _ _ _ rest _ := .line (hall hplain)
    rw [List.length_cons, show t.length + 1 + 1 + m = t.length + 1 + m + 1 by omega] at h'
    exact h'
  | eof => exact absurd hn (Nat.lt_irrefl _)
  | @saved _ rest m hplain hm =>
    have h' : Reads killed target ((c :: took).length + (m + 1)) _ _ _ (C 'D' :: rest) _ :=
      .saved (hall hplain) hm
    rw [List.length_cons, show took.length + 1 + (m + 1) = took.length + (m + 1) + 1 by omega] at h'
    exact h'
  | @killed _ m hplain hkilled =>
    have h' : Reads killed target ((c :: ready).length + (m + 1)) _ _ _ [] _ :=
      .killed (hall hplain) hkilled
    rw [List.length_cons, show ready.length + 1 + (m + 1) = ready.length + (m + 1) + 1 by omega]
      at h'
    exact h'
  | @sleeps _ m hplain hkilled =>
    have h' : Reads killed target ((c :: ready).length + (m + 1)) _ _ _ [] _ :=
      .sleeps (hall hplain) hkilled
    rw [List.length_cons, show ready.length + 1 + (m + 1) = ready.length + (m + 1) + 1 by omega]
      at h'
    exact h'

theorem Cons.unread (cons : Cons) :
    { { cons with r := cons.r + 1 } with r := { cons with r := cons.r + 1 }.r - 1 } = cons := by
  show { cons with r := cons.r + 1 - 1 } = cons
  rw [UInt32.add_sub_cancel]

theorem loop_reads (hcopied : ∀ i, copied i = true) (h : cons.Holds ready line) (hn : n ≤ target)
    (b : Bytes) :
    ∃ took gave rest, (consolereadLoop killed copied target n cons b).2.1 =
        ⟨b.got ++ gave, b.took ++ took⟩ ∧
      (consolereadLoop killed copied target n cons b).1.Holds rest line ∧
      Reads killed target n ready took gave rest
        (consolereadLoop killed copied target n cons b).2.2 := by
  induction n generalizing cons ready b with
  | zero =>
    exact ⟨[], [], ready, by rw [List.append_nil, List.append_nil]; rfl, h,
      .full (t := []) nofun⟩
  | succ n ih =>
    unfold consolereadLoop
    cases ready with
    | nil =>
      rw [if_pos (h.r_eq_w.mpr rfl)]
      have hnone : ∀ c ∈ ([] : List UInt8), Plain c := nofun
      have hsame : b = ⟨b.got ++ [], b.took ++ []⟩ := by rw [List.append_nil, List.append_nil]
      cases killed with
      | true =>
        rw [if_pos rfl]
        have hreads : Reads true target (([] : List UInt8).length + (n + 1)) [] [] [] [] _ :=
          .killed hnone rfl
        rw [List.length_nil, Nat.zero_add] at hreads
        exact ⟨[], [], [], hsame, h, hreads⟩
      | false =>
        rw [if_neg Bool.false_ne_true]
        have hreads : Reads false target (([] : List UInt8).length + (n + 1)) [] [] [] [] _ :=
          .sleeps hnone rfl
        rw [List.length_nil, Nat.zero_add] at hreads
        exact ⟨[], [], [], hsame, h, hreads⟩
    | cons c ready =>
      have hne : ¬cons.r = cons.w := fun heq => by simpa using h.r_eq_w.mp heq
      obtain ⟨hbyte, htake⟩ := h.take
      rw [if_neg hne]
      dsimp only
      rw [hbyte]
      by_cases hD : c = C 'D'
      · subst hD
        rw [if_pos rfl]
        by_cases hlt : n + 1 < target
        · rw [if_pos hlt]
          have hreads : Reads killed target (([] : List UInt8).length + (n + 1))
              ([] ++ C 'D' :: ready) [] [] (C 'D' :: ready) _ :=
            .saved nofun hlt
          rw [List.length_nil, Nat.zero_add] at hreads
          refine ⟨[], [], C 'D' :: ready, by rw [List.append_nil, List.append_nil], ?_, hreads⟩
          show ({ { cons with r := cons.r + 1 } with r := cons.r + 1 - 1 } : Cons).Holds _ _
          rw [Cons.unread]
          exact h
        · rw [if_neg hlt]
          have htarget : n + 1 = target := by omega
          subst htarget
          refine ⟨[C 'D'], [], ready, by rw [List.append_nil], htake, ?_⟩
          rw [Int.sub_self]
          exact .eof (Nat.succ_pos n)
      rw [if_neg hD, if_pos (hcopied _)]
      by_cases hLF : c = LF
      · subst hLF
        rw [if_pos rfl]
        have hreads : Reads killed target (([] : List UInt8).length + 1 + n)
            ([] ++ LF :: ready) ([] ++ [LF]) ([] ++ [LF]) ready _ :=
          .line nofun
        rw [List.length_nil, Nat.zero_add, Nat.add_comm] at hreads
        exact ⟨[LF], [LF], ready, rfl, htake, hreads⟩
      · rw [if_neg hLF]
        obtain ⟨took, gave, rest, hbytes, hholds, hreads⟩ :=
          ih htake (by omega) ⟨b.got ++ [c], b.took ++ [c]⟩
        refine ⟨c :: took, c :: gave, rest, ?_, hholds, hreads.byte ⟨hLF, hD⟩ (by omega)⟩
        rw [hbytes, List.append_assoc, List.append_assoc]
        rfl

theorem Reads.split (h : Reads killed target n ready took gave rest stop) :
    ready = took ++ rest := by
  cases h with
  | full => rfl
  | line => rw [List.append_assoc]; rfl
  | eof => rfl
  | saved => rfl
  | killed => rw [List.append_nil]
  | sleeps => rw [List.append_nil]

/-- A `^D` comes first: a call that has no bytes takes it and returns nothing,
any other leaves it. -/
theorem Reads.of_eof (h : Reads killed target n (C 'D' :: ready) took gave rest stop)
    (hn : n ≤ target) :
    n = target ∧ 0 < n ∧ took = [C 'D'] ∧ gave = [] ∧ stop = .returns 0 ∨
      (n = 0 ∨ n < target) ∧ took = [] ∧ gave = [] ∧ rest = C 'D' :: ready ∧
        ∃ v, stop = .returns v := by
  have hnil : ∀ {t l : List UInt8}, (∀ c ∈ t, Plain c) → t ++ l = C 'D' :: ready → t = [] := by
    intro t l ht heq
    cases t with
    | nil => rfl
    | cons c t =>
      obtain ⟨rfl, -⟩ := List.cons.inj heq
      exact absurd rfl (ht _ List.mem_cons_self).2
  generalize hl : C 'D' :: ready = l at h
  cases h with
  | full ht =>
    obtain rfl := hnil ht hl.symm
    exact .inr ⟨.inl rfl, rfl, rfl, rfl, _, rfl⟩
  | line ht =>
    obtain rfl := hnil ht hl.symm
    exact absurd (List.cons.inj hl).1 (by decide)
  | eof hpos => exact .inl ⟨rfl, hpos, rfl, rfl, rfl⟩
  | saved ht hm =>
    obtain rfl := hnil ht hl.symm
    refine .inr ⟨.inr ?_, rfl, rfl, rfl, _, rfl⟩
    rw [List.length_nil]
    omega
  | killed ht | sleeps ht =>
    rw [hnil ht ((List.append_nil _).trans hl.symm)] at hl
    cases hl

end Reader

/-! ## Runs -/

/-- How a call of `consoleread` has to end. -/
structure Ended.Stops (x : Ended) : Prop where
  len : x.bytes.got.length ≤ x.n
  noEof : C 'D' ∉ x.bytes.got
  /-- An end of line is the last byte. -/
  line : LF ∉ x.bytes.got.dropLast
  ret : x.ret = x.bytes.got.length ∨ x.ret = -1 ∧ x.killed = true
  cause : x.ret = -1 ∨ x.bytes.got.length = x.n ∨ x.bytes.got.getLast? = some LF ∨
    x.bytes = ⟨[], [C 'D']⟩ ∨ x.bytes.got ≠ [] ∧ x.next = some (C 'D')
  took : x.bytes.took = x.bytes.got ∨ x.bytes = ⟨[], [C 'D']⟩

/-- A process in the middle of a call. -/
structure Reader.Waits (rd : Reader) (ready : List UInt8) : Prop where
  target : rd.target = rd.n + rd.bytes.got.length
  pos : 0 < rd.n
  plain : ∀ c ∈ rd.bytes.got, Plain c
  took : rd.bytes.took = rd.bytes.got
  asleep : rd.asleep = true → ready = []

theorem Reader.Waits.wake {rd : Reader} {ready ready' : List UInt8} (h : rd.Waits ready) :
    { rd with asleep := false }.Waits ready' :=
  ⟨h.target, h.pos, h.plain, h.took, fun hf => by cases hf⟩

theorem Reader.Waits.of_append {rd : Reader} {took rest : List UInt8}
    (h : rd.Waits (took ++ rest)) : rd.Waits rest :=
  ⟨h.target, h.pos, h.plain, h.took, fun hs => (List.append_eq_nil_iff.mp (h.asleep hs)).2⟩

namespace World

variable {w w' : World}

def edited (w : World) : Edited := edit w.history

structure Ok (w : World) : Prop where
  holds : w.cons.Holds w.edited.ready w.edited.line
  line : LF ∉ w.edited.line
  count : w.edited.taken ≤ w.edited.committed.length
  taken : w.taken = w.edited.committed.take w.edited.taken
  reader : ∀ p rd, w.reader p = some rd → rd.Waits w.edited.ready
  reads : ∀ x ∈ w.reads, x.Stops

theorem ok_of_edited {d : Edited} (hd : w.edited = d) (hholds : w.cons.Holds d.ready d.line)
    (hline : LF ∉ d.line) (hcount : d.taken ≤ d.committed.length)
    (htaken : w.taken = d.committed.take d.taken)
    (hreader : ∀ p rd, w.reader p = some rd → rd.Waits d.ready)
    (hreads : ∀ x ∈ w.reads, x.Stops) : w.Ok := by
  subst hd
  exact ⟨hholds, hline, hcount, htaken, hreader, hreads⟩

theorem ok_start : start.Ok where
  holds := ⟨rfl, rfl, by decide, fun i c hc => by cases hc⟩
  line := List.not_mem_nil
  count := Nat.le_refl 0
  taken := rfl
  reader _ _ hrd := by cases hrd
  reads _ hx := by cases hx

/-! ### Interrupts -/

theorem edit_typed (history : List Mark) (c : UInt8) :
    edit (history ++ [.typed c]) = (edit history).key c := by
  rw [edit, List.foldl_append]
  rfl

theorem key_taken (d : Edited) (c : UInt8) :
    (d.key c).taken = d.taken ∧ d.committed <+: (d.key c).committed := by
  unfold Edited.key Edited.add
  split_ifs
  all_goals first
    | exact ⟨rfl, List.prefix_append _ _⟩
    | exact ⟨rfl, [], List.append_nil _⟩

theorem taken_typed (w : World) (c : UInt8) :
    (w.history ++ [Mark.typed c]).filterMap Mark.taken? = w.taken := by
  rw [List.filterMap_append]
  exact List.append_nil _

theorem ok_typed {reader : Nat → Option Reader} {c : UInt8} (h : w.Ok)
    (hreader : ∀ p rd, reader p = some rd → rd.Waits (w.edited.key c).ready) :
    { w with
      cons := (w.cons.consoleintr c).1
      history := w.history ++ [Mark.typed c]
      reader }.Ok := by
  obtain ⟨hholds, hline, hcount, -⟩ := intr_holds (c := c) h.count h.holds h.line
  obtain ⟨htaken, l, hl⟩ := key_taken w.edited c
  refine ok_of_edited (edit_typed w.history c) hholds hline hcount ?_ hreader h.reads
  show _ = (w.edited.key c).committed.take (w.edited.key c).taken
  rw [htaken, ← hl, List.take_append_of_le_length h.count, ← h.taken]
  exact taken_typed w c

theorem ok_intr {c : UInt8} (h : w.Ok) (hnext : next (.intr c) w = some w') : w'.Ok := by
  obtain ⟨-, -, -, hsame⟩ := intr_holds (c := c) h.count h.holds h.line
  simp only [next, Option.some.injEq] at hnext
  subst hnext
  cases hwakes : (w.cons.consoleintr c).2 with
  | false =>
    rw [if_neg Bool.false_ne_true]
    refine ok_typed h fun p rd hrd => ?_
    rw [hsame hwakes]
    exact h.reader p rd hrd
  | true =>
    rw [if_pos rfl]
    refine ok_typed h fun p rd hrd => ?_
    obtain ⟨rd', hrd', rfl⟩ := Option.map_eq_some_iff.mp hrd
    exact (h.reader p rd' hrd').wake

/-! ### Readers -/

theorem edit_took (history : List Mark) (p : Nat) (took : List UInt8) :
    edit (history ++ took.map (.took p)) = (edit history).advance took.length := by
  unfold edit
  rw [List.foldl_append]
  generalize List.foldl Edited.mark {} history = d
  induction took generalizing d with
  | nil => rfl
  | cons c took ih =>
    rw [List.map_cons, List.foldl_cons, ih, List.length_cons, Nat.add_comm]
    simp only [Edited.mark, Edited.advance, Nat.add_assoc]

theorem taken_took (w : World) (p : Nat) (took : List UInt8) :
    (w.history ++ took.map (Mark.took p)).filterMap Mark.taken? = w.taken ++ took := by
  rw [List.filterMap_append, List.filterMap_map]
  exact congrArg _ List.filterMap_some

theorem ok_took {cons : Cons} {reader : Nat → Option Reader} {reads : List Ended} {p : Nat}
    {took rest : List UInt8} (h : w.Ok) (hready : w.edited.ready = took ++ rest)
    (hholds : cons.Holds rest w.edited.line)
    (hreader : ∀ q rd, reader q = some rd → rd.Waits rest) (hreads : ∀ x ∈ reads, x.Stops) :
    { w with cons, reader, reads, history := w.history ++ took.map (Mark.took p) }.Ok := by
  have hlen := congrArg List.length hready
  rw [Edited.ready, List.length_drop, List.length_append] at hlen
  have hcount := h.count
  have hrest : (w.edited.advance took.length).ready = rest := by
    show w.edited.committed.drop (w.edited.taken + took.length) = rest
    rw [← List.drop_drop]
    show w.edited.ready.drop took.length = rest
    rw [hready, List.drop_left]
  refine ok_of_edited (d := w.edited.advance took.length) (edit_took w.history p took)
    ?_ h.line ?_ ?_ ?_ hreads
  · rw [hrest]
    exact hholds
  · show w.edited.taken + took.length ≤ w.edited.committed.length
    omega
  · show (w.history ++ took.map (Mark.took p)).filterMap Mark.taken? =
      w.edited.committed.take (w.edited.taken + took.length)
    rw [taken_took, h.taken, List.take_add]
    show _ = _ ++ w.edited.ready.take took.length
    rw [hready, List.take_left]
  · rw [hrest]
    exact hreader

section Leave

variable {p target n : Nat} {b : Bytes} {cons : Cons} {took gave rest : List UInt8} {stop : Stop}
  {v : Int} {next : Option UInt8}

/-- A call that copied plain bytes only. -/
theorem stops_of_plain {killed : Bool} {l : List UInt8} (hplain : ∀ c ∈ l, Plain c)
    (hlen : l.length ≤ target) (hret : v = l.length ∨ v = -1 ∧ killed = true)
    (hcause : v = -1 ∨ l.length = target ∨ l ≠ [] ∧ next = some (C 'D')) :
    Ended.Stops ⟨target, ⟨l, l⟩, v, killed, next⟩ where
  len := hlen
  noEof hmem := (hplain _ hmem).2 rfl
  line hmem := (hplain _ (List.dropLast_subset _ hmem)).1 rfl
  ret := hret
  cause := by
    rcases hcause with hv | hl | hD
    · exact .inl hv
    · exact .inr (.inl hl)
    · exact .inr (.inr (.inr (.inr hD)))
  took := .inl rfl

theorem plain_append {l t : List UInt8} (hl : ∀ c ∈ l, Plain c) (ht : ∀ c ∈ t, Plain c) :
    ∀ c ∈ l ++ t, Plain c := fun c hc =>
  (List.mem_append.mp hc).elim (hl c) (ht c)

/-- A call that returns has ended as it must. -/
theorem stops_of_reads {killed : Bool}
    (hreads : Reads killed target n w.edited.ready took gave rest (.returns v))
    (hnext : next = rest.head?) (htarget : target = n + b.got.length)
    (hplain : ∀ c ∈ b.got, Plain c) (hb : b.took = b.got) :
    Ended.Stops ⟨target, ⟨b.got ++ gave, b.took ++ took⟩, v, killed, next⟩ := by
  rw [hb]
  generalize hready : w.edited.ready = ready at hreads
  cases hreads with
  | full ht =>
    have hlen : (b.got ++ took).length = target := by rw [List.length_append]; omega
    refine stops_of_plain (plain_append hplain ht) (Nat.le_of_eq hlen) (.inl ?_) (.inr (.inl hlen))
    rw [hlen]
  | @line t _ m ht =>
    have hassoc : b.got ++ (t ++ [LF]) = b.got ++ t ++ [LF] := (List.append_assoc _ _ _).symm
    have hlen : (b.got ++ t ++ [LF]).length + m = target := by
      simp only [List.length_append, List.length_singleton]
      omega
    rw [hassoc]
    constructor
    case len => exact Nat.le_of_add_right_le (Nat.le_of_eq hlen)
    case noEof =>
      intro hmem
      rcases List.mem_append.mp hmem with hmem | hmem
      · exact (plain_append hplain ht _ hmem).2 rfl
      · rw [List.mem_singleton] at hmem
        exact absurd hmem (by decide)
    case line =>
      rw [List.dropLast_concat]
      exact fun hmem => (plain_append hplain ht _ hmem).1 rfl
    case ret =>
      refine .inl ?_
      show (target : Int) - m = ((b.got ++ t ++ [LF]).length : Nat)
      omega
    case cause => exact .inr (.inr (.inl List.getLast?_concat))
    case took => exact .inl rfl
  | eof hpos =>
    have hnil : b.got = [] := by
      rw [← List.length_eq_zero_iff]
      omega
    rw [hnil]
    constructor
    case len => exact Nat.zero_le _
    case noEof => exact List.not_mem_nil
    case line => exact List.not_mem_nil
    case ret => exact .inl rfl
    case cause => exact .inr (.inr (.inr (.inl rfl)))
    case took => exact .inr rfl
  | @saved _ _ m ht hm =>
    have hlen : (b.got ++ took).length + (m + 1) = target := by
      rw [List.length_append]
      omega
    refine stops_of_plain (plain_append hplain ht) (by omega) (.inl (by omega))
      (.inr (.inr ⟨fun hnil => ?_, hnext⟩))
    rw [hnil, List.length_nil] at hlen
    omega
  | killed ht hkilled =>
    refine stops_of_plain (plain_append hplain ht) ?_ (.inr ⟨rfl, hkilled⟩) (.inl rfl)
    rw [List.length_append]
    omega

theorem ok_leave (h : w.Ok)
    (hreads : Reads (w.killed p) target n w.edited.ready took gave rest stop)
    (hholds : cons.Holds rest w.edited.line) (htarget : target = n + b.got.length)
    (hplain : ∀ c ∈ b.got, Plain c) (hb : b.took = b.got) :
    (w.leave p target b cons ⟨b.got ++ gave, took⟩ stop).Ok := by
  have hsplit := hreads.split
  have hothers : ∀ q rd, w.reader q = some rd → rd.Waits rest := fun q rd hrd => by
    have hwaits := h.reader q rd hrd
    rw [hsplit] at hwaits
    exact hwaits.of_append
  cases stop with
  | returns v =>
    refine ok_took h hsplit hholds (fun q rd hrd => ?_) fun x hx => ?_
    · rw [update_apply] at hrd
      split_ifs at hrd
      exact hothers q rd hrd
    · rcases List.mem_cons.mp hx with rfl | hx
      · exact stops_of_reads hreads hholds.next htarget hplain hb
      · exact h.reads x hx
  | sleeps m =>
    refine ok_took h hsplit hholds (fun q rd hrd => ?_) h.reads
    rw [update_apply] at hrd
    split_ifs at hrd
    · cases hrd
      generalize hready : w.edited.ready = ready at hreads
      cases hreads with
      | @sleeps _ m ht =>
        refine ⟨?_, Nat.succ_pos _, plain_append hplain ht, ?_, fun _ => rfl⟩
        · show target = m + 1 + (b.got ++ took).length
          rw [List.length_append]
          omega
        · show b.took ++ _ = b.got ++ _
          rw [hb]
    · exact hothers q rd hrd

end Leave

/-- The copies to the readers' buffers succeed. -/
def Copies : Event → World → Prop
  | .read _ _ copied, _ | .resume _ copied, _ => ∀ i, copied i = true
  | _, _ => True

theorem enter_reads {p target n : Nat} {b : Bytes} {copied : Nat → Bool} (h : w.Ok)
    (hcopied : ∀ i, copied i = true) (hn : n ≤ target) :
    ∃ cons took gave rest stop, Reads (w.killed p) target n w.edited.ready took gave rest stop ∧
      cons.Holds rest w.edited.line ∧
      w.enter p copied target n b = w.leave p target b cons ⟨b.got ++ gave, took⟩ stop := by
  obtain ⟨took, gave, rest, hbytes, hholds, hreads⟩ :=
    @loop_reads (w.killed p) _ _ _ _ _ _ hcopied h.holds hn { b with took := [] }
  refine ⟨_, took, gave, rest, _, hreads, hholds, ?_⟩
  rw [List.nil_append] at hbytes
  unfold enter
  rw [← hbytes]

theorem ok_next {e : Event} (h : w.Ok) (hcopies : Copies e w) (hnext : next e w = some w') :
    w'.Ok := by
  cases e with
  | intr c => exact ok_intr h hnext
  | read p n copied =>
    simp only [next] at hnext
    split_ifs at hnext
    cases hnext
    obtain ⟨cons, took, gave, rest, stop, hreads, hholds, henter⟩ :=
      @enter_reads w p n.toNat n.toNat {} copied h hcopies (Nat.le_refl _)
    rw [henter]
    exact ok_leave h hreads hholds rfl nofun rfl
  | resume p copied =>
    simp only [next] at hnext
    split at hnext
    · rename_i rd hrd
      split_ifs at hnext
      cases hnext
      have hwaits := h.reader p rd hrd
      have hn : rd.n ≤ rd.target := by rw [hwaits.target]; exact Nat.le_add_right _ _
      obtain ⟨cons, took, gave, rest, stop, hreads, hholds, henter⟩ :=
        @enter_reads w p rd.target rd.n rd.bytes copied h hcopies hn
      rw [henter]
      exact ok_leave h hreads hholds hwaits.target hwaits.plain hwaits.took
    · cases hnext
  | kill p =>
    cases hnext
    refine ⟨h.holds, h.line, h.count, h.taken, fun q rd hrd => ?_, h.reads⟩
    dsimp only at hrd
    rw [update_apply] at hrd
    split_ifs at hrd
    · obtain ⟨rd', hrd', rfl⟩ := Option.map_eq_some_iff.mp hrd
      exact (h.reader p rd' hrd').wake
    · exact h.reader q rd hrd
  | allocproc p =>
    simp only [next] at hnext
    split_ifs at hnext
    cases hnext
    exact ⟨h.holds, h.line, h.count, h.taken, h.reader, h.reads⟩

theorem reach_ok (h : Reach next Copies start w) : w.Ok :=
  h.invariant ok_start fun _ _ _ hok hcopies hnext => ok_next hok hcopies hnext

/-! ### A `^D` at the front -/

/-- The event was a call that took the `^D` and returns nothing. -/
def TakesEof (w w' : World) : Prop :=
  w'.taken = w.taken ++ [C 'D'] ∧
    ∃ x, w'.reads = x :: w.reads ∧ x.bytes.got = [] ∧ x.ret = 0

/-- The `^D` stays in front; a call that returns has bytes, or wanted none. -/
def KeepsEof (w w' : World) : Prop :=
  w'.taken = w.taken ∧ w'.cons.next = some (C 'D') ∧
    ∀ x, w'.reads = x :: w.reads → x.n = 0 ∨ x.bytes.got ≠ []

theorem eof_leave {p target n : Nat} {b : Bytes} {copied : Nat → Bool} (h : w.Ok)
    (hcopied : ∀ i, copied i = true) (htarget : target = n + b.got.length)
    (hD : w.cons.next = some (C 'D')) :
    (0 < n → b.got = [] → w.TakesEof (w.enter p copied target n b)) ∧
      (n = 0 ∧ b.got = [] ∨ b.got ≠ [] → w.KeepsEof (w.enter p copied target n b)) := by
  have hn : n ≤ target := by omega
  obtain ⟨cons, took, gave, rest, stop, hreads, hholds, henter⟩ :=
    @enter_reads w p target n b copied h hcopied hn
  rw [henter]
  rw [h.holds.next] at hD
  obtain ⟨ready, hready⟩ := List.head?_eq_some_iff.mp hD
  rw [hready] at hreads
  have hlen : b.got = [] ↔ n = target := by
    rw [← List.length_eq_zero_iff]
    omega
  rcases hreads.of_eof hn with ⟨heq, hpos, rfl, rfl, rfl⟩ | ⟨hlt, rfl, rfl, rfl, v, rfl⟩
  · refine ⟨fun _ hnil => ⟨taken_took w p [C 'D'], _, rfl, ?_, rfl⟩, fun hcase => ?_⟩
    · rw [List.append_nil]
      exact hnil
    · rcases hcase with ⟨hzero, -⟩ | hne
      · omega
      · exact absurd (hlen.mpr heq) hne
  · refine ⟨fun hpos hnil => ?_, fun hcase => ⟨?_, ?_, fun x hx => ?_⟩⟩
    · rw [hlen] at hnil
      omega
    · exact (taken_took w p []).trans (List.append_nil _)
    · exact hholds.next
    · obtain ⟨rfl, -⟩ := List.cons.inj hx
      rw [List.append_nil]
      rcases hcase with ⟨hzero, hnil⟩ | hne
      · exact .inl (by rw [← hlen.mp hnil, hzero])
      · exact .inr hne

theorem eof_next {e : Event} (h : w.Ok) (hcopies : Copies e w) (hnext : next e w = some w')
    (hD : w.cons.next = some (C 'D')) : w.TakesEof w' ∨ w.KeepsEof w' := by
  have hnew : ∀ {x : Ended}, w.reads ≠ x :: w.reads := fun heq => by
    simpa using congrArg List.length heq
  cases e with
  | intr c =>
    have hok := ok_intr h hnext
    have hedited : w'.edited = w.edited.key c ∧ w'.reads = w.reads ∧ w'.taken = w.taken := by
      simp only [next, Option.some.injEq] at hnext
      subst hnext
      split
      · exact ⟨edit_typed _ _, rfl, taken_typed w c⟩
      · exact ⟨edit_typed _ _, rfl, taken_typed w c⟩
    obtain ⟨hkey, hreads, htaken⟩ := hedited
    refine .inr ⟨htaken, ?_, fun x hx => absurd (hreads ▸ hx) hnew⟩
    -- the committed bytes only grow
    obtain ⟨hcount, l, hl⟩ := key_taken w.edited c
    rw [h.holds.next] at hD
    rw [hok.holds.next, hkey, Edited.ready, hcount, ← hl, List.drop_append_of_le_length h.count]
    show (w.edited.ready ++ l).head? = _
    rw [List.head?_append, hD]
    rfl
  | read p n copied =>
    simp only [next] at hnext
    split_ifs at hnext
    cases hnext
    obtain ⟨htakes, hkeeps⟩ := @eof_leave w p n.toNat n.toNat {} copied h hcopies rfl hD
    rcases Nat.eq_zero_or_pos n.toNat with hzero | hpos
    · exact .inr (hkeeps (.inl ⟨hzero, rfl⟩))
    · exact .inl (htakes hpos rfl)
  | resume p copied =>
    simp only [next] at hnext
    split at hnext
    · rename_i rd hrd
      split_ifs at hnext
      cases hnext
      have hwaits := h.reader p rd hrd
      obtain ⟨htakes, hkeeps⟩ :=
        @eof_leave w p rd.target rd.n rd.bytes copied h hcopies hwaits.target hD
      by_cases hnil : rd.bytes.got = []
      · exact .inl (htakes hwaits.pos hnil)
      · exact .inr (hkeeps (.inr hnil))
    · cases hnext
  | kill p =>
    cases hnext
    exact .inr ⟨rfl, hD, fun x hx => absurd hx hnew⟩
  | allocproc p =>
    simp only [next] at hnext
    split_ifs at hnext
    cases hnext
    exact .inr ⟨rfl, hD, fun x hx => absurd hx hnew⟩

/-! ### The discipline -/

/-- What holds whenever `cons.lock` is free. -/
structure Discipline (w : World) : Prop where
  indices : w.cons.w - w.cons.r ≤ w.cons.e - w.cons.r ∧ w.cons.e - w.cons.r ≤ INPUT_BUF
  /-- Readers get the edited input from its beginning. -/
  consumed : w.taken <+: (edit w.history).committed
  reads : ∀ x ∈ w.reads, x.Stops
  /-- Nobody sleeps over committed bytes. -/
  awake : ∀ p rd, w.reader p = some rd → rd.asleep = true → w.cons.r = w.cons.w
  /-- A `^D` in front stays there until a call without bytes returns it as an
  end of file. -/
  eof : w.cons.next = some (C 'D') → ∀ e w', Copies e w → next e w = some w' →
    w.TakesEof w' ∨ w.KeepsEof w'
  /-- The next call does. -/
  nextRead : w.cons.next = some (C 'D') → ∀ p n copied w', 0 < n → (∀ i, copied i = true) →
    next (.read p n copied) w = some w' → w.TakesEof w'

theorem line_discipline (h : Reach next Copies start w) : w.Discipline := by
  have hok := reach_ok h
  have hw := hok.holds.w
  have he := hok.holds.e
  constructor
  case indices =>
    rw [UInt32.le_iff_toNat_le, UInt32.le_iff_toNat_le, hw, he]
    exact ⟨Nat.le_add_right _ _, hok.holds.room⟩
  case consumed =>
    rw [hok.taken]
    exact List.take_prefix _ _
  case reads => exact hok.reads
  case awake =>
    intro p rd hrd hasleep
    exact hok.holds.r_eq_w.mpr ((hok.reader p rd hrd).asleep hasleep)
  case eof => exact fun hD e w' hcopies hnext => eof_next hok hcopies hnext hD
  case nextRead =>
    intro hD p n copied w' hn hcopied hnext
    simp only [next] at hnext
    split_ifs at hnext
    cases hnext
    have hpos : 0 < n.toNat := by omega
    exact (@eof_leave w p n.toNat n.toNat {} copied hok hcopied rfl hD).1 hpos rfl

/-- Two letters and a `^D` come in; a call that wants five bytes gets the
letters and the next one nothing. -/
def eofEvents : List Event :=
  [.read 0 5 fun _ => true, .intr 104, .intr 120, .intr (C 'H'), .intr 105, .intr (C 'D'),
    .resume 0 fun _ => true, .read 1 5 fun _ => true]

theorem line_discipline_eof : ∃ w, Reach next Copies start w ∧
    w.taken = [104, 105, C 'D'] ∧ w.taken <+: (edit w.history).committed ∧
    w.reads.map (fun x => (x.bytes.got, x.ret)) = [([], 0), ([104, 105], 2)] := by
  have hrun : ((follow next (fun _ _ => true) eofEvents start).any fun w =>
      decide (w.taken = [104, 105, C 'D'] ∧
        w.reads.map (fun x => (x.bytes.got, x.ret)) = [([], 0), ([104, 105], 2)])) = true := by
    decide +kernel
  obtain ⟨w, hw, hfact⟩ := (Option.any_eq_true _ _).mp hrun
  have hcopies : ∀ e ∈ eofEvents, ∀ w, Copies e w := by
    intro e he w
    simp only [eofEvents, List.mem_cons, List.not_mem_nil, or_false] at he
    rcases he with rfl | rfl | rfl | rfl | rfl | rfl | rfl | rfl <;> first | trivial | exact fun _ => rfl
  have hreach : Reach next Copies start w := Reach.start.follow_mem hcopies hw
  obtain ⟨htaken, hreads⟩ := of_decide_eq_true hfact
  exact ⟨w, hreach, htaken, (line_discipline hreach).consumed, hreads⟩

end World

end Xv6.Console
