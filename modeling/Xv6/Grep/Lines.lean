import Mathlib.Data.List.Infix
import Mathlib.Data.List.TakeWhile
import Xv6.Grep.Match

/-!
# The lines that `grep` prints

The loop of `grep` in `user/grep.c`. It reads into a buffer of 1024 bytes
behind what is left there of an unfinished line, keeps a byte for the zero that
ends the string, goes through the lines that are now complete, and moves the
rest to the front.

What `read` returns depends on the file: `sizes` is what it has ready at each
call, and a call returns that much, but at least a byte as long as there is one
and never more than it was asked for.

A line of 1023 bytes or more fills the buffer before its newline comes. Then
`grep` asks for no bytes, gets none, and takes that for the end of the file, so
that this line and all after it are lost; `grepLoop_eq` says that these are all
that is lost, however the input is cut.
-/

namespace Xv6.Grep

abbrev NEWLINE : UInt8 := 10

/-- `sizeof(buf)`. -/
abbrev BUFSIZE : Nat := 1024

variable {pattern p line rest buf stream : List UInt8} {sizes : Nat → Nat}

/-! ## The program -/

/-- `strchr(s, c)`: what is before the character, and what is after it. -/
def strchr (c : UInt8) : List UInt8 → Option (List UInt8 × List UInt8)
  | [] => none
  | b :: s =>
    if b = 0 then none
    else if b = c then some ([], s)
    else (strchr c s).map fun r => (b :: r.1, r.2)

theorem strchr_some {c : UInt8} (h : strchr c p = some (line, rest)) :
    p = line ++ c :: rest ∧ c ∉ line := by
  induction p generalizing line with
  | nil => cases h
  | cons b s ih =>
    unfold strchr at h
    split_ifs at h with hzero hc
    · cases h
      exact ⟨by rw [hc, List.nil_append], List.not_mem_nil⟩
    · obtain ⟨⟨before, after⟩, hr, heq⟩ := Option.map_eq_some_iff.mp h
      obtain ⟨rfl, rfl⟩ := Prod.mk.inj heq
      obtain ⟨hs, hnot⟩ := ih hr
      refine ⟨by rw [hs, List.cons_append], ?_⟩
      rw [List.mem_cons, not_or]
      exact ⟨Ne.symm hc, hnot⟩

theorem strchr_none {c : UInt8} (hzero : 0 ∉ p) (h : strchr c p = none) : c ∉ p := by
  induction p with
  | nil => exact List.not_mem_nil
  | cons b s ih =>
    rw [List.mem_cons, not_or] at hzero ⊢
    rw [strchr, if_neg (Ne.symm hzero.1)] at h
    split_ifs at h with hc
    exact ⟨Ne.symm hc, ih hzero.2 (Option.map_eq_none_iff.mp h)⟩

/-- The loop over the lines in the buffer from `p` on: what is written, and
what is left. -/
def printLines (pattern p : List UInt8) : List UInt8 × List UInt8 :=
  match _h : strchr NEWLINE p with
  | none => ([], p)
  | some (line, rest) =>
    let r := printLines pattern rest
    ((if matchText pattern line then line ++ [NEWLINE] else []) ++ r.1, r.2)
termination_by p.length
decreasing_by
  rw [(strchr_some _h).1, List.length_append, List.length_cons]
  omega

/-- The loop of `grep`, with `buf` left in the buffer: what is written. -/
def grepLoop (pattern : List UInt8) (sizes : Nat → Nat) (buf stream : List UInt8) : List UInt8 :=
  let n := min (BUFSIZE - buf.length - 1) (max 1 (sizes 0))
  if stream.take n = [] then []
  else
    let r := printLines pattern (buf ++ stream.take n)
    r.1 ++ grepLoop pattern (fun i => sizes (i + 1)) r.2 (stream.drop n)
termination_by stream.length
decreasing_by
  rename_i h
  rw [List.take_eq_nil_iff, not_or] at h
  have hpos := List.length_pos_iff.mpr h.2
  rw [List.length_drop]
  omega

/-- `grep(pattern, fd)`, where reading `fd` gives `stream`. -/
def grep (pattern : List UInt8) (sizes : Nat → Nat) (stream : List UInt8) : List UInt8 :=
  grepLoop pattern sizes [] stream

/-! ## Lines -/

/-- The lines of a text that end with a newline, without it. -/
def lines (text : List UInt8) : List (List UInt8) := (text.splitOn NEWLINE).dropLast

/-- The matching ones among some lines, one after the other. -/
def printed (pattern : List UInt8) (ls : List (List UInt8)) : List UInt8 :=
  (ls.filter (matchText pattern)).flatMap (· ++ [NEWLINE])

theorem lines_of_notMem (h : NEWLINE ∉ p) : lines p = [] := by
  unfold lines
  rw [List.splitOn_eq_singleton h]
  rfl

theorem lines_append (h : NEWLINE ∉ line) :
    lines (line ++ NEWLINE :: rest) = line :: lines rest := by
  unfold lines
  rw [List.splitOn_append_cons_self_of_not_mem h,
    List.dropLast_cons_of_ne_nil (List.splitOn_ne_nil _ _)]

theorem printed_append (pattern : List UInt8) (ls ls' : List (List UInt8)) :
    printed pattern (ls ++ ls') = printed pattern ls ++ printed pattern ls' := by
  unfold printed
  rw [List.filter_append, List.flatMap_append]

theorem printed_cons (line : List UInt8) (ls : List (List UInt8)) :
    printed pattern (line :: ls) =
      (if matchText pattern line then line ++ [NEWLINE] else []) ++ printed pattern ls := by
  unfold printed
  rw [List.filter_cons]
  split
  · rw [List.flatMap_cons]
  · rfl

/-- The complete lines in the buffer are printed or passed over, and what is
left is the beginning of the next one. -/
theorem printLines_spec (pattern : List UInt8) (hzero : 0 ∉ p) :
    ∃ ls, (printLines pattern p).1 = printed pattern ls ∧
    (∀ line ∈ ls, line.length < p.length) ∧ NEWLINE ∉ (printLines pattern p).2 ∧
    (printLines pattern p).2 <:+ p ∧
    ∀ more, lines (p ++ more) = ls ++ lines ((printLines pattern p).2 ++ more) := by
  fun_induction printLines pattern p with
  | case1 p h => exact ⟨[], rfl, nofun, strchr_none hzero h, List.suffix_rfl, fun _ => rfl⟩
  | case2 p line rest h r ih =>
    obtain ⟨rfl, hline⟩ := strchr_some h
    rw [List.mem_append, List.mem_cons, not_or, not_or] at hzero
    obtain ⟨ls, hout, hshort, hnew, hsuffix, hlines⟩ := ih hzero.2.2
    refine ⟨line :: ls, ?_, ?_, hnew, ?_, fun more => ?_⟩
    · rw [printed_cons, hout]
    · rw [List.length_append, List.length_cons]
      refine List.forall_mem_cons.mpr ⟨by omega, fun l hl => ?_⟩
      have hlt := hshort l hl
      omega
    · exact (hsuffix.trans (List.suffix_cons ..)).trans (List.suffix_append ..)
    · rw [List.append_assoc, List.cons_append, lines_append hline, hlines, List.cons_append]

/-- However the input is cut, the lines before the first long one are
printed if they match, and nothing else is. -/
theorem grepLoop_eq (hzero : 0 ∉ buf ++ stream) (hbuf : NEWLINE ∉ buf) (hfits : buf.length < BUFSIZE) :
    grepLoop pattern sizes buf stream =
      printed pattern ((lines (buf ++ stream)).takeWhile (·.length < BUFSIZE - 1)) := by
  fun_induction grepLoop pattern sizes buf stream with
  | case1 sizes buf stream n hnone =>
    have hlines : (lines (buf ++ stream)).takeWhile (·.length < BUFSIZE - 1) = [] := by
      by_cases hmem : NEWLINE ∈ stream
      · -- the buffer is full, and the line still goes on
        obtain ⟨before, after, rfl, hbefore⟩ := List.eq_append_cons_of_mem hmem
        rw [List.take_eq_nil_iff] at hnone
        have hfull : n = 0 := hnone.resolve_right (by simp)
        rw [← List.append_assoc, lines_append (by simp [hbuf, hbefore]), List.takeWhile_cons,
          if_neg]
        rw [List.length_append, decide_eq_true_eq]
        omega
      · rw [lines_of_notMem (by simp [hbuf, hmem])]
        rfl
    rw [hlines]
    rfl
  | case2 sizes buf stream n hsome r ih =>
    have hcut : buf ++ stream = buf ++ stream.take n ++ stream.drop n := by
      rw [List.append_assoc, List.take_append_drop]
    rw [hcut, List.mem_append, not_or] at hzero
    obtain ⟨ls, hout, hshort, hnew, hsuffix, hlines⟩ := printLines_spec pattern hzero.1
    have hlen : (buf ++ stream.take n).length < BUFSIZE := by
      rw [List.length_append, List.length_take]
      omega
    rw [ih ?_ hnew (hsuffix.length_le.trans_lt hlen), hcut, hlines, List.takeWhile_append_of_pos,
      printed_append, ← hout]
    · intro l hl
      have hlt := hshort l hl
      rw [decide_eq_true_eq]
      omega
    · rw [List.mem_append, not_or]
      exact ⟨fun hmem => hzero.1 (hsuffix.subset hmem), hzero.2⟩

/-- For every input without a zero byte, however it is cut: `grep` writes the
matching lines if and only if none of them is the first line of 1023 bytes or
more or comes after it. -/
theorem grep_prints_iff (pattern stream : List UInt8) (sizes : Nat → Nat) (hzero : 0 ∉ stream) :
    grep pattern sizes stream = printed pattern (lines stream) ↔
      ∀ line ∈ (lines stream).dropWhile (·.length < BUFSIZE - 1), matchText pattern line = false := by
  have hsplit := printed_append pattern
    ((lines stream).takeWhile (·.length < BUFSIZE - 1))
    ((lines stream).dropWhile (·.length < BUFSIZE - 1))
  rw [List.takeWhile_append_dropWhile] at hsplit
  rw [grep, grepLoop_eq hzero List.not_mem_nil (by decide), List.nil_append, hsplit,
    List.self_eq_append_right]
  unfold printed
  simp

theorem grep_prints_short : grep [97] (fun _ => 1) [97, 10, 98, 10, 97] = [97, 10] := by
  have hprints := (grep_prints_iff [97] [97, 10, 98, 10, 97] (fun _ => 1) (by decide)).mpr (by decide)
  exact hprints

/-- A line of 1023 bytes that matches every pattern, and is not printed. -/
theorem grep_loses_line : ∃ (pattern stream : List UInt8) (sizes : Nat → Nat), 0 ∉ stream ∧
    grep pattern sizes stream ≠ printed pattern (lines stream) := by
  have hline : NEWLINE ∉ List.replicate 1023 97 := by decide +kernel
  refine ⟨[], List.replicate 1023 97 ++ [NEWLINE], fun _ => 1024, by decide +kernel, ?_⟩
  rw [grep, grepLoop_eq (by decide +kernel) List.not_mem_nil (by decide), List.nil_append,
    lines_append hline]
  decide +kernel

end Xv6.Grep
