import Mathlib.Data.List.Infix
import Xv6.Sh.Run

/-!
# The descriptors of one process

`Code.Safe` says of the code of a process, and of the table it starts with,
that at every point of it the process holds an end of a pipe only where it may.
It is read off the code call by call, as a weakest precondition: what the code
needs before a `close` is what the rest needs of the table without that
descriptor, and a `fork` needs what both processes need.

The contract of `runcmd` is `Plain`: descriptors 0, 1 and 2 are open and no
others, the write end of a pipe is descriptor 1 and the process is on the left
of the pipe, and the read end is descriptor 0 on the right. `Plain.runcmd` is
the proof that the calls of each node keep it.
-/

namespace Xv6.Sh

open Function

variable {t : Table} {node n : Node} {fd fd' : Nat} {f : OpenFile} {p : Nat × Nat}

/-! ## Tables -/

/-- The end of the pipe of `n` may be descriptor `fd` of a process at `node`. -/
def MayHold (node n : Node) (writable : Bool) (fd : Nat) : Prop :=
  if writable then fd = 1 ∧ .left :: n <:+ node else fd = 0 ∧ .right :: n <:+ node

/-- Every end of a pipe is where it may be. -/
def WellHeld (node : Node) (t : Table) : Prop :=
  ∀ fd n writable, t fd = some (.pipe n writable) → MayHold node n writable fd

/-- What `runcmd` is given, and gives to the commands below. -/
structure Plain (node : Node) (t : Table) : Prop where
  exactly : ∀ fd, (t fd).isSome ↔ fd < 3
  held : WellHeld node t

theorem MayHold.below {writable : Bool} (h : MayHold node n writable fd) (d : Dir) :
    MayHold (d :: node) n writable fd := by
  unfold MayHold at h ⊢
  split
  · rename_i hw
    rw [if_pos hw] at h
    exact ⟨h.1, h.2.trans (List.suffix_cons d node)⟩
  · rename_i hw
    rw [if_neg hw] at h
    exact ⟨h.1, h.2.trans (List.suffix_cons d node)⟩

theorem WellHeld.below (h : WellHeld node t) (d : Dir) : WellHeld (d :: node) t :=
  fun fd n writable hfd => (h fd n writable hfd).below d

theorem Plain.below (h : Plain node t) (d : Dir) : Plain (d :: node) t :=
  ⟨h.exactly, h.held.below d⟩

theorem WellHeld.close (h : WellHeld node t) : WellHeld node (update t fd none) := by
  intro g n writable hg
  rw [update_apply] at hg
  split at hg
  · cases hg
  · exact h g n writable hg

theorem WellHeld.put (h : WellHeld node t)
    (hf : ∀ n writable, f = .pipe n writable → MayHold node n writable fd) :
    WellHeld node (update t fd (some f)) := by
  intro g n writable hg
  rw [update_apply] at hg
  split at hg
  · rename_i heq
    rw [heq]
    exact hf n writable (Option.some.inj hg)
  · exact h g n writable hg

theorem argfd_some (h : argfd t fd = some f) : fd < NOFILE ∧ t fd = some f := by
  unfold argfd at h
  split at h
  · exact ⟨‹_›, h⟩
  · cases h

/-- `fdalloc` gives the lowest descriptor that is free. -/
theorem fdalloc_eq (hfd : fd < NOFILE) (hfree : t fd = none) (hbelow : ∀ g < fd, (t g).isSome) :
    fdalloc t = some fd := by
  unfold fdalloc
  rw [List.find?_range_eq_some]
  refine ⟨by rw [hfree]; rfl, List.mem_range.mpr hfd, fun g hg => ?_⟩
  rw [Bool.not_eq_true', Option.isNone_eq_false_iff]
  exact hbelow g hg

theorem fdalloc_some (h : fdalloc t = some fd) :
    fd < NOFILE ∧ t fd = none ∧ ∀ g < fd, (t g).isSome := by
  unfold fdalloc at h
  rw [List.find?_range_eq_some] at h
  obtain ⟨hfree, hmem, hbelow⟩ := h
  refine ⟨List.mem_range.mp hmem, Option.isNone_iff_eq_none.mp hfree, fun g hg => ?_⟩
  have hg' := hbelow g hg
  rwa [Bool.not_eq_true', Option.isNone_eq_false_iff] at hg'

/-! ## Code -/

def Fd.isEntry : Fd → Bool
  | .num _ => false
  | _ => true

/-- The code still refers to the array `p`. -/
def Code.usesPipe : Code → Bool
  | .runcmd _ _ => false
  | .exec _ next => next.usesPipe
  | .openFile _ _ next => next.usesPipe
  | .close fd next => fd.isEntry || next.usesPipe
  | .dup fd next => fd.isEntry || next.usesPipe
  | .pipe _ => false
  | .fork child next => child.usesPipe || next.usesPipe
  | .wait next => next.usesPipe
  | .exit => false

/-- Every end of a pipe is where it may be, or is of the pipe that the code
sets up. -/
def Held (node : Node) (c : Code) (t : Table) : Prop :=
  ∀ fd n writable, t fd = some (.pipe n writable) →
    (n = node ∧ c.usesPipe = true) ∨ MayHold node n writable fd

/-- The code is right for the array `p` and the table, as long as its calls
succeed. -/
def Code.Safe (node : Node) : Code → Nat × Nat → Table → Prop
  | .runcmd n _, _, t => Plain n t
  | .exec _ _, _, t => Plain node t
  | .openFile file mode next, p, t =>
    Held node (.openFile file mode next) t ∧
      ∀ fd, fdalloc t = some fd → next.Safe node p (Function.update t fd (some (.redir node)))
  | .close fd next, p, t =>
    Held node (.close fd next) t ∧
      ∀ f, argfd t (fd.value p) = some f →
        next.Safe node p (Function.update t (fd.value p) none)
  | .dup fd next, p, t =>
    Held node (.dup fd next) t ∧
      ∀ f new, argfd t (fd.value p) = some f → fdalloc t = some new →
        next.Safe node p (Function.update t new (some f))
  | .pipe next, _, t =>
    WellHeld node t ∧
      ∀ fd0 fd1, fdalloc t = some fd0 →
        fdalloc (Function.update t fd0 (some (.pipe node false))) = some fd1 →
        next.Safe node (fd0, fd1) (Function.update
          (Function.update t fd0 (some (.pipe node false))) fd1 (some (.pipe node true)))
  | .fork child next, p, t =>
    Held node (.fork child next) t ∧ child.Safe node p t ∧ next.Safe node p t
  | .wait next, p, t => Held node (.wait next) t ∧ next.Safe node p t
  | .exit, _, t => WellHeld node t

theorem WellHeld.toHeld (h : WellHeld node t) (c : Code) : Held node c t :=
  fun fd n writable hfd => .inr (h fd n writable hfd)

theorem Held.close {c c' : Code} (h : Held node c t) (hc : c'.usesPipe = true) :
    Held node c' (update t fd none) := by
  intro g n writable hg
  rw [update_apply] at hg
  split at hg
  · cases hg
  · exact (h g n writable hg).imp (fun hn => ⟨hn.1, hc⟩) id

/-- An end of the pipe that is being set up may be anywhere. -/
theorem Held.put {c c' : Code} {writable : Bool} (h : Held node c t) (hc : c'.usesPipe = true) :
    Held node c' (update t fd (some (.pipe node writable))) := by
  intro g n writable hg
  rw [update_apply] at hg
  split at hg
  · cases hg
    exact .inl ⟨rfl, hc⟩
  · exact (h g n writable hg).imp (fun hn => ⟨hn.1, hc⟩) id

/-! ## The contract of `runcmd` -/

namespace Plain

theorem eq_none (h : Plain node t) (hfd : 3 ≤ fd) : t fd = none := by
  rw [← Option.not_isSome_iff_eq_none, h.exactly]
  omega

theorem isSome (h : Plain node t) (hfd : fd < 3) : (t fd).isSome := (h.exactly fd).mpr hfd

/-- A descriptor that was closed and opened again. -/
theorem put (h : Plain node t) (hfd : fd < 3)
    (hf : ∀ n writable, f = .pipe n writable → MayHold node n writable fd) :
    Plain node (update t fd (some f)) := by
  refine ⟨fun g => ?_, h.held.put hf⟩
  rw [update_apply]
  split
  · rename_i heq
    simp [heq, hfd]
  · exact h.exactly g

/-- The descriptor that is closed is the one that is opened next. -/
theorem fdalloc_close (h : Plain node t) (hfd : fd < 3) : fdalloc (update t fd none) = some fd := by
  refine fdalloc_eq (by unfold NOFILE; omega) (update_self _ _ _) fun g hg => ?_
  rw [update_of_ne (by omega)]
  exact h.isSome (by omega)

/-- The table of a process that has just made a pipe. -/
def withPipe (node : Node) (t : Table) : Table :=
  Function.update (Function.update t 3 (some (.pipe node false))) 4 (some (.pipe node true))

section

variable (h : Plain node t)
include h

theorem fdalloc_read : fdalloc t = some 3 :=
  fdalloc_eq (by decide) (h.eq_none (Nat.le_refl 3)) fun _ hg => h.isSome hg

theorem fdalloc_write : fdalloc (update t 3 (some (.pipe node false))) = some 4 := by
  refine fdalloc_eq (by decide) ?_ fun g hg => ?_
  · rw [update_of_ne (by decide)]
    exact h.eq_none (by decide)
  · rw [update_apply]
    split
    · rfl
    · exact h.isSome (by omega)

theorem held_withPipe {c : Code} (hc : c.usesPipe = true) : Held node c (withPipe node t) :=
  ((h.held.toHeld c).put hc).put hc

/-- The table without the two descriptors of the pipe, after one end of it took
the place of `fd`. -/
theorem wired_eq (hfd : fd < 3) :
    update (update (update (update (withPipe node t) fd none) fd (some f)) 3 none) 4 none =
      update t fd (some f) := by
  have h3 := h.eq_none (Nat.le_refl 3)
  have h4 : t 4 = none := h.eq_none (by decide)
  funext g
  simp only [update_apply, withPipe]
  split_ifs <;> first | omega | simp_all

theorem unwired_eq : update (update (withPipe node t) 3 none) 4 none = t := by
  have h3 := h.eq_none (Nat.le_refl 3)
  have h4 : t 4 = none := h.eq_none (by decide)
  funext g
  simp only [update_apply, withPipe]
  split_ifs <;> simp_all

/-- A child of a `PIPE` node takes its end of the pipe and closes the rest. -/
theorem wire (writable : Bool) {cmd : Cmd} {d : Dir} (hfd : fd < 3)
    (hmay : MayHold (d :: node) node writable fd) :
    (wire fd (if writable then .p1 else .p0) (.runcmd (d :: node) cmd)).Safe node (3, 4)
      (withPipe node t) := by
  obtain ⟨own, hown⟩ : ∃ own : Fd, own = if writable then .p1 else .p0 := ⟨_, rfl⟩
  have hentry : own.isEntry = true := by
    rw [hown]
    cases writable <;> rfl
  have hvalue : own.value (3, 4) = if writable then 4 else 3 := by
    rw [hown]
    cases writable <;> rfl
  rw [← hown]
  have huses : (Sh.wire fd own (.runcmd (d :: node) cmd)).usesPipe = true := by
    simp [Sh.wire, Code.usesPipe, hentry]
  have hheld := h.held_withPipe huses
  refine ⟨hheld, fun _ _ => ⟨hheld.close (by simp [Code.usesPipe, hentry]), fun f new hf hnew => ?_⟩⟩
  have hclosed : fdalloc (update (withPipe node t) fd none) = some fd := by
    refine fdalloc_eq (by unfold NOFILE; omega) (update_self _ _ _) fun g hg => ?_
    rw [update_of_ne (by omega), withPipe, update_of_ne (by omega),
      update_of_ne (by omega)]
    exact h.isSome (by omega)
  have hnewfd : new = fd := Option.some.inj (hnew.symm.trans hclosed)
  have hfile : f = .pipe node writable := by
    rw [hvalue] at hf
    cases writable with
    | false =>
      have hend : update (withPipe node t) fd none 3 = some f := (argfd_some hf).2
      rw [update_of_ne (by omega), withPipe, update_of_ne (by decide),
        update_self] at hend
      exact (Option.some.inj hend).symm
    | true =>
      have hend : update (withPipe node t) fd none 4 = some f := (argfd_some hf).2
      rw [update_of_ne (by omega), withPipe, update_self] at hend
      exact (Option.some.inj hend).symm
  rw [hnewfd, hfile]
  have hput : Held node (.close .p0 (.close .p1 (.runcmd (d :: node) cmd))) (update
      (update (withPipe node t) fd none) fd (some (.pipe node writable))) :=
    (hheld.close huses).put rfl
  have hplain : Plain (d :: node) (update t fd (some (.pipe node writable))) :=
    (h.below d).put hfd fun n w hn => by
      cases hn
      exact hmay
  rw [← h.wired_eq hfd] at hplain
  exact ⟨hput, fun _ _ => ⟨hput.close rfl, fun _ _ => hplain⟩⟩

/-- The `REDIR` node opens the descriptor that it closes. -/
theorem redir {cmd : Cmd} {file : Nat} {mode : Int} :
    (Code.close (.num fd) (.openFile file mode (.runcmd (.inner :: node) cmd))).Safe node p t := by
  refine ⟨h.held.toHeld _, fun f hf => ⟨h.held.close.toHeld _, fun new hnew => ?_⟩⟩
  have hopen := (argfd_some hf).2
  have hfd : fd < 3 := (h.exactly fd).mp (Option.isSome_iff_exists.mpr ⟨f, hopen⟩)
  have hnewfd : new = fd := Option.some.inj (hnew.symm.trans (h.fdalloc_close hfd))
  have hplain : Plain (.inner :: node) (update t fd (some (.redir node))) :=
    (h.below .inner).put hfd nofun
  rw [hnewfd]
  show Plain (.inner :: node) (update (update t fd none) fd _)
  rw [update_idem]
  exact hplain

/-- The calls of every node are right. -/
theorem runcmd (cmd : Cmd) : (runcmd node cmd).Safe node p t := by
  cases cmd with
  | exec argv =>
    cases argv with
    | nil => exact h.held
    | cons arg args => exact h
  | redir cmd file efile mode fd => exact h.redir
  | list left right =>
    exact ⟨h.held.toHeld _, h.below .left, h.held.toHeld _, h.below .right⟩
  | pipe left right =>
    refine ⟨h.held, fun fd0 fd1 hfd0 hfd1 => ?_⟩
    rw [h.fdalloc_read] at hfd0
    cases hfd0
    rw [h.fdalloc_write] at hfd1
    cases hfd1
    have hheld : ∀ c : Code, c.usesPipe = true → Held node c (withPipe node t) :=
      fun c hc => h.held_withPipe hc
    refine ⟨hheld _ rfl, h.wire true (by decide) ⟨rfl, List.suffix_rfl⟩,
      hheld _ rfl, h.wire false (by decide) ⟨rfl, List.suffix_rfl⟩, hheld _ rfl,
      fun _ _ => ⟨(hheld (.close .p0 .exit) rfl).close rfl, fun _ _ => ?_⟩⟩
    show (Code.wait (.wait .exit)).Safe node (3, 4)
      (update (update (withPipe node t) 3 none) 4 none)
    rw [h.unwired_eq]
    exact ⟨h.held.toHeld _, h.held.toHeld _, h.held⟩
  | back cmd => exact ⟨h.held.toHeld _, h.below .inner, h.held⟩

end

end Plain

end Xv6.Sh
