import Xv6.Lib.Trans
import Xv6.Sched.Cpu

/-!
# The invariant of context switches

The invariant `World.Ok` ties four things together. The lock of a process is
taken by a processor exactly when that processor is at a place that holds it
(`Pc.holds`). A processor on the kernel stack of a process has that process
as its `c->proc`, and the process is `RUNNING`, or a `ZOMBIE` that holds its
own lock on the way to `sched`. A process that may be resumed has a saved
context on its own stack at a place that holds exactly its own lock, so that
`swtch` hands the lock over. And `c->proc` is cleared before the scheduler
releases the lock.

`Turns` is what the step from one state to the next is to satisfy: the
invariant holds again, and processes were switched to and freed only when no
processor was on them. `Ok.step` says once what a step of one processor has to
keep for it, `Ok.goto` does so for the steps that stay on their stack, and
`Ok.acquire` and `Ok.release` for the two kinds of lock operations; the turns
of the code are cases of these.
-/

namespace Xv6.Smp

open Xv6.Lib.Trans
open Xv6.Sched (PState Chan Alloc Call initproc)

variable {c p i : Nat} {w₁ : World} {pc pc₀ : Pc}

/-- The lock of slot `i` is held at this place. -/
def Pc.holds (i : Nat) : Pc → Prop
  | .forkret p | .yieldLocked p _ | .yieldBack p _ | .sleepLocked p _ | .sleepBack p
  | .exitParentLocked p _ | .exitSched p | .wait p .. | .waitLockChild p .. | .waitDone p
  | .waitBack p _ => i = p
  | .wakeupLocked _ j _ | .killLocked _ j | .allocprocLocked _ j | .schedulerLocked j
  | .schedulerBack j => i = j
  | .exitInitLocked .. => i = initproc
  | .exitLock _ _ original_parent => i = original_parent
  | .reparent p _ original_parent _ | .reparentLock p _ original_parent _ =>
    i = p ∨ i = original_parent
  | .reparentLocked p _ original_parent j => i = p ∨ i = original_parent ∨ i = j
  | .waitLocked p _ j => i = p ∨ i = j
  | _ => False

/-- A place on a stack: a scheduler's places on a scheduler's stack, and
on the stack of a process local variables `p` that are that process. Locks
held together are different. -/
def Pc.fits (stack : Option Nat) : Pc → Prop
  | .user | .kill .. | .killLocked .. => stack ≠ none
  | .wakeup _ _ ret | .wakeupLocked _ _ ret => ret.quiet = true ∧ ret.fits stack
  | .yield p ret | .yieldLocked p ret | .yieldBack p ret =>
    stack = some p ∧ ret.quiet = true ∧ ret.fits stack
  | .forkret p | .sleep p _ | .sleepLocked p _ | .sleepBack p | .allocproc p _
  | .allocprocLocked p _ | .exitInit p _ | .exitInitLocked p _ | .exitParent p _
  | .exitParentLocked p _ | .exitLockParent p .. | .exitLock p .. | .exitSched p | .waitLock p _
  | .wait p .. | .waitLockChild p .. | .waitDone p | .waitBack p _ => stack = some p
  | .reparent p _ original_parent _ | .reparentLock p _ original_parent _ =>
    stack = some p ∧ p ≠ original_parent
  | .reparentLocked p _ original_parent j =>
    stack = some p ∧ p ≠ original_parent ∧ j ≠ p ∧ j ≠ original_parent
  | .waitLocked p _ j => stack = some p ∧ j ≠ p
  | .scheduler _ | .schedulerLocked _ | .schedulerBack _ => stack = none
  | .zombieExit => False

/-- What `c->proc` is while a processor is in its scheduler. -/
def Pc.back : Pc → Option Nat
  | .schedulerBack i => some i
  | _ => none

theorem holds_of_back (h : pc.back = some i) : pc.holds i := by
  cases pc with
  | schedulerBack j => exact (Option.some.inj h).symm
  | _ => cases h

/-- A context that can be resumed with the lock of `p` held. -/
structure Context.Saved (context : Context) (p : Nat) : Prop where
  stack : context.stack = some p
  fits : context.pc.fits (some p)
  holds : ∀ i, context.pc.holds i ↔ i = p
  alive : context.pc ≠ .exitSched p

namespace World

structure Ok (w : World) : Prop where
  fits : ∀ c, (w.cpu c).live.pc.fits (w.cpu c).live.stack
  lock : ∀ c i, (w.proc i).lock = some c ↔ (w.cpu c).live.pc.holds i
  sched : ∀ c, (w.cpu c).live.stack = none → (w.cpu c).proc = (w.cpu c).live.pc.back
  run : ∀ c p, (w.cpu c).live.stack = some p →
    (w.cpu c).proc = some p ∧ (w.cpu c).context = ⟨none, .schedulerBack p⟩ ∧
    ((w.proc p).state = .running ∨
      (w.proc p).state = .zombie ∧ (w.cpu c).live.pc = .exitSched p)
  saved : ∀ p, (w.proc p).state = .runnable ∨ (w.proc p).state = .sleeping →
    (w.proc p).context.Saved p
  one : ∀ c d p, (w.cpu c).proc = some p → (w.cpu d).proc = some p → c = d

/-- No processor is on the stack of the process or has it as its current one. -/
def Alone (w : World) (p : Nat) : Prop :=
  ∀ d, (w.cpu d).live.stack ≠ some p ∧ (w.cpu d).proc ≠ some p

/-- A step that keeps the invariant. A processor switches only to a process
that is runnable and that no processor is on, and a zombie is freed only when
no processor is on it. -/
structure Turns (w w' : World) : Prop where
  ok : w'.Ok
  swtch : ∀ c p, (w.cpu c).live.stack ≠ some p → (w'.cpu c).live.stack = some p →
    (w.proc p).state = .runnable ∧ w.Alone p
  free : ∀ p, (w.proc p).state = .zombie → (w'.proc p).state ≠ .zombie → w.Alone p

variable {w w' : World}

/-! ## What the invariant says about one process -/

/-- The current process of a processor is the one it runs or just ran. -/
theorem Ok.current (h : w.Ok) (hproc : (w.cpu c).proc = some p) :
    (w.cpu c).live.stack = some p ∨
      (w.cpu c).live.stack = none ∧ (w.cpu c).live.pc = .schedulerBack p := by
  cases hstack : (w.cpu c).live.stack with
  | some q =>
    have hq := (h.run c q hstack).1
    rw [hproc] at hq
    exact .inl hq.symm
  | none =>
    have hback := h.sched c hstack
    rw [hproc] at hback
    refine .inr ⟨rfl, ?_⟩
    cases hpc : (w.cpu c).live.pc with
    | schedulerBack i =>
      rw [hpc] at hback
      cases hback
      rfl
    | _ =>
      rw [hpc] at hback
      cases hback

/-- A processor that holds the lock of `p` and is not on its stack finds no
other processor with `p`, unless `p` runs. -/
theorem Ok.alone (h : w.Ok) (hlock : (w.proc p).lock = some c)
    (hstate : (w.proc p).state ≠ .running) (hexit : (w.cpu c).live.pc ≠ .exitSched p)
    (hback : (w.cpu c).live.pc ≠ .schedulerBack p) : w.Alone p := by
  intro d
  have hmine : ∀ d, (w.cpu d).live.pc.holds p → d = c := by
    intro d hd
    have hlock' := (h.lock d p).mpr hd
    rw [hlock] at hlock'
    exact (Option.some.inj hlock').symm
  have hstack : (w.cpu d).live.stack ≠ some p := by
    intro hd
    rcases (h.run d p hd).2.2 with hrun | ⟨-, hpc⟩
    · exact hstate hrun
    · have hdc : d = c := hmine d (by rw [hpc]; rfl)
      exact hexit (hdc ▸ hpc)
  refine ⟨hstack, ?_⟩
  intro hproc
  rcases h.current hproc with hd | ⟨-, hpc⟩
  · exact hstack hd
  · have hdc : d = c := hmine d (by rw [hpc]; rfl)
    exact hback (hdc ▸ hpc)

/-- A process on a processor, outside the end of `exit`, is no zombie. -/
theorem Ok.not_zombie (h : w.Ok) (hpc : (w.cpu c).live.pc = pc)
    (hstack : (w.cpu c).live.stack = some p) (hexit : pc ≠ .exitSched p) :
    (w.proc p).state ≠ .zombie := by
  intro hzombie
  rcases (h.run c p hstack).2.2 with hrun | ⟨-, hsched⟩
  · exact absurd (hrun.symm.trans hzombie) (by simp)
  · exact hexit (hpc.symm.trans hsched)

/-! ## What a step has to keep -/

/-- A step of processor `c`. -/
theorem Ok.step (h : w.Ok) (hcpu : ∀ d ≠ c, w'.cpu d = w.cpu d)
    (hother : ∀ d i, d ≠ c → ((w'.proc i).lock = some d ↔ (w.proc i).lock = some d))
    (hstate : ∀ d p, d ≠ c → (w.cpu d).live.stack = some p → (w'.proc p).state = (w.proc p).state)
    (hfits : (w'.cpu c).live.pc.fits (w'.cpu c).live.stack)
    (hlock : ∀ i, (w'.proc i).lock = some c ↔ (w'.cpu c).live.pc.holds i)
    (hsched : (w'.cpu c).live.stack = none → (w'.cpu c).proc = (w'.cpu c).live.pc.back)
    (hrun : ∀ p, (w'.cpu c).live.stack = some p →
      (w'.cpu c).proc = some p ∧ (w'.cpu c).context = ⟨none, .schedulerBack p⟩ ∧
      ((w'.proc p).state = .running ∨
        (w'.proc p).state = .zombie ∧ (w'.cpu c).live.pc = .exitSched p))
    (hsaved : ∀ p, (w'.proc p).state = .runnable ∨ (w'.proc p).state = .sleeping →
      (w'.proc p).context.Saved p)
    (hone : ∀ d p, d ≠ c → (w'.cpu c).proc = some p → (w.cpu d).proc ≠ some p)
    (hswtch : ∀ p, (w.cpu c).live.stack ≠ some p → (w'.cpu c).live.stack = some p →
      (w.proc p).state = .runnable ∧ w.Alone p)
    (hfree : ∀ p, (w.proc p).state = .zombie → (w'.proc p).state ≠ .zombie → w.Alone p) :
    w.Turns w' := by
  refine ⟨⟨?_, ?_, ?_, ?_, hsaved, ?_⟩, ?_, hfree⟩
  · intro d
    by_cases hd : d = c
    · exact hd ▸ hfits
    · rw [hcpu d hd]
      exact h.fits d
  · intro d i
    by_cases hd : d = c
    · exact hd ▸ hlock i
    · rw [hother d i hd, hcpu d hd]
      exact h.lock d i
  · intro d
    by_cases hd : d = c
    · exact hd ▸ hsched
    · rw [hcpu d hd]
      exact h.sched d
  · intro d p
    by_cases hd : d = c
    · exact hd ▸ hrun p
    · rw [hcpu d hd]
      intro hp
      rw [hstate d p hd hp]
      exact h.run d p hp
  · intro d e p hdp hep
    by_cases hd : d = c
    · by_cases he : e = c
      · rw [hd, he]
      · rw [hd] at hdp
        rw [hcpu e he] at hep
        exact absurd hep (hone e p he hdp)
    · rw [hcpu d hd] at hdp
      by_cases he : e = c
      · rw [he] at hep
        exact absurd hdp (hone d p hd hep)
      · rw [hcpu e he] at hep
        exact h.one d e p hdp hep
  · intro d p hbefore hafter
    by_cases hd : d = c
    · subst hd
      exact hswtch p hbefore hafter
    · rw [hcpu d hd] at hafter
      exact absurd hafter hbefore

/-- Processor `c` goes on to leave process `p`, which it is on, for good. -/
def Leaves (w : World) (c : Nat) (pc : Pc) (p : Nat) : Prop :=
  (w.cpu c).live.stack = some p ∧ pc = .exitSched p

/-- What a step may do to a process: nothing to its state, wake it, let it
begin or end, or make it a zombie if the processor `leaves` it. -/
inductive Update (leaves : Prop) (p : Nat) (pr pr' : Proc) : Prop where
  | same (hstate : pr'.state = pr.state) (hcontext : pr'.context = pr.context)
  | wake (hold : pr.state = .sleeping) (hstate : pr'.state = .runnable)
      (hcontext : pr'.context = pr.context)
  | born (hold : pr.state = .unused) (hstate : pr'.state = .runnable)
      (hcontext : pr'.context = ⟨some p, .forkret p⟩)
  | free (hold : pr.state = .unused ∨ pr.state = .zombie) (hstate : pr'.state = .unused)
  | dies (hleaves : leaves) (hstate : pr'.state = .zombie)

variable {leaves : Prop}

theorem Update.refl (p : Nat) (pr : Proc) : Update leaves p pr pr := .same rfl rfl

theorem Update.saved {pr pr' : Proc} (h : Update leaves p pr pr')
    (hsaved : pr.state = .runnable ∨ pr.state = .sleeping → pr.context.Saved p)
    (hstate' : pr'.state = .runnable ∨ pr'.state = .sleeping) : pr'.context.Saved p := by
  cases h with
  | same hstate hcontext =>
    rw [hcontext]
    exact hsaved (hstate ▸ hstate')
  | wake hold hstate hcontext =>
    rw [hcontext]
    exact hsaved (.inr hold)
  | born hold hstate hcontext =>
    rw [hcontext]
    exact ⟨rfl, rfl, fun i => Iff.rfl, by simp⟩
  | free hold hstate | dies _ hstate =>
    rw [hstate] at hstate'
    rcases hstate' with hf | hf <;> cases hf

theorem cpu_setCpu (w : World) (c d : Nat) (f : Cpu → Cpu) :
    (w.setCpu c f).cpu d = if d = c then f (w.cpu c) else w.cpu d := by
  unfold setCpu
  by_cases h : d = c
  · subst h
    simp
  · simp [h]

theorem proc_setProc (w : World) (p q : Nat) (f : Proc → Proc) :
    (w.setProc p f).proc q = if q = p then f (w.proc p) else w.proc q := by
  unfold setProc
  by_cases h : q = p
  · subst h
    simp
  · simp [h]

/-- A part of the process that an update leaves alone is as before in all processes. -/
theorem setProc_part {α : Type} (part : Proc → α) {f : Proc → Proc}
    (h : part (f (w.proc p)) = part (w.proc p)) (q : Nat) :
    part ((w.setProc p f).proc q) = part (w.proc q) := by
  rw [proc_setProc]
  split_ifs with hq
  · rw [hq, h]
  · rfl

@[simp] theorem proc_setCpu (w : World) (c : Nat) (f : Cpu → Cpu) :
    (w.setCpu c f).proc = w.proc := rfl

@[simp] theorem cpu_setProc (w : World) (p : Nat) (f : Proc → Proc) :
    (w.setProc p f).cpu = w.cpu := rfl

@[simp] theorem proc_goto (w : World) (c : Nat) (pc : Pc) : (w.goto c pc).proc = w.proc := rfl

/-- The process that a processor is on keeps its state, unless the processor
of the step leaves it. -/
theorem Ok.state_live {d : Nat} {pr' : Proc} (h : w.Ok) (hup : Update leaves p (w.proc p) pr')
    (hexit : (w.cpu c).live.pc ≠ .exitSched p)
    (hfree : (w.proc p).state = .zombie → pr'.state ≠ .zombie → (w.proc p).lock = some c)
    (hd : (w.cpu d).live.stack = some p) :
    pr'.state = (w.proc p).state ∨ leaves ∧ pr'.state = .zombie := by
  rcases (h.run d p hd).2.2 with hrun | ⟨hzombie, hpc⟩
  · cases hup with
    | same hstate _ => exact .inl hstate
    | wake hold _ _ =>
      rw [hrun] at hold
      cases hold
    | born hold _ _ =>
      rw [hrun] at hold
      cases hold
    | free hold _ =>
      rw [hrun] at hold
      rcases hold with hold | hold <;> cases hold
    | dies hleaves hstate => exact .inr ⟨hleaves, hstate⟩
  · refine .inl (by_contra fun hne => ?_)
    rw [hzombie] at hne
    -- A zombie on its stack holds its own lock, so nobody else can free it.
    have hlock := hfree hzombie hne
    have hlock' := (h.lock d p).mpr (by rw [hpc]; rfl)
    rw [hlock] at hlock'
    have hdc : c = d := Option.some.inj hlock'
    exact hexit (hdc ▸ hpc)

/-- A step that stays on its stack, after the processes were updated to `w₁`. -/
theorem Ok.goto (h : w.Ok) (hcpu : w₁.cpu = w.cpu)
    (hother : ∀ d i, d ≠ c → ((w₁.proc i).lock = some d ↔ (w.proc i).lock = some d))
    (hlock : ∀ i, (w₁.proc i).lock = some c ↔ pc.holds i)
    (hupdate : ∀ p, Update (w.Leaves c pc p) p (w.proc p) (w₁.proc p))
    (hfree : ∀ p, (w.proc p).state = .zombie → (w₁.proc p).state ≠ .zombie →
      (w.proc p).lock = some c ∧ ¬pc.holds p) (hexit : ∀ p, (w.cpu c).live.pc ≠ .exitSched p)
    (hback : pc.back = (w.cpu c).live.pc.back) (hfits : pc.fits (w.cpu c).live.stack) :
    w.Turns (w₁.goto c pc) := by
  have hc : (w₁.goto c pc).cpu c =
      { w.cpu c with live := { (w.cpu c).live with pc := pc } } := by
    rw [World.goto, cpu_setCpu, if_pos rfl, hcpu]
  have hstate : ∀ d p, (w.cpu d).live.stack = some p →
      (w₁.proc p).state = (w.proc p).state ∨ w.Leaves c pc p ∧ (w₁.proc p).state = .zombie :=
    fun d p hd => h.state_live (hupdate p) (hexit p) (fun hold hnew => (hfree p hold hnew).1) hd
  refine h.step (c := c) ?_ hother (fun d p hd hdp => (hstate d p hdp).resolve_right ?_) ?_ ?_ ?_ ?_
    ?_ ?_ ?_ ?_
  · intro d hd
    rw [World.goto, cpu_setCpu, if_neg hd, hcpu]
  · exact fun hleaves => hd (h.one d c p (h.run d p hdp).1 (h.run c p hleaves.1.1).1)
  · rw [hc]
    exact hfits
  · rw [hc]
    exact hlock
  · rw [hc]
    intro hnone
    exact (h.sched c hnone).trans hback.symm
  · rw [hc]
    intro p hp
    obtain ⟨hproc, hcontext, hrun⟩ := h.run c p hp
    refine ⟨hproc, hcontext, (hstate c p hp).imp (fun hsame => hsame.trans ?_)
      fun hleaves => ⟨hleaves.2, hleaves.1.2⟩⟩
    exact hrun.resolve_right fun hzombie => hexit p hzombie.2
  · intro p hp
    exact (hupdate p).saved (h.saved p) hp
  · rw [hc]
    intro d p hd hproc hdp
    exact hd (h.one d c p hdp hproc)
  · rw [hc]
    intro p hbefore hafter
    exact absurd hafter hbefore
  · intro p hold hnew
    obtain ⟨hlocked, hreleased⟩ := hfree p hold hnew
    refine h.alone hlocked (by rw [hold]; simp) (hexit p) fun hpc => ?_
    rw [hpc] at hback
    exact hreleased (holds_of_back hback)

theorem Ok.move (h : w.Ok) (hpc : (w.cpu c).live.pc = pc₀) (hfits : pc.fits (w.cpu c).live.stack)
    (hholds : ∀ i, pc.holds i ↔ pc₀.holds i := by exact fun _ => Iff.rfl)
    (hback : pc.back = pc₀.back := by rfl) (hexit : ∀ p, pc₀ ≠ .exitSched p := by simp) :
    w.Turns (w.goto c pc) := by
  subst hpc
  refine h.goto rfl (fun _ _ _ => Iff.rfl) ?_ (fun p => .refl p _) ?_ hexit hback hfits
  · intro i
    rw [hholds]
    exact h.lock c i
  · intro p hold hnew
    exact absurd hold hnew

theorem Ok.acquire (h : w.Ok) (hpc : (w.cpu c).live.pc = pc₀) (hnext : w.acquire c i pc = some w')
    (hfits : ¬pc₀.holds i → pc.fits (w.cpu c).live.stack)
    (hholds : ∀ j, pc.holds j ↔ pc₀.holds j ∨ j = i := by simp [Pc.holds])
    (hback : pc.back = pc₀.back := by rfl) (hexit : ∀ p, pc₀ ≠ .exitSched p := by simp) :
    w.Turns w' := by
  subst hpc
  unfold World.acquire at hnext
  split_ifs at hnext with hfree
  cases hnext
  have hnot : ¬(w.cpu c).live.pc.holds i := by
    intro hi
    rw [(h.lock c i).mpr hi] at hfree
    cases hfree
  refine h.goto rfl ?_ ?_ ?_ ?_ hexit hback (hfits hnot)
  · intro d j hd
    rw [proc_setProc]
    split_ifs with hj
    · subst hj
      rw [hfree]
      exact ⟨fun hc => absurd (Option.some.inj hc).symm hd, fun hf => by cases hf⟩
    · rfl
  · intro j
    rw [proc_setProc, hholds]
    split_ifs with hj
    · simp [hj]
    · rw [h.lock c j]
      simp [hj]
  · exact fun p => .same (setProc_part Proc.state rfl p) (setProc_part Proc.context rfl p)
  · exact fun p hold hnew => absurd ((setProc_part Proc.state rfl p).trans hold) hnew

/-- A step that updates processes to `w₁` and releases the lock of slot `i`. -/
theorem Ok.release (h : w.Ok) (hpc : (w.cpu c).live.pc = pc₀) (hnext : w₁.release c i pc = some w')
    (hcpu : w₁.cpu = w.cpu) (hlocks : ∀ p, (w₁.proc p).lock = (w.proc p).lock)
    (hupdate : ∀ p, Update (w.Leaves c pc p) p (w.proc p) (w₁.proc p))
    (hfree : ∀ p, (w.proc p).state = .zombie → (w₁.proc p).state ≠ .zombie → p = i)
    (hfits : pc.fits (w.cpu c).live.stack)
    (hholds : ∀ j, pc.holds j ↔ pc₀.holds j ∧ j ≠ i := by simp [Pc.holds])
    (hback : pc.back = pc₀.back := by rfl) (hexit : ∀ p, pc₀ ≠ .exitSched p := by simp) :
    w.Turns w' := by
  subst hpc
  unfold World.release at hnext
  split_ifs at hnext with hlock
  cases hnext
  rw [hlocks] at hlock
  refine h.goto (by rw [← hcpu]; rfl) ?_ ?_ ?_ ?_ hexit hback hfits
  · intro d j hd
    rw [proc_setProc]
    split_ifs with hj
    · subst hj
      rw [hlock]
      exact ⟨fun hf => absurd hf (by simp), fun hc => absurd (Option.some.inj hc).symm hd⟩
    · rw [hlocks]
  · intro j
    rw [proc_setProc, hholds, ← h.lock c j]
    split_ifs with hj
    · simp [hj]
    · rw [hlocks]
      simp [hj]
  · intro p
    rw [proc_setProc]
    split_ifs with hp
    · subst hp
      cases hupdate p with
      | same hstate hcontext => exact .same hstate hcontext
      | wake hold hstate hcontext => exact .wake hold hstate hcontext
      | born hold hstate hcontext => exact .born hold hstate hcontext
      | free hold hstate => exact .free hold hstate
      | dies hleaves hstate => exact .dies hleaves hstate
    · exact hupdate p
  · intro p hold hnew
    rw [setProc_part Proc.state rfl] at hnew
    rw [hfree p hold hnew, hholds]
    exact ⟨hlock, fun hj => hj.2 rfl⟩

/-- Release the lock of slot `i` with the processes as they are. -/
theorem Ok.release_only (h : w.Ok) (hpc : (w.cpu c).live.pc = pc₀)
    (hnext : w.release c i pc = some w') (hfits : pc.fits (w.cpu c).live.stack)
    (hholds : ∀ j, pc.holds j ↔ pc₀.holds j ∧ j ≠ i := by simp [Pc.holds])
    (hback : pc.back = pc₀.back := by rfl) (hexit : ∀ p, pc₀ ≠ .exitSched p := by simp) :
    w.Turns w' :=
  h.release hpc hnext rfl (fun _ => rfl) (fun p => .refl p _) (fun _ hold hnew => absurd hold hnew)
    hfits hholds hback hexit

/-- Update the process in slot `i` and release its lock. -/
theorem Ok.release_setProc {f : Proc → Proc} (h : w.Ok) (hpc : (w.cpu c).live.pc = pc₀)
    (hnext : (w.setProc i f).release c i pc = some w')
    (hlock : (f (w.proc i)).lock = (w.proc i).lock)
    (hupdate : Update (w.Leaves c pc i) i (w.proc i) (f (w.proc i)))
    (hfits : pc.fits (w.cpu c).live.stack)
    (hholds : ∀ j, pc.holds j ↔ pc₀.holds j ∧ j ≠ i := by simp [Pc.holds])
    (hback : pc.back = pc₀.back := by rfl) (hexit : ∀ p, pc₀ ≠ .exitSched p := by simp) :
    w.Turns w' := by
  refine h.release hpc hnext rfl (setProc_part Proc.lock hlock) ?_ ?_ hfits hholds hback hexit
  · intro p
    rw [proc_setProc]
    split_ifs with hp
    · subst hp
      exact hupdate
    · exact .refl p _
  · intro p hold hnew
    by_contra hp
    rw [proc_setProc, if_neg hp] at hnew
    exact hnew hold

theorem update_wakeup (p : Nat) (pr : Proc) (q : Prop) [Decidable q] (hq : q → pr.state = .sleeping) :
    Update leaves p pr (if q then { pr with state := .runnable } else pr) := by
  split_ifs with h
  · exact .wake (hq h) rfl rfl
  · exact .refl p pr

/-! ## Context switches -/

theorem sched_cases {back : Pc} (hnext : w.sched c back = some w') :
    ∃ p, (w.cpu c).proc = some p ∧ (∀ d ≠ c, w'.cpu d = w.cpu d) ∧
      w'.cpu c = { w.cpu c with live := (w.cpu c).context } ∧
      w'.proc p = { w.proc p with context := ⟨(w.cpu c).live.stack, back⟩ } ∧
      ∀ q ≠ p, w'.proc q = w.proc q := by
  unfold World.sched at hnext
  split at hnext
  · cases hnext
  · next p hproc =>
    split_ifs at hnext
    cases hnext
    refine ⟨p, hproc, ?_, ?_, ?_, ?_⟩
    · intro d hd
      rw [cpu_setCpu, if_neg hd]
      rfl
    · rw [cpu_setCpu, if_pos rfl]
      rfl
    · rw [proc_setCpu, proc_setProc, if_pos rfl]
    · intro q hq
      rw [proc_setCpu, proc_setProc, if_neg hq]

/-- A process leaves the processor, after its own state was updated. -/
theorem Ok.swtchOut {back : Pc} (h : w.Ok) (hnext : w₁.sched c back = some w')
    (hstack : (w.cpu c).live.stack = some p) (hholds : ∀ i, (w.cpu c).live.pc.holds i ↔ i = p)
    (hcpu : w₁.cpu = w.cpu) (hlock : (w₁.proc p).lock = (w.proc p).lock)
    (hother : ∀ q ≠ p, w₁.proc q = w.proc q)
    (hzombie : (w.proc p).state = .zombie → (w₁.proc p).state = .zombie)
    (hsaved : (w₁.proc p).state = .runnable ∨ (w₁.proc p).state = .sleeping →
      Context.Saved ⟨some p, back⟩ p) : w.Turns w' := by
  obtain ⟨hproc, hcontext, -⟩ := h.run c p hstack
  obtain ⟨p', hp', hcpus, hself, hprocp, hprocs⟩ := sched_cases hnext
  rw [hcpu, hproc] at hp'
  cases hp'
  rw [hcpu, hstack] at hprocp
  rw [hcpu, hcontext] at hself
  have hlocks : ∀ i, (w'.proc i).lock = (w.proc i).lock := by
    intro i
    by_cases hi : i = p
    · rw [hi, hprocp]
      exact hlock
    · rw [hprocs i hi, hother i hi]
  refine h.step (c := c) ?_ ?_ ?_ ?_ ?_ ?_ ?_ ?_ ?_ ?_ ?_
  · intro d hd
    rw [hcpus d hd, hcpu]
  · intro d i _
    rw [hlocks]
  · intro d q hd hq
    have hqp : q ≠ p := by
      rintro rfl
      exact hd (h.one d c q (h.run d q hq).1 hproc)
    rw [hprocs q hqp, hother q hqp]
  · rw [hself]
    rfl
  · intro i
    rw [hself, hlocks, h.lock c i]
    exact hholds i
  · rw [hself]
    intro _
    exact hproc
  · rw [hself]
    intro q hq
    cases hq
  · intro q hq
    by_cases hqp : q = p
    · subst hqp
      rw [hprocp] at hq ⊢
      exact hsaved hq
    · rw [hprocs q hqp, hother q hqp] at hq ⊢
      exact h.saved q hq
  · rw [hself]
    intro d q hd hq hdq
    exact hd (h.one d c q hdq hq)
  · rw [hself]
    intro q _ hq
    cases hq
  · intro q hold hnew
    by_cases hqp : q = p
    · subst hqp
      rw [hprocp] at hnew
      exact absurd (hzombie hold) hnew
    · rw [hprocs q hqp, hother q hqp] at hnew
      exact absurd hold hnew

/-- A process that gives up the processor to be resumed at `back`. -/
theorem Ok.giveUp {back : Pc} {f : Proc → Proc} (h : w.Ok) (hpc : (w.cpu c).live.pc = pc)
    (hnext : (w.setProc p f).sched c back = some w') (hstack : (w.cpu c).live.stack = some p)
    (hholds : ∀ i, pc.holds i ↔ i = p) (hexit : pc ≠ .exitSched p)
    (hlock : (f (w.proc p)).lock = (w.proc p).lock) (hsaved : Context.Saved ⟨some p, back⟩ p) :
    w.Turns w' := by
  refine h.swtchOut hnext hstack (by rw [hpc]; exact hholds) rfl ?_ ?_ ?_ fun _ => hsaved
  · rw [proc_setProc, if_pos rfl]
    exact hlock
  · intro q hq
    rw [proc_setProc, if_neg hq]
  · intro hzombie
    exact absurd hzombie (h.not_zombie hpc hstack hexit)

/-- The scheduler switches to the process it has locked. -/
theorem Ok.swtchTo (h : w.Ok) (hpc : (w.cpu c).live.pc = .schedulerLocked i)
    (hstate : (w.proc i).state = .runnable) : w.Turns (w.swtchTo c i) := by
  have hlock : (w.proc i).lock = some c := (h.lock c i).mpr (by rw [hpc]; rfl)
  have hstack : (w.cpu c).live.stack = none := by
    have hfits := h.fits c
    rw [hpc] at hfits
    exact hfits
  have hsaved := h.saved i (.inl hstate)
  have halone := h.alone hlock (by rw [hstate]; simp) (by rw [hpc]; simp) (by rw [hpc]; simp)
  have hself : (w.swtchTo c i).cpu c = ⟨some i, ⟨none, .schedulerBack i⟩, (w.proc i).context⟩ := by
    rw [World.swtchTo, cpu_setCpu, if_pos rfl, ← hstack]
    rfl
  have hprocs : ∀ q, (w.swtchTo c i).proc q =
      if q = i then { w.proc i with state := .running } else w.proc q := by
    intro q
    rw [World.swtchTo, proc_setCpu, proc_setProc]
  have hlocks : ∀ q, ((w.swtchTo c i).proc q).lock = (w.proc q).lock := by
    rw [World.swtchTo, proc_setCpu]
    exact setProc_part Proc.lock rfl
  refine h.step (c := c) ?_ ?_ ?_ ?_ ?_ ?_ ?_ ?_ ?_ ?_ ?_
  · intro d hd
    rw [World.swtchTo, cpu_setCpu, if_neg hd]
    rfl
  · intro d q _
    rw [hlocks]
  · intro d q _ hq
    have hqi : q ≠ i := by
      rintro rfl
      exact (halone d).1 hq
    rw [hprocs, if_neg hqi]
  · rw [hself, hsaved.stack]
    exact hsaved.fits
  · intro q
    rw [hself, hlocks, h.lock c q, hpc, hsaved.holds]
    rfl
  · rw [hself, hsaved.stack]
    intro hf
    cases hf
  · rw [hself, hsaved.stack]
    intro q hq
    cases hq
    refine ⟨rfl, rfl, .inl ?_⟩
    rw [hprocs, if_pos rfl]
  · intro q hq
    rw [hprocs] at hq ⊢
    split_ifs at hq ⊢ with hqi
    · rcases hq with hq | hq <;> cases hq
    · exact h.saved q hq
  · rw [hself]
    intro d q _ hq
    cases hq
    exact (halone d).2
  · rw [hself, hsaved.stack]
    intro q _ hq
    cases hq
    exact ⟨hstate, halone⟩
  · intro q hold hnew
    rw [hprocs] at hnew
    split_ifs at hnew with hqi
    · rw [hqi, hstate] at hold
      cases hold
    · exact absurd hold hnew

/-- The scheduler is back from a process and releases it. -/
theorem Ok.swtchBack (h : w.Ok) (hpc : (w.cpu c).live.pc = .schedulerBack i)
    (hnext : (w.setCpu c fun cpu => { cpu with proc := none }).release c i (.scheduler (i + 1)) =
      some w') : w.Turns w' := by
  have hlock : (w.proc i).lock = some c := (h.lock c i).mpr (by rw [hpc]; rfl)
  have hstack : (w.cpu c).live.stack = none := by
    have hfits := h.fits c
    rw [hpc] at hfits
    exact hfits
  unfold World.release at hnext
  split_ifs at hnext
  have hw := Option.some.inj hnext
  have hcpus : ∀ d ≠ c, w'.cpu d = w.cpu d := by
    intro d hd
    rw [← hw, World.goto, cpu_setCpu, if_neg hd, cpu_setProc, cpu_setCpu, if_neg hd]
  have hself : w'.cpu c = ⟨none, (w.cpu c).context, ⟨none, .scheduler (i + 1)⟩⟩ := by
    rw [← hw, World.goto, cpu_setCpu, if_pos rfl, cpu_setProc, cpu_setCpu, if_pos rfl]
    dsimp only
    rw [hstack]
  have hprocs : ∀ q, w'.proc q = if q = i then { w.proc i with lock := none } else w.proc q := by
    intro q
    rw [← hw, proc_goto, proc_setProc, proc_setCpu]
  have hsame : ∀ q, (w'.proc q).state = (w.proc q).state ∧
      (w'.proc q).context = (w.proc q).context := by
    intro q
    rw [← hw, proc_goto]
    exact ⟨setProc_part Proc.state rfl q, setProc_part Proc.context rfl q⟩
  refine h.step (c := c) hcpus ?_ (fun d q _ _ => (hsame q).1) ?_ ?_ ?_ ?_ ?_ ?_ ?_ ?_
  · intro d q hd
    rw [hprocs]
    split_ifs with hq
    · subst hq
      rw [hlock]
      exact ⟨fun hf => absurd hf (by simp), fun hc => absurd (Option.some.inj hc).symm hd⟩
    · rfl
  · rw [hself]
    rfl
  · intro q
    rw [hprocs, hself]
    split_ifs with hq
    · exact ⟨fun hf => absurd hf (by simp), fun hf => hf.elim⟩
    · rw [h.lock c q, hpc]
      exact ⟨fun hf => hq hf, fun hf => hf.elim⟩
  · rw [hself]
    intro _
    rfl
  · rw [hself]
    intro q hq
    cases hq
  · intro q hq
    rw [(hsame q).1] at hq
    rw [(hsame q).2]
    exact h.saved q hq
  · rw [hself]
    intro d q _ hq
    cases hq
  · rw [hself]
    intro q _ hq
    cases hq
  · intro q hold hnew
    exact absurd ((hsame q).1.trans hold) hnew

theorem state_exitBody_zombie {q original_parent : Nat} {status : Int}
    (h : (w.proc q).state = .zombie) :
    ((w.exitBody p status original_parent).proc q).state = .zombie := by
  rw [exitBody, proc_setProc]
  split_ifs with hq
  · rfl
  · rw [wakeup1, proc_setProc]
    split_ifs with hqo hs
    · subst hqo
      exact absurd (h.symm.trans hs.2) (by simp)
    · subst hqo
      exact h
    · exact h

/-- `exit` makes the process a zombie and releases its parent. -/
theorem Ok.exitBody {original_parent : Nat} {status : Int} (h : w.Ok)
    (hpc : (w.cpu c).live.pc = .reparent p status original_parent i)
    (hnext : (w.exitBody p status original_parent).release c original_parent (.exitSched p) =
      some w') : w.Turns w' := by
  obtain ⟨hstack, hne⟩ : (w.cpu c).live.stack = some p ∧ p ≠ original_parent := by
    have hfits := h.fits c
    rw [hpc] at hfits
    exact hfits
  refine h.release hpc hnext rfl ?_ ?_ ?_ hstack ?_
  · exact fun q => (setProc_part Proc.lock rfl q).trans (setProc_part Proc.lock (by split_ifs <;> rfl) q)
  · intro q
    rw [World.exitBody, proc_setProc]
    split_ifs with hq
    · subst hq
      exact .dies ⟨hstack, rfl⟩ rfl
    · rw [World.wakeup1, proc_setProc]
      split_ifs with hqo
      · subst hqo
        exact .wake (by tauto) rfl rfl
      · subst hqo
        exact .refl q _
      · exact .refl q _
  · intro q hzombie hnew
    exact absurd (state_exitBody_zombie hzombie) hnew
  · intro j
    constructor
    · rintro rfl
      exact ⟨.inl rfl, hne⟩
    · rintro ⟨hj | hj, hjo⟩
      · exact hj
      · exact absurd hj hjo

/-! ## The body of `fork` -/

theorem proc_forkBody (w : World) (p : Nat) {q : Nat} (alloc : Alloc) (hq : q ≠ i) :
    (w.forkBody p i alloc).proc q = w.proc q := by
  cases alloc <;> simp [forkBody, freeproc, proc_setProc, hq]

theorem update_forkBody (p i : Nat) (alloc : Alloc) (hunused : (w.proc i).state = .unused) :
    Update leaves i (w.proc i) ((w.forkBody p i alloc).proc i) := by
  cases alloc with
  | noTrapframe => exact .same (by simp [forkBody, proc_setProc]) (by simp [forkBody, proc_setProc])
  | noPagetable | noMemory =>
    exact .free (.inl hunused) (by simp [forkBody, freeproc, proc_setProc])
  | ok =>
    exact .born hunused (by simp [forkBody, proc_setProc]) (by simp [forkBody, proc_setProc])

theorem fits_user {stack : Option Nat} (h : stack = some p) : Pc.user.fits stack := by
  rw [h]
  exact Option.some_ne_none p

theorem quiet_back (h : pc.quiet = true) : pc.back = none := by
  cases pc <;> first | rfl | cases h

theorem quiet_holds (h : pc.quiet = true) (i : Nat) : ¬pc.holds i := by
  cases pc <;> first | exact id | cases h

theorem quiet_ne (h : pc.quiet = true) (p : Nat) : pc ≠ .exitSched p := by
  rintro rfl
  cases h

theorem Ok.on_stack (h : w.Ok) (hproc : (w.cpu c).proc = some p)
    (hquiet : (w.cpu c).live.pc.quiet = true) : (w.cpu c).live.stack = some p := by
  rcases h.current hproc with hstack | ⟨-, hback⟩
  · exact hstack
  · rw [hback] at hquiet
    cases hquiet

/-! ## The turns -/

theorem Ok.run_next {alloc : Alloc} {copied : Bool} (h : w.Ok)
    (hnext : w.run c alloc copied = some w') : w.Turns w' := by
  have hfits := h.fits c
  unfold World.run at hnext
  generalize hpc : (w.cpu c).live.pc = pc at hnext hfits
  cases pc <;> dsimp only at hnext
  case user =>
    cases hnext
  case zombieExit =>
    cases hnext
  case forkret p =>
    rw [(h.run c p hfits).1] at hnext
    exact h.release_only hpc hnext (fits_user hfits)
  case wakeup chan i ret =>
    split_ifs at hnext
    · exact h.acquire hpc hnext fun _ => hfits
    · cases hnext
      refine h.move hpc hfits.2 (fun i => ?_) (quiet_back hfits.1)
      exact ⟨fun hi => absurd hi (quiet_holds hfits.1 i), fun hi => hi.elim⟩
  case wakeupLocked chan i ret =>
    refine h.release_setProc hpc hnext ?_ ?_ hfits
    · split_ifs <;> rfl
    · exact update_wakeup i _ _ fun hs => hs.1
  case yield p ret | sleep p chan | exitInit p status | exitParent p status |
      exitLockParent p status original_parent | waitLock p addr =>
    exact h.acquire hpc hnext fun _ => hfits
  case yieldLocked p ret =>
    refine h.giveUp hpc hnext hfits.1 (fun i => Iff.rfl) (by simp) rfl ?_
    exact ⟨rfl, ⟨rfl, hfits.2.1, hfits.1 ▸ hfits.2.2⟩, fun i => Iff.rfl, by simp⟩
  case yieldBack p ret =>
    refine h.release_only hpc hnext hfits.2.2 (fun j => ?_) (quiet_back hfits.2.1)
    exact ⟨fun hj => absurd hj (quiet_holds hfits.2.1 j), fun hj => absurd hj.1 hj.2⟩
  case sleepLocked p chan =>
    exact h.giveUp hpc hnext hfits (fun i => Iff.rfl) (by simp) rfl
      ⟨rfl, rfl, fun i => Iff.rfl, by simp⟩
  case sleepBack p =>
    exact h.release_setProc hpc hnext rfl (.same rfl rfl) (fits_user hfits)
  case kill pid i | scheduler i =>
    split_ifs at hnext
    · exact h.acquire hpc hnext fun _ => hfits
    · cases hnext
      exact h.move hpc hfits
  case killLocked pid i =>
    split_ifs at hnext
    · refine h.release_setProc hpc hnext rfl ?_ hfits
      by_cases hs : (w.proc i).state = .sleeping
      · exact .wake hs (if_pos hs) rfl
      · exact .same (if_neg hs) rfl
    · exact h.release_only hpc hnext hfits
  case allocproc p i =>
    split_ifs at hnext
    · exact h.acquire hpc hnext fun _ => hfits
    · cases hnext
      exact h.move hpc (fits_user hfits)
  case allocprocLocked p i =>
    split_ifs at hnext with hunused
    · refine h.release hpc hnext ?_ ?_ ?_ ?_ ?_
      · cases alloc <;> rfl
      · intro q
        by_cases hq : q = i
        · rw [hq]
          cases alloc <;> simp [forkBody, freeproc, proc_setProc]
        · rw [proc_forkBody w p alloc hq]
      · intro q
        by_cases hq : q = i
        · rw [hq]
          exact update_forkBody p i alloc hunused
        · rw [proc_forkBody w p alloc hq]
          exact .refl q _
      · intro q hzombie hnew
        by_contra hq
        rw [proc_forkBody w p alloc hq] at hnew
        exact hnew hzombie
      · exact fits_user hfits
    · exact h.release_only hpc hnext hfits
  case exitInitLocked p status =>
    refine h.release_setProc hpc hnext ?_ ?_ hfits
    · split_ifs <;> rfl
    · exact update_wakeup _ _ _ fun hs => hs.2
  case exitParentLocked p status =>
    split at hnext
    · exact h.release_only hpc hnext hfits
    · cases hnext
  case exitLock p status original_parent =>
    exact h.acquire hpc hnext (fun hnot => ⟨hfits, hnot⟩) (by simp [Pc.holds, or_comm])
  case reparent p status original_parent i =>
    split_ifs at hnext
    · cases hnext
      exact h.move hpc hfits
    · cases hnext
      exact h.move hpc hfits
    · exact h.exitBody hpc hnext
  case reparentLock p status original_parent i =>
    refine h.acquire hpc hnext (fun hnot => ?_) (by simp [Pc.holds, or_assoc])
    simp only [Pc.holds, not_or] at hnot
    exact ⟨hfits.1, hfits.2, hnot.1, hnot.2⟩
  case reparentLocked p status original_parent i =>
    obtain ⟨hstack, hne, hip, hio⟩ := hfits
    refine h.release_setProc hpc hnext rfl (.same rfl rfl) ⟨hstack, hne⟩ ?_
    intro j
    simp only [Pc.holds]
    constructor
    · rintro (rfl | rfl)
      · exact ⟨.inl rfl, hip.symm⟩
      · exact ⟨.inr (.inl rfl), hio.symm⟩
    · tauto
  case exitSched p =>
    refine h.swtchOut hnext hfits (by simp [hpc, Pc.holds]) rfl rfl (fun _ _ => rfl) id fun hs => ?_
    rcases (h.run c p hfits).2.2 with hrun | ⟨hzombie, -⟩
    · rw [hrun] at hs
      rcases hs with hs | hs <;> cases hs
    · rw [hzombie] at hs
      rcases hs with hs | hs <;> cases hs
  case wait p addr havekids i =>
    split_ifs at hnext
    · cases hnext
      exact h.move hpc hfits
    · cases hnext
      exact h.move hpc hfits
    · exact h.release_only hpc hnext (fits_user hfits)
    · exact h.giveUp hpc hnext hfits (fun i => Iff.rfl) (by simp) rfl
        ⟨rfl, rfl, fun i => Iff.rfl, by simp⟩
  case waitLockChild p addr i =>
    exact h.acquire hpc hnext fun hnot => ⟨hfits, hnot⟩
  case waitLocked p addr i =>
    obtain ⟨hstack, hne⟩ := hfits
    have hdone : ∀ j, j = p ↔ (j = p ∨ j = i) ∧ j ≠ i := by
      intro j
      constructor
      · rintro rfl
        exact ⟨.inl rfl, hne.symm⟩
      · tauto
    split_ifs at hnext with hzombie hcopied
    · exact h.release_only hpc hnext hstack hdone
    · exact h.release_setProc hpc hnext rfl (.free (.inr hzombie) rfl) hstack hdone
    · exact h.release_only hpc hnext hstack hdone
  case waitDone p =>
    exact h.release_only hpc hnext (fits_user hfits)
  case waitBack p addr =>
    cases hnext
    refine h.goto rfl ?_ ?_ ?_ ?_ (by simp [hpc]) (by simp [hpc, Pc.back]) hfits
    · intro d q _
      rw [setProc_part Proc.lock rfl]
    · intro q
      rw [setProc_part Proc.lock rfl, h.lock c q, hpc]
      rfl
    · exact fun q => .same (setProc_part Proc.state rfl q) (setProc_part Proc.context rfl q)
    · exact fun q hold hnew => absurd ((setProc_part Proc.state rfl q).trans hold) hnew
  case schedulerLocked i =>
    split_ifs at hnext with hrunnable
    · cases hnext
      exact h.swtchTo hpc hrunnable
    · exact h.release_only hpc hnext hfits
  case schedulerBack i =>
    exact h.swtchBack hpc hnext

theorem Ok.next {e : Event} (h : w.Ok) (hnext : next e w = some w') : w.Turns w' := by
  cases e with
  | call c call =>
    simp only [World.next] at hnext
    split at hnext
    · next p hproc =>
      split_ifs at hnext with hpc
      have hstack := h.on_stack hproc (by rw [hpc]; rfl)
      obtain ⟨pc, hentry, rfl⟩ := Option.map_eq_some_iff.mp hnext
      cases call with
      | exit status =>
        simp only [entry] at hentry
        split_ifs at hentry
        cases hentry
        exact h.move hpc hstack
      | kill pid =>
        cases hentry
        exact h.move hpc (fits_user hstack)
      | fork | wait addr =>
        cases hentry
        exact h.move hpc hstack
    · cases hnext
  | sleep c chan =>
    simp only [World.next] at hnext
    split at hnext
    · next p hproc =>
      split_ifs at hnext with hpc
      cases hnext
      exact h.move hpc (h.on_stack hproc (by rw [hpc]; rfl))
    · cases hnext
  | timer c =>
    simp only [World.next] at hnext
    split at hnext
    · next p hproc =>
      split_ifs at hnext with hquiet
      cases hnext
      refine h.move rfl ⟨h.on_stack hproc hquiet, hquiet, h.fits c⟩ ?_ (quiet_back hquiet).symm
        (quiet_ne hquiet)
      exact fun i => ⟨fun hi => hi.elim, fun hi => absurd hi (quiet_holds hquiet i)⟩
    · cases hnext
  | intr c chan =>
    simp only [World.next] at hnext
    split_ifs at hnext with hquiet
    cases hnext
    refine h.move rfl ⟨hquiet, h.fits c⟩ ?_ (quiet_back hquiet).symm (quiet_ne hquiet)
    exact fun i => ⟨fun hi => hi.elim, fun hi => absurd hi (quiet_holds hquiet i)⟩
  | run c alloc copied => exact h.run_next hnext

theorem start_ok : start.Ok := by
  refine ⟨?_, ?_, ?_, ?_, ?_, ?_⟩
  · intro c
    rfl
  · intro c i
    exact ⟨fun hf => absurd hf (by simp [start]), fun hf => hf.elim⟩
  · intro c _
    rfl
  · intro c p hf
    exact absurd hf (by simp [start])
  · intro p _
    exact ⟨rfl, rfl, fun i => Iff.rfl, by simp [start]⟩
  · intro c d p hf
    exact absurd hf (by simp [start])

end World

end Xv6.Smp
