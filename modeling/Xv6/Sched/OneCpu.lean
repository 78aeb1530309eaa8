import Xv6.Sched.Switch

/-!
# One processor per process

A process runs on at most one processor, a processor switches only to a
process that it found runnable, and `wait` frees a process only when no
processor is on its stack any more.

`Safe` says this of a state and of every step from it. It follows from the
invariant: each turn of the code is `Turns`, for which the processor holds the
lock of a process that is not running, and `Ok.alone` then says that no
processor is on it.
-/

namespace Xv6.Smp

open Xv6.Lib.Trans
open Xv6.Sched (PState Chan Alloc Call initproc)

namespace World

/-- **One processor per process, and no freeing under a running thread.**  In
this state no process is current on two processors; the next step, whichever
it is, switches only to a process that is runnable (so not to a zombie or a
free slot) and that no processor is on; and it turns a zombie into a free slot
only when no processor is on the stack of that process or has it as its
current process. -/
structure Safe (w : World) : Prop where
  one : ∀ c d p, (w.cpu c).proc = some p → (w.cpu d).proc = some p → c = d
  swtch : ∀ e w' c p, next e w = some w' → (w.cpu c).live.stack ≠ some p →
    (w'.cpu c).live.stack = some p →
    (w.proc p).state = .runnable ∧
      ∀ d, (w.cpu d).live.stack ≠ some p ∧ (w.cpu d).proc ≠ some p
  free : ∀ e w' p, next e w = some w' → (w.proc p).state = .zombie →
    (w'.proc p).state ≠ .zombie →
    ∀ d, (w.cpu d).live.stack ≠ some p ∧ (w.cpu d).proc ≠ some p

variable {w : World}

theorem Ok.safe (h : w.Ok) : w.Safe where
  one := h.one
  swtch := fun _ _ c p hnext => (h.next hnext).swtch c p
  free := fun _ _ p hnext => (h.next hnext).free p

/-- In every state that any number of processors reach, a process has at most
one of them, is switched to only when it is runnable and freed by `wait` only
when no processor is on it. -/
theorem one_cpu_per_process (h : Reach next (fun _ _ => True) start w) : w.Safe :=
  (h.invariant start_ok fun _ _ _ hok _ hnext => (hok.next hnext).ok).safe

/-- The first processor runs the first process, and the second one looks at it. -/
def twoLook : List Event :=
  [.run 0 .ok true, .run 0 .ok true, .run 0 .ok true, .run 1 .ok true]

theorem one_cpu_per_process_two : ∃ w, Reach next (fun _ _ => True) start w ∧
    (w.cpu 0).live.stack = some 0 ∧ (w.cpu 1).live.pc = .schedulerLocked 0 ∧ w.Safe := by
  have hrun : ((follow next (fun _ _ => true) twoLook start).any fun w =>
      (w.cpu 0).live.stack = some 0 ∧ (w.cpu 1).live.pc = .schedulerLocked 0) = true := by
    decide +kernel
  obtain ⟨w, hreach, hfact⟩ := Reach.of_any hrun
  have hfact' : (w.cpu 0).live.stack = some 0 ∧ (w.cpu 1).live.pc = .schedulerLocked 0 := by
    simpa using hfact
  exact ⟨w, hreach, hfact'.1, hfact'.2, one_cpu_per_process hreach⟩

end World

end Xv6.Smp
