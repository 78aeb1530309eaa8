import Xv6.Lib.Trans
import Xv6.Sleep.Model

/-!
# No wakeup is lost

A process that finds its condition false sleeps, and who makes the condition
true calls `wakeup` under the same lock. Between the two the sleeper has given
up `lk` and is not yet `SLEEPING`; it holds its own `p->lock` there, for which
`wakeup` waits.

`Local` is what each thread can say of itself from where it is, and `Frame`
what the steps of others leave of it. `NoLost` is the invariant that joins the
threads: while the condition holds, whoever has gone past the release of `lk`
in `sleep` still has the holder of `lk` coming in its `wakeup`.

A client comes with an `Outline`: an invariant of the shared state and an
assertion before each instruction, in the manner of Owicki and Gries. That a
client wakes up its sleepers is one of the conditions on an outline. `Wakes`
is the simple case in which a `wakeup` follows at once on the update that calls
for it.
-/

namespace Xv6.Sleep

open Xv6.Lib.Trans

variable {S : Type} {c : Client S} {s₀ : S} {n : Nat}

/-! ## Outlines -/

/-- The code that a process can have left while it is without `lk`. -/
def Outer (c : Client S) (p : Nat) (code : List (Instr S)) : Prop :=
  (∃ op, code = c.code p op) ∨ ∃ rest, code = .wait :: rest

structure Outline (c : Client S) (s₀ : S) where
  inv : S → Prop
  /-- Holds where process `p` has `code` left. -/
  pre : Nat → List (Instr S) → S → Prop
  /-- A `wakeup` is still to come before `lk` is released. -/
  owes : List (Instr S) → Prop
  start : inv s₀
  call : ∀ {p op s}, inv s → c.ready p op s = true → pre p (c.code p op) s
  wait : ∀ {p code s}, inv s → pre p (.wait :: code) s → c.cond s = true → pre p code s
  set : ∀ {p f code s s' b}, inv s → pre p (.set f :: code) s → f s = some (s', b) →
    inv s' ∧ pre p code s'
  /-- Who makes the condition true calls `wakeup`. -/
  wakes : ∀ {p f code s s' b}, inv s → pre p (.set f :: code) s → f s = some (s', b) →
    c.cond s = false ∧ c.cond s' = true ∨ owes (.set f :: code) → b = true ∨ owes code
  owes_nil : ¬owes []
  owes_wait : ∀ {code}, ¬owes (.wait :: code)
  /-- Updates spare the assertions of the processes without the lock. -/
  stable : ∀ {p f code s s' b q code'}, inv s → pre p (.set f :: code) s → f s = some (s', b) →
    q ≠ p → Outer c q code' → pre q code' s → pre q code' s'
  free : ∀ {p f s s'}, inv s → c.free p f s = some s' →
    inv s' ∧ (c.cond s = false → c.cond s' = false) ∧ ∀ q code, pre q code s → pre q code s'

/-! ## Places -/

namespace Pc

/-- The thread holds `lk`. -/
def holds : Pc S → Bool
  | .run _ | .wakeLock .. | .wakeTest .. | .wakeUnlock .. | .sleepLock _ | .sleepRelease _ => true
  | _ => false

/-- The thread holds its own `p->lock`. -/
def ownLock : Pc S → Bool
  | .sleepRelease _ | .sleepChan _ | .sleepState _ | .sched _ | .tidy _ | .sleepUnlock _ => true
  | _ => false

/-- The process whose lock `wakeup` has taken. -/
def target : Pc S → Option Nat
  | .wakeTest j _ | .wakeUnlock j _ => some j
  | _ => none

def stateOk : Pc S → State → Prop
  | .sched _, state => state = .sleeping
  | .off _, state => state ≠ .running
  | _, state => state = .running

/-- `p->chan` is set. -/
def onChan : Pc S → Bool
  | .sleepState _ | .sched _ | .off _ => true
  | _ => false

/-- The thread has seen its condition to be false. -/
def tested : Pc S → Bool
  | .sleepLock _ | .sleepRelease _ => true
  | _ => false

def code? : Pc S → Option (List (Instr S))
  | .idle => none
  | .acquire code | .run code | .wakeLock _ code | .wakeTest _ code | .wakeUnlock _ code
  | .sleepLock code | .sleepRelease code | .sleepChan code | .sleepState code | .sched code
  | .off code | .tidy code | .sleepUnlock code => some code

/-- The thread will still look at process `q` in its `wakeup`. -/
def wakes (owes : List (Instr S) → Prop) (q : Nat) : Pc S → Prop
  | .run code => owes code
  | .wakeLock j _ | .wakeTest j _ => j ≤ q
  | .wakeUnlock j _ => j < q
  | _ => False

/-- Past the release of `lk` in `sleep`, and not woken up. -/
def falls : Pc S → State → Prop
  | .sleepChan _, _ | .sleepState _, _ | .sched _, _ => True
  | .off _, state => state = .sleeping
  | _, _ => False

end Pc

namespace World

/-- What process `p` knows from where it is. -/
structure Local (O : Outline c s₀) (n : Nat) (w : World S) (p : Nat) : Prop where
  slot : (w.proc p).pc.code?.isSome = true → p < n
  holds : (w.proc p).pc.holds = true ↔ w.lk = some p
  own : (w.proc p).pc.ownLock = true → (w.proc p).lock = some (.thread p)
  target : ∀ j, (w.proc p).pc.target = some j → (w.proc j).lock = some (.thread p)
  state : (w.proc p).pc.stateOk (w.proc p).state
  chan : (w.proc p).pc.onChan = true → (w.proc p).chan = true
  tested : (w.proc p).pc.tested = true → c.cond w.shared = false
  code : ∀ code, (w.proc p).pc.code? = some code →
    O.pre p code w.shared ∧
      ((w.proc p).pc.holds = false ∨ (w.proc p).pc.tested = true → Outer c p code)

/-- What an event leaves alone of process `q`. -/
structure Frame (O : Outline c s₀) (w w' : World S) (q : Nat) : Prop where
  pc : (w'.proc q).pc = (w.proc q).pc
  chan : (w'.proc q).chan = (w.proc q).chan
  state : (w'.proc q).state = (w.proc q).state ∨
    (w.proc q).lock ≠ some (.thread q) ∧ (w.proc q).state = .sleeping ∧
      (w'.proc q).state = .runnable
  locks : ∀ r, (w.proc r).lock = some (.thread q) → (w'.proc r).lock = some (.thread q)
  lk : w'.lk = some q ↔ w.lk = some q
  cond : w.lk = some q → c.cond w.shared = false → c.cond w'.shared = false
  pre : ∀ code, (w.lk ≠ some q → Outer c q code) → O.pre q code w.shared → O.pre q code w'.shared

variable {O : Outline c s₀} {w w1 w' : World S} {p q j : Nat}

theorem Local.frame (h : w.Local O n q) (f : w.Frame O w' q) : w'.Local O n q where
  slot hcode := by
    rw [f.pc] at hcode
    exact h.slot hcode
  holds := by rw [f.pc, f.lk, h.holds]
  own hown := by
    rw [f.pc] at hown
    exact f.locks q (h.own hown)
  target j hj := by
    rw [f.pc] at hj
    exact f.locks j (h.target j hj)
  state := by
    rw [f.pc]
    rcases f.state with hsame | ⟨hlock, hsleep, hrun⟩
    · rw [hsame]
      exact h.state
    · have hstate := h.state
      have hown := h.own
      rw [hsleep] at hstate
      rw [hrun]
      cases hpc : (w.proc q).pc <;> rw [hpc] at hstate hown <;>
        first
        | exact absurd (hown rfl) hlock
        | exact State.noConfusion
        | exact State.noConfusion hstate
  chan hon := by
    rw [f.pc] at hon
    rw [f.chan]
    exact h.chan hon
  tested htested := by
    rw [f.pc] at htested
    refine f.cond (h.holds.mp ?_) (h.tested htested)
    cases hpc : (w.proc q).pc <;> rw [hpc] at htested <;> first | rfl | cases htested
  code code hcode := by
    rw [f.pc] at hcode ⊢
    obtain ⟨hpre, houter⟩ := h.code code hcode
    refine ⟨f.pre code (fun hlk => houter (.inl ?_)) hpre, houter⟩
    rw [← Bool.not_eq_true, h.holds]
    exact hlk

variable {pc : Pc S}

theorem Local.pre {code : List (Instr S)} (h : w.Local O n p)
    (hpc : (w.proc p).pc = pc) (hcode : pc.code? = some code := by rfl) : O.pre p code w.shared :=
  (h.code code (by rw [hpc, hcode])).1

theorem Local.running (h : w.Local O n p) (hpc : (w.proc p).pc = pc)
    (hrun : pc.stateOk = (· = .running) := by rfl) : (w.proc p).state = .running := by
  have hstate := h.state
  rwa [hpc, hrun] at hstate

theorem Local.lk (h : w.Local O n p) (hpc : (w.proc p).pc = pc)
    (hholds : pc.holds = true := by rfl) : w.lk = some p :=
  h.holds.mp (by rw [hpc, hholds])

theorem Local.not_lk (h : w.Local O n p) (hpc : (w.proc p).pc = pc)
    (hholds : pc.holds = false := by rfl) : w.lk ≠ some p := fun heq => by
  rw [← h.holds, hpc, hholds] at heq
  cases heq

theorem proc_setProc (w : World S) (i r : Nat) (f : Proc S → Proc S) :
    (w.setProc i f).proc r = if r = i then f (w.proc i) else w.proc r :=
  Function.update_apply _ _ _ _

/-! ### Events of others -/

theorem Frame.refl (O : Outline c s₀) (w : World S) (q : Nat) : w.Frame O w q :=
  ⟨rfl, rfl, .inl rfl, fun _ => id, Iff.rfl, fun _ => id, fun _ _ => id⟩

theorem frame_setProc {f : Proc S → Proc S} (hq : q ≠ p)
    (hf : (w.proc p).lock = some (.thread q) → (f (w.proc p)).lock = some (.thread q)) :
    w.Frame O (w.setProc p f) q where
  pc := by rw [proc_setProc, if_neg hq]
  chan := by rw [proc_setProc, if_neg hq]
  state := .inl (by rw [proc_setProc, if_neg hq])
  locks r hr := by
    rw [proc_setProc]
    split
    · rename_i heq
      rw [heq] at hr
      exact hf hr
    · exact hr
  lk := Iff.rfl
  cond _ := id
  pre _ _ := id

theorem goto_proc_self (w : World S) (p : Nat) (pc : Pc S) :
    (w.goto p pc).proc p = { w.proc p with pc } := by
  rw [goto, proc_setProc, if_pos rfl]

theorem goto_lock (w : World S) (p r : Nat) (pc : Pc S) :
    ((w.goto p pc).proc r).lock = (w.proc r).lock := by
  rw [goto, proc_setProc]
  split
  · rename_i heq
    rw [heq]
  · rfl

theorem Frame.goto (h : w.Frame O w1 q) (hq : q ≠ p) : w.Frame O (w1.goto p pc) q := by
  have hproc : ∀ r ≠ p, (w1.goto p pc).proc r = w1.proc r := fun r hr => by
    rw [World.goto, proc_setProc, if_neg hr]
  refine ⟨?_, ?_, ?_, fun r hr => ?_, h.lk, h.cond, h.pre⟩
  · rw [hproc q hq]
    exact h.pc
  · rw [hproc q hq]
    exact h.chan
  · rw [hproc q hq]
    exact h.state
  · rw [goto_lock]
    exact h.locks r hr

theorem frame_setLock {owner : Option Owner} (hlock : (w.proc j).lock ≠ some (.thread q)) :
    w.Frame O (w.setLock j owner) q where
  pc := by rw [setLock, proc_setProc]; split <;> simp_all
  chan := by rw [setLock, proc_setProc]; split <;> simp_all
  state := .inl (by rw [setLock, proc_setProc]; split <;> simp_all)
  locks r hr := by
    rw [setLock, proc_setProc, if_neg]
    · exact hr
    · rintro rfl
      exact hlock hr
  lk := Iff.rfl
  cond _ := id
  pre _ _ := id

theorem frame_wake {f : Proc S → Proc S} (hlock : (w.proc j).lock ≠ some (.thread q))
    (hf : (f (w.proc j)).pc = (w.proc j).pc ∧ (f (w.proc j)).chan = (w.proc j).chan ∧
      (f (w.proc j)).lock = (w.proc j).lock) (hstate : (f (w.proc j)).state = (w.proc j).state ∨
      (w.proc j).state = .sleeping ∧ (f (w.proc j)).state = .runnable) :
    w.Frame O (w.setProc j f) q := by
  by_cases hq : q = j
  · subst hq
    refine ⟨?_, ?_, ?_, fun r hr => ?_, Iff.rfl, fun _ => id, fun _ _ => id⟩
    · rw [proc_setProc, if_pos rfl, hf.1]
    · rw [proc_setProc, if_pos rfl, hf.2.1]
    · rw [proc_setProc, if_pos rfl]
      exact hstate.imp_right fun h => ⟨hlock, h⟩
    · rw [proc_setProc]
      split
      · rename_i heq
        rw [heq] at hr
        rw [hf.2.2]
        exact hr
      · exact hr
  · exact frame_setProc hq fun hlock => by rw [hf.2.2]; exact hlock

theorem frame_lk {x : Option Nat} (hx : x = some q ↔ w.lk = some q) :
    w.Frame O { w with lk := x } q :=
  ⟨rfl, rfl, .inl rfl, fun _ => id, hx, fun _ => id, fun _ _ => id⟩

theorem frame_step (hlocal : ∀ r, w.Local O n r) (hinv : O.inv w.shared)
    (hstep : w.step c n p = some w') (hq : q ≠ p) : w.Frame O w' q := by
  have hp := hlocal p
  have hlk : (w.proc p).pc.holds = true → ¬w.lk = some q := fun hh heq =>
    hq (Option.some.inj ((hp.holds.mp hh).symm.trans heq)).symm
  have hother : ∀ {i : Nat}, (w.proc i).lock = some (.thread p) →
      (w.proc i).lock ≠ some (.thread q) := fun hi heq => by
    rw [hi] at heq
    cases heq
    exact hq rfl
  have hnone : ∀ {i : Nat}, (w.proc i).lock = none → (w.proc i).lock ≠ some (.thread q) :=
    fun hi heq => by rw [hi] at heq; cases heq
  unfold step at hstep
  split at hstep
  case h_1 | h_14 => cases hstep
  case h_2 code hpc =>
    split_ifs at hstep with hfree
    cases hstep
    refine (frame_lk ?_).goto hq
    rw [hfree]
    exact ⟨fun heq => absurd (Option.some.inj heq).symm hq, fun heq => by cases heq⟩
  case h_3 hpc | h_10 code hpc =>
    cases hstep
    have hne := hlk (by rw [hpc]; rfl)
    exact (frame_lk (x := none) ⟨nofun, fun heq => absurd heq hne⟩).goto hq
  case h_4 code hpc =>
    split_ifs at hstep
    all_goals
      cases hstep
      exact (Frame.refl O w q).goto hq
  case h_5 f code hpc =>
    have hne := hlk (by rw [hpc]; rfl)
    have hshared : ∀ {s b}, f w.shared = some (s, b) → w.Frame O { w with shared := s } q :=
      fun hf => ⟨rfl, rfl, .inl rfl, fun _ => id, Iff.rfl, fun heq => absurd heq hne,
        fun code houter => O.stable hinv (hp.pre hpc) hf hq (houter hne)⟩
    split at hstep
    · cases hstep
    all_goals
      rename_i s hf
      cases hstep
      exact (hshared hf).goto hq
  case h_6 i code hpc =>
    split_ifs at hstep with hend hfree
    · cases hstep
      exact (Frame.refl O w q).goto hq
    · cases hstep
      exact (frame_setLock (hnone hfree)).goto hq
  case h_7 i code hpc =>
    have hlock := hother (hp.target i (by rw [hpc]; rfl))
    split_ifs at hstep with hsleep
    · cases hstep
      exact (frame_wake hlock ⟨rfl, rfl, rfl⟩ (.inr ⟨hsleep.1, rfl⟩)).goto hq
    · cases hstep
      exact (Frame.refl O w q).goto hq
  case h_8 i code hpc =>
    cases hstep
    exact (frame_setLock (hother (hp.target i (by rw [hpc]; rfl)))).goto hq
  case h_9 code hpc =>
    split_ifs at hstep with hfree
    cases hstep
    exact (frame_setLock (hnone hfree)).goto hq
  case h_11 code hpc | h_12 code hpc | h_15 code hpc =>
    cases hstep
    exact (frame_setProc hq id).goto hq
  case h_13 code hpc | h_16 code hpc =>
    cases hstep
    exact (frame_setLock (hother (hp.own (by rw [hpc]; rfl)))).goto hq

/-! ### Own steps -/

theorem local_goto
    (hslot : pc.code?.isSome = true → p < n) (hholds : pc.holds = true ↔ w.lk = some p)
    (hown : pc.ownLock = true → (w.proc p).lock = some (.thread p))
    (htarget : ∀ j, pc.target = some j → (w.proc j).lock = some (.thread p))
    (hstate : pc.stateOk (w.proc p).state) (hchan : pc.onChan = true → (w.proc p).chan = true)
    (htested : pc.tested = true → c.cond w.shared = false) (hcode : ∀ code, pc.code? = some code →
      O.pre p code w.shared ∧ (pc.holds = false ∨ pc.tested = true → Outer c p code)) :
    (w.goto p pc).Local O n p := by
  constructor
  case target =>
    intro j hj
    rw [goto_proc_self] at hj
    rw [goto_lock]
    exact htarget j hj
  all_goals rw [goto_proc_self]
  case slot => exact hslot
  case holds => exact hholds
  case own => exact hown
  case state => exact hstate
  case chan => exact hchan
  case tested => exact htested
  case code => exact hcode

/-- A step to a place under `lk`. -/
theorem Local.under {pc pc' : Pc S} {code : List (Instr S)} (h : w.Local O n p)
    (hpc : (w.proc p).pc = pc) (hlk : w1.lk = some p)
    (hstate : (w1.proc p).state = (w.proc p).state) (hpre : O.pre p code w1.shared)
    (hown : pc'.ownLock = true → (w1.proc p).lock = some (.thread p) := by nofun)
    (htarget : ∀ j, pc'.target = some j → (w1.proc j).lock = some (.thread p) := by nofun)
    (htested : pc'.tested = true → c.cond w1.shared = false ∧ Outer c p code := by nofun)
    (hslot : pc.code?.isSome = true := by rfl) (hrun : pc.stateOk = (· = .running) := by rfl)
    (hcode : pc'.code? = some code := by rfl) (hholds : pc'.holds = true := by rfl) :
    (w1.goto p pc').Local O n p := by
  have hstate := hstate.trans (h.running hpc hrun)
  refine local_goto (fun _ => h.slot (hpc ▸ hslot)) ⟨fun _ => hlk, fun _ => hholds⟩ hown htarget ?_
    ?_ (fun ht => (htested ht).1) ?_
  · cases pc' <;> first | exact hstate | cases hholds
  · intro hon
    cases pc' <;> first | exact absurd hholds Bool.false_ne_true | cases hon
  · intro code' hcode'
    obtain rfl := Option.some.inj (hcode.symm.trans hcode')
    refine ⟨hpre, fun hcase => ?_⟩
    rcases hcase with hf | ht
    · rw [hholds] at hf
      cases hf
    · exact (htested ht).2

theorem local_outer (hlk : w.lk ≠ some p) (hstate : pc.stateOk (w.proc p).state)
    (hcode : ∀ code, pc.code? = some code → p < n ∧ O.pre p code w.shared ∧ Outer c p code)
    (hown : pc.ownLock = true → (w.proc p).lock = some (.thread p) := by nofun)
    (hchan : pc.onChan = true → (w.proc p).chan = true := by nofun)
    (hholds : pc.holds = false := by rfl) : (w.goto p pc).Local O n p := by
  refine local_goto (fun hsome => ?_) ⟨fun hh => ?_, fun hh => absurd hh hlk⟩ hown ?_ hstate hchan ?_
    fun code h => ⟨(hcode code h).2.1, fun _ => (hcode code h).2.2⟩
  · obtain ⟨code, h⟩ := Option.isSome_iff_exists.mp hsome
    exact (hcode code h).1
  · rw [hholds] at hh
    cases hh
  · intro j hj
    cases pc <;> first | exact absurd hholds.symm Bool.false_ne_true | cases hj
  · intro htested
    cases pc <;> first | exact absurd hholds.symm Bool.false_ne_true | cases htested

theorem Local.outer {pc pc' : Pc S} (h : w.Local O n p) (hpc : (w.proc p).pc = pc)
    (hlk : w1.lk ≠ some p) (hstate : pc'.stateOk (w1.proc p).state)
    (hown : pc'.ownLock = true → (w1.proc p).lock = some (.thread p) := by nofun)
    (hchan : pc'.onChan = true → (w1.proc p).chan = true := by nofun)
    (houter : pc.holds = false ∨ pc.tested = true := by first | exact .inl rfl | exact .inr rfl)
    (hcode : pc'.code? = pc.code? := by rfl) (hshared : w1.shared = w.shared := by rfl)
    (hholds : pc'.holds = false := by rfl) : (w1.goto p pc').Local O n p := by
  subst hpc
  refine local_outer hlk hstate (fun code hcode' => ?_) hown hchan hholds
  rw [hcode] at hcode'
  rw [hshared]
  obtain ⟨hpre, hcase⟩ := h.code code hcode'
  exact ⟨h.slot (by rw [hcode']; rfl), hpre, hcase houter⟩

theorem setLock_state (w : World S) (i p : Nat) (owner : Option Owner) :
    ((w.setLock i owner).proc p).state = (w.proc p).state := by
  rw [setLock, proc_setProc]
  split
  · rename_i heq
    rw [heq]
  · rfl

theorem local_step (hp : w.Local O n p) (hinv : O.inv w.shared)
    (hstep : w.step c n p = some w') : w'.Local O n p := by
  unfold step at hstep
  split at hstep
  case h_1 | h_14 => cases hstep
  case h_2 code hpc =>
    split_ifs at hstep with hfree
    cases hstep
    exact hp.under hpc rfl rfl (hp.pre hpc)
  case h_3 hpc =>
    cases hstep
    exact local_goto nofun ⟨nofun, nofun⟩ nofun nofun (hp.running hpc) nofun nofun nofun
  case h_4 code hpc =>
    split_ifs at hstep with hcond
    · cases hstep
      exact hp.under hpc (hp.lk hpc) rfl (O.wait hinv (hp.pre hpc) hcond)
    · cases hstep
      exact hp.under hpc (hp.lk hpc) rfl (hp.pre hpc) nofun nofun fun _ =>
        ⟨Bool.eq_false_iff.mpr hcond, .inr ⟨code, rfl⟩⟩
  case h_5 f code hpc =>
    split at hstep
    · cases hstep
    all_goals
      rename_i s hf
      cases hstep
      exact hp.under hpc (hp.lk hpc) rfl (O.set hinv (hp.pre hpc) hf).2
  case h_6 i code hpc =>
    split_ifs at hstep with hend hfree
    · cases hstep
      exact hp.under hpc (hp.lk hpc) rfl (hp.pre hpc)
    · cases hstep
      refine hp.under hpc (hp.lk hpc) (setLock_state ..) (hp.pre hpc) nofun fun k hk => ?_
      obtain rfl := Option.some.inj hk
      rw [setLock, proc_setProc, if_pos rfl]
  case h_7 i code hpc =>
    have hlock := hp.target i (by rw [hpc]; rfl)
    split_ifs at hstep with hsleep
    · cases hstep
      refine hp.under hpc (hp.lk hpc) ?_ (hp.pre hpc) nofun fun k hk => ?_
      · rw [wake, proc_setProc, if_neg]
        -- a running process is not asleep
        rintro rfl
        exact State.noConfusion (hsleep.1.symm.trans (hp.running hpc))
      · obtain rfl := Option.some.inj hk
        rw [wake, proc_setProc, if_pos rfl]
        exact hlock
    · cases hstep
      refine hp.under hpc (hp.lk hpc) rfl (hp.pre hpc) nofun fun k hk => ?_
      obtain rfl := Option.some.inj hk
      exact hlock
  case h_8 i code hpc =>
    cases hstep
    exact hp.under hpc (hp.lk hpc) (setLock_state ..) (hp.pre hpc)
  case h_9 code hpc =>
    obtain ⟨hpre, houter⟩ := hp.code code (by rw [hpc]; rfl)
    rw [hpc] at houter
    have hcond := hp.tested (by rw [hpc]; rfl)
    split_ifs at hstep with hfree
    cases hstep
    refine hp.under hpc (hp.lk hpc) (setLock_state ..) hpre (fun _ => ?_) nofun
      fun _ => ⟨hcond, houter (.inr rfl)⟩
    rw [setLock, proc_setProc, if_pos rfl]
  case h_10 code hpc =>
    have hown := hp.own (by rw [hpc]; rfl)
    cases hstep
    exact hp.outer hpc nofun (hp.running hpc) fun _ => hown
  case h_11 code hpc =>
    have hown := hp.own (by rw [hpc]; rfl)
    cases hstep
    refine hp.outer hpc (hp.not_lk hpc) ?_ ?_ ?_
    all_goals rw [proc_setProc, if_pos rfl]
    exacts [hp.running hpc, fun _ => hown, fun _ => rfl]
  case h_12 code hpc =>
    have hown := hp.own (by rw [hpc]; rfl)
    have hchan := hp.chan (by rw [hpc]; rfl)
    cases hstep
    refine hp.outer hpc (hp.not_lk hpc) ?_ ?_ ?_
    all_goals rw [proc_setProc, if_pos rfl]
    exacts [rfl, fun _ => hown, fun _ => hchan]
  case h_13 code hpc =>
    have hchan := hp.chan (by rw [hpc]; rfl)
    have hstate := hp.state
    rw [hpc] at hstate
    have hoff : (w.proc p).state ≠ .running := hstate.symm ▸ State.noConfusion
    cases hstep
    refine hp.outer hpc (hp.not_lk hpc) ?_ nofun ?_
    all_goals rw [setLock, proc_setProc, if_pos rfl]
    exacts [hoff, fun _ => hchan]
  case h_15 code hpc =>
    have hown := hp.own (by rw [hpc]; rfl)
    cases hstep
    refine hp.outer hpc (hp.not_lk hpc) ?_ ?_
    all_goals rw [proc_setProc, if_pos rfl]
    exacts [hp.running hpc, fun _ => hown]
  case h_16 code hpc =>
    cases hstep
    exact hp.outer hpc (hp.not_lk hpc) ((setLock_state ..).trans (hp.running hpc))

theorem inv_step (hp : w.Local O n p) (hinv : O.inv w.shared)
    (hstep : w.step c n p = some w') : O.inv w'.shared := by
  unfold step at hstep
  split at hstep
  case h_5 f code hpc =>
    split at hstep
    · cases hstep
    all_goals
      rename_i s hf
      cases hstep
      exact (O.set hinv (hp.pre hpc) hf).1
  case h_1 | h_14 => cases hstep
  all_goals
    first
    | cases hstep; exact hinv
    | split_ifs at hstep <;> cases hstep <;> exact hinv

/-! ### The sleepers -/

/-- While the condition holds, the holder of `lk` is about to wake up everybody
who sleeps. -/
def NoLost (O : Outline c s₀) (w : World S) : Prop :=
  c.cond w.shared = true → ∀ q, (w.proc q).pc.falls (w.proc q).state →
    ∃ p, w.lk = some p ∧ (w.proc p).pc.wakes O.owes q

theorem Frame.falls (f : w.Frame O w' q) (h : (w'.proc q).pc.falls (w'.proc q).state) :
    (w.proc q).pc.falls (w.proc q).state := by
  rw [f.pc] at h
  rcases f.state with hsame | ⟨-, -, hrun⟩
  · rw [hsame] at h
    exact h
  · rw [hrun] at h
    cases hpc : (w.proc q).pc <;> rw [hpc] at h <;> first | exact h | cases h

/-- Who falls asleep is on the way of the holder of `lk`. -/
theorem NoLost.wakes (h : w.NoLost O) (hlk : w.lk = some p) (hpc : (w.proc p).pc = pc)
    (hcond : c.cond w.shared = true) (hfalls : (w.proc q).pc.falls (w.proc q).state) :
    pc.wakes O.owes q := by
  obtain ⟨r, hr, hwakes⟩ := h hcond q hfalls
  obtain rfl := Option.some.inj (hlk.symm.trans hr)
  rwa [hpc] at hwakes

/-- An event that leaves everybody alone but `p`, who does not hold `lk` and
falls asleep only if it did before. -/
theorem NoLost.of_frame (h : w.NoLost O) (hf : ∀ q ≠ p, w.Frame O w' q)
    (hlk : w.lk ≠ some p) (hcond : c.cond w'.shared = true → c.cond w.shared = true)
    (hfalls : (w'.proc p).pc.falls (w'.proc p).state → (w.proc p).pc.falls (w.proc p).state) :
    w'.NoLost O := by
  intro hc q hq
  have hq' : (w.proc q).pc.falls (w.proc q).state := by
    by_cases heq : q = p
    · subst heq
      exact hfalls hq
    · exact (hf q heq).falls hq
  obtain ⟨r, hr, hwakes⟩ := h (hcond hc) q hq'
  have hrp : r ≠ p := fun heq => hlk (by rw [← heq]; exact hr)
  exact ⟨r, (hf r hrp).lk.mpr hr, by rw [(hf r hrp).pc]; exact hwakes⟩

theorem NoLost.of_holder (hf : ∀ q ≠ p, w.Frame O (w1.goto p pc) q)
    (hself : ¬pc.falls (w1.proc p).state)
    (hstep : c.cond w1.shared = true → ∀ q ≠ p, (w.proc q).pc.falls (w.proc q).state →
      (w1.proc q).pc.falls (w1.proc q).state → w1.lk = some p ∧ pc.wakes O.owes q) :
    (w1.goto p pc).NoLost O := by
  intro hc q hq
  by_cases heq : q = p
  · subst heq
    rw [goto_proc_self] at hq
    exact absurd hq hself
  · have hbefore := (hf q heq).falls hq
    rw [goto, proc_setProc, if_neg heq] at hq
    refine ⟨p, ?_⟩
    rw [goto_proc_self]
    exact hstep hc q heq hbefore hq

theorem falls_slot (hlocal : ∀ r, w.Local O n r) (hq : (w.proc q).pc.falls (w.proc q).state) :
    q < n := by
  refine (hlocal q).slot ?_
  cases hpc : (w.proc q).pc <;> rw [hpc] at hq <;> first | rfl | cases hq

theorem noLost_step (hlocal : ∀ r, w.Local O n r) (hinv : O.inv w.shared) (h : w.NoLost O)
    (hstep : w.step c n p = some w') : w'.NoLost O := by
  have hp := hlocal p
  have hf : ∀ q ≠ p, w.Frame O w' q := fun q hq => frame_step hlocal hinv hstep hq
  unfold step at hstep
  split at hstep
  case h_1 | h_14 => cases hstep
  case h_2 code hpc =>
    split_ifs at hstep with hfree
    cases hstep
    refine .of_frame h hf (by rw [hfree]; nofun) id fun hfalls => ?_
    rw [goto_proc_self] at hfalls
    cases hfalls
  case h_3 hpc =>
    have hlk := hp.lk hpc
    cases hstep
    exact .of_holder hf id fun hc q _ hfalls _ =>
      absurd (h.wakes hlk hpc hc hfalls) O.owes_nil
  case h_4 code hpc =>
    have hlk := hp.lk hpc
    split_ifs at hstep
    all_goals
      cases hstep
      exact .of_holder hf id fun hc q _ hfalls _ =>
        absurd (h.wakes hlk hpc hc hfalls) O.owes_wait
  case h_5 f code hpc =>
    have hlk := hp.lk hpc
    -- the update makes the condition true, or a `wakeup` was due before
    have hdue : ∀ q s, (w.proc q).pc.falls (w.proc q).state → c.cond s = true →
        c.cond w.shared = false ∧ c.cond s = true ∨ O.owes (.set f :: code) := by
      intro q s hfalls hc
      cases hcond : c.cond w.shared with
      | false => exact .inl ⟨rfl, hc⟩
      | true => exact .inr (h.wakes hlk hpc hcond hfalls)
    split at hstep
    · cases hstep
    · cases hstep
      exact .of_holder hf id fun _ q _ _ _ => ⟨hlk, Nat.zero_le q⟩
    · rename_i s hset
      cases hstep
      refine .of_holder hf id fun hc q _ hfalls _ => ⟨hlk, ?_⟩
      rcases O.wakes hinv (hp.pre hpc) hset (hdue q s hfalls hc) with hb | howes
      · cases hb
      · exact howes
  case h_6 i code hpc =>
    have hlk := hp.lk hpc
    split_ifs at hstep with hend hfree
    · cases hstep
      refine .of_holder hf id fun hc q _ hfalls _ => ?_
      -- the loop has gone through the whole table
      have hle : i ≤ q := h.wakes hlk hpc hc hfalls
      have hlt := falls_slot hlocal hfalls
      omega
    · cases hstep
      refine .of_holder hf id fun hc q _ hfalls _ => ⟨hlk, ?_⟩
      have hle : i ≤ q := h.wakes hlk hpc hc hfalls
      exact hle
  case h_7 i code hpc =>
    have hlk := hp.lk hpc
    have hlock := hp.target i (by rw [hpc]; rfl)
    -- the lock of `i` is taken, so `i` is not on its way into `sleep`
    have hoff : i ≠ p → (w.proc i).pc.falls (w.proc i).state →
        (∃ code, (w.proc i).pc = .off code) ∧ (w.proc i).state = .sleeping ∧
          (w.proc i).chan = true := by
      intro hip hfalls
      have hown := (hlocal i).own
      have hchan := (hlocal i).chan
      rw [hlock] at hown
      cases hpci : (w.proc i).pc <;> rw [hpci] at hfalls hown hchan <;>
        first
        | exact ⟨⟨_, rfl⟩, hfalls, hchan rfl⟩
        | exact absurd (Owner.thread.inj (Option.some.inj (hown rfl))).symm hip
        | cases hfalls
    split_ifs at hstep with hsleep
    · cases hstep
      refine .of_holder hf id fun hc q hq hfalls hfalls' => ⟨hlk, ?_⟩
      rcases Nat.lt_or_eq_of_le (h.wakes hlk hpc hc hfalls) with hlt | rfl
      · exact hlt
      · obtain ⟨⟨code', hpci⟩, -, -⟩ := hoff hq hfalls
        rw [wake, proc_setProc, if_pos rfl, hpci] at hfalls'
        cases hfalls'
    · cases hstep
      refine .of_holder hf id fun hc q hq hfalls _ => ⟨hlk, ?_⟩
      rcases Nat.lt_or_eq_of_le (h.wakes hlk hpc hc hfalls) with hlt | rfl
      · exact hlt
      · exact absurd (hoff hq hfalls).2 hsleep
  case h_8 i code hpc =>
    have hlk := hp.lk hpc
    cases hstep
    refine .of_holder hf id fun hc q _ hfalls _ => ⟨hlk, ?_⟩
    have hlt : i < q := h.wakes hlk hpc hc hfalls
    exact hlt
  case h_9 code hpc =>
    have hlk := hp.lk hpc
    split_ifs at hstep
    cases hstep
    exact .of_holder hf id fun hc q _ hfalls _ => (h.wakes hlk hpc hc hfalls).elim
  case h_10 code hpc =>
    have hcond := hp.tested (by rw [hpc]; rfl)
    cases hstep
    intro hc
    exact absurd (hcond.symm.trans hc) Bool.false_ne_true
  case h_11 code hpc | h_12 code hpc | h_13 code hpc =>
    cases hstep
    exact .of_frame h hf (hp.not_lk hpc) id fun _ => by rw [hpc]; trivial
  case h_15 code hpc | h_16 code hpc =>
    cases hstep
    refine .of_frame h hf (hp.not_lk hpc) id fun hfalls => ?_
    rw [goto_proc_self] at hfalls
    cases hfalls

/-! ### Runs -/

structure Ok (O : Outline c s₀) (n : Nat) (w : World S) : Prop where
  inv : O.inv w.shared
  places : ∀ p, w.Local O n p
  noLost : w.NoLost O

theorem ok_start (O : Outline c s₀) (n : Nat) : (start s₀).Ok O n where
  inv := O.start
  places _ := ⟨nofun, ⟨nofun, nofun⟩, nofun, nofun, rfl, nofun, nofun, nofun⟩
  noLost _ _ := nofun

theorem Ok.of_frame (h : w.Ok O n) (hf : ∀ q, w.Frame O w' q) (hinv : O.inv w'.shared)
    (hcond : c.cond w'.shared = true → c.cond w.shared = true) : w'.Ok O n where
  inv := hinv
  places q := (h.places q).frame (hf q)
  noLost hc q hq := by
    obtain ⟨r, hr, hwakes⟩ := h.noLost (hcond hc) q ((hf q).falls hq)
    exact ⟨r, (hf r).lk.mpr hr, by rw [(hf r).pc]; exact hwakes⟩

theorem ok_schedTest (h : w.Ok O n) (hlock : (w.proc p).lock = some .scheduler)
    (hnext : w.schedTest p = some w') : w'.Ok O n := by
  have hne : ∀ q, (w.proc p).lock ≠ some (.thread q) := fun q heq => by
    rw [hlock] at heq
    cases heq
  have hskip : (w.setLock p none).Ok O n :=
    h.of_frame (fun q => frame_setLock (hne q)) h.inv id
  unfold schedTest at hnext
  split at hnext
  · rename_i code hpc
    split_ifs at hnext with hrun
    · cases hnext
      have hlk := (h.places p).not_lk hpc
      have hf : ∀ q ≠ p, w.Frame O (w.resume p code) q := fun q hq =>
        frame_setProc hq fun heq => absurd heq (hne q)
      have hresume : w.resume p code = (w.setProc p fun pr =>
          { pr with state := .running, lock := some (.thread p) }).goto p (.tidy code) := by
        simp only [resume, goto, setProc, Function.update_self, Function.update_idem]
      refine ⟨h.inv, fun q => ?_, .of_frame h.noLost hf hlk id fun hfalls => ?_⟩
      · by_cases hq : q = p
        · subst hq
          rw [hresume]
          refine (h.places q).outer hpc hlk ?_ fun _ => ?_
          all_goals rw [proc_setProc, if_pos rfl]
          rfl
        · exact (h.places q).frame (hf q hq)
      · rw [hresume, goto_proc_self] at hfalls
        cases hfalls
    · cases hnext
      exact hskip
  · cases hnext
    exact hskip

theorem ok_next {e : Event c} (h : w.Ok O n) (hnext : Sleep.next c n e w = some w') : w'.Ok O n := by
  cases e <;> simp only [Sleep.next, World.next] at hnext
  case call p op =>
    split_ifs at hnext with hn hready
    · split at hnext
      case h_2 => cases hnext
      rename_i hpc
      cases hnext
      have hlk := (h.places p).not_lk hpc
      have hf : ∀ q ≠ p, w.Frame O (w.goto p (.acquire (c.code p op))) q := fun q hq =>
        (Frame.refl O w q).goto hq
      refine ⟨h.inv, fun q => ?_, .of_frame h.noLost hf hlk id fun hfalls => ?_⟩
      · by_cases hq : q = p
        · subst hq
          refine local_outer hlk ((h.places q).running hpc) fun code hcode => ?_
          obtain rfl := Option.some.inj hcode
          exact ⟨hn, O.call h.inv hready, .inl ⟨op, rfl⟩⟩
        · exact (h.places q).frame (hf q hq)
      · rw [goto_proc_self] at hfalls
        cases hfalls
    · split at hnext <;> cases hnext
  case step p =>
    refine ⟨inv_step (h.places p) h.inv hnext, fun q => ?_,
      noLost_step h.places h.inv h.noLost hnext⟩
    by_cases hq : q = p
    · subst hq
      exact local_step (h.places q) h.inv hnext
    · exact (h.places q).frame (frame_step h.places h.inv hnext hq)
  case schedLock p | killLock p | killUnlock p =>
    split_ifs at hnext with hlock
    cases hnext
    exact h.of_frame (fun q => frame_setLock (by rw [hlock]; nofun)) h.inv id
  case schedTest p =>
    split_ifs at hnext with hlock
    exact ok_schedTest h hlock hnext
  case killWrite p =>
    split_ifs at hnext with hlock
    cases hnext
    refine h.of_frame (fun q => frame_wake (by rw [hlock]; nofun) ⟨rfl, rfl, rfl⟩ ?_) h.inv id
    by_cases hsleep : (w.proc p).state = .sleeping
    · exact .inr ⟨hsleep, if_pos hsleep⟩
    · exact .inl (if_neg hsleep)
  case free p f =>
    split at hnext
    case h_2 => cases hnext
    obtain ⟨s, hs, rfl⟩ := Option.map_eq_some_iff.mp hnext
    obtain ⟨hinv, hcond, hpre⟩ := O.free h.inv hs
    refine h.of_frame (fun q => ?_) hinv fun hc => ?_
    · exact ⟨rfl, rfl, .inl rfl, fun _ => id, Iff.rfl, fun _ => hcond, fun code _ => hpre q code⟩
    · cases hcond' : c.cond w.shared with
      | true => rfl
      | false => exact absurd ((hcond hcond').symm.trans hc) Bool.false_ne_true

theorem reach_ok (O : Outline c s₀) (h : Reach (Sleep.next c n) (fun _ _ => True) (start s₀) w) :
    w.Ok O n :=
  h.invariant (ok_start O n) fun _ _ _ hok _ hnext => ok_next hok hnext

/-- Nobody sleeps while `lk` is free and the condition holds. -/
def NobodySleeps (c : Client S) (w : World S) : Prop :=
  w.lk = none → c.cond w.shared = true →
    ∀ q, ¬((w.proc q).state = .sleeping ∧ (w.proc q).chan = true)

theorem Ok.nobodySleeps (h : w.Ok O n) : w.NobodySleeps c := by
  rintro hlk hc q ⟨hsleep, -⟩
  have hfalls : (w.proc q).pc.falls (w.proc q).state := by
    have hstate := (h.places q).state
    rw [hsleep] at hstate ⊢
    cases hpc : (w.proc q).pc <;> rw [hpc] at hstate <;> trivial
  obtain ⟨r, hr, -⟩ := h.noLost hc q hfalls
  rw [hlk] at hr
  cases hr

end World

/-! ## Clients that wake up at once -/

/-- In the states that meet `inv`, whoever makes the condition true calls
`wakeup`. -/
structure Client.Wakes (c : Client S) (inv : S → Prop) : Prop where
  set : ∀ {p op f}, .set f ∈ c.code p op → ∀ {s s' b}, inv s → f s = some (s', b) →
    inv s' ∧ (c.cond s = false → c.cond s' = true → b = true)
  free : ∀ {p f s s'}, inv s → c.free p f s = some s' →
    inv s' ∧ (c.cond s = false → c.cond s' = false)

/-- The code is made of instructions of the client. -/
def Client.Made (c : Client S) (code : List (Instr S)) : Prop :=
  ∀ f, .set f ∈ code → ∃ p op, .set f ∈ c.code p op

def Client.Wakes.outline {inv : S → Prop} (h : c.Wakes inv) (hs₀ : inv s₀) :
    Outline c s₀ where
  inv := inv
  pre _ code _ := c.Made code
  owes _ := False
  start := hs₀
  call _ _ f hf := ⟨_, _, hf⟩
  wait _ hpre _ f hf := hpre f (List.mem_cons_of_mem _ hf)
  set hinv hpre hf := by
    obtain ⟨p, op, hmem⟩ := hpre _ List.mem_cons_self
    exact ⟨(h.set hmem hinv hf).1, fun f hf => hpre f (List.mem_cons_of_mem _ hf)⟩
  wakes hinv hpre hf hcase := by
    obtain ⟨p, op, hmem⟩ := hpre _ List.mem_cons_self
    rcases hcase with ⟨hcond, hcond'⟩ | hfalse
    · exact .inl ((h.set hmem hinv hf).2 hcond hcond')
    · exact hfalse.elim
  owes_nil := id
  owes_wait := id
  stable _ _ _ _ _ hpre := hpre
  free hinv hf := ⟨(h.free hinv hf).1, (h.free hinv hf).2, fun _ _ => id⟩

end Xv6.Sleep
