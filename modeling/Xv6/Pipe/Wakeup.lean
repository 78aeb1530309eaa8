import Xv6.Lib.Trans
import Xv6.Pipe.Model

/-!
# Nobody sleeps through a pipe

A reader sleeps on `&pi->nread` while the pipe is empty and its write end
open, and a writer on `&pi->nwrite` while it is full and its read end open.
Whoever ends such a condition wakes the sleepers before it lets go of
`pi->lock`, with one exception: `pipewrite` returns without a `wakeup` when it
finds itself killed, also after it has stored bytes.

`World.Ok` is the invariant. A process that sleeps, or is about to, has its
condition, or the holder of the lock is at a place from which it will wake it
(`Pc.wakes`). Once the lock is free no such holder is left. A writer that
has stored a byte is at such a place as long as it is not killed, which is
what `SparesWriters` is for.
-/

namespace Xv6.Pipe

open Xv6.Lib.Trans

variable {p j : Nat} {pc : Pc} {chan : Chan} {after : After} {n : Int}

/-- The lock is held at this place. -/
def Pc.holds : Pc → Bool
  | .write .. | .readWait _ | .read .. | .wakeup .. => true
  | _ => false

/-- From this place a thread will look at process `j` in `wakeup(chan)`. -/
def Pc.wakes (chan : Chan) (j : Nat) : Pc → Prop
  | .write _ _ stored => stored = true ∧ chan = .nread
  | .read .. => chan = .nwrite
  | .wakeup chan' k _ => chan' = chan ∧ k ≤ j
  | _ => False

/-- The process sleeps on the channel, or is about to. -/
def State.waits (chan : Chan) : State → Prop
  | .awake => False
  | .falling chan' => chan' = chan
  | .sleeping chan' => chan' = chan

namespace World

/-- The condition under which a process sleeps on a channel. -/
def blocks (w : World) : Chan → Prop
  | .nread => w.ring.empty = true ∧ w.writeopen = true
  | .nwrite => w.ring.full = true ∧ w.readopen = true

/-- What is known of a thread from where it is. -/
def Place (w : World) (p : Nat) : Pc → Prop
  | .write _ _ stored =>
    stored = true → (w.thread p).killed = false ∧ w.readopen = true
  | .wakeup _ _ (.sleepWrite ..) => w.blocks .nwrite
  | _ => True

structure Ok (w : World) : Prop where
  slot : ∀ p, (w.thread p).state ≠ .awake ∨ (w.thread p).pc ≠ .idle → p < NPROC
  holds : ∀ p, (w.thread p).pc.holds = true ↔ w.lock = some p
  awake : ∀ p, w.lock = some p → (w.thread p).state = .awake
  place : ∀ p, w.Place p (w.thread p).pc
  waits : ∀ j chan, (w.thread j).state.waits chan →
    w.blocks chan ∨ ∃ p, w.lock = some p ∧ (w.thread p).pc.wakes chan j

/-- **A sleeper has a reason to sleep.**  While the lock is free nobody sleeps
on `&pi->nread` if there is something to read or nobody left to write, nor on
`&pi->nwrite` if there is room or nobody left to read. -/
def NoSleepThrough (w : World) : Prop :=
  w.lock = none → ∀ j,
    (¬w.ring.empty = true ∨ w.writeopen = false → (w.thread j).state ≠ .sleeping .nread) ∧
    (¬w.ring.full = true ∨ w.readopen = false → (w.thread j).state ≠ .sleeping .nwrite)

variable {w w' : World}

theorem Ok.blocks_of_free (h : w.Ok) (hlock : w.lock = none)
    (hwaits : (w.thread j).state.waits chan) : w.blocks chan := by
  rcases h.waits j chan hwaits with hblocks | ⟨p, hp, -⟩
  · exact hblocks
  · exact absurd (hlock.symm.trans hp) (by simp)

theorem Ok.noSleepThrough (h : w.Ok) : w.NoSleepThrough := by
  intro hlock j
  have hblocks : ∀ chan, (w.thread j).state = .sleeping chan → w.blocks chan :=
    fun chan hstate => h.blocks_of_free hlock (by rw [hstate]; rfl)
  constructor
  · intro hready hstate
    obtain ⟨hempty, hopen⟩ := hblocks .nread hstate
    rcases hready with hready | hready
    · exact hready hempty
    · exact absurd (hopen.symm.trans hready) (by simp)
  · intro hready hstate
    obtain ⟨hfull, hopen⟩ := hblocks .nwrite hstate
    rcases hready with hready | hready
    · exact hready hfull
    · exact absurd (hopen.symm.trans hready) (by simp)

/-! ## Steps of the thread that has the lock -/

theorem thread_setThread (w : World) (p q : Nat) (f : Thread → Thread) :
    (w.setThread p f).thread q = if q = p then f (w.thread p) else w.thread q := by
  unfold setThread
  by_cases h : q = p
  · subst h
    simp
  · simp [h]

@[simp] theorem thread_goto (w : World) (p : Nat) (pc : Pc) :
    (w.goto p pc).thread p = { w.thread p with pc := pc } := by
  rw [goto, thread_setThread, if_pos rfl]

theorem thread_goto_ne (w : World) {q : Nat} (pc : Pc) (h : q ≠ p) :
    (w.goto p pc).thread q = w.thread q := by
  rw [goto, thread_setThread, if_neg h]

@[simp] theorem blocks_goto (w : World) (p : Nat) (pc : Pc) (chan : Chan) :
    (w.goto p pc).blocks chan ↔ w.blocks chan := by
  cases chan <;> exact Iff.rfl

/-- Only a thread with the lock is at a place that has something to say. -/
theorem Place.of_not_holds (h : pc.holds = false) : w.Place p pc := by
  cases pc <;> trivial

theorem holds_of_wakes (h : pc.wakes chan j) : pc.holds = true := by
  cases pc <;> first | rfl | exact h.elim

/-- With the lock free or taken by `p`, a sleeper has its condition or `p` will wake it. -/
theorem Ok.waits_of (h : w.Ok) (hmine : w.lock = none ∨ w.lock = some p)
    (hwaits : (w.thread j).state.waits chan) : w.blocks chan ∨ (w.thread p).pc.wakes chan j := by
  rcases h.waits j chan hwaits with hblocks | ⟨q, hq, hwakes⟩
  · exact .inl hblocks
  · rcases hmine with hlock | hlock
    · exact absurd (hlock.symm.trans hq) (by simp)
    · have hqp : p = q := Option.some.inj (hlock.symm.trans hq)
      exact .inr (hqp ▸ hwakes)

/-- A step of a thread that has the lock, takes it or gives it up. Another
process is at most woken. -/
theorem Ok.turn (h : w.Ok) (hp : p < NPROC) (hmine : w.lock = none ∨ w.lock = some p)
    (hpc : ∀ q ≠ p, (w'.thread q).pc = (w.thread q).pc) (hstate : ∀ q, q ≠ p →
      (w'.thread q).state = (w.thread q).state ∨ (w'.thread q).state = .awake)
    (hlock : w'.lock = if (w'.thread p).pc.holds then some p else none)
    (hawake : (w'.thread p).pc.holds = true → (w'.thread p).state = .awake)
    (hplace : w'.Place p (w'.thread p).pc) (hwaits : ∀ j chan, (w'.thread j).state.waits chan →
      w'.blocks chan ∨ (w'.thread p).pc.wakes chan j) : w'.Ok := by
  have hidle : ∀ q ≠ p, (w'.thread q).pc.holds = false := by
    intro q hq
    rw [hpc q hq, Bool.eq_false_iff]
    intro hholds
    have hq' := (h.holds q).mp hholds
    rcases hmine with hmine | hmine
    · exact absurd (hmine.symm.trans hq') (by simp)
    · exact hq (Option.some.inj (hmine.symm.trans hq')).symm
  have hlock' : ∀ q, w'.lock = some q → q = p ∧ (w'.thread p).pc.holds = true := by
    intro q hq
    rw [hlock] at hq
    split_ifs at hq with hholds
    exact ⟨(Option.some.inj hq).symm, hholds⟩
  refine ⟨?_, ?_, ?_, ?_, ?_⟩
  · intro q hq
    by_cases hqp : q = p
    · exact hqp ▸ hp
    · refine h.slot q ?_
      rw [hpc q hqp] at hq
      refine hq.imp_left fun hne => ?_
      rcases hstate q hqp with hs | hs
      · exact hs ▸ hne
      · exact absurd hs hne
  · intro q
    by_cases hqp : q = p
    · subst hqp
      exact ⟨fun hholds => by rw [hlock, if_pos hholds], fun hq => (hlock' q hq).2⟩
    · rw [hidle q hqp]
      exact ⟨fun hf => absurd hf (by simp), fun hq => absurd (hlock' q hq).1 hqp⟩
  · intro q hq
    obtain ⟨rfl, hholds⟩ := hlock' q hq
    exact hawake hholds
  · intro q
    by_cases hqp : q = p
    · subst hqp
      exact hplace
    · exact Place.of_not_holds (hidle q hqp)
  · intro j chan hj
    refine (hwaits j chan hj).imp_right fun hwakes => ⟨p, ?_, hwakes⟩
    rw [hlock, if_pos (holds_of_wakes hwakes)]

/-- A step that moves one thread and may change the pipe. -/
theorem Ok.goto {w₁ : World} (h : w.Ok) (hp : p < NPROC) (hmine : w.lock = none ∨ w.lock = some p)
    (hawake : (w.thread p).state = .awake) (hthread : w₁.thread = w.thread)
    (hlock : w₁.lock = if pc.holds then some p else none) (hplace : (w₁.goto p pc).Place p pc)
    (hwaits : ∀ j chan, (w.thread j).state.waits chan → w₁.blocks chan ∨ pc.wakes chan j) :
    (w₁.goto p pc).Ok := by
  refine h.turn hp hmine ?_ ?_ ?_ ?_ ?_ ?_
  · intro q hq
    rw [thread_goto_ne _ _ hq, hthread]
  · intro q hq
    rw [thread_goto_ne _ _ hq, hthread]
    exact .inl rfl
  · rw [thread_goto]
    exact hlock
  · intro _
    rw [thread_goto, hthread]
    exact hawake
  · rw [thread_goto]
    exact hplace
  · intro j chan hj
    rw [blocks_goto, thread_goto]
    refine hwaits j chan ?_
    by_cases hjp : j = p
    · subst hjp
      rw [thread_goto, hthread] at hj
      exact hj
    · rw [thread_goto_ne _ _ hjp, hthread] at hj
      exact hj

/-- A thread gives up the lock with nobody left to wake. -/
theorem Ok.blocks_of_done (h : w.Ok) (hlock : w.lock = some p)
    (hdone : ∀ j chan, j < NPROC → ¬(w.thread p).pc.wakes chan j)
    (hj : (w.thread j).state.waits chan) : w.blocks chan := by
  have hslot : j < NPROC := by
    refine h.slot j (.inl fun hawake => ?_)
    rw [hawake] at hj
    exact hj
  rcases h.waits_of (.inr hlock) hj with hblocks | hwakes
  · exact hblocks
  · exact absurd hwakes (hdone j chan hslot)

theorem Ok.finish (h : w.Ok) (hp : p < NPROC) (hlock : w.lock = some p)
    (hdone : ∀ j chan, j < NPROC → ¬(w.thread p).pc.wakes chan j) : (w.finish p).Ok := by
  refine h.goto hp (.inr hlock) (h.awake p hlock) rfl rfl trivial ?_
  intro j chan hj
  have hblocks := h.blocks_of_done hlock hdone hj
  cases chan <;> exact .inl hblocks

theorem Ok.sleep (h : w.Ok) (hp : p < NPROC) (hlock : w.lock = some p)
    (hdone : ∀ j chan, j < NPROC → ¬(w.thread p).pc.wakes chan j) (hblocks : w.blocks chan)
    (hpc : pc.holds = false) : (w.sleep p chan pc).Ok := by
  have hself : (w.sleep p chan pc).thread p =
      { w.thread p with state := .falling chan, pc := pc } := by
    rw [World.sleep, thread_setThread, if_pos rfl]
  have hother : ∀ q ≠ p, (w.sleep p chan pc).thread q = w.thread q := by
    intro q hq
    rw [World.sleep, thread_setThread, if_neg hq]
  have hsame : ∀ c, w.blocks c → (w.sleep p chan pc).blocks c := by
    intro c hc
    cases c <;> exact hc
  refine h.turn hp (.inr hlock) ?_ ?_ ?_ ?_ ?_ ?_
  · intro q hq
    rw [hother q hq]
  · intro q hq
    rw [hother q hq]
    exact .inl rfl
  · rw [hself, hpc]
    rfl
  · intro hholds
    rw [hself, hpc] at hholds
    cases hholds
  · rw [hself]
    exact Place.of_not_holds hpc
  · intro j c hj
    refine .inl (hsame c ?_)
    by_cases hjp : j = p
    · subst hjp
      rw [hself] at hj
      have hchan : chan = c := hj
      exact hchan ▸ hblocks
    · rw [hother j hjp] at hj
      exact h.blocks_of_done hlock hdone hj

/-- Go on to `wakeup(chan)`, the only sleepers that may lack their condition. -/
theorem Ok.goto_wakeup {w₁ : World} (h : w.Ok) (hp : p < NPROC)
    (hmine : w.lock = none ∨ w.lock = some p) (hawake : (w.thread p).state = .awake)
    (hthread : w₁.thread = w.thread) (hlock : w₁.lock = some p)
    (hplace : w₁.Place p (.wakeup chan 0 after))
    (hwaits : ∀ j c, c ≠ chan → (w.thread j).state.waits c → w₁.blocks c) :
    (w₁.goto p (.wakeup chan 0 after)).Ok := by
  refine h.goto hp hmine hawake hthread hlock ?_ ?_
  · cases after with
    | release => trivial
    | sleepWrite n i => exact hplace
  · intro j c hj
    by_cases hc : c = chan
    · exact .inr ⟨hc.symm, Nat.zero_le j⟩
    · exact .inl (hwaits j c hc hj)

/-! ## The turns -/

section Turns

theorem Ok.holder (h : w.Ok) (hholds : (w.thread p).pc.holds = true) :
    p < NPROC ∧ w.lock = some p := by
  refine ⟨h.slot p (.inr fun hidle => ?_), (h.holds p).mp hholds⟩
  rw [hidle] at hholds
  cases hholds

theorem Ok.writeTurn {i : Nat} {stored : Bool} (h : w.Ok)
    (hpc : (w.thread p).pc = .write n i stored) (byte : Option UInt8) :
    (w.writeTurn p n i byte).Ok := by
  obtain ⟨hp, hlock⟩ := h.holder (by rw [hpc]; rfl)
  have hawake := h.awake p hlock
  have hplace : stored = true → (w.thread p).killed = false ∧ w.readopen = true := by
    have := h.place p
    rw [hpc] at this
    exact this
  -- Nobody waits for room that the writer would have to wake.
  have hroom : ∀ j c, c ≠ .nread → (w.thread j).state.waits c → w.blocks c := by
    intro j c hc hj
    refine (h.waits_of (.inr hlock) hj).resolve_right fun hwakes => ?_
    rw [hpc] at hwakes
    exact hc hwakes.2
  have hdone : (w.goto p (.wakeup .nread 0 .release)).Ok :=
    h.goto_wakeup hp (.inr hlock) hawake rfl hlock trivial hroom
  unfold World.writeTurn
  split_ifs with hi hstop hfull
  · refine h.finish hp hlock fun j chan _ hwakes => ?_
    rw [hpc] at hwakes
    obtain ⟨hkilled, hopen⟩ := hplace hwakes.1
    simp [hkilled, hopen] at hstop
  · refine h.goto_wakeup hp (.inr hlock) hawake rfl hlock ⟨hfull, ?_⟩ hroom
    cases hopen : w.readopen with
    | true => rfl
    | false => simp [hopen] at hstop
  · cases byte with
    | none => exact hdone
    | some ch =>
      refine h.goto hp (.inr hlock) hawake rfl hlock ?_ ?_
      · intro _
        have hgo : (w.thread p).killed = false ∧ w.readopen = true := by
          simpa [and_comm] using hstop
        rw [thread_goto]
        exact hgo
      · intro j chan hj
        cases chan with
        | nread => exact .inr ⟨rfl, rfl⟩
        | nwrite => exact absurd (hroom j .nwrite (by simp) hj).1 hfull
  · exact hdone

theorem Ok.readWaitTurn (h : w.Ok) (hpc : (w.thread p).pc = .readWait n) :
    (w.readWaitTurn p n).Ok := by
  obtain ⟨hp, hlock⟩ := h.holder (by rw [hpc]; rfl)
  have hdone : ∀ j chan, j < NPROC → ¬(w.thread p).pc.wakes chan j := by
    intro j chan _ hwakes
    rw [hpc] at hwakes
    exact hwakes
  unfold World.readWaitTurn
  split_ifs with hwait hkilled
  · exact h.finish hp hlock hdone
  · exact h.sleep hp hlock hdone (by simpa [blocks] using hwait) rfl
  · refine h.goto hp (.inr hlock) (h.awake p hlock) rfl hlock trivial ?_
    intro j chan hj
    exact .inl (h.blocks_of_done hlock hdone hj)

theorem Ok.readTurn {i : Nat} (h : w.Ok) (hpc : (w.thread p).pc = .read n i) (copied : Bool) :
    (w.readTurn p n i copied).Ok := by
  obtain ⟨hp, hlock⟩ := h.holder (by rw [hpc]; rfl)
  have hawake := h.awake p hlock
  -- Nobody waits for a byte that the reader would have to wake.
  have hbyte : ∀ j c, c ≠ .nwrite → (w.thread j).state.waits c → w.blocks c := by
    intro j c hc hj
    refine (h.waits_of (.inr hlock) hj).resolve_right fun hwakes => ?_
    rw [hpc] at hwakes
    exact hc hwakes
  have htake : ¬w.ring.empty = true → ∀ j c, c ≠ .nwrite → (w.thread j).state.waits c →
      { w with ring := w.ring.take }.blocks c := by
    intro hempty j c hc hj
    cases c with
    | nread => exact absurd (hbyte j .nread hc hj).1 hempty
    | nwrite => exact absurd rfl hc
  unfold World.readTurn
  split_ifs with hi hcopied
  · refine h.goto hp (.inr hlock) hawake rfl hlock trivial ?_
    intro j chan hj
    cases chan with
    | nread => exact .inl (htake hi.2 j .nread (by simp) hj)
    | nwrite => exact .inr rfl
  · exact h.goto_wakeup hp (.inr hlock) hawake rfl hlock trivial (htake hi.2)
  · exact h.goto_wakeup hp (.inr hlock) hawake rfl hlock trivial hbyte

theorem thread_wake (w : World) (chan : Chan) (j q : Nat) :
    ((w.wake chan j).thread q).pc = (w.thread q).pc ∧
    ((w.wake chan j).thread q).killed = (w.thread q).killed ∧
    (((w.wake chan j).thread q).state = (w.thread q).state ∨
      ((w.wake chan j).thread q).state = .awake) := by
  rw [wake, thread_setThread]
  split_ifs with hq hs
  · subst hq
    exact ⟨rfl, rfl, .inr rfl⟩
  · subst hq
    exact ⟨rfl, rfl, .inl rfl⟩
  · exact ⟨rfl, rfl, .inl rfl⟩

/-- After `wakeup` has looked at a process, that process does not wait on the channel. -/
theorem not_waits_wake (hfree : w.unlocked j = true) :
    ¬((w.wake chan j).thread j).state.waits chan := by
  unfold unlocked at hfree
  rw [wake, thread_setThread, if_pos rfl]
  split_ifs with hs
  · exact id
  · intro hwaits
    cases hstate : (w.thread j).state with
    | awake =>
      rw [hstate] at hwaits
      exact hwaits
    | falling c => simp [hstate] at hfree
    | sleeping c =>
      rw [hstate] at hwaits hs
      have hc : c = chan := hwaits
      exact hs (hc ▸ rfl)

theorem Ok.wakeupLook (h : w.Ok) (hpc : (w.thread p).pc = .wakeup chan j after)
    (hfree : w.unlocked j = true) : ((w.wake chan j).goto p (.wakeup chan (j + 1) after)).Ok := by
  obtain ⟨hp, hlock⟩ := h.holder (by rw [hpc]; rfl)
  have hplace : w.Place p (.wakeup chan j after) := hpc ▸ h.place p
  refine h.turn hp (.inr hlock) ?_ ?_ ?_ ?_ ?_ ?_
  · intro q hq
    rw [thread_goto_ne _ _ hq]
    exact (thread_wake w chan j q).1
  · intro q hq
    rw [thread_goto_ne _ _ hq]
    exact (thread_wake w chan j q).2.2
  · rw [thread_goto]
    exact hlock
  · intro _
    rw [thread_goto]
    rcases (thread_wake w chan j p).2.2 with hs | hs
    · exact hs.trans (h.awake p hlock)
    · exact hs
  · rw [thread_goto]
    cases after with
    | release => trivial
    | sleepWrite n i => exact hplace
  · intro k c hk
    have hk' : ((w.wake chan j).thread k).state.waits c := by
      by_cases hkp : k = p
      · subst hkp
        rw [thread_goto] at hk
        exact hk
      · rw [thread_goto_ne _ _ hkp] at hk
        exact hk
    have hwaits : (w.thread k).state.waits c := by
      rcases (thread_wake w chan j k).2.2 with hs | hs
      · exact hs ▸ hk'
      · rw [hs] at hk'
        exact hk'.elim
    rw [blocks_goto, thread_goto]
    rcases h.waits_of (.inr hlock) hwaits with hblocks | hwakes
    · left
      cases c <;> exact hblocks
    · rw [hpc] at hwakes
      obtain ⟨rfl, hle⟩ := hwakes
      refine .inr ⟨rfl, Nat.lt_of_le_of_ne hle ?_⟩
      rintro rfl
      exact not_waits_wake hfree hk'

theorem Ok.wakeupTurn (h : w.Ok) (hpc : (w.thread p).pc = .wakeup chan j after)
    (hnext : w.wakeupTurn p chan j after = some w') : w'.Ok := by
  obtain ⟨hp, hlock⟩ := h.holder (by rw [hpc]; rfl)
  unfold World.wakeupTurn at hnext
  split_ifs at hnext with hj hfree
  · cases hnext
    exact h.wakeupLook hpc hfree
  · have hdone : ∀ k c, k < NPROC → ¬(w.thread p).pc.wakes c k := by
      intro k c hk hwakes
      rw [hpc] at hwakes
      have hle := hwakes.2
      omega
    cases after with
    | release =>
      cases hnext
      exact h.finish hp hlock hdone
    | sleepWrite n i =>
      cases hnext
      have hplace : w.Place p (.wakeup chan j (.sleepWrite n i)) := hpc ▸ h.place p
      exact h.sleep hp hlock hdone hplace rfl

/-- A thread outside the lock takes it. -/
theorem Ok.acquire (h : w.Ok) (hpc : (w.thread p).pc ≠ .idle) (hstate : (w.thread p).state = .awake)
    (hholds : pc.holds = true) (hplace : ∀ w' : World, w'.Place p pc)
    (hnext : w.acquire p pc = some w') : w'.Ok := by
  unfold World.acquire at hnext
  split_ifs at hnext with hlock
  cases hnext
  refine h.goto (h.slot p (.inr hpc)) (.inl hlock) hstate rfl (by rw [hholds]; rfl) (hplace _) ?_
  intro j chan hj
  have hblocks := h.blocks_of_free hlock hj
  left
  cases chan <;> exact hblocks

theorem Ok.close {writable : Bool} (h : w.Ok) (hpc : (w.thread p).pc ≠ .idle)
    (hstate : (w.thread p).state = .awake) (hlock : w.lock = none) :
    ({ w with lock := some p }.close p writable).Ok := by
  cases writable with
  | true =>
    refine h.goto_wakeup (h.slot p (.inr hpc)) (.inl hlock) hstate rfl rfl trivial ?_
    intro j c hc hj
    cases c with
    | nread => exact absurd rfl hc
    | nwrite => exact h.blocks_of_free hlock hj
  | false =>
    refine h.goto_wakeup (h.slot p (.inr hpc)) (.inl hlock) hstate rfl rfl trivial ?_
    intro j c hc hj
    cases c with
    | nread => exact h.blocks_of_free hlock hj
    | nwrite => exact absurd rfl hc

theorem Ok.run {byte : Option UInt8} {copied : Bool} (h : w.Ok)
    (hstate : (w.thread p).state = .awake) (hnext : w.run p byte copied = some w') : w'.Ok := by
  unfold World.run at hnext
  split at hnext
  · cases hnext
  · next n i hpc =>
    refine h.acquire (by rw [hpc]; simp) hstate rfl ?_ hnext
    exact fun _ hstored => absurd hstored (by simp)
  · next n i stored hpc =>
    cases hnext
    exact h.writeTurn hpc byte
  · next n hpc =>
    refine h.acquire (by rw [hpc]; simp) hstate rfl ?_ hnext
    exact fun _ => trivial
  · next n hpc =>
    cases hnext
    exact h.readWaitTurn hpc
  · next n i hpc =>
    cases hnext
    exact h.readTurn hpc copied
  · next chan j after hpc => exact h.wakeupTurn hpc hnext
  · next writable hpc =>
    split_ifs at hnext with hlock
    cases hnext
    exact h.close (by rw [hpc]; simp) hstate hlock

end Turns

/-! ## Steps beside the lock -/

/-- A step that leaves the pipe and its lock alone, and changes one thread
that does not start to wait and does not enter or leave the lock. -/
theorem Ok.aside {f : Thread → Thread} (h : w.Ok)
    (hslot : (f (w.thread p)).state ≠ .awake ∨ (f (w.thread p)).pc ≠ .idle → p < NPROC)
    (hpc : (f (w.thread p)).pc = (w.thread p).pc ∨
      (w.thread p).pc.holds = false ∧ (f (w.thread p)).pc.holds = false)
    (hawake : (w.thread p).state = .awake → (f (w.thread p)).state = .awake)
    (hwaits : ∀ chan, (f (w.thread p)).state.waits chan → (w.thread p).state.waits chan)
    (hkilled : (f (w.thread p)).killed = (w.thread p).killed ∨
      ∀ n i, (w.thread p).pc ≠ .write n i true) : (w.setThread p f).Ok := by
  have hholds : (f (w.thread p)).pc.holds = (w.thread p).pc.holds := by
    rcases hpc with hpc | ⟨hpc, hpc'⟩
    · rw [hpc]
    · rw [hpc, hpc']
  refine ⟨?_, ?_, ?_, ?_, ?_⟩
  · intro q hq
    rw [thread_setThread] at hq
    split_ifs at hq with hqp
    · exact hqp ▸ hslot hq
    · exact h.slot q hq
  · intro q
    rw [thread_setThread]
    split_ifs with hqp
    · rw [hholds, hqp]
      exact h.holds p
    · exact h.holds q
  · intro q hq
    rw [thread_setThread]
    split_ifs with hqp
    · exact hawake (h.awake p (hqp ▸ hq))
    · exact h.awake q hq
  · intro q
    have hsame : ∀ pc : Pc, (pc.holds = true → (w.thread q).pc = pc) → w.Place q pc →
        (((w.setThread p f).thread q).killed = (w.thread q).killed ∨
          ∀ n i, (w.thread q).pc ≠ .write n i true) → (w.setThread p f).Place q pc := by
      intro pc hq hplace hk
      cases pc with
      | write n i stored =>
        intro hstored
        rcases hk with hk | hk
        · exact ⟨hk.trans (hplace hstored).1, (hplace hstored).2⟩
        · exact absurd (hstored ▸ hq rfl) (hk n i)
      | wakeup chan k after =>
        cases after with
        | release => trivial
        | sleepWrite n i => exact hplace
      | _ => trivial
    have hplace := h.place q
    by_cases hqp : q = p
    · subst hqp
      have hself : (w.setThread q f).thread q = f (w.thread q) := by
        rw [thread_setThread, if_pos rfl]
      rw [hself]
      rcases hpc with hpc | ⟨-, hpc⟩
      · rw [hpc]
        refine hsame _ (fun _ => rfl) hplace ?_
        rw [hself]
        exact hkilled
      · exact Place.of_not_holds hpc
    · have hself : (w.setThread p f).thread q = w.thread q := by
        rw [thread_setThread, if_neg hqp]
      rw [hself]
      refine hsame _ (fun _ => rfl) hplace (.inl ?_)
      rw [hself]
  · intro j chan hj
    have hj' : (w.thread j).state.waits chan := by
      rw [thread_setThread] at hj
      split_ifs at hj with hjp
      · exact hjp ▸ hwaits chan hj
      · exact hj
    rcases h.waits j chan hj' with hblocks | ⟨q, hq, hwakes⟩
    · left
      cases chan <;> exact hblocks
    · refine .inr ⟨q, hq, ?_⟩
      rw [thread_setThread]
      split_ifs with hqp
      · subst hqp
        rcases hpc with hpc | ⟨hpc, -⟩
        · rw [hpc]
          exact hwakes
        · exact absurd (holds_of_wakes hwakes) (by simp [hpc])
      · exact hwakes

theorem Ok.call (h : w.Ok) (hpc : pc.holds = false) (hnext : w.call p pc = some w') : w'.Ok := by
  unfold World.call at hnext
  split_ifs at hnext with hcall
  cases hnext
  obtain ⟨hp, hstate, hidle⟩ := hcall
  refine h.aside (fun _ => hp) (.inr ⟨?_, hpc⟩) (fun hs => hs) (fun _ hs => hs) (.inl rfl)
  rw [hidle]
  rfl

end World

/-- The condition on the steps: `kill` does not strike a writer that has
stored a byte since it took the lock. -/
def SparesWriters : Event → World → Prop
  | .kill p, w => ∀ n i, (w.thread p).pc ≠ .write n i true
  | _, _ => True

namespace World

variable {w w' : World}

theorem Ok.next {e : Event} (h : w.Ok) (hcond : SparesWriters e w) (hnext : next e w = some w') :
    w'.Ok := by
  cases e with
  | writeCall p n => exact h.call rfl hnext
  | readCall p n => exact h.call rfl hnext
  | closeCall p writable => exact h.call rfl hnext
  | run p byte copied =>
    simp only [World.next] at hnext
    split at hnext
    · next hstate => exact h.run hstate hnext
    · next chan hstate =>
      cases hnext
      refine h.aside (fun _ => ?_) (.inl rfl) ?_ ?_ (.inl rfl)
      · exact h.slot p (.inl (by rw [hstate]; simp))
      · intro hawake
        exact absurd (hstate.symm.trans hawake) (by simp)
      · intro c hc
        rw [hstate]
        exact hc
    · cases hnext
  | kill p =>
    simp only [World.next] at hnext
    split_ifs at hnext with hfree
    cases hnext
    refine h.aside ?_ (.inl rfl) ?_ ?_ (.inr hcond)
    · intro hne
      refine h.slot p (hne.imp_left fun hstate hawake => hstate ?_)
      simp only [hawake]
    · intro hawake
      simp only [hawake]
    · intro chan hwaits
      cases hstate : (w.thread p).state with
      | sleeping c => simp only [hstate, State.waits] at hwaits
      | _ =>
        simp only [hstate] at hwaits
        exact hwaits

theorem start_ok (data : Nat → UInt8) : (start data).Ok := by
  refine ⟨?_, ?_, ?_, ?_, ?_⟩
  · intro p hp
    rcases hp with hp | hp <;> exact absurd rfl hp
  · intro p
    exact ⟨fun hf => absurd hf (by simp [start, Pc.holds]), fun hf => absurd hf (by simp [start])⟩
  · intro p hp
    rfl
  · intro p
    trivial
  · intro j chan hj
    exact hj.elim

/-- In a run in which `kill` strikes no writer between a byte it has stored
and its next `wakeup`, nobody sleeps through its condition. -/
theorem no_sleep_through {data : Nat → UInt8} (h : Reach next SparesWriters (start data) w) :
    w.NoSleepThrough :=
  (h.invariant (start_ok data) fun _ _ _ hok hcond hnext => hok.next hcond hnext).noSleepThrough

/-- `SparesWriters`, to be run. -/
def sparesCheck : Event → World → Bool
  | .kill p, w =>
    match (w.thread p).pc with
    | .write _ _ true => false
    | _ => true
  | _, _ => true

theorem sparesWriters_of_sparesCheck (e : Event) (w : World) (h : sparesCheck e w = true) :
    SparesWriters e w := by
  cases e with
  | kill p =>
    intro n i hpc
    simp [sparesCheck, hpc] at h
  | _ => trivial

/-- A reader finds the pipe empty and sleeps. -/
def readerSleeps : List Event :=
  [.readCall 1 1, .run 1 none true, .run 1 none true, .run 1 none true]

/-- A writer stores one of two bytes. -/
def writerStores : List Event :=
  [.writeCall 0 2, .run 0 none true, .run 0 (some 7) true]

/-- The writer gets no second byte, wakes the reader and returns. -/
theorem no_sleep_through_short : ∃ w, Reach next SparesWriters (start fun _ => 0) w ∧
    w.lock = none ∧ ¬w.ring.empty = true ∧ w.NoSleepThrough := by
  have hrun : ((follow next sparesCheck (readerSleeps ++ writerStores ++
      List.replicate (NPROC + 2) (.run 0 none true)) (start fun _ => 0)).any fun w =>
      w.lock = none ∧ ¬w.ring.empty = true) = true := by
    decide +kernel
  obtain ⟨w, hw, hfact⟩ := (Option.any_eq_true _ _).mp hrun
  have hreach : Reach next SparesWriters (start fun _ => 0) w :=
    Reach.start.follow sparesWriters_of_sparesCheck hw
  have hfact' : w.lock = none ∧ ¬w.ring.empty = true := by simpa using hfact
  exact ⟨w, hreach, hfact'.1, hfact'.2, no_sleep_through hreach⟩

/-- The writer is killed after its first byte and returns without a `wakeup`:
the reader sleeps on with a byte in the pipe. -/
theorem killed_writer_wakes_nobody : ∃ w, Reach next (fun _ _ => True) (start fun _ => 0) w ∧
    w.lock = none ∧ ¬w.ring.empty = true ∧ (w.thread 1).state = .sleeping .nread := by
  have hrun : ((follow next (fun _ _ => true) (readerSleeps ++ writerStores ++
      [.kill 0, .run 0 none true]) (start fun _ => 0)).any fun w =>
      w.lock = none ∧ ¬w.ring.empty = true ∧ (w.thread 1).state = .sleeping .nread) = true := by
    decide +kernel
  obtain ⟨w, hreach, hfact⟩ := Reach.of_any hrun
  refine ⟨w, hreach, ?_⟩
  simpa using hfact

end World

end Xv6.Pipe
