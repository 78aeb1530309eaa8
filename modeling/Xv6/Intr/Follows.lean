import Xv6.Lib.Trans
import Xv6.Intr.Model

/-!
# The interrupt flag follows the thread

`noff` and `intena` are kept by the processor, but they belong to the thread
that runs there. They agree because a thread leaves a processor only in
`sched`, with `noff` at one and `intena` in a local variable, and comes to one
only from `scheduler`, with `noff` at one; what a thread has to do with
`intena` it does after it has put its own value back.

`Safe` says of a list of operations that it can be run from a given depth with
given spinlocks: it never releases what is not held, and calls `sched` with
exactly the lock of its process. The code of `acquire`, `sleep` and the others
is safe where it is called, and every operation leaves a safe list.

`RunOk` relates a processor to its thread and `Parked` is what is known of a
thread that runs nowhere.
-/

namespace Xv6.Intr

open Xv6.Lib.Trans Function

variable {todo rest : List Op} {old : Bool} {s : PState}

/-! ## Safe lists -/

/-- Thread `t` can do the operations from depth `d` with the spinlocks `held`. -/
def Safe (t : Tid) : List Op → Nat → List LockId → Prop
  | [], d, held => held.length ≤ d
  | .pushOff :: rest, d, held | .intrOff _ :: rest, d, held | .count _ :: rest, d, held =>
    Safe t rest (d + 1) held
  | .spin lk :: rest, d, held => held.length < d ∧ lk ∉ held ∧ Safe t rest d (lk :: held)
  | .unlock lk :: rest, d, held => lk ∈ held ∧ Safe t rest d (held.erase lk)
  | .popOff :: rest, d, held => held.length < d ∧ Safe t rest (d - 1) held
  | .setState p s :: rest, d, held =>
    t = .proc p ∧ s ≠ .running ∧ rest.head? = some .sched ∧
      (rest = [.sched, .zombieExit] → s = .zombie) ∧ Safe t rest d held
  | .sched :: rest, d, held =>
    ∃ p, t = .proc p ∧ d = 1 ∧ held = [.proc p] ∧ (rest = [.zombieExit] ∨ Safe t rest 1 [.proc p])
  | .restore _ :: rest, d, held => d = 1 ∧ Safe t rest d held
  | .pick p :: rest, d, held => (∃ c, t = .sched c) ∧ d = 1 ∧ held = [.proc p] ∧ rest = []
  | .clearProc :: rest, d, held => (∃ c, t = .sched c) ∧ Safe t rest d held
  | .zombieExit :: _, _, _ => False

section Safe

variable {t : Tid} {d : Nat} {held : List LockId} {lk : LockId} {p : Nat}

theorem safe_acquire (hlen : held.length ≤ d) (hlk : lk ∉ held) : Safe t (acquire lk) d held :=
  ⟨Nat.lt_succ_of_le hlen, hlk, Nat.succ_le_succ hlen⟩

theorem safe_release (hlen : held.length ≤ d) (hlk : lk ∈ held) : Safe t (release lk) d held := by
  have hpos := List.length_pos_of_mem hlk
  have herase := List.length_erase_of_mem hlk
  exact ⟨hlk, by omega, by show _ ≤ _; omega⟩

theorem safe_yield : Safe (.proc p) (yield p) 0 [] := by
  refine ⟨Nat.one_pos, List.not_mem_nil, rfl, PState.noConfusion, rfl, nofun, p, rfl, rfl, rfl,
    .inr ?_⟩
  exact safe_release (Nat.le_refl 1) List.mem_cons_self

theorem safe_sleep : Safe (.proc p) (sleep p lk) 1 [lk] := by
  unfold sleep
  split
  · rename_i hne
    refine ⟨Nat.lt_succ_self 1, fun hmem => hne (List.mem_singleton.mp hmem).symm,
      List.mem_cons_of_mem _ List.mem_cons_self, ?_⟩
    have herase : (LockId.proc p :: [lk]).erase lk = [.proc p] := by
      rw [List.erase_cons_tail, List.erase_cons_head]
      simpa using fun heq => hne heq.symm
    rw [herase]
    refine ⟨Nat.lt_succ_self 1, rfl, PState.noConfusion, rfl, nofun, p, rfl, rfl, rfl, .inr ?_⟩
    refine ⟨List.mem_cons_self, ?_⟩
    rw [List.erase_cons_head]
    exact ⟨Nat.one_pos, Nat.one_pos, List.not_mem_nil, Nat.le_refl 1⟩
  · rename_i heq
    obtain rfl := not_not.mp heq
    exact ⟨rfl, PState.noConfusion, rfl, nofun, p, rfl, rfl, rfl, .inr (Nat.le_refl 1)⟩

theorem safe_exit : Safe (.proc p) (exit p) 1 [.proc p] :=
  ⟨rfl, PState.noConfusion, rfl, fun _ => rfl, p, rfl, rfl, rfl, .inl rfl⟩

/-- A process does not run the loop of `scheduler`. -/
theorem safe_no_pick {q : Nat} (h : Safe (.proc p) todo d held) : .pick q ∉ todo := by
  induction todo generalizing d held with
  | nil => exact List.not_mem_nil
  | cons o rest ih =>
    intro hmem
    rcases List.mem_cons.mp hmem with rfl | hin
    · obtain ⟨⟨c, hc⟩, -⟩ := h
      cases hc
    · cases o with
      | pushOff | intrOff | count => exact ih h hin
      | spin => exact ih h.2.2 hin
      | unlock | popOff | restore | clearProc => exact ih h.2 hin
      | setState => exact ih h.2.2.2.2 hin
      | sched =>
        obtain ⟨_, -, -, -, hrest⟩ := h
        rcases hrest with rfl | hrest
        · simp at hin
        · exact ih hrest hin
      | pick =>
        obtain ⟨⟨c, hc⟩, -⟩ := h
        cases hc
      | zombieExit => exact h

theorem safe_schedule {c : Nat} : Safe (.sched c) (acquire (.proc p) ++ [.pick p]) 0 [] :=
  ⟨Nat.one_pos, List.not_mem_nil, ⟨c, rfl⟩, rfl, rfl, rfl⟩

end Safe

/-! ## Processors and threads -/

/-- Not the rest of an operation that has begun. -/
def Op.plain : Op → Bool
  | .intrOff _ | .count _ | .restore _ => false
  | _ => true

def Op.setsState : Op → Bool
  | .setState .. => true
  | _ => false

/-- `sched` is only called after the state was set. -/
def paired : List Op → Bool
  | [] => true
  | o :: rest => (o.setsState || rest.head? != some .sched) && paired rest

/-- Only the first operation can have begun. -/
structure Shape (todo : List Op) : Prop where
  plain : ∀ o ∈ todo.tail, o.plain = true
  paired : paired todo = true

section Shape

variable {o o' : Op}

theorem Shape.tail (h : Shape (o :: rest)) : Shape rest :=
  ⟨fun x hx => h.plain x (List.mem_of_mem_tail hx), (Bool.and_eq_true_iff.mp h.paired).2⟩

theorem Shape.head_ne (h : Shape (o :: rest)) (ho : o.setsState = false) :
    rest.head? ≠ some .sched := by
  have hpair := (Bool.and_eq_true_iff.mp h.paired).1
  rw [ho, Bool.false_or, bne_iff_ne] at hpair
  exact hpair

theorem Shape.replace (h : Shape (o :: rest)) (ho : o.setsState = false) : Shape (o' :: rest) := by
  refine ⟨h.plain, Bool.and_eq_true_iff.mpr ⟨?_, (Bool.and_eq_true_iff.mp h.paired).2⟩⟩
  rw [Bool.or_eq_true_iff, bne_iff_ne]
  exact .inr (h.head_ne ho)

theorem Shape.of_all (h : (todo.tail.all Op.plain && Intr.paired todo) = true) : Shape todo :=
  ⟨List.all_eq_true.mp (Bool.and_eq_true_iff.mp h).1, (Bool.and_eq_true_iff.mp h).2⟩

end Shape

/-- What an interrupted thread was about to do. -/
structure Saved (t : Tid) (todo : List Op) : Prop where
  safe : Safe t todo 0 []
  shape : Shape todo
  pushes : ∀ old, todo.head? = some (.intrOff old) → old = true
  counts : ∀ old, todo.head? ≠ some (.count old)

/-- What holds of a thread on a processor whatever it is doing. -/
structure Poised (t : Tid) (th : Thread) : Prop where
  safe : Safe t th.todo th.depth th.held
  nodup : th.held.Nodup
  room : th.held.length ≤ th.depth
  shape : Shape th.todo
  /-- The loop of `scheduler` is not in a handler. -/
  picks : ∀ p, .pick p ∈ th.todo → th.saved = none

/-- A processor and the thread that runs on it. -/
structure RunOk (k : Cpu) (th : Thread) : Prop extends Poised k.run th where
  noff : k.noff = th.depth
  off : 0 < th.depth → k.sie = false
  pushes : ∀ old, th.todo.head? = some (.intrOff old) → k.sie = old
  counts : ∀ old, th.todo.head? = some (.count old) →
    k.sie = false ∧ (th.depth = 0 → th.entry = some old)
  restores : ∀ i, th.todo.head? = some (.restore i) → ∀ b, th.entry = some b → i = b
  intena : 0 < th.depth → (∀ i, th.todo.head? ≠ some (.restore i)) →
    ∀ b, th.entry = some b → k.intena = b
  trapped : ∀ todo, th.saved = some todo → k.sie = false ∧ Saved k.run todo ∧
    (0 < th.depth ∨ (∃ old, th.todo.head? = some (.count old)) → th.entry = some false)

section RunOk

variable {k : Cpu} {th : Thread} {t : Tid} {o : Op} {d : Nat} {held : List LockId}
  {e : Option Bool}

/-- The next operation is done. -/
theorem Poised.next (h : Poised t th) (htodo : th.todo = o :: rest) (hsafe : Safe t rest d held)
    (hnodup : held.Nodup) (hroom : held.length ≤ d) :
    Poised t { th with todo := rest, depth := d, held, entry := e } := by
  obtain ⟨todo, saved, depth, held, entry⟩ := th
  obtain rfl : todo = _ := htodo
  exact ⟨hsafe, hnodup, hroom, h.shape.tail, fun p hp => h.picks p (List.mem_cons_of_mem _ hp)⟩

theorem Poised.next_plain (h : Poised t th) (htodo : th.todo = o :: rest) (o' : Op)
    (ho' : rest.head? = some o') : o'.plain = true :=
  h.shape.plain o' (by rw [htodo]; exact List.mem_of_mem_head? ho')

theorem Poised.replace {q : Op} (h : Poised t th) (htodo : th.todo = o :: rest)
    (ho : o.setsState = false) (hpick : ∀ p, q ≠ .pick p)
    (hsafe : Safe t (q :: rest) th.depth th.held) :
    Poised t { th with todo := q :: rest, entry := e } := by
  obtain ⟨todo, saved, depth, held, entry⟩ := th
  obtain rfl : todo = _ := htodo
  refine ⟨hsafe, h.nodup, h.room, h.shape.replace ho, fun p hp => ?_⟩
  rcases List.mem_cons.mp hp with heq | hrest
  · exact absurd heq.symm (hpick p)
  · exact h.picks p (List.mem_cons_of_mem _ hrest)

theorem RunOk.of_plain (h : Poised k.run th) (hplain : ∀ o, th.todo.head? = some o → o.plain = true)
    (hnoff : k.noff = th.depth) (hoff : 0 < th.depth → k.sie = false)
    (hintena : 0 < th.depth → ∀ b, th.entry = some b → k.intena = b)
    (htrapped : ∀ todo, th.saved = some todo → k.sie = false ∧ Saved k.run todo ∧
      (0 < th.depth → th.entry = some false)) : RunOk k th where
  toPoised := h
  noff := hnoff
  off := hoff
  pushes old hold := absurd (hplain _ hold) Bool.false_ne_true
  counts old hold := absurd (hplain _ hold) Bool.false_ne_true
  restores i hi := absurd (hplain _ hi) Bool.false_ne_true
  intena hpos _ := hintena hpos
  trapped todo htodo := by
    obtain ⟨hsie, hsaved, hentry⟩ := htrapped todo htodo
    refine ⟨hsie, hsaved, fun hcase => ?_⟩
    rcases hcase with hpos | ⟨old, hold⟩
    · exact hentry hpos
    · exact absurd (hplain _ hold) Bool.false_ne_true

section

variable (h : RunOk k th)
include h

/-- What is known in a handler. -/
theorem RunOk.handler (todo : List Op) (hsaved : th.saved = some todo) :
    k.sie = false ∧ Saved k.run todo ∧ (0 < th.depth → th.entry = some false) := by
  obtain ⟨hsie, hs, hentry⟩ := h.trapped todo hsaved
  exact ⟨hsie, hs, fun hpos => hentry (.inl hpos)⟩

theorem RunOk.pushOff (htodo : th.todo = .pushOff :: rest) :
    RunOk k { th with todo := .intrOff k.sie :: rest } := by
  have hnext := h.replace (q := .intrOff k.sie) (e := th.entry) htodo rfl nofun
    (htodo ▸ h.safe :)
  obtain ⟨todo, saved, depth, held, entry⟩ := th
  obtain rfl : todo = _ := htodo
  constructor
  case toPoised => exact hnext
  case noff => exact h.noff
  case off => exact h.off
  case pushes =>
    intro old hold
    cases hold
    rfl
  case counts => exact nofun
  case restores => exact nofun
  case intena => exact fun hpos _ => h.intena hpos nofun
  case trapped =>
    intro todo hsaved
    obtain ⟨hsie, hs, hentry⟩ := h.handler todo hsaved
    refine ⟨hsie, hs, fun hcase => ?_⟩
    rcases hcase with hpos | ⟨old, hold⟩
    · exact hentry hpos
    · cases hold

theorem RunOk.intrOff (htodo : th.todo = .intrOff old :: rest) :
    RunOk { k with sie := false }
      { th with
        todo := .count old :: rest
        entry := if th.depth = 0 then some k.sie else th.entry } := by
  have hnext := h.replace (q := .count old) (e := if th.depth = 0 then some k.sie else th.entry)
    htodo rfl nofun (htodo ▸ h.safe :)
  obtain ⟨todo, saved, depth, held, entry⟩ := th
  obtain rfl : todo = _ := htodo
  have hold : k.sie = old := h.pushes old rfl
  constructor
  case toPoised => exact hnext
  case noff => exact h.noff
  case off => exact fun _ => rfl
  case pushes => exact nofun
  case counts =>
    intro old' hold'
    cases hold'
    exact ⟨rfl, fun hzero => by rw [if_pos hzero, hold]⟩
  case restores => exact nofun
  case intena =>
    intro hpos _ b hb
    rw [if_neg (Nat.ne_of_gt hpos)] at hb
    exact h.intena hpos nofun b hb
  case trapped =>
    intro todo hsaved
    obtain ⟨hsie, hs, hentry⟩ := h.handler todo hsaved
    refine ⟨rfl, hs, fun _ => ?_⟩
    show (if depth = 0 then some k.sie else entry) = some false
    split
    · rw [hsie]
    · rename_i hne
      exact hentry (Nat.pos_of_ne_zero hne)

theorem RunOk.count (htodo : th.todo = .count old :: rest) :
    RunOk { k with intena := if k.noff = 0 then old else k.intena, noff := k.noff + 1 }
      { th with todo := rest, depth := th.depth + 1 } := by
  have hnext := h.next (e := th.entry) htodo (htodo ▸ h.safe :) h.nodup
    (Nat.le_succ_of_le h.room)
  obtain ⟨hsie, hentry⟩ := h.counts old (by rw [htodo]; rfl)
  have hnoff := h.noff
  refine .of_plain hnext (h.next_plain htodo) ?_ (fun _ => hsie) (fun _ b hb => ?_)
    fun todo hsaved => ?_
  · show k.noff + 1 = ((th.depth + 1 : Nat) : Int)
    omega
  · show (if k.noff = 0 then old else k.intena) = b
    split
    · rename_i hzero
      exact Option.some.inj ((hentry (by omega)).symm.trans hb)
    · exact h.intena (by omega) (by rw [htodo]; exact nofun) b hb
  · obtain ⟨hsie', hs, hfalse⟩ := h.trapped todo hsaved
    exact ⟨hsie', hs, fun _ => hfalse (.inr ⟨old, by rw [htodo]; rfl⟩)⟩

/-- The flag, `noff` and `intena` stay as they are. -/
theorem RunOk.goto {proc : Option Nat}
    (hquiet : ∀ i, th.todo.head? ≠ some (.restore i)) (hnext : Poised k.run { th with todo, held })
    (hplain : ∀ o, todo.head? = some o → o.plain = true) :
    RunOk { k with proc } { th with todo, held } :=
  .of_plain hnext hplain h.noff h.off (fun hpos => h.intena hpos hquiet) h.handler

theorem RunOk.done {proc : Option Nat} (htodo : th.todo = o :: rest)
    (ho : o.plain = true) (hsafe : Safe k.run rest th.depth held) (hnodup : held.Nodup)
    (hroom : held.length ≤ th.depth) : RunOk { k with proc } { th with todo := rest, held } := by
  refine h.goto (fun i hi => ?_) (h.next htodo hsafe hnodup hroom) (h.next_plain htodo)
  rw [htodo] at hi
  cases hi
  cases ho

theorem RunOk.popOff (htodo : th.todo = .popOff :: rest) :
    RunOk { k with
        noff := k.noff - 1
        sie := if k.noff - 1 = 0 ∧ k.intena = true then true else k.sie }
      { th with todo := rest, depth := th.depth - 1 } := by
  obtain ⟨hlt, hsafe⟩ : Safe _ (.popOff :: rest) _ _ := htodo ▸ h.safe
  have hnext := h.next (e := th.entry) htodo hsafe h.nodup (Nat.le_sub_one_of_lt hlt)
  have hnoff := h.noff
  have hsie := h.off (by omega)
  have hintena := h.intena (by omega) (by rw [htodo]; exact nofun)
  have hstay : ∀ {P : Prop}, 0 < th.depth - 1 → k.noff - 1 = 0 → P := fun hpos hzero => by omega
  refine .of_plain hnext (h.next_plain htodo) ?_ (fun hpos => ?_) (fun _ => hintena)
    fun todo hsaved => ?_
  · show k.noff - 1 = ((th.depth - 1 : Nat) : Int)
    omega
  · show (if k.noff - 1 = 0 ∧ k.intena = true then true else k.sie) = false
    rw [if_neg fun hzero => hstay hpos hzero.1]
    exact hsie
  · obtain ⟨-, hs, hentry⟩ := h.handler todo hsaved
    have hfalse := hentry (by omega)
    refine ⟨?_, hs, fun _ => hfalse⟩
    show (if k.noff - 1 = 0 ∧ k.intena = true then true else k.sie) = false
    rw [if_neg, hsie]
    -- the handler began with the flag clear
    rw [hintena false hfalse]
    exact fun hcase => Bool.false_ne_true hcase.2

theorem RunOk.restore {i : Bool} (htodo : th.todo = .restore i :: rest) :
    RunOk { k with intena := i } { th with todo := rest } := by
  obtain ⟨-, hsafe⟩ : Safe _ (.restore i :: rest) _ _ := htodo ▸ h.safe
  exact .of_plain (h.next (e := th.entry) htodo hsafe h.nodup h.room) (h.next_plain htodo) h.noff
    h.off (fun _ => h.restores i (by rw [htodo]; rfl)) h.handler

theorem RunOk.setFlag {b : Bool} (htodo : th.todo = []) (hdepth : th.depth = 0)
    (hb : b = true → th.saved = none) : RunOk { k with sie := b } th := by
  have hpos : ∀ {P : Prop}, 0 < th.depth → P := fun hlt => absurd hdepth (Nat.ne_of_gt hlt)
  refine .of_plain h.toPoised ?_ h.noff (fun hlt => hpos hlt) (fun hlt => hpos hlt)
    fun todo hsaved => ⟨?_, (h.trapped todo hsaved).2.1, fun hlt => hpos hlt⟩
  · rw [htodo]
    exact nofun
  · cases b with
    | false => rfl
    | true => exact absurd ((hb rfl).symm.trans hsaved) nofun

theorem RunOk.trap (hsie : k.sie = true) :
    RunOk { k with sie := false } { th with saved := some th.todo, todo := [] } := by
  have hdepth : th.depth = 0 := by
    by_contra hne
    exact absurd (hsie.symm.trans (h.off (Nat.pos_of_ne_zero hne))) nofun
  have hheld : th.held = [] := List.length_eq_zero_iff.mp (by have := h.room; omega)
  have hpos : ∀ {P : Prop}, 0 < th.depth → P := fun hlt => absurd hdepth (Nat.ne_of_gt hlt)
  refine .of_plain ⟨h.room, h.nodup, h.room, .of_all rfl, nofun⟩ nofun h.noff (fun _ => rfl)
    (fun hlt => hpos hlt) fun todo hsaved => ⟨rfl, ?_, fun hlt => hpos hlt⟩
  cases hsaved
  have hsafe := h.safe
  rw [hdepth, hheld] at hsafe
  refine ⟨hsafe, h.shape, fun old hold => ?_, fun old hold => ?_⟩
  · rw [← h.pushes old hold]
    exact hsie
  · exact absurd (hsie.symm.trans (h.counts old hold).1) nofun

theorem RunOk.sret (hsaved : th.saved = some todo) (hdepth : th.depth = 0) :
    RunOk { k with sie := true } { th with saved := none, todo } := by
  have hheld : th.held = [] := List.length_eq_zero_iff.mp (by have := h.room; omega)
  have hpos : ∀ {P : Prop}, 0 < th.depth → P := fun hlt => absurd hdepth (Nat.ne_of_gt hlt)
  obtain ⟨-, hs, -⟩ := h.trapped todo hsaved
  constructor
  case toPoised =>
    refine ⟨?_, h.nodup, h.room, hs.shape, fun _ _ => rfl⟩
    show Safe k.run todo th.depth th.held
    rw [hdepth, hheld]
    exact hs.safe
  case noff => exact h.noff
  case off => exact fun hlt => hpos hlt
  case pushes => exact fun old hold => (hs.pushes old hold).symm
  case counts => exact fun old hold => absurd hold (hs.counts old)
  case restores =>
    intro i hi
    obtain ⟨rest, hrest⟩ := List.head?_eq_some_iff.mp hi
    have hsafe := hs.safe
    dsimp only at hrest
    rw [hrest] at hsafe
    exact absurd hsafe.1 (by decide)
  case intena => exact fun hlt => hpos hlt
  case trapped => exact nofun

end

end RunOk

/-- A process that runs nowhere and may run again. -/
structure Parked (p : Nat) (th : Thread) : Prop where
  depth : th.depth = 1
  safe : Safe (.proc p) th.todo 1 [.proc p]
  shape : Shape th.todo
  resume : (∃ i rest, th.todo = .restore i :: rest ∧ ∀ b, th.entry = some b → i = b) ∨
    th.entry = none ∧ th.todo = release (.proc p)
  trapped : ∀ todo, th.saved = some todo → Saved (.proc p) todo ∧ th.entry = some false

/-- A process sets its state right before it calls `sched`. -/
def StateOk (s : PState) : List Op → Prop
  | .sched :: rest => s ≠ .running ∧ (rest = [.zombieExit] → s = .zombie)
  | _ => s = .running

theorem stateOk_of_head (h : todo.head? ≠ some .sched) : StateOk s todo ↔ s = .running := by
  cases todo with
  | nil => exact Iff.rfl
  | cons o rest => cases o <;> first | exact Iff.rfl | exact absurd rfl h

namespace World

structure Ok (w : World) : Prop where
  run : ∀ c, RunOk (w.cpu c) (w.live c)
  own : ∀ c, (w.cpu c).run = .sched c ∨ ∃ p, (w.cpu c).run = .proc p ∧ (w.cpu c).proc = some p ∧
    (w.thread (.sched c)).todo = .clearProc :: release (.proc p) ∧
    (w.thread (.sched c)).depth = 1 ∧ (w.thread (.sched c)).saved = none
  alone : ∀ c d, (w.cpu c).run = (w.cpu d).run → c = d
  locks : ∀ c lk, w.lock lk = some c ↔ lk ∈ (w.live c).held
  state : ∀ c p, (w.cpu c).run = .proc p → StateOk (w.state p) (w.live c).todo
  parked : ∀ p, (∀ c, (w.cpu c).run ≠ .proc p) → w.state p = .sleeping ∨ w.state p = .runnable →
    Parked p (w.thread (.proc p))

variable {w w' : World} {c d p : Nat} {lk : LockId}

/-- An event on `c` after which thread `t` runs there, the one before it or
one that ran nowhere. -/
theorem Ok.switch {t : Tid} (h : w.Ok) (hcpu : ∀ d ≠ c, w'.cpu d = w.cpu d)
    (hrun : (w'.cpu c).run = t) (hfree : ∀ d ≠ c, (w.cpu d).run ≠ t)
    (hthread : ∀ x ≠ (w.cpu c).run, x ≠ t → w'.thread x = w.thread x)
    (hok : RunOk (w'.cpu c) (w'.live c))
    (hown : t = .sched c ∨ ∃ p, t = .proc p ∧ (w'.cpu c).proc = some p ∧
      (w'.thread (.sched c)).todo = .clearProc :: release (.proc p) ∧
      (w'.thread (.sched c)).depth = 1 ∧ (w'.thread (.sched c)).saved = none)
    (hlocks : ∀ lk, (w'.lock lk = some c ↔ lk ∈ (w'.live c).held) ∧
      ∀ d ≠ c, (w'.lock lk = some d ↔ w.lock lk = some d))
    (hself : ∀ p, t = .proc p → StateOk (w'.state p) (w'.live c).todo)
    (hstate : ∀ p, (w.cpu c).run ≠ .proc p → t ≠ .proc p → w'.state p = w.state p)
    (hparked : ∀ p, (w.cpu c).run = .proc p → t ≠ .proc p →
      w'.state p = .sleeping ∨ w'.state p = .runnable → Parked p (w'.thread (.proc p))) : w'.Ok := by
  have hlive : ∀ d ≠ c, w'.live d = w.live d := fun d hd => by
    unfold live
    rw [hcpu d hd, hthread _ (fun heq => hd (h.alone d c heq)) (hfree d hd)]
  constructor
  case run =>
    intro d
    by_cases hd : d = c
    · rw [hd]
      exact hok
    · rw [hcpu d hd, hlive d hd]
      exact h.run d
  case own =>
    intro d
    by_cases hd : d = c
    · subst hd
      rw [hrun]
      exact hown
    rw [hcpu d hd]
    refine (h.own d).imp_right fun ⟨p, hp, hpd, hsched⟩ => ⟨p, hp, hpd, ?_⟩
    -- the scheduler of `d` does not run on `c`
    rwa [hthread]
    · rcases h.own c with hs | ⟨q, hq, -⟩
      · rw [hs]
        exact fun heq => hd (Tid.sched.inj heq)
      · rw [hq]
        nofun
    · rcases hown with rfl | ⟨q, rfl, -⟩
      · exact fun heq => hd (Tid.sched.inj heq)
      · nofun
  case alone =>
    intro d e heq
    by_cases hd : d = c <;> by_cases he : e = c
    · rw [hd, he]
    · rw [hd, hrun, hcpu e he] at heq
      exact absurd heq.symm (hfree e he)
    · rw [he, hrun, hcpu d hd] at heq
      exact absurd heq (hfree d hd)
    · rw [hcpu d hd, hcpu e he] at heq
      exact h.alone d e heq
  case locks =>
    intro d lk
    by_cases hd : d = c
    · subst hd
      exact (hlocks lk).1
    · rw [hlive d hd, (hlocks lk).2 d hd]
      exact h.locks d lk
  case state =>
    intro d p hp
    by_cases hd : d = c
    · subst hd
      exact hself p (hrun.symm.trans hp)
    · rw [hcpu d hd] at hp
      rw [hlive d hd, hstate p (fun heq => hd (h.alone d c (hp.trans heq.symm)))
        fun heq => hfree d hd (hp.trans heq.symm)]
      exact h.state d p hp
  case parked =>
    intro p hp hs
    have ht : t ≠ .proc p := hrun ▸ hp c
    by_cases hc : (w.cpu c).run = .proc p
    · exact hparked p hc ht hs
    rw [hstate p hc ht] at hs
    rw [hthread _ (Ne.symm hc) ht.symm]
    refine h.parked p (fun d hd => ?_) hs
    by_cases hdc : d = c
    · exact hc (hdc ▸ hd)
    · exact hp d (by rw [hcpu d hdc, hd])

/-! ### The shape of an event on one processor -/

/-- Processor `c` and its thread change, and the spinlocks and states. -/
def change (w : World) (c : Nat) (k : Cpu) (th : Thread) (lock : LockId → Option Nat)
    (state : Nat → PState) : World where
  cpu := Function.update w.cpu c k
  thread := Function.update w.thread (w.cpu c).run th
  lock := lock
  state := state

theorem setLive_eq (w : World) (c : Nat) (g : Thread → Thread) :
    w.setLive c g = w.change c (w.cpu c) (g (w.live c)) w.lock w.state := by
  unfold change
  rw [update_eq_self]
  rfl

theorem setCpu_setLive_eq (w : World) (c : Nat) (f : Cpu → Cpu) (g : Thread → Thread)
    (hf : (f (w.cpu c)).run = (w.cpu c).run) :
    (w.setCpu c f).setLive c g = w.change c (f (w.cpu c)) (g (w.live c)) w.lock w.state := by
  unfold setLive setThread setCpu change live
  simp only [update_self, hf]

theorem setCpu_eq (w : World) (c : Nat) (f : Cpu → Cpu) :
    w.setCpu c f = w.change c (f (w.cpu c)) (w.live c) w.lock w.state := by
  unfold setCpu change live
  rw [update_eq_self]

/-- The rule for such events. -/
theorem Ok.change {k : Cpu} {th : Thread} {lock : LockId → Option Nat} {state : Nat → PState}
    (h : w.Ok) (hrun : k.run = (w.cpu c).run)
    (hproc : ∀ p, (w.cpu c).run = .proc p → k.proc = (w.cpu c).proc) (hok : RunOk k th)
    (hlocks : ∀ lk, (lock lk = some c ↔ lk ∈ th.held) ∧
      ∀ d ≠ c, (lock lk = some d ↔ w.lock lk = some d))
    (hself : ∀ p, (w.cpu c).run = .proc p → StateOk (state p) th.todo)
    (hstate : ∀ p, (w.cpu c).run ≠ .proc p → state p = w.state p) :
    (w.change c k th lock state).Ok := by
  have hk : (w.change c k th lock state).cpu c = k := update_self _ _ _
  have hlive : (w.change c k th lock state).live c = th := by
    simp only [live, World.change, update_self, hrun]
  refine h.switch (fun d hd => update_of_ne hd _ _) (by rw [hk, hrun])
    (fun d hd heq => hd (h.alone d c heq)) (fun t ht _ => update_of_ne ht _ _) ?_ ?_ ?_ ?_
    (fun p hp _ => hstate p hp) fun p hp hne => absurd hp hne
  · rw [hk, hlive]
    exact hok
  · refine (h.own c).imp_right fun ⟨p, hp, hpc, hown⟩ => ⟨p, hp, ?_, ?_⟩
    · rw [hk, hproc p hp, hpc]
    · have hsched : (w.change c k th lock state).thread (.sched c) = w.thread (.sched c) :=
        update_of_ne (by rw [hp]; nofun) _ _
      rw [hsched]
      exact hown
  · rw [hlive]
    exact hlocks
  · rw [hlive]
    exact hself

/-- The same for events that leave spinlocks and states alone. -/
theorem Ok.change_quiet {k : Cpu} {th : Thread} (h : w.Ok) (hok : RunOk k th)
    (hold : (w.live c).todo.head? ≠ some .sched) (hhead : th.todo.head? ≠ some .sched)
    (hproc : ∀ p, (w.cpu c).run = .proc p → k.proc = (w.cpu c).proc := by exact fun _ _ => rfl)
    (hrun : k.run = (w.cpu c).run := by rfl) (hheld : th.held = (w.live c).held := by rfl) :
    (w.change c k th w.lock w.state).Ok := by
  refine h.change hrun hproc hok (fun lk => ⟨?_, fun _ _ => Iff.rfl⟩) (fun p hp => ?_)
    fun _ _ => rfl
  · rw [h.locks, hheld]
  · rw [stateOk_of_head hhead, ← stateOk_of_head hold]
    exact h.state c p hp

/-! ### Operations -/

/-- A spinlock changes hands. -/
theorem ok_setLock {o : Op} {x : Option Nat} {held : List LockId} (h : w.Ok)
    (htodo : (w.live c).todo = o :: rest) (ho : o.setsState = false ∧ o ≠ .sched)
    (hok : RunOk (w.cpu c) { w.live c with todo := rest, held })
    (hlocks : ∀ lk', (update w.lock lk x lk' = some c ↔ lk' ∈ held) ∧
      ∀ d ≠ c, (update w.lock lk x lk' = some d ↔ w.lock lk' = some d)) :
    ((w.setLock lk x).setLive c fun t => { t with todo := rest, held }).Ok := by
  have hshape := (h.run c).shape
  rw [htodo] at hshape
  rw [setLive_eq]
  refine h.change rfl (fun _ _ => rfl) hok hlocks (fun p hp => ?_) fun _ _ => rfl
  have hstate := h.state c p hp
  have hhead : (o :: rest).head? ≠ some .sched := fun heq => ho.2 (Option.some.inj heq)
  rw [htodo, stateOk_of_head hhead] at hstate
  rw [stateOk_of_head (hshape.head_ne ho.1)]
  exact hstate

theorem ok_spin (h : w.Ok) (htodo : (w.live c).todo = .spin lk :: rest) (hfree : w.lock lk = none) :
    ((w.setLock lk (some c)).setLive c fun t => { t with todo := rest, held := lk :: t.held }).Ok := by
  have hrun := h.run c
  obtain ⟨hlt, hmem, hsafe⟩ : Safe _ (.spin lk :: rest) _ _ := htodo ▸ hrun.safe
  refine ok_setLock h htodo ⟨rfl, nofun⟩
    (hrun.done htodo rfl hsafe (List.nodup_cons.mpr ⟨hmem, hrun.nodup⟩) hlt) fun lk' => ?_
  by_cases hlk : lk' = lk
  · subst hlk
    rw [update_self, hfree]
    exact ⟨⟨fun _ => List.mem_cons_self, fun _ => rfl⟩, fun d hd =>
      ⟨fun heq => absurd (Option.some.inj heq).symm hd, nofun⟩⟩
  · rw [update_of_ne hlk, h.locks, List.mem_cons]
    exact ⟨⟨.inr, fun hor => hor.resolve_left hlk⟩, fun _ _ => Iff.rfl⟩

theorem ok_unlock (h : w.Ok) (htodo : (w.live c).todo = .unlock lk :: rest) :
    ((w.setLock lk none).setLive c
      fun t => { t with todo := rest, held := t.held.erase lk }).Ok := by
  have hrun := h.run c
  obtain ⟨hmem, hsafe⟩ : Safe _ (.unlock lk :: rest) _ _ := htodo ▸ hrun.safe
  refine ok_setLock h htodo ⟨rfl, nofun⟩ (hrun.done htodo rfl hsafe (hrun.nodup.erase lk)
    (Nat.le_trans List.length_erase_le hrun.room)) fun lk' => ?_
  by_cases hlk : lk' = lk
  · subst hlk
    rw [update_self, (h.locks c lk').mpr hmem]
    exact ⟨⟨nofun, fun hin => absurd hin hrun.nodup.not_mem_erase⟩, fun d hd =>
      ⟨nofun, fun heq => absurd (Option.some.inj heq).symm hd⟩⟩
  · rw [update_of_ne hlk, h.locks, List.mem_erase_of_ne hlk]
    exact ⟨Iff.rfl, fun _ _ => Iff.rfl⟩

theorem ok_setState (h : w.Ok) (htodo : (w.live c).todo = .setState p s :: rest) :
    ((w.setState p s).goto c rest).Ok := by
  have hrun := h.run c
  obtain ⟨ht, hs, hhead, hzombie, hsafe⟩ : Safe _ (.setState p s :: rest) _ _ := htodo ▸ hrun.safe
  rw [goto, setLive_eq]
  refine h.change rfl (fun _ _ => rfl) (hrun.done htodo rfl hsafe hrun.nodup hrun.room)
    (fun lk => ⟨h.locks c lk, fun _ _ => Iff.rfl⟩) (fun q hq => ?_) fun q hq => ?_
  · obtain rfl := Tid.proc.inj (ht.symm.trans hq)
    show StateOk (update w.state p s p) rest
    rw [update_self]
    obtain ⟨r, rfl⟩ := List.head?_eq_some_iff.mp hhead
    exact ⟨hs, fun hr => hzombie (by rw [hr])⟩
  · refine update_of_ne (fun heq => hq ?_) _ _
    rw [heq]
    exact ht

/-- A process whose lock is held elsewhere and that does not run its own code
runs nowhere. -/
theorem Ok.not_live (h : w.Ok) (hlock : w.lock (.proc p) = some c) (hstate : w.state p ≠ .running)
    (hc : (w.live c).todo.head? ≠ some .sched) (d : Nat) : (w.cpu d).run ≠ .proc p := by
  intro hd
  have hs := h.state d p hd
  have hsched : (w.live d).todo.head? = some .sched := by
    by_contra hne
    exact hstate ((stateOk_of_head hne).mp hs)
  have hdc : d ≠ c := fun heq => hc (heq ▸ hsched)
  obtain ⟨rest, hrest⟩ := List.head?_eq_some_iff.mp hsched
  obtain ⟨q, hq, -, hheld, -⟩ : Safe _ (.sched :: rest) _ _ := hrest ▸ (h.run d).safe
  obtain rfl := Tid.proc.inj (hd.symm.trans hq)
  have hmem : LockId.proc p ∈ (w.live d).held := by
    rw [hheld]
    exact List.mem_cons_self
  exact hdc (Option.some.inj (((h.locks d _).mpr hmem).symm.trans hlock))

/-! ### Context switches -/

theorem nodup_one (lk : LockId) : [lk].Nodup := List.nodup_cons.mpr ⟨List.not_mem_nil, .nil⟩

theorem cpu_swtchOut (w : World) (c p : Nat) (rest : List Op) (d : Nat) :
    (w.swtchOut c p rest).cpu d = if d = c then { w.cpu c with run := .sched c } else w.cpu d := by
  unfold swtchOut
  exact update_apply _ _ _ _

theorem thread_swtchOut (w : World) (c p : Nat) (rest : List Op) (t : Tid) :
    (w.swtchOut c p rest).thread t =
      if t = .sched c then { w.thread (.sched c) with held := [.proc p], entry := none }
      else if t = .proc p then
        { w.thread (.proc p) with todo := .restore (w.cpu c).intena :: rest, held := [] }
      else w.thread t := by
  unfold swtchOut setCpu
  simp only [setThread, update_apply, reduceCtorEq, if_false]

theorem ok_swtchOut (h : w.Ok) (hp : (w.cpu c).run = .proc p)
    (htodo : (w.live c).todo = .sched :: rest) : (w.swtchOut c p rest).Ok := by
  have hrun := h.run c
  have hthread : w.live c = w.thread (.proc p) := by rw [live, hp]
  obtain ⟨q, hq, hdepth, hheld, hrest⟩ : Safe _ (.sched :: rest) _ _ := htodo ▸ hrun.safe
  obtain rfl := Tid.proc.inj (hp.symm.trans hq)
  obtain ⟨hpc, hsched, hone, hsaved⟩ : (w.cpu c).proc = some p ∧
      (w.thread (.sched c)).todo = .clearProc :: release (.proc p) ∧
      (w.thread (.sched c)).depth = 1 ∧ (w.thread (.sched c)).saved = none := by
    rcases h.own c with hs | ⟨r, hr, hown⟩
    · exact Tid.noConfusion (hp.symm.trans hs)
    · obtain rfl := Tid.proc.inj (hp.symm.trans hr)
      exact hown
  have hlive : (w.swtchOut c p rest).live c =
      { w.thread (.sched c) with held := [.proc p], entry := none } := by
    rw [live, cpu_swtchOut, if_pos rfl, thread_swtchOut, if_pos rfl]
  refine h.switch (t := .sched c) (fun d hd => ?_) ?_ (fun d hd heq => ?_) (fun x hx hs => ?_) ?_
    (.inl rfl) (fun lk => ⟨?_, fun _ _ => Iff.rfl⟩) nofun (fun _ _ _ => rfl) fun q hq _ hsq => ?_
  · rw [cpu_swtchOut, if_neg hd]
  · rw [cpu_swtchOut, if_pos rfl]
  · rcases h.own d with hs | ⟨r, hr, -⟩
    · exact hd (Tid.sched.inj (hs.symm.trans heq))
    · exact Tid.noConfusion (hr.symm.trans heq)
  · rw [thread_swtchOut, if_neg hs, if_neg (hp ▸ hx)]
  · rw [hlive, cpu_swtchOut, if_pos rfl]
    refine .of_plain ⟨?_, nodup_one _, Nat.le_of_eq hone.symm, ?_, fun _ _ => hsaved⟩ ?_ ?_
      (fun _ => hrun.off (by omega)) (fun _ => nofun) ?_
    · show Safe (.sched c) (w.thread (.sched c)).todo (w.thread (.sched c)).depth [.proc p]
      rw [hsched, hone]
      exact ⟨⟨c, rfl⟩, safe_release (Nat.le_refl 1) List.mem_cons_self⟩
    · show Shape (w.thread (.sched c)).todo
      rw [hsched]
      exact .of_all rfl
    · show ∀ o, (w.thread (.sched c)).todo.head? = some o → o.plain = true
      rw [hsched]
      rintro o ho
      cases ho
      rfl
    · show (w.cpu c).noff = (w.thread (.sched c)).depth
      rw [hrun.noff, hdepth, hone]
    · show ∀ todo, (w.thread (.sched c)).saved = some todo → _
      rw [hsaved]
      exact nofun
  · show w.lock lk = some c ↔ _
    rw [h.locks, hlive, hheld]
  · obtain rfl := Tid.proc.inj (hp.symm.trans hq)
    rw [thread_swtchOut, if_neg nofun, if_pos rfl]
    -- it has just left, and is not a zombie
    have hstate := h.state c p hp
    rw [htodo] at hstate
    have hsafe : Safe (.proc p) rest 1 [.proc p] := by
      rcases hrest with hrest | hrest
      · change w.state p = .sleeping ∨ w.state p = .runnable at hsq
        rw [hstate.2 hrest] at hsq
        rcases hsq with hsq | hsq <;> cases hsq
      · rw [hp] at hrest
        exact hrest
    have hshape := hrun.shape
    have hintena := hrun.intena
    rw [htodo] at hshape hintena
    refine ⟨by rw [← hthread]; exact hdepth, ⟨rfl, hsafe⟩, hshape.replace rfl,
      .inl ⟨_, _, rfl, fun b hb => hintena (by omega) nofun b (by rw [hthread]; exact hb)⟩, ?_⟩
    intro todo hsv
    obtain ⟨-, hs', hentry⟩ := hrun.trapped todo (by rw [hthread]; exact hsv)
    rw [hp] at hs'
    have hfalse := hentry (.inl (by omega))
    rw [hthread] at hfalse
    exact ⟨hs', hfalse⟩

theorem cpu_swtchIn (w : World) (c p : Nat) (rest : List Op) (d : Nat) :
    (w.swtchIn c p rest).cpu d =
      if d = c then { w.cpu c with proc := some p, run := .proc p } else w.cpu d := by
  unfold swtchIn
  exact update_apply _ _ _ _

theorem thread_swtchIn (w : World) (c p : Nat) (rest : List Op) (t : Tid) :
    (w.swtchIn c p rest).thread t =
      if t = .proc p then { w.thread (.proc p) with held := [.proc p] } else if t = .sched c then
        { w.thread (.sched c) with todo := .clearProc :: (release (.proc p) ++ rest), held := [] }
      else w.thread t := by
  unfold swtchIn setCpu
  simp only [setThread, World.setState, update_apply, reduceCtorEq, if_false]

theorem ok_swtchIn (h : w.Ok) (htodo : (w.live c).todo = .pick p :: rest)
    (hready : w.state p = .runnable) : (w.swtchIn c p rest).Ok := by
  have hrun := h.run c
  obtain ⟨⟨c', hc'⟩, hdepth, hheld, rfl⟩ : Safe _ (.pick p :: rest) _ _ := htodo ▸ hrun.safe
  have hsched : (w.cpu c).run = .sched c := by
    rcases h.own c with hs | ⟨q, hq, -⟩
    · exact hs
    · exact Tid.noConfusion (hq.symm.trans hc')
  have hthread : w.live c = w.thread (.sched c) := by rw [live, hsched]
  have hlock : w.lock (.proc p) = some c := (h.locks c _).mpr (by rw [hheld]; exact List.mem_cons_self)
  have hnot : ∀ d, (w.cpu d).run ≠ .proc p :=
    h.not_live hlock (by rw [hready]; exact PState.noConfusion) (by rw [htodo]; nofun)
  have hpark := h.parked p hnot (.inr hready)
  have hsaved := hrun.picks p (by rw [htodo]; exact List.mem_cons_self)
  have hlive : (w.swtchIn c p []).live c = { w.thread (.proc p) with held := [.proc p] } := by
    rw [live, cpu_swtchIn, if_pos rfl, thread_swtchIn, if_pos rfl]
  have hhead : ∀ o, (w.thread (.proc p)).todo.head? = some o →
      (∃ i, o = .restore i ∧ ∀ b, (w.thread (.proc p)).entry = some b → i = b) ∨
        o = .unlock (.proc p) ∧ (w.thread (.proc p)).entry = none := by
    intro o ho
    rcases hpark.resume with ⟨i, r, hr, hi⟩ | ⟨hnone, hr⟩
    · rw [hr] at ho
      cases ho
      exact .inl ⟨i, rfl, hi⟩
    · rw [hr] at ho
      cases ho
      exact .inr ⟨rfl, hnone⟩
  have hcpu : (w.swtchIn c p []).cpu c = { w.cpu c with proc := some p, run := .proc p } := by
    rw [cpu_swtchIn, if_pos rfl]
  refine h.switch (t := .proc p) (fun d hd => ?_) ?_ (fun d _ => hnot d) (fun x hx ht => ?_) ?_
    (.inr ⟨p, rfl, ?_, ?_⟩) (fun lk => ⟨?_, fun _ _ => Iff.rfl⟩) (fun q hq => ?_) (fun q _ hq => ?_)
    fun q hq => absurd (hsched.symm.trans hq) nofun
  · rw [cpu_swtchIn, if_neg hd]
  · rw [hcpu]
  · rw [thread_swtchIn, if_neg ht, if_neg (hsched ▸ hx)]
  · rw [hlive, hcpu]
    have hsie : (w.cpu c).sie = false := hrun.off (by omega)
    constructor
    case toPoised =>
      refine ⟨?_, nodup_one _, Nat.le_of_eq hpark.depth.symm, hpark.shape,
        fun q hq => absurd hq (safe_no_pick hpark.safe)⟩
      show Safe (.proc p) (w.thread (.proc p)).todo (w.thread (.proc p)).depth [.proc p]
      rw [hpark.depth]
      exact hpark.safe
    case noff =>
      show (w.cpu c).noff = (w.thread (.proc p)).depth
      rw [hrun.noff, hdepth, hpark.depth]
    case off => exact fun _ => hsie
    case pushes | counts =>
      intro old hold
      rcases hhead _ hold with ⟨i, hi, -⟩ | ⟨hi, -⟩ <;> cases hi
    case restores =>
      intro i hi
      rcases hhead _ hi with ⟨j, hj, hb⟩ | ⟨hj, -⟩
      · cases hj
        exact hb
      · cases hj
    case intena =>
      intro _ hne b hb
      rcases hpark.resume with ⟨i, r, hr, -⟩ | ⟨hnone, -⟩
      · exact absurd (by show (w.thread (.proc p)).todo.head? = _; rw [hr]; rfl) (hne i)
      · exact absurd (hnone.symm.trans hb) nofun
    case trapped =>
      intro todo hsv
      obtain ⟨hs, hentry⟩ := hpark.trapped todo hsv
      exact ⟨hsie, hs, fun _ => hentry⟩
  · rw [hcpu]
  · rw [thread_swtchIn, if_neg nofun, if_pos rfl]
    rw [hthread] at hdepth hsaved
    exact ⟨rfl, hdepth, hsaved⟩
  · show w.lock lk = some c ↔ _
    rw [h.locks, hlive, hheld]
  · obtain rfl := Tid.proc.inj hq
    show StateOk (update w.state p .running p) _
    rw [update_self, hlive, stateOk_of_head]
    intro hsch
    rcases hhead _ hsch with ⟨i, hi, -⟩ | ⟨hi, -⟩ <;> cases hi
  · exact update_of_ne (fun heq => hq (by rw [heq])) _ _

/-! ### Steps -/

/-- A step keeps the invariant, or cannot happen; it does not panic. -/
def Fine (r : Except Stop World) : Prop := (∃ w', r = .ok w' ∧ w'.Ok) ∨ r = .error .stuck

theorem fine_ok (h : w'.Ok) : Fine (.ok w') := .inl ⟨w', rfl, h⟩

theorem fine_ite {P : Prop} [Decidable P] {r : Except Stop World} (h : P → Fine r) :
    Fine (if P then r else .error .stuck) := by
  split_ifs with hP
  · exact h hP
  · exact .inr rfl

theorem fine_op (h : w.Ok) (c : Nat) : Fine (w.op c) := by
  have hrun := h.run c
  have hsafe := hrun.safe
  have hshape := hrun.shape
  have hold : ∀ {o : Op} {rest : List Op}, (w.live c).todo = o :: rest → o ≠ .sched →
      (w.live c).todo.head? ≠ some .sched := fun htodo ho => by
    rw [htodo]
    exact fun heq => ho (Option.some.inj heq)
  unfold op
  split
  case h_1 => exact .inr rfl
  case h_2 rest htodo =>
    refine fine_ok ?_
    rw [goto, setLive_eq]
    exact h.change_quiet (hrun.pushOff htodo) (hold htodo nofun) nofun
  case h_3 old rest htodo =>
    exact fine_ok (h.change_quiet (hrun.intrOff htodo) (hold htodo nofun) nofun)
  case h_4 old rest htodo =>
    refine fine_ok ?_
    rw [setCpu_setLive_eq _ _ _ _ rfl]
    rw [htodo] at hshape
    exact h.change_quiet (hrun.count htodo) (hold htodo nofun) (hshape.head_ne rfl)
  case h_5 lk rest htodo =>
    rw [htodo] at hsafe
    split_ifs with hself hfree
    · exact absurd ((h.locks c lk).mp hself) hsafe.2.1
    · exact .inr rfl
    · exact fine_ok (ok_spin h htodo (not_not.mp hfree))
  case h_6 lk rest htodo =>
    rw [htodo] at hsafe
    split_ifs with hlock
    · exact absurd ((h.locks c lk).mpr hsafe.1) hlock
    · exact fine_ok (ok_unlock h htodo)
  case h_7 rest htodo =>
    have hnoff := hrun.noff
    rw [htodo] at hsafe hshape
    obtain ⟨hlt, -⟩ := hsafe
    have hsie := hrun.off (by omega)
    unfold World.popOff
    rw [if_neg (by rw [hsie]; exact Bool.false_ne_true), if_neg (by omega)]
    refine fine_ok ?_
    rw [setCpu_setLive_eq _ _ _ _ rfl]
    exact h.change_quiet (hrun.popOff htodo) (hold htodo nofun) (hshape.head_ne rfl)
  case h_8 p s rest htodo => exact fine_ok (ok_setState h htodo)
  case h_9 rest htodo =>
    have hnoff := hrun.noff
    rw [htodo] at hsafe
    obtain ⟨p, hp, hdepth, hheld, -⟩ := hsafe
    have hproc : (w.cpu c).proc = some p := by
      rcases h.own c with hs | ⟨q, hq, hqc, -⟩
      · exact Tid.noConfusion (hp.symm.trans hs)
      · obtain rfl := Tid.proc.inj (hp.symm.trans hq)
        exact hqc
    have hlock : w.lock (.proc p) = some c :=
      (h.locks c _).mpr (by rw [hheld]; exact List.mem_cons_self)
    have hstate := h.state c p hp
    rw [htodo] at hstate
    have hsie := hrun.off (by omega)
    unfold World.sched
    rw [hproc]
    dsimp only
    rw [if_neg (not_not.mpr hlock), if_neg (by omega), if_neg hstate.1,
      if_neg (by rw [hsie]; exact Bool.false_ne_true)]
    exact fine_ok (ok_swtchOut h hp htodo)
  case h_10 i rest htodo =>
    refine fine_ok ?_
    rw [goto, setCpu_setLive_eq _ _ _ _ rfl]
    rw [htodo] at hshape
    exact h.change_quiet (hrun.restore htodo) (hold htodo nofun) (hshape.head_ne rfl)
  case h_11 p rest htodo =>
    rw [htodo] at hsafe hshape
    split_ifs with hready
    · exact fine_ok (ok_swtchIn h htodo hready)
    · obtain ⟨-, hdepth, hheld, rfl⟩ := hsafe
      refine fine_ok ?_
      rw [goto, setLive_eq]
      refine h.change_quiet (hrun.goto (by rw [htodo]; exact nofun)
        ⟨?_, hrun.nodup, hrun.room, .of_all rfl, by simp [release]⟩ ?_) (hold htodo nofun) nofun
      · show Safe _ _ (w.live c).depth (w.live c).held
        rw [hdepth, hheld]
        exact safe_release (Nat.le_refl 1) List.mem_cons_self
      · intro o ho
        cases ho
        rfl
  case h_12 rest htodo =>
    rw [htodo] at hsafe hshape
    obtain ⟨⟨c', hc'⟩, hsafe⟩ := hsafe
    refine fine_ok ?_
    rw [goto, setCpu_setLive_eq _ _ _ _ rfl]
    exact h.change_quiet (hrun.done htodo rfl hsafe hrun.nodup hrun.room) (hold htodo nofun)
      (hshape.head_ne rfl) fun p hp => Tid.noConfusion (hc'.symm.trans hp)
  case h_13 rest htodo =>
    rw [htodo] at hsafe
    exact hsafe.elim

/-- The code of a function, before any of it has begun. -/
def entry (todo : List Op) : Bool :=
  todo.tail.all Op.plain && paired todo && todo.head?.all fun o => o.plain && o != .sched

/-- A call whose code is safe where it is made. -/
theorem ok_call (h : w.Ok) (htodo : (w.live c).todo = [])
    (hsafe : Safe (w.cpu c).run todo (w.live c).depth (w.live c).held) (hentry : entry todo = true)
    (hpicks : ∀ p, .pick p ∈ todo → (w.live c).saved = none) : (w.goto c todo).Ok := by
  have hrun := h.run c
  obtain ⟨hall, hhead⟩ := Bool.and_eq_true_iff.mp hentry
  have hfirst : ∀ o, todo.head? = some o → o.plain = true ∧ o ≠ .sched := fun o ho => by
    rw [ho] at hhead
    simpa using hhead
  rw [goto, setLive_eq]
  refine h.change_quiet (hrun.goto (by rw [htodo]; exact nofun)
    ⟨hsafe, hrun.nodup, hrun.room, .of_all hall, hpicks⟩ fun o ho => (hfirst o ho).1)
    ?_ fun hsched => (hfirst _ hsched).2 rfl
  rw [htodo]
  exact nofun

/-- The state of a process changes that runs nowhere. -/
theorem ok_stateOther (h : w.Ok) (hnot : ∀ d, (w.cpu d).run ≠ .proc p)
    (hpark : s = .sleeping ∨ s = .runnable → Parked p (w.thread (.proc p))) :
    (w.setState p s).Ok := by
  refine ⟨h.run, h.own, h.alone, h.locks, fun d q hq => ?_, fun q hq hs => ?_⟩
  · show StateOk (update w.state p s q) _
    rw [update_of_ne fun heq => hnot d (by rw [← heq]; exact hq)]
    exact h.state d q hq
  · have hs' : update w.state p s q = .sleeping ∨ update w.state p s q = .runnable :=
      hs
    by_cases hqp : q = p
    · subst hqp
      rw [update_self] at hs'
      exact hpark hs'
    · rw [update_of_ne hqp] at hs'
      exact h.parked q hq hs'

theorem parked_forkret (p : Nat) : Parked p (forkret p) where
  depth := rfl
  safe := safe_release (Nat.le_refl 1) List.mem_cons_self
  shape := .of_all rfl
  resume := .inr ⟨rfl, rfl⟩
  trapped _ := nofun

theorem ok_fork (h : w.Ok) (hnot : ∀ d, (w.cpu d).run ≠ .proc p) :
    (w.setThread (.proc p) fun _ => forkret p).Ok := by
  have hthread : ∀ t ≠ .proc p, (w.setThread (.proc p) fun _ => forkret p).thread t = w.thread t :=
    fun t ht => update_of_ne ht _ _
  have hlive : ∀ d, (w.setThread (.proc p) fun _ => forkret p).live d = w.live d := fun d =>
    hthread _ (hnot d)
  refine ⟨fun d => ?_, fun d => ?_, h.alone, fun d lk => ?_, fun d q hq => ?_, fun q hq hs => ?_⟩
  · rw [hlive]
    exact h.run d
  · rw [hthread (.sched d) nofun]
    exact h.own d
  · rw [hlive]
    exact h.locks d lk
  · rw [hlive]
    exact h.state d q hq
  · by_cases hqp : q = p
    · subst hqp
      show Parked q (update w.thread (.proc q) (forkret q) (.proc q))
      rw [update_self]
      exact parked_forkret q
    · rw [hthread _ fun heq => hqp (Tid.proc.inj heq)]
      exact h.parked q hq hs

theorem fine_call (h : w.Ok) (htodo : (w.live c).todo = []) (x : Call) : Fine (w.call c x) := by
  have hrun := h.run c
  have hroom := hrun.room
  have hhead : (w.live c).todo.head? ≠ some .sched := by rw [htodo]; nofun
  have hlive : ∀ {p}, .proc p ∈ (w.live c).held → w.state p ≠ .running →
      ∀ d, (w.cpu d).run ≠ .proc p := fun hmem hstate =>
    h.not_live ((h.locks c _).mpr hmem) hstate hhead
  have hproc : ∀ {q p}, (w.cpu c).run = .proc q → (w.cpu c).proc = some p →
      (w.cpu c).run = .proc p := by
    intro q p hq hp
    rcases h.own c with hs | ⟨r, hr, hrc, -⟩
    · exact Tid.noConfusion (hq.symm.trans hs)
    · rw [hr, Option.some.inj (hrc.symm.trans hp)]
  have hnil : (w.live c).depth = 0 → (w.live c).held = [] := fun hzero =>
    List.length_eq_zero_iff.mp (by omega)
  cases x <;> simp only [World.call]
  case acquire lk =>
    split_ifs with hmem
    · exact .inr rfl
    · exact fine_ok (ok_call h htodo (safe_acquire hroom hmem)
        rfl (by simp [Intr.acquire]))
  case release lk =>
    exact fine_ite fun hmem => fine_ok (ok_call h htodo (safe_release hroom hmem)
      rfl (by simp [Intr.release]))
  case pushOff =>
    exact fine_ok (ok_call h htodo (Nat.le_succ_of_le hroom) rfl (by simp))
  case popOff =>
    exact fine_ite fun hlt =>
      fine_ok (ok_call h htodo ⟨hlt, Nat.le_sub_one_of_lt hlt⟩ rfl (by simp))
  case intrOn =>
    refine fine_ite fun hcase => fine_ok ?_
    rw [setCpu_eq]
    exact h.change_quiet (hrun.setFlag htodo hcase.1 fun _ => hcase.2) hhead hhead
  case intrOff =>
    refine fine_ite fun hzero => fine_ok ?_
    rw [setCpu_eq]
    exact h.change_quiet (hrun.setFlag htodo hzero nofun) hhead hhead
  case sleep lk =>
    split
    · rename_i q p hq hp
      refine fine_ite fun hcase => fine_ok (ok_call h htodo ?_
        (by unfold Intr.sleep; split <;> rfl)
        fun r hr => absurd hr (safe_no_pick safe_sleep))
      rw [hproc hq hp, hcase.1, hcase.2]
      exact safe_sleep
    · exact .inr rfl
  case yield =>
    split
    · rename_i q p hq hp
      refine fine_ite fun hzero => fine_ok (ok_call h htodo ?_ rfl
        fun r hr => absurd hr (safe_no_pick safe_yield))
      rw [hproc hq hp, hzero, hnil hzero]
      exact safe_yield
    · exact .inr rfl
  case exit =>
    split
    · rename_i q p hq hp
      refine fine_ite fun hcase => fine_ok (ok_call h htodo ?_ rfl
        fun r hr => absurd hr (safe_no_pick safe_exit))
      rw [hproc hq hp, hcase.1, hcase.2]
      exact safe_exit
    · exact .inr rfl
  case wakeup p =>
    refine fine_ite fun hcase => ?_
    have hnot := hlive hcase.1 (by rw [hcase.2]; exact PState.noConfusion)
    exact fine_ok (ok_stateOther h hnot fun _ => h.parked p hnot (.inl hcase.2))
  case fork p =>
    refine fine_ite fun hcase => ?_
    have hnot := hlive hcase.1 (by rw [hcase.2]; exact PState.noConfusion)
    refine fine_ok (ok_stateOther (ok_fork h hnot) hnot fun _ => ?_)
    show Parked p (update w.thread (.proc p) (forkret p) (.proc p))
    rw [update_self]
    exact parked_forkret p
  case freeproc p =>
    refine fine_ite fun hcase => ?_
    have hnot := hlive hcase.1 (by rw [hcase.2]; exact PState.noConfusion)
    refine fine_ok (ok_stateOther h hnot fun hs => ?_)
    rcases hs with hs | hs <;> cases hs
  case schedule p =>
    split
    · rename_i c' hc'
      refine fine_ite fun hcase => fine_ok (ok_call h htodo ?_ rfl fun _ _ => hcase.2)
      rw [hc', hcase.1, hnil hcase.1]
      exact safe_schedule
    · exact .inr rfl

theorem fine_step (h : w.Ok) (e : Event) : Fine (w.step e) := by
  cases e with
  | op c => exact fine_op h c
  | call c x => exact fine_ite fun htodo => fine_call h htodo x
  | trap c =>
    refine fine_ite fun hcase => ?_
    have hrun := h.run c
    have hhead : (w.live c).todo.head? ≠ some .sched := fun hsched => by
      obtain ⟨rest, hrest⟩ := List.head?_eq_some_iff.mp hsched
      obtain ⟨p, -, hdepth, -⟩ : Safe _ (.sched :: rest) _ _ := hrest ▸ hrun.safe
      exact absurd (hcase.1.symm.trans (hrun.off (by omega))) nofun
    exact fine_ok (h.change_quiet (hrun.trap hcase.1) hhead nofun)
  | sret c =>
    simp only [step]
    split
    · exact .inr rfl
    · rename_i todo hsaved
      refine fine_ite fun hcase => ?_
      have hrun := h.run c
      have hhead : todo.head? ≠ some .sched := fun hsched => by
        obtain ⟨rest, hrest⟩ := List.head?_eq_some_iff.mp hsched
        obtain ⟨p, -, hdepth, -⟩ : Safe _ (.sched :: rest) _ _ :=
          hrest ▸ (hrun.trapped todo hsaved).2.1.safe
        exact absurd hdepth (by decide)
      refine fine_ok (h.change_quiet (hrun.sret hsaved hcase.2) ?_ hhead)
      rw [hcase.1]
      exact nofun

/-! ### What `entry` stands for -/

theorem thread_setLive (w : World) (c : Nat) (g : Thread → Thread) (t : Tid) :
    (w.setLive c g).thread t = if t = (w.cpu c).run then g (w.live c) else w.thread t :=
  update_apply _ _ _ _

theorem thread_setCpu (w : World) (c : Nat) (f : Cpu → Cpu) : (w.setCpu c f).thread = w.thread :=
  rfl

theorem rel_setLive {R : Thread → Thread → Prop} (hrefl : ∀ th, R th th) {g : Thread → Thread}
    (t : Tid) (hg : R (w.live c) (g (w.live c))) : R (w.thread t) ((w.setLive c g).thread t) := by
  rw [thread_setLive]
  split
  · rename_i heq
    rw [heq]
    exact hg
  · exact hrefl _

theorem entry_setLive {g : Thread → Thread} (t : Tid)
    (hg : (g (w.live c)).entry = (w.live c).entry) :
    ((w.setLive c g).thread t).entry = (w.thread t).entry :=
  rel_setLive (R := fun th th' => th'.entry = th.entry) (fun _ => rfl) t hg

/-- Process `p` is between the `intr_off` of its outermost `push_off` and the
`pop_off` that undoes it. -/
def Inside (p : Nat) (w : World) : Prop :=
  0 < (w.thread (.proc p)).depth ∨ ∃ old rest, (w.thread (.proc p)).todo = .count old :: rest

/-- The depth of a process gets smaller only in `pop_off`, and its entry changes
only when it goes from depth 0 to 1. -/
theorem op_proc (hop : w.op c = .ok w') :
    ((∃ rest, (w.live c).todo = .popOff :: rest) ∨
      (w.thread (.proc p)).depth ≤ (w'.thread (.proc p)).depth) ∧
    (w.Inside p → (w'.thread (.proc p)).entry = (w.thread (.proc p)).entry) := by
  let R : Thread → Thread → Prop := fun th th' =>
    ((∃ rest, (w.live c).todo = .popOff :: rest) ∨ th.depth ≤ th'.depth) ∧
      (w.Inside p → th'.entry = th.entry)
  have hrefl : ∀ th, R th th := fun _ => ⟨.inr (Nat.le_refl _), fun _ => rfl⟩
  have hset : ∀ {v : World} {g : Thread → Thread}, R (v.live c) (g (v.live c)) →
      R (v.thread (.proc p)) ((v.setLive c g).thread (.proc p)) := rel_setLive hrefl _
  unfold op at hop
  split at hop
  case h_1 | h_13 => cases hop
  case h_2 =>
    cases hop
    exact @hset w _ (hrefl _)
  case h_8 =>
    cases hop
    exact @hset (w.setState _ _) _ (hrefl _)
  case h_3 old rest htodo =>
    cases hop
    rw [thread_setCpu, thread_setLive]
    split
    · rename_i heq
      rw [heq]
      refine ⟨.inr (Nat.le_refl _), fun hin => if_neg (Nat.ne_of_gt (?_ : 0 < (w.live c).depth))⟩
      rcases hin with hpos | ⟨old', rest', hcount⟩
      · rwa [heq] at hpos
      · rw [heq] at hcount
        rw [live, hcount] at htodo
        cases htodo
    · exact hrefl _
  case h_4 =>
    cases hop
    exact @hset (w.setCpu c _) _ ⟨.inr (Nat.le_succ _), fun _ => rfl⟩
  case h_10 | h_12 =>
    cases hop
    exact @hset (w.setCpu c _) _ (hrefl _)
  case h_5 | h_6 =>
    split_ifs at hop
    cases hop
    exact @hset (w.setLock _ _) _ (hrefl _)
  case h_7 rest htodo =>
    unfold World.popOff at hop
    split_ifs at hop
    cases hop
    exact @hset (w.setCpu c _) _ ⟨.inl ⟨rest, htodo⟩, fun _ => rfl⟩
  case h_9 rest htodo =>
    unfold World.sched at hop
    split at hop
    · cases hop
    · split_ifs at hop
      cases hop
      rw [thread_swtchOut, if_neg nofun]
      split
      · rename_i heq
        rw [heq]
        exact hrefl _
      · exact hrefl _
  case h_11 q rest htodo =>
    split_ifs at hop
    · cases hop
      rw [thread_swtchIn]
      split
      · rename_i heq
        rw [heq]
        exact hrefl _
      · rw [if_neg nofun]
        exact hrefl _
    · cases hop
      exact @hset w _ (hrefl _)

theorem entry_step {e : Event} (hstep : w.step e = .ok w') (hin : w.Inside p)
    (hsame : ∀ c, e ≠ .call c (.fork p)) :
    (w'.thread (.proc p)).entry = (w.thread (.proc p)).entry := by
  cases e with
  | op c => exact (op_proc hstep).2 hin
  | call c x =>
    simp only [step] at hstep
    split_ifs at hstep
    cases x <;> simp only [World.call] at hstep
    case fork q =>
      split_ifs at hstep with hcase
      cases hstep
      show (update w.thread (.proc q) (forkret q) (.proc p)).entry = _
      rw [update_of_ne fun heq => hsame c (by rw [Tid.proc.inj heq])]
    case pushOff =>
      cases hstep
      exact entry_setLive _ rfl
    all_goals
      repeat' split at hstep
      all_goals first
        | cases hstep; rfl
        | cases hstep; exact entry_setLive _ rfl
        | cases hstep
  | trap c =>
    simp only [step] at hstep
    split_ifs at hstep
    cases hstep
    rw [thread_setCpu]
    exact entry_setLive _ rfl
  | sret c =>
    simp only [step] at hstep
    split at hstep
    · cases hstep
    · split_ifs at hstep
      cases hstep
      rw [thread_setCpu]
      exact entry_setLive _ rfl

/-- The flag when a thread comes back to depth 0. -/
theorem flag_back (h : w.Ok) (hop : w.op c = .ok w') (hp : (w.cpu c).run = .proc p)
    (hpos : 0 < (w.live c).depth) (hzero : (w'.thread (.proc p)).depth = 0) {b : Bool}
    (hb : (w.live c).entry = some b) : (w'.cpu c).sie = b := by
  have hrun := h.run c
  have hlive : w.live c = w.thread (.proc p) := by rw [live, hp]
  by_cases hhead : ∃ rest, (w.live c).todo = .popOff :: rest
  · obtain ⟨rest, htodo⟩ := hhead
    have hintena := hrun.intena hpos (by rw [htodo]; exact nofun) b hb
    simp only [op, htodo, World.popOff] at hop
    split_ifs at hop
    cases hop
    rw [setCpu_setLive_eq _ _ _ _ rfl] at hzero ⊢
    have hone : (w.live c).depth = 1 := by
      have hsame : (update w.thread (w.cpu c).run
          { w.live c with todo := rest, depth := (w.live c).depth - 1 } (.proc p)).depth = 0 := hzero
      rw [← hp, update_self] at hsame
      have hminus : (w.live c).depth - 1 = 0 := hsame
      omega
    have hnoff : (w.cpu c).noff - 1 = 0 := by
      rw [hrun.noff, hone]
      rfl
    simp only [World.change, update_self, hnoff, hintena, hrun.off hpos, true_and]
    cases b <;> rfl
  · have hle := (op_proc (p := p) hop).1.resolve_left hhead
    rw [← hlive] at hle
    omega

/-! ## Whole runs -/

theorem ok_start : start.Ok where
  run _ :=
    .of_plain ⟨Nat.le_refl 0, .nil, Nat.le_refl _, .of_all rfl, nofun⟩ nofun rfl
      (fun hpos => absurd hpos (Nat.lt_irrefl 0)) (fun hpos => absurd hpos (Nat.lt_irrefl 0)) nofun
  own _ := .inl rfl
  alone _ _ heq := Tid.sched.inj heq
  locks _ _ := ⟨nofun, nofun⟩
  state _ _ hp := nomatch hp
  parked p _ _ := parked_forkret p

theorem entry_intrOff (hp : (w.cpu c).run = .proc p) (hzero : (w.live c).depth = 0)
    (htodo : (w.live c).todo = .intrOff old :: rest) (hop : w.op c = .ok w') :
    (w'.thread (.proc p)).entry = some (w.cpu c).sie := by
  simp only [op, htodo] at hop
  cases hop
  rw [thread_setCpu, thread_setLive, if_pos hp.symm]
  exact if_pos hzero

/-- The interrupt state of the processors is that of the threads on them. -/
structure Follows (w : World) : Prop where
  noff : ∀ c, (w.cpu c).noff = (w.live c).depth
  off : ∀ c, 0 < (w.live c).depth → (w.cpu c).sie = false
  noPanic : ∀ e x, w.step e ≠ .error (.panic x)
  /-- From depth 0 with one flag to depth 0 with the same, on any processor. -/
  back : ∀ c d p old rest w₁ w₂ w₃, (w.cpu c).run = .proc p → (w.live c).depth = 0 →
    (w.live c).todo = .intrOff old :: rest → w.op c = .ok w₁ →
    Reach next (fun e v => v.Inside p ∧ ∀ k, e ≠ .call k (.fork p)) w₁ w₂ →
    (w₂.cpu d).run = .proc p → 0 < (w₂.live d).depth → w₂.op d = .ok w₃ →
    (w₃.thread (.proc p)).depth = 0 → (w₃.cpu d).sie = (w.cpu c).sie

theorem ok_next {e : Event} (h : w.Ok) (hnext : next e w = some w') :
    w.step e = .ok w' ∧ w'.Ok := by
  rcases fine_step h e with ⟨v, hv, hok⟩ | hstuck
  · rw [next, hv] at hnext
    cases hnext
    exact ⟨hv, hok⟩
  · rw [next, hstuck] at hnext
    cases hnext

theorem reach_ok {cond : Event → World → Prop} (h : Reach next cond start w) : w.Ok :=
  h.invariant ok_start fun _ _ _ hv _ hnext => (ok_next hv hnext).2

/-- Whatever the processes do and wherever they resume, the interrupt state
is that of the thread. -/
theorem interrupts_follow (h : Reach next (fun _ _ => True) start w) : w.Follows where
  noff c := ((reach_ok h).run c).noff
  off c := ((reach_ok h).run c).off
  noPanic e x hpanic := by
    rcases fine_step (reach_ok h) e with ⟨v, hv, -⟩ | hstuck
    · rw [hv] at hpanic
      cases hpanic
    · rw [hstuck] at hpanic
      cases hpanic
  back c d p old rest w₁ w₂ w₃ hp hzero htodo hop hinside hd hpos hpop hback := by
    have hok₁ : w₁.Ok := (@ok_next _ _ (.op c) (reach_ok h) (by rw [next, step, hop]; rfl)).2
    have hentry := entry_intrOff hp hzero htodo hop
    obtain ⟨hok₂, hentry₂⟩ : w₂.Ok ∧ (w₂.thread (.proc p)).entry = some (w.cpu c).sie := by
      refine hinside.invariant (I := fun v => v.Ok ∧ (v.thread (.proc p)).entry = _)
        ⟨hok₁, hentry⟩ ?_
      rintro e v v' ⟨hok, hv⟩ ⟨hin, hsame⟩ hnext
      obtain ⟨hstep, hok'⟩ := ok_next hok hnext
      exact ⟨hok', (entry_step hstep hin hsame).trans hv⟩
    refine flag_back hok₂ hpop hd hpos hback ?_
    rw [live, hd]
    exact hentry₂

/-- Process 0 turns interrupts on, takes a lock and sleeps with it on
processor 0; it is woken from processor 1, resumes there and lets go. -/
def movesOver : List Event :=
  let ops (c n : Nat) : List Event := List.replicate n (.op c)
  .call 0 (.schedule 0) :: ops 0 7 ++ .call 0 .intrOn :: .call 0 (.acquire (.other 5)) :: ops 0 4 ++
    .call 0 (.sleep (.other 5)) :: ops 0 11 ++
    .call 1 (.acquire (.proc 0)) :: ops 1 4 ++ .call 1 (.wakeup 0) :: .call 1 (.release (.proc 0)) ::
    ops 1 2 ++ .call 1 (.schedule 0) :: ops 1 12 ++ .call 1 (.release (.other 5)) :: ops 1 2

theorem interrupts_follow_movesOver : ∃ w, Reach next (fun _ _ => True) start w ∧
    ((w.cpu 1).run = .proc 0 ∧ (w.live 1).depth = 0 ∧ (w.cpu 1).sie = true) ∧ w.Follows := by
  have hrun : ((follow next (fun _ _ => true) movesOver start).any fun w =>
      decide ((w.cpu 1).run = .proc 0 ∧ (w.live 1).depth = 0 ∧ (w.cpu 1).sie = true)) = true := by
    decide +kernel
  obtain ⟨w, hreach, hfact⟩ := Reach.of_any hrun
  exact ⟨w, hreach, of_decide_eq_true hfact, interrupts_follow hreach⟩

end World

end Xv6.Intr
