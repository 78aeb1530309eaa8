import Xv6.Lib.Trans
import Xv6.Sched.Model

/-!
# The process tree

What `fork`, `exit` and `wait` are for, as a machine of its own: a table of
nodes, each with a parent, that are spawned, exit, give their children to
the first process, die and are reaped. A node knows what its process is
about to do to the tree, since `reparent` and `wait` read the parent of
another process without its lock and rely on it later.

`Tree.Step` is the abstract machine. `tree_next` is the refinement: each
event of `Xv6.Sched.Model` is a step of the tree or changes nothing in it
(taking locks, sleeping, waking, scheduling). The invariant of the tree is
proved on the steps and comes back to the process table through the
refinement, in `process_tree`.
-/

namespace Xv6.Sched

open Xv6.Lib.CInt Xv6.Lib.Trans Function

/-! ## The abstract machine -/

inductive Life where
  | unused
  | alive
  | zombie
  deriving DecidableEq

/-- What a process is about to do to the tree. -/
inductive Phase where
  | idle
  /-- `exit`: the slots below `scanned` hold no child any more. -/
  | exiting (status : Int) (scanned : Nat)
  /-- `exit` has found child `i` and is about to give it away. -/
  | taking (status : Int) (i : Nat)
  /-- `wait` has found child `i`. -/
  | watching (i : Nat)
  deriving DecidableEq

/-- The status of a process that has called `exit`. -/
def Phase.status : Phase → Option Int
  | .exiting status _ | .taking status _ => some status
  | _ => none

/-- The slots a process in `exit` has looked at. -/
def Phase.scanned : Phase → Nat
  | .exiting _ n | .taking _ n => n
  | _ => 0

/-- The slot a process takes for its child without holding its lock. -/
def Phase.target : Phase → Option Nat
  | .taking _ i | .watching i => some i
  | _ => none

structure Node where
  life : Life
  parent : Option Nat
  pid : Int
  uid : Nat
  xstate : Int
  phase : Phase

structure Tree where
  node : Nat → Node
  nextpid : Int
  handed : Nat
  exits : List (Nat × Int)
  reaped : List Reaped

def Tree.set (T : Tree) (i : Nat) (n : Node) : Tree :=
  { T with node := Function.update T.node i n }

/-- The process in slot `p` turns to `phase`. -/
def Tree.turn (T : Tree) (p : Nat) (phase : Phase) : Tree :=
  T.set p { T.node p with phase := phase }

/-- A slot after `freeproc`. -/
def Node.freed (n : Node) : Node :=
  { n with life := .unused, parent := none, pid := 0, xstate := 0 }

/-- The steps of the process tree. -/
inductive Tree.Step (T : Tree) : Tree → Prop where
  | stay : Step T T
  /-- A pid is handed out for a slot that stays free. -/
  | waste {i : Nat} {n : Node} (hi : (T.node i).life = .unused) (hn : n.life = .unused)
      (hparent : n.parent = (T.node i).parent ∨ n.parent = none)
      (hphase : n.phase = (T.node i).phase) :
      Step T { T.set i n with nextpid := int32 (T.nextpid + 1), handed := T.handed + 1 }
  | spawn {p i : Nat} (hlt : i < NPROC) (hi : (T.node i).life = .unused)
      (hp : (T.node p).life = .alive) (hidle : (T.node p).phase = .idle) :
      Step T { T.set i { T.node i with
          life := .alive, parent := some p, pid := T.nextpid, uid := T.handed + 1
          phase := .idle } with
        nextpid := int32 (T.nextpid + 1), handed := T.handed + 1 }
  | exit {p : Nat} {status : Int} (hinit : p ≠ initproc) (hp : (T.node p).life = .alive)
      (hidle : (T.node p).phase = .idle) :
      Step T { T.turn p (.exiting status 0) with exits := ((T.node p).uid, status) :: T.exits }
  | pass {p n : Nat} {status : Int} (hp : (T.node p).phase = .exiting status n)
      (hn : (T.node n).parent ≠ some p) : Step T (T.turn p (.exiting status (n + 1)))
  | take {p n : Nat} {status : Int} (hp : (T.node p).phase = .exiting status n)
      (hn : (T.node n).parent = some p) : Step T (T.turn p (.taking status n))
  | give {p n : Nat} {status : Int} (hp : (T.node p).phase = .taking status n) :
      Step T ((T.set n { T.node n with parent := some initproc }).turn p
        (.exiting status (n + 1)))
  | die {p n : Nat} {status : Int} (hp : (T.node p).phase = .exiting status n)
      (hn : NPROC ≤ n) :
      Step T (T.set p { T.node p with life := .zombie, xstate := status, phase := .idle })
  | watch {p i : Nat} (hp : (T.node p).life = .alive) (hidle : (T.node p).phase = .idle)
      (hi : (T.node i).parent = some p) : Step T (T.turn p (.watching i))
  | unwatch {p i : Nat} (hp : (T.node p).phase = .watching i) : Step T (T.turn p .idle)
  | reap {p i addr : Nat} (hp : (T.node p).phase = .watching i)
      (hi : (T.node i).life = .zombie) :
      Step T { (T.set i (T.node i).freed).turn p .idle with
        reaped :=
          { caller := p, slot := i, uid := (T.node i).uid, pid := (T.node i).pid, addr := addr
            delivered := if addr ≠ 0 then some (T.node i).xstate else none } :: T.reaped }

/-! ## The invariant -/

/-- The nodes form a tree under the first process. -/
structure Tree.Rooted (T : Tree) : Prop where
  bound : ∀ i, NPROC ≤ i → (T.node i).life = .unused
  free : ∀ i, (T.node i).life = .unused → (T.node i).parent = none
  child : ∀ i, (T.node i).life ≠ .unused → i ≠ initproc → (T.node i).parent ≠ none
  root : (T.node initproc).life = .alive ∧ (T.node initproc).parent = none
  parent : ∀ i p, (T.node i).parent = some p → (T.node p).life = .alive
  quiet : ∀ p, (T.node p).life ≠ .alive → (T.node p).phase = .idle
  stays : ∀ p, (T.node p).phase.status ≠ none → p ≠ initproc
  scanned : ∀ p i, i < (T.node p).phase.scanned → (T.node i).parent ≠ some p
  target : ∀ p i, (T.node p).phase.target = some i → (T.node i).parent = some p

/-- Numbers are used once, a process exits once and is reaped once. -/
structure Tree.Counted (T : Tree) : Prop where
  nextpid : T.nextpid = int32 ((T.handed : Int) + 1)
  number : ∀ i, (T.node i).life ≠ .unused →
    1 ≤ (T.node i).uid ∧ (T.node i).uid ≤ T.handed ∧ (T.node i).pid = int32 (T.node i).uid
  distinct : ∀ i j, (T.node i).life ≠ .unused → (T.node j).life ≠ .unused →
    (T.node i).uid = (T.node j).uid → i = j
  exitsLe : ∀ x ∈ T.exits, x.1 ≤ T.handed
  exitsOnce : (T.exits.map Prod.fst).Nodup
  running : ∀ i, (T.node i).life = .alive → (T.node i).phase.status = none →
    (T.node i).uid ∉ T.exits.map Prod.fst
  exiting : ∀ i status, (T.node i).phase.status = some status →
    ((T.node i).uid, status) ∈ T.exits
  dead : ∀ i, (T.node i).life = .zombie → ((T.node i).uid, (T.node i).xstate) ∈ T.exits
  reapedLe : ∀ r ∈ T.reaped, r.uid ≤ T.handed
  reapedGone : ∀ r ∈ T.reaped, ∀ i, (T.node i).life ≠ .unused → (T.node i).uid ≠ r.uid
  reapedOnce : (T.reaped.map Reaped.uid).Nodup

/-! ### One node changes -/

/-- What the tree needs of the node of slot `i` by itself. -/
structure Node.Fits (n : Node) (i : Nat) : Prop where
  bound : NPROC ≤ i → n.life = .unused
  free : n.life = .unused → n.parent = none
  child : n.life ≠ .unused → i ≠ initproc → n.parent ≠ none
  root : i = initproc → n.life = .alive ∧ n.parent = none
  quiet : n.life ≠ .alive → n.phase = .idle
  stays : n.phase.status ≠ none → i ≠ initproc

/-- What the node `n` of process `p` needs of the node `m` of slot `i`. -/
structure Node.Sees (n : Node) (p : Nat) (m : Node) (i : Nat) : Prop where
  parent : m.parent = some p → n.life = .alive
  scanned : i < n.phase.scanned → m.parent ≠ some p
  target : n.phase.target = some i → m.parent = some p

section Change

variable {T : Tree} {p i n : Nat} {m : Node} {status : Int}

theorem Tree.rooted_iff :
    T.Rooted ↔ (∀ i, (T.node i).Fits i) ∧ ∀ p i, (T.node p).Sees p (T.node i) i := by
  constructor
  · intro h
    refine ⟨fun i => ⟨h.bound i, h.free i, h.child i, ?_, h.quiet i, h.stays i⟩,
      fun p i => ⟨h.parent i p, h.scanned p i, h.target p i⟩⟩
    rintro rfl
    exact h.root
  · rintro ⟨hfits, hsees⟩
    exact ⟨fun i => (hfits i).bound, fun i => (hfits i).free, fun i => (hfits i).child,
      (hfits initproc).root rfl, fun i p => (hsees p i).parent, fun p => (hfits p).quiet,
      fun p => (hfits p).stays, fun p i => (hsees p i).scanned, fun p i => (hsees p i).target⟩

theorem Node.sees_idle {k : Node} (hidle : k.phase = .idle)
    (hparent : m.parent = some p → k.life = .alive) : k.Sees p m i := by
  refine ⟨hparent, fun h => ?_, fun h => ?_⟩
  · rw [hidle] at h
    exact absurd h (Nat.not_lt_zero i)
  · rw [hidle] at h
    cases h

theorem Node.Sees.of_parent {k m' : Node} (h : k.Sees p m i) (heq : m'.parent = m.parent) :
    k.Sees p m' i :=
  ⟨heq ▸ h.parent, heq ▸ h.scanned, heq ▸ h.target⟩

/-- A tree with another node for slot `i`. -/
theorem Tree.Rooted.set (hT : T.Rooted) (hfits : m.Fits i) (hself : m.Sees i m i)
    (hseen : ∀ q ≠ i, (T.node q).Sees q m i) (hsees : ∀ q ≠ i, m.Sees i (T.node q) q) :
    (T.set i m).Rooted := by
  obtain ⟨hfits', hsees'⟩ := rooted_iff.mp hT
  have hi : (T.set i m).node i = m := update_self _ _ _
  have hother : ∀ q ≠ i, (T.set i m).node q = T.node q := fun q hq => update_of_ne hq _ _
  refine rooted_iff.mpr ⟨fun q => ?_, fun q r => ?_⟩
  · by_cases hq : q = i
    · rwa [hq, hi]
    · rw [hother q hq]
      exact hfits' q
  · by_cases hq : q = i
    · by_cases hr : r = i
      · rwa [hq, hr, hi]
      · rw [hq, hi, hother r hr]
        exact hsees r hr
    · rw [hother q hq]
      by_cases hr : r = i
      · rw [hr, hi]
        exact hseen q hq
      · rw [hother r hr]
        exact hsees' q r

variable {phase : Phase}

theorem Tree.turn_self : ((T.turn p phase).node p) = { T.node p with phase := phase } :=
  update_self _ _ _

theorem Tree.turn_of_ne {q : Nat} (h : q ≠ p) : (T.turn p phase).node q = T.node q :=
  update_of_ne h _ _

section

variable (hT : T.Rooted)
include hT

/-- A process may turn to a phase that says nothing wrong about it. -/
theorem Tree.Rooted.turn (hlife : (T.node p).life = .alive)
    (hstays : phase.status ≠ none → p ≠ initproc)
    (hscanned : ∀ i < phase.scanned, (T.node i).parent ≠ some p)
    (htarget : ∀ i, phase.target = some i → (T.node i).parent = some p) :
    (T.turn p phase).Rooted := by
  obtain ⟨hfits, hsees⟩ := rooted_iff.mp hT
  have hp := hfits p
  have hnew : ∀ q, ({ T.node p with phase := phase } : Node).Sees p (T.node q) q := fun q =>
    ⟨(hsees p q).parent, hscanned q, htarget q⟩
  exact hT.set ⟨hp.bound, hp.free, hp.child, hp.root, fun h => absurd hlife h, hstays⟩
    ((hnew p).of_parent rfl) (fun q _ => (hsees q p).of_parent rfl) fun q _ => hnew q

/-- A process in a phase other than `idle` is alive. -/
theorem Tree.Rooted.alive (hp : (T.node p).phase = phase)
    (h : phase ≠ .idle := by exact Phase.noConfusion) : (T.node p).life = .alive := by
  by_contra hlife
  exact h (hp.symm.trans (hT.quiet p hlife))

/-- A process in `exit` is alive, and is not the first one. -/
theorem Tree.Rooted.exiting (hp : (T.node p).phase = phase)
    (h : phase.status = some status := by rfl) : (T.node p).life = .alive ∧ p ≠ initproc := by
  refine ⟨hT.alive hp ?_, hT.stays p (by rw [hp, h]; exact Option.some_ne_none status)⟩
  rintro rfl
  cases h

theorem Tree.Rooted.turn_idle (hlife : (T.node p).life = .alive) : (T.turn p .idle).Rooted :=
  hT.turn hlife (absurd rfl) nofun nofun

theorem Tree.Rooted.waste (hi : (T.node i).life = .unused)
    (hm : m.life = .unused) (hparent : m.parent = (T.node i).parent ∨ m.parent = none)
    (hphase : m.phase = (T.node i).phase) : (T.set i m).Rooted := by
  obtain ⟨hfits, hsees⟩ := rooted_iff.mp hT
  have hnone := hT.free i hi
  have hfree : m.parent = none := hparent.elim (·.trans hnone) id
  have hidle : m.phase = .idle := hphase.trans (hT.quiet i (by rw [hi]; exact Life.noConfusion))
  have hroot : i ≠ initproc := by
    rintro rfl
    rw [hT.root.1] at hi
    cases hi
  refine hT.set ⟨fun _ => hm, fun _ => hfree, fun h => absurd hm h, fun h => absurd h hroot,
    fun _ => hidle, fun _ => hroot⟩ (Node.sees_idle hidle fun h => ?_)
    (fun q _ => (hsees q i).of_parent (hfree.trans hnone.symm)) fun q _ =>
      Node.sees_idle hidle fun h => ?_
  · rw [hfree] at h
    cases h
  · rw [hm, ← hi]
    exact hT.parent q i h

/-- The new child of `p` in slot `i`. -/
theorem Tree.Rooted.spawn (hlt : i < NPROC) (hi : (T.node i).life = .unused)
    (hp : (T.node p).life = .alive) (hidle : (T.node p).phase = .idle) (hlife : m.life = .alive)
    (hparent : m.parent = some p) (hphase : m.phase = .idle) : (T.set i m).Rooted := by
  have hroot : i ≠ initproc := by
    rintro rfl
    rw [hT.root.1] at hi
    cases hi
  refine hT.set ⟨fun h => absurd hlt (by omega), fun h => ?_, fun _ _ => ?_,
    fun h => absurd h hroot, fun _ => hphase, fun _ => hroot⟩ (Node.sees_idle hphase fun _ => hlife)
    (fun q _ => ?_) fun q _ => Node.sees_idle hphase fun _ => hlife
  · rw [hlife] at h
    cases h
  · rw [hparent]
    exact Option.some_ne_none p
  · -- nobody but `p` has anything to do with the new node
    by_cases hqp : q = p
    · rw [hqp]
      exact Node.sees_idle hidle fun _ => hp
    · have hne : m.parent ≠ some q := fun h => hqp (Option.some.inj (h.symm.trans hparent))
      refine ⟨fun h => absurd h hne, fun _ => hne, fun h => ?_⟩
      have hseen := hT.target q i h
      rw [hT.free i hi] at hseen
      cases hseen

/-- A process without children dies or is freed. -/
theorem Tree.Rooted.fade (hi : i ≠ initproc)
    (hnone : ∀ q, (T.node q).parent ≠ some i) (hfree : m.life = .unused → m.parent = none)
    (hused : m.life ≠ .unused → m.parent = (T.node i).parent ∧ (T.node i).life ≠ .unused)
    (hparent : m.parent = (T.node i).parent ∨ m.parent = none) (hphase : m.phase = .idle)
    (hseen : ∀ q, (T.node q).phase.target = some i → m.parent = (T.node i).parent) :
    (T.set i m).Rooted := by
  have hkept : ∀ q, m.parent = some q → (T.node i).parent = some q := by
    intro q h
    rcases hparent with heq | heq
    · exact heq ▸ h
    · rw [heq] at h
      cases h
  refine hT.set ⟨fun hq => ?_, hfree, fun h => ?_, fun h => absurd h hi, fun _ => hphase,
    fun _ => hi⟩ (Node.sees_idle hphase fun h => absurd (hkept i h) (hnone i)) (fun q _ => ?_)
    fun q _ => Node.sees_idle hphase fun h => absurd h (hnone q)
  · by_contra h
    exact (hused h).2 (hT.bound i hq)
  · rw [(hused h).1]
    exact hT.child i (hused h).2
  · exact ⟨fun h => hT.parent i q (hkept q h), fun h h' => hT.scanned q i h (hkept q h'),
      fun h => (hseen q h).trans (hT.target q i h)⟩

/-- Child `n` of the exiting process `p` is given to the first process. -/
theorem Tree.Rooted.give (hp : (T.node p).phase = .taking status n) :
    ((T.set n { T.node n with parent := some initproc }).turn p
      (.exiting status (n + 1))).Rooted := by
  have hchild : (T.node n).parent = some p := hT.target p n (by rw [hp]; rfl)
  obtain ⟨halive, hinit⟩ := hT.exiting hp
  have hn : (T.node n).life ≠ .unused ∧ initproc ≠ n := by
    refine ⟨fun h => ?_, ?_⟩
    · rw [hT.free n h] at hchild
      cases hchild
    · rintro rfl
      rw [hT.root.2] at hchild
      cases hchild
  generalize hT' : (T.set n { T.node n with parent := some initproc }).turn p
    (.exiting status (n + 1)) = T'
  have hlife : ∀ q, (T'.node q).life = (T.node q).life := by
    intro q
    simp only [← hT', Tree.turn, Tree.set, update_apply]
    split_ifs <;> simp only [*]
  have hparent : ∀ q, (T'.node q).parent = if q = n then some initproc else (T.node q).parent := by
    intro q
    simp only [← hT', Tree.turn, Tree.set, update_apply]
    split_ifs <;> simp_all
  have hphase : ∀ q, (T'.node q).phase =
      if q = p then .exiting status (n + 1) else (T.node q).phase := by
    intro q
    simp only [← hT', Tree.turn, Tree.set, update_apply]
    split_ifs <;> simp_all only
  -- all but `p` itself may still rely on what they saw
  have hdrop : ∀ q j, q ≠ initproc → (j ≠ n → (T.node j).parent ≠ some q) →
      (T'.node j).parent ≠ some q := by
    intro q j hq hj
    rw [hparent]
    split
    · exact fun h => hq (Option.some.inj h).symm
    · exact hj ‹_›
  constructor
  case bound => simpa only [hlife] using hT.bound
  case free =>
    intro q hq
    rw [hlife] at hq
    rw [hparent, if_neg (by rintro rfl; exact hn.1 hq)]
    exact hT.free q hq
  case child =>
    intro q hq hqinit
    rw [hlife] at hq
    rw [hparent]
    split
    · exact Option.some_ne_none _
    · exact hT.child q hq hqinit
  case root =>
    rw [hlife, hparent, if_neg hn.2]
    exact hT.root
  case parent =>
    intro q r hq
    rw [hlife]
    rw [hparent] at hq
    split at hq
    · rw [← Option.some.inj hq]
      exact hT.root.1
    · exact hT.parent q r hq
  case quiet =>
    intro q hq
    rw [hlife] at hq
    rw [hphase, if_neg (by rintro rfl; exact hq halive)]
    exact hT.quiet q hq
  case stays =>
    intro q hq
    rw [hphase] at hq
    split at hq
    · rwa [‹q = p›]
    · exact hT.stays q hq
  case scanned =>
    intro q j hj
    rw [hphase] at hj
    split at hj
    · rename_i hq
      subst hq
      refine hdrop q j hinit fun hjn => hT.scanned q j ?_
      rw [hp]
      change j < n + 1 at hj
      change j < n
      omega
    · refine hdrop q j (hT.stays q fun hst => ?_) fun _ => hT.scanned q j hj
      -- only a process in `exit` has scanned anything
      cases hph : (T.node q).phase <;> rw [hph] at hj hst <;>
        first | exact absurd hj (Nat.not_lt_zero j) | cases hst
  case target =>
    intro q j hj
    rw [hphase] at hj
    split at hj
    · cases hj
    · rename_i hqp
      have hq := hT.target q j hj
      rw [hparent, if_neg]
      · exact hq
      · rintro rfl
        exact hqp (Option.some.inj (hq.symm.trans hchild))

end

end Change

section Steps

variable {T : Tree} {p i n : Nat} {status : Int}

/-! ### The counts -/

/-- The counts do not depend on the parents, nor on how far an exiting
process has got. -/
theorem Tree.Counted.congr {T' : Tree} (hT : T.Counted)
    (hnode : ∀ q, (T'.node q).life = (T.node q).life ∧ (T'.node q).pid = (T.node q).pid ∧
      (T'.node q).uid = (T.node q).uid ∧ (T'.node q).xstate = (T.node q).xstate ∧
      (T'.node q).phase.status = (T.node q).phase.status)
    (hnext : T'.nextpid = T.nextpid) (hhanded : T'.handed = T.handed)
    (hexits : T'.exits = T.exits) (hreaped : T'.reaped = T.reaped) : T'.Counted := by
  have hlife := fun q => (hnode q).1
  have hpid := fun q => (hnode q).2.1
  have huid := fun q => (hnode q).2.2.1
  have hxstate := fun q => (hnode q).2.2.2.1
  have hstatus := fun q => (hnode q).2.2.2.2
  constructor <;> simp only [hlife, hpid, huid, hxstate, hstatus, hnext, hhanded, hexits, hreaped]
  exacts [hT.nextpid, hT.number, hT.distinct, hT.exitsLe, hT.exitsOnce, hT.running, hT.exiting,
    hT.dead, hT.reapedLe, hT.reapedGone, hT.reapedOnce]

/-- Turning keeps the counts as long as the process stays in `exit`, or out
of it. -/
theorem Tree.Counted.turn {phase : Phase} (hT : T.Counted)
    (hstatus : phase.status = (T.node p).phase.status) : (T.turn p phase).Counted := by
  refine hT.congr (fun q => ?_) rfl rfl rfl rfl
  by_cases hqp : q = p
  · subst hqp
    rw [turn_self]
    exact ⟨rfl, rfl, rfl, rfl, hstatus⟩
  · rw [turn_of_ne hqp]
    exact ⟨rfl, rfl, rfl, rfl, rfl⟩

theorem int32_succ (x : Int) : int32 (int32 x + 1) = int32 (x + 1) := by
  unfold int32
  exact Int.bmod_add_bmod

theorem Tree.Counted.nextpid_succ (hT : T.Counted) :
    int32 (T.nextpid + 1) = int32 (((T.handed + 1 : Nat) : Int) + 1) := by
  rw [hT.nextpid, int32_succ]
  rfl

/-- One process changes: it may be a new one with a new number, record its
exit, or be reaped and gone. -/
theorem Tree.Counted.change {T' : Tree} (hT : T.Counted)
    (i : Nat) (hnext : T'.nextpid = int32 ((T'.handed : Int) + 1)) (hhanded : T.handed ≤ T'.handed)
    (hexits : T'.exits = T.exits ∨ (T.node i).life = .alive ∧ (T.node i).phase.status = none ∧
      ∃ status, T'.exits = ((T.node i).uid, status) :: T.exits)
    (hreaped : T'.reaped = T.reaped ∨ (T.node i).life ≠ .unused ∧ (T'.node i).life = .unused ∧
      ∃ r : Reaped, r.uid = (T.node i).uid ∧ T'.reaped = r :: T.reaped)
    (hnumber : (T'.node i).life ≠ .unused →
      ((T.node i).life ≠ .unused ∧ (T'.node i).uid = (T.node i).uid ∧
          (T'.node i).pid = (T.node i).pid) ∨
        (T'.handed = T.handed + 1 ∧ (T'.node i).uid = T.handed + 1 ∧ (T'.node i).pid = T.nextpid))
    (hrunning : (T'.node i).life = .alive → (T'.node i).phase.status = none →
      (T'.node i).uid ∉ T'.exits.map Prod.fst)
    (hexiting : ∀ status, (T'.node i).phase.status = some status →
      ((T'.node i).uid, status) ∈ T'.exits)
    (hdead : (T'.node i).life = .zombie → ((T'.node i).uid, (T'.node i).xstate) ∈ T'.exits)
    (hother : ∀ q ≠ i, T'.node q = T.node q := by exact fun q hq => update_of_ne hq _ _) :
    T'.Counted := by
  have hle : (T.node i).life ≠ .unused → (T.node i).uid ≤ T'.handed := fun h =>
    (hT.number i h).2.1.trans hhanded
  have hexitsLe : ∀ x ∈ T.exits, x.1 ≤ T'.handed := fun x hx => (hT.exitsLe x hx).trans hhanded
  have hreapedLe : ∀ r ∈ T.reaped, r.uid ≤ T'.handed := fun r hr =>
    (hT.reapedLe r hr).trans hhanded
  have hkept : ∀ x ∈ T.exits, x ∈ T'.exits := by
    intro x hx
    rcases hexits with h | ⟨-, -, status, h⟩
    · rwa [h]
    · rw [h]
      exact List.mem_cons_of_mem _ hx
  -- the number of another process is not the one of process `i`
  have hne : ∀ q ≠ i, (T.node q).life ≠ .unused → (T'.node i).life ≠ .unused →
      (T.node q).uid ≠ (T'.node i).uid := by
    intro q hq hlife hi heq
    rcases hnumber hi with ⟨hused, huid, -⟩ | ⟨-, huid, -⟩
    · exact hq (hT.distinct q i hlife hused (heq.trans huid))
    · have hle := (hT.number q hlife).2.1
      omega
  constructor
  case nextpid => exact hnext
  case number =>
    intro q hq
    by_cases hqi : q = i
    · subst hqi
      rcases hnumber hq with ⟨hused, huid, hpid⟩ | ⟨hsucc, huid, hpid⟩
      · obtain ⟨h1, hle, hpid'⟩ := hT.number q hused
        rw [huid, hpid]
        exact ⟨h1, by omega, hpid'⟩
      · rw [huid, hpid, hT.nextpid]
        refine ⟨by omega, by omega, ?_⟩
        rfl
    · rw [hother q hqi] at hq ⊢
      obtain ⟨h1, hle, hpid⟩ := hT.number q hq
      exact ⟨h1, by omega, hpid⟩
  case distinct =>
    intro q r hq hr h
    by_cases hqi : q = i
    · by_cases hri : r = i
      · rw [hqi, hri]
      · subst hqi
        rw [hother r hri] at hr h
        exact absurd h.symm (hne r hri hr hq)
    · rw [hother q hqi] at hq h
      by_cases hri : r = i
      · subst hri
        exact absurd h (hne q hqi hq hr)
      · rw [hother r hri] at hr h
        exact hT.distinct q r hq hr h
  case exitsLe =>
    rcases hexits with h | ⟨hlife, -, status, h⟩ <;> rw [h]
    · exact hexitsLe
    · exact List.forall_mem_cons.mpr ⟨hle (by rw [hlife]; exact Life.noConfusion), hexitsLe⟩
  case exitsOnce =>
    rcases hexits with h | ⟨hlife, hst, status, h⟩ <;> rw [h]
    · exact hT.exitsOnce
    · exact List.nodup_cons.mpr ⟨hT.running i hlife hst, hT.exitsOnce⟩
  case running =>
    intro q hq hst
    by_cases hqi : q = i
    · subst hqi
      exact hrunning hq hst
    · rw [hother q hqi] at hq hst ⊢
      rcases hexits with h | ⟨hlife, -, status, h⟩
      · rw [h]
        exact hT.running q hq hst
      · rw [h, List.map_cons, List.mem_cons, not_or]
        refine ⟨fun heq => hqi ?_, hT.running q hq hst⟩
        exact hT.distinct q i (by rw [hq]; exact Life.noConfusion)
          (by rw [hlife]; exact Life.noConfusion) heq
  case exiting =>
    intro q status hst
    by_cases hqi : q = i
    · subst hqi
      exact hexiting status hst
    · rw [hother q hqi] at hst ⊢
      exact hkept _ (hT.exiting q status hst)
  case dead =>
    intro q hq
    by_cases hqi : q = i
    · subst hqi
      exact hdead hq
    · rw [hother q hqi] at hq ⊢
      exact hkept _ (hT.dead q hq)
  case reapedLe =>
    rcases hreaped with h | ⟨hlife, -, r, hr, h⟩ <;> rw [h]
    · exact hreapedLe
    · exact List.forall_mem_cons.mpr ⟨hr ▸ hle hlife, hreapedLe⟩
  case reapedGone =>
    intro x hx q hq
    rcases hreaped with h | ⟨hlife, hfree, r, hr, h⟩
    · rw [h] at hx
      by_cases hqi : q = i
      · subst hqi
        rcases hnumber hq with ⟨hused, huid, -⟩ | ⟨-, huid, -⟩
        · rw [huid]
          exact hT.reapedGone x hx q hused
        · have hle := hT.reapedLe x hx
          omega
      · rw [hother q hqi] at hq ⊢
        exact hT.reapedGone x hx q hq
    · have hqi : q ≠ i := by
        rintro rfl
        exact hq hfree
      rw [hother q hqi] at hq ⊢
      rw [h] at hx
      rcases List.mem_cons.mp hx with rfl | hx
      · rw [hr]
        exact fun heq => hqi (hT.distinct q i hq hlife heq)
      · exact hT.reapedGone x hx q hq
  case reapedOnce =>
    rcases hreaped with h | ⟨hlife, -, r, hr, h⟩
    · rw [h]
      exact hT.reapedOnce
    · rw [h, List.map_cons, List.nodup_cons, hr]
      refine ⟨fun hmem => ?_, hT.reapedOnce⟩
      obtain ⟨x, hx, hxu⟩ := List.mem_map.mp hmem
      exact hT.reapedGone x hx i hlife hxu.symm

/-! ### One step -/

theorem Tree.turn_set {m : Node} {phase : Phase} (h : i ≠ p) :
    (T.set i m).turn p phase = (T.turn p phase).set i m := by
  have hp : (T.set i m).node p = T.node p := update_of_ne h.symm _ _
  rw [Tree.turn, hp]
  simp only [Tree.turn, Tree.set, update_comm h]

theorem Tree.Rooted.of_node {T' : Tree} (hT : T.Rooted) (h : T'.node = T.node) : T'.Rooted := by
  constructor <;> rw [h]
  exacts [hT.bound, hT.free, hT.child, hT.root, hT.parent, hT.quiet, hT.stays, hT.scanned,
    hT.target]

end Steps

/-- Both parts of the invariant. -/
structure Tree.Ok (T : Tree) : Prop where
  rooted : T.Rooted
  counted : T.Counted

theorem Tree.Step.ok {T T' : Tree} (hT : T.Ok) (h : T.Step T') : T'.Ok := by
  obtain ⟨hR, hC⟩ := hT
  cases h with
  | stay => exact ⟨hR, hC⟩
  | @waste i n hi hn hparent hphase =>
    have hidle := hR.quiet i (by rw [hi]; exact Life.noConfusion)
    refine ⟨(hR.waste hi hn hparent hphase).of_node rfl, hC.change i hC.nextpid_succ
      (Nat.le_succ _) (.inl rfl) (.inl rfl) ?_ ?_ ?_ ?_⟩ <;> simp only [Tree.set, update_self]
    · exact fun h => absurd hn h
    · exact fun h => absurd (hn.symm.trans h) Life.noConfusion
    · intro status h
      rw [hphase, hidle] at h
      cases h
    · exact fun h => absurd (hn.symm.trans h) Life.noConfusion
  | @spawn p i hlt hi hp hidle =>
    refine ⟨(hR.spawn hlt hi hp hidle rfl rfl rfl).of_node rfl, hC.change i hC.nextpid_succ
      (Nat.le_succ _) (.inl rfl) (.inl rfl) ?_ ?_ ?_ ?_⟩ <;> simp only [Tree.set, update_self]
    · exact fun _ => .inr ⟨trivial, trivial, trivial⟩
    · intro _ _ hmem
      obtain ⟨x, hx, hxu⟩ := List.mem_map.mp hmem
      have hle := hC.exitsLe x hx
      omega
    · exact nofun
    · exact nofun
  | @exit p status hinit hp hidle =>
    have hR1 : (T.turn p (.exiting status 0)).Rooted :=
      hR.turn hp (fun _ => hinit) nofun nofun
    refine ⟨hR1.of_node rfl, hC.change p hC.nextpid (Nat.le_refl _)
      (.inr ⟨hp, by rw [hidle]; rfl, status, rfl⟩) (.inl rfl) ?_ ?_ ?_ ?_⟩ <;>
      simp only [Tree.turn, Tree.set, update_self]
    · exact fun h => .inl ⟨h, trivial, trivial⟩
    · intro _ h
      cases h
    · intro st h
      cases h
      exact List.mem_cons_self
    · intro h
      rw [hp] at h
      cases h
  | @pass p n status hp hn =>
    obtain ⟨halive, hinit⟩ := hR.exiting hp
    refine ⟨hR.turn halive (fun _ => hinit) (fun i hi => ?_) nofun, hC.turn (by rw [hp]; rfl)⟩
    · change i < n + 1 at hi
      by_cases hin : i = n
      · rwa [hin]
      · refine hR.scanned p i ?_
        rw [hp]
        change i < n
        omega
  | @take p n status hp hn =>
    obtain ⟨halive, hinit⟩ := hR.exiting hp
    refine ⟨hR.turn halive (fun _ => hinit) (fun i hi => ?_) (fun i hi => ?_),
      hC.turn (by rw [hp]; rfl)⟩
    · refine hR.scanned p i ?_
      rw [hp]
      exact hi
    · cases hi
      exact hn
  | @give p n status hp =>
    refine ⟨hR.give hp, Tree.Counted.turn (hC.congr (fun q => ?_) rfl rfl rfl rfl) ?_⟩
    · by_cases hq : q = n
      · subst hq
        simp only [Tree.set, update_self, and_self]
      · simp only [Tree.set, update_of_ne hq, and_self]
    · by_cases hpn : p = n
      · subst hpn
        simp only [Tree.set, update_self, hp]
        rfl
      · simp only [Tree.set, update_of_ne hpn, hp]
        rfl
  | @die p n status hp hn =>
    obtain ⟨halive, hinit⟩ := hR.exiting hp
    -- the scan has come to the end of the table
    have hnone : ∀ q, (T.node q).parent ≠ some p := by
      intro q
      by_cases hq : q < n
      · refine hR.scanned p q ?_
        rw [hp]
        exact hq
      · rw [hR.free q (hR.bound q (by omega))]
        exact (Option.some_ne_none p).symm
    refine ⟨hR.fade hinit hnone nofun
      (fun _ => ⟨rfl, by rw [halive]; exact Life.noConfusion⟩) (.inl rfl) rfl (fun _ _ => rfl),
      hC.change p hC.nextpid (Nat.le_refl _) (.inl rfl) (.inl rfl) ?_ ?_ ?_ ?_⟩ <;> simp only [Tree.set, update_self]
    · exact fun _ => .inl ⟨by rw [halive]; exact Life.noConfusion, trivial, trivial⟩
    · exact nofun
    · exact nofun
    · exact fun _ => hC.exiting p status (by rw [hp]; rfl)
  | @watch p i hp hidle hi =>
    refine ⟨hR.turn hp (absurd rfl) nofun (fun j hj => ?_), hC.turn (by rw [hidle]; rfl)⟩
    cases hj
    exact hi
  | @unwatch p i hp =>
    have halive := hR.alive hp
    exact ⟨hR.turn_idle halive, hC.turn (by rw [hp]; rfl)⟩
  | @reap p i addr hp hi =>
    have halive := hR.alive hp
    have hchild := hR.target p i (by rw [hp]; rfl)
    have hip : i ≠ p := by
      rintro rfl
      rw [hi] at halive
      cases halive
    have hinit : i ≠ initproc := by
      rintro rfl
      rw [hR.root.1] at hi
      cases hi
    -- the dead process has no children, and `p` alone had seen it
    have hR1 := hR.turn_idle halive
    have hC1 : (T.turn p .idle).Counted := hC.turn (by rw [hp]; rfl)
    have hnode : (T.turn p .idle).node i = T.node i := Tree.turn_of_ne hip
    have hR2 : ((T.turn p .idle).set i (T.node i).freed).Rooted := by
      refine hR1.fade hinit (fun q hq => ?_) (fun _ => rfl) (fun h => absurd rfl h) (.inr rfl)
        (hR.quiet i (by rw [hi]; exact Life.noConfusion)) (fun q hq => ?_)
      · have hlife := hR1.parent q i hq
        rw [hnode, hi] at hlife
        cases hlife
      · have hqi := hR1.target q i hq
        rw [hnode, hchild] at hqi
        obtain rfl := Option.some.inj hqi
        rw [Tree.turn_self] at hq
        cases hq
    rw [Tree.turn_set hip]
    refine ⟨hR2.of_node rfl, hC1.change i hC1.nextpid (Nat.le_refl _) (.inl rfl)
      (.inr ⟨?_, ?_, _, ?_, rfl⟩) ?_ ?_ ?_ ?_⟩ <;>
      simp only [hnode, Tree.set, update_self]
    · rw [hi]
      exact Life.noConfusion
    · rfl
    · exact fun h => absurd rfl h
    · intro h
      cases h
    · intro st h
      rw [show (T.node i).freed.phase = .idle from
        hR.quiet i (by rw [hi]; exact Life.noConfusion)] at h
      cases h
    · intro h
      cases h

/-! ## The process table refines the tree -/

def PState.life : PState → Life
  | .unused => .unused
  | .zombie => .zombie
  | .sleeping | .runnable | .running => .alive

def Pc.phase : Pc → Phase
  | .exitWakeInit status | .exitParent status | .exitLockParent status _ | .exitLock status _ =>
    .exiting status 0
  | .reparent status _ i => .exiting status i
  | .reparentLock status _ i => .taking status i
  | .waitLockChild _ i => .watching i
  | .user | .allocproc _ | .kill _ _ | .waitLock _ | .wait _ _ _ | .waitSleep _ => .idle

def Proc.node (pr : Proc) : Node where
  life := pr.state.life
  parent := pr.parent
  pid := pr.pid
  uid := pr.uid
  xstate := pr.xstate
  phase := pr.pc.phase

def Table.tree (t : Table) : Tree where
  node := fun p => (t.proc p).node
  nextpid := t.nextpid
  handed := t.handed
  exits := t.exits
  reaped := t.reaped

section Refine

variable {t t' : Table} {p i : Nat}

theorem life_alive {st : PState} (h : st.life = .alive) : st ≠ .unused ∧ st ≠ .zombie := by
  cases st <;> simp_all [PState.life]

theorem tree_setProc (t : Table) (i : Nat) (f : Proc → Proc) :
    (t.setProc i f).tree = t.tree.set i (f (t.proc i)).node := by
  have hnode : (fun p => (update t.proc i (f (t.proc i)) p).node) =
      update (fun p => (t.proc p).node) i (f (t.proc i)).node := by
    funext q
    by_cases hq : q = i
    · subst hq
      rw [update_self, update_self]
    · rw [update_of_ne hq, update_of_ne hq]
  simp only [Table.tree, Table.setProc, Tree.set, hnode]

theorem Tree.set_eq_self {T : Tree} {n : Node} (h : n = T.node i) : T.set i n = T := by
  rw [h, Tree.set, update_eq_self]

theorem Tree.turn_eq_self {T : Tree} {phase : Phase} (h : (T.node p).phase = phase) :
    T.turn p phase = T := by
  subst h
  exact Tree.set_eq_self rfl

/-- A change of a slot that its node does not show. -/
theorem tree_setProc_same {f : Proc → Proc} (h : (f (t.proc i)).node = (t.proc i).node) :
    (t.setProc i f).tree = t.tree := by
  rw [tree_setProc]
  exact Tree.set_eq_self h

theorem tree_goto (t : Table) (p : Nat) (pc : Pc) : (t.goto p pc).tree = t.tree.turn p pc.phase :=
  tree_setProc t p _

theorem tree_acquire (t : Table) (p q : Nat) : (t.acquire p q).tree = t.tree :=
  tree_setProc_same rfl

theorem tree_release (t : Table) (p : Nat) : (t.release p).tree = t.tree :=
  tree_setProc_same rfl

theorem tree_wakeup1 (t : Table) (p : Nat) : (t.wakeup1 p).tree = t.tree := by
  refine tree_setProc_same ?_
  split
  · rename_i h
    simp only [Proc.node, h.2]
    rfl
  · rfl

theorem tree_freeproc (t : Table) (p : Nat) :
    (t.freeproc p).tree = t.tree.set p (t.tree.node p).freed :=
  tree_setProc t p _

theorem step_turn {pc pc' : Pc} (hpc : (t.proc p).pc = pc) (h : pc.phase = pc'.phase := by rfl) :
    t.tree.Step (t.tree.turn p pc'.phase) := by
  rw [Tree.turn_eq_self ((congrArg Pc.phase hpc).trans h)]
  exact .stay

theorem step_goto {pc pc' : Pc} (hpc : (t.proc p).pc = pc) (h : pc.phase = pc'.phase := by rfl) :
    t.tree.Step (t.goto p pc').tree := by
  rw [tree_goto]
  exact step_turn hpc h

theorem tree_forkFound (alloc : Alloc) (hlt : i < NPROC)
    (hp : (t.proc p).state = .running) (hpc : (t.proc p).pc.phase = .idle)
    (hi : (t.proc i).state = .unused) : t.tree.Step (t.forkFound p i alloc).tree := by
  have hpi : p ≠ i := by
    rintro rfl
    rw [hp] at hi
    cases hi
  have hfree : (t.tree.node i).life = .unused := congrArg PState.life hi
  -- the parent goes back to user mode, which the tree does not show
  have hback : ∀ t2 : Table, (t2.proc p) = t.proc p → (t2.goto p .user).tree = t2.tree := by
    intro t2 ht2
    rw [tree_goto]
    exact Tree.turn_eq_self ((congrArg (·.pc.phase) ht2).trans hpc)
  unfold Table.forkFound
  extract_lets t1 t2
  have hproc1 : t1.proc p = t.proc p := update_of_ne hpi _ _
  have htree1 : t1.tree = { t.tree.set i { t.tree.node i with pid := t.nextpid } with
      nextpid := int32 (t.nextpid + 1), handed := t.handed + 1 } := tree_setProc _ _ _
  have hnode1 : t1.tree.node i = { t.tree.node i with pid := t.nextpid } := by
    rw [htree1]
    exact update_self _ _ _
  have hset1 : ∀ n, t1.tree.set i n = { t.tree.set i n with
      nextpid := int32 (t.nextpid + 1), handed := t.handed + 1 } := by
    intro n
    rw [htree1]
    simp only [Tree.set, update_idem]
  cases alloc with
  | noTrapframe =>
    rw [hback t2 hproc1]
    change t.tree.Step t1.tree
    rw [htree1]
    exact .waste hfree hfree (.inl rfl) rfl
  | noPagetable | noMemory =>
    rw [hback t2 ((update_of_ne hpi _ _).trans hproc1)]
    change t.tree.Step (t1.freeproc i).tree
    rw [tree_freeproc, hset1, hnode1]
    exact .waste hfree rfl (.inr rfl) rfl
  | ok =>
    rw [hback t2 ((update_of_ne hpi _ _).trans hproc1)]
    change t.tree.Step (t1.setProc i _).tree
    rw [tree_setProc, hset1]
    have hproci : t1.proc i = { t.proc i with pid := t.nextpid } := update_self _ _ _
    rw [hproci]
    exact .spawn hlt hfree (congrArg PState.life hp) hpc

theorem tree_killTurn (pid : Int) (hpc : (t.proc p).pc = .kill pid i) :
    t.tree.Step (t.killTurn p pid i).tree := by
  unfold Table.killTurn
  split
  · have hsame : (t.setProc i fun pr => { pr with
        killed := true
        state := if pr.state = .sleeping then .runnable else pr.state }).tree = t.tree := by
      refine tree_setProc_same ?_
      by_cases hs : (t.proc i).state = .sleeping
      · simp only [Proc.node, hs, if_true]
        rfl
      · simp only [Proc.node, hs, if_false]
    rw [tree_goto, hsame]
    exact step_turn hpc
  · exact step_goto hpc

theorem tree_exitZombie {status : Int} {q : Nat} (hpc : (t.proc p).pc = .reparent status q i)
    (hi : NPROC ≤ i) : t.tree.Step (t.exitZombie p status q).tree := by
  have hphase : (t.tree.node p).phase = .exiting status i := congrArg Pc.phase hpc
  have hnode : ((t.wakeup1 q).proc p).node = (t.proc p).node :=
    congrFun (congrArg Tree.node (tree_wakeup1 t q)) p
  rw [Table.exitZombie, tree_release, tree_setProc, tree_wakeup1]
  have hdead : Proc.node { (t.wakeup1 q).proc p with
      xstate := status, state := .zombie, pc := .user } =
      { t.tree.node p with life := .zombie, xstate := status, phase := .idle } := by
    change _ = { (t.proc p).node with life := .zombie, xstate := status, phase := .idle }
    rw [← hnode]
    rfl
  rw [hdead]
  exact .die hphase hi

theorem tree_waitChild {addr : Nat} {copied : Bool} (hpc : (t.proc p).pc = .waitLockChild addr i) :
    t.tree.Step (t.waitChild p addr i copied).tree := by
  have hphase : (t.tree.node p).phase = .watching i := congrArg Pc.phase hpc
  unfold Table.waitChild
  split
  · rename_i hz
    split
    · rw [tree_goto, tree_release]
      exact .unwatch hphase
    · extract_lets r
      have htree : (((t.freeproc i).release p).goto p .user).tree =
          (t.tree.set i (t.tree.node i).freed).turn p .idle := by
        rw [tree_goto, tree_release, tree_freeproc]
        rfl
      have hreap : ({ ((t.freeproc i).release p).goto p .user with
          reaped := r :: t.reaped } : Table).tree =
          { (t.tree.set i (t.tree.node i).freed).turn p .idle with
            reaped := r :: t.tree.reaped } := by
        rw [← htree]
        rfl
      rw [hreap]
      exact .reap hphase (congrArg PState.life hz)
  · rw [tree_goto]
    exact .unwatch hphase

theorem tree_waitEnd {addr : Nat} {havekids : Bool} (hp : (t.proc p).state = .running)
    (hpc : (t.proc p).pc = .wait addr havekids i) :
    t.tree.Step (t.waitEnd p addr havekids).tree := by
  unfold Table.waitEnd
  split
  · rw [tree_goto, tree_release]
    exact step_turn hpc
  · rw [tree_goto, tree_release, tree_setProc_same]
    · exact step_turn hpc
    · simp only [Proc.node, hp]
      rfl

theorem tree_run {alloc : Alloc} {copied : Bool} (hp : (t.proc p).state = .running)
    (h : t.run p alloc copied = some t') : t.tree.Step t'.tree := by
  have hphase : ∀ pc, (t.proc p).pc = pc → (t.tree.node p).phase = pc.phase := fun pc hpc =>
    congrArg Pc.phase hpc
  have hlife : (t.tree.node p).life = .alive := congrArg PState.life hp
  unfold Table.run at h
  split at h
  case h_1 | h_2 => cases h
  case h_3 i hpc =>
    split_ifs at h with hend hlock hfree
    all_goals cases h
    · exact step_goto hpc
    · exact tree_forkFound alloc (by omega) hp (congrArg Pc.phase hpc) hfree
    · exact step_goto hpc
  case h_4 pid i hpc =>
    split_ifs at h with hend hlock
    all_goals cases h
    · exact step_goto hpc
    · exact tree_killTurn pid hpc
  case h_5 status hpc =>
    split_ifs at h with hlock
    cases h
    rw [tree_goto, tree_wakeup1]
    exact step_turn hpc
  case h_6 status hpc =>
    split_ifs at h with hlock
    split at h
    · cases h
      exact step_goto hpc
    · cases h
  case h_7 status q hpc | h_8 status q hpc | h_11 addr hpc =>
    split_ifs at h with hlock
    cases h
    rw [tree_goto, tree_acquire]
    exact step_turn hpc
  case h_9 status q i hpc =>
    split_ifs at h with hend hchild
    all_goals cases h
    · exact tree_exitZombie hpc hend
    · rw [tree_goto]
      exact .take (hphase _ hpc) hchild
    · rw [tree_goto]
      exact .pass (hphase _ hpc) hchild
  case h_10 status q i hpc =>
    split_ifs at h with hlock
    cases h
    rw [tree_goto, tree_setProc]
    exact .give (hphase _ hpc)
  case h_12 addr havekids i hpc =>
    split_ifs at h with hend hchild
    all_goals cases h
    · exact tree_waitEnd hp hpc
    · rw [tree_goto]
      exact .watch hlife (hphase _ hpc) hchild
    · exact step_goto hpc
  case h_13 addr i hpc =>
    split_ifs at h with hlock
    cases h
    exact tree_waitChild hpc

theorem tree_call {c : Call} (hp : (t.proc p).state = .running) (hpc : (t.proc p).pc = .user)
    (h : t.call p c = some t') : t.tree.Step t'.tree := by
  have hphase : (t.tree.node p).phase = .idle := congrArg Pc.phase hpc
  cases c with
  | fork | wait addr | kill pid =>
    cases h
    exact step_goto hpc
  | exit status =>
    simp only [Table.call] at h
    split_ifs at h with hinit
    cases h
    have htree : ({ t.goto p (.exitWakeInit status) with
        exits := ((t.proc p).uid, status) :: t.exits } : Table).tree =
        { t.tree.turn p (.exiting status 0) with
          exits := ((t.tree.node p).uid, status) :: t.tree.exits } := by
      have hgoto := tree_goto t p (.exitWakeInit status)
      change { (t.goto p (.exitWakeInit status)).tree with
        exits := ((t.proc p).uid, status) :: t.exits } = _
      rw [hgoto]
      rfl
    rw [htree]
    exact .exit hinit (congrArg PState.life hp) hphase

theorem tree_resume (hp : (t.proc p).state = .runnable) : (t.resume p).tree = t.tree := by
  unfold Table.resume
  split
  · rename_i addr hpc
    refine tree_setProc_same ?_
    simp only [Proc.node, hp, hpc]
    rfl
  · refine tree_setProc_same ?_
    simp only [Proc.node, hp]
    rfl

/-- Each event of the process table is a step of the tree. -/
theorem tree_next {e : Event} (h : Table.next e t = some t') : t.tree.Step t'.tree := by
  cases e <;> simp only [Table.next, Option.ite_none_right_eq_some] at h <;> obtain ⟨hp, h⟩ := h
  case call p c =>
    exact tree_call hp.2.1 hp.2.2 h
  case run p alloc copied =>
    exact tree_run hp.2 h
  case schedRelease p =>
    cases h
    rw [tree_release]
    exact .stay
  case yield p | sleep p chan =>
    cases h
    rw [tree_setProc_same]
    · exact .stay
    · simp only [Proc.node, hp.1]
      rfl
  case wakeup p chan =>
    cases h
    rw [tree_setProc_same]
    · exact .stay
    · split
      · rename_i hs
        simp only [Proc.node, hs.1]
        rfl
      · rfl
  case schedule p =>
    cases h
    rw [tree_resume hp.2]
    exact .stay

end Refine

/-! ## Every reachable process table -/

/-- What is added to the list of reaped processes. -/
theorem Tree.Step.reaped {T T' : Tree} {r : Reaped} (hT : T.Ok) (h : T.Step T')
    (hr : T'.reaped = r :: T.reaped) :
    (T.node r.slot).life = .zombie ∧ (T.node r.slot).parent = some r.caller ∧
      r.uid = (T.node r.slot).uid ∧ r.pid = (T.node r.slot).pid ∧
      (∃ status, (r.uid, status) ∈ T.exits ∧
        r.delivered = if r.addr ≠ 0 then some status else none) ∧
      (T'.node r.slot).life = .unused := by
  cases h with
  | @reap p i addr hp hi =>
    have hpi : i ≠ p := by
      rintro rfl
      rw [hT.rooted.quiet i (by rw [hi]; exact Life.noConfusion)] at hp
      cases hp
    obtain rfl := (List.cons.inj hr).1
    refine ⟨hi, hT.rooted.target p i (by rw [hp]; rfl), rfl, rfl,
      ⟨_, hT.counted.dead i hi, rfl⟩, ?_⟩
    change (((T.set i (T.node i).freed).turn p .idle).node i).life = .unused
    rw [Tree.turn_of_ne hpi]
    simp only [Tree.set, update_self]
    rfl
  | stay | waste _ _ _ _ | spawn _ _ _ _ | exit _ _ _ | pass _ _ | take _ _ | give _ | die _ _
  | watch _ _ _ | unwatch _ =>
    exact absurd hr (List.cons_ne_self r T.reaped).symm

theorem ok_start : Table.start.tree.Ok := by
  have hroot : Table.start.tree.node initproc =
      { life := .alive, parent := none, pid := 1, uid := 1, xstate := 0, phase := .idle } := rfl
  have hrest : ∀ i ≠ initproc, Table.start.tree.node i =
      { life := .unused, parent := none, pid := 0, uid := 0, xstate := 0, phase := .idle } := by
    intro i hi
    simp [Table.tree, Table.start, hi, Proc.node, PState.life, Pc.phase]
  have hparent : ∀ i, (Table.start.tree.node i).parent = none := by
    intro i
    by_cases hi : i = initproc
    · rw [hi, hroot]
    · rw [hrest i hi]
  have hphase : ∀ i, (Table.start.tree.node i).phase = .idle := by
    intro i
    by_cases hi : i = initproc
    · rw [hi, hroot]
    · rw [hrest i hi]
  have hused : ∀ i, (Table.start.tree.node i).life ≠ .unused → i = initproc := by
    intro i hi
    by_contra h
    exact hi (by rw [hrest i h])
  refine ⟨⟨?_, fun i _ => hparent i, ?_, ?_, ?_, fun i _ => hphase i, ?_, ?_, ?_⟩,
    ⟨?_, ?_, ?_, ?_, List.nodup_nil, ?_, ?_, ?_, ?_, ?_, List.nodup_nil⟩⟩
  · intro i hi
    refine congrArg Node.life (hrest i ?_)
    rintro rfl
    exact absurd hi (by decide)
  · intro i hi hne
    exact absurd (hused i hi) hne
  · rw [hroot]
    exact ⟨rfl, rfl⟩
  · intro i p hp
    rw [hparent i] at hp
    cases hp
  · intro p hp
    rw [hphase p] at hp
    exact absurd rfl hp
  · intro p i hi
    rw [hphase p] at hi
    exact absurd hi (Nat.not_lt_zero i)
  · intro p i hi
    rw [hphase p] at hi
    cases hi
  · exact (int32_of_bounds (by decide) (by decide)).symm
  · intro i hi
    rw [hused i hi, hroot]
    exact ⟨Nat.le_refl 1, Nat.le_refl 1, (int32_of_bounds (by decide) (by decide)).symm⟩
  · intro i j hi hj _
    rw [hused i hi, hused j hj]
  · exact nofun
  · exact fun i _ _ => List.not_mem_nil
  · intro i status hst
    rw [hphase i] at hst
    cases hst
  · intro i hi
    rw [hused i (by rw [hi]; exact Life.noConfusion), hroot] at hi
    cases hi
  · exact nofun
  · exact nofun

theorem reach_ok {t : Table} (h : Reach Table.next (fun _ _ => True) Table.start t) : t.tree.Ok :=
  h.invariant (I := fun t => t.tree.Ok) ok_start fun _ _ _ hok _ hnext =>
    Tree.Step.ok hok (tree_next hnext)

theorem life_zombie {st : PState} (h : st.life = .zombie) : st = .zombie := by
  cases st <;> simp_all [PState.life]

theorem life_unused {st : PState} : st.life = .unused ↔ st = .unused := by
  cases st <;> simp [PState.life]

/-- In every state of every schedule: each process but the first has a
parent that has not exited; pids are distinct until they wrap around; and
what a `wait` returns is a child that has exited, with the status it passed
to `exit`, whose slot it frees. A process exits at most once and is
returned at most once. -/
theorem process_tree {t : Table} (h : Reach Table.next (fun _ _ => True) Table.start t) :
    (∀ i, (t.proc i).state ≠ .unused → i ≠ initproc → ∃ q, (t.proc i).parent = some q ∧
      (t.proc q).state ≠ .unused ∧ (t.proc q).state ≠ .zombie) ∧
    (t.handed < 2 ^ 31 → ∀ i j, (t.proc i).state ≠ .unused → (t.proc j).state ≠ .unused →
      (t.proc i).pid = (t.proc j).pid → i = j) ∧
    (∀ e t' r, Table.next e t = some t' → t'.reaped = r :: t.reaped →
      (t.proc r.slot).state = .zombie ∧ (t.proc r.slot).parent = some r.caller ∧
      r.uid = (t.proc r.slot).uid ∧ r.pid = (t.proc r.slot).pid ∧
      (∃ status, (r.uid, status) ∈ t.exits ∧
        r.delivered = if r.addr ≠ 0 then some status else none) ∧
      (t'.proc r.slot).state = .unused) ∧
    (t.exits.map Prod.fst).Nodup ∧ (t.reaped.map Reaped.uid).Nodup := by
  have hok := reach_ok h
  have hlife : ∀ i, (t.proc i).state ≠ .unused → (t.tree.node i).life ≠ .unused :=
    fun i hi hlife => hi (life_unused.mp hlife)
  refine ⟨?_, ?_, ?_, hok.counted.exitsOnce, hok.counted.reapedOnce⟩
  · intro i hi hinit
    obtain ⟨q, hq⟩ := Option.ne_none_iff_exists'.mp (hok.rooted.child i (hlife i hi) hinit)
    exact ⟨q, hq, life_alive (hok.rooted.parent i q hq)⟩
  · intro hhanded i j hi hj hpid
    obtain ⟨-, hlei, hpidi⟩ := hok.counted.number i (hlife i hi)
    obtain ⟨-, hlej, hpidj⟩ := hok.counted.number j (hlife j hj)
    have hbound : t.tree.handed < 2 ^ 31 := hhanded
    rw [int32_of_bounds (by omega) (by omega)] at hpidi hpidj
    have huid : ((t.tree.node i).uid : Int) = (t.tree.node j).uid := by
      rw [← hpidi, ← hpidj]
      exact hpid
    exact hok.counted.distinct i j (hlife i hi) (hlife j hj) (by omega)
  · intro e t' r hnext hr
    obtain ⟨hz, hparent, huid, hpid, hstatus, hfree⟩ :=
      Tree.Step.reaped hok (tree_next hnext) hr
    exact ⟨life_zombie hz, hparent, huid, hpid, hstatus, life_unused.mp hfree⟩

/-- The first process forks and calls `wait` while its child exits with
status 5; the scan of `wait` is about to take the child's lock. -/
def reapEvents : List Event :=
  [.schedule 0, .call 0 .fork, .run 0 .ok true, .run 0 .ok true, .schedule 1,
    .call 1 (.exit 5), .call 0 (.wait 4096), .run 1 .ok true, .run 1 .ok true,
    .run 1 .ok true, .run 1 .ok true] ++
    List.replicate (NPROC + 1) (.run 1 .ok true) ++
    [.schedRelease 1, .run 0 .ok true, .run 0 .ok true, .run 0 .ok true]

theorem process_tree_reap :
    ∃ t t' r, Reach Table.next (fun _ _ => True) Table.start t ∧
      Table.next (.run 0 .ok true) t = some t' ∧ t'.reaped = r :: t.reaped ∧
      (t.proc r.slot).state = .zombie ∧ (t.proc r.slot).parent = some 0 ∧ r.pid = 2 ∧
      r.delivered = some 5 := by
  have hcheck : ((follow Table.next (fun _ _ => true) reapEvents Table.start).any fun t =>
      (Table.next (.run 0 .ok true) t).any fun t' => t'.reaped.head?.any fun r =>
        decide (t'.reaped.tail = t.reaped ∧ r.caller = 0 ∧ r.pid = 2 ∧ r.delivered = some 5)) =
      true := by
    decide +kernel
  obtain ⟨t, hreach, hcheck⟩ := Reach.of_any hcheck
  obtain ⟨t', ht', hcheck⟩ := (Option.any_eq_true _ _).mp hcheck
  obtain ⟨r, hr, hcheck⟩ := (Option.any_eq_true _ _).mp hcheck
  obtain ⟨htail, hcaller, hpid, hdelivered⟩ := of_decide_eq_true hcheck
  obtain ⟨rest, hrest⟩ := List.head?_eq_some_iff.mp hr
  have hr' : t'.reaped = r :: t.reaped := by
    rw [← htail, hrest, List.tail_cons]
  obtain ⟨hz, hparent, -⟩ := (process_tree hreach).2.2.1 _ _ _ ht' hr'
  rw [hcaller] at hparent
  exact ⟨t, t', r, hreach, ht', hr', hz, hparent, hpid, hdelivered⟩

end Xv6.Sched
