import Mathlib.Logic.Relation
import Xv6.Sched.Tree

/-!
# The ancestors of a process

That each process has a living parent does not yet make the parents a tree:
slots are reused, and `reparent` moves children. They are one, as a process is
older than its children unless it is the first: `fork` gives the child the
newest number, and a child only changes hands to the first process.
-/

namespace Xv6.Sched

open Xv6.Lib.Trans Function Relation

/-- Parents other than the first process are older than their children. -/
def Tree.Kin (T : Tree) : Prop :=
  ∀ i p, (T.node i).parent = some p → p ≠ initproc → (T.node p).uid < (T.node i).uid

variable {T T' : Tree} {i : Nat} {m : Node}

/-- Children stay where they are, lose their parent or go to the first process. -/
theorem Tree.Kin.of_parents (h : T.Kin) (huid : ∀ q, (T'.node q).uid = (T.node q).uid)
    (hparent : ∀ q r, (T'.node q).parent = some r → r = initproc ∨ (T.node q).parent = some r) :
    T'.Kin := by
  intro q r hq hr
  rw [huid, huid]
  exact h q r ((hparent q r hq).resolve_left hr) hr

/-- A free slot is nobody's parent, so that only the parent of its new node counts. -/
theorem Tree.Kin.set (h : T.Kin) (hR : T.Rooted) (hi : (T.node i).life = .unused)
    (hm : ∀ p, m.parent = some p → (T.node p).life = .alive ∧ (T.node p).uid < m.uid) :
    (T.set i m).Kin := by
  have hne : ∀ {p}, (T.node p).life = .alive → p ≠ i := by
    rintro p hp rfl
    rw [hp] at hi
    cases hi
  intro q p hq hp
  simp only [Tree.set, update_apply] at hq ⊢
  by_cases hqi : q = i
  · rw [if_pos hqi] at hq ⊢
    rw [if_neg (hne (hm p hq).1)]
    exact (hm p hq).2
  · rw [if_neg hqi] at hq ⊢
    rw [if_neg (hne (hR.parent q p hq))]
    exact h q p hq hp

theorem Tree.Step.kin (hT : T.Ok) (h : T.Kin) (hstep : T.Step T') : T'.Kin := by
  cases hstep with
  | stay => exact h
  | @waste i n hi _ hparent =>
    refine h.set hT.rooted hi fun p hp => ?_
    rw [hT.rooted.free i hi, or_self] at hparent
    rw [hparent] at hp
    cases hp
  | @spawn p i _ hi hp =>
    refine h.set hT.rooted hi fun q hq => ?_
    cases hq
    have hle := (hT.counted.number p (by rw [hp]; exact Life.noConfusion)).2.1
    exact ⟨hp, Nat.lt_succ_of_le hle⟩
  | _ =>
    -- no other step finds a child a parent but the first process
    refine h.of_parents (fun q => ?_) fun q r hr => ?_ <;>
      simp only [Tree.turn, Tree.set, update_apply] at * <;> split_ifs at * <;>
      simp_all [Node.freed]

/-- How far a process is from the first one, at most. -/
def Tree.rank (T : Tree) (i : Nat) : Nat := if i = initproc then 0 else (T.node i).uid

theorem Tree.Kin.rank_lt (h : T.Kin) (hT : T.Ok) {p : Nat} (hi : (T.node i).parent = some p) :
    T.rank p < T.rank i := by
  have hroot : i ≠ initproc := by
    rintro rfl
    rw [hT.rooted.root.2] at hi
    cases hi
  have hused : (T.node i).life ≠ .unused := fun hfree => by
    rw [hT.rooted.free i hfree] at hi
    cases hi
  rw [rank, rank, if_neg hroot]
  split
  · exact (hT.counted.number i hused).1
  · exact h i p hi ‹_›

/-- `b` is the parent of `a`. -/
def Table.Parent (t : Table) (a b : Nat) : Prop := (t.proc a).parent = some b

/-- In every state of every schedule the parents lead from each process to the
first one, and no process is an ancestor of itself. -/
theorem ancestors {t : Table} (h : Reach Table.next (fun _ _ => True) Table.start t) :
    (∀ i, (t.proc i).state ≠ .unused → ReflTransGen t.Parent i initproc) ∧
      ∀ i, ¬TransGen t.Parent i i := by
  have hinv : t.tree.Ok ∧ t.tree.Kin :=
    h.invariant (I := fun t => t.tree.Ok ∧ t.tree.Kin) ⟨ok_start, fun i p hp => by
      simp only [Table.tree, Table.start] at hp
      split at hp <;> cases hp⟩ fun _ _ _ hok _ hnext =>
        ⟨(tree_next hnext).ok hok.1, (tree_next hnext).kin hok.1 hok.2⟩
  obtain ⟨hok, hkin⟩ := hinv
  have hlt : ∀ a b, t.Parent a b → t.tree.rank a > t.tree.rank b := fun _ _ => hkin.rank_lt hok
  constructor
  · intro i
    -- the rank falls from child to parent
    induction hn : t.tree.rank i using Nat.strong_induction_on generalizing i with
    | _ n ih =>
      intro hi
      by_cases hinit : i = initproc
      · rw [hinit]
      · obtain ⟨p, hp⟩ := Option.ne_none_iff_exists'.mp
          (hok.rooted.child i (fun hlife => hi (life_unused.mp hlife)) hinit)
        have hused := (life_alive (hok.rooted.parent i p hp)).1
        exact .head hp (ih _ (hn ▸ hlt i p hp) p rfl hused)
  · intro i hcycle
    have hgt := hcycle.lift (p := (· > ·)) t.tree.rank hlt
    rw [transGen_eq_self] at hgt
    exact lt_irrefl _ hgt

/-- The first process forks, and so does its child. -/
theorem ancestors_grandchild : ∃ t, Reach Table.next (fun _ _ => True) Table.start t ∧
    t.Parent 2 1 ∧ ¬TransGen t.Parent 2 2 := by
  have hrun : ((follow Table.next (fun _ _ => true) [.schedule 0, .call 0 .fork, .run 0 .ok true,
      .run 0 .ok true, .schedule 1, .call 1 .fork, .run 1 .ok true, .run 1 .ok true,
      .run 1 .ok true] Table.start).any fun t => (t.proc 2).parent == some 1) = true := by
    decide +kernel
  obtain ⟨t, hreach, hparent⟩ := Reach.of_any hrun
  exact ⟨t, hreach, beq_iff_eq.mp hparent, (ancestors hreach).2 2⟩

end Xv6.Sched
