import Mathlib.Algebra.Order.Group.Multiset
import Xv6.Sh.Refs

/-!
# What the processes of a command line have done and have yet to do

Every node of the tree is run once, by one process. So at any time what the
log says was done and what the code of all processes has yet to do are together
what the nodes of the tree do, each once. `Ledger` is this, with the reference
counts: a file gets its name when it is opened, and as that is in the log only
once, the name is new.
-/

namespace Xv6.Sh

open Xv6.Lib Function

variable {w w' : World} {i : Nat} {q : Proc}
variable {m : Mark} {files : Files}

/-! ## Sums over all processes -/

section total

variable {M : Type} [AddCancelCommMonoid M] {g : Proc → M}

def World.total (g : Proc → M) (w : World) : M := (w.procs.map g).sum

/-- Neither the parent of a process counts, nor whether a process that has
exited was waited for. -/
structure Weight (g : Proc → M) : Prop where
  parent : ∀ q o, g { q with parent := o } = g q
  freed : ∀ q, q.state = .zombie → g { q with state := .unused } = g q

theorem total_set (g : Proc → M) (q' : Proc) (hi : w.procs[i]? = some q) :
    ((w.procs.set i q').map g).sum + g q = w.total g + g q' :=
  sum_map_set g hi

theorem total_forked (g : Proc → M) (q' : Proc) (child : State) (hi : w.procs[i]? = some q) :
    ((w.forked i q' child).map g).sum + g q =
      w.total g + g q' + g { q' with state := child, parent := some i } := by
  rw [World.forked, List.map_append, List.sum_append, add_right_comm, total_set g q' hi, List.map_singleton,
    List.sum_singleton]

theorem total_reaped (hg : Weight g) (q' : Proc) {c : Proc} {j : Nat} (hi : w.procs[i]? = some q)
    (hj : w.procs[j]? = some c) (hzombie : c.state = .zombie) (hne : j ≠ i) :
    ((w.reaped i q' j c).map g).sum + g q = w.total g + g q' := by
  have hj' : (w.procs.set i q')[j]? = some c := by rw [List.getElem?_set_ne (Ne.symm hne), hj]
  have hsame : g { c with state := .unused, parent := none } = g c := by
    rw [← hg.freed c hzombie]
    exact hg.parent { c with state := .unused } none
  have hset := sum_map_set (b := { c with state := .unused, parent := none }) g hj'
  rw [hsame] at hset
  rw [World.reaped, add_right_cancel hset, total_set g q' hi]

theorem total_exited (hg : Weight g) (hi : w.procs[i]? = some q) :
    ((w.exited i q).map g).sum + g q =
      w.total g + g { q with state := .zombie, ofile := fun _ => none } := by
  have hsame : (g ∘ fun c : Proc => if c.parent = some i then { c with parent := none } else c) =
      g := by
    funext c
    rw [Function.comp_apply]
    split
    · exact hg.parent c none
    · rfl
  rw [World.exited, List.map_map, hsame, total_set g _ hi]

end total

/-! ## What the nodes do -/

/-- What running a command does: every node that is not a `LIST` or a `BACK`
leaves its mark. -/
def Cmd.marks (node : Node) : Cmd → List Mark
  | .exec [] => []
  | .exec (_ :: _) => [.exec node]
  | .redir cmd _ _ _ _ => .redir node :: cmd.marks (.inner :: node)
  | .list left right => left.marks (.left :: node) ++ right.marks (.right :: node)
  | .pipe left right => .pipe node :: (left.marks (.left :: node) ++ right.marks (.right :: node))
  | .back cmd => cmd.marks (.inner :: node)

/-- What the code of a process at a node has yet to do. -/
def Code.marks (node : Node) : Code → List Mark
  | .runcmd n cmd => cmd.marks n
  | .exec _ _ => [.exec node]
  | .openFile _ _ next => .redir node :: next.marks node
  | .close _ next => next.marks node
  | .dup _ next => next.marks node
  | .pipe next => .pipe node :: next.marks node
  | .fork child next => child.marks node ++ next.marks node
  | .wait next => next.marks node
  | .exit => []

theorem runcmd_marks (node : Node) (cmd : Cmd) : (runcmd node cmd).marks node = cmd.marks node := by
  cases cmd with
  | exec argv => cases argv <;> rfl
  | redir cmd file efile mode fd => rfl
  | list left right => rfl
  | pipe left right => simp [runcmd, wire, Code.marks, Cmd.marks]
  | back cmd => simp [runcmd, Code.marks, Cmd.marks]

def Mark.node : Mark → Node
  | .exec node => node
  | .redir node => node
  | .pipe node => node

/-- A command leaves its marks at its node and below. -/
theorem Cmd.suffix_of_mem_marks {node : Node} {cmd : Cmd} (h : m ∈ cmd.marks node) :
    node <:+ m.node := by
  induction cmd generalizing node with
  | exec argv =>
    cases argv with
    | nil => cases h
    | cons arg args =>
      rw [List.mem_singleton.mp h]
      exact List.suffix_rfl
  | redir cmd file efile mode fd ih =>
    rcases List.mem_cons.mp h with rfl | h
    · exact List.suffix_rfl
    · exact (List.suffix_cons _ _).trans (ih h)
  | list left right ihl ihr =>
    rcases List.mem_append.mp h with h | h
    · exact (List.suffix_cons _ _).trans (ihl h)
    · exact (List.suffix_cons _ _).trans (ihr h)
  | pipe left right ihl ihr =>
    rcases List.mem_cons.mp h with rfl | h
    · exact List.suffix_rfl
    rcases List.mem_append.mp h with h | h
    · exact (List.suffix_cons _ _).trans (ihl h)
    · exact (List.suffix_cons _ _).trans (ihr h)
  | back cmd ih => exact (List.suffix_cons _ _).trans (ih h)

theorem not_suffix_cons (node : Node) (d : Dir) : ¬ d :: node <:+ node := fun h => by
  have hlen := h.length_le
  rw [List.length_cons] at hlen
  omega

/-- No node is both on the left and on the right. -/
theorem Cmd.marks_disjoint {node : Node} {left right : Cmd} :
    ∀ m ∈ left.marks (.left :: node), ∀ m' ∈ right.marks (.right :: node), m ≠ m' := by
  rintro m hl m' hr rfl
  have hsuffix := List.suffix_of_suffix_length_le (Cmd.suffix_of_mem_marks hl)
    (Cmd.suffix_of_mem_marks hr) (Nat.le_refl _)
  cases List.IsSuffix.eq_of_length hsuffix rfl

/-- No mark is left twice. -/
theorem Cmd.marks_nodup (node : Node) (cmd : Cmd) : (cmd.marks node).Nodup := by
  induction cmd generalizing node with
  | exec argv =>
    cases argv with
    | nil => exact .nil
    | cons arg args => exact List.nodup_singleton _
  | redir cmd file efile mode fd ih =>
    exact List.nodup_cons.mpr ⟨fun h => not_suffix_cons node _ (Cmd.suffix_of_mem_marks h), ih _⟩
  | list left right ihl ihr =>
    exact List.nodup_append.mpr ⟨ihl _, ihr _, Cmd.marks_disjoint⟩
  | pipe left right ihl ihr =>
    refine List.nodup_cons.mpr ⟨fun h => ?_, List.nodup_append.mpr ⟨ihl _, ihr _, Cmd.marks_disjoint⟩⟩
    rcases List.mem_append.mp h with h | h
    · exact not_suffix_cons node _ (Cmd.suffix_of_mem_marks h)
    · exact not_suffix_cons node _ (Cmd.suffix_of_mem_marks h)
  | back cmd ih => exact ih _

/-! ## The ledger -/

/-- What was done. -/
def World.marks (w : World) : List Mark := w.log.map Prod.fst

/-- What a process has yet to do. -/
def pending (q : Proc) : Multiset Mark :=
  match q.state with
  | .code c => c.marks q.node
  | _ => 0

theorem pending_code {c : Code} (h : q.state = .code c) : pending q = c.marks q.node := by
  unfold pending
  rw [h]

theorem pending_program (h : q.state = .program) : pending q = 0 := by
  unfold pending
  rw [h]

theorem pending_weight : Weight pending where
  parent _ _ := rfl
  freed q h := by
    unfold pending
    rw [h]

theorem Effect.pending {s s' : Files} {q' : Proc} {log : List (Mark × Table)}
    (h : Effect s q q' s' log) : (log.map Prod.fst : Multiset Mark) + pending q' = pending q := by
  cases h with
  | runcmd hstate =>
    rw [pending_code hstate]
    exact (zero_add _).trans (congrArg _ (runcmd_marks _ _))
  | exec hstate =>
    rw [pending_code hstate]
    rfl
  | openFile hstate hfd =>
    rw [pending_code hstate]
    rfl
  | close hcloses hf hfiles =>
    cases hcloses with
    | code hstate =>
      rw [pending_code hstate]
      rfl
    | program hstate =>
      rw [pending_program hstate]
      rfl
  | dup hstate hf hnew hfiles =>
    rw [pending_code hstate]
    rfl
  | pipe hstate hfd0 hfd1 =>
    rw [pending_code hstate]
    rfl

/-- The mark that goes with the opening of a file. -/
def OpenFile.mark : OpenFile → Option Mark
  | .shell _ => none
  | .redir node => some (.redir node)
  | .pipe node _ => some (.pipe node)

theorem abroad_of_mark {elsewhere : Nat → Nat} {f : OpenFile} (h : f.mark = some m) :
    abroad elsewhere f = 0 := by
  cases f with
  | shell g => cases h
  | redir node => rfl
  | pipe node writable => rfl

/-- How many descriptors of a process are open on a file. -/
def holding (f : OpenFile) (q : Proc) : Nat := q.ofile.holds f

theorem holding_weight (f : OpenFile) : Weight (holding f) :=
  ⟨fun _ _ => rfl, fun _ _ => rfl⟩

section effect

variable {s s' : Files} {q' : Proc} {log : List (Mark × Table)}

/-- One descriptor comes to a file or leaves it, and its count with it. -/
theorem counted_update (ref : OpenFile → Nat) (k : Nat) {t : Table} {fd : Nat} {g : OpenFile}
    {o : Option OpenFile} (hfd : fd < NOFILE) (hold : t fd = none ∨ t fd = some g)
    (ho : o = none ∨ o = some g) (hk : k + one (t fd) g = ref g + one o g) (f : OpenFile) :
    update ref g k f + t.holds f = ref f + Table.holds (update t fd o) f := by
  have hholds : Table.holds (update t fd o) f + one (t fd) f = t.holds f + one o f :=
    countP_update hfd
  by_cases hf : f = g
  · subst hf
    rw [update_self]
    omega
  · have hother : ∀ o : Option OpenFile, o = none ∨ o = some g → one o f = 0 := by
      rintro o (rfl | rfl)
      · rfl
      · exact if_neg fun heq => hf (Option.some.inj heq).symm
    rw [hother _ hold, hother _ ho] at hholds
    rw [update_of_ne hf]
    omega

section

variable (h : Effect s q q' s' log)
include h

/-- The references change as the descriptors do, if what is opened is new. -/
theorem Effect.counted (hnew : ∀ f m, f.mark = some m → m ∈ log.map Prod.fst → s.ref f = 0)
    (f : OpenFile) : s'.ref f + q.ofile.holds f = s.ref f + q'.ofile.holds f := by
  cases h with
  | runcmd hstate => rfl
  | exec hstate => rfl
  | openFile hstate hfd =>
    obtain ⟨hlt, hfree, -⟩ := fdalloc_some hfd
    have hzero := hnew (.redir q.node) _ rfl (List.mem_singleton_self _)
    exact counted_update _ _ hlt (.inl hfree) (.inr rfl) (by simp [one, hfree, hzero]) f
  | close hcloses hg hfiles =>
    obtain ⟨hlt, hopen⟩ := argfd_some hg
    obtain ⟨hpos, href, -⟩ := fileclose_some hfiles
    rw [href]
    refine counted_update _ _ hlt (.inr hopen) (.inl rfl) ?_ f
    simp only [one, hopen, reduceCtorEq, if_true, if_false]
    omega
  | dup hstate hg hnewfd hfiles =>
    obtain ⟨hlt, hfree, -⟩ := fdalloc_some hnewfd
    obtain ⟨hpos, rfl⟩ := filedup_some hfiles
    exact counted_update _ _ hlt (.inl hfree) (.inr rfl) (by simp [one, hfree]) f
  | pipe hstate hfd0 hfd1 =>
    obtain ⟨hlt0, hfree0, -⟩ := fdalloc_some hfd0
    obtain ⟨hlt1, hfree1, -⟩ := fdalloc_some hfd1
    have hzero : ∀ writable, s.ref (.pipe q.node writable) = 0 := fun writable =>
      hnew (.pipe q.node writable) _ rfl (List.mem_singleton_self _)
    have hread := counted_update s.ref 1 hlt0 (.inl hfree0)
      (.inr (rfl : _ = some (.pipe q.node false))) (by simp [one, hfree0, hzero]) f
    have hwrite := counted_update
      (update s.ref (.pipe q.node false) 1) 1 hlt1 (.inl hfree1)
      (.inr (rfl : _ = some (.pipe q.node true))) (by simp [one, hfree1, hzero]) f
    show update (update s.ref (.pipe q.node false) 1) (.pipe q.node true) 1 f + _ =
      _ + Table.holds (update (update _ _ _) _ _) f
    omega

/-- A program is started with the descriptors 0, 1 and 2. -/
theorem Effect.started (hq : q.Ok) {n : Node} {t : Table}
    (hmem : (Mark.exec n, t) ∈ log) (fd : Nat) : (t fd).isSome ↔ fd < 3 := by
  cases h with
  | runcmd hstate => cases hmem
  | exec hstate =>
    cases List.mem_singleton.mp hmem
    exact Plain.exactly (hq.code hstate) fd
  | openFile hstate hfd => cases List.mem_singleton.mp hmem
  | close hcloses hg hfiles => cases hmem
  | dup hstate hg hnewfd hfiles => cases hmem
  | pipe hstate hfd0 hfd1 => cases List.mem_singleton.mp hmem

/-- What was not opened has no references. -/
theorem Effect.fresh {f : OpenFile} (hm : f.mark = some m)
    (hnot : m ∉ log.map Prod.fst) (hzero : s.ref f = 0) : s'.ref f = 0 := by
  cases h with
  | runcmd hstate => exact hzero
  | exec hstate => exact hzero
  | openFile hstate hfd =>
    show update s.ref (.redir q.node) 1 f = 0
    rw [update_of_ne, hzero]
    rintro rfl
    cases hm
    exact hnot (List.mem_singleton_self _)
  | close hcloses hg hfiles =>
    obtain ⟨hpos, href, -⟩ := fileclose_some hfiles
    rw [href, update_of_ne, hzero]
    rintro rfl
    omega
  | dup hstate hg hnewfd hfiles =>
    obtain ⟨hpos, rfl⟩ := filedup_some hfiles
    show update s.ref _ _ f = 0
    rw [update_of_ne, hzero]
    rintro rfl
    omega
  | pipe hstate hfd0 hfd1 =>
    have hne : ∀ writable, f ≠ .pipe q.node writable := by
      rintro writable rfl
      cases hm
      exact hnot (List.mem_singleton_self _)
    show update (update s.ref _ 1) _ 1 f = 0
    rw [update_of_ne (hne true), update_of_ne (hne false), hzero]

/-- The ends of pipes stay as open as they are referred to. -/
theorem Effect.agrees {made : Node → Prop} (hs : s.Agrees made) :
    s'.Agrees fun n => Mark.pipe n ∈ log.map Prod.fst ∨ made n := by
  cases h with
  | runcmd hstate => exact fun n writable hn => hs n writable (hn.resolve_left nofun)
  | exec hstate =>
    refine fun n writable hn => hs n writable (hn.resolve_left fun hmem => ?_)
    cases List.mem_singleton.mp hmem
  | openFile hstate hfd =>
    intro n writable hn
    have hmade : made n := hn.resolve_left fun hmem => by cases List.mem_singleton.mp hmem
    show (s.pipe n).isOpen writable = decide (0 < update s.ref (.redir q.node) 1
      (.pipe n writable))
    rw [update_of_ne (by simp)]
    exact hs n writable hmade
  | close hcloses hg hfiles =>
    exact fun n writable hn => hs.fileclose hfiles n writable (hn.resolve_left nofun)
  | dup hstate hg hnewfd hfiles =>
    exact fun n writable hn => hs.filedup hfiles n writable (hn.resolve_left nofun)
  | pipe hstate hfd0 hfd1 =>
    intro n writable hn
    show (update s.pipe q.node ⟨true, true⟩ n).isOpen writable =
      decide (0 < update (update s.ref (.pipe q.node false) 1)
        (.pipe q.node true) 1 (.pipe n writable))
    by_cases heq : n = q.node
    · subst heq
      cases writable <;> simp [PipeEnds.isOpen]
    · have hmade : made n := hn.resolve_left fun hmem => by
        cases List.mem_singleton.mp hmem
        exact heq rfl
      rw [update_of_ne heq, update_of_ne (by simp [heq]),
        update_of_ne (by simp [heq])]
      exact hs n writable hmade

end

end effect

/-- The books of a run of `cmd` balance. -/
structure Ledger (cmd : Cmd) (elsewhere : Nat → Nat) (w : World) : Prop where
  ok : ∀ q ∈ w.procs, q.Ok
  counted : ∀ f, w.files.ref f = w.total (holding f) + abroad elsewhere f
  fresh : ∀ f m, f.mark = some m → m ∉ w.marks → w.files.ref f = 0
  agrees : w.files.Agrees fun n => Mark.pipe n ∈ w.marks
  todo : (w.marks : Multiset Mark) + w.total pending = cmd.marks []
  started : ∀ n t, (Mark.exec n, t) ∈ w.log → ∀ fd, (t fd).isSome ↔ fd < 3

section ledger

variable {cmd : Cmd} {elsewhere : Nat → Nat}

section

variable (h : Ledger cmd elsewhere w)
include h

section

variable (hi : w.procs[i]? = some q)
include hi

/-- What a process has yet to do was not done. -/
theorem Ledger.not_done (hm : m ∈ pending q) : m ∉ w.marks := by
  intro hdone
  have hnodup : ((w.marks : Multiset Mark) + w.total pending).Nodup := by
    rw [h.todo]
    exact Cmd.marks_nodup [] cmd
  obtain ⟨l₁, l₂, hprocs⟩ := List.append_of_mem (List.mem_of_getElem? hi)
  have hmem : m ∈ w.total pending := by
    unfold World.total
    rw [hprocs, List.map_append, List.map_cons, List.sum_append, List.sum_cons]
    exact Multiset.mem_add.mpr (.inr (Multiset.mem_add.mpr (.inl hm)))
  exact Multiset.disjoint_left.mp (Multiset.nodup_add.mp hnodup).2.2 hdone hmem

/-- A process holds no more than there is. -/
theorem Ledger.holding_le (f : OpenFile) : holding f q ≤ w.files.ref f := by
  have hle := List.single_le_sum (fun x _ => Nat.zero_le x) _
    (List.mem_map_of_mem (f := holding f) (List.mem_of_getElem? hi))
  rw [h.counted f]
  unfold World.total
  omega

theorem Ledger.alone {q' : Proc}
    {log : List (Mark × Table)} (heffect : Effect w.files q q' files log) :
    Ledger cmd elsewhere { procs := w.procs.set i q', files := files, log := log ++ w.log } := by
  have hq := h.ok q (List.mem_of_getElem? hi)
  have hpending := heffect.pending
  have hmarks : ∀ m ∈ log.map Prod.fst, m ∉ w.marks := fun m hm =>
    h.not_done hi (by
      rw [← hpending]
      exact Multiset.mem_add.mpr (.inl hm))
  have hnew : ∀ f m, f.mark = some m → m ∈ log.map Prod.fst → w.files.ref f = 0 :=
    fun f m hf hm => h.fresh f m hf (hmarks m hm)
  have hsplit : World.marks { procs := w.procs.set i q', files := files, log := log ++ w.log } =
      log.map Prod.fst ++ w.marks := List.map_append
  refine ⟨ok_set h.ok (heffect.ok hq), fun f => ?_, fun f m hf hm => ?_, ?_, ?_, fun n t hmem => ?_⟩
  · have hcounted : files.ref f + holding f q = w.files.ref f + holding f q' :=
      heffect.counted hnew f
    have htotal := total_set (holding f) q' hi
    have hold := h.counted f
    show files.ref f = ((w.procs.set i q').map (holding f)).sum + _
    omega
  · rw [hsplit, List.mem_append, not_or] at hm
    exact heffect.fresh hf hm.1 (h.fresh f m hf hm.2)
  · rw [hsplit]
    intro n writable hn
    exact heffect.agrees h.agrees n writable (List.mem_append.mp hn)
  · rw [hsplit]
    show (↑(log.map Prod.fst ++ w.marks) : Multiset Mark) + ((w.procs.set i q').map pending).sum = _
    rw [← h.todo, ← Multiset.coe_add]
    refine add_right_cancel (b := pending q) ?_
    rw [add_assoc, total_set pending q' hi, ← hpending]
    abel
  · rcases List.mem_append.mp hmem with hmem | hmem
    · exact heffect.started hq hmem
    · exact h.started n t hmem

theorem Ledger.forked {child state : State}
    (hforks : q.Forks child state) (hfiles : overTable Files.filedup q.ofile w.files = some files)
    (hok : ∀ r ∈ w.forked i { q with state := state } child, r.Ok) : Ledger cmd elsewhere
      { w with procs := w.forked i { q with state := state } child, files := files } := by
  have href : ∀ f, files.ref f = w.files.ref f + holding f q := (overTable_filedup h.agrees hfiles).1
  refine ⟨hok, fun f => ?_, fun f m hf hm => ?_, (overTable_filedup h.agrees hfiles).2, ?_, h.started⟩
  · have htotal : ((w.forked i { q with state := state } child).map (holding f)).sum + holding f q =
        w.total (holding f) + holding f q + holding f q := total_forked _ _ _ hi
    have hold := h.counted f
    have hf := href f
    show files.ref f = ((w.forked i { q with state := state } child).map (holding f)).sum + _
    omega
  · have hzero := h.fresh f m hf hm
    have hle := h.holding_le hi f
    have hf := href f
    show files.ref f = 0
    omega
  · have htotal := total_forked pending { q with state := state } child hi
    have hpending : pending { q with state := state } +
        pending { q with state := child, parent := some i } = pending q := by
      cases hforks with
      | code hstate =>
        rw [pending_code hstate, add_comm]
        exact Multiset.coe_add _ _
      | program hstate =>
        rw [pending_program hstate]
        rfl
    rw [add_assoc, hpending] at htotal
    show (w.marks : Multiset Mark) + (List.map pending _).sum = _
    rw [add_right_cancel htotal]
    exact h.todo

theorem Ledger.reaped {next : Code} {j : Nat} {c : Proc} (hstate : q.state = .code (.wait next))
    (hj : w.procs[j]? = some c) (hzombie : c.state = .zombie)
    (hne : j ≠ i) (hok : ∀ r ∈ w.reaped i { q with state := .code next } j c, r.Ok) :
    Ledger cmd elsewhere { w with procs := w.reaped i { q with state := .code next } j c } := by
  refine ⟨hok, fun f => ?_, h.fresh, h.agrees, ?_, h.started⟩
  · have htotal := total_reaped (holding_weight f) { q with state := .code next } hi hj hzombie hne
    rw [h.counted f, ← add_right_cancel htotal]
    rfl
  · have htotal := total_reaped pending_weight { q with state := .code next } hi hj hzombie hne
    have hpending : pending { q with state := .code next } = pending q := by
      rw [pending_code hstate]
      rfl
    rw [hpending] at htotal
    rw [← h.todo, ← add_right_cancel htotal]
    rfl

theorem Ledger.exited (hexits : q.Exits)
    (hfiles : overTable Files.fileclose q.ofile w.files = some files)
    (hok : ∀ r ∈ w.exited i q, r.Ok) :
    Ledger cmd elsewhere { w with procs := w.exited i q, files := files } := by
  have href : ∀ f, files.ref f + holding f q = w.files.ref f :=
    (overTable_fileclose h.agrees hfiles).1
  refine ⟨hok, fun f => ?_, fun f m hf hm => ?_, (overTable_fileclose h.agrees hfiles).2, ?_,
    h.started⟩
  · have htotal := total_exited (holding_weight f) hi
    have hnone : holding f { q with state := .zombie, ofile := fun _ => none } = 0 :=
      List.countP_eq_zero.mpr fun fd _ => by simp
    have hold := h.counted f
    have hf := href f
    show files.ref f = ((w.exited i q).map (holding f)).sum + _
    omega
  · have hzero := h.fresh f m hf hm
    have hf := href f
    show files.ref f = 0
    omega
  · have htotal := total_exited pending_weight hi
    have hpending : pending q = 0 := by
      rcases hexits with hstate | hstate
      · rw [pending_code hstate]
        rfl
      · exact pending_program hstate
    rw [hpending] at htotal
    rw [← h.todo, ← add_right_cancel htotal]
    rfl

/-- Every step keeps the books. -/
theorem Ledger.step (hdid : Did w i q w') : Ledger cmd elsewhere w' := by
  have hok := hdid.ok hi h.ok
  cases hdid with
  | alone heffect => exact h.alone hi heffect
  | fork hforks hfiles => exact h.forked hi hforks hfiles hok
  | wait hstate hj hparent hzombie hne => exact h.reaped hi hstate hj hzombie hne hok
  | exit hexits hfiles => exact h.exited hi hexits hfiles hok

end

end

end ledger

end Xv6.Sh
