import Mathlib.Data.List.Induction
import Mathlib.Data.List.Nodup
import Xv6.Log.Model

/-!
# Crash atomicity of the redo log

After any crash, recovery leaves the home blocks as a whole prefix of the
transactions makes them.

The invariant is `Represents log d T`: the header on disk `d` is well formed
and a replay of the log it describes gives every home block its value in
`T`. Every single disk write of `commit` and of `recover_from_log` keeps
it, for `T` the blocks before the transaction up to the committing header
write and for `T` the blocks after it from then on:

* the writes of `write_log` go to log blocks while the header is empty, so
  the replay is the disk itself;
* the committing `write_head` turns the replay from the old blocks into the
  new ones in one write;
* a write of `install_trans` stores at a home block what the replay stores
  there last (`replay_install`);
* the clearing `write_head` empties a log that is already installed.

`triple_recoverFromLog` and `triple_commit` state this for the two programs,
and `crash_atomicity` puts them together.
-/

namespace Xv6.Log

open Xv6.Lib.Crash Xv6.Lib.CInt Function

variable {block : Nat → Nat} {data : Nat → Block} {d T c : Disk} {n b i j : Nat} {s : Machine}
  {us : List (Nat × Block)} {H : Machine → Prop} {txs : List (List (Nat × Block))}

/-! ## Replaying a log -/

/-- Disk `d` after the first `i` home writes `block j := data j` in order. -/
def install (block : Nat → Nat) (data : Nat → Block) (d : Disk) : Nat → Disk
  | 0 => d
  | i + 1 => Function.update (install block data d i) (block i) (data i)

theorem install_of_ne (h : ∀ i < n, block i ≠ b) : install block data d n b = d b := by
  induction n with
  | zero => rfl
  | succ n ih =>
    rw [install, update_of_ne (Ne.symm (h n (by omega)))]
    exact ih (fun i hi => h i (by omega))

/-- The home writes overwrite what they name, so two disks that agree
elsewhere agree after them. -/
theorem install_congr {data' : Nat → Block} {d' : Disk} (hdata : ∀ i < n, data i = data' i)
    (h : (∃ i < n, block i = b) ∨ d b = d' b) :
    install block data d n b = install block data' d' n b := by
  induction n with
  | zero =>
    rcases h with ⟨i, hi, _⟩ | h
    · omega
    · exact h
  | succ n ih =>
    by_cases hb : block n = b
    · subst hb
      simp only [install, update_self]
      exact hdata n (by omega)
    · rw [install, install, update_of_ne (Ne.symm hb), update_of_ne (Ne.symm hb)]
      refine ih (fun i hi => hdata i (by omega)) ?_
      rcases h with ⟨i, hi, hib⟩ | h
      · have hin : i ≠ n := fun hin => hb (hin ▸ hib)
        exact Or.inl ⟨i, by omega, hib⟩
      · exact Or.inr h

/-- The writes of an interrupted installation do not change the result of
a complete one. -/
theorem install_install (block : Nat → Nat) (data : Nat → Block) (d : Disk) (hi : i ≤ n) (b : Nat) :
    install block data (install block data d i) n b = install block data d n b := by
  apply install_congr (fun _ _ => rfl)
  by_cases hb : ∃ j < n, block j = b
  · exact Or.inl hb
  · refine Or.inr (install_of_ne fun j hj hjb => hb ⟨j, by omega, hjb⟩)

/-- A block that is named once holds the data it is named with. -/
theorem install_apply (hi : i < n) (hinj : ∀ j < n, block j = block i → j = i) :
    install block data d n (block i) = data i := by
  induction n with
  | zero => omega
  | succ n ih =>
    by_cases hn : i = n
    · subst hn
      rw [install, update_self]
    · have hne : block i ≠ block n := fun h => hn (hinj n (by omega) h.symm).symm
      rw [install, update_of_ne hne]
      exact ih (by omega) (fun j hj => hinj j (by omega))

theorem install_ext {block' : Nat → Nat} {data' : Nat → Block}
    (hblock : ∀ i < n, block i = block' i) (hdata : ∀ i < n, data i = data' i) :
    install block data d n = install block' data' d n := by
  induction n with
  | zero => rfl
  | succ n ih =>
    rw [install, install, hblock n (by omega), hdata n (by omega),
      ih (fun i hi => hblock i (by omega)) (fun i hi => hdata i (by omega))]

variable (log : Layout)

/-- A block number outside the log area. -/
def Layout.IsHome (b : Nat) : Prop :=
  b < 2 ^ 32 ∧ (b < log.start ∨ log.start + log.size ≤ b)

/-- Log block `i` of a disk. -/
def logBlock (d : Disk) (i : Nat) : Block := d (log.start + i + 1)

/-- The disk after the log its header describes has been installed. -/
def replay (d : Disk) : Disk :=
  install (headBlock (d log.start)) (logBlock log d) d (headN (d log.start)).toNat

/-- The header of disk `d` describes a log that fits and names home
blocks. An empty header does, which is what `mkfs` writes. -/
structure HeaderOk (d : Disk) : Prop where
  fitsLog : headN (d log.start) ≤ (log.size : Int) - 1
  fitsHeader : headN (d log.start) ≤ LOGSIZE
  home : ∀ i : Nat, (i : Int) < headN (d log.start) → log.IsHome (headBlock (d log.start) i)

/-- Disk `d` stands for the home blocks `T`. -/
structure Represents (d T : Disk) : Prop where
  header : HeaderOk log d
  replay : ∀ b, log.IsHome b → replay log d b = T b

variable {log}

theorem Layout.IsHome.ne_log (h : log.IsHome b) (hi : i < log.size) : b ≠ log.start + i := by
  have := h.2
  omega

/-- An interrupted installation keeps the header and the log blocks. -/
theorem install_log (hhome : ∀ j < n, log.IsHome (block j)) (hi : i < log.size) :
    install block data d n (log.start + i) = d (log.start + i) :=
  install_of_ne fun j hj => (hhome j hj).ne_log hi

/-- Every point of an installation of a log represents the same home
blocks. -/
theorem replay_install (h : Represents log d T) (hi : i ≤ (headN (d log.start)).toNat) :
    Represents log (install (headBlock (d log.start)) (logBlock log d) d i) T := by
  have hhome : ∀ j < i, log.IsHome (headBlock (d log.start) j) :=
    fun j hj => h.header.home j (by omega)
  have hstart : install (headBlock (d log.start)) (logBlock log d) d i log.start
      = d log.start := by
    have h0 := log.size_pos
    exact install_log (i := 0) hhome h0
  have hblocks : ∀ j : Nat, (j : Int) < headN (d log.start) →
      logBlock log (install (headBlock (d log.start)) (logBlock log d) d i) j
        = logBlock log d j := by
    intro j hj
    have := h.header.fitsLog
    exact install_log hhome (by omega) (i := j + 1)
  refine ⟨⟨?_, ?_, ?_⟩, ?_⟩
  · rw [hstart]; exact h.header.fitsLog
  · rw [hstart]; exact h.header.fitsHeader
  · rw [hstart]; exact h.header.home
  · intro b hb
    rw [← h.replay b hb, replay, replay, hstart,
      ← install_install (headBlock (d log.start)) (logBlock log d) d hi b]
    refine install_congr (fun j hj => hblocks j (by omega)) (Or.inr rfl)

/-- The same for block numbers and blocks that agree with the log. -/
theorem Represents.installing (h : Represents log d T) (hn : (headN (d log.start)).toNat = n)
    (hblock : ∀ j < n, block j = headBlock (d log.start) j)
    (hdata : ∀ j < n, data j = logBlock log d j) (hi : i ≤ n) :
    Represents log (install block data d i) T := by
  rw [install_ext (fun j hj => hblock j (Nat.lt_of_lt_of_le hj hi))
    (fun j hj => hdata j (Nat.lt_of_lt_of_le hj hi))]
  exact replay_install h (hn ▸ hi)

/-- A complete installation leaves the home blocks the disk stands for. -/
theorem Represents.installed (h : Represents log d T) (hn : (headN (d log.start)).toNat = n)
    (hblock : ∀ j < n, block j = headBlock (d log.start) j)
    (hdata : ∀ j < n, data j = logBlock log d j) (hb : log.IsHome b) :
    install block data d n b = T b := by
  rw [install_ext hblock hdata, ← h.replay b hb, Xv6.Log.replay, hn]

theorem represents_of_empty (h0 : headN (d log.start) = 0) (hT : ∀ b, log.IsHome b → d b = T b) :
    Represents log d T := by
  have := log.size_pos
  refine ⟨⟨by omega, by omega, fun i hi => by omega⟩, fun b hb => ?_⟩
  rw [replay, h0]
  exact hT b hb

/-! ## Header blocks -/

theorem get32_putHead_go_zero (lh : LogHeader) (hb : Block) (i : Nat) :
    get32 (putHead.go lh hb i) 0 = uint32 lh.n := by
  induction i with
  | zero =>
    rw [putHead.go, get32_put32_self, Nat.mod_eq_of_lt (uint32_lt _)]
  | succ i ih =>
    rw [putHead.go, get32_put32_of_disjoint _ _ (by omega)]
    exact ih

theorem get32_putHead_go_block (lh : LogHeader) (hb : Block) (hj : j < i) :
    get32 (putHead.go lh hb i) (4 + 4 * j) = lh.block j % 2 ^ 32 := by
  induction i with
  | zero => omega
  | succ i ih =>
    by_cases hji : j = i
    · subst hji
      rw [putHead.go, get32_put32_self]
    · rw [putHead.go, get32_put32_of_disjoint _ _ (by omega)]
      exact ih (by omega)

theorem headN_putHead {lh : LogHeader} (hb : Block) (h0 : 0 ≤ lh.n) (hn : lh.n ≤ LOGSIZE) :
    headN (putHead lh hb) = lh.n := by
  have hsize : (LOGSIZE : Int) = 30 := rfl
  have hu : ((uint32 lh.n : Nat) : Int) = lh.n := by
    unfold uint32
    omega
  unfold headN putHead
  rw [get32_putHead_go_zero, hu]
  exact int32_of_bounds (by omega) (by omega)

theorem headBlock_putHead {lh : LogHeader} (hb : Block) (hj : (j : Int) < lh.n)
    (hlt : lh.block j < 2 ^ 32) : headBlock (putHead lh hb) j = lh.block j := by
  unfold headBlock putHead
  rw [get32_putHead_go_block _ _ (by omega), Nat.mod_eq_of_lt hlt]

/-! ## The state a program reads and writes

A program of the log sees the disk `d`, the content `c` that `bread`
returns for each block, and the counters and `log.lh` in `v`. `At B d c v`
holds of the machines with that view; which blocks happen to be cached does
not show in it. Unless `B` there is also a buffer left that is not pinned, so
that `bread` finds one for any block. -/

/-- What `bread` returns. -/
def Machine.content (s : Machine) (b : Nat) : Block := (s.cache b).getD (s.disk b)

/-- The volatile part of the machine other than the buffers. -/
structure Rest where
  lh : LogHeader
  outstanding : Int
  committing : Bool
  current : Nat
  reached : Nat

def Machine.rest (s : Machine) : Rest :=
  ⟨s.lh, s.outstanding, s.committing, s.current, s.reached⟩

structure At (B : Prop) (d c : Disk) (v : Rest) (s : Machine) : Prop where
  disk : s.disk = d
  content : s.content = c
  rest : s.rest = v
  buffers : B ∨ s.pins.toFinset.card < NBUF

variable {B : Prop}

theorem At.lh {v : Rest} (h : At B d c v s) : s.lh = v.lh :=
  congrArg Rest.lh h.rest

theorem At.outstanding {v : Rest} (h : At B d c v s) : s.outstanding = v.outstanding :=
  congrArg Rest.outstanding h.rest

theorem At.committing {v : Rest} (h : At B d c v s) : s.committing = v.committing :=
  congrArg Rest.committing h.rest

theorem At.current {v : Rest} (h : At B d c v s) : s.current = v.current :=
  congrArg Rest.current h.rest

theorem At.reached {v : Rest} (h : At B d c v s) : s.reached = v.reached :=
  congrArg Rest.reached h.rest

theorem content_update_cache (s : Machine) (b : Nat) (data : Block) :
    Machine.content { s with cache := update s.cache b (some data) } = update s.content b data := by
  funext x
  by_cases hx : x = b
  · subst hx
    simp [Machine.content]
  · simp [Machine.content, update_of_ne hx]

theorem content_update_disk (s : Machine) (b : Nat) (data : Block) :
    Machine.content { s with
      disk := update s.disk b data
      cache := update s.cache b (some data) } =
      update s.content b data := by
  funext x
  by_cases hx : x = b
  · subst hx
    simp [Machine.content]
  · simp [Machine.content, update_of_ne hx]

theorem content_lh (s : Machine) (lh : LogHeader) :
    Machine.content { s with lh := lh } = s.content := rfl

section Programs

variable {D : Disk → Nat → Prop} {v : Rest}

/-- A condition on the disk and the ghost is the crash condition. -/
def Lost (D : Disk → Nat → Prop) (s : Machine) : Prop := D s.disk s.reached

theorem At.lost (hD : D d v.reached) (h : At B d c v s) : Lost D s := by
  rw [Lost, h.disk, h.reached]
  exact hD

-- A program that may run out of buffers stops where the disk is sound.
variable (hB : B → ∀ s, Lost D s → H s)

include hB in
theorem triple_bread {C : Machine → Prop} (b : Nat) (hD : D d v.reached) :
    Triple (At B d c v) (bread b) (fun data s => At B d c v s ∧ data = c b) H C := by
  apply triple_get
  intro s hs
  split
  · rename_i hfull
    refine triple_halt fun s' hs' => ?_
    rw [hs']
    exact hB (hs.buffers.resolve_right (Nat.not_lt.mpr hfull.2)) s (hs.lost hD)
  cases hc : s.cache b with
  | some data =>
    refine triple_pure fun s' hs' => ?_
    subst hs'
    refine ⟨hs, ?_⟩
    rw [← hs.content]
    simp [Machine.content, hc]
  | none =>
    have hcb : c b = s.disk b := by
      rw [← hs.content]
      simp [Machine.content, hc]
    refine triple_bind (Q := fun _ => At B d c v) (triple_modify fun s' hs' => ?_)
      (fun _ => triple_pure fun s' hs' => ⟨hs', hcb.symm⟩)
    subst hs'
    refine ⟨hs.disk, ?_, hs.rest, hs.buffers⟩
    rw [content_update_cache, hs.content, ← hcb, update_eq_self]

include hB in
theorem triple_bread_bind {C : Machine → Prop} {β : Type} {f : Block → LogM β}
    {R : β → Machine → Prop} (hD : D d v.reached) (h : Triple (At B d c v) (f (c b)) R H C) :
    Triple (At B d c v) (bread b >>= f) R H C := by
  refine triple_bind (triple_bread hB b hD) fun data => ?_
  intro s power hs
  rw [hs.2]
  exact h s power hs.1

theorem triple_bwrite (b : Nat) (data : Block) (hD : D d v.reached) :
    Triple (At B d c v) (bwrite b data)
      (fun _ => At B (update d b data) (update c b data) v) H (Lost D) := by
  refine triple_commit (fun s hs => hs.lost hD) fun s hs => ⟨?_, ?_, hs.rest, hs.buffers⟩
  · rw [← hs.disk]
  · rw [← hs.content]
    exact content_update_disk s b data

include hB in
theorem triple_writeHead (hD : D d v.reached) :
    Triple (At B d c v) (writeHead log)
      (fun _ => At B (update d log.start (putHead v.lh (c log.start)))
        (update c log.start (putHead v.lh (c log.start)))
        { v with reached := if 0 < v.lh.n then v.current else v.reached }) H (Lost D) := by
  refine triple_bread_bind hB hD
    (triple_commit (fun s hs => hs.lost hD) fun s hs => ⟨?_, ?_, ?_, hs.buffers⟩)
  · rw [← hs.disk, ← hs.lh]
  · rw [← hs.content, ← hs.lh]
    exact content_update_disk s _ _
  · rw [← hs.rest]
    rfl

/-- `log.lh` after `read_head` of header block `buf`. -/
def readLh (lh : LogHeader) (buf : Block) : LogHeader where
  n := headN buf
  block := fun i => if (i : Int) < headN buf then headBlock buf i else lh.block i

include hB in
theorem triple_readHead (hD : D d v.reached) :
    Triple (At B d c v) (readHead log)
      (fun _ => At B d c { v with lh := readLh v.lh (c log.start) }) H (Lost D) := by
  refine triple_bread_bind hB hD (triple_modify fun s hs => ⟨hs.disk, ?_, ?_, hs.buffers⟩)
  · rw [content_lh, hs.content]
  · rw [← hs.rest]
    rfl

theorem triple_clearLh :
    Triple (At B d c v) clearLh (fun _ => At B d c { v with lh.n := 0 }) H (Lost D) := by
  refine triple_modify fun s hs => ⟨hs.disk, hs.content, ?_, hs.buffers⟩
  rw [← hs.rest]
  rfl

theorem card_toFinset_le {xs ys : List Nat} (h : xs ⊆ ys) : xs.toFinset.card ≤ ys.toFinset.card :=
  Finset.card_le_card fun _ hx => List.mem_toFinset.mpr (h (List.mem_toFinset.mp hx))

theorem triple_bunpin (b : Nat) :
    Triple (At B d c v) (bunpin b) (fun _ => At B d c v) H (Lost D) := by
  refine triple_modify fun s hs => ⟨hs.disk, hs.content, hs.rest, hs.buffers.imp_right fun h => ?_⟩
  exact Nat.lt_of_le_of_lt (card_toFinset_le List.erase_subset) h

include hB in
/-- `install_trans` stores log block `j` at home block `j`, in order. The
log blocks themselves do not change under it, since home blocks lie outside
the log. -/
theorem triple_installTrans (recovering : Bool) (hn : v.lh.n ≤ (log.size : Int) - 1)
    (hhome : ∀ j < v.lh.n.toNat, log.IsHome (v.lh.block j))
    (hD : ∀ i < v.lh.n.toNat, D (install v.lh.block (logBlock log c) d i) v.reached) :
    Triple (At B d c v) (installTrans log recovering)
      (fun _ => At B (install v.lh.block (logBlock log c) d v.lh.n.toNat)
        (install v.lh.block (logBlock log c) c v.lh.n.toNat) v) H (Lost D) := by
  refine triple_read fun s hs => ?_
  rw [hs.lh]
  refine triple_forTo (fun i => At B (install v.lh.block (logBlock log c) d i)
    (install v.lh.block (logBlock log c) c i) v) ?_
  intro i hi
  have hlog : install v.lh.block (logBlock log c) c i (log.start + i + 1) = logBlock log c i :=
    install_log (i := i + 1) (fun j hj => hhome j (by omega)) (by omega)
  refine triple_bread_bind hB (hD i hi) (triple_bread_bind hB (hD i hi) ?_)
  rw [hlog]
  refine triple_bind (triple_bwrite _ _ (hD i hi)) fun _ => ?_
  cases recovering with
  | true => exact triple_pure fun _ h => h
  | false => exact triple_bunpin _

include hB in
/-- `write_log` stores the cached home block `j` at log block `j`, in
order. -/
theorem triple_writeLog (hn : v.lh.n ≤ (log.size : Int) - 1)
    (hhome : ∀ j < v.lh.n.toNat, log.IsHome (v.lh.block j)) (hD : ∀ i, i < v.lh.n.toNat →
      D (install (fun j => log.start + j + 1) (fun j => c (v.lh.block j)) d i) v.reached) :
    Triple (At B d c v) (writeLog log)
      (fun _ => At B (install (fun j => log.start + j + 1) (fun j => c (v.lh.block j)) d
          v.lh.n.toNat)
        (install (fun j => log.start + j + 1) (fun j => c (v.lh.block j)) c v.lh.n.toNat) v) H
      (Lost D) := by
  refine triple_read fun s hs => ?_
  rw [hs.lh]
  refine triple_forTo (fun i => At B
    (install (fun j => log.start + j + 1) (fun j => c (v.lh.block j)) d i)
    (install (fun j => log.start + j + 1) (fun j => c (v.lh.block j)) c i) v) ?_
  intro i hi
  have hfrom : install (fun j => log.start + j + 1) (fun j => c (v.lh.block j)) c i
      (v.lh.block i) = c (v.lh.block i) :=
    install_of_ne fun j hj h => (hhome i hi).ne_log (i := j + 1) (by omega) h.symm
  refine triple_bread_bind hB (hD i hi) (triple_bread_bind hB (hD i hi) ?_)
  rw [hfrom]
  exact triple_bwrite _ _ (hD i hi)

/-- The log is empty in memory and on disk, the buffers are clean and the
home blocks are those of `T`. -/
structure Settled (log : Layout) (T : Disk) (s : Machine) : Prop where
  clean : s.content = s.disk
  empty : headN (s.disk log.start) = 0
  home : ∀ b, log.IsHome b → s.disk b = T b
  lh : s.lh.n = 0
  outstanding : s.outstanding = 0
  committing : s.committing = false

include hB in
/-- Clearing an installed log leaves the machine settled. -/
theorem triple_clear (hclean : c = d) (hrep : ∀ b, log.IsHome b → d b = T b)
    (hout : v.outstanding = 0) (hD : D d v.reached) :
    Triple (At B d c v) (do clearLh; writeHead log)
      (fun _ s => Settled log T { s with committing := false } ∧ s.reached = v.reached ∧
        s.committing = v.committing) H (Lost D) := by
  refine triple_bind triple_clearLh fun _ =>
    triple_conseq (triple_writeHead hB (v := { v with lh.n := 0 }) hD)
      (fun _ h => h) fun _ s h => ?_
  have hreached : s.reached = v.reached := by
    rw [h.reached]
    rfl
  refine ⟨⟨?_, ?_, ?_, ?_, ?_, rfl⟩, hreached, h.committing⟩
  · show s.content = s.disk
    rw [h.content, h.disk, hclean]
  · show headN (s.disk log.start) = 0
    rw [h.disk, update_self]
    exact headN_putHead _ (le_refl 0) (Int.natCast_nonneg LOGSIZE)
  · intro b hb
    show s.disk b = T b
    have hne : b ≠ log.start := by
      simpa using hb.ne_log log.size_pos
    rw [h.disk, update_of_ne hne]
    exact hrep b hb
  · show s.lh.n = 0
    rw [h.lh]
  · show s.outstanding = 0
    rw [h.outstanding]
    exact hout

/-- Recovery from a disk that stands for `T` settles the machine at `T`,
and stands for `T` all the way. -/
theorem triple_recoverFromLog (hrep : Represents log d T) (hout : v.outstanding = 0)
    (hcom : v.committing = false) (hD : ∀ d', Represents log d' T → D d' v.reached) :
    Triple (At False d d v) (recoverFromLog log)
      (fun _ s => Settled log T s ∧ s.reached = v.reached) H (Lost D) := by
  have hblock : ∀ j, j < (headN (d log.start)).toNat →
      (readLh v.lh (d log.start)).block j = headBlock (d log.start) j := by
    intro j hj
    simp only [readLh]
    rw [if_pos (by omega)]
  refine triple_bind (triple_readHead False.elim (hD d hrep)) fun _ => ?_
  refine triple_bind (triple_installTrans False.elim true hrep.header.fitsLog ?_ ?_) fun _ => ?_
  · intro j hj
    rw [hblock j hj]
    exact hrep.header.home j (by simp only [readLh] at hj; omega)
  · intro i hi
    exact hD _ (hrep.installing rfl hblock (fun _ _ => rfl) (le_of_lt hi))
  · refine triple_conseq (triple_clear False.elim (T := T)
      (v := { v with lh := readLh v.lh (d log.start) }) rfl ?_ hout ?_) (fun _ h => h)
      fun _ s h => ?_
    · intro b hb
      exact hrep.installed rfl hblock (fun _ _ => rfl) hb
    · exact hD _ (hrep.installing rfl hblock (fun _ _ => rfl) (le_refl _))
    · have hcs : { s with committing := false } = s := by
        have : s.committing = false := h.2.2.trans hcom
        rw [← this]
      rw [hcs] at h
      exact ⟨h.1, h.2.1⟩

end Programs

/-! ## Transactions -/

/-- The home blocks after a transaction. -/
def applyTx (T : Disk) (us : List (Nat × Block)) : Disk :=
  us.foldl (fun T u => Function.update T u.1 u.2) T

/-- The home blocks after a sequence of transactions. -/
def applyAll (T : Disk) (txs : List (List (Nat × Block))) : Disk :=
  txs.foldl applyTx T

/-- A transaction: distinct home blocks with new contents, no more than the
log has room for. -/
structure IsTransaction (log : Layout) (us : List (Nat × Block)) : Prop where
  nodup : (us.map Prod.fst).Nodup
  home : ∀ u ∈ us, log.IsHome u.1
  fits : us.length ≤ log.size - 1

/-- Block number `j` of a transaction. -/
def blockOf (us : List (Nat × Block)) (j : Nat) : Nat := (us.map Prod.fst).getD j 0

/-- Contents number `j` of a transaction. -/
def dataOf (us : List (Nat × Block)) (j : Nat) : Block :=
  (us.map Prod.snd).getD j (fun _ => 0)

theorem blockOf_append_left {vs : List (Nat × Block)} (hj : j < us.length) :
    blockOf (us ++ vs) j = blockOf us j := by
  simp [blockOf, List.getElem?_append_left, hj]

theorem dataOf_append_left {vs : List (Nat × Block)} (hj : j < us.length) :
    dataOf (us ++ vs) j = dataOf us j := by
  simp [dataOf, List.getElem?_append_left, hj]

theorem blockOf_append_self (us : List (Nat × Block)) (u : Nat × Block) :
    blockOf (us ++ [u]) us.length = u.1 := by
  simp [blockOf]

theorem dataOf_append_self (us : List (Nat × Block)) (u : Nat × Block) :
    dataOf (us ++ [u]) us.length = u.2 := by
  simp [dataOf]

theorem exists_mem_blockOf (hj : j < us.length) : ∃ u ∈ us, u.1 = blockOf us j := by
  refine ⟨us[j], List.getElem_mem hj, ?_⟩
  simp [blockOf, hj]

theorem IsTransaction.home_blockOf {log : Layout} (h : IsTransaction log us) (hj : j < us.length) :
    log.IsHome (blockOf us j) := by
  obtain ⟨u, hu, hub⟩ := exists_mem_blockOf hj
  rw [← hub]
  exact h.home u hu

theorem blockOf_injective (hnodup : (us.map Prod.fst).Nodup)
    (hi : i < us.length) (hj : j < us.length) (h : blockOf us i = blockOf us j) : i = j := by
  have hi' : i < (us.map Prod.fst).length := by simpa using hi
  have hj' : j < (us.map Prod.fst).length := by simpa using hj
  have hget : (us.map Prod.fst)[i] = (us.map Prod.fst)[j] := by
    simpa [blockOf, hi, hj] using h
  exact (List.Nodup.getElem_inj_iff hnodup).mp hget

/-- A transaction is the home writes of its blocks in order. -/
theorem applyTx_eq_install (T : Disk) (us : List (Nat × Block)) :
    applyTx T us = install (blockOf us) (dataOf us) T us.length := by
  induction us using List.reverseRecOn with
  | nil => rfl
  | append_singleton us u ih =>
    have hlen : (us ++ [u]).length = us.length + 1 := by simp
    have hinit : install (blockOf (us ++ [u])) (dataOf (us ++ [u])) T us.length =
        install (blockOf us) (dataOf us) T us.length :=
      install_ext (fun j hj => blockOf_append_left hj) (fun j hj => dataOf_append_left hj)
    rw [hlen, install, blockOf_append_self, dataOf_append_self, hinit, ← ih]
    simp [applyTx]

theorem applyTx_blockOf (T : Disk) (hnodup : (us.map Prod.fst).Nodup) (hj : j < us.length) :
    applyTx T us (blockOf us j) = dataOf us j := by
  rw [applyTx_eq_install]
  exact install_apply hj (fun i hi h => blockOf_injective hnodup hi hj h)

section Commit

variable {log : Layout} {D : Disk → Nat → Prop} {A : Disk} {v : Rest}
  (hB : B → ∀ s, Lost D s → H s)

/-- The disk after the committing header write stands for the home blocks
after the transaction. -/
theorem represents_committed (htx : IsTransaction log us) (hlen : us.length ≤ LOGSIZE)
    {lh : LogHeader} (hn : lh.n = us.length) (hblock : ∀ j < us.length, lh.block j = blockOf us j)
    (hb : Block) (hstart : d log.start = putHead lh hb)
    (hlog : ∀ j < us.length, logBlock log d j = dataOf us j) (hA : ∀ b, log.IsHome b → d b = A b) :
    Represents log d (applyTx A us) := by
  have hheadN : headN (d log.start) = us.length := by
    rw [hstart, headN_putHead _ (by omega) (by omega), hn]
  have hheadBlock : ∀ j < us.length, headBlock (d log.start) j = blockOf us j := by
    intro j hj
    have hlt : lh.block j < 2 ^ 32 := by
      rw [hblock j hj]
      exact (htx.home_blockOf hj).1
    rw [hstart, headBlock_putHead _ (by omega) hlt, hblock j hj]
  have hfits := htx.fits
  have hpos := log.size_pos
  refine ⟨⟨by omega, by omega, fun j hj => ?_⟩, fun b hb' => ?_⟩
  · rw [hheadBlock j (by omega)]
    exact htx.home_blockOf (by omega)
  · rw [replay, hheadN, Int.toNat_natCast, applyTx_eq_install,
      install_ext hheadBlock (fun j hj => hlog j hj)]
    exact install_congr (fun _ _ => rfl) (Or.inr (hA b hb'))

include hB in
/-- `commit` from the committing header write on, when the log blocks hold
the contents of the transaction. -/
theorem triple_commitTail
    (htx : IsTransaction log us) (hlen : us.length ≤ LOGSIZE) (hpos : 0 < us.length)
    (hA : ∀ b, log.IsHome b → d b = A b) (hlog : ∀ j < us.length, logBlock log d j = dataOf us j)
    (hc : ∀ b, (∀ j < us.length, blockOf us j ≠ b) → c b = d b) (hn : v.lh.n = us.length)
    (hblock : ∀ j < us.length, v.lh.block j = blockOf us j) (hout : v.outstanding = 0)
    (hDA : D d v.reached) (hDB : ∀ d', Represents log d' (applyTx A us) → D d' v.current) :
    Triple (At B d c v) (do writeHead log; installTrans log false; clearLh; writeHead log)
      (fun _ s => Settled log (applyTx A us) { s with committing := false } ∧
        s.reached = v.current ∧ s.committing = v.committing) H (Lost D) := by
  have hfits := htx.fits
  have hsize := log.size_pos
  have hnt : v.lh.n.toNat = us.length := by omega
  have hhome : ∀ j < v.lh.n.toNat, log.IsHome (v.lh.block j) := by
    intro j hj
    rw [hblock j (by omega)]
    exact htx.home_blockOf (by omega)
  refine triple_bind (triple_writeHead hB hDA) fun _ => ?_
  set hb := putHead v.lh (c log.start) with hhb
  set d2 := update d log.start hb with hd2
  set c2 := update c log.start hb with hc2
  clear_value c2 d2 hb
  have hv2 : (if 0 < v.lh.n then v.current else v.reached) = v.current := if_pos (by omega)
  rw [hv2]
  have hrep : Represents log d2 (applyTx A us) := by
    refine represents_committed htx hlen hn hblock (c log.start) ?_ ?_ ?_
    · rw [hd2, update_self, hhb]
    · intro j hj
      rw [← hlog j hj, logBlock, logBlock, hd2, update_of_ne (by omega)]
    · intro b hb'
      have hne : b ≠ log.start := by simpa using hb'.ne_log hsize
      rw [hd2, update_of_ne hne]
      exact hA b hb'
  have hcd : ∀ b, (∀ j < us.length, blockOf us j ≠ b) → c2 b = d2 b := by
    intro b hb'
    by_cases hbs : b = log.start
    · rw [hbs, hc2, hd2, update_self, update_self]
    · rw [hc2, hd2, update_of_ne hbs, update_of_ne hbs]
      exact hc b hb'
  have hlog2 : ∀ j < us.length, logBlock log c2 j = logBlock log d2 j := by
    intro j hj
    refine hcd _ fun i hi h => ?_
    exact (htx.home_blockOf hi).ne_log (i := j + 1) (by omega) h
  have hblock2 : ∀ j < us.length, v.lh.block j = headBlock (d2 log.start) j := by
    intro j hj
    have hlt : v.lh.block j < 2 ^ 32 := (hhome j (by omega)).1
    rw [hd2, update_self, hhb, headBlock_putHead _ (by omega) hlt]
  have hinst : ∀ i, i ≤ us.length →
      Represents log (install v.lh.block (logBlock log c2) d2 i) (applyTx A us) := by
    intro i hi
    refine hrep.installing ?_ hblock2 hlog2 hi
    rw [hd2, update_self, hhb, headN_putHead _ (by omega) (by omega), hnt]
  refine triple_bind (triple_installTrans hB false (v := { v with reached := v.current })
    (by show v.lh.n ≤ _; omega) hhome fun i hi => hDB _ (hinst i ?_)) fun _ => ?_
  · exact hnt ▸ le_of_lt hi
  · refine triple_clear hB (v := { v with reached := v.current }) ?_ ?_ hout (hDB _ (hinst _ ?_))
    · funext b
      refine install_congr (fun _ _ => rfl) ?_
      by_cases hbj : ∃ j < us.length, blockOf us j = b
      · obtain ⟨j, hj, hjb⟩ := hbj
        refine Or.inl ⟨j, by show j < v.lh.n.toNat; omega, ?_⟩
        rw [← hjb]
        exact hblock j hj
      · exact Or.inr (hcd b fun j hj h => hbj ⟨j, hj, h⟩)
    · intro b hb'
      refine hrep.installed ?_ (fun j hj => hblock2 j (hnt ▸ hj)) (fun j hj => hlog2 j (hnt ▸ hj))
        hb'
      rw [hd2, update_self, hhb, headN_putHead _ (by omega) (by omega)]
    · exact le_of_eq hnt

include hB in
/-- `commit` of a staged transaction: the disk stands for the old home
blocks until the committing header write and for the new ones after it. -/
theorem triple_commitTx (htx : IsTransaction log us) (hlen : us.length ≤ LOGSIZE)
    (hempty : headN (d log.start) = 0) (hA : ∀ b, log.IsHome b → d b = A b)
    (hn : v.lh.n = us.length) (hblock : ∀ j < us.length, v.lh.block j = blockOf us j)
    (hout : v.outstanding = 0) (hreached : v.reached ≤ v.current)
    (hDA : ∀ d', Represents log d' A → D d' v.reached)
    (hDB : ∀ d', Represents log d' (applyTx A us) → D d' v.current) :
    Triple (At B d (applyTx d us) v) (commit log)
      (fun _ s => Settled log (applyTx A us) { s with committing := false } ∧
        s.reached ≤ v.current ∧ s.committing = v.committing) H (Lost D) := by
  have hfits := htx.fits
  have hsize := log.size_pos
  have hnt : v.lh.n.toNat = us.length := by omega
  refine triple_read fun s hs => ?_
  rw [hs.lh]
  by_cases hlt : 0 < v.lh.n
  · rw [if_pos hlt]
    -- nothing but log blocks changes while the transaction is copied to the log
    have hoff : ∀ (e : Disk) (i b : Nat), i ≤ us.length →
        (∀ j < us.length, b ≠ log.start + (j + 1)) →
        install (fun j => log.start + j + 1) (fun j => applyTx d us (v.lh.block j)) e i b
          = e b :=
      fun e i b hi hb => install_of_ne fun j hj h => hb j (by omega) h.symm
    have hstage : ∀ i ≤ us.length, Represents log
        (install (fun j => log.start + j + 1) (fun j => applyTx d us (v.lh.block j)) d i) A := by
      intro i hi
      refine represents_of_empty ?_ fun b hb => ?_
      · rw [hoff d i _ hi (fun j _ => by omega)]
        exact hempty
      · rw [hoff d i b hi (fun j hj => hb.ne_log (by omega))]
        exact hA b hb
    refine triple_conseq (triple_bind (triple_writeLog hB (D := D) (by omega) ?_ ?_) fun _ =>
      triple_commitTail hB (A := A) htx hlen (by omega) ?_ ?_ ?_ hn hblock hout ?_ hDB) (fun _ h => h)
      fun _ s' h => ⟨h.1, le_of_eq h.2.1, h.2.2⟩
    · intro j hj
      rw [hblock j (by omega)]
      exact htx.home_blockOf (by omega)
    · intro i hi
      exact hDA _ (hstage i (by omega))
    · intro b hb
      rw [hnt, hoff d _ b (le_refl _) (fun j hj => hb.ne_log (by omega))]
      exact hA b hb
    · intro j hj
      have hcopy : install (fun i => log.start + i + 1) (fun i => applyTx d us (v.lh.block i)) d
          us.length (log.start + j + 1) = applyTx d us (v.lh.block j) := by
        apply install_apply hj
        intro i _ h
        omega
      rw [hnt, logBlock, hcopy, hblock j hj]
      exact applyTx_blockOf d htx.nodup hj
    · intro b hb
      rw [hnt]
      refine install_congr (fun _ _ => rfl) (Or.inr ?_)
      rw [applyTx_eq_install]
      exact install_of_ne hb
    · rw [hnt]
      exact hDA _ (hstage _ (le_refl _))
  · rw [if_neg hlt]
    have hus : us = [] := List.length_eq_zero_iff.mp (by omega)
    subst hus
    refine triple_pure fun s' hs' => ⟨⟨?_, ?_, ?_, ?_, ?_, rfl⟩, ?_, hs'.committing⟩
    · show s'.content = s'.disk
      rw [hs'.content, hs'.disk]
      rfl
    · show headN (s'.disk log.start) = 0
      rw [hs'.disk]
      exact hempty
    · intro b hb
      show s'.disk b = A b
      rw [hs'.disk]
      exact hA b hb
    · show s'.lh.n = 0
      rw [hs'.lh, hn]
      rfl
    · show s'.outstanding = 0
      rw [hs'.outstanding]
      exact hout
    · rw [hs'.reached]
      exact hreached

end Commit

/-! ## Operations -/

theorem firstIndex_eq_of_forall {p : Nat → Bool} (h : ∀ i < n, p i = false) :
    firstIndex p n = n := by
  have hnone : (List.range n).find? p = none := by
    rw [List.find?_eq_none]
    intro i hi
    simp [h i (List.mem_range.mp hi)]
  rw [firstIndex, hnone]
  rfl

/-- The updates `us` of transaction `num` have been given to `log_write`
and nothing has been written yet. -/
structure Staged (d : Disk) (us : List (Nat × Block)) (num r : Nat) (s : Machine) : Prop where
  disk : s.disk = d
  content : s.content = applyTx d us
  n : s.lh.n = us.length
  block : ∀ j, j < us.length → s.lh.block j = blockOf us j
  outstanding : s.outstanding = 1
  committing : s.committing = false
  current : s.current = num
  reached : s.reached = r
  fitsHeader : us.length ≤ LOGSIZE

section Session

variable {log : Layout} {D : Disk → Nat → Prop} {A : Disk} {num r : Nat}

/-- `log_write` of a block that is not yet logged appends it to `log.lh`. -/
theorem triple_logWrite {u : Nat × Block} (hfresh : u.1 ∉ us.map Prod.fst) (hD : D d r) :
    Triple (Staged d us num r) (logWrite log u.1 u.2) (fun _ => Staged d (us ++ [u]) num r)
      (Lost D) (Lost D) := by
  refine triple_forall fun s0 hs0 => ?_
  have hpre : ∀ s, s = s0 → At True d (applyTx d us) s0.rest s := by
    intro s hs
    subst hs
    exact ⟨hs0.disk, hs0.content, rfl, .inl trivial⟩
  have hD0 : D d s0.rest.reached := (show s0.rest.reached = r from hs0.reached) ▸ hD
  refine triple_conseq (triple_bread_bind (fun _ _ h => h) hD0 ?_) hpre fun _ _ h => h
  -- the caller's change of the buffer
  refine triple_bind (Q := fun _ => At True d (applyTx d (us ++ [u])) s0.rest)
    (triple_modify fun s hs => ⟨hs.disk, ?_, hs.rest, hs.buffers⟩) fun _ => ?_
  · rw [content_update_cache, hs.content]
    simp [applyTx]
  apply triple_get
  intro s hs
  have hlost : Lost D s := hs.lost hD0
  have hlh : s.lh = s0.lh := hs.lh
  have hn : s.lh.n = us.length := by rw [hlh, hs0.n]
  split
  · refine triple_halt fun s' hs' => ?_
    subst hs'
    exact hlost
  rename_i hroom
  have hout : ¬s.outstanding < 1 := by
    have : s.outstanding = 1 := hs.outstanding.trans hs0.outstanding
    omega
  rw [if_neg hout]
  have hidx : firstIndex (fun i => s.lh.block i == u.1) s.lh.n.toNat = us.length := by
    have hnt : s.lh.n.toNat = us.length := by omega
    rw [hnt]
    refine firstIndex_eq_of_forall fun i hi => ?_
    rw [hlh, hs0.block i hi]
    obtain ⟨w, hw, hwb⟩ := exists_mem_blockOf hi
    simp only [beq_eq_false_iff_ne, ne_eq, ← hwb]
    exact fun h => hfresh (List.mem_map.mpr ⟨w, hw, h⟩)
  simp only [hidx]
  refine triple_bind (Q := fun _ s' => s' =
    { s with lh.block := update s.lh.block us.length u.1 })
    (triple_modify fun s' hs' => by rw [hs']) fun _ => ?_
  rw [if_pos hn.symm]
  refine triple_bind (Q := fun _ s' => s'.disk = s.disk ∧ s'.content = s.content ∧
      s'.rest = { s.rest with
        lh := { s.lh with block := update s.lh.block us.length u.1 } })
    (triple_modify fun s' hs' => by subst hs'; exact ⟨rfl, rfl, rfl⟩) fun _ => ?_
  refine triple_modify fun s' hs' => ?_
  obtain ⟨hdisk, hcontent, hrest⟩ := hs'
  have hlh' : s'.lh = { s.lh with block := update s.lh.block us.length u.1 } :=
    congrArg Rest.lh hrest
  refine ⟨hdisk.trans hs.disk, ?_, ?_, ?_, ?_, ?_, ?_, ?_, ?_⟩
  · rw [content_lh, hcontent, hs.content]
  · show s'.lh.n + 1 = _
    rw [hlh', hn]
    simp
  · intro j hj
    show s'.lh.block j = _
    rw [hlh']
    show update s.lh.block us.length u.1 j = _
    by_cases hj' : j = us.length
    · subst hj'
      rw [update_self, blockOf_append_self]
    · have hlt : j < us.length := by simp at hj; omega
      rw [update_of_ne hj', blockOf_append_left hlt, hlh, hs0.block j hlt]
  · exact (congrArg Rest.outstanding hrest).trans (hs.outstanding.trans hs0.outstanding)
  · exact (congrArg Rest.committing hrest).trans (hs.committing.trans hs0.committing)
  · exact (congrArg Rest.current hrest).trans (hs.current.trans hs0.current)
  · exact (congrArg Rest.reached hrest).trans (hs.reached.trans hs0.reached)
  · simp only [List.length_append, List.length_cons, List.length_nil]
    omega

/-- A whole transaction of a settled machine: it settles at the home blocks
after it, and a run that stops on the way leaves a disk that stands for the
blocks before it or after it. It stops by itself only when `log.lh` or the
buffer cache has no room for it. -/
theorem triple_transaction (htx : IsTransaction log us)
    (hDA : ∀ d' r', r' ≤ r → Represents log d' A → D d' r') (hr : r ≤ num)
    (hDB : ∀ d', Represents log d' (applyTx A us) → D d' num) :
    Triple (fun s => Settled log A s ∧ s.reached ≤ r) (transaction log num us)
      (fun _ s => Settled log (applyTx A us) s ∧ s.reached ≤ num) (Lost D) (Lost D) := by
  refine triple_forall fun s0 hs0 => ?_
  obtain ⟨hset, hreach⟩ := hs0
  have hrep : Represents log s0.disk A := represents_of_empty hset.empty hset.home
  have hD0 : D s0.disk s0.reached := hDA _ _ hreach hrep
  refine triple_bind (Q := fun _ s => s = { s0 with current := num })
    (triple_modify fun s hs => by rw [hs]) fun _ => ?_
  -- `begin_op`
  refine triple_bind (Q := fun _ => Staged s0.disk [] num s0.reached) ?_ fun _ => ?_
  · apply triple_get
    intro s hs
    subst hs
    have hroom : ¬(LOGSIZE : Int) < s0.lh.n + (s0.outstanding + 1) * MAXOPBLOCKS := by
      rw [hset.lh, hset.outstanding]
      decide
    rw [if_neg (by simp [hset.committing]), if_neg hroom]
    refine triple_modify fun s' hs' => ?_
    subst hs'
    refine ⟨rfl, hset.clean, hset.lh, fun j hj => by simp at hj, ?_, hset.committing, rfl, rfl,
      by simp⟩
    show s0.outstanding + 1 = 1
    rw [hset.outstanding]
    rfl
  -- the updates
  refine triple_bind (triple_forEach (fun done => Staged s0.disk done num s0.reached) ?_)
    fun _ => ?_
  · intro done u rest hxs
    refine triple_logWrite ?_ hD0
    have hnodup := htx.nodup
    rw [hxs, List.map_append, List.map_cons] at hnodup
    intro hmem
    exact (List.nodup_append.mp hnodup).2.2 _ hmem _ List.mem_cons_self rfl
  -- `end_op`
  refine triple_forall fun s1 hs1 => ?_
  refine triple_bind (Q := fun _ s => s = { s1 with outstanding := 0 })
    (triple_modify fun s hs => ?_) fun _ => ?_
  · rw [hs, hs1.outstanding]
    rfl
  apply triple_get
  intro s hs
  subst hs
  rw [if_neg (by simp [hs1.committing]), if_pos rfl]
  refine triple_bind (Q := fun _ => At True s0.disk (applyTx s0.disk us)
      { lh := s1.lh, outstanding := 0, committing := true, current := num, reached := s0.reached })
    (triple_modify fun s hs => ?_) fun _ => ?_
  · subst hs
    refine ⟨hs1.disk, hs1.content, ?_, .inl trivial⟩
    simp [Machine.rest, hs1.current, hs1.reached]
  refine triple_bind (triple_commitTx (fun _ _ h => h) (A := A) htx hs1.fitsHeader hset.empty hset.home hs1.n
    hs1.block rfl (by show s0.reached ≤ num; omega) (fun d' h => hDA _ _ hreach h) hDB)
    fun _ => ?_
  exact triple_modify fun s hs => ⟨hs.1, hs.2.1⟩

end Session

/-! ## Crashes -/

theorem at_reboot (s : Machine) : At False s.disk s.disk (reboot s).rest (reboot s) :=
  ⟨rfl, rfl, rfl, .inr (show ([] : List Nat).toFinset.card < NBUF by decide)⟩

theorem applyAll_append (T : Disk) (txs : List (List (Nat × Block))) (tx : List (Nat × Block)) :
    applyAll T (txs ++ [tx]) = applyTx (applyAll T txs) tx := by
  simp [applyAll]

section Crash

variable {log : Layout}

/-- The disk stands for a whole prefix of the transactions, one that holds
every transaction whose committing header was written. -/
def PrefixOf (log : Layout) (base : Disk) (txs : List (List (Nat × Block))) (d : Disk) (r : Nat) :
    Prop :=
  ∃ j, r ≤ j ∧ j ≤ txs.length ∧ Represents log d (applyAll base (txs.take j))

theorem Settled.lostPrefixOf {base : Disk} (h : Settled log (applyAll base (txs.take j)) s)
    (hr : s.reached ≤ j) (hj : j ≤ txs.length) : Lost (PrefixOf log base txs) s :=
  ⟨j, hr, hj, represents_of_empty h.empty h.home⟩

theorem zipIdx_split {done rest : List (List (Nat × Block) × Nat)} {x : List (Nat × Block) × Nat}
    (h : txs.zipIdx 1 = done ++ x :: rest) :
    done.length < txs.length ∧ x.2 = done.length + 1 ∧ x.1 ∈ txs ∧
      txs.take (done.length + 1) = txs.take done.length ++ [x.1] := by
  have hlen : done.length < txs.length := by
    have := congrArg List.length h
    simp at this
    omega
  have hget : (txs.zipIdx 1)[done.length]? = some x := by
    rw [h]
    simp
  rw [List.getElem?_zipIdx, List.getElem?_eq_getElem hlen] at hget
  simp only [Option.map_some, Option.some.injEq] at hget
  subst hget
  refine ⟨hlen, Nat.add_comm _ _, List.getElem_mem hlen, ?_⟩
  rw [List.take_succ_eq_append_getElem hlen]

/-- A session of transactions: every point of it stands for a prefix of
them. -/
theorem triple_session (hd : HeaderOk log d) (htxs : ∀ tx ∈ txs, IsTransaction log tx) :
    Triple (At False d d (boot d).rest) (session log txs)
      (fun _ s => Settled log (applyAll (replay log d) txs) s ∧ s.reached ≤ txs.length)
      (Lost (PrefixOf log (replay log d) txs)) (Lost (PrefixOf log (replay log d) txs)) := by
  have hrep : Represents log d (applyAll (replay log d) (txs.take 0)) :=
    ⟨hd, fun b _ => by rw [List.take_zero, applyAll, List.foldl_nil]⟩
  refine triple_bind (Q := fun _ s =>
    Settled log (applyAll (replay log d) (txs.take 0)) s ∧ s.reached ≤ 0) ?_ fun _ => ?_
  · refine triple_conseq (triple_recoverFromLog hrep rfl rfl fun d' h => ?_) (fun _ h => h)
      fun _ s h => ⟨h.1, le_of_eq h.2⟩
    exact ⟨0, le_refl _, Nat.zero_le _, h⟩
  refine triple_conseq (triple_forEach (fun done s =>
      Settled log (applyAll (replay log d) (txs.take done.length)) s ∧
        s.reached ≤ done.length) ?_) (fun _ h => h) fun _ s h => ?_
  · intro done x rest hxs
    obtain ⟨hlen, hnum, hmem, htake⟩ := zipIdx_split hxs
    have happ : (done ++ [x]).length = done.length + 1 := by simp
    rw [happ, hnum, htake, applyAll_append]
    refine triple_transaction (htxs _ hmem)
      (fun d' r' hr' h => ⟨_, hr', le_of_lt hlen, h⟩) (Nat.le_succ _)
      fun d' h => ⟨_, le_refl _, hlen, ?_⟩
    rw [htake, applyAll_append]
    exact h
  · simpa using h

/-- Wherever a session of transactions ends, its disk stands for a prefix of
them. -/
theorem session_prefixOf (hd : HeaderOk log d) (htxs : ∀ tx ∈ txs, IsTransaction log tx)
    (power : Option Nat) :
    Lost (PrefixOf log (replay log d) txs) (endState ((session log txs).run (boot d) power)) := by
  have hsat := triple_session hd htxs (boot d) power (at_reboot (boot d))
  revert hsat
  cases (session log txs).run (boot d) power with
  | done a s power' =>
    intro h
    refine Settled.lostPrefixOf (j := txs.length) ?_ h.2 (le_refl _)
    rw [List.take_length]
    exact h.1
  | halted e s => exact id
  | lost s => exact id

/-- A recovery, complete or not, leaves a disk that stands for the same
prefix of the transactions. -/
theorem recover_prefixOf {base : Disk} (h : Lost (PrefixOf log base txs) s) (power : Option Nat) :
    Lost (PrefixOf log base txs) (endState ((recoverFromLog log).run (reboot s) power)) := by
  obtain ⟨j, hr, hj, hrep⟩ := h
  have htriple : Triple (At False s.disk s.disk (reboot s).rest) (recoverFromLog log)
      (fun _ => Lost (PrefixOf log base txs)) (fun _ => False) (Lost (PrefixOf log base txs)) :=
    triple_conseq (triple_recoverFromLog hrep rfl rfl fun d' h' => ⟨j, hr, hj, h'⟩)
      (fun _ h => h) fun _ s' h' => Settled.lostPrefixOf h'.1 (h'.2 ▸ hr) hj
  have hsat := htriple (reboot s) power (at_reboot s)
  revert hsat
  cases (recoverFromLog log).run (reboot s) power with
  | done a s' power' => exact id
  | halted e s' => exact False.elim
  | lost s' => exact id

/-- The same after any number of interrupted recoveries. -/
theorem afterCrashes_prefixOf (hd : HeaderOk log d) (htxs : ∀ tx ∈ txs, IsTransaction log tx)
    (power : Option Nat) (crashes : List Nat) :
    Lost (PrefixOf log (replay log d) txs) (afterCrashes log d txs power crashes) := by
  have hfold : ∀ (ks : List Nat) (s : Machine), Lost (PrefixOf log (replay log d) txs) s →
      Lost (PrefixOf log (replay log d) txs)
        (ks.foldl (fun s k => endState ((recoverFromLog log).run (reboot s) (some k))) s) := by
    intro ks
    induction ks with
    | nil => exact fun s hs => hs
    | cons k ks ih => exact fun s hs => ih _ (recover_prefixOf hs (some k))
  rw [afterCrashes]
  exact hfold crashes _ (session_prefixOf hd htxs power)

/-- **Crash atomicity.**  From a disk with a well-formed log header, run any
sequence of transactions, lose power at any disk write (or not at all), lose
it again during any number of recoveries, and recover to the end: recovery
finishes, the home blocks are those after a whole prefix of the
transactions, the prefix holds every transaction whose committing header
write reached the disk, and the header on disk is empty. -/
theorem crash_atomicity (log : Layout) (d : Disk) (hd : HeaderOk log d)
    (txs : List (List (Nat × Block))) (htxs : ∀ tx ∈ txs, IsTransaction log tx)
    (power : Option Nat) (crashes : List Nat) :
    ∃ s j, (recoverFromLog log).run (reboot (afterCrashes log d txs power crashes)) none
        = .done () s none ∧
      (afterCrashes log d txs power crashes).reached ≤ j ∧ j ≤ txs.length ∧
      (∀ b, log.IsHome b → s.disk b = applyAll (replay log d) (txs.take j) b) ∧
      headN (s.disk log.start) = 0 := by
  obtain ⟨j, hr, hj, hrep⟩ := afterCrashes_prefixOf hd htxs power crashes
  generalize afterCrashes log d txs power crashes = s0 at hr hrep ⊢
  have htriple := triple_recoverFromLog (v := (reboot s0).rest) (D := fun _ _ => True)
    (H := fun _ => False) hrep rfl rfl (fun _ _ => trivial)
  have hsat := htriple (reboot s0) none (at_reboot s0)
  cases hrun : (recoverFromLog log).run (reboot s0) none with
  | done a s power' =>
    rw [hrun] at hsat
    have hpower := Prog.run_none_power _ hrun
    subst hpower
    exact ⟨s, j, rfl, hr, hj, hsat.1.home, hsat.1.empty⟩
  | halted e s =>
    rw [hrun] at hsat
    exact hsat.elim
  | lost s => exact absurd hrun (Prog.run_none_ne_lost _ _ _)

/-- A disk of zeroes, as `mkfs` leaves the log area, has an empty header. -/
theorem headerOk_zero (log : Layout) : HeaderOk log (fun _ _ => 0) := by
  have hzero : headN (fun _ => 0) = 0 := by
    unfold headN
    exact int32_of_bounds (x := 0) (by omega) (by omega)
  have hpos := log.size_pos
  exact ⟨by rw [hzero]; omega, by rw [hzero]; exact Int.natCast_nonneg _,
    fun i hi => by rw [hzero] at hi; omega⟩

/-- Two transactions on the log `mkfs` lays out, the power lost while the
first one is installed and again in the first recovery. -/
theorem crash_atomicity_installing :
    ∃ s j, (recoverFromLog ⟨2, 30, by decide⟩).run
        (reboot (afterCrashes ⟨2, 30, by decide⟩ (fun _ _ => 0)
          [[(50, fun _ => 1), (51, fun _ => 2)], [(50, fun _ => 3)]] (some 4) [0])) none
        = .done () s none ∧
      (afterCrashes ⟨2, 30, by decide⟩ (fun _ _ => 0)
          [[(50, fun _ => 1), (51, fun _ => 2)], [(50, fun _ => 3)]] (some 4) [0]).reached ≤ j ∧
      j ≤ 2 ∧
      (∀ b, Layout.IsHome ⟨2, 30, by decide⟩ b → s.disk b =
        applyAll (replay ⟨2, 30, by decide⟩ (fun _ _ => 0))
          (List.take j [[(50, fun _ => 1), (51, fun _ => 2)], [(50, fun _ => 3)]]) b) ∧
      headN (s.disk 2) = 0 :=
  crash_atomicity ⟨2, 30, by decide⟩ (fun _ _ => 0) (headerOk_zero _)
    [[(50, fun _ => 1), (51, fun _ => 2)], [(50, fun _ => 3)]]
    (by
      intro tx htx
      simp only [List.mem_cons, List.not_mem_nil, or_false] at htx
      rcases htx with rfl | rfl
      · exact ⟨by decide, by simp [Layout.IsHome], by decide⟩
      · exact ⟨by decide, by simp [Layout.IsHome], by decide⟩)
    (some 4) [0]

end Crash

end Xv6.Log
