import Xv6.File.Spec
import Xv6.Proc.Syscall

/-!
# What a step does to address spaces

The address space of a process, as far as the process table records it, is
its size, its table of mappings and the pages that `exec` and `growproc`
handed out. Most events leave all of this alone, for every process.
`SpaceStep` lists what the others do, with the conditions under which they do
it, and `step_space` says that there is nothing else: an invariant of address
spaces is proved by going through the cases of `SpaceStep`, without looking
at the system calls again.

Page tables and physical memory are not part of the picture here. A call
that stops with a panic has no state after it, so every panic is allowed.
-/

namespace Xv6.Sys

open Xv6.Lib Xv6.Lib.CInt Xv6.Vm Function
open Act

variable {α : Type} {f : Proc → Proc} {k k' : Kernel} {p np : Nat} {found : Option Nat}
  {fd addr n : UInt64} {e : Event} {pt : PageTable} {m : FilesM α} {Q : α → Kernel → Prop}

/-! ## Rules for the layers of the state -/

section layers

variable {E : Panic → Prop}

theorem wp_onFiles : wp (onFiles m) Q E k ↔ wp m (fun a s => Q a { k with files := s }) E k.files :=
  wp_within

theorem wp_onMem {m : KmemM α} :
    wp (onMem m) Q E k ↔ wp m (fun a s => Q a { k with files.kmem := s }) E k.files.kmem := by
  unfold onMem onKmem
  rw [wp_onFiles, wp_within]

theorem wp_setProc {Q : Unit → Kernel → Prop} :
    wp (setProc p f) Q E k ↔ Q () { k with proc := update k.proc p (f (k.proc p)) } :=
  wp_modify

theorem wp_onPagetable {m : PageTable → KmemM (PageTable × α)} :
    wp (onPagetable p m) Q E k ↔
      wp (m (k.proc p).pagetable) (fun r s => Q r.2 { k with
        files := { k.files with kmem := s }
        proc := update k.proc p { k.proc p with pagetable := r.1 } }) E k.files.kmem := by
  unfold onPagetable
  simp only [wp_bind, wp_get, wp_onMem, wp_setProc, wp_pure]

/-! ## Calls, whatever is claimed of them -/

/-- The descriptor is a free one, and only the table of open files changes. -/
theorem wp_fdalloc {f : Nat} {Q : Option Nat → Kernel → Prop} (hnone : Q none k)
    (hsome : ∀ fd < NOFILE, (k.proc p).ofile fd = none → Q (some fd) { k with
      proc := update k.proc p { k.proc p with
        ofile := update (k.proc p).ofile fd (some f) } }) : wp (fdalloc p f) Q E k := by
  unfold fdalloc
  rw [wp_bind, wp_get]
  split
  · exact wp_pure.mpr hnone
  · rename_i fd hfind
    have hfree := List.find?_some hfind
    rw [wp_bind, wp_setProc, wp_pure]
    exact hsome fd (List.mem_range.mp (List.mem_of_find?_eq_some hfind)) (of_decide_eq_true hfree)

/-- The status is stored if there is an address for it, and the child freed. -/
theorem ends_wait_of {addr : Nat} {I : Kernel → Prop} (hk : I k) (hstore : addr ≠ 0 → ∀ src mem ok,
      copyout (k.proc p).pagetable k.files.kmem.mem addr src 0 4 = (mem, ok) →
      I { k with files.kmem.mem := mem })
    (hreap : ∀ np < NPROC, (k.proc np).state = .zombie → ∀ mem,
      I { k with files.kmem.mem := mem } → Ends (freeproc np) I { k with files.kmem.mem := mem }) :
    Ends (wait p addr) I k := by
  unfold Ends wait
  rw [wp_bind, wp_get]
  split
  · rename_i np hfind
    have hchild := List.find?_some hfind
    rw [Bool.and_eq_true, decide_eq_true_eq, decide_eq_true_eq] at hchild
    have hfree := hreap np (List.mem_range.mp (List.mem_of_find?_eq_some hfind)) hchild.2
    refine wp_ite (fun haddr => ?_) fun _ => wp_ret (hfree k.files.kmem.mem hk)
    split
    rename_i hcopy
    have hstored := hstore haddr _ _ _ hcopy
    rw [wp_bind, wp_onMem, wp_modify]
    exact wp_ite (fun _ => wp_ret (hfree _ hstored)) fun _ => wp_pure.mpr hstored
  · exact wp_ite (fun _ => wp_pure.mpr hk) fun _ => wp_pure.mpr hk

/-- Taking back descriptors that were free leaves the process as it was. -/
theorem update_undo {pr : Proc} {fds : List Nat} {ofile : Nat → Option Nat}
    (h : ∀ fd, (if fd ∈ fds then none else ofile fd) = pr.ofile fd) :
    { pr with ofile := fun fd => if fd ∈ fds then none else ofile fd } = pr := by
  obtain ⟨state, parent, killed, xstate, pid, sz, pt, trapframe, o, cwd, vma, image⟩ := pr
  congr 1
  exact funext h

/-- What `pipealloc` did is undone as far as closing both files undoes it, or
both have got a descriptor that was free. -/
theorem ends_sysPipe_of {fdarray : UInt64} {I : Kernel → Prop}
    {J : Option (Nat × Nat) → Files → Prop} (halloc : wp pipealloc J (fun _ => True) k.files)
    (hnone : ∀ s, J none s → I { k with files := s })
    (hstore : ∀ r s src mem ok, ∀ a ∈ [argaddr fdarray, uint64 (argaddr fdarray + 4)], J r s →
      copyout (k.proc p).pagetable s.kmem.mem a src 0 4 = (mem, ok) →
      J r { s with kmem.mem := mem })
    (hundo : ∀ rf wf s, J (some (rf, wf)) s →
      Ends (onFiles (fileclose rf)) (Ends (onFiles (fileclose wf)) I) { k with files := s })
    (hdone : ∀ rf wf fd0 fd1 s, J (some (rf, wf)) s → fd0 < NOFILE → fd1 < NOFILE →
      (k.proc p).ofile fd0 = none → update (k.proc p).ofile fd0 (some rf) fd1 = none →
      I ⟨s, update k.proc p { k.proc p with
        ofile := update (update (k.proc p).ofile fd0 (some rf)) fd1 (some wf) }, k.nextpid⟩) :
    Ends (sysPipe p fdarray) I k := by
  unfold Ends sysPipe
  rw [wp_bind, wp_onFiles]
  refine wp_post halloc fun r s hs => ?_
  split
  · exact wp_pure.mpr (hnone s hs)
  rename_i rf wf
  -- with the descriptors that the call made taken back, the process is as it was
  have hback : ∀ s fds ofile, J (some (rf, wf)) s →
      (∀ fd, (if fd ∈ fds then none else ofile fd) = (k.proc p).ofile fd) →
      Ends (pipeUndo p rf wf fds) I
        ⟨s, update k.proc p { k.proc p with ofile := ofile }, k.nextpid⟩ := by
    intro s fds ofile hs hofile
    unfold Ends pipeUndo
    rw [wp_bind, wp_setProc]
    simp only [update_self, update_idem, update_undo hofile, update_eq_self]
    rw [wp_bind]
    exact wp_post (hundo rf wf s hs) fun _ _ hclose => wp_ret hclose
  rw [wp_bind]
  refine wp_fdalloc ?_ fun fd0 hlt0 hfree0 => ?_
  · have hall := hback s [] (k.proc p).ofile hs fun _ => rfl
    rwa [update_eq_self] at hall
  rw [wp_bind]
  refine wp_fdalloc ?_ fun fd1 hlt1 hfree1 => ?_
  · refine hback s [fd0] _ hs fun fd => ?_
    grind [update_apply]
  rw [wp_bind, wp_get]
  simp only [update_self, update_idem] at hfree1 ⊢
  have hboth : ∀ fd, (if fd ∈ [fd0, fd1] then none else
      update (update (k.proc p).ofile fd0 (some rf)) fd1 (some wf) fd) = (k.proc p).ofile fd := by
    grind [update_apply]
  have hfirst := fun mem ok => hstore _ s (wordBytes 4 [fd0]) mem ok _ List.mem_cons_self hs
  split
  · rw [wp_bind, wp_onMem, wp_modify]
    exact hback _ _ _ (hfirst _ _ ‹_›) hboth
  have hsecond := fun mem ok => hstore _ _ (wordBytes 4 [fd1]) mem ok _ (.tail _ (.head _))
    (hfirst _ _ ‹_›)
  split
  · rw [wp_bind, wp_onMem, wp_modify]
    exact hback _ _ _ (hsecond _ _ ‹_›) hboth
  · rw [wp_bind, wp_onMem, wp_modify]
    exact wp_pure.mpr (hdone rf wf fd0 fd1 _ (hsecond _ _ ‹_›) hlt0 hlt1 hfree0 hfree1)

end layers

/-! ## Address spaces -/

/-- The address space of a process. -/
structure Space where
  state : ProcState
  sz : Nat
  vma : Nat → Vma
  image : Nat → Bool

def Proc.space (pr : Proc) : Space := ⟨pr.state, pr.sz, pr.vma, pr.image⟩

/-- The address spaces of all processes. -/
def Kernel.space (k : Kernel) (p : Nat) : Space := (k.proc p).space

/-- The slot of the process table is in use. -/
def Space.Live (s : Space) : Prop := s.state ≠ .unused

theorem space_update (k : Kernel) (files : Files) (n p : Nat) (pr : Proc) :
    Kernel.space ⟨files, update k.proc p pr, n⟩ = update k.space p pr.space := by
  funext q
  unfold Kernel.space
  by_cases hq : q = p
  · subst hq
    simp only [update_self]
  · simp only [update_of_ne hq]

theorem space_update_same {files : Files} {n : Nat} {pr : Proc} (h : pr.space = k.space p) :
    Kernel.space ⟨files, update k.proc p pr, n⟩ = k.space := by
  rw [space_update, h, update_eq_self]

section quiet

theorem keeps_onFiles : Keeps Kernel.space (onFiles m) :=
  .within fun _ _ => rfl

theorem keeps_onMem {m : KmemM α} : Keeps Kernel.space (onMem m) := keeps_onFiles

theorem keeps_setProc (h : ∀ pr, (f pr).space = pr.space) : Keeps Kernel.space (setProc p f) :=
  .modify fun k => space_update_same (h (k.proc p))

theorem keeps_onPagetable {m : PageTable → KmemM (PageTable × α)} :
    Keeps Kernel.space (onPagetable p m) :=
  .bind .get fun _ => .bind keeps_onMem fun _ =>
    .bind (keeps_setProc fun _ => rfl) fun _ => .pure

/-! ## Events that change no address space -/

theorem keeps_fdalloc {f : Nat} : Keeps Kernel.space (fdalloc p f) := by
  refine .bind .get fun k => ?_
  split
  · exact .pure
  · exact .bind (keeps_setProc fun _ => rfl) fun _ => .pure

theorem keeps_sysOpen {mode : UInt64} : Keeps Kernel.space (sysOpen p found mode) := by
  unfold sysOpen
  split
  · exact .pure
  · refine .bind keeps_onFiles fun _ => .bind keeps_onFiles fun i =>
      .bind keeps_onFiles fun _ => .bind .get fun k => .ite
        (.bind keeps_onFiles fun _ => .pure) (.bind keeps_onFiles fun f => ?_)
    split
    · exact .bind keeps_onFiles fun _ => .pure
    · refine .bind keeps_fdalloc fun fd => ?_
      split
      · exact .bind keeps_onFiles fun _ => .bind keeps_onFiles fun _ => .pure
      · exact .bind .get fun _ => .bind keeps_onFiles fun _ =>
          .bind (.when keeps_onFiles) fun _ => .pure

theorem keeps_sysPipe {fdarray : UInt64} : Keeps Kernel.space (sysPipe p fdarray) := by
  refine ⟨fun v => ⟨fun k hk => ends_sysPipe_of (J := fun _ _ => True)
    (wp_any (fun _ _ => trivial) fun _ => trivial) (fun _ _ => hk) ?_ ?_ ?_⟩⟩
  · intros
    trivial
  · exact fun _ _ _ _ => (keeps_onFiles.stable v).wp hk fun _ => (keeps_onFiles.stable v).stays
  · intros
    exact Eq.trans (space_update_same (by rfl)) hk

theorem keeps_sysDup : Keeps Kernel.space (sysDup p fd) := by
  refine .bind .get fun k => ?_
  split
  · exact .pure
  · refine .bind keeps_fdalloc fun fd' => ?_
    split
    · exact .pure
    · exact .bind keeps_onFiles fun _ => .pure

theorem keeps_sysClose : Keeps Kernel.space (sysClose p fd) := by
  refine .bind .get fun k => ?_
  split
  · exact .pure
  · exact .bind (keeps_setProc fun _ => rfl) fun _ => .bind keeps_onFiles fun _ =>
      .pure

theorem keeps_sysChdir : Keeps Kernel.space (sysChdir p found) := by
  unfold sysChdir
  split
  · exact .pure
  refine .bind keeps_onFiles fun _ => .bind keeps_onFiles fun _ => ?_
  refine .bind .get fun _ => .ite ?_ ?_
  · exact .bind keeps_onFiles fun _ => .pure
  · exact .bind (.when keeps_onFiles) fun _ =>
      .bind (keeps_setProc fun _ => rfl) fun _ => .pure

theorem keeps_sysRead {input : List UInt8} : Keeps Kernel.space (sysRead p fd addr n input) := by
  refine .bind .get fun k => ?_
  split
  · exact .pure
  · exact keeps_onFiles

theorem keeps_sysWrite : Keeps Kernel.space (sysWrite p fd addr n) := by
  refine .bind .get fun k => ?_
  split
  · exact .pure
  · exact keeps_onFiles

theorem keeps_mapFilePage {v : Vma} {va : Int} {pa : Nat} :
    Keeps Kernel.space (mapFilePage p v va pa) := by
  refine .bind keeps_onMem fun _ => .bind .get fun k =>
    .bind keeps_onFiles fun _ => .bind .get fun k' => ?_
  split
  refine .bind keeps_onMem fun _ => .ite ?_ ?_
  · exact .bind keeps_onMem fun _ => .pure
  · refine .bind keeps_onPagetable fun _ => .ite ?_ .pure
    exact .bind keeps_onMem fun _ => .pure

theorem keeps_pageFault {sp va cause : Nat} : Keeps Kernel.space (pageFault p sp va cause) := by
  refine .bind .get fun k => .ite ?_ (keeps_setProc fun _ => rfl)
  refine .bind (.bind .get fun k => ?_) fun r =>
    .when (keeps_setProc fun _ => rfl)
  split
  · exact .pure
  · refine .ite .pure (.ite .pure (.bind keeps_onMem fun pa => ?_))
    split
    · exact .pure
    · exact keeps_mapFilePage

theorem keeps_load {sp va : UInt64} : Keeps Kernel.space (load p sp va) := by
  refine .bind .get fun k => ?_
  split
  · exact .pure
  · exact keeps_pageFault

theorem keeps_store {sp va : UInt64} {b : UInt8} : Keeps Kernel.space (store p sp va b) := by
  refine .bind .get fun k => ?_
  split
  · exact keeps_onMem
  · exact keeps_pageFault

end quiet

/-! ## What the other events do -/

/-- Every process of `k'` was there in `k`, with the same address space. -/
def Kept (k k' : Kernel) : Prop := ∀ q, (k'.space q).Live → k'.space q = k.space q

/-- So was every process but `p`, which has the address space `s`. -/
def Changed (k : Kernel) (p : Nat) (s : Space) (k' : Kernel) : Prop :=
  ∀ q, (k'.space q).Live → k'.space q = Function.update k.space p s q

/-- Fill in a slot of the mappings. -/
def Space.putVma (s : Space) (i : Nat) (v : Vma) : Space :=
  { s with vma := Function.update s.vma i v }

/-- A process that exits is done with slot `i` of its mappings. -/
def Space.closeVma (s : Space) (i : Nat) : Space :=
  { s with
    state := .exiting (i + 1)
    vma := Function.update s.vma i { s.vma i with used := false } }

/-- What an event of process `p` does to the address spaces. -/
inductive SpaceStep (k : Kernel) (p : Nat) (k' : Kernel) : Event → Prop where
  | kept {e : Event} (h : Kept k k') : SpaceStep k p k' e
  | state {e : Event} (state : ProcState)
      (h : Changed k p { k.space p with state := state } k') : SpaceStep k p k' e
  | mmap {addr length prot flags fd offset : UInt64} {i : Nat} {v : Vma}
      (free : freeSlot (k.space p).vma = some i) (nonneg : 0 ≤ argint length)
      (addr_eq : v.addr = (k.space p).sz) (length_eq : v.length = argint length)
      (base_eq : v.base = (k.space p).sz)
      (h : Changed k p { k.space p with
        sz := uint64 ((k.space p).sz + argint length)
        vma := Function.update (k.space p).vma i v } k') :
      SpaceStep k p k' (.mmap addr length prot flags fd offset)
  | munmap {addr length : UInt64} {i : Nat} {v : Vma}
      (slot : munmapSlot (k.space p).vma (argaddr addr) (argint length) = some i)
      (hit : ((k.space p).vma i).munmapHit (argaddr addr) (argint length) = some v)
      (h : Changed k p { k.space p with
        vma := Function.update (k.space p).vma i { v with used := v.length ≠ 0 } } k') :
      SpaceStep k p k' (.munmap addr length)
  | grow {n : UInt64} (old new : Nat) (old_eq : old = uint32 (k.space p).sz)
      (new_eq : new = uint32 (old + argint n)) (pos : 0 < argint n)
      (h : Changed k p { k.space p with
        sz := max old new
        image := fun v => (k.space p).image v ||
          (pgRoundUp old ≤ v * PGSIZE && v * PGSIZE < new) } k') :
      SpaceStep k p k' (.sbrk n)
  | shrink {n : UInt64} (old new : Nat) (old_eq : old = uint32 (k.space p).sz)
      (new_eq : new = uint32 (old + argint n)) (nonpos : argint n ≤ 0)
      (h : Changed k p { k.space p with
        sz := min old new
        image := fun v => (k.space p).image v &&
          (old ≤ new || v * PGSIZE < pgRoundUp new) } k') :
      SpaceStep k p k' (.sbrk n)
  | fork {np : Nat} {vma : Nat → Vma} (dead : ¬(k.space np).Live)
      (copy : ∀ i, vma i = (k.space p).vma i ∨ (vma i).used = false)
      (h : Changed k np ⟨.runnable, (k.space p).sz, vma, (k.space p).image⟩ k') :
      SpaceStep k p k' .fork
  | exec {found : Option Nat} {argv : List (List UInt8)} (sz : Nat)
      (h : Changed k p { k.space p with
        sz := sz, image := fun v => v * PGSIZE < sz } k') :
      SpaceStep k p k' (.exec found argv)
  | exitVma {i : Nat} (state : (k.space p).state = .exiting i)
      (h : Changed k p ((k.space p).closeVma i) k') : SpaceStep k p k' .exitVma

theorem Kept.of_eq (h : k'.space = k.space) : Kept k k' := fun q _ => by rw [h]

theorem Changed.of_eq {s : Space} (h : k'.space = update k.space p s) :
    Changed k p s k' := fun q _ => by rw [h]

theorem spaceStep_of_keeps {m : KernelM Int} (h : Keeps Kernel.space m) :
    Ends m (SpaceStep k p · e) k :=
  h.wp (fun _ _ hk' => .kept (.of_eq hk'))

theorem wp_setProc_space {Q : Unit → Kernel → Prop} {E : Panic → Prop}
    (h : ∀ k' : Kernel, k'.space = update k.space p (f (k.proc p)).space → Q () k') :
    wp (setProc p f) Q E k :=
  wp_setProc.mpr (h _ (space_update _ _ _ _ _))

theorem wp_setProc_same {Q : Unit → Kernel → Prop} {E : Panic → Prop}
    (hf : (f (k.proc p)).space = k.space p) (h : ∀ k' : Kernel, k'.space = k.space → Q () k') :
    wp (setProc p f) Q E k :=
  wp_setProc.mpr (h _ (space_update_same hf))

/-- A second change of process `p` works on the outcome of the first. -/
theorem space_update_again {k1 : Kernel} {s : Space} {files : Files} {n : Nat} {pr : Proc}
    (f : Space → Space) (h : k1.space = update k.space p s) (hpr : pr.space = f (k1.space p)) :
    Kernel.space ⟨files, update k1.proc p pr, n⟩ = update k.space p (f s) := by
  rw [space_update, hpr, h, update_self, update_idem]

theorem wp_sysMmap_space {length prot flags offset : UInt64} :
    Ends (sysMmap p addr length prot flags fd offset)
      (SpaceStep k p · (.mmap addr length prot flags fd offset)) k := by
  have kept : SpaceStep k p k (.mmap addr length prot flags fd offset) := .kept (.of_eq rfl)
  unfold Ends sysMmap
  rw [wp_bind, wp_get]
  extract_lets pr
  split
  · exact wp_pure.mpr kept
  · refine wp_ite (fun _ => wp_pure.mpr kept) fun hargs =>
      wp_ite (fun _ => wp_pure.mpr kept) fun _ => ?_
    split
    · exact wp_panic.mpr trivial
    · rename_i i hfree
      rw [not_or, not_or, not_lt] at hargs
      extract_lets v
      rw [wp_bind, wp_setProc, wp_bind]
      refine keeps_onFiles.wp fun _ k1 hk1 => ?_
      rw [wp_bind, wp_setProc, wp_pure]
      rw [space_update] at hk1
      refine .mmap (v := v) hfree hargs.2.2 rfl rfl rfl (.of_eq ?_)
      exact space_update_again (fun s => { s with sz := uint64 (s.sz + argint length) }) hk1 rfl

/-- The mapping that a call of `sys_munmap` hits. -/
theorem munmapSlot_some {vma : Nat → Vma} {addr : Nat} {length : Int} {i : Nat}
    (h : munmapSlot vma addr length = some i) :
    i < MAXMMAPITEM ∧ ∃ v, (vma i).munmapHit addr length = some v ∧ v.used = true := by
  have hmem := List.mem_of_find?_eq_some h
  have hsome := List.find?_some h
  obtain ⟨v, hv⟩ := Option.isSome_iff_exists.mp hsome
  refine ⟨List.mem_range.mp hmem, v, hv, ?_⟩
  unfold Vma.munmapHit at hv
  split at hv
  · rename_i hused
    split at hv
    · cases hv
      exact hused.1
    · split at hv
      · cases hv
        exact hused.1
      · exact absurd hv (by simp)
  · exact absurd hv (by simp)

theorem keeps_writeBack {v : Vma} {addr : Nat} {length : Int} :
    Keeps Kernel.space (writeBack pt v addr length) :=
  .when (.bind keeps_onFiles fun _ => .pure)

theorem wp_sysMunmap_space {length : UInt64} :
    Ends (sysMunmap p addr length) (SpaceStep k p · (.munmap addr length)) k := by
  unfold Ends sysMunmap
  rw [wp_bind, wp_get]
  extract_lets pr
  split
  · exact wp_pure.mpr (.kept (.of_eq rfl))
  · rename_i i hslot
    obtain ⟨_, v, hv, hused⟩ := munmapSlot_some hslot
    rw [hv, Option.getD_some]
    extract_lets v'
    rw [wp_bind, wp_setProc, wp_bind]
    refine keeps_writeBack.wp fun _ k1 hk1 => ?_
    rw [wp_bind]
    refine keeps_onPagetable.wp fun _ k2 hk2 => ?_
    rw [hk1, space_update] at hk2
    rw [wp_bind]
    refine wp_when (fun hzero => ?_) (fun hne => ?_)
    · rw [wp_bind]
      refine keeps_onFiles.wp fun _ k3 hk3 => ?_
      rw [hk2] at hk3
      rw [wp_setProc, wp_pure]
      have hv' : { v with used := decide (v.length ≠ 0) } = { v with used := false } := by
        simp only [show v.length = 0 from hzero, ne_eq, not_true_eq_false, decide_false]
      refine .munmap hslot hv (.of_eq ?_)
      rw [hv']
      refine (space_update_again (fun s => { s with
        vma := update s.vma i { v with used := false } }) hk3 rfl).trans ?_
      simp only [Proc.space, update_idem]
      rfl
    · rw [wp_pure]
      have hv' : { v with used := decide (v.length ≠ 0) } = v := by
        have hne' : v.length ≠ 0 := hne
        rw [decide_eq_true hne', ← hused]
      refine .munmap hslot hv (.of_eq ?_)
      rw [hv', hk2]
      rfl

/-! ## `sbrk` -/

theorem wp_uvmalloc_size {oldsz newsz : Nat} {k : Kmem} :
    wp (uvmalloc pt oldsz newsz) (fun r _ => r.2 = 0 ∨ r.2 = max oldsz newsz)
      (fun _ => True) k := by
  unfold uvmalloc
  refine wp_ite (fun h => wp_pure.mpr (.inr ?_)) fun h => ?_
  · exact (Nat.max_eq_left (Nat.le_of_lt h)).symm
  rw [wp_bind]
  refine wp_any (fun r s => ?_) fun _ => trivial
  cases r with
  | inl pt => exact wp_pure.mpr (.inr (Nat.max_eq_right (Nat.le_of_not_lt h)).symm)
  | inr pt => exact wp_pure.mpr (.inl rfl)

theorem wp_uvmdealloc_size {oldsz newsz : Nat} {k : Kmem} :
    wp (uvmdealloc pt oldsz newsz) (fun r _ => r.2 = min oldsz newsz) (fun _ => True) k := by
  unfold uvmdealloc
  refine wp_ite (fun h => wp_pure.mpr (Nat.min_eq_left h).symm) fun h => ?_
  have hmin : newsz = min oldsz newsz := (Nat.min_eq_right (by omega)).symm
  refine wp_ite (fun _ => ?_) fun _ => wp_pure.mpr hmin
  rw [wp_bind]
  exact wp_any (fun _ _ => wp_pure.mpr hmin) fun _ => trivial

theorem wp_onPagetable_space {m : PageTable → KmemM (PageTable × α)} {P : α → Prop}
    (h : ∀ pt s, wp (m pt) (fun r _ => P r.2) (fun _ => True) s)
    (hQ : ∀ r k1, P r → k1.space = k.space → Q r k1) :
    wp (onPagetable p m) Q (fun _ => True) k := by
  rw [wp_onPagetable]
  refine wp_mono (h _ _) (fun r s hr => ?_) (fun _ _ => trivial)
  exact hQ _ _ hr (space_update_same rfl)

theorem wp_growproc_space : Ends (growproc p (argint n)) (SpaceStep k p · (.sbrk n)) k := by
  unfold Ends growproc
  rw [wp_bind, wp_get]
  extract_lets old new
  have hold : old < 2 ^ 32 := uint32_lt _
  have hnew : new < 2 ^ 32 := uint32_lt _
  refine wp_ite (fun hpos => ?_) fun hnonpos => wp_ite (fun hneg => ?_) fun hzero => ?_
  · rw [wp_bind]
    refine wp_onPagetable_space (P := fun sz => sz = 0 ∨ sz = max old new)
      (fun _ _ => wp_uvmalloc_size) fun sz k1 hsz hk1 => ?_
    refine wp_ite (fun _ => wp_pure.mpr (.kept (.of_eq hk1))) fun hne => ?_
    have hsz' : uint32 sz = max old new := by
      rcases hsz with rfl | rfl
      · exact absurd (uint32_of_lt (by decide)) hne
      · exact uint32_of_lt (by omega)
    rw [wp_bind, wp_setProc, wp_pure]
    refine .grow old new rfl rfl hpos (.of_eq ?_)
    rw [hsz', space_update, hk1, ← congrFun hk1 p]
    rfl
  · rw [wp_bind]
    refine wp_onPagetable_space (P := fun sz => sz = min old new)
      (fun _ _ => wp_uvmdealloc_size) fun sz k1 hsz hk1 => ?_
    have hsz' : uint32 sz = min old new := by
      rw [hsz]
      exact uint32_of_lt (by omega)
    rw [wp_bind, wp_setProc, wp_pure]
    refine .shrink old new rfl rfl (by omega) (.of_eq ?_)
    rw [hsz', space_update, hk1, ← congrFun hk1 p]
    rfl
  · have hn : argint n = 0 := by omega
    have heq : new = old := by
      unfold new
      rw [hn, Int.add_zero, uint32_of_lt hold]
    rw [wp_bind, wp_setProc, wp_pure]
    refine .shrink old new rfl rfl (by omega) (.of_eq ?_)
    rw [heq, Nat.min_self, space_update]
    simp only [Nat.le_refl, decide_true, Bool.true_or, Bool.and_true]
    rfl

theorem wp_sysSbrk_space : Ends (sysSbrk p n) (SpaceStep k p · (.sbrk n)) k := by
  unfold Ends sysSbrk
  rw [wp_bind, wp_get, wp_bind]
  refine wp_post wp_growproc_space fun r k' h => ?_
  exact wp_ite (fun _ => wp_pure.mpr h) fun _ => wp_pure.mpr h

/-! ## The ends of processes -/

theorem Kept.of_dead {s : Space} (hs : ¬s.Live) (h : k'.space = update k.space p s) :
    Kept k k' := by
  intro q hq
  rw [h] at hq ⊢
  by_cases hqp : q = p
  · subst hqp
    rw [update_self] at hq
    exact absurd hq hs
  · rw [update_of_ne hqp]

/-- The address space of a slot that `freeproc` has cleared. -/
def Space.freed (s : Space) : Space := { s with state := .unused, sz := 0 }

theorem Space.freed_dead (s : Space) : ¬s.freed.Live := fun h => h rfl

theorem wp_freeproc_space :
    wp (freeproc p) (fun _ k' => k'.space = update k.space p (k.space p).freed)
      (fun _ => True) k := by
  unfold freeproc
  rw [wp_bind, wp_get]
  extract_lets pr
  rw [wp_bind]
  refine (Keeps.when keeps_onMem).wp fun _ k1 hk1 => ?_
  rw [wp_bind]
  refine (Keeps.when keeps_onMem).wp fun _ k2 hk2 => ?_
  rw [wp_setProc, space_update, hk2, hk1, ← congrFun hk1 p, ← congrFun hk2 p]
  rfl

theorem wp_wait_space {addr : Nat} : Ends (wait p addr) (Kept k) k := by
  refine ends_wait_of (.of_eq rfl) (fun _ _ _ _ _ => .of_eq rfl) fun np _ _ mem _ => ?_
  exact wp_post wp_freeproc_space fun _ k1 hk1 => .of_dead (Space.freed_dead _) hk1

theorem wp_exit_space {status : Int} :
    Ends (exit p status) (Changed k p { k.space p with state := .exiting 0 }) k := by
  unfold Ends exit
  refine wp_ite (fun _ => wp_panic.mpr trivial) fun _ => ?_
  rw [wp_bind]
  -- closing the files does not touch the space
  refine Keeps.wp (?_ : Keeps Kernel.space _) fun _ k1 hk1 => ?_
  · refine .iter (fun fd _ => .bind .get fun k => ?_) _ _ _
    split
    · exact .pure
    · exact .bind keeps_onFiles fun _ => keeps_setProc fun _ => rfl
  · rw [wp_setProc]
    refine .of_eq ?_
    rw [space_update, hk1, ← congrFun hk1 p]
    rfl

theorem wp_exitVma_space {i : Nat} :
    Ends (exitVma p i) (Changed k p ((k.space p).closeVma i)) k := by
  unfold Ends exitVma
  rw [wp_bind, wp_get]
  extract_lets v
  rw [wp_bind]
  refine wp_when (fun hused => ?_) (fun hunused => ?_)
  · rw [wp_bind]
    refine keeps_writeBack.wp fun _ k1 hk1 => ?_
    rw [wp_bind]
    refine keeps_onFiles.wp fun _ k2 hk2 => ?_
    rw [wp_bind]
    refine keeps_onPagetable.wp fun _ k3 hk3 => ?_
    rw [hk2, hk1] at hk3
    refine wp_setProc_space fun k4 hk4 => ?_
    rw [wp_setProc]
    refine .of_eq ?_
    rw [space_update_again (fun s => { s with state := .exiting (i + 1) }) hk4 rfl, hk3,
      ← congrFun hk3 p]
    rfl
  · rw [wp_setProc]
    refine .of_eq ?_
    have hsame : { (k.space p).vma i with used := false } = (k.space p).vma i := by
      have hv : v.used = false := by simpa using hunused
      rw [← hv]
      rfl
    rw [space_update, Space.closeVma, hsame, update_eq_self]
    rfl

theorem keeps_reparent : Keeps Kernel.space (reparent p) := by
  refine .modify fun k => funext fun q => ?_
  unfold Kernel.space
  dsimp only
  split
  · rfl
  · rfl

theorem wp_exitEnd_space :
    Ends (exitEnd p) (Changed k p { k.space p with state := .zombie }) k := by
  unfold Ends exitEnd
  rw [wp_bind, wp_get, wp_bind]
  refine (Keeps.when keeps_onFiles).wp fun _ k1 hk1 => ?_
  rw [wp_bind]
  refine wp_setProc_same rfl fun k2 hk2 => ?_
  rw [wp_bind]
  refine keeps_reparent.wp fun _ k3 hk3 => ?_
  rw [hk2, hk1] at hk3
  rw [wp_setProc]
  refine .of_eq ?_
  rw [space_update, hk3, ← congrFun hk3 p]
  rfl

/-! ## `fork` and `exec` -/

/-- The address space that `allocproc` leaves in the slot it takes. -/
def Space.cleared (s : Space) : Space := { s with vma := fun _ => {} }

theorem wp_allocproc_space {Q : Option Nat → Kernel → Prop} (hnone : ∀ k', Kept k k' → Q none k')
    (hsome : ∀ np k', (k.space np).state = .unused →
      k'.space = update k.space np (k.space np).cleared → Q (some np) k') :
    wp allocproc Q (fun _ => True) k := by
  unfold allocproc
  rw [wp_bind, wp_get]
  split
  · exact wp_pure.mpr (hnone k (.of_eq rfl))
  · rename_i np hfind
    have hdead : (k.proc np).state = .unused := by simpa using List.find?_some hfind
    rw [wp_bind, wp_modify, wp_bind]
    refine wp_setProc_same rfl fun k1 hk1 => ?_
    replace hk1 : k1.space = k.space := hk1
    rw [wp_bind]
    refine keeps_onMem.wp fun r k2 hk2 => ?_
    rw [hk1] at hk2
    split
    · rw [wp_bind]
      refine wp_setProc_same rfl fun k3 hk3 => ?_
      rw [hk2] at hk3
      exact wp_pure.mpr (hnone k3 (.of_eq hk3))
    · rw [wp_bind]
      refine wp_setProc_same rfl fun k3 hk3 => ?_
      rw [wp_bind]
      refine keeps_onMem.wp fun r k4 hk4 => ?_
      rw [hk3, hk2] at hk4
      split
      · rw [wp_bind]
        refine wp_setProc_same rfl fun k5 hk5 => ?_
        rw [hk4] at hk5
        rw [wp_bind]
        refine wp_post wp_freeproc_space fun _ k6 hk6 => ?_
        rw [hk5] at hk6
        exact wp_pure.mpr (hnone k6 (.of_dead (Space.freed_dead _) hk6))
      · rw [wp_bind]
        refine wp_setProc_space fun k5 hk5 => ?_
        refine wp_pure.mpr (hsome np k5 hdead ?_)
        rw [hk5, hk4, ← congrFun hk4 np]
        rfl

theorem keeps_forkFiles : Keeps Kernel.space (forkFiles p np) := by
  refine .iter (fun fd _ => .bind .get fun k => ?_) _ _ _
  split
  · exact .pure
  · exact .bind keeps_onFiles fun _ => keeps_setProc fun _ => rfl

theorem keeps_forkCwd : Keeps Kernel.space (forkCwd p np) := by
  refine .bind .get fun k => ?_
  split
  · exact .pure
  · exact .bind keeps_onFiles fun _ => keeps_setProc fun _ => rfl

/-- The loop of `fork` over the mappings copies the used ones. -/
theorem wp_forkVmas_space {s : Space} {Q : Unit → Kernel → Prop} (hne : p ≠ np)
    (hs : ∀ i, (s.vma i).used = false)
    (hQ : ∀ vma k', (∀ i, vma i = (k.space p).vma i ∨ (vma i).used = false) →
      k'.space = update k.space np { s with vma := vma } → Q () k')
    (hnp : k.space np = s) : wp (forkVmas p np) Q (fun _ => True) k := by
  unfold forkVmas
  refine wp_post (wp_iter (fun _ _ k' => ∃ vma : Nat → Vma,
    (∀ i, vma i = (k.space p).vma i ∨ (vma i).used = false) ∧
      k'.space = update k.space np { s with vma := vma }) ?_ ?_) ?_
  · refine ⟨s.vma, fun i => .inr (hs i), ?_⟩
    rw [← hnp]
    exact (update_eq_self np k.space).symm
  · rintro j _ k1 _ _ ⟨vma, hvma, hk1⟩
    have hp : k1.space p = k.space p := by rw [hk1, update_of_ne hne]
    rw [wp_bind, wp_get]
    extract_lets v
    have hv : v = (k.space p).vma j := by
      rw [← hp]
      rfl
    refine wp_ite (fun hused => ?_) (fun _ => wp_pure.mpr ⟨vma, hvma, hk1⟩)
    rw [wp_bind]
    refine wp_setProc_space fun k2 hk2 => ?_
    refine keeps_onFiles.wp fun _ k3 hk3 => ?_
    refine ⟨update vma j v, fun i => ?_, ?_⟩
    · by_cases hij : i = j
      · subst hij
        rw [update_self]
        exact .inl hv
      · rw [update_of_ne hij]
        exact hvma i
    · replace hk2 : k2.space = update k1.space np ((k1.space np).putVma j v) := hk2
      rw [hk3, hk2, hk1, update_idem, update_self]
      rfl
  · rintro _ k' ⟨vma, hvma, hk'⟩
    exact hQ vma k' hvma hk'

theorem wp_fork_space (hlive : (k.proc p).state ≠ .unused) :
    Ends (fork p) (SpaceStep k p · .fork) k := by
  unfold Ends fork
  rw [wp_bind]
  refine wp_allocproc_space (fun k' h => wp_pure.mpr (.kept h)) fun np k1 hdead hk1 => ?_
  have hne : p ≠ np := by
    rintro rfl
    exact hlive hdead
  have hp : k1.space p = k.space p := by rw [hk1, update_of_ne hne]
  rw [wp_bind, wp_get, wp_bind]
  refine keeps_onPagetable.wp fun r k2 hk2 => ?_
  rw [hk1] at hk2
  refine wp_ite (fun _ => ?_) fun _ => ?_
  · rw [wp_bind]
    refine wp_post wp_freeproc_space fun _ k3 hk3 => ?_
    rw [hk2, update_idem] at hk3
    exact wp_pure.mpr (.kept (.of_dead (Space.freed_dead _) hk3))
  · rw [wp_bind]
    refine wp_setProc_space fun k3 hk3 => ?_
    replace hk3 : k3.space = update k2.space np { k2.space np with
      sz := (k1.space p).sz, image := (k1.space p).image } := hk3
    rw [hp, hk2, update_idem, update_self] at hk3
    rw [wp_bind]
    refine keeps_forkFiles.wp fun _ k4 hk4 => ?_
    rw [wp_bind]
    refine keeps_forkCwd.wp fun _ k5 hk5 => ?_
    rw [hk4, hk3] at hk5
    have hp5 : k5.space p = k.space p := by rw [hk5, update_of_ne hne]
    rw [wp_bind]
    refine wp_forkVmas_space (s := k5.space np) hne ?_ (fun vma k6 hvma hk6 => ?_) rfl
    · intro i
      rw [hk5, update_self]
      rfl
    · rw [hp5] at hvma
      rw [wp_bind]
      refine wp_setProc_space fun k7 hk7 => ?_
      rw [wp_bind, wp_get, wp_pure]
      refine .fork (fun h => h hdead) hvma (.of_eq ?_)
      replace hk7 : k7.space = update k6.space np { k6.space np with
        state := .runnable } := hk7
      rw [hk7, hk6, update_idem, update_self, hk5, update_idem,
        update_self]

/-- The processes, the open files and the inodes of the disk. -/
def Kernel.tables (k : Kernel) : (Nat → Proc) × (Nat → File) × (Nat → DInode) :=
  (k.proc, k.files.file, k.files.dinode)

theorem keeps_onFiles_tables (h : Keeps Files.uncached m) : Keeps Kernel.tables (onFiles m) := by
  refine .within_of h fun k s hs => ?_
  obtain ⟨_, hfile, _, hdinode⟩ := Files.eq_of_uncached hs
  simp only [Kernel.tables, hfile, hdinode]

theorem keeps_onMem_tables {m : KmemM α} : Keeps Kernel.tables (onMem m) := by
  have hfiles : Keeps (fun s : Files => (s.file, s.dinode)) (onKmem m) := .within fun _ _ => rfl
  exact .within_of hfiles fun k _ hs => congrArg (Prod.mk k.proc) hs

/-- The new image is made on the side. -/
theorem keeps_execLoad : Keeps Kernel.tables (execLoad p found) := by
  unfold execLoad
  split
  · exact .pure
  refine .bind (keeps_onFiles_tables keeps_iget) fun i => ?_
  have hiput : Keeps Kernel.tables (onFiles (iput i)) := keeps_onFiles_tables keeps_iput
  have hput : Keeps Kernel.tables
      (onFiles (iput i) >>= fun _ => pure (none : Option (Nat × PageTable × Nat))) :=
    .bind hiput fun _ => .pure
  refine .bind (keeps_onFiles_tables keeps_ilock) fun _ => .bind .get fun k => ?_
  extract_lets ip
  split
  refine .ite hput (.bind keeps_onMem_tables fun r => ?_)
  split
  · exact hput
  refine .bind (.bind keeps_onMem_tables fun r => ?_) fun _ => .pure
  split
  · exact .bind keeps_onMem_tables fun _ => .bind hiput fun _ => .pure
  · refine .bind hiput fun _ => .bind keeps_onMem_tables fun r => ?_
    exact .ite .pure (.bind keeps_onMem_tables fun _ => .pure)

theorem wp_exec_space {argv : List (List UInt8)} :
    Ends (exec p found argv) (SpaceStep k p · (.exec found argv)) k := by
  unfold Ends exec
  rw [wp_bind]
  refine keeps_execLoad.wp fun r k1 htables => ?_
  have hk1 : k1.space = k.space := congrArg (fun t q => (t.1 q).space) htables
  split
  · exact wp_pure.mpr (.kept (.of_eq hk1))
  rename_i entry pt sz
  unfold execCommit
  rw [wp_bind, wp_get]
  split
  · rw [wp_bind]
    refine keeps_onMem.wp fun _ k2 hk2 => ?_
    rw [wp_bind]
    refine keeps_onMem.wp fun _ k3 hk3 => ?_
    exact wp_pure.mpr (.kept (.of_eq (hk3.trans (hk2.trans hk1))))
  · rw [wp_bind]
    refine keeps_onMem.wp fun _ k2 hk2 => ?_
    rw [hk1] at hk2
    rw [wp_bind]
    refine wp_setProc_space fun k3 hk3 => ?_
    rw [wp_bind]
    refine keeps_onMem.wp fun _ k4 hk4 => ?_
    refine wp_pure.mpr (.exec sz (.of_eq ?_))
    rw [hk4, hk3, hk2, ← congrFun hk2 p]
    rfl

/-- A step does to the address spaces nothing but what `SpaceStep` lists. -/
theorem wp_step_space (henabled : Enabled k p e) : Ends (step p e) (SpaceStep k p · e) k := by
  cases e with
  | load sp va => exact spaceStep_of_keeps (.bind keeps_load fun _ => .pure)
  | store sp va b => exact spaceStep_of_keeps (.bind keeps_store fun _ => .pure)
  | openFile found mode => exact spaceStep_of_keeps keeps_sysOpen
  | pipe fdarray => exact spaceStep_of_keeps keeps_sysPipe
  | dup fd => exact spaceStep_of_keeps keeps_sysDup
  | close fd => exact spaceStep_of_keeps keeps_sysClose
  | chdir found => exact spaceStep_of_keeps keeps_sysChdir
  | read fd addr n input => exact spaceStep_of_keeps keeps_sysRead
  | write fd addr n => exact spaceStep_of_keeps keeps_sysWrite
  | mmap addr length prot flags fd offset => exact wp_sysMmap_space
  | munmap addr length => exact wp_sysMunmap_space
  | sbrk n => exact wp_sysSbrk_space
  | fork =>
    refine wp_fork_space ?_
    rw [henabled.2.1]
    exact fun h => nomatch h
  | exec found argv => exact wp_exec_space
  | exit status =>
    unfold Ends step
    rw [wp_bind]
    exact wp_post wp_exit_space (fun _ _ h => wp_pure.mpr (.state _ h))
  | exitVma =>
    obtain ⟨_, i, _, hstate⟩ := henabled
    unfold Ends step
    rw [wp_bind, wp_get, hstate]
    dsimp only
    rw [wp_bind]
    exact wp_post wp_exitVma_space (fun _ _ h => wp_pure.mpr (.exitVma hstate h))
  | exitEnd =>
    unfold Ends step
    rw [wp_bind]
    exact wp_post wp_exitEnd_space (fun _ _ h => wp_pure.mpr (.state _ h))
  | wait addr =>
    unfold Ends step
    rw [wp_bind]
    exact wp_post wp_wait_space (fun _ _ h => wp_pure.mpr (.kept h))

theorem step_space {r : Int} (henabled : Enabled k p e) (h : step p e k = .ok (r, k')) :
    SpaceStep k p k' e := by
  have hstep := wp_ok (wp_step_space henabled) h
  exact hstep

/-! ## The first process -/

theorem wp_userinit_space {root : Nat} (hdead : ∀ p, ¬(k.space p).Live) :
    wp (userinit root) (fun _ k' => ∀ p, (k'.space p).Live →
      k'.space p = ⟨.runnable, PGSIZE, fun _ => {}, fun v => v = 0⟩) (fun _ => True) k := by
  unfold userinit
  rw [wp_bind]
  refine wp_allocproc_space (fun k1 h => ?_) fun np k1 _ hk1 => ?_
  · refine wp_pure.mpr fun p hp => absurd hp ?_
    rw [h p hp]
    exact hdead p
  · rw [wp_bind]
    refine keeps_onMem.wp fun r k2 hk2 => ?_
    rw [wp_bind]
    refine keeps_onMem.wp fun _ k3 hk3 => ?_
    rw [wp_bind]
    refine keeps_onPagetable.wp fun _ k4 hk4 => ?_
    rw [wp_bind]
    refine keeps_onFiles.wp fun _ k5 hk5 => ?_
    rw [hk4, hk3, hk2, hk1] at hk5
    refine wp_setProc_space fun k6 hk6 p hp => ?_
    replace hk6 : k6.space = update k5.space np
      ⟨.runnable, PGSIZE, (k5.space np).vma, fun v => v = 0⟩ := hk6
    rw [hk5, update_idem, update_self] at hk6
    rw [hk6] at hp ⊢
    by_cases hpn : p = np
    · rw [hpn, update_self]
      rfl
    · rw [update_of_ne hpn] at hp
      exact absurd hp (hdead p)

theorem boot_space (h : Boot k) (hp : (k.space p).Live) :
    k.space p = ⟨.runnable, PGSIZE, fun _ => {}, fun v => v = 0⟩ := by
  obtain ⟨k0, root, hfresh, hinit, _⟩ := h
  have hdead : ∀ p, ¬(k0.space p).Live := by
    intro p hlive
    apply hlive
    show (k0.proc p).state = .unused
    rw [hfresh.proc p]
  have hspace := wp_ok (wp_userinit_space hdead) hinit
  exact hspace p hp

end Xv6.Sys
