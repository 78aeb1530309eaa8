import Xv6.Vm.CopyExact
import Xv6.Proc.FaultAddress

/-!
# What `sys_mmap` does in every case

The call is refused, stops the machine, or maps the file at the old size of the
process, and which of these it is can be read off the state before the call.
It behaves as a system call should exactly if it is refused, or if there is a
free slot and a file to count, the file is an inode, the size is a multiple of
the page size, and nothing of the process lies above it where the mapping goes.
-/

namespace Xv6.Sys

open Xv6.Lib Xv6.Lib.CInt Xv6.Vm Function
open Act

/-- The arguments of a call. -/
structure MmapArgs where
  addr : UInt64
  length : UInt64
  prot : UInt64
  flags : UInt64
  fd : UInt64
  offset : UInt64

namespace MmapArgs

variable (a : MmapArgs)

def call (p : Nat) : KernelM Int := sysMmap p a.addr a.length a.prot a.flags a.fd a.offset

/-- The call returns -1: the descriptor is not open, the arguments are not the
supported ones, or the file cannot be written back to. -/
def Refused (k : Kernel) (p : Nat) : Prop :=
  argfd (k.proc p) a.fd = none ∨
    (argaddr a.addr ≠ 0 ∨ argint a.offset ≠ 0 ∨ argint a.length < 0) ∨
    ∃ f, argfd (k.proc p) a.fd = some f ∧ (k.files.file f).writable = false ∧
      hasBit (argint a.prot) PROT_WRITE = true ∧ argint a.flags = MAP_SHARED

/-- The mapping that the call makes of file `f`. -/
def vma (pr : Proc) (f : Nat) : Vma :=
  { used := true, addr := pr.sz, length := argint a.length, prot := argint a.prot,
    flags := argint a.flags, vfd := argint a.fd, vfile := f, offset := 0, base := pr.sz }

/-- The state after the call has mapped file `f` with slot `i`. -/
def after (k : Kernel) (p f i : Nat) : Kernel :=
  { k with
    files := { k.files with
      file := Function.update k.files.file f
        { k.files.file f with ref := (k.files.file f).ref + 1 } }
    proc := Function.update k.proc p { k.proc p with
      vma := Function.update (k.proc p).vma i (a.vma (k.proc p) f)
      sz := uint64 ((k.proc p).sz + argint a.length) } }

variable {a} {k : Kernel} {p : Nat}

theorem wp_call {Q : Int → Kernel → Prop} {E : Panic → Prop} (hrefused : a.Refused k p → Q (-1) k)
    (hslot : ¬a.Refused k p → freeSlot (k.proc p).vma = none → E .noEmptyMmapitem)
    (href : ∀ f, ¬a.Refused k p → argfd (k.proc p) a.fd = some f → (k.files.file f).ref < 1 →
      E .filedup) (hok : ∀ f i, ¬a.Refused k p → argfd (k.proc p) a.fd = some f →
      freeSlot (k.proc p).vma = some i → 1 ≤ (k.files.file f).ref →
      Q (k.proc p).sz (a.after k p f i)) : wp (a.call p) Q E k := by
  unfold call sysMmap
  rw [wp_bind, wp_get]
  extract_lets pr
  split
  · rename_i hfd
    exact wp_pure.mpr (hrefused (.inl hfd))
  rename_i f hfd
  refine wp_ite (fun hargs => wp_pure.mpr (hrefused (.inr (.inl hargs)))) fun hargs => ?_
  refine wp_ite (fun hwrite => wp_pure.mpr (hrefused (.inr (.inr ⟨f, hfd, hwrite⟩))))
    fun hwrite => ?_
  have hnot : ¬a.Refused k p := by
    rintro (hnone | hbad | ⟨g, hg, hbad⟩)
    · exact absurd (hfd.symm.trans hnone) (by simp)
    · exact hargs hbad
    · obtain rfl := Option.some.inj (hfd.symm.trans hg)
      exact hwrite hbad
  split
  · rename_i hfree
    exact wp_panic.mpr (hslot hnot hfree)
  rename_i i hfree
  extract_lets v
  rw [wp_bind, wp_setProc, wp_bind, wp_onFiles]
  refine wp_filedup (href f hnot hfd) fun hcount => ?_
  rw [wp_bind, wp_setProc, wp_pure]
  have hafter := hok f i hnot hfd hfree hcount
  simp only [update_self, update_idem]
  exact hafter

end MmapArgs

/-! ## What the call should do -/

/-- The address is part of the address space of the process: it is below the
size, the page table has an entry for it, or it is in a mapping. -/
def InSpace (pr : Proc) (x : Nat) : Prop :=
  x < pr.sz ∨ (x < MAXVA ∧ Valid (pr.pagetable.pte x)) ∨
    ∃ i, i < MAXMMAPITEM ∧ (pr.vma i).covers x = true

/-- A failed call: nothing changes. -/
structure MmapFails (k : Kernel) (p : Nat) (r : Int) (k' : Kernel) : Prop where
  ret : r = -1
  vma : (k'.proc p).vma = (k.proc p).vma
  sz : (k'.proc p).sz = (k.proc p).sz
  ref : ∀ f, (k'.files.file f).ref = (k.files.file f).ref

/-- A successful call for the file `f`: one free slot is used, the file has one
more reference, and the range that the call returns is new. -/
structure MmapMaps (a : MmapArgs) (k : Kernel) (p f : Nat) (r : Int) (k' : Kernel) : Prop where
  file : argfd (k.proc p) a.fd = some f
  inode : (k.files.file f).type = .inode
  slot : ∃ i, i < MAXMMAPITEM ∧ ((k.proc p).vma i).used = false ∧
    ((k'.proc p).vma i).used = true ∧ ∀ j, j ≠ i → (k'.proc p).vma j = (k.proc p).vma j
  ref : ∀ g, (k'.files.file g).ref = (k.files.file g).ref + if g = f then 1 else 0
  aligned : r % PGSIZE = 0
  fresh : ∀ x : Nat, r ≤ x → x < r + argint a.length → ¬InSpace (k.proc p) x

/-- The call does not stop the machine, and fails or maps the file as it
should. -/
def MmapSound (a : MmapArgs) (k : Kernel) (p : Nat) : Prop :=
  ∃ r k', a.call p k = .ok (r, k') ∧ (MmapFails k p r k' ∨ ∃ f, MmapMaps a k p f r k')

/-- When a call that is not refused is sound: there is a free slot and the file
is counted, it is an inode, the size is a multiple of the page size, and no page
and no mapping of the process is where the new one goes. -/
structure MmapCan (a : MmapArgs) (k : Kernel) (p : Nat) : Prop where
  slot : freeSlot (k.proc p).vma ≠ none
  ref : ∀ f, argfd (k.proc p) a.fd = some f → 1 ≤ (k.files.file f).ref
  inode : ∀ f, argfd (k.proc p) a.fd = some f → (k.files.file f).type = .inode
  aligned : (k.proc p).sz % PGSIZE = 0
  page : ∀ x : Nat, (k.proc p).sz ≤ x → (x : Int) < (k.proc p).sz + argint a.length → x < MAXVA →
    ¬Valid ((k.proc p).pagetable.pte x)
  mapping : ∀ x : Nat, (k.proc p).sz ≤ x → (x : Int) < (k.proc p).sz + argint a.length →
    ∀ i, i < MAXMMAPITEM → ((k.proc p).vma i).covers x = false

section

variable {a : MmapArgs} {k : Kernel} {p : Nat}

theorem freeSlot_some {vma : Nat → Vma} {i : Nat} (h : freeSlot vma = some i) :
    i < MAXMMAPITEM ∧ (vma i).used = false := by
  refine ⟨List.mem_range.mp (List.mem_of_find?_eq_some h), ?_⟩
  have hfree := List.find?_some h
  simpa using hfree

theorem mmapMaps_after {f i : Nat} (h : MmapCan a k p) (hfd : argfd (k.proc p) a.fd = some f)
    (hslot : freeSlot (k.proc p).vma = some i) :
    MmapMaps a k p f (k.proc p).sz (a.after k p f i) where
  file := hfd
  inode := h.inode f hfd
  slot := by
    obtain ⟨hi, hfree⟩ := freeSlot_some hslot
    refine ⟨i, hi, hfree, ?_, fun j hj => ?_⟩
    · simp [MmapArgs.after, MmapArgs.vma]
    · simp [MmapArgs.after, update_of_ne hj]
  ref := by
    intro g
    by_cases hg : g = f
    · subst hg
      simp [MmapArgs.after]
    · simp [MmapArgs.after, hg]
  aligned := by
    have haligned := h.aligned
    omega
  fresh := by
    rintro x hlow hhigh (hsz | ⟨hmax, hvalid⟩ | ⟨j, hj, hcovers⟩)
    · omega
    · exact h.page x (by omega) hhigh hmax hvalid
    · rw [h.mapping x (by omega) hhigh j hj] at hcovers
      exact absurd hcovers (by decide)

/-- A call that maps a file as it should could do so. -/
theorem mmapCan_of_maps {f g i : Nat} (hslot : freeSlot (k.proc p).vma = some i)
    (hfd : argfd (k.proc p) a.fd = some f) (href : 1 ≤ (k.files.file f).ref)
    (h : MmapMaps a k p g (k.proc p).sz (a.after k p f i)) : MmapCan a k p where
  slot := by simp [hslot]
  ref := by
    intro f' hf'
    obtain rfl := Option.some.inj (hfd.symm.trans hf')
    exact href
  inode := by
    intro f' hf'
    obtain rfl := Option.some.inj (h.file.symm.trans hf')
    exact h.inode
  aligned := by
    have haligned := h.aligned
    omega
  page := fun x hlow hhigh hmax hvalid =>
    h.fresh x (by omega) hhigh (.inr (.inl ⟨hmax, hvalid⟩))
  mapping := fun x hlow hhigh j hj => by
    rw [Bool.eq_false_iff]
    exact fun hcovers => h.fresh x (by omega) hhigh (.inr (.inr ⟨j, hj, hcovers⟩))

end

/-- For every state and every tuple of arguments: the call neither panics nor
fails or succeeds in any other way than it should, exactly if it is refused or
can map the file. -/
theorem sys_mmap_sound_iff (a : MmapArgs) (k : Kernel) (p : Nat) :
    MmapSound a k p ↔ a.Refused k p ∨ MmapCan a k p := by
  constructor
  · rintro ⟨r, k', hcall, hsound⟩
    by_contra hcond
    obtain ⟨hnot, hcan⟩ := not_or.mp hcond
    revert hsound
    refine ends_ok r k' hcall
      (MmapArgs.wp_call (fun h => absurd h hnot) (fun _ _ => trivial) (fun _ _ _ _ => trivial) ?_)
    rintro f i - hfd hslot href (hfails | ⟨g, hmaps⟩)
    · have hret := hfails.ret
      omega
    · exact hcan (mmapCan_of_maps hslot hfd href hmaps)
  · intro hcond
    refine wp_total ?_
    refine MmapArgs.wp_call (fun _ => .inl ⟨rfl, rfl, rfl, fun _ => rfl⟩) ?_ ?_ ?_
    · intro hnot hslot
      exact (hcond.resolve_left hnot).slot hslot
    · intro f hnot hfd href
      have hcount := (hcond.resolve_left hnot).ref f hfd
      omega
    · intro f i hnot hfd hslot _
      exact .inr ⟨f, mmapMaps_after (hcond.resolve_left hnot) hfd hslot⟩

/-- Sixteen mappings use up the slots, and one more call panics. A call for the
read end of a pipe maps the pipe. -/
theorem sys_mmap_not_sound :
    (∃ k0 k, Boot k0 ∧ Run (fun _ _ _ => True) k0 k ∧ Enabled k 0 (.mmap 0 4096 1 2 0 0) ∧
      (∃ err, step 0 (.mmap 0 4096 1 2 0 0) k = .error err ∧ err.text = "no empty mmapitem!") ∧
      ¬MmapSound ⟨0, 4096, 1, 2, 0, 0⟩ k 0) ∧
    ∃ k0 k f r k', Boot k0 ∧ Run (fun _ _ _ => True) k0 k ∧ Enabled k 0 (.mmap 0 4096 1 2 0 0) ∧
      argfd (k.proc 0) 0 = some f ∧ (k.files.file f).type = .pipe ∧
      step 0 (.mmap 0 4096 1 2 0 0) k = .ok (r, k') ∧ r ≠ -1 ∧
      ¬MmapSound ⟨0, 4096, 1, 2, 0, 0⟩ k 0 := by
  constructor
  · obtain ⟨k0, k, hboot, hrun, hfact⟩ := smallMachine_anyRun
      ((0, .openFile (some 2) 0) :: List.replicate 16 (0, .mmap 0 4096 1 2 0 0))
      (stepPanics 0 (.mmap 0 4096 1 2 0 0) "no empty mmapitem!") (by decide +kernel)
    obtain ⟨henabled, err, hpanic, htext⟩ := stepPanics_iff.mp hfact
    refine ⟨k0, k, hboot, hrun, henabled, ⟨err, hpanic, htext⟩, ?_⟩
    rintro ⟨r, k', hcall, -⟩
    exact absurd (hpanic.symm.trans hcall) (by simp)
  · obtain ⟨k0, k, hboot, hrun, hfact⟩ := smallMachine_anyRun [(0, .pipe 0)]
      (fun k => decide (argfd (k.proc 0) 0 = some 0 ∧ (k.files.file 0).type = .pipe) &&
        stepGives 0 (.mmap 0 4096 1 2 0 0) (fun r _ => r ≠ -1) k) (by decide +kernel)
    rw [Bool.and_eq_true, decide_eq_true_eq, stepGives_iff] at hfact
    obtain ⟨⟨hfd, htype⟩, henabled, r, k', hstep, hr⟩ := hfact
    have hne : r ≠ -1 := of_decide_eq_true hr
    refine ⟨k0, k, 0, r, k', hboot, hrun, henabled, hfd, htype, hstep, hne, ?_⟩
    rintro ⟨r1, k1, hcall, hsound⟩
    obtain ⟨rfl, rfl⟩ := Prod.mk.inj (Except.ok.inj (hstep.symm.trans hcall))
    rcases hsound with hfails | ⟨f, hmaps⟩
    · exact hne hfails.ret
    · obtain rfl := Option.some.inj (hfd.symm.trans hmaps.file)
      exact absurd (htype.symm.trans hmaps.inode) (by decide)

end Xv6.Sys
