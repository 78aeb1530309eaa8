import Xv6.Proc.Refs
import Xv6.Proc.VmaTable

/-!
# What `exec` does to the mappings

`exec` gives the process a new page table and a new size and frees the old
image, but the table of mappings is in `struct proc`, and `exec` does not look
at it. `ExecDiscards` says what there is to see when the mappings go with the
old image: no slot in use, the shared pages written back, the references to
the files dropped, and nothing in the new program that goes to a file of the
old one. By `exec_discards_iff` this is so exactly when the old image had no
mapping to discard.
-/

namespace Xv6.Sys

open Xv6.Lib Xv6.Lib.CInt Xv6.Vm Function
open Act

/-! ## What `exec` leaves alone -/

/-- The mappings of every process, the file table and the content of the
disk. -/
structure MapView where
  vma : Nat → Nat → Vma
  file : Nat → File
  dinode : Nat → DInode

def Kernel.mapView (k : Kernel) : MapView :=
  ⟨fun q => (k.proc q).vma, k.files.file, k.files.dinode⟩

section keeps

variable {p : Nat}

theorem keeps_setProc_map {f : Proc → Proc} (h : ∀ pr, (f pr).vma = pr.vma) :
    Keeps Kernel.mapView (setProc p f) := by
  refine .modify fun k => ?_
  unfold Kernel.mapView
  congr 1
  funext q
  by_cases hq : q = p
  · subst hq
    simp only [update_self, h]
  · simp only [update_of_ne hq]

theorem keeps_exec_map {found : Option Nat} {argv : List (List UInt8)} :
    Keeps Kernel.mapView (exec p found argv) := by
  let view : (Nat → Proc) × (Nat → File) × (Nat → DInode) → MapView :=
    fun t => ⟨fun q => (t.1 q).vma, t.2.1, t.2.2⟩
  have hmem : ∀ m : KmemM Unit, Keeps Kernel.mapView (onMem m) :=
    fun m => keeps_onMem_tables.comp view
  refine .bind (keeps_execLoad.comp view) fun r => ?_
  split
  · exact .pure
  refine .bind .get fun k => ?_
  split
  · exact .bind (hmem _) fun _ => .bind (hmem _) fun _ => .pure
  · refine .bind (hmem _) fun _ => .bind (keeps_setProc_map fun _ => rfl) fun _ => ?_
    exact .bind (hmem _) fun _ => .pure

end keeps

/-! ## Discarding the mappings -/

/-- No slot of the process is in use. -/
def Space.NoVma (s : Space) : Prop := ∀ i, i < MAXMMAPITEM → (s.vma i).used = false

/-- Write every used mapping of process `p` back to its file, as `sys_munmap`
does for one. -/
def writeBackAll (p : Nat) : KernelM Unit :=
  Act.iter (fun i _ => do
    let k ← get
    let v := (k.proc p).vma i
    Act.when v.used (writeBack (k.proc p).pagetable v v.addr v.length)) MAXMMAPITEM 0 ()

/-- The event makes a new mapping. -/
def Event.maps : Event → Bool
  | .mmap _ _ _ _ _ _ => true
  | _ => false

/-- The state `k'` after `exec` has nothing left of the mappings that process
`p` had in the state `k` before it. -/
structure ExecDiscards (k k' : Kernel) (p : Nat) : Prop where
  unused : (k'.space p).NoVma
  written : ∃ k1, writeBackAll p k = .ok ((), k1) ∧ k'.files.dinode = k1.files.dinode
  dropped : ∀ f, (k'.files.file f).ref =
    (k.files.file f).ref - tally MAXMMAPITEM (fun i => ((k.proc p).vma i).held) f
  /-- Page faults, `munmap` and `exit` go to files through the used mappings.
  Whatever the new program does, as long as it makes no mapping of its own
  there is none. -/
  later : ∀ k'', Run (fun _ q e => q = p ∧ e.maps = false) k' k'' → (k''.space p).Live →
    (k''.space p).NoVma

/-- A process without mappings that makes none has none. -/
theorem noVma_step {k k' : Kernel} {p : Nat} {e : Event} {r : Int} (henabled : Enabled k p e)
    (hmaps : e.maps = false) (hstep : step p e k = .ok (r, k')) (hk : (k.space p).NoVma)
    (hlive : (k'.space p).Live) : (k'.space p).NoVma := by
  have hsame : ∀ s : Space, Changed k p s k' → s.NoVma → (k'.space p).NoVma := by
    intro s hs hvma
    rw [hs p hlive, update_self]
    exact hvma
  cases step_space henabled hstep with
  | kept h =>
    rw [h p hlive]
    exact hk
  | state st h => exact hsame _ h hk
  | mmap => exact absurd hmaps (by simp [Event.maps])
  | munmap slot hit h =>
    have hused := (Vma.munmapHit_cases hit).1
    have hi := (munmapSlot_some slot).1
    rw [hk _ hi] at hused
    exact absurd hused (by decide)
  | grow old new _ _ _ h => exact hsame _ h hk
  | shrink old new _ _ _ h => exact hsame _ h hk
  | @fork np vma dead copy h =>
    have hne : p ≠ np := by
      rintro rfl
      exact dead henabled.live.2
    rw [h p hlive, update_of_ne hne]
    exact hk
  | exec sz h => exact hsame _ h hk
  | @exitVma i state h =>
    refine hsame _ h fun j hj => ?_
    unfold Space.closeVma
    by_cases hji : j = i
    · subst hji
      simp only [update_self]
    · simp only [update_of_ne hji]
      exact hk j hj

/-- Without mappings there is nothing to write back. -/
theorem writeBackAll_noVma {k : Kernel} {p : Nat} (h : (k.space p).NoVma) :
    writeBackAll p k = .ok ((), k) := by
  have hwp : wp (writeBackAll p) (fun _ k' => k' = k) (fun _ => False) k := by
    refine wp_iter (fun _ _ k' => k' = k) rfl fun i _ k' _ hi hk' => ?_
    subst hk'
    rw [wp_bind, wp_get]
    refine wp_when (fun hused => ?_) fun _ => rfl
    have hunused : ((k'.proc p).vma i).used = false := h i (by omega)
    exact absurd (hunused.symm.trans hused) (by decide)
  obtain ⟨_, k', hrun, rfl⟩ := wp_total hwp
  exact hrun

/-- An `exec`, whatever it returns, discards the mappings of the process
exactly when there are none. -/
theorem exec_discards_iff {k k' : Kernel} {p : Nat} {found : Option Nat}
    {argv : List (List UInt8)} {r : Int} (henabled : Enabled k p (.exec found argv))
    (hexec : exec p found argv k = .ok (r, k')) :
    ExecDiscards k k' p ↔ ∀ i, i < MAXMMAPITEM → ((k.proc p).vma i).used = false := by
  have hview : k'.mapView = k.mapView := by
    have hwp : wp (exec p found argv) (fun _ k1 => k1.mapView = k.mapView) (fun _ => True) k :=
      keeps_exec_map.wp (fun _ _ h => h)
    have hk' := wp_ok hwp hexec
    exact hk'
  have hvma : (k'.proc p).vma = (k.proc p).vma := congrFun (congrArg MapView.vma hview) p
  have hfile : k'.files.file = k.files.file := congrArg MapView.file hview
  have hdinode : k'.files.dinode = k.files.dinode := congrArg MapView.dinode hview
  constructor
  · intro h i hi
    rw [← hvma]
    exact h.unused i hi
  · intro h
    have hnone : (k'.space p).NoVma := by
      intro i hi
      have hi' := h i hi
      rw [← hvma] at hi'
      exact hi'
    refine ⟨hnone, ⟨k, writeBackAll_noVma h, hdinode⟩, ?_, ?_⟩
    · intro f
      have hheld : ∀ i, i < MAXMMAPITEM → ((k.proc p).vma i).held = none := by
        intro i hi
        rw [Vma.held, h i hi]
        rfl
      rw [hfile, tally_congr hheld]
      simp [tally, token_none]
    · intro k'' hrun
      refine run_invariant (I := fun k1 => (k1.space p).Live → (k1.space p).NoVma) hrun
        (fun _ => hnone) ?_
      rintro k1 q e r1 k2 hk1 henabled1 ⟨rfl, hmaps⟩ hstep hlive
      exact noVma_step henabled1 hmaps hstep (hk1 henabled1.live.2) hlive

/-- The events that make inode 2 of the small machine an executable without
segments: the process stores the magic number at address 0 and writes 64
bytes from there to the file. -/
def writeElf : List (Nat × Event) :=
  [(0, .openFile (some 2) 2), (0, .store 0x800 0 0x7F), (0, .store 0x800 1 0x45),
    (0, .store 0x800 2 0x4C), (0, .store 0x800 3 0x46), (0, .write 0 0 64)]

/-- A process that has mapped nothing runs the executable. -/
theorem exec_discards_nothing :
    ∃ k0 k r k', Boot k0 ∧ Run (fun _ _ _ => True) k0 k ∧ exec 0 (some 2) [] k = .ok (r, k') ∧
      r ≠ -1 ∧ ExecDiscards k k' 0 := by
  obtain ⟨k0, k, hboot, hrun, hfact⟩ := smallMachine_anyRun writeElf
    (fun k => decide (∀ i, i < MAXMMAPITEM → ((k.proc 0).vma i).used = false) &&
      stepGives 0 (.exec (some 2) []) (fun r _ => r ≠ -1) k) (by decide +kernel)
  rw [Bool.and_eq_true, decide_eq_true_eq, stepGives_iff] at hfact
  obtain ⟨hnone, henabled, r, k', hexec, hr⟩ := hfact
  exact ⟨k0, k, r, k', hboot, hrun, hexec, of_decide_eq_true hr,
    (exec_discards_iff henabled hexec).mpr hnone⟩

/-- A process maps the file before it runs the executable: the mapping is
still in use in the new program. -/
theorem exec_keeps_mapping :
    ∃ k0 k r k', Boot k0 ∧ Run (fun _ _ _ => True) k0 k ∧ Enabled k 0 (.exec (some 2) []) ∧
      exec 0 (some 2) [] k = .ok (r, k') ∧ r ≠ -1 ∧ ((k'.proc 0).vma 0).used = true ∧
      ¬ExecDiscards k k' 0 := by
  obtain ⟨k0, k, hboot, hrun, hfact⟩ := smallMachine_anyRun (writeElf ++ [(0, .mmap 0 4096 3 1 0 0)])
    (stepGives 0 (.exec (some 2) []) fun r k' => r ≠ -1 && ((k'.proc 0).vma 0).used)
    (by decide +kernel)
  rw [stepGives_iff] at hfact
  obtain ⟨henabled, r, k', hexec, hret⟩ := hfact
  rw [Bool.and_eq_true, decide_eq_true_eq] at hret
  refine ⟨k0, k, r, k', hboot, hrun, henabled, hexec, hret.1, hret.2, fun h => ?_⟩
  exact absurd ((h.unused 0 (by decide)).symm.trans hret.2) (by decide)

end Xv6.Sys
