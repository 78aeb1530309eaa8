import Xv6.Proc.RefCalls
import Xv6.Proc.LedgerRun

/-!
# Who refers to files, pipes and inodes

The counts of the file table and of the inode cache are exact along runs
(`run_refs`), and so are the ends of the pipes, since the pages of open pipes
are in use once (`run_ledger`). `CountsExact` puts this together. A pipe
needs its page for itself, so the runs are those in which `wait` frees no trap
frame twice.
-/

namespace Xv6.Sys

open Xv6.Lib Xv6.Lib.CInt Xv6.Vm
open Act

/-- The slot of the inode cache that an open file refers to. -/
def File.openSlot (file : File) : Option Nat := if 0 < file.ref then file.onSlot else none

/-- The reference counts are exact: of a file, the descriptors and used
mappings; of each end of a pipe, whether there is an open file for it; of a
slot of the inode cache, the open files and current directories. -/
structure CountsExact (k : Kernel) : Prop where
  file : ∀ f, (k.files.file f).ref = k.held f
  free : ∀ f, (k.files.file f).ref = 0 → (k.files.file f).type = .none
  pipe : ∀ writable pa, (k.files.pipe pa).isOpen writable = true ↔
    ∃ f, f < NFILE ∧ (k.files.file f).pipeEnd writable = some pa ∧ 0 < (k.files.file f).ref
  oneFile : ∀ writable pa f g, (k.files.file f).pipeEnd writable = some pa →
    (k.files.file g).pipeEnd writable = some pa → f = g
  inode : ∀ i, (k.files.inode i).ref =
    tally NFILE (fun f => (k.files.file f).openSlot) i + k.cwds i

/-- Closing a file gives up what it is open on exactly when nothing else refers
to it; before that it only counts down. -/
def LastCloses (k : Kernel) (f : Nat) : Prop :=
  (1 < k.held f → fileclose f k.files = .ok ((), { k.files with
    file := Function.update k.files.file f { k.files.file f with ref := k.held f - 1 } })) ∧
  (k.held f = 1 → fileclose f k.files = fileRelease (k.files.file f) { k.files with
    file := Function.update k.files.file f { k.files.file f with ref := 0, type := .none } })

section counts

variable {k : Kernel}

theorem held_nonneg (k : Kernel) (f : Nat) : 0 ≤ k.held f :=
  Finset.sum_nonneg fun _ _ => add_nonneg (tally_nonneg _ _ _) (tally_nonneg _ _ _)

theorem eq_of_tally_le_one {n i j l : Nat} {g : Nat → Option Nat} (h : tally n g i ≤ 1)
    (hj : j < n) (hl : l < n) (hgj : g j = some i) (hgl : g l = some i) : j = l := by
  by_contra hne
  have hpair := Finset.add_le_sum (f := fun j => token (g j) i) (fun j _ => token_nonneg (g j) i)
    (Finset.mem_range.mpr hj) (Finset.mem_range.mpr hl) hne
  unfold tally at h
  simp only [hgj, hgl, token_self] at hpair
  omega

theorem File.type_of_pipeEnd {file : File} {writable : Bool} {pa : Nat}
    (h : file.pipeEnd writable = some pa) : file.type = .pipe := by
  unfold File.pipeEnd at h
  split at h
  · rename_i hc
    exact hc.1
  · exact absurd h (by simp)

theorem countsExact_of {strict : Prop} {total : Nat → Nat} (hrefs : RefsExact k)
    (hledger : Ledger strict total none 0 k) : CountsExact k := by
  have hfile : ∀ f, (k.files.file f).ref = k.held f := fun f => by
    rw [hrefs.file f, Pi.zero_apply, add_zero]
  have hpos : ∀ f, (k.files.file f).type ≠ .none → 0 < (k.files.file f).ref := by
    intro f hf
    have hne : (k.files.file f).ref ≠ 0 := fun h0 => hf (hrefs.ok.closed f h0)
    have hnonneg := held_nonneg k f
    rw [← hfile f] at hnonneg
    omega
  have hpipes := hledger.pipes
  refine ⟨hfile, hrefs.ok.closed, fun w pa => ?_, fun w pa f g hf hg => ?_, fun i => ?_⟩
  · have hends := hpipes.ends w pa
    constructor
    · intro hopen
      rw [if_pos hopen] at hends
      by_contra hnone
      have hzero : k.files.ends w pa = 0 := by
        unfold Files.ends tally
        refine Finset.sum_eq_zero fun f hf => if_neg fun hend => ?_
        have hne : (k.files.file f).type ≠ .none := by
          rw [File.type_of_pipeEnd hend]
          simp
        exact hnone ⟨f, Finset.mem_range.mp hf, hend, hpos f hne⟩
      omega
    · rintro ⟨f, hf, hend, _⟩
      have hle : 1 ≤ k.files.ends w pa := one_le_tally hf hend
      by_contra hshut
      rw [if_neg hshut] at hends
      omega
  · have hends := hpipes.ends w pa
    have hle : k.files.ends w pa ≤ 1 := by
      rw [hends]
      split <;> decide
    exact eq_of_tally_le_one hle (hpipes.table f (File.type_of_pipeEnd hf))
      (hpipes.table g (File.type_of_pipeEnd hg)) hf hg
  · have hslots : tally NFILE (fun f => (k.files.file f).openSlot) i =
        tally NFILE (fun f => (k.files.file f).onSlot) i := by
      refine tally_congr (fun f _ => ?_) i
      unfold File.openSlot
      split
      · rfl
      · rename_i hnot
        by_cases htype : (k.files.file f).type = .none
        · rw [File.onSlot_none htype]
        · exact absurd (hpos f htype) hnot
    have hspare := hrefs.inode i
    rw [Pi.zero_apply, add_zero, Files.spare] at hspare
    rw [hslots]
    omega

theorem lastCloses_of (hfile : ∀ f, (k.files.file f).ref = k.held f) (f : Nat) : LastCloses k f := by
  have hclose : fileclose f k.files = (if (k.files.file f).ref < 1 then panic .fileclose
      else if 0 < (k.files.file f).ref - 1 then
        setFile f { k.files.file f with ref := (k.files.file f).ref - 1 }
      else do
        setFile f { k.files.file f with ref := 0, type := .none }
        fileRelease (k.files.file f)) k.files := rfl
  rw [hfile f] at hclose
  refine ⟨fun hmore => ?_, fun hlast => ?_⟩
  · rw [hclose, if_neg (by omega), if_pos (by omega)]
    rfl
  · rw [hclose, if_neg (by omega), if_neg (by omega)]
    rfl

end counts

/-- The reference counts are exact in every state of every run, and the last
reference to a file, and no other, closes it. -/
theorem counts_exact {k0 k : Kernel} (hboot : Boot k0)
    (hrun : Run (fun k _ e => ReapsFramed k e) k0 k) :
    CountsExact k ∧ ∀ f, LastCloses k f := by
  obtain ⟨total, hledger⟩ : ∃ total, Ledger False total none 0 k0 := hboot.ledger
  have hk := run_ledger hledger hrun fun k p e hc => ⟨False.elim, .inr hc⟩
  have hcounts := countsExact_of (run_refs hboot hrun) hk
  exact ⟨hcounts, lastCloses_of hcounts.file⟩

/-- A test of the condition on events, for runs without `wait`. -/
def noWait (_ : Kernel) (_ : Nat) : Event → Bool
  | .wait _ => false
  | _ => true

theorem reaps_of_noWait (k : Kernel) (p : Nat) (e : Event) (h : noWait k p e = true) :
    ReapsFramed k e := by
  cases e with
  | wait addr => exact absurd h Bool.false_ne_true
  | _ => trivial

/-- A process makes a pipe and forks, maps a file, and the child closes the read
end and exits: the pipe is open at both ends. -/
theorem counts_exact_pipe : ∃ k0 k pa, Boot k0 ∧ Run (fun k _ e => ReapsFramed k e) k0 k ∧
    (k.files.pipe pa).isOpen false = true ∧ CountsExact k ∧ ∀ f, LastCloses k f := by
  obtain ⟨k0, k, hboot, hrun, hfact⟩ := smallMachine_run reaps_of_noWait
    [(0, .pipe 0x10), (0, .openFile (some 2) 2), (0, .mmap 0 4096 1 2 2 0),
     (0, .fork), (1, .close 0), (1, .exit 0)]
    (fun k => (k.files.pipe (k.files.file 0).pipe).isOpen false) (by decide +kernel)
  exact ⟨k0, k, _, hboot, hrun, hfact, counts_exact hboot hrun⟩

end Xv6.Sys
