import Mathlib.Algebra.BigOperators.Group.Finset.Piecewise
import Xv6.Proc.LedgerRun

/-!
# Who has a page

`Kernel.places` counts the places where the kernel has a page of memory: on
the free list, as an open pipe, as a trap frame, as a page of a page table, or
as the target of an entry for user memory. The strict ledger says that the
number never changes, so a page of memory is in one place from the time the
first process starts, or in none because the kernel took it before that.

A call to `munmap` is not checked against the trap frame. With an argument
that hits one of the process's mappings by its length alone it frees the trap
frame, which the process still has.
-/

namespace Xv6.Sys

open Xv6.Lib Xv6.Lib.CInt Xv6.Vm
open Act

/-- The entries below the trap frame that map a page. -/
def userLeaves (pt : PageTable) (pa : Nat) : Nat :=
  ((Finset.range (TRAPFRAME / PGSIZE)).filter fun v =>
    hasFlag (pt.pte (v * PGSIZE)) PTE_V ∧ pte2pa (pt.pte (v * PGSIZE)) = pa).card

/-- The places where a process has a page: its trap frame, its page-table pages
and its user memory. -/
def Proc.places (pr : Proc) (pa : Nat) : Nat :=
  (if pr.trapframe = pa then 1 else 0) +
    if pr.pagetable.addr = 0 then 0
    else (tablePages pr.pagetable).count pa + userLeaves pr.pagetable pa

/-- The places where a page is. -/
def Kernel.places (k : Kernel) (pa : Nat) : Nat :=
  k.files.kmem.freelist.count pa + (k.files.pipe pa).count +
    ∑ p ∈ Finset.range NPROC, (k.proc p).places pa

/-- A page of the memory between the end of the kernel and the end of RAM. -/
def RamPage (k : Kernel) (pa : Nat) : Prop :=
  pa % PGSIZE = 0 ∧ k.files.kmem.kend ≤ pa ∧ pa < PHYSTOP

/-- A process has a page of memory at its user page `v`. -/
structure MapsUser (k : Kernel) (p v pa : Nat) : Prop where
  proc : p < NPROC
  live : (k.proc p).state ≠ .unused
  page : v < TRAPFRAME / PGSIZE
  valid : hasFlag ((k.proc p).pagetable.pte (v * PGSIZE)) PTE_V
  target : pte2pa ((k.proc p).pagetable.pte (v * PGSIZE)) = pa

/-! ## The ledger counts the places -/

section places

variable {total : Nat → Nat} {k : Kernel} {p pa : Nat}

theorem leafPart_count (w pa : Nat) :
    (leafPart w).count pa = if hasFlag w PTE_V ∧ pte2pa w = pa then 1 else 0 := by
  unfold leafPart
  by_cases hv : hasFlag w PTE_V
  · rw [if_pos hv, Multiset.count_singleton]
    by_cases hpa : pte2pa w = pa
    · rw [if_pos hpa.symm, if_pos ⟨hv, hpa⟩]
    · rw [if_neg (Ne.symm hpa), if_neg fun h => hpa h.2]
  · rw [if_neg hv, if_neg fun h => hv h.1]
    rfl

/-- The pages that a table maps are its user memory and the trap frame. -/
theorem count_leafPages
    {trapframe : Nat} {pt : PageTable} {m : Kmem} (h : TableFor trapframe pt m) :
    (leafPages pt).count pa = userLeaves pt pa + if trapframe = pa then 1 else 0 := by
  obtain ⟨n, hpages, hlast⟩ : ∃ n, userPages = n + 1 ∧ n = TRAPFRAME / PGSIZE :=
    ⟨TRAPFRAME / PGSIZE, by decide, rfl⟩
  have hframe : n * PGSIZE = TRAPFRAME := by
    rw [hlast]
    decide
  unfold leafPages userLeaves
  rw [← hlast, hpages, Finset.sum_range_succ, hframe, h.leafPart, Multiset.count_add,
    Multiset.count_sum', Finset.card_filter]
  congr 1
  · exact Finset.sum_congr rfl fun v _ => leafPart_count _ _
  · rw [Multiset.count_singleton]
    exact if_congr eq_comm rfl rfl

theorem Proc.places_eq {pr : Proc} {m : Kmem} (h : pr.TableOk True m) (hpa : pa ≠ 0) :
    pr.places pa = pr.pages.count pa := by
  unfold Proc.places Proc.pages
  by_cases hunused : pr.state = .unused
  · unfold Proc.TableOk at h
    rw [hunused] at h
    obtain ⟨haddr, hframe⟩ := h
    rw [hframe, if_neg (Ne.symm hpa), if_pos haddr, if_pos haddr]
    rfl
  · have htabled := h.tabled hunused
    have htable := htabled.tableFor (htabled.frame trivial)
    rw [if_neg htable.addr, if_neg htable.addr, pagesOf, Multiset.count_add, count_leafPages htable]
    omega

theorem Ledger.places (hk : Ledger True total none 0 k) (hpa : pa ≠ 0) : k.places pa = total pa := by
  have hhoused : ∑ p ∈ Finset.range NPROC, (k.proc p).places pa = k.housed pa := by
    refine Finset.sum_congr rfl fun q hq => ?_
    exact Proc.places_eq (hk.table q (by simp) (Finset.mem_range.mp hq)) hpa
  have hcensus := hk.census pa
  rw [Multiset.count_zero, add_zero, Files.loose] at hcensus
  unfold Kernel.places
  rw [hhoused]
  exact hcensus

theorem MapsUser.mem_filter {v : Nat} (h : MapsUser k p v pa) :
    v ∈ (Finset.range (TRAPFRAME / PGSIZE)).filter fun v =>
      hasFlag ((k.proc p).pagetable.pte (v * PGSIZE)) PTE_V ∧
        pte2pa ((k.proc p).pagetable.pte (v * PGSIZE)) = pa :=
  Finset.mem_filter.mpr ⟨Finset.mem_range.mpr h.page, h.valid, h.target⟩

theorem userLeaves_le_places (pa : Nat) (haddr : (k.proc p).pagetable.addr ≠ 0) :
    userLeaves (k.proc p).pagetable pa ≤ (k.proc p).places pa := by
  unfold Proc.places
  rw [if_neg haddr]
  omega

theorem MapsUser.unique {q v w : Nat} (hk : Ledger True total none 0 k) (honce : k.places pa ≤ 1)
    (h : MapsUser k p v pa) (h' : MapsUser k q w pa) : p = q ∧ v = w := by
  have hp := userLeaves_le_places pa (hk.tabled h.proc h.live).addr
  have hq := userLeaves_le_places pa (hk.tabled h'.proc h'.live).addr
  have hpos : 1 ≤ userLeaves (k.proc p).pagetable pa := Finset.card_pos.mpr ⟨v, h.mem_filter⟩
  have hpos' : 1 ≤ userLeaves (k.proc q).pagetable pa := Finset.card_pos.mpr ⟨w, h'.mem_filter⟩
  have hsum : ∑ q ∈ Finset.range NPROC, (k.proc q).places pa ≤ 1 := by
    unfold Kernel.places at honce
    omega
  have hpq : p = q := by
    by_contra hne
    have hpair := Finset.add_le_sum (f := fun q => (k.proc q).places pa) (fun _ _ => Nat.zero_le _)
      (Finset.mem_range.mpr h.proc) (Finset.mem_range.mpr h'.proc) hne
    omega
  subst hpq
  refine ⟨rfl, ?_⟩
  have hsingle := Finset.single_le_sum (f := fun q => (k.proc q).places pa)
    (fun _ _ => Nat.zero_le _) (Finset.mem_range.mpr h.proc)
  have hone : userLeaves (k.proc p).pagetable pa ≤ 1 := by omega
  exact Finset.card_le_one.mp hone v h.mem_filter w h'.mem_filter

end places

/-! ## Every page is in one place -/

/-- The first process has started, in a machine that was fresh before it. -/
structure Started (k00 k0 : Kernel) : Prop where
  fresh : Fresh k00
  init : ∃ root, userinit root k00 = .ok ((), k0)
  code : HasCode k0

instance (k : Kernel) : Decidable (HasCode k) :=
  inferInstanceAs (Decidable (_ ∧ _))

/-- The first process of the small machine has its code. -/
theorem started_smallMachine {k0 : Kernel} (h : userinit 1 smallMachine = .ok ((), k0)) :
    Started smallMachine k0 := by
  refine ⟨fresh_smallMachine, ⟨1, h⟩, ?_⟩
  have hcode : ((userinit 1 smallMachine).toOption.any fun r => decide (HasCode r.2)) = true := by
    decide +kernel
  rw [h] at hcode
  exact of_decide_eq_true hcode

/-- A trap frame that is free is in two places. -/
theorem two_le_places {k : Kernel} {p pa : Nat} (hp : p < NPROC) (hframe : (k.proc p).trapframe = pa)
    (hfree : pa ∈ k.files.kmem.freelist) : 2 ≤ k.places pa := by
  have hcount := List.count_pos_iff.mpr hfree
  have hplace : 1 ≤ (k.proc p).places pa := by
    unfold Proc.places
    rw [if_pos hframe]
    omega
  have hsingle := Finset.single_le_sum (f := fun q => (k.proc q).places pa)
    (fun _ _ => Nat.zero_le _) (Finset.mem_range.mpr hp)
  unfold Kernel.places
  omega

/-- Some access is asked for in every call to `mmap`. -/
def MapsSome : Event → Prop
  | .mmap _ _ prot _ _ _ => hasBit (argint prot) PROT_READ ∨ hasBit (argint prot) PROT_WRITE ∨
    hasBit (argint prot) PROT_EXEC
  | _ => True

/-- A page that was free when the kernel started is in one place; any other is
one of those that the kernel has taken for itself, and is in none. -/
def OwnedOnce (k00 k : Kernel) (pa : Nat) : Prop :=
  if pa ∈ k00.files.kmem.freelist then k.places pa = 1 else k.places pa = 0

theorem pages_owned_once {k00 k0 k : Kernel} (hstart : Started k00 k0)
    (hrun : Run (fun k p e => SparesTrapframe k p e ∧ MapsSome e) k0 k) :
    ∀ pa, RamPage k pa → OwnedOnce k00 k pa ∧
      ∀ p q v w, MapsUser k p v pa → MapsUser k q w pa → p = q ∧ v = w := by
  obtain ⟨root, hinit⟩ := hstart.init
  have hok := wp_ok (@wp_userinit_fresh True k00 root hstart.fresh) hinit
  obtain ⟨total, hledger, htotal⟩ := hok
  have hk := run_ledger hledger hrun fun k p e hc => ⟨fun _ => hc.1, .inl trivial⟩
  intro pa hram
  have hpa : pa ≠ 0 := by
    have hkend := hk.mem.kend
    have hle := hram.2.1
    simp only [KERNBASE] at hkend
    omega
  have hplaces : k.places pa = k00.files.kmem.freelist.count pa := by
    rw [hk.places hpa, htotal hstart.code]
  refine ⟨?_, fun p q v w => MapsUser.unique hk ?_⟩
  · unfold OwnedOnce
    split
    · rename_i hmem
      rw [hplaces]
      exact List.count_eq_one_of_mem hstart.fresh.nodup hmem
    · rename_i hmem
      rw [hplaces]
      exact List.count_eq_zero.mpr hmem
  · rw [hplaces]
    exact List.nodup_iff_count_le_one.mp hstart.fresh.nodup pa

/-- A test of the condition on events, for runs without exits. -/
def ownsCheck (_ : Kernel) (_ : Nat) : Event → Bool
  | .munmap addr length => SparesFrame (argaddr addr) (argint length)
  | .exitVma => false
  | .mmap _ _ prot _ _ _ => hasBit (argint prot) PROT_READ
  | _ => true

theorem spares_of_ownsCheck (k : Kernel) (p : Nat) (e : Event) (h : ownsCheck k p e = true) :
    SparesTrapframe k p e ∧ MapsSome e := by
  cases e with
  | munmap addr length => exact ⟨fun _ => of_decide_eq_true h, trivial⟩
  | exitVma => exact absurd h Bool.false_ne_true
  | mmap addr length prot flags fd offset => exact ⟨trivial, .inl h⟩
  | _ => exact ⟨trivial, trivial⟩

/-- A process maps two pages of a file, stores to the first, unmaps it and forks:
the trap frame of the child is in one place. -/
theorem pages_owned_once_fork : ∃ k00 k0 k, Started k00 k0 ∧
    Run (fun k p e => SparesTrapframe k p e ∧ MapsSome e) k0 k ∧
    (k.proc 1).trapframe ∈ k00.files.kmem.freelist ∧ RamPage k (k.proc 1).trapframe ∧
    OwnedOnce k00 k (k.proc 1).trapframe := by
  have hevents : (bootEvents ownsCheck 1 [(0, .openFile (some 2) 2), (0, .mmap 0 8192 3 1 0 0),
      (0, .store 0x1000 0x1000 7), (0, .munmap 0x1000 4096), (0, .fork)] smallMachine).any (fun k =>
        (k.proc 1).trapframe ∈ smallMachine.files.kmem.freelist ∧
        (k.proc 1).trapframe % PGSIZE = 0 ∧ k.files.kmem.kend ≤ (k.proc 1).trapframe ∧
        (k.proc 1).trapframe < PHYSTOP) = true := by
    decide +kernel
  obtain ⟨k, hk, hfact⟩ := Option.any_eq_true _ _ |>.mp hevents
  obtain ⟨hstock, hram⟩ := of_decide_eq_true hfact
  obtain ⟨k0, hinit, _, hrun⟩ := init_of_bootEvents spares_of_ownsCheck hk
  have hstart := started_smallMachine hinit
  exact ⟨smallMachine, k0, k, hstart, hrun, hstock, hram, (pages_owned_once hstart hrun _ hram).1⟩

/-- The process maps a page of a file and unmaps its trap frame. -/
def unmapTrapframe : List (Nat × Event) :=
  [(0, .openFile (some 2) 2), (0, .mmap 0 4096 1 2 0 0), (0, .munmap 0x3fffffe000 4096)]

/-- The trap frame of a process is on the free list while the process still has
it. -/
theorem trapframe_freed : ∃ k00 k0 k pa, Started k00 k0 ∧ Run (fun _ _ _ => True) k0 k ∧
    RamPage k pa ∧ ¬OwnedOnce k00 k pa := by
  have hrun : (bootEvents (fun _ _ _ => true) 1 unmapTrapframe smallMachine).any (fun k =>
      (k.proc 0).trapframe ∈ k.files.kmem.freelist ∧
        (k.proc 0).trapframe ∈ smallMachine.files.kmem.freelist ∧
        (k.proc 0).trapframe % PGSIZE = 0 ∧ k.files.kmem.kend ≤ (k.proc 0).trapframe ∧
        (k.proc 0).trapframe < PHYSTOP) = true := by
    decide +kernel
  obtain ⟨k, hk, hfact⟩ := Option.any_eq_true _ _ |>.mp hrun
  obtain ⟨hfree, hstock, hram⟩ := of_decide_eq_true hfact
  obtain ⟨k0, hinit, _, hrun⟩ : ∃ k0, userinit 1 smallMachine = .ok ((), k0) ∧
      (k0.proc 0).state = .runnable ∧ Run (fun _ _ _ => True) k0 k :=
    init_of_bootEvents (fun _ _ _ _ => trivial) hk
  refine ⟨smallMachine, k0, k, (k.proc 0).trapframe, started_smallMachine hinit, hrun, hram, ?_⟩
  have hplaces := two_le_places (k := k) (p := 0) (by decide) rfl hfree
  unfold OwnedOnce
  rw [if_pos hstock]
  omega

end Xv6.Sys
