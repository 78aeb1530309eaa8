import Xv6.Proc.KmemOk
import Xv6.Proc.LedgerMake

/-!
# The ledger along runs

Every event keeps the ledger. The strict ledger, in which each process has
its trap frame mapped, asks of an event that it unmaps no trap frame; the
other one asks of `wait` that the processes it may free have theirs.
-/

namespace Xv6.Sys

open Xv6.Lib Xv6.Lib.CInt Xv6.Vm Function
open Act

/-- The event does not unmap the trap frame: a `munmap` that finds a mapping
has a range without it, and so does a mapping that is removed at exit. -/
def SparesTrapframe (k : Kernel) (p : Nat) : Event → Prop
  | .munmap addr length =>
    munmapSlot (k.proc p).vma (argaddr addr) (argint length) ≠ none →
      SparesFrame (argaddr addr) (argint length)
  | .exitVma => ∀ i, (k.proc p).state = .exiting i → ((k.proc p).vma i).used = true →
    SparesFrame ((k.proc p).vma i).addr ((k.proc p).vma i).length
  | _ => True

/-- A call to `wait` finds no exited process whose trap frame is gone. -/
def ReapsFramed (k : Kernel) : Event → Prop
  | .wait _ => ∀ np < NPROC, (k.proc np).state = .zombie →
    Valid ((k.proc np).pagetable.pte TRAPFRAME)
  | _ => True

section step

variable {strict : Prop} {total : Nat → Nat} {k : Kernel} {p : Nat}

theorem wp_step_ledger {e : Event} (hk : Ledger strict total none 0 k) (henabled : Enabled k p e)
    (hspares : strict → SparesTrapframe k p e) (hreaps : strict ∨ ReapsFramed k e) :
    Ends (step p e) (Ledger strict total none 0) k := by
  obtain ⟨hp, hlive⟩ := henabled.live
  cases e with
  | load sp va =>
    refine wp_ret ?_
    unfold load
    rw [wp_bind, wp_get]
    split
    · exact wp_pure.mpr hk
    · exact wp_pageFault_ledger hk hp hlive
  | store sp va b =>
    refine wp_ret ?_
    unfold store
    rw [wp_bind, wp_get]
    split
    · exact wp_onMem_ledger (.modify fun _ => rfl) hk fun _ _ _ h => h
    · exact wp_pageFault_ledger hk hp hlive
  | openFile found mode => exact stable_sysOpen_pages.stays k hk
  | pipe fdarray => exact stable_sysPipe_pages.stays k hk
  | dup fd => exact stable_sysDup_pages.stays k hk
  | close fd => exact stable_sysClose_pages.stays k hk
  | chdir found => exact stable_sysChdir_pages.stays k hk
  | read fd addr n input => exact stable_sysRead_pages.stays k hk
  | write fd addr n => exact stable_sysWrite_pages.stays k hk
  | mmap addr length prot flags fd offset => exact stable_sysMmap_pages.stays k hk
  | munmap addr length => exact wp_sysMunmap_ledger hk hp hlive hspares
  | sbrk n =>
    change wp (sysSbrk p n) _ _ _
    unfold sysSbrk
    rw [wp_bind, wp_get, wp_bind]
    refine wp_post (wp_growproc_ledger hk hp hlive henabled.2.2.2) fun r k1 hk1 => ?_
    exact wp_ite (fun _ => wp_pure.mpr hk1) fun _ => wp_pure.mpr hk1
  | fork => exact wp_fork_ledger hk hlive henabled.2.2.2
  | exec found argv => exact wp_exec_ledger hk hp hlive henabled.2.2.2
  | exit status => exact wp_ret (wp_exit_ledger hk hp hlive)
  | exitVma =>
    obtain ⟨-, i, -, hstate⟩ := henabled
    change wp (Act.get >>= _) _ _ _
    rw [wp_bind, wp_get, hstate]
    exact wp_ret (wp_exitVma_ledger hk hp hlive fun hs => hspares hs i hstate)
  | exitEnd => exact wp_ret (wp_exitEnd_ledger hk hp hlive)
  | wait addr =>
    refine wp_ret (wp_wait_ledger hk ?_)
    rcases hreaps with hs | hreaps
    · exact fun np hnp hz => (hk.tabled hnp (by rw [hz]; simp)).frame hs
    · exact hreaps

end step

/-! ## The first process -/

section boot

variable {strict : Prop} {total : Nat → Nat} {busy : Option Nat} {hand : Multiset Nat} {k : Kernel}
variable {p pa : Nat}

/-- A page that was nowhere is in hand. -/
theorem Ledger.addHand (hk : Ledger strict total busy 0 k) (hpa : PageAddr pa)
    (hnone : total pa = 0) : Ledger strict (update total pa 1) busy {pa} k where
  mem := hk.mem
  text := hk.text
  pipes := hk.pipes
  census x := by
    have hcensus := hk.census x
    rw [Multiset.count_zero] at hcensus
    by_cases hx : x = pa
    · subst hx
      rw [update_self, Multiset.count_singleton_self]
      omega
    · rw [update_of_ne hx, Multiset.count_singleton, if_neg hx]
      exact hcensus
  stock := by
    refine ⟨fun x => ?_, fun x hx => ?_⟩
    · rw [update_apply]
      split
      · exact Nat.le_refl 1
      · exact hk.stock.once x
    · rw [update_apply] at hx
      split at hx
      · rename_i heq
        rw [heq]
        exact hpa
      · exact hk.stock.page x hx
  table := hk.table

/-- The page in hand is lost. -/
theorem Ledger.dropHand (hk : Ledger strict total busy {pa} k) :
    Ledger strict (update total pa 0) busy 0 k where
  mem := hk.mem
  text := hk.text
  pipes := hk.pipes
  census x := by
    have hcensus := hk.census x
    rw [Multiset.count_zero]
    by_cases hx : x = pa
    · subst hx
      have honce := hk.stock.once x
      rw [Multiset.count_singleton_self] at hcensus
      rw [update_self]
      omega
    · rw [Multiset.count_singleton, if_neg hx] at hcensus
      rw [update_of_ne hx]
      exact hcensus
  stock := by
    refine ⟨fun x => ?_, fun x hx => ?_⟩
    · rw [update_apply]
      split
      · exact Nat.zero_le 1
      · exact hk.stock.once x
    · rw [update_apply] at hx
      split at hx
      · exact absurd hx (Nat.lt_irrefl 0)
      · exact hk.stock.page x hx
  table := hk.table

theorem Fresh.ledger (h : Fresh k) :
    Ledger strict (fun pa => k.files.kmem.freelist.count pa) none 0 k where
  mem := fresh_memOk h
  text := h.text
  pipes := by
    refine ⟨fun f hf => ?_, fun f _ => ?_, fun w pa => ?_⟩
    · rw [h.file] at hf
      exact absurd hf (by simp)
    · rw [h.file]
      simp
    · have hnone : ∀ f < NFILE, (k.files.file f).pipeEnd w = none := fun f _ => by
        rw [h.file]
        exact File.pipeEnd_none (by simp) w
      have hends : k.files.ends w pa = 0 := by
        unfold Files.ends tally
        refine Finset.sum_eq_zero fun f hf => ?_
        simp only [hnone f (Finset.mem_range.mp hf), token_none, Pi.zero_apply]
      have hshut : (k.files.pipe pa).isOpen w = false := by
        rw [h.pipe]
        cases w <;> rfl
      rw [hends, hshut]
      rfl
  census pa := by
    have hhoused : k.housed pa = 0 := by
      refine Finset.sum_eq_zero fun q _ => ?_
      rw [h.proc]
      rfl
    rw [hhoused, Multiset.count_zero, Files.loose, h.pipe]
    rfl
  stock := by
    refine ⟨List.nodup_iff_count_le_one.mp h.nodup, fun pa hpa => ?_⟩
    exact (fresh_memOk h).pageAddr (List.count_pos_iff.mp hpa)
  table q _ _ := by
    rw [h.proc]
    exact ⟨rfl, rfl⟩

/-- The first process gets its page, or `userinit` loses it. -/
theorem wp_mapFirst_ledger (hk : Building strict total p {pa} k)
    (hp : p < NPROC) (hpa : PageAddr pa) (hempty : ¬Valid ((k.proc p).pagetable.pte 0)) :
    wp (onPagetable p fun pt => mappages pt 0 PGSIZE pa (PTE_W ||| PTE_R ||| PTE_X ||| PTE_U))
      (fun _ k' => k'.files.kmem.kend = k.files.kmem.kend ∧ (∀ q ≠ p, k'.proc q = k.proc q) ∧
        ∃ total', Building strict total' p 0 k' ∧ (Valid ((k'.proc p).pagetable.pte 0) →
          total' = total ∧ pte2pa ((k'.proc p).pagetable.pte 0) = pa)) (fun _ => True) k := by
  have htable := hk.table
  rw [wp_onPagetable]
  refine wp_mappages (by decide) (by decide) ?_ ?_
  · intro pt m _ hwalked
    have hk1 : Ledger strict total (some p) {pa} _ := hk.ledger.setTable hp htable.addr
      hwalked.toKeeps hwalked.addr (by rw [hwalked.held]) fun h => absurd rfl h
    refine ⟨hwalked.kend, fun q hq => update_of_ne hq _ _, _, ⟨hk1.dropHand, ?_, ?_⟩,
      fun hv => ?_⟩
    · simp only [update_self]
      exact hk.trapframe
    · simp only [update_self]
      exact htable.moves ⟨hwalked.toKeeps, hwalked.addr, hwalked.pte _, hwalked.held⟩ (hwalked.pte _)
    · simp only [update_self, hwalked.pte] at hv
      exact absurd hv hempty
  · intro pt m _ hmap
    obtain ⟨htramp, hsame, hpages⟩ := hmap.low hpa (by decide) (by decide)
    refine ⟨hmap.kend, fun q hq => update_of_ne hq _ _, total,
      ⟨hk.ledger.setTable hp htable.addr hmap.toKeeps hmap.addr ?_ fun h => absurd rfl h, ?_, ?_⟩,
      fun _ => ⟨rfl, ?_⟩⟩
    · rw [hpages, add_zero]
    · simp only [update_self]
      exact hk.trapframe
    · simp only [update_self]
      refine ⟨?_, htable.tramp.of_pte htramp hmap.kend, hsame.valid htable.frame, ?_⟩
      · rw [hmap.addr]
        exact htable.addr
      · rw [hsame]
        exact htable.page
    · simp only [update_self]
      rw [hmap.pte 0 (by decide), if_pos rfl, pte2pa_mkPte hpa (by decide)]

/-- A page for the first process: without memory for it, it is page 0. -/
theorem wp_firstPage_ledger {k0 : Kernel} (hk : Allocated strict total p k0 k)
    (hzero : total 0 = 0) :
    wp (onMem kalloc) (fun r k' => PageAddr (r.getD 0) ∧ k'.proc = k.proc ∧
      k'.files.kmem.kend = k.files.kmem.kend ∧ ∃ total', Building strict total' p {r.getD 0} k' ∧
        (r.getD 0 ≠ 0 → total' = total)) (fun _ => True) k := by
  refine wp_kalloc_ledger hk.ledger ?_ fun pa k' hproc hkeeps hpa _ hk' => ?_
  · have hpage : PageAddr 0 := ⟨rfl, by decide⟩
    exact ⟨hpage, rfl, rfl, _, ⟨hk.ledger.addHand hpage hzero, hk.trapframe, hk.table⟩,
      fun h => absurd rfl h⟩
  · rw [add_zero] at hk'
    refine ⟨hpa, hproc, hkeeps.kend, total, ⟨hk', ?_, ?_⟩, fun _ => rfl⟩
    · rw [hproc]
      exact hk.trapframe
    · rw [hproc]
      exact hk.table.keeps hkeeps

/-- The first process has a page of memory for its code. -/
def HasCode (k : Kernel) : Prop :=
  Valid ((k.proc 0).pagetable.pte 0) ∧
    k.files.kmem.kend ≤ pte2pa ((k.proc 0).pagetable.pte 0)

theorem wp_userinit_ledger {root : Nat} (hk : Ledger strict total none 0 k) (hzero : total 0 = 0)
    (hproc : ¬Valid ((k.proc 0).pagetable.pte 0)) :
    wp (userinit root) (fun _ k' => ∃ total', Ledger strict total' none 0 k' ∧
      (HasCode k' → total' = total)) (fun _ => True) k := by
  unfold userinit
  rw [wp_bind]
  refine wp_allocproc_ledger hk (fun k1 hk1 => wp_pure.mpr ⟨_, hk1, fun _ => rfl⟩) fun p k1 hk1 => ?_
  rw [wp_bind]
  refine wp_post (wp_firstPage_ledger hk1 hzero) ?_
  rintro r k2 ⟨hpa, hproc2, hkend2, total2, hk2, htotal2⟩
  extract_lets mem
  rw [wp_bind]
  have hset : Keeps Kmem.bare (memset mem 0) := .modify fun _ => rfl
  have hholds : ∀ s : Files, s.PipesOk → Ends (onKmem (memset mem 0)) s.Holds s := by
    intro s hs
    rw [Ends, wp_onKmem]
    refine hset.wp fun _ m hm => ?_
    refine ⟨.of_bare hm, hs.congr (fun _ => rfl) (fun _ _ => rfl) hs.closed rfl, fun x => ?_⟩
    unfold Files.loose
    rw [(Kmem.eq_of_bare hm).2.2]
  refine wp_onFiles_building hholds hk2 fun _ k3 hproc3 hkeeps3 hk3 => ?_
  rw [wp_bind]
  have hempty : ¬Valid ((k3.proc p).pagetable.pte 0) := by
    rw [hproc3, hproc2]
    exact hk1.empty 0 (by decide)
  refine wp_post (wp_mapFirst_ledger hk3 hk1.lt hpa hempty) ?_
  rintro _ k4 ⟨hkend4, hrest4, total4, hk4, htotal4⟩
  rw [wp_bind]
  refine wp_onFiles_building (fun s hs => ?_) hk4 fun cwd k5 hproc5 hkeeps5 hk5 => ?_
  · exact keeps_iget.wp (fun _ _ heq => .of_uncached hs heq)
  have hdone := wp_finish_building (f := fun pr => { pr with
    sz := PGSIZE, cwd := some cwd, state := .runnable, image := fun v => v = 0,
    regs := { pr.regs with epc := 0, sp := PGSIZE } }) hk5 hk1.lt rfl rfl rfl
  rw [Ends, wp_setProc] at hdone
  rw [wp_setProc]
  refine ⟨total4, hdone, ?_⟩
  rintro ⟨hvalid, hpage⟩
  by_cases hp : p = 0
  · subst hp
    simp only [update_self] at hvalid hpage
    rw [hproc5] at hvalid hpage
    obtain ⟨htotal, heq⟩ := htotal4 hvalid
    have hkend := hk5.ledger.mem.kend
    refine htotal.trans (htotal2 fun h0 => ?_)
    rw [heq] at hpage
    simp only [KERNBASE] at hkend
    have hmem : mem = 0 := h0
    omega
  · -- another slot was taken, and slot 0 is as before
    have htable : (k1.proc 0).pagetable = (k.proc 0).pagetable :=
      congrArg Tenant.pagetable (hk1.rest 0 (Ne.symm hp))
    simp only [update_of_ne (Ne.symm hp)] at hvalid
    rw [hproc5, hrest4 0 (Ne.symm hp), hproc3, hproc2, htable] at hvalid
    exact absurd hvalid hproc

theorem wp_userinit_fresh {root : Nat} (h : Fresh k) :
    wp (userinit root) (fun _ k' => ∃ total', Ledger strict total' none 0 k' ∧
      (HasCode k' → total' = fun pa => k.files.kmem.freelist.count pa)) (fun _ => True) k := by
  refine wp_userinit_ledger h.ledger ?_ ?_
  · rw [List.count_eq_zero]
    intro hmem
    have hram := (h.ram 0 hmem).2.1
    have hkend := h.kend
    simp only [KERNBASE] at hkend
    omega
  · rw [h.proc]
    exact not_valid_zero

/-- The ledger of a machine that has started. -/
theorem Boot.ledger (h : Boot k) : ∃ total, Ledger strict total none 0 k := by
  obtain ⟨k0, root, hfresh, hinit, -⟩ := h
  have hok := wp_ok (@wp_userinit_fresh strict k0 root hfresh) hinit
  obtain ⟨total, hledger, -⟩ := hok
  exact ⟨total, hledger⟩

end boot

/-- The ledger in every state of a run. -/
theorem run_ledger {strict : Prop} {total : Nat → Nat} {cond : Kernel → Nat → Event → Prop}
    {k0 k : Kernel} (h0 : Ledger strict total none 0 k0) (hrun : Run cond k0 k)
    (hcond : ∀ k p e, cond k p e → (strict → SparesTrapframe k p e) ∧ (strict ∨ ReapsFramed k e)) :
    Ledger strict total none 0 k := by
  refine run_invariant hrun h0 fun k p e r k' hk henabled hc hstep => ?_
  obtain ⟨hspares, hreaps⟩ := hcond k p e hc
  have hok := wp_ok (wp_step_ledger hk henabled hspares hreaps) hstep
  exact hok

end Xv6.Sys
