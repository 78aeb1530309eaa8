import Xv6.Proc.LedgerCalls

/-!
# Tables that are made and freed

`allocproc`, `fork`, `exec` and `wait` make a page table or free one. While
the table is made the slot of its process is left out of the ledger's
condition on tables (`busy`), and the pages of an image that no process has
yet are in hand. Every error exit gives them back.
-/

namespace Xv6.Sys

open Xv6.Lib Xv6.Lib.CInt Xv6.Vm Function
open Act

variable {α : Type} {m : Kmem} {f : Proc → Proc}

/-! ## A new process -/

section make

variable {strict : Prop} {total : Nat → Nat} {hand : Multiset Nat} {k : Kernel} {p np : Nat}

theorem TableFor.tabled {trapframe : Nat} {pt : PageTable} {pr : Proc}
    (h : TableFor trapframe pt m) (hne : trapframe ≠ 0) (htable : pr.pagetable = pt)
    (hframe : pr.trapframe = trapframe) : pr.Tabled strict m := by
  subst htable hframe
  exact ⟨h.addr, h.tramp, hne, fun _ => h.page, fun _ => h.frame⟩

theorem TableFor.keeps {trapframe : Nat} {pt : PageTable} {m' : Kmem}
    (h : TableFor trapframe pt m) (hm : m.Keeps m') : TableFor trapframe pt m' :=
  ⟨h.addr, h.tramp.keeps hm, h.frame, h.page⟩

/-- The process that is made has a trap frame, and a page table that maps
it. -/
structure Building (strict : Prop) (total : Nat → Nat) (np : Nat) (hand : Multiset Nat) (k : Kernel) :
    Prop where
  ledger : Ledger strict total (some np) hand k
  trapframe : (k.proc np).trapframe ≠ 0
  table : TableFor (k.proc np).trapframe (k.proc np).pagetable k.files.kmem

theorem wp_onFiles_building {m : FilesM α} {Q : α → Kernel → Prop}
    (hm : ∀ s : Files, s.PipesOk → Ends m s.Holds s) (hk : Building strict total np hand k)
    (h : ∀ a k', k'.proc = k.proc → k.files.kmem.Keeps k'.files.kmem →
      Building strict total np hand k' → Q a k') : wp (onFiles m) Q (fun _ => True) k := by
  rw [wp_onFiles]
  refine wp_post (hm _ hk.ledger.pipes) fun a s' hs' => ?_
  exact h a _ rfl hs'.toKeeps
    ⟨hk.ledger.holds hs', hk.trapframe, hk.table.keeps hs'.toKeeps⟩

theorem stable_onFiles_building {m : FilesM α} (hm : ∀ s : Files, s.PipesOk → Ends m s.Holds s) :
    Stable (Building strict total np hand) (onFiles m) :=
  ⟨fun _ hk => wp_onFiles_building hm hk fun _ _ _ _ hk' => hk'⟩

theorem stable_setTenant_building (h : ∀ pr, (f pr).tenant = pr.tenant) :
    Stable (Building strict total np hand) (setProc np f) := by
  have htable : ∀ pr, (f pr).pagetable = pr.pagetable := fun pr => congrArg Tenant.pagetable (h pr)
  have hframe : ∀ pr, (f pr).trapframe = pr.trapframe := fun pr => congrArg Tenant.trapframe (h pr)
  refine ⟨fun k hk => ?_⟩
  have hledger := (stable_setTenant (p := np) h).stays k hk.ledger
  rw [wp_setProc] at hledger ⊢
  refine ⟨hledger, ?_, ?_⟩
  · simp only [update_self, hframe]
    exact hk.trapframe
  · simp only [update_self, hframe, htable]
    exact hk.table

/-- The process that is made comes into use. -/
theorem wp_finish_building (hk : Building strict total np 0 k) (hnp : np < NPROC)
    (hstate : (f (k.proc np)).state = .runnable)
    (htable : (f (k.proc np)).pagetable = (k.proc np).pagetable)
    (hframe : (f (k.proc np)).trapframe = (k.proc np).trapframe) :
    Ends (setProc np f) (Ledger strict total none 0) k := by
  rw [Ends, wp_setProc]
  refine Ledger.finish (hk.ledger.setProc hnp ?_ fun h => absurd rfl h) fun _ => ?_
  · unfold Proc.pages
    rw [htable]
  · simp only [update_self]
    exact (hk.table.tabled hk.trapframe htable hframe).tableOk (by simp [hstate])

/-- The slot that `allocproc` has taken: it has a trap frame and a page table,
and is not in use yet. -/
structure Allocated (strict : Prop) (total : Nat → Nat) (np : Nat) (k k' : Kernel) : Prop
    extends Building strict total np 0 k' where
  lt : np < NPROC
  unused : (k.proc np).state = .unused
  empty : ∀ x, x < TRAPFRAME → ¬Valid ((k'.proc np).pagetable.pte x)
  rest : ∀ q, q ≠ np → (k'.proc q).tenant = (k.proc q).tenant

theorem find_unused {np : Nat} (h : (List.range NPROC).find?
    (fun q => decide ((k.proc q).state = .unused)) = some np) :
    np < NPROC ∧ (k.proc np).state = .unused := by
  have hstate := List.find?_some h
  exact ⟨List.mem_range.mp (List.mem_of_find?_eq_some h), of_decide_eq_true hstate⟩

theorem Ledger.blank {busy : Option Nat} {hand : Multiset Nat}
    (hk : Ledger strict total busy hand k) (hbusy : busy ≠ some p) (hp : p < NPROC)
    (hunused : (k.proc p).state = .unused) :
    (k.proc p).pagetable.addr = 0 ∧ (k.proc p).trapframe = 0 := by
  have htable := hk.table p hbusy hp
  unfold Proc.TableOk at htable
  rw [hunused] at htable
  exact htable

theorem wp_setBusy_ledger {hand : Multiset Nat}
    (hand' : Multiset Nat) {Q : Unit → Kernel → Prop} (hk : Ledger strict total (some p) hand k)
    (hp : p < NPROC) (hpages : (f (k.proc p)).pages + hand' = (k.proc p).pages + hand)
    (h : ∀ k', k'.files = k.files → k'.proc = update k.proc p (f (k.proc p)) →
      Ledger strict total (some p) hand' k' → Q () k') : wp (setProc p f) Q (fun _ => True) k := by
  rw [wp_setProc]
  exact h _ rfl rfl (hk.setProc hp hpages fun h => absurd rfl h)

theorem wp_allocproc_ledger {Q : Option Nat → Kernel → Prop} (hk : Ledger strict total none 0 k)
    (hnone : ∀ k', Ledger strict total none 0 k' → Q none k')
    (hsome : ∀ np k', Allocated strict total np k k' → Q (some np) k') :
    wp allocproc Q (fun _ => True) k := by
  unfold allocproc
  rw [wp_bind, wp_get]
  split
  · exact wp_pure.mpr (hnone k hk)
  rename_i np hfind
  obtain ⟨hnp, hunused⟩ := find_unused hfind
  obtain ⟨haddr, hframe⟩ := hk.blank (by simp) hnp hunused
  have hblank : (k.proc np).pages = 0 := if_pos haddr
  rw [wp_bind, wp_modify, wp_bind]
  have hk0 : Ledger strict total (some np) 0 { k with nextpid := k.nextpid + 1 } :=
    hk.start.congr rfl fun _ => rfl
  refine wp_setBusy_ledger 0 hk0 hnp rfl fun k1 _ hproc1 hk1 => ?_
  have hpr1 : k1.proc np = { k.proc np with pid := k.nextpid } := by
    rw [hproc1, update_self]
  have hrest1 : ∀ q ≠ np, k1.proc q = k.proc q := fun q hq => by
    rw [hproc1, update_of_ne hq]
  have hpages1 : (k1.proc np).pages = 0 := by
    rw [hpr1]
    exact hblank
  rw [wp_bind]
  refine wp_kalloc_ledger hk1 ?_ fun tf k2 hproc2 _ htf hne hk2 => ?_
  · rw [wp_bind]
    refine wp_setBusy_ledger 0 hk1 hnp rfl fun k2 _ hproc2 hk2 => wp_pure.mpr ?_
    refine hnone k2 (hk2.finish fun _ => ?_)
    rw [hproc2, update_self, hpr1]
    unfold Proc.TableOk
    rw [hunused]
    exact ⟨haddr, rfl⟩
  rw [add_zero] at hk2
  rw [wp_bind]
  refine wp_setBusy_ledger {tf} hk2 hnp rfl fun k3 hfiles3 hproc3 hk3 => ?_
  have hpr3 : k3.proc np = { k.proc np with pid := k.nextpid, trapframe := tf } := by
    rw [hproc3, update_self, hproc2, hpr1]
  have hpages3 : (k3.proc np).pages = 0 := by
    rw [hpr3]
    exact hblank
  have hrest3 : ∀ q ≠ np, k3.proc q = k.proc q := fun q hq => by
    rw [hproc3, update_of_ne hq, hproc2, hrest1 q hq]
  rw [wp_bind, wp_onMem]
  refine wp_post (wp_procPagetable hk3.mem hk3.text htf) ?_
  rintro (_ | pt) m4 ⟨hkeeps4, hpages4⟩
  · -- there was no memory for the page table
    have hk4 := hk3.setKmem hkeeps4 (congrArg (· + {tf}) hpages4)
    rw [wp_bind]
    refine wp_setBusy_ledger {tf} hk4 hnp ?_ fun k5 _ hproc5 hk5 => ?_
    · rw [hpages3]
      rfl
    have htf5 : (k5.proc np).trapframe = tf := by
      rw [hproc5, update_self, hpr3]
    rw [wp_bind]
    refine wp_post (wp_freeproc_framed (by rw [htf5]; exact hk5) hnp (by rw [htf5]; exact hne) ?_)
      (fun _ k6 hk6 => wp_pure.mpr (hnone k6 hk6))
    rw [hproc5, update_self]
    rfl
  · obtain ⟨htable, hempty, hpages4⟩ := hpages4
    have hk4 := hk3.setKmem hkeeps4 hpages4
    rw [wp_bind]
    refine wp_setBusy_ledger 0 hk4 hnp ?_ fun k5 hfiles5 hproc5 hk5 => ?_
    · have hnew : Proc.pages { k3.proc np with pagetable := pt, vma := fun _ => {} } =
          pagesOf pt := if_neg htable.addr
      rw [hpages3, hnew]
      abel
    have hpr5 : k5.proc np = { k3.proc np with pagetable := pt, vma := fun _ => {} } := by
      rw [hproc5, update_self]
    refine wp_pure.mpr (hsome np k5 ⟨⟨hk5, ?_, ?_⟩, hnp, hunused, ?_, fun q hq => ?_⟩)
    · rw [hpr5, hpr3]
      exact hne
    · rw [hpr5, hpr3, hfiles5]
      exact htable
    · rw [hpr5]
      exact hempty
    · rw [hproc5, update_of_ne hq, hrest3 q hq]

/-- A change to the table of the process that is made. -/
theorem wp_onPagetable_building {m : PageTable → KmemM (PageTable × α)} {Q : α → Kernel → Prop}
    (hk : Building strict total np 0 k) (hnp : np < NPROC)
    (hm : wp (m (k.proc np).pagetable) (fun r m' =>
      Moves (k.proc np).pagetable k.files.kmem r.1 m' ∧ SameFrame (k.proc np).pagetable r.1)
      (fun _ => True) k.files.kmem) (h : ∀ a k', Building strict total np 0 k' → Q a k') :
    wp (onPagetable np m) Q (fun _ => True) k := by
  rw [wp_onPagetable]
  refine wp_post hm ?_
  rintro ⟨pt, a⟩ m' ⟨hmoves, hframe⟩
  refine h a _ ⟨hk.ledger.setTable hnp hk.table.addr hmoves.toKeeps hmoves.addr ?_
    fun h => absurd rfl h, ?_, ?_⟩
  · rw [add_zero, add_zero]
    exact hmoves.pages
  · simp only [update_self]
    exact hk.trapframe
  · simp only [update_self]
    exact hk.table.moves hmoves hframe

theorem stable_forkFiles_building : Stable (Building strict total np hand) (forkFiles p np) := by
  refine .iter (fun fd _ => .bind .get fun k => ?_) _ _ _
  split
  · exact .pure
  · exact .bind (stable_onFiles_building fun _ hs => wp_filedup_holds hs) fun _ =>
      stable_setTenant_building fun _ => rfl

theorem stable_forkCwd_building : Stable (Building strict total np hand) (forkCwd p np) := by
  refine .bind .get fun k => ?_
  split
  · exact .pure
  · refine .bind (stable_onFiles_building fun s hs => ?_) fun _ =>
      stable_setTenant_building fun _ => rfl
    exact keeps_idup.wp (fun _ _ heq => .of_uncached hs heq)

theorem stable_forkVmas_building : Stable (Building strict total np hand) (forkVmas p np) := by
  refine .iter (fun i _ => .bind .get fun k => ?_) _ _ _
  extract_lets v
  split
  · exact .bind (stable_setTenant_building fun _ => by rfl) fun _ =>
      stable_onFiles_building fun _ hs => wp_filedup_holds hs
  · exact .pure

theorem wp_fork_ledger (hk : Ledger strict total none 0 k) (hlive : (k.proc p).state ≠ .unused)
    (hframe : Valid ((k.proc p).pagetable.pte TRAPFRAME)) :
    Ends (fork p) (Ledger strict total none 0) k := by
  unfold Ends fork
  rw [wp_bind]
  refine wp_allocproc_ledger hk (fun k1 hk1 => wp_pure.mpr hk1) fun np k1 hk1 => ?_
  have hne : p ≠ np := fun heq => hlive (heq ▸ hk1.unused)
  have hparent : (k1.proc p).pagetable = (k.proc p).pagetable :=
    congrArg Tenant.pagetable (hk1.rest p hne)
  rw [wp_bind, wp_get, wp_bind]
  refine wp_onPagetable_building hk1.toBuilding hk1.lt ?_ fun r k2 hk2 => ?_
  · refine wp_uvmcopy_moves hk1.ledger.mem hk1.table.tramp ?_ ⟨hk1.table.frame, hk1.empty⟩
    rw [hparent]
    exact hframe
  split
  · exact wp_ret (wp_freeproc_tabled hk2.ledger hk1.lt hk2.trapframe hk2.table)
  rw [wp_bind]
  refine wp_post ((stable_setTenant_building fun _ => by rfl).stays k2 hk2) fun _ k3 hk3 => ?_
  rw [wp_bind]
  refine wp_post (stable_forkFiles_building.stays k3 hk3) fun _ k4 hk4 => ?_
  rw [wp_bind]
  refine wp_post (stable_forkCwd_building.stays k4 hk4) fun _ k5 hk5 => ?_
  rw [wp_bind]
  refine wp_post (stable_forkVmas_building.stays k5 hk5) fun _ k6 hk6 => ?_
  rw [wp_bind]
  refine wp_post (wp_finish_building hk6 hk1.lt rfl rfl rfl) fun _ k7 hk7 => ?_
  rw [wp_bind, wp_get]
  exact wp_pure.mpr hk7

end make

/-! ## `exec` -/

/-- The pages of a table, all but the trap frame. -/
def imagePages (trapframe : Nat) (pt : PageTable) : Multiset Nat :=
  pagesOf pt - {trapframe}

theorem TableFor.imagePages_add {trapframe : Nat} {pt : PageTable} (h : TableFor trapframe pt m) :
    imagePages trapframe pt + {trapframe} = pagesOf pt := by
  have hpos := h.count_pagesOf_pos
  unfold imagePages
  generalize pagesOf pt = pages at hpos ⊢
  exact tsub_add_cancel_of_le (Multiset.singleton_le.mpr (Multiset.count_pos.mp hpos))

section exec

variable {strict : Prop} {total : Nat → Nat} {k : Kernel} {p trapframe : Nat}
variable {pt : PageTable}

/-- The pages of an image that no process has are in hand, all but the trap
frame. -/
structure Imaged (strict : Prop) (total : Nat → Nat) (trapframe : Nat) (pt : PageTable)
    (k : Kernel) : Prop where
  ledger : Ledger strict total none (imagePages trapframe pt) k
  table : TableFor trapframe pt k.files.kmem

theorem Imaged.fill {image : PageTable × Nat} (h : Imaged strict total trapframe pt k)
    (hfill : Filled pt k.files.kmem image m) :
    Imaged strict total trapframe image.1 { k with files.kmem := m } := by
  have htable := h.table.moves hfill.moves hfill.frame
  refine ⟨h.ledger.setKmem hfill.moves.toKeeps ?_, htable⟩
  have hpages := hfill.moves.pages
  rw [← htable.imagePages_add, ← h.table.imagePages_add, ← add_assoc, ← add_assoc] at hpages
  exact add_right_cancel hpages

/-- The image is given up, or is the old one. -/
theorem wp_procFreepagetable_imaged {sz : Nat} (hk : Imaged strict total trapframe pt k) :
    wp (onMem (procFreepagetable pt sz)) (fun _ k' => Ledger strict total none 0 k' ∧
      k'.proc = k.proc ∧ ∀ x ∉ k'.files.kmem.freelist, k'.files.kmem.mem x = k.files.kmem.mem x)
      (fun _ => True) k := by
  rw [wp_onMem]
  refine wp_post wp_procFreepagetable ?_
  rintro _ m ⟨ps, hfreed, hpages⟩
  refine ⟨hk.ledger.setKmem hfreed.toKeeps ?_, rfl, hfreed.mem⟩
  rw [hk.table.leafPart, ← hk.table.imagePages_add] at hpages
  rw [add_zero, hfreed.freelist, add_right_cancel hpages]

theorem wp_execImage_ledger {ip : DInode} {elf : Bytes} {put : FilesM Unit}
    {Q : Option (PageTable × Nat) → Kernel → Prop}
    (hput : Keeps Files.uncached put) (hk : Imaged strict total trapframe pt k)
    (hnone : ∀ k', Ledger strict total none 0 k' → Q none k')
    (hsome : ∀ pt' sz k', k'.proc = k.proc → Imaged strict total trapframe pt' k' →
      StackPage pt' sz → Q (some (pt', sz)) k') :
    wp (execImage ip elf put pt) Q (fun _ => True) k := by
  unfold execImage
  rw [wp_bind, wp_onMem]
  refine wp_post (wp_loadProgram hk.ledger.mem hk.table) ?_
  rintro (⟨pagetable1, sz1⟩ | ⟨pagetable1, sz1⟩) m1 hfill1
  · have hk1 := hk.fill hfill1
    rw [wp_bind, wp_onFiles]
    refine hput.wp fun _ s2 heq => ?_
    have hholds := Files.Holds.of_uncached hk1.ledger.pipes heq
    have hk2 : Imaged strict total trapframe pagetable1 { k with files := s2 } :=
      ⟨hk1.ledger.holds hholds, hk1.table.keeps hholds.toKeeps⟩
    rw [wp_bind, wp_onMem]
    refine wp_post (wp_allocStack hk2.ledger.mem hk2.table hfill1.size) ?_
    rintro ⟨pagetable3, sz3, ok⟩ m3 ⟨hfill3, hstack⟩
    have hk3 := hk2.fill hfill3
    refine wp_ite (fun hok => wp_pure.mpr (hsome _ _ _ rfl hk3 (hstack hok))) fun _ => ?_
    rw [wp_bind]
    exact wp_post (wp_procFreepagetable_imaged hk3)
      (fun _ k4 hk4 => wp_pure.mpr (hnone k4 hk4.1))
  · have hk1 := hk.fill hfill1
    rw [wp_bind]
    refine wp_post (wp_procFreepagetable_imaged hk1) fun _ k2 hk2 => ?_
    rw [wp_bind]
    exact wp_onFiles_ledger (stable_uncached hput) hk2.1 fun _ k3 _ hk3 => wp_pure.mpr (hnone k3 hk3)

theorem Proc.Tabled.tableFor {pr : Proc} (h : pr.Tabled strict m)
    (hv : Valid (pr.pagetable.pte TRAPFRAME)) : TableFor pr.trapframe pr.pagetable m :=
  ⟨h.addr, h.tramp, hv, h.page hv⟩

/-- The trap frame is a page of the stock. -/
theorem Ledger.pageAddr_trapframe (hk : Ledger strict total none 0 k) (hp : p < NPROC)
    (htable : TableFor (k.proc p).trapframe (k.proc p).pagetable k.files.kmem) :
    PageAddr (k.proc p).trapframe := by
  refine hk.stock.page _ ?_
  rw [← hk.census]
  have hpos : 0 < (k.proc p).pages.count (k.proc p).trapframe := by
    unfold Proc.pages
    rw [if_neg htable.addr]
    exact htable.count_pagesOf_pos
  have hle := Kernel.pages_le_housed (k := k) hp (k.proc p).trapframe
  omega

/-- The process takes the new image, and the old one is in hand. -/
theorem wp_swap_imaged (hk : Imaged strict total (k.proc p).trapframe pt k) (hp : p < NPROC)
    (hstate : (k.proc p).state ≠ .unused)
    (hold : TableFor (k.proc p).trapframe (k.proc p).pagetable k.files.kmem)
    (hframe : (k.proc p).trapframe ≠ 0)
    (hf : (f (k.proc p)).tenant = ⟨(k.proc p).state, pt, (k.proc p).trapframe⟩) :
    Ends (setProc p f) (Imaged strict total (k.proc p).trapframe (k.proc p).pagetable) k := by
  unfold Ends
  rw [wp_setProc]
  have hst : (f (k.proc p)).state = (k.proc p).state := congrArg Tenant.state hf
  have hpt : (f (k.proc p)).pagetable = pt := congrArg Tenant.pagetable hf
  have htf : (f (k.proc p)).trapframe = (k.proc p).trapframe := congrArg Tenant.trapframe hf
  refine ⟨hk.ledger.setProc hp ?_ fun _ => ?_, hold⟩
  · unfold Proc.pages
    rw [hpt, if_neg hk.table.addr, if_neg hold.addr, ← hk.table.imagePages_add,
      ← hold.imagePages_add]
    abel
  · exact (hk.table.tabled hframe hpt htf).tableOk (by rw [hst]; exact hstate)

theorem wp_execLoad_ledger {found : Option Nat} {Q : Option (Nat × PageTable × Nat) → Kernel → Prop}
    (hk : Ledger strict total none 0 k) (hp : p < NPROC)
    (hstate : (k.proc p).state ≠ .unused) (hv : Valid ((k.proc p).pagetable.pte TRAPFRAME))
    (hnone : ∀ k', Ledger strict total none 0 k' → Q none k')
    (hsome : ∀ entry pt sz k', k'.proc = k.proc →
      Imaged strict total (k.proc p).trapframe pt k' → StackPage pt sz →
      Q (some (entry, pt, sz)) k') : wp (execLoad p found) Q (fun _ => True) k := by
  cases found with
  | none => exact wp_pure.mpr (hnone k hk)
  | some inum =>
    unfold execLoad
    rw [wp_bind]
    refine wp_onFiles_ledger (stable_uncached keeps_iget) hk fun i k1 hproc1 hk1 => ?_
    rw [wp_bind]
    refine wp_onFiles_ledger (stable_uncached keeps_ilock) hk1 fun _ k2 hproc2 hk2 => ?_
    rw [wp_bind, wp_get]
    have hproc : k2.proc = k.proc := hproc2.trans hproc1
    rw [← hproc] at hstate hv hsome
    have hold := (hk2.tabled hp hstate).tableFor hv
    have hput : ∀ k', Ledger strict total none 0 k' →
        wp (do onFiles (iput i); pure none) Q (fun _ => True) k' := by
      intro k' hk'
      rw [wp_bind]
      exact wp_onFiles_ledger (stable_uncached keeps_iput) hk' fun _ k'' _ h =>
        wp_pure.mpr (hnone k'' h)
    extract_lets ip
    split
    rename_i elf r _
    refine wp_ite (fun _ => hput k2 hk2) fun _ => ?_
    rw [wp_bind, wp_onMem]
    refine wp_post (wp_procPagetable hk2.mem hk2.text (hk2.pageAddr_trapframe hp hold)) ?_
    rintro (_ | pagetable3) m3 ⟨hkeeps3, hpages3⟩
    · exact hput _ (hk2.setKmem hkeeps3 (congrArg (· + 0) hpages3))
    obtain ⟨htable3, _, hpages3⟩ := hpages3
    rw [← htable3.imagePages_add, ← add_assoc] at hpages3
    have hk3 : Imaged strict total (k2.proc p).trapframe pagetable3
        { k2 with files.kmem := m3 } := by
      refine ⟨hk2.setKmem hkeeps3 ?_, htable3⟩
      rw [add_zero]
      exact add_right_cancel hpages3
    change wp (execImage ip elf (iput i) pagetable3 >>= _) _ _ _
    rw [wp_bind]
    refine wp_execImage_ledger keeps_iput hk3 (fun k4 hk4 => wp_pure.mpr (hnone k4 hk4)) ?_
    exact fun pagetable4 sz4 k4 hproc4 hk4 hstack =>
      wp_pure.mpr (hsome _ pagetable4 sz4 k4 hproc4 hk4 hstack)

theorem Imaged.setMem (h : Imaged strict total trapframe pt k) (mem : Nat → Bytes) :
    Imaged strict total trapframe pt { k with files.kmem.mem := mem } := by
  have hfill : Filled pt k.files.kmem (pt, 0) { k.files.kmem with mem := mem } :=
    ⟨.of_bare rfl, .refl, Nat.zero_le _⟩
  exact h.fill hfill

/-- The process as `exec` leaves it. -/
def Proc.replaced (pr : Proc) (entry : Nat) (pt : PageTable) (sz sp : Nat) : Proc :=
  { pr with
    pagetable := pt, sz := sz, image := fun v => v * PGSIZE < sz,
    regs := { epc := entry, sp := sp, a1 := sp } }

theorem wp_execCommit_ledger {entry sz : Nat} {argv : List (List UInt8)} {Q : Int → Kernel → Prop}
    (hk : Imaged strict total (k.proc p).trapframe pt k) (hp : p < NPROC)
    (hstate : (k.proc p).state ≠ .unused) (hv : Valid ((k.proc p).pagetable.pte TRAPFRAME))
    (hnone : ∀ mem k', pushStack pt sz argv k.files.kmem.mem = (mem, none) →
      Ledger strict total none 0 k' → Q (-1) k')
    (hsome : ∀ mem sp k', pushStack pt sz argv k.files.kmem.mem = (mem, some sp) →
      Ledger strict total none 0 k' → k'.proc p = (k.proc p).replaced entry pt sz sp →
      (∀ x ∉ k'.files.kmem.freelist, k'.files.kmem.mem x = mem x) → Q argv.length k') :
    wp (execCommit p entry argv pt sz) Q (fun _ => True) k := by
  unfold execCommit
  rw [wp_bind, wp_get]
  split
  · rename_i mem hpush
    rw [wp_bind, wp_onMem, wp_modify, wp_bind]
    exact wp_post (wp_procFreepagetable_imaged (hk.setMem mem))
      (fun _ k2 hk2 => wp_pure.mpr (hnone mem k2 hpush hk2.1))
  · rename_i mem sp hpush
    have hk1 := hk.setMem mem
    have htabled := hk1.ledger.tabled hp hstate
    rw [wp_bind, wp_onMem, wp_modify, wp_bind]
    have hswap := wp_swap_imaged
      (k := { k with files.kmem.mem := mem })
      (f := fun pr => pr.replaced entry pt sz sp) hk1 hp hstate (htabled.tableFor hv)
      htabled.trapframe rfl
    rw [Ends, wp_setProc] at hswap
    rw [wp_setProc]
    rw [wp_bind]
    refine wp_post (wp_procFreepagetable_imaged hswap) ?_
    rintro _ k3 ⟨hk3, hproc3, hmem3⟩
    refine wp_pure.mpr (hsome mem sp k3 hpush hk3 ?_ hmem3)
    rw [hproc3]
    exact update_self ..

theorem wp_exec_ledger {found : Option Nat} {argv : List (List UInt8)}
    (hk : Ledger strict total none 0 k) (hp : p < NPROC) (hstate : (k.proc p).state ≠ .unused)
    (hv : Valid ((k.proc p).pagetable.pte TRAPFRAME)) :
    Ends (exec p found argv) (Ledger strict total none 0) k := by
  unfold Ends exec
  rw [wp_bind]
  refine wp_execLoad_ledger hk hp hstate hv (fun k1 hk1 => wp_pure.mpr hk1) ?_
  intro entry pt sz k1 hproc1 hk1 _
  rw [← hproc1] at hk1 hstate hv
  exact wp_execCommit_ledger hk1 hp hstate hv (fun _ _ _ h => h) fun _ _ _ _ h _ _ => h

end exec

/-! ## `wait` -/

section reap

variable {strict : Prop} {total : Nat → Nat} {k : Kernel} {p np : Nat}

theorem wp_wait_ledger {addr : Nat} (hk : Ledger strict total none 0 k)
    (hv : ∀ np < NPROC, (k.proc np).state = .zombie → Valid ((k.proc np).pagetable.pte TRAPFRAME)) :
    Ends (wait p addr) (Ledger strict total none 0) k := by
  refine ends_wait_of hk (fun _ _ mem _ _ => hk.setKmem ⟨rfl, rfl, fun h => h.setMem mem⟩ rfl)
    fun np hnp hzombie mem hk' => ?_
  have hlive : (k.proc np).state ≠ .unused := by
    rw [hzombie]
    simp
  have htabled := hk'.tabled hnp hlive
  exact wp_freeproc_tabled hk'.start hnp htabled.trapframe (htabled.tableFor (hv np hnp hzombie))

end reap

end Xv6.Sys
