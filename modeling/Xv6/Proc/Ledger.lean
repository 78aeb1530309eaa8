import Xv6.File.Pipes
import Xv6.Proc.KmemOk
import Xv6.Proc.Space
import Xv6.Proc.Tables

/-!
# Where every page is

A page of memory is on the free list, in a page table of a process, mapped by
one, or an open pipe. `Ledger strict total busy hand k` says that the count of these
places comes to `total` for every page, with the pages in `hand` that a call
has taken and not put anywhere yet. It also has what the calls rely on to
keep the books: every process in the table has a page table that maps the
trampoline, and where it maps a trap frame it is the one in `struct proc`.
When `strict` holds, it does map one. While a call builds or tears down
process `busy`, this is not asked of it.

The trap frame of a process is counted with its page table, as long as the
table maps it.
-/

namespace Xv6.Sys

open Xv6.Lib Xv6.Lib.CInt Xv6.Vm Function
open Act

variable {pr : Proc} {m : Kmem} {f : Nat} {fd addr : UInt64}

/-- The pages that a process holds. -/
def Proc.pages (pr : Proc) : Multiset Nat :=
  if pr.pagetable.addr = 0 then 0 else pagesOf pr.pagetable

/-- How often a page is with the processes. -/
def Kernel.housed (k : Kernel) (pa : Nat) : Nat :=
  ∑ p ∈ Finset.range NPROC, (k.proc p).pages.count pa

/-- A process with a page table. -/
structure Proc.Tabled (strict : Prop) (pr : Proc) (m : Kmem) : Prop where
  addr : pr.pagetable.addr ≠ 0
  tramp : MapsTramp pr.pagetable m
  trapframe : pr.trapframe ≠ 0
  page : Valid (pr.pagetable.pte TRAPFRAME) → pte2pa (pr.pagetable.pte TRAPFRAME) = pr.trapframe
  frame : strict → Valid (pr.pagetable.pte TRAPFRAME)

/-- A slot of the process table is free or has a page table. -/
def Proc.TableOk (strict : Prop) (pr : Proc) (m : Kmem) : Prop :=
  match pr.state with
  | .unused => pr.pagetable.addr = 0 ∧ pr.trapframe = 0
  | _ => pr.Tabled strict m

/-- The pages that there are, each once. -/
structure Stock (total : Nat → Nat) : Prop where
  once : ∀ pa, total pa ≤ 1
  page : ∀ pa, 0 < total pa → PageAddr pa

/-- The ledger of pages. -/
structure Ledger (strict : Prop) (total : Nat → Nat) (busy : Option Nat) (hand : Multiset Nat) (k : Kernel) :
    Prop where
  mem : k.files.kmem.Ok
  text : k.files.kmem.trampoline < k.files.kmem.kend
  pipes : k.files.PipesOk
  census : ∀ pa, k.files.loose pa + k.housed pa + hand.count pa = total pa
  stock : Stock total
  table : ∀ p, busy ≠ some p → p < NPROC → (k.proc p).TableOk strict k.files.kmem

section basic

variable {strict : Prop} {total : Nat → Nat} {busy : Option Nat} {hand hand' : Multiset Nat}
  {k k' : Kernel}
variable {p : Nat}

theorem Proc.TableOk.tabled (h : pr.TableOk strict m) (hstate : pr.state ≠ .unused) :
    pr.Tabled strict m := by
  unfold Proc.TableOk at h
  split at h
  · exact absurd ‹_› hstate
  · exact h

theorem Proc.Tabled.tableOk (h : pr.Tabled strict m) (hstate : pr.state ≠ .unused) :
    pr.TableOk strict m := by
  unfold Proc.TableOk
  split
  · exact absurd ‹_› hstate
  · exact h

theorem Proc.Tabled.keeps {m' : Kmem} (h : pr.Tabled strict m) (hm : m.Keeps m') :
    pr.Tabled strict m' :=
  ⟨h.addr, h.tramp.keeps hm, h.trapframe, h.page, h.frame⟩

theorem Proc.TableOk.keeps {m' : Kmem} (h : pr.TableOk strict m) (hm : m.Keeps m') :
    pr.TableOk strict m' := by
  unfold Proc.TableOk at h ⊢
  split
  · rename_i hstate
    rw [hstate] at h
    exact h
  · rename_i hstate
    split at h
    · exact absurd ‹_› hstate
    · exact h.keeps hm

/-- What the ledger has of a process. -/
structure Tenant where
  state : ProcState
  pagetable : PageTable
  trapframe : Nat

def Proc.tenant (pr : Proc) : Tenant := ⟨pr.state, pr.pagetable, pr.trapframe⟩

theorem Proc.pages_of_tenant {pr' : Proc} (h : pr'.tenant = pr.tenant) : pr'.pages = pr.pages := by
  have htable : pr'.pagetable = pr.pagetable := congrArg Tenant.pagetable h
  unfold Proc.pages
  rw [htable]

theorem Proc.Tabled.of_eq {pr' : Proc} (h : pr.Tabled strict m)
    (htable : pr'.pagetable = pr.pagetable) (hframe : pr'.trapframe = pr.trapframe) :
    pr'.Tabled strict m := by
  refine ⟨?_, ?_, ?_, ?_, ?_⟩
  · rw [htable]
    exact h.addr
  · rw [htable]
    exact h.tramp
  · rw [hframe]
    exact h.trapframe
  · rw [htable, hframe]
    exact h.page
  · rw [htable]
    exact h.frame

theorem Proc.TableOk.of_tenant {pr' : Proc} (h : pr.TableOk strict m)
    (heq : pr'.tenant = pr.tenant) : pr'.TableOk strict m := by
  have hstate : pr'.state = pr.state := congrArg Tenant.state heq
  have htable : pr'.pagetable = pr.pagetable := congrArg Tenant.pagetable heq
  have hframe : pr'.trapframe = pr.trapframe := congrArg Tenant.trapframe heq
  by_cases hunused : pr.state = .unused
  · unfold Proc.TableOk at h ⊢
    rw [hstate, hunused, htable, hframe]
    rw [hunused] at h
    exact h
  · exact ((h.tabled hunused).of_eq htable hframe).tableOk (hstate ▸ hunused)

section

variable (h : Ledger strict total busy hand k)
include h

/-- When the files change, the pages they hold stay the same. -/
theorem Ledger.holds {s : Files} (hs : k.files.Holds s) :
    Ledger strict total busy hand { k with files := s } where
  mem := hs.ok h.mem
  text := by
    simp only [hs.trampoline, hs.kend]
    exact h.text
  pipes := hs.pipes
  census pa := by
    simp only [hs.loose pa]
    exact h.census pa
  stock := h.stock
  table q hq hlt := (h.table q hq hlt).keeps hs.toKeeps

/-- Pages move between the free list, a process and the hand. -/
theorem Ledger.change {n : Nat} (hm : k.files.kmem.Keeps m)
    (hp : p < NPROC) (hpages : (m.freelist : Multiset Nat) + pr.pages + hand' =
      (k.files.kmem.freelist : Multiset Nat) + (k.proc p).pages + hand)
    (htable : busy ≠ some p → pr.TableOk strict m) :
    Ledger strict total busy hand' ⟨{ k.files with kmem := m }, update k.proc p pr, n⟩ where
  mem := hm.ok h.mem
  text := by
    simp only [hm.trampoline, hm.kend]
    exact h.text
  pipes := h.pipes.congr (fun _ => rfl) (fun _ _ => rfl) h.pipes.closed rfl
  census pa := by
    have hcount := congrArg (Multiset.count pa) hpages
    simp only [Multiset.count_add, Multiset.coe_count] at hcount
    have hcensus := h.census pa
    have hchange := sum_change (f := fun q => (k.proc q).pages.count pa)
      (g := fun q => (update k.proc p pr q).pages.count pa) (Finset.mem_range.mpr hp)
      fun q _ hq => by rw [update_of_ne hq]
    simp only [update_self] at hchange
    unfold Files.loose Kernel.housed at hcensus ⊢
    simp only
    omega
  stock := h.stock
  table q hq hlt := by
    by_cases hqp : q = p
    · subst hqp
      simp only [update_self]
      exact htable hq
    · simp only [update_of_ne hqp]
      exact (h.table q hq hlt).keeps hm

/-- Pages move between the free list and the hand. -/
theorem Ledger.setKmem (hm : k.files.kmem.Keeps m)
    (hpages : (m.freelist : Multiset Nat) + hand' = (k.files.kmem.freelist : Multiset Nat) + hand) :
    Ledger strict total busy hand' { k with files.kmem := m } := by
  have hzero : 0 < NPROC := by decide
  have h' := h.change (n := k.nextpid) hm hzero
    (by rw [add_right_comm, hpages, add_right_comm]) fun hq => (h.table 0 hq hzero).keeps hm
  rwa [update_eq_self] at h'

/-- Pages move between a process and the hand. -/
theorem Ledger.setProc {n : Nat} (hp : p < NPROC)
    (hpages : pr.pages + hand' = (k.proc p).pages + hand)
    (htable : busy ≠ some p → pr.TableOk strict k.files.kmem) :
    Ledger strict total busy hand' ⟨k.files, update k.proc p pr, n⟩ :=
  h.change (.refl _) hp (by rw [add_assoc, hpages, add_assoc]) htable

end

theorem Ledger.start (h : Ledger strict total none hand k) : Ledger strict total (some p) hand k :=
  ⟨h.mem, h.text, h.pipes, h.census, h.stock, fun q _ hlt => h.table q (by simp) hlt⟩

theorem Ledger.finish (h : Ledger strict total (some p) hand k)
    (htable : p < NPROC → (k.proc p).TableOk strict k.files.kmem) : Ledger strict total none hand k := by
  refine ⟨h.mem, h.text, h.pipes, h.census, h.stock, fun q _ hlt => ?_⟩
  by_cases hq : some p = some q
  · obtain rfl := Option.some.inj hq
    exact htable hlt
  · exact h.table q hq hlt

theorem Ledger.congr (h : Ledger strict total busy hand k) (hfiles : k'.files = k.files)
    (hproc : ∀ q, (k'.proc q).tenant = (k.proc q).tenant) : Ledger strict total busy hand k' where
  mem := by
    rw [hfiles]
    exact h.mem
  text := by
    rw [hfiles]
    exact h.text
  pipes := by
    rw [hfiles]
    exact h.pipes
  census pa := by
    have hhoused : k'.housed pa = k.housed pa :=
      Finset.sum_congr rfl fun q _ => by rw [Proc.pages_of_tenant (hproc q)]
    rw [hfiles, hhoused]
    exact h.census pa
  stock := h.stock
  table q hq hlt := by
    rw [hfiles]
    exact (h.table q hq hlt).of_tenant (hproc q)

theorem Ledger.loose_le (h : Ledger strict total busy hand k) (pa : Nat) : k.files.loose pa ≤ 1 := by
  have hcensus := h.census pa
  have honce := h.stock.once pa
  omega

theorem Ledger.tabled (h : Ledger strict total none hand k) (hp : p < NPROC)
    (hstate : (k.proc p).state ≠ .unused) : (k.proc p).Tabled strict k.files.kmem :=
  (h.table p (by simp) hp).tabled hstate

theorem Kernel.pages_le_housed (hp : p < NPROC) (pa : Nat) :
    (k.proc p).pages.count pa ≤ k.housed pa :=
  Finset.single_le_sum (f := fun q => (k.proc q).pages.count pa) (fun _ _ => Nat.zero_le _)
    (Finset.mem_range.mpr hp)

/-- A page that a process maps is mapped once and not on the free list. -/
theorem Ledger.leaf_le (hk : Ledger strict total none 0 k) (hp : p < NPROC)
    (hstate : (k.proc p).state ≠ .unused) (pa : Nat) :
    k.files.kmem.freelist.count pa + (leafPages (k.proc p).pagetable).count pa ≤ 1 := by
  have haddr := (hk.tabled hp hstate).addr
  have hcensus := hk.census pa
  have honce := hk.stock.once pa
  have hsingle := Kernel.pages_le_housed (k := k) hp pa
  have hpages : (k.proc p).pages.count pa =
      (tablePages (k.proc p).pagetable).count pa + (leafPages (k.proc p).pagetable).count pa := by
    rw [Proc.pages, if_neg haddr, pagesOf, Multiset.count_add]
  unfold Files.loose at hcensus
  omega

theorem Ledger.user_not_free (hk : Ledger strict total none 0 k) (hp : p < NPROC)
    (hstate : (k.proc p).state ≠ .unused) {va : Nat} (hva : UserMapped (k.proc p).pagetable va) :
    pte2pa ((k.proc p).pagetable.pte va) ∉ k.files.kmem.freelist := by
  obtain ⟨hmax, hvalid, huser⟩ := hva
  intro hfree
  have hlow := (hk.tabled hp hstate).tramp.user_low hmax huser
  have hround : (k.proc p).pagetable.pte (va / PGSIZE * PGSIZE) = (k.proc p).pagetable.pte va :=
    PageTable.pte_eq_of_page (Nat.mul_div_cancel _ (by decide))
  have honce := hk.leaf_le hp hstate (pte2pa ((k.proc p).pagetable.pte va))
  have hcount := List.count_pos_iff.mpr hfree
  have hleaf := count_leafPages_pos.mpr ⟨va / PGSIZE, hlow, hround ▸ hvalid, by rw [hround]⟩
  omega

end basic

/-! ## Rules for the layers of the state -/

section rules

variable {α : Type} {strict : Prop} {total : Nat → Nat} {busy : Option Nat} {hand : Multiset Nat}
variable {k : Kernel} {p : Nat}

theorem stable_onFiles_holds {m : FilesM α} (hm : ∀ s : Files, s.PipesOk → (∀ pa, s.loose pa ≤ 1) →
      Ends m s.Holds s) : Stable (Ledger strict total busy hand) (onFiles m) := by
  refine ⟨fun k hk => ?_⟩
  rw [wp_onFiles]
  exact wp_post (hm _ hk.pipes hk.loose_le) (fun _ s' hs' => hk.holds hs')

theorem stable_uncached {m : FilesM α} (hm : Keeps Files.uncached m) :
    Stable (Ledger strict total busy hand) (onFiles m) :=
  stable_onFiles_holds fun _ hs _ =>
    hm.wp (fun _ _ heq => .of_uncached hs heq)

theorem stable_quiet {m : FilesM α} (hm : ∀ s, Ends m (Files.Quiet s) s) :
    Stable (Ledger strict total busy hand) (onFiles m) :=
  stable_onFiles_holds fun s hs _ => wp_post (hm s) (fun _ _ hq => .of_quiet hs hq)

theorem stable_fileclose_pages : Stable (Ledger strict total busy hand) (onFiles (fileclose f)) :=
  stable_onFiles_holds fun _ hs _ => wp_fileclose_holds hs

theorem stable_filedup_pages : Stable (Ledger strict total busy hand) (onFiles (filedup f)) :=
  stable_onFiles_holds fun _ hs _ => wp_filedup_holds hs

theorem stable_bare {m : KmemM α} (hm : Keeps Kmem.bare m) :
    Stable (Ledger strict total busy hand) (onMem m) := by
  refine ⟨fun k hk => ?_⟩
  rw [wp_onMem]
  refine hm.wp fun _ m' hm' => ?_
  exact hk.setKmem (.of_bare hm') (by rw [(Kmem.eq_of_bare hm').2.2])

theorem tenant_update (h : pr.tenant = (k.proc p).tenant) (q : Nat) :
    (update k.proc p pr q).tenant = (k.proc q).tenant := by
  by_cases hq : q = p
  · rw [hq, update_self, h]
  · rw [update_of_ne hq]

theorem stable_setTenant {f : Proc → Proc} (h : ∀ pr, (f pr).tenant = pr.tenant) :
    Stable (Ledger strict total busy hand) (setProc p f) :=
  .modify fun _ hk => hk.congr rfl (tenant_update (h _))

theorem wp_fdalloc_pages {Q : Option Nat → Kernel → Prop} (hk : Ledger strict total busy hand k)
    (hnone : Q none k)
    (hsome : ∀ fd k', k'.files = k.files → Ledger strict total busy hand k' → Q (some fd) k') :
    wp (fdalloc p f) Q (fun _ => True) k :=
  wp_fdalloc hnone fun fd _ _ => hsome fd _ rfl (hk.congr rfl (tenant_update rfl))

theorem stable_fdalloc_pages : Stable (Ledger strict total busy hand) (fdalloc p f) :=
  ⟨fun _ hk => wp_fdalloc_pages hk hk fun _ _ _ hk' => hk'⟩

end rules

/-! ## Calls that move no page of a process -/

section quiet

variable {strict : Prop} {total : Nat → Nat} {p : Nat}

theorem stable_sysOpen_pages {found : Option Nat} {mode : UInt64} :
    Stable (Ledger strict total none 0) (sysOpen p found mode) := by
  have hput : ∀ {i : Nat}, Stable (Ledger strict total none 0) (onFiles (iput i)) :=
    stable_uncached keeps_iput
  unfold sysOpen
  extract_lets omode
  split
  · exact .pure
  rename_i inum
  refine .bind (stable_quiet fun s => ?_) fun _ => ?_
  · unfold Ends openInode
    rw [wp_bind, wp_get]
    exact wp_when (fun _ => wp_modify.mpr .setDinode) fun _ => .refl s
  refine .bind (stable_uncached keeps_iget) fun i => ?_
  refine .bind (stable_uncached keeps_ilock) fun _ => .bind .get fun k => ?_
  extract_lets ip
  refine .ite (.bind hput fun _ => .pure) ⟨fun k1 hk1 => ?_⟩
  rw [wp_bind, wp_onFiles]
  refine wp_filealloc_holds hk1.pipes ?_ fun f s2 hf htype2 hpipe2 hs2 hfile2 => ?_
  · rw [wp_bind]
    exact hput.wp hk1 (fun _ _ hk2 => wp_pure.mpr hk2)
  have hk2 := hk1.holds hs2
  rw [wp_bind]
  refine wp_fdalloc_pages hk2 ?_ fun fd k3 hfiles3 hk3 => ?_
  · rw [wp_bind]
    refine stable_fileclose_pages.wp hk2 (fun _ k3 hk3 => ?_)
    rw [wp_bind]
    exact hput.wp hk3 (fun _ _ hk4 => wp_pure.mpr hk4)
  rw [wp_bind, wp_get, wp_bind, wp_onFiles, wp_setFile]
  have hset : k3.files.Holds { k3.files with
      file := update k3.files.file f (openFile (k3.files.file f) ip i omode) } := by
    refine ⟨.refl _, hk3.pipes.setFile ?_ ?_, fun _ => rfl⟩
    · rw [hfiles3]
      exact htype2
    · unfold openFile
      split <;> simp
  rw [wp_bind]
  refine (Stable.when (stable_quiet fun s => wp_modify.mpr .setDinode)).wp (hk3.holds hset)
    (fun _ _ hk4 => wp_pure.mpr hk4)

theorem stable_sysPipe_pages {fdarray : UInt64} :
    Stable (Ledger strict total none 0) (sysPipe p fdarray) := by
  refine ⟨fun k hk => ends_sysPipe_of
    (J := fun _ s => Ledger strict total none 0 { k with files := s })
    (wp_post (wp_pipealloc_holds hk.pipes hk.loose_le) fun _ _ => hk.holds) (fun _ h => h) ?_ ?_ ?_⟩
  · exact fun _ _ _ mem _ _ _ h _ => h.setKmem ⟨rfl, rfl, fun h => h.setMem mem⟩ rfl
  · exact fun _ _ _ h => stable_fileclose_pages.wp h fun _ => stable_fileclose_pages.stays
  · exact fun _ _ _ _ _ h _ _ _ _ => h.congr rfl (tenant_update (by rfl))

theorem stable_sysDup_pages : Stable (Ledger strict total none 0) (sysDup p fd) := by
  refine .bind .get fun k => ?_
  split
  · exact .pure
  · refine .bind stable_fdalloc_pages fun r => ?_
    split
    · exact .pure
    · exact .bind stable_filedup_pages fun _ => .pure

theorem stable_sysClose_pages : Stable (Ledger strict total none 0) (sysClose p fd) := by
  refine .bind .get fun k => ?_
  split
  · exact .pure
  · exact .bind (stable_setTenant fun _ => rfl) fun _ =>
      .bind stable_fileclose_pages fun _ => .pure

theorem stable_sysChdir_pages {found : Option Nat} :
    Stable (Ledger strict total none 0) (sysChdir p found) := by
  unfold sysChdir
  split
  · exact .pure
  refine .bind (stable_uncached keeps_iget) fun i => ?_
  refine .bind (stable_uncached keeps_ilock) fun _ => .bind .get fun k => ?_
  refine .ite (.bind (stable_uncached keeps_iput) fun _ => .pure) ?_
  exact .bind (.when (stable_uncached keeps_iput)) fun _ =>
    .bind (stable_setTenant fun _ => rfl) fun _ => .pure

theorem stable_sysRead_pages {n : UInt64} {input : List UInt8} :
    Stable (Ledger strict total none 0) (sysRead p fd addr n input) := by
  refine .bind .get fun k => ?_
  split
  · exact .pure
  · exact stable_quiet fun _ => wp_fileread

theorem stable_sysWrite_pages {n : UInt64} :
    Stable (Ledger strict total none 0) (sysWrite p fd addr n) := by
  refine .bind .get fun k => ?_
  split
  · exact .pure
  · exact stable_quiet fun _ => wp_filewrite

theorem stable_sysMmap_pages {length prot flags offset : UInt64} :
    Stable (Ledger strict total none 0) (sysMmap p addr length prot flags fd offset) := by
  refine .bind .get fun k => ?_
  extract_lets pr
  split
  · exact .pure
  refine .ite .pure (.ite .pure ?_)
  split
  · exact .panic
  · extract_lets v
    exact .bind (stable_setTenant fun _ => by simp only [Proc.tenant]) fun _ =>
      .bind stable_filedup_pages fun _ =>
        .bind (stable_setTenant fun _ => by simp only [Proc.tenant]) fun _ => .pure

end quiet

end Xv6.Sys
