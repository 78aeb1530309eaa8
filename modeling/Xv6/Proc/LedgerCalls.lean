import Xv6.Proc.Ledger

/-!
# Every call keeps the ledger of pages

The calls that change the table of a process: page faults, `sbrk`, `munmap`
and the end of a process. Each rule follows the pages through the call, in
hand where the call has taken them and not put them anywhere yet, through
every error exit.
-/

namespace Xv6.Sys

open Xv6.Lib Xv6.Lib.CInt Xv6.Vm Function
open Act

variable {α : Type} {Q : Unit → Kernel → Prop} {pt : PageTable}

/-! ## Pages in hand -/

section hand

variable {strict : Prop} {total : Nat → Nat} {busy : Option Nat} {hand hand' : Multiset Nat}
variable {k : Kernel} {p : Nat}

theorem wp_kalloc_ledger {Q : Option Nat → Kernel → Prop}
    (hk : Ledger strict total busy hand k) (hnone : Q none k)
    (hsome : ∀ pa k', k'.proc = k.proc → k.files.kmem.Keeps k'.files.kmem → PageAddr pa → pa ≠ 0 →
      Ledger strict total busy ({pa} + hand) k' → Q (some pa) k') :
    wp (onMem kalloc) Q (fun _ => True) k := by
  rw [wp_onMem]
  refine wp_kalloc (fun _ => hnone) fun r next hfree => ?_
  have hmem : r ∈ k.files.kmem.freelist := by
    rw [hfree]
    exact List.mem_cons_self
  have hr := hk.mem.free r hmem
  have hpos : KERNBASE ≤ r := Nat.le_trans hk.mem.kend hr.2.1
  have htakes : k.files.kmem.Takes { k.files.kmem with
      freelist := next, mem := update k.files.kmem.mem r fun _ => 5 } :=
    Kmem.takes_cons hfree fun x hx => update_of_ne hx ..
  refine hsome r _ rfl htakes.toKeeps (hk.mem.pageAddr hmem) (fun h0 => ?_)
    (hk.setKmem htakes.toKeeps ?_)
  · rw [h0] at hpos
    exact absurd hpos (by decide)
  · rw [hfree, ← Multiset.cons_coe, ← Multiset.singleton_add]
    abel

theorem wp_kfree_ledger {pa : Nat} (hk : Ledger strict total busy ({pa} + hand) k)
    (h : ∀ k', k'.proc = k.proc → Ledger strict total busy hand k' → Q () k') :
    wp (onMem (kfree pa)) Q (fun _ => True) k := by
  rw [wp_onMem]
  refine wp_post wp_kfree_freed fun _ m' hfreed => ?_
  refine h _ rfl (hk.setKmem hfreed.toKeeps ?_)
  rw [hfreed.freelist]
  abel

theorem wp_onFiles_ledger {m : FilesM α} {Q : α → Kernel → Prop}
    (hm : Stable (Ledger strict total busy hand) (onFiles m)) (hk : Ledger strict total busy hand k)
    (h : ∀ a k', k'.proc = k.proc → Ledger strict total busy hand k' → Q a k') :
    wp (onFiles m) Q (fun _ => True) k := by
  have hstays := hm.stays k hk
  rw [wp_onFiles] at hstays ⊢
  exact wp_post hstays (fun a _ hs => h a _ rfl hs)

theorem wp_onMem_ledger {m : KmemM α} {Q : α → Kernel → Prop} (hm : Keeps Kmem.bare m)
    (hk : Ledger strict total busy hand k)
    (h : ∀ a k', k'.proc = k.proc → Ledger strict total busy hand k' → Q a k') :
    wp (onMem m) Q (fun _ => True) k :=
  wp_onFiles_ledger (stable_bare hm) hk h

theorem wp_setTenant_ledger
    {f : Proc → Proc} (hf : ∀ pr, (f pr).tenant = pr.tenant) (hk : Ledger strict total busy hand k)
    (h : ∀ k', (∀ q, (k'.proc q).tenant = (k.proc q).tenant) →
      Ledger strict total busy hand k' → Q () k') : wp (setProc p f) Q (fun _ => True) k := by
  have htenant := tenant_update (hf (k.proc p))
  rw [wp_setProc]
  exact h _ htenant (hk.congr rfl htenant)

theorem state_of_tenant {pr pr' : Proc} (h : pr'.tenant = pr.tenant) : pr'.state = pr.state :=
  congrArg Tenant.state h

/-- A process has a new page table, made of the old one and the pages in
hand. -/
theorem Ledger.setTable {m : Kmem} (hk : Ledger strict total busy hand k) (hp : p < NPROC)
    (haddr : (k.proc p).pagetable.addr ≠ 0) (hkeeps : k.files.kmem.Keeps m)
    (haddr' : pt.addr = (k.proc p).pagetable.addr)
    (hpages : (m.freelist : Multiset Nat) + pagesOf pt + hand' =
      (k.files.kmem.freelist : Multiset Nat) + pagesOf (k.proc p).pagetable + hand)
    (htable : busy ≠ some p → Proc.TableOk strict { k.proc p with pagetable := pt } m) :
    Ledger strict total busy hand' { k with
      files := { k.files with kmem := m }
      proc := update k.proc p { k.proc p with pagetable := pt } } := by
  have hold : (k.proc p).pages = pagesOf (k.proc p).pagetable := if_neg haddr
  have hnew : Proc.pages { k.proc p with pagetable := pt } = pagesOf pt :=
    if_neg (by rw [haddr']; exact haddr)
  exact hk.change hkeeps hp (by rw [hold, hnew, hpages]) htable

/-- A table whose trap frame is as before, or gone. -/
theorem Proc.Tabled.setTable {pr : Proc} {m m' : Kmem} (h : pr.Tabled strict m)
    (hkeeps : m.Keeps m') (haddr : pt.addr = pr.pagetable.addr)
    (htramp : pt.pte TRAMPOLINE = pr.pagetable.pte TRAMPOLINE)
    (hframe : Valid (pt.pte TRAPFRAME) → SameFrame pr.pagetable pt)
    (hstrict : strict → SameFrame pr.pagetable pt) :
    Proc.Tabled strict { pr with pagetable := pt } m' where
  addr := by
    rw [haddr]
    exact h.addr
  tramp := h.tramp.of_pte htramp hkeeps.kend
  trapframe := h.trapframe
  page := fun hv => by
    have hsame := hframe hv
    rw [hsame] at hv ⊢
    exact h.page hv
  frame := fun hs => (hstrict hs).valid (h.frame hs)

/-- An operation on the page table of a process that is alive. -/
theorem wp_onPagetable_ledger {m : PageTable → KmemM (PageTable × α)} {Q : α → Kernel → Prop}
    (hk : Ledger strict total none hand k) (hp : p < NPROC) (hstate : (k.proc p).state ≠ .unused)
    (hm : wp (m (k.proc p).pagetable) (fun r m' => Moves (k.proc p).pagetable k.files.kmem r.1 m' ∧
        (Valid (r.1.pte TRAPFRAME) → SameFrame (k.proc p).pagetable r.1) ∧
        (strict → SameFrame (k.proc p).pagetable r.1)) (fun _ => True) k.files.kmem)
    (h : ∀ a pt k', k'.proc = update k.proc p
      { k.proc p with pagetable := pt } → Ledger strict total none hand k' → Q a k') :
    wp (onPagetable p m) Q (fun _ => True) k := by
  have htab := hk.tabled hp hstate
  rw [wp_onPagetable]
  refine wp_post hm ?_
  rintro ⟨pt, a⟩ m' ⟨hmoves, hframe, hstrict⟩
  refine h a pt _ rfl (hk.setTable hp htab.addr hmoves.toKeeps hmoves.addr ?_ fun _ => ?_)
  · rw [hmoves.pages]
  · exact (htab.setTable hmoves.toKeeps hmoves.addr hmoves.tramp hframe hstrict).tableOk hstate

end hand

/-! ## Page faults -/

section fault

variable {strict : Prop} {total : Nat → Nat} {k : Kernel} {p : Nat}

theorem Vma.pteFlags_lt (v : Vma) : v.pteFlags < 1024 := by
  unfold Vma.pteFlags
  split <;> split <;> split <;> decide

theorem fault_page_low (va : Nat) (h : pgRoundDown (uint64 (int32 va)) < MAXVA) :
    pgRoundDown (uint64 (int32 va)) < TRAPFRAME := by
  unfold pgRoundDown uint64 at h ⊢
  have hbounds := int32_bounds va
  simp only [TRAPFRAME, TRAMPOLINE, MAXVA, PGSIZE] at h ⊢
  omega

/-- The page in hand is mapped, or goes back. -/
theorem wp_mapFilePage_ledger {v : Vma} {va pa : Nat} (hk : Ledger strict total none {pa} k)
    (hpa : PageAddr pa) (hp : p < NPROC) (hstate : (k.proc p).state ≠ .unused) :
    Ends (mapFilePage p v (int32 va) pa) (Ledger strict total none 0) k := by
  have hback : ∀ k1, Ledger strict total none {pa} k1 →
      Ends (onMem (kfree pa) >>= fun _ => pure (-1 : Int)) (Ledger strict total none 0) k1 := by
    intro k1 hk1
    rw [← add_zero ({pa} : Multiset Nat)] at hk1
    rw [Ends, wp_bind]
    exact wp_kfree_ledger hk1 fun k2 _ hk2 => wp_pure.mpr hk2
  unfold Ends mapFilePage
  rw [wp_bind]
  refine wp_onMem_ledger (.modify fun _ => rfl) hk fun _ k1 hproc1 hk1 => ?_
  rw [wp_bind, wp_get]
  extract_lets file ip offset
  rw [wp_bind]
  refine wp_onFiles_ledger (stable_uncached keeps_ilock) hk1 fun _ k2 hproc2 hk2 => ?_
  rw [wp_bind, wp_get]
  split
  rw [wp_bind]
  refine wp_onMem_ledger (.modify fun _ => rfl) hk2 fun _ k3 hproc3 hk3 => ?_
  refine wp_ite (fun _ => hback k3 hk3) fun _ => ?_
  have hproc : k3.proc = k.proc := hproc3.trans (hproc2.trans hproc1)
  have hstate3 : (k3.proc p).state ≠ .unused := by
    rw [hproc]
    exact hstate
  have htab := hk3.tabled hp hstate3
  have hlow := fault_page_low va
  have hround : pgRoundDown (uint64 (int32 va)) % PGSIZE = 0 := Nat.mul_mod_left _ _
  have hend := pgRoundDown_add_le (uint64_lt (int32 va))
  generalize pgRoundDown (uint64 (int32 va)) = page at hlow hround hend
  rw [wp_bind, wp_onPagetable]
  refine wp_mappages hround hend ?_ ?_
  · intro pt m' _ hwalked
    refine hback _ (hk3.setTable hp htab.addr hwalked.toKeeps hwalked.addr ?_ fun _ => ?_)
    · rw [hwalked.held]
    · exact (htab.setTable hwalked.toKeeps hwalked.addr (hwalked.pte _)
        (fun _ => hwalked.pte _) (fun _ => hwalked.pte _)).tableOk hstate3
  · intro pt m' hmax hmap
    obtain ⟨htramp, hframe, hpages⟩ := hmap.low hpa v.pteFlags_lt (hlow hmax)
    refine wp_pure.mpr (hk3.setTable hp htab.addr hmap.toKeeps hmap.addr ?_ fun _ => ?_)
    · rw [hpages, add_zero]
    · exact (htab.setTable hmap.toKeeps hmap.addr htramp
        (fun _ => hframe) (fun _ => hframe)).tableOk hstate3

theorem wp_pageFault_ledger {sp va cause : Nat} (hk : Ledger strict total none 0 k) (hp : p < NPROC)
    (hstate : (k.proc p).state ≠ .unused) :
    Ends (pageFault p sp va cause) (Ledger strict total none 0) k := by
  have hkill : Stable (Ledger strict total none 0) (setProc p fun pr => { pr with killed := true }) :=
    stable_setTenant fun _ => rfl
  unfold Ends pageFault
  rw [wp_bind, wp_get]
  refine wp_ite (fun _ => ?_) fun _ => hkill.stays k hk
  rw [wp_bind]
  have hhandler : Ends (mmapHandler p (int32 va) cause) (Ledger strict total none 0) k := by
    unfold Ends mmapHandler
    rw [wp_bind, wp_get]
    split
    · exact wp_pure.mpr hk
    · extract_lets v file
      refine wp_ite (fun _ => wp_pure.mpr hk) fun _ => wp_ite (fun _ => wp_pure.mpr hk) fun _ => ?_
      rw [wp_bind]
      refine wp_kalloc_ledger hk (wp_pure.mpr hk) fun pa k1 hproc1 _ hpa _ hk1 => ?_
      rw [add_zero] at hk1
      refine wp_mapFilePage_ledger hk1 hpa hp ?_
      rw [hproc1]
      exact hstate
  refine wp_post hhandler fun r k1 hk1 => ?_
  exact (Stable.when hkill).stays k1 hk1

end fault

/-! ## `sbrk`, `munmap` and `exit` -/

section shrink

variable {strict : Prop} {total : Nat → Nat} {k : Kernel} {p : Nat}

/-- The pages that a call unmaps from `addr` on. -/
def unmapLength (addr : Nat) (length : Int) : Nat :=
  unmapRounds addr (uint64 (length.tdiv PGSIZE)) * PGSIZE

/-- The trap frame is not among the pages to unmap. -/
def SparesFrame (addr : Nat) (length : Int) : Prop :=
  ¬(addr ≤ TRAPFRAME ∧ TRAPFRAME < addr + unmapLength addr length)

instance (addr : Nat) (length : Int) : Decidable (SparesFrame addr length) :=
  inferInstanceAs (Decidable ¬_)

theorem wp_writeBack_ledger {v : Vma} {addr : Nat} {length : Int}
    (hk : Ledger strict total none 0 k) :
    wp (writeBack pt v addr length) (fun _ k' => k'.proc = k.proc ∧
      Ledger strict total none 0 k') (fun _ => True) k := by
  refine wp_when (fun _ => ?_) fun _ => ⟨rfl, hk⟩
  rw [wp_bind]
  exact wp_onFiles_ledger (stable_quiet fun _ => wp_filewrite) hk
    fun _ k1 hproc1 hk1 => wp_pure.mpr ⟨hproc1, hk1⟩

section alive

variable (hk : Ledger strict total none 0 k) (hp : p < NPROC) (hstate : (k.proc p).state ≠ .unused)
include hk hp hstate

theorem wp_growproc_ledger {n : Int} (hframe : Valid ((k.proc p).pagetable.pte TRAPFRAME)) :
    Ends (growproc p n) (Ledger strict total none 0) k := by
  have htab := hk.tabled hp hstate
  unfold Ends growproc
  rw [wp_bind, wp_get]
  extract_lets sz newsz
  have hsz : sz ≤ TRAPFRAME := Nat.le_trans (Nat.le_of_lt (uint32_lt _)) (by decide)
  refine wp_ite (fun _ => ?_) fun _ => wp_ite (fun _ => ?_) fun _ => ?_
  · rw [wp_bind]
    refine wp_onPagetable_ledger hk hp hstate ?_ fun r pt k1 _ hk1 => ?_
    · refine wp_post (wp_uvmalloc_moves hk.mem htab.tramp hframe (Nat.le_trans hsz (by decide)))
        (fun r m' hr => ⟨hr.1, fun _ => hr.2.1, fun _ => hr.2.1⟩)
    · refine wp_ite (fun _ => wp_pure.mpr hk1) fun _ => ?_
      rw [wp_bind]
      exact (stable_setTenant fun _ => by rfl).wp hk1 (fun _ _ hk2 => wp_pure.mpr hk2)
  · rw [wp_bind]
    refine wp_onPagetable_ledger hk hp hstate ?_ fun r pt k1 _ hk1 => ?_
    · refine wp_post (wp_uvmdealloc_moves hsz htab.tramp)
        (fun r m' hr => ⟨hr.1, fun _ => hr.2, fun _ => hr.2⟩)
    · rw [wp_bind]
      exact (stable_setTenant fun _ => by rfl).wp hk1 (fun _ _ hk2 => wp_pure.mpr hk2)
  · rw [wp_bind]
    exact (stable_setTenant fun _ => by rfl).wp hk (fun _ _ hk2 => wp_pure.mpr hk2)

theorem wp_unmapPages_ledger {addr : Nat} {length : Int}
    (hspares : strict → SparesFrame addr length) (h : ∀ pt k', k'.proc = update k.proc p
      { k.proc p with pagetable := pt } → Ledger strict total none 0 k' → Q () k') :
    wp (unmapPages p addr length) Q (fun _ => True) k := by
  have htab := hk.tabled hp hstate
  refine wp_onPagetable_ledger hk hp hstate ?_ fun _ => h
  rw [wp_bind]
  refine wp_uvmunmap fun pt m' haligned hun => wp_pure.mpr ?_
  exact ⟨hun.moves haligned htab.tramp, hun.pte_of_valid (by decide),
    fun hs => hun.sameFrame (hspares hs)⟩

theorem wp_sysMunmap_ledger {a0 a1 : UInt64}
    (hspares : strict → munmapSlot (k.proc p).vma (argaddr a0) (argint a1) ≠ none →
      SparesFrame (argaddr a0) (argint a1)) :
    Ends (sysMunmap p a0 a1) (Ledger strict total none 0) k := by
  unfold Ends sysMunmap
  extract_lets addr length
  rw [wp_bind, wp_get]
  extract_lets pr
  split
  · exact wp_pure.mpr hk
  · rename_i i hslot
    extract_lets v
    rw [wp_bind]
    refine wp_setTenant_ledger (fun _ => rfl) hk fun k1 htenant1 hk1 => ?_
    rw [wp_bind]
    refine wp_post (wp_writeBack_ledger hk1) ?_
    rintro _ k2 ⟨hproc2, hk2⟩
    have hstate2 : (k2.proc p).state ≠ .unused := by
      rw [hproc2, state_of_tenant (htenant1 p)]
      exact hstate
    rw [wp_bind]
    refine wp_unmapPages_ledger hk2 hp hstate2 (fun hs => hspares hs ?_)
      fun pt k3 _ hk3 => ?_
    · intro hnone
      rw [hslot] at hnone
      exact absurd hnone (by simp)
    rw [wp_bind]
    refine wp_post (wp_when (fun _ => ?_) fun _ => hk3) (fun _ k4 hk4 => wp_pure.mpr hk4)
    rw [wp_bind]
    refine stable_fileclose_pages.wp hk3 (fun _ k4 hk4 => ?_)
    exact wp_setTenant_ledger (fun _ => rfl) hk4 fun _ _ hk5 => hk5

theorem wp_setState_ledger {f : Proc → Proc} (hstate' : (f (k.proc p)).state ≠ .unused)
    (htable : (f (k.proc p)).pagetable = (k.proc p).pagetable)
    (hframe : (f (k.proc p)).trapframe = (k.proc p).trapframe) :
    Ends (setProc p f) (Ledger strict total none 0) k := by
  rw [Ends, wp_setProc]
  refine hk.setProc hp ?_ fun _ => ((hk.tabled hp hstate).of_eq htable hframe).tableOk hstate'
  unfold Proc.pages
  rw [htable]

theorem wp_exitVma_ledger {i : Nat} (hspares : strict → ((k.proc p).vma i).used = true →
      SparesFrame ((k.proc p).vma i).addr ((k.proc p).vma i).length) :
    Ends (exitVma p i) (Ledger strict total none 0) k := by
  have hlast : ∀ k', Ledger strict total none 0 k' → (k'.proc p).state ≠ .unused →
      Ends (setProc p fun pr => { pr with state := .exiting (i + 1) })
        (Ledger strict total none 0) k' :=
    fun k' hk' hstate' => wp_setState_ledger hk' hp hstate' (by simp) rfl rfl
  unfold Ends exitVma
  rw [wp_bind, wp_get]
  extract_lets v
  rw [wp_bind]
  refine wp_when (fun hused => ?_) fun _ => hlast k hk hstate
  rw [wp_bind]
  refine wp_post (wp_writeBack_ledger hk) ?_
  rintro _ k1 ⟨hproc1, hk1⟩
  rw [wp_bind]
  refine wp_onFiles_ledger stable_fileclose_pages hk1 fun _ k2 hproc2 hk2 => ?_
  have hstate2 : (k2.proc p).state ≠ .unused := by
    rw [hproc2, hproc1]
    exact hstate
  rw [wp_bind]
  refine wp_unmapPages_ledger hk2 hp hstate2 (fun hs => hspares hs hused)
    fun pt k3 hproc3 hk3 => ?_
  refine wp_setTenant_ledger (fun _ => rfl) hk3 fun k4 htenant4 hk4 => hlast k4 hk4 ?_
  rw [state_of_tenant (htenant4 p), hproc3, update_self]
  exact hstate2

theorem wp_exit_ledger {status : Int} : Ends (exit p status) (Ledger strict total none 0) k := by
  unfold Ends exit
  refine wp_ite (fun _ => wp_panic.mpr trivial) fun _ => ?_
  rw [wp_bind]
  refine wp_post (wp_iter (fun _ _ k' => (k'.proc p).state ≠ .unused ∧
    Ledger strict total none 0 k') ⟨hstate, hk⟩ ?_) ?_
  · rintro fd _ k1 _ _ ⟨hstate1, hk1⟩
    rw [wp_bind, wp_get]
    split
    · exact wp_pure.mpr ⟨hstate1, hk1⟩
    · rw [wp_bind]
      refine wp_onFiles_ledger stable_fileclose_pages hk1 fun _ k2 hproc2 hk2 => ?_
      refine wp_setTenant_ledger (fun _ => rfl) hk2 fun k3 htenant3 hk3 => ⟨?_, hk3⟩
      rw [state_of_tenant (htenant3 p), hproc2]
      exact hstate1
  · rintro _ k1 ⟨hstate1, hk1⟩
    exact wp_setState_ledger hk1 hp hstate1 (by simp) rfl rfl

theorem wp_exitEnd_ledger : Ends (exitEnd p) (Ledger strict total none 0) k := by
  have hput : wp (Act.when (k.proc p).cwd.isSome (onFiles (iput ((k.proc p).cwd.getD 0))))
      (fun _ k1 => k1.proc = k.proc ∧ Ledger strict total none 0 k1) (fun _ => True) k :=
    wp_when (fun _ => wp_onFiles_ledger (stable_uncached keeps_iput) hk
      fun _ k1 hproc1 hk1 => ⟨hproc1, hk1⟩) fun _ => ⟨rfl, hk⟩
  unfold Ends exitEnd
  rw [wp_bind, wp_get, wp_bind]
  refine wp_post hput ?_
  rintro _ k1 ⟨hproc1, hk1⟩
  rw [wp_bind]
  refine wp_setTenant_ledger (fun _ => rfl) hk1 fun k2 htenant2 hk2 => ?_
  have htenant3 : ∀ q, ((if (k2.proc q).parent = some p then { k2.proc q with parent := some 0 }
      else k2.proc q : Proc)).tenant = (k2.proc q).tenant := by
    intro q
    split <;> rfl
  unfold reparent
  rw [wp_bind, wp_modify]
  refine wp_setState_ledger ?_ hp ?_ (by simp) rfl rfl
  · exact hk2.congr rfl htenant3
  · rw [state_of_tenant (htenant3 p), state_of_tenant (htenant2 p), hproc1]
    exact hstate

end alive

end shrink

/-! ## Freeing a process -/

section free

variable {strict : Prop} {total : Nat → Nat} {k : Kernel} {p : Nat}

/-- What `freeproc` leaves in the slot. -/
def Proc.freed (pr : Proc) : Proc :=
  { pr with
    trapframe := 0, pagetable := PageTable.null, sz := 0, pid := 0, parent := none,
    killed := false, xstate := 0, state := .unused }

theorem Proc.pages_freed (pr : Proc) : pr.freed.pages = 0 := if_pos rfl

theorem Proc.tableOk_freed (pr : Proc) (m : Kmem) : pr.freed.TableOk strict m := ⟨rfl, rfl⟩

/-- A process that has a trap frame but no page table yet. -/
theorem wp_freeproc_framed (hk : Ledger strict total (some p) {(k.proc p).trapframe} k)
    (hp : p < NPROC) (hframe : (k.proc p).trapframe ≠ 0) (htable : (k.proc p).pagetable.addr = 0) :
    Ends (freeproc p) (Ledger strict total none 0) k := by
  rw [← add_zero ({(k.proc p).trapframe} : Multiset Nat)] at hk
  unfold Ends freeproc
  rw [wp_bind, wp_get]
  extract_lets pr
  rw [wp_bind]
  refine wp_when (fun _ => ?_) fun h => absurd hframe h
  refine wp_kfree_ledger hk fun k1 hproc1 hk1 => ?_
  rw [wp_bind]
  refine wp_when (fun h => absurd htable h) fun _ => ?_
  rw [wp_setProc]
  refine Ledger.finish (hk1.setProc hp ?_ fun h => absurd rfl h) fun _ => ?_
  · have hold : (k1.proc p).pages = 0 := by
      rw [hproc1]
      exact if_pos htable
    rw [hold]
    exact congrArg (· + 0) (Proc.pages_freed _)
  · simp only [update_self]
    exact Proc.tableOk_freed _ _

/-- A process with a page table that maps its trap frame. -/
theorem wp_freeproc_tabled (hk : Ledger strict total (some p) 0 k) (hp : p < NPROC)
    (hframe : (k.proc p).trapframe ≠ 0)
    (htable : TableFor (k.proc p).trapframe (k.proc p).pagetable k.files.kmem) :
    Ends (freeproc p) (Ledger strict total none 0) k := by
  unfold Ends freeproc
  rw [wp_bind, wp_get]
  extract_lets pr
  rw [wp_bind]
  refine wp_when (fun _ => ?_) fun h => absurd hframe h
  rw [wp_onMem]
  refine wp_post wp_kfree_freed fun _ m1 hfreed => ?_
  rw [wp_bind]
  refine wp_when (fun _ => ?_) fun h => absurd htable.addr h
  rw [wp_onMem]
  refine wp_post wp_procFreepagetable ?_
  rintro _ m2 ⟨ps, hfreed2, hpages2⟩
  rw [wp_setProc]
  -- the trap frame is freed by itself, the rest of the table with it
  have hfree : (m2.freelist : Multiset Nat) + 0 =
      (k.files.kmem.freelist : Multiset Nat) + pagesOf pr.pagetable := by
    rw [add_zero, hfreed2.freelist, hfreed.freelist, ← hpages2, htable.leafPart]
    abel
  have hk1 : Ledger strict total (some p) (pagesOf pr.pagetable)
      ⟨k.files, update k.proc p (k.proc p).freed, k.nextpid⟩ := by
    refine hk.setProc hp ?_ fun h => absurd rfl h
    have hold : (k.proc p).pages = pagesOf pr.pagetable := if_neg htable.addr
    rw [hold, Proc.pages_freed]
    abel
  refine Ledger.finish (hk1.setKmem (hfreed.toKeeps.trans hfreed2.toKeeps) hfree) fun _ => ?_
  simp only [update_self]
  exact Proc.tableOk_freed _ _

end free

end Xv6.Sys
