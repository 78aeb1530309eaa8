import Xv6.File.Content
import Xv6.Proc.KmemOk
import Xv6.Proc.RefCalls

/-!
# Page faults

A load or a store that the page table does not allow traps, and the
page-fault branch of `usertrap` either maps a page or marks the process
killed. `mmap_handler` does so without a panic as long as the mapping that it
finds is not one of a pipe, and the page of the address that it is given, an
`int`, is below `MAXVA` and not present. The other assumptions of the
functions it calls hold in every run: the file of a mapping is open on a valid
inode, since reference counts are exact, and a page that `kalloc` gave can be
freed again.

The condition can fail in a run. A store to a page that is present without
write permission is handled as if the page were missing, and `mappages`
panics. A mapping of a pipe has no inode to lock.
-/

namespace Xv6.Sys

open Xv6.Lib Xv6.Lib.CInt Xv6.Vm Function
open Act

/-! ## The fault that an access causes -/

/-- The address of the page fault that an event causes, if it causes one. -/
def faultAddr (k : Kernel) (p : Nat) : Event → Option UInt64
  | .load _ va => if userPage (k.proc p).pagetable va.toNat PTE_R = none then some va else none
  | .store _ va _ => if userPage (k.proc p).pagetable va.toNat PTE_W = none then some va else none
  | _ => none

/-- The page that `mmap_handler` maps for a fault. -/
def faultPage (va : Nat) : Nat := pgRoundDown (uint64 (int32 va))

/-- A fault that `mmap_handler` can handle: if it finds a mapping that the
access is allowed to, the mapping is not one of a pipe, and the page is below
`MAXVA` and not present. -/
def FaultCan (k : Kernel) (p va cause : Nat) : Prop :=
  ∀ i, faultSlot (k.proc p).vma (int32 va) = some i →
    let file := k.files.file ((k.proc p).vma i).vfile
    (cause = 13 → file.readable = true) → (cause = 15 → file.writable = true) →
    file.type ≠ .pipe ∧ faultPage va < MAXVA ∧ ¬Valid ((k.proc p).pagetable.pte (faultPage va))

/-- Every fault that gets to `mmap_handler` is one that it can handle. -/
def FaultCond (k : Kernel) (p : Nat) : Event → Prop
  | .load sp va =>
    userPage (k.proc p).pagetable va.toNat PTE_R = none →
    uint64 (pgRoundUp sp.toNat - 1) < va.toNat → va.toNat < (k.proc p).sz →
    FaultCan k p va.toNat 13
  | .store sp va _ =>
    userPage (k.proc p).pagetable va.toNat PTE_W = none →
    uint64 (pgRoundUp sp.toNat - 1) < va.toNat → va.toNat < (k.proc p).sz →
    FaultCan k p va.toNat 15
  | _ => True

/-- The page is there now and was not before. -/
def NewPage (k : Kernel) (p page : Nat) (k' : Kernel) : Prop :=
  ¬Valid ((k.proc p).pagetable.pte page) ∧ Valid ((k'.proc p).pagetable.pte page)

/-! ## The handler -/

/-- The offset in the file that `mmap_handler` reads a page for `va` from. -/
def Vma.fileOffset (v : Vma) (va : Int) : Nat :=
  uint32 (int32 (uint64 (v.offset + pgRoundDown (uint64 (va - v.addr)))))

/-- The inode that a mapping is of. -/
def Files.mapped (s : Files) (v : Vma) : DInode :=
  s.dinode (s.inode ((s.file v.vfile).ip.getD 0)).inum

/-- The page of `va` overlaps the file. -/
def Vma.InFile (v : Vma) (s : Files) (va : Int) : Prop :=
  v.fileOffset va < (s.mapped v).size ∧ v.fileOffset va ≤ uint32 ((v.fileOffset va : Int) + PGSIZE)

/-- What decides about the faults of process `p` is as before, but for its page
table and the free pages. -/
structure SameMappings (k : Kernel) (p : Nat) (k' : Kernel) : Prop where
  vma : (k'.proc p).vma = (k.proc p).vma
  sz : (k'.proc p).sz = (k.proc p).sz
  killed : (k'.proc p).killed = (k.proc p).killed
  file : k'.files.file = k.files.file
  lock : ∀ ip, k'.files.canLock ip = k.files.canLock ip
  mapped : ∀ v, k'.files.mapped v = k.files.mapped v

/-- Process `p` has the entry `w` for the page, and its other entries are as
before. This took some pages besides those for the page table. -/
structure Brought (k : Kernel) (p page w pages : Nat) (k' : Kernel) : Prop
    extends SameMappings k p k' where
  pte : ∀ x, x < 2 ^ 39 → (k'.proc p).pagetable.pte x =
    if x / PGSIZE = page / PGSIZE then w else (k.proc p).pagetable.pte x
  tables : Reached (k.proc p).pagetable page (k'.proc p).pagetable
  spent : k.files.kmem.freelist.length =
    k'.files.kmem.freelist.length + missingTables (k.proc p).pagetable page + pages

/-- What it takes to fill a page from the file and to map it. -/
structure Fills (k : Kernel) (p : Nat) (v : Vma) (va : Int) : Prop where
  lock : k.files.canLock (k.files.file v.vfile).ip = true
  content : v.InFile k.files va
  low : pgRoundDown (uint64 va) < MAXVA
  absent : ¬Valid ((k.proc p).pagetable.pte (pgRoundDown (uint64 va)))
  memory : missingTables (k.proc p).pagetable (pgRoundDown (uint64 va)) ≤
    k.files.kmem.freelist.length

/-- The outcome of a function that gives 0 exactly if `C`, and then with `P`. -/
structure ZeroIff (C P : Prop) (r : Int) : Prop where
  zero : r = 0 → C ∧ P
  other : r ≠ 0 → ¬C

/-- What can stop the kernel while it fills a page and maps it. -/
def MapFails (k : Kernel) (p : Nat) (v : Vma) (va : Int) (pa : Nat) : Prop :=
  k.files.canLock (k.files.file v.vfile).ip = false ∨ MAXVA ≤ pgRoundDown (uint64 va) ∨
    Valid ((k.proc p).pagetable.pte (pgRoundDown (uint64 va))) ∨ ¬k.files.kmem.Ram pa

section handler

variable {k : Kernel} {p : Nat} {v : Vma} {va : Int} {pa : Nat}

/-- Only the contents of pages differ. -/
structure Refilled (k k' : Kernel) : Prop where
  proc : k'.proc = k.proc
  file : k'.files.file = k.files.file
  inode : k'.files.inode = k.files.inode
  dinode : k'.files.dinode = k.files.dinode
  freelist : k'.files.kmem.freelist = k.files.kmem.freelist
  kend : k'.files.kmem.kend = k.files.kmem.kend

theorem wp_refilled {f : Kmem → Nat → Bytes} {Q : Unit → Kernel → Prop} {E : Panic → Prop}
    (h : ∀ k', Refilled k k' → Q () k') :
    wp (onMem (modify fun m => { m with mem := f m })) Q E k := by
  rw [wp_onMem, wp_modify]
  exact h _ ⟨rfl, rfl, rfl, rfl, rfl, rfl⟩

theorem Refilled.canLock {k' : Kernel} (h : Refilled k k') (ip : Option Nat) :
    k'.files.canLock ip = k.files.canLock ip := by
  unfold Files.canLock
  rw [h.inode, h.dinode]

theorem Refilled.fills {k' : Kernel} (h : Refilled k k') : Fills k' p v va ↔ Fills k p v va := by
  have hinfile : v.InFile k'.files va ↔ v.InFile k.files va := by
    unfold Vma.InFile Files.mapped
    rw [h.file, h.inode, h.dinode]
  constructor
  · rintro ⟨hlock, hcontent, hlow, habsent, hmemory⟩
    rw [h.canLock, h.file] at hlock
    rw [h.proc] at habsent hmemory
    rw [h.freelist] at hmemory
    exact ⟨hlock, hinfile.mp hcontent, hlow, habsent, hmemory⟩
  · rintro ⟨hlock, hcontent, hlow, habsent, hmemory⟩
    refine ⟨?_, hinfile.mpr hcontent, hlow, ?_, ?_⟩
    · rw [h.canLock, h.file]
      exact hlock
    · rw [h.proc]
      exact habsent
    · rw [h.proc, h.freelist]
      exact hmemory

theorem SameMappings.trans {k1 k' : Kernel} (h : SameMappings k p k1) (h' : SameMappings k1 p k') :
    SameMappings k p k' :=
  ⟨h'.vma.trans h.vma, h'.sz.trans h.sz, h'.killed.trans h.killed, h'.file.trans h.file,
    fun ip => (h'.lock ip).trans (h.lock ip), fun v => (h'.mapped v).trans (h.mapped v)⟩

theorem Refilled.sameMappings {k' : Kernel} (h : Refilled k k') (p : Nat) : SameMappings k p k' := by
  refine ⟨by rw [h.proc], by rw [h.proc], by rw [h.proc], h.file, h.canLock, fun v => ?_⟩
  unfold Files.mapped
  rw [h.file, h.inode, h.dinode]

theorem Refilled.brought {k1 k' : Kernel} {page w pages : Nat} (h : Refilled k k1)
    (hk' : Brought k1 p page w pages k') : Brought k p page w pages k' := by
  refine ⟨(h.sameMappings p).trans hk'.toSameMappings, ?_, ?_, ?_⟩
  · rw [← h.proc]
    exact hk'.pte
  · rw [← h.proc]
    exact hk'.tables
  · rw [← h.proc, ← h.freelist]
    exact hk'.spent

theorem Brought.refilled {k1 k' : Kernel} {page w pages : Nat} (hk : Brought k p page w pages k1)
    (h : Refilled k1 k') : Brought k p page w pages k' := by
  refine ⟨hk.toSameMappings.trans (h.sameMappings p), ?_, ?_, ?_⟩
  · rw [h.proc]
    exact hk.pte
  · rw [h.proc]
    exact hk.tables
  · rw [h.freelist]
    exact hk.spent

theorem Refilled.mapFails {k' : Kernel} (h : Refilled k k') :
    MapFails k' p v va pa ↔ MapFails k p v va pa := by
  unfold MapFails Kmem.Ram
  rw [h.canLock, h.file, h.proc, h.kend]

theorem wp_mapFilePage_exact :
    wp (mapFilePage p v va pa) (fun r k' => ZeroIff (Fills k p v va)
        (Brought k p (pgRoundDown (uint64 va)) (mkPte pa v.pteFlags) 0 k') r)
      (fun _ => ¬Fills k p v va ∧ MapFails k p v va pa) k := by
  have hfree : ∀ k3 : Kernel, k3.files.kmem.kend = k.files.kmem.kend → ¬Fills k p v va →
      wp (onMem (kfree pa) >>= fun _ => pure (-1))
        (fun r k' => ZeroIff (Fills k p v va)
          (Brought k p (pgRoundDown (uint64 va)) (mkPte pa v.pteFlags) 0 k') r)
        (fun _ => ¬Fills k p v va ∧ MapFails k p v va pa) k3 := by
    intro k3 hkend hnot
    rw [wp_bind, wp_onMem]
    refine wp_kfree_exact (fun hram => ⟨hnot, .inr (.inr (.inr ?_))⟩)
      fun _ => wp_pure.mpr ⟨fun h => absurd h (by decide), fun _ => hnot⟩
    rwa [Kmem.Ram, hkend] at hram
  unfold mapFilePage
  rw [wp_bind]
  refine wp_refilled fun k1 hk1 => ?_
  rw [← hk1.fills, ← hk1.mapFails, ← hk1.kend] at hfree
  rw [← hk1.fills, ← hk1.mapFails]
  rw [wp_bind, wp_get]
  extract_lets file ip offset
  rw [wp_bind, wp_onFiles]
  refine wp_mono wp_ilock_exact ?_ ?_
  · rintro _ _ ⟨hlock, inode, rfl, hlocks, hinum⟩
    rw [wp_bind, wp_get]
    split
    rename_i page readbytes hread
    have hcontent : readbytes = 0 ↔ ¬v.InFile k1.files va := by
      have hzero := @readi_kernel_eq_zero (uint32 offset) PGSIZE ip
        (k1.files.kmem.mem pa) (by decide) (by decide)
      rw [hread] at hzero
      exact hzero
    rw [wp_bind, wp_onMem, wp_modify]
    refine wp_ite (fun hzero => hfree _ rfl fun hfills => hcontent.mp hzero hfills.content)
      fun hsome => ?_
    have hinfile : v.InFile k1.files va := Classical.not_not.mp (mt hcontent.mpr hsome)
    rw [wp_bind, wp_onPagetable]
    refine wp_mappages_exact (Nat.mul_mod_left _ _) (pgRoundDown_add_le (uint64_lt va))
      (fun hhigh => ⟨fun hfills => Nat.not_lt.mpr hhigh hfills.low, .inr (.inl hhigh)⟩)
      (fun _ hvalid => ⟨fun hfills => hfills.absent hvalid, .inr (.inr (.inl hvalid))⟩)
      (fun pt' m _ hwalked _ hshort => ?_) fun pt' m hlow hmapped hreached hspent => ?_
    · exact wp_ite (fun _ => hfree _ hwalked.kend fun hfills => absurd hfills.memory (Nat.not_le.mpr hshort))
        fun h => absurd (show (-1 : Int) ≠ 0 by decide) h
    · refine wp_ite (fun h => absurd rfl h) fun _ => wp_pure.mpr ⟨fun _ => ⟨?_, ?_⟩, fun h => absurd rfl h⟩
      · exact ⟨hlock, hinfile, hlow, hmapped.fresh, Nat.le.intro ((Nat.add_comm ..).trans hspent.symm)⟩
      · refine hk1.brought ⟨⟨?_, ?_, ?_, rfl, hlocks, fun v => ?_⟩, fun x hx => ?_, ?_, hspent⟩
        · simp only [update_self]
        · simp only [update_self]
        · simp only [update_self]
        · unfold Files.mapped
          rw [hinum]
        · simp only [update_self]
          exact hmapped.pte x hx
        · simp only [update_self]
          exact hreached
  · intro e hlock
    exact ⟨fun hfills => absurd (hfills.lock.symm.trans hlock) (by decide), .inl hlock⟩

end handler

/-- `mmap_handler` maps a page, of the mapping in slot `j`, for a fault at `va`,
if there is memory. -/
@[mk_iff]
structure Handles (k : Kernel) (p va cause j : Nat) : Prop where
  first : faultSlot (k.proc p).vma (int32 va) = some j
  readable : cause = 13 → (k.files.file ((k.proc p).vma j).vfile).readable = true
  writable : cause = 15 → (k.files.file ((k.proc p).vma j).vfile).writable = true
  lock : k.files.canLock (k.files.file ((k.proc p).vma j).vfile).ip = true
  content : ((k.proc p).vma j).InFile k.files (int32 va)
  low : faultPage va < MAXVA
  absent : ¬Vm.Valid ((k.proc p).pagetable.pte (faultPage va))

/-- It does, with pages for the content and for the page table. -/
@[mk_iff]
structure Handled (k : Kernel) (p va cause j : Nat) : Prop extends Handles k p va cause j where
  memory : missingTables (k.proc p).pagetable (faultPage va) < k.files.kmem.freelist.length

/-- What can stop the kernel in `mmap_handler`, if it finds a mapping that the
access is allowed to. -/
def HandlerFails (k : Kernel) (p va cause : Nat) : Prop :=
  ∃ i, faultSlot (k.proc p).vma (int32 va) = some i ∧
    (cause = 13 → (k.files.file ((k.proc p).vma i).vfile).readable = true) ∧
    (cause = 15 → (k.files.file ((k.proc p).vma i).vfile).writable = true) ∧
    (k.files.canLock (k.files.file ((k.proc p).vma i).vfile).ip = false ∨ MAXVA ≤ faultPage va ∨
      Valid ((k.proc p).pagetable.pte (faultPage va)) ∨ ¬k.MemOk)

section fault

variable {k k' : Kernel} {p va cause j : Nat}

theorem Handled.fills {k1 : Kernel} (h : Handled k p va cause j) (hproc : k1.proc = k.proc)
    (hfiles : k1.files = { k.files with kmem := k1.files.kmem })
    (hfree : k.files.kmem.freelist.length = k1.files.kmem.freelist.length + 1) :
    Fills k1 p ((k.proc p).vma j) (int32 va) := by
  have hmemory := h.memory
  refine ⟨?_, ?_, h.low, ?_, ?_⟩
  · rw [hfiles]
    exact h.lock
  · rw [hfiles]
    exact h.content
  · rw [hproc]
    exact h.absent
  · rw [hproc]
    show missingTables _ (faultPage va) ≤ _
    omega

theorem wp_mmapHandler_exact :
    wp (mmapHandler p (int32 va) cause)
      (fun r k' => ZeroIff (∃ j, Handled k p va cause j) (∃ j pa, Handled k p va cause j ∧
          Brought k p (faultPage va) (mkPte pa ((k.proc p).vma j).pteFlags) 1 k') r)
      (fun _ => (¬∃ j, Handled k p va cause j) ∧ HandlerFails k p va cause) k := by
  have hkill : ∀ k' : Kernel, (¬∃ j, Handled k p va cause j) → ZeroIff (∃ j, Handled k p va cause j)
      (∃ j pa, Handled k p va cause j ∧
        Brought k p (faultPage va) (mkPte pa ((k.proc p).vma j).pteFlags) 1 k') (-1) :=
    fun _ hnot => ⟨fun h => absurd h (by decide), fun _ => hnot⟩
  unfold mmapHandler
  rw [wp_bind, wp_get]
  split
  · rename_i hnone
    refine wp_pure.mpr (hkill _ ?_)
    rintro ⟨j, hj⟩
    exact absurd (hj.first.symm.trans hnone) (by simp)
  rename_i i hslot
  have hfirst : ∀ j, Handled k p va cause j → j = i := fun j hj =>
    Option.some.inj (hj.first.symm.trans hslot)
  extract_lets v file
  refine wp_ite (fun hread => wp_pure.mpr (hkill _ ?_)) fun hread => ?_
  · rintro ⟨j, hj⟩
    have hmode := hj.readable hread.1
    rw [hfirst j hj] at hmode
    exact absurd (hmode.symm.trans hread.2) (by decide)
  refine wp_ite (fun hwrite => wp_pure.mpr (hkill _ ?_)) fun hwrite => ?_
  · rintro ⟨j, hj⟩
    have hmode := hj.writable hwrite.1
    rw [hfirst j hj] at hmode
    exact absurd (hmode.symm.trans hwrite.2) (by decide)
  rw [wp_bind, wp_onMem]
  refine wp_kalloc (fun hempty => wp_pure.mpr (hkill _ ?_)) fun pa next hfree => ?_
  · rintro ⟨j, hj⟩
    have hmemory := hj.memory
    rw [hempty] at hmemory
    exact absurd hmemory (Nat.not_lt_zero _)
  have hlength : k.files.kmem.freelist.length = next.length + 1 := by
    rw [hfree]
    rfl
  have hfills : ∀ j, Handled k p va cause j → Fills _ p v (int32 va) := fun j hj => by
    have hfill := @Handled.fills k p va cause j { k with files := { k.files with
      kmem := { k.files.kmem with
        freelist := next, mem := update k.files.kmem.mem pa fun _ => 5 } } } hj rfl rfl hlength
    rw [hfirst j hj] at hfill
    exact hfill
  have hreadable : cause = 13 → file.readable = true :=
    fun hc => Bool.eq_true_of_not_eq_false fun h => hread ⟨hc, h⟩
  have hwritable : cause = 15 → file.writable = true :=
    fun hc => Bool.eq_true_of_not_eq_false fun h => hwrite ⟨hc, h⟩
  refine wp_mono wp_mapFilePage_exact (fun r k' hr => ⟨fun hzero => ?_, fun hne => ?_⟩)
    fun _ hfail => ⟨?_, i, hslot, hreadable, hwritable, ?_⟩
  · obtain ⟨hfill, hbrought⟩ := hr.zero hzero
    have hhandled : Handled k p va cause i :=
      ⟨⟨hslot, hreadable, hwritable, hfill.lock, hfill.content, hfill.low, hfill.absent⟩,
        by rw [hlength]; exact Nat.lt_succ_of_le hfill.memory⟩
    obtain ⟨⟨hvma, hsz, hkilled, hfile, hlock, hmapped⟩, hpte, htables, hspent⟩ := hbrought
    exact ⟨⟨i, hhandled⟩, i, pa, hhandled, ⟨hvma, hsz, hkilled, hfile, hlock, hmapped⟩, hpte,
      htables, hlength.trans (congrArg (· + 1) hspent)⟩
  · rintro ⟨j, hj⟩
    exact hr.other hne (hfills j hj)
  · rintro ⟨j, hj⟩
    exact hfail.1 (hfills j hj)
  · refine hfail.2.imp_right (Or.imp_right (Or.imp_right fun hram hmem => hram ?_))
    exact hmem.free pa (by rw [hfree]; exact List.mem_cons_self)

/-- The address is in the window that `usertrap` compares it with. -/
def InWindow (k : Kernel) (p sp va : Nat) : Prop :=
  uint64 (pgRoundUp sp - 1) < va ∧ va < (k.proc p).sz

/-- A fault leaves the process alive exactly if a page is mapped for it. -/
structure Faulted (k : Kernel) (p sp va cause : Nat) (k' : Kernel) : Prop where
  alive : (k'.proc p).killed = false → InWindow k p sp va ∧ ∃ j pa, Handled k p va cause j ∧
    Brought k p (faultPage va) (mkPte pa ((k.proc p).vma j).pteFlags) 1 k'
  killed : (k'.proc p).killed = true → ¬(InWindow k p sp va ∧ ∃ j, Handled k p va cause j)

theorem Faulted.kill {sp : Nat} {k1 : Kernel}
    (hnot : ¬(InWindow k p sp va ∧ ∃ j, Handled k p va cause j)) :
    Faulted k p sp va cause { k1 with
      proc := update k1.proc p { k1.proc p with killed := true } } where
  alive h := by
    simp only [update_self] at h
    cases h
  killed _ := hnot

theorem wp_pageFault_exact {sp : Nat} (halive : (k.proc p).killed = false) :
    wp (pageFault p sp va cause) (fun _ k' => Faulted k p sp va cause k')
      (fun _ => ¬(InWindow k p sp va ∧ ∃ j, Handled k p va cause j) ∧
        InWindow k p sp va ∧ HandlerFails k p va cause) k := by
  unfold pageFault
  rw [wp_bind, wp_get]
  refine wp_ite (fun hwindow => ?_) fun hout => ?_
  · rw [wp_bind]
    refine wp_mono wp_mmapHandler_exact (fun r k' hr => ?_) fun _ hfail =>
      ⟨fun h => hfail.1 h.2, hwindow, hfail.2⟩
    refine wp_when (fun hne => ?_) fun hzero => ?_
    · rw [wp_setProc]
      exact .kill fun h => hr.other hne h.2
    · obtain ⟨-, j, pa, hhandled, hbrought⟩ := hr.zero (Classical.not_not.mp hzero)
      refine ⟨fun _ => ⟨hwindow, j, pa, hhandled, hbrought⟩, fun hkilled => ?_⟩
      rw [hbrought.killed, halive] at hkilled
      cases hkilled
  · rw [wp_setProc]
    exact .kill fun h => hout h.1

end fault

/-! ## Faults that do not stop the kernel -/

section run

variable {k : Kernel} {p : Nat}

theorem RefsExact.vma_ref (hk : RefsExact k) (hp : p < NPROC) {i : Nat} (hi : i < MAXMMAPITEM)
    (hused : ((k.proc p).vma i).used = true) : 1 ≤ (k.files.file ((k.proc p).vma i).vfile).ref := by
  have hheld : ((k.proc p).vma i).held = some ((k.proc p).vma i).vfile := if_pos hused
  have hvma := one_le_tally (g := fun i => ((k.proc p).vma i).held) hi hheld
  have hfd := tally_nonneg NOFILE (k.proc p).ofile ((k.proc p).vma i).vfile
  have hsum := Finset.single_le_sum (f := fun q => (k.proc q).holds ((k.proc p).vma i).vfile)
    (fun q _ => add_nonneg (tally_nonneg _ _ _) (tally_nonneg _ _ _)) (Finset.mem_range.mpr hp)
  rw [hk.file, Pi.zero_apply]
  unfold Kernel.held
  unfold Proc.holds at hsum ⊢
  omega

/-- A file that is referred to and not a pipe can be locked. -/
theorem RefsExact.canLock (hk : RefsExact k) {f : Nat} (href : 1 ≤ (k.files.file f).ref)
    (hpipe : (k.files.file f).type ≠ .pipe) : k.files.canLock (k.files.file f).ip = true := by
  have hnone := hk.ok.typed f (by simp) (by omega)
  have htype : (k.files.file f).type = .inode ∨ (k.files.file f).type = .device := by
    cases ht : (k.files.file f).type with
    | none => exact absurd ht hnone
    | pipe => exact absurd ht hpipe
    | inode => exact .inl rfl
    | device => exact .inr rfl
  obtain ⟨i, hip, hvalid⟩ := hk.ok.backed f htype
  have hiref := hk.ok.ref_pos ((File.onSlot_of_type htype).trans hip)
  simp [hip, Files.canLock, hiref, hvalid]

theorem faultSlot_some {vma : Nat → Vma} {va : Int} {i : Nat} (h : faultSlot vma va = some i) :
    i < MAXMMAPITEM ∧ (vma i).used = true := by
  unfold faultSlot at h
  have hcontains := List.find?_some h
  unfold Vma.contains at hcontains
  simp only [Bool.and_eq_true] at hcontains
  exact ⟨List.mem_range.mp (List.mem_of_find?_eq_some h), hcontains.1.1⟩

/-- A fault that gets to the handler only if the handler can handle it. -/
theorem wp_pageFault_total {sp va cause : Nat} (hp : p < NPROC) (halive : (k.proc p).killed = false)
    (hrefs : RefsExact k) (hmem : k.MemOk)
    (hcan : uint64 (pgRoundUp sp - 1) < va → va < (k.proc p).sz → FaultCan k p va cause) :
    wp (pageFault p sp va cause)
      (fun _ k' => (k'.proc p).killed = true ∨ NewPage k p (faultPage va) k')
      (fun _ => False) k := by
  refine wp_mono (wp_pageFault_exact halive) (fun _ k' h => ?_) fun _ h => ?_
  · refine (Bool.eq_false_or_eq_true (k'.proc p).killed).imp_right fun hlive => ?_
    obtain ⟨-, j, pa, hhandled, hbrought⟩ := h.alive hlive
    refine ⟨hhandled.absent, ?_⟩
    rw [hbrought.pte _ (Nat.lt_trans hhandled.low (by decide)), if_pos rfl]
    exact valid_mkPte _ _
  · obtain ⟨-, hwindow, i, hslot, hread, hwrite, hfail⟩ := h
    obtain ⟨hpipe, hlow, habsent⟩ := hcan hwindow.1 hwindow.2 i hslot hread hwrite
    obtain ⟨hi, hused⟩ := faultSlot_some hslot
    have hlock := RefsExact.canLock hrefs (RefsExact.vma_ref hrefs hp hi hused) hpipe
    rcases hfail with h | h | h | h
    · exact absurd (hlock.symm.trans h) (by decide)
    · exact absurd hlow (Nat.not_lt.mpr h)
    · exact habsent h
    · exact h hmem

end run

/-! ## Runs -/

/-- In every run in which the handler only gets faults that it can handle, an
access that faults does not stop the kernel: the process is killed, or a page
is there that was not. -/
theorem pageFault_run {k0 k : Kernel} (hboot : Boot k0) (hrun : Run FaultCond k0 k) {p : Nat}
    {e : Event} {va : UInt64} (henabled : Enabled k p e) (hfault : faultAddr k p e = some va)
    (hcond : FaultCond k p e) :
    ∃ r k', step p e k = .ok (r, k') ∧
      ((k'.proc p).killed = true ∨ NewPage k p (faultPage va.toNat) k') := by
  have hrefs := run_refs hboot hrun
  have hmem := (run_refs hboot hrun).mem
  refine wp_total ?_
  cases e with
  | load sp va' =>
    simp only [faultAddr, Option.ite_none_right_eq_some, Option.some.injEq] at hfault
    obtain ⟨hnone, rfl⟩ := hfault
    unfold step load
    refine wp_ret ?_
    rw [wp_bind, wp_get, hnone]
    exact wp_pageFault_total henabled.1 henabled.2.2.1 hrefs hmem (hcond hnone)
  | store sp va' b =>
    simp only [faultAddr, Option.ite_none_right_eq_some, Option.some.injEq] at hfault
    obtain ⟨hnone, rfl⟩ := hfault
    unfold step store
    refine wp_ret ?_
    rw [wp_bind, wp_get, hnone]
    exact wp_pageFault_total henabled.1 henabled.2.2.1 hrefs hmem (hcond hnone)
  | _ => exact absurd hfault (by simp [faultAddr])

/-- Whether an event meets `FaultCond`. -/
def faultCheck (k : Kernel) (p : Nat) : Event → Bool
  | .load _ va => canCheck va.toNat 13
  | .store _ va _ => canCheck va.toNat 15
  | _ => true
where
  canCheck (va cause : Nat) : Bool :=
    match faultSlot (k.proc p).vma (int32 va) with
    | none => true
    | some i =>
      let file := k.files.file ((k.proc p).vma i).vfile
      (cause = 13 ∧ file.readable = false) ∨ (cause = 15 ∧ file.writable = false) ∨
        (file.type ≠ .pipe ∧ faultPage va < MAXVA ∧
          ¬Valid ((k.proc p).pagetable.pte (faultPage va)))

theorem faultCan_of_canCheck {k : Kernel} {p va cause : Nat}
    (h : faultCheck.canCheck k p va cause = true) : FaultCan k p va cause := by
  intro i hslot
  unfold faultCheck.canCheck at h
  rw [hslot] at h
  extract_lets file
  intro hread hwrite
  rw [decide_eq_true_eq] at h
  rcases h with ⟨hc, hno⟩ | ⟨hc, hno⟩ | h
  · exact absurd ((hread hc).symm.trans hno) (by decide)
  · exact absurd ((hwrite hc).symm.trans hno) (by decide)
  · exact h

theorem faultCond_of_faultCheck (k : Kernel) (p : Nat) (e : Event)
    (h : faultCheck k p e = true) : FaultCond k p e := by
  cases e with
  | load sp va => exact fun _ _ _ => faultCan_of_canCheck h
  | store sp va b => exact fun _ _ _ => faultCan_of_canCheck h
  | _ => trivial

/-- A process maps a file and stores to its second page. -/
theorem pageFault_run_mapped :
    ∃ k0 k r k', Boot k0 ∧ Run FaultCond k0 k ∧ (k.proc 0).killed = false ∧
      step 0 (.store 0x1000 0x2000 7) k = .ok (r, k') ∧
      ((k'.proc 0).killed = true ∨ NewPage k 0 (faultPage 0x2000) k') := by
  obtain ⟨k0, k, hboot, hrun, hfact⟩ := smallMachine_run faultCond_of_faultCheck
    [(0, .openFile (some 2) 2), (0, .mmap 0 8192 3 1 0 0)]
    (fun k => decide (Enabled k 0 (.store 0x1000 0x2000 7) ∧ (k.proc 0).killed = false ∧
      faultAddr k 0 (.store 0x1000 0x2000 7) = some 0x2000 ∧
      faultCheck k 0 (.store 0x1000 0x2000 7) = true)) (by decide +kernel)
  obtain ⟨henabled, hkilled, hfault, hcheck⟩ := of_decide_eq_true hfact
  obtain ⟨r, k', hstep, hdone⟩ := pageFault_run hboot hrun henabled hfault
    (faultCond_of_faultCheck _ _ _ hcheck)
  exact ⟨k0, k, r, k', hboot, hrun, hkilled, hstep, hdone⟩

/-- A process maps a file that is open for reading and writing without write
permission, loads from the mapping and stores to it: the page is there, and
mapping it again panics. -/
theorem pageFault_remap :
    ∃ k0 k, Boot k0 ∧ Run (fun _ _ _ => True) k0 k ∧
      faultAddr k 0 (.store 0x1000 0x1000 7) = some 0x1000 ∧
      Enabled k 0 (.store 0x1000 0x1000 7) ∧
      ∃ err, step 0 (.store 0x1000 0x1000 7) k = .error err ∧ err.text = "remap" := by
  obtain ⟨k0, k, hboot, hrun, hfact⟩ := smallMachine_anyRun
    [(0, .openFile (some 2) 2), (0, .mmap 0 8192 1 1 0 0), (0, .load 0x1000 0x1000)]
    (fun k => decide (faultAddr k 0 (.store 0x1000 0x1000 7) = some 0x1000) &&
      stepPanics 0 (.store 0x1000 0x1000 7) "remap" k) (by decide +kernel)
  rw [Bool.and_eq_true, decide_eq_true_eq] at hfact
  exact ⟨k0, k, hboot, hrun, hfact.1, stepPanics_iff.mp hfact.2⟩

-- a mapping of a pipe has no inode to lock
example : (bootEvents (fun _ _ _ => true) 1 [(0, .pipe 0x10), (0, .mmap 0 4096 1 2 0 0)]
    smallMachine).any (stepPanics 0 (.load 0x1000 0x1000) "ilock") = true := by
  decide +kernel

end Xv6.Sys
