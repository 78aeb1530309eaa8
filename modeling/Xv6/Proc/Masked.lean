import Xv6.Vm.Masked
import Xv6.File.Content
import Xv6.Proc.Ledger

/-!
# Calls that do not look at masked memory

The twin rules for the calls with which a process goes through its mappings:
page faults, stores, `munmap` and `exit`. None of them looks at memory but
where it writes a mapping back, and there the bytes must not be masked.
-/

namespace Xv6.Sys

open Xv6.Lib Xv6.Lib.CInt Xv6.Vm Function
open Act

variable {α : Type} {f addr : Nat} {k k' : Kernel}

/-! ## Files -/

/-- The files differ only in memory, and there as `R` says. -/
structure Files.Like (R : Kmem → Kmem → Prop) (s s' : Files) : Prop where
  kmem : R s.kmem s'.kmem
  file : s'.file = s.file
  pipe : s'.pipe = s.pipe
  inode : s'.inode = s.inode
  dinode : s'.dinode = s.dinode

section files

variable {R : Kmem → Kmem → Prop}

theorem twin_onKmem {m m' : KmemM α} (h : Twin R m m') :
    Twin (Files.Like R) (onKmem m) (onKmem m') :=
  .within h (fun _ _ hs => hs.kmem) fun _ _ _ _ hs ht => ⟨ht, hs.file, hs.pipe, hs.inode, hs.dinode⟩

theorem twin_setFile {file : File} : Twin (Files.Like R) (setFile f file) (setFile f file) :=
  .modify fun _ _ h => ⟨h.kmem, by rw [h.file], h.pipe, h.inode, h.dinode⟩

theorem twin_iput {i : Nat} : Twin (Files.Like R) (iput i) (iput i) :=
  .modify fun _ _ h => ⟨h.kmem, h.file, h.pipe, by rw [h.inode], h.dinode⟩

theorem twin_ilock {ip : Option Nat} : Twin (Files.Like R) (ilock ip) (ilock ip) := by
  cases ip with
  | none => exact .panic
  | some i =>
    refine .get fun s s' h => ?_
    rw [h.inode, h.dinode]
    refine .ite .panic (.ite .pure (.ite .panic ?_))
    exact .modify fun _ _ h => ⟨h.kmem, h.file, h.pipe, by rw [h.inode], h.dinode⟩

theorem twin_fileclose (hkfree : ∀ pa, Twin R (kfree pa) (kfree pa)) :
    Twin (Files.Like R) (fileclose f) (fileclose f) := by
  refine .get fun s s' h => ?_
  rw [h.file]
  refine .ite .panic (.ite twin_setFile (.bind twin_setFile fun _ => ?_))
  unfold fileRelease
  split
  · refine .get fun s s' h => ?_
    rw [h.pipe]
    refine .bind (.modify fun _ _ h => ?_) fun _ => .when (twin_onKmem (hkfree _))
    exact ⟨h.kmem, h.file, by rw [h.pipe], h.inode, h.dinode⟩
  · exact twin_iput
  · exact twin_iput
  · exact .pure

end files

/-! ## Writing a mapping back -/

section write

variable {R : Kmem → Kmem → Prop} {pt : PageTable} {mem mem' : Nat → Bytes}

/-- The address is not masked, if there is a page for it. -/
def Unmasked (mask : Nat → Nat → Prop) (pt : PageTable) (va : Nat) : Prop :=
  walkaddr pt (pgRoundDown va) ≠ 0 →
    ¬mask (walkaddr pt (pgRoundDown va)) (va - pgRoundDown va)

theorem twin_filewrite {n : Int} (h : ∀ m m' j, R m m' → j < n.toNat →
      SameAt pt m.mem m'.mem (uint64 ((addr : Int) + j))) :
    Twin (Files.Like R) (filewrite pt f addr n) (filewrite pt f addr n) := by
  have hchunk : ∀ i, Twin (Files.Like R) (filewriteChunk pt f addr n.toNat i)
      (filewriteChunk pt f addr n.toNat i) := by
    intro i
    refine .get fun s s' hs => ?_
    rw [hs.file, hs.inode, hs.dinode]
    refine .bind twin_ilock fun _ => ?_
    have hwrite : ∀ ip off, writei pt s'.kmem.mem ip (uint64 ((addr : Int) + i)) off
        (min (n.toNat - i) maxChunk) =
        writei pt s.kmem.mem ip (uint64 ((addr : Int) + i)) off
          (min (n.toNat - i) maxChunk) := by
      intro ip off
      rw [writei_exact, writei_exact, getBytes_congr fun j hj => ?_]
      rw [uint64_shift]
      exact h _ _ (i + j) hs.kmem (by omega)
    extract_lets inum
    rw [hwrite]
    refine .bind (.modify fun _ _ h => ?_) fun _ => ?_
    · exact ⟨h.kmem, h.file, h.pipe, h.inode, by rw [h.dinode]⟩
    exact .bind (.when twin_setFile) fun _ => .ite .pure .pure
  refine .get fun s s' hs => ?_
  rw [hs.file]
  refine .ite .pure ?_
  split
  · exact .pure
  · exact .ite .pure .pure
  · refine .bind (.loop (fun _ i => hchunk i) _ _ _) fun r => ?_
    cases r with
    | inl i => exact .pure
    | inr i => exact .pure
  · exact .panic

end write

/-! ## Reading a page of a file -/

theorem readi_masked {buf buf' : Bytes} {unmasked : Nat → Prop}
    (h : ∀ i, unmasked i → buf' i = buf i) (ip : DInode) {off n : Nat} (hn : n < 2 ^ 64) :
    (readi ip kernelOut buf' 0 off n).2 = (readi ip kernelOut buf 0 off n).2 ∧ ∀ i, unmasked i →
        (readi ip kernelOut buf' 0 off n).1 i = (readi ip kernelOut buf 0 off n).1 i := by
  rw [readi_kernel hn, readi_kernel hn]
  split
  · refine ⟨rfl, fun i hi => ?_⟩
    show (if _ then _ else buf' i) = if _ then _ else buf i
    rw [h i hi]
  · exact ⟨rfl, h⟩

/-! ## System calls -/

/-- The machines differ only in masked memory. -/
structure Kernel.Like (mask : Nat → Nat → Prop) (k k' : Kernel) : Prop where
  files : k.files.Like (Kmem.Like mask) k'.files
  proc : k'.proc = k.proc
  nextpid : k'.nextpid = k.nextpid

section calls

variable {mask : Nat → Nat → Prop} {p : Nat}

theorem twin_onFiles {m m' : FilesM α} (h : Twin (Files.Like (Kmem.Like mask)) m m') :
    Twin (Kernel.Like mask) (onFiles m) (onFiles m') :=
  .within h (fun _ _ hs => hs.files) fun _ _ _ _ hs ht => ⟨ht, hs.proc, hs.nextpid⟩

theorem twin_onMem {m m' : KmemM α} (h : Twin (Kmem.Like mask) m m') :
    Twin (Kernel.Like mask) (onMem m) (onMem m') :=
  twin_onFiles (twin_onKmem h)

theorem twin_setProc {f : Proc → Proc} : Twin (Kernel.Like mask) (setProc p f) (setProc p f) :=
  .modify fun _ _ h => ⟨h.files, by rw [h.proc], h.nextpid⟩

theorem twin_onPagetable {m : PageTable → KmemM (PageTable × α)}
    (h : ∀ pt, Twin (Kmem.Like mask) (m pt) (m pt)) :
    Twin (Kernel.Like mask) (onPagetable p m) (onPagetable p m) := by
  refine .get fun k k' hk => ?_
  rw [hk.proc]
  exact .bind (twin_onMem (h _)) fun _ => .bind twin_setProc fun _ => .pure

theorem Kernel.Like.setPage (h : k.Like mask k') {pa : Nat}
    {page page' : Bytes} (hpage : ∀ i, ¬mask pa i ∨ pa ∈ k.files.kmem.freelist → page' i = page i) :
    Kernel.Like mask { k with files.kmem.mem := update k.files.kmem.mem pa page }
      { k' with files.kmem.mem := update k'.files.kmem.mem pa page' } := by
  refine ⟨⟨⟨h.files.kmem.kend, h.files.kmem.trampoline, h.files.kmem.freelist, fun x off hx => ?_⟩,
    h.files.file, h.files.pipe, h.files.inode, h.files.dinode⟩, h.proc, h.nextpid⟩
  by_cases heq : x = pa
  · subst heq
    simp only [update_self]
    exact hpage off hx
  · simp only [update_of_ne heq]
    exact h.files.kmem.mem x off hx

theorem twin_mapFilePage {v : Vma} {va : Int} {pa : Nat} :
    Twin (Kernel.Like mask) (mapFilePage p v va pa) (mapFilePage p v va pa) := by
  have hback : Twin (Kernel.Like mask) (do onMem (kfree pa); pure (-1 : Int))
      (do onMem (kfree pa); pure (-1)) := .bind (twin_onMem twin_kfree) fun _ => .pure
  refine .bind (twin_onMem twin_memset) fun _ => .get fun k1 k1' h1 => ?_
  rw [h1.files.file, h1.files.inode, h1.files.dinode]
  extract_lets file ip offset
  refine .bind (twin_onFiles twin_ilock) fun _ => ⟨fun k2 k2' h2 => ?_⟩
  -- the page is read over what it held, which is the same where it is not masked
  have hsame : ∀ i, (¬mask pa i ∨ pa ∈ k2.files.kmem.freelist) →
      k2'.files.kmem.mem pa i = k2.files.kmem.mem pa i := h2.files.kmem.mem pa
  obtain ⟨hbytes, hpage⟩ := @readi_masked _ _ _ hsame ip (uint32 offset) PGSIZE (by decide)
  rw [get_bind, get_bind]
  rcases hread : readi ip kernelOut (k2.files.kmem.mem pa) 0 (uint32 offset) PGSIZE
    with ⟨page, readbytes⟩
  rcases hread' : readi ip kernelOut (k2'.files.kmem.mem pa) 0 (uint32 offset) PGSIZE
    with ⟨page', readbytes'⟩
  rw [hread, hread'] at hbytes hpage
  obtain rfl : readbytes' = readbytes := hbytes
  have hmap : Twin (Kernel.Like mask)
      (onPagetable p fun pt =>
        mappages pt (pgRoundDown (uint64 va)) PGSIZE pa v.pteFlags)
      (onPagetable p fun pt =>
        mappages pt (pgRoundDown (uint64 va)) PGSIZE pa v.pteFlags) :=
    twin_onPagetable fun _ => twin_mappages
  have hrest := Twin.ite (c := readbytes' = 0) hback
    (.bind hmap fun r => .ite (c := r ≠ 0) hback (.pure (a := (0 : Int))))
  exact hrest.agree _ _ (h2.setPage hpage)

theorem twin_mmapHandler {va : Int} {cause : Nat} :
    Twin (Kernel.Like mask) (mmapHandler p va cause) (mmapHandler p va cause) := by
  refine .get fun k k' h => ?_
  rw [h.proc, h.files.file]
  split
  · exact .pure
  · refine .ite .pure (.ite .pure (.bind (twin_onMem twin_kalloc) fun r => ?_))
    cases r with
    | none => exact .pure
    | some pa => exact twin_mapFilePage

theorem twin_pageFault {sp va cause : Nat} :
    Twin (Kernel.Like mask) (pageFault p sp va cause) (pageFault p sp va cause) := by
  refine .get fun k k' h => ?_
  rw [h.proc]
  exact .ite (.bind twin_mmapHandler fun _ => .when twin_setProc) twin_setProc

/-- The bytes of the mapping are written back when it is unmapped. -/
def Vma.WritesBack (v : Vma) : Prop := v.flags = MAP_SHARED ∧ hasBit v.prot PROT_WRITE = true

theorem twin_writeBack {pt : PageTable} {v : Vma} {length : Int}
    (h : v.WritesBack → ∀ j, j < length.toNat → Unmasked mask pt (uint64 ((addr : Int) + j))) :
    Twin (Kernel.Like mask) (writeBack pt v addr length) (writeBack pt v addr length) := by
  unfold writeBack
  by_cases hback : v.WritesBack
  · refine .when (.bind (twin_onFiles (twin_filewrite fun _ _ j hm hj hpa => ?_)) fun _ => .pure)
    exact hm.mem _ _ (.inl (h hback j hj hpa))
  · unfold Act.when
    unfold Vma.WritesBack at hback
    rw [if_neg hback]
    exact .pure

theorem twin_unmapPages {length : Int} :
    Twin (Kernel.Like mask) (unmapPages p addr length) (unmapPages p addr length) :=
  twin_onPagetable fun _ => .bind (twin_uvmunmap fun _ => twin_kfree) fun _ => .pure

theorem Vma.writesBack_munmapHit (v : Vma) (addr : Nat) (length : Int) :
    ((v.munmapHit addr length).getD v).WritesBack ↔ v.WritesBack := by
  unfold Vma.munmapHit
  split
  · split
    · rfl
    · split <;> rfl
  · rfl

theorem agree_sysMunmap {a0 a1 : UInt64} (hk : k.Like mask k')
    (h : ∀ i, munmapSlot (k.proc p).vma (argaddr a0) (argint a1) = some i →
      ((k.proc p).vma i).WritesBack → ∀ j, j < (argint a1).toNat →
        Unmasked mask (k.proc p).pagetable (uint64 ((argaddr a0 : Int) + j))) :
    Agree (Kernel.Like mask) (sysMunmap p a0 a1 k) (sysMunmap p a0 a1 k') := by
  unfold sysMunmap
  rw [get_bind, get_bind, hk.proc]
  generalize k.proc p = pr at h ⊢
  cases hslot : munmapSlot pr.vma (argaddr a0) (argint a1) with
  | none => exact Twin.pure.agree _ _ hk
  | some i =>
    simp only
    generalize hv : ((pr.vma i).munmapHit (argaddr a0) (argint a1)).getD (pr.vma i) = v
    have hback : v.WritesBack ↔ (pr.vma i).WritesBack := by
      rw [← hv]
      exact Vma.writesBack_munmapHit _ _ _
    refine Twin.agree ?_ _ _ hk
    refine .bind twin_setProc fun _ => .bind (twin_writeBack fun hv => ?_) fun _ => ?_
    · exact h i hslot (hback.mp hv)
    refine .bind twin_unmapPages fun _ => .bind (.when ?_) fun _ => .pure
    exact .bind (twin_onFiles (twin_fileclose fun _ => twin_kfree)) fun _ => twin_setProc

theorem agree_exitVma {i : Nat} (hk : k.Like mask k')
    (h : ((k.proc p).vma i).used = true → ((k.proc p).vma i).WritesBack →
      ∀ j, j < ((k.proc p).vma i).length.toNat →
        Unmasked mask (k.proc p).pagetable (uint64 ((((k.proc p).vma i).addr : Int) + j))) :
    Agree (Kernel.Like mask) (exitVma p i k) (exitVma p i k') := by
  unfold exitVma
  rw [get_bind, get_bind, hk.proc]
  generalize hv : (k.proc p).vma i = v at h ⊢
  refine Twin.agree ?_ _ _ hk
  refine .bind ?_ fun _ => twin_setProc
  by_cases hused : v.used = true
  · refine .when (.bind (twin_writeBack (h hused)) fun _ => ?_)
    refine .bind (twin_onFiles (twin_fileclose fun _ => twin_kfree)) fun _ => ?_
    exact .bind twin_unmapPages fun _ => twin_setProc
  · unfold Act.when
    rw [if_neg hused]
    exact .pure

theorem twin_exit {status : Int} : Twin (Kernel.Like mask) (exit p status) (exit p status) := by
  refine .ite .panic (.bind (.iter (fun fd _ => ?_) _ _ _) fun _ => twin_setProc)
  refine .get fun k k' h => ?_
  rw [h.proc]
  split
  · exact .pure
  · exact .bind (twin_onFiles (twin_fileclose fun _ => twin_kfree)) fun _ => twin_setProc

theorem twin_exitEnd : Twin (Kernel.Like mask) (exitEnd p) (exitEnd p) := by
  refine .get fun k k' h => ?_
  rw [h.proc]
  refine .bind (.when (twin_onFiles twin_iput)) fun _ => .bind twin_setProc fun _ => ?_
  refine .bind (.modify fun _ _ h => ?_) fun _ => twin_setProc
  exact ⟨h.files, by rw [h.proc], h.nextpid⟩

theorem twin_load {sp va : UInt64} : Twin (Kernel.Like mask) (load p sp va) (load p sp va) := by
  refine .get fun k k' h => ?_
  rw [h.proc]
  split
  · exact .pure
  · exact twin_pageFault

/-- A store, of the same byte or of two bytes at a masked place. -/
theorem agree_store {sp va : UInt64} {b b' : UInt8} (hk : k.Like mask k')
    (h : b' = b ∨ ∀ pa, userPage (k.proc p).pagetable va.toNat PTE_W = some pa →
      mask pa (va.toNat % PGSIZE) ∧ pa ∉ k.files.kmem.freelist) :
    Agree (Kernel.Like mask) (store p sp va b k) (store p sp va b' k') := by
  unfold store
  rw [get_bind, get_bind, hk.proc]
  cases hpa : userPage (k.proc p).pagetable va.toNat PTE_W with
  | none => exact twin_pageFault.agree _ _ hk
  | some pa =>
    refine ⟨rfl, hk.setPage fun i hi => ?_⟩
    by_cases hoff : i = va.toNat % PGSIZE
    · rw [hoff, update_self, update_self]
      rcases h with rfl | h
      · rfl
      · obtain ⟨hmask, hfree⟩ := h pa hpa
        rw [hoff] at hi
        rcases hi with hi | hi
        · exact absurd hmask hi
        · exact absurd hi hfree
    · rw [update_of_ne hoff, update_of_ne hoff]
      exact hk.files.kmem.mem pa i hi

end calls

end Xv6.Sys
