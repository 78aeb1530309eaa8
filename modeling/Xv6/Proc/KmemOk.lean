import Xv6.Vm.Walk
import Xv6.File.Spec
import Xv6.Proc.Syscall

/-!
# The free list holds pages

Every page on the free list is a page of the memory after the kernel. `kfree`
checks this and nothing else puts a page on the list, so every action on
memory and on files keeps it.
-/

namespace Xv6.Vm

open Xv6.Lib Xv6.Lib.CInt
open Act

variable {α : Type} {pa i va sz : Nat} {pt : PageTable}

theorem Kmem.Ok.setMem {k : Kmem} (h : k.Ok) (mem : Nat → Bytes) : Kmem.Ok { k with mem := mem } :=
  ⟨h.kend, h.trampoline, h.free⟩

theorem stable_memset {c : UInt8} : Stable Kmem.Ok (memset pa c) :=
  .modify fun _ h => h.setMem _

theorem stable_kalloc : Stable Kmem.Ok kalloc := by
  refine ⟨fun k hk => wp_kalloc (fun _ => hk) fun r next hfree => ?_⟩
  exact (Kmem.takes_cons hfree fun x hx => Function.update_of_ne hx ..).ok hk

theorem stable_kfree : Stable Kmem.Ok (kfree pa) :=
  ⟨fun _ hk => wp_kfree trivial fun ha hb hc => hk.cons ha hb hc⟩

theorem stable_descend {fresh : Nat → α} {dir : DirPage α} {alloc : Bool} :
    Stable Kmem.Ok (descend fresh dir i alloc) := by
  unfold descend
  split
  · exact .pure
  · refine .ite (.bind stable_kalloc fun r => ?_) .pure
    split
    · exact .pure
    · exact .bind stable_memset fun _ => .pure

theorem stable_walk {alloc : Bool} : Stable Kmem.Ok (walk pt va alloc) := by
  refine .ite .panic (.bind stable_descend fun r => ?_)
  split
  split
  · exact .pure
  · exact .bind stable_descend fun _ => .pure

theorem stable_mappages {size perm : Nat} : Stable Kmem.Ok (mappages pt va size pa perm) := by
  unfold mappages
  extract_lets first last rounds body
  refine .bind (.loop (fun i pt => ?_) _ _ _) fun r => ?_
  · refine .bind stable_walk fun r => ?_
    exact .ite .pure (.ite .panic .pure)
  · split <;> exact .pure

theorem stable_uvmunmap {npages : Nat} {doFree : Bool} :
    Stable Kmem.Ok (uvmunmap pt va npages doFree) := by
  unfold uvmunmap
  extract_lets body
  refine .ite .panic (.iter (fun i pt => ?_) _ _ _)
  refine .bind stable_walk fun r => .ite .panic (.ite .pure ?_)
  exact .ite .panic (.bind (.when stable_kfree) fun _ => .pure)

theorem stable_uvmcreate : Stable Kmem.Ok uvmcreate := by
  refine .bind stable_kalloc fun r => ?_
  split
  · exact .pure
  · exact .bind stable_memset fun _ => .pure

theorem stable_uvmdealloc {oldsz newsz : Nat} : Stable Kmem.Ok (uvmdealloc pt oldsz newsz) := by
  unfold uvmdealloc
  extract_lets npages
  refine .ite .pure (.ite ?_ .pure)
  exact .bind stable_uvmunmap fun _ => .pure

theorem stable_uvmalloc {oldsz newsz : Nat} : Stable Kmem.Ok (uvmalloc pt oldsz newsz) := by
  unfold uvmalloc
  extract_lets first body
  refine .ite .pure (.bind (.loop (fun i pt => ?_) _ _ _) fun r => ?_)
  · refine .bind stable_kalloc fun r => ?_
    split
    · exact .bind stable_uvmdealloc fun _ => .pure
    · refine .bind stable_memset fun _ => .bind stable_mappages fun r => ?_
      refine .ite (.bind stable_kfree fun _ => ?_) .pure
      exact .bind stable_uvmdealloc fun _ => .pure
  · split <;> exact .pure

theorem stable_freewalkLeafPage {page : LeafPage} : Stable Kmem.Ok (freewalkLeafPage page) := by
  refine .bind (.iter (fun i _ => ?_) _ _ _) fun _ => stable_kfree
  exact .ite .panic (.ite .panic .pure)

theorem stable_freewalkDirPage {freeChild : α → KmemM Unit} {page : DirPage α}
    (h : ∀ child, Stable Kmem.Ok (freeChild child)) :
    Stable Kmem.Ok (freewalkDirPage freeChild page) := by
  refine .bind (.iter (fun i _ => ?_) _ _ _) fun _ => stable_kfree
  split
  · exact h _
  · exact .pure

theorem stable_uvmfree : Stable Kmem.Ok (uvmfree pt sz) :=
  .bind (.ite stable_uvmunmap .pure) fun _ =>
    stable_freewalkDirPage fun _ => stable_freewalkDirPage fun _ => stable_freewalkLeafPage

theorem stable_uvmcopy {old new : PageTable} : Stable Kmem.Ok (uvmcopy old new sz) := by
  unfold uvmcopy
  extract_lets body
  refine .bind (.loop (fun j new => ?_) _ _ _) fun r => ?_
  · refine .bind stable_walk fun r => ?_
    refine .ite .panic (.ite .pure (.bind stable_kalloc fun r => ?_))
    split
    · exact .bind stable_uvmunmap fun _ => .pure
    · refine .bind (.modify fun _ h => h.setMem _) fun _ => ?_
      refine .bind stable_mappages fun r => .ite ?_ .pure
      exact .bind stable_kfree fun _ => .bind stable_uvmunmap fun _ => .pure
  · split <;> exact .pure

theorem stable_uvmclear : Stable Kmem.Ok (uvmclear pt va) :=
  .bind stable_walk fun _ => .ite .panic .pure

end Xv6.Vm

namespace Xv6.Sys

open Xv6.Lib Xv6.Lib.CInt Xv6.Vm
open Act

variable {α : Type} {pa i sz f addr : Nat} {pt : PageTable} {n : Int} {found : Option Nat}
  {k : Kernel} {m : FilesM α}

theorem stable_procPagetable {trapframe : Nat} : Stable Kmem.Ok (procPagetable trapframe) := by
  refine .bind stable_uvmcreate fun r => ?_
  split
  · exact .pure
  · refine .bind .get fun k => .bind stable_mappages fun r => .ite ?_ ?_
    · exact .bind stable_uvmfree fun _ => .pure
    · refine .bind stable_mappages fun r => .ite ?_ .pure
      exact .bind stable_uvmunmap fun _ => .bind stable_uvmfree fun _ => .pure

theorem stable_procFreepagetable : Stable Kmem.Ok (procFreepagetable pt sz) :=
  .bind stable_uvmunmap fun _ => .bind stable_uvmunmap fun _ => stable_uvmfree

theorem stable_loadseg {offset : Nat} {ip : DInode} :
    Stable Kmem.Ok (loadseg pt va ip offset sz) := by
  unfold loadseg
  extract_lets body
  refine .ite .panic (.bind (.loop (fun j _ => ?_) _ _ _) fun r => ?_)
  · refine .ite .panic (.bind .get fun k => ?_)
    split
    refine .bind (.modify fun _ h => h.setMem _) fun _ => ?_
    exact .ite .pure .pure
  · split <;> exact .pure

theorem stable_loadProgram {ip : DInode} {elf : Bytes} :
    Stable Kmem.Ok (loadProgram ip elf pt) := by
  refine .loop (fun i image => ?_) _ _ _
  unfold loadProgHdr
  split
  extract_lets ph
  refine .ite .pure (.ite .pure (.ite .pure ?_))
  refine .ite .pure (.bind stable_uvmalloc fun r => ?_)
  refine .ite .pure (.ite .pure (.bind stable_loadseg fun r => ?_))
  exact .ite .pure .pure

theorem stable_allocStack : Stable Kmem.Ok (allocStack pt sz) :=
  .bind stable_uvmalloc fun _ => .ite .pure
    (.bind stable_uvmclear fun _ => .pure)

/-! ## Open files -/

section files

variable {J : Kmem → Prop}

theorem stable_of_keeps (h : Keeps Files.kmem m) : Stable (fun s => J s.kmem) m :=
  h.stable_of fun _ _ hview hs => (congrArg J hview).mpr hs

theorem stable_onKmem {m : KmemM α} (h : Stable J m) :
    Stable (fun s : Files => J s.kmem) (onKmem m) :=
  .within h (fun _ hs => hs) fun _ _ _ ht => ht

theorem keeps_setFile_kmem {file : File} : Keeps Files.kmem (setFile f file) :=
  .modify fun _ => rfl

theorem keeps_filealloc_kmem : Keeps Files.kmem filealloc := by
  refine .bind .get fun s => ?_
  split
  · exact .pure
  · exact .bind keeps_setFile_kmem fun _ => .pure

variable (hkfree : ∀ pa, Stable J (kfree pa))
include hkfree

/-- `fileclose` changes memory only where it frees the page of a pipe. -/
theorem stable_fileclose_mem : Stable (fun s : Files => J s.kmem) (fileclose f) := by
  unfold fileclose
  refine .bind .get fun s => ?_
  extract_lets ff
  have hset : ∀ file, Stable (fun s : Files => J s.kmem) (setFile f file) :=
    fun file => stable_of_keeps keeps_setFile_kmem
  refine .ite .panic (.ite (hset _) (.bind (hset _) fun _ => ?_))
  unfold fileRelease
  split
  · unfold pipeclose
    refine .bind .get fun s => ?_
    extract_lets p
    refine .bind (stable_of_keeps (.modify fun _ => rfl)) fun _ => ?_
    exact .when (stable_onKmem (hkfree _))
  · exact stable_of_keeps (.modify fun _ => rfl)
  · exact stable_of_keeps (.modify fun _ => rfl)
  · exact .pure

/-- `pipealloc` allocates from the memory it is called in. -/
theorem ends_pipealloc_mem {s : Files} (hs : J s.kmem) (hkalloc : Ends kalloc J s.kmem) :
    Ends pipealloc (fun s' => J s'.kmem) s := by
  have hclose : ∀ {f}, Stable (fun s : Files => J s.kmem) (fileclose f) :=
    stable_fileclose_mem hkfree
  refine wp_bind.mpr (keeps_filealloc_kmem.wp fun r s1 hs1 => ?_)
  rw [← hs1] at hs hkalloc
  split
  · exact wp_pure.mpr hs
  refine wp_bind.mpr (keeps_filealloc_kmem.wp fun r s2 hs2 => ?_)
  rw [← hs2] at hs hkalloc
  split
  · exact (Stable.bind hclose fun _ => .pure).stays s2 hs
  rw [wp_bind, wp_onKmem]
  refine wp_post hkalloc fun r m hm => Stable.stays (I := fun s : Files => J s.kmem) ?_ _ hm
  split
  · exact .bind hclose fun _ => .bind hclose fun _ => .pure
  · refine stable_of_keeps (.bind (.modify fun _ => rfl) fun _ => ?_)
    refine .bind .get fun s => .bind keeps_setFile_kmem fun _ => ?_
    exact .bind .get fun s => .bind keeps_setFile_kmem fun _ => .pure

omit hkfree in
theorem stable_onFiles_mem (h : Stable (fun s : Files => J s.kmem) m) :
    Stable (fun k : Kernel => J k.files.kmem) (onFiles m) :=
  .within h (fun _ h => h) fun _ _ _ h => h

theorem stable_freeproc_mem {p : Nat} (hfree : ∀ pt sz, Stable J (procFreepagetable pt sz)) :
    Stable (fun k : Kernel => J k.files.kmem) (freeproc p) :=
  .bind .get fun _ => .bind (.when (stable_onFiles_mem (stable_onKmem (hkfree _)))) fun _ =>
    .bind (.when (stable_onFiles_mem (stable_onKmem (hfree _ _)))) fun _ => .modify fun _ h => h

end files

/-- The free list of the machine holds pages. -/
def Kernel.MemOk (k : Kernel) : Prop := k.files.kmem.Ok

theorem fresh_memOk (h : Fresh k) : k.MemOk where
  kend := h.kend
  trampoline := by
    refine ⟨h.trampoline.1, Nat.lt_of_lt_of_le h.trampoline.2 ?_⟩
    decide
  free := h.ram

end Xv6.Sys
