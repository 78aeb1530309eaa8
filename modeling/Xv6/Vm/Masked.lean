import Xv6.Lib.Twin
import Xv6.Vm.Walk

/-!
# Bytes that nothing looks at

Two memories are alike up to a mask when they differ only in bytes of the mask
that are not on a free page. Allocating, freeing and mapping pages does not
look at what is in them, so it goes the same way in both and leaves them
alike: a page that is freed is filled and is the same again in both.
-/

namespace Xv6.Vm

open Xv6.Lib Xv6.Lib.CInt Function
open Act

variable {k : Kmem} {pa va : Nat} {pt : PageTable}

/-- The memories differ only in masked bytes of pages that are in use. -/
structure Kmem.Like (mask : Nat → Nat → Prop) (k k' : Kmem) : Prop where
  kend : k'.kend = k.kend
  trampoline : k'.trampoline = k.trampoline
  freelist : k'.freelist = k.freelist
  mem : ∀ pa off, ¬mask pa off ∨ pa ∈ k.freelist → k'.mem pa off = k.mem pa off

section alloc

variable {mask : Nat → Nat → Prop}

theorem Kmem.Like.setMem {k' : Kmem} (h : k.Like mask k') (pa : Nat) (b : Bytes) :
    Kmem.Like mask { k with mem := update k.mem pa b } { k' with mem := update k'.mem pa b } where
  kend := h.kend
  trampoline := h.trampoline
  freelist := h.freelist
  mem x off hx := by
    by_cases heq : x = pa
    · subst heq
      simp only [update_self]
    · simp only [update_of_ne heq]
      exact h.mem x off hx

theorem twin_memset {c : UInt8} : Twin (Kmem.Like mask) (memset pa c) (memset pa c) :=
  .modify fun _ _ h => h.setMem pa _

theorem twin_kfree : Twin (Kmem.Like mask) (kfree pa) (kfree pa) := by
  refine .get fun k k' h => ?_
  rw [h.kend]
  refine .ite .panic ⟨fun s s' hs => ?_⟩
  refine ⟨rfl, hs.kend, hs.trampoline, congrArg (pa :: ·) hs.freelist, fun x off hx => ?_⟩
  by_cases heq : x = pa
  · subst heq
    simp only [update_self]
  · simp only [update_of_ne heq]
    exact hs.mem x off (hx.imp_right fun hmem => (List.mem_cons.mp hmem).resolve_left heq)

theorem kalloc_nil (h : k.freelist = []) : kalloc k = .ok (none, k) := by
  simp [kalloc, bind, Act.get, h, pure]

theorem kalloc_cons {r : Nat} {next : List Nat} (h : k.freelist = r :: next) :
    kalloc k = .ok (some r, { k with
      freelist := next, mem := update k.mem r fun _ => 5 }) := by
  simp [kalloc, bind, Act.get, h, pure, memset, Act.modify]

theorem twin_kalloc : Twin (Kmem.Like mask) kalloc kalloc := by
  refine ⟨fun s s' hs => ?_⟩
  cases hfree : s.freelist with
  | nil =>
    rw [kalloc_nil hfree, kalloc_nil (hs.freelist.trans hfree)]
    exact ⟨rfl, hs⟩
  | cons r next =>
    rw [kalloc_cons hfree, kalloc_cons (hs.freelist.trans hfree)]
    refine ⟨rfl, hs.kend, hs.trampoline, rfl, fun x off hx => ?_⟩
    by_cases heq : x = r
    · subst heq
      simp only [update_self]
    · simp only [update_of_ne heq]
      refine hs.mem x off (hx.imp_right fun hmem => ?_)
      rw [hfree]
      exact List.mem_cons_of_mem r hmem

section walk

variable {R : Kmem → Kmem → Prop} {alloc : Bool}
  (halloc : alloc = true → Twin R kalloc kalloc ∧ ∀ pa, Twin R (memset pa 0) (memset pa 0))
include halloc

theorem twin_descend {α : Type} {fresh : Nat → α} {dir : DirPage α} {i : Nat} :
    Twin R (descend fresh dir i alloc) (descend fresh dir i alloc) := by
  unfold descend
  split
  · exact .pure
  split
  · obtain ⟨hkalloc, hmemset⟩ := halloc ‹_›
    refine .bind hkalloc fun r => ?_
    cases r with
    | none => exact .pure
    | some pa => exact .bind (hmemset pa) fun _ => .pure
  · exact .pure

theorem twin_walk : Twin R (walk pt va alloc) (walk pt va alloc) := by
  refine .ite .panic (.bind (twin_descend halloc) fun r => ?_)
  obtain ⟨pt', mid⟩ := r
  cases mid with
  | none => exact .pure
  | some mid => exact .bind (twin_descend halloc) fun _ => .pure

end walk

theorem twin_mappages {size perm : Nat} :
    Twin (Kmem.Like mask) (mappages pt va size pa perm) (mappages pt va size pa perm) := by
  refine .bind (.loop (fun i pt => ?_) _ _ _) fun r => ?_
  · refine .bind (twin_walk fun _ => ⟨twin_kalloc, fun _ => twin_memset⟩) fun r => ?_
    exact .ite .pure (.ite .panic .pure)
  · cases r with
    | inl pt => exact .pure
    | inr pt => exact .pure

theorem twin_uvmunmap {R : Kmem → Kmem → Prop} (hkfree : ∀ pa, Twin R (kfree pa) (kfree pa))
    {npages : Nat} {doFree : Bool} :
    Twin R (uvmunmap pt va npages doFree) (uvmunmap pt va npages doFree) := by
  refine .ite .panic (.iter (fun i pt => ?_) _ _ _)
  refine .bind (twin_walk fun h => absurd h (by decide)) fun r => ?_
  refine .ite .panic (.ite .pure (.ite .panic ?_))
  exact .bind (.when (hkfree _)) fun _ => .pure

end alloc

end Xv6.Vm
