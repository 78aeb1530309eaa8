import Xv6.Vm.Free

/-!
# Page-table operations lose no page

A function that changes a page table takes pages off the free list or gives
pages back, and what the free list and the table hold together stays the
same. `Moves` states this, with what else the owner of the table relies on:
the trampoline stays mapped, and so does the trap frame if it was.

Here a panic ends the story, so each rule allows all of them.
-/

namespace Xv6.Vm

open Xv6.Lib Xv6.Lib.CInt
open Act

/-- Physical memory without the bytes. -/
def Kmem.bare (k : Kmem) : Kmem := { k with mem := fun _ _ => 0 }

theorem Kmem.eq_of_bare {k k' : Kmem} (h : k'.bare = k.bare) :
    k'.kend = k.kend ∧ k'.trampoline = k.trampoline ∧ k'.freelist = k.freelist := by
  simp only [Kmem.bare, Kmem.mk.injEq] at h
  exact ⟨h.1, h.2.1, h.2.2.1⟩

theorem Kmem.Keeps.of_bare {k k' : Kmem} (h : k'.bare = k.bare) : k.Keeps k' := by
  obtain ⟨hkend, htramp, hfree⟩ := Kmem.eq_of_bare h
  refine ⟨hkend, htramp, fun hk => ⟨?_, ?_, ?_⟩⟩
  · rw [hkend]
    exact hk.kend
  · rw [htramp]
    exact hk.trampoline
  · rw [hkend, hfree]
    exact hk.free

/-- The table maps a page of the kernel as the trampoline. -/
structure MapsTramp (pt : PageTable) (k : Kmem) : Prop where
  valid : Valid (pt.pte TRAMPOLINE)
  kernel : pte2pa (pt.pte TRAMPOLINE) < k.kend
  noUser : hasFlag (pt.pte TRAMPOLINE) PTE_U = false

/-- Pages have moved between the free list and the table. -/
structure Moves (pt : PageTable) (k : Kmem) (pt' : PageTable) (k' : Kmem) :
    Prop extends k.Keeps k' where
  addr : pt'.addr = pt.addr
  tramp : pt'.pte TRAMPOLINE = pt.pte TRAMPOLINE
  pages : (k'.freelist : Multiset Nat) + pagesOf pt' =
    (k.freelist : Multiset Nat) + pagesOf pt

/-- The trap frame is mapped as before. -/
def SameFrame (pt pt' : PageTable) : Prop :=
  pt'.pte TRAPFRAME = pt.pte TRAPFRAME

section moves

variable {pt pt' pt'' : PageTable} {k k' k'' : Kmem}

theorem Moves.refl : Moves pt k pt k := ⟨.refl k, rfl, rfl, rfl⟩

theorem Moves.of_bare (h : k'.bare = k.bare) : Moves pt k pt k' :=
  ⟨.of_bare h, rfl, rfl, by rw [(Kmem.eq_of_bare h).2.2]⟩

theorem Moves.trans (h : Moves pt k pt' k') (h' : Moves pt' k' pt'' k'') : Moves pt k pt'' k'' :=
  ⟨h.toKeeps.trans h'.toKeeps, h'.addr.trans h.addr, h'.tramp.trans h.tramp, h'.pages.trans h.pages⟩

theorem MapsTramp.of_pte (h : MapsTramp pt k) (hpte : pt'.pte TRAMPOLINE = pt.pte TRAMPOLINE)
    (hkend : k'.kend = k.kend) : MapsTramp pt' k' := by
  refine ⟨?_, ?_, ?_⟩
  · rw [hpte]
    exact h.valid
  · rw [hpte, hkend]
    exact h.kernel
  · rw [hpte]
    exact h.noUser

theorem MapsTramp.moves (h : MapsTramp pt k) (hm : Moves pt k pt' k') : MapsTramp pt' k' :=
  h.of_pte hm.tramp hm.kend

theorem MapsTramp.keeps (h : MapsTramp pt k) (hm : k.Keeps k') : MapsTramp pt k' :=
  h.of_pte rfl hm.kend

/-- The trampoline is not user memory. -/
theorem MapsTramp.user_low (h : MapsTramp pt k) {va : Nat}
    (hva : va < MAXVA) (huser : hasFlag (pt.pte va) PTE_U = true) : va / PGSIZE < userPages := by
  by_contra hle
  have hpage : va / PGSIZE = TRAMPOLINE / PGSIZE := by
    simp only [userPages, TRAMPOLINE, MAXVA, PGSIZE] at hva hle ⊢
    omega
  rw [PageTable.pte_eq_of_page hpage, h.noUser] at huser
  exact absurd huser Bool.false_ne_true

theorem SameFrame.refl : SameFrame pt pt := rfl

theorem SameFrame.trans (h : SameFrame pt pt') (h' : SameFrame pt' pt'') : SameFrame pt pt'' :=
  Eq.trans h' h

theorem SameFrame.valid (h : SameFrame pt pt') (hv : Valid (pt.pte TRAPFRAME)) :
    Valid (pt'.pte TRAPFRAME) := by
  rw [h]
  exact hv

end moves

/-! ## `uvmunmap` and `uvmdealloc` -/

section unmap

variable {pt pt' : PageTable} {va n : Nat} {k k' : Kmem}

theorem Unmapped.not_tramp (h : Unmapped pt va n true k pt' k')
    (htramp : MapsTramp pt k) : ¬(va ≤ TRAMPOLINE ∧ TRAMPOLINE < va + n * PGSIZE) := by
  rintro ⟨hle, hlt⟩
  have hfreed := (h.freed rfl TRAMPOLINE hle hlt htramp.valid).1
  exact absurd htramp.kernel (Nat.not_lt.mpr hfreed)

theorem Unmapped.moves (h : Unmapped pt va n true k pt' k')
    (haligned : va % PGSIZE = 0) (htramp : MapsTramp pt k) : Moves pt k pt' k' where
  toKeeps := h.toKeeps
  addr := h.addr
  tramp := by
    rw [h.pte _ (by decide), if_neg fun hc => h.not_tramp htramp ⟨hc.1, hc.2.1⟩]
  pages := by
    have hleaves := h.leaves rfl fun x hx hle hlt _ => by
      have hmax := h.lt_maxva haligned hle hlt
      refine h.not_tramp htramp ⟨?_, Nat.lt_of_le_of_lt hx hlt⟩
      simp only [TRAMPOLINE, MAXVA, PGSIZE] at haligned hle hx hmax ⊢
      omega
    unfold pagesOf
    rw [h.tables, add_left_comm, hleaves]
    abel

theorem Unmapped.sameFrame {doFree : Bool} (h : Unmapped pt va n doFree k pt' k')
    (hout : ¬(va ≤ TRAPFRAME ∧ TRAPFRAME < va + n * PGSIZE)) : SameFrame pt pt' := by
  unfold SameFrame
  rw [h.pte _ (by decide), if_neg fun hc => hout ⟨hc.1, hc.2.1⟩]

theorem Unmapped.pte_of_valid {doFree : Bool} (h : Unmapped pt va n doFree k pt' k')
    {x : Nat} (hx : x < 2 ^ 39) (hv : Valid (pt'.pte x)) : pt'.pte x = pt.pte x := by
  rw [h.pte x hx] at hv ⊢
  split
  · rename_i hin
    rw [if_pos hin] at hv
    exact absurd hv not_valid_zero
  · rfl

theorem wp_uvmdealloc_moves {oldsz newsz : Nat} (hold : oldsz ≤ TRAPFRAME)
    (htramp : MapsTramp pt k) :
    wp (uvmdealloc pt oldsz newsz) (fun r k' =>
      Moves pt k r.1 k' ∧ SameFrame pt r.1) (fun _ => True) k := by
  refine wp_uvmdealloc_exact (fun _ => Nat.le_trans hold (by decide)) (fun _ => trivial)
    (fun _ => ⟨.refl, .refl⟩) fun pt' k' hlt hun _ => ?_
  refine ⟨hun.moves (pgRoundUp_aligned newsz) htramp, hun.sameFrame ?_⟩
  have hround : pgRoundUp oldsz ≤ TRAPFRAME := pgRoundUp_le (by decide) hold (by decide)
  have hrounds : deallocRounds oldsz newsz * PGSIZE ≤ pgRoundUp oldsz - pgRoundUp newsz :=
    Nat.div_mul_le_self _ _
  omega

end unmap

/-! ## `uvmalloc` -/

section alloc

variable {pt pt' : PageTable} {first n : Nat} {k k' : Kmem}

theorem Grown.moves (h : Grown pt first n k pt' k') (haligned : first % PGSIZE = 0)
    (htramp : MapsTramp pt k) (hfirst : first ≤ TRAMPOLINE) : Moves pt k pt' k' where
  toKeeps := h.toKeeps
  addr := h.addr
  tramp := by
    have hbelow := h.below haligned htramp.valid hfirst
    exact h.rest _ (by decide) fun hc => by omega
  pages := h.pages (h.below haligned htramp.valid hfirst)

/-- A page that is mapped is not a page that is added. -/
theorem Grown.rest_of_valid (h : Grown pt first n k pt' k') (haligned : first % PGSIZE = 0)
    {x : Nat} (hx : x < 2 ^ 39) (hv : Valid (pt.pte x)) : pt'.pte x = pt.pte x := by
  refine h.rest x hx fun ⟨hle, hlt⟩ => ?_
  have hin : (x - first) / PGSIZE < n := by
    simp only [PGSIZE] at hlt ⊢
    omega
  have hpage : x / PGSIZE = (first + (x - first) / PGSIZE * PGSIZE) / PGSIZE := by
    simp only [PGSIZE] at haligned ⊢
    omega
  rw [PageTable.pte_eq_of_page hpage] at hv
  exact (h.fresh _ hin).2 hv

theorem Restored.pte_of_valid (h : Restored pt first k pt' k') {x : Nat}
    (hx : x < 2 ^ 39) (hv : Valid (pt.pte x)) : pt'.pte x = pt.pte x :=
  (h.pte x hx).elim id fun hno => absurd hv hno.2

theorem Restored.moves (h : Restored pt first k pt' k')
    (htramp : MapsTramp pt k) (hfirst : first ≤ TRAMPOLINE) : Moves pt k pt' k' where
  toKeeps := h.toKeeps
  addr := h.addr
  tramp := h.pte_of_valid (by decide) htramp.valid
  pages := h.pages htramp.valid hfirst

/-- Growing below the trampoline; the new size is below it, too, and up to it
there are new pages. -/
theorem wp_uvmalloc_moves {oldsz newsz : Nat} (hk : k.Ok) (htramp : MapsTramp pt k)
    (hframe : Valid (pt.pte TRAPFRAME)) (hold : oldsz ≤ TRAMPOLINE) :
    wp (uvmalloc pt oldsz newsz) (fun r k' =>
      Moves pt k r.1 k' ∧ SameFrame pt r.1 ∧ r.2 ≤ TRAMPOLINE ∧
        (oldsz ≤ newsz → r.2 ≠ 0 → r.2 = newsz ∧ Filled pt (pgRoundUp oldsz)
          (pageRounds (pgRoundUp oldsz) newsz) k r.1 k')) (fun _ => True) k := by
  have hround : pgRoundUp oldsz ≤ TRAMPOLINE := pgRoundUp_le (by decide) hold (by decide)
  have haligned := pgRoundUp_aligned oldsz
  refine wp_uvmalloc_exact hk (Nat.le_trans (Nat.add_le_add_right hold _) (by decide))
    (fun _ => trivial) ?_ ?_ ?_
  · intro hlt
    exact ⟨.refl, .refl, hold, fun hle => absurd hlt (Nat.not_lt.mpr hle)⟩
  · intro pt' k' h _ _ _ _
    exact ⟨h.moves htramp hround, h.pte_of_valid (by decide) hframe, Nat.zero_le _,
      fun _ h0 => absurd rfl h0⟩
  · intro pt' k' _ h
    refine ⟨h.toGrown.moves haligned htramp hround,
      h.toGrown.rest_of_valid haligned (by decide) hframe, ?_, fun _ _ => ⟨rfl, h⟩⟩
    have hbelow := h.toGrown.below haligned htramp.valid hround
    unfold pageRounds at hbelow
    simp only [PGSIZE] at hbelow ⊢
    omega

end alloc

/-! ## `uvmclear` -/

/-- Clearing a flag that says nothing about the page keeps the page. -/
theorem leafPart_clear (w : Nat) : leafPart (w ^^^ (w &&& PTE_U)) = leafPart w := by
  have hvalid : Valid (w ^^^ (w &&& PTE_U)) ↔ Valid w := by
    have hbit : (w ^^^ (w &&& PTE_U)).testBit 0 = w.testBit 0 := by
      rw [Nat.testBit_xor, Nat.testBit_and]
      simp [PTE_U]
    rw [valid_iff, valid_iff, ← decide_eq_decide, ← Nat.testBit_zero, ← Nat.testBit_zero, hbit]
  have hpa : pte2pa (w ^^^ (w &&& PTE_U)) = pte2pa w := by
    unfold pte2pa
    rw [Nat.shiftRight_xor_distrib, Nat.shiftRight_and_distrib, show PTE_U >>> 10 = 0 from rfl,
      Nat.and_zero, Nat.xor_zero]
  by_cases h : Valid w
  · rw [leafPart_of_valid h, leafPart_of_valid (hvalid.mpr h), hpa]
  · rw [leafPart_of_not_valid h, leafPart_of_not_valid fun hc => h (hvalid.mp hc)]

theorem wp_uvmclear_moves {pt : PageTable} {va : Nat} {k : Kmem}
    (hva : va < TRAPFRAME ∨ MAXVA ≤ va) :
    wp (uvmclear pt va) (fun pt' k' => Moves pt k pt' k' ∧
      SameFrame pt pt' ∧ ∀ x, x < 2 ^ 39 → x / PGSIZE ≠ va / PGSIZE →
        pt'.pte x = pt.pte x) (fun _ => True) k := by
  unfold uvmclear
  rw [wp_bind]
  apply wp_walk_false fun _ => trivial
  intro hmax
  have hlow : va < TRAPFRAME := hva.resolve_right (Nat.not_le.mpr hmax)
  cases htable : pt.tableAt va with
  | false => exact wp_panic.mpr trivial
  | true =>
    have hother : ∀ x w, x < 2 ^ 39 → x / PGSIZE ≠ va / PGSIZE →
        (pt.setPte va w).pte x = pt.pte x := by
      intro x w hx hpage
      rw [PageTable.pte_setPte htable (lt_of_lt_maxva hmax) hx, if_neg hpage]
    have hhigh : ∀ x, TRAPFRAME ≤ x → x / PGSIZE ≠ va / PGSIZE := by
      intro x hle
      simp only [TRAPFRAME, TRAMPOLINE, MAXVA, PGSIZE] at hlow hle ⊢
      omega
    refine wp_pure.mpr ⟨⟨.refl k, PageTable.setPte_addr,
      hother _ _ (by decide) (hhigh _ (by decide)), ?_⟩,
      hother _ _ (by decide) (hhigh _ (Nat.le_refl _)), fun x => hother x _⟩
    have hset := leafPages_setPte (w := pt.pte va ^^^ (pt.pte va &&& PTE_U)) htable
      (Nat.lt_trans hlow (by decide))
    rw [leafPart_clear] at hset
    unfold pagesOf
    rw [tablePages_setPte, add_right_cancel hset]

/-! ## Mapping a page -/

section mapped

variable {pt pt' : PageTable} {va w : Nat} {k k' : Kmem}

theorem Mapped.low {pa perm : Nat} (h : Mapped pt va (mkPte pa perm) k pt' k')
    (hpa : PageAddr pa) (hperm : perm < 1024) (hva : va < TRAPFRAME) :
    pt'.pte TRAMPOLINE = pt.pte TRAMPOLINE ∧ SameFrame pt pt' ∧
      (k'.freelist : Multiset Nat) + pagesOf pt' =
        (k.freelist : Multiset Nat) + pagesOf pt + {pa} := by
  have hother : ∀ x, x < 2 ^ 39 → TRAPFRAME ≤ x → pt'.pte x = pt.pte x := by
    intro x hx hle
    rw [h.pte x hx, if_neg]
    simp only [TRAPFRAME, TRAMPOLINE, MAXVA, PGSIZE] at hva hle ⊢
    omega
  exact ⟨hother _ (by decide) (by decide), hother _ (by decide) (Nat.le_refl _),
    h.pages hpa hperm (Nat.lt_trans hva (by decide))⟩

end mapped

end Xv6.Vm
