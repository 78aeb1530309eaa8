import Xv6.Proc.Masked
import Xv6.Proc.Munmap
import Xv6.Proc.Ownership

/-!
# Private mappings and files

Two runs of a process that differ in what it stores into the pages of its
`MAP_PRIVATE` mappings. The files stay the same in both as long as a call of
`sys_munmap` that hits a shared mapping writes back addresses of shared
mappings only. It may not: the slot is found by the length, and the bytes
are taken from the address that was passed.

The bytes that may differ (`Tainted`) are those of user pages at addresses
outside all shared mappings. Along a run such a byte stays where it is or its
page is freed, and no new byte becomes shared, so the write-backs of later
calls never see one.
-/

namespace Xv6.Sys

open Xv6.Lib Xv6.Lib.CInt Xv6.Vm Function
open Act

variable {i va pa : Nat} {v : Vma} {k1 k1' : Kernel}

/-! ## Addresses of mappings -/

/-- Slot `i` is a mapping of the kind that has the address as byte `j`. -/
structure MapsByte (vma : Nat → Vma) (kind : Vma → Prop) (i j va : Nat) : Prop where
  slot : i < MAXMMAPITEM
  used : (vma i).used = true
  kind : kind (vma i)
  lt : (j : Int) < (vma i).length
  addr : va = uint64 ((vma i).addr + j)

/-- The address is in a shared mapping that is written back. -/
def SharedAddr (vma : Nat → Vma) (va : Nat) : Prop := ∃ i j, MapsByte vma Vma.WritesBack i j va

/-- The address is in a page of a private mapping. -/
def PrivatePage (vma : Nat → Vma) (va : Nat) : Prop :=
  ∃ i j x, MapsByte vma (fun v => v.flags = MAP_PRIVATE) i j x ∧ va / PGSIZE = x / PGSIZE

section shared

variable {vma : Nat → Vma}

/-- A mapping of the changed table that was not changed, or the slot that was. -/
theorem SharedAddr.update_cases (h : SharedAddr (update vma i v) va) :
    SharedAddr vma va ∨ i < MAXMMAPITEM ∧ v.used = true ∧ v.WritesBack ∧
      ∃ j : Nat, (j : Int) < v.length ∧ va = uint64 (v.addr + j) := by
  obtain ⟨i', j, hslot, hused, hback, hlt, haddr⟩ := h
  by_cases hi : i' = i
  · subst hi
    rw [update_self] at hused hback hlt haddr
    exact .inr ⟨hslot, hused, hback, j, hlt, haddr⟩
  · rw [update_of_ne hi] at hused hback hlt haddr
    exact .inl ⟨i', j, hslot, hused, hback, hlt, haddr⟩

/-- The shared addresses do not grow when a slot is not used any more. -/
theorem SharedAddr.of_unused (hv : v.used = false) (h : SharedAddr (update vma i v) va) :
    SharedAddr vma va := by
  rcases h.update_cases with h | ⟨_, hused, _⟩
  · exact h
  · rw [hv] at hused
    exact absurd hused Bool.false_ne_true

/-- Nor when a shared mapping loses an end of itself. -/
theorem SharedAddr.of_munmapHit {addr : Nat} {length : Int} {used : Bool}
    (hhit : (vma i).munmapHit addr length = some v) (hnonneg : (vma i).WritesBack → 0 ≤ length)
    (h : SharedAddr (update vma i { v with used := used }) va) : SharedAddr vma va := by
  rcases h.update_cases with h | ⟨hslot, -, hback, j, hlt, haddr⟩
  · exact h
  obtain ⟨hused, hle, hcases⟩ := Vma.munmapHit_cases hhit
  have hshort := int32_le_self (show 0 ≤ (vma i).length - length by omega)
  rcases hcases with ⟨-, rfl⟩ | ⟨-, -, rfl⟩
  · have h0 := hnonneg hback
    simp only at hlt haddr
    refine ⟨i, j + length.toNat, hslot, hused, hback, by omega, ?_⟩
    rw [haddr]
    unfold uint64
    push_cast
    omega
  · have h0 := hnonneg hback
    simp only at hlt haddr
    exact ⟨i, j, hslot, hused, hback, by omega, haddr⟩

end shared

/-! ## What an event leaves of the pages -/

/-- Process `p` still has the valid entries of `pr`, and its mappings. -/
structure Intact (pr : Proc) (p : Nat) (k : Kernel) : Prop where
  pte : ∀ x, x < 2 ^ 39 → Valid (pr.pagetable.pte x) →
    (k.proc p).pagetable.pte x = pr.pagetable.pte x
  vma : (k.proc p).vma = pr.vma

section intact

variable {α : Type} {pr : Proc} {p : Nat}

theorem stable_onFiles_intact {m : FilesM α} : Stable (Intact pr p) (onFiles m) :=
  (.within fun _ _ => rfl : Keeps Kernel.proc (onFiles m)).stable_of fun k k' hproc hk => by
    constructor <;> rw [hproc]
    · exact hk.pte
    · exact hk.vma

theorem stable_setProc_intact {f : Proc → Proc} (htable : ∀ pr, (f pr).pagetable = pr.pagetable)
    (hvma : ∀ pr, (f pr).vma = pr.vma) : Stable (Intact pr p) (setProc p f) := by
  refine .modify fun k hk => ⟨?_, ?_⟩
  · simp only [update_self, htable]
    exact hk.pte
  · simp only [update_self, hvma]
    exact hk.vma

/-- `mappages` panics rather than change a valid entry. -/
theorem stable_mapPage_intact {perm : Nat} (haligned : va % PGSIZE = 0)
    (hend : va + PGSIZE ≤ 2 ^ 64) :
    Stable (Intact pr p) (onPagetable p fun pt => mappages pt va PGSIZE pa perm) := by
  refine ⟨fun k hk => ?_⟩
  rw [wp_onPagetable]
  refine wp_mappages haligned hend ?_ ?_
  · intro pt m _ hwalked
    refine ⟨fun x hx hv => ?_, ?_⟩
    · simp only [update_self]
      rw [hwalked.pte, hk.pte x hx hv]
    · simp only [update_self]
      exact hk.vma
  · intro pt m hmax hmap
    refine ⟨fun x hx hv => ?_, ?_⟩
    · simp only [update_self]
      have hold := hk.pte x hx hv
      rw [hmap.pte x hx, if_neg, hold]
      intro hpage
      refine hmap.fresh ?_
      rw [← PageTable.pte_eq_of_page hpage, hold]
      exact hv
    · simp only [update_self]
      exact hk.vma

theorem stable_pageFault_intact {sp cause : Nat} :
    Stable (Intact pr p) (pageFault p sp va cause) := by
  have hkill : Stable (Intact pr p) (setProc p fun pr => { pr with killed := true }) :=
    stable_setProc_intact (fun _ => rfl) fun _ => rfl
  have hback : ∀ pa, Stable (Intact pr p) (do onMem (kfree pa); pure (-1 : Int)) :=
    fun pa => .bind stable_onFiles_intact fun _ => .pure
  have hmap : ∀ v x pa, Stable (Intact pr p) (mapFilePage p v x pa) := by
    intro v x pa
    unfold mapFilePage
    refine .bind stable_onFiles_intact fun _ => .bind .get fun k => ?_
    extract_lets file ip offset
    refine .bind stable_onFiles_intact fun _ => .bind .get fun k' => ?_
    split
    refine .bind stable_onFiles_intact fun _ => .ite (hback pa) ?_
    refine .bind (stable_mapPage_intact (Nat.mul_mod_left _ _)
      (pgRoundDown_add_le (uint64_lt x))) fun _ => ?_
    exact .ite (hback pa) .pure
  unfold pageFault
  refine .bind .get fun k => .ite (.bind ?_ fun _ => .when hkill) hkill
  unfold mmapHandler
  refine .bind .get fun k => ?_
  split
  · exact .pure
  · refine .ite .pure (.ite .pure ?_)
    refine .bind stable_onFiles_intact fun r => ?_
    split
    · exact .pure
    · exact hmap _ _ _

theorem stable_load_intact {sp va : UInt64} : Stable (Intact pr p) (load p sp va) := by
  refine .bind .get fun k => ?_
  split
  · exact .pure
  · exact stable_pageFault_intact

theorem stable_store_intact {sp va : UInt64} {b : UInt8} :
    Stable (Intact pr p) (store p sp va b) := by
  refine .bind .get fun k => ?_
  split
  · exact stable_onFiles_intact
  · exact stable_pageFault_intact

theorem stable_exit_intact {status : Int} : Stable (Intact pr p) (exit p status) := by
  refine .ite .panic (.bind (.iter (fun fd _ => ?_) _ _ _) fun _ => ?_)
  · refine .bind .get fun k => ?_
    split
    · exact .pure
    · exact .bind stable_onFiles_intact fun _ =>
        stable_setProc_intact (fun _ => rfl) fun _ => rfl
  · exact stable_setProc_intact (fun _ => rfl) fun _ => rfl

theorem stable_exitEnd_intact : Stable (Intact pr p) (exitEnd p) := by
  refine .bind .get fun k => .bind (.when stable_onFiles_intact) fun _ => ?_
  refine .bind (stable_setProc_intact (fun _ => rfl) fun _ => rfl) fun _ => ?_
  refine .bind (.modify fun k hk => ?_) fun _ =>
    stable_setProc_intact (fun _ => rfl) fun _ => rfl
  constructor
  · simp only
    split
    · exact hk.pte
    · exact hk.pte
  · simp only
    split
    · exact hk.vma
    · exact hk.vma

end intact

/-- Each valid entry of process `p` in `k` is still there in `k'` or its page
is free, and no address has become shared. -/
structure Fades (p : Nat) (k k' : Kernel) : Prop where
  pages : ∀ x, x < 2 ^ 39 → Valid ((k.proc p).pagetable.pte x) →
    (k'.proc p).pagetable.pte x = (k.proc p).pagetable.pte x ∨
      pte2pa ((k.proc p).pagetable.pte x) ∈ k'.files.kmem.freelist
  shared : ∀ va, SharedAddr (k'.proc p).vma va → SharedAddr (k.proc p).vma va

section fades

variable {p : Nat} {k : Kernel}

theorem Intact.fades {k' : Kernel} (h : Intact (k.proc p) p k') : Fades p k k' :=
  ⟨fun x hx hv => .inl (h.pte x hx hv), fun _ hva => h.vma ▸ hva⟩

theorem Intact.self : Intact (k.proc p) p k := ⟨fun _ _ _ => rfl, rfl⟩

theorem stable_fileclose_fades {f : Nat} : Stable (Fades p k) (onFiles (fileclose f)) := by
  refine ⟨fun k1 h1 => wp_onFiles.mpr ?_⟩
  -- closing a file takes no page off the free list
  have hfree := stable_fileclose_mem (J := fun m => k1.files.kmem.freelist ⊆ m.freelist) (f := f)
    fun _ => ⟨fun _ hm => wp_kfree trivial fun _ _ _ _ hpa => .tail _ (hm hpa)⟩
  refine hfree.wp (List.Subset.refl _) fun _ s hs => ⟨fun x hx hv => ?_, h1.shared⟩
  exact (h1.pages x hx hv).imp_right fun hpa => hs hpa

theorem stable_setProc_fades {f : Proc → Proc} (htable : ∀ pr, (f pr).pagetable = pr.pagetable)
    (hvma : ∀ pr va, SharedAddr (f pr).vma va → SharedAddr pr.vma va) :
    Stable (Fades p k) (setProc p f) := by
  refine .modify fun k1 h1 => ⟨?_, ?_⟩
  · simp only [update_self, htable]
    exact h1.pages
  · simp only [update_self]
    exact fun va hva => h1.shared va (hvma _ va hva)

theorem stable_dropVma_fades {v : Proc → Vma} (hv : ∀ pr, (v pr).used = false) :
    Stable (Fades p k) (setProc p fun pr => { pr with vma := update pr.vma i (v pr) }) :=
  stable_setProc_fades (fun _ => rfl) fun pr _ hva => SharedAddr.of_unused (hv pr) hva

/-- The pages that are unmapped are freed. -/
theorem wp_unmapPages_fades {addr : Nat} {length : Int}
    (htable : (k1.proc p).pagetable = (k.proc p).pagetable)
    (hshared : ∀ va, SharedAddr (k1.proc p).vma va → SharedAddr (k.proc p).vma va) :
    Ends (unmapPages p addr length) (Fades p k) k1 := by
  refine wp_unmapPages fun pt m _ hun => ⟨fun x hx hv => ?_, ?_⟩
  · simp only [update_self]
    rw [htable] at hun
    rw [hun.pte x hx]
    by_cases hin : addr ≤ x ∧ x < addr + unmapRounds addr (uint64 (length.tdiv PGSIZE)) * PGSIZE
    · exact .inr (hun.freed rfl x hin.1 hin.2 hv).2
    · exact .inl (if_neg fun h => hin ⟨h.1, h.2.1⟩)
  · simp only [update_self]
    exact hshared

theorem wp_sysMunmap_fades {a0 a1 : UInt64}
    (hnonneg : ∀ i, munmapSlot (k.proc p).vma (argaddr a0) (argint a1) = some i →
      ((k.proc p).vma i).WritesBack → 0 ≤ argint a1) : Ends (sysMunmap p a0 a1) (Fades p k) k := by
  unfold Ends sysMunmap
  rw [wp_bind, wp_get]
  extract_lets pr
  split
  · exact wp_pure.mpr Intact.self.fades
  · rename_i i hslot
    obtain ⟨_, v, hv, -⟩ := munmapSlot_some hslot
    rw [hv, Option.getD_some]
    extract_lets v'
    subst v'
    rw [wp_bind, wp_setProc, wp_bind]
    refine wp_writeBack fun s _ => ?_
    rw [wp_bind]
    refine wp_post (wp_unmapPages_fades (k := k) ?_ ?_) fun _ k1 h1 => ?_
    · simp only [update_self]
    · simp only [update_self]
      exact fun va hva => @SharedAddr.of_munmapHit i va v _ _ _ v.used hv (hnonneg i hslot) hva
    · rw [wp_bind]
      refine wp_when (fun _ => ?_) fun _ => wp_pure.mpr h1
      rw [wp_bind]
      refine stable_fileclose_fades.wp h1 (fun _ k2 h2 => ?_)
      refine Stable.wp (I := Fades p k) ?_ h2 fun _ _ h3 => wp_pure.mpr h3
      exact stable_dropVma_fades fun _ => rfl

theorem wp_exitVma_fades : Ends (exitVma p i) (Fades p k) k := by
  have hstate : Stable (Fades p k) (setProc p fun pr => { pr with state := .exiting (i + 1) }) :=
    stable_setProc_fades (fun _ => rfl) fun _ _ h => h
  unfold Ends exitVma
  rw [wp_bind, wp_get]
  extract_lets v
  rw [wp_bind]
  refine wp_when (fun _ => ?_) fun _ => hstate.stays k Intact.self.fades
  rw [wp_bind]
  refine wp_writeBack fun s _ => ?_
  rw [wp_bind]
  refine (.within fun _ _ => rfl : Keeps Kernel.proc (onFiles (fileclose v.vfile))).wp
    (fun _ k1 hproc => ?_)
  have hp : k1.proc p = k.proc p := congrFun hproc p
  rw [wp_bind]
  refine wp_post (wp_unmapPages_fades (k := k) (by rw [hp]) (by rw [hp]; exact fun _ h => h))
    (fun _ k2 h2 => ?_)
  refine Stable.wp (I := Fades p k) ?_ h2 fun _ k3 h3 => hstate.stays k3 h3
  exact stable_dropVma_fades fun _ => rfl

end fades

/-! ## The bytes that may differ -/

/-- Byte `off` of page `pa` is user memory of process `p` at an address
outside its shared mappings. -/
def Tainted (k : Kernel) (p pa off : Nat) : Prop :=
  ∃ v, v < userPages ∧ Valid ((k.proc p).pagetable.pte (v * PGSIZE)) ∧
    pte2pa ((k.proc p).pagetable.pte (v * PGSIZE)) = pa ∧ off < PGSIZE ∧
    ¬SharedAddr (k.proc p).vma (v * PGSIZE + off)

section taint

variable {total : Nat → Nat} {k : Kernel} {p : Nat}

theorem unmasked_of_shared (hk : Ledger True total none 0 k) (hp : p < NPROC)
    (hstate : (k.proc p).state ≠ .unused) (hva : SharedAddr (k.proc p).vma va) :
    Unmasked (Tainted k p) (k.proc p).pagetable va := by
  intro hwalk ⟨v, hv, hvalid, hpa, _, hprivate⟩
  have honce := hk.leaf_le hp hstate (walkaddr (k.proc p).pagetable (pgRoundDown va))
  obtain ⟨hmax, hvalid', huser, hpa'⟩ := walkaddr_ne_zero hwalk
  have hlow := (hk.tabled hp hstate).tramp.user_low hmax huser
  rw [show pgRoundDown va / PGSIZE = va / PGSIZE from Nat.mul_div_cancel _ (by decide)] at hlow
  have hpage : v = va / PGSIZE :=
    leafPages_unique (by omega) hv hlow hvalid hpa hvalid' hpa'.symm
  refine hprivate ?_
  rw [hpage, show va / PGSIZE * PGSIZE + (va - pgRoundDown va) = va from
    Nat.add_sub_cancel' (Nat.div_mul_le_self va PGSIZE)]
  exact hva

theorem tainted_of_userPage (hk : Ledger True total none 0 k) (hp : p < NPROC)
    (hstate : (k.proc p).state ≠ .unused) {flags : Nat}
    (hpage : userPage (k.proc p).pagetable va flags = some pa)
    (hprivate : ¬SharedAddr (k.proc p).vma va) :
    Tainted k p pa (va % PGSIZE) ∧ pa ∉ k.files.kmem.freelist := by
  unfold userPage at hpage
  split at hpage
  swap
  · cases hpage
  rename_i hc
  obtain ⟨hmax, hvalid, huser, -, -⟩ := hc
  have hlow := (hk.tabled hp hstate).tramp.user_low hmax huser
  have hround : (k.proc p).pagetable.pte (va / PGSIZE * PGSIZE) = (k.proc p).pagetable.pte va :=
    PageTable.pte_eq_of_page (Nat.mul_div_cancel _ (by decide))
  obtain rfl := Option.some.inj hpage
  refine ⟨⟨va / PGSIZE, hlow, ?_, ?_, Nat.mod_lt _ (by decide), ?_⟩,
    hk.user_not_free hp hstate ⟨hmax, hvalid, huser⟩⟩
  · rw [hround]
    exact hvalid
  · rw [hround]
  · rw [Nat.div_add_mod']
    exact hprivate

/-- What is tainted stays so until its page is freed. -/
theorem Fades.tainted {k' : Kernel} (h : Fades p k k') {off : Nat} (ht : Tainted k p pa off) :
    Tainted k' p pa off ∨ pa ∈ k'.files.kmem.freelist := by
  obtain ⟨v, hv, hvalid, hpa, hoff, hprivate⟩ := ht
  have hlt : v * PGSIZE < 2 ^ 39 := by
    simp only [userPages, TRAMPOLINE, MAXVA, PGSIZE] at hv ⊢
    omega
  rcases h.pages _ hlt hvalid with hsame | hfree
  · refine .inl ⟨v, hv, hsame ▸ hvalid, hsame ▸ hpa, hoff, fun hshared => ?_⟩
    exact hprivate (h.shared _ hshared)
  · exact .inr (hpa ▸ hfree)

/-- Two machines that differ in what was tainted before a step differ in what
is tainted after it. -/
theorem Fades.like (h : Fades p k k1) (hlike : Kernel.Like (Tainted k p) k1 k1') :
    Kernel.Like (Tainted k1 p) k1 k1' := by
  refine ⟨⟨⟨hlike.files.kmem.kend, hlike.files.kmem.trampoline, hlike.files.kmem.freelist, ?_⟩,
    hlike.files.file, hlike.files.pipe, hlike.files.inode, hlike.files.dinode⟩, hlike.proc,
    hlike.nextpid⟩
  intro pa off hmem
  refine hlike.files.kmem.mem pa off ?_
  rcases hmem with hclean | hfree
  · by_cases ht : Tainted k p pa off
    · rcases h.tainted ht with ht1 | hfree
      · exact absurd ht1 hclean
      · exact .inr hfree
    · exact .inl ht
  · exact .inr hfree

end taint

/-! ## Two runs -/

/-- An operation of two runs: the same event, or a store of two bytes. -/
inductive TwinOp where
  | same (e : Event)
  | store (sp va : UInt64) (b b' : UInt8)

/-- The event of the one run. -/
def TwinOp.left : TwinOp → Event
  | .same e => e
  | .store sp va b _ => .store sp va b

/-- The event of the other run. -/
def TwinOp.right : TwinOp → Event
  | .same e => e
  | .store sp va _ b' => .store sp va b'

/-- The accesses to mappings, and the calls that unmap them. -/
def MappingEvent : Event → Prop
  | .load _ _ | .store _ _ _ | .munmap _ _ | .exit _ | .exitVma | .exitEnd => True
  | _ => False

/-- The two runs differ only in what is stored into private pages. -/
def TwinOp.Allowed (vma : Nat → Vma) : TwinOp → Prop
  | .same e => MappingEvent e
  | .store _ va _ _ => PrivatePage vma va.toNat

/-- From `k`, the two runs of process `p` lead to the two states. Each event
of the one run meets `cond`. -/
inductive TwinRun (cond : Kernel → Nat → Event → Prop) (p : Nat) (k : Kernel) :
    Kernel → Kernel → Prop where
  | refl : TwinRun cond p k k k
  | step {k1 k1' k2 k2' : Kernel} {op : TwinOp} {r r' : Int} (run : TwinRun cond p k k1 k1')
      (allowed : op.Allowed (k1.proc p).vma) (enabled : Enabled k1 p op.left)
      (enabled' : Enabled k1' p op.right) (hcond : cond k1 p op.left)
      (hstep : step p op.left k1 = .ok (r, k2)) (hstep' : step p op.right k1' = .ok (r', k2')) :
      TwinRun cond p k k2 k2'

/-- A store to a private page is not one to a shared mapping, and a call of
`sys_munmap` that writes back does so for a range of shared mappings. -/
def KeepsPrivate (k : Kernel) (p : Nat) : Event → Prop
  | .store _ va _ =>
    PrivatePage (k.proc p).vma va.toNat → ¬SharedAddr (k.proc p).vma va.toNat
  | .munmap addr length =>
    ∀ i, munmapSlot (k.proc p).vma (argaddr addr) (argint length) = some i →
      ((k.proc p).vma i).WritesBack → 0 ≤ argint length ∧
        ∀ j : Nat, (j : Int) < argint length →
          SharedAddr (k.proc p).vma (uint64 ((argaddr addr : Int) + j))
  | _ => True

section runs

variable {total : Nat → Nat} {k k' : Kernel} {p : Nat}

theorem agree_unit {R : Kernel → Kernel → Prop} {m m' : KernelM Unit} (h : Agree R (m k) (m' k')) :
    Agree R ((m >>= fun _ => pure (0 : Int)) k) ((m' >>= fun _ => pure (0 : Int)) k') := by
  cases hm : m k with
  | ok a =>
    cases hm' : m' k' with
    | ok a' =>
      rw [hm, hm'] at h
      simp only [bind, hm, hm']
      exact ⟨rfl, h.2⟩
    | error e' =>
      rw [hm, hm'] at h
      exact h.elim
  | error e =>
    cases hm' : m' k' with
    | ok a' =>
      rw [hm, hm'] at h
      exact h.elim
    | error e' =>
      rw [hm, hm'] at h
      simp only [bind, hm, hm']
      exact h

/-- The two runs agree on what an operation gives. -/
theorem agree_step {op : TwinOp} (hk : Ledger True total none 0 k)
    (hlike : k.Like (Tainted k p) k') (hallowed : op.Allowed (k.proc p).vma)
    (henabled : Enabled k p op.left) (hcond : KeepsPrivate k p op.left) :
    Agree (Kernel.Like (Tainted k p)) (step p op.left k) (step p op.right k') := by
  obtain ⟨hp, hlive⟩ := henabled.live
  cases op with
  | store sp va b b' =>
    refine agree_unit (agree_store hlike (.inr fun pa hpa => ?_))
    exact tainted_of_userPage hk hp hlive hpa (hcond hallowed)
  | same e =>
    cases e with
    | load sp va => exact agree_unit (twin_load.agree _ _ hlike)
    | store sp va b => exact agree_unit (agree_store hlike (.inl rfl))
    | munmap addr length =>
      refine agree_sysMunmap hlike fun i hi hshared j hj => ?_
      obtain ⟨_, hrange⟩ := hcond i hi hshared
      exact unmasked_of_shared hk hp hlive (hrange j (by omega))
    | exit status => exact agree_unit (twin_exit.agree _ _ hlike)
    | exitVma =>
      obtain ⟨-, i, hi, hstate⟩ := henabled
      have hstate' : (k'.proc p).state = .exiting i := by rw [hlike.proc, hstate]
      change Agree _ ((Act.get >>= _) k) ((Act.get >>= _) k')
      rw [get_bind, get_bind, hstate, hstate']
      refine agree_unit (agree_exitVma hlike fun hused hshared j hj => ?_)
      exact unmasked_of_shared hk hp hlive ⟨i, j, hi, hused, hshared, by omega, rfl⟩
    | exitEnd => exact agree_unit (twin_exitEnd.agree _ _ hlike)
    | _ => exact hallowed.elim

/-- What an operation leaves of the pages. -/
theorem wp_step_fades {op : TwinOp} (hallowed : op.Allowed (k.proc p).vma)
    (henabled : Enabled k p op.left) (hcond : KeepsPrivate k p op.left) :
    Ends (step p op.left) (Fades p k) k := by
  have hstable : ∀ {m : KernelM Unit}, Stable (Intact (k.proc p) p) m →
      Ends m (Fades p k) k := fun hm =>
    hm.wp Intact.self (fun _ _ h => h.fades)
  cases op with
  | store sp va b b' => exact wp_ret (hstable stable_store_intact)
  | same e =>
    cases e with
    | load sp va => exact wp_ret (hstable stable_load_intact)
    | store sp va b => exact wp_ret (hstable stable_store_intact)
    | munmap addr length => exact wp_sysMunmap_fades fun i hi hshared => (hcond i hi hshared).1
    | exit status => exact wp_ret (hstable stable_exit_intact)
    | exitVma =>
      obtain ⟨hp, i, hi, hstate⟩ := henabled
      change wp (Act.get >>= _) _ _ _
      rw [wp_bind, wp_get, hstate]
      exact wp_ret wp_exitVma_fades
    | exitEnd => exact wp_ret (hstable stable_exitEnd_intact)
    | _ => exact hallowed.elim

theorem Kernel.Like.refl {mask : Nat → Nat → Prop} (k : Kernel) : k.Like mask k :=
  ⟨⟨⟨rfl, rfl, rfl, fun _ _ _ => rfl⟩, rfl, rfl, rfl, rfl⟩, rfl, rfl⟩

/-- Two runs never differ but in tainted memory. -/
theorem twinRun_like (hk : Ledger True total none 0 k)
    (hrun : TwinRun (fun k p e => SparesTrapframe k p e ∧ KeepsPrivate k p e) p k k1 k1') :
    Ledger True total none 0 k1 ∧ Kernel.Like (Tainted k1 p) k1 k1' := by
  induction hrun with
  | refl => exact ⟨hk, .refl k⟩
  | step run allowed enabled enabled' hcond hstep hstep' ih =>
    obtain ⟨hledger, hlike⟩ := ih
    have hagree := agree_step hledger hlike allowed enabled hcond.2
    rw [hstep, hstep'] at hagree
    have hfades := wp_ok (wp_step_fades allowed enabled hcond.2) hstep
    have hledger' := wp_ok (wp_step_ledger hledger enabled (fun _ => hcond.1) (.inl trivial)) hstep
    exact ⟨hledger', Fades.like hfades hagree.2⟩

/-- Files do not depend on what is stored into private pages, in runs that
write back only shared addresses. -/
theorem files_ignore_private {k0 k1 k1' : Kernel} (hboot : Boot k0)
    (hrun : Run SparesTrapframe k0 k)
    (htwin : TwinRun (fun k p e => SparesTrapframe k p e ∧ KeepsPrivate k p e) p k k1 k1') :
    k1'.files.dinode = k1.files.dinode := by
  obtain ⟨total, h0⟩ := @Boot.ledger True _ hboot
  have hledger := run_ledger h0 hrun fun k p e h => ⟨fun _ => h, .inl trivial⟩
  exact (twinRun_like hledger htwin).2.files.dinode

end runs

/-! ## Runs of the small machine -/

/-- Slot `i` is a private mapping that contains the address. -/
def privateAt (vma : Nat → Vma) (va i : Nat) : Bool :=
  (vma i).used && (vma i).flags = MAP_PRIVATE && (vma i).addr ≤ va && va < (vma i).addr + (vma i).length

/-- No slot is a shared mapping that contains the address. -/
def offShared (vma : Nat → Vma) (va : Nat) : Bool :=
  (List.range MAXMMAPITEM).all fun i => !(vma i).used || (vma i).flags ≠ MAP_SHARED ||
    ((vma i).addr + (vma i).length < 2 ^ 64 &&
      (va < (vma i).addr || (vma i).addr + (vma i).length ≤ va))

theorem privatePage_of_privateAt {vma : Nat → Vma} (hi : i < MAXMMAPITEM) (hva : va < 2 ^ 64)
    (h : privateAt vma va i = true) : PrivatePage vma va := by
  unfold privateAt at h
  simp only [Bool.and_eq_true, decide_eq_true_eq] at h
  obtain ⟨⟨⟨hused, hflags⟩, hle⟩, hlt⟩ := h
  refine ⟨i, va - (vma i).addr, va, ⟨hi, hused, hflags, by omega, ?_⟩, rfl⟩
  unfold uint64
  omega

theorem not_shared_of_offShared {vma : Nat → Vma} (h : offShared vma va = true) :
    ¬SharedAddr vma va := by
  intro ⟨i, j, hslot, hused, hback, hlt, haddr⟩
  have hi := List.all_eq_true.mp h i (List.mem_range.mpr hslot)
  simp only [hused, hback.1, Bool.not_true, ne_eq, not_true_eq_false, decide_false, Bool.false_or,
    Bool.and_eq_true, Bool.or_eq_true, decide_eq_true_eq] at hi
  unfold uint64 at haddr
  omega

/-- What the runs below are checked for. -/
def privateCheck (k : Kernel) (p : Nat) : Event → Bool
  | .store _ va _ => offShared (k.proc p).vma va.toNat
  | .munmap addr length => SparesFrame (argaddr addr) (argint length) && 0 ≤ argint length &&
    (munmapSlot (k.proc p).vma (argaddr addr) (argint length)).all fun i =>
      ((k.proc p).vma i).addr = argaddr addr && argint length ≤ ((k.proc p).vma i).length
  | .load _ _ | .exit _ | .exitEnd => true
  | _ => false

theorem keepsPrivate_of_privateCheck (k : Kernel) (p : Nat) (e : Event)
    (h : privateCheck k p e = true) : SparesTrapframe k p e ∧ KeepsPrivate k p e := by
  cases e with
  | load sp va => exact ⟨trivial, trivial⟩
  | store sp va b => exact ⟨trivial, fun _ => not_shared_of_offShared h⟩
  | munmap addr length =>
    simp only [privateCheck, Bool.and_eq_true, decide_eq_true_eq] at h
    obtain ⟨⟨hspares, hnonneg⟩, hslot⟩ := h
    refine ⟨fun _ => hspares, fun i hi hshared => ⟨hnonneg, fun j hj => ?_⟩⟩
    rw [hi, Option.all_some, Bool.and_eq_true, decide_eq_true_eq, decide_eq_true_eq] at hslot
    obtain ⟨hlt, v, hv, -⟩ := munmapSlot_some hi
    obtain ⟨hused, -, -⟩ := Vma.munmapHit_cases hv
    exact ⟨i, j, hlt, hused, hshared, by omega, by rw [hslot.1]⟩
  | exit status => exact ⟨trivial, trivial⟩
  | exitEnd => exact ⟨trivial, trivial⟩
  | _ => exact absurd h Bool.false_ne_true

/-- The states after a list of operations of process `p`. -/
def twinEvents (check : Kernel → Nat → Event → Bool) (p : Nat) :
    List TwinOp → Kernel × Kernel → Option (Kernel × Kernel)
  | [], ks => some ks
  | op :: ops, (k, k') =>
    if Enabled k p op.left ∧ Enabled k' p op.right ∧ check k p op.left ∧ allowedCheck k op then
      match step p op.left k, step p op.right k' with
      | .ok (_, k1), .ok (_, k1') => twinEvents check p ops (k1, k1')
      | _, _ => none
    else none
where
  allowedCheck (k : Kernel) : TwinOp → Bool
    | .same (.load _ _) | .same (.store _ _ _) | .same (.munmap _ _) => true
    | .same _ => false
    | .store _ va _ _ => (List.range MAXMMAPITEM).any (privateAt (k.proc p).vma va.toNat)

theorem twinRun_of_twinEvents {cond : Kernel → Nat → Event → Prop}
    {check : Kernel → Nat → Event → Bool} (hcheck : ∀ k p e, check k p e = true → cond k p e)
    {p : Nat} {ops : List TwinOp} {k k2 k2' : Kernel} (hrun : TwinRun cond p k k1 k1')
    (h : twinEvents check p ops (k1, k1') = some (k2, k2')) : TwinRun cond p k k2 k2' := by
  induction ops generalizing k1 k1' with
  | nil =>
    cases h
    exact hrun
  | cons op ops ih =>
    unfold twinEvents at h
    split at h
    swap
    · exact absurd h (by simp)
    rename_i hop
    obtain ⟨henabled, henabled', hok, hallowed⟩ := hop
    split at h
    · rename_i hstep hstep'
      refine ih (.step hrun ?_ henabled henabled' (hcheck _ _ _ hok) hstep hstep') h
      unfold twinEvents.allowedCheck at hallowed
      split at hallowed
      · trivial
      · trivial
      · trivial
      · exact absurd hallowed Bool.false_ne_true
      · rename_i sp va b b'
        obtain ⟨i, hi, hmaps⟩ := List.any_eq_true.mp hallowed
        exact privatePage_of_privateAt (List.mem_range.mp hi) va.toNat_lt hmaps
    · exact absurd h (by simp)

/-- One page of a file mapped shared and writable, one mapped private. -/
def mapTwice : List (Nat × Event) :=
  [(0, .openFile (some 2) 2), (0, .mmap 0 4096 3 1 0 0), (0, .mmap 0 4096 3 2 0 0)]

/-- Store 7 or 8 into the private page, once it is there. -/
def storePrivate : List TwinOp :=
  [.same (.load 0x1000 0x1000), .store 0x1000 0x2000 7 8, .store 0x1000 0x2000 7 8]

/-- The process maps a file twice and does the operations in two runs. -/
theorem smallMachine_twin (cond : Kernel → Nat → Event → Prop)
    {check : Kernel → Nat → Event → Bool} (hcheck : ∀ k p e, check k p e = true → cond k p e)
    (ops : List TwinOp) (fact : Kernel → Kernel → Bool)
    (h : (bootEvents ownsCheck 1 mapTwice smallMachine).any (fun k =>
      (twinEvents check 0 ops (k, k)).any fun ks => fact ks.1 ks.2) = true) :
    ∃ k0 k k1 k1', Boot k0 ∧ Run SparesTrapframe k0 k ∧ TwinRun cond 0 k k1 k1' ∧
      fact k1 k1' = true := by
  obtain ⟨k0, k, hboot, hrun, hfact⟩ := smallMachine_run
    (fun k p e he => (spares_of_ownsCheck k p e he).1) mapTwice _ h
  obtain ⟨⟨k1, k1'⟩, hops, hfact⟩ := Option.any_eq_true _ _ |>.mp hfact
  exact ⟨k0, k, k1, k1', hboot, hrun, twinRun_of_twinEvents hcheck .refl hops, hfact⟩

/-- The private page differs in the two runs and the file does not, when the
shared page is unmapped. -/
theorem files_ignore_private_munmap : ∃ k0 k k1 k1', Boot k0 ∧ Run SparesTrapframe k0 k ∧
    TwinRun (fun k p e => SparesTrapframe k p e ∧ KeepsPrivate k p e) 0 k k1 k1' ∧
    k1'.files.kmem.mem (pte2pa ((k1.proc 0).pagetable.pte 0x2000)) 0 ≠
      k1.files.kmem.mem (pte2pa ((k1.proc 0).pagetable.pte 0x2000)) 0 ∧
    k1'.files.dinode = k1.files.dinode := by
  obtain ⟨k0, k, k1, k1', hboot, hrun, htwin, hfact⟩ := smallMachine_twin _
    keepsPrivate_of_privateCheck (storePrivate ++ [.same (.munmap 0x1000 4096)])
    (fun k1 k1' => k1'.files.kmem.mem (pte2pa ((k1.proc 0).pagetable.pte 0x2000)) 0 ≠
      k1.files.kmem.mem (pte2pa ((k1.proc 0).pagetable.pte 0x2000)) 0) (by decide +kernel)
  exact ⟨k0, k, k1, k1', hboot, hrun, htwin, of_decide_eq_true hfact,
    files_ignore_private hboot hrun htwin⟩

/-- A call for the private page hits the shared mapping, which has the same
length, and writes the private bytes to the file. -/
theorem private_bytes_in_file : ∃ k0 k k1 k1', Boot k0 ∧ Run SparesTrapframe k0 k ∧
    TwinRun (fun _ _ _ => True) 0 k k1 k1' ∧ k1'.files.dinode ≠ k1.files.dinode := by
  obtain ⟨k0, k, k1, k1', hboot, hrun, htwin, hfact⟩ := smallMachine_twin (fun _ _ _ => True)
    (fun _ _ _ (_ : true = true) => trivial) (storePrivate ++ [.same (.munmap 0x2000 4096)])
    (fun k1 k1' => (k1'.files.dinode 2).data 0 ≠ (k1.files.dinode 2).data 0) (by decide +kernel)
  refine ⟨k0, k, k1, k1', hboot, hrun, htwin, fun heq => ?_⟩
  exact of_decide_eq_true hfact (by rw [heq])

end Xv6.Sys
