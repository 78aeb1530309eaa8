import Xv6.File.Spec
import Xv6.Vm.Unmap
import Xv6.Proc.VmaTable

/-!
# What `sys_munmap` touches

A caller of `munmap` names a range of a mapping: a part at its start, a part
at its end, or all of it. `MunmapExact` says that the call does just that.
When it returns 0, the range was such a part of one mapping, this mapping is
cut by the range, the pages of the range are gone, and nothing else has
changed; and it returns -1 for no such part of whole pages.

`sys_munmap` looks for the mapping to cut with a comparison that slips: a
mapping is taken for the one that ends where the range ends when it has the
length of the range, wherever it lies. So of two mappings of one length, the
wrong one may be cut, and a part at the end of a mapping is not found.
`munmap_exact_iff` gives the calls that are right, as a condition on the
table of mappings before the call.
-/

namespace Xv6.Sys

open Xv6.Lib Xv6.Lib.CInt Xv6.Vm Function
open Act

variable {k : Kernel} {addr p : Nat} {length : Int}

/-! ## The property -/

/-- The range of `length` bytes from `addr` on is a part of the mapping at
its start. -/
def Vma.Starts (v : Vma) (addr : Nat) (length : Int) : Prop :=
  v.used = true ∧ v.addr = addr ∧ 0 ≤ length ∧ length ≤ v.length

/-- The range is a part of the mapping at its end. -/
def Vma.Ends (v : Vma) (addr : Nat) (length : Int) : Prop :=
  v.used = true ∧ v.addr ≤ addr ∧ addr + length = v.addr + v.length ∧ 0 ≤ length

/-- The range is a part of the mapping at its start or its end, or all of
it. -/
def Vma.Part (v : Vma) (addr : Nat) (length : Int) : Prop :=
  v.Starts addr length ∨ v.Ends addr length

/-- The mapping `v'` is what is left of `v` without the range: nothing when
the range was all of it. -/
def Vma.Cut (v : Vma) (addr : Nat) (length : Int) (v' : Vma) : Prop :=
  if length = v.length then v'.used = false
  else v' = { v with
    addr := if v.addr = addr then (addr + length).toNat else v.addr
    length := v.length - length }

instance (v : Vma) (addr : Nat) (length : Int) : Decidable (v.Starts addr length) :=
  inferInstanceAs (Decidable (_ ∧ _))

instance (v : Vma) (addr : Nat) (length : Int) : Decidable (v.Ends addr length) :=
  inferInstanceAs (Decidable (_ ∧ _))

instance (v : Vma) (addr : Nat) (length : Int) : Decidable (v.Part addr length) :=
  inferInstanceAs (Decidable (_ ∨ _))

/-- A page with an address of the range. -/
def InRange (addr : Nat) (length : Int) (x : Nat) : Prop := addr ≤ x ∧ (x : Int) < addr + length

/-- A call of `sys_munmap` that returned `r` did what it was asked for. -/
structure MunmapExact (k : Kernel) (p addr : Nat) (length r : Int) (k' : Kernel) : Prop where
  zero : r = 0 → ∃ i, i < MAXMMAPITEM ∧ ((k.proc p).vma i).Part addr length ∧
    (∀ j, j < MAXMMAPITEM → j ≠ i → ¬((k.proc p).vma j).Part addr length) ∧
    ((k.proc p).vma i).Cut addr length ((k'.proc p).vma i) ∧
    (∀ j, j ≠ i → (k'.proc p).vma j = (k.proc p).vma j) ∧
    (∀ f, (k'.files.file f).ref = (k.files.file f).ref -
      if f = ((k.proc p).vma i).vfile ∧ length = ((k.proc p).vma i).length then 1 else 0)
  unmapped : r = 0 → ∀ x, x < MAXVA → InRange addr length x →
    ¬Valid ((k'.proc p).pagetable.pte x)
  outside : r = 0 → ∀ x, x < MAXVA →
    (∀ y, y / PGSIZE = x / PGSIZE → ¬InRange addr length y) →
    (k'.proc p).pagetable.pte x = (k.proc p).pagetable.pte x
  others : r = 0 → ∀ q, q ≠ p → k'.proc q = k.proc q
  found : r = -1 → ∀ j, j < MAXMMAPITEM →
    ¬(((k.proc p).vma j).Part addr length ∧ length % PGSIZE = 0)

/-- The table of mappings before the call: the mapping that the search hits
starts at the range, which is no part of another one and does not end in a
page that is present; or the search hits none, and the range is no part of
whole pages at the end of a mapping. -/
def MunmapCond (k : Kernel) (p addr : Nat) (length : Int) : Prop :=
  match munmapSlot (k.proc p).vma addr length with
  | some i =>
    ((k.proc p).vma i).addr = addr ∧ 0 ≤ length ∧
      (length ≠ ((k.proc p).vma i).length → addr + length < 2 ^ 64) ∧
      (∀ j, j < MAXMMAPITEM → j ≠ i → ¬((k.proc p).vma j).Part addr length) ∧
      (length % PGSIZE ≠ 0 → addr + length / PGSIZE * PGSIZE < MAXVA →
        ¬Valid ((k.proc p).pagetable.pte (addr + length / PGSIZE * PGSIZE).toNat))
  | none =>
    ∀ j, j < MAXMMAPITEM → ¬(((k.proc p).vma j).Ends addr length ∧ length % PGSIZE = 0)

/-! ## The effect of the call -/

/-- What a call that hits slot `i` does, `v` being what the search makes of
the mapping. -/
structure MunmapEffect (k : Kernel) (p i : Nat) (v : Vma) (addr : Nat) (length : Int)
    (k' : Kernel) : Prop where
  aligned : addr % PGSIZE = 0
  others : ∀ q, q ≠ p → k'.proc q = k.proc q
  vma : (k'.proc p).vma = Function.update (k.proc p).vma i { v with used := v.length ≠ 0 }
  ref : ∀ f, (k'.files.file f).ref = (k.files.file f).ref -
    if f = v.vfile ∧ v.length = 0 then 1 else 0
  pte : ∀ x, x < 2 ^ 39 → (k'.proc p).pagetable.pte x =
    if addr ≤ x ∧ x < addr + unmapRounds addr (uint64 (length.tdiv PGSIZE)) * PGSIZE ∧
      Valid ((k.proc p).pagetable.pte x) then 0 else (k.proc p).pagetable.pte x

theorem wp_writeBack {pt : PageTable} {v : Vma} {Q : Unit → Kernel → Prop}
    (h : ∀ s, k.files.Quiet s → Q () { k with files := s }) :
    wp (writeBack pt v addr length) Q (fun _ => True) k := by
  unfold writeBack
  refine wp_when (fun _ => ?_) fun _ => h k.files (.refl _)
  rw [wp_bind, wp_onFiles]
  refine wp_post wp_filewrite fun _ s hs => ?_
  exact wp_pure.mpr (h s hs)

theorem wp_unmapPages {Q : Unit → Kernel → Prop} (h : ∀ pt kmem, addr % PGSIZE = 0 →
      Unmapped (k.proc p).pagetable addr (unmapRounds addr (uint64 (length.tdiv PGSIZE))) true
        k.files.kmem pt kmem →
      Q () { k with
        files := { k.files with kmem := kmem }
        proc := update k.proc p { k.proc p with pagetable := pt } }) :
    wp (unmapPages p addr length) Q (fun _ => True) k := by
  unfold unmapPages
  rw [wp_onPagetable, wp_bind]
  refine wp_uvmunmap fun pt kmem haligned hun => ?_
  exact wp_pure.mpr (h pt kmem haligned hun)

theorem wp_sysMunmap {a0 a1 : UInt64} {Q : Int → Kernel → Prop}
    (hmiss : munmapSlot (k.proc p).vma (argaddr a0) (argint a1) = none → Q (-1) k)
    (hhit : ∀ i v k', munmapSlot (k.proc p).vma (argaddr a0) (argint a1) = some i →
      ((k.proc p).vma i).munmapHit (argaddr a0) (argint a1) = some v →
      MunmapEffect k p i v (argaddr a0) (argint a1) k' → Q 0 k') :
    wp (sysMunmap p a0 a1) Q (fun _ => True) k := by
  unfold sysMunmap
  rw [wp_bind, wp_get]
  extract_lets pr
  split
  · rename_i hslot
    exact wp_pure.mpr (hmiss hslot)
  · rename_i i hslot
    obtain ⟨_, v, hv, hused⟩ := munmapSlot_some hslot
    rw [hv, Option.getD_some]
    extract_lets v'
    subst v'
    rw [wp_bind, wp_setProc, wp_bind]
    refine wp_writeBack fun s hquiet => ?_
    rw [wp_bind]
    refine wp_unmapPages fun pt kmem haligned hun => ?_
    simp only [update_self, update_idem] at hun ⊢
    rw [wp_bind]
    -- The slot is freed when nothing is left of the mapping.
    have hpte : ∀ x, x < 2 ^ 39 → pt.pte x = if argaddr a0 ≤ x ∧ x < argaddr a0 +
        unmapRounds (argaddr a0) (uint64 ((argint a1).tdiv PGSIZE)) * PGSIZE ∧
          Valid ((k.proc p).pagetable.pte x) then 0 else (k.proc p).pagetable.pte x := hun.pte
    refine wp_when (fun hzero => ?_) fun hne => ?_
    · rw [wp_bind, wp_onFiles]
      refine wp_post wp_fileclose_ref fun _ s' hs' => ?_
      rw [wp_setProc, wp_pure]
      have hfree : { v with used := decide (v.length ≠ 0) } = { v with used := false } := by
        rw [decide_eq_false fun h => h hzero]
      refine hhit i v _ hslot hv ⟨haligned, fun q hq => ?_, ?_, fun f => ?_, ?_⟩
      · simp only [update_of_ne hq]
      · rw [hfree]
        simp only [update_self, update_idem]
      · simp only [hs' f, hzero, and_true]
        rw [show (s.file f).ref = (k.files.file f).ref from hquiet.fileRef f]
      · simp only [update_self]
        exact hpte
    · rw [wp_pure]
      have hkeep : { v with used := decide (v.length ≠ 0) } = v := by
        rw [decide_eq_true hne, ← hused]
      refine hhit i v _ hslot hv ⟨haligned, fun q hq => ?_, ?_, fun f => ?_, ?_⟩
      · simp only [update_of_ne hq]
      · rw [hkeep]
        simp only [update_self]
      · rw [if_neg fun h => hne h.2, Int.sub_zero]
        exact hquiet.fileRef f
      · simp only [update_self]
        exact hpte

/-! ## Calls that hit no mapping -/

theorem Vma.Starts.hit {v : Vma} (h : v.Starts addr length) :
    (v.munmapHit addr length).isSome = true := by
  obtain ⟨hused, haddr, _, hle⟩ := h
  unfold Vma.munmapHit
  rw [if_pos ⟨hused, hle⟩, if_pos haddr]
  rfl

theorem munmapExact_of_miss (h : munmapSlot (k.proc p).vma addr length = none) :
    MunmapExact k p addr length (-1) k ↔ MunmapCond k p addr length := by
  unfold MunmapCond
  rw [h]
  constructor
  · intro hexact j hj hends
    exact hexact.found rfl j hj ⟨.inr hends.1, hends.2⟩
  · intro hcond
    refine ⟨nofun, nofun, nofun, nofun, fun _ j hj hpart => ?_⟩
    rcases hpart.1 with hstarts | hends
    · exact List.find?_eq_none.mp h j (List.mem_range.mpr hj) hstarts.hit
    · exact hcond j hj ⟨hends, hpart.2⟩

/-! ## Calls that hit a mapping -/

/-- The rounds of `uvmunmap` for a length that is not negative. -/
theorem munmapRounds (addr : Nat) (h0 : 0 ≤ length) (hlt : length < 2 ^ 31) (haddr : addr < MAXVA) :
    (unmapRounds addr (uint64 (length.tdiv PGSIZE)) * PGSIZE : Nat) = length / PGSIZE * PGSIZE := by
  have htdiv : length.tdiv PGSIZE = length / PGSIZE := Int.tdiv_eq_ediv_of_nonneg h0
  have hcount : uint64 (length.tdiv PGSIZE) = (length / PGSIZE).toNat := by
    rw [htdiv]
    unfold uint64
    simp only [PGSIZE]
    omega
  rw [hcount, unmapRounds_of_lt]
  · simp only [PGSIZE]
    omega
  · simp only [PGSIZE, MAXVA] at haddr ⊢
    omega

section hit

variable {k' : Kernel} {i : Nat} {v : Vma}

/-- A mapping that is hit by its length alone is freed, though the range is
no part of it. -/
theorem munmapExact_addr (hlength : -2 ^ 31 ≤ length ∧ length < 2 ^ 31)
    (hint : -2 ^ 31 ≤ ((k.proc p).vma i).length ∧ ((k.proc p).vma i).length < 2 ^ 31)
    (hhit : ((k.proc p).vma i).munmapHit addr length = some v)
    (heffect : MunmapEffect k p i v addr length k') (h : MunmapExact k p addr length 0 k') :
    ((k.proc p).vma i).addr = addr := by
  obtain ⟨i', _, hpart, _, _, hothers, _⟩ := h.zero rfl
  obtain ⟨hused, _, hcases⟩ := Vma.munmapHit_cases hhit
  rcases hcases with ⟨haddr, _⟩ | ⟨hne, hend, rfl⟩
  · exact haddr
  · have heq : length = ((k.proc p).vma i).length := length_eq_of_end_eq hlength hint hend
    have hfreed : ((k'.proc p).vma i).used = false := by
      rw [heffect.vma, update_self]
      simp only [heq, Int.sub_self, ne_eq, decide_eq_false_iff_not, not_not]
      exact int32_of_bounds (by decide) (by decide)
    have hi' : i' = i := by
      by_contra hne'
      rw [hothers i fun h => hne' h.symm, hused] at hfreed
      exact absurd hfreed (by decide)
    subst hi'
    rcases hpart with ⟨_, haddr, _⟩ | ⟨_, _, hend', _⟩
    · exact haddr
    · omega

/-- What is left of a mapping that is hit by its start. -/
theorem MunmapEffect.cut (hlt : ((k.proc p).vma i).length < 2 ^ 31) (h0 : 0 ≤ length)
    (hhit : ((k.proc p).vma i).munmapHit addr length = some v)
    (haddr : ((k.proc p).vma i).addr = addr) (heffect : MunmapEffect k p i v addr length k') :
    (k'.proc p).vma i = { (k.proc p).vma i with
      used := length ≠ ((k.proc p).vma i).length
      addr := uint64 (addr + length)
      length := ((k.proc p).vma i).length - length } := by
  obtain ⟨_, hle, hcases⟩ := Vma.munmapHit_cases hhit
  rcases hcases with ⟨_, rfl⟩ | ⟨hne, _⟩
  · have hlength : int32 (((k.proc p).vma i).length - length) =
        ((k.proc p).vma i).length - length := int32_of_bounds (by omega) (by omega)
    have hused : (((k.proc p).vma i).length - length ≠ 0) =
        (length ≠ ((k.proc p).vma i).length) :=
      propext ⟨fun h => by omega, fun h => by omega⟩
    rw [heffect.vma, update_self]
    simp only [hlength, haddr, hused]
  · exact absurd haddr hne

/-- The entries of the range that `uvmunmap` does not reach are those of a
last page that is not whole. -/
theorem MunmapEffect.last (h0 : 0 ≤ length) (hlt : length < 2 ^ 31)
    (heffect : MunmapEffect k p i v addr length k') {x : Nat} (hx : x < MAXVA)
    (hrange : InRange addr length x) (hvalid : Valid ((k'.proc p).pagetable.pte x)) :
    length % PGSIZE ≠ 0 ∧ (addr + length / PGSIZE * PGSIZE).toNat / PGSIZE = x / PGSIZE ∧
      addr + length / PGSIZE * PGSIZE ≤ x ∧ Valid ((k.proc p).pagetable.pte x) := by
  have haligned := heffect.aligned
  have hrounds := munmapRounds addr h0 hlt (Nat.lt_of_le_of_lt hrange.1 hx)
  rw [heffect.pte x (by simp only [MAXVA] at hx; omega)] at hvalid
  split at hvalid
  · exact absurd hvalid not_valid_zero
  · rename_i hout
    have hge : addr + length / PGSIZE * PGSIZE ≤ x := by
      have hge : ¬(x < addr + unmapRounds addr (uint64 (length.tdiv PGSIZE)) * PGSIZE) :=
        fun hlt' => hout ⟨hrange.1, hlt', hvalid⟩
      rw [← hrounds]
      omega
    obtain ⟨h1, h2⟩ := hrange
    simp only [PGSIZE] at haligned hge ⊢
    exact ⟨by omega, by omega, by omega, hvalid⟩

theorem munmapExact_of_hit (hi : i < MAXMMAPITEM) (hlength : length < 2 ^ 31)
    (hint : ((k.proc p).vma i).length < 2 ^ 31)
    (hhit : ((k.proc p).vma i).munmapHit addr length = some v)
    (haddr : ((k.proc p).vma i).addr = addr) (heffect : MunmapEffect k p i v addr length k') :
    MunmapExact k p addr length 0 k' ↔
      0 ≤ length ∧ (length ≠ ((k.proc p).vma i).length → addr + length < 2 ^ 64) ∧
        (∀ j < MAXMMAPITEM, j ≠ i → ¬((k.proc p).vma j).Part addr length) ∧
        (length % PGSIZE ≠ 0 → addr + length / PGSIZE * PGSIZE < MAXVA →
          ¬Valid ((k.proc p).pagetable.pte (addr + length / PGSIZE * PGSIZE).toNat)) := by
  obtain ⟨hused, hle, hcases⟩ := Vma.munmapHit_cases hhit
  have hstarts : 0 ≤ length → ((k.proc p).vma i).Starts addr length :=
    fun h0 => ⟨hused, haddr, h0, hle⟩
  constructor
  · intro hexact
    obtain ⟨i', _, hpart, hunique, hcut, _, _⟩ := hexact.zero rfl
    have h0 : 0 ≤ length := by
      rcases hpart with h | h
      · exact h.2.2.1
      · exact h.2.2.2
    have hi' : i' = i := by
      by_contra hne
      exact hunique i hi (fun h => hne h.symm) (.inl (hstarts h0))
    subst hi'
    refine ⟨h0, fun hne => ?_, hunique, fun hmod hmax => ?_⟩
    · rw [Vma.Cut, if_neg hne, heffect.cut hint h0 hhit haddr] at hcut
      have haddr' := congrArg Vma.addr hcut
      simp only [haddr, ↓reduceIte] at haddr'
      have := uint64_lt (addr + length)
      omega
    · -- The last page is in the range, and the call does not reach its entry.
      have hrounds := munmapRounds addr h0 hlength (by simp only [PGSIZE, MAXVA] at hmax ⊢; omega)
      have hgone := hexact.unmapped rfl (addr + length / PGSIZE * PGSIZE).toNat (by omega)
        ⟨by simp only [PGSIZE]; omega, by simp only [PGSIZE] at hmod ⊢; omega⟩
      rwa [heffect.pte _ (by simp only [PGSIZE, MAXVA] at hmax ⊢; omega), if_neg (by omega)] at hgone
  · rintro ⟨h0, hwrap, hunique, hlast⟩
    have hcut := heffect.cut hint h0 hhit haddr
    refine ⟨fun _ => ⟨i, hi, .inl (hstarts h0), hunique, ?_, fun j hj => ?_, fun f => ?_⟩,
      fun _ x hx hrange hvalid => ?_, fun _ x hx hout => ?_, fun _ => heffect.others, nofun⟩
    · rw [Vma.Cut, hcut]
      split
      · rename_i heq
        simp only [heq, ne_eq, not_true_eq_false, decide_false]
      · rename_i hne
        have hsum : uint64 (addr + length) = (addr + length).toNat := by
          have := hwrap hne
          unfold uint64
          omega
        simp only [hne, ne_eq, not_false_eq_true, decide_true, hsum, ← hused]
    · rw [heffect.vma, update_of_ne hj]
    · rw [heffect.ref f]
      rcases hcases with ⟨_, rfl⟩ | ⟨hne, _⟩
      · have hleft : int32 (((k.proc p).vma i).length - length) = 0 ↔
            length = ((k.proc p).vma i).length := by
          rw [int32_of_bounds (by omega) (by omega), Int.sub_eq_zero, eq_comm]
        simp only [hleft]
      · exact absurd haddr hne
    · obtain ⟨hmod, hpage, hge, hv⟩ := heffect.last h0 hlength hx hrange hvalid
      refine hlast hmod (by omega) ?_
      rwa [PageTable.pte_eq_of_page hpage]
    · rw [heffect.pte x (by simp only [MAXVA] at hx; omega), if_neg]
      rintro ⟨h1, h2, _⟩
      have hrounds := munmapRounds addr h0 hlength (Nat.lt_of_le_of_lt h1 hx)
      refine hout x rfl ⟨h1, ?_⟩
      simp only [PGSIZE] at hrounds h2 ⊢
      omega

end hit

/-- A call of `sys_munmap` that returns does exactly what it was asked for
when the table of mappings meets `MunmapCond`, and only then. -/
theorem munmap_exact_iff {k k' : Kernel} {p : Nat} {a0 a1 : UInt64} {r : Int}
    (hint : ∀ i, i < MAXMMAPITEM →
      -2 ^ 31 ≤ ((k.proc p).vma i).length ∧ ((k.proc p).vma i).length < 2 ^ 31)
    (hret : sysMunmap p a0 a1 k = .ok (r, k')) :
    MunmapExact k p (argaddr a0) (argint a1) r k' ↔
      MunmapCond k p (argaddr a0) (argint a1) := by
  refine ends_ok r k' hret ?_
  refine wp_sysMunmap munmapExact_of_miss fun i v k' hslot hhit heffect => ?_
  have hi := (munmapSlot_some hslot).1
  unfold MunmapCond
  rw [hslot]
  constructor
  · intro hexact
    have haddr := munmapExact_addr (argint_bounds a1) (hint i hi) hhit heffect hexact
    exact ⟨haddr, (munmapExact_of_hit hi (argint_bounds a1).2 (hint i hi).2 hhit haddr
      heffect).mp hexact⟩
  · rintro ⟨haddr, hcond⟩
    exact (munmapExact_of_hit hi (argint_bounds a1).2 (hint i hi).2 hhit haddr heffect).mpr hcond

/-- The first of two pages of a mapping is unmapped. -/
theorem munmap_exact_iff_firstPage :
    ∃ k k', sysMunmap 0 0x1000 4096 k = .ok (0, k') ∧
      MunmapExact k 0 (argaddr 0x1000) (argint 4096) 0 k' := by
  obtain ⟨_, k, _, _, hfact⟩ := smallMachine_anyRun
    [(0, .openFile (some 2) 2), (0, .mmap 0 8192 3 1 0 0), (0, .store 0x1000 0x1000 7)]
    (fun k => decide ((∀ i, i < MAXMMAPITEM → -2 ^ 31 ≤ ((k.proc 0).vma i).length ∧
        ((k.proc 0).vma i).length < 2 ^ 31) ∧
      munmapSlot (k.proc 0).vma (argaddr 0x1000) (argint 4096) = some 0 ∧
      ((k.proc 0).vma 0).addr = argaddr 0x1000 ∧
      (∀ j, j < MAXMMAPITEM → j ≠ 0 →
        ¬((k.proc 0).vma j).Part (argaddr 0x1000) (argint 4096))) &&
      (sysMunmap 0 0x1000 4096 k).toOption.any fun (r : Int × Kernel) => r.1 = 0) (by decide +kernel)
  rw [Bool.and_eq_true, decide_eq_true_eq] at hfact
  obtain ⟨⟨hint, hslot, haddr, hunique⟩, hret⟩ := hfact
  obtain ⟨⟨r, k'⟩, hmunmap, hzero⟩ := Act.ok_of_any hret
  obtain rfl : r = 0 := of_decide_eq_true hzero
  refine ⟨k, k', hmunmap, (munmap_exact_iff hint hmunmap).mpr ?_⟩
  unfold MunmapCond
  rw [hslot]
  exact ⟨haddr, by decide +kernel, fun _ => by decide +kernel, hunique,
    fun h => absurd (by decide +kernel) h⟩

/-- Two mappings of one page each. The call for the second one frees the
slot of the first. -/
theorem munmap_wrongMapping :
    ∃ k0 k k', Boot k0 ∧ Run (fun _ _ _ => True) k0 k ∧
      sysMunmap 0 0x2000 4096 k = .ok (0, k') ∧
      ¬MunmapExact k 0 (argaddr 0x2000) (argint 4096) 0 k' := by
  obtain ⟨k0, k, hboot, hrun, hfact⟩ := smallMachine_anyRun
    [(0, .openFile (some 2) 2), (0, .mmap 0 4096 3 1 0 0), (0, .mmap 0 4096 3 1 0 0),
      (0, .load 0x1000 0x2000)]
    (fun k => decide (((k.proc 0).vma 0).used = true ∧
        ¬((k.proc 0).vma 0).Part (argaddr 0x2000) (argint 4096)) &&
      (sysMunmap 0 0x2000 4096 k).toOption.any fun (r : Int × Kernel) =>
        decide (r.1 = 0 ∧ ((r.2.proc 0).vma 0).used = false)) (by decide +kernel)
  rw [Bool.and_eq_true, decide_eq_true_eq] at hfact
  obtain ⟨⟨hused, hpart⟩, hret⟩ := hfact
  obtain ⟨⟨r, k'⟩, hmunmap, hafter⟩ := Act.ok_of_any hret
  obtain ⟨rfl, hfreed⟩ := of_decide_eq_true hafter
  refine ⟨k0, k, k', hboot, hrun, hmunmap, fun hexact => ?_⟩
  obtain ⟨i, _, hi, _, _, hothers, _⟩ := hexact.zero rfl
  by_cases hi0 : i = 0
  · subst hi0
    exact hpart hi
  · rw [hothers 0 fun h => hi0 h.symm, hused] at hfreed
    cases hfreed

end Xv6.Sys
