import Xv6.Proc.Space

/-!
# The table of mappings

What a process relies on when it calls `mmap`: its mappings start at page
boundaries, have a length, lie inside its memory, and share no page with each
other or with the pages that `exec` and `growproc` handed out. This is
`VmaTable`.

The kernel does not keep it in every run. Five operations move the size of
a process or change a mapping, and four of them can leave the table in
disorder:

* `mmap` places a mapping at the size of the process, whether or not that is
  a page boundary;
* `munmap` of a part that is not a whole number of pages, or of a negative
  length, moves the start of a mapping off the page boundary or backwards;
* `sbrk` cuts the size of the process to 32 bits, and shrinks it below its
  mappings;
* `exec` replaces the image and keeps the mappings of the old one.

`VmaCond` says for a step that it does none of this. `vmaTable_run` is the
result: when all steps of a run meet it, every process has an orderly table
in every state of the run.
-/

namespace Xv6.Sys

open Xv6.Lib Xv6.Lib.CInt Xv6.Vm Function
open Act

variable {s : Space} {v : Vma} {i addr p : Nat} {k : Kernel}

/-! ## The property -/

/-- The mapping occupies bytes of page `n`. -/
def Vma.Covers (v : Vma) (n : Nat) : Prop :=
  v.addr < (n + 1) * PGSIZE ∧ (n * PGSIZE : Int) < v.addr + v.length

/-- The used mappings of an address space are in order. -/
structure VmaTable (s : Space) : Prop where
  aligned : ∀ i, (s.vma i).used = true → (s.vma i).addr % PGSIZE = 0
  nonneg : ∀ i, (s.vma i).used = true → 0 ≤ (s.vma i).length
  inside : ∀ i, (s.vma i).used = true → (s.vma i).addr + (s.vma i).length ≤ s.sz
  disjoint : ∀ i j, i ≠ j → (s.vma i).used = true → (s.vma j).used = true →
    ∀ n, ¬((s.vma i).Covers n ∧ (s.vma j).Covers n)
  image : ∀ i, (s.vma i).used = true → ∀ n, (s.vma i).Covers n → s.image n = false

/-- The step does not put a mapping off a page boundary, or move the size of
the process below a mapping. -/
def VmaCond (k : Kernel) (p : Nat) : Event → Prop
  | .mmap _ length _ _ _ _ =>
    (k.proc p).sz % PGSIZE = 0 ∧ (k.proc p).sz + argint length < 2 ^ 64
  | .munmap addr length =>
    ∀ i, munmapSlot (k.proc p).vma (argaddr addr) (argint length) = some i →
      ((k.proc p).vma i).addr = argaddr addr →
      0 ≤ argint length ∧
        (argint length % PGSIZE = 0 ∨ argint length = ((k.proc p).vma i).length)
  | .sbrk n =>
    (k.proc p).sz < 2 ^ 32 ∧
      (0 ≤ argint n ∨ (k.proc p).sz + argint n < 0 ∨
        ∀ i, ((k.proc p).vma i).used = true →
          ((k.proc p).vma i).addr + ((k.proc p).vma i).length ≤ (k.proc p).sz + argint n)
  | .exec _ _ => ∀ i, ((k.proc p).vma i).used = false
  | _ => True

/-! ## The invariant -/

/-- One mapping of an address space is in order. -/
structure Vma.Placed (v : Vma) (s : Space) : Prop where
  aligned : v.addr % PGSIZE = 0
  nonneg : 0 ≤ v.length
  short : v.length < 2 ^ 31
  inside : v.addr + v.length ≤ s.sz
  bound : v.addr + v.length < 2 ^ 64
  image : ∀ n, v.Covers n → s.image n = false

/-- The order of the table, with the bounds that keep it. -/
structure VmaInv (s : Space) : Prop where
  placed : ∀ i, (s.vma i).used = true → (s.vma i).Placed s
  disjoint : ∀ i j, i ≠ j → (s.vma i).used = true → (s.vma j).used = true →
    ∀ n, ¬((s.vma i).Covers n ∧ (s.vma j).Covers n)
  below : ∀ n, s.image n = true → n * PGSIZE < s.sz

theorem VmaInv.table (h : VmaInv s) : VmaTable s where
  aligned i hi := (h.placed i hi).aligned
  nonneg i hi := (h.placed i hi).nonneg
  inside i hi := (h.placed i hi).inside
  disjoint := h.disjoint
  image i hi := (h.placed i hi).image

theorem Vma.Covers.mono {w : Vma} {n : Nat} (h : v.Covers n) (hstart : w.addr ≤ v.addr)
    (hend : v.addr + v.length ≤ w.addr + w.length) : w.Covers n := by
  obtain ⟨h1, h2⟩ := h
  exact ⟨by omega, by omega⟩

/-- Filling in a slot keeps the order when the new mapping is in order and
covers no page of another one. -/
theorem VmaInv.putVma (h : VmaInv s) (hplaced : v.used = true → v.Placed s)
    (hdisjoint : v.used = true → ∀ j ≠ i, (s.vma j).used = true →
      ∀ n, v.Covers n → ¬(s.vma j).Covers n) : VmaInv (s.putVma i v) := by
  -- A slot of the new table is the new mapping or an old slot.
  have hself : (s.putVma i v).vma i = v := update_self ..
  have hother : ∀ j ≠ i, (s.putVma i v).vma j = s.vma j :=
    fun j hj => update_of_ne hj ..
  refine ⟨fun j hj => ?_, fun j j' hne hj hj' n => ?_, h.below⟩
  · by_cases hji : j = i
    · subst hji
      rw [hself] at hj ⊢
      obtain ⟨h1, h2, h3, h4, h5, h6⟩ := hplaced hj
      exact ⟨h1, h2, h3, h4, h5, h6⟩
    · rw [hother j hji] at hj ⊢
      obtain ⟨h1, h2, h3, h4, h5, h6⟩ := h.placed j hj
      exact ⟨h1, h2, h3, h4, h5, h6⟩
  · rintro ⟨hn, hn'⟩
    by_cases hji : j = i
    · subst hji
      rw [hself] at hj hn
      rw [hother j' hne.symm] at hj' hn'
      exact hdisjoint hj j' hne.symm hj' n hn hn'
    · rw [hother j hji] at hj hn
      by_cases hji' : j' = i
      · subst hji'
        rw [hself] at hj' hn'
        exact hdisjoint hj' j hji hj n hn' hn
      · rw [hother j' hji'] at hj' hn'
        exact h.disjoint j j' hne hj hj' n ⟨hn, hn'⟩

/-- A slot may be freed, or its mapping cut. -/
theorem VmaInv.cutVma (h : VmaInv s) (hold : v.used = true → (s.vma i).used = true)
    (haligned : v.used = true → v.addr % PGSIZE = 0) (hnonneg : v.used = true → 0 ≤ v.length)
    (hstart : v.used = true → (s.vma i).addr ≤ v.addr)
    (hend : v.used = true → v.addr + v.length ≤ (s.vma i).addr + (s.vma i).length) :
    VmaInv (s.putVma i v) := by
  refine h.putVma (fun hv => ?_) (fun hv j hji hj n hn hn' => ?_)
  · have hi := h.placed i (hold hv)
    have h1 := hstart hv
    have h2 := hend hv
    have h3 := hi.short
    have h4 := hi.bound
    exact ⟨haligned hv, hnonneg hv, by omega, Int.le_trans h2 hi.inside, by omega,
      fun n hn => hi.image n (hn.mono h1 h2)⟩
  · exact h.disjoint i j hji.symm (hold hv) hj n ⟨hn.mono (hstart hv) (hend hv), hn'⟩

/-! ## Steps -/

/-- A call of `sys_munmap` hits a mapping by its start or by its length. -/
theorem Vma.munmapHit_cases {v' : Vma} {length : Int} (h : v.munmapHit addr length = some v') :
    v.used = true ∧ length ≤ v.length ∧
      (v.addr = addr ∧ v' = { v with
          addr := uint64 (v.addr + length), length := int32 (v.length - length) } ∨
        v.addr ≠ addr ∧ uint64 (v.addr + length) = uint64 (v.addr + v.length) ∧
          v' = { v with length := int32 (v.length - length) }) := by
  unfold Vma.munmapHit at h
  split at h
  · rename_i hused
    refine ⟨hused.1, hused.2, ?_⟩
    split at h
    · rename_i haddr
      exact .inl ⟨haddr, (Option.some.inj h).symm⟩
    · rename_i haddr
      split at h
      · rename_i hend
        exact .inr ⟨haddr, hend, (Option.some.inj h).symm⟩
      · exact absurd h (by simp)
  · exact absurd h (by simp)

theorem length_eq_of_end_eq {a b : Int} (ha : -2 ^ 31 ≤ a ∧ a < 2 ^ 31)
    (hb : -2 ^ 31 ≤ b ∧ b < 2 ^ 31) (h : uint64 (addr + a) = uint64 (addr + b)) : a = b := by
  unfold uint64 at h
  omega

section step

theorem VmaInv.withState (h : VmaInv s) (state : ProcState) : VmaInv { s with state := state } :=
  ⟨fun i hi => ⟨(h.placed i hi).aligned, (h.placed i hi).nonneg, (h.placed i hi).short,
    (h.placed i hi).inside, (h.placed i hi).bound, (h.placed i hi).image⟩, h.disjoint, h.below⟩

/-- The size of the process and the pages of its image may change where the
mappings stay below the one and off the other. -/
theorem VmaInv.resize (h : VmaInv s) {sz : Nat} {image : Nat → Bool}
    (hinside : ∀ i, (s.vma i).used = true → (s.vma i).addr + (s.vma i).length ≤ sz)
    (himage : ∀ i, (s.vma i).used = true → ∀ n, (s.vma i).Covers n → image n = false)
    (hbelow : ∀ n, image n = true → n * PGSIZE < sz) : VmaInv { s with sz := sz, image := image } :=
  ⟨fun i hi => ⟨(h.placed i hi).aligned, (h.placed i hi).nonneg, (h.placed i hi).short,
    hinside i hi, (h.placed i hi).bound, himage i hi⟩, h.disjoint, hbelow⟩

/-- A mapping at the end of the process, on a page boundary. -/
theorem VmaInv.mmap (h : VmaInv s) (haligned : s.sz % PGSIZE = 0) (haddr : v.addr = s.sz)
    (hnonneg : 0 ≤ v.length) (hshort : v.length < 2 ^ 31) (hbound : s.sz + v.length < 2 ^ 64) :
    VmaInv { s with
      sz := uint64 (s.sz + v.length), vma := update s.vma i v } := by
  have hsz : (uint64 (s.sz + v.length) : Int) = s.sz + v.length := by
    unfold uint64
    omega
  -- The pages of the new mapping start at the old end.
  have hstart : ∀ n, v.Covers n → s.sz ≤ n * PGSIZE := by
    intro n hn
    have h1 := hn.1
    rw [haddr] at h1
    simp only [PGSIZE] at h1 haligned ⊢
    omega
  have hresize : VmaInv { s with sz := uint64 (s.sz + v.length), image := s.image } := by
    refine h.resize (fun j hj => ?_) (fun j hj => (h.placed j hj).image) fun n hn => ?_
    · have := (h.placed j hj).inside
      omega
    · have := h.below n hn
      omega
  refine hresize.putVma (fun _ => ?_) (fun _ j hj hused n hn hn' => ?_)
  · refine ⟨by rw [haddr]; exact haligned, hnonneg, hshort, ?_, by rw [haddr]; exact hbound, ?_⟩
    · rw [haddr]
      exact Int.le_of_eq hsz.symm
    · intro n hn
      have := hstart n hn
      cases himage : s.image n with
      | false => rfl
      | true => exact absurd (h.below n himage) (by omega)
  · replace hn' : (s.vma j).Covers n := hn'
    have h1 := hstart n hn
    have h2 := hn'.2
    have h3 := (h.placed j hused).inside
    omega

/-- A part of a mapping that is whole pages from its start, or all of it. -/
theorem VmaInv.munmap (h : VmaInv s) {length : Int} (hbounds : -2 ^ 31 ≤ length ∧ length < 2 ^ 31)
    (hhit : (s.vma i).munmapHit addr length = some v) (hcond : (s.vma i).addr = addr →
      0 ≤ length ∧ (length % PGSIZE = 0 ∨ length = (s.vma i).length)) :
    VmaInv (s.putVma i { v with used := v.length ≠ 0 }) := by
  obtain ⟨hused, hle, hcases⟩ := Vma.munmapHit_cases hhit
  have hi := h.placed i hused
  have hshort := hi.short
  have hnonneg := hi.nonneg
  have hbound := hi.bound
  rcases hcases with ⟨haddr, rfl⟩ | ⟨_, hend, rfl⟩
  · obtain ⟨h0, hlen⟩ := hcond haddr
    have hlength : int32 ((s.vma i).length - length) = (s.vma i).length - length :=
      int32_of_bounds (by omega) (by omega)
    have haddr' : (uint64 ((s.vma i).addr + length) : Int) = (s.vma i).addr + length := by
      unfold uint64
      omega
    simp only [hlength]
    refine h.cutVma (fun _ => hused) (fun hne => ?_) (fun _ => ?_) (fun _ => ?_) (fun _ => ?_)
    · have haligned := hi.aligned
      have hne' : ¬(s.vma i).length - length = 0 := by simpa using hne
      simp only [PGSIZE] at hlen haligned ⊢
      omega
    · show 0 ≤ (s.vma i).length - length
      omega
    · show (s.vma i).addr ≤ uint64 ((s.vma i).addr + length)
      omega
    · show (uint64 ((s.vma i).addr + length) : Int) + ((s.vma i).length - length) ≤ _
      omega
  · -- The end of the mapping is hit: the lengths are equal, and the slot is freed.
    have heq : length = (s.vma i).length :=
      length_eq_of_end_eq hbounds ⟨by omega, hshort⟩ hend
    have hlength : int32 ((s.vma i).length - length) = 0 := by
      rw [heq, Int.sub_self]
      exact int32_of_bounds (by decide) (by decide)
    simp only [hlength]
    refine h.cutVma ?_ ?_ ?_ ?_ ?_ <;> exact fun hne => absurd hne (by simp)

theorem VmaInv.grow (h : VmaInv s) {n : Int} (hsz : s.sz < 2 ^ 32) :
    VmaInv { s with
      sz := max (uint32 s.sz) (uint32 (uint32 s.sz + n))
      image := fun v => s.image v || (pgRoundUp (uint32 s.sz) ≤ v * PGSIZE &&
        v * PGSIZE < uint32 (uint32 s.sz + n)) } := by
  rw [uint32_of_lt hsz]
  have hround : s.sz ≤ pgRoundUp s.sz := le_pgRoundUp (by simp only [PGSIZE]; omega)
  refine h.resize (fun i hi => ?_) (fun i hi m hm => ?_) fun m hm => ?_
  · have := (h.placed i hi).inside
    omega
  · have h1 := hm.2
    have h2 := (h.placed i hi).inside
    rw [(h.placed i hi).image m hm, Bool.false_or, Bool.and_eq_false_iff]
    left
    rw [decide_eq_false_iff_not]
    omega
  · rw [Bool.or_eq_true, Bool.and_eq_true, decide_eq_true_eq, decide_eq_true_eq] at hm
    rcases hm with hm | hm
    · have := h.below m hm
      omega
    · omega

theorem VmaInv.shrink (h : VmaInv s) {n : Int} (hn : n ≤ 0 ∧ -2 ^ 31 ≤ n) (hsz : s.sz < 2 ^ 32)
    (hcond : 0 ≤ n ∨ s.sz + n < 0 ∨
      ∀ i, (s.vma i).used = true → (s.vma i).addr + (s.vma i).length ≤ s.sz + n) :
    VmaInv { s with
      sz := min (uint32 s.sz) (uint32 (uint32 s.sz + n))
      image := fun v => s.image v && (uint32 s.sz ≤ uint32 (uint32 s.sz + n) ||
        v * PGSIZE < pgRoundUp (uint32 (uint32 s.sz + n))) } := by
  rw [uint32_of_lt hsz]
  have hnew := uint32_lt (s.sz + n)
  -- A shrink below zero wraps around, and then nothing happens.
  have hwrap : s.sz + n < 0 → s.sz ≤ uint32 (s.sz + n) := by
    intro hneg
    unfold uint32
    omega
  have hplain : 0 ≤ s.sz + n → (uint32 (s.sz + n) : Int) = s.sz + n := by
    intro hpos
    unfold uint32
    omega
  refine h.resize (fun i hi => ?_) (fun i hi m hm => ?_) fun m hm => ?_
  · have h1 := (h.placed i hi).inside
    rcases hcond with hc | hc | hc
    · omega
    · have := hwrap hc
      omega
    · have h2 := hc i hi
      have h3 := (h.placed i hi).nonneg
      have := hplain (by omega)
      omega
  · rw [(h.placed i hi).image m hm, Bool.false_and]
  · rw [Bool.and_eq_true, Bool.or_eq_true, decide_eq_true_eq, decide_eq_true_eq] at hm
    have h1 := h.below m hm.1
    rcases hm.2 with h2 | h2
    · omega
    · have h3 := lt_of_lt_pgRoundUp (by simp only [PGSIZE]; omega) h2
      omega

end step

/-- Every process has an orderly table, with the bounds that keep it. -/
def VmaInvAll (k : Kernel) : Prop := ∀ p, (k.space p).Live → VmaInv (k.space p)

theorem VmaInvAll.changed {k' : Kernel} (hk : VmaInvAll k) (h : Changed k p s k') (hs : VmaInv s) :
    VmaInvAll k' := by
  intro q hq
  have hq' := h q hq
  by_cases hqp : q = p
  · subst hqp
    rw [hq', update_self]
    exact hs
  · rw [update_of_ne hqp] at hq'
    rw [hq'] at hq ⊢
    exact hk q hq

theorem VmaInvAll.step {k' : Kernel} {e : Event} (hk : VmaInvAll k)
    (hlive : (k.space p).Live) (hcond : VmaCond k p e) (h : SpaceStep k p k' e) : VmaInvAll k' := by
  have hp := hk p hlive
  cases h with
  | kept h =>
    intro q hq
    have hq' := h q hq
    rw [hq'] at hq ⊢
    exact hk q hq
  | state state h => exact hk.changed h (hp.withState state)
  | @mmap _ length _ _ _ _ i v _ hnonneg haddr hlength _ h =>
    rw [← hlength] at h
    refine hk.changed h (hp.mmap hcond.1 haddr ?_ ?_ ?_)
    · rw [hlength]
      exact hnonneg
    · rw [hlength]
      exact (argint_bounds length).2
    · rw [hlength]
      exact hcond.2
  | @munmap addr length i v hslot hhit h =>
    exact hk.changed h (hp.munmap (argint_bounds length) hhit (hcond i hslot))
  | grow old new hold hnew _ h =>
    subst hold hnew
    exact hk.changed h (hp.grow hcond.1)
  | @shrink n old new hold hnew hnonpos h =>
    subst hold hnew
    exact hk.changed h (hp.shrink ⟨hnonpos, (argint_bounds n).1⟩ hcond.1 hcond.2)
  | @fork np vma _ hcopy h =>
    refine hk.changed h ?_
    have hsame : ∀ i, (vma i).used = true → vma i = (k.space p).vma i := fun i hi =>
      (hcopy i).resolve_right (by rw [hi]; decide)
    refine ⟨fun i hi => ?_, fun i j hne hi hj n => ?_, hp.below⟩
    · obtain ⟨h1, h2, h3, h4, h5, h6⟩ := hp.placed i (hsame i hi ▸ hi)
      rw [← hsame i hi] at h1 h2 h3 h4 h5 h6
      exact ⟨h1, h2, h3, h4, h5, h6⟩
    · have := hp.disjoint i j hne (hsame i hi ▸ hi) (hsame j hj ▸ hj) n
      rwa [← hsame i hi, ← hsame j hj] at this
  | exec sz h =>
    refine hk.changed h ⟨fun i hi => ?_, fun i j _ hi => ?_, fun n hn => ?_⟩
    · exact absurd hi (by rw [show ((k.space p).vma i).used = false from hcond i]; decide)
    · exact absurd hi (by rw [show ((k.space p).vma i).used = false from hcond i]; decide)
    · exact of_decide_eq_true hn
  | @exitVma i _ h =>
    refine hk.changed h (VmaInv.withState (hp.cutVma (i := i)
      (v := { (k.space p).vma i with used := false }) ?_ ?_ ?_ ?_ ?_) _)
    all_goals exact fun hused => absurd hused Bool.false_ne_true

theorem boot_vmaInv (h : Boot k) : VmaInvAll k := by
  intro p hp
  rw [boot_space h hp]
  refine ⟨fun i hi => absurd hi Bool.false_ne_true,
    fun i j _ hi => absurd hi Bool.false_ne_true, fun n hn => ?_⟩
  rw [decide_eq_true_eq] at hn
  rw [hn]
  decide

/-- When every step of a run meets `VmaCond`, the tables of mappings of all
processes are in order in every state of the run. -/
theorem vmaTable_run {k0 k : Kernel} (hboot : Boot k0) (hrun : Run VmaCond k0 k) :
    ∀ p, (k.space p).Live → VmaTable (k.space p) := by
  have hinv : VmaInvAll k := by
    refine run_invariant hrun (boot_vmaInv hboot) fun k p e r k' hk henabled hcond hstep => ?_
    exact hk.step henabled.live.2 hcond (step_space henabled hstep)
  exact fun p hp => (hinv p hp).table

/-- A test for `VmaCond` on runs without `exec` in which no process
shrinks. -/
def vmaCheck (k : Kernel) (p : Nat) : Event → Bool
  | .mmap _ length _ _ _ _ =>
    (k.proc p).sz % PGSIZE = 0 ∧ (k.proc p).sz + argint length < 2 ^ 64
  | .munmap addr length =>
    (munmapSlot (k.proc p).vma (argaddr addr) (argint length)).all fun i =>
      0 ≤ argint length ∧ (argint length % PGSIZE = 0 ∨ argint length = ((k.proc p).vma i).length)
  | .sbrk n => (k.proc p).sz < 2 ^ 32 ∧ 0 ≤ argint n
  | .exec _ _ => false
  | _ => true

theorem vmaCond_of_vmaCheck (k : Kernel) (p : Nat) (e : Event) (h : vmaCheck k p e = true) :
    VmaCond k p e := by
  cases e with
  | mmap addr length prot flags fd offset =>
    rw [vmaCheck, decide_eq_true_eq] at h
    rw [VmaCond]
    exact h
  | munmap addr length =>
    rw [vmaCheck] at h
    rw [VmaCond]
    intro i hi _
    rw [hi, Option.all_some, decide_eq_true_eq] at h
    exact h
  | sbrk n =>
    rw [vmaCheck, decide_eq_true_eq] at h
    rw [VmaCond]
    exact ⟨h.1, .inl h.2⟩
  | exec found argv => exact absurd h Bool.false_ne_true
  | _ => trivial

/-- A process maps two pages, touches the second, unmaps the first, grows
and forks; the child unmaps the second page. -/
theorem vmaTable_run_partialUnmap :
    ∃ k0 k, Boot k0 ∧ Run VmaCond k0 k ∧
      (((k.proc 0).vma 0).used = true ∧ ((k.proc 0).vma 0).addr = 2 * PGSIZE ∧
        (k.proc 1).state = .runnable ∧ ((k.proc 1).vma 0).used = false) ∧
      ∀ p, (k.space p).Live → VmaTable (k.space p) := by
  obtain ⟨k0, k, hboot, hrun, hfact⟩ := smallMachine_run vmaCond_of_vmaCheck
    [(0, .openFile (some 2) 2), (0, .mmap 0 8192 3 1 0 0), (0, .store 0x1000 0x2000 7),
      (0, .munmap 0x1000 4096), (0, .sbrk 100), (0, .fork), (1, .munmap 0x2000 4096)]
    (fun k => decide (((k.proc 0).vma 0).used = true ∧ ((k.proc 0).vma 0).addr = 2 * PGSIZE ∧
      (k.proc 1).state = .runnable ∧ ((k.proc 1).vma 0).used = false)) (by decide +kernel)
  exact ⟨k0, k, hboot, hrun, of_decide_eq_true hfact, vmaTable_run hboot hrun⟩

/-- Two mappings of 5000 bytes: the second one starts in the middle of a
page, which is also the last page of the first one. -/
theorem vmaTable_unaligned :
    ∃ k0 k, Boot k0 ∧ Run (fun _ _ _ => True) k0 k ∧ (k.space 0).Live ∧
      ¬VmaTable (k.space 0) := by
  obtain ⟨k0, k, hboot, hrun, hfact⟩ := smallMachine_anyRun
    [(0, .openFile (some 2) 2), (0, .mmap 0 5000 3 1 0 0), (0, .mmap 0 5000 3 1 0 0)]
    (fun k => decide ((k.proc 0).state = .runnable ∧ ((k.proc 0).vma 1).used = true ∧
      ((k.proc 0).vma 1).addr = 9096)) (by decide +kernel)
  obtain ⟨hstate, hused, haddr⟩ := of_decide_eq_true hfact
  refine ⟨k0, k, hboot, hrun, fun h => ?_, fun h => ?_⟩
  · exact absurd (hstate.symm.trans h) (by decide)
  · have haligned : ((k.proc 0).vma 1).addr % PGSIZE = 0 := h.aligned 1 hused
    rw [haddr] at haligned
    exact absurd haligned (by decide)

end Xv6.Sys
