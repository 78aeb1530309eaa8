import Xv6.Vm.Cost
import Xv6.Proc.Grants

/-!
# When kernel accesses and user accesses agree

`copyin` and `copyout` need an entry of the page table for every page of the
buffer. The process gets at a page that is not there through a fault, if the
fault is served and there are free pages, for the content and for the page
table. `Accessible` says when it gets at all of a range, in the state before the
first access: each page that is not there is brought in by the fault at the first
address on it, since the later ones then find it, and the free list has to
last for all of them. That `usertrap` goes by the address and not by the page
matters where a mapping ends within a page.

The step lemma is `Touched.accessible`: an access to the first byte leaves the
rest of the range accessible exactly if the whole was. The kernel and the
process agree on a range exactly if all of it is there for both, or if it is
there for neither.
-/

namespace Xv6.Sys

open Xv6.Lib Xv6.Lib.CInt Xv6.Vm

/-- The first address on page `i` of the addresses from `va` on. -/
def rangeAt (va i : Nat) : Nat := max va (i * PGSIZE)

/-- Page `i` has some of the `n` addresses from `va` on, and is not there for the
access. -/
def Absent (k : Kernel) (p flags va n i : Nat) : Prop :=
  rangeAt va i / PGSIZE = i ∧ rangeAt va i < va + n ∧
    userPage (k.proc p).pagetable (rangeAt va i) flags = none

instance (k : Kernel) (p flags va n : Nat) : DecidablePred (Absent k p flags va n) := fun _ =>
  inferInstanceAs (Decidable (_ ∧ _))

/-- A fault at `va` is served by the mapping in slot `j`, with the protection for
the access, if there are free pages. -/
@[mk_iff]
structure Serves (k : Kernel) (p sp va flags cause j : Nat) : Prop
    extends Handles k p va cause j where
  window : InWindow k p sp va
  fits : faultPage va = pgRoundDown va
  read : ((k.proc p).vma j).readProt = true
  flags : hasFlag ((k.proc p).vma j).pteFlags flags = true

/-- The free pages that it takes to bring in what is not there. -/
abbrev rangeCost (k : Kernel) (p flags va n : Nat) : Nat :=
  mapCost (· * PGSIZE) (Absent k p flags va n) (k.proc p).pagetable ((va + n) / PGSIZE + 1)

/-- The process can access all of the `n` addresses from `va` on. -/
structure Accessible (k : Kernel) (p sp va n flags cause : Nat) : Prop where
  served : ∀ i, Absent k p flags va n i → ∃ j, Serves k p sp (rangeAt va i) flags cause j
  memory : rangeCost k p flags va n ≤ k.files.kmem.freelist.length

/-! ## Pages of a range -/

section pages

variable {k k' : Kernel} {p sp va x flags cause n i j : Nat}

theorem rangeAt_page : rangeAt va (va / PGSIZE) = va := by
  unfold rangeAt
  simp only [PGSIZE]
  omega

theorem rangeAt_succ (hi : i ≠ va / PGSIZE) : (rangeAt (va + 1) i / PGSIZE = i ↔
      rangeAt va i / PGSIZE = i) ∧
    (rangeAt va i / PGSIZE = i → rangeAt (va + 1) i = rangeAt va i) := by
  unfold rangeAt
  simp only [PGSIZE] at hi ⊢
  omega

theorem userPage_of_page {pt : PageTable} {y : Nat} (h : x / PGSIZE = y / PGSIZE) :
    userPage pt x flags = userPage pt y flags := by
  have hmax : x < MAXVA ↔ y < MAXVA := by
    simp only [PGSIZE, MAXVA] at h ⊢
    omega
  simp only [userPage, hmax, PageTable.pte_eq_of_page h]

theorem absent_of_lt (hle : va ≤ x) (hlt : x < va + n)
    (hnone : userPage (k.proc p).pagetable x flags = none) :
    Absent k p flags va n (x / PGSIZE) := by
  have hpage : rangeAt va (x / PGSIZE) / PGSIZE = x / PGSIZE ∧ rangeAt va (x / PGSIZE) ≤ x := by
    unfold rangeAt
    simp only [PGSIZE]
    omega
  exact ⟨hpage.1, Nat.lt_of_le_of_lt hpage.2 hlt, (userPage_of_page hpage.1).trans hnone⟩

/-- The first page of a range is the one of its first address. -/
theorem not_absent_below (hi : i < va / PGSIZE) : ¬Absent k p flags va n i := by
  rintro ⟨hpage, -, -⟩
  unfold rangeAt at hpage
  simp only [PGSIZE] at hi hpage
  omega

theorem page_lt_last : va / PGSIZE < (va + n) / PGSIZE + 1 :=
  Nat.lt_succ_of_le (Nat.div_le_div_right (Nat.le_add_right va n))

theorem Accessible.of_present
    (h : ∀ x, va ≤ x → x < va + n → userPage (k.proc p).pagetable x flags ≠ none) :
    Accessible k p sp va n flags cause := by
  have hnot : ∀ i, ¬Absent k p flags va n i := fun i hi =>
    h _ (Nat.le_max_left ..) hi.2.1 hi.2.2
  refine ⟨fun i hi => absurd hi (hnot i), ?_⟩
  rw [rangeCost, mapCost_idle fun i _ => hnot i]
  exact Nat.zero_le _

theorem Accessible.nil : Accessible k p sp va 0 flags cause :=
  .of_present fun _ hle hlt => absurd hlt (Nat.not_lt.mpr hle)

theorem Serves.not_valid (h : Serves k p sp va flags cause j) :
    ¬Vm.Valid ((k.proc p).pagetable.pte va) := by
  have habsent := h.absent
  rwa [h.fits, pte_pgRoundDown] at habsent

theorem SameMappings.serves (h : SameMappings k p k')
    (hpte : (k'.proc p).pagetable.pte (faultPage x) = (k.proc p).pagetable.pte (faultPage x)) :
    Serves k' p sp x flags cause j ↔ Serves k p sp x flags cause j := by
  simp only [serves_iff, handles_iff, InWindow, Vma.InFile, h.vma, h.sz, h.file, h.lock, h.mapped,
    hpte]

end pages

/-! ## One access -/

section touched

variable {k k' : Kernel} {p sp va x flags cause n j : Nat}

section

variable (h : Touched k p sp va flags cause k')
include h

theorem Touched.sameMappings : SameMappings k p k' := by
  cases h with
  | hit _ hbytes => exact hbytes.sameMappings p
  | fault _ _ _ _ hbrought => exact hbrought.toSameMappings

theorem Touched.lt_maxva : va < MAXVA := by
  cases h with
  | hit hpage => exact (userPage_ne_none.mp hpage).1
  | fault _ hserved => exact Sys.lt_maxva (hserved.fits ▸ hserved.low)

theorem Touched.pte (hx : x < 2 ^ 39) (hne : x / PGSIZE ≠ va / PGSIZE) :
    (k'.proc p).pagetable.pte x = (k.proc p).pagetable.pte x := by
  cases h with
  | hit _ hbytes => rw [hbytes.proc]
  | fault _ hserved _ _ hbrought =>
    rw [hbrought.pte x hx, if_neg]
    rwa [← samePage_iff.mpr hserved.fits]

/-- Other pages are there as before. -/
theorem Touched.elsewhere (hne : x / PGSIZE ≠ va / PGSIZE) :
    userPage (k'.proc p).pagetable x flags = userPage (k.proc p).pagetable x flags := by
  unfold userPage
  by_cases hx : x < MAXVA
  · rw [h.pte (Nat.lt_trans hx (by decide)) hne]
  · rw [if_neg fun hall => hx hall.1, if_neg fun hall => hx hall.1]

theorem Touched.serves (hne : x / PGSIZE ≠ va / PGSIZE) :
    Serves k' p sp x flags cause j ↔ Serves k p sp x flags cause j := by
  by_cases hfits : faultPage x = pgRoundDown x ∧ faultPage x < MAXVA
  · refine h.sameMappings.serves (h.pte (Nat.lt_trans hfits.2 (by decide)) ?_)
    rwa [← samePage_iff.mpr hfits.1]
  · exact iff_of_false (fun hj => hfits ⟨hj.fits, hj.low⟩) fun hj => hfits ⟨hj.fits, hj.low⟩

variable (hflag : flags < 32) (hvalid : PTE_V &&& flags = 0)
include hflag hvalid

/-- The page is there afterwards. -/
theorem Touched.there : userPage (k'.proc p).pagetable va flags ≠ none := by
  cases h with
  | hit hpage hbytes => rwa [hbytes.proc]
  | fault hnone hserved hread hflags hbrought =>
    exact (hbrought.userPage hflag hvalid hserved.low hnone).mpr ⟨hserved.fits, hread, hflags⟩

/-- The pages of the rest of the range that are not there. -/
theorem Touched.absent_iff (i : Nat) : Absent k' p flags (va + 1) n i ↔
    Absent k p flags va (n + 1) i ∧ i ≠ va / PGSIZE := by
  by_cases hi : i = va / PGSIZE
  · refine ⟨fun habsent => ?_, fun hnot => absurd hi hnot.2⟩
    have hpage := habsent.1.trans hi
    exact absurd ((userPage_of_page hpage).symm.trans habsent.2.2) (h.there hflag hvalid)
  obtain ⟨hpage, hsame⟩ := rangeAt_succ hi
  rw [and_iff_left hi, Absent, Absent, hpage]
  refine and_congr_right fun hin => ?_
  rw [hsame hin, h.elsewhere (hin.trans_ne hi), Nat.add_right_comm, Nat.add_assoc]

/-- What it takes to bring in the pages is paid for by the free pages that go. -/
theorem Touched.memory : rangeCost k p flags va (n + 1) ≤ k.files.kmem.freelist.length ↔
    rangeCost k' p flags (va + 1) n ≤ k'.files.kmem.freelist.length := by
  have habsent := h.absent_iff (n := n) hflag hvalid
  rw [rangeCost, rangeCost, Nat.add_right_comm va 1, Nat.add_assoc va n]
  cases h with
  | hit hpage hbytes =>
    have hsame : ∀ i, Absent k p flags va (n + 1) i ↔ Absent k' p flags (va + 1) n i := by
      intro i
      rw [habsent, iff_self_and]
      rintro hi rfl
      have hnone := hi.2.2
      rw [rangeAt_page] at hnone
      exact hpage hnone
    rw [hbytes.proc, hbytes.freelist, mapCost_congr hsame]
  | fault hnone hserved _ _ hbrought =>
    have hfirst := absent_of_lt (Nat.le_refl va) (Nat.lt_add_of_pos_right n.succ_pos) hnone
    have hfits : faultPage va = va / PGSIZE * PGSIZE := hserved.fits
    obtain ⟨-, -, hreached, hspent⟩ := hbrought
    rw [hfits] at hreached hspent
    have hcost : mapCost (· * PGSIZE) (Absent k p flags va (n + 1)) (k.proc p).pagetable
        ((va + (n + 1)) / PGSIZE + 1) = _ :=
      mapCost_first (fun _ => not_absent_below) hfirst habsent hreached page_lt_last
    rw [hcost]
    omega

/-- After an access to the first byte the rest of the range is accessible
exactly if all of it was. -/
theorem Touched.accessible :
    Accessible k p sp va (n + 1) flags cause ↔ Accessible k' p sp (va + 1) n flags cause := by
  have habsent := h.absent_iff (n := n) hflag hvalid
  -- a page that is not there yet is served as before
  have hserves : ∀ i j, Absent k p flags va (n + 1) i → i ≠ va / PGSIZE →
      (Serves k' p sp (rangeAt (va + 1) i) flags cause j ↔
        Serves k p sp (rangeAt va i) flags cause j) := by
    intro i j hi hne
    rw [(rangeAt_succ hne).2 hi.1]
    refine h.serves (hi.1.trans_ne hne)
  refine ⟨fun hall => ⟨fun i hi => ?_, (h.memory hflag hvalid).mp hall.memory⟩,
    fun hall => ⟨fun i hi => ?_, (h.memory hflag hvalid).mpr hall.memory⟩⟩
  · obtain ⟨hi, hne⟩ := (habsent i).mp hi
    obtain ⟨j, hj⟩ := hall.served i hi
    exact ⟨j, (hserves i j hi hne).mpr hj⟩
  · by_cases hne : i = va / PGSIZE
    · subst hne
      have hnone := hi.2.2
      rw [rangeAt_page] at hnone ⊢
      cases h with
      | hit hpage => exact absurd hnone hpage
      | fault _ hserved hread hflags =>
        exact ⟨_, hserved.toHandles, hserved.window, hserved.fits, hread, hflags⟩
    · obtain ⟨j, hj⟩ := hall.served i ((habsent i).mpr ⟨hi, hne⟩)
      exact ⟨j, (hserves i j hi hne).mp hj⟩

end

/-- The first byte of an accessible range is there, or is served. -/
theorem Accessible.first (h : Accessible k p sp va (n + 1) flags cause) :
    userPage (k.proc p).pagetable va flags ≠ none ∨
      ∃ j, Served k p sp va cause j ∧ ((k.proc p).vma j).readProt = true ∧
        hasFlag ((k.proc p).vma j).pteFlags flags = true := by
  by_cases hnone : userPage (k.proc p).pagetable va flags = none
  swap
  · exact .inl hnone
  right
  have hfirst := absent_of_lt (Nat.le_refl va) (Nat.lt_add_of_pos_right n.succ_pos) hnone
  obtain ⟨j, hj⟩ := h.served _ hfirst
  rw [rangeAt_page] at hj
  refine ⟨j, ⟨⟨hj.toHandles, ?_⟩, hj.window, hj.fits⟩, hj.read, hj.flags⟩
  -- what the first page takes is part of what the range does
  have hcost : mapCost (· * PGSIZE) (Absent k p flags va (n + 1)) (k.proc p).pagetable
      (va / PGSIZE + 1) = _ := (Tabled.idle fun _ => not_absent_below).cost hfirst
  rw [mapCost_idle fun _ => not_absent_below] at hcost
  have hle := mapCost_mono (· * PGSIZE) (Absent k p flags va (n + 1)) (k.proc p).pagetable
    (show va / PGSIZE + 1 ≤ (va + (n + 1)) / PGSIZE + 1 from page_lt_last)
  have hmemory := Nat.le_trans hle h.memory
  rw [hcost] at hmemory
  rw [hj.fits]
  show missingTables _ (va / PGSIZE * PGSIZE) < _
  omega

end touched

/-! ## A range -/

section range

variable {k : Kernel} {p n : Nat} {sp va : UInt64}

theorem toNat_add_one (h : va.toNat < MAXVA) : (va + 1).toNat = va.toNat + 1 := by
  rw [UInt64.toNat_add, UInt64.toNat_one]
  simp only [MAXVA] at h
  omega

/-- A byte of the range, with the rest of it. -/
theorem Tries.accessible {e : Event} {flags cause : Nat} {k1 : Kernel}
    (ht : Traps p sp va e flags cause) (h : Tries p e va flags k k1)
    (halive : (k.proc p).killed = false) : (k1.proc p).killed = false ∧
      (Accessible k p sp.toNat va.toNat (n + 1) flags cause ↔
        Accessible k1 p sp.toNat (va + 1).toNat n flags cause) := by
  have htouched := h.touched ht halive
  refine ⟨htouched.sameMappings.killed.trans halive, ?_⟩
  rw [toNat_add_one htouched.lt_maxva]
  exact htouched.accessible ht.flag ht.valid

theorem loadsRange_iff_accessible (halive : (k.proc p).killed = false) :
    (∃ bs k', LoadsRange p sp va n k bs k') ↔ Accessible k p sp.toNat va.toNat n PTE_R 13 := by
  induction n generalizing k va with
  | zero => exact iff_of_true ⟨[], k, rfl, .nil⟩ .nil
  | succ n ih =>
    constructor
    · rintro ⟨_, k', hlength, hload⟩
      cases hload with
      | nil => cases hlength
      | cons hbyte hrest =>
        obtain ⟨halive1, hstep⟩ := hbyte.1.accessible (n := n) traps_load halive
        exact hstep.mpr ((ih halive1).mp ⟨_, k', Nat.succ.inj hlength, hrest⟩)
    · intro hall
      obtain ⟨k1, hbyte⟩ := (traps_load.tries_iff halive).mpr hall.first
      obtain ⟨halive1, hstep⟩ := hbyte.accessible traps_load halive
      obtain ⟨bs, k', hlength, hrest⟩ := (ih halive1).mpr (hstep.mp hall)
      exact ⟨_ :: bs, k', congrArg _ hlength, .cons ⟨hbyte, rfl⟩ hrest⟩

theorem storesRange_iff_accessible {bs : List UInt8} (halive : (k.proc p).killed = false) :
    (∃ k', StoresRange p sp va bs k k') ↔ Accessible k p sp.toNat va.toNat bs.length PTE_W 15 := by
  induction bs generalizing k va with
  | nil => exact iff_of_true ⟨k, .nil⟩ .nil
  | cons b bs ih =>
    constructor
    · rintro ⟨k', hstore⟩
      cases hstore with
      | cons hbyte hrest =>
        obtain ⟨halive1, hstep⟩ := Tries.accessible (n := bs.length) traps_store hbyte halive
        exact hstep.mpr ((ih halive1).mp ⟨k', hrest⟩)
    · intro hall
      obtain ⟨k1, hbyte⟩ := ((traps_store (b := b)).tries_iff halive).mpr hall.first
      obtain ⟨halive1, hstep⟩ := hbyte.accessible traps_store halive
      obtain ⟨k', hrest⟩ := (ih halive1).mpr (hstep.mp hall)
      exact ⟨k', .cons hbyte hrest⟩

end range

/-! ## Agreement -/

/-- All of the range is there for the process and for the kernel, or neither can
access all of it. -/
def Decided (k : Kernel) (p : Nat) (sp va : UInt64) (len flags cause : Nat) : Prop :=
  (∀ j, j < len → Present k p flags (va + UInt64.ofNat j)) ∨
  (∃ j, j < len ∧ ¬UserAddr (k.proc p).pagetable (va + UInt64.ofNat j).toNat) ∧
    ¬Accessible k p sp.toNat va.toNat len flags cause

section agree

variable {k : Kernel} {p : Nat} {sp va : UInt64} {len flags cause : Nat}

theorem UserAddr.valid {pt : PageTable} {x : Nat} (h : UserAddr pt x) :
    x < MAXVA ∧ Vm.Valid (pt.pte x) := by
  obtain ⟨hmax, hvalid, -, -⟩ := walkaddr_ne_zero h
  rw [pte_pgRoundDown] at hvalid
  exact ⟨lt_maxva hmax, hvalid⟩

/-- Addresses that the kernel finds do not wrap around. -/
theorem toNat_of_userAddr {pt : PageTable} (h : ∀ j < len, UserAddr pt (va + UInt64.ofNat j).toNat)
    {j : Nat} (hj : j < len) : (va + UInt64.ofNat j).toNat = va.toNat + j := by
  induction j with
  | zero => rw [add_ofNat_zero, Nat.add_zero]
  | succ j ih =>
    have hbefore := ih (Nat.lt_of_succ_lt hj)
    have hmax := (UserAddr.valid (h j (Nat.lt_of_succ_lt hj))).1
    rw [hbefore] at hmax
    rw [toNat_add_ofNat]
    unfold uint64
    simp only [MAXVA] at hmax
    omega

/-- What the kernel and the process can both access is there: a page that the
kernel finds is not brought in by a fault. -/
theorem present_of_accessible
    (huser : ∀ j < len, UserAddr (k.proc p).pagetable (va + UInt64.ofNat j).toNat)
    (h : Accessible k p sp.toNat va.toNat len flags cause) {j : Nat} (hj : j < len) :
    Present k p flags (va + UInt64.ofNat j) := by
  refine ⟨huser j hj, fun hnone => ?_⟩
  rw [toNat_of_userAddr huser hj] at hnone
  have habsent := absent_of_lt (Nat.le_add_right va.toNat j) (Nat.add_lt_add_left hj _) hnone
  obtain ⟨i, hi⟩ := h.served _ habsent
  refine hi.not_valid ?_
  rw [PageTable.pte_eq_of_page habsent.1, ← toNat_of_userAddr huser hj]
  exact (UserAddr.valid (huser j hj)).2

theorem decided_iff : Decided k p sp va len flags cause ↔
    ((∀ j < len, UserAddr (k.proc p).pagetable (va + UInt64.ofNat j).toNat) ↔
      Accessible k p sp.toNat va.toNat len flags cause) := by
  constructor
  · rintro (hall | ⟨⟨j, hj, hno⟩, hnot⟩)
    · have huser := fun j hj => (hall j hj).1
      refine iff_of_true huser (.of_present fun x hle hlt => ?_)
      obtain ⟨j, rfl⟩ := Nat.le.dest hle
      have hj : j < len := Nat.lt_of_add_lt_add_left hlt
      rw [← toNat_of_userAddr huser hj]
      exact (hall j hj).2
    · exact iff_of_false (fun huser => hno (huser j hj)) hnot
  · intro h
    by_cases hall : Accessible k p sp.toNat va.toNat len flags cause
    · exact .inl fun j hj => present_of_accessible (h.mpr hall) hall hj
    · refine .inr ⟨?_, hall⟩
      by_contra hno
      exact hall (h.mp fun j hj => not_not.mp fun hj' => hno ⟨j, hj, hj'⟩)

theorem copyinAgrees_iff (halive : (k.proc p).killed = false) :
    CopyinAgrees k p sp va len ↔ Decided k p sp va len PTE_R 13 := by
  rw [decided_iff]
  constructor
  · intro h
    rw [← copyin_range (fun _ => 0) 0, ← loadsRange_iff_accessible halive]
    exact (h (fun _ => 0) 0).1
  · intro h dst d r
    have hok : r.2 = true ↔ ∃ bs k', LoadsRange p sp va len k bs k' := by
      rw [copyin_range, h, loadsRange_iff_accessible halive]
    refine ⟨hok, fun bs k' hbs => ?_⟩
    have hloads := (loadsRange_iff_accessible halive).mp ⟨bs, k', hbs⟩
    have hcopied := hok.mpr ⟨bs, k', hbs⟩
    have hall : ∀ j < len, Present k p PTE_R (va + UInt64.ofNat j) := fun j hj =>
      present_of_accessible (h.mpr hloads) hloads hj
    obtain ⟨rfl, hbs'⟩ := hbs
    rw [loads_present hbs' fun j hj => (hall j hj).2, List.length_map, List.length_range]
    refine List.map_congr_left fun j hj => ?_
    have hj' := List.mem_range.mp hj
    rw [(hall j hj').byte, toNat_add_ofNat, copyin_bytes hcopied, if_pos (by omega),
      Nat.add_sub_cancel_left]

theorem copyoutAgrees_iff (halive : (k.proc p).killed = false) :
    CopyoutAgrees k p sp va len ↔ Decided k p sp va len PTE_W 15 := by
  have hstores : ∀ (src : Bytes) (s : Nat),
      (∃ k', StoresRange p sp va ((List.range len).map fun j => src (s + j)) k k') ↔
        Accessible k p sp.toNat va.toNat len PTE_W 15 := by
    intro src s
    rw [storesRange_iff_accessible halive, List.length_map, List.length_range]
  rw [decided_iff]
  constructor
  · intro h
    rw [← copyout_range (fun _ => 0) 0, ← hstores (fun _ => 0) 0]
    exact h (fun _ => 0) 0
  · intro h src s
    rw [copyout_range, hstores, h]

end agree

/-- Kernel reads of a range agree with loads, and kernel writes with stores, exactly
if all of the range is there for the access, or if the kernel misses some of it and
the process cannot access all of it either. -/
theorem kernel_accesses_agree {k : Kernel} {p : Nat} (halive : (k.proc p).killed = false)
    (sp va : UInt64) (len : Nat) :
    (CopyinAgrees k p sp va len ↔ Decided k p sp va len PTE_R 13) ∧
    (CopyoutAgrees k p sp va len ↔ Decided k p sp va len PTE_W 15) :=
  ⟨copyinAgrees_iff halive, copyoutAgrees_iff halive⟩

/-- A mapping of three pages over a file of two: the first page is there after a
store to it, and the third is never brought in. -/
theorem kernel_accesses_agree_mapped :
    ∃ k0 k, Boot k0 ∧ Run (fun _ _ _ => True) k0 k ∧ ((k.proc 0).vma 0).addr = 0x1000 ∧
      ((k.proc 0).vma 0).length = 12288 ∧
      CopyinAgrees k 0 0x1000 0x1000 8 ∧ CopyoutAgrees k 0 0x1000 0x1000 8 ∧
      CopyinAgrees k 0 0x1000 0x3000 8 ∧ CopyoutAgrees k 0 0x1000 0x3000 8 := by
  obtain ⟨k0, k, hboot, hrun, hfact⟩ := smallMachine_anyRun
    [(0, .openFile (some 2) 2), (0, .mmap 0 12288 3 1 0 0), (0, .store 0x1000 0x1000 7)]
    (fun k => decide ((k.proc 0).killed = false ∧ ((k.proc 0).vma 0).addr = 0x1000 ∧
      ((k.proc 0).vma 0).length = 12288 ∧
      (∀ j, j < 8 → Present k 0 PTE_R (0x1000 + UInt64.ofNat j)) ∧
      (∀ j, j < 8 → Present k 0 PTE_W (0x1000 + UInt64.ofNat j)) ∧
      ¬UserAddr (k.proc 0).pagetable (0x3000 + UInt64.ofNat 0).toNat ∧
      Absent k 0 PTE_R 0x3000 8 3 ∧ Absent k 0 PTE_W 0x3000 8 3 ∧
      faultSlot (k.proc 0).vma (int32 (0x3000 : Nat)) = some 0 ∧
      ¬((k.proc 0).vma 0).InFile k.files (int32 (0x3000 : Nat)))) (by decide +kernel)
  obtain ⟨halive, haddr, hlength, hread, hwrite, huser, hload, hstore, hslot, hcontent⟩ :=
    of_decide_eq_true hfact
  have hnot : ∀ flags cause, Absent k 0 flags 0x3000 8 3 →
      ¬Accessible k 0 0x1000 0x3000 8 flags cause := by
    intro flags cause habsent hall
    obtain ⟨j, hj⟩ := hall.served 3 habsent
    cases Option.some.inj (hj.first.symm.trans hslot)
    exact hcontent hj.content
  obtain ⟨hin, hout⟩ := kernel_accesses_agree halive 0x1000 0x1000 8
  obtain ⟨hin', hout'⟩ := kernel_accesses_agree halive 0x1000 0x3000 8
  exact ⟨k0, k, hboot, hrun, haddr, hlength, hin.mpr (.inl hread), hout.mpr (.inl hwrite),
    hin'.mpr (.inr ⟨⟨0, by decide, huser⟩, hnot _ _ hload⟩),
    hout'.mpr (.inr ⟨⟨0, by decide, huser⟩, hnot _ _ hstore⟩)⟩

/-- A process maps a file that is open for reading and writing with read
permission. A load from the mapping brings in its page, `copyin` does not.
Once the page is there, `copyout` writes to it, which a store may not. -/
theorem mapped_buffer_disagrees :
    ∃ k0 k k1, Boot k0 ∧ Run (fun _ _ _ => True) k0 k ∧ Run (fun _ _ _ => True) k0 k1 ∧
      ¬CopyinAgrees k 0 0x1000 0x1000 1 ∧ ¬CopyoutAgrees k1 0 0x1000 0x1000 1 := by
  obtain ⟨k0, k, hboot, hrun, hfact⟩ := smallMachine_anyRun
    [(0, .openFile (some 2) 2), (0, .mmap 0 4096 1 2 0 0)]
    (fun k => decide (userPage (k.proc 0).pagetable 0x1000 PTE_R = none) &&
      !(copyin (k.proc 0).pagetable k.files.kmem.mem (fun _ => 0) 0 0x1000 1).2 &&
      stepGives 0 (.load 0x1000 0x1000) (fun _ k1 => !(k1.proc 0).killed &&
        (userPage (k1.proc 0).pagetable 0x1000 PTE_R).isSome &&
        (userPage (k1.proc 0).pagetable 0x1000 PTE_W).isNone &&
        (copyout (k1.proc 0).pagetable k1.files.kmem.mem 0x1000 (fun _ => 7) 0 1).2 &&
        stepPanics 0 (.store 0x1000 0x1000 7) "remap" k1) k) (by decide +kernel)
  simp only [Bool.and_eq_true, Bool.not_eq_true', decide_eq_true_eq, stepGives_iff,
    stepPanics_iff] at hfact
  obtain ⟨⟨hnone, hcopyin⟩, henabled, r, k1, hload, ⟨⟨⟨halive, hpage⟩, hreadonly⟩, hcopyout⟩,
    -, err, hstore, -⟩ := hfact
  refine ⟨k0, k, k1, hboot, hrun, hrun.step henabled trivial hload, fun h => ?_, fun h => ?_⟩
  · have hpage : userPage (k1.proc 0).pagetable (0x1000 : UInt64).toNat PTE_R ≠ none :=
      Option.isSome_iff_ne_none.mp hpage
    obtain ⟨_, k', hagain, hk'⟩ := step_load_hit 0x1000 hpage
    rw [hk'] at hagain
    have hok := (h (fun _ => 0) 0).1.mpr
      ⟨_, k1, rfl, .cons ⟨.fault hnone hload halive (.hit hpage hagain), rfl⟩ .nil⟩
    exact absurd (hcopyin.symm.trans hok) (by decide)
  · obtain ⟨k', hk'⟩ := (h (fun _ => 7) 0).mp hcopyout
    cases hk' with
    | cons hbyte _ =>
      cases hbyte with
      | hit hpage => exact hpage (Option.isNone_iff_eq_none.mp hreadonly)
      | fault _ htrap => exact absurd (hstore.symm.trans htrap) (by simp)

end Xv6.Sys
