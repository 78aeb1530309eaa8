import Xv6.Proc.Access

/-!
# Which accesses to a mapping are granted

A load or a store is granted if it goes through in the end, at once or after
faults that the process survives. One would like the protection that `mmap`
was called with to decide: loads are granted with `PROT_READ` and stores with
`PROT_WRITE`, whatever happened before and whatever the stack pointer is.

The kernel looks at more. The page-fault branch of `usertrap` compares the
address with the stack pointer, `mmap_handler` asks whether the file is open
for the access at hand, and takes the address as an `int`; an entry that is
there is never changed, and one that is writable but not readable is reserved.
`wp_mmapHandler_exact` says exactly when the handler maps a page, and
`DecidedByMapping` puts together when all of it comes to the protection.
-/

namespace Xv6.Sys

open Xv6.Lib Xv6.Lib.CInt Xv6.Vm
open Act

def Vma.readProt (v : Vma) : Bool := hasBit v.prot PROT_READ

def Vma.writeProt (v : Vma) : Bool := hasBit v.prot PROT_WRITE

section fault

variable {k k' : Kernel} {p va cause j : Nat}

/-- A fault at `va` ends with a page of the mapping in slot `j` there. -/
@[mk_iff]
structure Served (k : Kernel) (p sp va cause j : Nat) : Prop extends Handled k p va cause j where
  window : InWindow k p sp va
  /-- The `int` that the handler has is the address. -/
  fits : faultPage va = pgRoundDown va

theorem userPage_ne_none {pt : PageTable} {flags : Nat} :
    userPage pt va flags ≠ none ↔ va < MAXVA ∧ Vm.Valid (pt.pte va) ∧
      hasFlag (pt.pte va) PTE_U = true ∧ hasFlag (pt.pte va) PTE_R = true ∧
      hasFlag (pt.pte va) flags = true := by
  unfold userPage
  split
  · rename_i h
    exact ⟨fun _ => h, fun _ => Option.some_ne_none _⟩
  · rename_i h
    exact ⟨fun hne => absurd rfl hne, fun hall => absurd hall h⟩

theorem pteFlags_flags (v : Vma) : hasFlag v.pteFlags PTE_U = true ∧
    hasFlag v.pteFlags PTE_R = v.readProt ∧ hasFlag v.pteFlags PTE_W = v.writeProt := by
  unfold Vma.pteFlags Vma.readProt Vma.writeProt
  cases hasBit v.prot PROT_READ <;> cases hasBit v.prot PROT_WRITE <;>
    cases hasBit v.prot PROT_EXEC <;> decide

theorem lt_maxva (h : pgRoundDown va < MAXVA) : va < MAXVA := by
  unfold pgRoundDown at h
  simp only [PGSIZE, MAXVA] at h ⊢
  omega

theorem samePage_iff : va / PGSIZE = faultPage va / PGSIZE ↔ faultPage va = pgRoundDown va := by
  unfold faultPage pgRoundDown
  simp only [PGSIZE]
  omega

/-- What the hardware finds at `va` once the handler mapped a page. -/
theorem Brought.userPage {pa flags : Nat} {v : Vma} (hflag : flags < 32)
    (hvalid : PTE_V &&& flags = 0) (hlow : faultPage va < MAXVA)
    (h : Brought k p (faultPage va) (mkPte pa v.pteFlags) 1 k')
    (hnone : userPage (k.proc p).pagetable va flags = none) :
    userPage (k'.proc p).pagetable va flags ≠ none ↔
      faultPage va = pgRoundDown va ∧ v.readProt = true ∧ hasFlag v.pteFlags flags = true := by
  have hu : ∀ {flag : Nat}, flag < 32 → PTE_V &&& flag = 0 →
      hasFlag (mkPte pa v.pteFlags) flag = hasFlag v.pteFlags flag := fun h h' => hasFlag_mkPte h h'
  obtain ⟨huser, hread, -⟩ := pteFlags_flags v
  by_cases hpage : faultPage va = pgRoundDown va
  · have hva : va < MAXVA := lt_maxva (hpage ▸ hlow)
    rw [userPage_ne_none, h.pte va (Nat.lt_trans hva (by decide)), if_pos (samePage_iff.mpr hpage),
      hu (by decide) rfl, hu (by decide) rfl, hu hflag hvalid, huser, hread]
    exact ⟨fun hall => ⟨hpage, hall.2.2.2⟩, fun hall => ⟨hva, valid_mkPte _ _, rfl, hall.2⟩⟩
  · refine ⟨fun hne => ?_, fun hall => absurd hall.1 hpage⟩
    have hva := (userPage_ne_none.mp hne).1
    rw [userPage_ne_none, h.pte va (Nat.lt_trans hva (by decide)), if_neg (mt samePage_iff.mp hpage),
      ← userPage_ne_none] at hne
    exact absurd hnone hne

theorem Brought.not_handled {w : Nat} {j : Nat} (h : Brought k p (faultPage va) w 1 k')
    (hw : Vm.Valid w) (hlow : faultPage va < MAXVA) : ¬Handled k' p va cause j := by
  intro hj
  refine hj.absent ?_
  rw [h.pte _ (Nat.lt_trans hlow (by decide)), if_pos rfl]
  exact hw

end fault

/-! ## Loads and stores -/

def LoadGranted (k : Kernel) (p : Nat) (sp va : UInt64) : Prop := ∃ b k', LoadsByte p sp va b k k'

def StoreGranted (k : Kernel) (p : Nat) (sp va : UInt64) (b : UInt8) : Prop :=
  ∃ k', StoresByte p sp va b k k'

/-- Event `e` is an access to `va`: it changes at most bytes if the hardware finds
the page, and traps if not. -/
structure Traps (p : Nat) (sp va : UInt64) (e : Event) (flags cause : Nat) : Prop where
  flag : flags < 32
  valid : PTE_V &&& flags = 0
  hit : ∀ k : Kernel, userPage (k.proc p).pagetable va.toNat flags ≠ none →
    ∃ r k', step p e k = .ok (r, k') ∧ Refilled k k'
  fault : ∀ k : Kernel, userPage (k.proc p).pagetable va.toNat flags = none →
    (k.proc p).killed = false →
    wp (step p e) (fun _ k' => Faulted k p sp.toNat va.toNat cause k')
      (fun _ => ¬(InWindow k p sp.toNat va.toNat ∧ ∃ j, Handled k p va.toNat cause j)) k

section granted

variable {k k1 k' : Kernel} {p cause flags : Nat} {sp va : UInt64} {b : UInt8} {e : Event}

theorem traps_load : Traps p sp va (.load sp va) PTE_R 13 where
  flag := by decide
  valid := rfl
  hit k hpage := by
    obtain ⟨r, k', hload, rfl⟩ := step_load_hit sp hpage
    exact ⟨r, k', hload, rfl, rfl, rfl, rfl, rfl, rfl⟩
  fault k hnone halive := by
    unfold step load
    rw [wp_bind, wp_bind, wp_get, hnone]
    exact wp_mono (wp_pageFault_exact halive) (fun _ _ h => wp_pure.mpr h) fun _ h => h.1

theorem traps_store : Traps p sp va (.store sp va b) PTE_W 15 where
  flag := by decide
  valid := rfl
  hit k hpage := step_store_hit sp b hpage
  fault k hnone halive := by
    unfold step store
    rw [wp_bind, wp_bind, wp_get, hnone]
    exact wp_mono (wp_pageFault_exact halive) (fun _ _ h => wp_pure.mpr h) fun _ h => h.1

/-- A fault that is served returns, and the process lives. -/
theorem survives {m : KernelM Int} {j : Nat}
    (h : wp m (fun _ k' => Faulted k p sp.toNat va.toNat cause k')
      (fun _ => ¬(InWindow k p sp.toNat va.toNat ∧ ∃ j, Handled k p va.toNat cause j)) k)
    (hj : Served k p sp.toNat va.toNat cause j) :
    ∃ r k1, m k = .ok (r, k1) ∧ Faulted k p sp.toNat va.toNat cause k1 ∧
      (k1.proc p).killed = false := by
  have hcan : InWindow k p sp.toNat va.toNat ∧ ∃ j, Handled k p va.toNat cause j :=
    ⟨hj.window, j, hj.toHandled⟩
  obtain ⟨r, k1, hrun, hfault⟩ := wp_total (wp_mono h (fun _ _ h => h) fun _ hnot => hnot hcan)
  exact ⟨r, k1, hrun, hfault, Bool.eq_false_of_not_eq_true fun hkilled => hfault.killed hkilled hcan⟩

/-- The second try after a fault finds a page, if the fault was served by a
mapping with the protection for it. -/
theorem Faulted.there {j : Nat} (hflag : flags < 32) (hvalid : PTE_V &&& flags = 0)
    (hnone : userPage (k.proc p).pagetable va.toNat flags = none)
    (h : Faulted k p sp.toNat va.toNat cause k1) (halive : (k1.proc p).killed = false)
    (hj : Served k p sp.toNat va.toNat cause j) (hread : ((k.proc p).vma j).readProt = true)
    (hflags : hasFlag ((k.proc p).vma j).pteFlags flags = true) :
    userPage (k1.proc p).pagetable va.toNat flags ≠ none := by
  obtain ⟨-, i, pa, hi, hbrought⟩ := h.alive halive
  have hsame : j = i := Option.some.inj (hj.first.symm.trans hi.first)
  subst hsame
  exact (hbrought.userPage hflag hvalid hi.low hnone).mpr ⟨hj.fits, hread, hflags⟩

/-- The second try does not fault once more and survive. -/
theorem Faulted.not_handled {j : Nat} (h : Faulted k p sp.toNat va.toNat cause k1)
    (halive : (k1.proc p).killed = false) : ¬Handled k1 p va.toNat cause j := by
  obtain ⟨-, i, pa, hi, hbrought⟩ := h.alive halive
  exact hbrought.not_handled (valid_mkPte _ _) hi.low

/-- What an access to `va` does that goes through: the page is there and at most
bytes change, or a mapping with the protection for it serves a fault. -/
inductive Touched (k : Kernel) (p sp va flags cause : Nat) (k' : Kernel) : Prop where
  | hit (hpage : userPage (k.proc p).pagetable va flags ≠ none) (hbytes : Refilled k k')
  | fault (hnone : userPage (k.proc p).pagetable va flags = none) {j pa : Nat}
      (hserved : Served k p sp va cause j) (hread : ((k.proc p).vma j).readProt = true)
      (hflags : hasFlag ((k.proc p).vma j).pteFlags flags = true)
      (hbrought : Brought k p (faultPage va) (mkPte pa ((k.proc p).vma j).pteFlags) 1 k')

theorem Faulted.touched (hflag : flags < 32) (hvalid : PTE_V &&& flags = 0)
    (hnone : userPage (k.proc p).pagetable va.toNat flags = none)
    (h : Faulted k p sp.toNat va.toNat cause k1) (halive : (k1.proc p).killed = false)
    (hpage : userPage (k1.proc p).pagetable va.toNat flags ≠ none) (hbytes : Refilled k1 k') :
    Touched k p sp.toNat va.toNat flags cause k' := by
  obtain ⟨hwindow, i, pa, hi, hbrought⟩ := h.alive halive
  obtain ⟨hfits, hread, hflags⟩ := (hbrought.userPage hflag hvalid hi.low hnone).mp hpage
  exact .fault hnone ⟨hi, hwindow, hfits⟩ hread hflags (hbrought.refilled hbytes)

theorem Tries.bytes (ht : Traps p sp va e flags cause) (h : Tries p e va flags k k')
    (hpage : userPage (k.proc p).pagetable va.toNat flags ≠ none) : Refilled k k' := by
  cases h with
  | hit _ hstep =>
    obtain ⟨r, k1, hk1, hsame⟩ := ht.hit k hpage
    cases hk1.symm.trans hstep
    exact hsame
  | fault hnone => exact absurd hnone hpage

theorem Tries.touched (ht : Traps p sp va e flags cause) (h : Tries p e va flags k k')
    (halive : (k.proc p).killed = false) : Touched k p sp.toNat va.toNat flags cause k' := by
  by_cases hnone : userPage (k.proc p).pagetable va.toNat flags = none
  swap
  · exact .hit hnone (h.bytes ht hnone)
  cases h with
  | hit hpage => exact absurd hnone hpage
  | @fault _ k1 _ _ _ htrap halive1 hagain =>
    have hfault := wp_ok (ht.fault k hnone halive) htrap
    by_cases hnone1 : userPage (k1.proc p).pagetable va.toNat flags = none
    swap
    · exact hfault.touched ht.flag ht.valid hnone halive1 hnone1 (hagain.bytes ht hnone1)
    cases hagain with
    | hit hpage => exact absurd hnone1 hpage
    | fault _ htrap1 halive2 _ =>
      obtain ⟨-, j, -, hj, -⟩ := (wp_ok (ht.fault k1 hnone1 halive1) htrap1).alive halive2
      exact absurd hj (hfault.not_handled halive1)

/-- An access goes through exactly if the page is there, or a mapping with the
protection for it serves the fault. -/
theorem Traps.tries_iff (ht : Traps p sp va e flags cause) (halive : (k.proc p).killed = false) :
    (∃ k', Tries p e va flags k k') ↔ userPage (k.proc p).pagetable va.toNat flags ≠ none ∨
      ∃ j, Served k p sp.toNat va.toNat cause j ∧ ((k.proc p).vma j).readProt = true ∧
        hasFlag ((k.proc p).vma j).pteFlags flags = true := by
  constructor
  · rintro ⟨k', h⟩
    cases h.touched ht halive with
    | hit hpage => exact .inl hpage
    | fault _ hserved hread hflags => exact .inr ⟨_, hserved, hread, hflags⟩
  · intro h
    have hthere : ∀ k : Kernel, userPage (k.proc p).pagetable va.toNat flags ≠ none →
        ∃ k', Tries p e va flags k k' := fun k hpage =>
      let ⟨_, k', hk', _⟩ := ht.hit k hpage
      ⟨k', .hit hpage hk'⟩
    by_cases hnone : userPage (k.proc p).pagetable va.toNat flags = none
    swap
    · exact hthere k hnone
    obtain ⟨j, hj, hread, hflags⟩ := h.resolve_left (absurd hnone)
    obtain ⟨r, k1, htrap, hfault, halive1⟩ := survives (ht.fault k hnone halive) hj
    obtain ⟨k', hk'⟩ := hthere k1 (hfault.there ht.flag ht.valid hnone halive1 hj hread hflags)
    exact ⟨k', .fault hnone htrap halive1 hk'⟩

theorem loadGranted_iff (halive : (k.proc p).killed = false) :
    LoadGranted k p sp va ↔ userPage (k.proc p).pagetable va.toNat PTE_R ≠ none ∨
      ∃ j, Served k p sp.toNat va.toNat 13 j ∧ ((k.proc p).vma j).readProt = true := by
  have hbyte : LoadGranted k p sp va ↔ ∃ k', Tries p (.load sp va) va PTE_R k k' :=
    ⟨fun ⟨_, k', h, _⟩ => ⟨k', h⟩, fun ⟨k', h⟩ => ⟨_, k', h, rfl⟩⟩
  rw [hbyte, traps_load.tries_iff halive]
  simp only [pteFlags_flags, and_self]

theorem storeGranted_iff (halive : (k.proc p).killed = false) :
    StoreGranted k p sp va b ↔ userPage (k.proc p).pagetable va.toNat PTE_W ≠ none ∨
      ∃ j, Served k p sp.toNat va.toNat 15 j ∧ ((k.proc p).vma j).readProt = true ∧
        ((k.proc p).vma j).writeProt = true := by
  unfold StoreGranted StoresByte
  rw [traps_store.tries_iff halive]
  simp only [pteFlags_flags]

end granted

/-! ## The protection decides -/

/-- The accesses to `va` that are granted are those of the mapping's protection. -/
structure AccessByMapping (k : Kernel) (p : Nat) (sp va : UInt64) (v : Vma) : Prop where
  load : LoadGranted k p sp va ↔ v.readProt = true
  store : ∀ b, StoreGranted k p sp va b ↔ v.writeProt = true

/-- The page is there with the protection as its permissions, or it is not
there and exactly the faults that the protection allows are served, by a
mapping with the same protection. -/
structure DecidedByMapping (k : Kernel) (p : Nat) (sp va : UInt64) (v : Vma) : Prop where
  present : Vm.Valid ((k.proc p).pagetable.pte va.toNat) →
    (userPage (k.proc p).pagetable va.toNat PTE_R ≠ none ↔ v.readProt = true) ∧
    (userPage (k.proc p).pagetable va.toNat PTE_W ≠ none ↔ v.writeProt = true)
  absent : ¬Vm.Valid ((k.proc p).pagetable.pte va.toNat) →
    ((∃ j, Served k p sp.toNat va.toNat 13 j ∧ ((k.proc p).vma j).readProt = true) ↔
      v.readProt = true) ∧
    ((∃ j, Served k p sp.toNat va.toNat 15 j ∧ ((k.proc p).vma j).readProt = true ∧
      ((k.proc p).vma j).writeProt = true) ↔ v.writeProt = true)

theorem Served.not_valid {k : Kernel} {p sp va cause j : Nat} (h : Served k p sp va cause j) :
    ¬Vm.Valid ((k.proc p).pagetable.pte va) := by
  have habsent := h.absent
  rwa [h.fits, pte_pgRoundDown] at habsent

/-- When the protection that `mmap` was given decides the accesses to an address. -/
theorem accessByMapping_iff {k : Kernel} {p : Nat} {sp va : UInt64} {v : Vma}
    (halive : (k.proc p).killed = false) :
    AccessByMapping k p sp va v ↔ DecidedByMapping k p sp va v := by
  by_cases hvalid : Vm.Valid ((k.proc p).pagetable.pte va.toNat)
  · have hnot : ∀ {cause j : Nat}, ¬Served k p sp.toNat va.toNat cause j := fun hj =>
      hj.not_valid hvalid
    have hload : LoadGranted k p sp va ↔
        userPage (k.proc p).pagetable va.toNat PTE_R ≠ none := by
      rw [loadGranted_iff halive]
      exact ⟨fun h => h.resolve_right fun ⟨_, hj, _⟩ => hnot hj, .inl⟩
    have hstore : ∀ b, StoreGranted k p sp va b ↔
        userPage (k.proc p).pagetable va.toNat PTE_W ≠ none := by
      intro b
      rw [storeGranted_iff halive]
      exact ⟨fun h => h.resolve_right fun ⟨_, hj, _⟩ => hnot hj, .inl⟩
    constructor
    · rintro ⟨hl, hs⟩
      exact ⟨fun _ => ⟨hload.symm.trans hl, (hstore 0).symm.trans (hs 0)⟩, fun h => absurd hvalid h⟩
    · rintro ⟨hpresent, -⟩
      exact ⟨hload.trans (hpresent hvalid).1, fun b => (hstore b).trans (hpresent hvalid).2⟩
  · have hnone : ∀ {flags : Nat}, ¬userPage (k.proc p).pagetable va.toNat flags ≠ none :=
      fun h => hvalid (userPage_ne_none.mp h).2.1
    have hload := @loadGranted_iff k p sp va halive
    have hstore := fun b => @storeGranted_iff k p sp va b halive
    simp only [hnone, false_or] at hload hstore
    constructor
    · rintro ⟨hl, hs⟩
      exact ⟨fun h => absurd h hvalid, fun _ => ⟨hload.symm.trans hl, (hstore 0).symm.trans (hs 0)⟩⟩
    · rintro ⟨-, habsent⟩
      exact ⟨hload.trans (habsent hvalid).1, fun b => (hstore b).trans (habsent hvalid).2⟩

/-- The address `va` is in the mapping of slot `i`, on a page that overlaps the file. -/
def InMapping (k : Kernel) (p i va : Nat) : Prop :=
  let v := (k.proc p).vma i
  i < MAXMMAPITEM ∧ v.used = true ∧ v.addr ≤ va ∧ (va : Int) < v.addr + v.length ∧
    v.InFile k.files (int32 va)

instance (v : Vma) (s : Files) (va : Int) : Decidable (v.InFile s va) :=
  inferInstanceAs (Decidable (_ ∧ _))

instance (k : Kernel) (p i va : Nat) : Decidable (InMapping k p i va) :=
  inferInstanceAs (Decidable (_ ∧ _))

instance (k : Kernel) (p va cause j : Nat) : Decidable (Handles k p va cause j) :=
  decidable_of_iff _ (handles_iff k p va cause j).symm

instance (k : Kernel) (p va cause j : Nat) : Decidable (Handled k p va cause j) :=
  decidable_of_iff _ (handled_iff k p va cause j).symm

instance (k : Kernel) (p sp va : Nat) : Decidable (InWindow k p sp va) :=
  inferInstanceAs (Decidable (_ ∧ _))

instance (k : Kernel) (p sp va cause j : Nat) : Decidable (Served k p sp va cause j) :=
  decidable_of_iff _ (served_iff k p sp va cause j).symm

/-- A shared mapping of a file that is open for reading and writing. -/
theorem accessByMapping_shared :
    ∃ k0 k, Boot k0 ∧ Run (fun _ _ _ => True) k0 k ∧ InMapping k 0 0 0x1000 ∧
      (k.proc 0).killed = false ∧ DecidedByMapping k 0 0x1000 0x1000 ((k.proc 0).vma 0) ∧
      AccessByMapping k 0 0x1000 0x1000 ((k.proc 0).vma 0) := by
  obtain ⟨k0, k, hboot, hrun, hfact⟩ := smallMachine_anyRun
    [(0, .openFile (some 2) 2), (0, .mmap 0 8192 3 1 0 0)]
    (fun k => decide (InMapping k 0 0 0x1000 ∧ (k.proc 0).killed = false ∧
      ¬Vm.Valid ((k.proc 0).pagetable.pte 0x1000) ∧ Served k 0 0x1000 0x1000 13 0 ∧
      Served k 0 0x1000 0x1000 15 0 ∧ ((k.proc 0).vma 0).readProt = true ∧
      ((k.proc 0).vma 0).writeProt = true)) (by decide +kernel)
  obtain ⟨hin, halive, habsent, hload, hstore, hread, hwrite⟩ := of_decide_eq_true hfact
  have hdecided : DecidedByMapping k 0 0x1000 0x1000 ((k.proc 0).vma 0) :=
    ⟨fun h => absurd h habsent, fun _ =>
      ⟨iff_of_true ⟨0, hload, hread⟩ hread, iff_of_true ⟨0, hstore, hread, hwrite⟩ hwrite⟩⟩
  exact ⟨k0, k, hboot, hrun, hin, halive, hdecided, (accessByMapping_iff halive).mpr hdecided⟩

/-- A private mapping with write protection of a file that is open for reading
only: the first store to a page is refused, unless a load came before it. -/
theorem private_store_refused :
    ∃ k0 k, Boot k0 ∧ Run (fun _ _ _ => True) k0 k ∧ Enabled k 0 (.store 0x1000 0x1000 7) ∧
      InMapping k 0 0 0x1000 ∧ ((k.proc 0).vma 0).writeProt = true ∧
      ¬StoreGranted k 0 0x1000 0x1000 7 ∧ ¬AccessByMapping k 0 0x1000 0x1000 ((k.proc 0).vma 0) ∧
      ∃ r k1, step 0 (.load 0x1000 0x1000) k = .ok (r, k1) ∧
        StoreGranted k1 0 0x1000 0x1000 7 := by
  obtain ⟨k0, k, hboot, hrun, hfact⟩ := smallMachine_anyRun
    [(0, .openFile (some 2) 0), (0, .mmap 0 8192 3 2 0 0)]
    (fun k => decide (Enabled k 0 (.store 0x1000 0x1000 7) ∧ InMapping k 0 0 0x1000 ∧
        ((k.proc 0).vma 0).writeProt = true ∧
        userPage (k.proc 0).pagetable 0x1000 PTE_W = none ∧
        faultSlot (k.proc 0).vma (int32 (0x1000 : Nat)) = some 0 ∧
        (k.files.file ((k.proc 0).vma 0).vfile).writable = false) &&
      (step 0 (.load 0x1000 0x1000) k).toOption.any fun (r : Int × Kernel) =>
        (userPage (r.2.proc 0).pagetable 0x1000 PTE_W).isSome) (by decide +kernel)
  rw [Bool.and_eq_true, decide_eq_true_eq] at hfact
  obtain ⟨⟨henabled, hin, hwrite, hnone, hslot, hmode⟩, hloaded⟩ := hfact
  have hrefused : ¬StoreGranted k 0 0x1000 0x1000 7 := by
    rw [storeGranted_iff henabled.2.2.1]
    rintro (hpage | ⟨j, hj, -, -⟩)
    · exact hpage hnone
    · cases Option.some.inj (hj.first.symm.trans hslot)
      exact absurd ((hj.writable rfl).symm.trans hmode) (by decide)
  refine ⟨k0, k, hboot, hrun, henabled, hin, hwrite, hrefused,
    fun h => hrefused ((h.store 7).mpr hwrite), ?_⟩
  obtain ⟨⟨r, k1⟩, hstep, hpage⟩ := Act.ok_of_any hloaded
  have hpage : userPage (k1.proc 0).pagetable (0x1000 : UInt64).toNat PTE_W ≠ none :=
    Option.isSome_iff_ne_none.mp hpage
  obtain ⟨_, k', hstore, -⟩ := step_store_hit 0x1000 7 hpage
  exact ⟨r, k1, hstep, k', .hit hpage hstore⟩

end Xv6.Sys
