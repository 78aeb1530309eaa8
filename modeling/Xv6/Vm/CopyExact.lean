import Xv6.Vm.Walk

/-!
# `copyin` and `copyout`, byte for byte

The specification of the two copies, for any range of user addresses and
whatever the table maps there. A range is good up to the first byte whose page
is not a user page, and `goodBytes` counts the bytes before it. `copyout`
stores that many bytes, one after the other, each where the table puts its
address; `copyin` reads that many. Both report success if that is all of the
range.

Nothing is assumed of the table. In particular two addresses of the range may
be one byte of memory, and the stores are therefore in the order of the
addresses.
-/

namespace Xv6.Vm

open Xv6.Lib Xv6.Lib.CInt Function

variable {pt : PageTable} {mem : Nat → Bytes}
variable {va n len m s fuel : Nat} {src : Bytes}

/-- The page of the address is mapped for the user. -/
def UserMapped (pt : PageTable) (va : Nat) : Prop :=
  va < MAXVA ∧ hasFlag (pt.pte va) PTE_V = true ∧ hasFlag (pt.pte va) PTE_U = true

instance (pt : PageTable) (va : Nat) : Decidable (UserMapped pt va) :=
  inferInstanceAs (Decidable (_ ∧ _))

/-- The page of the address is mapped for the user, to a page other than the
first of physical memory. -/
def UserPage (pt : PageTable) (va : Nat) : Prop :=
  UserMapped pt va ∧ pte2pa (pt.pte va) ≠ 0

instance (pt : PageTable) (va : Nat) : Decidable (UserPage pt va) :=
  inferInstanceAs (Decidable (_ ∧ _))

/-- How many bytes of a range come before its first bad page. -/
def goodBytes (pt : PageTable) : Nat → Nat → Nat
  | _, 0 => 0
  | va, len + 1 => if UserPage pt va then goodBytes pt (va + 1) len + 1 else 0

/-- Store a byte where the table puts the address. -/
def putByte (pt : PageTable) (mem : Nat → Bytes) (va : Nat) (b : UInt8) : Nat → Bytes :=
  let pa := pte2pa (pt.pte va)
  Function.update mem pa (Function.update (mem pa) (va % PGSIZE) b)

/-- Store `m` bytes of `src` from the address on, one after the other. -/
def putBytes (pt : PageTable) (mem : Nat → Bytes) (va : Nat) (src : Bytes) (s : Nat) :
    Nat → Nat → Bytes
  | 0 => mem
  | m + 1 => putByte pt (putBytes pt mem va src s m) (va + m) (src (s + m))

/-- The byte where the table puts the address. -/
def getByte (pt : PageTable) (mem : Nat → Bytes) (va : Nat) : UInt8 :=
  mem (pte2pa (pt.pte va)) (va % PGSIZE)

/-- The bytes `dst` with `m` bytes of user memory, from the address on. -/
def getBytes (pt : PageTable) (mem : Nat → Bytes) (dst : Bytes) (d va m : Nat) : Bytes :=
  fun i => if d ≤ i ∧ i < d + m then getByte pt mem (va + (i - d)) else dst i

/-! ## One page -/

theorem div_pgRoundDown (va : Nat) : pgRoundDown va / PGSIZE = va / PGSIZE :=
  Nat.mul_div_cancel _ (by decide)

theorem walkaddr_eq (va : Nat) :
    walkaddr pt va = if UserMapped pt va then pte2pa (pt.pte va) else 0 := by
  unfold walkaddr
  by_cases hva : va < MAXVA
  · rw [if_neg (Nat.not_le.mpr hva)]
    by_cases hv : hasFlag (pt.pte va) PTE_V = true
    · have htable : pt.tableAt va = true := by
        refine PageTable.tableAt_of_pte fun hzero => ?_
        rw [hzero] at hv
        exact absurd hv (by decide)
      by_cases hu : hasFlag (pt.pte va) PTE_U = true
      · rw [if_pos (show UserMapped pt va from ⟨hva, hv, hu⟩)]
        simp [htable, hv, hu]
      · rw [if_neg fun h : UserMapped pt va => hu h.2.2]
        simp [hu]
    · rw [if_neg fun h : UserMapped pt va => hv h.2.1]
      simp [hv]
  · rw [if_pos (Nat.not_lt.mp hva), if_neg fun h : UserMapped pt va => hva h.1]

theorem walkaddr_ne_zero (h : walkaddr pt va ≠ 0) :
    va < MAXVA ∧ Valid (pt.pte va) ∧ hasFlag (pt.pte va) PTE_U = true ∧
      walkaddr pt va = pte2pa (pt.pte va) := by
  rw [walkaddr_eq] at h ⊢
  by_cases hmapped : UserMapped pt va
  · rw [if_pos hmapped]
    exact ⟨hmapped.1, hmapped.2.1, hmapped.2.2, rfl⟩
  · exact absurd (if_neg hmapped) h

theorem walkaddr_pgRoundDown (va : Nat) :
    walkaddr pt (pgRoundDown va) = if UserMapped pt va then pte2pa (pt.pte va) else 0 := by
  have hmax : pgRoundDown va < MAXVA ↔ va < MAXVA := by
    simp only [pgRoundDown, MAXVA, PGSIZE]
    omega
  have hpte : pt.pte (pgRoundDown va) = pt.pte va :=
    PageTable.pte_eq_of_page (div_pgRoundDown va)
  have hmapped : UserMapped pt (pgRoundDown va) ↔ UserMapped pt va := by
    unfold UserMapped
    rw [hmax, hpte]
  rw [walkaddr_eq, hpte]
  exact if_congr hmapped rfl rfl

theorem walkaddr_of_userPage (h : UserPage pt va) :
    walkaddr pt (pgRoundDown va) = pte2pa (pt.pte va) := by
  rw [walkaddr_pgRoundDown, if_pos h.1]

theorem walkaddr_eq_zero_iff : walkaddr pt (pgRoundDown va) = 0 ↔ ¬UserPage pt va := by
  rw [walkaddr_pgRoundDown]
  unfold UserPage
  split
  · rename_i h
    simp [h]
  · rename_i h
    simp [h]

theorem UserPage.of_page {va' : Nat} (h : UserPage pt va)
    (hpage : va' / PGSIZE = va / PGSIZE) : UserPage pt va' := by
  obtain ⟨⟨hmax, hv, hu⟩, hpa⟩ := h
  rw [← PageTable.pte_eq_of_page hpage] at hv hu hpa
  refine ⟨⟨?_, hv, hu⟩, hpa⟩
  simp only [MAXVA, PGSIZE] at hmax hpage ⊢
  omega

/-- The address after a good page does not wrap. -/
theorem UserPage.next (h : UserPage pt va) :
    uint64 ((pgRoundDown va : Int) + (PGSIZE : Nat)) = va + (PGSIZE - va % PGSIZE) := by
  have hmax := h.1.1
  unfold uint64 pgRoundDown
  simp only [MAXVA, PGSIZE] at hmax ⊢
  omega

theorem sub_pgRoundDown (va : Nat) : va - pgRoundDown va = va % PGSIZE := by
  unfold pgRoundDown
  simp only [PGSIZE]
  omega

/-! ## Counting the good bytes -/

theorem goodBytes_le (pt : PageTable) (va len : Nat) : goodBytes pt va len ≤ len := by
  induction len generalizing va with
  | zero => exact Nat.le_refl _
  | succ len ih =>
    rw [goodBytes]
    split
    · exact Nat.succ_le_succ (ih (va + 1))
    · exact Nat.zero_le _

theorem goodBytes_add (h : ∀ j < n, UserPage pt (va + j)) (len : Nat) :
    goodBytes pt va (n + len) = n + goodBytes pt (va + n) len := by
  induction n generalizing va with
  | zero => rw [Nat.zero_add, Nat.zero_add, Nat.add_zero]
  | succ n ih =>
    have hfirst : UserPage pt va := h 0 (by omega)
    have hrest := @ih (va + 1) fun j hj => by
      rw [Nat.add_right_comm]
      exact h (j + 1) (by omega)
    rw [Nat.add_right_comm, goodBytes, if_pos hfirst, hrest, Nat.add_assoc va, Nat.add_comm 1]
    omega

theorem goodBytes_eq_iff : goodBytes pt va len = len ↔ ∀ j < len, UserPage pt (va + j) := by
  induction len generalizing va with
  | zero => simp [goodBytes]
  | succ len ih =>
    rw [goodBytes, Nat.forall_lt_succ_left']
    split
    · rename_i hpage
      rw [Nat.add_right_cancel_iff, ih]
      simp only [hpage, true_and, Nat.add_zero, Nat.add_assoc, Nat.add_comm 1]
    · rename_i hpage
      simp [hpage]

/-- The bytes that are counted are good, and the next one is not. -/
theorem goodBytes_spec (pt : PageTable) (va len : Nat) :
    (∀ j < goodBytes pt va len, UserPage pt (va + j)) ∧
      (goodBytes pt va len < len → ¬UserPage pt (va + goodBytes pt va len)) := by
  induction len generalizing va with
  | zero => exact ⟨nofun, fun h => absurd h (Nat.lt_irrefl _)⟩
  | succ len ih =>
    rw [goodBytes]
    split
    · rename_i hpage
      obtain ⟨hgood, hbad⟩ := ih (va + 1)
      constructor
      · intro j hj
        rcases Nat.eq_zero_or_pos j with rfl | hpos
        · exact hpage
        · have hj' := hgood (j - 1) (by omega)
          rwa [Nat.add_assoc, Nat.add_sub_cancel' hpos] at hj'
      · intro hlt
        have hbad' := hbad (by omega)
        rwa [Nat.add_assoc, Nat.add_comm 1] at hbad'
    · rename_i hpage
      exact ⟨nofun, fun _ => hpage⟩

/-- A range that is cut after its first bad byte is as good as before. -/
theorem goodBytes_of_lt (h : goodBytes pt va m < m) (hm : m ≤ len) :
    goodBytes pt va len = goodBytes pt va m := by
  obtain ⟨hgood, hbad⟩ := goodBytes_spec pt va m
  obtain ⟨rest, rfl⟩ : ∃ rest, len = goodBytes pt va m + (rest + 1) :=
    ⟨len - goodBytes pt va m - 1, by omega⟩
  rw [goodBytes_add hgood, goodBytes, if_neg (hbad h), Nat.add_zero]

/-! ## Bytes of one page at a time -/

theorem putBytes_add (va : Nat) (src : Bytes) (s n m : Nat) :
    putBytes pt mem va src s (n + m) =
      putBytes pt (putBytes pt mem va src s n) (va + n) src (s + n) m := by
  induction m with
  | zero => rfl
  | succ m ih =>
    rw [← Nat.add_assoc, putBytes, putBytes, ih, Nat.add_assoc, Nat.add_assoc]

theorem putBytes_congr {s' : Nat} {src' : Bytes} (h : ∀ i < m, src' (s' + i) = src (s + i)) :
    putBytes pt mem va src' s' m = putBytes pt mem va src s m := by
  induction m with
  | zero => rfl
  | succ m ih =>
    rw [putBytes, putBytes, ih fun i hi => h i (Nat.lt_succ_of_lt hi), h m (Nat.lt_succ_self m)]

theorem page_of_offset (va : Nat) {j : Nat} (h : j < PGSIZE - va % PGSIZE) :
    (va + j) / PGSIZE = va / PGSIZE ∧ (va + j) % PGSIZE = va % PGSIZE + j := by
  simp only [PGSIZE] at h ⊢
  omega

/-- Stores up to the end of the page are one `memmove`. -/
theorem putBytes_page (src : Bytes) (s : Nat) (hn : n ≤ PGSIZE - va % PGSIZE) :
    putBytes pt mem va src s n = update mem (pte2pa (pt.pte va))
        (splice (mem (pte2pa (pt.pte va))) (va % PGSIZE) src s n) := by
  induction n with
  | zero =>
    rw [splice_zero, update_eq_self, putBytes]
  | succ n ih =>
    obtain ⟨hpage, hoff⟩ := page_of_offset va (j := n) (by omega)
    rw [putBytes, ih (by omega), putByte, PageTable.pte_eq_of_page hpage, hoff,
      update_self, update_idem]
    congr 1
    funext i
    rw [update_apply]
    split
    · rename_i hi
      subst hi
      rw [splice_inside (by omega) (by omega), Nat.add_sub_cancel_left]
    · unfold splice
      by_cases hi : va % PGSIZE ≤ i ∧ i < va % PGSIZE + n
      · rw [if_pos hi, if_pos (by omega)]
      · rw [if_neg hi, if_neg (by omega)]

/-- The table puts the address at the byte. -/
def Cell (pt : PageTable) (va pa off : Nat) : Prop :=
  pte2pa (pt.pte va) = pa ∧ va % PGSIZE = off

instance (pt : PageTable) (va pa off : Nat) : Decidable (Cell pt va pa off) :=
  inferInstanceAs (Decidable (_ ∧ _))

theorem putByte_apply (va : Nat) (b : UInt8) (pa off : Nat) :
    putByte pt mem va b pa off = if Cell pt va pa off then b else mem pa off := by
  rw [putByte]
  split
  · rename_i hcell
    obtain ⟨rfl, rfl⟩ := hcell
    rw [update_self, update_self]
  · rename_i hcell
    by_cases hpa : pa = pte2pa (pt.pte va)
    · subst hpa
      rw [update_self, update_of_ne fun h => hcell ⟨rfl, h.symm⟩]
    · rw [update_of_ne hpa]

/-- Stores change only bytes that they store to. -/
theorem putBytes_changed {pa off : Nat} (hne : putBytes pt mem va src s m pa off ≠ mem pa off) :
    ∃ j < m, Cell pt (va + j) pa off := by
  induction m with
  | zero => exact absurd rfl hne
  | succ m ih =>
    rw [putBytes, putByte_apply] at hne
    split at hne
    · rename_i hcell
      exact ⟨m, Nat.lt_succ_self m, hcell⟩
    · obtain ⟨j, hj, hcell⟩ := ih hne
      exact ⟨j, by omega, hcell⟩

/-- A byte that is stored is there afterwards, if no other address of the range stands for it. -/
theorem putBytes_at {j pa off : Nat} (hcell : Cell pt (va + j) pa off)
    (hapart : ∀ i < m, Cell pt (va + i) pa off → i = j) (hj : j < m) :
    putBytes pt mem va src s m pa off = src (s + j) := by
  induction m with
  | zero => exact absurd hj (Nat.not_lt_zero j)
  | succ m ih =>
    rw [putBytes, putByte_apply]
    rcases Nat.lt_succ_iff_lt_or_eq.mp hj with hlt | rfl
    · rw [if_neg fun hlast => Nat.ne_of_gt hlt (hapart m (Nat.lt_succ_self m) hlast)]
      exact ih (fun i hi => hapart i (Nat.lt_succ_of_lt hi)) hlt
    · exact if_pos hcell

theorem getBytes_zero (dst : Bytes) (d va : Nat) : getBytes pt mem dst d va 0 = dst :=
  splice_zero dst d (getByte pt mem) va

/-- Reads up to the end of the page are one `memmove`. -/
theorem getBytes_page (dst : Bytes) (d : Nat) (hn : n ≤ PGSIZE - va % PGSIZE) :
    splice dst d (mem (pte2pa (pt.pte va))) (va % PGSIZE) n = getBytes pt mem dst d va n := by
  funext i
  unfold getBytes
  split
  · rename_i hi
    obtain ⟨hpage, hoff⟩ := page_of_offset va (j := i - d) (by omega)
    rw [splice_inside hi.1 hi.2, getByte, hoff, PageTable.pte_eq_of_page hpage]
  · exact splice_outside (by omega)

theorem getBytes_add (dst : Bytes) (d va n m : Nat) :
    getBytes pt mem (getBytes pt mem dst d va n) (d + n) (va + n) m =
      getBytes pt mem dst d va (n + m) :=
  splice_add dst d (getByte pt mem) va n m

/-! ## The loops -/

/-- What a round does to the range: its first `n` bytes are good, and the rest
starts at the next page. -/
theorem goodBytes_round (hpage : UserPage pt va) :
    goodBytes pt va len = min (PGSIZE - va % PGSIZE) len +
      goodBytes pt (va + min (PGSIZE - va % PGSIZE) len)
        (len - min (PGSIZE - va % PGSIZE) len) := by
  rw [← goodBytes_add fun j hj => ?_, Nat.add_sub_cancel' (Nat.min_le_right _ _)]
  exact hpage.of_page (page_of_offset va (by omega)).1

theorem next_of_left (hpage : UserPage pt va) (hleft : len - min (PGSIZE - va % PGSIZE) len ≠ 0) :
    uint64 ((pgRoundDown va : Int) + (PGSIZE : Nat)) = va + min (PGSIZE - va % PGSIZE) len := by
  rw [hpage.next]
  omega

theorem rounds_after (hfuel : va % PGSIZE + len ≤ (fuel + 1) * PGSIZE) :
    (va + min (PGSIZE - va % PGSIZE) len) % PGSIZE + (len - min (PGSIZE - va % PGSIZE) len) ≤
      fuel * PGSIZE ∨ len - min (PGSIZE - va % PGSIZE) len = 0 := by
  simp only [PGSIZE] at hfuel ⊢
  omega

theorem copyoutPages_exact (hfuel : va % PGSIZE + len ≤ fuel * PGSIZE) :
    copyoutPages pt fuel mem va src s len =
      (putBytes pt mem va src s (goodBytes pt va len), decide (goodBytes pt va len = len)) := by
  induction fuel generalizing mem s va len with
  | zero =>
    obtain rfl : len = 0 := by omega
    rfl
  | succ fuel ih =>
    rw [copyoutPages]
    rcases Nat.eq_zero_or_pos len with rfl | hlen
    · rfl
    rw [if_neg (by omega)]
    simp only [sub_pgRoundDown]
    by_cases hpage : UserPage pt va
    · rw [if_neg fun h => walkaddr_eq_zero_iff.mp h hpage, walkaddr_of_userPage hpage,
        ← putBytes_page src s (Nat.min_le_left _ _), goodBytes_round hpage, putBytes_add]
      have hdone : ∀ g, (min (PGSIZE - va % PGSIZE) len + g = len) ↔
          (g = len - min (PGSIZE - va % PGSIZE) len) := by omega
      simp only [hdone]
      -- The last round leaves nothing to copy, whatever the next address is.
      by_cases hleft : len - min (PGSIZE - va % PGSIZE) len = 0
      · rw [hleft]
        cases fuel <;> rfl
      · rw [next_of_left hpage hleft]
        exact ih ((rounds_after hfuel).resolve_right hleft)
    · rw [if_pos (walkaddr_eq_zero_iff.mpr hpage)]
      have hnone : goodBytes pt va len = 0 := by
        obtain ⟨len, rfl⟩ := Nat.exists_eq_succ_of_ne_zero (by omega : len ≠ 0)
        exact if_neg hpage
      rw [hnone, putBytes, decide_eq_false (by omega)]

theorem copyinPages_exact {dst : Bytes} {d : Nat} (hfuel : va % PGSIZE + len ≤ fuel * PGSIZE) :
    copyinPages pt mem fuel dst d va len =
      (getBytes pt mem dst d va (goodBytes pt va len), decide (goodBytes pt va len = len)) := by
  induction fuel generalizing dst d va len with
  | zero =>
    obtain rfl : len = 0 := by omega
    rw [goodBytes, getBytes_zero]
    rfl
  | succ fuel ih =>
    rw [copyinPages]
    rcases Nat.eq_zero_or_pos len with rfl | hlen
    · rw [goodBytes, getBytes_zero]
      rfl
    rw [if_neg (by omega)]
    simp only [sub_pgRoundDown]
    by_cases hpage : UserPage pt va
    · rw [if_neg fun h => walkaddr_eq_zero_iff.mp h hpage, walkaddr_of_userPage hpage,
        goodBytes_round hpage, getBytes_page dst d (Nat.min_le_left _ _), ← getBytes_add]
      have hdone : ∀ g, (min (PGSIZE - va % PGSIZE) len + g = len) ↔
          (g = len - min (PGSIZE - va % PGSIZE) len) := by omega
      simp only [hdone]
      by_cases hleft : len - min (PGSIZE - va % PGSIZE) len = 0
      · rw [hleft, goodBytes, getBytes_zero]
        cases fuel <;> rfl
      · rw [next_of_left hpage hleft]
        exact ih ((rounds_after hfuel).resolve_right hleft)
    · rw [if_pos (walkaddr_eq_zero_iff.mpr hpage)]
      have hnone : goodBytes pt va len = 0 := by
        obtain ⟨len, rfl⟩ := Nat.exists_eq_succ_of_ne_zero (by omega : len ≠ 0)
        exact if_neg hpage
      rw [hnone, getBytes_zero, decide_eq_false (by omega)]

theorem rounds_enough (va : Nat) (hfuel : len / PGSIZE + 2 ≤ fuel) :
    va % PGSIZE + len ≤ fuel * PGSIZE := by
  simp only [PGSIZE] at hfuel ⊢
  omega

theorem copyout_exact (va : Nat) (src : Bytes) (s len : Nat) :
    copyout pt mem va src s len =
      (putBytes pt mem va src s (goodBytes pt va len), decide (goodBytes pt va len = len)) :=
  copyoutPages_exact (rounds_enough va (Nat.le_refl _))

theorem copyin_exact (dst : Bytes) (d va len : Nat) :
    copyin pt mem dst d va len =
      (getBytes pt mem dst d va (goodBytes pt va len), decide (goodBytes pt va len = len)) :=
  copyinPages_exact (rounds_enough va (Nat.le_refl _))

/-- For any table, memory, 64-bit address and length: a copy succeeds exactly if
all pages of the range are user pages, and it then stores or reads all bytes of
the range in order. Otherwise it stores or reads the bytes before the first bad
page, and changes nothing else. More rounds than the length allows make no
difference: both loops are over by then. -/
theorem copy_moves_range (pt : PageTable) (mem : Nat → Bytes) (va len : UInt64) :
    ∃ m ≤ len.toNat,
      (∀ j, j < m → UserPage pt (va.toNat + j)) ∧
      (m < len.toNat → ¬UserPage pt (va.toNat + m)) ∧
      (m = len.toNat ↔ ∀ j, j < len.toNat → UserPage pt (va.toNat + j)) ∧
      (∀ src s, copyout pt mem va.toNat src s len.toNat =
        (putBytes pt mem va.toNat src s m, decide (m = len.toNat))) ∧
      (∀ dst d, copyin pt mem dst d va.toNat len.toNat =
        (getBytes pt mem dst d va.toNat m, decide (m = len.toNat))) ∧
      ∀ rounds, len.toNat / PGSIZE + 2 ≤ rounds →
        (∀ src s, copyoutPages pt rounds mem va.toNat src s len.toNat =
          copyout pt mem va.toNat src s len.toNat) ∧
        ∀ dst d, copyinPages pt mem rounds dst d va.toNat len.toNat =
          copyin pt mem dst d va.toNat len.toNat := by
  obtain ⟨hgood, hbad⟩ := goodBytes_spec pt va.toNat len.toNat
  refine ⟨goodBytes pt va.toNat len.toNat, goodBytes_le _ _ _, hgood, hbad, goodBytes_eq_iff,
    fun src s => copyout_exact _ src s _, fun dst d => copyin_exact dst d _ _,
    fun rounds hrounds => ⟨fun src s => ?_, fun dst d => ?_⟩⟩
  · rw [copyoutPages_exact (rounds_enough _ hrounds), copyout_exact]
  · rw [copyinPages_exact (rounds_enough _ hrounds), copyin_exact]

/-- A table that maps the first page to the first page of physical memory. -/
def zeroTable : PageTable :=
  ⟨0x80000000, fun _ => some ⟨0x80001000, fun _ => some ⟨0x80002000, fun _ => PTE_V ||| PTE_U⟩⟩⟩

/-- A page at physical address zero is taken for none. -/
theorem copy_misses_page_zero :
    (∀ j, j < 1 → UserMapped zeroTable (0 + j)) ∧
      (copyout zeroTable (fun _ _ => 0) 0 (fun _ => 1) 0 1).2 = false ∧
      (copyin zeroTable (fun _ _ => 0) (fun _ => 1) 0 0 1).2 = false := by
  decide +kernel

end Xv6.Vm
