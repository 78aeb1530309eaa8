import Xv6.Vm.CopyExact

/-!
# `copyinstr`

A string is copied from user memory up to its NUL. Two loops share the count
of bytes that are left: the outer one looks up a page, the inner one goes
through its bytes, and either the NUL, a page that is not mapped or the end of
the buffer ends them.

`strScan` says what the loops come to, byte by byte and without pages: how many
bytes come before the NUL, or before the place where the search ends without
one. Here a page is good if it is a user page other than the first of physical
memory, which `walkaddr` cannot report.

The pages that are looked up are a ghost result.
-/

namespace Xv6.Vm

open Xv6.Lib Xv6.Lib.CInt Function

/-! ## The function -/

/-- The inner loop over the `n` bytes of a page from `p` on: the buffer, the
next place in it, the bytes left and whether there was a NUL. -/
def copyinstrPage (page : Bytes) : Nat → Bytes → Nat → Nat → Nat → Bytes × Nat × Nat × Bool
  | 0, dst, d, _, max => (dst, d, max, false)
  | n + 1, dst, d, p, max =>
    if page p = 0 then (Function.update dst d 0, d, max, true)
    else copyinstrPage page n (Function.update dst d (page p)) (d + 1) (p + 1) (max - 1)

/-- The outer loop, at most `fuel` rounds: the buffer, the result and the pages
that were looked up, the last one first. -/
def copyinstrPages (pt : PageTable) (mem : Nat → Bytes) :
    Nat → Bytes → Nat → Nat → Nat → List Nat → Bytes × Int × List Nat
  | 0, dst, _, _, _, seen => (dst, -1, seen)
  | fuel + 1, dst, d, srcva, max, seen =>
    if max = 0 then (dst, -1, seen)
    else
      let va0 := pgRoundDown srcva
      let pa0 := walkaddr pt va0
      if pa0 = 0 then (dst, -1, va0 :: seen)
      else
        match copyinstrPage (mem pa0) (min (PGSIZE - (srcva - va0)) max) dst d (srcva - va0) max with
        | (dst, _, _, true) => (dst, 0, va0 :: seen)
        | (dst, d, max, false) =>
          copyinstrPages pt mem fuel dst d (uint64 (va0 + PGSIZE)) max (va0 :: seen)

/-- Copy a NUL-terminated string of at most `max` bytes from user to kernel. -/
def copyinstr (pt : PageTable) (mem : Nat → Bytes) (dst : Bytes) (d srcva max : Nat) :
    Bytes × Int × List Nat :=
  copyinstrPages pt mem (max / PGSIZE + 2) dst d srcva max []

/-! ## The bytes of the string -/

variable {pt : PageTable} {mem : Nat → Bytes}

/-- How many bytes come before the end of the search among `len` bytes, and
whether it ends at a NUL. -/
def strScan (pt : PageTable) (mem : Nat → Bytes) : Nat → Nat → Nat × Bool
  | _, 0 => (0, false)
  | va, len + 1 =>
    if UserPage pt va then
      if getByte pt mem va = 0 then (0, true)
      else
        let rest := strScan pt mem (va + 1) len
        (rest.1 + 1, rest.2)
    else (0, false)

/-- The string ends `k` bytes after the address, on good pages. -/
structure StrEnds (pt : PageTable) (mem : Nat → Bytes) (va k : Nat) : Prop where
  nul : getByte pt mem (va + k) = 0
  before : ∀ j, j < k → getByte pt mem (va + j) ≠ 0
  pages : ∀ j, j ≤ k → UserPage pt (va + j)

theorem strEnds_zero {va : Nat} : StrEnds pt mem va 0 ↔ UserPage pt va ∧ getByte pt mem va = 0 := by
  refine ⟨fun h => ⟨h.pages 0 (Nat.le_refl 0), h.nul⟩, fun h => ⟨h.2, nofun, fun j hj => ?_⟩⟩
  rw [Nat.le_zero.mp hj]
  exact h.1

theorem strEnds_succ {va k : Nat} :
    StrEnds pt mem va (k + 1) ↔ UserPage pt va ∧ getByte pt mem va ≠ 0 ∧
      StrEnds pt mem (va + 1) k := by
  have hshift : ∀ j, va + (j + 1) = va + 1 + j := fun j => by omega
  constructor
  · rintro ⟨hnul, hbefore, hpages⟩
    refine ⟨hpages 0 (Nat.zero_le _), hbefore 0 (Nat.zero_lt_succ k), hshift k ▸ hnul,
      fun j hj => ?_, fun j hj => ?_⟩
    · exact hshift j ▸ hbefore (j + 1) (by omega)
    · exact hshift j ▸ hpages (j + 1) (by omega)
  · rintro ⟨hpage, hbyte, hnul, hbefore, hpages⟩
    refine ⟨hshift k ▸ hnul, fun j hj => ?_, fun j hj => ?_⟩
    · cases j with
      | zero => exact hbyte
      | succ j => exact hshift j ▸ hbefore j (by omega)
    · cases j with
      | zero => exact hpage
      | succ j => exact hshift j ▸ hpages j (by omega)

theorem strScan_le (va len : Nat) :
    (strScan pt mem va len).1 + (strScan pt mem va len).2.toNat ≤ len := by
  induction len generalizing va with
  | zero => exact Nat.le_refl 0
  | succ len ih =>
    have hrest := ih (va + 1)
    rw [strScan]
    split
    · split
      · exact Nat.succ_le_succ (Nat.zero_le len)
      · dsimp only
        omega
    · exact Nat.zero_le _

/-- The search finds the end of the string. -/
theorem strScan_iff {va len k : Nat} :
    strScan pt mem va len = (k, true) ↔ k < len ∧ StrEnds pt mem va k := by
  induction len generalizing va k with
  | zero => simp [strScan]
  | succ len ih =>
    rw [strScan]
    by_cases hpage : UserPage pt va
    · rw [if_pos hpage]
      by_cases hbyte : getByte pt mem va = 0
      · rw [if_pos hbyte]
        cases k with
        | zero => simp [strEnds_zero, hpage, hbyte]
        | succ k => simp [strEnds_succ, hbyte]
      · rw [if_neg hbyte]
        cases k with
        | zero => simp [strEnds_zero, hbyte]
        | succ k =>
          rw [strEnds_succ, Nat.add_lt_add_iff_right, Prod.mk.injEq, Nat.add_right_cancel_iff,
            ← Prod.mk.injEq, Prod.eta, ih]
          simp only [hpage, hbyte, ne_eq, not_false_eq_true, true_and]
    · rw [if_neg hpage]
      refine iff_of_false (by simp) fun h => hpage ?_
      exact h.2.pages 0 (Nat.zero_le k)

theorem strScan_found {va n : Nat} (h : (strScan pt mem va n).2 = true) (len : Nat) :
    strScan pt mem va (n + len) = strScan pt mem va n := by
  have hfound : strScan pt mem va n = ((strScan pt mem va n).1, true) := by
    rw [← h]
  obtain ⟨hlt, hends⟩ := strScan_iff.mp hfound
  rw [hfound]
  exact strScan_iff.mpr ⟨by omega, hends⟩

/-- A search through good bytes without a NUL goes on after them. -/
theorem strScan_add {va n : Nat} (hgood : ∀ j < n, UserPage pt (va + j))
    (h : (strScan pt mem va n).2 = false) (len : Nat) :
    (strScan pt mem va n).1 = n ∧ strScan pt mem va (n + len) =
      (n + (strScan pt mem (va + n) len).1, (strScan pt mem (va + n) len).2) := by
  induction n generalizing va with
  | zero => simp [strScan]
  | succ n ih =>
    have hpage : UserPage pt va := hgood 0 (Nat.zero_lt_succ n)
    rw [Nat.add_right_comm]
    simp only [strScan, if_pos hpage] at h ⊢
    split at h
    · cases h
    · rename_i hbyte
      rw [if_neg hbyte, if_neg hbyte]
      obtain ⟨hall, hrest⟩ := @ih (va + 1) (fun j hj => by
        rw [Nat.add_assoc, Nat.add_comm 1]
        exact hgood (j + 1) (by omega)) h
      rw [hrest, hall, Nat.add_assoc va, Nat.add_comm 1 n]
      exact ⟨rfl, congrArg (·, _) (by omega)⟩

/-! ## The loops -/

theorem getBytes_succ (dst : Bytes) (d va m : Nat) :
    getBytes pt mem (update dst d (getByte pt mem va)) (d + 1) (va + 1) m =
      getBytes pt mem dst d va (m + 1) := by
  have hone : update dst d (getByte pt mem va) =
      getBytes pt mem dst d va 1 := by
    funext i
    rw [update_apply]
    unfold getBytes
    by_cases hi : i = d
    · rw [if_pos hi, if_pos (by omega), hi, Nat.sub_self, Nat.add_zero]
    · rw [if_neg hi, if_neg (by omega)]
  rw [hone, getBytes_add, Nat.add_comm]

/-- The inner loop, `j` bytes after the address at which it entered the page. -/
theorem copyinstrPage_exact {va j n : Nat} (hpage : UserPage pt va)
    (hn : j + n ≤ PGSIZE - va % PGSIZE) (dst : Bytes) (d max : Nat) :
    copyinstrPage (mem (pte2pa (pt.pte va))) n dst d (va % PGSIZE + j) max =
      let scan := strScan pt mem (va + j) n
      (getBytes pt mem dst d (va + j) (scan.1 + scan.2.toNat), d + scan.1, max - scan.1,
        scan.2) := by
  induction n generalizing j dst d max with
  | zero => simp [copyinstrPage, strScan, getBytes_zero]
  | succ n ih =>
    obtain ⟨hsame, hoff⟩ := page_of_offset va (j := j) (by omega)
    have hbyte : mem (pte2pa (pt.pte va)) (va % PGSIZE + j) =
        getByte pt mem (va + j) := by
      rw [getByte, hoff, PageTable.pte_eq_of_page hsame]
    have hstart := @getBytes_succ pt mem dst d (va + j)
    rw [copyinstrPage, hbyte]
    simp only [strScan, if_pos (hpage.of_page hsame)]
    split
    · rename_i hnul
      have hone := hstart 0
      rw [hnul, getBytes_zero] at hone
      rw [hone]
      rfl
    · refine (ih (j := j + 1) (by omega) _ _ _).trans ?_
      dsimp only
      rw [← Nat.add_assoc va, hstart, Nat.add_right_comm _ _ 1, Nat.sub_sub, Nat.add_comm 1,
        Nat.add_assoc d, Nat.add_comm 1]

theorem copyinstrPages_exact {fuel va max : Nat} (hfuel : va % PGSIZE + max ≤ fuel * PGSIZE)
    (dst : Bytes) (d : Nat) (seen : List Nat) :
    let scan := strScan pt mem va max
    ∃ seen', copyinstrPages pt mem fuel dst d va max seen =
        (getBytes pt mem dst d va (scan.1 + scan.2.toNat),
          if scan.2 then (0 : Int) else -1, seen') ∧
      ∀ x ∈ seen', x ∈ seen ∨ x ≤ va + scan.1 := by
  induction fuel generalizing va max dst d seen with
  | zero =>
    obtain rfl : max = 0 := by omega
    exact ⟨seen, by rw [copyinstrPages, strScan]; simp [getBytes_zero], fun x hx => .inl hx⟩
  | succ fuel ih =>
    rw [copyinstrPages]
    rcases Nat.eq_zero_or_pos max with rfl | hmax
    · exact ⟨seen, by simp [strScan, getBytes_zero], fun x hx => .inl hx⟩
    rw [if_neg (by omega)]
    simp only [sub_pgRoundDown]
    have hseen : ∀ (k x : Nat), x ∈ pgRoundDown va :: seen → x ∈ seen ∨ x ≤ va + k := by
      intro k x hx
      rcases List.mem_cons.mp hx with rfl | hx
      · exact .inr (Nat.le_trans (Nat.div_mul_le_self va PGSIZE) (Nat.le_add_right va k))
      · exact .inl hx
    by_cases hpage : UserPage pt va
    swap
    · rw [if_pos (walkaddr_eq_zero_iff.mpr hpage)]
      obtain ⟨max, rfl⟩ := Nat.exists_eq_succ_of_ne_zero (by omega : max ≠ 0)
      refine ⟨_, ?_, hseen _⟩
      simp [strScan, hpage, getBytes_zero]
    rw [if_neg fun h => walkaddr_eq_zero_iff.mp h hpage, walkaddr_of_userPage hpage]
    obtain ⟨n, hn⟩ : ∃ n, n = min (PGSIZE - va % PGSIZE) max := ⟨_, rfl⟩
    have hinner := @copyinstrPage_exact pt mem va 0 n hpage (by omega) dst d max
    simp only [Nat.add_zero] at hinner
    rw [← hn, hinner]
    have hgood : ∀ j < n, UserPage pt (va + j) := fun j hj =>
      hpage.of_page (page_of_offset va (by omega)).1
    obtain ⟨rest, rfl⟩ : ∃ rest, max = n + rest := ⟨max - n, by omega⟩
    cases hnul : (strScan pt mem va n).2 with
    | true =>
      rw [strScan_found hnul]
      exact ⟨_, by simp [hnul], hseen _⟩
    | false =>
      obtain ⟨hall, hadd⟩ := strScan_add hgood hnul rest
      simp only [hadd, hall, Bool.toNat_false, Nat.add_zero, Nat.add_sub_cancel_left]
      -- Without bytes left the next address does not matter.
      rcases Nat.eq_zero_or_pos rest with rfl | hrest
      · refine ⟨pgRoundDown va :: seen, ?_, hseen _⟩
        cases fuel <;> simp [copyinstrPages, strScan]
      · have hnext := @next_of_left pt va (n + rest) hpage (by omega)
        rw [← hn] at hnext
        rw [hnext]
        have hleft := (rounds_after hfuel).resolve_right (by omega)
        rw [← hn, Nat.add_sub_cancel_left] at hleft
        obtain ⟨seen', heq, hsub⟩ := ih hleft (getBytes pt mem dst d va n) (d + n)
          (pgRoundDown va :: seen)
        refine ⟨seen', ?_, fun x hx => ?_⟩
        · rw [heq, getBytes_add, Nat.add_assoc]
        · rcases hsub x hx with hx | hx
          · exact hseen _ x hx
          · exact .inr (by omega)

/-- For every table, memory, address and length: `copyinstr` returns 0 exactly
if the string ends within `max` bytes on good pages, it then stores these bytes
with the NUL and has looked up no page after it, and otherwise it returns -1.
It never stores more than `max` bytes, and more rounds make no difference. -/
theorem copyinstr_copies_string (pt : PageTable) (mem : Nat → Bytes) (dst : Bytes) (d : Nat)
    (srcva max : UInt64) :
    ∃ m ≤ max.toNat, ∃ r seen, copyinstr pt mem dst d srcva.toNat max.toNat =
        (getBytes pt mem dst d srcva.toNat m, r, seen) ∧
      (r = 0 ↔ ∃ k < max.toNat, StrEnds pt mem srcva.toNat k) ∧ (r ≠ 0 → r = -1) ∧
      (∀ k < max.toNat, StrEnds pt mem srcva.toNat k →
        m = k + 1 ∧ ∀ x ∈ seen, x ≤ srcva.toNat + k) ∧
      ∀ rounds, max.toNat / PGSIZE + 2 ≤ rounds →
        (copyinstrPages pt mem rounds dst d srcva.toNat max.toNat []).1 =
            getBytes pt mem dst d srcva.toNat m ∧
          (copyinstrPages pt mem rounds dst d srcva.toNat max.toNat []).2.1 = r := by
  generalize srcva.toNat = va
  generalize max.toNat = max
  obtain ⟨seen, heq, hseen⟩ := @copyinstrPages_exact pt mem _ va max
    (rounds_enough va (Nat.le_refl _)) dst d []
  refine ⟨_, strScan_le va max, _, seen, heq, ?_, ?_, fun k hk hends => ?_, fun rounds hrounds => ?_⟩
  · constructor
    · intro hr
      refine ⟨(strScan pt mem va max).1, strScan_iff.mp ?_⟩
      split at hr
      · rename_i hfound
        rw [← hfound]
      · cases hr
    · rintro ⟨k, hends⟩
      rw [strScan_iff.mpr hends]
      rfl
  · intro hr
    split at hr
    · exact absurd rfl hr
    · rename_i hfound
      exact if_neg hfound
  · rw [strScan_iff.mpr ⟨hk, hends⟩] at hseen ⊢
    exact ⟨rfl, fun x hx => (hseen x hx).resolve_left List.not_mem_nil⟩
  · obtain ⟨seen', heq', -⟩ := @copyinstrPages_exact pt mem _ va max
      (rounds_enough va hrounds) dst d []
    rw [heq']
    exact ⟨rfl, rfl⟩

/-- An empty string on a page at physical address zero is not found. -/
theorem copyinstr_misses_page_zero :
    UserMapped zeroTable 0 ∧ getByte zeroTable (fun _ _ => 0) 0 = 0 ∧
      (copyinstr zeroTable (fun _ _ => 0) (fun _ => 1) 0 0 1).2.1 = -1 := by
  decide +kernel

end Xv6.Vm
