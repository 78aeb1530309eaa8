import Xv6.Pipe.Fifo
import Xv6.Vm.Copy

/-!
# What `piperead` delivers

The loop of `piperead` with the bytes it moves: it counts a byte as read, then
copies it to the reader, and stops if the copy fails. The byte of a failed
copy is thus counted and lost.

While the reader waits it gives up `pi->lock`, and the pipe may change in every
way. `Look` is what it finds each time it has the lock again; from the last
look to the return the lock is held.
-/

namespace Xv6.Pipe

open Xv6.Lib Xv6.Lib.CInt Xv6.Vm

/-- What a reader finds when it has taken `pi->lock`. -/
structure Look where
  ring : Ring
  writeopen : Bool
  killed : Bool
  mem : Nat → Bytes

/-- The loop of `piperead` that takes bytes, with `i` of them copied and at most
`left` to go. -/
def pipereadCopy (pt : PageTable) (addr : Nat) :
    Nat → Nat → Ring → (Nat → Bytes) → Nat × Ring × (Nat → Bytes)
  | 0, i, ring, mem => (i, ring, mem)
  | left + 1, i, ring, mem =>
    if ring.empty then (i, ring, mem)
    else
      let ch := ring.data (ring.nread % PIPESIZE)
      match copyout pt mem (uint64 (addr + i)) (fun _ => ch) 0 1 with
      | (mem, false) => (i, ring.take, mem)
      | (mem, true) => pipereadCopy pt addr left (i + 1) ring.take mem

/-- The loop of `piperead` that waits: the look that ends it, and whether the
reader goes on or was killed. It sleeps on if there is no further look. -/
def pipereadWait : List Look → Option (Look × Bool)
  | [] => none
  | l :: looks =>
    if l.ring.empty && l.writeopen then
      if l.killed then some (l, false) else pipereadWait looks
    else some (l, true)

/-- `piperead`: its result, the pipe and the memory. -/
def piperead (pt : PageTable) (addr : Nat) (n : Int) (looks : List Look) :
    Option (Int × Ring × (Nat → Bytes)) :=
  match pipereadWait looks with
  | none => none
  | some (l, false) => some (-1, l.ring, l.mem)
  | some (l, true) =>
    match pipereadCopy pt addr n.toNat 0 l.ring l.mem with
    | (i, ring, mem) => some (i, ring, mem)

/-! ## The ring -/

/-- The counters are 32-bit words. -/
def Ring.Words (r : Ring) : Prop := r.nread < 2 ^ 32 ∧ r.nwrite < 2 ^ 32

variable {r : Ring}

theorem Ring.Words.take (h : r.Words) : r.take.Words := by
  refine ⟨?_, h.2⟩
  simp only [Ring.take]
  unfold uint32
  omega

/-- The loop takes the oldest byte. -/
theorem Ring.content_take (h : r.Words) (hempty : ¬r.empty = true) :
    r.content = r.data (r.nread % PIPESIZE) :: r.take.content := by
  have hused : r.used = r.take.used + 1 := by
    obtain ⟨hread, hwrite⟩ := h
    rw [Ring.empty, decide_eq_true_iff] at hempty
    simp only [Ring.used, Ring.take]
    unfold uint32
    omega
  rw [Ring.content, hused, List.range_succ_eq_map, List.map_cons, List.map_map, Ring.content]
  congr 1
  apply List.map_congr_left
  intro k _
  have hslot : ((uint32 (r.nread + 1) : Nat) + k) % PIPESIZE = (r.nread + (k + 1)) % PIPESIZE := by
    unfold uint32
    simp only [PIPESIZE]
    omega
  simp only [Function.comp_apply, Ring.take, Nat.succ_eq_add_one, hslot]

theorem Ring.content_nil (h : r.empty = true) : r.content = [] := by
  rw [Ring.empty, decide_eq_true_iff] at h
  have hused : r.used = 0 := by
    unfold Ring.used uint32
    omega
  rw [Ring.content, hused]
  rfl

/-! ## The loop -/

variable {pt : PageTable} {mem mem₀ : Nat → Bytes} {addr i left : Nat} {n : Int}

theorem copyout_one (ch : UInt8) (hword : addr + i < 2 ^ 64) :
    copyout pt mem (uint64 (addr + i)) (fun _ => ch) 0 1 =
      if UserPage pt (addr + i) then (putByte pt mem (addr + i) ch, true) else (mem, false) := by
  have haddr : uint64 ((addr : Int) + i) = addr + i := by
    unfold uint64
    omega
  rw [haddr, copyout_exact, goodBytes]
  split <;> rfl

/-- A range of good pages ends before the addresses wrap. -/
theorem word_next (h : UserPage pt (addr + i)) : addr + (i + 1) < 2 ^ 64 := by
  have hmax := h.1.1
  simp only [MAXVA] at hmax
  omega

/-- Where every byte has a page, the loop stores a front part of the pipe and
leaves the rest. -/
theorem pipereadCopy_good {l : List UInt8} (hr : r.Words) (hword : addr + i < 2 ^ 64)
    (hi : i ≤ l.length) (hcontent : r.content = l.drop i)
    (hgood : ∀ j, i ≤ j → j < i + left → j < l.length → UserPage pt (addr + j)) :
    ∃ k r', k ≤ i + left ∧ k ≤ l.length ∧ r'.content = l.drop k ∧
      pipereadCopy pt addr left i r (putBytes pt mem₀ addr (l.getD · 0) 0 i) =
        (k, r', putBytes pt mem₀ addr (l.getD · 0) 0 k) := by
  induction left generalizing i r with
  | zero => exact ⟨i, r, Nat.le_refl i, hi, hcontent, rfl⟩
  | succ left ih =>
    rw [pipereadCopy]
    split
    · exact ⟨i, r, Nat.le_add_right i _, hi, hcontent, rfl⟩
    · rename_i hempty
      have htake := Ring.content_take hr hempty
      rw [hcontent] at htake
      have hlt : i < l.length := by
        by_contra hge
        rw [List.drop_eq_nil_of_le (Nat.le_of_not_lt hge)] at htake
        cases htake
      rw [List.drop_eq_getElem_cons hlt, List.cons.injEq] at htake
      have hpage := hgood i (Nat.le_refl i) (by omega) hlt
      have hbyte : putByte pt (putBytes pt mem₀ addr (l.getD · 0) 0 i) (addr + i)
          (r.data (r.nread % PIPESIZE)) = putBytes pt mem₀ addr (l.getD · 0) 0 (i + 1) := by
        rw [putBytes, Nat.zero_add, List.getD_eq_getElem _ _ hlt, htake.1]
      simp only [copyout_one _ hword, if_pos hpage, hbyte]
      rw [show i + (left + 1) = i + 1 + left by omega] at hgood ⊢
      exact ih hr.take (word_next hpage) hlt htake.2.symm fun j hj => hgood j (by omega)

/-- Where a byte has none, the loop takes one byte more than it counts. -/
theorem pipereadCopy_bad (hr : r.Words) (hword : addr + i < 2 ^ 64)
    (hbad : ∃ j < left, j < r.content.length ∧ ¬UserPage pt (addr + i + j)) :
    (pipereadCopy pt addr left i r mem).1 +
      (pipereadCopy pt addr left i r mem).2.1.content.length + 1 = i + r.content.length := by
  induction left generalizing i r mem with
  | zero =>
    obtain ⟨j, hj, -⟩ := hbad
    exact absurd hj (Nat.not_lt_zero j)
  | succ left ih =>
    obtain ⟨j, hj, hlen, hpage⟩ := hbad
    have hempty : ¬r.empty = true := by
      intro h
      rw [Ring.content_nil h] at hlen
      exact absurd hlen (Nat.not_lt_zero j)
    have htake := Ring.content_take hr hempty
    rw [pipereadCopy, if_neg hempty]
    simp only [copyout_one _ hword]
    rw [htake, List.length_cons] at hlen ⊢
    by_cases hfirst : UserPage pt (addr + i)
    · simp only [if_pos hfirst]
      have hj0 : j ≠ 0 := by
        rintro rfl
        exact hpage hfirst
      rw [ih hr.take (word_next hfirst) ⟨j - 1, by omega, by omega, by
        rwa [show addr + (i + 1) + (j - 1) = addr + i + j by omega]⟩]
      omega
    · simp only [if_neg hfirst]
      omega

/-! ## The whole call -/

theorem pipereadWait_mem {looks : List Look} {l : Look} {go : Bool}
    (h : pipereadWait looks = some (l, go)) : l ∈ looks := by
  induction looks with
  | nil => cases h
  | cons l' looks ih =>
    rw [pipereadWait] at h
    split_ifs at h
    · cases h
      exact List.mem_cons_self
    · exact List.mem_cons_of_mem _ (ih h)
    · cases h
      exact List.mem_cons_self

/-- The `r` bytes that are gone from the ring are stored, in order, at the
addresses from `addr` on. -/
def Accounts (pt : PageTable) (addr : Nat) (before : Look) (r : Int) (ring : Ring)
    (mem : Nat → Bytes) : Prop :=
  ∃ got : List UInt8, (got.length : Int) = r ∧ before.ring.content = got ++ ring.content ∧
    (∀ j, j < got.length → UserPage pt (addr + j)) ∧
    mem = putBytes pt before.mem addr (got.getD · 0) 0 got.length

/-- For any page table, address and count, and whatever the pipe goes through
while the reader waits: `piperead` accounts for every byte exactly if each of the
first `n` bytes that it finds has a user page to go to. -/
theorem piperead_accounts_iff (pt : PageTable) (addr : UInt64) (n : Int) (looks : List Look)
    (hwords : ∀ l ∈ looks, l.ring.Words) :
    (∀ r ring mem, piperead pt addr.toNat n looks = some (r, ring, mem) → 0 ≤ r →
      ∃ l, pipereadWait looks = some (l, true) ∧ Accounts pt addr.toNat l r ring mem) ↔
    ∀ l, pipereadWait looks = some (l, true) →
      ∀ j, j < n.toNat → j < l.ring.content.length → UserPage pt (addr.toNat + j) := by
  have haddr := addr.toNat_lt
  constructor
  · intro h l hl j hj hlen
    by_contra hpage
    have hbad := @pipereadCopy_bad _ pt l.mem addr.toNat 0 n.toNat
      (hwords l (pipereadWait_mem hl)) haddr ⟨j, hj, hlen, hpage⟩
    rcases hcopy : pipereadCopy pt addr.toNat n.toNat 0 l.ring l.mem with ⟨i, ring, mem⟩
    have hread : piperead pt addr.toNat n looks = some ((i : Int), ring, mem) := by
      simp only [piperead, hl, hcopy]
    obtain ⟨l', hl', got, hgot, hcontent, -⟩ := h _ _ _ hread (Int.natCast_nonneg i)
    cases hl.symm.trans hl'
    have hlength := congrArg List.length hcontent
    rw [List.length_append] at hlength
    rw [hcopy] at hbad
    simp only at hbad
    omega
  · intro h r ring mem hread hr
    rw [piperead] at hread
    split at hread
    · cases hread
    · cases hread
      cases hr
    · rename_i l hl
      have hgood := h l hl
      obtain ⟨k, ring', hkn, hk, hcontent, hcopy⟩ := @pipereadCopy_good _ pt l.mem
        addr.toNat 0 n.toNat l.ring.content (hwords l (pipereadWait_mem hl)) haddr (Nat.zero_le _) rfl
        fun j _ hj hlen => hgood j (by omega) hlen
      rw [putBytes] at hcopy
      simp only [hcopy] at hread
      cases hread
      have hlen : (l.ring.content.take k).length = k := List.length_take_of_le hk
      refine ⟨l, hl, l.ring.content.take k, by rw [hlen], ?_, fun j hj => ?_, ?_⟩
      · rw [hcontent, List.take_append_drop]
      · rw [hlen] at hj
        exact hgood j (by omega) (by omega)
      · rw [hlen]
        refine putBytes_congr fun j hj => ?_
        rw [Nat.zero_add, List.getD_eq_getElem?_getD, List.getD_eq_getElem?_getD,
          List.getElem?_take_of_lt hj]

/-- A table that maps every page to one page. -/
def onePage : PageTable :=
  ⟨0x80000000, fun _ => some ⟨0x80001000, fun _ => some ⟨0x80002000,
    fun _ => pa2pte 0x80003000 ||| PTE_V ||| PTE_U⟩⟩⟩

/-- A pipe with one byte in it. -/
def oneByte : Look where
  ring := { data := fun _ => 7, nread := 0, nwrite := 1, put := [7], taken := [] }
  writeopen := true
  killed := false
  mem := fun _ _ => 0

/-- A reader without a page gets nothing, and the byte is gone. -/
theorem piperead_loses_byte :
    ∃ ring mem, oneByte.ring.content = [7] ∧
      piperead ⟨0x80000000, fun _ => none⟩ 0 1 [oneByte] = some (0, ring, mem) ∧
      ring.content = [] := by
  have hrun : (match piperead ⟨0x80000000, fun _ => none⟩ 0 1 [oneByte] with
      | some (r, ring, _) => decide (r = 0 ∧ ring.content = [])
      | none => false) = true := by
    decide +kernel
  split at hrun
  · rename_i r ring mem hread
    rw [decide_eq_true_iff] at hrun
    obtain ⟨rfl, hnil⟩ := hrun
    exact ⟨ring, mem, by decide +kernel, hread, hnil⟩
  · cases hrun

/-- With the first page of user memory at hand the byte arrives. -/
theorem piperead_accounts_iff_oneByte :
    ∃ l, pipereadWait [oneByte] = some (l, true) ∧
      ∀ r ring mem, piperead onePage 0 1 [oneByte] = some (r, ring, mem) → 0 ≤ r →
        ∃ l, pipereadWait [oneByte] = some (l, true) ∧ Accounts onePage 0 l r ring mem := by
  refine ⟨oneByte, rfl, (piperead_accounts_iff onePage 0 1 [oneByte] ?_).mpr ?_⟩
  · intro l hl
    rw [List.mem_singleton.mp hl]
    exact ⟨by decide, by decide⟩
  · intro l hl j hj _
    obtain rfl : j = 0 := by simpa using hj
    decide +kernel

end Xv6.Pipe
