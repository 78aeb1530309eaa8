import Xv6.Vm.Copy
import Xv6.File.Model

/-!
# What `readi` and `writei` move

Both loops cut their range at block boundaries, with one `either_copyout` or
`either_copyin` a block. For a buffer that is mapped, the rounds come to one
copy of the whole range: `writei` puts the bytes of the buffer at the offset
and reports all of them written, and `readi` delivers the bytes of the file
from the offset on and touches no other memory.
-/

namespace Xv6.Sys

open Xv6.Lib Xv6.Lib.CInt Xv6.Vm

variable {pt : PageTable} {mem mem' mem'' : Nat → Bytes} {data : Bytes}
  {addr off n m tot fuel : Nat}
variable {ip : DInode} {buf : Bytes}

/-- `n` distinct bytes of user memory from `addr` on. -/
structure UserBuffer (pt : PageTable) (addr n : Nat) : Prop where
  mapped : ∀ j, j < n → UserAddr pt (uint64 ((addr : Int) + j))
  apart : ∀ j k, j < n → k < n → userCell pt (uint64 ((addr : Int) + j)) =
    userCell pt (uint64 ((addr : Int) + k)) → j = k

instance (pt : PageTable) (addr n : Nat) : Decidable (UserBuffer pt addr n) :=
  decidable_of_iff
    ((∀ j, j < n → UserAddr pt (uint64 ((addr : Int) + j))) ∧
      ∀ j, j < n → ∀ k, k < n → userCell pt (uint64 ((addr : Int) + j)) =
        userCell pt (uint64 ((addr : Int) + k)) → j = k)
    ⟨fun h => ⟨h.1, fun j k hj hk => h.2 j hj k hk⟩,
      fun h => ⟨h.mapped, fun j hj k hk => h.apart j k hj hk⟩⟩

/-- The `n` bytes of user memory from `addr` on. -/
def userBytes (pt : PageTable) (mem : Nat → Bytes) (addr n : Nat) : List UInt8 :=
  (List.range n).map fun j : Nat => userByte pt mem (uint64 ((addr : Int) + j))

theorem UserBuffer.take (h : UserBuffer pt addr n) (hm : m ≤ n) : UserBuffer pt addr m where
  mapped j hj := h.mapped j (Nat.lt_of_lt_of_le hj hm)
  apart j k hj hk := h.apart j k (Nat.lt_of_lt_of_le hj hm) (Nat.lt_of_lt_of_le hk hm)

theorem blocks_left (hfuel : tot < n → off % BSIZE + (n - tot) ≤ (fuel + 1) * BSIZE)
    (hmore : tot < n) (hm : m = min (n - tot) (BSIZE - off % BSIZE)) :
    tot + m < n → (off + m) % BSIZE + (n - (tot + m)) ≤ fuel * BSIZE := by
  have hall := hfuel hmore
  intro hleft
  have hblock : m = BSIZE - off % BSIZE := by omega
  simp only [BSIZE] at hall hblock ⊢
  omega

theorem blocks_cover (off n : Nat) : 0 < n → off % BSIZE + (n - 0) ≤ (n / BSIZE + 2) * BSIZE := by
  simp only [BSIZE]
  omega

theorem uint64_of_userPages (h : ∀ i < m, UserPage pt (addr + i)) (hm : 0 < m) :
    uint64 ((addr : Int) + m) = addr + m := by
  have hlast := (h (m - 1) (by omega)).1.1
  unfold uint64
  simp only [MAXVA] at hlast
  omega

theorem goodBytes_split (hgood : goodBytes pt addr m = m) (hm : m ≤ n) :
    goodBytes pt addr n = m + goodBytes pt (addr + m) (n - m) := by
  rw [← goodBytes_add (goodBytes_eq_iff.mp hgood), Nat.add_sub_cancel' hm]

/-! ## Reading -/

/-- The memory after `n` bytes of `data`, from `off` on, went to the buffer at `addr`. -/
structure Delivered (pt : PageTable) (data : Bytes) (mem mem' : Nat → Bytes)
    (addr off n : Nat) : Prop where
  bytes : ∀ j, j < n → userByte pt mem' (uint64 ((addr : Int) + j)) = data (off + j)
  frame : ∀ pa k, (∀ j, j < n → userCell pt (uint64 ((addr : Int) + j)) ≠ (pa, k)) →
    mem' pa k = mem pa k

/-- A buffer takes what `readi` has for it up to the first bad page. -/
theorem readiBlocks_exact (hfuel : tot < n → off % BSIZE + (n - tot) ≤ fuel * BSIZE) (htot : tot ≤ n) :
    readiBlocks data (userOut pt) fuel mem addr off tot n =
      (putBytes pt mem addr data off (goodBytes pt addr (n - tot)),
        if goodBytes pt addr (n - tot) = n - tot then (n : Int) else -1) := by
  induction fuel generalizing mem addr off tot with
  | zero =>
    obtain rfl : tot = n := by omega
    rw [Nat.sub_self]
    rfl
  | succ fuel ih =>
    rw [readiBlocks]
    by_cases hdone : n ≤ tot
    · obtain rfl : tot = n := Nat.le_antisymm htot hdone
      rw [if_pos hdone, Nat.sub_self]
      rfl
    rw [if_neg hdone]
    obtain ⟨m, hm⟩ : ∃ m, m = min (n - tot) (BSIZE - off % BSIZE) := ⟨_, rfl⟩
    have hle : m ≤ n - tot := hm ▸ Nat.min_le_left _ _
    simp only [← hm, userOut, copyout_exact]
    by_cases hgood : goodBytes pt addr m = m
    · rw [decide_eq_true hgood, hgood]
      have hrest := @ih (putBytes pt mem addr data off m) (addr + m) (off + m) (tot + m)
        (blocks_left hfuel (by omega) hm) (by omega)
      rw [uint64_of_userPages (goodBytes_eq_iff.mp hgood) (by simp only [BSIZE] at hm; omega)]
      refine hrest.trans ?_
      rw [goodBytes_split hgood hle, Nat.sub_add_eq, putBytes_add]
      refine congrArg (_, ·) (if_congr ?_ rfl rfl)
      omega
    · rw [decide_eq_false hgood]
      have hlt := Nat.lt_of_le_of_ne (goodBytes_le pt addr m) hgood
      rw [goodBytes_of_lt hlt hle, if_neg (by omega)]

/-- Bytes that go to a buffer one by one get as far as all at once. -/
theorem deliver_exact (bs : List UInt8) (haddr : addr < 2 ^ 64)
    (hbefore : ∀ i < m, UserPage pt (addr + i)) :
    deliver pt bs mem addr m =
      (putBytes pt mem (addr + m) (bytesOf bs) 0 (goodBytes pt (addr + m) bs.length),
        m + goodBytes pt (addr + m) bs.length) := by
  induction bs generalizing mem m with
  | nil => rfl
  | cons b bs ih =>
    have hnext : uint64 ((addr : Int) + m) = addr + m := by
      rcases Nat.eq_zero_or_pos m with rfl | hm
      · exact uint64_of_lt haddr
      · exact uint64_of_userPages hbefore hm
    rw [deliver, hnext, copyout_exact, List.length_cons, goodBytes, goodBytes, goodBytes]
    by_cases hpage : UserPage pt (addr + m)
    · rw [if_pos hpage, if_pos hpage]
      have hrest := @ih (putBytes pt mem (addr + m) (bytesOf [b]) 0 1) (m + 1) fun i hi => by
        rcases Nat.lt_succ_iff_lt_or_eq.mp hi with hlt | rfl
        · exact hbefore i hlt
        · exact hpage
      rw [← Nat.add_assoc] at hrest
      refine hrest.trans (Prod.ext ?_ (Nat.add_right_comm m 1 _))
      generalize goodBytes pt (addr + m + 1) bs.length = g
      show _ = putBytes pt mem (addr + m) (bytesOf (b :: bs)) 0 (g + 1)
      rw [Nat.add_comm g 1, putBytes_add]
      refine putBytes_congr fun i _ => ?_
      rw [Nat.add_comm (0 + 1), Nat.zero_add]
      rfl
    · rw [if_neg hpage, if_neg hpage]
      rfl

/-- The range that `readi` goes through: what is left of the file, if the end of
the range does not wrap. -/
theorem readi_eq {σ : Type} {out : Nat → Bytes → Nat → Nat → σ → σ × Bool} {s : σ} {dst : Nat} :
    readi ip out s dst off n = if off ≤ ip.size ∧ off ≤ uint32 ((off : Int) + n) then
        readiBlocks ip.data out (min n (ip.size - off) / BSIZE + 2) s dst off 0
          (min n (ip.size - off)) else (s, 0) := by
  unfold readi
  by_cases hin : off ≤ ip.size ∧ off ≤ uint32 ((off : Int) + n)
  · have hmin : (if ip.size < off + n then ip.size - off else n) = min n (ip.size - off) := by
      split <;> omega
    rw [if_neg (by omega), if_pos hin, hmin]
  · rw [if_pos (by omega), if_neg hin]

/-- A user buffer takes the bytes up to its first bad page. -/
theorem readi_user :
    readi ip (userOut pt) mem addr off n =
      if off ≤ ip.size ∧ off ≤ uint32 ((off : Int) + n) then
        let len := min n (ip.size - off)
        (putBytes pt mem addr ip.data off (goodBytes pt addr len),
          if goodBytes pt addr len = len then (len : Int) else -1)
      else (mem, 0) := by
  rw [readi_eq, readiBlocks_exact (blocks_cover off _) (Nat.zero_le _), Nat.sub_zero]

/-- `readi` to a valid buffer: how many bytes it gives, and that it delivers them. -/
theorem readi_ok (haddr : addr < 2 ^ 64) (hbuf : UserBuffer pt addr n) (hoff : off ≤ ip.size) :
    ∃ (r : Nat) (mem' : Nat → Bytes),
      readi ip (userOut pt) mem addr off n = (mem', (r : Int)) ∧ r ≤ n ∧
      off + r ≤ ip.size ∧ Delivered pt ip.data mem mem' addr off r := by
  rw [readi_user]
  split
  · have hbuf := hbuf.take (Nat.min_le_left n (ip.size - off))
    have hmapped := hbuf.mapped
    rw [userAddr_range haddr, ← goodBytes_eq_iff] at hmapped
    refine ⟨min n (ip.size - off), _, congrArg _ (if_pos hmapped), by omega, by omega, ?_⟩
    have hdel : Delivered pt ip.data mem (copyout pt mem addr ip.data off _).1 addr
        off _ := ⟨fun _ hj => copyout_bytes ((copyout_ok haddr).mpr hbuf.mapped) hbuf.apart hj,
      fun _ _ hother => copyout_frame hother⟩
    rwa [copyout_exact] at hdel
  · exact ⟨0, mem, rfl, Nat.zero_le _, hoff, by omega, fun _ _ _ => rfl⟩

/-- A read to kernel memory always gets to its end. -/
theorem readiBlocks_kernel (hfuel : tot < n → off % BSIZE + (n - tot) ≤ fuel * BSIZE)
    (htot : tot ≤ n) (haddr : addr + (n - tot) < 2 ^ 64) :
    readiBlocks data kernelOut fuel buf addr off tot n =
      (splice buf addr data off (n - tot), (n : Int)) := by
  induction fuel generalizing buf addr off tot with
  | zero =>
    obtain rfl : tot = n := by omega
    rw [Nat.sub_self, splice_zero]
    rfl
  | succ fuel ih =>
    rw [readiBlocks]
    by_cases hdone : n ≤ tot
    · obtain rfl : tot = n := Nat.le_antisymm htot hdone
      rw [if_pos hdone, Nat.sub_self, splice_zero]
    rw [if_neg hdone]
    obtain ⟨m, hm⟩ : ∃ m, m = min (n - tot) (BSIZE - off % BSIZE) := ⟨_, rfl⟩
    have hle : m ≤ n - tot := hm ▸ Nat.min_le_left _ _
    have hnext : uint64 ((addr : Int) + m) = addr + m := by
      rw [← Nat.cast_add, uint64_of_lt (by omega)]
    simp only [← hm, kernelOut, hnext]
    rw [ih (blocks_left hfuel (by omega) hm) (by omega) (by omega), Nat.sub_add_eq, splice_add,
      Nat.add_sub_cancel' hle]

theorem readi_kernel (hn : n < 2 ^ 64) :
    readi ip kernelOut buf 0 off n = if off ≤ ip.size ∧ off ≤ uint32 ((off : Int) + n) then
        (splice buf 0 ip.data off (min n (ip.size - off)), ((min n (ip.size - off) : Nat) : Int))
      else (buf, 0) := by
  rw [readi_eq, readiBlocks_kernel (blocks_cover off _) (Nat.zero_le _) (by omega), Nat.sub_zero]

/-- When a read of `n` bytes to kernel memory gives some. -/
theorem readi_kernel_eq_zero (hn : 0 < n) (hlt : n < 2 ^ 64) :
    (readi ip kernelOut buf 0 off n).2 = 0 ↔ ¬(off < ip.size ∧ off ≤ uint32 ((off : Int) + n)) := by
  rw [readi_kernel hlt]
  split
  · rw [Int.natCast_eq_zero]
    omega
  · exact iff_of_true rfl (by omega)

/-! ## Writing -/

/-- `data` with `n` bytes, from `off` on, taken from the buffer at `addr`. -/
def written (pt : PageTable) (mem : Nat → Bytes) (data : Bytes) (addr off n : Nat) : Bytes :=
  fun i =>
    if off ≤ i ∧ i < off + n then userByte pt mem (uint64 ((addr : Int) + (i - off : Nat)))
    else data i

/-- How much of a write of `n` bytes at `off` is reported if `good` of them can
be copied: the blocks before the one that the copy stops in. -/
def wholeBytes (off n good : Nat) : Nat :=
  if good = n then n else (off + good) / BSIZE * BSIZE - off

theorem wholeBytes_block {good : Nat} (hm : m = min n (BSIZE - off % BSIZE)) (hgood : good ≤ n - m) :
    wholeBytes off n (m + good) = m + wholeBytes (off + m) (n - m) good := by
  unfold wholeBytes
  by_cases hall : good = n - m
  · rw [if_pos hall, if_pos (by omega)]
    omega
  · rw [if_neg hall, if_neg (by omega)]
    simp only [BSIZE] at hm ⊢
    omega

/-- `writei` copies up to the first bad page, and reports whole blocks. -/
theorem writeiBlocks_exact (hfuel : tot < n → off % BSIZE + (n - tot) ≤ fuel * BSIZE) (htot : tot ≤ n) :
    writeiBlocks pt mem fuel data addr off tot n =
      (getBytes pt mem data off addr (goodBytes pt addr (n - tot)),
        off + wholeBytes off (n - tot) (goodBytes pt addr (n - tot)),
        tot + wholeBytes off (n - tot) (goodBytes pt addr (n - tot))) := by
  induction fuel generalizing data addr off tot with
  | zero =>
    obtain rfl : tot = n := by omega
    rw [Nat.sub_self, goodBytes, getBytes_zero]
    rfl
  | succ fuel ih =>
    rw [writeiBlocks]
    by_cases hdone : n ≤ tot
    · obtain rfl : tot = n := Nat.le_antisymm htot hdone
      rw [if_pos hdone, Nat.sub_self, goodBytes, getBytes_zero]
      rfl
    rw [if_neg hdone]
    obtain ⟨m, hm⟩ : ∃ m, m = min (n - tot) (BSIZE - off % BSIZE) := ⟨_, rfl⟩
    have hle : m ≤ n - tot := hm ▸ Nat.min_le_left _ _
    simp only [← hm, copyin_exact]
    by_cases hgood : goodBytes pt addr m = m
    · rw [decide_eq_true hgood, hgood]
      have hrest := @ih (getBytes pt mem data off addr m) (addr + m) (off + m) (tot + m)
        (blocks_left hfuel (by omega) hm) (by omega)
      rw [uint64_of_userPages (goodBytes_eq_iff.mp hgood) (by simp only [BSIZE] at hm; omega)]
      refine hrest.trans ?_
      rw [goodBytes_split hgood hle, Nat.sub_add_eq, getBytes_add,
        wholeBytes_block hm (goodBytes_le pt (addr + m) (n - tot - m)), Nat.add_assoc,
        Nat.add_assoc]
    · rw [decide_eq_false hgood]
      have hlt := Nat.lt_of_le_of_ne (goodBytes_le pt addr m) hgood
      have hnone : wholeBytes off (n - tot) (goodBytes pt addr m) = 0 := by
        unfold wholeBytes
        rw [if_neg (by omega)]
        simp only [BSIZE] at hm ⊢
        omega
      rw [goodBytes_of_lt hlt hle, hnone]
      rfl

/-- A write that would leave a hole or go past the largest file is refused. -/
theorem writei_exact (ip : DInode) (addr off n : Nat) :
    writei pt mem ip addr off n =
      if off ≤ ip.size ∧ off + n ≤ MAXFILE * BSIZE then
        ({ ip with
            data := getBytes pt mem ip.data off addr (goodBytes pt addr n)
            size := max ip.size (off + wholeBytes off n (goodBytes pt addr n)) },
          (wholeBytes off n (goodBytes pt addr n) : Int))
      else (ip, -1) := by
  unfold writei
  by_cases hin : off ≤ ip.size ∧ off + n ≤ MAXFILE * BSIZE
  · have hsum : off + n < 2 ^ 32 := Nat.lt_of_le_of_lt hin.2 (by decide)
    have hcast : uint32 ((off : Int) + n) = off + n := by
      rw [← Nat.cast_add, uint32_of_lt hsum]
    have hsize : ∀ end' : Nat, (if ip.size < end' then end' else ip.size) = max ip.size end' := by
      intro end'
      split <;> omega
    rw [if_pos hin, if_neg (by omega), if_neg (by omega),
      writeiBlocks_exact (blocks_cover off n) (Nat.zero_le _), Nat.sub_zero, Nat.zero_add]
    simp only [hsize]
  · rw [if_neg hin]
    split
    · rfl
    · exact if_pos (by omega)

/-- `writei` from a valid buffer, within the largest file. -/
theorem writei_ok (haddr : addr < 2 ^ 64)
    (hmap : ∀ j < n, UserAddr pt (uint64 ((addr : Int) + j))) (hoff : off ≤ ip.size)
    (hmax : off + n ≤ MAXFILE * BSIZE) :
    writei pt mem ip addr off n =
      ({ ip with
          data := written pt mem ip.data addr off n
          size := max ip.size (off + n) }, (n : Int)) := by
  have hall := goodBytes_eq_iff.mpr ((userAddr_range haddr).mp hmap)
  have hwritten : getBytes pt mem ip.data off addr n =
      written pt mem ip.data addr off n := by
    have hok := (@copyin_ok pt mem n ip.data off addr haddr).mpr hmap
    have hbytes := funext (copyin_bytes hok)
    rwa [copyin_exact, hall] at hbytes
  have hwhole : wholeBytes off n n = n := if_pos rfl
  rw [writei_exact, if_pos ⟨hoff, hmax⟩, hall, hwhole, hwritten]

end Xv6.Sys
