import Xv6.File.FailedWrite
import Xv6.File.Spec

/-!
# Where a read stores

A read of `n` bytes to `addr` has to store in the `n` bytes from `addr` on, and
to return no more than `n`. The length of `fileread` is an `int`, and a pipe and
the console deliver nothing for a negative one. `readi` has an unsigned length:
for it a negative one is large, and unless the sum with the offset wraps, it
gives all the rest of the file.

Two addresses may be one byte of memory, so a byte that is stored may be the one
that was there. `ReadsInside` is therefore about every content of memory.
-/

namespace Xv6.Sys

open Xv6.Lib Xv6.Lib.CInt Xv6.Vm
open Act

variable {pt : PageTable} {s : Files} {f addr : Nat} {n : Int} {input : List UInt8}

/-- Stores determine a byte that they store to, whatever was there. -/
theorem putBytes_forgets {mem mem' : Nat → Bytes} {va i m pa off : Nat} {src : Bytes}
    (h : ∃ j < m, Cell pt (va + j) pa off) :
    putBytes pt mem va src i m pa off = putBytes pt mem' va src i m pa off := by
  induction m with
  | zero =>
    obtain ⟨j, hj, -⟩ := h
    exact absurd hj (Nat.not_lt_zero j)
  | succ m ih =>
    rw [putBytes, putBytes, putByte_apply, putByte_apply]
    split
    · rfl
    · rename_i hlast
      obtain ⟨j, hj, hcell⟩ := h
      rcases Nat.lt_succ_iff_lt_or_eq.mp hj with hlt | rfl
      · exact ih ⟨j, hlt, hcell⟩
      · exact absurd hcell hlast

/-- The inode of an open file. -/
def Files.inodeOf (s : Files) (f : Nat) : DInode :=
  s.dinode (s.inode ((s.file f).ip.getD 0)).inum

/-- The files with another content of memory. -/
def Files.withMem (s : Files) (mem : Nat → Bytes) : Files :=
  { s with kmem := { s.kmem with mem := mem } }

/-- A read that returned `r` has stored only in the range, has returned no more
than its length, and for a length that is not positive has left memory and the
offset of a regular file alone. -/
structure Inside (pt : PageTable) (s : Files) (f addr : Nat) (n : Int) (mem : Nat → Bytes)
    (r : Int) (s' : Files) : Prop where
  range : ∀ pa off, s'.kmem.mem pa off ≠ mem pa off →
    ∃ j, j < n.toNat ∧ UserPage pt (addr + j) ∧ Cell pt (addr + j) pa off
  count : r ≤ max n 0
  nothing : (s.file f).type = .inode → n ≤ 0 →
    s'.kmem.mem = mem ∧ (s'.file f).off = (s.file f).off

/-- Whatever is in memory, the read stays inside its range. -/
def ReadsInside (pt : PageTable) (s : Files) (f addr : Nat) (n : Int)
    (input : List UInt8) : Prop :=
  ∀ mem r s', fileread pt f addr n input (s.withMem mem) = .ok (r, s') →
    Inside pt s f addr n mem r s'

/-- The length is negative, but `readi` finds a range in the file, and there is a
page for its first byte. -/
def NegativeRead (pt : PageTable) (s : Files) (f addr : Nat) (n : Int) : Prop :=
  (s.file f).readable = true ∧ (s.file f).type = .inode ∧ s.canLock (s.file f).ip = true ∧
    n < 0 ∧ ((s.file f).off : Int) + n < 0 ∧ (s.file f).off < (s.inodeOf f).size ∧
    UserPage pt addr

/-- A read of a regular file is a `readi` at its offset. -/
theorem wp_fileread_inode (mem : Nat → Bytes) (hread : (s.file f).readable = true)
    (htype : (s.file f).type = .inode) :
    wp (fileread pt f addr n input)
      (fun r s' => s.canLock (s.file f).ip = true ∧ (s'.kmem.mem, r) = readi (s.inodeOf f)
          (userOut pt) mem addr (s.file f).off (uint32 n) ∧
        (r ≤ 0 → (s'.file f).off = (s.file f).off))
      (fun _ => s.canLock (s.file f).ip = false) (s.withMem mem) := by
  unfold fileread
  rw [wp_bind, wp_get]
  extract_lets file fromInput ip
  have hreadable : file.readable = true := hread
  have hinode : file.type = .inode := htype
  rw [hreadable, hinode]
  simp only [Bool.not_true, Bool.false_eq_true, ↓reduceIte]
  rw [wp_bind]
  refine wp_mono wp_ilock_exact (fun _ s1 h => ?_) fun _ h => h
  obtain ⟨hlock, inode, rfl, -⟩ := h
  rw [wp_bind, wp_onKmem, wp_modify, wp_bind]
  refine wp_when (fun hpos => ?_) fun _ => wp_pure.mpr ⟨hlock, rfl, fun _ => rfl⟩
  rw [wp_setFile, wp_pure]
  exact ⟨hlock, rfl, fun h => absurd hpos (by omega)⟩

/-- Bytes that the user pages from `addr` on take are stored in the range. -/
theorem putBytes_inside {mem : Nat → Bytes} {src : Bytes} {i len pa off : Nat}
    (hlen : goodBytes pt addr len ≤ n.toNat)
    (hne : putBytes pt mem addr src i (goodBytes pt addr len) pa off ≠ mem pa off) :
    ∃ j < n.toNat, UserPage pt (addr + j) ∧ Cell pt (addr + j) pa off := by
  obtain ⟨j, hj, hcell⟩ := putBytes_changed hne
  exact ⟨j, by omega, (goodBytes_spec pt addr len).1 j hj, hcell⟩

/-- A pipe and the console deliver at most `n` bytes, and a file that is not
readable none. -/
theorem wp_fileread_other (mem : Nat → Bytes)
    (haddr : addr < 2 ^ 64) (hother : ¬((s.file f).readable = true ∧ (s.file f).type = .inode)) :
    wp (fileread pt f addr n input) (Inside pt s f addr n mem) (fun _ => True) (s.withMem mem) := by
  have hnone : Inside pt s f addr n mem (-1) (s.withMem mem) :=
    ⟨fun _ _ hne => absurd rfl hne, by omega, fun _ _ => ⟨rfl, rfl⟩⟩
  unfold fileread
  rw [wp_bind, wp_get]
  extract_lets file fromInput ip
  refine wp_ite (fun _ => wp_pure.mpr hnone) fun hread => ?_
  have hreadable : (s.file f).readable = true := by
    rwa [Bool.not_eq_true', Bool.not_eq_false] at hread
  have hinput : wp fromInput (Inside pt s f addr n mem) (fun _ => True) (s.withMem mem) := by
    have hlen : (input.take n.toNat).length ≤ n.toNat := List.length_take_le _ _
    have hle := goodBytes_le pt addr (input.take n.toNat).length
    unfold fromInput
    rw [deliver_exact _ haddr fun i hi => absurd hi (Nat.not_lt_zero i)]
    simp only [Nat.add_zero, Nat.zero_add]
    rw [wp_bind, wp_onKmem, wp_modify, wp_pure]
    exact ⟨fun pa off hne => putBytes_inside (hle.trans hlen) hne, by omega,
      fun htype => absurd ⟨hreadable, htype⟩ hother⟩
  split
  · exact hinput
  · exact wp_ite (fun _ => wp_pure.mpr hnone) fun _ => hinput
  · rename_i htype
    exact absurd ⟨hreadable, htype⟩ hother
  · exact wp_panic.mpr trivial

/-- What `readi` stores for a length of `fileread`: no more than the length, and
nothing for one that is not positive. -/
theorem goodBytes_inside (hmin : -2 ^ 31 ≤ n) (hmax : n < 2 ^ 31)
    (hcond : n < 0 → ((s.file f).off : Int) + n < 0 → (s.file f).off < (s.inodeOf f).size →
      ¬UserPage pt addr) (hin : (s.file f).off ≤ uint32 (((s.file f).off : Int) + uint32 n)) :
    goodBytes pt addr (min (uint32 n) ((s.inodeOf f).size - (s.file f).off)) ≤ n.toNat := by
  generalize (s.inodeOf f).size = size at hcond ⊢
  generalize (s.file f).off = off at hcond hin ⊢
  have hle := goodBytes_le pt addr (min (uint32 n) (size - off))
  rcases Int.lt_or_le n 0 with hneg | hpos
  · have hlen : uint32 n = (2 ^ 32 + n).toNat := by
      unfold uint32
      omega
    have hwrap : (off : Int) + n < 0 := by
      rw [hlen] at hin
      unfold uint32 at hin
      omega
    rcases Nat.lt_or_ge off size with hsize | hsize
    · obtain ⟨len, hpos⟩ := Nat.exists_eq_succ_of_ne_zero
        (show min (uint32 n) (size - off) ≠ 0 by omega)
      rw [hpos, goodBytes, if_neg (hcond hneg hwrap hsize)]
      exact Nat.zero_le _
    · omega
  · have hlen : uint32 n = n.toNat := by
      unfold uint32
      omega
    omega

/-- For every file, every register with the length and every user address: the
read stays inside its range exactly if it is not a `NegativeRead`. -/
theorem fileread_inside_iff (pt : PageTable) (s : Files) (f : Nat) (addr a : UInt64)
    (input : List UInt8) :
    ReadsInside pt s f addr.toNat (int32 a.toNat) input ↔
      ¬NegativeRead pt s f addr.toNat (int32 a.toNat) := by
  obtain ⟨hmin, hmax⟩ := int32_bounds (a.toNat : Int)
  have haddr := addr.toNat_lt
  generalize int32 a.toNat = n at hmin hmax ⊢
  generalize addr.toNat = addr at haddr ⊢
  constructor
  · rintro hinside ⟨hread, htype, hlock, hneg, hwrap, hsize, hpage⟩
    have hin : (s.file f).off ≤ (s.inodeOf f).size ∧
        (s.file f).off ≤ uint32 (((s.file f).off : Int) + uint32 n) := by
      unfold uint32
      omega
    obtain ⟨len, hpos⟩ := Nat.exists_eq_succ_of_ne_zero
      (show min (uint32 n) ((s.inodeOf f).size - (s.file f).off) ≠ 0 by unfold uint32; omega)
    -- Memory with the bytes stored is as it was, whatever it was.
    have hsame : ∀ mem, putBytes pt mem addr (s.inodeOf f).data (s.file f).off
        (goodBytes pt addr (len + 1)) = mem := by
      intro mem
      obtain ⟨r, s', hrun, -, hmem, -⟩ := wp_total (wp_mono
        (@wp_fileread_inode pt s f addr n input mem hread htype) (fun _ _ h => h) fun _ h => absurd hlock (ne_true_of_eq_false h))
      obtain ⟨hkept, -⟩ := (hinside mem r s' hrun).nothing htype (by omega)
      rw [readi_user, if_pos hin, hpos] at hmem
      exact (congrArg Prod.fst hmem).symm.trans hkept
    have hstores : 0 < goodBytes pt addr (len + 1) := by
      rw [goodBytes, if_pos hpage]
      exact Nat.succ_pos _
    have hforget := @putBytes_forgets pt (fun _ _ => 0) (fun _ _ => 1) addr
      (s.file f).off _ _ _ (s.inodeOf f).data ⟨0, hstores, (⟨rfl, rfl⟩ : Cell pt (addr + 0) _ _)⟩
    rw [hsame, hsame] at hforget
    exact absurd hforget (by decide)
  · intro hcond mem r s' hrun
    refine wp_ok (E := fun _ => True) (Q := Inside pt s f addr n mem) ?_ hrun
    by_cases hinode : (s.file f).readable = true ∧ (s.file f).type = .inode
    swap
    · exact wp_fileread_other mem haddr hinode
    refine wp_mono (wp_fileread_inode mem hinode.1 hinode.2) (fun r s' h => ?_) fun _ _ => trivial
    obtain ⟨hlock, hr, hoff⟩ := h
    rw [readi_user] at hr
    split at hr
    · rename_i hin
      obtain ⟨hmem, hr⟩ := Prod.mk.inj hr
      have hcount := goodBytes_inside hmin hmax
        (fun hneg hwrap hsize hpage =>
          hcond ⟨hinode.1, hinode.2, hlock, hneg, hwrap, hsize, hpage⟩) hin.2
      have hr0 : r ≤ max n 0 := by
        rw [hr]
        split <;> omega
      refine ⟨fun pa off hne => putBytes_inside hcount (hmem ▸ hne), hr0, fun _ hn => ?_⟩
      rw [hmem, Nat.le_zero.mp (Nat.le_trans hcount (by omega))]
      exact ⟨rfl, hoff (by omega)⟩
    · cases hr
      exact ⟨fun pa off hne => absurd rfl hne, by omega, fun _ _ => ⟨rfl, hoff (Int.le_refl 0)⟩⟩

/-- A file of ten bytes, open for reading at its start. -/
def tenBytes : Files where
  kmem := { kend := 0, trampoline := 0, freelist := [], mem := fun _ _ => 0 }
  file := fun _ => { type := .inode, ref := 1, readable := true, ip := some 0 }
  pipe := fun _ => ⟨false, false⟩
  inode := fun _ => { ref := 1, valid := true }
  dinode := fun _ => ⟨.file, 0, 10, fun _ => 7⟩

/-- A read of -1 bytes returns the whole file. -/
theorem fileread_gives_negative : ¬ReadsInside firstPage tenBytes 0 0 (int32 0xffffffff) [] := by
  intro hinside
  have hrun : ((fileread firstPage 0 0 (int32 0xffffffff) [] tenBytes).toOption.any fun r =>
      decide (r.1 = 10)) = true := by
    decide +kernel
  obtain ⟨⟨r, s'⟩, heq, hten⟩ := Act.ok_of_any hrun
  obtain rfl : r = 10 := of_decide_eq_true hten
  have hcount := (hinside _ 10 s' heq).count
  exact absurd hcount (by decide +kernel)

end Xv6.Sys
