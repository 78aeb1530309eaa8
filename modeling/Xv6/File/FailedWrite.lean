import Xv6.File.Content

/-!
# A write that fails

`writei` copies the source into the blocks of the buffer cache, one block after
the other, and reports the bytes of the blocks that `copyin` could fill. When
it comes to a page that is not mapped in the middle of a block, the bytes before
that page are already in the block: the block is given back as it is then, and a
later `readi` sees them.

The write changes no byte that it does not report exactly if the bytes that are
left in this last block are the old ones, as far as they are within the file.
What is past the end of the file is not seen: a file grows from its end, so a
later write overwrites it first.
-/

namespace Xv6.Sys

open Xv6.Lib Xv6.Lib.CInt Xv6.Vm

/-- The content on disk after the commit of a transaction in which the blocks
`logged` were given to `log_write`. -/
def committed (logged : Nat → Bool) (data data' : Bytes) : Bytes := fun o =>
  if logged (o / BSIZE) then data' o else data o

/-- What a write at `off` that returns `r` has to leave of the inode. -/
structure Unreported (logged : Nat → Bool) (ip ip' : DInode) (off : Nat) (r : Int) : Prop where
  /-- The bytes of the file that `readi` gives. -/
  seen : ∀ o, o < ip'.size → (o < off ∨ off + r.toNat ≤ o) → ip'.data o = ip.data o
  disk : ∀ o, o < ip'.size → (o < off ∨ off + r.toNat ≤ o) →
    committed logged ip.data ip'.data o = ip.data o
  size : 0 ≤ r → ip'.size = max ip.size (off + r.toNat)
  /-- The write was not begun. -/
  refused : r < 0 → ip' = ip

/-- If the source has a bad page, the bytes before it that go to the last block
and lie within the file are the ones that the file has there. -/
def KeepsBlock (pt : PageTable) (mem : Nat → Bytes) (ip : DInode) (src off n : Nat) : Prop :=
  off ≤ ip.size → off + n ≤ MAXFILE * BSIZE → goodBytes pt src n < n →
    ∀ o, off ≤ o → (off + goodBytes pt src n) / BSIZE * BSIZE ≤ o →
      o < off + goodBytes pt src n → o < ip.size →
      getByte pt mem (src + (o - off)) = ip.data o

/-- For every table, memory, inode, source, offset and length: a write that
does not write everything leaves alone, in the cache and in every transaction on
disk, what it does not report, exactly if `KeepsBlock`. -/
theorem writei_unreported_iff (pt : PageTable) (mem : Nat → Bytes) (ip : DInode)
    (src : UInt64) (off n : UInt32) :
    (∀ logged ip' r, writei pt mem ip src.toNat off.toNat n.toNat = (ip', r) →
        r < n.toNat → Unreported logged ip ip' off.toNat r) ↔
      KeepsBlock pt mem ip src.toNat off.toNat n.toNat := by
  generalize src.toNat = src
  generalize off.toNat = off
  generalize n.toNat = n
  rw [writei_exact]
  by_cases hin : off ≤ ip.size ∧ off + n ≤ MAXFILE * BSIZE
  swap
  · rw [if_neg hin]
    refine iff_of_true ?_ fun hoff hmax => absurd ⟨hoff, hmax⟩ hin
    rintro logged _ _ ⟨⟩ -
    exact ⟨fun _ _ _ => rfl, fun _ _ _ => ite_self _, fun h => absurd h (by decide), fun _ => rfl⟩
  rw [if_pos hin]
  have hle := goodBytes_le pt src n
  unfold KeepsBlock
  generalize goodBytes pt src n = good at hle ⊢
  by_cases hall : good = n
  · refine iff_of_true ?_ fun _ _ hlt => absurd hlt (by omega)
    rintro logged _ _ ⟨⟩ hlt
    rw [wholeBytes, if_pos hall] at hlt
    exact absurd hlt (Int.lt_irrefl _)
  -- The reported bytes end where the last block begins.
  have hwhole : off + wholeBytes off n good = max off ((off + good) / BSIZE * BSIZE) := by
    rw [wholeBytes, if_neg hall]
    omega
  generalize wholeBytes off n good = tot at hwhole ⊢
  constructor
  · intro h _ _ _ o ho hblock hgood hsize
    have hlast := (off + good).div_mul_le_self BSIZE
    have hshort : (tot : Int) < n := by omega
    have hseen := (h (fun _ => true) _ _ rfl hshort).seen o (lt_max_of_lt_left hsize)
      (.inr (by omega))
    exact (if_pos ⟨ho, hgood⟩).symm.trans hseen
  · rintro h logged _ _ ⟨⟩ -
    have hseen : ∀ o < max ip.size (off + tot), (o < off ∨ off + tot ≤ o) →
        (if off ≤ o ∧ o < off + good then getByte pt mem (src + (o - off))
          else ip.data o) = ip.data o := by
      intro o ho hout
      split
      · rename_i hcopied
        exact h hin.1 hin.2 (by omega) o hcopied.1 (by omega) hcopied.2 (by omega)
      · rfl
    refine ⟨hseen, fun o ho hout => ?_, fun _ => rfl, fun h => absurd h (by omega)⟩
    unfold committed
    split
    · exact hseen o ho hout
    · rfl

/-- A table that maps the first page and no other. -/
def firstPage : PageTable :=
  ⟨0x80000000, fun _ => some ⟨0x80001000, fun _ => some ⟨0x80002000, fun i =>
    if i = 0 then mkPte 0x80003000 (PTE_R ||| PTE_W ||| PTE_U) else 0⟩⟩⟩

/-- A write of two bytes, the second of them from a page that is not mapped, to
the beginning of a file: it reports nothing, and `readi` then gives the first. -/
theorem writei_changes_unreported :
    let ip : DInode := ⟨.file, 0, 10, fun _ => 7⟩
    let w := writei firstPage (fun _ _ => 9) ip 4095 0 2
    w.2 = 0 ∧ w.1.size = ip.size ∧
      (readi ip kernelOut (fun _ => 0) 0 0 1).1 0 = 7 ∧
      (readi w.1 kernelOut (fun _ => 0) 0 0 1).1 0 = 9 := by
  decide +kernel

end Xv6.Sys
