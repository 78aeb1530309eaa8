import Xv6.File.Content
import Xv6.File.Spec
import Xv6.Proc.KmemOk
import Xv6.Proc.Space
import Xv6.Proc.Tables

/-!
# `copyout` and pages that are only to be read

`walkaddr` asks for a user page and not for a writable one, so `copyout` stores
to whatever user page its range reaches. It therefore keeps to writable pages
exactly if the part of the range before the first bad page does.

`read` stores through `copyout` only, piece by piece and in the order of the
addresses, so it keeps to writable pages if its buffer does. `pipe` and `wait`
allocate and free pages as well, and keep to writable pages among the others.
-/

namespace Xv6.Sys

open Xv6.Lib Xv6.Lib.CInt Xv6.Vm
open Act

variable {pt : PageTable} {mem mem' mem'' : Nat → Bytes}

/-- The byte lies on a page that the table lets the user write. -/
def OnWritable (pt : PageTable) (pa off : Nat) : Prop :=
  ∃ va, UserMapped pt va ∧ hasFlag (pt.pte va) PTE_W = true ∧
    pte2pa (pt.pte va) = pa ∧ va % PGSIZE = off

/-- Only bytes on pages that the user can write have changed. -/
def OnlyWritable (pt : PageTable) (mem mem' : Nat → Bytes) : Prop :=
  ∀ pa off, mem' pa off ≠ mem pa off → OnWritable pt pa off

/-- The bytes of a range before its first bad page are on writable pages. -/
def RangeWritable (pt : PageTable) (va len : Nat) : Prop :=
  ∀ j, j < len → (∀ i, i ≤ j → UserPage pt (va + i)) →
    OnWritable pt (pte2pa (pt.pte (va + j))) ((va + j) % PGSIZE)

theorem OnlyWritable.refl : OnlyWritable pt mem mem := fun _ _ h => absurd rfl h

/-! ## One copy -/

/-- A byte that is stored to has the value stored, if all stores to it store the
same. -/
theorem putBytes_stored {va s m j : Nat} {src : Bytes} (value : Nat → Nat → UInt8)
    (hsrc : ∀ i, i < m → src (s + i) = value (pte2pa (pt.pte (va + i))) ((va + i) % PGSIZE))
    (hj : j < m) {pa off : Nat} (hcell : Cell pt (va + j) pa off) :
    putBytes pt mem va src s m pa off = value pa off := by
  induction m with
  | zero => exact absurd hj (Nat.not_lt_zero j)
  | succ m ih =>
    rw [putBytes, putByte_apply]
    split
    · rename_i hlast
      rw [hsrc m (Nat.lt_succ_self m), hlast.1, hlast.2]
    · rename_i hlast
      rcases Nat.lt_succ_iff_lt_or_eq.mp hj with hlt | rfl
      · exact ih (fun i hi => hsrc i (by omega)) hlt
      · exact absurd hcell hlast

theorem lt_goodBytes_iff {va len j : Nat} :
    j < goodBytes pt va len ↔ j < len ∧ ∀ i ≤ j, UserPage pt (va + i) := by
  obtain ⟨hgood, hbad⟩ := goodBytes_spec pt va len
  have hle := goodBytes_le pt va len
  refine ⟨fun h => ⟨by omega, fun i hi => hgood i (by omega)⟩, fun ⟨hlt, hall⟩ => ?_⟩
  by_contra hge
  exact hbad (by omega) (hall _ (by omega))

/-- The stores to the good part of a range. -/
theorem RangeWritable.putBytes {va len : Nat} (h : RangeWritable pt va len)
    (mem : Nat → Bytes) (src : Bytes) (s : Nat) :
    OnlyWritable pt mem (putBytes pt mem va src s (goodBytes pt va len)) := by
  intro pa off hne
  obtain ⟨j, hj, rfl, rfl⟩ := putBytes_changed hne
  obtain ⟨hlen, hgood⟩ := lt_goodBytes_iff.mp hj
  exact h j hlen hgood

/-- A range to which every copy keeps to writable pages is writable: copy to
each byte a value that it does not have. -/
theorem rangeWritable_of_copyout {va len : Nat}
    (h : ∀ src s, OnlyWritable pt mem (copyout pt mem va src s len).1) :
    RangeWritable pt va len := by
  intro j hj hgood
  let other : Nat → Nat → UInt8 := fun pa off => if mem pa off = 0 then 1 else 0
  have hother : ∀ pa off, other pa off ≠ mem pa off := by
    intro pa off
    simp only [other]
    split
    · rename_i hzero
      rw [hzero]
      decide
    · rename_i hzero
      exact fun heq => hzero heq.symm
  refine h (fun i => other (pte2pa (pt.pte (va + i))) ((va + i) % PGSIZE)) 0 _ _ ?_
  rw [copyout_exact]
  have hstored := @putBytes_stored pt mem va 0 (goodBytes pt va len) j
    (fun i => other (pte2pa (pt.pte (va + i))) ((va + i) % PGSIZE)) other
    (fun i _ => by rw [Nat.zero_add]) (lt_goodBytes_iff.mpr ⟨hj, hgood⟩) _ _ ⟨rfl, rfl⟩
  exact fun heq => hother _ _ (hstored.symm.trans heq)

/-! ## `read` -/

theorem RangeWritable.take {va len m : Nat} (h : RangeWritable pt va len) (hm : m ≤ len) :
    RangeWritable pt va m :=
  fun j hj hgood => h j (by omega) hgood

theorem readi_onlyWritable (ip : DInode) (mem : Nat → Bytes) {dst off n : Nat}
    (h : RangeWritable pt dst n) : OnlyWritable pt mem (readi ip (userOut pt) mem dst off n).1 := by
  rw [readi]
  split
  · exact OnlyWritable.refl
  · rw [readiBlocks_exact (blocks_cover off _) (Nat.zero_le _), Nat.sub_zero]
    refine (h.take ?_).putBytes mem ip.data off
    split
    · omega
    · omega

theorem wp_fileread_onlyWritable {f addr : Nat} {n : Int} {input : List UInt8} {s : Files}
    (haddr : addr < 2 ^ 64) (hn : n.toNat ≤ uint32 n) (h : RangeWritable pt addr (uint32 n)) :
    wp (fileread pt f addr n input)
      (fun _ s' => OnlyWritable pt s.kmem.mem s'.kmem.mem) (fun _ => True) s := by
  have hinput : OnlyWritable pt s.kmem.mem
      (deliver pt (input.take n.toNat) s.kmem.mem addr 0).1 := by
    rw [deliver_exact _ haddr fun i hi => absurd hi (Nat.not_lt_zero i)]
    exact (h.take ((List.length_take_le _ _).trans hn)).putBytes _ _ 0
  unfold fileread
  rw [wp_bind, wp_get]
  extract_lets file fromInput ip
  have hfrom : wp fromInput
      (fun _ s' => OnlyWritable pt s.kmem.mem s'.kmem.mem) (fun _ => True) s := by
    unfold fromInput
    rw [wp_bind, wp_onKmem, wp_modify, wp_pure]
    exact hinput
  refine wp_ite (fun _ => wp_pure.mpr .refl) fun _ => ?_
  split
  · exact hfrom
  · exact wp_ite (fun _ => wp_pure.mpr .refl) fun _ => hfrom
  · rw [wp_bind]
    refine wp_ilock_quiet fun inode _ _ => ?_
    have hread : OnlyWritable pt s.kmem.mem
        (readi ip (userOut pt) s.kmem.mem addr file.off (uint32 n)).1 :=
      readi_onlyWritable ip s.kmem.mem h
    split
    rename_i mem' r hr
    rw [hr] at hread
    rw [wp_bind, wp_onKmem, wp_modify, wp_bind]
    refine wp_when (fun _ => ?_) fun _ => ?_
    · rw [wp_setFile, wp_pure]
      exact hread
    · exact wp_pure.mpr hread
  · exact wp_panic.mpr trivial

/-! ## `pipe` and `wait` -/

/-- Only bytes on pages that the user can write have changed, and on pages that
were free or are. -/
def WritableOrFree (pt : PageTable) (m m' : Kmem) : Prop :=
  ∀ pa off, m'.mem pa off ≠ m.mem pa off →
    OnWritable pt pa off ∨ pa ∈ m.freelist ∨ pa ∈ m'.freelist

section calls

variable {m m' m'' : Kmem} {k : Kernel} {p : Nat}

theorem WritableOrFree.refl : WritableOrFree pt m m := fun _ _ h => absurd rfl h

theorem WritableOrFree.copyout {va len : Nat} {src : Bytes} {ok : Bool}
    (hm : WritableOrFree pt m m') (h : RangeWritable pt va len)
    (hcopy : copyout pt m'.mem va src 0 len = (mem, ok)) :
    WritableOrFree pt m { m' with mem := mem } := by
  intro pa off hne
  by_cases hsame : mem pa off = m'.mem pa off
  · exact hm pa off (hsame ▸ hne)
  · rw [copyout_exact, Prod.mk.injEq] at hcopy
    exact .inl (h.putBytes _ src 0 pa off (hcopy.1 ▸ hsame))

theorem WritableOrFree.freed {ps : Multiset Nat} (hm : WritableOrFree pt m m')
    (h : Freed ps m' m'') : WritableOrFree pt m m'' := by
  intro pa off hne
  by_cases hfree : pa ∈ m''.freelist
  · exact .inr (.inr hfree)
  · rw [h.mem pa hfree] at hne
    exact (hm pa off hne).imp_right (Or.imp_right h.mem_of_mem)

theorem stable_kfree_writable (pa : Nat) : Stable (WritableOrFree pt m) (kfree pa) :=
  ⟨fun _ hm => wp_post wp_kfree_freed fun _ _ h => hm.freed h⟩

theorem ends_kalloc_writable (pt : PageTable) : Ends kalloc (WritableOrFree pt m) m := by
  refine wp_kalloc (fun _ => .refl) fun r next hfree pa off hne => ?_
  obtain rfl : pa = r := by
    by_contra hpa
    exact hne (congrFun (Function.update_of_ne hpa ..) off)
  exact .inr (.inl (hfree ▸ List.mem_cons_self))

theorem ends_sysPipe_writable {va : UInt64} (h0 : RangeWritable (k.proc p).pagetable va.toNat 4)
    (h4 : RangeWritable (k.proc p).pagetable (uint64 (va.toNat + 4)) 4) :
    Ends (sysPipe p va) (fun k' =>
      WritableOrFree (k.proc p).pagetable k.files.kmem k'.files.kmem) k := by
  refine ends_sysPipe_of (ends_pipealloc_mem stable_kfree_writable .refl
    (ends_kalloc_writable (k.proc p).pagetable)) (fun _ h => h) ?_ ?_ fun _ _ _ _ _ h _ _ _ _ => h
  · rintro _ s src mem ok a ha hs hcopy
    rcases List.mem_pair.mp ha with rfl | rfl
    · exact hs.copyout h0 hcopy
    · exact hs.copyout h4 hcopy
  · have hclose : ∀ f, Stable (fun k' : Kernel =>
        WritableOrFree (k.proc p).pagetable k.files.kmem k'.files.kmem) (onFiles (fileclose f)) :=
      fun f => stable_onFiles_mem (stable_fileclose_mem stable_kfree_writable)
    exact fun rf wf s hs => (hclose rf).wp hs fun _ => (hclose wf).stays

theorem ends_wait_writable {addr : Nat} (h : addr ≠ 0 → RangeWritable (k.proc p).pagetable addr 4) :
    Ends (wait p addr) (fun k' =>
      WritableOrFree (k.proc p).pagetable k.files.kmem k'.files.kmem) k := by
  refine ends_wait_of .refl (fun haddr _ _ _ => WritableOrFree.refl.copyout (h haddr))
    fun np _ _ mem => (stable_freeproc_mem stable_kfree_writable fun pt sz => ?_).stays _
  exact ⟨fun _ hm => wp_post wp_procFreepagetable fun _ _ ⟨_, h, _⟩ => hm.freed h⟩

end calls

/-- For every process, address and length: `copyout` keeps to pages that the
user can write, whatever it copies, exactly if the bytes of the range before its
first bad page are on such pages. `read`, `pipe` and `wait` keep to them if
their buffers do, the pages apart that the last two allocate and free. -/
theorem copyout_writes_writable_iff (k : Kernel) (p : Nat) (va len : UInt64) :
    ((∀ src s, OnlyWritable (k.proc p).pagetable k.files.kmem.mem
        (copyout (k.proc p).pagetable k.files.kmem.mem va.toNat src s len.toNat).1) ↔
      RangeWritable (k.proc p).pagetable va.toNat len.toNat) ∧
    (∀ fd n input r k', RangeWritable (k.proc p).pagetable va.toNat (uint32 (argint n)) →
      sysRead p fd va n input k = .ok (r, k') →
      OnlyWritable (k.proc p).pagetable k.files.kmem.mem k'.files.kmem.mem) ∧
    (∀ r k', RangeWritable (k.proc p).pagetable va.toNat 4 →
      RangeWritable (k.proc p).pagetable (uint64 (va.toNat + 4)) 4 →
      sysPipe p va k = .ok (r, k') →
      WritableOrFree (k.proc p).pagetable k.files.kmem k'.files.kmem) ∧
    ∀ r k', (va.toNat ≠ 0 → RangeWritable (k.proc p).pagetable va.toNat 4) →
      wait p va.toNat k = .ok (r, k') →
      WritableOrFree (k.proc p).pagetable k.files.kmem k'.files.kmem := by
  refine ⟨⟨rangeWritable_of_copyout, fun h src s => ?_⟩, ?_,
    fun r k' h0 h4 hpipe => ends_ok r k' hpipe (ends_sysPipe_writable h0 h4),
    fun r k' h hwait => ends_ok r k' hwait (ends_wait_writable h)⟩
  · rw [copyout_exact]
    exact h.putBytes _ src s
  intro fd n input r k' hbuf hread
  have hwp : wp (sysRead p fd va n input) (fun _ k' =>
      OnlyWritable (k.proc p).pagetable k.files.kmem.mem k'.files.kmem.mem) (fun _ => True) k := by
    unfold sysRead
    rw [wp_bind, wp_get]
    cases argfd (k.proc p) fd with
    | none => exact wp_pure.mpr .refl
    | some f =>
      rw [wp_onFiles]
      refine wp_fileread_onlyWritable va.toNat_lt ?_ hbuf
      have := (int32_bounds n.toNat).2
      unfold argint uint32
      omega
  rw [wp_iff, hread] at hwp
  exact hwp

/-- A process maps a file without write permission and brings in the page, and a
`read` to it changes its bytes. -/
theorem read_changes_readonly_page :
    ∃ k0 k r k', Boot k0 ∧ Run (fun _ _ _ => True) k0 k ∧ Enabled k 0 (.read 0 0x1000 10 []) ∧
      ((k.proc 0).vma 0).used = true ∧ ((k.proc 0).vma 0).addr = 0x1000 ∧
      hasBit ((k.proc 0).vma 0).prot PROT_WRITE = false ∧
      UserMapped (k.proc 0).pagetable 0x1000 ∧
      hasFlag ((k.proc 0).pagetable.pte 0x1000) PTE_W = false ∧
      step 0 (.read 0 0x1000 10 []) k = .ok (r, k') ∧
      getByte (k.proc 0).pagetable k'.files.kmem.mem 0x1000 ≠
        getByte (k.proc 0).pagetable k.files.kmem.mem 0x1000 := by
  obtain ⟨k0, k, hboot, hrun, hfact⟩ := smallMachine_anyRun
    [(0, .openFile (some 2) 0), (0, .mmap 0 4096 1 2 0 0), (0, .load 0x1000 0x1000),
      (0, .read 0 0 5 [])]
    (fun k => decide (((k.proc 0).vma 0).used = true ∧ ((k.proc 0).vma 0).addr = 0x1000 ∧
        hasBit ((k.proc 0).vma 0).prot PROT_WRITE = false ∧
        UserMapped (k.proc 0).pagetable 0x1000 ∧
        hasFlag ((k.proc 0).pagetable.pte 0x1000) PTE_W = false) &&
      stepGives 0 (.read 0 0x1000 10 []) (fun _ k' =>
        getByte (k.proc 0).pagetable k'.files.kmem.mem 0x1000 ≠
          getByte (k.proc 0).pagetable k.files.kmem.mem 0x1000) k) (by decide +kernel)
  rw [Bool.and_eq_true, decide_eq_true_eq, stepGives_iff] at hfact
  obtain ⟨⟨hused, haddr, hprot, hmapped, hreadonly⟩, henabled, r, k', hread, hchanged⟩ := hfact
  exact ⟨k0, k, r, k', hboot, hrun, henabled, hused, haddr, hprot, hmapped, hreadonly, hread,
    of_decide_eq_true hchanged⟩

end Xv6.Sys
