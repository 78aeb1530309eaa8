import Xv6.Proc.Masked

/-!
# `exit` unmaps as `munmap` does

`exit` goes through the table of mappings by a loop of its own. For a used
slot it writes the mapping back, closes the file and removes the pages, where
`sys_munmap` removes the pages first. The loop is run side by side with calls
of `sys_munmap` for the used slots: before each slot the two machines are
`Level`, with the same files, page table and used slots, and one round of both
loops keeps them so.

What differs is the order in which pages are freed, when the last reference
to a pipe goes. A page that is freed is filled with junk, so the order shows
in the free list and not in memory.
-/

namespace Xv6.Vm

open Xv6.Lib Function
open Act

/-! ## Pages freed in either order -/

/-- The pages in `l` are filled with junk, and the rest is as it was. -/
structure Kmem.Junked (l : List Nat) (m m' : Kmem) : Prop where
  kend : m'.kend = m.kend
  mem : ∀ pa, m'.mem pa = if pa ∈ l then fun _ => 1 else m.mem pa

/-- The same pages were freed since `a` and `b`. -/
structure Kmem.Abreast (a b m m' : Kmem) : Prop where
  kend : m'.kend = m.kend
  freed : ∃ l, a.Junked l m ∧ b.Junked l m'

variable {a b m m' : Kmem} {l l' : List Nat}

theorem Kmem.Junked.refl (m : Kmem) : m.Junked [] m := ⟨rfl, fun _ => by simp⟩

theorem Kmem.Junked.cons (h : a.Junked l m) (pa : Nat) (freelist : List Nat) :
    a.Junked (pa :: l) { m with freelist := freelist, mem := update m.mem pa fun _ => 1 } := by
  refine ⟨h.kend, fun x => ?_⟩
  by_cases hx : x = pa
  · simp [hx]
  · simp [hx, h.mem]

theorem Kmem.Abreast.start (h : b.kend = a.kend) : a.Abreast b a b :=
  ⟨h, [], .refl a, .refl b⟩

theorem twin_kfree_abreast (pa : Nat) : Twin (Kmem.Abreast a b) (kfree pa) (kfree pa) := by
  refine .get fun k k' h => ?_
  rw [h.kend]
  refine .ite .panic ⟨fun m m' h => ?_⟩
  obtain ⟨l, hl, hl'⟩ := h.freed
  exact ⟨rfl, h.kend, pa :: l, hl.cons pa _, hl'.cons pa _⟩

end Xv6.Vm

namespace Xv6.Sys

open Xv6.Lib Xv6.Lib.CInt Xv6.Vm Function
open Act

/-- The memories are the same, up to the free list. -/
structure Kmem.Same (m m' : Kmem) : Prop where
  kend : m'.kend = m.kend
  mem : m'.mem = m.mem

variable {s s' s1 s2 : Files} {m1 m2 : Kmem} {pt pt1 pt2 : PageTable} {f va npages : Nat}

/-- A file is closed and pages are removed, in either order. -/
theorem close_unmap (h : Files.Like Kmem.Same s s') (hclose : fileclose f s = .ok ((), s1))
    (hunmap : uvmunmap pt va npages true s1.kmem = .ok (pt1, m1))
    (hunmap' : uvmunmap pt va npages true s'.kmem = .ok (pt2, m2))
    (hclose' : fileclose f { s' with kmem := m2 } = .ok ((), s2)) :
    pt2 = pt1 ∧ Files.Like Kmem.Same { s1 with kmem := m1 } s2 := by
  obtain ⟨-, -, l, hl, -⟩ := (twin_uvmunmap twin_kfree_abreast).ok (.start rfl) hunmap' hunmap'
  have hlike : Files.Like (Kmem.Abreast s.kmem m2) s { s' with kmem := m2 } :=
    ⟨.start (hl.kend.trans h.kmem.kend), h.file, h.pipe, h.inode, h.dinode⟩
  obtain ⟨-, hfiles⟩ := (twin_fileclose twin_kfree_abreast).ok hlike hclose hclose'
  obtain ⟨l1, hs1, hs2⟩ := hfiles.kmem.freed
  obtain ⟨rfl, -, l2, hm1, hm2⟩ := (twin_uvmunmap twin_kfree_abreast).ok
    (.start (h.kmem.kend.trans hs1.kend.symm)) hunmap hunmap'
  refine ⟨rfl, ⟨?_, funext fun pa => ?_⟩, hfiles.file, hfiles.pipe, hfiles.inode, hfiles.dinode⟩
  · exact hs2.kend.trans (hm2.kend.trans (h.kmem.kend.trans (hm1.kend.trans hs1.kend).symm))
  · rw [hs2.mem, hm2.mem, hm1.mem, hs1.mem, h.kmem.mem]
    split_ifs <;> rfl

/-! ## The two loops -/

/-- The loop of `exit` over the mappings. -/
def exitVmas (p : Nat) : KernelM Unit := Act.iter (fun i _ => exitVma p i) MAXMMAPITEM 0 ()

/-- `sys_munmap(vma[i].addr, vma[i].length)`, if the slot is used. -/
def munmapVma (p i : Nat) : KernelM Unit := do
  let k ← get
  let v := (k.proc p).vma i
  Act.when v.used do
    let _ ← sysMunmap p (UInt64.ofNat v.addr) (UInt64.ofNat (uint64 v.length))

/-- The calls of `sys_munmap` for the used slots, in increasing order. -/
def munmapVmas (p : Nat) : KernelM Unit := Act.iter (fun i _ => munmapVma p i) MAXMMAPITEM 0 ()

/-- The values fit in the C types of the fields, `uint64` and `int`. -/
def Vma.Fits (v : Vma) : Prop :=
  v.addr < 2 ^ 64 ∧ -2 ^ 31 ≤ v.length ∧ v.length < 2 ^ 31

instance (v : Vma) : Decidable v.Fits := inferInstanceAs (Decidable (_ ∧ _))

/-- The machine of `exit` and the one of the calls, before slot `i`. -/
structure Level (p i : Nat) (k k' : Kernel) : Prop where
  files : Files.Like Kmem.Same k.files k'.files
  pagetable : (k'.proc p).pagetable = (k.proc p).pagetable
  used : ∀ j, ((k'.proc p).vma j).used = ((k.proc p).vma j).used
  later : ∀ j, i ≤ j → (k'.proc p).vma j = (k.proc p).vma j
  done : ∀ j < i, ((k.proc p).vma j).used = false
  fits : ∀ j, i ≤ j → j < MAXMMAPITEM → ((k.proc p).vma j).Fits

variable {p i : Nat} {k k' ka kb : Kernel} {v : Vma}

theorem argint_ofNat (h : v.Fits) : argint (UInt64.ofNat (uint64 v.length)) = v.length := by
  obtain ⟨-, hlo, hhi⟩ := h
  unfold argint
  rw [UInt64.toNat_ofNat_of_lt' (uint64_lt _)]
  unfold int32 uint64 Int.bmod
  extract_lets r
  split <;> omega

/-- The files after a mapping is written back. -/
def writtenBack (pt : PageTable) (v : Vma) : FilesM Unit :=
  Act.when (v.flags = MAP_SHARED ∧ hasBit v.prot PROT_WRITE) do
    let _ ← filewrite pt v.vfile v.addr v.length

theorem wp_writeBack_run {pt : PageTable} {Q : Unit → Kernel → Prop}
    (h : ∀ s, writtenBack pt v k.files = .ok ((), s) → Q () { k with files := s }) :
    wp (writeBack pt v v.addr v.length) Q (fun _ => True) k := by
  unfold writeBack
  unfold writtenBack at h
  refine wp_when (fun hback => ?_) fun hback => ?_
  · rw [wp_bind, wp_onFiles]
    refine wp_post wp_run fun r s hs => wp_pure.mpr (h s ?_)
    rw [Act.when, if_pos hback, bind_ok hs]
    rfl
  · refine h k.files ?_
    rw [Act.when, if_neg hback]
    rfl

theorem ends_exitVma_used (hv : (k.proc p).vma i = v) (hused : v.used = true) :
    Ends (exitVma p i) (fun ka => ∃ s s1 pt m,
      writtenBack (k.proc p).pagetable v k.files = .ok ((), s) ∧
      fileclose v.vfile s = .ok ((), s1) ∧
      uvmunmap (k.proc p).pagetable v.addr (uint64 (v.length.tdiv PGSIZE)) true s1.kmem =
        .ok (pt, m) ∧ ka.files = { s1 with kmem := m } ∧ (ka.proc p).pagetable = pt ∧
      (ka.proc p).vma = update (k.proc p).vma i { v with used := false }) k := by
  subst hv
  unfold Ends exitVma
  rw [wp_bind, wp_get, wp_bind]
  refine wp_when (fun _ => ?_) fun hne => absurd hused hne
  rw [wp_bind]
  refine wp_writeBack_run fun s hback => ?_
  rw [wp_bind, wp_onFiles]
  refine wp_post wp_run fun _ s1 hclose => ?_
  rw [wp_bind, unmapPages, wp_onPagetable, wp_bind]
  refine wp_post wp_run fun pt m hunmap => ?_
  rw [wp_pure, wp_setProc, wp_setProc]
  refine ⟨s, s1, pt, m, hback, hclose, hunmap, rfl, ?_⟩
  simp only [update_self, and_self]

theorem ends_munmapVma_used (hv : (k.proc p).vma i = v) (hused : v.used = true) (hfits : v.Fits)
    (hslot : munmapSlot (k.proc p).vma v.addr v.length = some i) :
    Ends (munmapVma p i) (fun kb => ∃ s pt m,
      writtenBack (k.proc p).pagetable v k.files = .ok ((), s) ∧
      uvmunmap (k.proc p).pagetable v.addr (uint64 (v.length.tdiv PGSIZE)) true s.kmem =
        .ok (pt, m) ∧
      fileclose v.vfile { s with kmem := m } = .ok ((), kb.files) ∧ (kb.proc p).pagetable = pt ∧
      ∃ v', v'.used = false ∧ (kb.proc p).vma = update (k.proc p).vma i v') k := by
  have hhit : v.munmapHit v.addr v.length =
      some { v with addr := uint64 (v.addr + v.length), length := 0 } := by
    rw [Vma.munmapHit, if_pos ⟨hused, le_rfl⟩, if_pos rfl, Int.sub_self,
      int32_of_bounds (x := 0) (by decide) (by decide)]
  unfold Ends munmapVma sysMunmap
  rw [wp_bind, wp_get, hv]
  refine wp_when (fun _ => ?_) fun hne => absurd hused hne
  rw [wp_bind, wp_bind, wp_get, argint_ofNat hfits, argaddr, UInt64.toNat_ofNat_of_lt' hfits.1]
  dsimp only
  rw [hslot]
  dsimp only
  rw [hv, hhit, Option.getD_some, wp_bind, wp_setProc, wp_bind]
  change wp (writeBack _ v v.addr v.length) _ _ _
  refine wp_writeBack_run fun s hback => ?_
  rw [wp_bind, unmapPages, wp_onPagetable, wp_bind]
  refine wp_post wp_run fun pt m hunmap => ?_
  rw [wp_pure, wp_bind]
  refine wp_when (fun _ => ?_) fun hne => absurd rfl hne
  rw [wp_bind, wp_onFiles]
  refine wp_post wp_run fun _ s1 hclose => ?_
  rw [wp_setProc, wp_pure, wp_pure]
  simp only [update_self, update_idem] at hunmap ⊢
  exact ⟨s, pt, m, hback, hunmap, hclose, rfl, _, rfl, rfl⟩

/-- With all slots before it free, a used slot is the one that the call for
its range hits. -/
theorem Level.hit (h : Level p i k k') (hi : i < MAXMMAPITEM)
    (hused : ((k.proc p).vma i).used = true) :
    munmapSlot (k'.proc p).vma ((k.proc p).vma i).addr ((k.proc p).vma i).length = some i := by
  unfold munmapSlot
  rw [List.find?_range_eq_some]
  refine ⟨?_, List.mem_range.mpr hi, fun j hj => ?_⟩
  · rw [h.later i le_rfl, Vma.munmapHit, if_pos ⟨hused, le_rfl⟩, if_pos rfl]
    rfl
  · have hfree := (h.used j).trans (h.done j hj)
    rw [Vma.munmapHit, if_neg fun hhit => absurd (hfree.symm.trans hhit.1) (by decide)]
    rfl

/-- The slot is free on both sides. -/
theorem Level.next {v' : Vma} (h : Level p i k k') (hfiles : Files.Like Kmem.Same ka.files kb.files)
    (hpagetable : (kb.proc p).pagetable = (ka.proc p).pagetable)
    (hvma : (ka.proc p).vma = update (k.proc p).vma i v)
    (hvma' : (kb.proc p).vma = update (k'.proc p).vma i v') (hused : v.used = false)
    (hused' : v'.used = false) : Level p (i + 1) ka kb := by
  refine ⟨hfiles, hpagetable, fun j => ?_, fun j hj => ?_, fun j hj => ?_, fun j hj hlt => ?_⟩
  · rw [hvma, hvma']
    by_cases hji : j = i
    · rw [hji, update_self, update_self, hused, hused']
    · rw [update_of_ne hji, update_of_ne hji, h.used j]
  · rw [hvma, hvma', update_of_ne (by omega), update_of_ne (by omega), h.later j (by omega)]
  · rw [hvma]
    by_cases hji : j = i
    · rw [hji, update_self, hused]
    · rw [update_of_ne hji, h.done j (by omega)]
  · rw [hvma, update_of_ne (by omega)]
    exact h.fits j (by omega) hlt

theorem Level.round (h : Level p i k k') (hi : i < MAXMMAPITEM) (hexit : exitVma p i k = .ok ((), ka))
    (hmunmap : munmapVma p i k' = .ok ((), kb)) : Level p (i + 1) ka kb := by
  have hv := h.later i le_rfl
  cases hused : ((k.proc p).vma i).used with
  | true =>
    obtain ⟨s, s1, pt, m, hback, hclose, hunmap, hfiles, hpt, hvma⟩ :=
      wp_ok (ends_exitVma_used rfl hused) hexit
    obtain ⟨s', pt', m', hback', hunmap', hclose', hpt', v', hv', hvma'⟩ :=
      wp_ok (ends_munmapVma_used hv hused (h.fits i le_rfl hi) (h.hit hi hused)) hmunmap
    rw [h.pagetable] at hback' hunmap'
    have hwrite : Twin (Files.Like Kmem.Same) (writtenBack (k.proc p).pagetable ((k.proc p).vma i))
        (writtenBack (k.proc p).pagetable ((k.proc p).vma i)) :=
      .when (.bind (twin_filewrite fun _ _ _ hm _ _ => by rw [hm.mem]) fun _ => .pure)
    obtain ⟨rfl, hlike⟩ := close_unmap (hwrite.ok h.files hback hback').2 hclose hunmap hunmap' hclose'
    rw [← hfiles] at hlike
    exact h.next hlike (hpt'.trans hpt.symm) hvma hvma' rfl hv'
  | false =>
    have hunused : ¬((k.proc p).vma i).used = true := by simp [hused]
    have hsame : Ends (exitVma p i) (fun ka => ka.files = k.files ∧
        (ka.proc p).pagetable = (k.proc p).pagetable ∧ (ka.proc p).vma = (k.proc p).vma) k := by
      unfold Ends exitVma
      rw [wp_bind, wp_get, wp_bind]
      refine wp_when (fun hused => absurd hused hunused) fun _ => ?_
      rw [wp_setProc]
      simp only [update_self, and_self]
    obtain ⟨hfiles, hpt, hvma⟩ := wp_ok hsame hexit
    have hstay : Ends (munmapVma p i) (fun kb => kb = k') k' := by
      unfold Ends munmapVma
      rw [wp_bind, wp_get, hv]
      exact wp_when (fun hused => absurd hused hunused) fun _ => rfl
    have hkb := wp_ok hstay hmunmap
    subst hkb
    refine h.next (by rw [hfiles]; exact h.files) (h.pagetable.trans hpt.symm)
      (hvma.trans (update_eq_self i _).symm) (update_eq_self i _).symm hused ?_
    rw [hv, hused]

theorem Level.loop {n : Nat} (h : Level p i k k') (hn : i + n = MAXMMAPITEM)
    (hexit : Act.iter (fun i _ => exitVma p i) n i () k = .ok ((), ka))
    (hmunmap : Act.iter (fun i _ => munmapVma p i) n i () k' = .ok ((), kb)) :
    Level p MAXMMAPITEM ka kb := by
  induction n generalizing i k k' with
  | zero =>
    cases hexit
    cases hmunmap
    rwa [← hn]
  | succ n ih =>
    obtain ⟨_, k1, h1, hexit⟩ := ok_of_bind hexit
    obtain ⟨_, k1', h1', hmunmap⟩ := ok_of_bind hmunmap
    exact ih (h.round (by omega) h1 h1') (by omega) hexit hmunmap

/-- The loop of `exit` leaves the files, their contents, offsets and counts,
the page table and the used slots as the calls of `sys_munmap` would. -/
theorem exit_unmaps_as_munmap (hfits : ∀ j < MAXMMAPITEM, ((k.proc p).vma j).Fits)
    (hexit : exitVmas p k = .ok ((), ka)) (hmunmap : munmapVmas p k = .ok ((), kb)) :
    kb.files.file = ka.files.file ∧ kb.files.pipe = ka.files.pipe ∧
      kb.files.inode = ka.files.inode ∧ kb.files.dinode = ka.files.dinode ∧
      kb.files.kmem.mem = ka.files.kmem.mem ∧
      (∀ j, ((kb.proc p).vma j).used = ((ka.proc p).vma j).used) ∧
      (kb.proc p).pagetable = (ka.proc p).pagetable := by
  have hstart : Level p 0 k k :=
    ⟨⟨⟨rfl, rfl⟩, rfl, rfl, rfl, rfl⟩, rfl, fun _ => rfl, fun _ _ => rfl, by simp,
      fun j _ hj => hfits j hj⟩
  have hend := hstart.loop (Nat.zero_add _) hexit hmunmap
  exact ⟨hend.files.file, hend.files.pipe, hend.files.inode, hend.files.dinode,
    hend.files.kmem.mem, hend.used, hend.pagetable⟩

/-- A shared mapping with a page that was written to. -/
theorem exit_unmaps_as_munmap_shared :
    ∃ k ka kb : Kernel, ((k.proc 0).vma 0).used = true ∧ exitVmas 0 k = .ok ((), ka) ∧
      munmapVmas 0 k = .ok ((), kb) ∧ kb.files.dinode = ka.files.dinode := by
  obtain ⟨_, k, _, _, hfact⟩ := smallMachine_anyRun
    [(0, .openFile (some 2) 2), (0, .mmap 0 8192 3 1 0 0), (0, .store 0x1000 0x1000 7)]
    (fun k => decide (((k.proc 0).vma 0).used = true ∧
        ∀ j < MAXMMAPITEM, ((k.proc 0).vma j).Fits) &&
      (exitVmas 0 k).toOption.any fun _ => (munmapVmas 0 k).toOption.any fun _ => true)
    (by decide +kernel)
  rw [Bool.and_eq_true, decide_eq_true_eq] at hfact
  obtain ⟨⟨hused, hfits⟩, hret⟩ := hfact
  obtain ⟨ra, hexit, hret⟩ := Act.ok_of_any hret
  obtain ⟨rb, hmunmap, -⟩ := Act.ok_of_any hret
  have hsame := exit_unmaps_as_munmap hfits hexit hmunmap
  exact ⟨k, ra.2, rb.2, hused, hexit, hmunmap, hsame.2.2.2.1⟩

end Xv6.Sys
