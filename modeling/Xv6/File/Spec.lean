import Xv6.File.Model

/-!
# What the file operations do to the tables

Reading and writing a file moves its offset and changes contents, on disk or
in user memory. It leaves the tables as they are: which files are open on
what, the reference counts, the pipes and the free list. This is `Quiet`.
The operations that do change the tables, `filedup`, `fileclose` and
`filealloc`, have a rule each.
-/

namespace Xv6.Sys

open Xv6.Lib Xv6.Lib.CInt Xv6.Vm Function
open Act

variable {s s' : Files} {i f addr : Nat} {ip : Option Nat} {Q : Unit → Files → Prop}
  {pt : PageTable}

/-- A file without its offset. -/
def File.handle (file : File) : File := { file with off := 0 }

/-- Only offsets, contents and the copies of inodes in memory differ. -/
structure Files.Quiet (s s' : Files) : Prop where
  handle : ∀ f, (s'.file f).handle = (s.file f).handle
  pipe : s'.pipe = s.pipe
  inum : ∀ i, (s'.inode i).inum = (s.inode i).inum
  ref : ∀ i, (s'.inode i).ref = (s.inode i).ref
  valid : ∀ i, (s.inode i).valid = true → (s'.inode i).valid = true
  kmem : ∃ mem, s'.kmem = { s.kmem with mem := mem }

theorem Files.Quiet.refl (s : Files) : s.Quiet s :=
  ⟨fun _ => rfl, rfl, fun _ => rfl, fun _ => rfl, fun _ h => h, ⟨s.kmem.mem, rfl⟩⟩

theorem Files.Quiet.trans {s'' : Files} (h : s.Quiet s') (h' : s'.Quiet s'') : s.Quiet s'' where
  handle f := (h'.handle f).trans (h.handle f)
  pipe := h'.pipe.trans h.pipe
  inum i := (h'.inum i).trans (h.inum i)
  ref i := (h'.ref i).trans (h.ref i)
  valid i hi := h'.valid i (h.valid i hi)
  kmem := by
    obtain ⟨mem, hmem⟩ := h.kmem
    obtain ⟨mem', hmem'⟩ := h'.kmem
    exact ⟨mem', by rw [hmem', hmem]⟩

theorem Files.Quiet.fileRef (h : s.Quiet s') (f : Nat) : (s'.file f).ref = (s.file f).ref := by
  have hhandle := congrArg File.ref (h.handle f)
  exact hhandle

/-! ## The inode cache -/

/-- Everything but the inode cache. -/
def Files.uncached (s : Files) : Files := { s with inode := fun _ => {} }

theorem Files.eq_of_uncached (h : s'.uncached = s.uncached) :
    s'.kmem = s.kmem ∧ s'.file = s.file ∧ s'.pipe = s.pipe ∧ s'.dinode = s.dinode := by
  simp only [Files.uncached, Files.mk.injEq] at h
  exact ⟨h.1, h.2.1, h.2.2.1, h.2.2.2.2⟩

theorem keeps_iget {inum : Nat} : Keeps Files.uncached (iget inum) := by
  refine .bind .get fun s => ?_
  split
  · exact .bind (.modify fun _ => rfl) fun _ => .pure
  · split
    · exact .panic
    · exact .bind (.modify fun _ => rfl) fun _ => .pure

theorem keeps_idup : Keeps Files.uncached (idup i) := .modify fun _ => rfl

theorem keeps_ilock : Keeps Files.uncached (ilock ip) := by
  unfold ilock
  split
  · exact .panic
  · refine .bind .get fun s => .ite .panic (.ite .pure ?_)
    exact .ite .panic (.modify fun _ => rfl)

theorem keeps_iput : Keeps Files.uncached (iput i) := .modify fun _ => rfl

/-! ## Reading, writing, opening and closing -/

section rules

variable {E : Panic → Prop}

theorem wp_onKmem {α : Type} {m : KmemM α} {Q : α → Files → Prop} :
    wp (onKmem m) Q E s ↔ wp m (fun a k => Q a { s with kmem := k }) E s.kmem :=
  wp_within

theorem wp_setFile {file : File} :
    wp (setFile f file) Q E s ↔ Q () { s with file := update s.file f file } :=
  wp_modify

/-! ## Quiet operations -/

theorem Files.Quiet.setOff {o : Nat} :
    s.Quiet { s with file := update s.file f { s.file f with off := o } } where
  handle g := by
    by_cases hg : g = f
    · subst hg
      simp only [update_self]
      rfl
    · simp only [update_of_ne hg]
  pipe := rfl
  inum _ := rfl
  ref _ := rfl
  valid _ h := h
  kmem := ⟨s.kmem.mem, rfl⟩

theorem Files.Quiet.setMem {mem : Nat → Bytes} : s.Quiet { s with kmem.mem := mem } :=
  ⟨fun _ => rfl, rfl, fun _ => rfl, fun _ => rfl, fun _ h => h, ⟨mem, rfl⟩⟩

theorem Files.Quiet.setDinode {d : Nat → DInode} : s.Quiet { s with dinode := d } :=
  ⟨fun _ => rfl, rfl, fun _ => rfl, fun _ => rfl, fun _ h => h, ⟨s.kmem.mem, rfl⟩⟩

theorem Files.Quiet.setValid :
    s.Quiet { s with inode := update s.inode i { s.inode i with valid := true } } := by
  have hslot : ∀ j, update s.inode i { s.inode i with valid := true } j = s.inode j ∨
      update s.inode i { s.inode i with valid := true } j =
        { s.inode j with valid := true } := by
    intro j
    by_cases hj : j = i
    · subst hj
      exact .inr (update_self ..)
    · exact .inl (update_of_ne hj ..)
  refine ⟨fun _ => rfl, rfl, fun j => ?_, fun j => ?_, fun j hvalid => ?_, ⟨s.kmem.mem, rfl⟩⟩
  · have hinum : ∀ v : Inode, v = s.inode j ∨ v = { s.inode j with valid := true } →
        v.inum = (s.inode j).inum := by rintro v (rfl | rfl) <;> rfl
    exact hinum _ (hslot j)
  · have href : ∀ v : Inode, v = s.inode j ∨ v = { s.inode j with valid := true } →
        v.ref = (s.inode j).ref := by rintro v (rfl | rfl) <;> rfl
    exact href _ (hslot j)
  · rcases hslot j with h | h
    · exact (congrArg Inode.valid h).trans hvalid
    · exact congrArg Inode.valid h

/-- `ilock` does not panic. -/
def Files.canLock (s : Files) : Option Nat → Bool
  | none => false
  | some i => 1 ≤ (s.inode i).ref &&
    ((s.inode i).valid || (s.dinode (s.inode i).inum).type ≠ .free)

/-- Locking an inode marks its copy in memory valid, which makes no difference to
what can be locked. It panics when nobody refers to the inode or when it is free
on disk. -/
theorem wp_ilock {P : Prop} (hpanic : s.canLock ip = false → P)
    (hok : s.canLock ip = true → ∀ inode, s.Quiet { s with inode := inode } →
      (∀ jp, Files.canLock { s with inode := inode } jp = s.canLock jp) →
      (∀ i, ip = some i → (inode i).valid = true) → Q () { s with inode := inode }) :
    wp (ilock ip) Q (fun _ => P) s := by
  unfold ilock
  split
  · exact wp_panic.mpr (hpanic rfl)
  rename_i i
  rw [wp_bind, wp_get]
  refine wp_ite (fun hlow => wp_panic.mpr (hpanic ?_)) fun href => ?_
  · have hnot : ¬1 ≤ (s.inode i).ref := by omega
    simp only [Files.canLock, hnot, decide_false, Bool.false_and]
  have href' : 1 ≤ (s.inode i).ref := by omega
  refine wp_ite (fun hvalid => wp_pure.mpr (hok ?_ s.inode (.refl s) (fun _ => rfl) ?_)) fun hvalid => ?_
  · simp only [Files.canLock, href', hvalid, decide_true, Bool.true_or, Bool.and_self]
  · intro j hj
    cases hj
    exact hvalid
  rw [Bool.not_eq_true] at hvalid
  refine wp_ite (fun hfree => wp_panic.mpr (hpanic ?_)) fun hfree =>
    wp_modify.mpr (hok ?_ _ .setValid (fun jp => ?_) ?_)
  · simp only [Files.canLock, hvalid, hfree, ne_eq, not_true_eq_false, decide_false, Bool.or_self,
      Bool.and_false]
  · simp only [Files.canLock, href', hvalid, hfree, ne_eq, not_false_eq_true, decide_true,
      Bool.or_true, Bool.and_self]
  · cases jp with
    | none => rfl
    | some j =>
      by_cases hj : j = i
      · subst hj
        simp [Files.canLock, hfree]
      · simp [Files.canLock, update_of_ne hj]
  · intro j hj
    cases hj
    rw [update_self]

theorem wp_ilock_exact :
    wp (ilock ip) (fun _ s' => s.canLock ip = true ∧ ∃ inode, s' = { s with inode := inode } ∧
      (∀ jp, s'.canLock jp = s.canLock jp) ∧ ∀ i, (s'.inode i).inum = (s.inode i).inum)
      (fun _ => s.canLock ip = false) s :=
  wp_ilock id fun hcan inode hquiet hlock _ => ⟨hcan, inode, rfl, hlock, hquiet.inum⟩

theorem wp_ilock_quiet (hok : ∀ inode, s.Quiet { s with inode := inode } →
      (∀ i, ip = some i → (inode i).valid = true) → Q () { s with inode := inode }) :
    wp (ilock ip) Q (fun _ => True) s :=
  wp_ilock (fun _ => trivial) fun _ inode hquiet _ => hok inode hquiet

theorem wp_filewriteChunk {n : Nat} : Ends (filewriteChunk pt f addr n i) s.Quiet s := by
  unfold Ends filewriteChunk
  rw [wp_bind, wp_get]
  extract_lets file inum
  rw [wp_bind]
  refine wp_ilock_quiet fun inode hlock _ => ?_
  split
  rw [wp_bind, wp_modify, wp_bind]
  refine wp_when (fun _ => ?_) fun _ => ?_
  · rw [wp_setFile]
    have hwrite := fun dinode off =>
      (hlock.trans (.setDinode (d := dinode))).trans (.setOff (f := f) (o := off))
    exact wp_ite (fun _ => wp_pure.mpr (hwrite _ _)) fun _ => wp_pure.mpr (hwrite _ _)
  · have hwrite := fun dinode => hlock.trans (.setDinode (d := dinode))
    exact wp_ite (fun _ => wp_pure.mpr (hwrite _)) fun _ => wp_pure.mpr (hwrite _)

theorem wp_filewrite {n : Int} : Ends (filewrite pt f addr n) s.Quiet s := by
  unfold Ends filewrite
  rw [wp_bind, wp_get]
  extract_lets file rounds
  refine wp_ite (fun _ => wp_pure.mpr (.refl s)) fun _ => ?_
  split
  · exact wp_pure.mpr (.refl s)
  · exact wp_ite (fun _ => wp_pure.mpr (.refl s)) fun _ => wp_pure.mpr (.refl s)
  · rw [wp_bind]
    refine wp_loop (fun _ _ s' => s.Quiet s') (.refl s) ?_ ?_
    · intro j a s' _ _ hs'
      refine wp_post wp_filewriteChunk fun r s'' hs'' => ?_
      cases r with
      | inl a' => exact hs'.trans hs''
      | inr b => exact wp_pure.mpr (hs'.trans hs'')
    · intro a s' hs'
      exact wp_pure.mpr hs'
  · exact wp_panic.mpr trivial

theorem wp_fileread {n : Int} {input : List UInt8} :
    Ends (fileread pt f addr n input) s.Quiet s := by
  unfold Ends fileread
  rw [wp_bind, wp_get]
  extract_lets file fromInput ip
  have hinput : Ends fromInput s.Quiet s := by
    unfold Ends fromInput
    split
    rw [wp_bind, wp_onKmem, wp_modify, wp_pure]
    exact .setMem
  refine wp_ite (fun _ => wp_pure.mpr (.refl s)) fun _ => ?_
  split
  · exact hinput
  · exact wp_ite (fun _ => wp_pure.mpr (.refl s)) fun _ => hinput
  · rw [wp_bind]
    refine wp_ilock_quiet fun inode hlock _ => ?_
    split
    rw [wp_bind, wp_onKmem, wp_modify, wp_bind]
    refine wp_when (fun _ => ?_) fun _ => ?_
    · rw [wp_setFile, wp_pure]
      exact (hlock.trans .setMem).trans .setOff
    · exact wp_pure.mpr (hlock.trans .setMem)
  · exact wp_panic.mpr trivial

/-! ## References to files -/

theorem wp_filedup (hpanic : (s.file f).ref < 1 → E .filedup)
    (hok : 1 ≤ (s.file f).ref → Q () { s with
      file := update s.file f { s.file f with ref := (s.file f).ref + 1 } }) :
    wp (filedup f) Q E s := by
  unfold filedup
  rw [wp_bind, wp_get]
  refine wp_ite (fun h => wp_panic.mpr (hpanic h)) fun h => ?_
  rw [wp_setFile]
  exact hok (by omega)

/-- Closing a file that has other references only drops one. -/
theorem wp_fileclose (hpanic : (s.file f).ref < 1 → E .fileclose)
    (hdup : 1 < (s.file f).ref → Q () { s with
      file := update s.file f { s.file f with ref := (s.file f).ref - 1 } })
    (hlast : (s.file f).ref = 1 → wp (fileRelease (s.file f)) Q E { s with
      file := update s.file f { s.file f with ref := 0, type := .none } }) :
    wp (fileclose f) Q E s := by
  unfold fileclose
  rw [wp_bind, wp_get]
  extract_lets ff
  refine wp_ite (fun h => wp_panic.mpr (hpanic h)) fun h => ?_
  refine wp_ite (fun h' => wp_setFile.mpr (hdup ?_)) fun h' => ?_
  · show 1 < ff.ref
    omega
  · rw [wp_bind, wp_setFile]
    refine hlast ?_
    show ff.ref = 1
    omega

theorem wp_filealloc {Q : Option Nat → Files → Prop} (hnone : Q none s)
    (hsome : ∀ f < NFILE, (s.file f).ref = 0 → Q (some f) { s with
      file := update s.file f { s.file f with ref := 1 } }) :
    wp filealloc Q E s := by
  unfold filealloc
  rw [wp_bind, wp_get]
  split
  · exact wp_pure.mpr hnone
  · rename_i f hfind
    rw [wp_bind, wp_setFile, wp_pure]
    refine hsome f (List.mem_range.mp (List.mem_of_find?_eq_some hfind)) ?_
    simpa using List.find?_some hfind

theorem keeps_fileRelease {ff : File} : Keeps Files.file (fileRelease ff) := by
  unfold fileRelease
  split
  · refine .bind .get fun s => .bind (.modify fun _ => rfl) fun _ => ?_
    exact .when (.within fun _ _ => rfl)
  · exact .modify fun _ => rfl
  · exact .modify fun _ => rfl
  · exact .pure

/-- Closing a file drops one reference of it and none of another. -/
theorem wp_fileclose_ref :
    wp (fileclose f) (fun _ s' => ∀ g, (s'.file g).ref = (s.file g).ref - if g = f then 1 else 0)
      (fun _ => True) s := by
  have hupdate : ∀ (file : File), file.ref = (s.file f).ref - 1 → ∀ g,
      (update s.file f file g).ref = (s.file g).ref - if g = f then 1 else 0 := by
    intro file hfile g
    by_cases hg : g = f
    · subst hg
      rw [update_self, hfile, if_pos rfl]
    · rw [update_of_ne hg, if_neg hg, Int.sub_zero]
  refine wp_fileclose (fun _ => trivial) (fun _ => hupdate _ rfl) fun hone => ?_
  refine keeps_fileRelease.wp fun _ s' hs' g => ?_
  rw [hs']
  exact hupdate _ (by rw [hone]; rfl) g

end rules

end Xv6.Sys
