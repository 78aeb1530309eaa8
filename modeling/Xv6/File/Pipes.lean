import Xv6.Lib.Sum
import Xv6.Vm.Balance
import Xv6.File.Spec

/-!
# Pipes and their pages

A pipe is a page with two ends, each of which is open exactly while there is a
file for it, and the page is free again when both are closed. `PipesOk` says
how the file table and the pipes agree, and `Files.loose` counts where a page
is that belongs to no process: on the free list, or in an open pipe. The
operations on files keep both.
-/

namespace Xv6.Sys

open Xv6.Lib Xv6.Lib.CInt Xv6.Vm Function
open Act

variable {s' : Files} {file : File} {f : Nat} {p : Pipe}

/-- One end of a pipe is open. -/
def Pipe.isOpen (p : Pipe) (writable : Bool) : Bool := if writable then p.writeopen else p.readopen

/-- The pipe whose end a file is, if it is one. -/
def File.pipeEnd (writable : Bool) (file : File) : Option Nat :=
  if file.type = .pipe ∧ file.writable = writable then some file.pipe else none

/-- The number of files for one end of a pipe. -/
def Files.ends (s : Files) (writable : Bool) (pa : Nat) : Int :=
  tally NFILE (fun f => (s.file f).pipeEnd writable) pa

/-- Each end of a pipe is open exactly while there is a file for it, and then
there is one. -/
structure Files.PipesOk (s : Files) : Prop where
  table : ∀ f, (s.file f).type = .pipe → f < NFILE
  closed : ∀ f, (s.file f).ref = 0 → (s.file f).type ≠ .pipe
  ends : ∀ writable pa, s.ends writable pa = if (s.pipe pa).isOpen writable then 1 else 0

/-- Whether the page of a pipe is in use. -/
def Pipe.count (p : Pipe) : Nat := if p.readopen || p.writeopen then 1 else 0

/-- How often a page is on the free list or an open pipe. -/
def Files.loose (s : Files) (pa : Nat) : Nat := s.kmem.freelist.count pa + (s.pipe pa).count

/-- What every operation on files keeps. -/
structure Files.Holds (s s' : Files) : Prop extends s.kmem.Keeps s'.kmem where
  pipes : s'.PipesOk
  loose : ∀ pa, s'.loose pa = s.loose pa

theorem Files.Holds.refl {s : Files} (h : s.PipesOk) : s.Holds s := ⟨.refl _, h, fun _ => rfl⟩

theorem Files.Holds.trans {s s'' : Files} (h : s.Holds s') (h' : s'.Holds s'') : s.Holds s'' :=
  ⟨h.toKeeps.trans h'.toKeeps, h'.pipes, fun pa => (h'.loose pa).trans (h.loose pa)⟩

/-! ## The file table -/

section table

variable {s : Files}

theorem File.pipeEnd_none (h : file.type ≠ .pipe) (writable : Bool) :
    file.pipeEnd writable = none :=
  if_neg fun hc => h hc.1

theorem File.pipeEnd_self (h : file.type = .pipe) : file.pipeEnd file.writable = some file.pipe :=
  if_pos ⟨h, rfl⟩

/-- Only what a file says about pipes matters, and whether it is open. -/
theorem Files.PipesOk.congr (h : s.PipesOk) (htype : ∀ f, (s'.file f).type = (s.file f).type)
    (hend : ∀ f w, (s'.file f).pipeEnd w = (s.file f).pipeEnd w)
    (href : ∀ f, (s'.file f).ref = 0 → (s.file f).type ≠ .pipe) (hpipe : s'.pipe = s.pipe) :
    s'.PipesOk where
  table f hf := h.table f (htype f ▸ hf)
  closed f hf := by
    rw [htype]
    exact href f hf
  ends w pa := by
    rw [hpipe, ← h.ends w pa]
    exact tally_congr (fun f _ => hend f w) pa

theorem Files.PipesOk.setFile (h : s.PipesOk) (hold : (s.file f).type ≠ .pipe)
    (hnew : file.type ≠ .pipe) : Files.PipesOk { s with file := update s.file f file } := by
  have hupd : ∀ g, update s.file f file g = if g = f then file else s.file g := by
    intro g
    exact update_apply ..
  refine ⟨fun g hg => ?_, fun g hg => ?_, fun w pa => ?_⟩
  · simp only [hupd] at hg
    split at hg
    · exact absurd hg hnew
    · exact h.table g hg
  · simp only [hupd] at hg ⊢
    split
    · exact hnew
    · rename_i hgf
      rw [if_neg hgf] at hg
      exact h.closed g hg
  · rw [← h.ends w pa]
    refine tally_congr (fun g _ => ?_) pa
    simp only [hupd]
    split
    · rename_i hgf
      rw [File.pipeEnd_none hnew, hgf, File.pipeEnd_none hold]
    · rfl

theorem Files.PipesOk.setRef {r : Int} (h : s.PipesOk) (hr : r = 0 → (s.file f).type ≠ .pipe) :
    Files.PipesOk { s with file := update s.file f { s.file f with ref := r } } := by
  refine h.congr (fun g => ?_) (fun g w => ?_) (fun g hg => ?_) rfl
  · by_cases hgf : g = f
    · subst hgf
      simp only [update_self]
    · simp only [update_of_ne hgf]
  · by_cases hgf : g = f
    · subst hgf
      simp only [update_self, File.pipeEnd]
    · simp only [update_of_ne hgf]
  · by_cases hgf : g = f
    · subst hgf
      simp only [update_self] at hg
      exact hr hg
    · simp only [update_of_ne hgf] at hg
      exact h.closed g hg

/-- Reading and writing leave pipes and pages alone. -/
theorem Files.Holds.of_quiet (h : s.PipesOk) (hq : s.Quiet s') : s.Holds s' := by
  obtain ⟨mem, hmem⟩ := hq.kmem
  have hbare : s'.kmem.bare = s.kmem.bare := by rw [hmem]; rfl
  have hpipe : ∀ f, (s'.file f).type = (s.file f).type := fun f => by
    have htype := congrArg File.type (hq.handle f)
    exact htype
  refine ⟨.of_bare hbare, h.congr hpipe (fun f w => ?_) (fun f hf => ?_) hq.pipe, fun pa => ?_⟩
  · have hend := congrArg (File.pipeEnd w) (hq.handle f)
    exact hend
  · rw [hq.fileRef] at hf
    exact h.closed f hf
  · unfold Files.loose
    rw [hmem, hq.pipe]

theorem Files.Holds.of_uncached (h : s.PipesOk) (heq : s'.uncached = s.uncached) : s.Holds s' := by
  obtain ⟨hkmem, hfile, hpipe, _⟩ := Files.eq_of_uncached heq
  refine ⟨?_, h.congr (fun f => ?_) (fun f w => ?_) (fun f hf => ?_) hpipe, fun pa => ?_⟩
  · rw [hkmem]
    exact .refl _
  · rw [hfile]
  · rw [hfile]
  · rw [hfile] at hf
    exact h.closed f hf
  · unfold Files.loose
    rw [hkmem, hpipe]

theorem ends_setFile (hf : f < NFILE) (hfile : s'.file = update s.file f file)
    (writable : Bool) (pa : Nat) :
    s'.ends writable pa = s.ends writable pa - token ((s.file f).pipeEnd writable) pa +
      token (file.pipeEnd writable) pa := by
  unfold Files.ends
  rw [tally_change hf (fun g => (s.file g).pipeEnd writable) _ fun g hg => ?_]
  · simp only [hfile, update_self]
  · simp only [hfile, update_of_ne hg]

end table

/-! ## Closing -/

section close

variable {s : Files}

theorem Pipe.isOpen_close (p : Pipe) (w w' : Bool) :
    (if w then { p with writeopen := false } else { p with readopen := false } : Pipe).isOpen w' =
      (p.isOpen w' && w' != w) := by
  cases w <;> cases w' <;> simp [Pipe.isOpen]

theorem Pipe.count_of_isOpen {w : Bool} (h : p.isOpen w = true) : p.count = 1 := by
  unfold Pipe.isOpen at h
  unfold Pipe.count
  cases w <;> simp_all

/-- A file that is the end of a pipe keeps it open. -/
theorem Files.PipesOk.isOpen (h : s.PipesOk) (htype : (s.file f).type = .pipe) :
    (s.pipe (s.file f).pipe).isOpen (s.file f).writable = true ∧
      s.ends (s.file f).writable (s.file f).pipe = 1 := by
  have hone : 1 ≤ s.ends (s.file f).writable (s.file f).pipe :=
    one_le_tally (h.table f htype) (File.pipeEnd_self htype)
  have hends := h.ends (s.file f).writable (s.file f).pipe
  split at hends
  · exact ⟨‹_›, hends⟩
  · omega

/-- The last reference to one end of a pipe goes. -/
theorem Files.PipesOk.closeEnd (h : s.PipesOk) (htype : (s.file f).type = .pipe)
    (hfile : file.type = .none) {m : Kmem}
    (hp : ∀ w, p.isOpen w = ((s.pipe (s.file f).pipe).isOpen w && w != (s.file f).writable)) :
    Files.PipesOk { s with
      kmem := m
      file := update s.file f file
      pipe := update s.pipe (s.file f).pipe p } where
  table g hg := by
    by_cases hgf : g = f
    · subst hgf
      exact h.table g htype
    · simp only [update_of_ne hgf] at hg
      exact h.table g hg
  closed g hg := by
    by_cases hgf : g = f
    · subst hgf
      simp only [update_self, hfile]
      decide
    · simp only [update_of_ne hgf] at hg ⊢
      exact h.closed g hg
  ends w pa := by
    have hnew : file.pipeEnd w = none := File.pipeEnd_none (by rw [hfile]; decide) w
    rw [ends_setFile (h.table f htype) rfl w pa, hnew, token_none, Pi.zero_apply, h.ends w pa]
    by_cases hpa : pa = (s.file f).pipe
    · subst hpa
      simp only [update_self, hp]
      by_cases hw : w = (s.file f).writable
      · subst hw
        rw [File.pipeEnd_self htype, token_self, (h.isOpen htype).1]
        simp
      · rw [show (s.file f).pipeEnd w = none from if_neg fun hc => hw hc.2.symm, token_none]
        simp [hw]
    · simp only [update_of_ne hpa]
      have hother : token ((s.file f).pipeEnd w) pa = 0 := by
        unfold File.pipeEnd
        split
        · exact if_neg fun hc => hpa (Option.some.inj hc).symm
        · rw [token_none]
          rfl
      rw [hother]
      omega

theorem fileRelease_pipe {ff : File} (h : ff.type = .pipe) :
    fileRelease ff = pipeclose ff.pipe ff.writable := by
  unfold fileRelease
  rw [h]

theorem keeps_fileRelease_other {ff : File} (h : ff.type ≠ .pipe) :
    Keeps Files.uncached (fileRelease ff) := by
  unfold fileRelease
  split
  · exact absurd ‹_› h
  · exact keeps_iput
  · exact keeps_iput
  · exact .pure

/-- `fileRelease` after the last reference to the file is gone. -/
theorem wp_fileRelease_holds (h : s.PipesOk) (hfile : file.type = .none) :
    wp (fileRelease (s.file f)) (fun _ s' => s.Holds s') (fun _ => True)
      { s with file := update s.file f file } := by
  by_cases htype : (s.file f).type = .pipe
  · rw [fileRelease_pipe htype]
    unfold pipeclose
    rw [wp_bind, wp_get]
    extract_lets old p
    rw [wp_bind, wp_modify]
    have hp : ∀ w, p.isOpen w =
        ((s.pipe (s.file f).pipe).isOpen w && w != (s.file f).writable) :=
      Pipe.isOpen_close (s.pipe (s.file f).pipe) (s.file f).writable
    have hcount := Pipe.count_of_isOpen (h.isOpen htype).1
    clear_value p
    refine wp_when (fun hboth => ?_) fun hopen => ?_
    · rw [wp_onKmem]
      refine wp_kfree trivial fun ha hb hc => ?_
      refine ⟨⟨rfl, rfl, fun hk => hk.cons ha hb hc⟩, h.closeEnd htype hfile hp, fun pa => ?_⟩
      have hzero : p.count = 0 := by
        unfold Pipe.count
        simp only [Bool.and_eq_true, Bool.not_eq_true'] at hboth
        simp [hboth]
      unfold Files.loose
      by_cases hpa : pa = (s.file f).pipe
      · subst hpa
        simp only [update_self, List.count_cons_self, hcount, hzero]
      · simp only [update_of_ne hpa, List.count_cons_of_ne (Ne.symm hpa)]
    · refine ⟨.refl _, h.closeEnd htype hfile hp, fun pa => ?_⟩
      have hone : p.count = 1 := by
        unfold Pipe.count
        simp only [Bool.and_eq_true, Bool.not_eq_true', not_and] at hopen
        cases hr : p.readopen <;> simp_all
      unfold Files.loose
      by_cases hpa : pa = (s.file f).pipe
      · subst hpa
        simp only [update_self, hcount, hone]
      · simp only [update_of_ne hpa]
  · have hclosed : s.Holds { s with file := update s.file f file } :=
      ⟨.refl _, h.setFile htype (by rw [hfile]; decide), fun _ => rfl⟩
    refine (keeps_fileRelease_other htype).wp fun _ s' hs' => ?_
    exact hclosed.trans (.of_uncached hclosed.pipes hs')

theorem wp_fileclose_holds (h : s.PipesOk) : Ends (fileclose f) s.Holds s := by
  refine wp_fileclose (fun _ => trivial) (fun href => ?_) fun _ => wp_fileRelease_holds h rfl
  exact ⟨.refl _, h.setRef fun h0 => by omega, fun _ => rfl⟩

theorem wp_filedup_holds (h : s.PipesOk) : Ends (filedup f) s.Holds s :=
  wp_filedup (fun _ => trivial) fun href =>
    ⟨.refl _, h.setRef fun h0 => by omega, fun _ => rfl⟩

end close

/-! ## Opening -/

section opening

variable {s : Files}

theorem wp_filealloc_holds {Q : Option Nat → Files → Prop} (h : s.PipesOk) (hnone : Q none s)
    (hsome : ∀ f s', f < NFILE → (s'.file f).type ≠ .pipe → s'.pipe = s.pipe → s.Holds s' →
      (s.file f).ref = 0 ∧ s'.file = update s.file f { s.file f with ref := 1 } → Q (some f) s') :
    wp filealloc Q (fun _ => True) s := by
  refine wp_filealloc hnone fun f hf href => ?_
  have htype := h.closed f href
  refine hsome f _ hf ?_ rfl ⟨.refl _, h.setRef fun _ => htype, fun _ => rfl⟩ ⟨href, rfl⟩
  simp only [update_self]
  exact htype

/-- Two files become the ends of a pipe that was not in use. -/
theorem Files.PipesOk.newPipe (h : s.PipesOk) {f0 f1 pi : Nat} (hf0 : f0 < NFILE) (hf1 : f1 < NFILE)
    (hne : f1 ≠ f0) (htype0 : (s.file f0).type ≠ .pipe) (htype1 : (s.file f1).type ≠ .pipe)
    {file0 file1 : File} (href0 : file0.ref ≠ 0) (href1 : file1.ref ≠ 0)
    (hend0 : ∀ w, file0.pipeEnd w = if w then none else some pi)
    (hend1 : ∀ w, file1.pipeEnd w = if w then some pi else none)
    (hclosed : ∀ w, (s.pipe pi).isOpen w = false)
    (hfile : s'.file = update (update s.file f0 file0) f1 file1)
    (hpipe : s'.pipe = update s.pipe pi ⟨true, true⟩) : s'.PipesOk where
  table g hg := by
    by_cases hg1 : g = f1
    · exact hg1 ▸ hf1
    · by_cases hg0 : g = f0
      · exact hg0 ▸ hf0
      · rw [hfile, update_of_ne hg1, update_of_ne hg0] at hg
        exact h.table g hg
  closed g hg := by
    rw [hfile] at hg ⊢
    by_cases hg1 : g = f1
    · subst hg1
      rw [update_self] at hg
      exact absurd hg href1
    · rw [update_of_ne hg1] at hg ⊢
      by_cases hg0 : g = f0
      · subst hg0
        rw [update_self] at hg
        exact absurd hg href0
      · rw [update_of_ne hg0] at hg ⊢
        exact h.closed g hg
  ends w pa := by
    let s0 : Files := { s with file := update s.file f0 file0 }
    have hfile0 : s0.file = update s.file f0 file0 := rfl
    have hfile1 : s'.file = update s0.file f1 file1 := hfile
    have hends0 := ends_setFile hf0 hfile0 w pa
    have hends1 := ends_setFile hf1 hfile1 w pa
    have hs0 : (s0.file f1).pipeEnd w = none := by
      simp only [s0, update_of_ne hne]
      exact File.pipeEnd_none htype1 w
    rw [File.pipeEnd_none htype0, token_none, Pi.zero_apply, hend0] at hends0
    rw [hs0, token_none, Pi.zero_apply, hends0, hend1, h.ends w pa] at hends1
    rw [hends1, hpipe]
    by_cases hpa : pa = pi
    · subst hpa
      rw [update_self, hclosed w]
      cases w <;> simp [Pipe.isOpen, token_none, token_self]
    · rw [update_of_ne hpa]
      have hother : token (some pi) pa = 0 := if_neg fun hc => hpa (Option.some.inj hc).symm
      cases w <;> simp [token_none, hother]

theorem Pipe.isOpen_of_count (h : p.count = 0) (w : Bool) : p.isOpen w = false := by
  unfold Pipe.count at h
  unfold Pipe.isOpen
  cases w <;> cases hr : p.readopen <;> cases hw : p.writeopen <;> simp_all

/-- A new pipe takes its page from the free list. -/
theorem wp_pipealloc_holds (h : s.PipesOk) (honce : ∀ pa, s.loose pa ≤ 1) :
    Ends pipealloc s.Holds s := by
  unfold Ends pipealloc
  rw [wp_bind]
  refine wp_filealloc_holds h (wp_pure.mpr (.refl h)) fun f0 s0 hf0 htype0 hpipe0 hs0 hfile0 => ?_
  rw [wp_bind]
  refine wp_filealloc_holds hs0.pipes ?_ fun f1 s1 hf1 htype1 hpipe1 hs1 hfile1 => ?_
  · rw [wp_bind]
    exact wp_post (wp_fileclose_holds hs0.pipes) (fun _ s' hs' => wp_pure.mpr (hs0.trans hs'))
  have hs01 := hs0.trans hs1
  rw [wp_bind, wp_onKmem]
  refine wp_kalloc (fun _ => ?_) fun pi next hfree => ?_
  · rw [wp_bind]
    refine wp_post (wp_fileclose_holds hs01.pipes) fun _ s2 hs2 => ?_
    rw [wp_bind]
    exact wp_post (wp_fileclose_holds hs2.pipes)
      (fun _ s3 hs3 => wp_pure.mpr ((hs01.trans hs2).trans hs3))
  have hclosed : (s1.pipe pi).count = 0 := by
    have hle := honce pi
    rw [← hs01.loose pi, Files.loose, hfree, List.count_cons_self] at hle
    omega
  rw [wp_bind, wp_modify, wp_bind, wp_get, wp_bind, wp_setFile, wp_bind, wp_get, wp_bind,
    wp_setFile, wp_pure]
  have hne : f1 ≠ f0 := by
    rintro rfl
    have href := hfile1.1
    rw [hfile0.2, update_self] at href
    exact absurd href (by simp)
  have hold0 : s1.file f0 = s0.file f0 := by rw [hfile1.2, update_of_ne hne.symm]
  have href0 : (s1.file f0).ref = 1 := by rw [hold0, hfile0.2, update_self]
  have href1 : (s1.file f1).ref = 1 := by rw [hfile1.2, update_self]
  refine hs01.trans ⟨(Kmem.takes_cons hfree fun x hx => update_of_ne hx ..).toKeeps,
    hs01.pipes.newPipe hf0 hf1 hne ?_ htype1 ?_ ?_ ?_ ?_ (Pipe.isOpen_of_count hclosed) rfl rfl,
    fun pa => ?_⟩
  · rw [hold0]
    exact htype0
  · simp [href0]
  · simp [update_of_ne hne, href1]
  · intro w
    cases w <;> simp [File.pipeEnd]
  · intro w
    cases w <;> simp [File.pipeEnd]
  · unfold Files.loose
    by_cases hpa : pa = pi
    · subst hpa
      simp only [update_self, hfree, List.count_cons_self, hclosed]
      rfl
    · simp only [update_of_ne hpa, hfree, List.count_cons_of_ne (Ne.symm hpa)]

end opening

end Xv6.Sys
