import Xv6.Lib.Sum
import Xv6.Vm.Walk
import Xv6.File.Spec

/-!
# References to inodes and files

A file that is open on an inode holds a reference to a slot of the inode
cache. `Files.spare` counts the references to a slot that no open file
accounts for: these are current directories, and the one reference that a
system call holds while it runs. `FilesOk` is what the file table and the
inode cache rely on between two operations: a file has a type exactly when it
is referred to, the slot of an open file is valid, and no slot has fewer
references than open files.

A file that `filealloc` has just handed out has a reference and no type yet.
The first argument of `FilesOk` lists these.

Every operation has a rule that says how it changes the reference counts.
The pipes are left out here.
-/

namespace Xv6.Sys

open Xv6.Lib Xv6.Lib.CInt Xv6.Vm Function
open Act

variable {file : File} {i f : Nat}

/-- The slot of the inode cache that a file is open on. -/
def File.onSlot (file : File) : Option Nat :=
  match file.type with
  | .inode => file.ip
  | .device => file.ip
  | _ => none

/-- References to a slot of the inode cache that no open file accounts
for. -/
def Files.spare (s : Files) (i : Nat) : Int :=
  (s.inode i).ref - tally NFILE (fun f => (s.file f).onSlot) i

/-- The file table and the inode cache agree. The files in `fresh` have been
allocated and not been filled in. -/
structure FilesOk (fresh : List Nat) (s : Files) : Prop where
  closed : ∀ f, (s.file f).ref = 0 → (s.file f).type = .none
  typed : ∀ f, f ∉ fresh → (s.file f).ref ≠ 0 → (s.file f).type ≠ .none
  fresh : ∀ f ∈ fresh, (s.file f).ref = 1 ∧ (s.file f).type = .none
  backed : ∀ f, (s.file f).type = .inode ∨ (s.file f).type = .device →
    ∃ i, (s.file f).ip = some i ∧ (s.inode i).valid = true
  table : ∀ f, NFILE ≤ f → (s.file f).ref = 0
  spare : ∀ i, 0 ≤ s.spare i

theorem File.onSlot_none (h : file.type = .none) : file.onSlot = none := by
  unfold File.onSlot
  rw [h]

theorem File.onSlot_some (h : file.onSlot = some i) :
    (file.type = .inode ∨ file.type = .device) ∧ file.ip = some i := by
  unfold File.onSlot at h
  split at h
  · exact ⟨.inl ‹_›, h⟩
  · exact ⟨.inr ‹_›, h⟩
  · exact absurd h (by simp)

theorem File.onSlot_of_type (h : file.type = .inode ∨ file.type = .device) :
    file.onSlot = file.ip := by
  unfold File.onSlot
  rcases h with h | h <;> rw [h]

/-! ## Quiet operations -/

section quiet

variable {fresh : List Nat} {s s' : Files}

theorem Files.Quiet.onSlot (h : s.Quiet s') (f : Nat) : (s'.file f).onSlot = (s.file f).onSlot := by
  have hslot := congrArg File.onSlot (h.handle f)
  exact hslot

theorem Files.Quiet.spare (h : s.Quiet s') : s'.spare = s.spare := by
  funext i
  unfold Files.spare
  rw [h.ref i, tally_congr fun f _ => h.onSlot f]

theorem Files.Quiet.type (h : s.Quiet s') (f : Nat) : (s'.file f).type = (s.file f).type := by
  have htype := congrArg File.type (h.handle f)
  exact htype

theorem FilesOk.quiet (hs : FilesOk fresh s) (h : s.Quiet s') : FilesOk fresh s' where
  closed f hf := by
    rw [h.fileRef] at hf
    rw [h.type]
    exact hs.closed f hf
  typed f hf hne := by
    rw [h.fileRef] at hne
    rw [h.type]
    exact hs.typed f hf hne
  fresh f hf := by
    rw [h.fileRef, h.type]
    exact hs.fresh f hf
  backed f hf := by
    rw [h.type] at hf
    obtain ⟨i, hip, hvalid⟩ := hs.backed f hf
    have hip' := congrArg File.ip (h.handle f)
    exact ⟨i, hip'.trans hip, h.valid i hvalid⟩
  table f hf := by
    rw [h.fileRef]
    exact hs.table f hf
  spare i := by
    rw [h.spare]
    exact hs.spare i

end quiet

/-! ## Changing the inode cache -/

section inode

variable {fresh : List Nat} {s : Files}

theorem FilesOk.congr {s' : Files} (hs : FilesOk fresh s) (hfile : s'.file = s.file)
    (hinode : s'.inode = s.inode) : FilesOk fresh s' := by
  obtain ⟨kmem, file, pipe, inode, dinode⟩ := s'
  obtain rfl : file = s.file := hfile
  obtain rfl : inode = s.inode := hinode
  exact ⟨hs.closed, hs.typed, hs.fresh, hs.backed, hs.table, hs.spare⟩

theorem FilesOk.lt_of_type (hs : FilesOk fresh s) (h : (s.file f).type ≠ .none) : f < NFILE := by
  by_contra hge
  exact h (hs.closed f (hs.table f (by omega)))

theorem FilesOk.ref_pos (hs : FilesOk fresh s) (h : (s.file f).onSlot = some i) :
    1 ≤ (s.inode i).ref := by
  have hlt : f < NFILE := by
    refine hs.lt_of_type fun hnone => ?_
    rw [File.onSlot_none hnone] at h
    exact absurd h (by simp)
  have htally := one_le_tally (g := fun f => (s.file f).onSlot) hlt h
  have hspare := hs.spare i
  unfold Files.spare at hspare
  omega

theorem spare_setInode {v : Inode} {d : Int} (hv : v.ref = (s.inode i).ref + d) (j : Nat) :
    Files.spare { s with inode := update s.inode i v } j = s.spare j + d * token (some i) j := by
  unfold Files.spare token
  by_cases hj : j = i
  · subst hj
    simp only [update_self, hv, ↓reduceIte]
    omega
  · simp only [update_of_ne hj, if_neg fun h => hj (Option.some.inj h).symm]
    omega

/-- Changing one slot keeps the tables in order when the slots of open files
stay valid and keep their references. -/
theorem FilesOk.setInode (hs : FilesOk fresh s) {v : Inode}
    (hvalid : 1 ≤ (s.inode i).ref → (s.inode i).valid = true → v.valid = true)
    (hspare : ∀ j, 0 ≤ Files.spare { s with inode := update s.inode i v } j) :
    FilesOk fresh { s with inode := update s.inode i v } where
  closed := hs.closed
  typed := hs.typed
  fresh := hs.fresh
  backed f hf := by
    obtain ⟨j, hip, hj⟩ := hs.backed f hf
    refine ⟨j, hip, ?_⟩
    by_cases hji : j = i
    · subst hji
      have hslot : (s.file f).onSlot = some j := (File.onSlot_of_type hf).trans hip
      simp only [update_self]
      exact hvalid (hs.ref_pos hslot) hj
    · simp only [update_of_ne hji]
      exact hj
  table := hs.table
  spare := hspare

variable {E : Panic → Prop} {Q : Nat → Files → Prop}

theorem wp_iget {inum : Nat} (hs : FilesOk fresh s) (hpanic : E .igetNoInodes)
    (h : ∀ i inode, FilesOk fresh { s with inode := inode } →
      (∀ j, Files.spare { s with inode := inode } j = s.spare j + token (some i) j) →
      1 ≤ (inode i).ref → (inode i).inum = inum → Q i { s with inode := inode }) :
    wp (iget inum) Q E s := by
  unfold iget
  rw [wp_bind, wp_get]
  split
  · -- the inode has a slot
    rename_i i hfind
    obtain ⟨hpos, hinum⟩ : 0 < (s.inode i).ref ∧ (s.inode i).inum = inum := by
      simpa using List.find?_some hfind
    have hspare := spare_setInode (s := s) (i := i)
      (v := { s.inode i with ref := (s.inode i).ref + 1 }) rfl
    rw [wp_bind, wp_modify, wp_pure]
    refine h i _ (hs.setInode (fun _ hv => hv) fun j => ?_) (fun j => ?_) ?_ ?_
    · have := hs.spare j
      have := token_nonneg (some i) j
      rw [hspare j]
      omega
    · rw [hspare j, one_mul]
    · simp only [update_self]
      omega
    · simp only [update_self]
      exact hinum
  · split
    · exact wp_panic.mpr hpanic
    · -- a slot without references is taken
      rename_i i hfind
      have hzero : (s.inode i).ref = 0 := by simpa using List.find?_some hfind
      have hspare := spare_setInode (s := s) (i := i) (d := 1)
        (v := { inum := inum, ref := 1, valid := false }) (by rw [hzero]; rfl)
      rw [wp_bind, wp_modify, wp_pure]
      refine h i _ (hs.setInode (fun hpos _ => ?_) fun j => ?_) (fun j => ?_) ?_ ?_
      · rw [hzero] at hpos
        exact absurd hpos (by decide)
      · have := hs.spare j
        have := token_nonneg (some i) j
        rw [hspare j]
        omega
      · rw [hspare j, one_mul]
      · simp only [update_self]
        exact Int.le_refl 1
      · simp only [update_self]

variable {Q : Unit → Files → Prop}

theorem wp_idup (hs : FilesOk fresh s) (h : ∀ inode, FilesOk fresh { s with inode := inode } →
      (∀ j, Files.spare { s with inode := inode } j = s.spare j + token (some i) j) →
      Q () { s with inode := inode }) : wp (idup i) Q E s := by
  have hspare := spare_setInode (s := s) (i := i)
    (v := { s.inode i with ref := (s.inode i).ref + 1 }) rfl
  refine wp_modify.mpr (h _ (hs.setInode (fun _ hv => hv) fun j => ?_) fun j => ?_)
  · have := hs.spare j
    have := token_nonneg (some i) j
    rw [hspare j]
    omega
  · rw [hspare j, one_mul]

/-- A reference that no open file accounts for may be dropped. -/
theorem wp_iput (hs : FilesOk fresh s)
    (hi : 1 ≤ s.spare i) (h : ∀ inode, FilesOk fresh { s with inode := inode } →
      (∀ j, Files.spare { s with inode := inode } j = s.spare j - token (some i) j) →
      Q () { s with inode := inode }) : wp (iput i) Q E s := by
  have hspare := spare_setInode (s := s) (i := i) (d := -1)
    (v := { s.inode i with ref := (s.inode i).ref - 1 }) rfl
  refine wp_modify.mpr (h _ (hs.setInode (fun _ hv => hv) fun j => ?_) fun j => ?_)
  · rw [hspare j]
    unfold token
    split
    · rename_i hj
      cases hj
      omega
    · have := hs.spare j
      omega
  · rw [hspare j]
    omega

end inode

/-! ## Changing the file table -/

section file

variable {fresh : List Nat} {s : Files}

theorem spare_setFile (hf : f < NFILE) (j : Nat) :
    Files.spare { s with file := update s.file f file } j =
      s.spare j + token (s.file f).onSlot j - token file.onSlot j := by
  unfold Files.spare
  have htally := tally_change hf (fun g => (s.file g).onSlot)
    (fun g => (update s.file f file g).onSlot)
    (fun l hl => by rw [update_of_ne hl]) j
  rw [update_self] at htally
  change (s.inode j).ref - tally NFILE (fun g => (update s.file f file g).onSlot) j = _
  rw [htally]
  omega

theorem refs_setFile (g : Nat) :
    (update s.file f file g).ref =
      (s.file g).ref + (file.ref - (s.file f).ref) * token (some f) g := by
  unfold token
  by_cases hg : g = f
  · subst hg
    rw [update_self, if_pos rfl]
    omega
  · rw [update_of_ne hg, if_neg fun h => hg (Option.some.inj h).symm]
    omega

/-- Changing one entry of the file table. -/
theorem FilesOk.setFile (hs : FilesOk fresh s) {fresh' : List Nat}
    (hclosed : file.ref = 0 → file.type = .none)
    (htyped : f ∉ fresh' → file.ref ≠ 0 → file.type ≠ .none)
    (hfresh : f ∈ fresh' → file.ref = 1 ∧ file.type = .none)
    (hothers : ∀ g ≠ f, (g ∈ fresh' ↔ g ∈ fresh))
    (hbacked : file.type = .inode ∨ file.type = .device →
      ∃ i, file.ip = some i ∧ (s.inode i).valid = true) (hlt : f < NFILE)
    (hspare : ∀ j, token file.onSlot j ≤ s.spare j + token (s.file f).onSlot j) :
    FilesOk fresh' { s with file := update s.file f file } := by
  have hself : update s.file f file f = file := update_self ..
  have hother : ∀ g ≠ f, update s.file f file g = s.file g :=
    fun g hg => update_of_ne hg ..
  refine ⟨fun g => ?_, fun g => ?_, fun g => ?_, fun g => ?_, fun g hg => ?_, fun j => ?_⟩
  · by_cases hg : g = f
    · subst hg
      simp only [hself]
      exact hclosed
    · simp only [hother g hg]
      exact hs.closed g
  · by_cases hg : g = f
    · subst hg
      simp only [hself]
      exact htyped
    · simp only [hother g hg, hothers g hg]
      exact hs.typed g
  · by_cases hg : g = f
    · subst hg
      simp only [hself]
      exact hfresh
    · simp only [hother g hg, hothers g hg]
      exact hs.fresh g
  · by_cases hg : g = f
    · subst hg
      simp only [hself]
      exact hbacked
    · simp only [hother g hg]
      exact hs.backed g
  · simp only [hother g (by omega)]
    exact hs.table g hg
  · have := hspare j
    rw [spare_setFile hlt j]
    omega

variable {E : Panic → Prop}

theorem wp_filealloc_ok {Q : Option Nat → Files → Prop} (hs : FilesOk fresh s)
    (hnone : Q none s) (hsome : ∀ f file, f < NFILE → (s.file f).ref = 0 → f ∉ fresh →
      FilesOk (f :: fresh) { s with file := file } →
      (∀ j, Files.spare { s with file := file } j = s.spare j) →
      (∀ g, (file g).ref = (s.file g).ref + token (some f) g) →
      Q (some f) { s with file := file }) : wp filealloc Q E s := by
  refine wp_filealloc hnone fun f hlt hzero => ?_
  have hnotin : f ∉ fresh := fun h => absurd (hzero.symm.trans (hs.fresh f h).1) (by decide)
  have hslot : File.onSlot { s.file f with ref := 1 } = (s.file f).onSlot := rfl
  refine hsome f _ hlt hzero hnotin (hs.setFile ?_ ?_ ?_ ?_ (hs.backed f) hlt ?_) ?_ ?_
  · exact fun h => absurd (show (1 : Int) = 0 from h) (by decide)
  · exact fun h => absurd List.mem_cons_self h
  · exact fun _ => ⟨rfl, hs.closed f hzero⟩
  · intro g hg
    rw [List.mem_cons, or_iff_right hg]
  · intro j
    have := hs.spare j
    rw [hslot]
    omega
  · intro j
    rw [spare_setFile hlt j, hslot]
    omega
  · intro g
    rw [refs_setFile g, hzero]
    simp only [Int.sub_zero, one_mul]

theorem wp_filedup_ok {Q : Unit → Files → Prop} (hs : FilesOk [] s)
    (hpanic : (s.file f).ref < 1 → E .filedup) (h : ∀ file, FilesOk [] { s with file := file } →
      (∀ j, Files.spare { s with file := file } j = s.spare j) →
      (∀ g, (file g).ref = (s.file g).ref + token (some f) g) → Q () { s with file := file }) :
    wp (filedup f) Q E s := by
  refine wp_filedup hpanic fun hpos => ?_
  have htype : (s.file f).type ≠ .none := hs.typed f (by simp) (by omega)
  have hlt := hs.lt_of_type htype
  have hslot : File.onSlot { s.file f with ref := (s.file f).ref + 1 } = (s.file f).onSlot := rfl
  refine h _ (hs.setFile ?_ (fun _ _ => htype) (by simp) (by simp) (hs.backed f) hlt ?_) ?_ ?_
  · intro h
    dsimp only at h
    omega
  · intro j
    have := hs.spare j
    rw [hslot]
    omega
  · intro j
    rw [spare_setFile hlt j, hslot]
    omega
  · intro g
    rw [refs_setFile g, show (s.file f).ref + 1 - (s.file f).ref = 1 by omega, one_mul]

/-- Giving up what a file was open on drops the reference to its slot. -/
theorem wp_fileRelease_ok {ff : File} {Q : Unit → Files → Prop} (hs : FilesOk fresh s) (hspare : ∀ i, ff.onSlot = some i → 1 ≤ s.spare i)
    (h : ∀ s', s'.file = s.file → FilesOk fresh s' →
      (∀ j, s'.spare j = s.spare j - token ff.onSlot j) → Q () s') :
    wp (fileRelease ff) Q (fun _ => True) s := by
  have hput : ∀ i, ff.onSlot = some i → wp (iput i) Q (fun _ => True) s := fun i hi =>
    wp_iput hs (hspare i hi) fun inode hok hsp => h _ rfl hok (by rw [hi]; exact hsp)
  have hquiet : ff.onSlot = none → ∀ s', s'.file = s.file → s'.inode = s.inode → Q () s' := by
    intro hnone s' hfile hinode
    refine h s' hfile (hs.congr hfile hinode) fun j => ?_
    rw [hnone, token_none, Files.spare, Files.spare, hfile, hinode]
    exact (Int.sub_zero _).symm
  unfold fileRelease
  split
  · rename_i htype
    have hnone : ff.onSlot = none := by
      unfold File.onSlot
      rw [htype]
    unfold pipeclose
    rw [wp_bind, wp_get]
    extract_lets p
    rw [wp_bind, wp_modify]
    refine wp_when (fun _ => ?_) fun _ => hquiet hnone _ rfl rfl
    rw [wp_onKmem]
    exact wp_any (fun _ _ => hquiet hnone _ rfl rfl) (fun _ => trivial)
  · rename_i i htype hip
    exact hput i ((File.onSlot_of_type (.inl htype)).trans hip)
  · rename_i i htype hip
    exact hput i ((File.onSlot_of_type (.inr htype)).trans hip)
  · rename_i hpipe hinode hdevice
    refine wp_pure.mpr (hquiet ?_ s rfl rfl)
    cases hslot : ff.onSlot with
    | none => rfl
    | some i =>
      obtain ⟨htype, hip⟩ := File.onSlot_some hslot
      rcases htype with htype | htype
      · exact absurd hip (hinode i htype)
      · exact absurd hip (hdevice i htype)

theorem wp_fileclose_ok (fresh' : List Nat) {Q : Unit → Files → Prop} (hs : FilesOk fresh s) (hfresh : ∀ g, g ∈ fresh' ↔ g ∈ fresh ∧ g ≠ f)
    (h : ∀ s', FilesOk fresh' s' → (∀ j, s'.spare j = s.spare j) →
      (∀ g, (s'.file g).ref = (s.file g).ref - token (some f) g) → Q () s') :
    wp (fileclose f) Q (fun _ => True) s := by
  have hself : f ∉ fresh' := fun hf => ((hfresh f).mp hf).2 rfl
  have hothers : ∀ g ≠ f, (g ∈ fresh' ↔ g ∈ fresh) := fun g hg => by
    rw [hfresh, and_iff_left hg]
  refine wp_fileclose (fun _ => trivial) (fun hdup => ?_) fun hlast => ?_
  · have htype : (s.file f).type ≠ .none := by
      refine hs.typed f (fun hf => ?_) (by omega)
      have := (hs.fresh f hf).1
      omega
    have hlt := hs.lt_of_type htype
    have hslot : File.onSlot { s.file f with ref := (s.file f).ref - 1 } = (s.file f).onSlot := rfl
    refine h _ (hs.setFile ?_ (fun _ _ => htype) (fun hf => absurd hf hself) hothers (hs.backed f)
      hlt ?_) ?_ ?_
    · intro h
      dsimp only at h
      omega
    · intro j
      have := hs.spare j
      rw [hslot]
      omega
    · intro j
      rw [spare_setFile hlt j, hslot]
      omega
    · intro g
      rw [refs_setFile g, show (s.file f).ref - 1 - (s.file f).ref = -1 by omega]
      omega
  · have hlt : f < NFILE := by
      by_contra hge
      have := hs.table f (by omega)
      omega
    have hslot : File.onSlot { s.file f with ref := 0, type := .none } = none :=
      File.onSlot_none rfl
    have hspare : ∀ j, Files.spare
        { s with file := update s.file f { s.file f with ref := 0, type := .none } } j =
          s.spare j + token (s.file f).onSlot j := by
      intro j
      rw [spare_setFile hlt j, hslot, token_none]
      exact Int.sub_zero _
    have hok : FilesOk fresh'
        { s with file := update s.file f { s.file f with ref := 0, type := .none } } := by
      refine hs.setFile (fun _ => rfl) (fun _ hne => absurd rfl hne) (fun hf => absurd hf hself)
        hothers (fun ht => ?_) hlt fun j => ?_
      · rcases ht with ht | ht <;> exact absurd ht (by simp)
      · have := hs.spare j
        have := token_nonneg (s.file f).onSlot j
        rw [hslot, token_none, Pi.zero_apply]
        omega
    refine wp_fileRelease_ok hok (fun i hi => ?_) fun s' hfile hok' hspare' => ?_
    · have := hs.spare i
      rw [hspare i, hi, token_self]
      omega
    · refine h s' hok' (fun j => ?_) fun g => ?_
      · rw [hspare' j, hspare j]
        omega
      · rw [hfile, refs_setFile g]
        change (s.file g).ref + (0 - (s.file f).ref) * token (some f) g = _
        rw [hlast]
        omega

/-- Filling in a file that `filealloc` handed out. -/
theorem wp_fill
    (fresh' : List Nat) {Q : Unit → Files → Prop} (hs : FilesOk fresh s) (hf : f ∈ fresh)
    (hfresh : ∀ g, g ∈ fresh' ↔ g ∈ fresh ∧ g ≠ f) (href : file.ref = (s.file f).ref)
    (htype : file.type ≠ .none) (hbacked : file.type = .inode ∨ file.type = .device →
      ∃ i, file.ip = some i ∧ (s.inode i).valid = true)
    (hspare : ∀ j, token file.onSlot j ≤ s.spare j)
    (h : ∀ s', FilesOk fresh' s' → (∀ j, s'.spare j = s.spare j - token file.onSlot j) →
      (∀ g, (s'.file g).ref = (s.file g).ref) → Q () s') : wp (setFile f file) Q E s := by
  obtain ⟨hone, hnone⟩ := hs.fresh f hf
  have hlt : f < NFILE := by
    by_contra hge
    have := hs.table f (by omega)
    omega
  have hslot : (s.file f).onSlot = none := File.onSlot_none hnone
  refine wp_setFile.mpr (h _ (hs.setFile ?_ (fun _ _ => htype) ?_ ?_ hbacked hlt ?_) ?_ ?_)
  · intro h
    omega
  · exact fun hf' => absurd rfl ((hfresh f).mp hf').2
  · intro g hg
    rw [hfresh, and_iff_left hg]
  · intro j
    rw [hslot, token_none, Pi.zero_apply]
    have := hspare j
    omega
  · intro j
    rw [spare_setFile hlt j, hslot, token_none, Pi.zero_apply]
    omega
  · intro g
    rw [refs_setFile g, href]
    omega

/-- A new pipe has one reference to each of its two files. -/
theorem wp_pipealloc_ok {Q : Option (Nat × Nat) → Files → Prop}
    (hs : FilesOk [] s) (hnone : ∀ s', FilesOk [] s' → (∀ j, s'.spare j = s.spare j) →
      (∀ g, (s'.file g).ref = (s.file g).ref) → Q none s')
    (hsome : ∀ f0 f1 s', FilesOk [] s' → (∀ j, s'.spare j = s.spare j) →
      (∀ g, (s'.file g).ref = (s.file g).ref + token (some f0) g + token (some f1) g) →
      Q (some (f0, f1)) s') : wp pipealloc Q (fun _ => True) s := by
  unfold pipealloc
  rw [wp_bind]
  refine wp_filealloc_ok hs
    (wp_pure.mpr (hnone s hs (fun _ => rfl) fun _ => rfl)) fun f0 file0 _ _ _ hs0 hsp0 href0 => ?_
  rw [wp_bind]
  refine wp_filealloc_ok hs0 ?_ fun f1 file1 _ _ hne hs1 hsp1 href1 => ?_
  · -- there is no second file
    rw [wp_bind]
    refine wp_fileclose_ok [] hs0 (by simp) fun s' hs' hsp' href' => ?_
    refine wp_pure.mpr (hnone s' hs' (fun j => (hsp' j).trans (hsp0 j)) fun g => ?_)
    rw [href' g, href0 g]
    omega
  have hrest : ∀ g, g ∈ [f1] ↔ g ∈ [f1, f0] ∧ g ≠ f0 := by
    have hne : f1 ≠ f0 := by simpa using hne
    intro g
    simp only [List.mem_cons, List.not_mem_nil, or_false]
    exact ⟨fun h => ⟨.inl h, fun h' => hne (h.symm.trans h')⟩, fun h => h.1.resolve_right h.2⟩
  rw [wp_bind, wp_onKmem]
  refine wp_kalloc (fun _ => ?_) fun pi next _ => ?_
  · -- there is no page
    rw [wp_bind]
    refine wp_fileclose_ok [f1] (hs1.congr rfl rfl) hrest
      fun s2 hs2 hsp2 href2 => ?_
    rw [wp_bind]
    refine wp_fileclose_ok [] hs2 (by simp) fun s3 hs3 hsp3 href3 => ?_
    refine wp_pure.mpr (hnone s3 hs3 (fun j => ?_) fun g => ?_)
    · rw [hsp3 j, hsp2 j]
      exact (hsp1 j).trans (hsp0 j)
    · rw [href3 g, href2 g]
      change (file1 g).ref - _ - _ = _
      rw [href1 g, href0 g]
      omega
  -- the ends of a pipe are not open on an inode
  rw [wp_bind, wp_modify, wp_bind, wp_get, wp_bind]
  have hs1' : FilesOk [f1, f0] { s with
      kmem := { s.kmem with freelist := next, mem := update s.kmem.mem pi fun _ => 5 }
      pipe := update s.pipe pi ⟨true, true⟩
      file := file1 } := hs1.congr rfl rfl
  refine wp_fill [f1] hs1' (by simp) hrest rfl (by simp) (by simp)
    (fun j => ?_) fun s2 hs2 hsp2 href2 => ?_
  · exact hs1'.spare j
  rw [wp_bind, wp_get, wp_bind]
  refine wp_fill [] hs2 (by simp) (by simp) rfl (by simp) (by simp)
    (fun j => ?_) fun s3 hs3 hsp3 href3 => ?_
  · exact hs2.spare j
  refine wp_pure.mpr (hsome f0 f1 s3 hs3 (fun j => ?_) fun g => ?_)
  · rw [hsp3 j, hsp2 j]
    change Files.spare { s with file := file1 } j - token none j - token none j = _
    rw [hsp1 j, hsp0 j, token_none]
    simp only [Pi.zero_apply, Int.sub_zero]
  · rw [href3 g, href2 g]
    change (file1 g).ref = _
    rw [href1 g, href0 g]

end file

end Xv6.Sys
