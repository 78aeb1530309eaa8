import Xv6.File.Refs
import Xv6.Proc.KmemOk
import Xv6.Proc.Space

/-!
# Reference counts are exact

A file is held by the descriptors and the mappings of the processes, and a
slot of the inode cache by open files and current directories. `Balanced`
says that the reference counts of both tables are what the processes hold,
plus what the running call holds by itself. Its arguments keep the account of
a call: the process it works on, the files it has allocated and not filled in,
and the references to files and to cache slots that it holds. Every operation
on files has a rule that says how it changes the account.

The free list holds pages all the while (`mem`), whatever the calls do.

A process that ends gives up what it holds in order. `Proc.Ended` says how
far it is, and that a process that is unused holds nothing.
-/

namespace Xv6.Sys

open Xv6.Lib Xv6.Lib.CInt Xv6.Vm Function
open Act

variable {i q f : Nat} {Q : Unit → Kernel → Prop}

/-! ## What processes hold -/

/-- The file of a used mapping. -/
def Vma.held (v : Vma) : Option Nat := if v.used then some v.vfile else none

/-- How many descriptors and mappings of the process name the file. -/
def Proc.holds (pr : Proc) (f : Nat) : Int :=
  tally NOFILE pr.ofile f + tally MAXMMAPITEM (fun i => (pr.vma i).held) f

/-- How many descriptors and mappings name the file. -/
def Kernel.held (k : Kernel) (f : Nat) : Int := ∑ p ∈ Finset.range NPROC, (k.proc p).holds f

/-- How many current directories are the inode in the slot. -/
def Kernel.cwds (k : Kernel) (i : Nat) : Int := tally NPROC (fun p => (k.proc p).cwd) i

/-- The process holds nothing. -/
structure Proc.Blank (pr : Proc) : Prop where
  ofile : ∀ fd, fd < NOFILE → pr.ofile fd = none
  vma : ∀ j, j < MAXMMAPITEM → (pr.vma j).used = false
  cwd : pr.cwd = none

/-- What a process on its way out has given up. -/
def Proc.Ended (pr : Proc) : Prop :=
  match pr.state with
  | .runnable => True
  | .exiting i =>
    (∀ fd, fd < NOFILE → pr.ofile fd = none) ∧ ∀ j, j < i → (pr.vma j).used = false
  | .zombie => pr.Blank
  | .unused => pr.Blank

/-- The reference counts are exact, for a call that works on process `p`, has
allocated the files `fresh`, and itself holds the references `files` and
`slots`. -/
structure Balanced (p : Option Nat) (fresh : List Nat) (files slots : Nat → Int) (k : Kernel) :
    Prop where
  ok : FilesOk fresh k.files
  file : ∀ f, (k.files.file f).ref = k.held f + files f
  inode : ∀ i, k.files.spare i = k.cwds i + slots i
  ended : ∀ q, p ≠ some q → (k.proc q).Ended
  mem : k.MemOk

/-- What a process owns, and how far it is. -/
structure Owned where
  state : ProcState
  ofile : Nat → Option Nat
  vma : Nat → Vma
  cwd : Option Nat

def Proc.owns (pr : Proc) : Owned := ⟨pr.state, pr.ofile, pr.vma, pr.cwd⟩

/-! ## Accounting for a process -/

section holds

variable (pr pr' : Proc)

theorem holds_ofile {fd : Nat} {o : Option Nat} (hfd : fd < NOFILE)
    (hofile : pr'.ofile = update pr.ofile fd o) (hvma : pr'.vma = pr.vma) (f : Nat) :
    pr'.holds f + token (pr.ofile fd) f = pr.holds f + token o f := by
  have htally := tally_change hfd pr.ofile pr'.ofile
    (fun l hl => by rw [hofile, update_of_ne hl]) f
  rw [hofile, update_self, ← hofile] at htally
  unfold Proc.holds
  rw [htally, hvma]
  omega

theorem holds_vma {v : Vma} (hi : i < MAXMMAPITEM) (hofile : pr'.ofile = pr.ofile)
    (hvma : pr'.vma = update pr.vma i v) (f : Nat) :
    pr'.holds f + token (pr.vma i).held f = pr.holds f + token v.held f := by
  have htally := tally_change hi (fun i => (pr.vma i).held) (fun i => (pr'.vma i).held)
    (fun l hl => by rw [hvma, update_of_ne hl]) f
  simp only [hvma, update_self] at htally
  unfold Proc.holds
  simp only [hvma, htally, hofile]
  omega

theorem holds_congr {pr pr' : Proc} (hofile : pr'.ofile = pr.ofile) (hvma : pr'.vma = pr.vma) :
    pr'.holds = pr.holds := by
  unfold Proc.holds
  rw [hofile, hvma]

theorem Proc.Blank.holds {pr : Proc} (h : pr.Blank) (f : Nat) : pr.holds f = 0 := by
  have hheld : ∀ j < MAXMMAPITEM, (pr.vma j).held = none := fun j hj => by
    rw [Vma.held, h.vma j hj]
    rfl
  unfold Proc.holds
  rw [tally_congr (g := fun _ => none) h.ofile, tally_congr (g := fun _ => none) hheld]
  simp only [tally, token_none, Pi.zero_apply, Finset.sum_const_zero, add_zero]

theorem Proc.Blank.of_owns {pr pr' : Proc} (h : pr.Blank) (howns : pr'.owns = pr.owns) :
    pr'.Blank where
  ofile fd hfd := (congrFun (congrArg Owned.ofile howns) fd).trans (h.ofile fd hfd)
  vma j hj := (congrArg Vma.used (congrFun (congrArg Owned.vma howns) j)).trans (h.vma j hj)
  cwd := (congrArg Owned.cwd howns).trans h.cwd

theorem Proc.Ended.of_owns {pr pr' : Proc} (h : pr.Ended) (howns : pr'.owns = pr.owns) :
    pr'.Ended := by
  have hstate : pr'.state = pr.state := congrArg Owned.state howns
  have hofile : pr'.ofile = pr.ofile := congrArg Owned.ofile howns
  have hvma : pr'.vma = pr.vma := congrArg Owned.vma howns
  unfold Proc.Ended at h ⊢
  rw [hstate]
  split
  · trivial
  · rename_i hexit
    rw [hexit] at h
    rw [hofile, hvma]
    exact h
  · rename_i hzombie
    rw [hzombie] at h
    exact Proc.Blank.of_owns h howns
  · rename_i hunused
    rw [hunused] at h
    exact Proc.Blank.of_owns h howns

end holds

/-! ## Accounting for a call -/

section balanced

variable {p : Option Nat} {fresh : List Nat} {files slots : Nat → Int} {k : Kernel}

theorem Balanced.congr {k' : Kernel} (h : Balanced p fresh files slots k)
    (hok : FilesOk fresh k'.files) (hfile : ∀ f, (k'.files.file f).ref = (k.files.file f).ref)
    (hinode : ∀ i, k'.files.spare i = k.files.spare i) (hproc : k'.proc = k.proc)
    (hmem : k'.MemOk) : Balanced p fresh files slots k' where
  ok := hok
  file f := by
    rw [hfile f, h.file f]
    unfold Kernel.held
    rw [hproc]
  inode i := by
    rw [hinode i, h.inode i]
    unfold Kernel.cwds
    rw [hproc]
  ended q hq := by
    rw [hproc]
    exact h.ended q hq
  mem := hmem

theorem Balanced.quiet {s : Files} (h : Balanced p fresh files slots k) (hs : k.files.Quiet s) :
    Balanced p fresh files slots { k with files := s } := by
  obtain ⟨mem, hmem⟩ := hs.kmem
  refine h.congr (h.ok.quiet hs) hs.fileRef (fun i => congrFun hs.spare i) rfl ?_
  unfold Kernel.MemOk
  rw [hmem]
  exact Kmem.Ok.setMem h.mem mem

theorem Balanced.setMem (h : Balanced p fresh files slots k) (mem : Nat → Bytes) :
    Balanced p fresh files slots { k with files.kmem.mem := mem } :=
  h.congr (h.ok.congr rfl rfl) (fun _ => rfl) (fun _ => rfl) rfl (Kmem.Ok.setMem h.mem mem)

/-- What the account of references is about. -/
structure RefView where
  file : Nat → File
  inode : Nat → Inode
  owns : Nat → Owned

def Kernel.refView (k : Kernel) : RefView :=
  ⟨k.files.file, k.files.inode, fun q => (k.proc q).owns⟩

theorem Balanced.of_refView {k' : Kernel} (h : Balanced p fresh files slots k)
    (hview : k'.refView = k.refView) (hmem : k'.MemOk) : Balanced p fresh files slots k' := by
  have hfile : k'.files.file = k.files.file := congrArg RefView.file hview
  have hinode : k'.files.inode = k.files.inode := congrArg RefView.inode hview
  have howns : ∀ q, (k'.proc q).owns = (k.proc q).owns :=
    fun q => congrFun (congrArg RefView.owns hview) q
  have hcwd : ∀ q, (k'.proc q).cwd = (k.proc q).cwd := fun q => congrArg Owned.cwd (howns q)
  refine ⟨h.ok.congr hfile hinode, fun f => ?_, fun i => ?_, fun q hq => ?_, hmem⟩
  · rw [hfile, h.file f]
    unfold Kernel.held
    simp only [holds_congr (congrArg Owned.ofile (howns _)) (congrArg Owned.vma (howns _))]
  · unfold Files.spare Kernel.cwds
    simp only [hfile, hinode, hcwd]
    exact h.inode i
  · exact (h.ended q hq).of_owns (howns q)

/-- What an action leaves that does nothing the account is about. -/
def Mild (view : RefView) (k : Kernel) : Prop := k.refView = view ∧ k.MemOk

theorem Balanced.mild (h : Balanced p fresh files slots k) : Mild k.refView k := ⟨rfl, h.mem⟩

theorem Balanced.of_mild {k' : Kernel} (h : Balanced p fresh files slots k)
    (hk' : Mild k.refView k') : Balanced p fresh files slots k' :=
  h.of_refView hk'.1 hk'.2

/-- A call starts to work on a process. -/
theorem Balanced.start (h : Balanced none fresh files slots k) :
    Balanced (some q) fresh files slots k :=
  ⟨h.ok, h.file, h.inode, fun r _ => h.ended r (by simp), h.mem⟩

theorem Balanced.finish (h : Balanced (some q) fresh files slots k) (hq : (k.proc q).Ended) :
    Balanced none fresh files slots k := by
  refine ⟨h.ok, h.file, h.inode, fun r _ => ?_, h.mem⟩
  by_cases hr : q = r
  · exact hr ▸ hq
  · exact h.ended r fun heq => hr (Option.some.inj heq)

/-- A process changes what it holds, and the call accounts for the
difference. -/
theorem Balanced.setProc {pr : Proc} {files' slots' : Nat → Int} {n : Nat}
    (h : Balanced p fresh files slots k) (hq : q < NPROC) (hended : p ≠ some q → pr.Ended)
    (hfiles : ∀ f, files' f + pr.holds f = files f + (k.proc q).holds f)
    (hslots : ∀ i, slots' i + token pr.cwd i = slots i + token (k.proc q).cwd i) :
    Balanced p fresh files' slots' ⟨k.files, update k.proc q pr, n⟩ where
  ok := h.ok
  file f := by
    have hsum := sum_change (f := fun r => (k.proc r).holds f)
      (g := fun r => (update k.proc q pr r).holds f) (Finset.mem_range.mpr hq)
      fun r _ hr => by rw [update_of_ne hr]
    have hfile := h.file f
    have := hfiles f
    unfold Kernel.held at hfile ⊢
    simp only [update_self] at hsum ⊢
    omega
  inode i := by
    have htally := tally_change hq (fun r => (k.proc r).cwd)
      (fun r => (update k.proc q pr r).cwd)
      (fun r hr => by rw [update_of_ne hr]) i
    have hinode := h.inode i
    have := hslots i
    unfold Kernel.cwds at hinode ⊢
    simp only [update_self] at htally ⊢
    rw [htally]
    omega
  ended r hr := by
    by_cases heq : r = q
    · subst heq
      simp only [update_self]
      exact hended hr
    · simp only [update_of_ne heq]
      exact h.ended r hr
  mem := h.mem

/-- A process that runs has given up nothing. -/
theorem ended_of_runnable {pr : Proc} (h : pr.state = .runnable) : pr.Ended := by
  unfold Proc.Ended
  rw [h]
  trivial

/-- A descriptor takes a new value, and the call accounts for the file that it
named. -/
theorem Balanced.setOfile {fd n : Nat} {o : Option Nat} (hk : Balanced p fresh files slots k)
    (hq : q < NPROC) (hrun : p ≠ some q → (k.proc q).state = .runnable) (hfd : fd < NOFILE) :
    Balanced p fresh (files + token ((k.proc q).ofile fd) - token o) slots
      ⟨k.files, update k.proc q { k.proc q with
        ofile := update (k.proc q).ofile fd o }, n⟩ := by
  refine hk.setProc hq (fun h => ended_of_runnable (hrun h)) (fun f => ?_) fun _ => rfl
  have hholds := holds_ofile (k.proc q) { k.proc q with
    ofile := update (k.proc q).ofile fd o } hfd rfl rfl f
  rw [Pi.sub_apply, Pi.add_apply]
  omega

/-- The slot of a mapping takes a new value, and the call accounts for the
file that the slot held. -/
theorem Balanced.setVma {n : Nat} {v : Vma} (hk : Balanced p fresh files slots k) (hq : q < NPROC)
    (hrun : p ≠ some q → (k.proc q).state = .runnable) (hi : i < MAXMMAPITEM) :
    Balanced p fresh (files + token ((k.proc q).vma i).held - token v.held) slots
      ⟨k.files, update k.proc q { k.proc q with
        vma := update (k.proc q).vma i v }, n⟩ := by
  refine hk.setProc hq (fun h => ended_of_runnable (hrun h)) (fun f => ?_) fun _ => rfl
  have hholds := holds_vma (k.proc q) { k.proc q with
    vma := update (k.proc q).vma i v } hi rfl rfl f
  rw [Pi.sub_apply, Pi.add_apply]
  omega

/-! ### Rules for the operations on files -/

variable {E : Panic → Prop}

theorem cwds_nonneg (k : Kernel) (i : Nat) : 0 ≤ k.cwds i := tally_nonneg _ _ _

theorem cwds_add_nonneg (k : Kernel) (i : Nat) : 0 ≤ k.cwds i + (0 : Nat → Int) i := by
  rw [Pi.zero_apply, add_zero]
  exact cwds_nonneg k i

theorem wp_iget_balanced {inum : Nat} {Q : Nat → Kernel → Prop}
    (hk : Balanced p fresh files slots k)
    (h : ∀ i k', k'.proc = k.proc → Balanced p fresh files (slots + token (some i)) k' → Q i k') :
    wp (onFiles (iget inum)) Q (fun _ => True) k := by
  rw [wp_onFiles]
  refine wp_iget hk.ok trivial fun i inode hok hspare _ _ =>
    h i _ rfl ⟨hok, hk.file, fun j => ?_, hk.ended, hk.mem⟩
  have := hk.inode j
  rw [Pi.add_apply, hspare j]
  change _ = k.cwds j + _
  omega

theorem wp_idup_balanced (hk : Balanced p fresh files slots k)
    (h : ∀ k', k'.proc = k.proc → Balanced p fresh files (slots + token (some i)) k' → Q () k') :
    wp (onFiles (idup i)) Q E k := by
  rw [wp_onFiles]
  refine wp_idup hk.ok fun inode hok hspare => h _ rfl ⟨hok, hk.file, fun j => ?_, hk.ended, hk.mem⟩
  have := hk.inode j
  rw [Pi.add_apply, hspare j]
  change _ = k.cwds j + _
  omega

/-- The call drops a reference to a cache slot that it holds. -/
theorem wp_iput_balanced (hk : Balanced p fresh files (slots + token (some i)) k)
    (hslots : 0 ≤ k.cwds i + slots i)
    (h : ∀ k', k'.proc = k.proc → Balanced p fresh files slots k' → Q () k') :
    wp (onFiles (iput i)) Q E k := by
  rw [wp_onFiles]
  have hpos : 1 ≤ k.files.spare i := by
    rw [hk.inode i, Pi.add_apply, token_self]
    omega
  refine wp_iput hk.ok hpos fun inode hok hspare => h _ rfl ⟨hok, hk.file, fun j => ?_, hk.ended, hk.mem⟩
  have hinode := hk.inode j
  rw [Pi.add_apply] at hinode
  rw [hspare j]
  change _ = k.cwds j + _
  omega

theorem wp_ilock_balanced {ip : Option Nat} (hk : Balanced p fresh files slots k)
    (h : ∀ k', k'.proc = k.proc → (∀ i, ip = some i → (k'.files.inode i).valid = true) →
      Balanced p fresh files slots k' → Q () k') : wp (onFiles (ilock ip)) Q (fun _ => True) k := by
  rw [wp_onFiles]
  exact wp_ilock_quiet fun inode hquiet hvalid => h _ rfl hvalid (hk.quiet hquiet)

theorem wp_filealloc_balanced {Q : Option Nat → Kernel → Prop} (hk : Balanced p fresh files slots k)
    (hnone : Q none k) (hsome : ∀ f k', k'.proc = k.proc → k'.files.inode = k.files.inode →
      Balanced p (f :: fresh) (files + token (some f)) slots k' → Q (some f) k') :
    wp (onFiles filealloc) Q E k := by
  rw [wp_onFiles]
  refine wp_filealloc_ok hk.ok hnone fun f file _ _ _ hok hspare href =>
    hsome f _ rfl rfl ⟨hok, fun g => ?_, fun j => ?_, hk.ended, hk.mem⟩
  · have := hk.file g
    change (file g).ref = k.held g + _
    rw [Pi.add_apply, href g]
    omega
  · exact (hspare j).trans (hk.inode j)

theorem wp_filedup_balanced (hk : Balanced p [] files slots k)
    (h : ∀ k', k'.proc = k.proc → Balanced p [] (files + token (some f)) slots k' → Q () k') :
    wp (onFiles (filedup f)) Q (fun _ => True) k := by
  rw [wp_onFiles]
  refine wp_filedup_ok hk.ok (fun _ => trivial) fun file hok hspare href =>
    h _ rfl ⟨hok, fun g => ?_, fun j => ?_, hk.ended, hk.mem⟩
  · have := hk.file g
    change (file g).ref = k.held g + _
    rw [Pi.add_apply, href g]
    omega
  · exact (hspare j).trans (hk.inode j)

/-- The call drops a reference to a file that it holds. -/
theorem wp_fileclose_balanced (fresh' : List Nat)
    (hk : Balanced p fresh (files + token (some f)) slots k)
    (hfresh : ∀ g, g ∈ fresh' ↔ g ∈ fresh ∧ g ≠ f)
    (h : ∀ k', k'.proc = k.proc → Balanced p fresh' files slots k' → Q () k') :
    wp (onFiles (fileclose f)) Q (fun _ => True) k := by
  rw [wp_onFiles]
  refine (stable_fileclose_mem fun _ => stable_kfree).assume hk.mem ?_
  refine wp_fileclose_ok fresh' hk.ok hfresh fun s hok hspare href hmem =>
    h _ rfl ⟨hok, fun g => ?_, fun j => ?_, hk.ended, hmem⟩
  · have hfile := hk.file g
    rw [Pi.add_apply] at hfile
    change (s.file g).ref = k.held g + _
    rw [href g]
    omega
  · exact (hspare j).trans (hk.inode j)

/-- The call fills in a file that it has allocated. The file takes over a
reference to the cache slot that it is open on. -/
theorem wp_fill_balanced (fresh' : List Nat) {file : File}
    (hk : Balanced p fresh files (slots + token file.onSlot) k) (hf : f ∈ fresh)
    (hfresh : ∀ g, g ∈ fresh' ↔ g ∈ fresh ∧ g ≠ f) (href : file.ref = (k.files.file f).ref)
    (htype : file.type ≠ .none) (hbacked : file.type = .inode ∨ file.type = .device →
      ∃ i, file.ip = some i ∧ (k.files.inode i).valid = true) (hslots : ∀ j, 0 ≤ slots j)
    (h : ∀ k', k'.proc = k.proc → Balanced p fresh' files slots k' → Q () k') :
    wp (onFiles (setFile f file)) Q (fun _ => True) k := by
  rw [wp_onFiles]
  refine (stable_of_keeps (J := Kmem.Ok) keeps_setFile_kmem).assume hk.mem ?_
  refine wp_fill fresh' hk.ok hf hfresh href htype hbacked (fun j => ?_)
    fun s hok hspare hrefs hmem => h _ rfl ⟨hok, fun g => ?_, fun j => ?_, hk.ended, hmem⟩
  · have := cwds_nonneg k j
    have := hslots j
    rw [hk.inode j, Pi.add_apply]
    omega
  · exact (hrefs g).trans (hk.file g)
  · have hinode := hk.inode j
    rw [Pi.add_apply] at hinode
    change s.spare j = k.cwds j + _
    rw [hspare j]
    omega

end balanced

end Xv6.Sys
