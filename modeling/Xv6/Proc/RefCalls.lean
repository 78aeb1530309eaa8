import Xv6.Proc.Refs

/-!
# Every call keeps the account of references

Between two calls nothing is held but by processes and open files: the state
is `RefsExact`. Each system call is followed from such a state to such a
state, through all of its error exits, and `run_refs` says that every state of
every run is one.
-/

namespace Xv6.Sys

open Xv6.Lib Xv6.Lib.CInt Xv6.Vm Function
open Act

variable {α : Type} {pr : Proc} {f addr i np : Nat} {fresh : List Nat} {files slots : Nat → Int}
  {n : Int} {pt : PageTable} {fd : UInt64} {v : Vma} {found q : Option Nat} {k : Kernel}

/-! ## System calls -/

section calls

variable {p : Nat}

/-- The reference counts are exact between two calls. -/
abbrev RefsExact (k : Kernel) : Prop := Balanced none [] 0 0 k

theorem wp_fdalloc_balanced {Q : Option Nat → Kernel → Prop} {E : Panic → Prop} (hp : p < NPROC)
    (hrun : (k.proc p).state = .runnable) (hk : Balanced q fresh files slots k) (hnone : Q none k)
    (hsome : ∀ fd k', k'.files = k.files →
      Balanced q fresh (files - token (some f)) slots k' → Q (some fd) k') :
    wp (fdalloc p f) Q E k := by
  refine wp_fdalloc hnone fun fd hlt hfree => ?_
  have hk' := hk.setOfile (o := some f) (n := k.nextpid) hp (fun _ => hrun) hlt
  rw [hfree, token_none, add_zero] at hk'
  exact hsome fd _ rfl hk'

theorem refView_update (files : Files) (n : Nat) (h : pr.owns = (k.proc p).owns)
    (hfile : files.file = k.files.file) (hinode : files.inode = k.files.inode) :
    Kernel.refView ⟨files, update k.proc p pr, n⟩ = k.refView := by
  unfold Kernel.refView
  congr 1
  funext q
  by_cases hq : q = p
  · subst hq
    simp only [update_self, h]
  · simp only [update_of_ne hq]

section mild

variable {view : RefView}

theorem mild_onMem {m : KmemM α} (h : Stable Kmem.Ok m) : Stable (Mild view) (onMem m) := by
  refine ⟨fun k hk => ?_⟩
  rw [wp_onMem]
  exact h.wp hk.2 fun _ _ hm => ⟨hk.1, hm⟩

theorem mild_setProc {f : Proc → Proc} (h : ∀ pr, (f pr).owns = pr.owns) :
    Stable (Mild view) (setProc p f) :=
  .modify fun k hk =>
    ⟨(refView_update k.files k.nextpid (h (k.proc p)) rfl rfl).trans hk.1, hk.2⟩

theorem mild_onPagetable {m : PageTable → KmemM (PageTable × α)}
    (h : ∀ pt, Stable Kmem.Ok (m pt)) : Stable (Mild view) (onPagetable p m) :=
  .bind .get fun _ => .bind (mild_onMem (h _)) fun _ =>
    .bind (mild_setProc fun _ => rfl) fun _ => .pure

theorem mild_unmapPages {length : Int} : Stable (Mild view) (unmapPages p addr length) :=
  mild_onPagetable fun _ => .bind stable_uvmunmap fun _ => .pure

theorem mild_growproc : Stable (Mild view) (growproc p n) := by
  unfold growproc
  refine .bind .get fun k => ?_
  extract_lets sz newsz
  refine .ite ?_ (.ite ?_ ?_)
  · refine .bind (mild_onPagetable fun _ => stable_uvmalloc) fun r => .ite .pure ?_
    exact .bind (mild_setProc fun _ => rfl) fun _ => .pure
  · refine .bind (mild_onPagetable fun _ => stable_uvmdealloc) fun r => ?_
    exact .bind (mild_setProc fun _ => rfl) fun _ => .pure
  · exact .bind (mild_setProc fun _ => rfl) fun _ => .pure

end mild

theorem stable_of_mild {m : KernelM α} (h : ∀ view, Stable (Mild view) m) : Stable RefsExact m :=
  ⟨fun _ hk => (h _).wp hk.mild fun _ _ h' => hk.of_mild h'⟩

theorem stable_onMem {m : KmemM α} (h : Stable Kmem.Ok m) : Stable RefsExact (onMem m) :=
  stable_of_mild fun _ => mild_onMem h

theorem stable_ilock {ip : Option Nat} : Stable RefsExact (onFiles (ilock ip)) :=
  ⟨fun _ hk => wp_ilock_balanced hk fun _ _ _ hk' => hk'⟩

theorem stable_fileread {input : List UInt8} :
    Stable RefsExact (onFiles (fileread pt f addr n input)) := by
  refine ⟨fun k hk => ?_⟩
  rw [wp_onFiles]
  exact wp_post wp_fileread fun _ _ hs => hk.quiet hs

theorem stable_filewrite : Stable RefsExact (onFiles (filewrite pt f addr n)) := by
  refine ⟨fun k hk => ?_⟩
  rw [wp_onFiles]
  exact wp_post wp_filewrite fun _ _ hs => hk.quiet hs

theorem stable_sysRead {addr n : UInt64} {input : List UInt8} :
    Stable RefsExact (sysRead p fd addr n input) := by
  refine .bind .get fun k => ?_
  split
  · exact .pure
  · exact stable_fileread

theorem stable_sysWrite {addr n : UInt64} : Stable RefsExact (sysWrite p fd addr n) := by
  refine .bind .get fun k => ?_
  split
  · exact .pure
  · exact stable_filewrite

theorem stable_mapFilePage {va : Int} {pa : Nat} : Stable RefsExact (mapFilePage p v va pa) := by
  unfold mapFilePage
  refine .bind (stable_onMem stable_memset) fun _ => ?_
  refine .bind .get fun k => ?_
  extract_lets file ip offset
  refine .bind stable_ilock fun _ => .bind .get fun k => ?_
  split
  refine .bind (stable_onMem (.modify fun _ h => h.setMem _)) fun _ => .ite ?_ ?_
  · exact .bind (stable_onMem stable_kfree) fun _ => .pure
  · refine .bind (stable_of_mild fun _ => mild_onPagetable fun _ => stable_mappages) fun r => ?_
    exact .ite (.bind (stable_onMem stable_kfree) fun _ => .pure) .pure

theorem stable_pageFault {sp va cause : Nat} : Stable RefsExact (pageFault p sp va cause) := by
  have hkill : Stable RefsExact (setProc p fun pr => { pr with killed := true }) :=
    stable_of_mild fun _ => mild_setProc fun _ => rfl
  unfold pageFault mmapHandler
  refine .bind .get fun k => .ite (.bind ?_ fun r => .when hkill) hkill
  refine .bind .get fun k => ?_
  split
  · exact .pure
  · extract_lets v file
    refine .ite .pure (.ite .pure ?_)
    refine .bind (stable_onMem stable_kalloc) fun r => ?_
    split
    · exact .pure
    · exact stable_mapFilePage

theorem stable_load {sp va : UInt64} : Stable RefsExact (load p sp va) := by
  refine .bind .get fun k => ?_
  split
  · exact .pure
  · exact stable_pageFault

theorem stable_store {sp va : UInt64} {b : UInt8} : Stable RefsExact (store p sp va b) := by
  refine .bind .get fun k => ?_
  split
  · exact stable_onMem (.modify fun _ h => h.setMem _)
  · exact stable_pageFault

theorem stable_sysSbrk {n : UInt64} : Stable RefsExact (sysSbrk p n) := by
  unfold sysSbrk
  refine .bind .get fun k => ?_
  extract_lets addr
  refine .bind (stable_of_mild fun _ => mild_growproc) fun r => ?_
  exact .ite .pure .pure

section running

variable (hp : p < NPROC) (hrun : (k.proc p).state = .runnable) (hk : RefsExact k)
include hp hrun hk

theorem ends_sysDup : Ends (sysDup p fd) RefsExact k := by
  unfold Ends sysDup
  rw [wp_bind, wp_get]
  split
  · exact wp_pure.mpr hk
  · rw [wp_bind]
    refine wp_fdalloc_balanced hp hrun hk (wp_pure.mpr hk) fun fd' k1 _ hk1 => ?_
    rw [wp_bind]
    refine wp_filedup_balanced hk1 fun k2 _ hk2 => wp_pure.mpr ?_
    rwa [sub_add_cancel] at hk2

theorem ends_sysClose : Ends (sysClose p fd) RefsExact k := by
  unfold Ends sysClose
  rw [wp_bind, wp_get]
  split
  · exact wp_pure.mpr hk
  · rename_i f hf
    unfold argfd at hf
    split at hf
    · exact absurd hf (by simp)
    · rename_i hrange
      have hlt : (argint fd).toNat < NOFILE := by omega
      have hk1 := hk.setOfile (o := none) (n := k.nextpid) hp (fun _ => hrun) hlt
      rw [hf, token_none, sub_zero] at hk1
      rw [wp_bind, wp_setProc, wp_bind]
      exact wp_fileclose_balanced [] hk1 (by simp) fun k2 _ hk2 => wp_pure.mpr hk2

end running

theorem mild_openInode {view : RefView} {inum : Nat} {omode : Int} :
    Stable (Mild view) (onFiles (openInode inum omode)) := by
  refine ⟨fun k hk => ?_⟩
  unfold openInode
  rw [wp_onFiles, wp_bind, wp_get]
  exact wp_when (fun _ => wp_modify.mpr hk) fun _ => hk

theorem openFile_type (file : File) (ip : DInode) (i : Nat) (omode : Int) :
    (openFile file ip i omode).type = .inode ∨ (openFile file ip i omode).type = .device := by
  unfold openFile
  split
  · exact .inr rfl
  · exact .inl rfl

theorem openFile_onSlot (file : File) (ip : DInode) (i : Nat) (omode : Int) :
    (openFile file ip i omode).onSlot = some i :=
  (File.onSlot_of_type (openFile_type file ip i omode)).trans rfl

theorem ends_sysOpen {mode : UInt64} (hp : p < NPROC) (hrun : (k.proc p).state = .runnable)
    (hk : RefsExact k) : Ends (sysOpen p found mode) RefsExact k := by
  unfold Ends sysOpen
  extract_lets omode
  split
  · exact wp_pure.mpr hk
  rename_i inum
  rw [wp_bind]
  refine mild_openInode.wp hk.mild fun _ k1 h1 => ?_
  rw [wp_bind]
  refine wp_iget_balanced (hk.of_mild h1) fun i k2 hproc2 hk2 => ?_
  rw [wp_bind]
  refine wp_ilock_balanced hk2 fun k3 hproc3 hvalid hk3 => ?_
  rw [wp_bind, wp_get]
  extract_lets ip
  refine wp_ite (fun _ => ?_) fun _ => ?_
  · rw [wp_bind]
    exact wp_iput_balanced hk3 (cwds_add_nonneg _ _) fun _ _ hk4 => wp_pure.mpr hk4
  rw [wp_bind]
  refine wp_filealloc_balanced hk3 ?_ fun f k4 hproc4 hinode4 hk4 => ?_
  · rw [wp_bind]
    exact wp_iput_balanced hk3 (cwds_add_nonneg _ _) fun _ _ hk4 => wp_pure.mpr hk4
  have hrun4 : (k4.proc p).state = .runnable := by
    rw [hproc4, hproc3, hproc2]
    exact (congrArg Owned.state (congrFun (congrArg RefView.owns h1.1) p)).trans hrun
  rw [wp_bind]
  refine wp_fdalloc_balanced hp hrun4 hk4 ?_ fun fd k5 hfiles5 hk5 => ?_
  · -- there is no descriptor
    rw [wp_bind]
    refine wp_fileclose_balanced [] hk4 (by simp) fun k5 _ hk5 => ?_
    rw [wp_bind]
    exact wp_iput_balanced hk5 (cwds_add_nonneg _ _) fun _ _ hk6 => wp_pure.mpr hk6
  -- the file takes over the reference to the inode
  rw [wp_bind, wp_get, wp_bind]
  rw [← openFile_onSlot (k5.files.file f) ip i omode, add_sub_cancel_right] at hk5
  refine wp_fill_balanced [] hk5 (by simp) (by simp) (by unfold openFile; split <;> rfl)
    ?_ ?_
    (fun _ => Int.le_refl 0) fun k6 _ hk6 => ?_
  · rcases openFile_type (k5.files.file f) ip i omode with h | h
    · exact fun h' => absurd (h.symm.trans h') (by simp)
    · exact fun h' => absurd (h.symm.trans h') (by simp)
  · rw [hfiles5, hinode4]
    exact fun _ => ⟨i, rfl, hvalid i rfl⟩
  rw [wp_bind]
  refine wp_when (fun _ => ?_) fun _ => wp_pure.mpr hk6
  rw [wp_onFiles, wp_modify]
  exact wp_pure.mpr (hk6.quiet .setDinode)

/-- The references that `pipealloc` hands to its caller. -/
def pipeTokens : Option (Nat × Nat) → Nat → Int
  | none => 0
  | some (rf, wf) => 0 + token (some wf) + token (some rf)

theorem wp_pipealloc_balanced (hk : RefsExact k) :
    wp pipealloc (fun r s => Balanced none [] (pipeTokens r) 0 { k with files := s })
      (fun _ => True) k.files := by
  have hstable : Stable (fun s : Files => s.kmem.Ok) pipealloc :=
    ⟨fun s hs => ends_pipealloc_mem (fun _ => stable_kfree) hs (stable_kalloc.stays _ hs)⟩
  refine hstable.assume hk.mem ?_
  refine wp_pipealloc_ok hk.ok (fun s hok hspare href hmem => ?_)
    fun rf wf s hok hspare href hmem => ?_
  · exact ⟨hok, fun f => (href f).trans (hk.file f),
      fun j => (hspare j).trans (hk.inode j), hk.ended, hmem⟩
  · refine ⟨hok, fun f => ?_, fun j => (hspare j).trans (hk.inode j), hk.ended, hmem⟩
    have := hk.file f
    change (s.file f).ref = k.held f + _
    rw [href f, pipeTokens, Pi.add_apply, Pi.add_apply]
    omega

section running

variable (hp : p < NPROC) (hrun : (k.proc p).state = .runnable) (hk : RefsExact k)
include hp hrun hk

theorem ends_sysPipe {fdarray : UInt64} : Ends (sysPipe p fdarray) RefsExact k := by
  refine ends_sysPipe_of (wp_pipealloc_balanced hk) (fun _ h => h)
    (fun _ _ _ mem _ _ _ h _ => h.setMem mem) (fun rf wf s h => ?_) ?_
  · refine wp_fileclose_balanced [] h (by simp) fun k1 _ hk1 => ?_
    exact wp_fileclose_balanced [] hk1 (by simp) fun k2 _ hk2 => hk2
  · intro rf wf fd0 fd1 s h hlt0 hlt1 hfree0 hfree1
    have hk1 := h.setOfile (o := some rf) (n := k.nextpid) hp (fun _ => hrun) hlt0
    have hk2 := hk1.setOfile (o := some wf) (n := k.nextpid) hp (fun _ => by simpa using hrun) hlt1
    simp only [update_self, update_idem, hfree0, hfree1, token_none, pipeTokens, add_zero,
      add_sub_cancel_right] at hk2
    exact hk2

theorem ends_sysMmap {addr length prot flags offset : UInt64} :
    Ends (sysMmap p addr length prot flags fd offset) RefsExact k := by
  unfold Ends sysMmap
  rw [wp_bind, wp_get]
  extract_lets pr
  split
  · exact wp_pure.mpr hk
  rename_i vfile _
  refine wp_ite (fun _ => wp_pure.mpr hk) fun _ => ?_
  refine wp_ite (fun _ => wp_pure.mpr hk) fun _ => ?_
  split
  · exact wp_panic.mpr trivial
  rename_i i hslot
  extract_lets v
  have hheld : v.held = some vfile := rfl
  clear_value v
  unfold freeSlot at hslot
  have hi : i < MAXMMAPITEM := List.mem_range.mp (List.mem_of_find?_eq_some hslot)
  have hunused : ((k.proc p).vma i).used = false := by simpa using List.find?_some hslot
  -- the new mapping holds a reference that is counted next
  have hk1 := hk.setVma (v := v) (n := k.nextpid) hp (fun _ => hrun) hi
  rw [hheld, Vma.held, hunused, if_neg Bool.false_ne_true, token_none, add_zero] at hk1
  rw [wp_bind, wp_setProc, wp_bind]
  refine wp_filedup_balanced hk1 fun k2 _ hk2 => ?_
  rw [sub_add_cancel] at hk2
  rw [wp_bind]
  refine (mild_setProc ?_).wp hk2.mild fun _ k3 h3 => wp_pure.mpr (hk2.of_mild h3)
  intro pr
  simp only [Proc.owns]

end running

theorem wp_writeBack_balanced {length : Int} {Q : Unit → Kernel → Prop}
    (hk : Balanced q [] files slots k)
    (h : ∀ k', k'.proc = k.proc → Balanced q [] files slots k' → Q () k') :
    wp (writeBack pt v addr length) Q (fun _ => True) k := by
  unfold writeBack
  refine wp_when (fun _ => ?_) fun _ => h k rfl hk
  rw [wp_bind, wp_onFiles]
  exact wp_post wp_filewrite fun _ s hs => wp_pure.mpr (h _ rfl (hk.quiet hs))

theorem munmapHit_held {v' : Vma} {length : Int} (h : v.munmapHit addr length = some v') :
    v'.held = v.held := by
  unfold Vma.munmapHit at h
  split at h
  · split at h
    · cases h
      rfl
    · split at h
      · cases h
        rfl
      · exact absurd h (by simp)
  · exact absurd h (by simp)

theorem ends_sysMunmap {a0 a1 : UInt64} (hp : p < NPROC) (hrun : (k.proc p).state = .runnable)
    (hk : RefsExact k) : Ends (sysMunmap p a0 a1) RefsExact k := by
  unfold Ends sysMunmap
  extract_lets addr length
  rw [wp_bind, wp_get]
  extract_lets pr
  split
  · exact wp_pure.mpr hk
  rename_i i hslot
  obtain ⟨hi, v, hhit, hused⟩ := munmapSlot_some hslot
  rw [hhit]
  extract_lets v'
  have hheld : v.held = ((k.proc p).vma i).held := munmapHit_held hhit
  have hk1 := hk.setVma (v := v) (n := k.nextpid) hp (fun _ => hrun) hi
  rw [hheld, add_sub_cancel_right] at hk1
  rw [wp_bind, wp_setProc, wp_bind]
  refine wp_writeBack_balanced hk1 fun k2 hproc2 hk2 => ?_
  rw [wp_bind]
  refine mild_unmapPages.wp hk2.mild fun _ k3 h3 => ?_
  have hk3 := hk2.of_mild h3
  have howns3 : (k3.proc p).owns = ⟨(k.proc p).state, (k.proc p).ofile,
      update (k.proc p).vma i v, (k.proc p).cwd⟩ := by
    refine (congrFun (congrArg RefView.owns h3.1) p).trans ?_
    change (k2.proc p).owns = _
    rw [hproc2]
    simp only [update_self]
    rfl
  have hrun3 : (k3.proc p).state = .runnable := (congrArg Owned.state howns3).trans hrun
  have hvma3 : (k3.proc p).vma i = v := by
    have hvma := congrFun (congrArg Owned.vma howns3) i
    exact hvma.trans (update_self ..)
  rw [wp_bind]
  refine wp_when (fun _ => ?_) fun _ => wp_pure.mpr hk3
  -- nothing is left of the mapping: its file is closed and its slot freed
  have hk3' : Balanced none [] (0 - token v.held + token (some v.vfile)) 0 k3 := by
    rw [Vma.held, hused, if_pos rfl, sub_add_cancel]
    exact hk3
  rw [wp_bind]
  refine wp_fileclose_balanced [] hk3' (by simp) fun k4 hproc4 hk4 => ?_
  rw [wp_setProc, wp_pure]
  rw [← hproc4] at hrun3
  have hk5 := hk4.setVma (v := { v with used := false }) (n := k4.nextpid) hp (fun _ => hrun3) hi
  rwa [hproc4, hvma3, sub_add_cancel, show Vma.held { v with used := false } = none from rfl,
    token_none, sub_zero, ← hproc4] at hk5

theorem wp_execImage_balanced {ip : DInode} {elf : Bytes}
    (hk : Balanced q [] 0 (0 + token (some i)) k) :
    Ends (execImage ip elf (iput i) pt) (Balanced q [] 0 0) k := by
  have hfree : ∀ {view pt sz}, Stable (Mild view) (onMem (procFreepagetable pt sz)) :=
    mild_onMem stable_procFreepagetable
  unfold Ends execImage
  rw [wp_bind]
  refine (mild_onMem stable_loadProgram).wp hk.mild fun r k1 h1 => ?_
  split
  · rw [wp_bind]
    refine hfree.wp h1 fun _ k2 h2 => ?_
    rw [wp_bind]
    exact wp_iput_balanced (hk.of_mild h2) (cwds_add_nonneg _ _) fun k3 _ hk3 => wp_pure.mpr hk3
  · rw [wp_bind]
    refine wp_iput_balanced (hk.of_mild h1) (cwds_add_nonneg _ _) fun k2 _ hk2 => ?_
    rw [wp_bind]
    refine (mild_onMem stable_allocStack).wp hk2.mild fun r k3 h3 => ?_
    refine wp_ite (fun _ => wp_pure.mpr (hk2.of_mild h3)) fun _ => ?_
    rw [wp_bind]
    exact hfree.wp h3 fun _ k4 h4 => wp_pure.mpr (hk2.of_mild h4)

theorem ends_execLoad (hk : RefsExact k) : Ends (execLoad p found) RefsExact k := by
  unfold Ends execLoad
  split
  · exact wp_pure.mpr hk
  rw [wp_bind]
  refine wp_iget_balanced hk fun i k1 _ hk1 => ?_
  rw [wp_bind]
  refine wp_ilock_balanced hk1 fun k2 _ _ hk2 => ?_
  rw [wp_bind, wp_get]
  extract_lets ip
  split
  refine wp_ite (fun _ => ?_) fun _ => ?_
  · rw [wp_bind]
    exact wp_iput_balanced hk2 (cwds_add_nonneg _ _) fun k3 _ hk3 => wp_pure.mpr hk3
  rw [wp_bind]
  refine (mild_onMem stable_procPagetable).wp hk2.mild fun r k3 h3 => ?_
  have hk3 := hk2.of_mild h3
  split
  · rw [wp_bind]
    exact wp_iput_balanced hk3 (cwds_add_nonneg _ _) fun k4 _ hk4 => wp_pure.mpr hk4
  exact wp_ret (wp_execImage_balanced hk3)

theorem mild_execCommit {view : RefView} {entry sz : Nat} {argv : List (List UInt8)} :
    Stable (Mild view) (execCommit p entry argv pt sz) := by
  refine .bind .get fun k => ?_
  split
  · refine .bind (mild_onMem (.modify fun _ h => h.setMem _)) fun _ => ?_
    exact .bind (mild_onMem stable_procFreepagetable) fun _ => .pure
  · refine .bind (mild_onMem (.modify fun _ h => h.setMem _)) fun _ => ?_
    refine .bind (mild_setProc fun pr => ?_) fun _ => ?_
    · simp only [Proc.owns]
    · exact .bind (mild_onMem stable_procFreepagetable) fun _ => .pure

theorem ends_exec {argv : List (List UInt8)} (hk : RefsExact k) :
    Ends (exec p found argv) RefsExact k := by
  unfold Ends exec
  rw [wp_bind]
  refine wp_post (ends_execLoad hk) fun r k1 hk1 => ?_
  split
  · exact wp_pure.mpr hk1
  · exact mild_execCommit.wp hk1.mild fun _ _ h => hk1.of_mild h

/-! ## The end of a process -/

theorem ends_setProc {f : Proc → Proc} (hk : Balanced (some p) [] 0 0 k) (hp : p < NPROC)
    (hofile : (f (k.proc p)).ofile = (k.proc p).ofile)
    (hvma : (f (k.proc p)).vma = (k.proc p).vma) (hcwd : (f (k.proc p)).cwd = (k.proc p).cwd)
    (hended : (f (k.proc p)).Ended) : Ends (setProc p f) RefsExact k := by
  rw [Ends, wp_setProc]
  refine Balanced.finish (hk.setProc hp (absurd rfl) (fun g => ?_) fun i => ?_) ?_
  · rw [holds_congr hofile hvma]
  · rw [hcwd]
  · simp only [update_self]
    exact hended

theorem ends_exit {status : Int} (hp : p < NPROC) (hk : RefsExact k) :
    Ends (exit p status) RefsExact k := by
  unfold Ends exit
  refine wp_ite (fun _ => wp_panic.mpr trivial) fun _ => ?_
  rw [wp_bind]
  -- the descriptors below the loop counter are closed
  refine wp_post (wp_iter (fun fd _ k' => Balanced (some p) [] 0 0 k' ∧
    ∀ j < fd, (k'.proc p).ofile j = none) ⟨hk.start, by simp⟩ ?_) ?_
  · rintro fd _ k1 - hfd ⟨hk1, hclosed⟩
    rw [wp_bind, wp_get]
    split
    · rename_i hnone
      refine wp_pure.mpr ⟨hk1, fun j hj => ?_⟩
      by_cases hj' : j = fd
      · rw [hj', hnone]
      · exact hclosed j (by omega)
    · rename_i f hf
      have hk1' : Balanced (some p) [] (0 - token (some f) + token (some f)) 0 k1 := by
        rw [sub_add_cancel]
        exact hk1
      rw [wp_bind]
      refine wp_fileclose_balanced [] hk1' (by simp) fun k2 hproc2 hk2 => ?_
      have hk3 := hk2.setOfile (o := none) (n := k2.nextpid) hp (absurd rfl)
        (show fd < NOFILE by omega)
      rw [hproc2, hf, sub_add_cancel, token_none, sub_zero] at hk3
      rw [wp_setProc, hproc2]
      refine ⟨hk3, fun j hj => ?_⟩
      simp only [update_self]
      by_cases hj' : j = fd
      · rw [hj', update_self]
      · rw [update_of_ne hj']
        exact hclosed j (by omega)
  · rintro _ k1 ⟨hk1, hclosed⟩
    exact ends_setProc hk1 hp rfl rfl rfl
      ⟨fun fd hfd => hclosed fd (by omega), nofun⟩

theorem ends_exitVma (hp : p < NPROC) (hi : i < MAXMMAPITEM)
    (hstate : (k.proc p).state = .exiting i) (hk : RefsExact k) :
    Ends (exitVma p i) RefsExact k := by
  have hended := hk.ended p (by simp)
  unfold Proc.Ended at hended
  rw [hstate] at hended
  obtain ⟨hofile, hvma⟩ := hended
  -- whatever the round did, the slots up to `i` are now unused
  have hlast : ∀ k' : Kernel, Balanced (some p) [] 0 0 k' →
      (k'.proc p).ofile = (k.proc p).ofile →
      (∀ j < i + 1, ((k'.proc p).vma j).used = false) →
      Ends (setProc p fun pr => { pr with state := .exiting (i + 1) }) RefsExact k' := by
    intro k' hk' hofile' hvma'
    refine ends_setProc hk' hp rfl rfl rfl ⟨fun fd hfd => ?_, hvma'⟩
    rw [hofile']
    exact hofile fd hfd
  unfold Ends exitVma
  rw [wp_bind, wp_get]
  extract_lets v
  rw [wp_bind]
  refine wp_when (fun hused => ?_) fun hunused => ?_
  · have hheld : v.held = some v.vfile := if_pos hused
    rw [wp_bind]
    refine wp_writeBack_balanced (hk.start (q := p)) fun k1 hproc1 hk1 => ?_
    have hk1' : Balanced (some p) [] (0 - token (some v.vfile) + token (some v.vfile)) 0 k1 := by
      rw [sub_add_cancel]
      exact hk1
    rw [wp_bind]
    refine wp_fileclose_balanced [] hk1' (by simp) fun k2 hproc2 hk2 => ?_
    rw [wp_bind]
    refine mild_unmapPages.wp hk2.mild fun _ k3 h3 => ?_
    have hk3 := hk2.of_mild h3
    have howns3 : (k3.proc p).owns = (k.proc p).owns := by
      refine (congrFun (congrArg RefView.owns h3.1) p).trans ?_
      change (k2.proc p).owns = _
      rw [hproc2, hproc1]
    have hvma3 : (k3.proc p).vma = (k.proc p).vma := congrArg Owned.vma howns3
    have hofile3 : (k3.proc p).ofile = (k.proc p).ofile := congrArg Owned.ofile howns3
    have hk4 := hk3.setVma (v := { (k3.proc p).vma i with used := false }) (n := k3.nextpid) hp
      (absurd rfl) hi
    rw [hvma3, hheld, sub_add_cancel,
      show Vma.held { (k.proc p).vma i with used := false } = none from rfl, token_none,
      sub_zero] at hk4
    rw [wp_setProc, hvma3]
    refine hlast _ hk4 ?_ fun j hj => ?_
    · simp only [update_self]
      exact hofile3
    · simp only [update_self]
      by_cases hj' : j = i
      · rw [hj', update_self]
      · rw [update_of_ne hj']
        exact hvma j (by omega)
  · refine hlast k hk.start rfl fun j hj => ?_
    by_cases hj' : j = i
    · rw [hj']
      exact Bool.eq_false_of_not_eq_true hunused
    · exact hvma j (by omega)

theorem mild_reparent {view : RefView} : Stable (Mild view) (reparent p) := by
  refine .modify fun k hk => ⟨Eq.trans ?_ hk.1, hk.2⟩
  unfold Kernel.refView
  congr 1
  funext q
  dsimp only
  split
  · rfl
  · rfl

/-- The reference to the current directory is dropped while the process still
names it. -/
theorem wp_iput_cwd_balanced (hp : p < NPROC) (hk : Balanced q fresh files slots k)
    (hslots : ∀ i, 0 ≤ slots i) :
    wp (Act.when (k.proc p).cwd.isSome (onFiles (iput ((k.proc p).cwd.getD 0))))
      (fun _ k1 => k1.proc = k.proc ∧
        Balanced q fresh files (slots - token (k.proc p).cwd) k1) (fun _ => True) k := by
  refine wp_when (fun hsome => ?_) fun hnone => ⟨rfl, ?_⟩
  · obtain ⟨i, hi⟩ := Option.isSome_iff_exists.mp hsome
    have hk' : Balanced q fresh files (slots - token (some i) + token (some i)) k := by
      rw [sub_add_cancel]
      exact hk
    rw [hi, Option.getD_some]
    refine wp_iput_balanced hk' ?_ fun k1 hproc1 hk1 => ⟨hproc1, hk1⟩
    have hcwd : 1 ≤ k.cwds i := one_le_tally (g := fun q => (k.proc q).cwd) hp hi
    have hle := hslots i
    rw [Pi.sub_apply, token_self]
    omega
  · rw [Option.not_isSome_iff_eq_none.mp hnone, token_none, sub_zero]
    exact hk

theorem ends_sysChdir (hp : p < NPROC) (hrun : (k.proc p).state = .runnable) (hk : RefsExact k) :
    Ends (sysChdir p found) RefsExact k := by
  unfold Ends sysChdir
  split
  · exact wp_pure.mpr hk
  rw [wp_bind]
  refine wp_iget_balanced hk fun i k1 hproc1 hk1 => ?_
  rw [wp_bind]
  refine wp_ilock_balanced hk1 fun k2 hproc2 _ hk2 => ?_
  rw [wp_bind, wp_get]
  refine wp_ite (fun _ => ?_) fun _ => ?_
  · rw [wp_bind]
    exact wp_iput_balanced hk2 (cwds_add_nonneg _ _) fun k3 _ hk3 => wp_pure.mpr hk3
  rw [wp_bind]
  refine wp_post (wp_iput_cwd_balanced hp hk2 fun j => ?_) ?_
  · rw [zero_add]
    exact token_nonneg _ _
  rintro _ k3 ⟨hproc3, hk3⟩
  rw [wp_bind, wp_setProc, wp_pure]
  refine hk3.setProc hp (fun _ => ended_of_runnable ?_) (fun f => rfl) fun j => ?_
  · change (k3.proc p).state = _
    rw [hproc3, hproc2, hproc1]
    exact hrun
  · rw [hproc3, Pi.sub_apply, zero_add, Pi.zero_apply]
    exact (zero_add _).trans (sub_add_cancel _ _).symm

theorem ends_exitEnd (hp : p < NPROC) (hstate : (k.proc p).state = .exiting MAXMMAPITEM)
    (hk : RefsExact k) : Ends (exitEnd p) RefsExact k := by
  have hended := hk.ended p (by simp)
  unfold Proc.Ended at hended
  rw [hstate] at hended
  obtain ⟨hofile, hvma⟩ := hended
  unfold Ends exitEnd
  rw [wp_bind, wp_get, wp_bind]
  refine wp_post (wp_iput_cwd_balanced hp (hk.start (q := p)) fun _ => le_rfl) ?_
  rintro _ k1 ⟨hproc1, hk1⟩
  have hk2 : Balanced (some p) [] 0 0
      ⟨k1.files, update k1.proc p { k1.proc p with cwd := none }, k1.nextpid⟩ := by
    refine hk1.setProc hp (absurd rfl) (fun f => rfl) fun i => ?_
    rw [hproc1, Pi.sub_apply, token_none, Pi.zero_apply]
    omega
  rw [wp_bind, wp_setProc, wp_bind]
  refine mild_reparent.wp hk2.mild fun _ k3 h3 => ?_
  have howns3 : (k3.proc p).owns = ⟨(k.proc p).state, (k.proc p).ofile, (k.proc p).vma, none⟩ := by
    refine (congrFun (congrArg RefView.owns h3.1) p).trans ?_
    simp only [Kernel.refView, update_self, hproc1, Proc.owns]
  have hofile3 : (k3.proc p).ofile = (k.proc p).ofile := congrArg Owned.ofile howns3
  have hvma3 : (k3.proc p).vma = (k.proc p).vma := congrArg Owned.vma howns3
  have hcwd3 : (k3.proc p).cwd = none := congrArg Owned.cwd howns3
  refine ends_setProc (hk2.of_mild h3) hp rfl rfl rfl ⟨?_, ?_, hcwd3⟩
  · intro fd hfd
    rw [hofile3]
    exact hofile fd hfd
  · intro j hj
    rw [hvma3]
    exact hvma j hj

theorem Proc.Blank.of_mild {k' : Kernel} (h : (k.proc p).Blank) (hk' : Mild k.refView k') :
    (k'.proc p).Blank :=
  h.of_owns (congrFun (congrArg RefView.owns hk'.1) p)

theorem ends_freeproc (hp : p < NPROC) (hk : Balanced (some p) [] 0 0 k)
    (hblank : (k.proc p).Blank) : Ends (freeproc p) RefsExact k := by
  unfold Ends freeproc
  rw [wp_bind, wp_get, wp_bind]
  refine (Stable.when (mild_onMem stable_kfree)).wp hk.mild fun _ k1 h1 => ?_
  rw [wp_bind]
  refine (Stable.when (mild_onMem stable_procFreepagetable)).wp h1 fun _ k2 h2 => ?_
  have hblank2 := hblank.of_mild h2
  exact ends_setProc (hk.of_mild h2) hp rfl rfl rfl
    ⟨hblank2.ofile, hblank2.vma, hblank2.cwd⟩

theorem ends_wait (hk : RefsExact k) : Ends (wait p addr) RefsExact k := by
  refine ends_wait_of hk (fun _ _ mem _ _ => hk.setMem mem) fun np hnp hzombie mem hk' => ?_
  have hended := hk.ended np (by simp)
  unfold Proc.Ended at hended
  rw [hzombie] at hended
  exact ends_freeproc hnp hk'.start hended

/-! ## New processes -/

theorem wp_allocproc_balanced {Q : Option Nat → Kernel → Prop} (hk : RefsExact k)
    (hnone : ∀ k', RefsExact k' → Q none k')
    (hsome : ∀ np k', np < NPROC → (k'.proc np).Blank → Balanced (some np) [] 0 0 k' →
      Q (some np) k') : wp allocproc Q (fun _ => True) k := by
  unfold allocproc
  rw [wp_bind, wp_get]
  split
  · exact wp_pure.mpr (hnone k hk)
  rename_i np hfind
  have hnp : np < NPROC := List.mem_range.mp (List.mem_of_find?_eq_some hfind)
  have hunused : (k.proc np).state = .unused := by simpa using List.find?_some hfind
  have hblank : (k.proc np).Blank := by
    have hended := hk.ended np (by simp)
    unfold Proc.Ended at hended
    rwa [hunused] at hended
  -- until the page table is there, nothing happens that the account is about
  rw [wp_bind]
  refine Stable.wp (.modify fun _ h => h) hk.mild fun _ k1 h1 => ?_
  rw [wp_bind]
  refine (mild_setProc fun _ => ?_).wp h1 fun _ k2 h2 => ?_
  · rfl
  rw [wp_bind]
  refine (mild_onMem stable_kalloc).wp h2 fun r k3 h3 => ?_
  split
  · rw [wp_bind]
    refine (mild_setProc fun _ => ?_).wp h3 fun _ k4 h4 => wp_pure.mpr (hnone k4 (hk.of_mild h4))
    rfl
  rw [wp_bind]
  refine (mild_setProc fun _ => ?_).wp h3 fun _ k4 h4 => ?_
  · rfl
  rw [wp_bind]
  refine (mild_onMem stable_procPagetable).wp h4 fun r k5 h5 => ?_
  split
  · rw [wp_bind]
    refine (mild_setProc fun _ => ?_).wp h5 fun _ k6 h6 => ?_
    · rfl
    rw [wp_bind]
    exact wp_post (ends_freeproc hnp (hk.start.of_mild h6) (hblank.of_mild h6))
      fun _ k7 hk7 => wp_pure.mpr (hnone k7 hk7)
  · rename_i pt
    have hblank5 := hblank.of_mild h5
    rw [wp_bind, wp_setProc, wp_pure]
    have hcleared : Proc.Blank { k5.proc np with pagetable := pt, vma := fun _ => {} } :=
      ⟨hblank5.ofile, fun _ _ => rfl, hblank5.cwd⟩
    refine hsome np _ hnp ?_ ((hk.start.of_mild h5).setProc hnp (absurd rfl) (fun f => ?_)
      fun _ => rfl)
    · simp only [update_self]
      exact hcleared
    · rw [hcleared.holds, hblank5.holds]

theorem wp_forkFiles_balanced (hnp : np < NPROC) (hblank : (k.proc np).Blank)
    (hk : Balanced (some np) [] 0 0 k) :
    wp (forkFiles p np) (fun _ k' => Balanced (some np) [] 0 0 k' ∧
      (k'.proc np).vma = (k.proc np).vma ∧ (k'.proc np).cwd = none) (fun _ => True) k := by
  unfold forkFiles
  -- the descriptors of the child from the loop counter on are free
  refine wp_post (wp_iter (fun fd _ k' => Balanced (some np) [] 0 0 k' ∧
    (∀ j, fd ≤ j → j < NOFILE → (k'.proc np).ofile j = none) ∧
    (k'.proc np).vma = (k.proc np).vma ∧ (k'.proc np).cwd = none)
    ⟨hk, fun j _ hj => hblank.ofile j hj, rfl, hblank.cwd⟩ ?_) (fun _ k' h => ⟨h.1, h.2.2⟩)
  rintro fd _ k1 - hfd ⟨hk1, hfree, hvma, hcwd⟩
  rw [wp_bind, wp_get]
  split
  · exact wp_pure.mpr ⟨hk1, fun j hj => hfree j (by omega), hvma, hcwd⟩
  · rename_i f hf
    rw [wp_bind]
    refine wp_filedup_balanced hk1 fun k2 hproc2 hk2 => ?_
    have hk3 := hk2.setOfile (o := some f) (n := k2.nextpid) hnp (absurd rfl)
      (show fd < NOFILE by omega)
    rw [hproc2, hfree fd (Nat.le_refl _) (by omega), token_none, add_zero, add_sub_cancel_right] at hk3
    rw [wp_setProc, hproc2]
    refine ⟨hk3, fun j hj hlt => ?_, ?_, ?_⟩
    · simp only [update_self]
      rw [update_of_ne (by omega)]
      exact hfree j (by omega) hlt
    · simp only [update_self]
      exact hvma
    · simp only [update_self]
      exact hcwd

theorem wp_forkVmas_balanced (hnp : np < NPROC)
    (hfree : ∀ j < MAXMMAPITEM, ((k.proc np).vma j).used = false)
    (hk : Balanced (some np) [] 0 0 k) : Ends (forkVmas p np) (Balanced (some np) [] 0 0) k := by
  unfold Ends forkVmas
  refine wp_post (wp_iter (fun i _ k' => Balanced (some np) [] 0 0 k' ∧
    ∀ j, i ≤ j → j < MAXMMAPITEM → ((k'.proc np).vma j).used = false)
    ⟨hk, fun j _ hj => hfree j hj⟩ ?_) (fun _ k' h => h.1)
  rintro i _ k1 - hi ⟨hk1, hfree⟩
  rw [wp_bind, wp_get]
  extract_lets v
  refine wp_ite (fun hused => ?_) fun _ => ?_
  · have hi : i < MAXMMAPITEM := by omega
    have hheld : v.held = some v.vfile := if_pos hused
    have hfreed : ((k1.proc np).vma i).held = none :=
      if_neg (by rw [hfree i (Nat.le_refl _) hi]; exact Bool.false_ne_true)
    have hk2 := hk1.setVma (v := v) (n := k1.nextpid) hnp (absurd rfl) hi
    rw [hfreed, token_none, add_zero, hheld] at hk2
    rw [wp_bind, wp_setProc]
    refine wp_filedup_balanced hk2 fun k3 hproc3 hk3 => ⟨?_, fun j hj hlt => ?_⟩
    · rwa [sub_add_cancel] at hk3
    · rw [hproc3]
      simp only [update_self]
      rw [update_of_ne (by omega)]
      exact hfree j (by omega) hlt
  · exact wp_pure.mpr ⟨hk1, fun j hj => hfree j (by omega)⟩

/-- The first reference of a process to its current directory. -/
theorem Balanced.setCwd {n : Nat} {f : Proc → Proc}
    (hk : Balanced (some np) [] 0 (0 + token (some i)) k) (hnp : np < NPROC)
    (hnone : (k.proc np).cwd = none) (hofile : (f (k.proc np)).ofile = (k.proc np).ofile)
    (hvma : (f (k.proc np)).vma = (k.proc np).vma) (hcwd : (f (k.proc np)).cwd = some i) :
    Balanced (some np) [] 0 0 ⟨k.files, update k.proc np (f (k.proc np)), n⟩ := by
  refine hk.setProc hnp (absurd rfl) (fun g => ?_) fun j => ?_
  · rw [holds_congr hofile hvma]
  · rw [hcwd, hnone, token_none, zero_add, add_comm]

theorem wp_forkCwd_balanced (hnp : np < NPROC) (hcwd : (k.proc np).cwd = none)
    (hk : Balanced (some np) [] 0 0 k) :
    wp (forkCwd p np) (fun _ k' => Balanced (some np) [] 0 0 k' ∧
      (k'.proc np).vma = (k.proc np).vma) (fun _ => True) k := by
  unfold forkCwd
  rw [wp_bind, wp_get]
  split
  · exact wp_pure.mpr ⟨hk, rfl⟩
  · rename_i cwd _
    rw [wp_bind]
    refine wp_idup_balanced hk fun k1 hproc1 hk1 => ?_
    rw [wp_setProc]
    refine ⟨hk1.setCwd (f := fun pr => { pr with cwd := some cwd }) hnp ?_ rfl rfl rfl, ?_⟩
    · rw [hproc1]
      exact hcwd
    · simp only [update_self]
      rw [hproc1]

theorem ends_fork (hk : RefsExact k) : Ends (fork p) RefsExact k := by
  unfold Ends fork
  rw [wp_bind]
  refine wp_allocproc_balanced hk (fun k1 hk1 => wp_pure.mpr hk1) fun np k1 hnp hblank1 hk1 => ?_
  rw [wp_bind, wp_get, wp_bind]
  refine (mild_onPagetable fun _ => stable_uvmcopy).wp hk1.mild fun r k2 h2 => ?_
  refine wp_ite (fun _ => ?_) fun _ => ?_
  · exact wp_ret (ends_freeproc hnp (hk1.of_mild h2) (hblank1.of_mild h2))
  rw [wp_bind]
  refine (mild_setProc ?_).wp h2 fun _ k3 h3 => ?_
  · intro pr
    simp only [Proc.owns]
  have hblank3 := hblank1.of_mild h3
  rw [wp_bind]
  refine wp_post (wp_forkFiles_balanced hnp hblank3 (hk1.of_mild h3)) ?_
  rintro _ k4 ⟨hk4, hvma4, hcwd4⟩
  rw [wp_bind]
  refine wp_post (wp_forkCwd_balanced hnp hcwd4 hk4) ?_
  rintro _ k5 ⟨hk5, hvma5⟩
  rw [wp_bind]
  refine wp_post (wp_forkVmas_balanced hnp (fun j hj => ?_) hk5) fun _ k6 hk6 => ?_
  · rw [hvma5, hvma4]
    exact hblank3.vma j hj
  rw [wp_bind]
  refine wp_post (ends_setProc hk6 hnp rfl rfl rfl (ended_of_runnable rfl))
    (fun _ k7 hk7 => ?_)
  rw [wp_bind, wp_get, wp_pure]
  exact hk7

/-! ## Runs -/

/-- Every event leaves the reference counts exact. -/
theorem ends_step {e : Event} (henabled : Enabled k p e) (hk : RefsExact k) :
    Ends (step p e) RefsExact k := by
  cases e with
  | load sp va => exact wp_ret (stable_load.stays k hk)
  | store sp va b => exact wp_ret (stable_store.stays k hk)
  | openFile found mode => exact ends_sysOpen henabled.1 henabled.2.1 hk
  | pipe fdarray => exact ends_sysPipe henabled.1 henabled.2.1 hk
  | dup fd => exact ends_sysDup henabled.1 henabled.2.1 hk
  | close fd => exact ends_sysClose henabled.1 henabled.2.1 hk
  | chdir found => exact ends_sysChdir henabled.1 henabled.2.1 hk
  | read fd addr n input => exact stable_sysRead.stays k hk
  | write fd addr n => exact stable_sysWrite.stays k hk
  | mmap addr length prot flags fd offset => exact ends_sysMmap henabled.1 henabled.2.1 hk
  | munmap addr length => exact ends_sysMunmap henabled.1 henabled.2.1 hk
  | sbrk n => exact stable_sysSbrk.stays k hk
  | fork => exact ends_fork hk
  | exec found argv => exact ends_exec hk
  | exit status => exact wp_ret (ends_exit henabled.1 hk)
  | exitVma =>
    obtain ⟨hp, i, hi, hstate⟩ := henabled
    unfold Ends step
    rw [wp_bind, wp_get, hstate]
    exact wp_ret (ends_exitVma hp hi hstate hk)
  | exitEnd => exact wp_ret (ends_exitEnd henabled.1 henabled.2 hk)
  | wait addr => exact wp_ret (ends_wait hk)

end calls

theorem fresh_refs (h : Fresh k) : RefsExact k := by
  have hslot : ∀ f, (k.files.file f).onSlot = none := fun f => by
    rw [h.file f]
    rfl
  have hblank : ∀ p, (k.proc p).Blank := fun p => by
    rw [h.proc p]
    exact ⟨fun _ _ => rfl, fun _ _ => rfl, rfl⟩
  have hspare : ∀ i, k.files.spare i = 0 := fun i => by
    unfold Files.spare
    rw [h.inode i, tally_congr (g := fun _ => none) fun f _ => hslot f]
    simp [tally, token_none]
  refine ⟨⟨?_, ?_, by simp, ?_, ?_, ?_⟩, fun f => ?_, fun i => ?_, fun q _ => ?_, fresh_memOk h⟩
  · intro f _
    rw [h.file f]
  · intro f _ hne
    rw [h.file f] at hne
    exact absurd rfl hne
  · intro f hf
    rw [h.file f] at hf
    rcases hf with hf | hf <;> exact absurd hf (by simp)
  · intro f _
    rw [h.file f]
  · intro i
    rw [hspare i]
  · rw [h.file f]
    unfold Kernel.held
    simp [(hblank _).holds]
  · rw [hspare i]
    unfold Kernel.cwds
    rw [tally_congr (g := fun _ => none) fun p _ => (hblank p).cwd]
    simp [tally, token_none]
  · have hunused : (k.proc q).state = .unused := by rw [h.proc q]
    unfold Proc.Ended
    rw [hunused]
    exact hblank q

theorem ends_userinit (root : Nat) (hk : RefsExact k) : Ends (userinit root) RefsExact k := by
  unfold Ends userinit
  rw [wp_bind]
  refine wp_allocproc_balanced hk (fun k1 hk1 => wp_pure.mpr hk1) fun p k1 hp hblank1 hk1 => ?_
  rw [wp_bind]
  refine (mild_onMem stable_kalloc).wp hk1.mild fun r k2 h2 => ?_
  extract_lets mem
  rw [wp_bind]
  refine (mild_onMem stable_memset).wp h2 fun _ k3 h3 => ?_
  rw [wp_bind]
  refine (mild_onPagetable fun _ => stable_mappages).wp h3 fun _ k4 h4 => ?_
  rw [wp_bind]
  refine wp_iget_balanced (hk1.of_mild h4) fun cwd k5 hproc5 hk5 => ?_
  rw [wp_setProc]
  refine Balanced.finish (hk5.setCwd (f := fun pr => { pr with
    sz := PGSIZE, cwd := some cwd, state := .runnable, image := fun v => v = 0,
    regs := { pr.regs with epc := 0, sp := PGSIZE } }) hp ?_ rfl rfl rfl)
    (ended_of_runnable ?_)
  · rw [hproc5]
    exact (hblank1.of_mild h4).cwd
  · simp only [update_self]

theorem boot_refs (h : Boot k) : RefsExact k := by
  obtain ⟨k0, root, hfresh, hinit, -⟩ := h
  have hrefs := wp_ok (ends_userinit root (fresh_refs hfresh)) hinit
  exact hrefs

/-- The reference counts are exact in every state of every run. -/
theorem run_refs {cond : Kernel → Nat → Event → Prop} {k0 : Kernel} (hboot : Boot k0)
    (hrun : Run cond k0 k) : RefsExact k := by
  refine run_invariant hrun (boot_refs hboot) fun k p e r k' hk henabled _ hstep => ?_
  have hrefs := wp_ok (ends_step henabled hk) hstep
  exact hrefs

end Xv6.Sys
