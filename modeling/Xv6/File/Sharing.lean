import Xv6.Lib.Trans
import Xv6.File.Content
import Xv6.File.Spec

/-!
# Processes that share a file offset

After `fork` and `dup` several processes have one `struct file`, whose `off`
all of their reads and writes use and advance. `fileread` does so once, under
the inode's lock; `filewrite` writes in chunks and lets go of the lock between
them, so that other calls come in between.

The machine has any number of processes with calls of `fileread` and
`filewrite` on the file `f` in progress. One event is what a process does
while it has the lock, with `fileread` and `filewriteChunk` as they are in the
sequential model. Everything else may change in between (`Event.other`): user
memory, page tables, other files and inodes, but not the file itself and its
content. `done` records, for the statement only, the range of each chunk that
went to `writei` with the bytes of the writer's buffer, and the range of each
read with the bytes that the reader then has in its buffer.
-/

namespace Xv6.Sys.Sharing

open Xv6.Lib Xv6.Lib.CInt Xv6.Lib.Trans Xv6.Vm Function
open Act

variable {k : Nat} {mem : Nat → Bytes}

inductive Call where
  | read (addr : Nat) (n : Int)
  /-- `filewrite` with `i` bytes written. -/
  | write (addr : Nat) (n : Int) (i : Nat)

inductive Kind where
  | read
  | write
  deriving DecidableEq, Repr

/-- One use of the offset. -/
structure Transfer where
  proc : Nat
  kind : Kind
  off : Nat
  bytes : List UInt8
  deriving DecidableEq, Repr

structure World where
  files : Files
  pagetable : Nat → PageTable
  call : Nat → Option Call
  /-- What the last call of a process returned. -/
  ret : Nat → Int
  done : List Transfer

inductive Event where
  | read (p addr : Nat) (n : Int)
  | write (p addr : Nat) (n : Int)
  | run (p : Nat)
  | other (s : Files) (pagetable : Nat → PageTable)

/-- The inode that file `f` is open on, with its content. -/
def content (f : Nat) (s : Files) : DInode := s.dinode (s.inode ((s.file f).ip.getD 0)).inum

variable (f : Nat)

namespace World

variable (w : World) (p : Nat)

def enter (call : Call) : Option World :=
  if (w.call p).isSome then none else some { w with call := Function.update w.call p (some call) }

def finish (r : Int) : World :=
  { w with call := Function.update w.call p none, ret := Function.update w.ret p r }

/-- The state after a use of the offset. -/
def use (s : Files) (kind : Kind) (bytes : List UInt8) : World :=
  { w with files := s, done := w.done ++ [⟨p, kind, (w.files.file f).off, bytes⟩] }

/-- The process takes the lock once. -/
def run : Option World :=
  match w.call p with
  | none => none
  | some (.read addr n) =>
    match fileread (w.pagetable p) f addr n [] w.files with
    | .error _ => none
    | .ok (r, s) =>
      let bytes := userBytes (w.pagetable p) s.kmem.mem addr r.toNat
      some ((w.use f p s .read bytes).finish p r)
  | some (.write addr n i) =>
    if !(w.files.file f).writable then some (w.finish p (-1))
    else if n ≤ i then some (w.finish p (if (i : Int) = n then n else -1))
    else
      let n1 := min (n.toNat - i) maxChunk
      let bytes := userBytes (w.pagetable p) w.files.kmem.mem (uint64 ((addr : Int) + i)) n1
      match filewriteChunk (w.pagetable p) f addr n.toNat i w.files with
      | .error _ => none
      | .ok (.inl i, s) =>
        let w := w.use f p s .write bytes
        some { w with call := Function.update w.call p (some (.write addr n i)) }
      | .ok (.inr i, s) =>
        some ((w.use f p s .write bytes).finish p (if (i : Int) = n then n else -1))

/-- The files after others were at work, to whom `f`, its slot of the cache
and its content are not theirs. They may count references to the slot up and
down, too; the count stays as it is, which loses nothing: `ilock` only asks
whether there is a reference, and `f` has one. -/
def beside (s : Files) : Files :=
  let i := (w.files.file f).ip.getD 0
  let inum := (w.files.inode i).inum
  { s with
    file := Function.update s.file f { w.files.file f with ref := (s.file f).ref }
    inode := Function.update s.inode i (w.files.inode i)
    dinode := Function.update s.dinode inum (w.files.dinode inum) }

end World

def next : Event → World → Option World
  | .read p addr n, w => w.enter p (.read (uint64 addr) n)
  | .write p addr n, w => w.enter p (.write (uint64 addr) n 0)
  | .run p, w => w.run f p
  | .other s pagetable, w => some { w with files := w.beside f s, pagetable }

/-- The buffers are valid and the largest file is not reached. -/
def Valid : Event → World → Prop
  | .run p, w =>
    match w.call p with
    | none => True
    | some (.read addr n) => UserBuffer (w.pagetable p) addr (uint32 n)
    | some (.write addr n i) =>
      (∀ j, j < n.toNat → UserAddr (w.pagetable p) (uint64 ((addr : Int) + j))) ∧
        (w.files.file f).off + min (n.toNat - i) maxChunk ≤ MAXFILE * BSIZE
  | _, _ => True

instance (e : Event) (w : World) : Decidable (Valid f e w) :=
  match e with
  | .run p =>
    match h : w.call p with
    | none => .isTrue (by simp only [Valid, h])
    | some (.read addr n) =>
      decidable_of_iff (UserBuffer (w.pagetable p) addr (uint32 n)) (by simp only [Valid, h])
    | some (.write addr n i) =>
      decidable_of_iff ((∀ j, j < n.toNat → UserAddr (w.pagetable p) (uint64 ((addr : Int) + j))) ∧
        (w.files.file f).off + min (n.toNat - i) maxChunk ≤ MAXFILE * BSIZE)
        (by simp only [Valid, h])
  | .read _ _ _ | .write _ _ _ | .other _ _ => .isTrue trivial

/-! ## One use of the offset -/

/-- `f` is open on an inode with some content. -/
structure Opened (s : Files) : Prop where
  type : (s.file f).type = .inode
  slot : ∃ i, (s.file f).ip = some i ∧ 1 ≤ (s.inode i).ref
  used : (content f s).type ≠ .free
  off : (s.file f).off ≤ (content f s).size
  size : (content f s).size ≤ MAXFILE * BSIZE

/-- The offset went over `bytes`, which are now the content there, and the
content before it is as it was. -/
structure Passed (s s' : Files) (bytes : List UInt8) : Prop where
  opened : Opened f s'
  off : (s'.file f).off = (s.file f).off + bytes.length
  before : ∀ i, i < (s.file f).off → (content f s').data i = (content f s).data i
  found : ∀ j (hj : j < bytes.length), (content f s').data ((s.file f).off + j) = bytes.get ⟨j, hj⟩

section

variable {f} {s s' : Files} {pt : PageTable} {addr : Nat} {n : Int}

theorem wp_ilock_opened (h : Opened f s) {Q : Unit → Files → Prop}
    (hok : ∀ inode, s.Quiet { s with inode := inode } → Q () { s with inode := inode }) :
    wp (ilock (s.file f).ip) Q (fun _ => False) s := by
  obtain ⟨i, hi, href⟩ := h.slot
  refine wp_ilock (fun hnot => ?_) fun _ inode hquiet _ _ => hok inode hquiet
  have hused := h.used
  rw [content, hi, Option.getD_some] at hused
  simp [hi, Files.canLock, href, hused] at hnot

theorem handle_ip (hq : s.Quiet s') :
    (s'.file f).type = (s.file f).type ∧ (s'.file f).ip = (s.file f).ip := by
  have htype := congrArg File.type (hq.handle f)
  have hip := congrArg File.ip (hq.handle f)
  exact ⟨htype, hip⟩

theorem content_quiet (hq : s.Quiet s') :
    content f s' = s'.dinode (s.inode ((s.file f).ip.getD 0)).inum := by
  unfold content
  rw [(handle_ip hq).2, hq.inum]

theorem Opened.of_quiet (h : Opened f s) (hq : s.Quiet s')
    (hused : (content f s').type = (content f s).type)
    (hoff : (s'.file f).off ≤ (content f s').size)
    (hsize : (content f s').size ≤ MAXFILE * BSIZE) : Opened f s' where
  type := (handle_ip hq).1.trans h.type
  slot := by
    obtain ⟨i, hi, href⟩ := h.slot
    exact ⟨i, (handle_ip hq).2.trans hi, by rw [hq.ref]; exact href⟩
  used := hused ▸ h.used
  off := hoff
  size := hsize

theorem passed_nil (h : Opened f s) : Passed f s s [] :=
  ⟨h, rfl, fun _ _ => rfl, nofun⟩

theorem uint32_off (hk : (s.file f).off + k ≤ MAXFILE * BSIZE) :
    uint32 (((s.file f).off : Int) + (k : Int)) = (s.file f).off + k := by
  have hmax : MAXFILE * BSIZE < 2 ^ 32 := by decide
  unfold uint32
  omega

theorem length_userBytes : (userBytes pt mem addr k).length = k := by
  rw [userBytes, List.length_map, List.length_range]

theorem get_userBytes {j : Nat} (hj : j < (userBytes pt mem addr k).length) :
    (userBytes pt mem addr k).get ⟨j, hj⟩ = userByte pt mem (uint64 ((addr : Int) + j)) := by
  simp only [userBytes, List.get_eq_getElem, List.getElem_map, List.getElem_range]

theorem passed_read {r : Nat} (h : Opened f s) (hq : s.Quiet s') (hdinode : s'.dinode = s.dinode)
    (hoff : (s'.file f).off = (s.file f).off + r) (hend : (s.file f).off + r ≤ (content f s).size)
    (hbytes : ∀ j < r, userByte pt s'.kmem.mem (uint64 ((addr : Int) + j)) =
      (content f s).data ((s.file f).off + j)) :
    Passed f s s' (userBytes pt s'.kmem.mem addr r) := by
  have hcontent : content f s' = content f s := by
    rw [content_quiet hq, hdinode]
    rfl
  refine ⟨h.of_quiet hq (by rw [hcontent]) ?_ (hcontent ▸ h.size), ?_, ?_, ?_⟩
  · rw [hoff, hcontent]
    exact hend
  · rw [hoff, length_userBytes]
  · intro i _
    rw [hcontent]
  · intro j hj
    rw [get_userBytes, hcontent, hbytes j (by rwa [length_userBytes] at hj)]

theorem fileread_passed (h : Opened f s) (haddr : addr < 2 ^ 64)
    (hbuf : UserBuffer pt addr (uint32 n)) :
    ∃ r s', fileread pt f addr n [] s = .ok (r, s') ∧
      Passed f s s' (userBytes pt s'.kmem.mem addr r.toNat) := by
  refine wp_total ?_
  unfold fileread
  rw [wp_bind, wp_get]
  extract_lets file fromInput ip
  refine wp_ite (fun _ => wp_pure.mpr (passed_nil h)) fun _ => ?_
  have htype : file.type = .inode := h.type
  split
  case h_1 hother | h_2 hother | h_4 hother => cases htype.symm.trans hother
  rw [wp_bind]
  refine wp_ilock_opened h fun inode hlock => ?_
  obtain ⟨r, mem', hread, -, hend, hdel⟩ := @readi_ok pt s.kmem.mem addr file.off (uint32 n) ip
    haddr hbuf h.off
  simp only [hread]
  rw [wp_bind, wp_onKmem, wp_modify, wp_bind]
  refine wp_when (fun _ => ?_) fun hzero => ?_
  · rw [wp_setFile, wp_pure]
    refine passed_read h ?_ rfl ?_ hend hdel.bytes
    · exact (hlock.trans .setMem).trans .setOff
    · show (update s.file f _ f).off = _
      rw [update_self]
      exact uint32_off (Nat.le_trans hend h.size)
  · rw [wp_pure]
    rw [hread] at hzero
    have hnone : r = 0 := Nat.eq_zero_of_not_pos (mt Int.natCast_pos.mpr hzero)
    subst hnone
    exact passed_read h (hlock.trans .setMem) rfl rfl hend nofun

theorem passed_write (h : Opened f s) (hq : s.Quiet s')
    (hoff : (s'.file f).off = (s.file f).off + k) (hcontent : content f s' = { content f s with
      data := written pt mem (content f s).data addr (s.file f).off k
      size := max (content f s).size ((s.file f).off + k) })
    (hmax : (s.file f).off + k ≤ MAXFILE * BSIZE) :
    Passed f s s' (userBytes pt mem addr k) := by
  refine ⟨h.of_quiet hq (by rw [hcontent]) ?_ ?_, ?_, ?_, ?_⟩
  · rw [hoff, hcontent]
    exact Nat.le_max_right _ _
  · rw [hcontent]
    exact Nat.max_le.mpr ⟨h.size, hmax⟩
  · rw [hoff, length_userBytes]
  · intro i hi
    rw [hcontent]
    exact if_neg (by omega)
  · intro j hj
    rw [length_userBytes] at hj
    rw [get_userBytes, hcontent]
    simp only [written]
    rw [if_pos (by omega), Nat.add_sub_cancel_left]

/-- The offset goes over a chunk, all of which is written. -/
theorem filewriteChunk_passed {len i : Nat} (h : Opened f s)
    (hmap : ∀ j < len, UserAddr pt (uint64 ((addr : Int) + j))) (hi : i < len)
    (hmax : (s.file f).off + min (len - i) maxChunk ≤ MAXFILE * BSIZE) :
    ∃ s', filewriteChunk pt f addr len i s = .ok (.inl (i + min (len - i) maxChunk), s') ∧
      Passed f s s' (userBytes pt s.kmem.mem (uint64 ((addr : Int) + i))
        (min (len - i) maxChunk)) := by
  obtain ⟨n1, hn1⟩ : ∃ n1, n1 = min (len - i) maxChunk := ⟨_, rfl⟩
  rw [← hn1] at hmax ⊢
  have hle : n1 ≤ len - i := hn1 ▸ Nat.min_le_left _ _
  have hpos : 0 < n1 := by
    have hchunk : 0 < maxChunk := by decide
    omega
  have hwrite := @writei_ok pt s.kmem.mem (uint64 ((addr : Int) + i)) (s.file f).off n1
    (content f s) (uint64_lt _) (fun j hj => by rw [uint64_shift]; exact hmap _ (by omega)) h.off hmax
  have hwp : wp (filewriteChunk pt f addr len i) (fun r s' => r = .inl (i + n1) ∧
      Passed f s s' (userBytes pt s.kmem.mem (uint64 ((addr : Int) + i)) n1))
      (fun _ => False) s := by
    unfold filewriteChunk
    rw [wp_bind, wp_get]
    extract_lets file inum
    rw [← hn1, wp_bind]
    refine wp_ilock_opened h fun inode hlock => ?_
    have hwrite' : writei pt s.kmem.mem (s.dinode inum) _ file.off _ = _ := hwrite
    rw [hwrite']
    simp only
    rw [wp_bind, wp_modify, wp_bind]
    refine wp_when (fun _ => ?_) fun hzero => absurd (Int.natCast_pos.mpr hpos) hzero
    rw [wp_setFile]
    refine wp_ite (fun hne => absurd rfl hne) fun _ => wp_pure.mpr ⟨rfl, ?_⟩
    refine passed_write h ((hlock.trans .setDinode).trans .setOff) ?_ ?_ hmax
    · show (update s.file f _ f).off = _
      rw [update_self]
      exact uint32_off hmax
    · rw [content_quiet ((hlock.trans .setDinode).trans .setOff)]
      exact update_self _ _ _
  obtain ⟨r, s', hrun, rfl, hpassed⟩ := wp_total hwp
  exact ⟨s', hrun, hpassed⟩

theorem passed_beside (w : World) (h : Opened f w.files) : Passed f w.files (w.beside f s) [] := by
  have hfile : (w.beside f s).file f = { w.files.file f with ref := (s.file f).ref } :=
    update_self _ _ _
  have hslot : (w.beside f s).inode ((w.files.file f).ip.getD 0) =
      w.files.inode ((w.files.file f).ip.getD 0) :=
    update_self _ _ _
  have hcontent : content f (w.beside f s) = content f w.files := by
    unfold content
    rw [hfile]
    simp only [hslot]
    exact update_self _ _ _
  refine ⟨⟨by rw [hfile]; exact h.type, ?_, hcontent ▸ h.used, ?_, hcontent ▸ h.size⟩, ?_, ?_, nofun⟩
  · obtain ⟨i, hi, href⟩ := h.slot
    rw [hi] at hslot
    refine ⟨i, by rw [hfile]; exact hi, ?_⟩
    have hsame : (w.beside f s).inode i = w.files.inode i := hslot
    rw [hsame]
    exact href
  · rw [hfile, hcontent]
    exact h.off
  · rw [hfile]
    rfl
  · intro i _
    rw [hcontent]

end

/-! ## Ranges in a row -/

/-- The ranges of `ts` follow one another from `lo` to `hi`. -/
def Tiles : Nat → List Transfer → Nat → Prop
  | lo, [], hi => lo = hi
  | lo, t :: ts, hi => t.off = lo ∧ Tiles (lo + t.bytes.length) ts hi

/-- The offset `x` is in the range of `t`. -/
def Transfer.Covers (t : Transfer) (x : Nat) : Prop := t.off ≤ x ∧ x < t.off + t.bytes.length

section

variable {ts : List Transfer} {lo hi : Nat}

section

variable (h : Tiles lo ts hi)
include h

theorem Tiles.le : lo ≤ hi := by
  induction ts generalizing lo with
  | nil => exact Nat.le_of_eq h
  | cons t ts ih => exact Nat.le_trans (Nat.le_add_right _ _) (ih h.2)

theorem Tiles.bounds (t : Transfer) (ht : t ∈ ts) : lo ≤ t.off ∧ t.off + t.bytes.length ≤ hi := by
  induction ts generalizing lo with
  | nil => cases ht
  | cons u ts ih =>
    rcases List.mem_cons.mp ht with rfl | hmem
    · rw [h.1]
      exact ⟨Nat.le_refl _, h.2.le⟩
    · have hrest := ih h.2 hmem
      omega

theorem Tiles.append {t : Transfer} (ht : t.off = hi) :
    Tiles lo (ts ++ [t]) (hi + t.bytes.length) := by
  induction ts generalizing lo with
  | nil =>
    have hsame : lo = hi := h
    subst hsame
    exact ⟨ht, rfl⟩
  | cons u ts ih => exact ⟨h.1, ih h.2⟩

theorem Tiles.pairwise : ts.Pairwise fun t u => t.off + t.bytes.length ≤ u.off := by
  induction ts generalizing lo with
  | nil => exact .nil
  | cons t ts ih =>
    refine .cons (fun u hu => ?_) (ih h.2)
    rw [h.1]
    exact (h.2.bounds u hu).1

theorem Tiles.covered {x : Nat} (hlo : lo ≤ x) (hhi : x < hi) : ∃ t ∈ ts, t.Covers x := by
  induction ts generalizing lo with
  | nil =>
    have hsame : lo = hi := h
    omega
  | cons t ts ih =>
    by_cases hfirst : x < lo + t.bytes.length
    · exact ⟨t, List.mem_cons_self, by rw [Transfer.Covers, h.1]; exact ⟨hlo, hfirst⟩⟩
    · obtain ⟨u, hu, hcovers⟩ := ih h.2 (Nat.le_of_not_lt hfirst)
      exact ⟨u, List.mem_cons_of_mem _ hu, hcovers⟩

/-- Every offset passed is in exactly one range. -/
theorem Tiles.once {x : Nat} (hlo : lo ≤ x) (hhi : x < hi) :
    ∃! k : Fin ts.length, (ts.get k).Covers x := by
  obtain ⟨t, ht, hcovers⟩ := h.covered hlo hhi
  obtain ⟨k, rfl⟩ := List.get_of_mem ht
  refine ⟨k, hcovers, fun l hl => ?_⟩
  have hpair := List.pairwise_iff_get.mp h.pairwise
  unfold Transfer.Covers at hcovers hl
  rcases Nat.lt_trichotomy l k with hlt | heq | hgt
  · have hbefore := hpair l k hlt
    omega
  · exact Fin.ext heq
  · have hafter := hpair k l hgt
    omega

end

end

/-! ## Whole runs -/

/-- The file is open, at an offset in its content, and nobody uses it yet. -/
structure Start (w : World) : Prop where
  opened : Opened f w.files
  idle : ∀ p, w.call p = none
  fresh : w.done = []

def Call.addr : Call → Nat
  | .read addr _ => addr
  | .write addr _ _ => addr

/-- The invariant of the machine. -/
structure World.Ok (lo : Nat) (w : World) : Prop where
  opened : Opened f w.files
  addrs : ∀ p call, w.call p = some call → call.addr < 2 ^ 64
  tiles : Tiles lo w.done (w.files.file f).off
  found : ∀ t ∈ w.done, ∀ j (hj : j < t.bytes.length),
    (content f w.files).data (t.off + j) = t.bytes.get ⟨j, hj⟩

section

variable {f} {w w' : World} {lo : Nat} {s' : Files} {bytes : List UInt8}

section

variable (h : w.Ok f lo)
include h

/-- A use of the offset, whatever else the call then does. -/
theorem ok_use (hpassed : Passed f w.files s' bytes) {p : Nat} {kind : Kind}
    (hfiles : w'.files = s') (hdone : w'.done = w.done ++ [⟨p, kind, (w.files.file f).off, bytes⟩])
    (haddrs : ∀ p call, w'.call p = some call → call.addr < 2 ^ 64) : w'.Ok f lo := by
  subst hfiles
  refine ⟨hpassed.opened, haddrs, ?_, ?_⟩
  · rw [hdone, hpassed.off]
    exact h.tiles.append rfl
  · intro t ht j hj
    rw [hdone] at ht
    rcases List.mem_append.mp ht with hold | hnew
    · have hbound := (h.tiles.bounds t hold).2
      rw [hpassed.before _ (by omega)]
      exact h.found t hold j hj
    · rw [List.mem_singleton] at hnew
      subst hnew
      exact hpassed.found j hj

theorem ok_quiet (hpassed : Passed f w.files w'.files []) (hdone : w'.done = w.done)
    (haddrs : ∀ p call, w'.call p = some call → call.addr < 2 ^ 64) : w'.Ok f lo := by
  have hoff : (w'.files.file f).off = (w.files.file f).off := hpassed.off
  refine ⟨hpassed.opened, haddrs, ?_, ?_⟩
  · rw [hdone, hoff]
    exact h.tiles
  · intro t ht j hj
    rw [hdone] at ht
    have hbound := (h.tiles.bounds t ht).2
    rw [hpassed.before _ (by omega)]
    exact h.found t ht j hj

theorem addrs_update {p : Nat} {x : Option Call} (hx : ∀ call, x = some call → call.addr < 2 ^ 64)
    (q : Nat) (call : Call) (hq : update w.call p x q = some call) : call.addr < 2 ^ 64 := by
  rw [update_apply] at hq
  split at hq
  · exact hx call hq
  · exact h.addrs q call hq

/-- A call always gets through its section under the lock. -/
theorem ok_run {p : Nat} {call : Call} (hcall : w.call p = some call)
    (hvalid : Valid f (.run p) w) : ∃ w', w.run f p = some w' ∧ w'.Ok f lo := by
  have haddr := h.addrs p call hcall
  have hgone : ∀ q call, update w.call p none q = some call → call.addr < 2 ^ 64 :=
    addrs_update h nofun
  cases call with
  | read addr n =>
    simp only [Valid, hcall] at hvalid
    have haddr' : addr < 2 ^ 64 := haddr
    obtain ⟨r, s', hread, hpassed⟩ := fileread_passed h.opened haddr' hvalid
    simp only [World.run, hcall, hread]
    refine ⟨_, rfl, ok_use h hpassed rfl rfl ?_⟩
    exact hgone
  | write addr n i =>
    simp only [Valid, hcall] at hvalid
    have hnothing : ∀ r, (w.finish p r).Ok f lo := fun r =>
      ok_quiet h (passed_nil h.opened) rfl hgone
    simp only [World.run, hcall]
    split
    · exact ⟨_, rfl, hnothing _⟩
    split
    · exact ⟨_, rfl, hnothing _⟩
    · rename_i hmore
      obtain ⟨s', hwrite, hpassed⟩ :=
        filewriteChunk_passed h.opened hvalid.1 (i := i) (by omega) hvalid.2
      simp only [hwrite]
      refine ⟨_, rfl, ok_use h hpassed rfl rfl (addrs_update h fun call hsome => ?_)⟩
      cases hsome
      exact haddr

theorem ok_enter {p : Nat} {call : Call} (haddr : call.addr < 2 ^ 64)
    (henter : w.enter p call = some w') : w'.Ok f lo := by
  unfold World.enter at henter
  split at henter
  · cases henter
  · cases henter
    refine ok_quiet h (passed_nil h.opened) rfl (addrs_update h fun c hc => ?_)
    cases hc
    exact haddr

theorem ok_next {e : Event} (hvalid : Valid f e w) (hnext : next f e w = some w') : w'.Ok f lo := by
  cases e with
  | read p addr n => exact @ok_enter f w w' _ h p (.read _ n) (uint64_lt _) hnext
  | write p addr n => exact @ok_enter f w w' _ h p (.write _ n 0) (uint64_lt _) hnext
  | run p =>
    cases hcall : w.call p with
    | none =>
      simp only [next, World.run, hcall] at hnext
      cases hnext
    | some call =>
      obtain ⟨v, hv, hok⟩ := ok_run h hcall hvalid
      rw [next, hv] at hnext
      cases hnext
      exact hok
  | other s pt =>
    cases hnext
    exact ok_quiet h (passed_beside w h.opened) rfl h.addrs

end

theorem ok_start (h : Start f w) : w.Ok f (w.files.file f).off where
  opened := h.opened
  addrs p call hcall := by
    rw [h.idle] at hcall
    cases hcall
  tiles := by
    rw [h.fresh]
    rfl
  found t ht := by
    rw [h.fresh] at ht
    cases ht

end

/-- What the processes did through the offset, which went from `lo` to where
it is. -/
structure World.NothingLost (lo : Nat) (w : World) : Prop where
  tiles : Tiles lo w.done (w.files.file f).off
  apart : w.done.Pairwise fun t u => t.off + t.bytes.length ≤ u.off
  /-- The bytes of a chunk are in the file, and those of a read came from it. -/
  found : ∀ t ∈ w.done, ∀ j (hj : j < t.bytes.length),
    (content f w.files).data (t.off + j) = t.bytes.get ⟨j, hj⟩
  once : ∀ x, lo ≤ x → x < (w.files.file f).off → ∃! k : Fin w.done.length, (w.done.get k).Covers x
  /-- No call is stopped by a panic. -/
  runs : ∀ p call, w.call p = some call → Valid f (.run p) w → ∃ w', w.run f p = some w'

/-- Calls on one `struct file`, in any order, share its offset without a loss. -/
theorem shared_offset {w₀ w : World} (hstart : Start f w₀)
    (h : Reach (next f) (Valid f) w₀ w) : w.NothingLost f (w₀.files.file f).off := by
  have hok : w.Ok f (w₀.files.file f).off :=
    h.invariant (ok_start hstart) fun _ _ _ hv hvalid hnext => ok_next hv hvalid hnext
  refine ⟨hok.tiles, hok.tiles.pairwise, hok.found, fun x => hok.tiles.once, ?_⟩
  intro p call hcall hvalid
  obtain ⟨w', hrun, -⟩ := ok_run hok hcall hvalid
  exact ⟨w', hrun⟩

/-- Two processes with a page each, and a file of five bytes that both have open. -/
def twoSharers : World where
  files :=
    { kmem := ⟨0, 0, [], fun pa k => UInt8.ofNat (pa / PGSIZE + k)⟩
      file := fun _ => { type := .inode, ref := 2, readable := true, writable := true, ip := some 0 }
      pipe := fun _ => ⟨false, false⟩
      inode := fun _ => { inum := 1, ref := 1, valid := true }
      dinode := fun _ => ⟨.file, 0, 5, fun i => UInt8.ofNat (100 + i)⟩ }
  pagetable p := ⟨1, fun _ => some ⟨2, fun _ => some ⟨3, fun _ =>
    pa2pte ((p + 1) * PGSIZE) ||| PTE_V ||| PTE_U⟩⟩⟩
  call _ := none
  ret _ := 0
  done := []

theorem start_twoSharers : Start 0 twoSharers :=
  ⟨⟨rfl, ⟨0, rfl, by decide⟩, nofun, by decide, by decide⟩, fun _ => rfl, rfl⟩

/-- A write of two bytes, with a read of three before it returns. -/
theorem shared_offset_twoSharers : Start 0 twoSharers ∧
    ∃ w, Reach (next 0) (Valid 0) twoSharers w ∧
      w.done = [⟨0, .write, 0, [1, 2]⟩, ⟨1, .read, 2, [102, 103, 104]⟩] ∧
      w.NothingLost 0 0 := by
  have hrun : ((follow (next 0) (fun e w => decide (Valid 0 e w))
      [.write 0 0 2, .run 0, .read 1 0 3, .run 1, .run 0] twoSharers).any fun w =>
      decide (w.done = [⟨0, .write, 0, [1, 2]⟩, ⟨1, .read, 2, [102, 103, 104]⟩])) = true := by
    decide +kernel
  obtain ⟨w, hw, hdone⟩ := (Option.any_eq_true _ _).mp hrun
  have hreach : Reach (next 0) (Valid 0) twoSharers w :=
    Reach.start.follow (fun _ _ h => of_decide_eq_true h) hw
  exact ⟨start_twoSharers, w, hreach, of_decide_eq_true hdone,
    shared_offset 0 start_twoSharers hreach⟩

end Xv6.Sys.Sharing
