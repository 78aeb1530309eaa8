import Mathlib.Data.List.TakeWhile
import Xv6.File.Content

/-!
# Path names

`skipelem`, `namecmp`, `dirlookup` and `namex` of `kernel/fs.c`. A path is the
bytes before its NUL, and an inode is its number: the locks the walk takes and
gives back are left out. Of the inode cache there are the inodes that others have
references to, `held`; the walk has one to the inode it is at. The outer `none` is
a panic, of `dirlookup`, of `ilock` on a free inode or of `iget` with no free slot.

`namex` does not clear `name` between elements: a short one is followed by a NUL
and by what the last one left, which `namecmp` never reads.
-/

namespace Xv6.Namex

open Xv6.Sys Xv6.Lib.CInt

def DIRSIZ : Nat := 14

def ROOTINO : Nat := 1

def slash : UInt8 := 47

/-- The element goes to the front of `name`. -/
def setName (elem name : List UInt8) : List UInt8 :=
  if DIRSIZ ≤ elem.length then elem.take DIRSIZ else elem ++ 0 :: name.drop (elem.length + 1)

/-- The rest of the path and the new `name`. -/
def skipelem (path name : List UInt8) : Option (List UInt8 × List UInt8) :=
  match path.dropWhile (· == slash) with
  | [] => none
  | a :: s => some ((s.dropWhile (· != slash)).dropWhile (· == slash),
    setName (a :: s.takeWhile (· != slash)) name)

/-- `strncmp` on two arrays of `DIRSIZ` bytes. -/
def namecmp : List UInt8 → List UInt8 → Int
  | a :: s, b :: t => if a ≠ 0 ∧ a = b then namecmp s t else (a.toNat : Int) - b.toNat
  | _, _ => 0

structure Dirent where
  inum : Nat
  name : List UInt8

/-- The 16 bytes of an entry. -/
def dirent (b : Bytes) (off : Nat) : Dirent :=
  ⟨(b off).toNat + 256 * (b (off + 1)).toNat, (List.range DIRSIZ).map fun k => b (off + 2 + k)⟩

/-- With references to `refs`, an inode that is cached is found and another one
takes a free slot. -/
def iget (refs : List Nat) (inum : Nat) : Option Nat :=
  if inum ∈ refs ∨ refs.dedup.length < NINODE then some inum else none

def dirlookupFrom (refs : List Nat) (dp : DInode) (name : List UInt8) :
    Nat → Nat → Option (Option Nat)
  | 0, _ => some none
  | fuel + 1, off =>
    if dp.size ≤ off then some none
    else
      let (buf, r) := readi dp kernelOut (fun _ => 0) 0 off 16
      let de := dirent buf 0
      if r ≠ 16 then none
      else if de.inum ≠ 0 ∧ namecmp name de.name = 0 then (iget refs de.inum).map some
      else dirlookupFrom refs dp name fuel (uint32 (off + 16))

def dirlookup (refs : List Nat) (dp : DInode) (name : List UInt8) : Option (Option Nat) :=
  if dp.type ≠ .dir then none else dirlookupFrom refs dp name (dp.size / 16 + 1) 0

/-- The loop of `namex`; each turn shortens the path. -/
def namexFrom (fs : Nat → DInode) (held : List Nat) (parent : Bool) :
    Nat → Nat → List UInt8 → List UInt8 → Option (Option (Nat × List UInt8))
  | 0, _, _, _ => none
  | fuel + 1, ip, path, name =>
    match skipelem path name with
    | none => some (if parent then none else some (ip, name))
    | some (path, name) =>
      if (fs ip).type = .free then none
      else if (fs ip).type ≠ .dir then some none
      else if parent = true ∧ path = [] then some (some (ip, name))
      else (dirlookup (ip :: held) (fs ip) name).bind fun
        | none => some none
        | some next => namexFrom fs held parent fuel next path name

def namex (fs : Nat → DInode) (held : List Nat) (cwd : Nat) (path : List UInt8) (parent : Bool)
    (name : List UInt8) : Option (Option (Nat × List UInt8)) :=
  (if path.head? = some slash then iget held ROOTINO else some cwd).bind fun ip =>
    namexFrom fs held parent (path.length + 1) ip path name

/-! ## What a path means -/

/-- Where a path starts. -/
def origin (cwd : Nat) (path : List UInt8) : Nat :=
  if path.head? = some slash then ROOTINO else cwd

/-- The elements of a path. -/
def elements (path : List UInt8) : List (List UInt8) :=
  (path.splitOn slash).filter (· ≠ [])

/-- The name in an array that a NUL may end. -/
def text (name : List UInt8) : List UInt8 := name.takeWhile (· ≠ 0)

/-- The first entry in use of that name. -/
def lookup (dp : DInode) (x : List UInt8) : Option Nat :=
  (((List.range (dp.size / 16)).map fun k => dirent dp.data (16 * k)).find? fun e =>
    e.inum ≠ 0 ∧ x = text e.name).map Dirent.inum

/-- Follow the elements, each cut to `DIRSIZ` bytes. -/
def resolve (fs : Nat → DInode) : Nat → List (List UInt8) → Option Nat
  | ip, [] => some ip
  | ip, c :: cs =>
    if (fs ip).type = .dir then (lookup (fs ip) (c.take DIRSIZ)).bind (resolve fs · cs) else none

/-- The directory of the last element, and that element. -/
def parentOf (fs : Nat → DInode) (ip : Nat) (cs : List (List UInt8)) :
    Option (Nat × List UInt8) :=
  cs.getLast?.bind fun c =>
    ((resolve fs ip cs.dropLast).filter fun dp => (fs dp).type = .dir).map (·, c.take DIRSIZ)

/-- Directories are whole entries, and what they name is not free. -/
structure Sound (fs : Nat → DInode) : Prop where
  whole : ∀ i, (fs i).type = .dir → 16 ∣ (fs i).size ∧ (fs i).size < 2 ^ 32
  used : ∀ i x j, (fs i).type = .dir → lookup (fs i) x = some j → (fs j).type ≠ .free

/-! ## The code agrees -/

theorem namecmp_eq_zero {s t : List UInt8} (h : s.length = t.length) :
    namecmp s t = 0 ↔ text s = text t := by
  induction s generalizing t with
  | nil => simp [namecmp, List.length_eq_zero_iff.mp h.symm]
  | cons a s ih =>
    obtain _ | ⟨b, t⟩ := t
    · cases h
    · have hab : (a.toNat : Int) - b.toNat = 0 ↔ a = b := by
        rw [← UInt8.toNat_inj]
        omega
      have ih := ih (Nat.succ.inj h)
      rw [namecmp]
      split <;> simp only [text, hab, List.takeWhile_cons] at * <;> grind

theorem elements_slash (path : List UInt8) : elements (slash :: path) = elements path := by
  simp [elements, List.splitOn_cons_eq_if_modifyHead]

theorem elements_drop (path : List UInt8) :
    elements (path.dropWhile (· == slash)) = elements path := by
  induction path with
  | nil => rfl
  | cons a path ih =>
    rw [List.dropWhile_cons]
    split
    · rename_i ha
      rw [ih, beq_iff_eq.mp ha, elements_slash]
    · rfl

theorem elements_cons {a : UInt8} {s : List UInt8} (ha : a ≠ slash) :
    elements (a :: s) = (a :: s.takeWhile (· != slash)) ::
      elements ((s.dropWhile (· != slash)).dropWhile (· == slash)) := by
  have hfree : slash ∉ a :: s.takeWhile (· != slash) := by
    rw [List.mem_cons, not_or]
    exact ⟨ha.symm, fun h => by simpa using List.mem_takeWhile_imp h⟩
  rw [elements_drop]
  nth_rewrite 1 [← s.takeWhile_append_dropWhile (p := (· != slash))]
  rw [← List.cons_append]
  rcases hrest : s.dropWhile (· != slash) with _ | ⟨b, r⟩
  · simp [elements, List.splitOn_eq_singleton hfree]
  · have hb : b = slash := by simpa [hrest] using s.head_dropWhile_not (· != slash)
    rw [hb, elements_slash, elements, List.splitOn_append_cons_self_of_not_mem hfree]
    rfl

theorem setName_spec {elem name : List UInt8} (helem : 0 ∉ elem) (hname : name.length = DIRSIZ) :
    (setName elem name).length = DIRSIZ ∧ text (setName elem name) = elem.take DIRSIZ := by
  have hall : ∀ l ⊆ elem, l.takeWhile (· ≠ 0) = l := fun l hl =>
    List.takeWhile_eq_self_iff.mpr fun x hx => decide_eq_true fun h => helem (h ▸ hl hx)
  unfold setName text
  split
  · exact ⟨by simpa, hall _ (List.take_subset _ _)⟩
  · rw [List.takeWhile_append, hall elem (List.Subset.refl _), List.take_of_length_le (by omega)]
    simp
    omega

theorem skipelem_spec {path name : List UInt8} (hpath : 0 ∉ path) (hname : name.length = DIRSIZ) :
    (skipelem path name = none ∧ elements path = []) ∨ ∃ c rest name',
      skipelem path name = some (rest, name') ∧ elements path = c :: elements rest ∧
      (elements rest = [] → rest = []) ∧ rest.length < path.length ∧ 0 ∉ rest ∧
      name'.length = DIRSIZ ∧ text name' = c.take DIRSIZ := by
  have hsub := path.dropWhile_sublist (· == slash)
  rw [skipelem, ← elements_drop path]
  rcases hs : path.dropWhile (· == slash) with _ | ⟨a, s⟩ <;> rw [hs] at hsub
  · exact .inl ⟨rfl, rfl⟩
  · have ha : a ≠ slash := by simpa [hs] using path.head_dropWhile_not (· == slash)
    have hrest := ((s.dropWhile (· != slash)).dropWhile_sublist (· == slash)).trans
      (s.dropWhile_sublist _)
    refine .inr ⟨_, _, _, rfl, elements_cons ha, fun h => ?_,
      (Nat.lt_succ_of_le hrest.length_le).trans_le hsub.length_le, fun h => ?_,
      setName_spec (fun h => ?_) hname⟩
    · by_contra hne
      obtain ⟨b, r, hbr⟩ := List.exists_cons_of_ne_nil hne
      have hb : b ≠ slash := by
        simpa [hbr] using (s.dropWhile (· != slash)).head_dropWhile_not (· == slash)
      rw [hbr, elements_cons hb] at h
      cases h
    · exact hpath (hsub.subset (List.mem_cons_of_mem _ (hrest.subset h)))
    · exact hpath (hsub.subset (List.cons_subset_cons a (s.takeWhile_subset _) h))

theorem dirent_splice (buf data : Bytes) (off : Nat) :
    dirent (splice buf 0 data off 16) 0 = dirent data off := by
  have hin : ∀ k < 16, splice buf 0 data off 16 k = data (off + k) := fun k hk =>
    splice_inside (Nat.zero_le k) (by omega)
  unfold dirent
  rw [hin 0 (by omega), hin 1 (by omega)]
  refine congrArg _ (List.map_congr_left fun k hk => ?_)
  have hk := List.mem_range.mp hk
  rw [hin _ (by simp only [DIRSIZ] at hk; omega)]
  congr 1
  omega

theorem iget_eq {refs : List Nat} (h : refs.dedup.length < NINODE) (inum : Nat) :
    iget refs inum = some inum :=
  if_pos (.inr h)

theorem dirlookupFrom_eq {refs : List Nat} {dp : DInode} {name : List UInt8} {n k m : Nat}
    (hrefs : refs.dedup.length < NINODE) (hname : name.length = DIRSIZ) (hsize : dp.size = 16 * n)
    (hlt : dp.size < 2 ^ 32) (hk : k + m = n) : dirlookupFrom refs dp name (m + 1) (16 * k) =
      some ((((List.range' k m).map fun k => dirent dp.data (16 * k)).find? fun e =>
        e.inum ≠ 0 ∧ text name = text e.name).map Dirent.inum) := by
  induction m generalizing k with
  | zero => exact if_pos (by omega)
  | succ m ih =>
    have hnext : uint32 ((16 * k : Nat) + (16 : Nat)) = 16 * (k + 1) :=
      uint32_of_lt (n := 16 * k + 16) (by omega)
    have hread : readi dp kernelOut (fun _ => 0) 0 (16 * k) 16 =
        (splice (fun _ => 0) 0 dp.data (16 * k) 16, 16) := by
      rw [readi_kernel (by omega), hnext, if_pos (by omega), Nat.min_eq_left (by omega)]
      rfl
    have hlength : name.length = (dirent dp.data (16 * k)).name.length := by
      rw [hname, dirent, List.length_map, List.length_range]
    rw [dirlookupFrom, if_neg (by omega), hread, List.range'_succ, List.map_cons, List.find?_cons]
    simp only [dirent_splice, namecmp_eq_zero hlength]
    by_cases hit : (dirent dp.data (16 * k)).inum ≠ 0 ∧
        text name = text (dirent dp.data (16 * k)).name
    · simp [hit, iget_eq hrefs]
    · rw [if_neg hit, decide_eq_false hit]
      exact (congrArg _ hnext).trans (ih (by omega))

section Walk

variable {fs : Nat → DInode} {held : List Nat} {ip fuel : Nat} {path name c : List UInt8}
  {cs : List (List UInt8)}

theorem dirlookup_eq (hfs : Sound fs) (hheld : held.dedup.length + 2 ≤ NINODE)
    (hdir : (fs ip).type = .dir) (hname : name.length = DIRSIZ) :
    dirlookup (ip :: held) (fs ip) name = some (lookup (fs ip) (text name)) := by
  have hrefs : (ip :: held).dedup.length < NINODE := by
    by_cases hmem : ip ∈ held
    · rw [List.dedup_cons_of_mem hmem]
      omega
    · rw [List.dedup_cons_of_notMem hmem, List.length_cons]
      omega
  obtain ⟨⟨n, hn⟩, hlt⟩ := hfs.whole ip hdir
  have hdiv : (fs ip).size / 16 = n := by omega
  rw [dirlookup, if_neg (not_not.mpr hdir), hdiv, lookup, hdiv, List.range_eq_range']
  exact dirlookupFrom_eq hrefs hname hn hlt (Nat.zero_add n)

theorem parentOf_cons (hdir : (fs ip).type = .dir) (hcs : cs ≠ []) :
    parentOf fs ip (c :: cs) = (lookup (fs ip) (c.take DIRSIZ)).bind (parentOf fs · cs) := by
  simp only [parentOf, List.getLast?_cons, List.dropLast_cons_of_ne_nil hcs, resolve,
    if_pos hdir, List.getLast?_eq_getLast_of_ne_nil hcs]
  cases lookup (fs ip) (c.take DIRSIZ) <;> rfl

theorem namexFrom_eq (hfs : Sound fs) (hheld : held.dedup.length + 2 ≤ NINODE) (parent : Bool)
    (hip : (fs ip).type ≠ .free)
    (hfuel : path.length < fuel) (hpath : 0 ∉ path) (hname : name.length = DIRSIZ) :
    ∃ r, namexFrom fs held parent fuel ip path name = some r ∧
      (parent = false → r.map Prod.fst = resolve fs ip (elements path)) ∧
      (parent = true → r.map (Prod.map id text) = parentOf fs ip (elements path)) := by
  induction fuel generalizing ip path name with
  | zero => omega
  | succ fuel ih =>
    rw [namexFrom]
    obtain ⟨hskip, hnil⟩ | ⟨c, rest, name', hskip, hcs, hempty, hlt, hrest, hname', htext⟩ :=
      skipelem_spec hpath hname
    · rw [hskip, hnil]
      exact ⟨_, rfl, fun h => by rw [h]; rfl, fun h => by rw [h]; rfl⟩
    · rw [hskip, hcs]
      dsimp only
      rw [if_neg hip]
      by_cases hdir : (fs ip).type = .dir
      · rw [if_neg (not_not.mpr hdir)]
        by_cases hstop : parent = true ∧ rest = []
        · obtain ⟨rfl, rfl⟩ := hstop
          refine ⟨_, rfl, Bool.noConfusion, fun _ => ?_⟩
          simp [parentOf, elements, resolve, hdir, htext]
        · rw [if_neg hstop, dirlookup_eq hfs hheld hdir hname', htext, resolve, if_pos hdir]
          have hmore : parent = true → elements rest ≠ [] := fun hp h => hstop ⟨hp, hempty h⟩
          cases hfound : lookup (fs ip) (c.take DIRSIZ) with
          | none =>
            refine ⟨none, rfl, fun _ => rfl, fun hp => ?_⟩
            rw [parentOf_cons hdir (hmore hp), hfound]
            rfl
          | some next =>
            have hnext := hfs.used ip _ next hdir hfound
            obtain ⟨r, hr, hfalse, htrue⟩ := ih hnext (by omega) hrest hname'
            refine ⟨r, hr, hfalse, fun hp => ?_⟩
            rw [parentOf_cons hdir (hmore hp), hfound]
            exact htrue hp
      · rw [if_pos hdir]
        refine ⟨none, rfl, fun _ => (if_neg hdir).symm, fun _ => ?_⟩
        cases elements rest <;> simp [parentOf, resolve, hdir]

/-- A path leads where its elements lead one after the other, from the root or
from `cwd`, whatever `name` held: `namei` gives the inode of the last one,
`nameiparent` the directory it is in and its name. There is no panic if the inode
cache has room for two more inodes than others have references to. -/
theorem namex_resolves {cwd : Nat} (hfs : Sound fs) (hheld : held.dedup.length + 2 ≤ NINODE)
    (hpath : 0 ∉ path) (hname : name.length = DIRSIZ)
    (hip : (fs (origin cwd path)).type ≠ .free) :
    (namex fs held cwd path false name).map (Option.map Prod.fst) =
        some (resolve fs (origin cwd path) (elements path)) ∧
      (namex fs held cwd path true name).map (Option.map (Prod.map id text)) =
        some (parentOf fs (origin cwd path) (elements path)) := by
  have hstart : (if path.head? = some slash then iget held ROOTINO else some cwd) =
      some (origin cwd path) := by
    rw [iget_eq (by omega), origin]
    split <;> rfl
  have hrun := fun parent =>
    namexFrom_eq hfs hheld parent hip (Nat.lt_succ_self path.length) hpath hname
  obtain ⟨r, hr, hfalse, -⟩ := hrun false
  obtain ⟨r', hr', -, htrue⟩ := hrun true
  rw [namex, namex, hstart, Option.bind_some, Option.bind_some, hr, hr', ← hfalse rfl, ← htrue rfl]
  exact ⟨rfl, rfl⟩

end Walk

/-- A root directory with one entry, `a`. -/
def sample (i : Nat) : DInode :=
  if i = ROOTINO then ⟨.dir, 0, 16, fun k => [2, 0, 97].getD k 0⟩ else ⟨.file, 0, 0, fun _ => 0⟩

theorem namex_resolves_sample :
    (namex sample [5, 3] 5 [47, 47, 97] false (List.replicate 14 98)).map (Option.map Prod.fst) =
        some (some 2) ∧
      (namex sample [5, 3] 5 [47, 47, 97] true (List.replicate 14 98)).map
        (Option.map (Prod.map id text)) = some (some (1, [97])) := by
  have hfs : Sound sample := by
    constructor
    · intro i hi
      unfold sample at hi ⊢
      split at hi
      · rw [if_pos ‹_›]
        decide
      · cases hi
    · intro _ _ j _ _
      unfold sample
      split <;> decide
  have hpath : (0 : UInt8) ∉ [47, 47, 97] := by decide
  have hname : (List.replicate 14 (98 : UInt8)).length = DIRSIZ := rfl
  have hheld : [5, 3].dedup.length + 2 ≤ NINODE := by decide
  have h := namex_resolves hfs hheld hpath hname (show (sample (origin 5 _)).type ≠ .free by decide)
  exact ⟨h.1.trans (by decide +kernel), h.2.trans (by decide +kernel)⟩

end Xv6.Namex
