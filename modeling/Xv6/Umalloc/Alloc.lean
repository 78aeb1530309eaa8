import Xv6.Lib.Trans
import Xv6.Umalloc.FreeList

/-!
# Every run of `malloc` and `free`

`malloc` goes round the list once. A block that is large enough is taken off
it, or the end of the block is; if there is none, `morecore` frees a new
region, and the second time round there is one.

`Sound` says what holds after every call: the list is a cycle in the order of
addresses, no two free blocks touch, and the free blocks and those of the
program tile the memory. It rests on there being fewer than 2 ^ 32 units in
all. With more, the size of a block that was joined wraps, and memory is lost.
-/

namespace Xv6.Umalloc

open Xv6.Lib Xv6.Lib.CInt Xv6.Lib.Trans Function

variable {L : Layout} {h h' : Heap} {bs others blocks : List Nat} {p q c prevp nunits fuel : Nat}
variable {nu r : Nat} {gap : Option Nat} {gaps : List (Option Nat)}

/-! ## A new region -/

namespace Memory

theorem split (hm : Memory L h (p :: blocks)) (hpos : 0 < nunits) (hlt : nunits < h.size p) :
    Memory L ((h.setSize p (h.size p - nunits)).setSize (p + HEADER * (h.size p - nunits)) nunits)
      ((p + HEADER * (h.size p - nunits)) :: p :: blocks) := by
  have hbase := (hm.bounds List.mem_cons_self).1
  refine ⟨?_, ?_, hm.within, hm.fits, hm.units⟩
  · rw [bytes_setSize, bytes_setSize, Nat.mul_sub]
    exact hm.tiling.split (Nat.mul_pos (by decide) hpos) (Nat.mul_lt_mul_of_pos_left hlt (by decide))
  · show update (update h.size p _) _ _ L.base = 0
    rw [update_of_ne (by omega), update_of_ne (by omega)]
    exact hm.base

theorem brk_le_top (hm : Memory L h blocks) : L.brk ≤ h.top L := by
  have hwithin := hm.within
  cases hregions : h.regions with
  | nil =>
    unfold Heap.top
    rw [hregions]
  | cons r rs =>
    have hr := hwithin r (by rw [hregions]; exact List.mem_cons_self)
    omega

theorem grow (hm : Memory L h blocks) (hpos : 0 < nu) (hp : h.top L ≤ p)
    (hunits : h.units + nu ≤ L.limit) (hfits : p + HEADER * nu < 2 ^ 64) :
    Memory L { h.setSize p nu with regions := (p, nu) :: h.regions } (p :: blocks) := by
  have hbrk := hm.brk_le_top
  have hbelow := L.base_below
  refine ⟨?_, ?_, ?_, hfits, ?_⟩
  · show Tiling (fun b => HEADER * (h.setSize p nu).size b) _ _
    rw [bytes_setSize]
    refine hm.tiling.grow (Nat.mul_pos (by decide) hpos) fun r hr => ?_
    obtain ⟨s, hs, rfl⟩ := List.mem_map.mp hr
    exact Nat.le_trans (hm.within s hs).2 hp
  · show update h.size p nu L.base = 0
    rw [update_of_ne (by omega)]
    exact hm.base
  · intro r hr
    show L.brk ≤ r.1 ∧ r.1 + HEADER * r.2 ≤ p + HEADER * nu
    rcases List.mem_cons.mp hr with rfl | hr
    · exact ⟨by omega, Nat.le_refl _⟩
    · have hwithin := hm.within r hr
      exact ⟨hwithin.1, by omega⟩
  · have hsum : Heap.units { h.setSize p nu with regions := (p, nu) :: h.regions } =
        nu + h.units := List.sum_cons
    omega

end Memory

/-- The new region is a block that is not on the list. -/
theorem FreeList.grow (hf : FreeList L h bs others) (hpos : 0 < nu) (hp : h.top L ≤ p)
    (hunits : h.units + nu ≤ L.limit) (hfits : p + HEADER * nu < 2 ^ 64) :
    FreeList L { h.setSize p nu with regions := (p, nu) :: h.regions } bs (p :: others) := by
  have hmemory := hf.memory.grow hpos hp hunits hfits
  refine ⟨hmemory.perm List.perm_middle.symm, hf.cycle, hf.freep, order_congr (fun b hb => ?_) hf.order⟩
  refine update_of_ne (fun heq : b = p => ?_) _ _
  rw [heq] at hb
  exact (List.nodup_cons.mp hmemory.tiling.nodup).1 (List.mem_append_left _ hb)

theorem FreeList.freep_ne_zero (hf : FreeList L h bs others) : h.freep ≠ 0 := by
  have hpos := L.base_pos
  rcases List.mem_cons.mp hf.freep with heq | hmem
  · omega
  · have hbase := (hf.memory.bounds (List.mem_append_left _ hmem)).1
    omega

/-- `sbrk` is asked for what is wanted if that is less than 2 ^ 31 bytes. -/
theorem asked_eq_iff : Heap.asked nu = (HEADER * nu : Nat) ↔ nu < 2 ^ 27 := by
  unfold Heap.asked
  refine ⟨fun heq => ?_, fun hlt => int32_of_bounds (by omega) (by unfold HEADER; omega)⟩
  have hbounds := int32_bounds (HEADER * nu : Nat)
  rw [heq] at hbounds
  unfold HEADER at hbounds
  omega

theorem wanted_bounds (nunits : Nat) :
    nunits ≤ Heap.wanted nunits ∧ 0 < Heap.wanted nunits ∧
      (Heap.wanted nunits < 2 ^ 27 ↔ nunits < 2 ^ 27) := by
  unfold Heap.wanted
  split <;> omega

/-- What `sbrk` gives is above everything, and fits. -/
theorem sbrk_some {regions : List (Nat × Nat)} (hnu : nu < 2 ^ 27)
    (hsbrk : h.sbrk L (Heap.asked nu) gap = some (p, regions)) :
    regions = (p, nu) :: h.regions ∧
      h.top L ≤ p ∧ h.units + nu ≤ L.limit ∧ p + HEADER * nu < 2 ^ 64 := by
  have hunits : HEADER * nu / HEADER = nu := Nat.mul_div_cancel_left nu (by decide)
  rw [asked_eq_iff.mpr hnu] at hsbrk
  unfold Heap.sbrk at hsbrk
  split at hsbrk
  · cases hsbrk
  · dsimp only at hsbrk
    rw [if_neg (by omega), Int.toNat_natCast, hunits] at hsbrk
    split at hsbrk
    · rename_i hroom
      cases hsbrk
      exact ⟨rfl, Nat.le_add_right _ _, hroom⟩
    · cases hsbrk

theorem plus_one (hfits : p + HEADER < 2 ^ 64) : plus p 1 = p + HEADER := by
  unfold plus uint64
  omega

/-- `morecore` changes nothing, or puts a large block on the list. -/
theorem FreeList.morecore (hf : FreeList L h bs others) (hlimit : L.limit < 2 ^ 32)
    (hnu : Heap.wanted nunits < 2 ^ 27) (hmore : h.morecore L fuel nunits gap = some (h', q)) :
    (q = 0 ∧ h' = h) ∨ q ≠ 0 ∧ q = h'.freep ∧ (∀ o ∈ others, h'.size o = h.size o) ∧
      ∃ bs', FreeList L h' bs' others ∧ bs'.length ≤ bs.length + 1 ∧
        ∃ c ∈ bs', nunits ≤ h'.size c := by
  unfold Heap.morecore at hmore
  have hle := wanted_bounds nunits
  dsimp only at hmore
  generalize Heap.wanted nunits = nu at hnu hmore hle
  cases hsbrk : h.sbrk L (Heap.asked nu) gap with
  | none =>
    rw [hsbrk] at hmore
    cases hmore
    exact .inl ⟨rfl, rfl⟩
  | some x =>
    obtain ⟨p, regions⟩ := x
    rw [hsbrk] at hmore
    obtain ⟨rfl, hp, hunits, hfits⟩ := sbrk_some hnu hsbrk
    have hgrown := hf.grow hle.2.1 hp hunits hfits
    obtain ⟨h1, hfree, heq⟩ := Option.map_eq_some_iff.mp hmore
    cases heq
    rw [plus_one (by unfold HEADER at hfits ⊢; omega)] at hfree
    obtain ⟨bs', hlist, hlen, hkept, c, hc, hsize⟩ := hgrown.free hlimit hfree
    refine .inr ⟨hlist.freep_ne_zero, rfl, fun o ho => ?_, bs', hlist, hlen, c, hc, ?_⟩
    · rw [hkept o ho]
      refine update_of_ne (fun heq : o = p => ?_) _ _
      have hnodup := (List.nodup_append.mp hgrown.memory.tiling.nodup).2.1
      rw [heq] at ho
      exact (List.nodup_cons.mp hnodup).1 ho
    · have hself : update h.size p nu p = nu := update_self _ _ _
      have hsize' : update h.size p nu p ≤ h'.size c := hsize
      omega

theorem FreeList.morecore_isSome (hf : FreeList L h bs others) (hnu : Heap.wanted nunits < 2 ^ 27)
    (hfuel : bs.length < fuel) : (h.morecore L fuel nunits gap).isSome := by
  unfold Heap.morecore
  dsimp only
  cases hsbrk : h.sbrk L (Heap.asked (Heap.wanted nunits)) gap with
  | none => rfl
  | some x =>
    obtain ⟨p, regions⟩ := x
    obtain ⟨rfl, hp, hunits, hfits⟩ := sbrk_some hnu hsbrk
    have hpos := (wanted_bounds nunits).2.1
    have hfree := (hf.grow hpos hp hunits hfits).free_isSome hfuel
    rw [← plus_one (by unfold HEADER at hfits ⊢; omega)] at hfree
    show (Option.map _ _).isSome = true
    rw [Option.isSome_map]
    exact hfree

/-! ## A block for the program -/

/-- What `malloc` leaves: the list as it was, or a block of `nunits` units. -/
structure Allocated (L : Layout) (h : Heap) (others : List Nat) (nunits : Nat) (h' : Heap)
    (r : Nat) : Prop where
  kept : ∀ o ∈ others, h'.size o = h.size o
  outcome : (r = 0 ∧ ∃ bs, FreeList L h' bs others) ∨
    ∃ q bs, r = q + HEADER ∧ FreeList L h' bs (q :: others) ∧ h'.size q = nunits

/-- A block of the right size leaves the list. -/
theorem FreeList.unlink {xs ys : List Nat} (hf : FreeList L h (xs ++ p :: ys) others)
    (hlower : Path h.ptr L.base xs prevp) (hupper : Path h.ptr p (ys ++ [L.base]) L.base) :
    FreeList L { h.setPtr prevp (h.ptr p) with freep := prevp } (xs ++ ys) (p :: others) := by
  have hup := hf.increasing
  rw [← List.cons_append] at hup
  have hnodup := hup.imp Nat.ne_of_lt
  have hprevp : prevp ∉ ys := fun hmem =>
    (List.nodup_append.mp hnodup).2.2 prevp hlower.end_mem prevp (List.mem_cons_of_mem _ hmem) rfl
  refine ⟨?_, ?_, ?_, hf.order.sublist ((List.sublist_cons_self p ys).append_left xs)⟩
  · refine (hf.memory.perm ?_).setPtr.setFreep
    rw [List.append_assoc, List.append_assoc]
    refine List.Perm.append_left xs ?_
    exact List.perm_middle.symm
  · have hlower' := hlower.update (w := h.ptr p)
      (hlower.end_notMem (List.nodup_append.mp hnodup).1)
    have hupper' : Path (update h.ptr prevp (h.ptr p)) prevp (ys ++ [L.base]) L.base := by
      refine hupper.redirect (List.append_ne_nil_of_right_ne_nil _ (List.cons_ne_nil _ _)) ?_
      rwa [List.dropLast_concat]
    have hround := hlower'.append hupper'
    rwa [← List.append_assoc] at hround
  · rw [← List.cons_append]
    exact List.mem_append_left _ hlower.end_mem

/-- The end of a block is taken, and the block stays on the list. -/
theorem FreeList.shrink (hf : FreeList L h bs others) (hp : p ∈ bs) (hprevp : prevp ∈ L.base :: bs)
    (hpos : 0 < nunits) (hlt : nunits < h.size p) :
    FreeList L { (h.setSize p (h.size p - nunits)).setSize (p + HEADER * (h.size p - nunits)) nunits
      with freep := prevp } bs ((p + HEADER * (h.size p - nunits)) :: others) := by
  have hperm : (bs ++ others).Perm (p :: (bs.erase p ++ others)) :=
    (List.perm_cons_erase hp).append_right others
  have hmemory := (hf.memory.perm hperm).split hpos hlt
  refine ⟨?_, hf.cycle, hprevp, ?_⟩
  · refine (hmemory.perm ?_).setFreep
    exact (List.Perm.cons _ hperm.symm).trans List.perm_middle.symm
  · refine hf.order.imp_of_mem fun {a b} ha _ hab => ?_
    have hne : a ≠ p + HEADER * (h.size p - nunits) := by
      rintro rfl
      refine (List.nodup_cons.mp hmemory.tiling.nodup).1 (hperm.mem_iff.mp ?_)
      exact List.mem_append_left _ ha
    show a + HEADER * update (update h.size p _) _ _ a < b
    rw [update_of_ne hne]
    by_cases heq : a = p
    · rw [heq] at hab ⊢
      rw [update_self, Nat.mul_sub]
      omega
    · rw [update_of_ne heq]
      exact hab

/-- A block that is large enough is taken, or its end. -/
theorem FreeList.carve (hf : FreeList L h bs others) (hprevp : prevp ∈ L.base :: bs)
    (hpos : 0 < nunits) (hfit : nunits ≤ h.size (h.ptr prevp)) :
    Allocated L h others nunits (h.carve prevp (h.ptr prevp) nunits).1
      (h.carve prevp (h.ptr prevp) nunits).2 := by
  obtain ⟨xs, ys, rfl, hlower, hupper⟩ := hf.cycle.cut hprevp
  cases ys with
  | nil =>
    have hptr : h.ptr prevp = L.base := hupper.1
    rw [hptr, hf.memory.base] at hfit
    omega
  | cons p ys =>
    have hptr : h.ptr prevp = p := hupper.1
    have hmem : p ∈ xs ++ p :: ys := by simp
    have hend := hf.memory.plus_size (List.mem_append_left others hmem)
    have hbounds := hf.memory.bounds (List.mem_append_left others hmem)
    have hfits := hf.memory.fits
    unfold HEADER at hbounds
    rw [hptr] at hfit ⊢
    unfold Heap.carve
    split
    · rename_i hsize
      refine ⟨fun o _ => rfl, .inr ⟨p, xs ++ ys, plus_one (by unfold HEADER; omega),
        hf.unlink hlower hupper.2, hsize⟩⟩
    · rename_i hsize
      have hlt : nunits < h.size p := by omega
      have hnew := hf.shrink hmem hprevp hpos hlt
      have hq : plus p ((h.setSize p (h.size p - nunits)).size p) =
          p + HEADER * (h.size p - nunits) := by
        have hself : (h.setSize p (h.size p - nunits)).size p = h.size p - nunits :=
          update_self _ _ _
        rw [hself]
        unfold plus uint64 HEADER
        omega
      dsimp only
      rw [hq]
      refine ⟨fun o ho => ?_, .inr ⟨_, _, plus_one (by unfold HEADER; omega), hnew,
        update_self _ _ _⟩⟩
      have hop := hf.others_ne ho (List.mem_cons_of_mem _ hmem)
      have hoq : o ≠ p + HEADER * (h.size p - nunits) := by
        rintro rfl
        have hnodup := (List.nodup_append.mp hnew.memory.tiling.nodup).2.1
        exact (List.nodup_cons.mp hnodup).1 ho
      show update (update h.size p _) _ _ o = h.size o
      rw [update_of_ne hoq, update_of_ne hop]

/-- The loop of `malloc` gives a block, or finds that there is no memory, if
`sbrk` was asked for what was wanted. -/
theorem FreeList.mallocLoop (hf : FreeList L h bs others) (hlimit : L.limit < 2 ^ 32)
    (hpos : 0 < nunits) (hprevp : prevp ∈ L.base :: bs)
    (hasks : ∀ nu ∈ Heap.asks L nunits fuel gaps h (h.ptr prevp), nu < 2 ^ 27)
    (hloop : Heap.mallocLoop L nunits fuel gaps h prevp (h.ptr prevp) = some (h', r)) :
    Allocated L h others nunits h' r := by
  induction fuel generalizing gaps h bs prevp with
  | zero => cases hloop
  | succ fuel ih =>
    unfold Heap.mallocLoop at hloop
    unfold Heap.asks at hasks
    split at hloop
    · rename_i hfit
      have hcarve := hf.carve hprevp hpos hfit
      rw [Option.some.inj hloop] at hcarve
      exact hcarve
    rename_i hsmall
    rw [if_neg hsmall] at hasks
    split at hloop
    · rename_i hp
      rw [if_pos hp, List.forall_mem_cons] at hasks
      split at hloop
      · cases hloop
      · rename_i h1 q hmore
        rw [hmore] at hasks
        rcases hf.morecore hlimit hasks.1 hmore with ⟨rfl, rfl⟩ | ⟨hq, rfl, hkept, bs', hlist, -⟩
        · rw [if_pos rfl] at hloop
          cases hloop
          exact ⟨fun _ _ => rfl, .inl ⟨rfl, bs, hf⟩⟩
        · dsimp only at hasks
          rw [if_neg hq] at hloop hasks
          have ha := ih hlist hlist.freep hasks.2 hloop
          exact ⟨fun o ho => (ha.kept o ho).trans (hkept o ho), ha.outcome⟩
    · rename_i hp
      rw [if_neg hp] at hasks
      exact ih hf (hf.cycle.next_mem hprevp) hasks hloop

theorem eq_wanted_of_mem_asks (hnu : nu ∈ Heap.asks L nunits fuel gaps h p) :
    nu = Heap.wanted nunits := by
  induction fuel generalizing gaps h p with
  | zero => cases hnu
  | succ fuel ih =>
    unfold Heap.asks at hnu
    split at hnu
    · cases hnu
    split at hnu
    · rcases List.mem_cons.mp hnu with heq | hnu
      · exact heq
      split at hnu
      · cases hnu
      split at hnu
      · cases hnu
      · exact ih hnu
    · exact ih hnu

/-! ## The loop ends -/

/-- The loop goes on to a node `c` as long as `freep` does not come first. -/
theorem mallocLoop_walk (rounds : Nat) {us : List Nat} (hpath : Path h.ptr p us c)
    (hfreep : h.freep ∉ (p :: us).dropLast) (hend : ∀ fuel gaps prevp, rounds < fuel →
      (Heap.mallocLoop L nunits fuel gaps h prevp c).isSome) (hfuel : us.length + rounds < fuel) :
    (Heap.mallocLoop L nunits fuel gaps h prevp p).isSome := by
  induction us generalizing p prevp fuel with
  | nil =>
    have hpc : p = c := hpath
    subst hpc
    exact hend fuel gaps prevp (by simpa using hfuel)
  | cons x us ih =>
    rw [List.dropLast_cons_of_ne_nil (List.cons_ne_nil _ _), List.mem_cons, not_or] at hfreep
    rw [List.length_cons] at hfuel
    cases fuel with
    | zero => omega
    | succ fuel =>
      unfold Heap.mallocLoop
      split
      · rfl
      · rw [if_neg (Ne.symm hfreep.1), hpath.1]
        exact ih hpath.2 hfreep.2 (by omega)

/-- One time round is enough if there is a block that is large enough. -/
theorem FreeList.mallocLoop_fits (hf : FreeList L h bs others) (hc : c ∈ bs)
    (hfit : nunits ≤ h.size c) (hfuel : bs.length < fuel) :
    (Heap.mallocLoop L nunits fuel gaps h h.freep (h.ptr h.freep)).isSome := by
  obtain ⟨zs, hround, hperm⟩ := hf.cycle.rotate hf.freep
  have hnodup := hperm.nodup_iff.mpr (hf.increasing.imp Nat.ne_of_lt)
  obtain ⟨us, hpath, hfreep, hlen⟩ :=
    hround.reach hnodup (hperm.mem_iff.mpr (List.mem_cons_of_mem _ hc))
  have hlength := hperm.length_eq
  rw [List.length_cons, List.length_cons] at hlength
  refine mallocLoop_walk 0 hpath hfreep (fun fuel gaps prevp hpos => ?_) (by omega)
  cases fuel with
  | zero => cases hpos
  | succ fuel =>
    unfold Heap.mallocLoop
    rw [if_pos hfit]
    rfl

/-- Twice round is always enough. -/
theorem FreeList.mallocLoop_isSome (hf : FreeList L h bs others) (hlimit : L.limit < 2 ^ 32)
    (hnu : Heap.wanted nunits < 2 ^ 27) (hfuel : 2 * bs.length + 3 < fuel) :
    (Heap.mallocLoop L nunits fuel gaps h h.freep (h.ptr h.freep)).isSome := by
  obtain ⟨zs, hround, hperm⟩ := hf.cycle.rotate hf.freep
  have hnodup := hperm.nodup_iff.mpr (hf.increasing.imp Nat.ne_of_lt)
  obtain ⟨us, hpath, hfreep, hlen⟩ := hround.reach hnodup List.mem_cons_self
  have hlength := hperm.length_eq
  rw [List.length_cons, List.length_cons] at hlength
  refine mallocLoop_walk (bs.length + 3) hpath hfreep (fun fuel gaps prevp hmore => ?_) (by omega)
  cases fuel with
  | zero => cases hmore
  | succ fuel =>
    unfold Heap.mallocLoop
    split
    · rfl
    rw [if_pos rfl]
    have hsome : (h.morecore L fuel nunits (gaps.head?.getD none)).isSome :=
      hf.morecore_isSome hnu (by omega)
    obtain ⟨⟨h1, q⟩, hcore⟩ := Option.isSome_iff_exists.mp hsome
    rw [hcore]
    rcases hf.morecore hlimit hnu hcore with ⟨rfl, rfl⟩ | ⟨hq, rfl, -, bs', hlist, hlen', c, hc, hfit⟩
    · rfl
    · dsimp only
      rw [if_neg hq]
      exact hlist.mallocLoop_fits hc hfit (by omega)

/-! ## Every run -/

variable {w w' : World}

/-- The blocks of the program, by their headers. -/
def World.headers (w : World) : List Nat := w.live.map fun x => x.1 - HEADER

/-- Every block of the program has room for what was asked. -/
def World.Room (w : World) : Prop :=
  ∀ x ∈ w.live, HEADER ≤ x.1 ∧ x.2 + HEADER ≤ HEADER * w.heap.size (x.1 - HEADER)

/-- What holds after every call, with the free blocks `bs`. -/
structure World.Sound (L : Layout) (w : World) (bs : List Nat) : Prop where
  /-- The list is one cycle, and `freep` is on it. -/
  cycle : Cycle w.heap.ptr L.base bs
  freep : w.heap.freep ∈ L.base :: bs
  /-- It goes up from `base`, and wraps only at its end. -/
  increasing : (L.base :: bs).Pairwise (· < ·)
  coalesced : ∀ a ∈ bs, ∀ b ∈ bs, a + HEADER * w.heap.size a ≠ b
  /-- All blocks are disjoint, and they are the memory that `sbrk` gave. -/
  tiling : Tiling (fun b => HEADER * w.heap.size b) (bs ++ w.headers) (w.heap.regions.map extent)
  room : w.Room

/-- Nothing was called yet, or the list is one. -/
def World.Arena (L : Layout) (w : World) : Prop :=
  (w.heap.freep = 0 ∧ w.heap.regions = [] ∧ w.live = []) ∨
    ∃ bs, FreeList L w.heap bs w.headers ∧ w.Room

theorem FreeList.sound {bs : List Nat} (hf : FreeList L w.heap bs w.headers) (hroom : w.Room) :
    w.Sound L bs := by
  refine ⟨hf.cycle, hf.freep, hf.increasing, fun a ha b hb heq => ?_, hf.memory.tiling, hroom⟩
  have hpos := (hf.memory.bounds (List.mem_append_left _ ha)).2.1
  have hne : a ≠ b := by
    unfold HEADER at heq
    omega
  have hsymm : bs.Pairwise fun a b =>
      a + HEADER * w.heap.size a ≠ b ∧ b + HEADER * w.heap.size b ≠ a :=
    hf.order.imp fun {a b} hab => ⟨by omega, by omega⟩
  have : Std.Symm fun a b => a + HEADER * w.heap.size a ≠ b ∧ b + HEADER * w.heap.size b ≠ a :=
    ⟨fun _ _ hab => hab.symm⟩
  exact (hsymm.forall ha hb hne).1 heq

theorem FreeList.perm_others {others' : List Nat} (hf : FreeList L h bs others)
    (hperm : others.Perm others') : FreeList L h bs others' :=
  ⟨hf.memory.perm (hperm.append_left bs), hf.cycle, hf.freep, hf.order⟩

/-- The first call of `malloc` makes the list. -/
theorem World.Arena.init (harena : w.Arena L) :
    ∃ bs, FreeList L (w.heap.init L) bs w.headers ∧
      ∀ o ∈ w.headers, (w.heap.init L).size o = w.heap.size o := by
  rcases harena with ⟨hfreep, hregions, hlive⟩ | ⟨bs, hlist, -⟩
  · have hheaders : w.headers = [] := by
      unfold World.headers
      rw [hlive]
      rfl
    have hinit : w.heap.init L =
        { (w.heap.setPtr L.base L.base).setSize L.base 0 with freep := L.base } := if_pos hfreep
    have hregions' : (w.heap.init L).regions = [] := by
      rw [hinit]
      exact hregions
    have htop : (w.heap.init L).top L = L.brk := by
      unfold Heap.top
      rw [hregions']
    rw [hheaders]
    refine ⟨[], ⟨⟨?_, ?_, ?_, ?_, ?_⟩, ?_, ?_, .nil⟩, nofun⟩
    · rw [hregions']
      exact Tiling.nil _
    · rw [hinit]
      exact update_self _ _ _
    · rw [hregions']
      nofun
    · rw [htop]
      exact L.brk_below
    · unfold Heap.units
      rw [hregions']
      exact Nat.zero_le _
    · rw [hinit]
      exact ⟨update_self _ _ _, rfl⟩
    · rw [hinit]
      exact List.mem_cons_self
  · have hinit : w.heap.init L = w.heap := if_neg hlist.freep_ne_zero
    rw [hinit]
    exact ⟨bs, hlist, fun _ _ => rfl⟩

theorem World.Arena.room (harena : w.Arena L) : w.Room := by
  rcases harena with ⟨-, -, hlive⟩ | ⟨_, -, hroom⟩
  · unfold World.Room
    rw [hlive]
    nofun
  · exact hroom

theorem World.mem_headers {x : Nat × Nat} (hx : x ∈ w.live) : x.1 - HEADER ∈ w.headers :=
  List.mem_map.mpr ⟨x, hx, rfl⟩

/-- The number of units does not wrap, and is enough. -/
theorem nunitsOf_room {n : Nat} (hn : n < 2 ^ 32) : Heap.nunitsOf n = (n + 15) / 16 + 1 ∧
    0 < Heap.nunitsOf n ∧ n + HEADER ≤ HEADER * Heap.nunitsOf n := by
  unfold Heap.nunitsOf HEADER uint32
  omega

theorem wanted_lt_iff {n : Nat} (hn : n < 2 ^ 32) :
    Heap.wanted (Heap.nunitsOf n) < 2 ^ 27 ↔ ((n + 15) / 16 + 1) * 16 < 2 ^ 31 := by
  rw [(wanted_bounds _).2.2, (nunitsOf_room hn).1]
  omega

theorem World.Arena.malloc {n : Nat} {heap : Heap} (harena : w.Arena L) (hlimit : L.limit < 2 ^ 32)
    (hn : n < 2 ^ 32) (hasks : ∀ nu ∈ w.heap.mallocAsks L fuel n gaps, nu < 2 ^ 27)
    (hmalloc : w.heap.malloc L fuel n gaps = some (heap, r))
    (hw' : w' = { heap, live := if r = 0 then w.live else (r, n) :: w.live }) :
    ∃ bs, FreeList L w'.heap bs w'.headers ∧ w'.Room := by
  obtain ⟨bs, hlist, hinit⟩ := harena.init
  obtain ⟨-, hpos, hroom⟩ := nunitsOf_room hn
  have halloc := hlist.mallocLoop hlimit hpos hlist.freep hasks hmalloc
  have hold : ∀ x ∈ w.live, HEADER ≤ x.1 ∧ x.2 + HEADER ≤ HEADER * heap.size (x.1 - HEADER) := by
    intro x hx
    rw [halloc.kept _ (World.mem_headers hx), hinit _ (World.mem_headers hx)]
    exact harena.room x hx
  subst hw'
  rcases halloc.outcome with ⟨rfl, bs', hlist'⟩ | ⟨q, bs', rfl, hlist', hsize⟩
  · exact ⟨bs', hlist', hold⟩
  · rw [if_neg (by unfold HEADER; omega)]
    refine ⟨bs', ?_, fun x hx => ?_⟩
    · show FreeList L heap bs' ((q + HEADER - HEADER) :: w.headers)
      rw [Nat.add_sub_cancel]
      exact hlist'
    · rcases List.mem_cons.mp hx with rfl | hx
      · dsimp only
        rw [Nat.add_sub_cancel, hsize]
        exact ⟨Nat.le_add_left _ _, hroom⟩
      · exact hold x hx

/-- The header of a block that is given back, and the blocks that stay. -/
theorem World.Room.free_split {ap : Nat} (hroom : w.Room) (hap : ap ∈ w.live.map Prod.fst) :
    ∃ bp, ap = bp + HEADER ∧ w.headers.Perm
        (bp :: (w.live.eraseP fun x => x.1 == ap).map fun x => x.1 - HEADER) := by
  obtain ⟨x, hx, rfl⟩ := List.mem_map.mp hap
  obtain ⟨y, l₁, l₂, -, hy, hlive, herase⟩ :=
    List.exists_of_eraseP (p := fun y : Nat × Nat => y.1 == x.1) hx (beq_self_eq_true _)
  have hyx : y.1 = x.1 := eq_of_beq hy
  refine ⟨x.1 - HEADER, (Nat.sub_add_cancel (hroom x hx).1).symm, ?_⟩
  rw [herase]
  unfold World.headers
  rw [hlive, ← hyx, List.map_append, List.map_cons, List.map_append]
  exact List.perm_middle

theorem World.Arena.free {ap : Nat} {heap : Heap} (harena : w.Arena L) (hlimit : L.limit < 2 ^ 32)
    (hap : ap ∈ w.live.map Prod.fst) (hfree : w.heap.free fuel ap = some heap)
    (hw' : w' = { heap, live := w.live.eraseP fun x => x.1 == ap }) :
    ∃ bs, FreeList L w'.heap bs w'.headers ∧ w'.Room := by
  rcases harena with ⟨-, -, hlive⟩ | ⟨bs, hlist, hroom⟩
  · rw [hlive] at hap
    cases hap
  · obtain ⟨bp, rfl, hperm⟩ := hroom.free_split hap
    obtain ⟨bs', hlist', -, hkept, -⟩ := (hlist.perm_others hperm).free hlimit hfree
    subst hw'
    refine ⟨bs', hlist', fun x hx => ?_⟩
    have hsize := hkept _ (List.mem_map.mpr ⟨x, hx, rfl⟩)
    dsimp only
    rw [hsize]
    exact hroom x (List.eraseP_subset hx)

/-- After every call the list is one. -/
theorem World.Arena.next {e : Event} (harena : w.Arena L) (hlimit : L.limit < 2 ^ 32)
    (hnext : next L e w = some w') : ∃ bs, FreeList L w'.heap bs w'.headers ∧ w'.Room := by
  cases e with
  | malloc fuel n gaps =>
    rw [Umalloc.next] at hnext
    split at hnext
    · rename_i hn
      obtain ⟨⟨heap, r⟩, hmalloc, heq⟩ := Option.map_eq_some_iff.mp hnext
      have hwanted := (wanted_lt_iff (by omega)).mpr hn
      exact harena.malloc hlimit (by omega) (fun nu hnu => eq_wanted_of_mem_asks hnu ▸ hwanted)
        hmalloc heq.symm
    · cases hnext
  | free fuel ap =>
    rw [Umalloc.next] at hnext
    split at hnext
    · rename_i hap
      obtain ⟨heap, hfree, heq⟩ := Option.map_eq_some_iff.mp hnext
      exact harena.free hlimit hap hfree heq.symm
    · cases hnext

theorem arena_reach {ptr size : Nat → Nat} (hlimit : L.limit < 2 ^ 32)
    (hreach : Reach (next L) (fun _ _ => True) (start ptr size) w) : w.Arena L := by
  refine hreach.invariant (.inl ⟨rfl, rfl, rfl⟩) fun e s s' harena _ hnext => ?_
  exact .inr (harena.next hlimit hnext)

/-- Every call returns, given enough rounds for its loops. -/
def World.Returns (L : Layout) (w : World) : Prop :=
  ∃ rounds, ∀ fuel, rounds ≤ fuel →
    (∀ n gaps, ((n + 15) / 16 + 1) * 16 < 2 ^ 31 → (next L (.malloc fuel n gaps) w).isSome) ∧
    ∀ ap ∈ w.live.map Prod.fst, (next L (.free fuel ap) w).isSome

theorem World.Arena.returns (harena : w.Arena L) (hlimit : L.limit < 2 ^ 32) : w.Returns L := by
  obtain ⟨bs, hlist, -⟩ := harena.init
  have hmalloc : ∀ fuel, 2 * bs.length + 4 ≤ fuel → ∀ n gaps,
      ((n + 15) / 16 + 1) * 16 < 2 ^ 31 → (Umalloc.next L (.malloc fuel n gaps) w).isSome := by
    intro fuel hfuel n gaps hn
    rw [Umalloc.next, if_pos hn, Option.isSome_map]
    exact hlist.mallocLoop_isSome hlimit ((wanted_lt_iff (by omega)).mpr hn) (by omega)
  rcases harena with ⟨-, -, hlive⟩ | ⟨bs', hlist', hroom⟩
  · refine ⟨2 * bs.length + 4, fun fuel hfuel => ⟨hmalloc fuel hfuel, ?_⟩⟩
    rw [hlive]
    nofun
  · refine ⟨2 * bs.length + 4 + bs'.length + 1, fun fuel hfuel => ⟨hmalloc fuel (by omega), ?_⟩⟩
    intro ap hap
    obtain ⟨bp, rfl, hperm⟩ := hroom.free_split hap
    rw [Umalloc.next, if_pos hap, Option.isSome_map]
    exact (hlist'.perm_others hperm).free_isSome (by omega)

/-- If there are fewer than 2 ^ 32 units of memory, then after every call the
list is one cycle in the order of addresses, no two free blocks touch, the
blocks tile the memory and have room for what was asked; and every call
returns. -/
theorem sound_after_every_call {ptr size : Nat → Nat} (hlimit : L.limit < 2 ^ 32)
    (hreach : Reach (next L) (fun _ _ => True) (start ptr size) w) :
    (∀ e w', next L e w = some w' → ∃ bs, w'.Sound L bs) ∧ w.Returns L := by
  have harena := arena_reach hlimit hreach
  refine ⟨fun e w' hnext => ?_, harena.returns hlimit⟩
  obtain ⟨bs, hlist, hroom⟩ := harena.next hlimit hnext
  exact ⟨bs, hlist.sound hroom⟩

def smallLayout : Layout := ⟨4096, 8192, 5000, by decide, by decide, by decide⟩

/-- Two blocks from one region, and the first of them given back. -/
theorem sound_after_every_call_small :
    ∃ w, Reach (next smallLayout) (fun _ _ => True) (start (fun _ => 7) (fun _ => 7)) w ∧
      w.live = [(73392, 100)] ∧
      (∀ e w', next smallLayout e w = some w' → ∃ bs, w'.Sound smallLayout bs) ∧
      w.Returns smallLayout := by
  have hrun : ((follow (next smallLayout) (fun _ _ => true)
      [.malloc 9 200 [some 0], .malloc 9 100 [], .free 9 73520]
      (start (fun _ => 7) (fun _ => 7))).any fun w => decide (w.live = [(73392, 100)])) = true := by
    decide +kernel
  obtain ⟨w, hreach, hlive⟩ := Reach.of_any hrun
  exact ⟨w, hreach, of_decide_eq_true hlive, sound_after_every_call (by decide) hreach⟩

/-! ## A size that wraps -/

def hugeLayout : Layout := ⟨4096, 8192, 2 ^ 40, by decide, by decide, by decide⟩

/-- 33 adjacent regions, each as large as `sbrk` can give, and all but the
last given back. -/
def hugeRun : List Event :=
  List.replicate 33 (.malloc 100 (16 * (2 ^ 27 - 2)) [some 0]) ++
    (List.range 32).map fun i => .free 100 (8208 + 16 * (2 ^ 27 - 1) * i)

/-- A list that goes from `base` to a block and back has no other block. -/
theorem World.Sound.eq_singleton {b : Nat} (hs : w.Sound L bs) (hbase : w.heap.ptr L.base = b)
    (hb : w.heap.ptr b = L.base) (hne : b ≠ L.base) : bs = [b] := by
  have hcycle : Path w.heap.ptr L.base (bs ++ [L.base]) L.base := hs.cycle
  have habove := (List.pairwise_cons.mp hs.increasing).1
  match bs, hcycle with
  | [], hcycle =>
    have hloop : w.heap.ptr L.base = L.base := hcycle.1
    exact absurd (hbase.symm.trans hloop) hne
  | [c], hcycle =>
    have hc : w.heap.ptr L.base = c := hcycle.1
    rw [← hc, hbase]
  | c :: d :: ds, hcycle =>
    have hc : w.heap.ptr L.base = c := hcycle.1
    have hd : w.heap.ptr c = d := hcycle.2.1
    rw [← hc, hbase, hb] at hd
    have hlt := habove d (List.mem_cons_of_mem _ List.mem_cons_self)
    omega

/-- When the last of them is given back, all the memory is one block whose
size wraps, and the blocks do not cover the memory any more. -/
theorem joined_size_wraps :
    ∃ w e w', Reach (next hugeLayout) (fun _ _ => True) (start (fun _ => 0) (fun _ => 0)) w ∧
      next hugeLayout e w = some w' ∧ ¬ ∃ bs, w'.Sound hugeLayout bs := by
  have hrun : ((follow (next hugeLayout) (fun _ _ => true) hugeRun
      (start (fun _ => 0) (fun _ => 0))).any fun w =>
        (next hugeLayout (.free 100 (8208 + 16 * (2 ^ 27 - 1) * 32)) w).any fun w' =>
          decide (w'.live = [] ∧ w'.heap.ptr 4096 = 8192 ∧ w'.heap.ptr 8192 = 4096 ∧
            w'.heap.size 8192 = 134217695 ∧
            w'.heap.regions.head? = some (8192 + 16 * (2 ^ 27 - 1) * 32, 2 ^ 27 - 1))) = true := by
    decide +kernel
  obtain ⟨w, hreach, hlast⟩ := Reach.of_any hrun
  obtain ⟨w', hnext, hfacts⟩ := (Option.any_eq_true _ _).mp hlast
  obtain ⟨hlive, hbase, hblock, hsize, hregion⟩ := of_decide_eq_true hfacts
  refine ⟨w, _, w', hreach, hnext, ?_⟩
  rintro ⟨bs, hs⟩
  have hbs := hs.eq_singleton hbase hblock (by decide)
  have hheaders : w'.headers = [] := by
    unfold World.headers
    rw [hlive]
    rfl
  have hmem := List.mem_map_of_mem (f := extent) (List.mem_of_mem_head? hregion)
  -- the last byte of the highest region is in no block
  obtain ⟨b, hb, -, hlt⟩ := (hs.tiling.cover (8192 + 16 * (2 ^ 27 - 1) * 33 - 1)).mp
    ⟨_, hmem, by decide, by decide⟩
  rw [hbs, hheaders, List.append_nil, List.mem_singleton] at hb
  rw [hb, hsize] at hlt
  exact absurd hlt (by decide)

end Xv6.Umalloc
