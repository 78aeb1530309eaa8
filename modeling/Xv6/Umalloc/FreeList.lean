import Mathlib.Data.List.TakeWhile
import Xv6.Lib.Path
import Xv6.Lib.Tiling
import Xv6.Umalloc.Model

/-!
# The free list

`Memory` says that the blocks, free ones and others, tile what `sbrk` gave,
and `FreeList` that the free ones are on the list: a cycle through `base`, in
the order of their addresses, with no two that touch.

`free` looks for the place of a block (`freeLoop`), joins it to the block
after it and then to the one before. `Between` is what holds in the middle of
that. As long as there are fewer than 2 ^ 32 units in all, no size wraps, and
the list is one again afterwards.
-/

namespace Xv6.Umalloc

open Xv6.Lib Xv6.Lib.CInt Function

variable {L : Layout} {h : Heap} {blocks : List Nat} {a b p q : Nat}

/-- The extent of a region in bytes. -/
def extent (r : Nat × Nat) : Nat × Nat := (r.1, HEADER * r.2)

/-- The blocks tile the memory that the program has. -/
structure Memory (L : Layout) (h : Heap) (blocks : List Nat) : Prop where
  tiling : Tiling (fun b => HEADER * h.size b) blocks (h.regions.map extent)
  base : h.size L.base = 0
  within : ∀ r ∈ h.regions, L.brk ≤ r.1 ∧ r.1 + HEADER * r.2 ≤ h.top L
  fits : h.top L < 2 ^ 64
  units : h.units ≤ L.limit

theorem sum_extent (h : Heap) : ((h.regions.map extent).map Prod.snd).sum = HEADER * h.units := by
  unfold Heap.units
  induction h.regions with
  | nil => rfl
  | cons r rs ih =>
    simp only [List.map_cons, List.sum_cons, extent] at ih ⊢
    rw [ih, Nat.mul_add]

theorem bytes_setSize (h : Heap) (p n : Nat) :
    (fun b => HEADER * (h.setSize p n).size b) =
      update (fun b => HEADER * h.size b) p (HEADER * n) := by
  funext b
  simp only [Heap.setSize, update_apply]
  split <;> rfl

namespace Memory

section

variable (hm : Memory L h blocks)
include hm

theorem perm {blocks' : List Nat} (hperm : blocks.Perm blocks') : Memory L h blocks' :=
  ⟨hm.tiling.perm hperm, hm.base, hm.within, hm.fits, hm.units⟩

theorem setPtr : Memory L (h.setPtr p q) blocks :=
  ⟨hm.tiling, hm.base, hm.within, hm.fits, hm.units⟩

theorem setFreep : Memory L { h with freep := p } blocks :=
  ⟨hm.tiling, hm.base, hm.within, hm.fits, hm.units⟩

theorem bounds (hb : b ∈ blocks) : L.base < b ∧ 0 < h.size b ∧ b + HEADER * h.size b ≤ h.top L := by
  have hpos := hm.tiling.pos b hb
  have hend : b + HEADER * h.size b ≤ h.top L := hm.tiling.end_le hb fun r hr => by
    obtain ⟨s, hs, rfl⟩ := List.mem_map.mp hr
    exact (hm.within s hs).2
  obtain ⟨r, hr, hle, -⟩ := (hm.tiling.cover b).mpr ⟨b, hb, Nat.le_refl b, by omega⟩
  obtain ⟨s, hs, rfl⟩ := List.mem_map.mp hr
  have hbrk := (hm.within s hs).1
  have hbase := L.base_below
  have hle' : s.1 ≤ b := hle
  exact ⟨by omega, Nat.pos_of_mul_pos_left hpos, hend⟩

theorem plus_size (hb : b ∈ blocks) : plus b (h.size b) = b + HEADER * h.size b := by
  have hend := (hm.bounds hb).2.2
  have hfits := hm.fits
  unfold plus uint64
  omega

theorem apart (ha : a ∈ blocks) (hb : b ∈ blocks) (hlt : a < b) : a + HEADER * h.size a ≤ b := by
  have hpos := (hm.bounds ha).2.1
  rcases hm.tiling.apart_of_ne ha hb (Nat.ne_of_lt hlt) with hle | hle
  · exact hle
  · have hb0 := hm.tiling.pos b hb
    have hle' : b + HEADER * h.size b ≤ a := hle
    omega

end

theorem add_size (hm : Memory L h (a :: b :: blocks)) (hlimit : L.limit < 2 ^ 32) :
    uint32 ((h.size a : Int) + h.size b) = h.size a + h.size b := by
  have htotal := hm.tiling.le_total
  rw [sum_extent] at htotal
  have hunits := hm.units
  unfold uint32
  unfold HEADER at htotal
  omega

theorem merge (hm : Memory L h (a :: b :: blocks)) (hlimit : L.limit < 2 ^ 32)
    (htouch : a + HEADER * h.size a = b) :
    Memory L (h.setSize a (uint32 ((h.size a : Int) + h.size b))) (a :: blocks) := by
  have ha := hm.bounds List.mem_cons_self
  refine ⟨?_, ?_, hm.within, hm.fits, hm.units⟩
  · rw [hm.add_size hlimit, bytes_setSize, Nat.mul_add]
    exact hm.tiling.merge htouch
  · show update h.size a _ L.base = 0
    rw [update_of_ne (by omega)]
    exact hm.base

end Memory

/-! ## The list -/

/-- The free blocks are a cycle through `base`, in the order of their
addresses, and no two of them touch. -/
structure FreeList (L : Layout) (h : Heap) (bs others : List Nat) : Prop where
  memory : Memory L h (bs ++ others)
  cycle : Cycle h.ptr L.base bs
  freep : h.freep ∈ L.base :: bs
  order : bs.Pairwise fun a b => a + HEADER * h.size a < b

variable {bs others xs ys : List Nat} {bp fuel : Nat}

/-- The list goes up from `base`. -/
theorem FreeList.increasing (hf : FreeList L h bs others) : (L.base :: bs).Pairwise (· < ·) := by
  refine List.pairwise_cons.mpr ⟨fun b hb => ?_, hf.order.imp fun hab => by omega⟩
  exact (hf.memory.bounds (List.mem_append_left _ hb)).1

/-! ## The place of a block -/

/-- The loop of `free` ends at `p`. -/
def Heap.Stops (h : Heap) (bp p : Nat) : Prop :=
  (p < bp ∧ bp < h.ptr p) ∨ (h.ptr p ≤ p ∧ (p < bp ∨ bp < h.ptr p))

theorem freeLoop_some (hcycle : Cycle h.ptr L.base bs) (hp : p ∈ L.base :: bs)
    (hloop : h.freeLoop bp fuel p = some q) : q ∈ L.base :: bs ∧ h.Stops bp q := by
  induction fuel generalizing p with
  | zero => cases hloop
  | succ fuel ih =>
    unfold Heap.freeLoop at hloop
    split at hloop
    · rename_i hstop
      cases hloop
      exact ⟨hp, .inl hstop⟩
    split at hloop
    · rename_i hstop
      cases hloop
      exact ⟨hp, .inr hstop⟩
    · exact ih (hcycle.next_mem hp) hloop

theorem freeLoop_isSome (hpath : Path h.ptr p xs q) (hstop : h.Stops bp q)
    (hfuel : xs.length < fuel) : (h.freeLoop bp fuel p).isSome := by
  induction xs generalizing p fuel with
  | nil =>
    have hpq : p = q := hpath
    subst hpq
    cases fuel with
    | zero => cases hfuel
    | succ fuel =>
      unfold Heap.freeLoop
      rcases hstop with hstop | hstop
      · rw [if_pos hstop]
        rfl
      · rw [if_pos hstop]
        split <;> rfl
  | cons x xs ih =>
    cases fuel with
    | zero => cases hfuel
    | succ fuel =>
      unfold Heap.freeLoop
      split
      · rfl
      split
      · rfl
      · rw [hpath.1]
        exact ih hpath.2 (Nat.lt_of_succ_lt_succ hfuel)

/-- The blocks before the place are below the block, and those after it above. -/
theorem FreeList.place (hf : FreeList L h (xs ++ ys) others) (hbp : bp ∈ others)
    (hlower : Path h.ptr L.base xs q) (hupper : Path h.ptr q (ys ++ [L.base]) L.base)
    (hstop : h.Stops bp q) : (∀ x ∈ xs, x < bp) ∧ ∀ y ∈ ys, bp < y := by
  have hbase := (hf.memory.bounds (List.mem_append_right _ hbp)).1
  have hup := hf.increasing
  rw [← List.cons_append, List.pairwise_append] at hup
  obtain ⟨hxs, hys, hcross⟩ := hup
  have hend := hlower.le_end hxs
  cases ys with
  | nil =>
    have hptr : h.ptr q = L.base := hupper.1
    have hbaseq := hend L.base List.mem_cons_self
    have hq : q < bp := by
      rcases hstop with hstop | hstop <;> omega
    exact ⟨fun x hx => Nat.lt_of_le_of_lt (hend x (List.mem_cons_of_mem _ hx)) hq, nofun⟩
  | cons y ys =>
    have hptr : h.ptr q = y := hupper.1
    have hqy := hcross q hlower.end_mem y List.mem_cons_self
    have hq : q < bp ∧ bp < y := by
      rcases hstop with hstop | hstop <;> omega
    refine ⟨fun x hx => Nat.lt_of_le_of_lt (hend x (List.mem_cons_of_mem _ hx)) hq.1, ?_⟩
    intro z hz
    rcases List.mem_cons.mp hz with rfl | hz
    · exact hq.2
    · exact Nat.lt_trans hq.2 ((List.pairwise_cons.mp hys).1 z hz)

/-- There is a place where the loop ends, within one round of the list. -/
theorem FreeList.exists_place (hf : FreeList L h bs others) (hbp : bp ∈ others) :
    ∃ q us, Path h.ptr h.freep us q ∧ us.length ≤ bs.length ∧ h.Stops bp q := by
  obtain ⟨xs, hxs⟩ : ∃ xs, xs = bs.takeWhile (· < bp) := ⟨_, rfl⟩
  obtain ⟨ys, hys⟩ : ∃ ys, ys = bs.dropWhile (· < bp) := ⟨_, rfl⟩
  have hbs : bs = xs ++ ys := by rw [hxs, hys, List.takeWhile_append_dropWhile]
  have hcycle : Path h.ptr L.base (xs ++ (ys ++ [L.base])) L.base := by
    have hwhole : Path h.ptr L.base (bs ++ [L.base]) L.base := hf.cycle
    rwa [hbs, List.append_assoc] at hwhole
  obtain ⟨q, hlower, hupper⟩ := hcycle.split
  have hbase := (hf.memory.bounds (List.mem_append_right _ hbp)).1
  have hq : q < bp := by
    rcases List.mem_cons.mp hlower.end_mem with rfl | hmem
    · exact hbase
    · rw [hxs] at hmem
      have htrue := List.mem_takeWhile_imp hmem
      exact of_decide_eq_true htrue
  have hstop : h.Stops bp q := by
    cases ys with
    | nil =>
      have hptr : h.ptr q = L.base := hupper.1
      have hup := hf.increasing
      rw [hbs, List.append_nil] at hup
      have hle := hlower.le_end hup L.base List.mem_cons_self
      exact .inr ⟨by omega, .inl hq⟩
    | cons y ys =>
      have hptr : h.ptr q = y := hupper.1
      have hhead := List.head?_dropWhile_not (fun x => decide (x < bp)) bs
      rw [← hys] at hhead
      have hle : ¬ y < bp := of_decide_eq_false hhead
      have hne : y ≠ bp := by
        have hnodup := hf.memory.tiling.nodup
        rw [hbs, List.nodup_append] at hnodup
        exact hnodup.2.2 y (List.mem_append_right _ List.mem_cons_self) bp hbp
      exact .inl ⟨hq, by omega⟩
  obtain ⟨zs, hround, hperm⟩ := hf.cycle.rotate hf.freep
  have hqmem : q ∈ h.freep :: zs := by
    rw [hperm.mem_iff, hbs, ← List.cons_append]
    exact List.mem_append_left _ hlower.end_mem
  obtain ⟨us, vs, rfl, hus, -⟩ := hround.cut hqmem
  have hlength := hperm.length_eq
  rw [List.length_cons, List.length_cons, List.length_append] at hlength
  exact ⟨q, us, hus, by omega, hstop⟩

/-! ## Linking a block in -/

/-- The block `bp` is linked to what is above it, and not yet to what is below. -/
structure Between (L : Layout) (h : Heap) (bp p : Nat) (xs ys others : List Nat) : Prop where
  memory : Memory L h (bp :: (xs ++ ys ++ others))
  lower : Path h.ptr L.base xs p
  upper : Path h.ptr bp (ys ++ [L.base]) L.base
  order : (xs ++ ys).Pairwise fun a b => a + HEADER * h.size a < b
  below : ∀ x ∈ xs, x < bp
  above : ∀ y ∈ ys, bp + HEADER * h.size bp < y

theorem linkUpper_size {o : Nat} (ho : o ≠ bp) : (h.linkUpper bp p).size o = h.size o := by
  unfold Heap.linkUpper
  split
  · exact update_of_ne ho _ _
  · rfl

theorem linkLower_size {o : Nat} (ho : o ≠ p) : (h.linkLower bp p).size o = h.size o := by
  unfold Heap.linkLower
  split
  · exact update_of_ne ho _ _
  · rfl

/-- The order of blocks depends on their sizes only. -/
theorem order_congr {h' : Heap} (hsize : ∀ b ∈ bs, h'.size b = h.size b)
    (horder : bs.Pairwise fun a b => a + HEADER * h.size a < b) :
    bs.Pairwise fun a b => a + HEADER * h'.size a < b := by
  refine horder.imp_of_mem fun ha _ hab => ?_
  rw [hsize _ ha]
  exact hab

/-- The block above is joined, if it touches. -/
theorem FreeList.linkUpper (hf : FreeList L h (xs ++ ys) (bp :: others)) (hlimit : L.limit < 2 ^ 32)
    (hlower : Path h.ptr L.base xs p) (hupper : Path h.ptr p (ys ++ [L.base]) L.base)
    (hstop : h.Stops bp p) :
    ∃ ys', Between L (h.linkUpper bp p) bp p xs ys' others ∧ ys'.length ≤ ys.length ∧
      h.size bp ≤ (h.linkUpper bp p).size bp := by
  obtain ⟨hbelow, habove⟩ := hf.place List.mem_cons_self hlower hupper hstop
  have hmemory : Memory L h (bp :: (xs ++ ys ++ others)) := hf.memory.perm List.perm_middle
  have hnodup := hmemory.tiling.nodup
  rw [List.nodup_cons] at hnodup
  have hxs : bp ∉ xs := fun hmem => hnodup.1 (by simp [hmem])
  have hys : bp ∉ ys := fun hmem => hnodup.1 (by simp [hmem])
  have hbase := (hmemory.bounds List.mem_cons_self).1
  have hend := hmemory.plus_size List.mem_cons_self
  have hlower' : ∀ w, Path (update h.ptr bp w) L.base xs p := fun w =>
    hlower.update fun hmem => by
      rcases List.mem_cons.mp (List.dropLast_subset _ hmem) with heq | hmem
      · omega
      · exact hxs hmem
  unfold Heap.linkUpper
  split
  · rename_i htouch
    cases ys with
    | nil =>
      have hptr : h.ptr p = L.base := hupper.1
      omega
    | cons y ys =>
      have hptr : h.ptr p = y := hupper.1
      have hstart : bp + HEADER * h.size bp = y := by omega
      have hafter := (List.pairwise_cons.mp (List.pairwise_append.mp hf.order).2.1).1
      have hjoin : Memory L h (bp :: y :: (xs ++ ys ++ others)) := by
        refine hmemory.perm (List.Perm.cons _ ?_)
        rw [List.append_assoc, List.append_assoc]
        exact List.perm_middle
      have hsum := hjoin.add_size hlimit
      have hself : ((h.setSize bp (uint32 (h.size bp + h.size y))).setPtr bp (h.ptr y)).size bp =
          h.size bp + h.size y := by
        rw [← hsum]
        exact update_self _ _ _
      rw [hptr]
      refine ⟨ys, ⟨(hjoin.merge hlimit hstart).setPtr, hlower' _, ?_, ?_, hbelow, ?_⟩,
        Nat.le_succ _, ?_⟩
      · have htail : Path h.ptr y (ys ++ [L.base]) L.base := hupper.2
        refine htail.redirect (List.append_ne_nil_of_right_ne_nil _ (List.cons_ne_nil _ _)) ?_
        rw [List.dropLast_concat]
        exact fun hmem => hys (List.mem_cons_of_mem _ hmem)
      · have hrest : (xs ++ ys).Sublist (xs ++ y :: ys) :=
          (List.sublist_cons_self y ys).append_left xs
        refine order_congr (fun b hb => update_of_ne ?_ _ _) (hf.order.sublist hrest)
        rintro rfl
        exact hnodup.1 (List.mem_append_left _ (hrest.subset hb))
      · intro z hz
        have hz := hafter z hz
        rw [hself, Nat.mul_add]
        omega
      · rw [hself]
        exact Nat.le_add_right _ _
  · rename_i htouch
    have hgap : ∀ z ∈ ys, bp + HEADER * h.size bp < z := by
      cases ys with
      | nil => nofun
      | cons y ys =>
        have hptr : h.ptr p = y := hupper.1
        have hymem : y ∈ bp :: (xs ++ y :: ys ++ others) := by simp
        have hy := hmemory.apart List.mem_cons_self hymem (habove y List.mem_cons_self)
        have hafter := (List.pairwise_cons.mp (List.pairwise_append.mp hf.order).2.1).1
        intro z hz
        rcases List.mem_cons.mp hz with rfl | hz
        · omega
        · have hyz := hafter z hz
          omega
    refine ⟨ys, ⟨hmemory.setPtr, hlower' _, ?_, hf.order, hbelow, hgap⟩, Nat.le_refl _,
      Nat.le_refl _⟩
    refine hupper.redirect (List.append_ne_nil_of_right_ne_nil _ (List.cons_ne_nil _ _)) ?_
    rwa [List.dropLast_concat]

namespace Between

variable (hb : Between L h bp p xs ys others)
include hb

theorem increasing : (L.base :: xs).Pairwise (· < ·) := by
  refine List.pairwise_cons.mpr ⟨fun x hx => ?_, ?_⟩
  · exact (hb.memory.bounds (by simp [hx])).1
  · exact (List.pairwise_append.mp hb.order).1.imp fun hab => by omega

theorem end_lt : p < bp := by
  rcases List.mem_cons.mp hb.lower.end_mem with heq | hmem
  · rw [heq]
    exact (hb.memory.bounds List.mem_cons_self).1
  · exact hb.below p hmem

theorem end_notMem : p ∉ ys := fun hmem => by
  have habove := hb.above p hmem
  have hlt := hb.end_lt
  omega

theorem lower_update (w : Nat) : Path (update h.ptr p w) L.base xs p :=
  hb.lower.update (hb.lower.end_notMem (hb.increasing.imp Nat.ne_of_lt))

theorem le_end (x : Nat) (hx : x ∈ xs) : x ≤ p :=
  hb.lower.le_end hb.increasing x (List.mem_cons_of_mem _ hx)

/-- The header `base` touches nothing. -/
theorem mem_of_touch (htouch : plus p (h.size p) = bp) : p ∈ xs := by
  rcases List.mem_cons.mp hb.lower.end_mem with rfl | hmem
  · have hbp := hb.memory.bounds List.mem_cons_self
    have hfits := hb.memory.fits
    rw [hb.memory.base] at htouch
    unfold plus uint64 at htouch
    omega
  · exact hmem

/-- The block below touches, and the two become one. -/
theorem join (hlimit : L.limit < 2 ^ 32) (htouch : plus p (h.size p) = bp) :
    FreeList L { (h.setSize p (uint32 (h.size p + h.size bp))).setPtr p (h.ptr bp) with freep := p }
        (xs ++ ys) others ∧ h.size bp ≤ (h.setSize p (uint32 (h.size p + h.size bp))).size p := by
  have hp := hb.mem_of_touch htouch
  have hend := hb.memory.plus_size (b := p) (by simp [hp])
  have hjoin : Memory L h (p :: bp :: (xs.erase p ++ ys ++ others)) := by
    refine hb.memory.perm (List.Perm.trans (List.Perm.cons _ ?_) (List.Perm.swap _ _ _))
    exact ((List.perm_cons_erase hp).append_right ys).append_right others
  have hmerged := hjoin.merge hlimit (hend.symm.trans htouch)
  have hself : (h.setSize p (uint32 (h.size p + h.size bp))).size p = h.size p + h.size bp := by
    rw [← hjoin.add_size hlimit]
    exact update_self _ _ _
  have hother : ∀ b, b ≠ p →
      (h.setSize p (uint32 (h.size p + h.size bp))).size b = h.size b := fun b hne =>
    update_of_ne hne _ _
  obtain ⟨hxs, hys, hcross⟩ := List.pairwise_append.mp hb.order
  refine ⟨⟨?_, ?_, ?_, List.pairwise_append.mpr ⟨?_, ?_, ?_⟩⟩, ?_⟩
  · refine (hmerged.perm ?_).setPtr.setFreep
    exact (((List.perm_cons_erase hp).append_right ys).append_right others).symm
  · have hupper : Path (update h.ptr p (h.ptr bp)) p (ys ++ [L.base]) L.base := by
      refine hb.upper.redirect (List.append_ne_nil_of_right_ne_nil _ (List.cons_ne_nil _ _)) ?_
      rw [List.dropLast_concat]
      exact hb.end_notMem
    have hround := (hb.lower_update _).append hupper
    rwa [← List.append_assoc] at hround
  · rw [← List.cons_append]
    exact List.mem_append_left _ hb.lower.end_mem
  · -- nothing in `xs` comes after `p`, whose size has grown
    refine hxs.imp_of_mem fun {a b} _ hbmem hab => ?_
    have hbp := hb.le_end b hbmem
    have hsame := hother a (by omega)
    show a + HEADER * (h.setSize p _).size a < b
    rw [hsame]
    exact hab
  · exact order_congr (fun b hbmem => hother b fun heq => hb.end_notMem (heq ▸ hbmem)) hys
  · intro a ha b hbmem
    show a + HEADER * (h.setSize p _).size a < b
    by_cases heq : a = p
    · have habove := hb.above b hbmem
      rw [heq, hself, Nat.mul_add]
      omega
    · rw [hother a heq]
      exact hcross a ha b hbmem
  · rw [hself]
    exact Nat.le_add_left _ _

/-- The block below does not touch. -/
theorem link (htouch : plus p (h.size p) ≠ bp) :
    FreeList L { h.setPtr p bp with freep := p } (xs ++ bp :: ys) others := by
  obtain ⟨hxs, hys, hcross⟩ := List.pairwise_append.mp hb.order
  have hlt := hb.end_lt
  refine ⟨?_, ?_, ?_, List.pairwise_append.mpr ⟨hxs, List.pairwise_cons.mpr ⟨hb.above, hys⟩, ?_⟩⟩
  · refine (hb.memory.perm ?_).setPtr.setFreep
    rw [List.append_assoc, List.append_assoc]
    exact List.perm_middle.symm
  · have hupper : Path (update h.ptr p bp) bp (ys ++ [L.base]) L.base := by
      refine hb.upper.update ?_
      rw [← List.cons_append, List.dropLast_concat, List.mem_cons, not_or]
      exact ⟨by omega, hb.end_notMem⟩
    have hstep : Path (update h.ptr p bp) p (bp :: (ys ++ [L.base])) L.base :=
      ⟨update_self _ _ _, hupper⟩
    have hround := (hb.lower_update _).append hstep
    rwa [← List.cons_append, ← List.append_assoc] at hround
  · rw [← List.cons_append]
    exact List.mem_append_left _ hb.lower.end_mem
  · intro a ha b hbmem
    rcases List.mem_cons.mp hbmem with rfl | hbmem
    · have hamem : a ∈ b :: (xs ++ ys ++ others) := by simp [ha]
      have hle := hb.memory.apart hamem List.mem_cons_self (hb.below a ha)
      refine Nat.lt_of_le_of_ne hle fun heq => ?_
      by_cases hap : a = p
      · rw [← hap] at htouch
        exact htouch ((hb.memory.plus_size hamem).trans heq)
      · have hap' := hb.le_end a ha
        have hpmem : p ∈ b :: (xs ++ ys ++ others) := by
          rcases List.mem_cons.mp hb.lower.end_mem with hbase | hmem
          · have habase := (hb.memory.bounds hamem).1
            omega
          · simp [hmem]
        have hgap := hb.memory.apart hamem hpmem (by omega)
        have heq' : a + HEADER * h.size a = b := heq
        omega
    · exact hcross a ha b hbmem

/-- The block below is joined, if it touches. -/
theorem linkLower (hlimit : L.limit < 2 ^ 32) :
    ∃ bs, FreeList L { h.linkLower bp p with freep := p } bs others ∧
      bs.length ≤ xs.length + ys.length + 1 ∧ ∃ c ∈ bs, h.size bp ≤ (h.linkLower bp p).size c := by
  unfold Heap.linkLower
  split
  · rename_i htouch
    obtain ⟨hlist, hsize⟩ := hb.join hlimit htouch
    refine ⟨xs ++ ys, hlist, ?_, p, List.mem_append_left _ (hb.mem_of_touch htouch), hsize⟩
    rw [List.length_append]
    exact Nat.le_succ _
  · rename_i htouch
    refine ⟨xs ++ bp :: ys, hb.link htouch, ?_, bp, by simp, Nat.le_refl _⟩
    rw [List.length_append, List.length_cons, Nat.add_assoc]

end Between

/-! ## The call -/

/-- The header of what is given back. -/
theorem FreeList.header (hf : FreeList L h bs (bp :: others)) :
    uint64 (((bp + HEADER : Nat) : Int) - HEADER) = bp := by
  have hbp := (hf.memory.bounds (b := bp) (by simp)).2.2
  have hfits := hf.memory.fits
  unfold uint64
  omega

/-- No header but those of the list and of the block is written. -/
theorem FreeList.others_ne (hf : FreeList L h bs others) {o : Nat} (ho : o ∈ others)
    (hp : p ∈ L.base :: bs) : o ≠ p := by
  rintro rfl
  rcases List.mem_cons.mp hp with heq | hmem
  · have hbase := (hf.memory.bounds (List.mem_append_right _ ho)).1
    omega
  · exact (List.nodup_append.mp hf.memory.tiling.nodup).2.2 o hmem o ho rfl

/-- `free` puts the block on the list, in its place. -/
theorem FreeList.free {h' : Heap} (hf : FreeList L h bs (bp :: others)) (hlimit : L.limit < 2 ^ 32)
    (hfree : h.free fuel (bp + HEADER) = some h') :
    ∃ bs', FreeList L h' bs' others ∧ bs'.length ≤ bs.length + 1 ∧
      (∀ o ∈ others, h'.size o = h.size o) ∧ ∃ c ∈ bs', h.size bp ≤ h'.size c := by
  unfold Heap.free at hfree
  rw [hf.header] at hfree
  obtain ⟨p, hloop, rfl⟩ := Option.map_eq_some_iff.mp hfree
  obtain ⟨hp, hstop⟩ := freeLoop_some hf.cycle hf.freep hloop
  obtain ⟨xs, ys, rfl, hlower, hupper⟩ := hf.cycle.cut hp
  obtain ⟨ys', hbetween, hlen, hsize⟩ := hf.linkUpper hlimit hlower hupper hstop
  obtain ⟨bs', hlist, hlen', c, hc, hsize'⟩ := hbetween.linkLower hlimit
  refine ⟨bs', hlist, ?_, fun o ho => ?_, c, hc, Nat.le_trans hsize hsize'⟩
  · rw [List.length_append]
    omega
  · have hop := hf.others_ne (List.mem_cons_of_mem _ ho) hp
    have hobp : o ≠ bp := by
      rintro rfl
      have hnodup := (List.nodup_append.mp hf.memory.tiling.nodup).2.1
      exact (List.nodup_cons.mp hnodup).1 ho
    exact (linkLower_size hop).trans (linkUpper_size hobp)

/-- The loop of `free` needs at most one round for each block of the list and
one for `base`. -/
theorem FreeList.free_isSome (hf : FreeList L h bs (bp :: others)) (hfuel : bs.length < fuel) :
    (h.free fuel (bp + HEADER)).isSome := by
  obtain ⟨q, us, hpath, hlen, hstop⟩ := hf.exists_place List.mem_cons_self
  unfold Heap.free
  rw [hf.header, Option.isSome_map]
  exact freeLoop_isSome hpath hstop (by omega)

end Xv6.Umalloc
