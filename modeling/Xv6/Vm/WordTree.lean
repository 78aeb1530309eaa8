import Xv6.Lib.Trans
import Xv6.Vm.Unmap
import Xv6.Vm.Words

/-!
# Page tables in memory are finite maps

A page table is well formed if it is a tree: no page of it is reached on two
ways from the root (`WellFormed`). `Slot` names the three kinds of places a
page can have in the tree, and `Ram.page` the page at a place, so that being a
tree is injectivity of `Ram.page`.

Three kinds of writes matter. A write to a page that is not in the tree
changes nothing (`Ram.page_congr`). A write to a page of the last level
changes one entry and no page of the tree. And a turn of `walk` that gets a
page from the free list, clears it and links it adds one page to the tree
(`Grown`). In each case the entries are what they were, up to the one that was
written.
-/

namespace Xv6.Vm.Words

open Xv6.Lib Xv6.Lib.CInt
open Xv6.Lib.Act (wp wp_pure wp_get wp_modify wp_panic wp_bind wp_mono wp_ok wp_ite wp_when wp_iter
  wp_loop)

variable {i p j level va r k w v : Nat} {Q : Option Nat → Ram → Prop}

/-! ## The pages of a page table -/

/-- A place for a page in the tree. -/
inductive Slot where
  | root
  | mid (i : Nat)
  | leaf (i j : Nat)
  deriving DecidableEq

/-- The indices of the place are indices of entries. -/
def Slot.Ok : Slot → Prop
  | .root => True
  | .mid i => i < 512
  | .leaf i j => i < 512 ∧ j < 512

/-- An entry, if it is valid. -/
def ifValid (w : Nat) : Option Nat := if hasFlag w PTE_V then some w else none

/-- The entry at an address, if it is valid. -/
def Ram.valid (s : Ram) (a : Nat) : Option Nat := ifValid (s.word a)

/-- The page that entry `i` of `page` names. -/
def Ram.entry (s : Ram) (page i : Nat) : Option Nat := (s.valid (page + 8 * i)).map pte2pa

/-- The page at a place of the tree. -/
def Ram.page (s : Ram) (pt : Nat) : Slot → Option Nat
  | .root => some pt
  | .mid i => s.entry pt i
  | .leaf i j => (s.entry pt i).bind fun mid => s.entry mid j

/-- The page table is a tree of distinct pages. -/
structure WellFormed (s : Ram) (pt : Nat) : Prop where
  aligned : pt % PGSIZE = 0
  distinct : ∀ x y p, x.Ok → y.Ok → s.page pt x = some p → s.page pt y = some p →
    x = y

/-- The free list has each page once, and none of the page table. -/
structure Fresh (s : Ram) (pt : Nat) : Prop where
  nodup : s.freelist.Nodup
  pages : ∀ pa ∈ s.freelist, PageAddr pa
  apart : ∀ x p, x.Ok → s.page pt x = some p → p ∉ s.freelist

/-- The map from page numbers to entries. -/
def Ram.translate (s : Ram) (pt v : Nat) : Option Nat := lookup s pt (v * PGSIZE)

section Pages

variable {s s' : Ram} {pt : Nat}

theorem pte2pa_aligned (w : Nat) : pte2pa w % PGSIZE = 0 := by
  unfold pte2pa
  rw [Nat.shiftLeft_eq, uint64_natCast]
  simp only [PGSIZE]
  omega

theorem Ram.entry_aligned {page : Nat} (h : s.entry page i = some p) : p % PGSIZE = 0 := by
  obtain ⟨w, -, rfl⟩ := Option.map_eq_some_iff.mp h
  exact pte2pa_aligned w

theorem WellFormed.page_aligned (h : WellFormed s pt) {x : Slot}
    (hp : s.page pt x = some p) : p % PGSIZE = 0 := by
  cases x with
  | root =>
    cases hp
    exact h.aligned
  | mid i => exact Ram.entry_aligned hp
  | leaf i j =>
    obtain ⟨m, -, hm⟩ := Option.bind_eq_some_iff.mp hp
    exact Ram.entry_aligned hm

theorem addr_inj {q : Nat} (hp : p % PGSIZE = 0) (hq : q % PGSIZE = 0) (hi : i < 512) (hj : j < 512)
    (h : p + 8 * i = q + 8 * j) : p = q ∧ i = j := by
  simp only [PGSIZE] at hp hq
  omega

theorem addr_mem {q : Nat} (hp : p % PGSIZE = 0) (hq : q % PGSIZE = 0) (hi : i < 512) :
    p ≤ q + 8 * i ∧ q + 8 * i < p + PGSIZE ↔ q = p := by
  simp only [PGSIZE] at hp hq ⊢
  omega

/-- Pages depend on the words of the pages above them. -/
theorem Ram.page_congr
    (h : ∀ x p i, x.Ok → (∀ j k, x ≠ .leaf j k) → s.page pt x = some p → i < 512 →
      s'.word (p + 8 * i) = s.word (p + 8 * i)) {x : Slot} (hx : x.Ok) :
    s'.page pt x = s.page pt x := by
  have hroot : ∀ i < 512, s'.entry pt i = s.entry pt i := by
    intro i hi
    unfold Ram.entry Ram.valid
    rw [h .root pt i trivial (by simp) rfl hi]
  cases x with
  | root => rfl
  | mid i => exact hroot i hx
  | leaf i j =>
    simp only [Ram.page]
    rw [hroot i hx.1]
    cases hm : s.entry pt i with
    | none => rfl
    | some m =>
      simp only [Option.bind_some, Ram.entry, Ram.valid]
      rw [h (.mid i) m j hx.1 (by simp) hm hx.2]

/-- The valid entry `k` of the page at `leaf i j`. -/
def Ram.pteAt (s : Ram) (pt i j k : Nat) : Option Nat :=
  (s.page pt (.leaf i j)).bind fun leaf => s.valid (leaf + 8 * k)

/-! ## `walk` without allocation -/

theorem walkLevel_false {page : Nat} :
    walkLevel page level va false s = .ok (s.entry page (px level va), s) := by
  unfold walkLevel Ram.entry Ram.valid ifValid
  rw [Act.get_bind]
  by_cases hvalid : hasFlag (s.word (page + 8 * px level va)) PTE_V = true
  · rw [if_pos hvalid, if_pos hvalid]
    rfl
  · rw [if_neg hvalid, if_neg hvalid]
    rfl

theorem walk_false (hva : va < MAXVA) :
    walk pt va false s =
      .ok ((s.page pt (.leaf (px 2 va) (px 1 va))).map fun leaf => leaf + 8 * px 0 va, s) := by
  unfold walk
  rw [if_neg (by omega)]
  rw [Act.bind_ok walkLevel_false, Ram.page]
  cases s.entry pt (px 2 va) with
  | none => rfl
  | some mid =>
    simp only [Option.bind_some]
    rw [Act.bind_ok walkLevel_false]
    cases s.entry mid (px 1 va) with
    | none => rfl
    | some leaf => rfl

theorem lookup_eq (hva : va < MAXVA) :
    lookup s pt va = s.pteAt pt (px 2 va) (px 1 va) (px 0 va) := by
  unfold lookup Ram.pteAt
  rw [walk_false hva]
  cases s.page pt (.leaf (px 2 va) (px 1 va)) with
  | none => rfl
  | some leaf => rfl

/-- What `walk` finds depends on the page number only. -/
theorem lookup_eq_translate (hva : va < MAXVA) : lookup s pt va = s.translate pt (va / PGSIZE) := by
  have hpage : va / PGSIZE = va / PGSIZE * PGSIZE / PGSIZE :=
    (Nat.mul_div_cancel _ (by decide)).symm
  have hle : va / PGSIZE * PGSIZE ≤ va := Nat.div_mul_le_self va PGSIZE
  unfold Ram.translate
  rw [lookup_eq hva, lookup_eq (hle.trans_lt hva), px_eq_of_page hpage, px_eq_of_page hpage,
    px_eq_of_page hpage]

/-! ## A page is added -/

/-- The place below entry `k` of a page. -/
def Slot.child : Slot → Nat → Slot
  | .root, k => .mid k
  | .mid i, k => .leaf i k
  | .leaf i j, _ => .leaf i j

/-- Page `r` of the free list was linked at the place `y`. -/
structure Grown (s : Ram) (pt : Nat) (y : Slot) (r : Nat) (s' : Ram) : Prop where
  freelist : s.freelist = r :: s'.freelist
  page : ∀ x, x.Ok → s'.page pt x = if x = y then some r else s.page pt x
  pteAt : ∀ i j k, i < 512 → j < 512 → k < 512 →
    s'.pteAt pt i j k = s.pteAt pt i j k

theorem Grown.wellFormed {y : Slot} (h : Grown s pt y r s') (hwf : WellFormed s pt)
    (hfresh : Fresh s pt) : WellFormed s' pt := by
  have hr : ∀ x p, x.Ok → s.page pt x = some p → p ≠ r := by
    rintro x p hx hp rfl
    exact hfresh.apart x p hx hp (by rw [h.freelist]; exact List.mem_cons_self)
  refine ⟨hwf.aligned, ?_⟩
  intro x x' p hx hx' hp hp'
  rw [h.page x hx] at hp
  rw [h.page x' hx'] at hp'
  split_ifs at hp hp' with hxy hxy' hxy'
  · rw [hxy, hxy']
  · cases hp
    exact absurd rfl (hr x' r hx' hp')
  · cases hp'
    exact absurd rfl (hr x r hx hp)
  · exact hwf.distinct x x' p hx hx' hp hp'

theorem Grown.fresh {y : Slot} (h : Grown s pt y r s') (hfresh : Fresh s pt) : Fresh s' pt := by
  have hnodup := hfresh.nodup
  rw [h.freelist, List.nodup_cons] at hnodup
  refine ⟨hnodup.2, ?_, ?_⟩
  · intro pa hpa
    exact hfresh.pages pa (by rw [h.freelist]; exact List.mem_cons_of_mem _ hpa)
  · intro x p hx hp hmem
    rw [h.page x hx] at hp
    split_ifs at hp with hxy
    · cases hp
      exact hnodup.1 hmem
    · exact hfresh.apart x p hx hp (by rw [h.freelist]; exact List.mem_cons_of_mem _ hmem)

/-- The words after a turn of `walk` that linked page `r` at address `a`. -/
def linked (word : Nat → Nat) (a r b : Nat) : Nat :=
  if b = a then pa2pte r ||| PTE_V else if r ≤ b ∧ b < r + PGSIZE then 0 else word b

theorem pa2pte_or_valid (r : Nat) : pa2pte r ||| PTE_V = mkPte r 0 := by
  unfold mkPte
  rw [Nat.or_zero]

/-- Page `r` of the free list was cleared and linked at entry `k` of the page
at `x₀`. -/
structure Linked (s : Ram) (pt : Nat) (x₀ : Slot) (k r : Nat) (s' : Ram) : Prop where
  freelist : s.freelist = r :: s'.freelist
  inner : ∀ i j, x₀ ≠ .leaf i j
  parent : ∃ p₀, s.page pt x₀ = some p₀ ∧ s.entry p₀ k = none
  entry : ∀ x p i, x.Ok → s.page pt x = some p → i < 512 →
    s'.entry p i = if x = x₀ ∧ i = k then some r else s.entry p i
  leaf : ∀ i j p l, i < 512 → j < 512 → l < 512 → s.page pt (.leaf i j) = some p →
    s'.valid (p + 8 * l) = s.valid (p + 8 * l)
  new : ∀ i, i < 512 → s'.valid (r + 8 * i) = none

theorem linked_of_word {x₀ : Slot} {p₀ : Nat} (hwf : WellFormed s pt) (hfresh : Fresh s pt)
    (hx₀ : x₀.Ok) (hinner : ∀ i j, x₀ ≠ .leaf i j) (hp₀ : s.page pt x₀ = some p₀)
    (hk : k < 512) (hnone : s.entry p₀ k = none) (hfree : s.freelist = r :: s'.freelist)
    (hword : s'.word = linked s.word (p₀ + 8 * k) r) : Linked s pt x₀ k r s' := by
  have hmem : r ∈ s.freelist := by
    rw [hfree]
    exact List.mem_cons_self
  have hra := hfresh.pages r hmem
  have hp₀a := hwf.page_aligned hp₀
  have hne : ∀ x p, x.Ok → s.page pt x = some p → p ≠ r := by
    rintro x p hx hp rfl
    exact hfresh.apart x p hx hp hmem
  -- A word of the tree other than the linked one is what it was.
  have hold : ∀ x p i, x.Ok → s.page pt x = some p → i < 512 → ¬(x = x₀ ∧ i = k) →
      s'.word (p + 8 * i) = s.word (p + 8 * i) := by
    intro x p i hx hp hi hslot
    have hpa := hwf.page_aligned hp
    rw [hword, linked, if_neg, if_neg]
    · rw [addr_mem hra.aligned hpa hi]
      exact hne x p hx hp
    · intro heq
      obtain ⟨hpp, hik⟩ := addr_inj hpa hp₀a hi hk heq
      exact hslot ⟨hwf.distinct x x₀ p hx hx₀ hp (hpp ▸ hp₀), hik⟩
  refine ⟨hfree, hinner, ⟨p₀, hp₀, hnone⟩, ?_, ?_, ?_⟩
  · intro x p i hx hp hi
    unfold Ram.entry Ram.valid
    by_cases hslot : x = x₀ ∧ i = k
    · rw [if_pos hslot]
      obtain ⟨rfl, rfl⟩ := hslot
      have hpp : p = p₀ := Option.some.inj (hp.symm.trans hp₀)
      have hnew : s'.word (p + 8 * i) = mkPte r 0 := by
        rw [hword, linked, if_pos (by rw [hpp]), pa2pte_or_valid]
      rw [hnew, ifValid, if_pos (valid_mkPte r 0), Option.map_some, pte2pa_mkPte hra (by decide)]
    · rw [if_neg hslot, hold x p i hx hp hi hslot]
  · intro i j p l hi hj hl hp
    unfold Ram.valid
    rw [hold (.leaf i j) p l ⟨hi, hj⟩ hp hl fun hslot => hinner i j hslot.1.symm]
  · intro i hi
    have hzero : s'.word (r + 8 * i) = 0 := by
      rw [hword, linked, if_neg, if_pos]
      · exact (addr_mem hra.aligned hra.aligned hi).mpr rfl
      · intro heq
        exact hne x₀ p₀ hx₀ hp₀ (addr_inj hra.aligned hp₀a hi hk heq).1.symm
    unfold Ram.valid
    rw [hzero]
    rfl

theorem Linked.child_none {x₀ : Slot} (h : Linked s pt x₀ k r s') :
    s.page pt (x₀.child k) = none := by
  obtain ⟨p₀, hp₀, hnone⟩ := h.parent
  cases x₀ with
  | root =>
    cases hp₀
    exact hnone
  | mid i =>
    have hmid : s.entry pt i = some p₀ := hp₀
    simp only [Slot.child, Ram.page, hmid, Option.bind_some]
    exact hnone
  | leaf i j => exact absurd rfl (h.inner i j)

theorem Linked.page {x₀ : Slot} (h : Linked s pt x₀ k r s') {x : Slot} (hx : x.Ok) :
    s'.page pt x = if x = x₀.child k then some r else s.page pt x := by
  have hroot : ∀ i < 512, s'.entry pt i =
      if Slot.root = x₀ ∧ i = k then some r else s.entry pt i :=
    fun i hi => h.entry .root pt i trivial rfl hi
  obtain ⟨p₀, hp₀, hnone⟩ := h.parent
  cases x with
  | root =>
    rw [if_neg]
    · rfl
    · cases x₀ <;> simp [Slot.child]
  | mid i =>
    simp only [Ram.page, hroot i hx]
    congr 1
    cases x₀ <;> simp [Slot.child]
  | leaf i j =>
    simp only [Ram.page, hroot i hx.1]
    by_cases hnew : Slot.root = x₀ ∧ i = k
    · -- The new page is one of the second level, and nothing is below it yet.
      obtain ⟨rfl, rfl⟩ := hnew
      cases hp₀
      rw [if_pos ⟨rfl, rfl⟩, if_neg (by simp [Slot.child]), hnone, Option.bind_some,
        Option.bind_none, Ram.entry, h.new j hx.2]
      rfl
    · rw [if_neg hnew]
      cases hm : s.entry pt i with
      | none =>
        rw [if_neg]
        · rfl
        · intro hchild
          cases x₀ with
          | root => cases hchild
          | mid i' =>
            cases hchild
            exact absurd (hm.symm.trans hp₀) (by simp)
          | leaf i' j' => exact absurd rfl (h.inner i' j')
      | some m =>
        simp only [Option.bind_some, h.entry (.mid i) m j hx.1 hm hx.2]
        congr 1
        cases x₀ with
        | root => simp [Slot.child]
        | mid i' => simp [Slot.child]
        | leaf i' j' => exact absurd rfl (h.inner i' j')

theorem Linked.grown {x₀ : Slot} (h : Linked s pt x₀ k r s') : Grown s pt (x₀.child k) r s' := by
  refine ⟨h.freelist, fun x hx => h.page hx, ?_⟩
  intro i j l hi hj hl
  have hok : Slot.Ok (.leaf i j) := ⟨hi, hj⟩
  unfold Ram.pteAt
  rw [h.page hok]
  by_cases hchild : Slot.leaf i j = x₀.child k
  · rw [if_pos hchild, hchild, h.child_none, Option.bind_some, h.new l hl]
    rfl
  · rw [if_neg hchild]
    cases hp : s.page pt (.leaf i j) with
    | none => rfl
    | some p => exact h.leaf i j p l hi hj hl hp

/-! ## `walk` with allocation -/

section Rules

variable {E : Panic → Prop}

theorem wp_walk_false (hE : MAXVA ≤ va → E .walk)
    (h : va < MAXVA → Q ((s.page pt (.leaf (px 2 va) (px 1 va))).map
      fun leaf => leaf + 8 * px 0 va) s) : wp (walk pt va false) Q E s := by
  rcases Nat.lt_or_ge va MAXVA with hva | hva
  · rw [Act.wp_iff, walk_false hva]
    exact h hva
  · unfold walk
    rw [if_pos hva]
    exact wp_panic.mpr (hE hva)

theorem wp_kalloc (hnone : s.freelist = [] → Q none s)
    (hsome : ∀ r next, s.freelist = r :: next → Q (some r) { s with
      freelist := next
      word := fun a => if r ≤ a ∧ a < r + PGSIZE then 0x0505050505050505 else s.word a }) :
    wp kalloc Q E s := by
  unfold kalloc
  rw [wp_bind, wp_get]
  cases hfree : s.freelist with
  | nil => exact wp_pure.mpr (hnone hfree)
  | cons r next =>
    rw [wp_bind, wp_modify, wp_bind, fill, wp_modify, wp_pure]
    exact hsome r next hfree

theorem wp_walkLevel {page : Nat} (hsome : ∀ p, s.entry page (px level va) = some p → Q (some p) s)
    (hfail : Q none s)
    (hnew : ∀ r s', s.entry page (px level va) = none → s.freelist = r :: s'.freelist →
      s'.word = linked s.word (page + 8 * px level va) r → Q (some r) s') :
    wp (walkLevel page level va true) Q E s := by
  unfold walkLevel
  rw [wp_bind, wp_get]
  refine wp_ite ?_ ?_
  · intro hvalid
    refine wp_pure.mpr (hsome _ ?_)
    rw [Ram.entry, Ram.valid, ifValid, if_pos hvalid]
    rfl
  · intro hvalid
    have hnone : s.entry page (px level va) = none := by
      rw [Ram.entry, Ram.valid, ifValid, if_neg hvalid]
      rfl
    rw [if_neg (by simp), wp_bind]
    refine wp_kalloc (fun _ => wp_pure.mpr hfail) ?_
    intro r next hfree
    rw [wp_bind, fill, wp_modify, wp_bind, setWord, wp_modify, wp_pure]
    refine hnew r _ hnone hfree ?_
    funext b
    simp only [linked, Function.update_apply]
    split_ifs <;> rfl

/-- The tree may have more pages, and the entries are the same. -/
structure Extended (s : Ram) (pt : Nat) (s' : Ram) : Prop where
  wellFormed : WellFormed s' pt
  fresh : Fresh s' pt
  pteAt : ∀ i j k, i < 512 → j < 512 → k < 512 →
    s'.pteAt pt i j k = s.pteAt pt i j k

theorem Extended.refl (hwf : WellFormed s pt) (hfresh : Fresh s pt) :
    Extended s pt s := ⟨hwf, hfresh, fun _ _ _ _ _ _ => rfl⟩

theorem Extended.trans {s'' : Ram} (h : Extended s pt s') (h' : Extended s' pt s'') :
    Extended s pt s'' :=
  ⟨h'.wellFormed, h'.fresh, fun i j k hi hj hk =>
    (h'.pteAt i j k hi hj hk).trans (h.pteAt i j k hi hj hk)⟩

theorem Grown.extended {y : Slot} (h : Grown s pt y r s') (hwf : WellFormed s pt)
    (hfresh : Fresh s pt) : Extended s pt s' :=
  ⟨h.wellFormed hwf hfresh, h.fresh hfresh, h.pteAt⟩

/-- One turn of `walk`, from the page at `x`. -/
theorem wp_walkLevel_slot {x : Slot} (hwf : WellFormed s pt) (hfresh : Fresh s pt)
    (hx : x.Ok) (hinner : ∀ i j, x ≠ .leaf i j) (hp : s.page pt x = some p)
    (hfail : Q none s) (hok : ∀ s' p', Extended s pt s' →
      s'.page pt (x.child (px level va)) = some p' → Q (some p') s') :
    wp (walkLevel p level va true) Q E s := by
  refine wp_walkLevel ?_ hfail ?_
  · intro p' hp'
    refine hok s p' (.refl hwf hfresh) ?_
    cases x with
    | root =>
      cases hp
      exact hp'
    | mid i =>
      have hmid : s.entry pt i = some p := hp
      simp only [Slot.child, Ram.page, hmid, Option.bind_some]
      exact hp'
    | leaf i j => exact absurd rfl (hinner i j)
  · intro r s' hnone hfree hword
    have hgrown := (linked_of_word hwf hfresh hx hinner hp (px_lt _ _) hnone hfree hword).grown
    refine hok s' r (hgrown.extended hwf hfresh) ?_
    have hchild : (x.child (px level va)).Ok := by
      cases x with
      | root => exact px_lt _ _
      | mid i => exact ⟨hx, px_lt _ _⟩
      | leaf i j => exact absurd rfl (hinner i j)
    rw [hgrown.page _ hchild, if_pos rfl]

theorem wp_walk_true (hwf : WellFormed s pt) (hfresh : Fresh s pt) (hE : MAXVA ≤ va → E .walk)
    (hfail : ∀ s', Extended s pt s' → Q none s') (hok : ∀ s' leaf, va < MAXVA → Extended s pt s' →
      s'.page pt (.leaf (px 2 va) (px 1 va)) = some leaf → Q (some (leaf + 8 * px 0 va)) s') :
    wp (walk pt va true) Q E s := by
  unfold walk
  refine wp_ite (fun hva => wp_panic.mpr (hE hva)) fun hva => ?_
  rw [wp_bind]
  refine wp_walkLevel_slot (x := .root) hwf hfresh trivial (by simp) rfl ?_ ?_
  · exact wp_pure.mpr (hfail s (.refl hwf hfresh))
  · intro s₁ mid hext hmid
    rw [wp_bind]
    refine wp_walkLevel_slot (x := .mid (px 2 va)) hext.wellFormed hext.fresh (px_lt 2 va)
      (by simp) hmid ?_ ?_
    · exact wp_pure.mpr (hfail s₁ hext)
    · intro s₂ leaf hext' hleaf
      exact wp_pure.mpr (hok s₂ leaf (by omega) (hext.trans hext') hleaf)

end Rules

/-! ## Entries are written -/

/-- The word of one entry is written. -/
structure Written (s : Ram) (pt i j k w : Nat) (s' : Ram) : Prop where
  page : ∀ x, x.Ok → s'.page pt x = s.page pt x
  pteAt : ∀ i' j' k', i' < 512 → j' < 512 → k' < 512 → s'.pteAt pt i' j' k' =
    if i' = i ∧ j' = j ∧ k' = k then ifValid w else s.pteAt pt i' j' k'

theorem written_of_update (hwf : WellFormed s pt) (hi : i < 512) (hj : j < 512) (hk : k < 512)
    (hp : s.page pt (.leaf i j) = some p) (hword : ∀ x q l, x.Ok → s.page pt x = some q → l < 512 →
      s'.word (q + 8 * l) = if q + 8 * l = p + 8 * k then w else s.word (q + 8 * l)) :
    Written s pt i j k w s' := by
  have hpa := hwf.page_aligned hp
  have hok : Slot.Ok (.leaf i j) := ⟨hi, hj⟩
  have hpage : ∀ x, x.Ok → s'.page pt x = s.page pt x := by
    intro x hx
    refine Ram.page_congr (fun y q l hy hinner hq hl => ?_) hx
    rw [hword y q l hy hq hl, if_neg]
    intro heq
    have hqp := (addr_inj (hwf.page_aligned hq) hpa hl hk heq).1
    exact hinner i j (hwf.distinct y (.leaf i j) q hy hok hq (hqp ▸ hp))
  refine ⟨hpage, ?_⟩
  intro i' j' k' hi' hj' hk'
  have hok' : Slot.Ok (.leaf i' j') := ⟨hi', hj'⟩
  unfold Ram.pteAt
  rw [hpage _ hok']
  by_cases heq : i' = i ∧ j' = j ∧ k' = k
  · rw [if_pos heq]
    obtain ⟨rfl, rfl, rfl⟩ := heq
    rw [hp, Option.bind_some, Ram.valid, hword _ p k' hok hp hk, if_pos rfl]
  · rw [if_neg heq]
    cases hq : s.page pt (.leaf i' j') with
    | none => rfl
    | some q =>
      rw [Option.bind_some, Option.bind_some, Ram.valid, Ram.valid,
        hword _ q k' hok' hq hk', if_neg]
      intro haddr
      obtain ⟨hqp, hkk⟩ := addr_inj (hwf.page_aligned hq) hpa hk' hk haddr
      have hslot := hwf.distinct (.leaf i' j') (.leaf i j) q hok' hok hq (hqp ▸ hp)
      cases hslot
      exact heq ⟨rfl, rfl, hkk⟩

theorem WellFormed.congr (hwf : WellFormed s pt)
    (hpage : ∀ x, x.Ok → s'.page pt x = s.page pt x) : WellFormed s' pt := by
  refine ⟨hwf.aligned, fun x y p hx hy hp hp' => ?_⟩
  rw [hpage x hx] at hp
  rw [hpage y hy] at hp'
  exact hwf.distinct x y p hx hy hp hp'

theorem Written.fresh (h : Written s pt i j k w s') (hfree : s'.freelist = s.freelist)
    (hfresh : Fresh s pt) : Fresh s' pt := by
  refine ⟨hfree ▸ hfresh.nodup, hfree ▸ hfresh.pages, fun x p hx hp => ?_⟩
  rw [h.page x hx] at hp
  rw [hfree]
  exact hfresh.apart x p hx hp

/-! ## Page numbers -/

/-- Page numbers below `MAXVA`. -/
abbrev pageNumbers : Nat := MAXVA / PGSIZE

theorem page_lt (hv : v < pageNumbers) : v * PGSIZE < MAXVA := by
  simp only [pageNumbers, MAXVA, PGSIZE] at hv ⊢
  omega

theorem Ram.translate_eq (hv : v < pageNumbers) :
    s.translate pt v = s.pteAt pt (px 2 (v * PGSIZE)) (px 1 (v * PGSIZE)) (px 0 (v * PGSIZE)) :=
  lookup_eq (page_lt hv)

theorem px_inj {v' : Nat} (hv : v < pageNumbers) (hv' : v' < pageNumbers) :
    px 2 (v * PGSIZE) = px 2 (v' * PGSIZE) ∧ px 1 (v * PGSIZE) = px 1 (v' * PGSIZE) ∧
      px 0 (v * PGSIZE) = px 0 (v' * PGSIZE) ↔ v = v' := by
  constructor
  · rintro ⟨h2, h1, h0⟩
    have hlt : ∀ u < pageNumbers, u * PGSIZE < 2 ^ 39 := fun u hu =>
      (page_lt hu).trans (by decide)
    have heq := page_eq_of_px (hlt v hv) (hlt v' hv') h2 h1 h0
    rwa [Nat.mul_div_cancel _ (by decide), Nat.mul_div_cancel _ (by decide)] at heq
  · rintro rfl
    exact ⟨rfl, rfl, rfl⟩

theorem Extended.translate (h : Extended s pt s') (hv : v < pageNumbers) :
    s'.translate pt v = s.translate pt v := by
  rw [Ram.translate_eq hv, Ram.translate_eq hv]
  exact h.pteAt _ _ _ (px_lt _ _) (px_lt _ _) (px_lt _ _)

theorem Written.translate {u : Nat} (hu : u < pageNumbers)
    (h : Written s pt (px 2 (u * PGSIZE)) (px 1 (u * PGSIZE)) (px 0 (u * PGSIZE)) w s')
    (hv : v < pageNumbers) : s'.translate pt v = if v = u then ifValid w else s.translate pt v := by
  rw [Ram.translate_eq hv, Ram.translate_eq hv,
    h.pteAt _ _ _ (px_lt _ _) (px_lt _ _) (px_lt _ _)]
  simp only [px_inj hv hu]

end Pages

end Xv6.Vm.Words
