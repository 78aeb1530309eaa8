import Xv6.Vm.Pages

/-!
# What `kalloc`, `kfree`, `walk` and `mappages` do

One rule for each function, in the form its callers use: a `walk` that does
not allocate only looks, one that does adds page-table pages with no valid
entry in them, and `mappages` of one page sets that entry and no other.
-/

namespace Xv6.Vm

open Xv6.Lib Xv6.Lib.CInt Function
open Act

variable {k k' k'' : Kmem} {pa r i va perm x w : Nat} {next : List Nat} {mem : Nat → Bytes}
  {pt pt' : PageTable} {E : Panic → Prop} {found : Bool}

/-! ## The free list -/

/-- The kernel lies at the start of memory, and every free page is a page of
the memory after it. -/
structure Kmem.Ok (k : Kmem) : Prop where
  kend : KERNBASE ≤ k.kend
  trampoline : PageAddr k.trampoline
  free : ∀ pa ∈ k.freelist, pa % PGSIZE = 0 ∧ k.kend ≤ pa ∧ pa < PHYSTOP

/-- A page of the memory after the kernel, one that `kfree` takes. -/
def Kmem.Ram (k : Kmem) (pa : Nat) : Prop := pa % PGSIZE = 0 ∧ k.kend ≤ pa ∧ pa < PHYSTOP

instance (k : Kmem) (pa : Nat) : Decidable (k.Ram pa) := inferInstanceAs (Decidable (_ ∧ _))

/-- What no function changes about physical memory. -/
structure Kmem.Keeps (k k' : Kmem) : Prop where
  kend : k'.kend = k.kend
  trampoline : k'.trampoline = k.trampoline
  ok : k.Ok → k'.Ok

theorem Kmem.Keeps.refl (k : Kmem) : k.Keeps k := ⟨rfl, rfl, id⟩

theorem Kmem.Keeps.trans (h : k.Keeps k') (h' : k'.Keeps k'') : k.Keeps k'' :=
  ⟨h'.kend.trans h.kend, h'.trampoline.trans h.trampoline, h'.ok ∘ h.ok⟩

theorem Kmem.Ok.pageAddr (h : k.Ok) (hpa : pa ∈ k.freelist) : PageAddr pa := by
  obtain ⟨haligned, _, hlt⟩ := h.free pa hpa
  refine ⟨haligned, ?_⟩
  simp only [PHYSTOP, KERNBASE] at hlt
  omega

/-- Memory after taking pages off the front of the free list: only these
pages have new contents. -/
structure Kmem.Takes (k k' : Kmem) : Prop extends k.Keeps k' where
  suffix : k'.freelist <:+ k.freelist
  mem : ∀ x ∉ k.freelist, k'.mem x = k.mem x

theorem Kmem.Takes.refl (k : Kmem) : k.Takes k :=
  ⟨.refl k, List.suffix_refl _, fun _ _ => rfl⟩

theorem Kmem.Takes.trans (h : k.Takes k') (h' : k'.Takes k'') : k.Takes k'' := by
  refine ⟨h.toKeeps.trans h'.toKeeps, h'.suffix.trans h.suffix, fun x hx => ?_⟩
  rw [h'.mem x fun hx' => hx (h.suffix.subset hx'), h.mem x hx]

theorem Kmem.takes_cons (hk : k.freelist = r :: next) (hmem : ∀ x ≠ r, mem x = k.mem x) :
    k.Takes { k with freelist := next, mem := mem } where
  kend := rfl
  trampoline := rfl
  ok := fun h => ⟨h.kend, h.trampoline, fun pa hpa =>
    h.free pa (by rw [hk]; exact List.mem_cons_of_mem r hpa)⟩
  suffix := hk ▸ List.suffix_cons r next
  mem := fun x hx => by
    rw [hk, List.mem_cons, not_or] at hx
    exact hmem x hx.1

/-- Memory after the first free page is taken and filled with zeros. -/
def Kmem.take (k : Kmem) (r : Nat) (next : List Nat) : Kmem :=
  { k with freelist := next, mem := update k.mem r fun _ => 0 }

theorem Kmem.take_takes (hk : k.freelist = r :: next) : k.Takes (k.take r next) :=
  Kmem.takes_cons hk fun _ hx => update_of_ne hx ..

theorem Kmem.take_blank (x : Nat) :
    (k.take r next).mem x = k.mem x ∨ (k.take r next).mem x = fun _ => 0 := by
  by_cases hx : x = r
  · subst hx
    exact .inr (update_self ..)
  · exact .inl (update_of_ne hx ..)

theorem Kmem.Ok.cons (h : k.Ok) (ha : pa % PGSIZE = 0) (hb : k.kend ≤ pa) (hc : pa < PHYSTOP) :
    Kmem.Ok { k with freelist := pa :: k.freelist, mem := mem } := by
  refine ⟨h.kend, h.trampoline, fun x hx => ?_⟩
  rcases List.mem_cons.mp hx with rfl | hx
  · exact ⟨ha, hb, hc⟩
  · exact h.free x hx

section rules

variable {Q : Option Nat → Kmem → Prop}

theorem wp_memset {Q : Unit → Kmem → Prop} {c : UInt8} :
    wp (memset pa c) Q E k ↔ Q () { k with mem := update k.mem pa fun _ => c } :=
  wp_modify

theorem wp_memset_take {Q : Unit → Kmem → Prop} :
    wp (memset r 0) Q E { k with freelist := next, mem := update k.mem r fun _ => 5 } ↔
      Q () (k.take r next) := by
  rw [wp_memset]
  simp only [update_idem, Kmem.take]

theorem wp_kalloc (hnone : k.freelist = [] → Q none k) (hsome : ∀ r next, k.freelist = r :: next →
      Q (some r) { k with freelist := next, mem := update k.mem r fun _ => 5 }) :
    wp kalloc Q E k := by
  unfold kalloc
  rw [wp_bind, wp_get]
  cases hk : k.freelist with
  | nil => exact wp_pure.mpr (hnone hk)
  | cons r next =>
    rw [wp_bind, wp_modify, wp_bind, wp_memset, wp_pure]
    exact hsome r next hk

/-- `kfree` takes exactly the pages of the memory after the kernel. -/
theorem wp_kfree_exact {Q : Unit → Kmem → Prop} (hE : ¬k.Ram pa → E .kfree) (h : k.Ram pa →
      Q () { k with freelist := pa :: k.freelist, mem := update k.mem pa fun _ => 1 }) :
    wp (kfree pa) Q E k := by
  by_cases hpa : k.Ram pa
  · obtain ⟨haligned, habove, hbelow⟩ := hpa
    unfold kfree
    rw [wp_bind, wp_get, if_neg (by omega), wp_bind, wp_memset, wp_modify]
    exact h ⟨haligned, habove, hbelow⟩
  · have hbad : pa % PGSIZE ≠ 0 ∨ pa < k.kend ∨ PHYSTOP ≤ pa := by
      unfold Kmem.Ram at hpa
      omega
    unfold kfree
    rw [wp_bind, wp_get, if_pos hbad]
    exact wp_panic.mpr (hE hpa)

theorem wp_kfree {Q : Unit → Kmem → Prop} (hE : E .kfree)
    (h : pa % PGSIZE = 0 → k.kend ≤ pa → pa < PHYSTOP →
      Q () { k with freelist := pa :: k.freelist, mem := update k.mem pa fun _ => 1 }) :
    wp (kfree pa) Q E k :=
  wp_kfree_exact (fun _ => hE) fun hpa => h hpa.1 hpa.2.1 hpa.2.2

theorem wp_kfree_page {Q : Unit → Kmem → Prop} (ha : pa % PGSIZE = 0) (hb : k.kend ≤ pa)
    (hc : pa < PHYSTOP)
    (h : Q () { k with freelist := pa :: k.freelist, mem := update k.mem pa fun _ => 1 }) :
    wp (kfree pa) Q E k :=
  wp_kfree_exact (fun hpa => absurd ⟨ha, hb, hc⟩ hpa) fun _ => h

end rules

/-! ## `walk` without allocation -/

theorem descend_false {α : Type} {fresh : Nat → α} {dir : DirPage α} :
    descend fresh dir i false = pure (dir, dir.entry i) := by
  unfold descend
  cases dir.entry i with
  | none => rfl
  | some page => rfl

/-- A `walk` that does not allocate says whether there is an entry. -/
theorem walk_false (hva : va < MAXVA) : walk pt va false = pure (pt, pt.tableAt va) := by
  unfold walk
  rw [if_neg (Nat.not_le.mpr hva), descend_false]
  funext k
  simp only [bind, pure]
  cases hmid : pt.entry (px 2 va) with
  | none => simp [PageTable.tableAt, PageTable.leafPage, hmid]
  | some mid =>
    have hself : update pt.entry (px 2 va) (some mid) = pt.entry := by
      rw [← hmid, update_eq_self]
    simp only [descend_false, pure, hself, PageTable.tableAt, PageTable.leafPage, hmid,
      Option.bind_some]

theorem wp_walk_false {Q : PageTable × Bool → Kmem → Prop} (hE : MAXVA ≤ va → E .walk)
    (h : va < MAXVA → Q (pt, pt.tableAt va) k) : wp (walk pt va false) Q E k := by
  by_cases hva : MAXVA ≤ va
  · unfold walk
    rw [if_pos hva]
    exact wp_panic.mpr (hE hva)
  · rw [walk_false (by omega), wp_pure]
    exact h (by omega)

/-! ## `walk` with allocation -/

theorem PageTable.leafPage_update {mid : DirPage LeafPage} :
    PageTable.leafPage { pt with entry := update pt.entry i (some mid) } va =
      if px 2 va = i then mid.entry (px 1 va) else pt.leafPage va := by
  unfold PageTable.leafPage
  by_cases h : px 2 va = i
  · subst h
    simp
  · simp [h]

theorem wp_descend
    {α : Type} {fresh : Nat → α} {dir : DirPage α} {Q : DirPage α × Option α → Kmem → Prop}
    (hsome : ∀ page, dir.entry i = some page → Q (dir, some page) k)
    (hfail : dir.entry i = none → k.freelist = [] → Q (dir, none) k)
    (hnew : ∀ r next, dir.entry i = none → k.freelist = r :: next →
      Q ({ dir with entry := update dir.entry i (some (fresh r)) }, some (fresh r))
        (k.take r next)) : wp (descend fresh dir i true) Q E k := by
  unfold descend
  cases hentry : dir.entry i with
  | some page => exact wp_pure.mpr (hsome page hentry)
  | none =>
    simp only [↓reduceIte]
    rw [wp_bind]
    apply wp_kalloc
    · intro hempty
      exact wp_pure.mpr (hfail hentry hempty)
    · intro r next hk
      rw [wp_bind, wp_memset_take, wp_pure]
      exact hnew r next hentry hk

/-- The page table and memory after a `walk` that may allocate. -/
structure Walked (pt : PageTable) (va : Nat) (k : Kmem) (pt' : PageTable)
    (found : Bool) (k' : Kmem) : Prop extends k.Takes k' where
  addr : pt'.addr = pt.addr
  /-- The page-table pages that are added have no entry in them. -/
  leafPage : ∀ x, pt'.leafPage x = pt.leafPage x ∨
    pt.leafPage x = none ∧ px 2 x = px 2 va ∧ px 1 x = px 1 va ∧
      ∃ pa, pt'.leafPage x = some ⟨pa, fun _ => 0⟩
  found : found = true → pt'.tableAt va = true
  pages : (k'.freelist : Multiset Nat) + tablePages pt' =
    (k.freelist : Multiset Nat) + tablePages pt
  /-- They are zero. -/
  blank : ∀ x, k'.mem x = k.mem x ∨ k'.mem x = fun _ => 0

theorem Walked.pte (h : Walked pt va k pt' found k') (x : Nat) : pt'.pte x = pt.pte x := by
  unfold PageTable.pte
  rcases h.leafPage x with hx | ⟨hnone, _, _, pa, hsome⟩
  · rw [hx]
  · rw [hnone, hsome]

theorem Walked.tableAt (h : Walked pt va k pt' found k')
    {x : Nat} (hx : pt.tableAt x = true) : pt'.tableAt x = true := by
  unfold PageTable.tableAt at *
  rcases h.leafPage x with hx' | ⟨hnone, _⟩
  · rw [hx', hx]
  · rw [hnone] at hx
    exact absurd hx (by decide)

/-- A page-table page of the lowest level is added below one of the middle
level. -/
theorem Walked.newLeaf {mid : DirPage LeafPage} (hmid : pt.entry (px 2 va) = some mid)
    (hleaf : mid.entry (px 1 va) = none) (hk : k.freelist = r :: next) :
    let leaf : Option LeafPage := some ⟨r, fun _ => 0⟩
    let mid' : DirPage LeafPage := { mid with entry := update mid.entry (px 1 va) leaf }
    Walked pt va k
      { pt with entry := update pt.entry (px 2 va) (some mid') } true
      (k.take r next) := by
  intro leaf mid'
  have hat : ∀ x, PageTable.leafPage
      { pt with entry := update pt.entry (px 2 va) (some mid') } x =
      if px 2 x = px 2 va ∧ px 1 x = px 1 va then leaf else pt.leafPage x := by
    intro x
    rw [PageTable.leafPage_update]
    by_cases h2 : px 2 x = px 2 va
    · by_cases h1 : px 1 x = px 1 va
      · simp [h2, h1, mid']
      · simp [h2, h1, mid', PageTable.leafPage, hmid]
    · simp [h2]
  refine ⟨Kmem.take_takes hk, rfl, ?_, ?_, ?_, Kmem.take_blank⟩
  · intro x
    rw [hat]
    by_cases hx : px 2 x = px 2 va ∧ px 1 x = px 1 va
    · refine Or.inr ⟨?_, hx.1, hx.2, r, if_pos hx⟩
      rw [PageTable.leafPage, hx.1, hx.2, hmid, Option.bind_some, hleaf]
    · exact Or.inl (if_neg hx)
  · intro _
    rw [PageTable.tableAt, hat, if_pos ⟨rfl, rfl⟩]
    rfl
  · have hlow := midPart_update mid leaf (px_lt 1 va)
    have htable := tablePages_update pt (some mid') (px_lt 2 va)
    rw [hleaf, lowPart, add_zero] at hlow
    rw [hmid, hlow, ← add_assoc, add_right_comm] at htable
    rw [add_right_cancel htable, hk, ← Multiset.cons_coe, ← Multiset.singleton_add]
    simp only [lowPart, leaf, Kmem.take]
    abel

/-- A page-table page of the middle level is added below the root. -/
theorem Walked.newMid (hmid : pt.entry (px 2 va) = none) (hk : k.freelist = r :: next) :
    let mid : DirPage LeafPage := ⟨r, fun _ => none⟩
    Walked pt va k
      { pt with entry := update pt.entry (px 2 va) (some mid) } false
      (k.take r next) := by
  intro mid
  refine ⟨Kmem.take_takes hk, rfl, ?_, fun h => absurd h (by decide), ?_, Kmem.take_blank⟩
  · intro x
    left
    rw [PageTable.leafPage_update]
    by_cases h2 : px 2 x = px 2 va
    · rw [if_pos h2, PageTable.leafPage, h2, hmid]
      rfl
    · rw [if_neg h2]
  · have htable := tablePages_update pt (some mid) (px_lt 2 va)
    have hpart : midPart (some mid) = {r} := by simp [midPart, mid, lowPart]
    rw [hmid, hpart, midPart, add_zero] at htable
    rw [htable, hk, ← Multiset.cons_coe, ← Multiset.singleton_add, Kmem.take]
    abel

theorem Walked.trans {pt'' : PageTable} {found' : Bool} (h : Walked pt va k pt' found k')
    (h' : Walked pt' va k' pt'' found' k'') : Walked pt va k pt'' found' k'' := by
  refine ⟨h.toTakes.trans h'.toTakes, h'.addr.trans h.addr, ?_, h'.found, ?_, fun x => ?_⟩
  · intro x
    rcases h.leafPage x with hx | ⟨hnone, h2, h1, pa, hsome⟩
    · rw [← hx]
      exact h'.leafPage x
    · rcases h'.leafPage x with hx' | ⟨hnone', _⟩
      · exact Or.inr ⟨hnone, h2, h1, pa, hx'.trans hsome⟩
      · rw [hsome] at hnone'
        exact absurd hnone' (by simp)
  · rw [h'.pages, h.pages]
  · rcases h'.blank x with hx | hx
    · rw [hx]
      exact h.blank x
    · exact .inr hx

theorem Walked.refl (h : found = true → pt.tableAt va = true) : Walked pt va k pt found k :=
  ⟨.refl k, rfl, fun _ => Or.inl rfl, h, rfl, fun _ => .inl rfl⟩

/-- How many page-table pages a `walk` to `va` has to make. -/
def missingTables (pt : PageTable) (va : Nat) : Nat :=
  match pt.entry (px 2 va) with
  | none => 2
  | some mid => if (mid.entry (px 1 va)).isSome then 0 else 1

/-! ## The page-table pages that a `walk` adds -/

/-- Is there a page-table page of the middle level for `va`? -/
def PageTable.midAt (pt : PageTable) (va : Nat) : Bool := (pt.entry (px 2 va)).isSome

/-- The table `pt'` has the page-table pages of `pt` and those on
the way to `va`. -/
structure Reached (pt : PageTable) (va : Nat) (pt' : PageTable) : Prop where
  mid : ∀ x, pt'.midAt x = true ↔ pt.midAt x = true ∨ px 2 x = px 2 va
  table : ∀ x, pt'.tableAt x = true ↔
    pt.tableAt x = true ∨ px 2 x = px 2 va ∧ px 1 x = px 1 va

theorem missingTables_eq :
    missingTables pt va =
      if pt.tableAt va = true then 0 else if pt.midAt va = true then 1 else 2 := by
  unfold missingTables PageTable.tableAt PageTable.leafPage PageTable.midAt
  cases pt.entry (px 2 va) with
  | none => rfl
  | some mid => simp

theorem PageTable.midAt_of_tableAt (h : pt.tableAt va = true) : pt.midAt va = true := by
  unfold PageTable.tableAt PageTable.leafPage at h
  unfold PageTable.midAt
  cases hmid : pt.entry (px 2 va) with
  | none =>
    rw [hmid] at h
    exact absurd h (by simp)
  | some mid => rfl

theorem PageTable.midAt_setPte : (pt.setPte va w).midAt x = pt.midAt x := by
  unfold PageTable.setPte
  split
  · rfl
  · rename_i mid hmid
    split
    · rfl
    · extract_lets leaf' mid'
      unfold PageTable.midAt
      by_cases h : px 2 x = px 2 va
      · simp [h, hmid]
      · simp [h]

theorem Reached.refl (h : pt.tableAt va = true) : Reached pt va pt where
  mid := fun x => by
    refine ⟨.inl, fun hx => hx.elim id fun heq => ?_⟩
    rw [PageTable.midAt, heq]
    exact PageTable.midAt_of_tableAt h
  table := fun x => by
    refine ⟨.inl, fun hx => hx.elim id fun heq => ?_⟩
    rw [PageTable.tableAt, PageTable.leafPage, heq.1, heq.2]
    exact h

theorem Reached.setPte {pt' : PageTable} (h : Reached pt va pt') :
    Reached pt va (pt'.setPte va w) where
  mid := fun x => by rw [PageTable.midAt_setPte, h.mid]
  table := fun x => by rw [PageTable.tableAt_setPte, h.table]

/-- A page-table page of the lowest level that was missing is put in. -/
theorem Reached.newLeaf {mid : DirPage LeafPage} {leaf : LeafPage}
    (hmid : ∀ x, px 2 x = px 2 va → pt.tableAt x = (mid.entry (px 1 x)).isSome) :
    Reached pt va { pt with
      entry := update pt.entry (px 2 va) (some { mid with
        entry := update mid.entry (px 1 va) (some leaf) }) } where
  mid := fun x => by
    unfold PageTable.midAt
    by_cases h : px 2 x = px 2 va <;> simp [h]
  table := fun x => by
    rw [PageTable.tableAt, PageTable.leafPage_update]
    by_cases h2 : px 2 x = px 2 va
    · rw [if_pos h2, hmid x h2]
      by_cases h1 : px 1 x = px 1 va
      · simp [h1, h2]
      · simp [h1]
    · rw [if_neg h2]
      simp [h2, PageTable.tableAt]

/-- What a `walk` that may allocate does, and when there is memory for it. -/
theorem wp_walk_exact {Q : PageTable × Bool → Kmem → Prop}
    (hE : MAXVA ≤ va → E .walk) (hmissed : ∀ pt' k', va < MAXVA → Walked pt va k pt' false k' →
      (∀ x, pt'.tableAt x = pt.tableAt x) →
      k.freelist.length < missingTables pt va → Q (pt', false) k')
    (hfound : ∀ pt' k', va < MAXVA → Walked pt va k pt' true k' → Reached pt va pt' →
      k.freelist.length = k'.freelist.length + missingTables pt va → Q (pt', true) k') :
    wp (walk pt va true) Q E k := by
  unfold walk
  apply wp_ite
  · exact fun hva => wp_panic.mpr (hE hva)
  intro hva
  have hlt : va < MAXVA := by omega
  rw [wp_bind]
  apply wp_descend
  · intro mid hmid
    have hself : update pt.entry (px 2 va) (some mid) = pt.entry := by
      rw [← hmid, update_eq_self]
    have htable : ∀ x, px 2 x = px 2 va →
        pt.tableAt x = (mid.entry (px 1 x)).isSome := by
      intro x hx
      rw [PageTable.tableAt, PageTable.leafPage, hx, hmid, Option.bind_some]
    have hmissing : missingTables pt va = if (mid.entry (px 1 va)).isSome then 0 else 1 := by
      unfold missingTables
      rw [hmid]
    rw [wp_bind]
    apply wp_descend
    · intro leaf hleaf
      have hat : pt.tableAt va = true := by
        rw [htable va rfl, hleaf]
        rfl
      rw [wp_pure, hself]
      refine hfound _ _ hlt (.refl fun _ => hat) (.refl hat) ?_
      rw [hmissing, hleaf]
      rfl
    · intro hleaf hempty
      rw [wp_pure, hself]
      refine hmissed _ _ hlt (.refl fun hf => absurd hf (by decide)) (fun _ => rfl) ?_
      rw [hmissing, hleaf, hempty]
      exact Nat.one_pos
    · intro r next hleaf hk
      rw [wp_pure]
      refine hfound _ _ hlt (.newLeaf hmid hleaf hk) (.newLeaf htable) ?_
      rw [hmissing, hleaf, hk]
      rfl
  · intro hmid hempty
    rw [wp_pure]
    refine hmissed _ _ hlt (.refl fun hf => absurd hf (by decide)) (fun _ => rfl) ?_
    rw [missingTables, hmid, hempty]
    exact Nat.two_pos
  · intro r next hmid hk
    have htable : ∀ x, px 2 x = px 2 va → pt.tableAt x = false := by
      intro x hx
      rw [PageTable.tableAt, PageTable.leafPage, hx, hmid]
      rfl
    have hfirst := Walked.newMid hmid hk
    rw [wp_bind]
    apply wp_descend
    · intro leaf hleaf
      exact absurd hleaf (by simp)
    · intro hleaf hempty
      have hone : next = [] := hempty
      rw [wp_pure, update_idem]
      refine hmissed _ _ hlt hfirst (fun x => ?_) ?_
      · change (PageTable.leafPage { pt with
          entry := update pt.entry (px 2 va) (some ⟨r, fun _ => none⟩) } x).isSome = _
        rw [PageTable.leafPage_update]
        by_cases hx : px 2 x = px 2 va
        · rw [if_pos hx, htable x hx]
          rfl
        · rw [if_neg hx]
          rfl
      · rw [missingTables, hmid, hk, hone]
        exact Nat.lt_succ_self 1
    · intro r' next' hleaf hk'
      have hmore : next = r' :: next' := hk'
      have hsecond := hfirst.trans (.newLeaf (update_self ..) hleaf hk')
      simp only [update_idem] at hsecond
      rw [wp_pure, update_idem]
      refine hfound _ _ hlt hsecond (.newLeaf fun x hx => htable x hx) ?_
      rw [missingTables, hmid, hk, hmore]
      rfl

/-! ## `mappages` -/

theorem pgRoundDown_of_aligned {a : Nat} (h : a % PGSIZE = 0) : pgRoundDown a = a := by
  unfold pgRoundDown
  simp only [PGSIZE] at h ⊢
  omega

/-- The page table and memory after the entry for `va` is set to `w`. -/
structure Mapped (pt : PageTable) (va w : Nat) (k : Kmem) (pt' : PageTable)
    (k' : Kmem) : Prop extends k.Takes k' where
  addr : pt'.addr = pt.addr
  /-- The entry was not valid before. -/
  fresh : ¬Valid (pt.pte va)
  pte : ∀ x, x < 2 ^ 39 →
    pt'.pte x = if x / PGSIZE = va / PGSIZE then w else pt.pte x
  table : pt'.tableAt va = true
  tableAt : ∀ x, pt.tableAt x = true → pt'.tableAt x = true
  tables : (k'.freelist : Multiset Nat) + tablePages pt' =
    (k.freelist : Multiset Nat) + tablePages pt
  /-- The page of the new entry is one more page that the table maps. -/
  leaves : va < TRAMPOLINE → leafPages pt' = leafPages pt + leafPart w
  blank : ∀ x, k'.mem x = k.mem x ∨ k'.mem x = fun _ => 0
  high : TRAMPOLINE ≤ va → leafPages pt' = leafPages pt

theorem Walked.mapped {w : Nat} (h : Walked pt va k pt' true k')
    (hva : va < MAXVA) (hfresh : ¬Valid (pt.pte va)) : Mapped pt va w k (pt'.setPte va w) k' where
  toTakes := h.toTakes
  addr := by rw [PageTable.setPte_addr, h.addr]
  fresh := hfresh
  pte := fun x hx => by
    rw [PageTable.pte_setPte (h.found rfl) (by simp only [MAXVA] at hva; omega) hx, h.pte]
  table := by rw [PageTable.tableAt_setPte, h.found rfl]
  tableAt := fun x hx => by rw [PageTable.tableAt_setPte, h.tableAt hx]
  tables := by rw [tablePages_setPte, h.pages]
  leaves := fun hlow => by
    have hset := leafPages_setPte (w := w) (h.found rfl) hlow
    rw [h.pte, leafPart_of_not_valid hfresh, add_zero] at hset
    rw [hset, leafPages_congr h.pte]
  blank := h.blank
  high := fun hhigh => by
    rw [leafPages_setPte_high (h.found rfl) hhigh hva, leafPages_congr h.pte]

/-- The table accounts for the page that is mapped. -/
theorem Mapped.pages (h : Mapped pt va (mkPte pa perm) k pt' k')
    (hpa : PageAddr pa) (hperm : perm < 1024) (hva : va < TRAMPOLINE) :
    (k'.freelist : Multiset Nat) + pagesOf pt' =
      (k.freelist : Multiset Nat) + pagesOf pt + {pa} := by
  have hleaf := h.leaves hva
  rw [leafPart_of_valid (valid_mkPte _ _), pte2pa_mkPte hpa hperm] at hleaf
  unfold pagesOf
  rw [← add_assoc, h.tables, hleaf]
  abel

theorem Walked.held (h : Walked pt va k pt' found k') :
    (k'.freelist : Multiset Nat) + pagesOf pt' = (k.freelist : Multiset Nat) + pagesOf pt := by
  unfold pagesOf
  rw [leafPages_congr h.pte, ← add_assoc, h.pages, add_assoc]

theorem wp_mappages_page {Q : PageTable × Int → Kmem → Prop} (haligned : va % PGSIZE = 0)
    (hlt : va + PGSIZE ≤ 2 ^ 64) (h : wp (walk pt va true) (fun r k' =>
      (r.2 = false → Q (r.1, -1) k') ∧ (r.2 = true → Valid (r.1.pte va) → E .remap) ∧
      (r.2 = true → ¬Valid (r.1.pte va) → Q (r.1.setPte va (mkPte pa perm), 0) k')) E k) :
    wp (mappages pt va PGSIZE pa perm) Q E k := by
  have hfirst : pgRoundDown va = va := pgRoundDown_of_aligned haligned
  have hlast : pgRoundDown (uint64 ((va : Int) + (PGSIZE : Nat) - 1)) = va := by
    unfold pgRoundDown uint64
    simp only [PGSIZE] at haligned hlt ⊢
    omega
  have hself : uint64 ((va : Int) - (va : Int)) / PGSIZE + 1 = 1 := by
    rw [Int.sub_self, uint64]
    rfl
  have hround : uint64 ((va : Int) + ((0 : Nat) : Int) * (PGSIZE : Nat)) = va := by
    unfold uint64
    simp only [PGSIZE] at hlt
    omega
  unfold mappages
  simp only [hfirst, hlast, hself]
  rw [wp_bind, Act.loop, wp_bind, wp_bind, hround]
  refine wp_mono h ?_ fun _ he => he
  rintro ⟨pt', found⟩ k' ⟨hmissing, hremap, hset⟩
  cases found with
  | false =>
    simp only [Bool.not_false, ↓reduceIte, wp_pure]
    exact hmissing rfl
  | true =>
    simp only [Bool.not_true, Bool.false_eq_true, ↓reduceIte]
    by_cases hv : Valid (pt'.pte va)
    · rw [if_pos hv]
      exact wp_panic.mpr (hremap rfl hv)
    · rw [if_neg hv]
      simp only [Nat.zero_mul, Nat.add_zero, wp_pure, Act.loop]
      exact hset rfl hv

/-- What `mappages` does for one page, with the page-table pages that it adds
and the free pages it takes. -/
theorem wp_mappages_exact
    {Q : PageTable × Int → Kmem → Prop} (haligned : va % PGSIZE = 0) (hlt : va + PGSIZE ≤ 2 ^ 64)
    (hwalk : MAXVA ≤ va → E .walk) (hremap : va < MAXVA → Valid (pt.pte va) → E .remap)
    (hfail : ∀ pt' k', va < MAXVA → Walked pt va k pt' false k' →
      (∀ x, pt'.tableAt x = pt.tableAt x) →
      k.freelist.length < missingTables pt va → Q (pt', -1) k')
    (hok : ∀ pt' k', va < MAXVA → Mapped pt va (mkPte pa perm) k pt' k' → Reached pt va pt' →
      k.freelist.length = k'.freelist.length + missingTables pt va → Q (pt', 0) k') :
    wp (mappages pt va PGSIZE pa perm) Q E k := by
  refine wp_mappages_page haligned hlt (wp_walk_exact hwalk ?_ ?_)
  · intro pt' k' hva hw hsame hshort
    exact ⟨fun _ => hfail _ _ hva hw hsame hshort, nofun, nofun⟩
  · intro pt' k' hva hw hreached hspent
    rw [hw.pte]
    exact ⟨nofun, fun _ hv => hremap hva hv,
      fun _ hv => hok _ _ hva (hw.mapped hva hv) hreached.setPte hspent⟩

theorem wp_mappages {Q : PageTable × Int → Kmem → Prop} (haligned : va % PGSIZE = 0)
    (hlt : va + PGSIZE ≤ 2 ^ 64) (hfail : ∀ pt' k', va < MAXVA → Walked pt va k pt' false k' →
      Q (pt', -1) k') (hok : ∀ pt' k', va < MAXVA → Mapped pt va (mkPte pa perm) k pt' k' →
      Q (pt', 0) k') : wp (mappages pt va PGSIZE pa perm) Q (fun _ => True) k :=
  wp_mappages_exact haligned hlt (fun _ => trivial) (fun _ _ => trivial)
    (fun pt' k' hva hwalked _ _ => hfail pt' k' hva hwalked)
    fun pt' k' hva hmapped _ _ => hok pt' k' hva hmapped

end Xv6.Vm
