import Xv6.Vm.WordTree

/-!
# `mappages` and `uvmunmap` on the map

On a well-formed page table `mappages` sets the entries of a range of pages
and `uvmunmap` clears them, each page of the range in one turn of its loop.
The loops are followed with `Mapped` and `Unmapped`, which say what the first
`n` turns have done to the map and that the table is still a tree.

Both take their range as it is after 64-bit arithmetic. For a range that wraps
they do less than the range says, and for an empty range with a start inside a
page `mappages` maps that page; `mappages_empty` is such a call.
-/

namespace Xv6.Vm.Words

open Xv6.Lib Xv6.Lib.CInt Function
open Xv6.Lib.Act (wp wp_pure wp_get wp_modify wp_panic wp_bind wp_post wp_ok ends_ok wp_ite wp_when
  wp_iter wp_loop)

variable {s s' : Ram} {pt : Nat} {E : Panic → Prop}
variable {first pa perm n va : Nat}

/-! ## `mappages` -/

/-- The first `n` pages from page number `first` on are mapped. -/
structure Mapped (s : Ram) (pt first n pa perm : Nat) (s' : Ram) : Prop where
  wellFormed : WellFormed s' pt
  fresh : Fresh s' pt
  range : n = 0 ∨ first + n ≤ pageNumbers
  translate : ∀ v, v < pageNumbers → s'.translate pt v =
    if first ≤ v ∧ v < first + n then some (mkPte ((pa + (v - first) * PGSIZE) % 2 ^ 64) perm)
    else s.translate pt v

theorem Mapped.zero (hwf : WellFormed s pt) (hfresh : Fresh s pt) :
    Mapped s pt first 0 pa perm s := by
  refine ⟨hwf, hfresh, .inl rfl, fun v _ => ?_⟩
  rw [if_neg (by omega)]

theorem Mapped.extend {s'' : Ram} (h : Mapped s pt first n pa perm s')
    (hext : Extended s' pt s'') : Mapped s pt first n pa perm s'' := by
  refine ⟨hext.wellFormed, hext.fresh, h.range, fun v hv => ?_⟩
  rw [hext.translate hv, h.translate v hv]

/-- One more page is mapped. -/
theorem Mapped.write {leaf : Nat} (h : Mapped s pt first n pa perm s')
    (hlt : first + n < pageNumbers)
    (hleaf : s'.page pt (.leaf (px 2 ((first + n) * PGSIZE)) (px 1 ((first + n) * PGSIZE))) =
      some leaf) :
    Mapped s pt first (n + 1) pa perm { s' with
      word := update s'.word (leaf + 8 * px 0 ((first + n) * PGSIZE))
        (mkPte ((pa + n * PGSIZE) % 2 ^ 64) perm) } := by
  have hwritten : Written s' pt (px 2 ((first + n) * PGSIZE)) (px 1 ((first + n) * PGSIZE))
      (px 0 ((first + n) * PGSIZE)) (mkPte ((pa + n * PGSIZE) % 2 ^ 64) perm) { s' with
        word := update s'.word (leaf + 8 * px 0 ((first + n) * PGSIZE))
          (mkPte ((pa + n * PGSIZE) % 2 ^ 64) perm) } :=
    written_of_update h.wellFormed (px_lt _ _) (px_lt _ _) (px_lt _ _) hleaf
      fun _ _ _ _ _ _ => update_apply _ _ _ _
  refine ⟨h.wellFormed.congr hwritten.page, hwritten.fresh rfl h.fresh, .inr hlt, fun v hv => ?_⟩
  rw [hwritten.translate hlt hv, h.translate v hv, ifValid, if_pos (valid_mkPte _ _)]
  by_cases hv' : v = first + n
  · subst hv'
    rw [if_pos rfl, if_pos ⟨Nat.le_add_right _ _, by omega⟩, Nat.add_sub_cancel_left]
  · rw [if_neg hv']
    congr 1
    apply propext
    omega

theorem wp_mappages {size : Nat} (hwf : WellFormed s pt) (hfresh : Fresh s pt)
    (hsize : 0 < size) (hwrap : va + size ≤ 2 ^ 64) (hE : ∀ e, E e) :
    wp (mappages pt va size pa perm) (fun r s' => r = 0 →
      Mapped s pt (va / PGSIZE) ((va + size - 1) / PGSIZE - va / PGSIZE + 1) pa perm s') E s := by
  have hlast : pgRoundDown (uint64 ((va : Int) + (size : Int) - 1)) =
      (va + size - 1) / PGSIZE * PGSIZE := by
    unfold pgRoundDown uint64
    simp only [PGSIZE]
    omega
  have hrounds : uint64 (((va + size - 1) / PGSIZE * PGSIZE : Nat) - (va / PGSIZE * PGSIZE : Nat)) /
      PGSIZE + 1 = (va + size - 1) / PGSIZE - va / PGSIZE + 1 := by
    unfold uint64
    simp only [PGSIZE]
    omega
  unfold mappages
  simp only [hlast]
  rw [wp_bind, pgRoundDown, hrounds]
  refine wp_loop (fun i _ s₁ => Mapped s pt (va / PGSIZE) i pa perm s₁) (.zero hwf hfresh)
    ?_ ?_
  · intro i _ s₁ _ hi hmapped
    have ha : uint64 ((va / PGSIZE * PGSIZE : Nat) + (i : Int) * (PGSIZE : Nat)) =
        (va / PGSIZE + i) * PGSIZE := by
      unfold uint64
      simp only [PGSIZE] at hi ⊢
      omega
    have hpa : uint64 ((pa : Int) + (i : Int) * (PGSIZE : Nat)) = (pa + i * PGSIZE) % 2 ^ 64 := by
      rw [← uint64_natCast]
      push_cast
      rfl
    rw [wp_bind, ha]
    refine wp_walk_true hmapped.wellFormed hmapped.fresh (fun _ => hE _) ?_ ?_
    · intro s₂ _
      rw [wp_pure]
      exact wp_pure.mpr fun hf => absurd hf (by decide)
    · intro s₂ leaf hva hext hleaf
      rw [wp_bind, wp_get]
      refine wp_ite (fun _ => wp_panic.mpr (hE _)) fun _ => ?_
      rw [wp_bind, setWord, wp_modify, wp_pure, hpa]
      refine (hmapped.extend hext).write ?_ hleaf
      simp only [pageNumbers, MAXVA, PGSIZE] at hva ⊢
      omega
  · intro _ s₁ hmapped
    rw [Nat.zero_add] at hmapped
    exact wp_pure.mpr fun _ => hmapped

/-! ## `uvmunmap` -/

/-- The first `n` pages from page number `first` on are cleared. -/
structure Unmapped (s : Ram) (pt first n : Nat) (s' : Ram) : Prop where
  page : ∀ x, x.Ok → s'.page pt x = s.page pt x
  translate : ∀ v, v < pageNumbers → s'.translate pt v =
    if first ≤ v ∧ v < first + n then none else s.translate pt v

theorem Unmapped.zero : Unmapped s pt first 0 s := by
  refine ⟨fun _ _ => rfl, fun v _ => ?_⟩
  rw [if_neg (by omega)]

theorem Unmapped.skip (h : Unmapped s pt first n s') (hnone : s'.translate pt (first + n) = none) :
    Unmapped s pt first (n + 1) s' := by
  refine ⟨h.page, fun v hv => ?_⟩
  by_cases hv' : v = first + n
  · subst hv'
    rw [if_pos ⟨Nat.le_add_right _ _, by omega⟩, hnone]
  · rw [h.translate v hv]
    congr 1
    apply propext
    omega

/-- The entry of the next page is cleared. -/
theorem Unmapped.write {s'' : Ram} (h : Unmapped s pt first n s') (hlt : first + n < pageNumbers)
    (hwritten : Written s' pt (px 2 ((first + n) * PGSIZE)) (px 1 ((first + n) * PGSIZE))
      (px 0 ((first + n) * PGSIZE)) 0 s'') : Unmapped s pt first (n + 1) s'' := by
  refine ⟨fun x hx => (hwritten.page x hx).trans (h.page x hx), fun v hv => ?_⟩
  rw [hwritten.translate hlt hv, h.translate v hv]
  by_cases hv' : v = first + n
  · subst hv'
    rw [if_pos rfl, if_pos ⟨Nat.le_add_right _ _, by omega⟩]
    rfl
  · rw [if_neg hv']
    congr 1
    apply propext
    omega

theorem wp_kfree {Q : Unit → Ram → Prop} (hE : E .kfree)
    (h : ∀ s', (∀ a, ¬(pa ≤ a ∧ a < pa + PGSIZE) → s'.word a = s.word a) → Q () s') :
    wp (kfree pa) Q E s := by
  unfold kfree
  rw [wp_bind, wp_get]
  refine wp_ite (fun _ => wp_panic.mpr hE) fun _ => ?_
  rw [wp_bind, fill, wp_modify, wp_bind, setWord, wp_modify, wp_modify]
  refine h _ fun a ha => ?_
  have hne : a ≠ pa := by
    rintro rfl
    exact ha ⟨le_rfl, Nat.lt_add_of_pos_right (by decide)⟩
  simp only [update_of_ne hne]
  rw [if_neg ha]

/-- The pages that the entries of a range name are not pages of the page table. -/
def DataPages (s : Ram) (pt first n : Nat) : Prop :=
  ∀ v w x, first ≤ v → v < first + n → v < pageNumbers → s.translate pt v = some w →
    x.Ok → s.page pt x ≠ some (pte2pa w)

theorem wp_uvmunmap
    {npages : Nat} {doFree : Bool} (hwf : WellFormed s pt) (hwrap : va + npages * PGSIZE < 2 ^ 64)
    (hdata : doFree = true → DataPages s pt (va / PGSIZE) npages) (hE : ∀ e, E e) :
    wp (uvmunmap pt va npages doFree) (fun _ s' => Unmapped s pt (va / PGSIZE) npages s') E s := by
  unfold uvmunmap
  refine wp_ite (fun _ => wp_panic.mpr (hE _)) fun haligned => ?_
  have hrounds : pageRounds va (uint64 (va + npages * PGSIZE)) = npages := unmapRounds_of_lt hwrap
  simp only [hrounds]
  have hmono : ∀ (_ : Unit) s₁, Unmapped s pt (va / PGSIZE) (0 + npages) s₁ →
      Unmapped s pt (va / PGSIZE) npages s₁ := by
    intro _ s₁ h
    rwa [Nat.zero_add] at h
  refine wp_post (wp_iter (fun i _ s₁ => Unmapped s pt (va / PGSIZE) i s₁) .zero ?_) hmono
  intro i _ s₁ _ hi hun
  have hwf₁ := hwf.congr hun.page
  have hva : va + i * PGSIZE = (va / PGSIZE + i) * PGSIZE := by
    simp only [PGSIZE] at haligned ⊢
    omega
  rw [wp_bind, hva]
  refine wp_walk_false (fun _ => hE _) fun hmax => ?_
  have hlt : va / PGSIZE + i < pageNumbers := by
    simp only [pageNumbers, MAXVA, PGSIZE] at hmax ⊢
    omega
  cases hleaf : s₁.page pt
      (.leaf (px 2 ((va / PGSIZE + i) * PGSIZE)) (px 1 ((va / PGSIZE + i) * PGSIZE))) with
  | none => exact wp_panic.mpr (hE _)
  | some leaf =>
    rw [Option.map_some]
    have htranslate : s₁.translate pt (va / PGSIZE + i) =
        ifValid (s₁.word (leaf + 8 * px 0 ((va / PGSIZE + i) * PGSIZE))) := by
      rw [Ram.translate_eq hlt, Ram.pteAt, hleaf]
      rfl
    generalize hpte : leaf + 8 * px 0 ((va / PGSIZE + i) * PGSIZE) = pte at htranslate
    dsimp only
    rw [wp_bind, wp_get]
    refine wp_ite (fun hvalid => ?_) fun hvalid => ?_
    · refine wp_pure.mpr (hun.skip ?_)
      rw [htranslate, ifValid, if_neg (by simpa using hvalid)]
    · refine wp_ite (fun _ => wp_panic.mpr (hE _)) fun _ => ?_
      rw [ifValid, if_pos (by simpa using hvalid)] at htranslate
      rw [wp_bind]
      refine wp_when (fun hfree => wp_kfree (hE _) fun s₂ hword => ?_) fun _ => ?_
      · rw [setWord, wp_modify]
        refine hun.write hlt (written_of_update hwf₁ (px_lt _ _) (px_lt _ _) (px_lt _ _) hleaf ?_)
        intro x q l hx hq hl
        -- The page that is freed is not a page of the table.
        have hne : q ≠ pte2pa (s₁.word pte) := by
          rintro rfl
          have hold : s.translate pt (va / PGSIZE + i) = some (s₁.word pte) := by
            have := hun.translate _ hlt
            rw [if_neg (by omega)] at this
            exact this.symm.trans htranslate
          exact hdata hfree _ _ x (Nat.le_add_right _ _) (by omega) hlt hold hx
            ((hun.page x hx).symm.trans hq)
        have hout : s₂.word (q + 8 * l) = s₁.word (q + 8 * l) := by
          refine hword _ fun hin => hne ?_
          exact (addr_mem (pte2pa_aligned _) (hwf₁.page_aligned hq) hl).mp hin
        rw [hpte, ← hout]
        exact update_apply _ _ _ _
      · rw [setWord, wp_modify]
        refine hun.write hlt (written_of_update hwf₁ (px_lt _ _) (px_lt _ _) (px_lt _ _) hleaf ?_)
        intro x q l _ _ _
        rw [hpte]
        exact update_apply _ _ _ _

/-! ## The map -/

/-- **A page table is a finite map.**  Reading the entry that `walk` finds is a
partial map from page numbers to entries, `walk` with allocation does not
change it, `mappages` sets and `uvmunmap` clears exactly the entries of their
range, the table stays a tree, and the page and the flags of an entry can be
read back. -/
structure RefinesMap (s : Ram) (pt : Nat) : Prop where
  lookup : ∀ va, va < MAXVA → lookup s pt va = s.translate pt (va / PGSIZE)
  walk : ∀ va r s', walk pt va true s = .ok (r, s') →
    WellFormed s' pt ∧
    ∀ v, v < pageNumbers → s'.translate pt v = s.translate pt v
  mappages : ∀ va size pa perm s', 0 < size → va + size ≤ 2 ^ 64 →
    mappages pt va size pa perm s = .ok (0, s') →
    WellFormed s' pt ∧
    ∀ v, v < pageNumbers → s'.translate pt v =
      if va / PGSIZE ≤ v ∧ v * PGSIZE < va + size then
        some (mkPte ((pa + (v - va / PGSIZE) * PGSIZE) % 2 ^ 64) perm)
      else s.translate pt v
  uvmunmap : ∀ va n doFree s', va + n * PGSIZE < 2 ^ 64 →
    (doFree = true → DataPages s pt (va / PGSIZE) n) →
    uvmunmap pt va n doFree s = .ok ((), s') →
    WellFormed s' pt ∧
    ∀ v, v < pageNumbers → s'.translate pt v =
      if va / PGSIZE ≤ v ∧ v < va / PGSIZE + n then none else s.translate pt v
  pte : ∀ pa perm, pa % PGSIZE = 0 → pa < 2 ^ 64 → perm < 1024 →
    pte2pa (mkPte pa perm) = pa ∧ pteFlags (mkPte pa perm) = perm ||| PTE_V

/-- On a well-formed page table, none of whose pages is on the free list, the
page-table functions work on a finite map. -/
theorem page_table_refines_map (hwf : WellFormed s pt) (hfresh : Fresh s pt) :
    RefinesMap s pt := by
  refine ⟨fun va hva => lookup_eq_translate hva, ?_, ?_, ?_, ?_⟩
  · intro va r s' h
    have hext : Extended s pt s' := ends_ok r s' h (wp_walk_true hwf hfresh
      (fun _ => trivial) (fun _ hext => hext) fun _ _ _ hext _ => hext)
    exact ⟨hext.wellFormed, fun v hv => hext.translate hv⟩
  · intro va size pa perm s' hsize hwrap h
    have hmapped := wp_ok (wp_mappages (E := fun _ => True) hwf hfresh hsize hwrap
      fun _ => trivial) h rfl
    refine ⟨hmapped.wellFormed, fun v hv => ?_⟩
    rw [hmapped.translate v hv]
    congr 1
    apply propext
    simp only [PGSIZE]
    omega
  · intro va n doFree s' hwrap hdata h
    have hun := wp_ok (wp_uvmunmap (E := fun _ => True) hwf hwrap hdata fun _ => trivial) h
    exact ⟨hwf.congr hun.page, hun.translate⟩
  · intro pa perm haligned hlt hperm
    exact ⟨pte2pa_mkPte_of_lt haligned hlt hperm, pteFlags_mkPte hperm⟩

/-- A page table with no entries at `0x80001000`, and three free pages. -/
def emptyRam : Ram where
  kend := 0x80001000
  freelist := [0x80002000, 0x80003000, 0x80004000]
  word := fun _ => 0

theorem page_emptyRam {x : Slot} {p : Nat} (h : emptyRam.page 0x80001000 x = some p) :
    x = .root ∧ p = 0x80001000 := by
  have hnone : ∀ page i, emptyRam.entry page i = none := by
    intro page i
    simp [Ram.entry, Ram.valid, ifValid, emptyRam, hasFlag]
  cases x with
  | root => exact ⟨rfl, (Option.some.inj h).symm⟩
  | mid i =>
    rw [Ram.page, hnone] at h
    cases h
  | leaf i j =>
    rw [Ram.page, hnone] at h
    cases h

theorem wellFormed_emptyRam : WellFormed emptyRam 0x80001000 := by
  refine ⟨by decide, fun x y p _ _ hx hy => ?_⟩
  rw [(page_emptyRam hx).1, (page_emptyRam hy).1]

theorem fresh_emptyRam : Fresh emptyRam 0x80001000 := by
  refine ⟨by decide, fun pa hpa => ?_, fun x p _ hp => ?_⟩
  · simp only [emptyRam, List.mem_cons, List.not_mem_nil, or_false] at hpa
    rcases hpa with rfl | rfl | rfl <;> exact ⟨by decide, by decide⟩
  · rw [(page_emptyRam hp).2]
    decide

/-- A table with page 1 mapped, and `uvmunmap` of that page. -/
theorem page_table_refines_map_page :
    ∃ s s', mappages 0x80001000 0x1000 4096 0x80005000 PTE_R emptyRam = .ok (0, s) ∧
      RefinesMap s 0x80001000 ∧ s.translate 0x80001000 1 = some (mkPte 0x80005000 PTE_R) ∧
      uvmunmap 0x80001000 0x1000 1 false s = .ok ((), s') ∧ s'.translate 0x80001000 1 = none := by
  have hrun : ((mappages 0x80001000 0x1000 4096 0x80005000 PTE_R emptyRam).toOption.any fun r =>
      decide (r.1 = 0 ∧ r.2.translate 0x80001000 1 = some (mkPte 0x80005000 PTE_R)) &&
        (uvmunmap 0x80001000 0x1000 1 false r.2).toOption.any fun _ => true) = true := by
    decide +kernel
  obtain ⟨⟨r, s⟩, hmap, hret⟩ := Act.ok_of_any hrun
  rw [Bool.and_eq_true, decide_eq_true_eq] at hret
  obtain ⟨⟨rfl, htranslate⟩, hunmap⟩ := hret
  obtain ⟨⟨_, s'⟩, hunmap, -⟩ := Act.ok_of_any hunmap
  have hmapped := wp_ok (wp_mappages (E := fun _ => True) wellFormed_emptyRam fresh_emptyRam
    (by decide) (by decide) fun _ => trivial) hmap rfl
  have hmaps := page_table_refines_map hmapped.wellFormed hmapped.fresh
  refine ⟨s, s', hmap, hmaps, htranslate, hunmap, ?_⟩
  exact (hmaps.uvmunmap 0x1000 1 false s' (by decide) (fun h => absurd h (by decide)) hunmap).2 1 (by decide)

/-- `mappages` of no bytes from address 1 on succeeds and maps page 0. -/
theorem mappages_empty_range : ∃ s', mappages 0x80001000 1 0 0x80004000 PTE_R emptyRam = .ok (0, s') ∧
    emptyRam.translate 0x80001000 0 = none ∧ (s'.translate 0x80001000 0).isSome = true := by
  have hrun : ((mappages 0x80001000 1 0 0x80004000 PTE_R emptyRam).toOption.any fun r =>
      decide (r.1 = 0 ∧ (r.2.translate 0x80001000 0).isSome = true)) = true := by
    decide +kernel
  obtain ⟨⟨r, s'⟩, hmap, hret⟩ := Act.ok_of_any hrun
  obtain ⟨rfl, hmapped⟩ := of_decide_eq_true hret
  exact ⟨s', hmap, by decide +kernel, hmapped⟩

end Xv6.Vm.Words
