import Mathlib

/-!
# Memory cut into blocks

A block is named by its address `b` and goes to `b + len b`. `Tiling len
blocks regions` says that the blocks lie side by side in the regions and fill
them: no two overlap, and an address is in a region exactly if it is in a
block.

A tiling stays one when the blocks are listed in another order, when two that
touch are merged, when one is cut in two, and when a new region comes as one
more block.
-/

namespace Xv6.Lib

open Function

variable {len len' : Nat → Nat} {blocks blocks' : List Nat} {regions : List (Nat × Nat)}
  {a b m : Nat}

structure Tiling (len : Nat → Nat) (blocks : List Nat) (regions : List (Nat × Nat)) : Prop where
  pos : ∀ b ∈ blocks, 0 < len b
  apart : blocks.Pairwise fun a b => a + len a ≤ b ∨ b + len b ≤ a
  cover : ∀ x, (∃ r ∈ regions, r.1 ≤ x ∧ x < r.1 + r.2) ↔ ∃ b ∈ blocks, b ≤ x ∧ x < b + len b
  total : (blocks.map len).sum = (regions.map Prod.snd).sum

namespace Tiling

theorem nil (len : Nat → Nat) : Tiling len [] [] :=
  ⟨nofun, .nil, fun _ => ⟨nofun, nofun⟩, rfl⟩

section

variable (h : Tiling len blocks regions)
include h

theorem perm (hperm : blocks.Perm blocks') : Tiling len blocks' regions where
  pos b hb := h.pos b (hperm.mem_iff.mpr hb)
  apart := h.apart.perm hperm fun hab => hab.symm
  cover x := by
    rw [h.cover x]
    exact ⟨fun ⟨b, hb, hx⟩ => ⟨b, hperm.mem_iff.mp hb, hx⟩,
      fun ⟨b, hb, hx⟩ => ⟨b, hperm.mem_iff.mpr hb, hx⟩⟩
  total := by
    rw [← h.total]
    exact (hperm.map len).sum_eq.symm

theorem congr (hlen : ∀ b ∈ blocks, len' b = len b) : Tiling len' blocks regions where
  pos b hb := by
    rw [hlen b hb]
    exact h.pos b hb
  apart := h.apart.imp_of_mem fun ha hb hab => by
    rw [hlen _ ha, hlen _ hb]
    exact hab
  cover x := by
    rw [h.cover x]
    constructor
    · rintro ⟨b, hb, hx⟩
      exact ⟨b, hb, by rwa [hlen b hb]⟩
    · rintro ⟨b, hb, hx⟩
      exact ⟨b, hb, by rwa [hlen b hb] at hx⟩
  total := by
    rw [← h.total, List.map_congr_left hlen]

theorem nodup : blocks.Nodup := by
  refine h.apart.imp_of_mem fun {a b} ha _ hab heq => ?_
  have hpos := h.pos a ha
  subst heq
  omega

theorem apart_of_ne (ha : a ∈ blocks) (hb : b ∈ blocks)
    (hne : a ≠ b) : a + len a ≤ b ∨ b + len b ≤ a := by
  have : Std.Symm fun a b => a + len a ≤ b ∨ b + len b ≤ a := ⟨fun _ _ hab => hab.symm⟩
  exact h.apart.forall ha hb hne

/-- A block ends where the regions have ended. -/
theorem end_le (hb : b ∈ blocks) (hm : ∀ r ∈ regions, r.1 + r.2 ≤ m) : b + len b ≤ m := by
  have hpos := h.pos b hb
  obtain ⟨r, hr, -, hlt⟩ := (h.cover (b + len b - 1)).mpr ⟨b, hb, by omega, by omega⟩
  have hend := hm r hr
  omega

end

/-- Two blocks are no longer than everything. -/
theorem le_total (h : Tiling len (a :: b :: blocks) regions) :
    len a + len b ≤ (regions.map Prod.snd).sum := by
  rw [← h.total, List.map_cons, List.map_cons, List.sum_cons, List.sum_cons]
  omega

/-- Two blocks that touch become one. -/
theorem merge (h : Tiling len (a :: b :: blocks) regions) (htouch : a + len a = b) :
    Tiling (update len a (len a + len b)) (a :: blocks) regions := by
  have hnodup := h.nodup
  rw [List.nodup_cons, List.mem_cons, not_or] at hnodup
  have hrest : ∀ c ∈ blocks, update len a (len a + len b) c = len c := fun c hc =>
    update_of_ne (fun heq : c = a => hnodup.1.2 (heq ▸ hc)) _ _
  have hb := h.pos b (List.mem_cons_of_mem _ List.mem_cons_self)
  obtain ⟨hapartA, hapartRest⟩ := List.pairwise_cons.mp h.apart
  obtain ⟨hapartB, hapartRest⟩ := List.pairwise_cons.mp hapartRest
  refine ⟨?_, List.pairwise_cons.mpr ⟨?_, ?_⟩, ?_, ?_⟩
  · intro c hc
    rcases List.mem_cons.mp hc with rfl | hc
    · rw [update_self]
      omega
    · rw [hrest c hc]
      exact h.pos c (List.mem_cons_of_mem _ (List.mem_cons_of_mem _ hc))
  · intro c hc
    have hac := hapartA c (List.mem_cons_of_mem _ hc)
    have hbc := hapartB c hc
    have hc0 := h.pos c (List.mem_cons_of_mem _ (List.mem_cons_of_mem _ hc))
    rw [update_self, hrest c hc]
    omega
  · refine hapartRest.imp_of_mem fun hc hd hcd => ?_
    rw [hrest _ hc, hrest _ hd]
    exact hcd
  · intro x
    have hparts : (a ≤ x ∧ x < a + len a) ∨ (b ≤ x ∧ x < b + len b) ↔
        a ≤ x ∧ x < a + (len a + len b) := by
      omega
    rw [h.cover x, List.exists_mem_cons_iff, List.exists_mem_cons_iff, List.exists_mem_cons_iff,
      update_self]
    have hsame : (∃ c ∈ blocks, c ≤ x ∧ x < c + update len a (len a + len b) c) ↔
        ∃ c ∈ blocks, c ≤ x ∧ x < c + len c :=
      ⟨fun ⟨c, hc, hx⟩ => ⟨c, hc, by rwa [hrest c hc] at hx⟩,
        fun ⟨c, hc, hx⟩ => ⟨c, hc, by rwa [hrest c hc]⟩⟩
    rw [hsame, ← or_assoc, hparts]
  · rw [← h.total, List.map_cons, List.map_cons, List.map_cons, List.sum_cons, List.sum_cons,
      List.sum_cons, update_self, List.map_congr_left hrest, Nat.add_assoc]

/-- The end of a block becomes a block of its own. -/
theorem split (h : Tiling len (a :: blocks) regions) (hpos : 0 < m) (hm : m < len a) :
    Tiling (update (update len a (len a - m)) (a + (len a - m)) m)
      ((a + (len a - m)) :: a :: blocks) regions := by
  obtain ⟨c, hc⟩ : ∃ c, c = a + (len a - m) := ⟨_, rfl⟩
  rw [← hc]
  have hapartA := (List.pairwise_cons.mp h.apart).1
  have ha : update (update len a (len a - m)) c m a = len a - m := by
    rw [update_of_ne (by omega), update_self]
  have hrest : ∀ d ∈ blocks,
      update (update len a (len a - m)) c m d = len d := fun d hd => by
    have hd0 := h.pos d (List.mem_cons_of_mem _ hd)
    have had := hapartA d hd
    rw [update_of_ne (by omega), update_of_ne (by omega)]
  refine ⟨?_, ?_, ?_, ?_⟩
  · intro d hd
    rcases List.mem_cons.mp hd with rfl | hd
    · rw [update_self]
      exact hpos
    rcases List.mem_cons.mp hd with rfl | hd
    · rw [ha]
      omega
    · rw [hrest d hd]
      exact h.pos d (List.mem_cons_of_mem _ hd)
  · refine List.pairwise_cons.mpr ⟨fun d hd => ?_, List.pairwise_cons.mpr ⟨fun d hd => ?_, ?_⟩⟩
    · rw [update_self]
      rcases List.mem_cons.mp hd with rfl | hd
      · rw [ha]
        omega
      · have had := hapartA d hd
        rw [hrest d hd]
        omega
    · have had := hapartA d hd
      rw [ha, hrest d hd]
      omega
    · refine (List.pairwise_cons.mp h.apart).2.imp_of_mem fun hd he hde => ?_
      rw [hrest _ hd, hrest _ he]
      exact hde
  · intro x
    have hparts : (c ≤ x ∧ x < c + m) ∨ (a ≤ x ∧ x < a + (len a - m)) ↔
        a ≤ x ∧ x < a + len a := by
      omega
    rw [h.cover x, List.exists_mem_cons_iff, List.exists_mem_cons_iff, List.exists_mem_cons_iff,
      update_self, ha]
    have hsame : (∃ d ∈ blocks, d ≤ x ∧ x < d +
          update (update len a (len a - m)) c m d) ↔
        ∃ d ∈ blocks, d ≤ x ∧ x < d + len d :=
      ⟨fun ⟨d, hd, hx⟩ => ⟨d, hd, by rwa [hrest d hd] at hx⟩,
        fun ⟨d, hd, hx⟩ => ⟨d, hd, by rwa [hrest d hd]⟩⟩
    rw [hsame, ← or_assoc, hparts]
  · rw [← h.total, List.map_cons, List.map_cons, List.map_cons, List.sum_cons, List.sum_cons,
      List.sum_cons, update_self, ha, List.map_congr_left hrest]
    omega

/-- A new region comes as one more block. -/
theorem grow (h : Tiling len blocks regions) (hpos : 0 < m) (ha : ∀ r ∈ regions, r.1 + r.2 ≤ a) :
    Tiling (update len a m) (a :: blocks) ((a, m) :: regions) := by
  have hbelow : ∀ c ∈ blocks, c + len c ≤ a := fun c hc => h.end_le hc ha
  have hrest : ∀ c ∈ blocks, update len a m c = len c := fun c hc => by
    have hc0 := h.pos c hc
    have hle := hbelow c hc
    exact update_of_ne (by omega) _ _
  have hold := h.congr hrest
  refine ⟨?_, List.pairwise_cons.mpr ⟨fun c hc => .inr ?_, hold.apart⟩, ?_, ?_⟩
  · intro c hc
    rcases List.mem_cons.mp hc with rfl | hc
    · rw [update_self]
      exact hpos
    · exact hold.pos c hc
  · rw [hrest c hc]
    exact hbelow c hc
  · intro x
    rw [List.exists_mem_cons_iff, List.exists_mem_cons_iff, hold.cover x, update_self]
  · rw [List.map_cons, List.map_cons, List.sum_cons, List.sum_cons, hold.total, update_self]

end Tiling

end Xv6.Lib
