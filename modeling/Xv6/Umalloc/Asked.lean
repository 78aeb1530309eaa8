import Xv6.Umalloc.Alloc

/-!
# What `malloc` asks `sbrk` for

The size of a request goes through three types. `nunits` is a `uint`, and no
`nbytes` makes it wrap. `nu * sizeof(Header)` has 64 bits. `sbrk` takes an
`int`, and that is where a request of 2 ^ 31 bytes or more goes wrong: it comes
to `sbrk` as a small number or a negative one, and `morecore` writes the size
it wanted into the header all the same.

So `malloc` is right as long as it finds a block on the list or wants less than
2 ^ 31 bytes (`honest_iff_servable`).
-/

namespace Xv6.Umalloc

open Xv6.Lib Xv6.Lib.Trans Function

variable {L : Layout} {h : Heap} {w : World} {p c n nunits fuel : Nat} {us : List Nat}
variable {gaps : List (Option Nat)}

/-! ## When `sbrk` is called -/

/-- Nothing is asked for if the loop comes to a large block before `freep`. -/
theorem asks_fits (hpath : Path h.ptr p us c) (hfreep : h.freep ∉ (p :: us).dropLast)
    (hfit : nunits ≤ h.size c) : Heap.asks L nunits fuel gaps h p = [] := by
  induction fuel generalizing p us with
  | zero => rfl
  | succ fuel ih =>
    unfold Heap.asks
    split
    · rfl
    · rename_i hsmall
      cases us with
      | nil =>
        obtain rfl : p = c := hpath
        exact absurd hfit hsmall
      | cons x us =>
        rw [List.dropLast_cons_of_ne_nil (List.cons_ne_nil _ _), List.mem_cons, not_or] at hfreep
        rw [if_neg (Ne.symm hfreep.1), hpath.1]
        exact ih hpath.2 hfreep.2

/-- Without a large block the loop comes to `morecore`. -/
theorem wanted_mem_asks (L : Layout) (gaps : List (Option Nat)) (hpath : Path h.ptr p us h.freep)
    (hnone : ∀ k, h.size (h.ptr^[k] p) < nunits) (hfuel : us.length < fuel) :
    Heap.wanted nunits ∈ Heap.asks L nunits fuel gaps h p := by
  induction fuel generalizing p us with
  | zero => cases hfuel
  | succ fuel ih =>
    have hsmall : ¬nunits ≤ h.size p := Nat.not_le.mpr (hnone 0)
    unfold Heap.asks
    rw [if_neg hsmall]
    split
    · exact List.mem_cons_self
    · rename_i hne
      cases us with
      | nil => exact absurd hpath hne
      | cons x us =>
        rw [hpath.1]
        exact ih hpath.2 (fun k => hpath.1 ▸ hnone (k + 1)) (Nat.lt_of_succ_lt_succ hfuel)

/-- Some block on the list is large enough for `n` bytes. -/
def World.Fits (L : Layout) (w : World) (n : Nat) : Prop :=
  ∃ k, Heap.nunitsOf n ≤ (w.heap.init L).size ((w.heap.init L).ptr^[k] (w.heap.init L).freep)

/-- There is a block for `n` bytes, or fewer than 2 ^ 31 are wanted. -/
def World.Servable (L : Layout) (w : World) (n : Nat) : Prop :=
  w.Fits L n ∨ ((n + 15) / 16 + 1) * 16 < 2 ^ 31

theorem World.Arena.asks_iff (harena : w.Arena L) (hn : n < 2 ^ 32) :
    (∀ fuel gaps, ∀ nu ∈ w.heap.mallocAsks L fuel n gaps, nu < 2 ^ 27) ↔ w.Servable L n := by
  obtain ⟨bs, hlist, -⟩ := harena.init
  unfold World.Servable World.Fits Heap.mallocAsks
  generalize w.heap.init L = h at hlist
  obtain ⟨zs, hround, hperm⟩ := hlist.cycle.rotate hlist.freep
  have hnodup := hperm.nodup_iff.mpr (hlist.increasing.imp Nat.ne_of_lt)
  refine ⟨fun hasks => ?_, ?_⟩
  · refine or_iff_not_imp_left.mpr fun hnone => ?_
    simp only [not_exists, Nat.not_le] at hnone
    obtain ⟨us, hpath, -⟩ := hround.reach hnodup List.mem_cons_self
    have hmem := wanted_mem_asks L [] hpath (fun k => hnone (k + 1))
      (Nat.lt_succ_self _)
    exact (wanted_lt_iff hn).mp (hasks _ _ _ hmem)
  · rintro (⟨k, hfit⟩ | hsmall) fuel gaps nu hnu
    · have hmem : h.ptr^[k] h.freep ∈ L.base :: bs := by
        clear hfit
        induction k with
        | zero => exact hlist.freep
        | succ k ih =>
          rw [iterate_succ_apply']
          exact hlist.cycle.next_mem ih
      obtain ⟨us, hpath, hfreep, -⟩ := hround.reach hnodup (hperm.mem_iff.mpr hmem)
      dsimp only at hnu
      rw [asks_fits hpath hfreep hfit] at hnu
      cases hnu
    · exact eq_wanted_of_mem_asks hnu ▸ (wanted_lt_iff hn).mpr hsmall

/-! ## Requests of any size -/

/-- `malloc` of any `uint`, or `free` of a block that the program has. -/
def nextAny (L : Layout) : Event → World → Option World
  | .malloc fuel n gaps, w =>
    if n < 2 ^ 32 then
      (w.heap.malloc L fuel n gaps).map fun (heap, r) =>
        { heap, live := if r = 0 then w.live else (r, n) :: w.live }
    else none
  | .free fuel ap, w => next L (.free fuel ap) w

def Serves (L : Layout) : Event → World → Prop
  | .malloc _ n _, w => w.Servable L n
  | .free _ _, _ => True

theorem arena_reach_any {ptr size : Nat → Nat} (hlimit : L.limit < 2 ^ 32)
    (hreach : Reach (nextAny L) (Serves L) (start ptr size) w) : w.Arena L := by
  refine hreach.invariant (.inl ⟨rfl, rfl, rfl⟩) fun e s s' harena hserves hnext => ?_
  cases e with
  | malloc fuel n gaps =>
    rw [nextAny] at hnext
    split at hnext
    · rename_i hn
      obtain ⟨⟨heap, r⟩, hmalloc, heq⟩ := Option.map_eq_some_iff.mp hnext
      exact .inr (harena.malloc hlimit hn ((harena.asks_iff hn).mpr hserves fuel gaps) hmalloc
        heq.symm)
    · cases hnext
  | free fuel ap => exact .inr (harena.next (e := .free fuel ap) hlimit hnext)

/-- `malloc(n)` hands out only memory that `sbrk` gave, and passes `sbrk` the
number of bytes it wants. -/
structure World.Honest (L : Layout) (w : World) (n : Nat) : Prop where
  granted : ∀ fuel gaps heap r, w.heap.malloc L fuel n gaps = some (heap, r) → r ≠ 0 →
    ∀ a, r ≤ a → a < r + n → ∃ x ∈ heap.regions.map extent, x.1 ≤ a ∧ a < x.1 + x.2
  exact : ∀ fuel gaps, ∀ nu ∈ w.heap.mallocAsks L fuel n gaps, Heap.asked nu = (HEADER * nu : Nat)

/-- In a run of servable calls, the next call of `malloc` hands out only memory
that there is, and asks for what it wants, just when it is servable. -/
theorem honest_iff_servable {ptr size : Nat → Nat} (hlimit : L.limit < 2 ^ 32)
    (hreach : Reach (nextAny L) (Serves L) (start ptr size) w) (hn : n < 2 ^ 32) :
    w.Honest L n ↔ w.Servable L n := by
  have harena := arena_reach_any hlimit hreach
  rw [← harena.asks_iff hn]
  refine ⟨fun hhonest fuel gaps nu hnu => asked_eq_iff.mp (hhonest.exact fuel gaps nu hnu),
    fun hasks => ⟨fun fuel gaps heap r hmalloc hr a hle hlt => ?_,
      fun fuel gaps nu hnu => asked_eq_iff.mpr (hasks fuel gaps nu hnu)⟩⟩
  obtain ⟨bs, hlist, hroom⟩ := harena.malloc hlimit hn (hasks fuel gaps) hmalloc rfl
  rw [if_neg hr] at hlist hroom
  obtain ⟨hheader, hsize⟩ := hroom (r, n) List.mem_cons_self
  refine (hlist.memory.tiling.cover a).mpr
    ⟨r - HEADER, List.mem_append_right _ List.mem_cons_self, ?_⟩
  dsimp only at hheader hsize ⊢
  omega

def largeLayout : Layout := { smallLayout with limit := 0x10000000 }

/-- Two adjacent blocks of 2 ^ 30 bytes that were given back are joined, and 2 ^ 31
bytes, too many for `sbrk`, are taken from them. -/
theorem honest_iff_servable_joined :
    ∃ w, Reach (nextAny largeLayout) (Serves largeLayout) (start (fun _ => 7) (fun _ => 7)) w ∧
      w.Fits largeLayout (2 ^ 31) ∧ w.Honest largeLayout (2 ^ 31) := by
  let events : List Event := [.malloc 9 (2 ^ 30) [some 0], .malloc 9 (2 ^ 30) [some 0],
    .free 9 8208, .free 9 1073750048]
  have hrun : ((follow (nextAny largeLayout) (fun _ _ => true) events
      (start (fun _ => 7) (fun _ => 7))).any fun w =>
        let heap := w.heap.init largeLayout
        decide (Heap.nunitsOf (2 ^ 31) ≤ heap.size heap.freep)) = true := by
    decide +kernel
  have hserves : ∀ e ∈ events, ∀ w, Serves largeLayout e w := by
    intro e he w
    simp only [events, List.mem_cons, List.not_mem_nil, or_false] at he
    rcases he with rfl | rfl | rfl | rfl
    · exact .inr (by decide)
    · exact .inr (by decide)
    · trivial
    · trivial
  obtain ⟨w, hw, hfits⟩ := (Option.any_eq_true _ _).mp hrun
  have hreach := Reach.start.follow_mem hserves hw
  have hfits : w.Fits largeLayout (2 ^ 31) := ⟨0, of_decide_eq_true hfits⟩
  exact ⟨w, hreach, hfits, (honest_iff_servable (by decide) hreach (by decide)).mpr (.inl hfits)⟩

/-- `malloc(0xffffffff)` wants 2 ^ 32 + 16 bytes and asks for 16, and returns a
block all the same. -/
theorem malloc_max_dishonest : ¬(start (fun _ => 7) (fun _ => 7)).Honest smallLayout 0xffffffff := by
  intro hhonest
  have hrun : ((start (fun _ => 7) (fun _ => 7)).heap.malloc smallLayout 9 0xffffffff
      [some 0]).any (fun x => decide (x.2 = 8208 ∧ x.1.regions = [(8192, 1)])) = true := by
    decide +kernel
  obtain ⟨⟨heap, r⟩, hmalloc, hfact⟩ := (Option.any_eq_true _ _).mp hrun
  obtain ⟨rfl, hregions⟩ := of_decide_eq_true hfact
  obtain ⟨x, hx, -, hlt⟩ := hhonest.granted _ _ _ _ hmalloc (by decide) 8208 (by decide) (by decide)
  rw [hregions] at hx
  obtain rfl : x = (8192, 16) := List.mem_singleton.mp hx
  exact absurd hlt (by decide)

end Xv6.Umalloc
