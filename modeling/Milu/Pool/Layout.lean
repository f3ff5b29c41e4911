import Milu.Pool.Slots

/-!
# Where the slots of a new pool lie

`create_pool` asks for one block of `p_sz * o_sz` bytes and steps through it slot by slot. The
product is taken in a `size_t`, and nothing checks that it fits. When it does, the slots are cut
from the block. When it does not, the block is smaller than the slots together, so some slot sticks
out of it, wherever the steps happen to wrap around.

## Main definitions

* `SlotLayout` — the slots lie in the block, apart from each other, and can be put back

## Main results

* `slot_layout_iff` — they do exactly when the product of the sizes does not wrap around
* `slot_layout_wraps` — two slots of half the address space in a block of no bytes
-/

namespace Milu

/-- A pool whose block has `size` bytes: each slot lies in the block, no two overlap, and the range
check of `pool_put_ptr` lets all of them pass. -/
structure SlotLayout (P : Pool) (size : ℕ) : Prop where
  inside : ∀ i < P.nobjs, P.poolMem ≤ P.ptr i ∧ P.ptr i + P.objSz ≤ P.poolMem + size
  disjoint : ∀ i < P.nobjs, ∀ j < P.nobjs, i ≠ j →
    P.ptr i + P.objSz ≤ P.ptr j ∨ P.ptr j + P.objSz ≤ P.ptr i
  in_range : ∀ i < P.nobjs, P.startAddr ≤ P.ptr i ∧ P.ptr i < P.endAddr

namespace SlotLayout

variable {addr pSz oSz mem entries : ℕ}

/-- A block with room for all slots, at addresses that exist. -/
theorem of_fits (hpos : 0 < oSz) (hend : mem + pSz * oSz < 2 ^ 64) :
    SlotLayout (Pool.fresh addr pSz oSz mem entries) (pSz * oSz) := by
  rw [Pool.fresh_eq addr pSz oSz entries (by omega)]
  have hslot : ∀ i < pSz, (if i < pSz then (mem + i * oSz) % 2 ^ 64 else 0) = mem + i * oSz ∧
      i * oSz + oSz ≤ pSz * oSz := by
    intro i hi
    have hle : (i + 1) * oSz ≤ pSz * oSz := Nat.mul_le_mul_right _ hi
    rw [Nat.succ_mul] at hle
    rw [if_pos hi, Nat.mod_eq_of_lt (by omega)]
    exact ⟨rfl, hle⟩
  have hordered : ∀ {i j : ℕ}, i < j → i * oSz + oSz ≤ j * oSz := by
    intro i j hij
    rw [← Nat.succ_mul]
    exact Nat.mul_le_mul_right _ hij
  refine ⟨fun i hi => ?_, fun i hi j hj hne => ?_, fun i hi => ?_⟩ <;> dsimp only at hi ⊢
  · obtain ⟨hptr, hle⟩ := hslot i hi
    rw [hptr]
    omega
  · dsimp only at hj
    rw [(hslot i hi).1, (hslot j hj).1]
    rcases Nat.lt_or_gt_of_ne hne with hij | hij
    · have := hordered hij
      omega
    · have := hordered hij
      omega
  · obtain ⟨hptr, hle⟩ := hslot i hi
    rw [hptr, Nat.mod_eq_of_lt hend]
    omega

/-- Slots that lie in a block that does not wrap around do not wrap around either, so the block has
room for all of them. -/
theorem fits {size : ℕ} (hend : mem + size < 2 ^ 64)
    (h : SlotLayout (Pool.fresh addr pSz oSz mem entries) size) : pSz * oSz ≤ size := by
  rw [Pool.fresh_eq addr pSz oSz entries (by omega)] at h
  have hinside : ∀ i < pSz, (mem + i * oSz) % 2 ^ 64 + oSz ≤ mem + size := by
    intro i hi
    have hslot := (h.inside i hi).2
    dsimp only at hslot
    rwa [if_pos hi] at hslot
  -- by induction on the slot, each of which begins where the one before ends
  have hnowrap : ∀ i ≤ pSz, mem + i * oSz ≤ mem + size := by
    intro i
    induction i with
    | zero =>
      intro _
      rw [Nat.zero_mul]
      omega
    | succ i ih =>
      intro hi
      have hstart := ih (Nat.le_of_succ_le hi)
      have hslot := hinside i hi
      rw [Nat.mod_eq_of_lt (by omega)] at hslot
      rw [Nat.succ_mul]
      omega
  have hlast := hnowrap pSz le_rfl
  omega

end SlotLayout

/-- **The slots lie in the block** that was allocated for them exactly when the product of the sizes
does not wrap around. -/
theorem slot_layout_iff {pSz oSz : ℕ} (hp : pSz < 2 ^ 16) (ho : oSz < 2 ^ 64) (hpos : 1 ≤ oSz)
    {H H' : Heap} {P : Pool}
    (h : createPool Heap.malloc Heap.free pSz oSz H = some (some P, H')) :
    P.nobjs = pSz ∧ P.objSz = oSz ∧ ⟨P.poolMem, pSz * oSz % 2 ^ 64⟩ ∈ H'.live ∧
      (SlotLayout P (pSz * oSz % 2 ^ 64) ↔ pSz * oSz < 2 ^ 64) := by
  have hcases := createPool_cases h
  rw [Nat.mod_eq_of_lt hp, Nat.mod_eq_of_lt ho] at hcases
  rcases hcases with ⟨hnone, -⟩ | ⟨addr, mem, entries, hfresh, ⟨-, hend, -⟩, hin, -⟩
  · simp at hnone
  · rw [Option.some.injEq] at hfresh
    subst hfresh
    have hspan := Block.size_le_span ⟨mem, pSz * oSz % 2 ^ 64⟩
    have hend' : mem + pSz * oSz % 2 ^ 64 < 2 ^ 64 :=
      Nat.lt_of_le_of_lt (Nat.add_le_add_left hspan _) hend
    have heq := Pool.fresh_eq addr pSz oSz entries (by omega : mem < 2 ^ 64)
    refine ⟨by rw [heq], by rw [heq], by rw [heq]; exact hin, ?_⟩
    constructor
    · intro hlayout
      exact Nat.lt_of_le_of_lt (hlayout.fits hend') (Nat.mod_lt _ (by decide))
    · intro hfits
      rw [Nat.mod_eq_of_lt hfits] at hend' ⊢
      exact .of_fits hpos hend'

theorem slot_layout_iff_page : ∃ P H',
    createPool Heap.malloc Heap.free 2 16 pageHeap = some (some P, H') ∧ SlotLayout P 32 := by
  refine ⟨_, _, rfl, ?_⟩
  exact (@slot_layout_iff 2 16 (by decide) (by decide) (by decide) pageHeap _ _ rfl).2.2.2.mpr
    (by decide)

/-- **Two slots of half the address space.** The product of the sizes is zero modulo `2 ^ 64`, and a
request for no bytes is answered. -/
theorem slot_layout_wraps : ∃ P H',
    createPool Heap.malloc Heap.free 2 (2 ^ 63) pageHeap = some (some P, H') ∧
      ¬ SlotLayout P (2 * 2 ^ 63 % 2 ^ 64) := by
  refine ⟨_, _, rfl, fun hlayout => ?_⟩
  have hfirst := (hlayout.inside 0 (by decide)).2
  exact absurd hfirst (by decide)

end Milu
