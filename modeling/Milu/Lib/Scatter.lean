import Mathlib.Algebra.Ring.Parity
import Mathlib.Data.Nat.ModEq
import Mathlib.Data.Nat.Prime.Basic
import Mathlib.Order.Interval.Finset.Nat
import Mathlib.Tactic.Ring

/-!
# Multiplicative hashing

A word is multiplied by a constant, and the high bits of the product are the hash. When the constant
is odd the multiplication permutes the words, so each hash has the same number of words.

## Main definitions

* `scatter` — the high bits of a product

## Main results

* `mul_mod_injOn` — an odd factor permutes the words
* `card_scatter` — each hash has the same number of words
-/

/-- The high `bits` bits of `x * k`, in words of `w` bits. -/
def scatter (w k bits x : ℕ) : ℕ := x * k % 2 ^ w / 2 ^ (w - bits)

variable {w k bits : ℕ}

/-- **An odd factor permutes the words.** -/
theorem mul_mod_injOn (hk : Odd k) :
    Set.InjOn (fun x => x * k % 2 ^ w) ↑(Finset.range (2 ^ w)) := by
  intro x hx y hy hxy
  have hcoprime : (2 ^ w).gcd k = 1 := (Nat.coprime_two_left.mpr hk).pow_left w
  have hmod : x ≡ y [MOD 2 ^ w] := Nat.ModEq.cancel_right_of_coprime hcoprime hxy
  rw [Finset.coe_range, Set.mem_Iio] at hx hy
  rwa [Nat.ModEq, Nat.mod_eq_of_lt hx, Nat.mod_eq_of_lt hy] at hmod

theorem image_mul_mod (hk : Odd k) :
    (Finset.range (2 ^ w)).image (fun x => x * k % 2 ^ w) = Finset.range (2 ^ w) := by
  refine Finset.eq_of_subset_of_card_le (fun y hy => ?_) ?_
  · obtain ⟨x, -, rfl⟩ := Finset.mem_image.mp hy
    exact Finset.mem_range.mpr (Nat.mod_lt _ (Nat.two_pow_pos w))
  · rw [Finset.card_image_of_injOn (mul_mod_injOn hk)]

theorem filter_div_eq {d y n : ℕ} (hd : 0 < d) (hy : (y + 1) * d ≤ n) :
    (Finset.range n).filter (fun z => z / d = y) = Finset.Ico (y * d) ((y + 1) * d) := by
  ext z
  have hsucc : (y + 1) * d = y * d + d := by ring
  simp only [Finset.mem_filter, Finset.mem_range, Finset.mem_Ico, Nat.div_eq_iff hd]
  omega

/-- **Each hash has the same number of words.** -/
theorem card_scatter (hk : Odd k) (hbits : bits ≤ w) {y : ℕ} (hy : y < 2 ^ bits) :
    ((Finset.range (2 ^ w)).filter fun x => scatter w k bits x = y).card = 2 ^ (w - bits) := by
  have hfit : (y + 1) * 2 ^ (w - bits) ≤ 2 ^ w := by
    calc (y + 1) * 2 ^ (w - bits) ≤ 2 ^ bits * 2 ^ (w - bits) := Nat.mul_le_mul_right _ hy
      _ = 2 ^ w := by rw [← pow_add, Nat.add_sub_cancel' hbits]
  have hinj : Set.InjOn (fun x => x * k % 2 ^ w)
      ↑((Finset.range (2 ^ w)).filter fun x => scatter w k bits x = y) :=
    (mul_mod_injOn hk).mono (Finset.coe_subset.mpr (Finset.filter_subset _ _))
  have himage : ((Finset.range (2 ^ w)).filter fun x => scatter w k bits x = y).image
      (fun x => x * k % 2 ^ w) = (Finset.range (2 ^ w)).filter fun z => z / 2 ^ (w - bits) = y := by
    conv_rhs => rw [← image_mul_mod hk, Finset.filter_image]
    rfl
  rw [← Finset.card_image_of_injOn hinj, himage, filter_div_eq (Nat.two_pow_pos _) hfit,
    Nat.card_Ico, Nat.succ_mul, Nat.add_sub_cancel_left]
