import Milu.Hash
import Milu.Lib.Scatter

/-!
# The hashes are spread evenly

The shifts and sums of `hash_64` multiply by `GOLDEN_RATIO_PRIME_64`, which is odd though no prime.
Every hash is therefore the hash of the same number of words, whatever the number of bits. The same
holds of `hash_32`, which multiplies outright.

A hash of no bits shifts by the width of the word, which C leaves undefined.

## Main definitions

* `goldenRatioPrime64`, `goldenRatioPrime32`, `hash32`

## Main results

* `hash64_eq_scatter`, `hash32_eq_scatter` — both hashes are the high bits of a product
* `hash_spread` — every hash is taken equally often
-/

namespace Milu

/-- `GOLDEN_RATIO_PRIME_64`. -/
def goldenRatioPrime64 : ℕ := 0x9e37fffffffc0001

/-- `GOLDEN_RATIO_PRIME_32`. -/
def goldenRatioPrime32 : ℕ := 0x9e370001

/-- `hash_32`. The constant is an `unsigned long`, and the product is cut down to 32 bits. -/
def hash32 (val : UInt32) (bits : UInt32) : UInt32 :=
  let hash := (val.toUInt64 * UInt64.ofNat goldenRatioPrime32).toUInt32
  hash >>> (32 - bits)

/-! ### High bits of a product -/

theorem shiftLeft_eq_mul (v : UInt64) {k : ℕ} (hk : k < 64) :
    v <<< UInt64.ofNat k = v * UInt64.ofNat (2 ^ k) := by
  have hpow : 2 ^ k < 2 ^ 64 := Nat.pow_lt_pow_right (by decide) hk
  have hk' : k < 2 ^ 64 := by omega
  rw [← UInt64.toNat_inj, UInt64.toNat_shiftLeft, UInt64.toNat_mul, Nat.shiftLeft_eq,
    UInt64.toNat_ofNat_of_lt' hk', UInt64.toNat_ofNat_of_lt' hpow, Nat.mod_eq_of_lt hk]

/-- The shifts and sums are one product. -/
theorem hash64_eq (val bits : UInt64) :
    hash64 val bits = (val * UInt64.ofNat goldenRatioPrime64) >>> (64 - bits) := by
  have h18 (v : UInt64) : v <<< 18 = v * 2 ^ 18 := shiftLeft_eq_mul v (k := 18) (by decide)
  have h33 (v : UInt64) : v <<< 33 = v * 2 ^ 33 := shiftLeft_eq_mul v (k := 33) (by decide)
  have h3 (v : UInt64) : v <<< 3 = v * 2 ^ 3 := shiftLeft_eq_mul v (k := 3) (by decide)
  have h4 (v : UInt64) : v <<< 4 = v * 2 ^ 4 := shiftLeft_eq_mul v (k := 4) (by decide)
  have h2 (v : UInt64) : v <<< 2 = v * 2 ^ 2 := shiftLeft_eq_mul v (k := 2) (by decide)
  have hgolden : UInt64.ofNat goldenRatioPrime64 = 0x9e37fffffffc0001 := rfl
  simp only [hash64, h18, h33, h3, h4, h2, hgolden]
  congr 1
  grind

/-- **`hash_64` is the high bits of a product.** -/
theorem hash64_eq_scatter {val bits : UInt64} (hpos : 0 < bits.toNat) (hle : bits.toNat ≤ 64) :
    (hash64 val bits).toNat = scatter 64 goldenRatioPrime64 bits.toNat val.toNat := by
  have hshift : (64 - bits).toNat = 64 - bits.toNat := by
    rw [UInt64.toNat_sub_of_le _ _ (UInt64.le_iff_toNat_le.mpr hle)]
    rfl
  have hlt : 64 - bits.toNat < 64 := by omega
  rw [hash64_eq, UInt64.toNat_shiftRight, UInt64.toNat_mul, hshift, Nat.mod_eq_of_lt hlt,
    Nat.shiftRight_eq_div_pow, scatter]
  rfl

/-- **And `hash_32`.** -/
theorem hash32_eq_scatter {val bits : UInt32} (hpos : 0 < bits.toNat) (hle : bits.toNat ≤ 32) :
    (hash32 val bits).toNat = scatter 32 goldenRatioPrime32 bits.toNat val.toNat := by
  have hshift : (32 - bits).toNat = 32 - bits.toNat := by
    rw [UInt32.toNat_sub_of_le _ _ (UInt32.le_iff_toNat_le.mpr hle)]
    rfl
  have hlt : 32 - bits.toNat < 32 := by omega
  have hproduct : (val.toUInt64 * UInt64.ofNat goldenRatioPrime32).toUInt32.toNat =
      val.toNat * goldenRatioPrime32 % 2 ^ 32 := by
    have hgolden : (UInt64.ofNat goldenRatioPrime32).toNat = goldenRatioPrime32 := rfl
    rw [UInt64.toNat_toUInt32, UInt64.toNat_mul, UInt32.toNat_toUInt64, hgolden,
      Nat.mod_mod_of_dvd _ (pow_dvd_pow 2 (by decide))]
  rw [hash32, UInt32.toNat_shiftRight, hproduct, hshift, Nat.mod_eq_of_lt hlt,
    Nat.shiftRight_eq_div_pow, scatter]

/-- **The hashes are spread evenly.** Each of the `2 ^ bits` hashes of so many bits is the hash of
the same number of words, for `hash_64` and for `hash_32`. -/
theorem hash_spread :
    (∀ bits, 0 < bits → bits ≤ 64 → ∀ y < 2 ^ bits,
      ((Finset.range (2 ^ 64)).filter fun x =>
        (hash64 (UInt64.ofNat x) (UInt64.ofNat bits)).toNat = y).card = 2 ^ (64 - bits)) ∧
    ∀ bits, 0 < bits → bits ≤ 32 → ∀ y < 2 ^ bits,
      ((Finset.range (2 ^ 32)).filter fun x =>
        (hash32 (UInt32.ofNat x) (UInt32.ofNat bits)).toNat = y).card = 2 ^ (32 - bits) := by
  constructor
  · intro bits hpos hle y hy
    have hbits : (UInt64.ofNat bits).toNat = bits :=
      UInt64.toNat_ofNat_of_lt' (lt_of_le_of_lt hle (by decide))
    rw [← card_scatter (k := goldenRatioPrime64) (by decide) hle hy]
    refine congrArg _ (Finset.filter_congr fun x hx => ?_)
    rw [hash64_eq_scatter (by omega) (by omega), hbits,
      UInt64.toNat_ofNat_of_lt' (Finset.mem_range.mp hx)]
  · intro bits hpos hle y hy
    have hbits : (UInt32.ofNat bits).toNat = bits :=
      UInt32.toNat_ofNat_of_lt' (lt_of_le_of_lt hle (by decide))
    rw [← card_scatter (k := goldenRatioPrime32) (by decide) hle hy]
    refine congrArg _ (Finset.filter_congr fun x hx => ?_)
    rw [hash32_eq_scatter (by omega) (by omega), hbits,
      UInt32.toNat_ofNat_of_lt' (Finset.mem_range.mp hx)]

/-- The words with the hash 5 of 8 bits, and those with the hash 1 of one bit. -/
theorem hash_spread_bits :
    ((Finset.range (2 ^ 64)).filter fun x =>
        (hash64 (UInt64.ofNat x) (UInt64.ofNat 8)).toNat = 5).card = 2 ^ (64 - 8) ∧
      ((Finset.range (2 ^ 32)).filter fun x =>
        (hash32 (UInt32.ofNat x) (UInt32.ofNat 1)).toNat = 1).card = 2 ^ (32 - 1) :=
  ⟨hash_spread.1 8 (by decide) (by decide) 5 (by decide),
    hash_spread.2 1 (by decide) (by decide) 1 (by decide)⟩

end Milu
