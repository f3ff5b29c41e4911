import Mathlib.Data.Int.Basic
import Mathlib.Tactic.Common

/-!
# Hashing and comparing pointers

`hash.h` and the hash function of `milu.h`: the two functions milu gives to its record table.

A key is a pointer value. `hashPtr` looks at the value and at nothing else. `hash64Cmp` is
different: it reads the eight bytes each of its two arguments *points to*. The contents of user
memory are therefore a parameter here, as a function from addresses to words.

## Main definitions

* `hash64`, `hashPtr`, `miluHashPtr` — the multiplicative hash
* `UserMem`, `hash64Cmp` — the comparator, over the memory it reads
-/

namespace Milu

/-- What an eight-byte load at each address returns. -/
abbrev UserMem := ℕ → UInt64

/-- `hash_64`: multiply by `GOLDEN_RATIO_PRIME_64` with shifts, keep the high `bits` bits. -/
def hash64 (val : UInt64) (bits : UInt64) : UInt64 :=
  let hash := val
  let n := hash
  let n := n <<< 18
  let hash := hash - n
  let n := n <<< 33
  let hash := hash - n
  let n := n <<< 3
  let hash := hash + n
  let n := n <<< 3
  let hash := hash - n
  let n := n <<< 4
  let hash := hash + n
  let n := n <<< 2
  let hash := hash + n
  hash >>> (64 - bits)

/-- `hash_ptr`, on a platform with 64-bit longs. -/
def hashPtr (ptr : ℕ) (bits : UInt64) : UInt64 := hash64 (UInt64.ofNat ptr) bits

/-- `KEY_HASHBITS`. -/
def keyHashbits : UInt64 := 8

/-- `milu_hash_ptr`. The length is ignored. -/
def miluHashPtr (ptr : ℕ) (_len : ℕ) : ℕ := (hashPtr ptr keyHashbits).toNat

/-- `hash64_cmp`. Both pointers are followed, and the 64-bit difference of the words found there
is returned as an `int`: its low 32 bits, read as a signed number. -/
def hash64Cmp (mem : UserMem) (keyA keyB : ℕ) (size : ℕ) : ℤ :=
  if size ≠ 8 then 0
  else (mem keyA - mem keyB).toUInt32.toInt32.toInt

/-- The comparator cannot tell two pointers apart exactly when the words they point to agree in
their low 32 bits. -/
theorem hash64Cmp_eq_zero_iff (mem : UserMem) (a b : ℕ) :
    hash64Cmp mem a b 8 = 0 ↔ (mem a).toUInt32 = (mem b).toUInt32 := by
  have hint : ∀ u : UInt32, u.toInt32.toInt = 0 ↔ u = 0 := by
    intro u
    rw [← Int32.toInt_zero, Int32.toInt_inj]
    constructor
    · intro h
      exact congrArg Int32.toUInt32 h
    · rintro rfl
      rfl
  have hsub : (mem a - mem b).toUInt32 = 0 ↔ (mem a).toUInt32 = (mem b).toUInt32 := by
    simp only [← UInt32.toNat_inj, UInt64.toNat_toUInt32, UInt64.toNat_sub]
    have ha := (mem a).toNat_lt
    have hb := (mem b).toNat_lt
    change _ % 2 ^ 32 = 0 ↔ _
    omega
  rw [hash64Cmp, if_neg (by decide), hint, hsub]

theorem hash64Cmp_self (mem : UserMem) (a n : ℕ) : hash64Cmp mem a a n = 0 := by
  by_cases hn : n = 8
  · subst hn
    exact (hash64Cmp_eq_zero_iff mem a a).mpr rfl
  · simp [hash64Cmp, hn]

end Milu
