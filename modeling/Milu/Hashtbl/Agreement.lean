import Milu.Hashtbl.Refinement
import Mathlib.Data.List.TakeWhile

/-!
# The thread-safe and the plain searches

Four functions walk a chain. `hash_table_lookup_key` compares the length of a stored key before it
compares the key; `hash_table_lookup_key_safe` leaves that out, and takes the first entry whose key
agrees with the wanted one over the length of the *stored* key. The deletions, the thread-safe one
too, search as `hash_table_lookup_key` does. The integer variants differ once more:
`hash_table_lookup_key_safe_i` refuses keys that are too long, and `hash_table_lookup_key_i` does
not.

## Main definitions

* `HashTable.Matches` — an entry of that length and key
* `Unshadowed` — no entry of another length stands in front of it and is taken for it
* `AgreeS`, `AgreeI` — what the two sets of functions owe each other

## Main results

* `lookupKeySafe_eq_lookupKey_iff` — when the two searches find the same
* `safe_agrees_iff` — when all the variants agree
* `safe_disagrees` — a stored key that is the beginning of the wanted one
-/

namespace Milu

variable {K : Type} {h : HashTable K} {key : K} {len : ℕ}

/-- The entry has the length and the key that are wanted. -/
def HashTable.Matches (h : HashTable K) (key : K) (len : ℕ) (e : HashEntry K) : Prop :=
  e.klen = len ∧ h.keycmp e.key key e.klen = 0

instance (h : HashTable K) (key : K) (len : ℕ) : DecidablePred (h.Matches key len) :=
  fun _ => inferInstanceAs (Decidable (_ ∧ _))

/-- On the chain of the bucket of the key, no entry in front of the first match has another length
and agrees with the key over that length. -/
def Unshadowed (h : HashTable K) (key : K) (len : ℕ) : Prop :=
  ∀ e ∈ (h.table (hashTableHashCode h key len)).takeWhile fun e => ¬ h.Matches key len e,
    e.klen ≠ len → h.keycmp e.key key e.klen ≠ 0

/-- The table without the entry that was found. -/
def HashTable.without (h : HashTable K) (key : K) (len : ℕ) : Option (HashEntry K) → HashTable K
  | none => h
  | some e => h.listDelInit (hashTableHashCode h key len) e

/-- The string variants agree: the two lookups find the same entry, and the thread-safe deletion
returns and removes the entry that the thread-safe lookup finds. -/
structure AgreeS (h : HashTable K) (key : K) (len : ℕ) : Prop where
  lookup : hashTableLookupKeySafeS h key len = hashTableLookupKeyS h key len
  del : hashTableDelKeySafeS h key len =
    (hashTableLookupKeySafeS h key len, h.without key len (hashTableLookupKeySafeS h key len))

/-- The integer variants agree. -/
structure AgreeI (h : HashTable K) (key : K) (len : ℕ) : Prop where
  lookup : hashTableLookupKeySafeI h key len = hashTableLookupKeyI h key len
  del : hashTableDelKeySafeI h key len =
    (hashTableLookupKeySafeI h key len, h.without key len (hashTableLookupKeySafeI h key len))

/-! ### Searches -/

theorem lookupKey_eq_find? : hashTableLookupKey h key len =
    (h.table (hashTableHashCode h key len)).find? fun e => h.Matches key len e := by
  have htest : ∀ e : HashEntry K, (e.klen == len && h.keycmp e.key key e.klen == 0) =
      decide (h.Matches key len e) := by
    intro e
    rw [Bool.eq_iff_iff, decide_eq_true_iff, HashTable.Matches]
    simp
  simp only [hashTableLookupKey, htest]

/-- **The two searches find the same** exactly when nothing in front of the match is taken for
it. -/
theorem lookupKeySafe_eq_lookupKey_iff :
    hashTableLookupKeySafe h key len = hashTableLookupKey h key len ↔ Unshadowed h key len := by
  have hweaker : ∀ e ∈ h.table (hashTableHashCode h key len),
      decide (h.Matches key len e) = true → (h.keycmp e.key key e.klen == 0) = true := by
    intro e _ he
    simpa using (of_decide_eq_true he).2
  rw [lookupKey_eq_find?, hashTableLookupKeySafe, find?_eq_find?_iff hweaker, Unshadowed]
  simp only [← decide_not, beq_eq_false_iff_ne]
  refine forall₂_congr fun e he => ⟨fun hne _ => hne, fun hne hzero => ?_⟩
  -- an entry in front of the match that has the length has another key
  have hnot : ¬ h.Matches key len e := by simpa using List.mem_takeWhile_imp he
  by_cases hlen : e.klen = len
  · exact hnot ⟨hlen, hzero⟩
  · exact hne hlen hzero

/-- A deletion returns and removes what the plain lookup finds. -/
theorem delKeySafe_eq : hashTableDelKeySafe h key len =
    (hashTableLookupKey h key len, h.without key len (hashTableLookupKey h key len)) := by
  rw [hashTableDelKeySafe]
  cases hashTableLookupKey h key len <;> rfl

/-! ### Agreement -/

/-- The deletion agrees with the thread-safe lookup once that agrees with the plain one. -/
theorem agreeS_iff : AgreeS h key len ↔ Unshadowed h key len := by
  rw [← lookupKeySafe_eq_lookupKey_iff]
  constructor
  · intro hagree
    exact hagree.lookup
  · intro heq
    refine ⟨heq, ?_⟩
    show hashTableDelKeySafe h key len =
      (hashTableLookupKeySafe h key len, h.without key len (hashTableLookupKeySafe h key len))
    rw [delKeySafe_eq, heq]

/-- **The thread-safe operations agree with the plain ones**: the string variants exactly when the
match is unshadowed; the integer variants, for a length that the table accepts, exactly then, and
for a longer one exactly when no entry matches. -/
theorem safe_agrees_iff (h : HashTable K) (key : K) (len : ℕ) :
    (AgreeS h key len ↔ Unshadowed h key len) ∧
      (AgreeI h key len ↔ if len ≤ sizeofPtr then Unshadowed h key len
        else ∀ e ∈ h.table (hashTableHashCode h key len), ¬ h.Matches key len e) := by
  refine ⟨agreeS_iff, ?_⟩
  split_ifs with hlen
  · have hnot : ¬ len > sizeofPtr := Nat.not_lt.mpr hlen
    rw [← agreeS_iff]
    constructor
    · rintro ⟨hlookup, hdel⟩
      rw [hashTableLookupKeySafeI, if_neg hnot] at hlookup hdel
      rw [hashTableDelKeySafeI, if_neg hnot] at hdel
      exact ⟨hlookup, hdel⟩
    · rintro ⟨hlookup, hdel⟩
      refine ⟨?_, ?_⟩
      · rw [hashTableLookupKeySafeI, if_neg hnot]
        exact hlookup
      · rw [hashTableLookupKeySafeI, hashTableDelKeySafeI, if_neg hnot, if_neg hnot]
        exact hdel
  · have hgt : len > sizeofPtr := Nat.lt_of_not_le hlen
    have hsafe : hashTableLookupKeySafeI h key len = none := if_pos hgt
    have hdel : hashTableDelKeySafeI h key len = (none, h) := if_pos hgt
    have hplain : hashTableLookupKeyI h key len = none ↔
        ∀ e ∈ h.table (hashTableHashCode h key len), ¬ h.Matches key len e := by
      rw [hashTableLookupKeyI, lookupKey_eq_find?, List.find?_eq_none]
      simp
    rw [← hplain]
    constructor
    · intro hagree
      exact hagree.lookup.symm.trans hsafe
    · intro hnone
      refine ⟨hsafe.trans hnone.symm, ?_⟩
      rw [hdel, hsafe]
      rfl

/-! ### A key that is the beginning of another -/

/-- `memcmp` of two strings of bytes, over the first `n`. -/
def memcmpBytes (a b : List ℕ) (n : ℕ) : ℤ := if a.take n = b.take n then 0 else 1

/-- A C library for string keys. -/
def bytesClib : Clib (List ℕ) := ⟨Clib.nearest.roundf, memcmpBytes, []⟩

/-- **The searches disagree**: in a table with the key `ab`, hashed to one bucket with `abc`, the
thread-safe lookup of `abc` finds `ab`; the plain lookup and the thread-safe deletion do not. -/
theorem safe_disagrees : ∃ (t : HashTable (List ℕ)) (H : Heap),
    (do
      match ← hashTableInit Heap.malloc bytesClib 40 (some memcmpBytes) (some fun _ _ => 0) with
      | none => return none
      | some t =>
        some <$> hashTableInsertS bytesClib t ⟨100, [], 0, false⟩ (some [97, 98]) 2) sampleHeap =
          some (some t, H) ∧
      hashTableLookupKeySafeS t [97, 98, 99] 3 = some ⟨100, [97, 98], 2, true⟩ ∧
      hashTableLookupKeyS t [97, 98, 99] 3 = none ∧
      (hashTableDelKeySafeS t [97, 98, 99] 3).1 = none ∧ ¬ AgreeS t [97, 98, 99] 3 := by
  refine ⟨_, _, rfl, rfl, rfl, rfl, fun hagree => ?_⟩
  exact absurd hagree.lookup (by decide)

end Milu
