import Milu.Hash
import Milu.Hashtbl.Refinement

/-!
# Pointers as keys

The table as milu sets it up: keys are pointer values, hashed by `milu_hash_ptr` and compared by
`hash64_cmp`. The hash looks at the pointer, the comparator at the eight bytes it points to. Which
entry a search returns therefore depends on user memory, and user memory changes between one
operation and the next; here it is given anew to every operation.

A resize is not misled by this. It searches for the entry it stands on, which is the first of its
chain, and an entry always matches itself. A lookup or a deletion by a client is misled as soon as
an entry further up the chain points to a word with the same low half.

## Main definitions

* `HashTable.reading` — the table in front of a given user memory
* `Unaliased` — no entry before the right one is taken for it
* `PointerRun` — the tables reached by inserts of new pointers and deletions, with the finite map
  run next to them

## Main results

* `pointerLookup_iff` — lookups and deletions answer as the map does exactly when no entry is
  aliased
-/

namespace Milu

/-- The table with a comparator that reads the user memory `mem`. -/
def HashTable.reading (h : HashTable ℕ) (mem : UserMem) : HashTable ℕ :=
  { h with keycmp := hash64Cmp mem }

/-- No entry before the entry of `p` on the chain of its bucket, or no entry of the whole chain when
`p` has none, points to a word with the same low half as the word at `p`. -/
def Unaliased (mem : UserMem) (h : HashTable ℕ) (p : ℕ) : Prop :=
  ∀ e ∈ (h.table (hashTableHashCode h p sizeofPtr)).takeWhile fun e => e.key ≠ p,
    (mem e.key).toUInt32 ≠ (mem p).toUInt32

instance (mem : UserMem) (h : HashTable ℕ) (p : ℕ) : Decidable (Unaliased mem h p) :=
  inferInstanceAs (Decidable (∀ e ∈ _, _))

/-- A table and a finite map that went through the same inserts and deletions, from
`hash_table_init` on. User memory, and the heap a resize takes its arrays from, may be different at
each operation. -/
inductive PointerRun (C : Clib ℕ) : HashTable ℕ → EntryMap ℕ → Prop
  | init {b mem H H' h} :
      hashTableInit Heap.malloc C b (some (hash64Cmp mem)) (some miluHashPtr) H =
        some (some h, H') →
      PointerRun C h fun _ => none
  | insert {h h' m mem e p H H'} : PointerRun C h m → m p = none →
      (∀ q t, m q = some t → t.addr ≠ e.addr) →
      hashTableInsertSafeI C (h.reading mem) e p sizeofPtr H = some (h', H') →
      PointerRun C h' (Function.update m p (some (e.withKey p sizeofPtr)))
  | del {h m p} (mem) : PointerRun C h m → Unaliased mem h p →
      PointerRun C (hashTableDelKeySafeI (h.reading mem) p sizeofPtr).2 (Function.update m p none)

/-! ### Lookups and deletions -/

section

variable {h : HashTable ℕ} {m : EntryMap ℕ}

theorem Holds.reading (hr : Holds sizeofPtr h m) (mem : UserMem) :
    Holds sizeofPtr (h.reading mem) m :=
  ⟨hr.placed.congr rfl rfl rfl, hr.klen_eq, hr.mem_map, hr.linked⟩

theorem Holds.reading_findable (hr : Holds sizeofPtr h m) (mem : UserMem) :
    (h.reading mem).Findable :=
  fun e he => ⟨hr.valid le_rfl he, hash64Cmp_self mem e.key e.klen⟩

/-- A search of the bucket of `p` by the words pointed to. -/
theorem Holds.find?_word_iff (hr : Holds sizeofPtr h m) (mem : UserMem) (p : ℕ)
    {test : HashEntry ℕ → Bool} (htest : ∀ t ∈ h.entries,
      test t = true ↔ (mem t.key).toUInt32 = (mem p).toUInt32) :
    (h.table (hashTableHashCode h p sizeofPtr)).find? test = m p ↔ Unaliased mem h p := by
  have hkey : (h.table (hashTableHashCode h p sizeofPtr)).find? (fun t => t.key = p) = m p :=
    hr.find?_eq fun t _ => decide_eq_true_iff
  have hchain : ∀ t ∈ h.table (hashTableHashCode h p sizeofPtr), t ∈ h.entries :=
    fun t ht => hr.placed.mem_entries ht
  rw [← hkey, find?_eq_find?_iff]
  · rw [Unaliased]
    simp only [decide_not]
    refine forall₂_congr fun t ht => ?_
    rw [← Bool.not_eq_true, htest t (hchain t ((List.takeWhile_sublist _).mem ht))]
  · intro t ht htp
    rw [htest t (hchain t ht), of_decide_eq_true htp]

theorem Holds.lookupKey_iff (hr : Holds sizeofPtr h m) (mem : UserMem) (p : ℕ) :
    hashTableLookupKey (h.reading mem) p sizeofPtr = m p ↔ Unaliased mem h p := by
  refine hr.find?_word_iff mem p fun t ht => ?_
  rw [Bool.and_eq_true, beq_iff_eq, beq_iff_eq, hr.klen_eq t ht]
  exact (and_iff_right rfl).trans (hash64Cmp_eq_zero_iff mem t.key p)

theorem Holds.lookupKeySafeI_iff (hr : Holds sizeofPtr h m) (mem : UserMem) (p : ℕ) :
    hashTableLookupKeySafeI (h.reading mem) p sizeofPtr = m p ↔ Unaliased mem h p := by
  rw [hashTableLookupKeySafeI, if_neg (Nat.lt_irrefl _)]
  refine hr.find?_word_iff mem p fun t ht => ?_
  rw [beq_iff_eq, hr.klen_eq t ht]
  exact hash64Cmp_eq_zero_iff mem t.key p

theorem Holds.delKeySafeI_iff (hr : Holds sizeofPtr h m) (mem : UserMem) (p : ℕ) :
    (hashTableDelKeySafeI (h.reading mem) p sizeofPtr).1 = m p ↔ Unaliased mem h p := by
  have hanswer : (hashTableDelKeySafeI (h.reading mem) p sizeofPtr).1 =
      hashTableLookupKey (h.reading mem) p sizeofPtr := by
    rw [hashTableDelKeySafeI, if_neg (Nat.lt_irrefl _), hashTableDelKeySafe]
    cases hashTableLookupKey (h.reading mem) p sizeofPtr with
    | none => rfl
    | some e => rfl
  rw [hanswer]
  exact hr.lookupKey_iff mem p

end

/-! ### Runs -/

/-- The run lemma, by induction on the run with `Holds` as the invariant. -/
theorem PointerRun.holds {C : Clib ℕ} {h : HashTable ℕ} {m : EntryMap ℕ} (hrun : PointerRun C h m) :
    Holds sizeofPtr h m := by
  induction hrun with
  | init hinit =>
    obtain ⟨tableMem, bucketLocks, rfl⟩ := eq_fresh_of_hashTableInit hinit
    exact holds_fresh C _ _ _ miluHashPtr tableMem bucketLocks
  | insert _ hkey haddr hins ih =>
    exact (ih.reading _).insertSafeI (ih.reading_findable _) le_rfl hkey haddr hins
  | del mem _ hok ih =>
    rw [hashTableDelKeySafeI, if_neg (Nat.lt_irrefl _)]
    exact ((ih.reading mem).delKeySafe ((ih.lookupKey_iff mem _).mpr hok)).2

/-- **Lookups and deletions identify a block by its address** exactly when no entry before the right
one points to a word with the same low half. -/
theorem pointerLookup_iff {C : Clib ℕ} {h : HashTable ℕ} {m : EntryMap ℕ} (hrun : PointerRun C h m)
    (mem : UserMem) (p : ℕ) :
    (hashTableLookupKeyI (h.reading mem) p sizeofPtr = m p ∧
        hashTableLookupKeySafeI (h.reading mem) p sizeofPtr = m p ∧
        (hashTableDelKeySafeI (h.reading mem) p sizeofPtr).1 = m p) ↔ Unaliased mem h p := by
  have hr := hrun.holds
  constructor
  · rintro ⟨hlookup, -, -⟩
    exact (hr.lookupKey_iff mem p).mp hlookup
  · intro hok
    exact ⟨(hr.lookupKey_iff mem p).mpr hok, (hr.lookupKeySafeI_iff mem p).mpr hok,
      (hr.delKeySafeI_iff mem p).mpr hok⟩

/-- A table with milu's comparator and hash function, made in `sampleHeap` for forty entries. -/
def pointerTable : HashTable ℕ :=
  HashTable.fresh Clib.nearest 40 (hash64Cmp fun _ => 0) miluHashPtr 1048576 2097152

/-- `pointerTable` after an insert of the pointer `4096`. -/
def onePointer : HashTable ℕ :=
  pointerTable.insertAt (hashTableHashCode pointerTable 4096 8) ⟨100, 4096, 8, false⟩

/-- `pointerTable` after inserts of the pointers `4096` and `4240`, which fall into one bucket. -/
def twoPointers : HashTable ℕ :=
  onePointer.insertAt (hashTableHashCode onePointer 4240 8) ⟨200, 4240, 8, false⟩

/-- The map after the same inserts. -/
def twoPointersMap : EntryMap ℕ :=
  Function.update (Function.update (fun _ => none) 4096 (some ⟨100, 4096, 8, false⟩)) 4240
    (some ⟨200, 4240, 8, false⟩)

theorem twoPointers_run : PointerRun Clib.nearest twoPointers twoPointersMap := by
  have hinit : hashTableInit Heap.malloc Clib.nearest 40 (some (hash64Cmp fun _ => 0))
      (some miluHashPtr) sampleHeap =
        some (some pointerTable, (sampleHeap.afterMalloc 3880).afterMalloc 3880) := rfl
  have hfirst : hashTableInsertSafeI Clib.nearest (pointerTable.reading fun _ => 0)
      ⟨100, 0, 0, false⟩ 4096 8 sampleHeap = some (onePointer, sampleHeap) := rfl
  have hsecond : hashTableInsertSafeI Clib.nearest (onePointer.reading fun _ => 0)
      ⟨200, 0, 0, false⟩ 4240 8 sampleHeap = some (twoPointers, sampleHeap) := rfl
  refine .insert (.insert (.init hinit) rfl (by simp) hfirst) rfl ?_ hsecond
  intro q t hq
  by_cases hq' : q = 4096
  · subst hq'
    rw [Function.update_self, Option.some.injEq] at hq
    rw [← hq]
    decide
  · rw [Function.update_of_ne hq'] at hq
    simp at hq

/-- With each address holding itself, nothing is aliased. -/
theorem pointerLookup_iff_twoPointers :
    hashTableLookupKeyI (twoPointers.reading UInt64.ofNat) 4096 8 = twoPointersMap 4096 ∧
      hashTableLookupKeySafeI (twoPointers.reading UInt64.ofNat) 4096 8 = twoPointersMap 4096 ∧
      (hashTableDelKeySafeI (twoPointers.reading UInt64.ofNat) 4096 8).1 = twoPointersMap 4096 :=
  (pointerLookup_iff twoPointers_run UInt64.ofNat 4096).mpr (by decide +kernel)

/-- **A wrong match.** In a memory full of zeros a lookup of `4096` answers with the entry of
`4240`. -/
theorem pointerLookup_aliased : PointerRun Clib.nearest twoPointers twoPointersMap ∧
    twoPointersMap 4096 = some ⟨100, 4096, 8, false⟩ ∧
    hashTableLookupKeyI (twoPointers.reading fun _ => 0) 4096 8 = some ⟨200, 4240, 8, false⟩ ∧
    hashTableLookupKeySafeI (twoPointers.reading fun _ => 0) 4096 8 =
      some ⟨200, 4240, 8, false⟩ ∧
    (hashTableDelKeySafeI (twoPointers.reading fun _ => 0) 4096 8).1 =
      some ⟨200, 4240, 8, false⟩ :=
  ⟨twoPointers_run, by decide +kernel, by decide +kernel, by decide +kernel, by decide +kernel⟩

end Milu
