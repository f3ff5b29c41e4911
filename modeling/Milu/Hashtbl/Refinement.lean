import Milu.Hashtbl.Resize
import Mathlib.Tactic.IntervalCases

/-!
# The table is a finite map

What the table is for: a map from keys to entries. The operations of the map are stated here on
their own, with no buckets, hashes or thresholds, and the table is shown to answer every sequence
of inserts, lookups and deletions as the map does. Resizes happen inside inserts, when the private
counter says so and when the allocator allows it; the map does not know about them.

## Main definitions

* `EntryMap`, `MapOp`, `EntryMap.apply`, `EntryMap.run` — the abstract map
* `MapOp.run`, `runOps` — the same operations on the table
* `Holds` — the table holds exactly the entries of the map
* `Represents` — the same, and the comparator tells the keys apart

## Main results

* `Holds.find?_eq` — what a search by key answers
* `Represents.run` — one operation: same answer, and the relation is kept
* `Represents.runOps`, `hashTable_refines_map` — any run
-/

namespace Milu

variable {K : Type}

/-! ### The abstract map -/

/-- A finite map from keys to entries. -/
abbrev EntryMap (K : Type) := K → Option (HashEntry K)

/-- An operation on the map. `insert e key` puts the struct at `e.addr` under `key`. -/
inductive MapOp (K : Type)
  | insert (e : HashEntry K) (key : K)
  | lookup (key : K)
  | del (key : K)

/-- The entry struct as `hash_entry_init` leaves it for an integer key of length `len`. -/
def HashEntry.withKey (e : HashEntry K) (key : K) (len : ℕ) : HashEntry K :=
  { e with skey := false, key := key, klen := len }

/-- The map after an operation, and the answer. -/
def EntryMap.apply [DecidableEq K] (len : ℕ) (m : EntryMap K) : MapOp K →
    EntryMap K × Option (HashEntry K)
  | .insert e key => (Function.update m key (some (e.withKey key len)), none)
  | .lookup key => (m, m key)
  | .del key => (Function.update m key none, m key)

/-- A run of the map: where it ends, and all the answers. -/
def EntryMap.run [DecidableEq K] (len : ℕ) :
    EntryMap K → List (MapOp K) → EntryMap K × List (Option (HashEntry K))
  | m, [] => (m, [])
  | m, op :: ops =>
    let (m, r) := m.apply len op
    let (m, rs) := m.run len ops
    (m, r :: rs)

/-- What a caller owes: a new key, and a struct that is not in the map. -/
def MapOp.Legal (m : EntryMap K) : MapOp K → Prop
  | .insert e key => m key = none ∧ ∀ k t, m k = some t → t.addr ≠ e.addr
  | _ => True

/-- Every operation of the run is legal where it happens. -/
def EntryMap.LegalRun [DecidableEq K] (len : ℕ) : EntryMap K → List (MapOp K) → Prop
  | _, [] => True
  | m, op :: ops => op.Legal m ∧ EntryMap.LegalRun len (m.apply len op).1 ops

/-! ### The same operations on the table -/

/-- The thread-safe integer variants, by one thread, with keys of length `len`. -/
def MapOp.run (C : Clib K) (len : ℕ) (h : HashTable K) :
    MapOp K → HeapM (HashTable K × Option (HashEntry K))
  | .insert e key => do
    let h ← hashTableInsertSafeI C h e key len
    return (h, none)
  | .lookup key => return (h, hashTableLookupKeySafeI h key len)
  | .del key =>
    let (e, h) := hashTableDelKeySafeI h key len
    return (h, e)

/-- A run of the table: where it ends, and all the answers. -/
def runOps (C : Clib K) (len : ℕ) :
    HashTable K → List (MapOp K) → HeapM (HashTable K × List (Option (HashEntry K)))
  | h, [] => return (h, [])
  | h, op :: ops => do
    let (h, r) ← op.run C len h
    let (h, rs) ← runOps C len h ops
    return (h, r :: rs)

/-! ### The relation between the two -/

/-- The table holds exactly the entries of the map, each under its own key of length `len`. -/
structure Holds (len : ℕ) (h : HashTable K) (m : EntryMap K) : Prop where
  placed : h.Placed
  klen_eq : ∀ e ∈ h.entries, e.klen = len
  mem_map : ∀ e ∈ h.entries, m e.key = some e
  linked : ∀ key e, m key = some e → e ∈ h.entries ∧ e.key = key

/-- The table holds the map, and its comparator is exact on keys of the length in use. -/
structure Represents (len : ℕ) (h : HashTable K) (m : EntryMap K) : Prop extends Holds len h m where
  keycmp_iff : ∀ a b, h.keycmp a b len = 0 ↔ a = b

theorem hashEntryInit_int {C : Clib K} (e : HashEntry K) (key : K) {len : ℕ}
    (hlen : len ≤ sizeofPtr) (H : Heap) :
    hashEntryInit C.null Heap.malloc e (.int key) len H = some ((0, e.withKey key len), H) := by
  rw [hashEntryInit, if_neg (Nat.not_lt.mpr hlen)]
  rfl

theorem hashTableInsertSafeI_keycmp {C : Clib K} {h h' : HashTable K} (hp : h.Placed)
    (hf : h.Findable) {e : HashEntry K} {key : K} {len : ℕ} (hlen : len ≤ sizeofPtr) {H H' : Heap}
    (hins : hashTableInsertSafeI C h e key len H = some (h', H')) : h'.keycmp = h.keycmp := by
  rw [hashTableInsertSafeI, HeapM.bind_apply (hashEntryInit_int e key hlen H)] at hins
  obtain ⟨h₁, rfl, rfl | ⟨-, hm⟩⟩ := hashTableInsertSafe_cases hp hf hins
  · exact HashTable.insertAt_keycmp ..
  · rw [HashTable.insertAt_keycmp, hm.keycmp]

namespace Holds

variable {len : ℕ} {h : HashTable K} {m : EntryMap K}

theorem mem_entries_iff (hr : Holds len h m) (e : HashEntry K) :
    e ∈ h.entries ↔ ∃ key, m key = some e :=
  ⟨fun he => ⟨e.key, hr.mem_map e he⟩, fun ⟨key, hk⟩ => (hr.linked key e hk).1⟩

theorem valid (hr : Holds len h m) (hlen : len ≤ sizeofPtr) {e : HashEntry K}
    (he : e ∈ h.entries) : e.Valid :=
  .inr (by rw [hr.klen_eq e he]; exact hlen)

/-- Any search of a key's bucket that accepts exactly the entries with that key answers as the map
does. -/
theorem find?_eq (hr : Holds len h m) {key : K} {p : HashEntry K → Bool}
    (hp : ∀ t ∈ h.entries, p t = true ↔ t.key = key) :
    (h.table (hashTableHashCode h key len)).find? p = m key := by
  have hfound : ∀ t ∈ h.table (hashTableHashCode h key len), p t = true → m key = some t := by
    intro t ht hpt
    have hmem := hr.placed.mem_entries ht
    rw [← (hp t hmem).mp hpt]
    exact hr.mem_map t hmem
  cases hm : m key with
  | none =>
    refine List.find?_eq_none.mpr fun t ht hpt => ?_
    rw [hfound t ht hpt] at hm
    simp at hm
  | some e =>
    obtain ⟨hmem, hkey⟩ := hr.linked key e hm
    have hhome : e ∈ h.table (hashTableHashCode h key len) := by
      have := hr.placed.mem_home hmem
      rwa [HashTable.home, hr.klen_eq e hmem, hkey] at this
    cases hf : (h.table (hashTableHashCode h key len)).find? p with
    | none => exact absurd ((hp e hmem).mpr hkey) (List.find?_eq_none.mp hf e hhome)
    | some t =>
      have ht := hfound t (List.mem_of_find?_eq_some hf) (List.find?_some hf)
      rw [hm] at ht
      exact ht.symm

theorem insertAt [DecidableEq K] (hr : Holds len h m) {e : HashEntry K} {key : K}
    (hkey : m key = none) (haddr : ∀ k t, m k = some t → t.addr ≠ e.addr) :
    Holds len (h.insertAt (h.home (e.withKey key len)) (e.withKey key len))
      (Function.update m key (some (e.withKey key len))) := by
  set e' := e.withKey key len with he'
  have hnew : ∀ t ∈ h.entries, t.addr ≠ e'.addr := fun t ht => haddr t.key t (hr.mem_map t ht)
  have hperm := h.entries_insertAt (HashTable.home_lt hr.placed.buckets_pos e') e'
  have hmem : ∀ t, t ∈ (h.insertAt (h.home e') e').entries ↔ t = e' ∨ t ∈ h.entries := by
    intro t
    rw [hperm.mem_iff, List.mem_cons]
  refine ⟨hr.placed.insertAt hnew, fun t ht => ?_, fun t ht => ?_, fun k t hk => ?_⟩
  · rcases (hmem t).mp ht with rfl | ht
    · rfl
    · exact hr.klen_eq t ht
  · rcases (hmem t).mp ht with rfl | hold
    · exact Function.update_self ..
    · have hne : t.key ≠ key := by
        intro hk
        rw [← hk, hr.mem_map t hold] at hkey
        simp at hkey
      rw [Function.update_of_ne hne]
      exact hr.mem_map t hold
  · by_cases hkk : k = key
    · subst hkk
      rw [Function.update_self, Option.some.injEq] at hk
      subst hk
      exact ⟨(hmem _).mpr (.inl rfl), rfl⟩
    · rw [Function.update_of_ne hkk] at hk
      obtain ⟨hl, hlk⟩ := hr.linked k t hk
      exact ⟨(hmem t).mpr (.inr hl), hlk⟩

/-- A migration is invisible. -/
theorem migrated {C : Clib K} {h' : HashTable K} (hr : Holds len h m)
    (hm : HashTable.Migrated C h h') : Holds len h' m := by
  have hmem : ∀ e, e ∈ h'.entries ↔ e ∈ h.entries := fun e => hm.entries_perm.mem_iff
  refine ⟨hm.placed hr.placed.nodup, fun e he => hr.klen_eq e ((hmem e).mp he),
    fun e he => hr.mem_map e ((hmem e).mp he), fun key e hk => ?_⟩
  exact ⟨(hmem e).mpr (hr.linked key e hk).1, (hr.linked key e hk).2⟩

theorem insertSafeI [DecidableEq K] (hr : Holds len h m) (hf : h.Findable)
    (hlen : len ≤ sizeofPtr) {C : Clib K} {e : HashEntry K} {key : K} (hkey : m key = none)
    (haddr : ∀ k t, m k = some t → t.addr ≠ e.addr) {h' : HashTable K} {H H' : Heap}
    (hins : hashTableInsertSafeI C h e key len H = some (h', H')) :
    Holds len h' (Function.update m key (some (e.withKey key len))) := by
  rw [hashTableInsertSafeI, HeapM.bind_apply (hashEntryInit_int e key hlen H)] at hins
  obtain ⟨h₁, rfl, rfl | ⟨-, hm⟩⟩ := hashTableInsertSafe_cases hr.placed hf hins
  · exact hr.insertAt hkey haddr
  · exact (hr.migrated hm).insertAt hkey haddr

/-- A deletion whose search answers as the map does returns that answer and unlinks the entry. -/
theorem delKeySafe [DecidableEq K] (hr : Holds len h m) {key : K}
    (hlookup : hashTableLookupKey h key len = m key) :
    (hashTableDelKeySafe h key len).1 = m key ∧
      Holds len (hashTableDelKeySafe h key len).2 (Function.update m key none) := by
  rcases hashTableDelKeySafe_spec hr.placed key len with
    ⟨h₁, hl, h₂⟩ | ⟨e, hl, h₁, h₂, hplaced, hperm⟩
  · rw [hlookup] at hl
    rw [h₁, h₂, hl]
    refine ⟨rfl, ?_⟩
    rw [← hl, Function.update_eq_self]
    exact hr
  · rw [hlookup] at hl
    rw [h₁, hl]
    refine ⟨rfl, hplaced, fun t ht => ?_, fun t ht => ?_, fun k t hk => ?_⟩
    · exact hr.klen_eq t (hperm.subset (List.mem_cons_of_mem _ ht))
    · have hmem := hperm.subset (List.mem_cons_of_mem _ ht)
      have hne : t.key ≠ key := by
        rintro rfl
        rw [hr.mem_map t hmem, Option.some.injEq] at hl
        subst hl
        have hnodup := (hperm.map HashEntry.addr).nodup_iff.mpr hr.placed.nodup
        exact (List.nodup_cons.mp hnodup).1 (List.mem_map.mpr ⟨t, ht, rfl⟩)
      rw [Function.update_of_ne hne, hr.mem_map t hmem]
    · have hkk : k ≠ key := by
        rintro rfl
        simp at hk
      rw [Function.update_of_ne hkk] at hk
      obtain ⟨hmem, hkey⟩ := hr.linked k t hk
      rcases List.mem_cons.mp (hperm.symm.subset hmem) with rfl | ht
      · exact absurd (hkey.symm.trans (hr.linked key t hl).2) hkk
      · exact ⟨ht, hkey⟩

end Holds

namespace Represents

variable {len : ℕ} {h : HashTable K} {m : EntryMap K}

theorem findable (hr : Represents len h m) (hlen : len ≤ sizeofPtr) : h.Findable := by
  intro e he
  rw [hr.klen_eq e he]
  exact ⟨hr.valid hlen he, (hr.keycmp_iff _ _).mpr rfl⟩

theorem lookupKeySafeI (hr : Represents len h m) (hlen : len ≤ sizeofPtr) (key : K) :
    hashTableLookupKeySafeI h key len = m key := by
  rw [hashTableLookupKeySafeI, if_neg (Nat.not_lt.mpr hlen)]
  refine hr.find?_eq fun t ht => ?_
  rw [beq_iff_eq, hr.klen_eq t ht]
  exact hr.keycmp_iff _ _

theorem lookupKey (hr : Represents len h m) (key : K) : hashTableLookupKey h key len = m key := by
  refine hr.find?_eq fun t ht => ?_
  rw [Bool.and_eq_true, beq_iff_eq, beq_iff_eq, hr.klen_eq t ht, hr.keycmp_iff]
  exact and_iff_right rfl

theorem delKeySafeI [DecidableEq K] (hr : Represents len h m) (hlen : len ≤ sizeofPtr) (key : K) :
    (hashTableDelKeySafeI h key len).1 = m key ∧
      Represents len (hashTableDelKeySafeI h key len).2 (Function.update m key none) := by
  rw [hashTableDelKeySafeI, if_neg (Nat.not_lt.mpr hlen)]
  obtain ⟨hanswer, hholds⟩ := hr.delKeySafe (hr.lookupKey key)
  obtain ⟨t, ht⟩ := hashTableDelKeySafe_withTable h key len
  exact ⟨hanswer, hholds, by rw [ht]; exact hr.keycmp_iff⟩

theorem insertSafeI [DecidableEq K] (hr : Represents len h m) (hlen : len ≤ sizeofPtr)
    {C : Clib K} {e : HashEntry K} {key : K} (hkey : m key = none)
    (haddr : ∀ k t, m k = some t → t.addr ≠ e.addr) {h' : HashTable K} {H H' : Heap}
    (hins : hashTableInsertSafeI C h e key len H = some (h', H')) :
    Represents len h' (Function.update m key (some (e.withKey key len))) := by
  refine ⟨hr.toHolds.insertSafeI (hr.findable hlen) hlen hkey haddr hins, ?_⟩
  rw [hashTableInsertSafeI_keycmp hr.placed (hr.findable hlen) hlen hins]
  exact hr.keycmp_iff

/-- **One operation.** It returns, with the answer of the map, and the table goes on representing
the map. -/
theorem run [DecidableEq K] (hr : Represents len h m) (hlen : len ≤ sizeofPtr)
    (hlt : h.buckets < 2 ^ 32) (C : Clib K) {op : MapOp K} (hlegal : op.Legal m) {H : Heap}
    (hgrowth : ∀ e key, op = .insert e key → h.resizeThreshold ≤ h.usedBuckets → h.Gets C H →
      hashtblSz C (h.resizeThreshold * 2 % 2 ^ 32) < 2 ^ 31) :
    ∃ h' H', op.run C len h H = some ((h', (m.apply len op).2), H') ∧
      Represents len h' (m.apply len op).1 := by
  cases op with
  | lookup key =>
    exact ⟨h, H, by rw [MapOp.run, hr.lookupKeySafeI hlen]; rfl, hr⟩
  | del key =>
    obtain ⟨h₁, h₂⟩ := hr.delKeySafeI hlen key
    exact ⟨(hashTableDelKeySafeI h key len).2, H, by rw [EntryMap.apply, ← h₁]; rfl, h₂⟩
  | insert e key =>
    obtain ⟨hkey, haddr⟩ := hlegal
    obtain ⟨h', H', hins⟩ := hashTableInsertSafe_returns C hr.placed
      (hr.findable hlen).reflexive hlt (e.withKey key len) (H := H) fun hused hgets =>
        (hgrowth e key rfl hused hgets).le.trans (by decide)
    have hinsI : hashTableInsertSafeI C h e key len H = some (h', H') := by
      rw [hashTableInsertSafeI, HeapM.bind_apply (hashEntryInit_int e key hlen H)]
      exact hins
    refine ⟨h', H', ?_, hr.insertSafeI hlen hkey haddr hinsI⟩
    rw [MapOp.run, HeapM.bind_apply hinsI]
    rfl

end Represents

theorem holds_fresh (C : Clib K) (b len : ℕ) (keycmp : K → K → ℕ → ℤ) (hashFn : K → ℕ → ℕ)
    (tableMem bucketLocks : ℕ) :
    Holds len (HashTable.fresh C b keycmp hashFn tableMem bucketLocks) fun _ => none := by
  have hnil := entries_fresh C b keycmp hashFn tableMem bucketLocks
  refine ⟨placed_fresh C b keycmp hashFn tableMem bucketLocks, ?_, ?_, by simp⟩ <;> simp [hnil]

theorem represents_fresh (C : Clib K) (b len : ℕ) {keycmp : K → K → ℕ → ℤ}
    (hcmp : ∀ a c, keycmp a c len = 0 ↔ a = c) (hashFn : K → ℕ → ℕ) (tableMem bucketLocks : ℕ) :
    Represents len (HashTable.fresh C b keycmp hashFn tableMem bucketLocks) fun _ => none :=
  ⟨holds_fresh C b len keycmp hashFn tableMem bucketLocks, hcmp⟩

/-! ### Whole runs -/

/-- No table of the run has `2 ^ 31` buckets or more: neither one that is met along it, nor one that
an insert sets up in a resize. -/
def SmallRun (C : Clib K) (len : ℕ) (h : HashTable K) (ops : List (MapOp K)) (H : Heap) : Prop :=
  ∀ pre post h' rs H', ops = pre ++ post → runOps C len h pre H = some ((h', rs), H') →
    h'.buckets < 2 ^ 31 ∧ ∀ e key, post.head? = some (.insert e key) →
      h'.resizeThreshold ≤ h'.usedBuckets → h'.Gets C H' →
        hashtblSz C (h'.resizeThreshold * 2 % 2 ^ 32) < 2 ^ 31

/-- The run lemma, by induction on the operations with `Represents` as the invariant. -/
theorem Represents.runOps [DecidableEq K] {len : ℕ} (hlen : len ≤ sizeofPtr) (C : Clib K) :
    ∀ {ops : List (MapOp K)} {h : HashTable K} {m : EntryMap K} {H : Heap},
      Represents len h m → EntryMap.LegalRun len m ops → SmallRun C len h ops H →
        ∃ h' H', Milu.runOps C len h ops H = some ((h', (m.run len ops).2), H') ∧
          Represents len h' (m.run len ops).1
  | [], h, m, H, hr, _, _ => ⟨h, H, rfl, hr⟩
  | op :: ops, h, m, H, hr, ⟨hlegal, hrest⟩, hsmall => by
    obtain ⟨hbuckets, hgrowth⟩ := hsmall [] (op :: ops) h [] H rfl rfl
    have hlt : h.buckets < 2 ^ 32 := Nat.lt_trans hbuckets (by decide)
    obtain ⟨h₁, H₁, hop, hnext⟩ := hr.run hlen hlt C hlegal (H := H) fun e key hins =>
      hgrowth e key (congrArg some hins)
    have hsmall' : SmallRun C len h₁ ops H₁ := by
      intro pre post h' rs H' hsplit hrun
      refine hsmall (op :: pre) post h' ((m.apply len op).2 :: rs) H' (by simp [hsplit]) ?_
      rw [Milu.runOps, HeapM.bind_apply hop]
      dsimp only
      rw [HeapM.bind_apply hrun]
      rfl
    obtain ⟨h', H', hrun, hr'⟩ := Represents.runOps hlen C hnext hrest hsmall'
    refine ⟨h', H', ?_, hr'⟩
    rw [Milu.runOps, HeapM.bind_apply hop]
    dsimp only
    rw [HeapM.bind_apply hrun]
    rfl

/-- **The table refines a finite map.** From `hash_table_init` on, whatever the initial size, the
hash function, the exact comparator and the fate of every allocation, a run of inserts of new keys,
lookups and deletions returns, each lookup and deletion answers as the map does, and the entries
linked in the table are those of the map. -/
theorem hashTable_refines_map [DecidableEq K] (C : Clib K) (hashFn : K → ℕ → ℕ)
    (keycmp : K → K → ℕ → ℤ) {len : ℕ} (hcmp : ∀ a b, keycmp a b len = 0 ↔ a = b)
    (hlen : len ≤ sizeofPtr) (b : ℕ) {H₀ H : Heap} {h : HashTable K}
    (hinit : hashTableInit Heap.malloc C b (some keycmp) (some hashFn) H₀ = some (some h, H))
    {ops : List (MapOp K)} (hlegal : EntryMap.LegalRun len (fun _ => none) ops)
    (hsmall : SmallRun C len h ops H) :
    ∃ h' H', runOps C len h ops H = some ((h', (EntryMap.run len (fun _ => none) ops).2), H') ∧
      ∀ e, e ∈ h'.entries ↔ ∃ key, (EntryMap.run len (fun _ => none) ops).1 key = some e := by
  obtain ⟨tableMem, bucketLocks, rfl⟩ := eq_fresh_of_hashTableInit hinit
  have hfresh := represents_fresh C (b % 2 ^ 32) len hcmp hashFn tableMem bucketLocks
  obtain ⟨h', H', hrun, hr⟩ := Represents.runOps hlen C hfresh hlegal hsmall
  exact ⟨h', H', hrun, hr.mem_entries_iff⟩

/-- A heap whose allocator answers the `k`-th request with megabyte `k + 1`. -/
def sampleHeap : Heap where
  live := []
  apart := .nil
  reply k := some (1048576 * (k + 1))
  asked := 0
  refused := 0
  freed := []

/-- `sampleHeap` once `hash_table_init` has been granted two arrays of 97 elements. -/
def tightHeap : Heap := (sampleHeap.afterMalloc 3880).afterMalloc 3880

/-- The table `hash_table_init` makes in `sampleHeap` for forty entries. -/
def sampleTable : HashTable ℕ :=
  HashTable.fresh Clib.nearest 40 (fun a b _ => a - b) (fun key _ => key) 1048576 2097152

/-- The table it makes for one entry. -/
def tightTable : HashTable ℕ :=
  HashTable.fresh Clib.nearest 1 (fun a b _ => a - b) (fun key _ => key) 1048576 2097152

theorem tightTable_init : hashTableInit Heap.malloc Clib.nearest 1 (some fun a b _ => a - b)
    (some fun key _ => key) sampleHeap = some (some tightTable, tightHeap) := rfl

/-- Two inserts into bucket 5, the second of which finds the table full, then lookups of both keys
around a deletion. -/
def sampleOps : List (MapOp ℕ) :=
  [.insert ⟨100, 0, 0, false⟩ 5, .insert ⟨200, 0, 0, false⟩ 102, .lookup 5, .del 102, .lookup 102]

theorem sampleOps_legal : EntryMap.LegalRun 8 (fun _ => none) sampleOps := by
  refine ⟨⟨rfl, by simp⟩, ⟨rfl, ?_⟩, trivial, trivial, trivial, trivial⟩
  intro k t ht
  by_cases hk : k = 5
  · subst hk
    simp only [EntryMap.apply, Function.update_self, Option.some.injEq] at ht
    subst ht
    decide
  · simp only [EntryMap.apply, Function.update_of_ne hk] at ht
    cases ht

theorem sampleOps_small : SmallRun Clib.nearest 8 tightTable sampleOps tightHeap := by
  intro pre post h' rs H' hsplit hrun
  have hpre : pre = sampleOps.take pre.length := by rw [hsplit, List.take_left]
  have hk : pre.length ≤ 5 := by
    have := congrArg List.length hsplit
    rw [List.length_append] at this
    exact Nat.le.intro this.symm
  have hends : (runOps Clib.nearest 8 tightTable (sampleOps.take pre.length) tightHeap).map
      (fun p => decide (p.1.1.buckets = 97 ∧ p.1.1.resizeThreshold ≤ 2)) = some true := by
    generalize pre.length = k at hk
    interval_cases k <;> decide +kernel
  rw [← hpre, hrun, Option.map_some, Option.some.injEq, decide_eq_true_eq] at hends
  obtain ⟨hbuckets, hthreshold⟩ := hends
  refine ⟨hbuckets.trans_lt (by decide), fun _ _ _ _ _ => ?_⟩
  generalize h'.resizeThreshold = t at hthreshold
  interval_cases t <;> decide

theorem hashTable_refines_map_sample :
    (EntryMap.run 8 (fun _ => none) sampleOps).2 =
        [none, none, some ⟨100, 5, 8, false⟩, some ⟨200, 102, 8, false⟩, none] ∧
      ∃ h' H', runOps Clib.nearest 8 tightTable sampleOps tightHeap =
          some ((h', (EntryMap.run 8 (fun _ => none) sampleOps).2), H') ∧
        ∀ e, e ∈ h'.entries ↔ ∃ key, (EntryMap.run 8 (fun _ => none) sampleOps).1 key = some e :=
  ⟨by decide, hashTable_refines_map Clib.nearest (fun key _ => key) (fun a b _ => a - b)
    (fun a b => by omega) le_rfl 1 tightTable_init sampleOps_legal sampleOps_small⟩

end Milu
