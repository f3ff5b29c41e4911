import Milu.Hashtbl.Rehash
import Milu.Lib.Interleaving
import Mathlib.Data.Multiset.Bind

/-!
# Safe inserts and deletions by many threads

The atomic steps are the critical sections of the code and the reads between them. An insert reads
its bucket index under the table lock, compares the counter with the threshold, may run the whole of
`hash_table_resize` under the table lock, and links its entry under the lock of one bucket. A
deletion reads its bucket index without a lock, and searches and unlinks under the lock of that
bucket; the search computes the index once more.

The index is read in one section and used in a later one. A resize by another thread in between
replaces both arrays and the modulus, and the index goes stale: the entry is linked where no lookup
will ever look for it. Without such a resize every entry stays in its home bucket.

## Main definitions

* `TableCall` — a call in progress: where it stands, and the index it holds
* `tableSystem` — the atomic steps
* `IndicesSurvive` — the condition: a resize leaves every index held by another call right

## Main results

* `TableInv.run` — the invariant of a run whose steps meet the condition
* `placement_of_indicesSurvive` — placement, indices in range, and deletions that keep to their
  bucket
* `placement_lost` — without the condition an entry is misplaced
-/

namespace Milu

variable {K : Type}

/-! ### The atomic steps -/

/-- The table, and the heap its resizes take memory from. -/
structure TableShared (K : Type) where
  htable : HashTable K
  heap : Heap

/-- A call of `hash_table_insert_safe_i` or `hash_table_del_key_safe_i` in progress, by its next
step and its locals: `n` is the bucket index the call has read. -/
inductive TableCall (K : Type)
  | insHash (e : HashEntry K)
  | insTest (e : HashEntry K) (n : ℕ)
  | insResize (e : HashEntry K) (n : ℕ)
  | insRehash (e : HashEntry K)
  | insLink (e : HashEntry K) (n : ℕ)
  | delHash (key : K) (len : ℕ)
  | delUnlink (key : K) (len : ℕ) (n : ℕ)

namespace TableCall

/-- The address of the struct the call is about to link. -/
def struct : TableCall K → Multiset ℕ
  | insHash e | insTest e _ | insResize e _ | insRehash e | insLink e _ => {e.addr}
  | delHash _ _ | delUnlink _ _ _ => 0

/-- The key, the length and the bucket index read for them, when the call holds an index. -/
def index : TableCall K → Option (K × ℕ × ℕ)
  | insTest e n | insResize e n | insLink e n => some (e.key, e.klen, n)
  | delUnlink key len n => some (key, len, n)
  | insHash _ | insRehash _ | delHash _ _ => none

end TableCall

/-- The structs that are linked, or about to be. -/
def structs (s : TableShared K) (cs : Multiset (TableCall K)) : Multiset ℕ :=
  (s.htable.entries.map HashEntry.addr : List ℕ) + cs.bind TableCall.struct

/-- Entering a call. A caller brings a struct that nobody else uses; `hash_entry_init` comes first,
and its result is ignored. A deletion with a long key returns at once and is left out. -/
inductive TableStart (C : Clib K) : TableShared K → Multiset (TableCall K) → TableShared K →
    TableCall K → Prop
  | insert {s cs e key len ret e' H} : e.addr ∉ structs s cs →
      hashEntryInit C.null Heap.malloc e (.int key) len s.heap = some ((ret, e'), H) →
      TableStart C s cs ⟨s.htable, H⟩ (.insHash e')
  | del {s cs key len} : len ≤ sizeofPtr → TableStart C s cs s (.delHash key len)

/-- The atomic steps of a call. -/
inductive TableStep (C : Clib K) : TableShared K → TableCall K → TableShared K →
    Option (TableCall K) → Prop
  | hash {s e} : TableStep C s (.insHash e) s
      (some (.insTest e (hashTableHashCode s.htable e.key e.klen)))
  | full {s e n} : s.htable.usedBuckets ≥ s.htable.resizeThreshold →
      TableStep C s (.insTest e n) s (some (.insResize e n))
  | room {s e n} : s.htable.usedBuckets < s.htable.resizeThreshold →
      TableStep C s (.insTest e n) s (some (.insLink e n))
  | resized {s e n h H} : hashTableResize C s.htable s.heap = some ((0, h), H) →
      TableStep C s (.insResize e n) ⟨h, H⟩ (some (.insRehash e))
  | refused {s e n ret h H} : hashTableResize C s.htable s.heap = some ((ret, h), H) → ret ≠ 0 →
      TableStep C s (.insResize e n) ⟨h, H⟩ (some (.insLink e n))
  | rehash {s e} : TableStep C s (.insRehash e) s
      (some (.insLink e (hashTableHashCode s.htable e.key e.klen)))
  | link {s e n} : TableStep C s (.insLink e n) ⟨s.htable.insertAt n e, s.heap⟩ none
  | delHash {s key len} : TableStep C s (.delHash key len) s
      (some (.delUnlink key len (hashTableHashCode s.htable key len)))
  | unlink {s key len n} : TableStep C s (.delUnlink key len n)
      ⟨(hashTableDelKeySafe s.htable key len).2, s.heap⟩ none

/-- Threads that insert into one table and delete from it. -/
def tableSystem (C : Clib K) : System (TableShared K) (TableCall K) where
  start := TableStart C
  step := TableStep C

/-! ### The condition -/

/-- The index a call holds is the one its key has in a table of `b` buckets. -/
def TableCall.IndexRight (hashFn : K → ℕ → ℕ) (b : ℕ) (c : TableCall K) : Prop :=
  ∀ key len n, c.index = some (key, len, n) → n = hashFn key len % b

/-- A resize happens only while no other call holds an index that the new bucket count makes wrong,
and does not go beyond what an `unsigned int` can index. -/
def IndicesSurvive (C : Clib K) : System.Guard (TableShared K) (TableCall K) := fun s others c o =>
  ∀ e n, c = .insResize e n → o = some (.insRehash e) →
    hashtblSz C (s.htable.resizeThreshold * 2 % 2 ^ 32) ≤ 2 ^ 32 ∧
    ∀ t ∈ others, t.IndexRight s.htable.myHashFn
      (hashtblSz C (s.htable.resizeThreshold * 2 % 2 ^ 32))

/-! ### The invariant -/

/-- Every entry is placed, every index held is right, and no struct is used twice. -/
structure TableInv (s : TableShared K) (cs : Multiset (TableCall K)) : Prop where
  placed : s.htable.Placed
  bound : s.htable.buckets ≤ 2 ^ 32
  indices : ∀ c ∈ cs, c.IndexRight s.htable.myHashFn s.htable.buckets
  structs_nodup : (structs s cs).Nodup

theorem hashCode_of_bound {h : HashTable K} (hpos : 0 < h.buckets) (hle : h.buckets ≤ 2 ^ 32)
    (key : K) (len : ℕ) : hashTableHashCode h key len = h.myHashFn key len % h.buckets :=
  Nat.mod_eq_of_lt (Nat.lt_of_lt_of_le (Nat.mod_lt _ hpos) hle)

/-- A call that holds no index is right in any table. -/
theorem TableCall.IndexRight.of_none {hashFn : K → ℕ → ℕ} {b : ℕ} {c : TableCall K}
    (hc : c.index = none) : c.IndexRight hashFn b := by
  intro key len n hi
  rw [hc] at hi
  simp at hi

theorem TableCall.IndexRight.of_some {hashFn : K → ℕ → ℕ} {b : ℕ} {c : TableCall K} {key : K}
    {len n : ℕ} (hc : c.index = some (key, len, n)) (hn : n = hashFn key len % b) :
    c.IndexRight hashFn b := by
  intro key' len' n' hi
  rw [hc, Option.some.injEq, Prod.mk.injEq, Prod.mk.injEq] at hi
  obtain ⟨rfl, rfl, rfl⟩ := hi
  exact hn

namespace TableInv

variable {C : Clib K} {s s' : TableShared K} {cs : Multiset (TableCall K)} {c c' : TableCall K}

theorem keep (hi : TableInv s (c ::ₘ cs)) (hs : s'.htable = s.htable)
    (hstruct : c'.struct = c.struct)
    (hindex : c'.IndexRight s.htable.myHashFn s.htable.buckets) : TableInv s' (c' ::ₘ cs) := by
  refine ⟨hs ▸ hi.placed, hs ▸ hi.bound, ?_, ?_⟩
  · intro t ht
    rw [hs]
    rcases Multiset.mem_cons.mp ht with rfl | ht
    · exact hindex
    · exact hi.indices t (Multiset.mem_cons_of_mem ht)
  · have hn := hi.structs_nodup
    rw [structs, Multiset.cons_bind] at hn ⊢
    rwa [hs, hstruct]

theorem start (hi : TableInv s cs) (hs : TableStart C s cs s' c) : TableInv s' (c ::ₘ cs) := by
  cases hs with
  | del hlen =>
    refine ⟨hi.placed, hi.bound, ?_, ?_⟩
    · intro t ht
      rcases Multiset.mem_cons.mp ht with rfl | ht
      · exact .of_none rfl
      · exact hi.indices t ht
    · rw [structs, Multiset.cons_bind, TableCall.struct, zero_add]
      exact hi.structs_nodup
  | @insert e key len ret e' H hnew hinit =>
    have haddr : e'.addr = e.addr := by
      rw [hashEntryInit] at hinit
      split_ifs at hinit
      all_goals
        rw [HeapM.pure_apply, Option.some.injEq, Prod.mk.injEq, Prod.mk.injEq] at hinit
        rw [← hinit.1.2]
    refine ⟨hi.placed, hi.bound, ?_, ?_⟩
    · intro t ht
      rcases Multiset.mem_cons.mp ht with rfl | ht
      · exact .of_none rfl
      · exact hi.indices t ht
    · rw [structs, Multiset.cons_bind, TableCall.struct, haddr, Multiset.singleton_add,
        Multiset.add_cons]
      exact Multiset.nodup_cons.mpr ⟨hnew, hi.structs_nodup⟩

theorem resized (hi : TableInv s (c ::ₘ cs)) {h : HashTable K} {H H' : Heap}
    (hres : hashTableResize C s.htable H = some ((0, h), H'))
    (hok : hashtblSz C (s.htable.resizeThreshold * 2 % 2 ^ 32) ≤ 2 ^ 32 ∧
      ∀ t ∈ cs, t.IndexRight s.htable.myHashFn
        (hashtblSz C (s.htable.resizeThreshold * 2 % 2 ^ 32)))
    (hstruct : c'.struct = c.struct) (hindex : c'.index = none) :
    TableInv ⟨h, H'⟩ (c' ::ₘ cs) := by
  have hm := hashTableResize_rehashed hi.placed hres
  -- the entries of the new table are among those of the old one
  have hle : (h.entries.map HashEntry.addr : Multiset ℕ) ≤ s.htable.entries.map HashEntry.addr :=
    Multiset.map_le_map (Multiset.coe_le.mpr (hm.placed.entries_nodup.subperm hm.subset))
  refine ⟨hm.placed, ?_, ?_, ?_⟩
  · show h.buckets ≤ 2 ^ 32
    rw [hm.buckets]
    exact hok.1
  · intro t ht
    show t.IndexRight h.myHashFn h.buckets
    rw [hm.hashFn, hm.buckets]
    rcases Multiset.mem_cons.mp ht with rfl | ht
    · exact .of_none hindex
    · exact hok.2 t ht
  · have hn := hi.structs_nodup
    rw [structs, Multiset.cons_bind] at hn ⊢
    rw [hstruct]
    exact Multiset.nodup_of_le (Multiset.add_le_add_right hle) hn

theorem next (hi : TableInv s (c ::ₘ cs)) (hs : TableStep C s c s' (some c'))
    (hok : IndicesSurvive C s cs c (some c')) : TableInv s' (c' ::ₘ cs) := by
  have hcode := hashCode_of_bound hi.placed.buckets_pos hi.bound
  have hright := hi.indices c (Multiset.mem_cons_self c cs)
  cases hs with
  | hash => exact hi.keep rfl rfl (.of_some rfl (hcode _ _))
  | full _ => exact hi.keep rfl rfl hright
  | room _ => exact hi.keep rfl rfl hright
  | resized hres => exact hi.resized hres (hok _ _ rfl rfl) rfl rfl
  | refused hres hne =>
    obtain ⟨rfl, -⟩ := hashTableResize_failed hres hne
    exact hi.keep rfl rfl hright
  | rehash => exact hi.keep rfl rfl (.of_some rfl (hcode _ _))
  | delHash => exact hi.keep rfl rfl (.of_some rfl (hcode _ _))

theorem ret (hi : TableInv s (c ::ₘ cs)) (hs : TableStep C s c s' none) : TableInv s' cs := by
  have hothers : ∀ t ∈ cs, t.IndexRight s.htable.myHashFn s.htable.buckets :=
    fun t ht => hi.indices t (Multiset.mem_cons_of_mem ht)
  have hright := hi.indices c (Multiset.mem_cons_self c cs)
  have hn := hi.structs_nodup
  rw [structs, Multiset.cons_bind] at hn
  cases hs with
  | @link e n =>
    have hhome : n = s.htable.home e := by
      rw [HashTable.home, hashCode_of_bound hi.placed.buckets_pos hi.bound]
      exact hright _ _ _ rfl
    rw [TableCall.struct, Multiset.singleton_add, Multiset.add_cons, Multiset.nodup_cons] at hn
    have hnew : ∀ t ∈ s.htable.entries, t.addr ≠ e.addr := by
      intro t ht hta
      refine hn.1 (Multiset.mem_add.mpr (.inl ?_))
      exact Multiset.mem_coe.mpr (List.mem_map.mpr ⟨t, ht, hta⟩)
    refine ⟨?_, ?_, ?_, ?_⟩
    · rw [hhome]
      exact hi.placed.insertAt hnew
    · show (s.htable.insertAt n e).buckets ≤ 2 ^ 32
      rw [HashTable.insertAt_buckets]
      exact hi.bound
    · intro t ht
      show t.IndexRight (s.htable.insertAt n e).myHashFn (s.htable.insertAt n e).buckets
      rw [HashTable.insertAt_myHashFn, HashTable.insertAt_buckets]
      exact hothers t ht
    · have hlt : n < s.htable.buckets := hhome ▸ HashTable.home_lt hi.placed.buckets_pos e
      rw [structs, Multiset.coe_eq_coe.mpr ((s.htable.entries_insertAt hlt e).map _),
        List.map_cons, ← Multiset.cons_coe, Multiset.cons_add]
      exact Multiset.nodup_cons.mpr hn
  | @unlink key len n =>
    rw [TableCall.struct, zero_add] at hn
    obtain ⟨t, ht⟩ := hashTableDelKeySafe_withTable s.htable key len
    have hsub : ((hashTableDelKeySafe s.htable key len).2.entries.map HashEntry.addr : Multiset ℕ) ≤
        s.htable.entries.map HashEntry.addr := by
      rcases hashTableDelKeySafe_spec hi.placed key len with
        ⟨-, -, hsame⟩ | ⟨e, -, -, -, -, hperm⟩
      · rw [hsame]
      · rw [← Multiset.coe_eq_coe.mpr (hperm.map _)]
        exact Multiset.coe_le.mpr (List.sublist_cons_self _ _).subperm
    refine ⟨?_, ?_, ?_, ?_⟩
    · rcases hashTableDelKeySafe_spec hi.placed key len with
        ⟨-, -, hsame⟩ | ⟨e, -, -, -, hplaced, -⟩
      · rw [hsame]
        exact hi.placed
      · exact hplaced
    · rw [ht]
      exact hi.bound
    · intro c hc
      rw [ht]
      exact hothers c hc
    · exact Multiset.nodup_of_le (Multiset.add_le_add_right hsub) hn

/-- **The run lemma.** -/
theorem run {a b : System.Config (TableShared K) (TableCall K)}
    (hrun : (tableSystem C).Run (IndicesSurvive C) a b) (ha : TableInv a.shared a.calls) :
    TableInv b.shared b.calls :=
  System.Run.invariant (fun hi hs => hi.start hs) (fun hi hs hok => hi.next hs hok)
    (fun hi hs _ => hi.ret hs) hrun ha

end TableInv

/-- A table fresh from `hash_table_init`, and no call in progress. -/
theorem tableInv_init {C : Clib K} {hashFn : K → ℕ → ℕ} {keycmp : Option (K → K → ℕ → ℤ)} {b : ℕ}
    (hb : hashtblSz C (b % 2 ^ 32) ≤ 2 ^ 32) {H₀ H : Heap} {h : HashTable K}
    (hinit : hashTableInit Heap.malloc C b keycmp (some hashFn) H₀ = some (some h, H)) :
    TableInv ⟨h, H⟩ 0 := by
  obtain ⟨tableMem, bucketLocks, rfl⟩ := eq_fresh_of_hashTableInit hinit
  refine ⟨placed_fresh C _ _ _ tableMem bucketLocks, hb, by simp, ?_⟩
  simp [structs, entries_fresh]

/-! ### Placement -/

/-- What every configuration should look like: each entry is in the bucket of its key, each bucket
index in use is in range, and a deletion about to search and unlink under the lock of bucket `n`
will modify no other bucket. -/
structure WellPlaced (s : TableShared K) (cs : Multiset (TableCall K)) : Prop where
  home : ∀ i, ∀ e ∈ s.htable.table i, i = s.htable.myHashFn e.key e.klen % s.htable.buckets
  index_lt : ∀ c ∈ cs, ∀ key len n, c.index = some (key, len, n) → n < s.htable.buckets
  unlink : ∀ key len n, .delUnlink key len n ∈ cs → ∀ j, j ≠ n →
    (hashTableDelKeySafe s.htable key len).2.table j = s.htable.table j

theorem TableInv.wellPlaced {s : TableShared K} {cs : Multiset (TableCall K)}
    (hi : TableInv s cs) : WellPlaced s cs where
  home i e he := by
    rw [← hashCode_of_bound hi.placed.buckets_pos hi.bound]
    exact (hi.placed.home_eq i e he).symm
  index_lt c hc key len n hn := by
    rw [hi.indices c hc key len n hn]
    exact Nat.mod_lt _ hi.placed.buckets_pos
  unlink key len n hc j hj := by
    have hn : n = hashTableHashCode s.htable key len := by
      rw [hashCode_of_bound hi.placed.buckets_pos hi.bound]
      exact hi.indices _ hc key len n rfl
    rcases hashTableDelKeySafe_spec hi.placed key len with ⟨-, -, hsame⟩ | ⟨e, -, -, hdel, -⟩
    · rw [hsame]
    · rw [hdel, HashTable.listDelInit_table, ← hn, Function.update_of_ne hj]

/-- **Placement survives**, in every run from `hash_table_init` in which each resize leaves the
indices held by other calls right and stays within `2 ^ 32` buckets, whatever the comparator. -/
theorem placement_of_indicesSurvive (C : Clib K) (hashFn : K → ℕ → ℕ)
    (keycmp : Option (K → K → ℕ → ℤ)) (b : ℕ) (hb : hashtblSz C (b % 2 ^ 32) ≤ 2 ^ 32) {H₀ H : Heap}
    {h : HashTable K}
    (hinit : hashTableInit Heap.malloc C b keycmp (some hashFn) H₀ = some (some h, H))
    {s : TableShared K} {cs : Multiset (TableCall K)}
    (hrun : (tableSystem C).Run (IndicesSurvive C) ⟨⟨h, H⟩, 0⟩ ⟨s, cs⟩) : WellPlaced s cs :=
  (TableInv.run hrun (tableInv_init hb hinit)).wellPlaced

/-! ### A misplaced entry -/

/-- The table `hash_table_init` makes in `sampleHeap` for a threshold of 37, after inserts of the
keys below `k`. Its hash function is the identity. -/
def filledTable (k : ℕ) : HashTable ℕ :=
  { HashTable.fresh Clib.nearest 37 (fun a b _ => a - b) (fun key _ => key) 1048576 2097152 with
    table := fun i => if i < k then [⟨i, i, 8, false⟩] else []
    usedBuckets := k }

theorem filledTable_init : hashTableInit Heap.malloc Clib.nearest 37 (some fun a b _ => a - b)
    (some fun key _ => key) sampleHeap = some (some (filledTable 0), tightHeap) := by
  have hempty : filledTable 0 = HashTable.fresh Clib.nearest 37 (fun a b _ => a - b)
      (fun key _ => key) 1048576 2097152 := by
    rw [filledTable, HashTable.mk.injEq]
    refine ⟨funext fun i => ?_, rfl, rfl, rfl, rfl, rfl, rfl, rfl⟩
    rw [if_neg (Nat.not_lt_zero i)]
    rfl
  rw [hempty]
  rfl

theorem filledTable_insertAt {k : ℕ} : (filledTable k).insertAt k ⟨k, k, 8, false⟩ =
    filledTable (k + 1) := by
  have hk : (filledTable k).table k = [] := if_neg (Nat.lt_irrefl k)
  rw [HashTable.insertAt, hk]
  show ({ (filledTable k) with
    usedBuckets := k + 1
    table := Function.update (filledTable k).table k _ } : HashTable ℕ) = _
  rw [HashTable.mk.injEq]
  refine ⟨funext fun i => ?_, rfl, rfl, rfl, rfl, rfl, rfl, rfl⟩
  rcases Nat.lt_trichotomy i k with hi | rfl | hi
  · rw [Function.update_of_ne (by omega)]
    show ite _ _ _ = ite _ _ _
    rw [if_pos hi, if_pos (by omega)]
  · rw [Function.update_self]
    show _ :: (filledTable i).table i = ite _ _ _
    rw [hk, if_pos (by omega)]
  · rw [Function.update_of_ne (by omega)]
    show ite _ _ _ = ite _ _ _
    rw [if_neg (by omega), if_neg (by omega)]

theorem notMem_structs_filledTable {k a : ℕ} (ha : k ≤ a) (H : Heap) {cs : Multiset (TableCall ℕ)}
    (hcs : a ∉ cs.bind TableCall.struct) : a ∉ structs ⟨filledTable k, H⟩ cs := by
  rw [structs, Multiset.mem_add, not_or]
  refine ⟨fun hmem => ?_, hcs⟩
  obtain ⟨e, he, rfl⟩ := List.mem_map.mp (Multiset.mem_coe.mp hmem)
  obtain ⟨i, -, hi⟩ := HashTable.mem_entries_iff.mp he
  simp only [filledTable, List.mem_ite_nil_right, List.mem_singleton] at hi
  obtain ⟨hik, rfl⟩ := hi
  exact absurd ha (Nat.not_le.mpr hik)

theorem start_filledTable {k a : ℕ} (ha : k ≤ a) {cs : Multiset (TableCall ℕ)}
    (hcs : a ∉ cs.bind TableCall.struct) : (tableSystem Clib.nearest).start
      ⟨filledTable k, tightHeap⟩ cs ⟨filledTable k, tightHeap⟩ (.insHash ⟨a, a, 8, false⟩) := by
  have hinit : hashEntryInit Clib.nearest.null Heap.malloc ⟨a, 0, 0, false⟩ (.int a) 8 tightHeap =
      some ((0, ⟨a, a, 8, false⟩), tightHeap) := rfl
  exact .insert (notMem_structs_filledTable ha tightHeap hcs) hinit

/-- One thread inserts the keys below `k`, one after the other. -/
theorem fill_run : ∀ {k : ℕ}, k ≤ 37 → (tableSystem Clib.nearest).Run (IndicesSurvive Clib.nearest)
    ⟨⟨filledTable 0, tightHeap⟩, 0⟩ ⟨⟨filledTable k, tightHeap⟩, 0⟩
  | 0, _ => .refl
  | k + 1, hk => by
    have hcode : hashTableHashCode (filledTable k) k 8 = k := by
      show k % 97 % 2 ^ 32 = k
      omega
    have hentered := (fill_run (Nat.le_of_succ_le hk)).start (start_filledTable le_rfl (by simp))
    have hhashed := hentered.next .hash (by intro _ _ hc; cases hc)
    rw [hcode] at hhashed
    have htested := hhashed.next (.room (by show k < 37; omega)) (by intro _ _ hc; cases hc)
    have hlinked := htested.ret .link (by intro _ _ hc; cases hc)
    rwa [filledTable_insertAt] at hlinked

/-- The safe insert of the key `37` finds the table full, and can have a new one. -/
theorem filledTable_resize : ∃ h H, hashTableResize Clib.nearest (filledTable 37) tightHeap =
      some ((0, h), H) ∧ h.buckets = 193 ∧ h.usedBuckets < h.resizeThreshold ∧
        h.myHashFn = fun key _ => key := by
  have hfull : TableInv ⟨filledTable 37, tightHeap⟩ 0 :=
    TableInv.run (fill_run le_rfl) (tableInv_init (by decide) filledTable_init)
  obtain ⟨h, H, hres, hm⟩ := hashTableResize_of_fresh hfull.placed
    (fun e _ => Int.sub_self (e.key : ℤ)) (by decide) (HashTable.fits_of_le (by decide))
    (rfl : hashTableInit Heap.malloc Clib.nearest (37 * 2 % 2 ^ 64) _ _ tightHeap = _)
  refine ⟨h, H, hres, hm.buckets, ?_, hm.hashFn⟩
  rw [hm.used, hm.threshold]
  decide

/-- Three calls in flight: a deletion of the key `5` and an insert of the key `50` have read their
indices when the insert of the key `37` makes the table grow. Both indices are right in the new
table. -/
theorem placement_of_indicesSurvive_interleaved : ∃ s,
    (tableSystem Clib.nearest).Run (IndicesSurvive Clib.nearest) ⟨⟨filledTable 0, tightHeap⟩, 0⟩
        ⟨s, 0⟩ ∧ s.htable.buckets = 193 ∧ WellPlaced s 0 := by
  obtain ⟨h, H, hres, hbuckets, hroom, -⟩ := filledTable_resize
  have hdel := ((fill_run le_rfl).start (@TableStart.del _ _ _ _ 5 _ le_rfl)).next .delHash
    (by intro _ _ hc; cases hc)
  have hins := (hdel.start (start_filledTable (a := 50) (by decide)
    (by simp [TableCall.struct]))).next .hash (by intro _ _ hc; cases hc)
  have hfull := ((hins.start (start_filledTable (a := 37) le_rfl
    (by simp [TableCall.struct]))).next .hash (by intro _ _ hc; cases hc)).next (.full le_rfl)
    (by intro _ _ hc; cases hc)
  -- the table grows under the two calls that hold an index
  have hgrown := hfull.next (.resized hres) (by
    intro e n _ _
    refine ⟨by decide, fun t ht => ?_⟩
    simp only [Multiset.mem_cons, Multiset.notMem_zero, or_false] at ht
    rcases ht with rfl | rfl <;> exact .of_some rfl rfl)
  -- they go on with the indices they have
  rw [Multiset.cons_swap] at hgrown
  have hlinked := (hgrown.next (.room hroom) (by intro _ _ hc; cases hc)).ret .link
    (by intro _ _ hc; cases hc)
  rw [Multiset.cons_swap] at hlinked
  have hdeleted := hlinked.ret .unlink (by intro _ _ hc; cases hc)
  have hlast := (hdeleted.next .rehash (by intro _ _ hc; cases hc)).ret .link
    (by intro _ _ hc; cases hc)
  refine ⟨_, hlast, ?_, placement_of_indicesSurvive Clib.nearest (fun key _ => key)
    (some fun a b _ => a - b) 37 (by decide) filledTable_init hlast⟩
  have hkept : ∀ (g : HashTable ℕ) key len,
      (hashTableDelKeySafe g key len).2.buckets = g.buckets := by
    intro g key len
    obtain ⟨t, ht⟩ := hashTableDelKeySafe_withTable g key len
    rw [ht]
    rfl
  simp only [HashTable.insertAt_buckets, hkept, hbuckets]

/-- **A stale index.** A thread reads the index `0` for the key `97`; another thread inserts the key
`37`, which makes the table grow to 193 buckets; then the first thread links its entry into bucket
`0`. -/
theorem placement_lost :
    hashTableInit Heap.malloc Clib.nearest 37 (some fun a b _ => a - b) (some fun key _ => key)
        sampleHeap = some (some (filledTable 0), tightHeap) ∧
      ∃ s cs, (tableSystem Clib.nearest).Run System.anyStep
          ⟨⟨filledTable 0, tightHeap⟩, 0⟩ ⟨s, cs⟩ ∧
        ∃ e ∈ s.htable.table 0, s.htable.myHashFn e.key e.klen % s.htable.buckets = 97 := by
  refine ⟨filledTable_init, ?_⟩
  obtain ⟨h, H, hres, hbuckets, hroom, hhash⟩ := filledTable_resize
  -- the first thread reads its index
  have hread := ((fill_run le_rfl).weaken.start (start_filledTable (a := 97) (by decide)
    (by simp))).next .hash trivial
  -- the second thread comes to the end of its resize
  have hgrown := (((hread.start
    (start_filledTable (a := 37) le_rfl (by simp [TableCall.struct]))).next
    .hash trivial).next (.full le_rfl) trivial).next (.resized hres) trivial
  -- the first thread goes on with the index it has
  rw [Multiset.cons_swap] at hgrown
  have hlinked := (hgrown.next (.room hroom) trivial).ret .link trivial
  refine ⟨_, _, hlinked, ⟨97, 97, 8, false⟩, ?_, ?_⟩
  · show _ ∈ (h.insertAt 0 ⟨97, 97, 8, false⟩).table 0
    rw [HashTable.insertAt_table, HashTable.listAdd_table, Function.update_self]
    exact List.mem_cons_self
  · show (h.insertAt 0 _).myHashFn 97 8 % (h.insertAt 0 _).buckets = 97
    rw [HashTable.insertAt_myHashFn, HashTable.insertAt_buckets, hhash, hbuckets]
    rfl

end Milu
