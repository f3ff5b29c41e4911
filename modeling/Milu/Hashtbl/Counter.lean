import Milu.Hashtbl.Runs

/-!
# The load counter

`_used_buckets` is meant to count the buckets in use, and `hash_table_insert_safe` compares it with
the threshold. Only that function maintains it. The plain inserts put an entry into an empty bucket
without counting it, the deletions empty a bucket without counting it off, and a resize hands over
the counter of an auxiliary table that was filled by plain inserts, which is zero.

So the counter stays exact precisely in the runs that do none of this.

## Main definitions

* `HashTable.occupied` — the number of buckets in use
* `LoadExact` — the counter is exact, and what follows from it
* `KeepsLoad` — the operations that leave the counter exact

## Main results

* `TableOp.counter_iff` — one operation, from an exact counter
* `load_exact_iff_keeps` — the counter is exact throughout a run
* `counter_drifts` — an insert and a deletion
-/

namespace Milu

variable {K : Type}

/-- The number of non-empty buckets. -/
def HashTable.occupied (h : HashTable K) : ℕ :=
  (List.range h.buckets).countP fun i => !(h.table i).isEmpty

/-- The counter is exact: a safe insert tries a resize when the non-empty buckets have reached the
threshold and otherwise does not, and a table with fewer entries than that does not grow. -/
structure LoadExact (C : Clib K) (h : HashTable K) : Prop where
  counter : h.usedBuckets = h.occupied
  resize_iff : ∀ e H, hashTableInsertSafe C h e H =
    (if h.resizeThreshold ≤ h.occupied then do
      let (ret, h') ← hashTableResize C h
      let n := if ret = 0 then h'.home e else h.home e
      h'.reach n
      return h'.insertAt n e
    else do
      h.reach (h.home e)
      return h.insertAt (h.home e) e : HeapM (HashTable K)) H
  churn : h.entries.length < h.resizeThreshold → ∀ e H h' H',
    hashTableInsertSafe C h e H = some (h', H') → h'.buckets = h.buckets

/-- The operations that leave an exact counter exact: a plain insert into a bucket in use; a
deletion that finds nothing or leaves its bucket in use; a safe insert, unless it resizes the table
and moves an entry. -/
def KeepsLoad (C : Clib K) (h : HashTable K) (H : Heap) : TableOp K → Prop
  | .insert e key len => ∀ ret e' H', hashEntryInit C.null Heap.malloc e key len H =
      some ((ret, e'), H') → h.table (h.home e') ≠ []
  | .insertSafe e key len => ∀ ret e' H', hashEntryInit C.null Heap.malloc e key len H =
      some ((ret, e'), H') → h.usedBuckets < h.resizeThreshold ∨
        ¬ GrantsArrays C (h.resizeThreshold * 2 % 2 ^ 32) H' ∨
          ∀ t ∈ h.entries, (hashTableDelHashEntrySafe h t).1 = none
  | .delKey skey key len | .delKeySafe skey key len =>
      skey = true ∨ len ≤ sizeofPtr → hashTableLookupKey h key len ≠ none →
        (h.table (hashTableHashCode h key len)).length ≠ 1
  | _ => True

/-! ### Buckets in use -/

namespace HashTable

variable {h : HashTable K} {n : ℕ} {e : HashEntry K}

theorem occupied_listAdd (hn : n < h.buckets) :
    (h.listAdd n e).occupied = h.occupied + if (h.table n).isEmpty then 1 else 0 := by
  have hcount := countP_update List.nodup_range (List.mem_range.mpr hn) h.table (e :: h.table n)
    fun c => !c.isEmpty
  have hnew : (h.listAdd n e).occupied = (List.range h.buckets).countP fun i =>
      !(Function.update h.table n (e :: h.table n) i).isEmpty := rfl
  rw [hnew, occupied]
  cases hc : (h.table n).isEmpty <;> simp [hc] at hcount ⊢ <;> omega

theorem occupied_listDelInit (hn : n < h.buckets) (he : e ∈ h.table n) :
    (h.listDelInit n e).occupied + (if (h.table n).length = 1 then 1 else 0) = h.occupied := by
  set c := (h.table n).eraseP fun t => t.addr == e.addr with hc
  have hcount := countP_update List.nodup_range (List.mem_range.mpr hn) h.table c
    fun c => !c.isEmpty
  have hlen : c.length = (h.table n).length - 1 :=
    List.length_eraseP_of_mem he (by simp)
  have hpos : 0 < (h.table n).length := List.length_pos_of_mem he
  have hold : (h.table n).isEmpty = false := by
    rw [List.isEmpty_eq_false_iff_exists_mem]
    exact ⟨e, he⟩
  have hnew : c.isEmpty = decide ((h.table n).length = 1) := by
    rw [Bool.eq_iff_iff, List.isEmpty_iff_length_eq_zero, decide_eq_true_iff]
    omega
  have heq : (h.listDelInit n e).occupied = (List.range h.buckets).countP fun i =>
      !(Function.update h.table n c i).isEmpty := rfl
  rw [heq, occupied]
  by_cases hone : (h.table n).length = 1 <;> simp [hold, hnew, hone] at hcount ⊢ <;> omega

theorem occupied_eq_zero_iff : h.occupied = 0 ↔ h.entries = [] := by
  rw [occupied, entries, List.countP_eq_zero, List.flatMap_eq_nil_iff]
  simp

theorem occupied_le_length : h.occupied ≤ h.entries.length := by
  rw [occupied, entries]
  induction List.range h.buckets with
  | nil => simp
  | cons i l ih =>
    rw [List.countP_cons, List.flatMap_cons, List.length_append]
    cases hc : h.table i with
    | nil => simpa [hc] using ih
    | cons e c =>
      simp only [List.isEmpty_cons, Bool.not_false, if_true, List.length_cons]
      omega

/-- The critical section of the safe insert counts right. -/
theorem counter_insertAt_iff (hn : n < h.buckets) :
    (h.insertAt n e).usedBuckets = (h.insertAt n e).occupied ↔ h.usedBuckets = h.occupied := by
  have hoccupied : (h.insertAt n e).occupied = (h.listAdd n e).occupied := by
    rw [occupied, insertAt_table, insertAt_buckets]
    rfl
  have hused : (h.insertAt n e).usedBuckets =
      h.usedBuckets + if (h.table n).isEmpty then 1 else 0 := by
    rw [insertAt]
    split_ifs <;> rfl
  rw [hoccupied, hused, occupied_listAdd hn]
  omega

end HashTable

/-- An exact counter is all it takes. -/
theorem loadExact_iff {C : Clib K} {h : HashTable K} :
    LoadExact C h ↔ h.usedBuckets = h.occupied := by
  constructor
  · intro hexact
    exact hexact.counter
  · intro hcounter
    have hinsert : ∀ e H, hashTableInsertSafe C h e H =
        (if h.resizeThreshold ≤ h.occupied then do
          let (ret, h') ← hashTableResize C h
          let n := if ret = 0 then h'.home e else h.home e
          h'.reach n
          return h'.insertAt n e
        else do
          h.reach (h.home e)
          return h.insertAt (h.home e) e : HeapM (HashTable K)) H := by
      intro e H
      rw [hashTableInsertSafe, hcounter]
      rfl
    refine ⟨hcounter, hinsert, fun hfew e H h' H' hins => ?_⟩
    have hroom : ¬ h.resizeThreshold ≤ h.occupied := by
      have := h.occupied_le_length
      omega
    rw [hinsert, if_neg hroom] at hins
    obtain ⟨_, H₁, -, hlast⟩ := HeapM.of_bind hins
    rw [← (HeapM.pure_inj hlast).1, HashTable.insertAt_buckets]

/-! ### One operation -/

section

variable {C : Clib K} {h h' : HashTable K} {r : Option (HashEntry K)} {H H' : Heap}

/-- A deletion keeps the counter exact unless it empties a bucket. -/
theorem counter_delKey_iff (hp : h.Placed) (hexact : h.usedBuckets = h.occupied) {skey : Bool}
    {key : K} {len : ℕ} (hrun : (TableOp.delKey skey key len).run C h H = some ((h', r), H')) :
    h'.usedBuckets = h'.occupied ↔ KeepsLoad C h H (.delKey skey key len) := by
  rcases TableOp.run_delKey hrun with ⟨hnone, rfl⟩ | ⟨haccepts, e, hl, rfl⟩
  · exact iff_of_true hexact fun haccepts hne => absurd (hnone haccepts) hne
  · have hcount := HashTable.occupied_listDelInit (HashTable.hashCode_lt hp.buckets_pos key len)
      (hashTableLookupKey_mem hl).1
    have hused : (h.listDelInit (hashTableHashCode h key len) e).usedBuckets = h.usedBuckets := rfl
    rw [hused, hexact, ← hcount, KeepsLoad]
    simp only [haccepts, hl, true_imp_iff, ne_eq, not_false_eq_true, reduceCtorEq]
    split_ifs with hone
    · simp [hone]
    · simp [hone]

/-- **One operation**, from an exact counter. -/
theorem TableOp.counter_iff (hp : h.Placed) (hexact : h.usedBuckets = h.occupied)
    {op : TableOp K} (hrun : op.run C h H = some ((h', r), H')) :
    h'.usedBuckets = h'.occupied ↔ KeepsLoad C h H op := by
  cases op with
  | insert e key len =>
    obtain ⟨ret, e', hinit, -, -, rfl, -⟩ := TableOp.run_insert hrun
    have hcount := HashTable.occupied_listAdd (e := e') (HashTable.home_lt hp.buckets_pos e')
    have hused : (hashTableInsert h e').usedBuckets = h.usedBuckets := rfl
    have hoccupied : (hashTableInsert h e').occupied = (h.listAdd (h.home e') e').occupied := rfl
    have hkeeps : KeepsLoad C h H (.insert e key len) ↔ h.table (h.home e') ≠ [] := by
      constructor
      · intro hk
        exact hk ret e' H' hinit
      · intro hne ret₂ e₂ H₂ hinit₂
        rw [hinit, Option.some.injEq, Prod.mk.injEq, Prod.mk.injEq] at hinit₂
        exact hinit₂.1.2 ▸ hne
    rw [hkeeps, hused, hoccupied, hcount, hexact]
    cases h.table (h.home e') <;> simp
  | insertSafe e key len =>
    obtain ⟨ret, e', H₁, hinit, -, hins, -⟩ := TableOp.run_insertSafe hrun
    have hkeeps : KeepsLoad C h H (.insertSafe e key len) ↔ h.usedBuckets < h.resizeThreshold ∨
        ¬ GrantsArrays C (h.resizeThreshold * 2 % 2 ^ 32) H₁ ∨
          ∀ t ∈ h.entries, (hashTableDelHashEntrySafe h t).1 = none := by
      constructor
      · intro hk
        exact hk ret e' H₁ hinit
      · intro hk ret₂ e₂ H₂ hinit₂
        rw [hinit, Option.some.injEq, Prod.mk.injEq] at hinit₂
        exact hinit₂.2 ▸ hk
    rw [hkeeps]
    obtain ⟨h₁, rfl, hcase⟩ := hashTableInsertSafe_rehashed hp hins
    rcases hcase with ⟨-, rfl, hroom | hrefused⟩ | ⟨⟨hfull, -⟩, hgrants, hre⟩
    · rw [HashTable.counter_insertAt_iff (HashTable.home_lt hp.buckets_pos e')]
      exact iff_of_true hexact (.inl hroom)
    · rw [HashTable.counter_insertAt_iff (HashTable.home_lt hp.buckets_pos e')]
      exact iff_of_true hexact (.inr (.inl hrefused))
    · -- the counter of the rebuilt table is zero
      rw [HashTable.counter_insertAt_iff (HashTable.home_lt hre.placed.buckets_pos e'), hre.used,
        eq_comm, HashTable.occupied_eq_zero_iff, hre.nil_iff]
      have hnot : ¬ h.usedBuckets < h.resizeThreshold := Nat.not_lt.mpr hfull
      simp only [hnot, hgrants, not_true_eq_false, false_or]
  | delKey skey key len => exact counter_delKey_iff hp hexact hrun
  | delKeySafe skey key len =>
    exact counter_delKey_iff hp hexact (TableOp.run_delKeySafe ▸ hrun)
  | lookupKey skey key len =>
    obtain rfl := TableOp.run_lookup hrun
    exact iff_of_true hexact trivial
  | lookupKeySafe skey key len =>
    obtain rfl := TableOp.run_lookup hrun
    exact iff_of_true hexact trivial

end

/-! ### Whole runs -/

theorem occupied_fresh (C : Clib K) (b : ℕ) (keycmp : K → K → ℕ → ℤ) (hashFn : K → ℕ → ℕ)
    (tableMem bucketLocks : ℕ) :
    (HashTable.fresh C b keycmp hashFn tableMem bucketLocks).occupied = 0 := by
  rw [HashTable.occupied_eq_zero_iff]
  exact entries_fresh C b keycmp hashFn tableMem bucketLocks

/-- **The counter is exact throughout a run if and only if every operation of the run keeps it.** -/
theorem load_exact_iff_keeps {C : Clib K} {b : ℕ} {keycmp : Option (K → K → ℕ → ℤ)}
    {hashFn : K → ℕ → ℕ} {h₀ h : HashTable K} {H₀ H : Heap}
    (hinit : hashTableInit Heap.malloc C b keycmp (some hashFn) H₀ = some (some h₀, H))
    {steps : List (HashTable K × Heap × TableOp K)} (hrun : TableRun C h₀ steps h) :
    ((∀ p ∈ steps, LoadExact C p.1) ∧ LoadExact C h) ↔
      ∀ p ∈ steps, KeepsLoad C p.1 p.2.1 p.2.2 := by
  have hp := placed_of_hashTableInit hinit
  simp only [loadExact_iff]
  induction hrun with
  | start =>
    obtain ⟨tableMem, bucketLocks, rfl⟩ := eq_fresh_of_hashTableInit hinit
    refine iff_of_true ⟨List.forall_mem_nil _, ?_⟩ (List.forall_mem_nil _)
    rw [occupied_fresh]
    rfl
  | step hsteps _ hop ih =>
    rw [List.forall_mem_cons, List.forall_mem_cons]
    have hone := fun hexact => TableOp.counter_iff (hsteps.placed hp) hexact hop
    constructor
    · rintro ⟨⟨hexact, hall⟩, hlast⟩
      exact ⟨(hone hexact).mp hlast, ih.mp ⟨hall, hexact⟩⟩
    · rintro ⟨hkeeps, hall⟩
      obtain ⟨hbefore, hexact⟩ := ih.mpr hall
      exact ⟨⟨hexact, hbefore⟩, (hone hexact).mpr hkeeps⟩

/-! ### An insert and a deletion -/

/-- `sampleTable` after a safe insert of the key `5`. -/
def countedTable : HashTable ℕ := sampleTable.insertAt 5 ⟨100, 5, 8, false⟩

theorem sampleTable_init : hashTableInit Heap.malloc Clib.nearest 40 (some fun a b _ => a - b)
    (some fun key _ => key) sampleHeap =
      some (some sampleTable, tightHeap) := rfl

theorem countedTable_run : TableRun Clib.nearest sampleTable
    [(sampleTable, sampleHeap, .insertSafe ⟨100, 0, 0, false⟩ (.int 5) 8)] countedTable := by
  have hnew : (TableOp.insertSafe ⟨100, 0, 0, false⟩ (.int 5) 8).Legal sampleTable := by
    intro t ht
    rw [sampleTable, entries_fresh] at ht
    exact absurd ht List.not_mem_nil
  have hrun : (TableOp.insertSafe ⟨100, 0, 0, false⟩ (.int 5) 8).run Clib.nearest sampleTable
      sampleHeap = some ((countedTable, none), sampleHeap) := rfl
  exact .step .start hnew hrun

theorem load_exact_iff_keeps_counted : LoadExact Clib.nearest countedTable := by
  refine ((load_exact_iff_keeps sampleTable_init countedTable_run).mpr ?_).2
  intro p hp
  rw [List.mem_singleton.mp hp]
  intro ret e' H' _
  exact .inl (by decide)

/-- **The counter drifts**: after an insert and a deletion of one key the table is empty, and the
counter is one. -/
theorem counter_drifts : ∃ h : HashTable ℕ,
    TableRun Clib.nearest sampleTable [(countedTable, sampleHeap, .delKeySafe false 5 8),
      (sampleTable, sampleHeap, .insertSafe ⟨100, 0, 0, false⟩ (.int 5) 8)] h ∧
      h.usedBuckets = 1 ∧ h.occupied = 0 ∧ ¬ LoadExact Clib.nearest h := by
  have hrun : (TableOp.delKeySafe false 5 8).run Clib.nearest countedTable sampleHeap =
      some ((countedTable.listDelInit 5 ⟨100, 5, 8, false⟩, some ⟨100, 5, 8, false⟩),
        sampleHeap) := rfl
  have hempty : (countedTable.listDelInit 5 ⟨100, 5, 8, false⟩).occupied = 0 := by decide
  refine ⟨_, .step countedTable_run trivial hrun, rfl, hempty, fun hexact => ?_⟩
  have hcounter := hexact.counter
  rw [hempty] at hcounter
  exact absurd hcounter (by decide)

end Milu
