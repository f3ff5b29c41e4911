import Milu.Hashtbl.Rehash

/-!
# Runs of the table

Every operation a program may call on a table, the plain and the thread-safe ones, with integer and
with string keys, one after the other by one thread. The rest of the program allocates and releases
as it likes between two operations, so each of them finds the allocator in whatever state. The one
thing a caller owes is not to insert a struct that is linked already.

Nothing is assumed of the hash function or of the comparator.

## Main definitions

* `TableOp`, `TableOp.run`, `TableOp.Legal`
* `TableRun` — the runs from a table, with every step taken

## Main results

* `TableOp.run_insert`, `TableOp.run_insertSafe`, `TableOp.run_delKey`, `TableOp.run_delKeySafe` —
  what an operation that returns has done
* `TableRun.placed` — the entries stay in their home buckets
-/

namespace Milu

variable {K : Type}

/-! ### Operations -/

/-- A call on the table. `skey` chooses between the string and the integer variant. -/
inductive TableOp (K : Type)
  | insert (e : HashEntry K) (key : KeyArg K) (len : ℕ)
  | insertSafe (e : HashEntry K) (key : KeyArg K) (len : ℕ)
  | delKey (skey : Bool) (key : K) (len : ℕ)
  | delKeySafe (skey : Bool) (key : K) (len : ℕ)
  | lookupKey (skey : Bool) (key : K) (len : ℕ)
  | lookupKeySafe (skey : Bool) (key : K) (len : ℕ)

/-- A search comes to the head of the bucket of its key, unless the key is refused before. -/
def HashTable.search (h : HashTable K) (accepted : Bool) (key : K) (len : ℕ) : HeapM Unit :=
  if accepted then h.reach (hashTableHashCode h key len) else return ()

/-- The call: the table afterwards, and the entry it answers with. -/
def TableOp.run (C : Clib K) (h : HashTable K) :
    TableOp K → HeapM (HashTable K × Option (HashEntry K))
  | .insert e key len => do
    let h ← match key with
      | .int key => hashTableInsertI C h e key len
      | .str key => hashTableInsertS C h e key len
    return (h, none)
  | .insertSafe e key len => do
    let h ← match key with
      | .int key => hashTableInsertSafeI C h e key len
      | .str key => hashTableInsertSafeS C h e key len
    return (h, none)
  | .delKey skey key len => do
    h.search (skey || len ≤ sizeofPtr) key len
    let (e, h) := if skey then hashTableDelKeyS h key len else hashTableDelKeyI h key len
    return (h, e)
  | .delKeySafe skey key len => do
    h.search (skey || len ≤ sizeofPtr) key len
    let (e, h) := if skey then hashTableDelKeySafeS h key len else hashTableDelKeySafeI h key len
    return (h, e)
  | .lookupKey skey key len => do
    h.search true key len
    return (h, if skey then hashTableLookupKeyS h key len else hashTableLookupKeyI h key len)
  | .lookupKeySafe skey key len => do
    h.search (skey || len ≤ sizeofPtr) key len
    return (h, if skey then hashTableLookupKeySafeS h key len
      else hashTableLookupKeySafeI h key len)

/-- What a caller owes: the struct to be inserted is not linked. -/
def TableOp.Legal (h : HashTable K) : TableOp K → Prop
  | .insert e _ _ | .insertSafe e _ _ => ∀ t ∈ h.entries, t.addr ≠ e.addr
  | _ => True

/-- A run from the table `h₀`, with the table, the allocator and the operation of each step, the
last step first. -/
inductive TableRun (C : Clib K) (h₀ : HashTable K) :
    List (HashTable K × Heap × TableOp K) → HashTable K → Prop
  | start : TableRun C h₀ [] h₀
  | step {steps : List (HashTable K × Heap × TableOp K)} {h h' : HashTable K} {op : TableOp K}
      {r : Option (HashEntry K)} {H H' : Heap} : TableRun C h₀ steps h → op.Legal h →
      op.run C h H = some ((h', r), H') → TableRun C h₀ ((h, H, op) :: steps) h'

/-- Calls one after the other, the last one first, each with the heap that the one before it left:
the steps, and the table and the heap in the end. -/
def TableOp.trace (C : Clib K) (h₀ : HashTable K) (H₀ : Heap) :
    List (TableOp K) → Option (List (HashTable K × Heap × TableOp K) × HashTable K × Heap)
  | [] => some ([], h₀, H₀)
  | op :: ops => do
    let (steps, h, H) ← trace C h₀ H₀ ops
    let ((h', _), H') ← op.run C h H
    return ((h, H, op) :: steps, h', H')

/-- They are a run. -/
theorem TableRun.of_trace {C : Clib K} {h₀ : HashTable K} {H₀ : Heap} : ∀ {ops : List (TableOp K)}
    {steps : List (HashTable K × Heap × TableOp K)} {h : HashTable K} {H : Heap},
    TableOp.trace C h₀ H₀ ops = some (steps, h, H) → (∀ s ∈ steps, s.2.2.Legal s.1) →
      TableRun C h₀ steps h
  | [], _, _, _, ht, _ => by
    obtain ⟨rfl, rfl, rfl⟩ : [] = _ ∧ h₀ = _ ∧ H₀ = _ := by simpa [TableOp.trace] using ht
    exact .start
  | op :: ops, _, _, _, ht, hlegal => by
    rw [TableOp.trace, Option.bind_eq_bind, Option.bind_eq_some_iff] at ht
    obtain ⟨⟨steps, h, H⟩, hsteps, ht⟩ := ht
    obtain ⟨⟨⟨h', r⟩, H'⟩, hop, ht⟩ := Option.bind_eq_some_iff.mp ht
    obtain ⟨rfl, rfl, rfl⟩ : (h, H, op) :: steps = _ ∧ h' = _ ∧ H' = _ := by
      simpa using ht
    exact .step (of_trace hsteps fun s hs => hlegal s (List.mem_cons_of_mem _ hs))
      (hlegal _ List.mem_cons_self) hop

/-! ### What an operation has done -/

variable {C : Clib K} {h h' : HashTable K} {r : Option (HashEntry K)} {H H' : Heap}

/-- `hash_entry_init` returns and leaves the struct where it is. -/
theorem hashEntryInit_returns (e : HashEntry K) (key : KeyArg K) (len : ℕ) (H : Heap) :
    ∃ ret e' H', hashEntryInit C.null Heap.malloc e key len H = some ((ret, e'), H') ∧
      e'.addr = e.addr := by
  rw [hashEntryInit.eq_def]
  cases key with
  | int key =>
    dsimp only
    split_ifs
    · exact ⟨_, _, H, rfl, rfl⟩
    · exact ⟨_, _, H, rfl, rfl⟩
  | str key =>
    cases key with
    | none => exact ⟨_, _, H, rfl, rfl⟩
    | some key =>
      dsimp only
      rw [HeapM.bind_apply (Heap.malloc_apply len H)]
      cases H.answer len with
      | none => exact ⟨_, _, _, rfl, rfl⟩
      | some a => exact ⟨_, _, _, rfl, rfl⟩

theorem HashTable.of_search {α : Type} {accepted : Bool} {key : K} {len : ℕ} {k : HeapM α}
    {a : α × Heap}
    (hrun : (do h.search accepted key len; k) H = some a) :
    (accepted = true → hashTableHashCode h key len < h.heads) ∧ k H = some a := by
  obtain ⟨_, H₁, hsearch, hrest⟩ := HeapM.of_bind hrun
  rw [HashTable.search] at hsearch
  split_ifs at hsearch with haccepted
  · obtain ⟨hreach, heq⟩ := HashTable.of_reach hsearch
    rw [Prod.mk.injEq] at heq
    exact ⟨fun _ => hreach, heq.2 ▸ hrest⟩
  · exact ⟨fun hc => absurd hc haccepted, (HeapM.pure_inj hsearch).2 ▸ hrest⟩

namespace TableOp

theorem run_lookup {accepted : Bool} {key : K} {len : ℕ} {a : Option (HashEntry K)}
    (hrun : (do h.search accepted key len; return (h, a) :
      HeapM (HashTable K × Option (HashEntry K))) H = some ((h', r), H')) : h' = h :=
  (congrArg Prod.fst (HeapM.pure_inj (HashTable.of_search hrun).2).1).symm

theorem run_insert {e : HashEntry K} {key : KeyArg K} {len : ℕ}
    (hrun : (TableOp.insert e key len).run C h H = some ((h', r), H')) :
    ∃ ret e', hashEntryInit C.null Heap.malloc e key len H = some ((ret, e'), H') ∧
      e'.addr = e.addr ∧ h.home e' < h.heads ∧ h' = hashTableInsert h e' ∧ r = none := by
  obtain ⟨ret, e', H₁, hinit, haddr⟩ := hashEntryInit_returns e key len H
  have hbind : (do
      h.reach (h.home e')
      return (hashTableInsert h e', none) : HeapM (HashTable K × Option (HashEntry K))) H₁ =
        some ((h', r), H') := by
    cases key with
    | int key =>
      rwa [TableOp.run, hashTableInsertI, bind_assoc, HeapM.bind_apply hinit, bind_assoc] at hrun
    | str key =>
      rwa [TableOp.run, hashTableInsertS, bind_assoc, HeapM.bind_apply hinit, bind_assoc] at hrun
  obtain ⟨_, H₂, hreach, hlast⟩ := HeapM.of_bind hbind
  obtain ⟨hset, heq⟩ := HashTable.of_reach hreach
  obtain ⟨-, rfl⟩ := Prod.mk.inj heq
  obtain ⟨hr, rfl⟩ := HeapM.pure_inj hlast
  obtain ⟨rfl, rfl⟩ := Prod.mk.inj hr
  exact ⟨ret, e', hinit, haddr, hset, rfl, rfl⟩

theorem run_insertSafe {e : HashEntry K} {key : KeyArg K} {len : ℕ}
    (hrun : (TableOp.insertSafe e key len).run C h H = some ((h', r), H')) :
    ∃ ret e' H₁, hashEntryInit C.null Heap.malloc e key len H = some ((ret, e'), H₁) ∧
      e'.addr = e.addr ∧ hashTableInsertSafe C h e' H₁ = some (h', H') ∧ r = none := by
  obtain ⟨ret, e', H₁, hinit, haddr⟩ := hashEntryInit_returns e key len H
  have hbind : (hashTableInsertSafe C h e' >>= fun h => pure (h, none)) H₁ =
      some ((h', r), H') := by
    cases key with
    | int key =>
      rwa [TableOp.run, hashTableInsertSafeI, bind_assoc, HeapM.bind_apply hinit] at hrun
    | str key =>
      rwa [TableOp.run, hashTableInsertSafeS, bind_assoc, HeapM.bind_apply hinit] at hrun
  obtain ⟨h₁, H₂, hins, hlast⟩ := HeapM.of_bind hbind
  obtain ⟨hr, rfl⟩ := HeapM.pure_inj hlast
  obtain ⟨rfl, rfl⟩ := Prod.mk.inj hr
  exact ⟨ret, e', H₁, hinit, haddr, hins, rfl⟩

theorem delKey_cases (h : HashTable K) (skey : Bool) (key : K) (len : ℕ) :
    ((skey = true ∨ len ≤ sizeofPtr → hashTableLookupKey h key len = none) ∧
        (if skey then hashTableDelKeyS h key len else hashTableDelKeyI h key len) = (none, h)) ∨
      (skey = true ∨ len ≤ sizeofPtr) ∧ ∃ e, hashTableLookupKey h key len = some e ∧
        (if skey then hashTableDelKeyS h key len else hashTableDelKeyI h key len) =
          (some e, h.listDelInit (hashTableHashCode h key len) e) := by
  have hdel : (skey = true ∨ len ≤ sizeofPtr →
        (if skey then hashTableDelKeyS h key len else hashTableDelKeyI h key len) =
          hashTableDelKey h key len) := by
    rintro (rfl | hlen)
    · rfl
    · rw [hashTableDelKeyS, hashTableDelKeyI, if_neg (Nat.not_lt.mpr hlen), ite_self]
  by_cases haccepts : skey = true ∨ len ≤ sizeofPtr
  · rw [hdel haccepts, hashTableDelKey]
    cases hashTableLookupKey h key len with
    | none => exact .inl ⟨fun _ => rfl, rfl⟩
    | some e => exact .inr ⟨haccepts, e, rfl, rfl⟩
  · refine .inl ⟨fun hc => absurd hc haccepts, ?_⟩
    rw [not_or, Nat.not_le] at haccepts
    rw [if_neg haccepts.1, hashTableDelKeyI, if_pos haccepts.2]

theorem run_delKey {skey : Bool} {key : K} {len : ℕ}
    (hrun : (TableOp.delKey skey key len).run C h H = some ((h', r), H')) :
    ((skey = true ∨ len ≤ sizeofPtr → hashTableLookupKey h key len = none) ∧ h' = h) ∨
      (skey = true ∨ len ≤ sizeofPtr) ∧ ∃ e, hashTableLookupKey h key len = some e ∧
        h' = h.listDelInit (hashTableHashCode h key len) e := by
  rw [TableOp.run] at hrun
  obtain ⟨-, hrun⟩ := HashTable.of_search hrun
  rcases delKey_cases h skey key len with ⟨hnone, hdel⟩ | ⟨haccepts, e, hl, hdel⟩ <;>
    rw [hdel] at hrun
  · exact .inl ⟨hnone, (congrArg Prod.fst (HeapM.pure_inj hrun).1).symm⟩
  · exact .inr ⟨haccepts, e, hl, (congrArg Prod.fst (HeapM.pure_inj hrun).1).symm⟩

theorem run_delKeySafe {skey : Bool} {key : K} {len : ℕ} :
    (TableOp.delKeySafe skey key len).run C h H = (TableOp.delKey skey key len).run C h H := by
  have hsame : hashTableDelKeySafe h key len = hashTableDelKey h key len :=
    hashTableDelKeySafe_eq h key len
  rw [TableOp.run, TableOp.run, hashTableDelKeySafeS, hashTableDelKeySafeI, hsame]
  rfl

/-- **One operation** leaves every entry in its home bucket. -/
theorem placed {op : TableOp K} (hp : h.Placed) (hlegal : op.Legal h)
    (hrun : op.run C h H = some ((h', r), H')) : h'.Placed := by
  have hdelKey : ∀ {skey : Bool} {key : K} {len : ℕ},
      (TableOp.delKey skey key len).run C h H = some ((h', r), H') → h'.Placed := by
    intro skey key len hdel
    rcases run_delKey hdel with ⟨-, rfl⟩ | ⟨-, e, hl, rfl⟩
    · exact hp
    · exact hp.listDelInit (hashTableLookupKey_mem hl).1
  cases op with
  | insert e key len =>
    obtain ⟨ret, e', -, haddr, -, rfl, -⟩ := run_insert hrun
    exact hp.listAdd fun t ht => haddr ▸ hlegal t ht
  | insertSafe e key len =>
    obtain ⟨ret, e', H₁, -, haddr, hins, -⟩ := run_insertSafe hrun
    obtain ⟨h₁, rfl, ⟨-, rfl, -⟩ | ⟨-, -, hre⟩⟩ := hashTableInsertSafe_rehashed hp hins
    · exact hp.insertAt fun t ht => haddr ▸ hlegal t ht
    · exact hre.placed.insertAt fun t ht => haddr ▸ hlegal t (hre.subset ht)
  | delKey skey key len => exact hdelKey hrun
  | delKeySafe skey key len => exact hdelKey (run_delKeySafe ▸ hrun)
  | lookupKey skey key len => exact (run_lookup hrun) ▸ hp
  | lookupKeySafe skey key len => exact (run_lookup hrun) ▸ hp

end TableOp

/-- **Every state of a run** has its entries in their home buckets. -/
theorem TableRun.placed {h₀ : HashTable K} {steps : List (HashTable K × Heap × TableOp K)}
    (hrun : TableRun C h₀ steps h) (hp : h₀.Placed) : h.Placed := by
  induction hrun with
  | start => exact hp
  | step _ hlegal hop ih => exact TableOp.placed ih hlegal hop

/-- A table from `hash_table_init` is a good start. -/
theorem placed_of_hashTableInit {b : ℕ} {keycmp : Option (K → K → ℕ → ℤ)} {hashFn : K → ℕ → ℕ}
    (hinit : hashTableInit Heap.malloc C b keycmp (some hashFn) H = some (some h, H')) :
    h.Placed := by
  obtain ⟨tableMem, bucketLocks, rfl⟩ := eq_fresh_of_hashTableInit hinit
  exact placed_fresh C _ _ _ _ _

end Milu
