import Milu.Hashtbl.Locks
import Milu.Hashtbl.Runs
import Milu.Lib.Ends
import Milu.Lib.Ledger

/-!
# One thread that uses a table

The operations with their locks, run by a single thread against the mutexes of the table, the
allocator and the table itself. A mutex is not recursive: a thread that locks one that it holds
waits for ever, and it may not unlock one that it does not hold.

Beyond `2 ^ 32` buckets a bucket may have a head and a mutex that `hash_table_init` never set up. A
call that comes to one of these is lost, as is one that walks off the table.

The arrays of the table are kept on a ledger. The copy of a string key belongs to its entry and is
left out of it, as is anything else the program asks for.

## Main definitions

* `TableThread`, `ThreadM`, `LockFault` — the thread, and how a call may fail to return
* `ThreadOp`, `ThreadOp.perform` — a call on the table
* `HashTable.WalkEnds` — the walk that a resize makes comes to its end
* `TableOp.InReach` — a call comes to no bucket that was never set up

## Main results

* `hashTableInit_ledger` — what `hash_table_init` asks for and keeps
* `forEachSafe_locked` — the walk of a resize, with its locks, goes as the one without
* `resize_locked`, `resize_inversion`, `insertSafe_locked` — what a resize and a safe insert do
-/

namespace Milu

variable {K : Type}

/-! ### The thread -/

/-- The thread: the table, the mutexes of the table that it holds, and the ledger of the blocks that
the table was given. -/
structure TableThread (K : Type) where
  htable : HashTable K
  held : List TableLock
  ledger : Ledger

/-- Why a call does not return: it locks a mutex that the thread holds, unlocks one that it does not
hold, or walks off the table or to a bucket that was never set up. -/
inductive LockFault
  | deadlock
  | notHeld
  | astray
  deriving DecidableEq, Repr

/-- Computations of the thread. -/
abbrev ThreadM (K : Type) := StateT (TableThread K) (Except LockFault)

/-- `hash_table_init` has set up the mutex. -/
def TableLock.SetUp (h : HashTable K) : TableLock → Prop
  | .table => True
  | .bucket n => n < h.heads

instance (h : HashTable K) (l : TableLock) : Decidable (l.SetUp h) :=
  match l with
  | .table => .isTrue trivial
  | .bucket n => inferInstanceAs (Decidable (n < h.heads))

namespace TableThread

def lock (l : TableLock) : ThreadM K Unit := fun s =>
  if ¬ l.SetUp s.htable then .error .astray
  else if l ∈ s.held then .error .deadlock
  else .ok ((), { s with held := l :: s.held })

def unlock (l : TableLock) : ThreadM K Unit := fun s =>
  if l ∈ s.held then .ok ((), { s with held := s.held.erase l }) else .error .notHeld

def trylock (l : TableLock) : ThreadM K ℕ := fun s =>
  if ¬ l.SetUp s.htable then .error .astray
  else if l ∈ s.held then .ok (Locked.ebusy, s)
  else .ok (0, { s with held := l :: s.held })

/-- A call without locks comes to the head of a bucket, unless its key is refused before. -/
def search (accepted : Bool) (key : K) (len : ℕ) : ThreadM K Unit := fun s =>
  if accepted → hashTableHashCode s.htable key len < s.htable.heads then .ok ((), s)
  else .error .astray

/-- A computation on the ledger. -/
def onLedger {α : Type} (x : StateM Ledger α) : ThreadM K α := fun s =>
  .ok ((x s.ledger).1, { s with ledger := (x s.ledger).2 })

/-- `malloc`, for the copy of a string key. -/
def mallocKey (n : ℕ) : ThreadM K (Option ℕ) := fun s =>
  .ok (s.ledger.heap.answer n, { s with ledger := s.ledger.afterOther n })

/-- What the operations run on. -/
def env : TableEnv (ThreadM K) K where
  lock := lock
  unlock := unlock
  malloc n := onLedger (Ledger.malloc n)
  free a := onLedger (Ledger.free a)
  load := fun s => .ok (s.htable, s)
  store h := fun s => .ok ((), { s with htable := h })
  astray := fun _ => .error .astray

end TableThread

open TableThread

/-! ### Calls -/

/-- The calls of `TableOp`, with their locks. -/
def TableOp.perform (C : Clib K) : TableOp K → ThreadM K (Option (HashEntry K))
  | .insert e key len => do
    let (_, e) ← hashEntryInit C.null mallocKey e key len
    search true e.key e.klen
    let h ← env.load
    env.store (hashTableInsert h e)
    return none
  | .insertSafe e key len => do
    Locked.hashTableInsertSafeKey env mallocKey C e key len
    return none
  | .delKey skey key len => do
    search (skey || len ≤ sizeofPtr) key len
    let h ← env.load
    let (e, h) := if skey then hashTableDelKeyS h key len else hashTableDelKeyI h key len
    env.store h
    return e
  | .delKeySafe skey key len =>
    if skey then Locked.hashTableDelKeySafeS env key len
    else Locked.hashTableDelKeySafeI env key len
  | .lookupKey skey key len => do
    search true key len
    let h ← env.load
    return if skey then hashTableLookupKeyS h key len else hashTableLookupKeyI h key len
  | .lookupKeySafe skey key len =>
    if skey then Locked.hashTableLookupKeySafeS env key len
    else Locked.hashTableLookupKeySafeI env key len

/-- A call on the table: one of `TableOp`, or a function that only looks at it. -/
inductive ThreadOp (K : Type)
  | call (op : TableOp K)
  | hashCodeSafe (key : K) (len : ℕ)
  | locked
  | bucketLocked (n : ℕ)

def ThreadOp.perform (C : Clib K) : ThreadOp K → ThreadM K Unit
  | .call op => do
    let _ ← op.perform C
    return ()
  | .hashCodeSafe key len => do
    let _ ← Locked.hashTableHashCodeSafe env key len
    return ()
  | .locked => do
    let _ ← Locked.hashTableLocked trylock
    return ()
  | .bucketLocked n => do
    let _ ← Locked.hashTableBucketLocked trylock n
    return ()

/-! ### The two arrays -/

/-- The bytes of the bucket array of a table for a threshold of `b`. -/
def tableBytes (C : Clib K) (b : ℕ) : ℕ := sizeofHashEntry * hashtblSz C (b % 2 ^ 32) % 2 ^ 64

/-- The bytes of its lock array. -/
def lockBytes (C : Clib K) (b : ℕ) : ℕ := sizeofMutex * hashtblSz C (b % 2 ^ 32) % 2 ^ 64

/-- **Setting up a table** asks for the bucket array, and then for the lock array. Without a hash
function it fails with both. -/
theorem hashTableInit_ledger (C : Clib K) (b : ℕ) (keycmp : Option (K → K → ℕ → ℤ))
    (hashFn : Option (K → ℕ → ℕ)) (L : Ledger) :
    (L.heap.answer (tableBytes C b) = none ∧
        hashTableInit Ledger.malloc C b keycmp hashFn L = (none, L.afterMalloc (tableBytes C b))) ∨
      ∃ tableMem, L.heap.answer (tableBytes C b) = some tableMem ∧
        ((L.heap.afterMalloc (tableBytes C b)).answer (lockBytes C b) = none ∧
            hashTableInit Ledger.malloc C b keycmp hashFn L =
              (none, (L.afterMalloc (tableBytes C b)).afterMalloc (lockBytes C b)) ∨
          ∃ bucketLocks,
            (L.heap.afterMalloc (tableBytes C b)).answer (lockBytes C b) = some bucketLocks ∧
            hashTableInit Ledger.malloc C b keycmp hashFn L =
              (hashFn.map fun f => HashTable.fresh C (b % 2 ^ 32) (keycmp.getD C.memcmp) f tableMem
                bucketLocks, (L.afterMalloc (tableBytes C b)).afterMalloc (lockBytes C b))) := by
  rw [hashTableInit, Ledger.malloc_bind, ← tableBytes, ← lockBytes]
  cases ht : L.heap.answer (tableBytes C b) with
  | none => exact .inl ⟨rfl, rfl⟩
  | some tableMem =>
    refine .inr ⟨tableMem, rfl, ?_⟩
    dsimp only
    rw [Ledger.malloc_bind, Ledger.heap_afterMalloc]
    cases hl : (L.heap.afterMalloc (tableBytes C b)).answer (lockBytes C b) with
    | none => exact .inl ⟨rfl, rfl⟩
    | some bucketLocks =>
      refine .inr ⟨bucketLocks, rfl, ?_⟩
      cases hashFn with
      | none => rfl
      | some f => rfl

theorem eq_fresh_of_ledger {C : Clib K} {b : ℕ} {keycmp : K → K → ℕ → ℤ} {hashFn : K → ℕ → ℕ}
    {L L' : Ledger} {h : HashTable K}
    (hinit : hashTableInit Ledger.malloc C (b % 2 ^ 64) (some keycmp) (some hashFn) L =
      (some h, L')) :
    ∃ tableMem bucketLocks,
      h = HashTable.fresh C (b % 2 ^ 32) keycmp hashFn tableMem bucketLocks := by
  rw [← Nat.mod_mod_of_dvd b (by decide : 2 ^ 32 ∣ 2 ^ 64)]
  rcases hashTableInit_ledger C (b % 2 ^ 64) (some keycmp) (some hashFn) L with
    ⟨-, hrun⟩ | ⟨tableMem, -, ⟨-, hrun⟩ | ⟨bucketLocks, -, hrun⟩⟩ <;>
    obtain ⟨hsome, -⟩ := Prod.mk.inj (hinit.symm.trans hrun)
  · exact absurd hsome (Option.some_ne_none h)
  · exact absurd hsome (Option.some_ne_none h)
  · exact ⟨tableMem, bucketLocks, Option.some.inj hsome⟩

theorem TableThread.onLedger_bind {α β : Type} (x : StateM Ledger α) (f : α → StateM Ledger β) :
    (onLedger (x >>= f) : ThreadM K β) = onLedger x >>= fun a => onLedger (f a) := rfl

theorem hashTableInit_onLedger (C : Clib K) (b : ℕ) (keycmp : Option (K → K → ℕ → ℤ))
    (hashFn : Option (K → ℕ → ℕ)) :
    hashTableInit (m := ThreadM K) env.malloc C b keycmp hashFn =
      onLedger (hashTableInit Ledger.malloc C b keycmp hashFn) := by
  rw [hashTableInit, hashTableInit, onLedger_bind]
  refine bind_congr fun tableMem => ?_
  cases tableMem with
  | none => rfl
  | some tableMem =>
    rw [onLedger_bind]
    refine bind_congr fun bucketLocks => ?_
    cases bucketLocks with
    | none => rfl
    | some bucketLocks => cases hashFn <;> rfl

/-! ### Entries -/

/-- The heap after `hash_entry_init` was given the key: a string is copied. -/
def KeyArg.heapAfter (H : Heap) (len : ℕ) : KeyArg K → Heap
  | .str (some _) => H.afterMalloc len
  | .str none | .int _ => H

theorem hashEntryInit_thread (C : Clib K) (e : HashEntry K) (key : KeyArg K) (len : ℕ)
    (s : TableThread K) :
    ∃ ret e' L', hashEntryInit C.null mallocKey e key len s =
      .ok ((ret, e'), { s with ledger := L' }) ∧
      L'.heap = key.heapAfter s.ledger.heap len ∧ ∀ as, s.ledger.Owns as → L'.Owns as := by
  rw [hashEntryInit.eq_def]
  cases key with
  | int key =>
    dsimp only
    split_ifs
    · exact ⟨_, _, s.ledger, rfl, rfl, fun _ h => h⟩
    · exact ⟨_, _, s.ledger, rfl, rfl, fun _ h => h⟩
  | str key =>
    cases key with
    | none => exact ⟨_, _, s.ledger, rfl, rfl, fun _ h => h⟩
    | some key =>
      have hmalloc : (mallocKey len : ThreadM K _) s =
          .ok (s.ledger.heap.answer len, { s with ledger := s.ledger.afterOther len }) := rfl
      dsimp only
      rw [bind_of_ok hmalloc]
      cases s.ledger.heap.answer len with
      | none => exact ⟨_, _, _, rfl, rfl, fun _ h => h.other len⟩
      | some a => exact ⟨_, _, _, rfl, rfl, fun _ h => h.other len⟩

/-! ### Critical sections -/

namespace TableThread

variable {s : TableThread K} {l : TableLock}

theorem lock_table (h : .table ∉ s.held) :
    lock .table s = .ok ((), { s with held := .table :: s.held }) := by
  have hset : ¬ ¬ TableLock.SetUp s.htable .table := not_not_intro trivial
  rw [lock, if_neg hset, if_neg h]

theorem lock_bucket {n : ℕ} (hset : n < s.htable.heads) (h : .bucket n ∉ s.held) :
    lock (.bucket n) s = .ok ((), { s with held := .bucket n :: s.held }) := by
  have hset' : ¬ ¬ TableLock.SetUp s.htable (.bucket n) := not_not_intro hset
  rw [lock, if_neg hset', if_neg h]

theorem lock_astray {n : ℕ} (hset : ¬ n < s.htable.heads) :
    lock (.bucket n) s = .error .astray := if_pos hset

theorem trylock_of_notMem (hset : l.SetUp s.htable) (h : l ∉ s.held) :
    trylock l s = .ok (0, { s with held := l :: s.held }) := by
  rw [trylock, if_neg (not_not_intro hset), if_neg h]

theorem search_apply {accepted : Bool} {key : K} {len : ℕ}
    (hreach : accepted = true → hashTableHashCode s.htable key len < s.htable.heads) :
    search accepted key len s = .ok ((), s) := if_pos hreach

theorem search_astray {accepted : Bool} {key : K} {len : ℕ} (haccepted : accepted = true)
    (hset : ¬ hashTableHashCode s.htable key len < s.htable.heads) :
    search accepted key len s = .error .astray := if_neg fun h => hset (h haccepted)

theorem unlock_cons (h : HashTable K) (held : List TableLock) (L : Ledger) :
    unlock l ⟨h, l :: held, L⟩ = .ok ((), ⟨h, held, L⟩) := by
  rw [unlock, if_pos List.mem_cons_self]
  dsimp only
  rw [List.erase_cons_head]

theorem hashCodeSafe_locked (hl : .table ∉ s.held) (key : K) (len : ℕ) :
    Locked.hashTableHashCodeSafe env key len s = .ok (hashTableHashCode s.htable key len, s) := by
  rw [Locked.hashTableHashCodeSafe]
  refine (bind_of_ok (lock_table hl) _).trans ?_
  refine (bind_of_ok rfl _).trans ?_
  exact bind_of_ok (unlock_cons s.htable s.held s.ledger) _

/-- A search under the lock of its bucket leaves everything as it was. -/
theorem lookupKeySafe_locked (hl : ∀ l, l ∉ s.held) (key : K) (len : ℕ) :
    Locked.hashTableLookupKeySafe env key len s =
      if hashTableHashCode s.htable key len < s.htable.heads then
        .ok (hashTableLookupKeySafe s.htable key len, s)
      else .error .astray := by
  rw [Locked.hashTableLookupKeySafe, hashTableLookupKeySafe]
  refine (bind_of_ok (hashCodeSafe_locked (hl _) key len) _).trans ?_
  split_ifs with hset
  · refine (bind_of_ok (lock_bucket hset (hl _)) _).trans ?_
    refine (bind_of_ok rfl _).trans ?_
    dsimp only
    cases (s.htable.table (hashTableHashCode s.htable key len)).find? _ with
    | none => exact bind_of_ok (unlock_cons s.htable s.held s.ledger) _
    | some tmp => exact bind_of_ok (unlock_cons s.htable s.held s.ledger) _
  · exact bind_of_error (lock_astray hset) _

/-- A deletion under the lock of its bucket deletes what the one without locks does. -/
theorem delKeySafe_locked (hl : ∀ n, .bucket n ∉ s.held) (key : K) (len : ℕ) :
    Locked.hashTableDelKeySafe env key len s =
      if hashTableHashCode s.htable key len < s.htable.heads then
        .ok ((hashTableDelKeySafe s.htable key len).1,
          { s with htable := (hashTableDelKeySafe s.htable key len).2 })
      else .error .astray := by
  rw [Locked.hashTableDelKeySafe, hashTableDelKeySafe]
  refine (bind_of_ok rfl _).trans ?_
  split_ifs with hset
  · refine (bind_of_ok (lock_bucket hset (hl _)) _).trans ?_
    refine (bind_of_ok rfl _).trans ?_
    dsimp only
    cases hashTableLookupKey s.htable key len with
    | none => exact bind_of_ok (unlock_cons s.htable s.held s.ledger) _
    | some e =>
      refine (bind_of_ok rfl _).trans ?_
      exact bind_of_ok (unlock_cons _ s.held s.ledger) _
  · exact bind_of_error (lock_astray hset) _

theorem delHashEntrySafe_locked (hl : ∀ n, .bucket n ∉ s.held) {e : HashEntry K}
    (hset : s.htable.home e < s.htable.heads) :
    Locked.hashTableDelHashEntrySafe env e s = .ok ((hashTableDelHashEntrySafe s.htable e).1,
      { s with htable := (hashTableDelHashEntrySafe s.htable e).2 }) := by
  rw [Locked.hashTableDelHashEntrySafe, hashTableDelHashEntrySafe, Locked.hashTableDelKeySafeI,
    hashTableDelKeySafeI]
  split_ifs
  · exact (delKeySafe_locked hl _ _).trans (if_pos hset)
  · rfl
  · exact (delKeySafe_locked hl _ _).trans (if_pos hset)

theorem delHashEntrySafe_astray (hl : ∀ n, .bucket n ∉ s.held) {e : HashEntry K}
    (hset : ¬ s.htable.home e < s.htable.heads) :
    Locked.hashTableDelHashEntrySafe env e s = .error .astray ∨
      Locked.hashTableDelHashEntrySafe env e s = .ok ((hashTableDelHashEntrySafe s.htable e).1,
        { s with htable := (hashTableDelHashEntrySafe s.htable e).2 }) := by
  rw [Locked.hashTableDelHashEntrySafe, hashTableDelHashEntrySafe, Locked.hashTableDelKeySafeI,
    hashTableDelKeySafeI]
  split_ifs
  · exact .inl ((delKeySafe_locked hl _ _).trans (if_neg hset))
  · exact .inr rfl
  · exact .inl ((delKeySafe_locked hl _ _).trans (if_neg hset))

end TableThread

/-! ### The walk of a resize -/

/-- What the thread makes of the outcome of a walk without locks: the value and the auxiliary table,
with the old table written back. -/
def TableThread.walked {α : Type} (s : TableThread K) (o : Option (α × HashTable K × HashTable K)) :
    Except LockFault ((α × HashTable K) × TableThread K) :=
  o.elim (.error .astray) fun r => .ok ((r.1, r.2.2), { s with htable := r.2.1 })

variable {s : TableThread K}

/-- The body of the loop goes as the one without locks, or it is lost in a table that an
`unsigned int` cannot count. -/
theorem migrateEntry_locked (hl : ∀ n, .bucket n ∉ s.held) (hpos : 0 < s.htable.buckets)
    (pos : Pos K) (hti : ℕ) (aux : HashTable K) :
    Locked.migrateEntry env pos hti aux s = s.walked (migrateEntry pos hti (s.htable, aux)) ∨
      Locked.migrateEntry env pos hti aux s = .error .astray ∧ 2 ^ 32 < s.htable.buckets := by
  cases pos with
  | head i => exact .inl rfl
  | node e =>
    have hreturns : Locked.hashTableDelHashEntrySafe env e s =
          .ok ((hashTableDelHashEntrySafe s.htable e).1,
            { s with htable := (hashTableDelHashEntrySafe s.htable e).2 }) →
        Locked.migrateEntry env (.node e) hti aux s =
          s.walked (migrateEntry (.node e) hti (s.htable, aux)) := by
      intro hplain
      have hdel : (StateT.lift (Locked.hashTableDelHashEntrySafe env e) :
          StateT (HashTable K) (ThreadM K) _) aux s =
            .ok (((hashTableDelHashEntrySafe s.htable e).1, aux),
              { s with htable := (hashTableDelHashEntrySafe s.htable e).2 }) :=
        bind_of_ok hplain _
      rw [Locked.migrateEntry, migrateEntry]
      refine (bind_local_of_ok hdel _).trans ?_
      rcases hashTableDelHashEntrySafe s.htable e with ⟨_ | t, h⟩
      · rfl
      · show (if aux.home t < aux.heads then _ else _ : StateT (HashTable K) (ThreadM K) ℕ) aux _ =
          s.walked (if aux.home t < aux.heads then _ else _)
        split_ifs
        · rfl
        · rfl
    by_cases hset : s.htable.home e < s.htable.heads
    · exact .inl (hreturns (delHashEntrySafe_locked hl hset))
    · rcases delHashEntrySafe_astray hl hset with hlost | hplain
      · refine .inr ⟨?_, ?_⟩
        · rw [Locked.migrateEntry]
          have hdel : (StateT.lift (Locked.hashTableDelHashEntrySafe env e) :
              StateT (HashTable K) (ThreadM K) _) aux s = .error .astray := bind_of_error hlost _
          exact bind_local_of_error hdel _
        · by_contra hle
          exact hset (HashTable.home_lt_heads hpos (Nat.not_lt.mp hle) e)
      · exact .inl (hreturns hplain)

theorem load_locked (aux : HashTable K) (s : TableThread K) :
    (StateT.lift env.load : StateT (HashTable K) (ThreadM K) _) aux s =
      .ok ((s.htable, aux), s) := rfl

/-- The loops go as the ones without locks, or are lost in a table that an `unsigned int` cannot
count. -/
theorem forEachSafe_locked_or (aux : HashTable K) : ∀ (fuel hti : ℕ)
    (cur : Option (Pos K × Pos K)) {s : TableThread K}, (∀ n, .bucket n ∉ s.held) →
    (cur.isSome → 0 < s.htable.buckets) →
    forEachSafe (StateT.lift env.astray) (StateT.lift env.load) (Locked.migrateEntry env) fuel hti
          cur aux s =
        s.walked (forEachSafe failure (Prod.fst <$> get) migrateEntry fuel hti cur
          (s.htable, aux)) ∨
      forEachSafe (StateT.lift env.astray) (StateT.lift env.load) (Locked.migrateEntry env) fuel hti
          cur aux s = .error .astray ∧ 2 ^ 32 < s.htable.buckets
  | 0, _, _, _, _, _ => .inl rfl
  | fuel + 1, hti, none, s, hl, _ => by
    rw [forEachSafe_outer]
    have houter : forEachSafe (StateT.lift env.astray) (StateT.lift env.load)
        (Locked.migrateEntry env) (fuel + 1) hti none aux s = _ :=
      bind_local_of_ok (load_locked aux s) _
    rw [houter]
    show (if hti < s.htable.buckets then _ else _ : StateT (HashTable K)
      (ThreadM K) Unit) aux s = _ ∨
      (if hti < s.htable.buckets then _ else _ : StateT (HashTable K)
        (ThreadM K) Unit) aux s = _ ∧ _
    split_ifs with hin
    · cases s.htable.next (.head hti) with
      | none => exact .inl rfl
      | some pos =>
        show ((s.htable.next pos).elim _ _ : StateT (HashTable K) (ThreadM K) Unit) aux s =
            s.walked ((s.htable.next pos).elim _ _) ∨
          ((s.htable.next pos).elim _ _ : StateT (HashTable K) (ThreadM K) Unit) aux s = _ ∧ _
        cases s.htable.next pos with
        | none => exact .inl rfl
        | some n =>
          exact forEachSafe_locked_or aux fuel hti (some (pos, n)) hl fun _ => Nat.zero_lt_of_lt hin
    · exact .inl rfl
  | fuel + 1, hti, some (pos, n), s, hl, hpos => by
    cases hhead : pos.isHead hti with
    | true =>
      rw [forEachSafe_head hhead, forEachSafe, if_pos hhead]
      exact forEachSafe_locked_or aux fuel _ none hl fun h => absurd h Bool.false_ne_true
    | false =>
      rw [forEachSafe_node hhead, forEachSafe, if_neg (by rw [hhead]; decide)]
      rcases migrateEntry_locked hl (hpos rfl) pos hti aux with hbody | ⟨hlost, hbig⟩
      · cases hstep : migrateEntry pos hti (s.htable, aux) with
        | none =>
          rw [hstep] at hbody
          exact .inl (bind_local_of_error hbody _)
        | some r =>
          obtain ⟨hbuckets, -⟩ := migrateEntry_keeps hstep
          rw [hstep] at hbody
          rw [bind_local_of_ok hbody]
          rw [bind_local_of_ok (load_locked r.2.2 _)]
          show ((r.2.1.next n).elim _ _ : StateT (HashTable K) (ThreadM K) Unit) _ _ =
              s.walked ((r.2.1.next n).elim _ _) ∨
            ((r.2.1.next n).elim _ _ : StateT (HashTable K) (ThreadM K) Unit) _ _ = _ ∧ _
          cases r.2.1.next n with
          | none => exact .inl rfl
          | some n' =>
            rw [← hbuckets]
            exact forEachSafe_locked_or r.2.2 fuel r.1 (some (n, n'))
              (s := { s with htable := r.2.1 }) hl fun _ => hbuckets ▸ hpos rfl
      · exact .inr ⟨bind_local_of_error hlost _, hbig⟩

/-- **The walk of a resize**, with its locks, goes as the one without. -/
theorem forEachSafe_locked (aux : HashTable K) (fuel : ℕ) {s : TableThread K}
    (hl : ∀ n, .bucket n ∉ s.held) :
    forEachSafe (StateT.lift env.astray) (StateT.lift env.load) (Locked.migrateEntry env) fuel 0
        none aux s =
      s.walked (forEachSafe failure (Prod.fst <$> get) migrateEntry fuel 0 none
        (s.htable, aux)) := by
  rcases forEachSafe_locked_or aux fuel 0 none hl nofun with hsame | ⟨hlost, hbig⟩
  · exact hsame
  · rw [hlost, forEachSafe_migrate_wraps fuel hbig.le (by decide)]
    rfl

/-! ### Resizes and safe inserts -/

/-- What a resize makes of the outcome of setting up the auxiliary table. -/
def TableThread.resized (s : TableThread K) :
    Option (HashTable K) × Ledger → Except LockFault (ℤ × TableThread K)
  | (none, L) => .ok (-1, { s with ledger := L })
  | (some aux, L) =>
    (forEachSafe failure (Prod.fst <$> get) migrateEntry s.htable.rounds 0 none
      (s.htable, aux)).elim (.error .astray) fun r => .ok (0, { s with
        htable := r.2.1.takeOver r.2.2
        ledger := (L.afterFree s.htable.tableMem).afterFree s.htable.bucketLocks })

/-- **A resize** fails and keeps whatever it was given, or walks the old table and gives back its
arrays, or is lost on the walk. -/
theorem resize_locked (C : Clib K) (hfree : s.held = []) :
    Locked.hashTableResize env C s =
      s.resized (hashTableInit Ledger.malloc C (s.htable.resizeThreshold * 2 % 2 ^ 64)
        (some s.htable.keycmp) (some s.htable.myHashFn) s.ledger) := by
  obtain ⟨h, held, L⟩ := s
  obtain rfl : held = [] := hfree
  rw [Locked.hashTableResize]
  refine (bind_of_ok (lock_table List.not_mem_nil) _).trans ?_
  refine (bind_of_ok rfl _).trans ?_
  rw [hashTableInit_onLedger]
  refine (bind_of_ok rfl _).trans ?_
  dsimp only
  rcases hashTableInit Ledger.malloc C (h.resizeThreshold * 2 % 2 ^ 64) (some h.keycmp)
    (some h.myHashFn) L with ⟨_ | aux, L'⟩
  · exact bind_of_ok (unlock_cons h [] L') _
  · refine (bind_of_ok rfl _).trans ?_
    have hwalk := forEachSafe_locked aux h.rounds (s := ⟨h, [.table], L'⟩) (by simp)
    rw [TableThread.resized]
    dsimp only
    cases hplain : forEachSafe failure (Prod.fst <$> get) migrateEntry h.rounds 0 none (h, aux) with
    | none =>
      rw [hplain] at hwalk
      exact bind_of_error hwalk _
    | some r =>
      rw [hplain] at hwalk
      refine (bind_of_ok hwalk _).trans ?_
      refine (bind_of_ok rfl _).trans ?_
      refine (bind_of_ok rfl _).trans ?_
      refine (bind_of_ok rfl _).trans ?_
      refine (bind_of_ok rfl _).trans ?_
      exact bind_of_ok (unlock_cons _ [] _) _

theorem resize_inversion {C : Clib K} {ret : ℤ} {s₁ : TableThread K} (hfree : s.held = [])
    (hres : Locked.hashTableResize env C s = .ok (ret, s₁)) :
    (∃ L, hashTableInit Ledger.malloc C (s.htable.resizeThreshold * 2 % 2 ^ 64)
          (some s.htable.keycmp) (some s.htable.myHashFn) s.ledger = (none, L) ∧
        ret = -1 ∧ s₁ = { s with ledger := L }) ∨
      ∃ aux L old new, hashTableInit Ledger.malloc C (s.htable.resizeThreshold * 2 % 2 ^ 64)
          (some s.htable.keycmp) (some s.htable.myHashFn) s.ledger = (some aux, L) ∧
        forEachSafe failure (Prod.fst <$> get) migrateEntry s.htable.rounds 0 none
          (s.htable, aux) = some ((), old, new) ∧
        ret = 0 ∧ s₁ = { s with
          htable := old.takeOver new
          ledger := (L.afterFree s.htable.tableMem).afterFree s.htable.bucketLocks } := by
  rw [resize_locked C hfree] at hres
  rcases hinit : hashTableInit Ledger.malloc C (s.htable.resizeThreshold * 2 % 2 ^ 64)
    (some s.htable.keycmp) (some s.htable.myHashFn) s.ledger with ⟨_ | aux, L⟩ <;>
    rw [hinit, TableThread.resized] at hres
  · obtain ⟨rfl, rfl⟩ := Prod.mk.inj (Except.ok.inj hres)
    exact .inl ⟨L, rfl, rfl, rfl⟩
  · cases hwalk : forEachSafe failure (Prod.fst <$> get) migrateEntry s.htable.rounds 0 none
      (s.htable, aux) with
    | none =>
      rw [hwalk] at hres
      cases hres
    | some r =>
      rw [hwalk] at hres
      obtain ⟨rfl, rfl⟩ := Prod.mk.inj (Except.ok.inj hres)
      exact .inr ⟨aux, L, r.2.1, r.2.2, rfl, hwalk, rfl, rfl⟩

/-- A resize that returns leaves no mutex locked, and one that fails leaves the table. -/
theorem resize_returns {C : Clib K} {ret : ℤ} {s₁ : TableThread K} (hfree : s.held = [])
    (hres : Locked.hashTableResize env C s = .ok (ret, s₁)) :
    s₁.held = [] ∧ (ret ≠ 0 → s₁.htable = s.htable) := by
  rcases resize_inversion hfree hres with ⟨L, -, rfl, rfl⟩ | ⟨aux, L, old, new, -, -, rfl, rfl⟩
  · exact ⟨hfree, fun _ => rfl⟩
  · exact ⟨hfree, fun hne => absurd rfl hne⟩

/-- The end of a safe insert: the entry is put in front of its home chain, if the head of that was
set up. -/
def TableThread.linked (s : TableThread K) (e : HashEntry K) :
    Except LockFault (Unit × TableThread K) :=
  if s.htable.home e < s.htable.heads then
    .ok ((), { s with htable := s.htable.insertAt (s.htable.home e) e })
  else .error .astray

/-- What a safe insert has done when it returns. -/
theorem TableThread.of_linked {e : HashEntry K} {α : Type} {f : Unit → ThreadM K α} {a : α}
    {s' t : TableThread K} {x : ThreadM K Unit} (hx : x t = s.linked e)
    (hrun : (x >>= f) t = .ok (a, s')) :
    f () { s with htable := s.htable.insertAt (s.htable.home e) e } = .ok (a, s') := by
  rw [TableThread.linked] at hx
  split_ifs at hx
  · rwa [bind_of_ok hx] at hrun
  · cases (bind_of_error hx f).symm.trans hrun

/-- **A safe insert** resizes a full table first, and then puts the entry in front of its home
chain, unless it was lost in the resize. -/
theorem insertSafe_locked (C : Clib K) (hfree : s.held = []) (e : HashEntry K) :
    (s.htable.usedBuckets < s.htable.resizeThreshold ∧
        Locked.hashTableInsertSafe env C e s = s.linked e) ∨
      (s.htable.resizeThreshold ≤ s.htable.usedBuckets ∧ ∃ ret s₁,
        Locked.hashTableResize env C s = .ok (ret, s₁) ∧
          Locked.hashTableInsertSafe env C e s = s₁.linked e) ∨
      (s.htable.resizeThreshold ≤ s.htable.usedBuckets ∧ ∃ x,
        Locked.hashTableResize env C s = .error x ∧
          Locked.hashTableInsertSafe env C e s = .error x) := by
  have hl : ∀ l, l ∉ s.held := by simp [hfree]
  -- the critical section at the end, when the index is right
  have hlink : ∀ s₁ : TableThread K, s₁.held = [] →
      (do
        env.lock (.bucket (s₁.htable.home e))
        let h ← env.load
        env.store (h.insertAt (s₁.htable.home e) e)
        env.unlock (.bucket (s₁.htable.home e)) : ThreadM K Unit) s₁ = s₁.linked e := by
    intro s₁ hfree₁
    rw [TableThread.linked]
    split_ifs with hset
    · refine (bind_of_ok (lock_bucket hset (by simp [hfree₁])) _).trans ?_
      refine (bind_of_ok rfl _).trans ?_
      refine (bind_of_ok rfl _).trans ?_
      exact unlock_cons _ s₁.held s₁.ledger
    · exact bind_of_error (lock_astray hset) _
  have hindex := hashCodeSafe_locked (hl .table) e.key e.klen
  rw [Locked.hashTableInsertSafe]
  by_cases hfull : s.htable.usedBuckets ≥ s.htable.resizeThreshold
  · have htest : Locked.resizeIfFull env C s =
        (do
          let ret ← Locked.hashTableResize env C
          return ret == 0 : ThreadM K Bool) s := by
      rw [Locked.resizeIfFull]
      refine (bind_of_ok rfl _).trans ?_
      rw [if_pos hfull]
    cases hres : Locked.hashTableResize env C s with
    | error x =>
      refine .inr (.inr ⟨hfull, x, rfl, (bind_of_ok hindex _).trans ?_⟩)
      exact bind_of_error (htest.trans (bind_of_error hres _)) _
    | ok r =>
      obtain ⟨ret, s₁⟩ := r
      obtain ⟨hfree₁, hsame⟩ := resize_returns hfree hres
      refine .inr (.inl ⟨hfull, ret, s₁, rfl, (bind_of_ok hindex _).trans ?_⟩)
      refine (bind_of_ok (htest.trans (bind_of_ok hres _)) _).trans ?_
      by_cases hret : ret = 0
      · rw [if_pos (beq_iff_eq.mpr hret)]
        refine (bind_of_ok (hashCodeSafe_locked (by simp [hfree₁]) e.key e.klen) _).trans ?_
        exact hlink s₁ hfree₁
      · rw [if_neg (by rw [beq_iff_eq]; exact hret), ← hsame hret]
        exact hlink s₁ hfree₁
  · refine .inl ⟨Nat.lt_of_not_le hfull, (bind_of_ok hindex _).trans ?_⟩
    have htest : Locked.resizeIfFull env C s = .ok (false, s) := by
      rw [Locked.resizeIfFull]
      refine (bind_of_ok rfl _).trans ?_
      rw [if_neg hfull]
      rfl
    refine (bind_of_ok htest _).trans ?_
    rw [if_neg Bool.false_ne_true]
    exact hlink s hfree

/-! ### Buckets that were set up -/

/-- The table into which a safe insert links its entry, but for its chains and arrays: the new one
of a resize, or the old one. -/
def HashTable.linksInto (C : Clib K) (h : HashTable K) (H : Heap) : HashTable K :=
  if h.resizeThreshold ≤ h.usedBuckets ∧ GrantsArrays C (h.resizeThreshold * 2 % 2 ^ 32) H then
    HashTable.fresh C (h.resizeThreshold * 2 % 2 ^ 32) h.keycmp h.myHashFn 0 0
  else h

/-- The bucket that a call looks at or links into was set up. -/
def TableOp.InReach (C : Clib K) (s : TableThread K) : TableOp K → Prop
  | .insert e key len => ∀ ret e' s', hashEntryInit C.null mallocKey e key len s =
      .ok ((ret, e'), s') → s.htable.home e' < s.htable.heads
  | .insertSafe e key len => ∀ ret e' s', hashEntryInit C.null mallocKey e key len s =
      .ok ((ret, e'), s') → (s.htable.linksInto C s'.ledger.heap).home e' <
        (s.htable.linksInto C s'.ledger.heap).heads
  | .delKey skey key len | .delKeySafe skey key len | .lookupKeySafe skey key len =>
      skey = true ∨ len ≤ sizeofPtr → hashTableHashCode s.htable key len < s.htable.heads
  | .lookupKey _ key len => hashTableHashCode s.htable key len < s.htable.heads

/-! ### The other calls -/

namespace TableOp

variable {C : Clib K}

/-- A call returns and changes nothing but chains, or it is lost because its bucket was never set
up. -/
def PerformsOther (C : Clib K) (op : TableOp K) (s : TableThread K) : Prop :=
  (op.InReach C s ∧ ∃ r t L', op.perform C s =
      .ok (r, { s with htable := s.htable.withTable t, ledger := L' }) ∧
    ∀ as, s.ledger.Owns as → L'.Owns as) ∨
  (¬ op.InReach C s ∧ op.perform C s = .error .astray)

theorem perform_insert (e : HashEntry K) (key : KeyArg K) (len : ℕ) (s : TableThread K) :
    (TableOp.insert e key len).PerformsOther C s := by
  obtain ⟨ret, e', L', hinit, -, howns⟩ := hashEntryInit_thread C e key len s
  have hreach : (TableOp.insert e key len).InReach C s ↔ s.htable.home e' < s.htable.heads := by
    refine ⟨fun h => h _ _ _ hinit, fun h ret₂ e₂ s₂ hinit₂ => ?_⟩
    obtain ⟨hsame, -⟩ := ok_unique hinit hinit₂
    exact (Prod.mk.inj hsame).2 ▸ h
  by_cases hset : s.htable.home e' < s.htable.heads
  · refine .inl ⟨hreach.mpr hset, none, (hashTableInsert s.htable e').table, L',
      (bind_of_ok hinit _).trans ?_, howns⟩
    exact bind_of_ok (TableThread.search_apply (s := { s with ledger := L' }) fun _ => hset) _
  · refine .inr ⟨fun h => hset (hreach.mp h), (bind_of_ok hinit _).trans ?_⟩
    exact bind_of_error (TableThread.search_astray (s := { s with ledger := L' }) rfl hset) _

theorem perform_delKey (skey : Bool) (key : K) (len : ℕ) (s : TableThread K) :
    (TableOp.delKey skey key len).PerformsOther C s := by
  have haccepted : (skey || decide (len ≤ sizeofPtr)) = true ↔ skey = true ∨ len ≤ sizeofPtr := by
    simp
  by_cases hset : (TableOp.delKey skey key len).InReach C s
  · have hsearch : search (skey || decide (len ≤ sizeofPtr)) key len s = .ok ((), s) :=
      TableThread.search_apply fun h => hset (haccepted.mp h)
    refine .inl ⟨hset, ?_⟩
    rw [TableOp.perform, bind_of_ok hsearch]
    rcases delKey_cases s.htable skey key len with ⟨-, hdel⟩ | ⟨-, e, -, hdel⟩
    · exact ⟨none, s.htable.table, s.ledger, by rw [bind_of_ok rfl, hdel]; rfl, fun _ h => h⟩
    · exact ⟨some e, _, s.ledger, by rw [bind_of_ok rfl, hdel]; rfl, fun _ h => h⟩
  · refine .inr ⟨hset, ?_⟩
    rw [TableOp.InReach, Classical.not_imp, ← haccepted] at hset
    exact bind_of_error (TableThread.search_astray hset.1 hset.2) _

theorem performsOther_of_locked {op : TableOp K} {skey : Bool} {key : K} {len : ℕ}
    (hreach : op.InReach C s ↔
      (skey = true ∨ len ≤ sizeofPtr → hashTableHashCode s.htable key len < s.htable.heads))
    {r : Option (HashEntry K)} {t : ℕ → List (HashEntry K)}
    (haccepted : skey = true ∨ len ≤ sizeofPtr → op.perform C s =
      if hashTableHashCode s.htable key len < s.htable.heads then
        .ok (r, { s with htable := s.htable.withTable t })
      else .error .astray)
    (hrefused : ¬ (skey = true ∨ len ≤ sizeofPtr) → op.perform C s = .ok (none, s)) :
    op.PerformsOther C s := by
  rw [PerformsOther, hreach]
  by_cases hkey : skey = true ∨ len ≤ sizeofPtr
  · rw [haccepted hkey]
    split_ifs with hset
    · exact .inl ⟨fun _ => hset, r, t, s.ledger, rfl, fun _ h => h⟩
    · exact .inr ⟨fun h => hset (h hkey), rfl⟩
  · rw [hrefused hkey]
    exact .inl ⟨fun h => absurd h hkey, none, s.htable.table, s.ledger, rfl, fun _ h => h⟩

theorem perform_delKeySafe (hfree : s.held = []) (skey : Bool) (key : K) (len : ℕ) :
    (TableOp.delKeySafe skey key len).PerformsOther C s := by
  have hdel := delKeySafe_locked (s := s) (by simp [hfree]) key len
  obtain ⟨t, ht⟩ := hashTableDelKeySafe_withTable s.htable key len
  rw [ht] at hdel
  refine performsOther_of_locked Iff.rfl (fun hkey => Eq.trans ?_ hdel) fun hkey => ?_
  · rw [TableOp.perform, Locked.hashTableDelKeySafeI]
    split_ifs with hs hlen
    · rfl
    · exact absurd hlen (Nat.not_lt.mpr (hkey.resolve_left hs))
    · rfl
  · rw [not_or, Nat.not_le] at hkey
    rw [TableOp.perform, if_neg hkey.1, Locked.hashTableDelKeySafeI, if_pos hkey.2]
    rfl

theorem perform_lookupKeySafe (hfree : s.held = []) (skey : Bool) (key : K) (len : ℕ) :
    (TableOp.lookupKeySafe skey key len).PerformsOther C s := by
  have hlookup := lookupKeySafe_locked (s := s) (by simp [hfree]) key len
  refine performsOther_of_locked Iff.rfl (fun hkey => Eq.trans ?_ hlookup) fun hkey => ?_
  · rw [TableOp.perform, Locked.hashTableLookupKeySafeI]
    split_ifs with hs hlen
    · rfl
    · exact absurd hlen (Nat.not_lt.mpr (hkey.resolve_left hs))
    · rfl
  · rw [not_or, Nat.not_le] at hkey
    rw [TableOp.perform, if_neg hkey.1, Locked.hashTableLookupKeySafeI, if_pos hkey.2]
    rfl

/-- **A call other than a safe insert** returns and changes nothing but chains, unless its bucket
was never set up. -/
theorem perform_other (hfree : s.held = []) {op : TableOp K}
    (hop : ∀ e key len, op ≠ .insertSafe e key len) : op.PerformsOther C s := by
  cases op with
  | insert e key len => exact perform_insert e key len s
  | insertSafe e key len => exact absurd rfl (hop e key len)
  | delKey skey key len => exact perform_delKey skey key len s
  | delKeySafe skey key len => exact perform_delKeySafe hfree skey key len
  | lookupKey skey key len =>
    by_cases hset : hashTableHashCode s.htable key len < s.htable.heads
    · have hsearch : search true key len s = .ok ((), s) := TableThread.search_apply fun _ => hset
      refine .inl ⟨hset, if skey then hashTableLookupKeyS s.htable key len
        else hashTableLookupKeyI s.htable key len, s.htable.table, s.ledger, ?_, fun _ h => h⟩
      rw [TableOp.perform, bind_of_ok hsearch]
      rfl
    · exact .inr ⟨hset, bind_of_error (TableThread.search_astray rfl hset) _⟩
  | lookupKeySafe skey key len => exact perform_lookupKeySafe hfree skey key len

/-- A safe insert sets up its entry first. -/
theorem perform_insertSafe (e : HashEntry K) (key : KeyArg K) (len : ℕ) (s : TableThread K) :
    ∃ ret e' L', hashEntryInit C.null mallocKey e key len s =
        .ok ((ret, e'), { s with ledger := L' }) ∧
      L'.heap = key.heapAfter s.ledger.heap len ∧ (∀ as, s.ledger.Owns as → L'.Owns as) ∧
      (TableOp.insertSafe e key len).perform C s = (do
        Locked.hashTableInsertSafe env C e'
        return none : ThreadM K (Option (HashEntry K))) { s with ledger := L' } := by
  obtain ⟨ret, e', L', hinit, hheap, howns⟩ := hashEntryInit_thread C e key len s
  refine ⟨ret, e', L', hinit, hheap, howns, ?_⟩
  rw [TableOp.perform, Locked.hashTableInsertSafeKey, bind_assoc]
  exact bind_of_ok hinit _

end TableOp

end Milu
