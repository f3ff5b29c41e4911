import Milu.Hashtbl.Basic

/-!
# The thread-safe operations and their mutexes

The operations of `hashtbl.c`, with every lock and unlock where the source has it, and with `malloc`
and `free` as the linker resolves them. The table is read from memory and written back, since a call
of `malloc` may come back to it.

## Main definitions

* `TableLock`, `TableEnv` — the mutexes of a table, and what the operations run on
* `Locked.hashTableHashCodeSafe`, `Locked.hashTableLookupKeySafe`, `Locked.hashTableDelKeySafe`,
  `Locked.hashTableResize`, `Locked.hashTableInsertSafe` and their variants
* `Locked.hashTableBucketLocked`, `Locked.hashTableLocked`
-/

namespace Milu

/-- The mutexes of a table. -/
inductive TableLock
  | table
  | bucket (n : ℕ)
  deriving DecidableEq, Repr

/-- What the operations run on: the mutexes, the allocator, and the memory in which the table lies.
A traversal that follows a link of an unlinked entry is `astray`. -/
structure TableEnv (m : Type → Type) (K : Type) where
  lock : TableLock → m Unit
  unlock : TableLock → m Unit
  malloc : ℕ → m (Option ℕ)
  free : ℕ → m Unit
  load : m (HashTable K)
  store : HashTable K → m Unit
  astray : m Unit

namespace Locked

variable {m : Type → Type} [Monad m] {K : Type} (E : TableEnv m K)

def hashTableHashCodeSafe (key : K) (len : ℕ) : m ℕ := do
  E.lock .table
  let h ← E.load
  let n := hashTableHashCode h key len
  E.unlock .table
  return n

def hashTableLookupKeySafe (key : K) (len : ℕ) : m (Option (HashEntry K)) := do
  let hcode ← hashTableHashCodeSafe E key len
  E.lock (.bucket hcode)
  let h ← E.load
  match (h.table hcode).find? fun tmp => h.keycmp tmp.key key tmp.klen == 0 with
  | some tmp =>
    E.unlock (.bucket hcode)
    return some tmp
  | none =>
    E.unlock (.bucket hcode)
    return none

def hashTableLookupKeySafeI (key : K) (len : ℕ) : m (Option (HashEntry K)) :=
  if len > sizeofPtr then return none else hashTableLookupKeySafe E key len

def hashTableLookupKeySafeS (key : K) (len : ℕ) : m (Option (HashEntry K)) :=
  hashTableLookupKeySafe E key len

def hashTableDelKeySafe (key : K) (len : ℕ) : m (Option (HashEntry K)) := do
  let h ← E.load
  let n := hashTableHashCode h key len
  E.lock (.bucket n)
  let h ← E.load
  match hashTableLookupKey h key len with
  | some e =>
    E.store (h.listDelInit (hashTableHashCode h key len) e)
    E.unlock (.bucket n)
    return some e
  | none =>
    E.unlock (.bucket n)
    return none

def hashTableDelKeySafeI (key : K) (len : ℕ) : m (Option (HashEntry K)) :=
  if len > sizeofPtr then return none else hashTableDelKeySafe E key len

def hashTableDelKeySafeS (key : K) (len : ℕ) : m (Option (HashEntry K)) :=
  hashTableDelKeySafe E key len

def hashTableDelHashEntrySafe (e : HashEntry K) : m (Option (HashEntry K)) :=
  if e.skey then hashTableDelKeySafeS E e.key e.klen else hashTableDelKeySafeI E e.key e.klen

/-- The body of the loop in `hash_table_resize`. The auxiliary table is a local variable. -/
def migrateEntry (pos : Pos K) (hti : ℕ) : StateT (HashTable K) m ℕ :=
  match pos with
  | .head _ => do
    StateT.lift E.astray
    return hti
  | .node hentry => do
    match ← StateT.lift (hashTableDelHashEntrySafe E hentry) with
    | none => return hti
    | some hentryAux =>
      let auxHtbl ← get
      if auxHtbl.home hentryAux < auxHtbl.heads then
        set (hashTableInsert auxHtbl hentryAux)
        return hti
      else
        StateT.lift E.astray
        return hti

def hashTableResize (C : Clib K) : m ℤ := do
  E.lock .table
  let h ← E.load
  match ← hashTableInit E.malloc C (h.resizeThreshold * 2 % 2 ^ 64) (some h.keycmp)
      (some h.myHashFn) with
  | none =>
    E.unlock .table
    return -1
  | some auxHtbl =>
    let h ← E.load
    let (_, auxHtbl) ← (forEachSafe (StateT.lift E.astray) (StateT.lift E.load) (migrateEntry E)
      h.rounds 0 none).run auxHtbl
    E.free h.tableMem
    E.free h.bucketLocks
    let h ← E.load
    E.store { h with
      bucketLocks := auxHtbl.bucketLocks
      tableMem := auxHtbl.tableMem
      table := auxHtbl.table
      buckets := auxHtbl.buckets
      usedBuckets := auxHtbl.usedBuckets
      resizeThreshold := auxHtbl.resizeThreshold }
    E.unlock .table
    return 0

/-- The resize in `hash_table_insert_safe`: does it set `resized`? -/
def resizeIfFull (C : Clib K) : m Bool := do
  let h ← E.load
  if h.usedBuckets ≥ h.resizeThreshold then
    let ret ← hashTableResize E C
    return ret == 0
  else return false

def hashTableInsertSafe (C : Clib K) (e : HashEntry K) : m Unit := do
  let n ← hashTableHashCodeSafe E e.key e.klen
  let resized ← resizeIfFull E C
  let n ← if resized then hashTableHashCodeSafe E e.key e.klen else pure n
  E.lock (.bucket n)
  let h ← E.load
  E.store (h.insertAt n e)
  E.unlock (.bucket n)

def hashTableInsertSafeI (C : Clib K) (e : HashEntry K) (key : K) (len : ℕ) : m Unit := do
  let (_, e) ← hashEntryInit C.null E.malloc e (.int key) len
  hashTableInsertSafe E C e

/-- `hash_table_insert_safe_i` and `hash_table_insert_safe_s`, with the `malloc` of
`hash_entry_init` apart: the copy of a string key belongs to the entry. -/
def hashTableInsertSafeKey (malloc : ℕ → m (Option ℕ)) (C : Clib K) (e : HashEntry K)
    (key : KeyArg K) (len : ℕ) : m Unit := do
  let (_, e) ← hashEntryInit C.null malloc e key len
  hashTableInsertSafe E C e

/-! ### Is a mutex locked? -/

/-- `EBUSY`. -/
def ebusy : ℕ := 16

variable (trylock : TableLock → m ℕ)

def hashTableBucketLocked (n : ℕ) : m Bool := do
  let ret ← trylock (.bucket n)
  return ret == ebusy

def hashTableLocked : m Bool := do
  let ret ← trylock .table
  return ret == ebusy

end Locked

end Milu
