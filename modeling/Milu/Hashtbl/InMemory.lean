import Milu.Hashtbl.Runs
import Milu.Lists.Structs

/-!
# The table in memory

`hashtbl.h` and `hashtbl.c` once more, now with the links of the chains in memory. A bucket is the
`struct list_head` of `table[i]`, an entry is on it by the `struct list_head` inside its own struct,
and the functions get from one to the next by reading `next`. Pointers are addresses, and `NULL` is
`0`.

The table was modelled before by the lists of the entries in its buckets. Here these lists are what
the links spell out, and whether they do is a matter of what the program did to the memory.

Locks do nothing in a sequential run and are left out here too.

## Main definitions

* `InMemory.Fields` — what an entry holds besides its links
* `InMemory.Table` — `struct hash_table`, which knows where its array is
* `InMemory.hashTableInit`, `InMemory.hashTableInsert`, `InMemory.hashTableLookupKey`,
  `InMemory.hashTableLookupKeySafe`, `InMemory.hashTableDelKey`, `InMemory.hashTableDelKeySafe`
* `InMemory.forEachSafe`, `InMemory.hashTableResize`, `InMemory.hashTableInsertSafe`

## Loops

A loop that follows links ends when it comes to its head. It has a bound on its rounds here, and a
call that needs more does not return. Results about calls are for every bound that is large enough.
-/

namespace Milu

namespace InMemory

/-! ### Memory -/

/-- What a `struct hash_entry` holds besides its links. -/
structure Fields (K : Type) where
  key : K
  klen : ℕ
  skey : Bool

/-- `struct hash_table`. `table` and `bucketLocks` are the addresses of the two arrays. -/
structure Table (K : Type) where
  table : ℕ
  buckets : ℕ
  bucketLocks : ℕ
  myHashFn : K → ℕ → ℕ
  keycmp : K → K → ℕ → ℤ
  resizeThreshold : ℕ
  usedBuckets : ℕ

/-- `offsetof(struct hash_entry, list)`. -/
def offsetofList : ℕ := 16

/-- `&e->list`. -/
def node (e : ℕ) : ℕ := e + offsetofList

/-- `&table[n].list`. -/
def bucketHead (table n : ℕ) : ℕ := node (table + sizeofHashEntry * n)

variable {K : Type}

/-- The struct at an address. -/
def Memory.entry (m : Memory (Fields K)) (e : ℕ) : HashEntry K :=
  ⟨e, (m.fields e).key, (m.fields e).klen, (m.fields e).skey⟩

/-- The fields of the struct are written. -/
def Memory.setEntry (m : Memory (Fields K)) (e : HashEntry K) : Memory (Fields K) :=
  m.withFields e.addr ⟨e.key, e.klen, e.skey⟩

/-- The fields of `*e`. -/
def entry (e : ℕ) : LinkM (Fields K) (HashEntry K) := do
  let s ← load e
  return ⟨e, s.key, s.klen, s.skey⟩

/-- The fields of `*e` are written. -/
def setEntry (e : HashEntry K) : LinkM (Fields K) Unit := store e.addr ⟨e.key, e.klen, e.skey⟩

/-! ### Entries and tables -/

def hashEntryInit (null : K) (e : ℕ) (key : KeyArg K) (len : ℕ) : LinkM (Fields K) ℤ := do
  onLists (Queue.initListHead (node e))
  let (ret, s) ← onHeap (Milu.hashEntryInit null Heap.malloc (← entry e) key len)
  setEntry s
  return ret

/-- The loop of `hash_table_init` over the heads, from `i` down to `1`, and the head `0` after it.
The key of a head is `NULL`. -/
def initHeads (null : K) (table : ℕ) : ℕ → LinkM (Fields K) Unit
  | 0 => do
    let _ ← hashEntryInit null table (.int null) 0
  | i + 1 => do
    let _ ← hashEntryInit null (table + sizeofHashEntry * (i + 1)) (.int null) 0
    initHeads null table i

/-- `hash_table_init`; `none` is a nonzero return. The loop variable is an `unsigned int`. -/
def hashTableInit (C : Clib K) (b : ℕ) (keycmp : Option (K → K → ℕ → ℤ))
    (hashFn : Option (K → ℕ → ℕ)) : LinkM (Fields K) (Option (Table K)) := do
  let b := b % 2 ^ 32
  let buckets := hashtblSz C b
  match ← onHeap (Heap.malloc (sizeofHashEntry * buckets % 2 ^ 64)) with
  | none => return none
  | some table =>
    match ← onHeap (Heap.malloc (sizeofMutex * buckets % 2 ^ 64)) with
    | none => return none
    | some bucketLocks => do
      initHeads C.null table ((buckets - 1) % 2 ^ 32)
      match hashFn with
      | none => return none
      | some hashFn => return some {
          table := table
          buckets := buckets
          bucketLocks := bucketLocks
          myHashFn := hashFn
          keycmp := keycmp.getD C.memcmp
          resizeThreshold := b
          usedBuckets := 0 }

def hashTableHashCode (h : Table K) (key : K) (len : ℕ) : ℕ :=
  h.myHashFn key len % h.buckets % 2 ^ 32

/-! ### Operations that never resize -/

def hashTableInsert (h : Table K) (e : ℕ) : LinkM (Fields K) Unit := do
  let s ← entry e
  let n := hashTableHashCode h s.key s.klen
  onLists (Queue.listAdd (node e) (bucketHead h.table n))

def hashTableInsertI (C : Clib K) (h : Table K) (e : ℕ) (key : K) (len : ℕ) :
    LinkM (Fields K) Unit := do
  let _ ← hashEntryInit C.null e (.int key) len
  hashTableInsert h e

def hashTableInsertS (C : Clib K) (h : Table K) (e : ℕ) (key : Option K) (len : ℕ) :
    LinkM (Fields K) Unit := do
  let _ ← hashEntryInit C.null e (.str key) len
  hashTableInsert h e

/-- `list_for_each` in the two lookups, from `pos` on, with the test on `*tmp` as a parameter. -/
def lookupLoop (head : ℕ) (accepts : HashEntry K → Bool) : ℕ → ℕ → LinkM (Fields K) ℕ
  | 0, _ => failure
  | fuel + 1, pos =>
    if pos = head then return 0
    else do
      let tmp := pos - offsetofList
      if accepts (← entry tmp) then return tmp
      else
        let pos ← onLists (Queue.next pos)
        lookupLoop head accepts fuel pos

def hashTableLookupKey (fuel : ℕ) (h : Table K) (key : K) (len : ℕ) : LinkM (Fields K) ℕ := do
  let hcode := hashTableHashCode h key len
  let pos ← onLists (Queue.next (bucketHead h.table hcode))
  lookupLoop (bucketHead h.table hcode)
    (fun tmp => tmp.klen == len && h.keycmp tmp.key key tmp.klen == 0) fuel pos

def hashTableLookupKeySafe (fuel : ℕ) (h : Table K) (key : K) (len : ℕ) : LinkM (Fields K) ℕ := do
  let hcode := hashTableHashCode h key len
  let pos ← onLists (Queue.next (bucketHead h.table hcode))
  lookupLoop (bucketHead h.table hcode) (fun tmp => h.keycmp tmp.key key tmp.klen == 0) fuel pos

def hashTableLookupKeySafeI (fuel : ℕ) (h : Table K) (key : K) (len : ℕ) : LinkM (Fields K) ℕ :=
  if len > sizeofPtr then return 0 else hashTableLookupKeySafe fuel h key len

def hashTableDelKey (fuel : ℕ) (h : Table K) (key : K) (len : ℕ) : LinkM (Fields K) ℕ := do
  let e ← hashTableLookupKey fuel h key len
  if e = 0 then return 0
  else
    onLists (Queue.listDelInit (node e))
    return e

def hashTableDelKeyI (fuel : ℕ) (h : Table K) (key : K) (len : ℕ) : LinkM (Fields K) ℕ :=
  if len > sizeofPtr then return 0 else hashTableDelKey fuel h key len

def hashTableDelKeySafe (fuel : ℕ) (h : Table K) (key : K) (len : ℕ) : LinkM (Fields K) ℕ := do
  let e ← hashTableLookupKey fuel h key len
  if e ≠ 0 then
    onLists (Queue.listDelInit (node e))
    return e
  else return 0

def hashTableDelKeySafeI (fuel : ℕ) (h : Table K) (key : K) (len : ℕ) : LinkM (Fields K) ℕ :=
  if len > sizeofPtr then return 0 else hashTableDelKeySafe fuel h key len

def hashTableDelHashEntrySafe (fuel : ℕ) (h : Table K) (e : ℕ) : LinkM (Fields K) ℕ := do
  let s ← entry e
  if s.skey then hashTableDelKeySafe fuel h s.key s.klen
  else hashTableDelKeySafeI fuel h s.key s.klen

/-! ### Traversals and resizing -/

/-- `hash_table_for_each_safe(hentry, htable, pos, n, hti) body`, for a body that leaves the struct
of the table as it is. The cursor is `none` at the test of the outer loop and holds `pos` and `n`
inside the inner one. -/
def forEachSafe (htable : Table K) (body : ℕ → LinkM (Fields K) Unit) :
    ℕ → ℕ → Option (ℕ × ℕ) → LinkM (Fields K) Unit
  | 0, _, _ => failure
  | fuel + 1, hti, none =>
    if hti < htable.buckets then do
      let pos ← onLists (Queue.next (bucketHead htable.table hti))
      let n ← onLists (Queue.next pos)
      forEachSafe htable body fuel hti (some (pos, n))
    else return ()
  | fuel + 1, hti, some (pos, n) =>
    let hentry := pos - offsetofList
    if pos ≠ bucketHead htable.table hti ∧ hentry ≠ 0 then do
      body hentry
      let pos := n
      let n ← onLists (Queue.next pos)
      forEachSafe htable body fuel hti (some (pos, n))
    else forEachSafe htable body fuel ((hti + 1) % 2 ^ 32) none

/-- The body of the loop in `hash_table_resize`. -/
def migrateEntry (fuel : ℕ) (h auxHtbl : Table K) (hentry : ℕ) : LinkM (Fields K) Unit := do
  let hentryAux ← hashTableDelHashEntrySafe fuel h hentry
  if hentryAux ≠ 0 then hashTableInsert auxHtbl hentryAux

/-- `hash_table_resize`: the value returned and the struct afterwards. -/
def hashTableResize (C : Clib K) (fuel : ℕ) (h : Table K) : LinkM (Fields K) (ℤ × Table K) := do
  match ← hashTableInit C (h.resizeThreshold * 2 % 2 ^ 64) (some h.keycmp)
      (some h.myHashFn) with
  | none => return (-1, h)
  | some auxHtbl => do
    forEachSafe h (migrateEntry fuel h auxHtbl) fuel 0 none
    onHeap (Heap.free h.table)
    onHeap (Heap.free h.bucketLocks)
    return (0, { h with
      bucketLocks := auxHtbl.bucketLocks
      table := auxHtbl.table
      buckets := auxHtbl.buckets
      usedBuckets := auxHtbl.usedBuckets
      resizeThreshold := auxHtbl.resizeThreshold })

/-- The critical section that ends `hash_table_insert_safe`. -/
def insertAt (h : Table K) (n e : ℕ) : LinkM (Fields K) (Table K) := do
  let empty ← onLists (Queue.listEmpty (bucketHead h.table n))
  onLists (Queue.listAdd (node e) (bucketHead h.table n))
  return if empty then { h with usedBuckets := h.usedBuckets + 1 } else h

def hashTableInsertSafe (C : Clib K) (fuel : ℕ) (h : Table K) (e : ℕ) :
    LinkM (Fields K) (Table K) := do
  let s ← entry e
  let n := hashTableHashCode h s.key s.klen
  if h.usedBuckets ≥ h.resizeThreshold then
    let (ret, h) ← hashTableResize C fuel h
    if ret = 0 then
      let s ← entry e
      insertAt h (hashTableHashCode h s.key s.klen) e
    else insertAt h n e
  else insertAt h n e

def hashTableInsertSafeI (C : Clib K) (fuel : ℕ) (h : Table K) (e : ℕ) (key : K)
    (len : ℕ) : LinkM (Fields K) (Table K) := do
  let _ ← hashEntryInit C.null e (.int key) len
  hashTableInsertSafe C fuel h e

def hashTableInsertSafeS (C : Clib K) (fuel : ℕ) (h : Table K) (e : ℕ)
    (key : Option K) (len : ℕ) : LinkM (Fields K) (Table K) := do
  let _ ← hashEntryInit C.null e (.str key) len
  hashTableInsertSafe C fuel h e

/-! ### Calls -/

/-- A call on the table: the struct afterwards, and the pointer it returns. The caller has left
something or other in the struct to be inserted. -/
def run (C : Clib K) (fuel : ℕ) (h : Table K) : TableOp K → LinkM (Fields K) (Table K × ℕ)
  | .insert e key len => do
    setEntry e
    match key with
      | .int key => hashTableInsertI C h e.addr key len
      | .str key => hashTableInsertS C h e.addr key len
    return (h, 0)
  | .insertSafe e key len => do
    setEntry e
    let h ← match key with
      | .int key => hashTableInsertSafeI C fuel h e.addr key len
      | .str key => hashTableInsertSafeS C fuel h e.addr key len
    return (h, 0)
  | .delKey skey key len => do
    let e ← if skey then hashTableDelKey fuel h key len else hashTableDelKeyI fuel h key len
    return (h, e)
  | .delKeySafe skey key len => do
    let e ← if skey then hashTableDelKeySafe fuel h key len
      else hashTableDelKeySafeI fuel h key len
    return (h, e)
  | .lookupKey _ key len => do
    let e ← hashTableLookupKey fuel h key len
    return (h, e)
  | .lookupKeySafe skey key len => do
    let e ← if skey then hashTableLookupKeySafe fuel h key len
      else hashTableLookupKeySafeI fuel h key len
    return (h, e)

end InMemory

end Milu
