import Milu.Lib.Heap
import Mathlib.Logic.Function.Basic

/-!
# The chained hash table

`hashtbl.h` and `hashtbl.c`, run by one thread. Locks do nothing in a sequential run and are left
out here.

A bucket is a circular list through the head in `table[i]`. It is modelled by the list of the
entries on it, front first, so that `list_add` is `cons` and `list_del_init` erases the entry with
the given address. An entry carries the address of its struct, which is what identifies it: keys
may repeat.

Keys are of an arbitrary type `K`: a key is whatever the hash function and the comparator see of it,
a pointer value for an integer key and the bytes for a string key. `NULL` is a key as well, since
`hash_entry_init` may leave it in a struct.

## Heads that were never set up

`hash_table_init` counts the buckets down in an `unsigned int`. Above `2 ^ 32` of them it sets up no
more than the heads and locks whose indices the counter takes, and leaves the others as `malloc`
left them. A call that comes to one of those has no defined behaviour: it goes astray. The functions
on chains below are for heads that were set up, and what calls them looks first (`HashTable.reach`).

## Traversals

`hash_table_for_each_safe` is a pair of loops around a body that may unlink the entry it stands on.
It keeps the successor it read *before* the body ran. `forEachSafe` keeps the same two cursors and
reads every successor from the chains as they are at that moment, so a body that unlinked the saved
successor would derail the loop here as it does in C.

## Main definitions

* `HashEntry`, `HashTable`, `Clib`
* `hashEntryInit`, `hashTableInit`, `hashTableFinit`, `hashTableHashCode`
* `hashTableInsert`, `hashTableInsertI`, `hashTableLookupKey`, `hashTableLookupKeySafe`,
  `hashTableDelKey`, `hashTableDelKeySafe` and their `I` and `S` variants
* `forEachSafe`, `hashTableResize`, `hashTableInsertSafe`
-/

namespace Milu

/-- `struct hash_entry`. `addr` is where the struct lies. -/
structure HashEntry (K : Type) where
  addr : ℕ
  key : K
  klen : ℕ
  skey : Bool
  deriving DecidableEq, Repr

/-- `struct hash_table`. `table i` is the chain of bucket `i`, front first; `tableMem` and
`bucketLocks` are the two arrays. -/
structure HashTable (K : Type) where
  table : ℕ → List (HashEntry K)
  tableMem : ℕ
  buckets : ℕ
  bucketLocks : ℕ
  myHashFn : K → ℕ → ℕ
  keycmp : K → K → ℕ → ℤ
  resizeThreshold : ℕ
  usedBuckets : ℕ

/-- What the table takes from C: `(size_t) roundf((float) b / _LOAD_FACTOR)` as a function of `b`,
`memcmp`, and `NULL` as a key. -/
structure Clib (K : Type) where
  roundf : ℕ → ℕ
  memcmp : K → K → ℕ → ℤ
  null : K

/-- A C library for integer keys: the quotient `4 * b / 3` rounded to the nearest integer, which is
what single precision gives while `b` is small, and `memcmp` of the two key values. -/
def Clib.nearest : Clib ℕ where
  roundf b := (8 * b + 3) / 6
  memcmp a b _ := a - b
  null := 0

/-- A `(const void *) key` argument together with the `skey` flag that says how to read it: a value
to be stored as it is, or a string to be copied. -/
inductive KeyArg (K : Type)
  | int (key : K)
  | str (key : Option K)

/-- `sizeof(void *)`, which is also `sizeof(uintptr_t)`. -/
def sizeofPtr : ℕ := 8

/-- `sizeof(struct hash_entry)`. -/
def sizeofHashEntry : ℕ := 40

/-- `sizeof(pthread_mutex_t)`. -/
def sizeofMutex : ℕ := 40

/-- `hashtbl_prime_sz`. -/
def hashtblPrimeSz : List ℕ :=
  [97, 193, 389, 769, 1543, 3079, 6151, 12289, 24593, 49157, 98317, 196613, 393241, 786433, 1572869,
    3145739, 6291469, 12582917, 25165843, 50331653, 100663319, 201326611, 402653189, 805306457,
    1610612741]

/-- The last entry of `hashtblPrimeSz`. -/
def lastPrimeSz : ℕ := 1610612741

/-- An entry that can be found again by its own key: `hash_entry_init` refuses integer keys longer
than a pointer, and the integer variants of the lookups and deletions ignore them. -/
def HashEntry.Valid {K : Type} (e : HashEntry K) : Prop := e.skey = true ∨ e.klen ≤ sizeofPtr

instance {K : Type} (e : HashEntry K) : Decidable e.Valid :=
  inferInstanceAs (Decidable (_ ∨ _))

variable {K : Type}

/-! ### Entries and tables -/

/-- `hash_entry_init`, over whichever `malloc` it is linked with. A string is copied into a block of
its own; when there is none, `e->key` has been assigned `NULL`. -/
def hashEntryInit {m : Type → Type} [Monad m] (null : K) (malloc : ℕ → m (Option ℕ))
    (e : HashEntry K) (key : KeyArg K) (len : ℕ) : m (ℤ × HashEntry K) :=
  match key with
  | .str none => return (-1, { e with skey := true })
  | .str (some key) => do
    match ← malloc len with
    | none => return (-1, { e with skey := true, key := null })
    | some _ => return (0, { e with skey := true, key := key, klen := len })
  | .int key =>
    if len > sizeofPtr then return (-1, { e with skey := false })
    else return (0, { e with skey := false, key := key, klen := len })

/-- The number of buckets for a threshold of `b`: the rounded quotient, or the least listed prime
that reaches it. -/
def hashtblSz (C : Clib K) (b : ℕ) : ℕ :=
  let hashtblsz := C.roundf b
  if hashtblsz ≤ lastPrimeSz then (hashtblPrimeSz.find? (hashtblsz ≤ ·)).getD hashtblsz
  else hashtblsz

/-- The table `hash_table_init` sets up for a threshold of `b` in two arrays it was given. -/
def HashTable.fresh (C : Clib K) (b : ℕ) (keycmp : K → K → ℕ → ℤ) (hashFn : K → ℕ → ℕ)
    (tableMem bucketLocks : ℕ) : HashTable K where
  table _ := []
  tableMem := tableMem
  buckets := hashtblSz C b
  bucketLocks := bucketLocks
  myHashFn := hashFn
  keycmp := keycmp
  resizeThreshold := b
  usedBuckets := 0

/-- `hash_table_init`, over whichever `malloc` it is linked with; `none` is a nonzero return. The
parameter `b` is an `unsigned int`. -/
def hashTableInit {m : Type → Type} [Monad m] (malloc : ℕ → m (Option ℕ)) (C : Clib K) (b : ℕ)
    (keycmp : Option (K → K → ℕ → ℤ)) (hashFn : Option (K → ℕ → ℕ)) : m (Option (HashTable K)) := do
  let b := b % 2 ^ 32
  let buckets := hashtblSz C b
  match ← malloc (sizeofHashEntry * buckets % 2 ^ 64) with
  | none => return none
  | some tableMem =>
    match ← malloc (sizeofMutex * buckets % 2 ^ 64) with
    | none => return none
    | some bucketLocks =>
      match hashFn with
      | none => return none
      | some hashFn =>
        return some (HashTable.fresh C b (keycmp.getD C.memcmp) hashFn tableMem bucketLocks)

/-- `hash_table_finit`. -/
def hashTableFinit {m : Type → Type} [Monad m] (free : ℕ → m Unit) (h : HashTable K) :
    m (HashTable K) := do
  if h.tableMem ≠ 0 then free h.tableMem
  return { h with buckets := 0 }

/-- `hash_table_hash_code`. The remainder passes through an `int` into an `unsigned int`. -/
def hashTableHashCode (h : HashTable K) (key : K) (len : ℕ) : ℕ :=
  h.myHashFn key len % h.buckets % 2 ^ 32

/-- The bucket an entry belongs to. -/
def HashTable.home (h : HashTable K) (e : HashEntry K) : ℕ := hashTableHashCode h e.key e.klen

/-- How many heads and locks `hash_table_init` has set up, counting down from `buckets - 1` in an
`unsigned int`: all of them, as long as there are no more than `2 ^ 32`. -/
def HashTable.heads (h : HashTable K) : ℕ := (h.buckets - 1) % 2 ^ 32 + 1

/-- A call comes to the head of bucket `n`. -/
def HashTable.reach (h : HashTable K) (n : ℕ) : HeapM Unit := StateT.lift (guard (n < h.heads))

/-- Every entry linked in the table, bucket by bucket, each chain from its front. -/
def HashTable.entries (h : HashTable K) : List (HashEntry K) :=
  (List.range h.buckets).flatMap h.table

/-- `list_add(&e->list, &h->table[n].list)`. -/
def HashTable.listAdd (h : HashTable K) (n : ℕ) (e : HashEntry K) : HashTable K :=
  { h with table := Function.update h.table n (e :: h.table n) }

/-- `list_del_init(&e->list)` for an entry on the chain of bucket `n`. -/
def HashTable.listDelInit (h : HashTable K) (n : ℕ) (e : HashEntry K) : HashTable K :=
  { h with table := Function.update h.table n ((h.table n).eraseP fun t => t.addr == e.addr) }

/-! ### Operations that never resize -/

/-- `hash_table_insert`. -/
def hashTableInsert (h : HashTable K) (e : HashEntry K) : HashTable K :=
  let n := hashTableHashCode h e.key e.klen
  h.listAdd n e

/-- `hash_table_insert_i`. -/
def hashTableInsertI (C : Clib K) (h : HashTable K) (e : HashEntry K) (key : K) (len : ℕ) :
    HeapM (HashTable K) := do
  let (_, e) ← hashEntryInit C.null Heap.malloc e (.int key) len
  h.reach (h.home e)
  return hashTableInsert h e

/-- `hash_table_insert_s`. -/
def hashTableInsertS (C : Clib K) (h : HashTable K) (e : HashEntry K) (key : Option K) (len : ℕ) :
    HeapM (HashTable K) := do
  let (_, e) ← hashEntryInit C.null Heap.malloc e (.str key) len
  h.reach (h.home e)
  return hashTableInsert h e

/-- `hash_table_lookup_key`: the first entry on the chain with that length and an equal key. -/
def hashTableLookupKey (h : HashTable K) (key : K) (len : ℕ) : Option (HashEntry K) :=
  let hcode := hashTableHashCode h key len
  (h.table hcode).find? fun tmp => tmp.klen == len && h.keycmp tmp.key key tmp.klen == 0

/-- `hash_table_lookup_key_i`. -/
def hashTableLookupKeyI (h : HashTable K) (key : K) (len : ℕ) : Option (HashEntry K) :=
  hashTableLookupKey h key len

/-- `hash_table_lookup_key_s`. -/
def hashTableLookupKeyS (h : HashTable K) (key : K) (len : ℕ) : Option (HashEntry K) :=
  hashTableLookupKey h key len

/-- `hash_table_lookup_key_safe`. Unlike `hashTableLookupKey` it does not compare the lengths. -/
def hashTableLookupKeySafe (h : HashTable K) (key : K) (len : ℕ) : Option (HashEntry K) :=
  let hcode := hashTableHashCode h key len
  (h.table hcode).find? fun tmp => h.keycmp tmp.key key tmp.klen == 0

/-- `hash_table_lookup_key_safe_i`. -/
def hashTableLookupKeySafeI (h : HashTable K) (key : K) (len : ℕ) : Option (HashEntry K) :=
  if len > sizeofPtr then none else hashTableLookupKeySafe h key len

/-- `hash_table_lookup_key_safe_s`. -/
def hashTableLookupKeySafeS (h : HashTable K) (key : K) (len : ℕ) : Option (HashEntry K) :=
  hashTableLookupKeySafe h key len

/-- `hash_table_del_key`: the entry found, if any, and the table without it. -/
def hashTableDelKey (h : HashTable K) (key : K) (len : ℕ) : Option (HashEntry K) × HashTable K :=
  match hashTableLookupKey h key len with
  | none => (none, h)
  | some e => (some e, h.listDelInit (hashTableHashCode h key len) e)

/-- `hash_table_del_key_i`. -/
def hashTableDelKeyI (h : HashTable K) (key : K) (len : ℕ) : Option (HashEntry K) × HashTable K :=
  if len > sizeofPtr then (none, h) else hashTableDelKey h key len

/-- `hash_table_del_key_s`. -/
def hashTableDelKeyS (h : HashTable K) (key : K) (len : ℕ) : Option (HashEntry K) × HashTable K :=
  hashTableDelKey h key len

/-- `hash_table_del_hash_entry`: a deletion by the entry's own key. -/
def hashTableDelHashEntry (h : HashTable K) (e : HashEntry K) :
    Option (HashEntry K) × HashTable K :=
  if e.skey then hashTableDelKeyS h e.key e.klen else hashTableDelKeyI h e.key e.klen

/-- `hash_table_del_key_safe`. It takes the lock of the key's bucket and then searches as
`hash_table_del_key` does. -/
def hashTableDelKeySafe (h : HashTable K) (key : K) (len : ℕ) :
    Option (HashEntry K) × HashTable K :=
  match hashTableLookupKey h key len with
  | none => (none, h)
  | some e => (some e, h.listDelInit (hashTableHashCode h key len) e)

/-- `hash_table_del_key_safe_i`. -/
def hashTableDelKeySafeI (h : HashTable K) (key : K) (len : ℕ) :
    Option (HashEntry K) × HashTable K :=
  if len > sizeofPtr then (none, h) else hashTableDelKeySafe h key len

/-- `hash_table_del_key_safe_s`. -/
def hashTableDelKeySafeS (h : HashTable K) (key : K) (len : ℕ) :
    Option (HashEntry K) × HashTable K :=
  hashTableDelKeySafe h key len

/-- `hash_table_del_hash_entry_safe`: a deletion by the entry's own key. -/
def hashTableDelHashEntrySafe (h : HashTable K) (e : HashEntry K) :
    Option (HashEntry K) × HashTable K :=
  if e.skey then hashTableDelKeySafeS h e.key e.klen else hashTableDelKeySafeI h e.key e.klen

/-! ### Traversals -/

/-- A `struct list_head *` met on the way through a table: the head of a bucket, or the link inside
an entry. -/
inductive Pos (K : Type)
  | head (i : ℕ)
  | node (e : HashEntry K)

/-- Is this the head of bucket `i`? -/
def Pos.isHead (i : ℕ) : Pos K → Bool
  | .head j => j == i
  | .node _ => false

/-- Where a walk of bucket `i` stands when `c` is what is left of the chain. -/
def Pos.first (i : ℕ) : List (HashEntry K) → Pos K
  | [] => .head i
  | e :: _ => .node e

/-- The successor of the entry at address `a` on the chain `c` of bucket `i`, when it is there. -/
def chainNext (i a : ℕ) : List (HashEntry K) → Option (Pos K)
  | [] => none
  | e :: c => if e.addr = a then some (Pos.first i c) else chainNext i a c

/-- `pos->next`; `none` for an entry that is on no chain of the table, and for a head that was never
set up. -/
def HashTable.next (h : HashTable K) : Pos K → Option (Pos K)
  | .head i => if i < h.heads then some (Pos.first i (h.table i)) else none
  | .node e => (List.range h.buckets).findSome? fun i => chainNext i e.addr (h.table i)

/-- `hash_table_for_each_safe(hentry, htable, pos, n, hti) body`. The cursor is `none` at the test
of the outer loop and holds `pos` and `n` inside the inner one. The table is read anew whenever the
macro reads it, and the body may change it, as it may change `hti`, which is a variable of the
caller. A traversal that follows a link of an unlinked entry or needs more than `fuel` rounds is
`astray`. -/
def forEachSafe {m : Type → Type} [Monad m] (astray : m Unit) (htable : m (HashTable K))
    (body : Pos K → ℕ → m ℕ) : ℕ → ℕ → Option (Pos K × Pos K) → m Unit
  | 0, _, _ => astray
  | fuel + 1, hti, none => do
    let h ← htable
    if hti < h.buckets then
      (h.next (.head hti)).elim astray fun pos =>
        (h.next pos).elim astray fun n => forEachSafe astray htable body fuel hti (some (pos, n))
    else return ()
  | fuel + 1, hti, some (pos, n) =>
    if pos.isHead hti then forEachSafe astray htable body fuel ((hti + 1) % 2 ^ 32) none
    else do
      let hti ← body pos hti
      let pos := n
      let h ← htable
      (h.next pos).elim astray fun n => forEachSafe astray htable body fuel hti (some (pos, n))

section

variable {S : Type} {t : S → HashTable K} {body : Pos K → ℕ → StateT S Option ℕ} {fuel hti : ℕ}
  {pos n : Pos K} {s : S}

theorem forEachSafe_outer : forEachSafe failure (t <$> get) body (fuel + 1) hti none s =
    if hti < (t s).buckets then
      ((t s).next (.head hti)).elim none fun pos => ((t s).next pos).elim none fun n =>
        forEachSafe failure (t <$> get) body fuel hti (some (pos, n)) s
    else some ((), s) := by
  show (if hti < (t s).buckets then _ else _ : StateT S Option Unit) s = _
  split_ifs
  · cases (t s).next (.head hti) with
    | none => rfl
    | some pos =>
      show ((t s).next pos).elim (failure : StateT S Option Unit) _ s = ((t s).next pos).elim _ _
      cases (t s).next pos <;> rfl
  · rfl

/-- The head of the bucket ends the inner loop. -/
theorem forEachSafe_head (h : pos.isHead hti = true) :
    forEachSafe failure (t <$> get) body (fuel + 1) hti (some (pos, n)) s =
      forEachSafe failure (t <$> get) body fuel ((hti + 1) % 2 ^ 32) none s := by
  rw [forEachSafe, if_pos h]

theorem forEachSafe_node (h : pos.isHead hti = false) :
    forEachSafe failure (t <$> get) body (fuel + 1) hti (some (pos, n)) s =
      (body pos hti s).elim none fun r => ((t r.2).next n).elim none fun n' =>
        forEachSafe failure (t <$> get) body fuel r.1 (some (n, n')) r.2 := by
  rw [forEachSafe, if_neg (h ▸ Bool.false_ne_true)]
  show (body pos hti s).bind _ = _
  cases body pos hti s with
  | none => rfl
  | some r =>
    show ((t r.2).next n).elim (failure : StateT S Option Unit) _ r.2 = ((t r.2).next n).elim _ _
    cases (t r.2).next n <;> rfl

end

/-- Rounds enough for a traversal whose body unlinks at most the entry it stands on. -/
def HashTable.rounds (h : HashTable K) : ℕ := h.entries.length + 2 * h.buckets + 1

/-! ### Resizing -/

/-- The body of the loop in `hash_table_resize`: delete the entry from the old table by its key and
insert whatever was deleted into the new one. -/
def migrateEntry (pos : Pos K) (hti : ℕ) : StateT (HashTable K × HashTable K) Option ℕ :=
  fun (h, auxHtbl) =>
    match pos with
    | .head _ => none
    | .node hentry =>
      match hashTableDelHashEntrySafe h hentry with
      | (none, h) => some (hti, h, auxHtbl)
      | (some hentryAux, h) =>
        if auxHtbl.home hentryAux < auxHtbl.heads then
          some (hti, h, hashTableInsert auxHtbl hentryAux)
        else none

/-- `hash_table_resize`: the value returned and the table afterwards. -/
def hashTableResize (C : Clib K) (h : HashTable K) : HeapM (ℤ × HashTable K) := do
  match ← hashTableInit Heap.malloc C (h.resizeThreshold * 2 % 2 ^ 64) (some h.keycmp)
      (some h.myHashFn) with
  | none => return (-1, h)
  | some auxHtbl =>
    let (_, h, auxHtbl) ← StateT.lift
      (forEachSafe failure (Prod.fst <$> get) migrateEntry h.rounds 0 none (h, auxHtbl))
    Heap.free h.tableMem
    Heap.free h.bucketLocks
    return (0, { h with
      bucketLocks := auxHtbl.bucketLocks
      tableMem := auxHtbl.tableMem
      table := auxHtbl.table
      buckets := auxHtbl.buckets
      usedBuckets := auxHtbl.usedBuckets
      resizeThreshold := auxHtbl.resizeThreshold })

/-- The critical section that ends `hash_table_insert_safe`, under the lock of bucket `n`. -/
def HashTable.insertAt (h : HashTable K) (n : ℕ) (e : HashEntry K) : HashTable K :=
  let h := if (h.table n).isEmpty then { h with usedBuckets := h.usedBuckets + 1 } else h
  h.listAdd n e

/-- `hash_table_insert_safe`. -/
def hashTableInsertSafe (C : Clib K) (h : HashTable K) (e : HashEntry K) :
    HeapM (HashTable K) := do
  let n := hashTableHashCode h e.key e.klen
  if h.usedBuckets ≥ h.resizeThreshold then
    let (ret, h) ← hashTableResize C h
    let n := if ret = 0 then hashTableHashCode h e.key e.klen else n
    h.reach n
    return h.insertAt n e
  else
    h.reach n
    return h.insertAt n e

/-- `hash_table_insert_safe_i`. -/
def hashTableInsertSafeI (C : Clib K) (h : HashTable K) (e : HashEntry K) (key : K) (len : ℕ) :
    HeapM (HashTable K) := do
  let (_, e) ← hashEntryInit C.null Heap.malloc e (.int key) len
  hashTableInsertSafe C h e

/-- `hash_table_insert_safe_s`. -/
def hashTableInsertSafeS (C : Clib K) (h : HashTable K) (e : HashEntry K) (key : Option K)
    (len : ℕ) : HeapM (HashTable K) := do
  let (_, e) ← hashEntryInit C.null Heap.malloc e (.str key) len
  hashTableInsertSafe C h e

end Milu
