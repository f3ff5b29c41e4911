import Milu.Hashtbl.Locks
import Milu.Hashtbl.PointerKeys
import Milu.Lib.Ends
import Milu.Pool.Basic
import Milu.Tracker.Basic

/-!
# The library as it is linked

One thread in one process, with everything in place: the globals, the record table with its
mutexes, the bank, the records, and the real allocator.

`libmilu` defines `malloc` and `free`, so the calls of `malloc` and `free` in `hashtbl.c`,
`hashtbl.h`, `pool.c` and `poolbank.c` come back to it. Each such call is a call of a function of
`milu.c` inside an operation of another. Where the source calls `_malloc` or `_free`, and in the
bank after `custom_b_allocator(_malloc)`, the real function is called; the bank still calls `free`
to give blocks back. The block of `backtrace_symbols` is asked of the real allocator too: it is an
assumption that what the C library allocates for itself does not come back to `malloc`, and all that
is proved of the linked library rests on it. The heads of the table are taken to be set up where a
call comes to them, as they are below `2 ^ 32` buckets.

A mutex is not recursive: a thread that locks one that it holds waits for ever.

## Main definitions

* `Process`, `ProcM`, `Stuck` — the process, and how a call may fail to return
* `Runtime` — what the C library does
* `Process.handleWith`, `Process.handle` — the operations of `milu.c`, and the operations as linked
* `Process.call` — a call of one of the four functions
-/

namespace Milu

/-- The mutexes of the library. -/
inductive Mutex
  | init
  | hashtbl (l : TableLock)
  deriving DecidableEq, Repr

/-- `_milu_htable`: `NULL`, a struct that `hash_table_init` has not or not successfully set up, or
a table. -/
inductive TablePtr
  | null
  | raw (addr : ℕ)
  | ready (addr : ℕ) (h : HashTable ℕ)

def TablePtr.addr : TablePtr → ℕ
  | null => 0
  | raw addr | ready addr _ => addr

def TablePtr.isSome : TablePtr → Bool
  | null => false
  | raw _ | ready _ _ => true

/-- The process. `record` is the memory of the records, `user` that of the program; `taken` is the
log of the addresses `bank_get_ptr` has returned, and `held` the mutexes the thread holds. -/
structure Process where
  enabled : ℕ
  htable : TablePtr
  pools : Option Bank
  stats : Memstats
  record : ℕ → Memalloc
  taken : List ℕ
  user : UserMem
  heap : Heap
  held : List Mutex

/-- Why a call does not return: it locks a mutex that the thread holds, it writes through a record
that is `NULL`, it follows a table that is `NULL` or was never set, or it walks off the table or
reads a frame through a backtrace that is `NULL`. `deep` is a limit of the model: calls inside calls
beyond the given depth. -/
inductive Stuck
  | deadlock
  | fault
  | crash
  | astray
  | deep
  deriving DecidableEq, Repr

/-- Computations of the process. -/
abbrev ProcM := StateT Process (Except Stuck)

/-- What the C library does: its part in the table, the depth `backtrace` returns, the bytes
`backtrace_symbols` asks for; and the return address of a call from `hashtbl.c` or `poolbank.c`. -/
structure Runtime where
  clib : Clib ℕ
  depth : ℕ
  symbols : ℕ
  caller : ℕ

/-- `sizeof(struct memalloc)`. -/
def sizeofMemalloc : ℕ := 80

/-- The offset of `hentry` in `struct memalloc`. -/
def hentryOffset : ℕ := 40

/-- `POOLSIZE`. -/
def poolsize : ℕ := 20000

namespace Process

/-! ### Memory and mutexes -/

def lock (l : Mutex) : ProcM Unit := fun s =>
  if l ∈ s.held then .error .deadlock else .ok ((), { s with held := l :: s.held })

def unlock (l : Mutex) : ProcM Unit := fun s => .ok ((), { s with held := s.held.erase l })

/-- A call that gets stuck. -/
def stuck {α : Type} (e : Stuck) : ProcM α := fun _ => .error e

/-- A call of the real allocator. -/
def allocate {α : Type} (x : HeapM α) : ProcM α := fun s =>
  match x s.heap with
  | none => .error .astray
  | some (a, H) => .ok (a, { s with heap := H })

/-- Read the table. Its comparator reads the memory of the program as it is now. -/
def load : ProcM (HashTable ℕ) := fun s =>
  match s.htable with
  | .ready _ h => .ok (h.reading s.user, s)
  | _ => .error .crash

/-- Write the table. -/
def store (h : HashTable ℕ) : ProcM Unit := fun s => .ok ((), { s with
  htable := .ready s.htable.addr h })

/-- `hash_entry(e, struct memalloc, hentry)`, and what it points to. -/
def recordOf (s : Process) (e : HashEntry ℕ) : Memalloc :=
  { s.record (e.addr - hentryOffset) with addr := e.addr - hentryOffset }

section

variable (R : Runtime) (malloc : ℕ → ProcM (Option ℕ)) (free : ℕ → ProcM Unit)

/-- The table, for the functions of `hashtbl.c`. -/
def tableEnv : TableEnv ProcM ℕ where
  lock l := lock (.hashtbl l)
  unlock l := unlock (.hashtbl l)
  malloc := malloc
  free := free
  load := load
  store := store
  astray := stuck .astray

/-! ### Operations -/

/-- `hash_table_init(_milu_htable, b, hash64_cmp, milu_hash_ptr)`. -/
def initTable (b : ℕ) : ProcM ℤ := do
  let s ← get
  match ← hashTableInit malloc R.clib b (some (hash64Cmp s.user)) (some miluHashPtr) with
  | none =>
    modify fun s => { s with htable := .raw s.htable.addr }
    return -1
  | some h =>
    modify fun s => { s with htable := .ready s.htable.addr h }
    return 0

/-- `custom_b_allocator(_malloc)` and `create_bank`. -/
def createPools : ProcM Bool := do
  let pools ← createBank (fun n => allocate (Heap.malloc n)) free 1 true poolsize sizeofMemalloc
  modify fun s => { s with pools := pools }
  return pools.isSome

/-- `bank_get_ptr(_milu_pools)`. -/
def takeRecord : ProcM (Option ℕ) := do
  let s ← get
  let (ptr, pools) := bankGetPtr s.pools
  if ptr = 0 then
    set { s with pools := pools }
    return none
  else
    set { s with pools := pools, taken := ptr :: s.taken }
    return some ptr

/-- `get_backtrace`. -/
def backtrace : ProcM (ℕ × ℕ) := do
  let bt ← allocate (Heap.malloc R.symbols)
  return (R.depth, bt.getD 0)

/-- Write the record, and `hash_table_insert_safe_i` for its entry. -/
def insert (key : ℕ) (mem : Memalloc) : ProcM Unit := do
  modify fun s => { s with record := Function.update s.record mem.addr mem }
  Locked.hashTableInsertSafeI (tableEnv malloc free) R.clib ⟨mem.addr + hentryOffset, 0, 0, false⟩
    key sizeofPtr

/-- `hash_table_del_key_safe_i`, and the record of the entry. -/
def delete (key : ℕ) : ProcM (Option Memalloc) := do
  match ← Locked.hashTableDelKeySafeI (tableEnv malloc free) key sizeofPtr with
  | none => return none
  | some e =>
    let s ← get
    return some (s.recordOf e)

/-- `_free(mem->bt)` and `_free(mem)`. -/
def freeRecord (mem : Memalloc) : ProcM Unit := do
  allocate (Heap.free mem.bt)
  allocate (Heap.free mem.addr)

/-- The body of the loop in `mem_report`. The loop over the frames of a record uses the variable of
the loop over the buckets, and leaves it at the number of frames. Each frame is read through
`bt`. -/
def reportEntry (pos : Pos ℕ) (_ : ℕ) : ProcM ℕ :=
  match pos with
  | .head _ => stuck .astray
  | .node entry => do
    let s ← get
    let mem := s.recordOf entry
    if mem.bt = 0 ∧ mem.btSize ≠ 0 then stuck .astray
    else return mem.btSize

def memReport : ProcM Unit := do
  let h ← load
  forEachSafe (stuck .astray) load reportEntry h.rounds 0 none

/-- The body of the loop in `milu_cleanup`. -/
def cleanupEntry (pos : Pos ℕ) (i : ℕ) : ProcM ℕ :=
  match pos with
  | .head _ => stuck .astray
  | .node entry => do
    let h ← load
    store (hashTableDelHashEntry h entry).2
    let s ← get
    freeRecord (s.recordOf entry)
    return i

def miluCleanup : ProcM Unit := do
  let h ← load
  forEachSafe (stuck .astray) load cleanupEntry h.rounds 0 none

/-- The operations of `milu.c`, with `malloc` and `free` as the table and the bank find them. -/
def handleWith : (o : MiluOp) → ProcM o.Reply
  | .enabled => do
    let s ← get
    return s.enabled
  | .setEnabled v => modify fun s => { s with enabled := v }
  | .lockInit => lock .init
  | .unlockInit => unlock .init
  | .htable => do
    let s ← get
    return s.htable.isSome
  | .allocHtable n => do
    match ← allocate (Heap.malloc n) with
    | none =>
      modify fun s => { s with htable := .null }
      return false
    | some addr =>
      modify fun s => { s with htable := .raw addr }
      return true
  | .hashTableInit b => initTable R malloc b
  | .pools => do
    let s ← get
    return s.pools.isSome
  | .createPools => createPools free
  | .malloc size => allocate (Heap.malloc size.toNat)
  | .calloc nmemb size => allocate (Heap.realloc nmemb.toNat size.toNat)
  | .realloc ptr size => allocate (Heap.realloc ptr size.toNat)
  | .free ptr => allocate (Heap.free ptr)
  | .takeRecord => takeRecord
  | .backtrace => backtrace R
  | .fault => stuck .fault
  | .insert key mem => insert R malloc free key mem
  | .delete key => delete malloc free key
  | .add c n => modify fun s => { s with stats := s.stats.add c n }
  | .sub c n => modify fun s => { s with stats := s.stats.sub c n }
  | .freeRecord mem => freeRecord mem
  | .memReport => memReport
  | .miluCleanup => miluCleanup

end

/-- The operations as they are linked, with at most `d` calls of `malloc` or `free` inside one
another. -/
def handle (R : Runtime) : ℕ → (o : MiluOp) → ProcM o.Reply
  | 0 => handleWith R (fun _ => stuck .deep) (fun _ => stuck .deep)
  | d + 1 => handleWith R
    (fun n => (Tracker.malloc R.caller (UInt64.ofNat n)).interp (handle R d))
    (fun ptr => (Tracker.free ptr).interp (handle R d))

/-- A call of one of the four functions. -/
def call (R : Runtime) (d calladdr : ℕ) (q : Request) : ProcM (Option ℕ) :=
  (q.program calladdr).interp (handle R d)

end Process

end Milu
