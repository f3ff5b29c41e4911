import Milu.Lib.Program
import Mathlib.Algebra.Group.Nat.Defs

/-!
# The interposed allocator

`milu.c`: the functions `malloc`, `calloc`, `realloc` and `free` that the library puts in front of
those of the C library, and the initialisation each of them begins with.

The functions are programs over the operations they are made of: the calls of the real allocator,
the accesses to the globals, and the calls into the table and the bank. What an operation does is
not said here. The same text is run in a world of live blocks to see whether the books balance,
interleaved with other calls to see what races do to them, before an allocator that knows whose its
blocks are to see what becomes of those of the program, and on the real table, bank and locks to see
who owns a record and who waits for whom.

`_VERBOSE` is not defined in the build, and what it guards is left out.

## Main definitions

* `Memalloc`, `Memstats` — a record, and the statistics
* `MiluOp`, `MiluOp.Reply` — the operations, and what each returns
* `Tracker` — programs over these operations
* `initMilu`, `guardInit` — initialisation
* `malloc`, `calloc`, `realloc`, `free` — the four functions
* `Request` — a call of one of the four

## Main results

* `Request.program_eq` — each of the four begins with the guarded initialisation
* `Tracker.runs_guarded` — of which nothing is left once milu is enabled
-/

namespace Milu

/-- `struct memalloc`, and where it lies. -/
structure Memalloc where
  addr : ℕ
  ptr : ℕ
  calladdr : ℕ
  btSize : ℕ
  bt : ℕ
  size : UInt64
  deriving DecidableEq, Repr

/-- The fields of `struct memstats`. -/
inductive Counter
  | reserved
  | activeReserved
  | alloc
  | activeAlloc
  deriving DecidableEq, Repr

/-- `struct memstats`. -/
structure Memstats where
  reserved : UInt64
  activeReserved : UInt64
  alloc : UInt64
  activeAlloc : UInt64
  deriving DecidableEq, Repr

namespace Memstats

/-- `stats`, as a global starts out. -/
def zero : Memstats := ⟨0, 0, 0, 0⟩

/-- Change one field. -/
def modify (s : Memstats) (f : UInt64 → UInt64) : Counter → Memstats
  | .reserved => { s with reserved := f s.reserved }
  | .activeReserved => { s with activeReserved := f s.activeReserved }
  | .alloc => { s with alloc := f s.alloc }
  | .activeAlloc => { s with activeAlloc := f s.activeAlloc }

/-- `stats.c += n`. -/
def add (s : Memstats) (c : Counter) (n : UInt64) : Memstats := s.modify (· + n) c

/-- `stats.c -= n`. -/
def sub (s : Memstats) (c : Counter) (n : UInt64) : Memstats := s.modify (· - n) c

end Memstats

/-- `sizeof(struct hash_table)`. -/
def sizeofHashTable : ℕ := 128

/-- `_DEF_HSIZE`. -/
def defHsize : ℕ := 100000

/-- The operations of `milu.c`. -/
inductive MiluOp
  /-- Read `milu_enabled`. -/
  | enabled
  /-- Write `milu_enabled`. -/
  | setEnabled (v : ℕ)
  /-- `pthread_mutex_lock(&init_mutex)`. -/
  | lockInit
  /-- `pthread_mutex_unlock(&init_mutex)`. -/
  | unlockInit
  /-- Is `_milu_htable` other than `NULL`? -/
  | htable
  /-- `_milu_htable = _malloc(n)`, and whether that is other than `NULL`. -/
  | allocHtable (n : ℕ)
  /-- `hash_table_init(_milu_htable, b, hash64_cmp, milu_hash_ptr)`. -/
  | hashTableInit (b : ℕ)
  /-- Is `_milu_pools` other than `NULL`? -/
  | pools
  /-- `custom_b_allocator(_malloc)` and `_milu_pools = create_bank(1, 1, POOLSIZE, sizeof(struct
  memalloc))`, and whether that is other than `NULL`. -/
  | createPools
  /-- `_malloc`. -/
  | malloc (size : UInt64)
  /-- `_calloc`. -/
  | calloc (nmemb size : UInt64)
  /-- `_realloc`. -/
  | realloc (ptr : ℕ) (size : UInt64)
  /-- `_free`. -/
  | free (ptr : ℕ)
  /-- `bank_get_ptr(_milu_pools)`, the memory for a record. -/
  | takeRecord
  /-- `get_backtrace`: the depth and the symbols. -/
  | backtrace
  /-- A write through a `NULL` pointer. -/
  | fault
  /-- `hash_table_insert_safe_i(_milu_htable, &mem->hentry, key, sizeof(uintptr_t))`. -/
  | insert (key : ℕ) (mem : Memalloc)
  /-- `hash_table_del_key_safe_i(_milu_htable, key, sizeof(uintptr_t))`, and the record around the
  entry it returns. -/
  | delete (key : ℕ)
  /-- `stats.c += n`. -/
  | add (c : Counter) (n : UInt64)
  /-- `stats.c -= n`. -/
  | sub (c : Counter) (n : UInt64)
  /-- `_free(mem->bt)` and `_free(mem)`. -/
  | freeRecord (mem : Memalloc)
  /-- `mem_report`. -/
  | memReport
  /-- `milu_cleanup`. -/
  | miluCleanup

/-- What an operation returns. A write through `NULL` does not return. -/
@[reducible] def MiluOp.Reply : MiluOp → Type
  | enabled => ℕ
  | htable | allocHtable _ | pools | createPools => Bool
  | hashTableInit _ => ℤ
  | malloc _ | calloc _ _ | realloc _ _ | takeRecord => Option ℕ
  | backtrace => ℕ × ℕ
  | fault => Empty
  | delete _ => Option Memalloc
  | setEnabled _ | lockInit | unlockInit | free _ | insert _ _ | add _ _ | sub _ _ | freeRecord _
  | memReport | miluCleanup => Unit

/-- Programs over the operations of `milu.c`. -/
abbrev Tracker := Program MiluOp.Reply

namespace Tracker

/-- Perform one operation. -/
abbrev perform (o : MiluOp) : Tracker o.Reply := Program.perform o

/-! ### Initialisation -/

/-- `_init_htable`. The value `hash_table_init` returns is not looked at. -/
def initHtable : Tracker ℤ := do
  if ← perform .htable then
    let _ ← perform (.hashTableInit defHsize)
    return 0
  else if ← perform (.allocHtable sizeofHashTable) then
    let _ ← perform (.hashTableInit defHsize)
    return 0
  else return -1

/-- `_init_pools`. -/
def initPools : Tracker ℤ := do
  if ← perform .pools then return 0
  else if ← perform .createPools then return 0
  else return -1

/-- `init_milu`. -/
def initMilu : Tracker ℕ := do
  let enabled ← perform .enabled
  if enabled = 0 then
    let htable ← initHtable
    if htable = 0 then
      let pools ← initPools
      if pools = 0 then return 0 else return 1
    else return 1
  else return 1

/-- What a thread that found `milu_enabled` zero does, whenever it gets `init_mutex`. -/
def lockedInit : Tracker Unit := do
  perform .lockInit
  let enabled ← initMilu
  perform (.setEnabled enabled)
  perform .unlockInit

/-- The first lines of each of the four functions. -/
def guardInit : Tracker Unit := do
  let enabled ← perform .enabled
  if enabled = 0 then lockedInit else return ()

/-! ### Records -/

/-- Take a record and fill in its fields. Without a record this writes through `NULL`. -/
def newRecord (ptr calladdr : ℕ) (size : UInt64) : Tracker Memalloc := do
  match ← perform .takeRecord with
  | none => .op .fault Empty.elim
  | some addr =>
    let (depth, bt) ← perform .backtrace
    return ⟨addr, ptr, calladdr, depth % 2 ^ 8, bt, size⟩

/-- What `malloc` and `calloc` do with the block `ptr` they were given. -/
def recordNew (ptr calladdr : ℕ) (size : UInt64) : Tracker Unit := do
  let enabled ← perform .enabled
  if enabled = 0 then return ()
  else
    let mem ← newRecord ptr calladdr size
    perform (.insert ptr mem)
    perform (.add .alloc 1)
    perform (.add .activeAlloc 1)
    perform (.add .reserved size)
    perform (.add .activeReserved size)

/-- `realloc` subtracts the size of the record it deleted, if there was one, and gives the record
back. -/
def forgetOld : Option Memalloc → Tracker Unit
  | none => return ()
  | some memOld => do
    perform (.sub .reserved memOld.size)
    perform (.sub .activeReserved memOld.size)
    perform (.freeRecord memOld)

/-- `realloc` inserts a record for `nptr` in place of the one it deleted, if there was one. -/
def relink (memOld : Option Memalloc) (nptr calladdr : ℕ) (size : UInt64) : Tracker Unit := do
  let mem ← newRecord nptr calladdr size
  perform (.insert nptr mem)
  forgetOld memOld
  perform (.add .reserved size)
  perform (.add .activeReserved size)

/-- `realloc` deletes the record of `ptr` and inserts one for `nptr`. -/
def replaceRecord (ptr nptr calladdr : ℕ) (size : UInt64) : Tracker Unit := do
  let memOld ← perform (.delete ptr)
  relink memOld nptr calladdr size

/-- What `realloc` does with the block `nptr` it was given in place of `ptr`. -/
def recordMoved (ptr nptr calladdr : ℕ) (size : UInt64) : Tracker Unit := do
  let enabled ← perform .enabled
  if enabled = 0 then return () else replaceRecord ptr nptr calladdr size

/-- What `free` does with the record of `ptr`. Without one it reports all records and deletes
them. -/
def forget (ptr : ℕ) : Tracker Unit := do
  let enabled ← perform .enabled
  if enabled = 0 then return ()
  else
    match ← perform (.delete ptr) with
    | none =>
      perform .memReport
      perform .miluCleanup
    | some mem =>
      perform (.sub .activeAlloc 1)
      perform (.sub .activeReserved mem.size)
      perform (.freeRecord mem)

/-! ### The four functions -/

/-- How `malloc` and `calloc` end, given what the real function returned for `size` bytes. -/
def trackNew (calladdr : ℕ) (size : UInt64) : Option ℕ → Tracker (Option ℕ)
  | none => return none
  | some ptr => do
    recordNew ptr calladdr size
    return some ptr

/-- How `realloc` ends, given what the real function returned for `ptr`. -/
def trackMoved (calladdr ptr : ℕ) (size : UInt64) : Option ℕ → Tracker (Option ℕ)
  | none => return none
  | some nptr => do
    recordMoved ptr nptr calladdr size
    return some nptr

/-- `malloc`, called from `calladdr`. -/
def malloc (calladdr : ℕ) (size : UInt64) : Tracker (Option ℕ) := do
  guardInit
  let ptr ← perform (.malloc size)
  trackNew calladdr size ptr

/-- `calloc`, called from `calladdr`. -/
def calloc (calladdr : ℕ) (nmemb size : UInt64) : Tracker (Option ℕ) := do
  guardInit
  let ptr ← perform (.calloc nmemb size)
  trackNew calladdr (size * nmemb) ptr

/-- `realloc`, called from `calladdr`. -/
def realloc (calladdr ptr : ℕ) (size : UInt64) : Tracker (Option ℕ) := do
  guardInit
  let nptr ← perform (.realloc ptr size)
  trackMoved calladdr ptr size nptr

def free (ptr : ℕ) : Tracker Unit := do
  guardInit
  forget ptr
  perform (.free ptr)

end Tracker

/-- A call of one of the four functions. -/
inductive Request
  | malloc (size : UInt64)
  | calloc (nmemb size : UInt64)
  | realloc (ptr : ℕ) (size : UInt64)
  | free (ptr : ℕ)
  deriving DecidableEq, Repr

/-- The program a call runs, and the pointer it returns; `free` returns none. -/
def Request.program (calladdr : ℕ) : Request → Tracker (Option ℕ)
  | malloc size => Tracker.malloc calladdr size
  | calloc nmemb size => Tracker.calloc calladdr nmemb size
  | realloc ptr size => Tracker.realloc calladdr ptr size
  | free ptr => do
    Tracker.free ptr
    return none

/-- What a call does once milu is initialised, or is not. -/
def Request.body (calladdr : ℕ) : Request → Tracker (Option ℕ)
  | malloc size => do
    let ptr ← Tracker.perform (.malloc size)
    Tracker.trackNew calladdr size ptr
  | calloc nmemb size => do
    let ptr ← Tracker.perform (.calloc nmemb size)
    Tracker.trackNew calladdr (size * nmemb) ptr
  | realloc ptr size => do
    let nptr ← Tracker.perform (.realloc ptr size)
    Tracker.trackMoved calladdr ptr size nptr
  | free ptr => do
    Tracker.forget ptr
    Tracker.perform (.free ptr)
    return none

/-- Each of the four functions begins with the guarded initialisation. -/
theorem Request.program_eq (calladdr : ℕ) (q : Request) :
    q.program calladdr = Tracker.guardInit >>= fun _ => q.body calladdr := by
  cases q with
  | malloc size => rfl
  | calloc nmemb size => rfl
  | realloc ptr size => rfl
  | free ptr =>
    show (Tracker.guardInit >>= fun _ => Tracker.forget ptr >>= fun _ =>
      Tracker.perform (.free ptr)) >>= _ = _
    rw [bind_assoc]
    simp only [bind_assoc, Request.body]

/-! ### Runs of the parts of a call -/

namespace Tracker

open Program (Runs runs_perform_iff runs_bind_iff)

variable {S α : Type} {exec : Program.Exec S MiluOp.Reply} {s s' : S} {a : α}

/-- What the real allocator answered is what a `malloc` or a `calloc` returns. -/
theorem trackNew_result {calladdr : ℕ} {size : UInt64} {r r' : Option ℕ}
    (h : Runs exec s (trackNew calladdr size r) r' s') : r = r' := by
  cases r with
  | none => exact h.1.symm
  | some ptr =>
    obtain ⟨_, _, -, rfl, -⟩ := runs_bind_iff.mp h
    rfl

theorem runs_of_enabled (hen : ∀ r s₁, exec s .enabled r s₁ → r ≠ 0 ∧ s₁ = s) {x y : Tracker α}
    (h : Runs exec s (perform .enabled >>= fun enabled => if enabled = 0 then x else y) a s') :
    Runs exec s y a s' := by
  obtain ⟨r, s₁, hexec, hrest⟩ := runs_perform_iff.mp h
  obtain ⟨hr, rfl⟩ := hen r s₁ hexec
  rwa [if_neg hr] at hrest

theorem runs_guarded (hen : ∀ r s₁, exec s .enabled r s₁ → r ≠ 0 ∧ s₁ = s) {f : Unit → Tracker α}
    (h : Runs exec s (guardInit >>= f) a s') : Runs exec s (f ()) a s' := by
  obtain ⟨u, s₁, hguard, hrest⟩ := runs_bind_iff.mp h
  obtain ⟨-, rfl⟩ := runs_of_enabled hen hguard
  exact hrest

end Tracker

end Milu
