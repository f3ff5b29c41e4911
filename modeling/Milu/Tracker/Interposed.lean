import Milu.Lib.Holdings
import Milu.Lib.Keyed
import Milu.Tracker.Init

/-!
# The real allocator behind the library

The world in which it can be seen what the library does to the blocks of the program. Every block of
the real allocator has a holder, and every call of the real allocator that is made on a block of the
program is logged: the four calls made on behalf of the program, and each `_free` by which milu
gives up memory of its own, should a block of the program lie there.

The state of milu is kept where it decides which calls are made: `milu_enabled`, the two pointers,
the record table as a list of records under their keys, and the memory of the pools. A record can
always be had: it lies anywhere in that memory. The table and the bank take and give back memory of
their own, and of that nothing is assumed but that it is their own. The statistics are left out. So
are the calls that `hashtbl.c` and `poolbank.c` make of `malloc` and `free` as they are linked, and
so is what may go wrong in a traversal of the table. What may go wrong in the real allocator is not
left out: a block is released at the address where it begins, and any other release has no outcome.

## Main definitions

* `RealCall`, `Request.direct` — a call of the real allocator, and the one a request stands for
* `Interposed` — the state of milu, the real allocator, and the log
* `Interposed.Exec` — what an operation does
-/

namespace Milu

/-- Who holds a block of the real allocator: the program, a record as its backtrace, the bank as
memory for records, or milu for the rest of its table and its bank. -/
inductive Holder
  | program
  | backtrace
  | pool
  | milu
  deriving DecidableEq, Repr

/-- A call of the real allocator, and what it returned. -/
inductive RealCall
  | malloc (size : UInt64) (r : Option ℕ)
  | calloc (nmemb size : UInt64) (r : Option ℕ)
  | realloc (ptr : ℕ) (size : UInt64) (r : Option ℕ)
  | free (ptr : ℕ)
  deriving DecidableEq, Repr

/-- The call that a request is when nothing stands before the real allocator. -/
def Request.direct : Request → Option ℕ → RealCall
  | malloc size, r => .malloc size r
  | calloc nmemb size, r => .calloc nmemb size r
  | realloc ptr size, r => .realloc ptr size r
  | free ptr, _ => .free ptr

/-- The state of milu, the real allocator, and the calls of it made on blocks of the program, last
first. `pools` is the memory of the pools of the bank, if there is one; in `records`, the most
recent record comes first. -/
structure Interposed where
  enabled : ℕ
  htable : TableState
  pools : Option (List Block)
  records : List (ℕ × Memalloc)
  heap : Holdings Holder
  log : List RealCall

namespace Interposed

/-- The memory for records. -/
def memory (w : Interposed) : List Block := w.pools.getD []

/-- An address at which there may be a record. -/
def InPool (w : Interposed) (addr : ℕ) : Prop :=
  ∃ b ∈ w.memory, b.base ≤ addr ∧ addr < b.base + b.size

/-- The record lies where the memory of a pool begins: to release it is to release the memory of the
pool. -/
def First (w : Interposed) (mem : Memalloc) : Prop := ∃ b ∈ w.memory, b.base = mem.addr

/-- `_free(a)`, for milu's own ends. -/
def giveBack (w : Interposed) (a : ℕ) : Option Interposed := do
  let heap ← w.heap.free a
  return { w with heap, log := if w.heap.At .program a then .free a :: w.log else w.log }

/-- `_free(mem->bt)` and `_free(mem)`. -/
def giveUp (w : Interposed) (mem : Memalloc) : Option Interposed := do
  let w ← w.giveBack mem.bt
  w.giveBack mem.addr

/-- Only blocks that milu holds for its table and its bank come and go. -/
def Aside (H H' : Holdings Holder) : Prop :=
  H.Keeps (· ≠ .milu) H' ∧ H'.Keeps (· ≠ .milu) H

/-- What an operation does, when the allocations behind the table and the bank come to `o`.
`_calloc` is the function `dlsym` finds under the name `realloc`, and takes its first argument for a
pointer. -/
def Exec (o : Outcome) (w : Interposed) : (op : MiluOp) → op.Reply → Interposed → Prop
  | .enabled, r, w' => r = w.enabled ∧ w' = w
  | .setEnabled v, _, w' => w' = { w with enabled := v }
  | .lockInit, _, w' | .unlockInit, _, w' => w' = w
  | .htable, r, w' => r = (w.htable != .null) ∧ w' = w
  | .allocHtable _, r, w' => r = o.struct ∧ ∃ H, Aside w.heap H ∧
      w' = { w with htable := if o.struct then .raw else .null, heap := H }
  | .hashTableInit _, _, w' => ∃ H, Aside w.heap H ∧
      w' = { w with htable := if o.table then .ready else .raw, records := [], heap := H }
  | .pools, r, w' => r = w.pools.isSome ∧ w' = w
  | .createPools, r, w' => r = (o.bank != .null) ∧ ∃ bs H, w.heap.Keeps (· ≠ .milu) H ∧
      H.Keeps (fun i => i ≠ .milu ∧ i ≠ .pool) w.heap ∧ (∀ b ∈ bs, (.pool, b) ∈ H.blocks) ∧
      w' = { w with pools := if o.bank = .null then none else some bs, heap := H }
  | .malloc size, r, w' => ∃ H, w.heap.Malloc .program size.toNat r H ∧
      w' = { w with heap := H, log := .malloc size r :: w.log }
  | .calloc nmemb size, r, w' => ∃ H, w.heap.Realloc .program nmemb.toNat size.toNat r H ∧
      w' = { w with heap := H, log := .realloc nmemb.toNat size r :: w.log }
  | .realloc ptr size, r, w' => ∃ H, w.heap.Realloc .program ptr size.toNat r H ∧
      w' = { w with heap := H, log := .realloc ptr size r :: w.log }
  | .free ptr, _, w' => ∃ H, w.heap.free ptr = some H ∧
      w' = { w with heap := H, log := .free ptr :: w.log }
  | .takeRecord, r, w' => (∃ addr, r = some addr ∧ w.InPool addr) ∧ w' = w
  | .backtrace, r, w' => ∃ n q H, w.heap.Malloc .backtrace n q H ∧ r.2 = q.getD 0 ∧
      w' = { w with heap := H }
  | .fault, _, _ => False
  | .insert key mem, _, w' => w.htable = .ready ∧ ∃ H, Aside w.heap H ∧
      w' = { w with records := (key, mem) :: w.records, heap := H }
  | .delete key, r, w' => w.htable = .ready ∧ r = w.records.lookup key ∧
      w' = { w with records := Keyed.erase key w.records }
  | .add _ _, _, w' | .sub _ _, _, w' => w' = w
  | .freeRecord mem, _, w' => w.giveUp mem = some w'
  | .memReport, _, w' => w.htable = .ready ∧ w' = w
  | .miluCleanup, _, w' => w.htable = .ready ∧
      ∃ w₁, (w.records.map Prod.snd).foldlM giveUp w = some w₁ ∧ w' = { w₁ with records := [] }

end Interposed

end Milu
