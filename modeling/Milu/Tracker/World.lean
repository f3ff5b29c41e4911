import Milu.Lib.Keyed
import Milu.Tracker.Basic
import Mathlib.Tactic.Ring

/-!
# Live blocks and their records

The world the four functions run in once milu is enabled, with everything but the books left out:
the blocks the program has, the record table as a list of records under their keys, and the
statistics. A record can always be had.

The real allocator is any that answers a request with `NULL` or with an address that no live block
has. Live blocks do not overlap, so it never has more bytes in live blocks than there are addresses.
`realloc(p, 0)` may release `p` and return `NULL`.

A size here is the one the program asked for. That of a `calloc` is the product of its arguments,
whatever the function behind `_calloc` makes of them.

## Main definitions

* `World` — blocks, records and statistics
* `World.Malloc`, `World.Realloc`, `World.Free` — the real allocator
* `World.Exec` — what an operation does
-/

namespace Milu

/-- The live blocks with the sizes last requested for them, the record table, most recent record
first, and `stats`. -/
structure World where
  live : List (ℕ × UInt64)
  records : List (ℕ × Memalloc)
  stats : Memstats

namespace World

def empty : World := ⟨[], [], Memstats.zero⟩

/-- The bytes in live blocks. -/
def total (w : World) : ℕ := (w.live.map fun b => b.2.toNat).sum

/-- The keys of the record table with the sizes of the records. -/
def recorded (w : World) : List (ℕ × UInt64) := w.records.map fun r => (r.1, r.2.size)

/-! ### The real allocator -/

/-- An address that may be handed out for a block of `size` bytes. -/
def Fresh (w : World) (a : ℕ) (size : UInt64) : Prop :=
  a ≠ 0 ∧ a ∉ Keyed.keys w.live ∧ w.total + size.toNat < 2 ^ 64

def occupy (w : World) (a : ℕ) (size : UInt64) : World := { w with live := (a, size) :: w.live }

def release (w : World) (a : ℕ) : World := { w with live := Keyed.erase a w.live }

/-- `_malloc`, asked for `size` bytes. -/
def Malloc (w : World) (size : UInt64) (r : Option ℕ) (w' : World) : Prop :=
  r = none ∧ w' = w ∨ ∃ a, r = some a ∧ w.Fresh a size ∧ w' = w.occupy a size

/-- `_realloc(ptr, size)`, when the program has asked for `asked` bytes. Any `ptr` that is not a
live block is treated as `NULL` is. -/
def Realloc (w : World) (ptr : ℕ) (size asked : UInt64) (r : Option ℕ) (w' : World) : Prop :=
  match w.live.lookup ptr with
  | none => w.Malloc asked r w'
  | some _ =>
    r = none ∧ w' = w ∨ size = 0 ∧ r = none ∧ w' = w.release ptr ∨
      ∃ a, r = some a ∧ (w.release ptr).Fresh a asked ∧ w' = (w.release ptr).occupy a asked

/-! ### Operations -/

/-- What an operation does. Milu is enabled, so those of the initialisation do not occur. `_calloc`
is the function `dlsym` finds under the name `realloc`, and takes its first argument for a
pointer. -/
def Exec (w : World) : (o : MiluOp) → o.Reply → World → Prop
  | .enabled, r, w' => r ≠ 0 ∧ w' = w
  | .malloc size, r, w' => w.Malloc size r w'
  | .calloc nmemb size, r, w' => w.Realloc nmemb.toNat size (size * nmemb) r w'
  | .realloc ptr size, r, w' => w.Realloc ptr size size r w'
  | .free ptr, _, w' => w' = w.release ptr
  | .takeRecord, r, w' => r ≠ none ∧ w' = w
  | .backtrace, _, w' => w' = w
  | .insert key mem, _, w' => w' = { w with records := (key, mem) :: w.records }
  | .delete key, r, w' => r = w.records.lookup key ∧
      w' = { w with records := Keyed.erase key w.records }
  | .add c n, _, w' => w' = { w with stats := w.stats.add c n }
  | .sub c n, _, w' => w' = { w with stats := w.stats.sub c n }
  | .freeRecord _, _, w' => w' = w
  | .memReport, _, w' => w' = w
  | .miluCleanup, _, w' => w' = { w with records := [] }
  | .fault, _, _ | .setEnabled _, _, _ | .lockInit, _, _ | .unlockInit, _, _ | .htable, _, _
  | .allocHtable _, _, _ | .hashTableInit _, _, _ | .pools, _, _ | .createPools, _, _ => False

/-! ### Without a block -/

variable {w : World} {ptr : ℕ} {size : UInt64}

theorem total_release (h : w.live.lookup ptr = some size) :
    size.toNat + (w.release ptr).total = w.total :=
  ((Keyed.cons_erase_perm h).map fun b : ℕ × UInt64 => b.2.toNat).sum_nat

theorem length_release (h : w.live.lookup ptr = some size) :
    (w.release ptr).live.length + 1 = w.live.length :=
  (Keyed.cons_erase_perm h).length_eq

theorem distinct_release (hl : (Keyed.keys w.live).Nodup) (ptr : ℕ) :
    (Keyed.keys (w.release ptr).live).Nodup :=
  hl.sublist ((Keyed.erase_sublist ptr w.live).map Prod.fst)

theorem nonnull_release (h0 : 0 ∉ Keyed.keys w.live) (ptr : ℕ) :
    0 ∉ Keyed.keys (w.release ptr).live :=
  fun h => h0 (((Keyed.erase_sublist ptr w.live).map Prod.fst).subset h)

end World

end Milu
