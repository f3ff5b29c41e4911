import Milu.Lib.Heap
import Mathlib.Logic.Function.Basic

/-!
# Pools and banks of pools

`pool.h`, `pool.c`, `poolbank.h` and `poolbank.c`, run by one thread.

A pool hands out the slots of one block of memory. It has one entry node for each slot; a node holds
the address of a slot and is on one of two queues. The nodes are known here by their index in
`_entries`, and a queue is the list of its nodes, front first. `pool_get_ptr` moves a node from
`pool_q` to `avail_q` and returns the address it holds. `pool_put_ptr` takes *whichever* node is
first on `avail_q`, writes the returned address into it and moves it back.

A pointer is its address, and `NULL` is `0`. The blocks for pools and banks come from
`_p_allocator` and `_b_allocator`, which a program may replace, and go back to `free`; both are
parameters.

## Main definitions

* `Pool`, `createPool`, `destroyPool`, `poolGetPtr`, `poolPutPtr`
* `Bank`, `createBank`, `addPool`, `destroyBank`, `bankGetPtr`, `bankPutPtr`
-/

namespace Milu

/-! ### Queues -/

/-- `put_fifo`. -/
def putFifo (q : List ℕ) (e : ℕ) : List ℕ := q ++ [e]

/-- `get_fifo`: the node taken and the queue without it, or `none` for an empty queue. -/
def getFifo : List ℕ → Option (ℕ × List ℕ)
  | [] => none
  | e :: q => some (e, q)

theorem getFifo_eq_none {q : List ℕ} : getFifo q = none ↔ q = [] := by
  cases q <;> simp [getFifo]

theorem getFifo_eq_some {q l : List ℕ} {e : ℕ} : getFifo q = some (e, l) ↔ q = e :: l := by
  cases q <;> simp [getFifo]

/-! ### Pools -/

/-- `struct pool`. `ptr` is the `ptr` field of each node of `_entries`. -/
structure Pool where
  addr : ℕ
  nobjs : ℕ
  nQ : ℕ
  objSz : ℕ
  entries : ℕ
  ptr : ℕ → ℕ
  poolMem : ℕ
  startAddr : ℕ
  endAddr : ℕ
  poolQ : List ℕ
  availQ : List ℕ

/-- `sizeof(struct pool)`. -/
def sizeofPool : ℕ := 160

/-- `sizeof(struct pool_entry)`. -/
def sizeofPoolEntry : ℕ := 24

/-- The first `k` rounds of the loop of `create_pool`, which starts with the first slot at `mem`:
the pool, and where the next slot begins. -/
def fillEntries (oSz : ℕ) (p : Pool) (mem : ℕ) : ℕ → Pool × ℕ
  | 0 => (p, mem)
  | i + 1 =>
    let (p, mem) := fillEntries oSz p mem i
    ({ p with ptr := Function.update p.ptr i mem, poolQ := putFifo p.poolQ i },
      (mem + oSz) % 2 ^ 64)

/-- The pool `create_pool` makes in the three blocks it was given. `_n_q` is set to the object size,
cut to 16 bits. -/
def Pool.fresh (addr pSz oSz mem entries : ℕ) : Pool :=
  let p : Pool := {
    addr := addr
    nobjs := pSz
    nQ := 0
    objSz := oSz
    entries := entries
    ptr := fun _ => 0
    poolMem := mem
    startAddr := mem
    endAddr := 0
    poolQ := []
    availQ := [] }
  let (p, mem) := fillEntries oSz p mem pSz
  { p with endAddr := mem, nQ := oSz % 2 ^ 16 }

section

variable {m : Type → Type} [Monad m] (allocator : ℕ → m (Option ℕ)) (free : ℕ → m Unit)

/-- `create_pool`. The parameters are a `uint16_t` and a `size_t`. -/
def createPool (pSz oSz : ℕ) : m (Option Pool) := do
  let pSz := pSz % 2 ^ 16
  let oSz := oSz % 2 ^ 64
  match ← allocator sizeofPool with
  | none => return none
  | some p =>
    match ← allocator (pSz * oSz % 2 ^ 64) with
    | none =>
      free p
      return none
    | some mem =>
      match ← allocator (pSz * sizeofPoolEntry) with
      | none =>
        free mem
        free p
        return none
      | some e => return some (Pool.fresh p pSz oSz mem e)

/-- `destroy_pool`. -/
def destroyPool (p : Option Pool) : m ℤ :=
  match p with
  | none => return -1
  | some p =>
    if p.poolMem = 0 then return -1
    else do
      free p.poolMem
      if p.entries = 0 then return -1
      else
        free p.entries
        free p.addr
        return 0

end

/-- `pool_get_ptr`. -/
def poolGetPtr : Option Pool → ℕ × Option Pool
  | none => (0, none)
  | some p =>
    match getFifo p.poolQ with
    | none => (0, some p)
    | some (lh, q) =>
      (p.ptr lh, some { p with
        poolQ := q
        availQ := putFifo p.availQ lh
        nQ := (p.nQ + 2 ^ 16 - 1) % 2 ^ 16 })

/-- `pool_put_ptr`. -/
def poolPutPtr (p : Option Pool) (ptr : ℕ) : ℤ × Option Pool :=
  match p with
  | none => (-1, none)
  | some p =>
    if ptr < p.startAddr ∨ ptr ≥ p.endAddr then (-1, some p)
    else
      match getFifo p.availQ with
      | none => (-1, some p)
      | some (lh, q) =>
        (0, some { p with
          availQ := q
          ptr := Function.update p.ptr lh ptr
          poolQ := putFifo p.poolQ lh
          nQ := (p.nQ + 1) % 2 ^ 16 })

/-! ### Banks -/

/-- `struct bank`. `bank` is the array of pools, which lies at `bankMem`; a pool may be `NULL`. -/
structure Bank where
  addr : ℕ
  maxPools : ℕ
  allocdPools : ℕ
  poolsz : ℕ
  objsz : ℕ
  bankMem : ℕ
  bank : List (Option Pool)

/-- `sizeof(struct bank)`. -/
def sizeofBank : ℕ := 24

/-- `sizeof(struct pool *)`. -/
def sizeofPoolPtr : ℕ := 8

section

variable {m : Type → Type} [Monad m] (allocator : ℕ → m (Option ℕ)) (free : ℕ → m Unit)

/-- The loop of `create_bank`, with `k` pools still to make. When a pool cannot be made, the
clean-up is a loop over the pools made before it: its first round releases `bank[i]`, which is
`NULL`, and the bank, and returns. For the first pool it has no round at all, and the outer loop
goes on. -/
def createBankLoop (poolsize objsize : ℕ) : ℕ → Bank → m (Option Bank)
  | 0, b => return some b
  | k + 1, b => do
    let p ← createPool allocator free poolsize objsize
    if p.isNone ∧ 0 < b.bank.length then
      free 0
      free b.addr
      return none
    else
      createBankLoop poolsize objsize k { b with
        bank := b.bank ++ [p]
        allocdPools := (b.allocdPools + 1) % 2 ^ 16 }

/-- `create_bank`. The parameters are two `uint16_t`, a truth value and a `size_t`. -/
def createBank (nPools : ℕ) (growing : Bool) (poolsize objsize : ℕ) : m (Option Bank) := do
  let nPools := nPools % 2 ^ 16
  match ← allocator sizeofBank with
  | none => return none
  | some addr =>
    let b : Bank := {
      addr := addr
      maxPools := if growing then 0 else nPools
      allocdPools := 0
      poolsz := poolsize % 2 ^ 16
      objsz := objsize % 2 ^ 64
      bankMem := 0
      bank := [] }
    if nPools > 0 then
      match ← allocator (nPools * sizeofPoolPtr) with
      | none =>
        free addr
        return none
      | some bankMem => createBankLoop allocator free poolsize objsize nPools { b with
          bankMem := bankMem }
    else return some b

/-- `add_pool`. -/
def addPool (b : Option Bank) : m (ℤ × Option Bank) :=
  match b with
  | none => return (-1, none)
  | some b =>
    if b.maxPools ≠ 0 ∧ b.allocdPools = b.maxPools then return (-1, some b)
    else do
      match ← allocator ((b.allocdPools + 1) * sizeofPoolPtr) with
      | none => return (-1, some b)
      | some auxB =>
        match ← createPool allocator free b.poolsz b.objsz with
        | none =>
          free auxB
          return (-1, some b)
        | some p =>
          free b.bankMem
          return (0, some { b with
            allocdPools := (b.allocdPools + 1) % 2 ^ 16
            bankMem := auxB
            bank := b.bank.take b.allocdPools ++ [some p] })

/-- The loop of `destroy_bank` over the pools from some index on, with `err` failures so far. -/
def destroyBankLoop : ℤ → List (Option Pool) → m ℤ
  | err, [] => return err
  | err, p :: ps => do
    let ret ← destroyPool free p
    destroyBankLoop (if ret ≠ 0 then err + 1 else err) ps

/-- `destroy_bank`. -/
def destroyBank (b : Option Bank) : m ℤ :=
  match b with
  | none => return -1
  | some b => do
    let err ← destroyBankLoop free 0 (b.bank.take b.allocdPools)
    free b.bankMem
    free b.addr
    return err

end

/-- The loop of `bank_get_ptr` over the pools from some index on. -/
def bankGetLoop : List (Option Pool) → ℕ × List (Option Pool)
  | [] => (0, [])
  | p :: ps =>
    let (ptr, p) := poolGetPtr p
    if ptr ≠ 0 then (ptr, p :: ps)
    else
      let (ptr, ps) := bankGetLoop ps
      (ptr, p :: ps)

/-- `bank_get_ptr`. -/
def bankGetPtr : Option Bank → ℕ × Option Bank
  | none => (0, none)
  | some b =>
    let (ptr, ps) := bankGetLoop (b.bank.take b.allocdPools)
    (ptr, some { b with bank := ps ++ b.bank.drop b.allocdPools })

/-- The loop of `bank_put_ptr` over the pools from some index on, where `ret` is the outcome of the
round before. -/
def bankPutLoop (ptr : ℕ) : ℤ → List (Option Pool) → ℤ × List (Option Pool)
  | ret, [] => (ret, [])
  | _, p :: ps =>
    let (ret, p) := poolPutPtr p ptr
    if ret = 0 then (ret, p :: ps)
    else
      let (ret, ps) := bankPutLoop ptr ret ps
      (ret, p :: ps)

/-- `bank_put_ptr`. -/
def bankPutPtr (b : Option Bank) (ptr : ℕ) : ℤ × Option Bank :=
  match b with
  | none => (-1, none)
  | some b =>
    let (ret, ps) := bankPutLoop ptr 0 (b.bank.take b.allocdPools)
    (ret, some { b with bank := ps ++ b.bank.drop b.allocdPools })

end Milu
