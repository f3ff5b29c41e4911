import Milu.Lists.Structs
import Milu.Pool.Basic

/-!
# Pools in memory

`pool.c` and `poolbank.c` once more, now with the links of the queues in memory. A pool has two
queues inside its struct, and an array of entries elsewhere; an entry is on a queue by the
`struct list_head` inside it, and `list_entry` gets from there back to the entry and the address
it holds. Pointers are addresses, and `NULL` is `0`.

The pools were modelled before by the lists of the indices of their entries. Here an entry is where
the array has it, its index is nowhere, and what is on a queue is what the links say.

The fields of a struct that no link leads to (the bounds of a pool, the array of a bank) are a
record here too. What is in memory is the `ptr` of the entries, the links and the mutexes.

## Main definitions

* `InMemory.PoolStruct`, `InMemory.BankStruct` — `struct pool` and `struct bank`
* `InMemory.createPool`, `InMemory.poolGetPtr`, `InMemory.poolPutPtr`
* `InMemory.createBank`, `InMemory.addPool`, `InMemory.bankGetPtr`, `InMemory.bankPutPtr`
-/

namespace Milu

namespace InMemory

/-! ### Structs -/

/-- `struct pool` without its queues, which are in memory. -/
structure PoolStruct where
  addr : ℕ
  nobjs : ℕ
  nQ : ℕ
  objSz : ℕ
  entries : ℕ
  poolMem : ℕ
  startAddr : ℕ
  endAddr : ℕ
  deriving DecidableEq, Repr

/-- `offsetof(struct pool, pool_q)`. -/
def offsetofPoolQ : ℕ := 48

/-- `offsetof(struct pool, avail_q)`. -/
def offsetofAvailQ : ℕ := 104

/-- `offsetof(struct pool_entry, q_e)`. -/
def offsetofQE : ℕ := 8

/-- `&e->q_e`. -/
def qE (e : ℕ) : ℕ := e + offsetofQE

/-- `&entries[i]`. -/
def entryAt (entries i : ℕ) : ℕ := entries + sizeofPoolEntry * i

namespace PoolStruct

/-- `&p->pool_q`. -/
def poolQ (p : PoolStruct) : ℕ := p.addr + offsetofPoolQ

/-- `&p->avail_q`. -/
def availQ (p : PoolStruct) : ℕ := p.addr + offsetofAvailQ

end PoolStruct

/-- `struct bank`. -/
structure BankStruct where
  addr : ℕ
  maxPools : ℕ
  allocdPools : ℕ
  poolsz : ℕ
  objsz : ℕ
  bankMem : ℕ
  bank : List (Option PoolStruct)
  deriving DecidableEq, Repr

/-! ### Pools -/

/-- The first `k` rounds of the loop of `create_pool`: where the next slot begins. -/
def fillEntries (oSz q entries mem : ℕ) : ℕ → LinkM ℕ ℕ
  | 0 => return mem
  | i + 1 => do
    let mem ← fillEntries oSz q entries mem i
    store (entryAt entries i) mem
    onLists (Queue.putFifo q (qE (entryAt entries i)))
    return (mem + oSz) % 2 ^ 64

def createPool (pSz oSz : ℕ) : LinkM ℕ (Option PoolStruct) := do
  let pSz := pSz % 2 ^ 16
  let oSz := oSz % 2 ^ 64
  match ← onHeap (Heap.malloc sizeofPool) with
  | none => return none
  | some p => do
    onLists (Queue.initQueue (p + offsetofPoolQ))
    onLists (Queue.initQueue (p + offsetofAvailQ))
    match ← onHeap (Heap.malloc (pSz * oSz % 2 ^ 64)) with
    | none =>
      onHeap (Heap.free p)
      return none
    | some mem =>
      match ← onHeap (Heap.malloc (pSz * sizeofPoolEntry)) with
      | none =>
        onHeap (Heap.free mem)
        onHeap (Heap.free p)
        return none
      | some e =>
        let mem' ← fillEntries oSz (p + offsetofPoolQ) e mem pSz
        return some {
          addr := p
          nobjs := pSz
          nQ := oSz % 2 ^ 16
          objSz := oSz
          entries := e
          poolMem := mem
          startAddr := mem
          endAddr := mem' }

def poolGetPtr : Option PoolStruct → LinkM ℕ (ℕ × Option PoolStruct)
  | none => return (0, none)
  | some p => do
    let lh ← onLists (Queue.getFifo p.poolQ)
    if lh = 0 then return (0, some p)
    else
      let ptr ← load (lh - offsetofQE)
      onLists (Queue.putFifo p.availQ lh)
      return (ptr, some { p with nQ := (p.nQ + 2 ^ 16 - 1) % 2 ^ 16 })

def poolPutPtr (p : Option PoolStruct) (ptr : ℕ) : LinkM ℕ (ℤ × Option PoolStruct) :=
  match p with
  | none => return (-1, none)
  | some p =>
    if ptr < p.startAddr ∨ ptr ≥ p.endAddr then return (-1, some p)
    else do
      let lh ← onLists (Queue.getFifo p.availQ)
      if lh = 0 then return (-1, some p)
      else
        store (lh - offsetofQE) ptr
        onLists (Queue.putFifo p.poolQ lh)
        return (0, some { p with nQ := (p.nQ + 1) % 2 ^ 16 })

/-! ### Banks -/

/-- The loop of `create_bank`, with `k` pools still to make. -/
def createBankLoop (poolsize objsize : ℕ) : ℕ → BankStruct → LinkM ℕ (Option BankStruct)
  | 0, b => return some b
  | k + 1, b => do
    let p ← createPool poolsize objsize
    if p.isNone ∧ 0 < b.bank.length then
      onHeap (Heap.free 0)
      onHeap (Heap.free b.addr)
      return none
    else
      createBankLoop poolsize objsize k { b with
        bank := b.bank ++ [p]
        allocdPools := (b.allocdPools + 1) % 2 ^ 16 }

def createBank (nPools : ℕ) (growing : Bool) (poolsize objsize : ℕ) :
    LinkM ℕ (Option BankStruct) := do
  let nPools := nPools % 2 ^ 16
  match ← onHeap (Heap.malloc sizeofBank) with
  | none => return none
  | some addr =>
    let b : BankStruct := {
      addr := addr
      maxPools := if growing then 0 else nPools
      allocdPools := 0
      poolsz := poolsize % 2 ^ 16
      objsz := objsize % 2 ^ 64
      bankMem := 0
      bank := [] }
    if nPools > 0 then
      match ← onHeap (Heap.malloc (nPools * sizeofPoolPtr)) with
      | none =>
        onHeap (Heap.free addr)
        return none
      | some bankMem => createBankLoop poolsize objsize nPools { b with bankMem := bankMem }
    else return some b

def addPool (b : Option BankStruct) : LinkM ℕ (ℤ × Option BankStruct) :=
  match b with
  | none => return (-1, none)
  | some b =>
    if b.maxPools ≠ 0 ∧ b.allocdPools = b.maxPools then return (-1, some b)
    else do
      match ← onHeap (Heap.malloc ((b.allocdPools + 1) * sizeofPoolPtr)) with
      | none => return (-1, some b)
      | some auxB =>
        match ← createPool b.poolsz b.objsz with
        | none =>
          onHeap (Heap.free auxB)
          return (-1, some b)
        | some p =>
          onHeap (Heap.free b.bankMem)
          return (0, some { b with
            allocdPools := (b.allocdPools + 1) % 2 ^ 16
            bankMem := auxB
            bank := b.bank.take b.allocdPools ++ [some p] })

/-- The loop of `bank_get_ptr` over the pools from some index on. -/
def bankGetLoop : List (Option PoolStruct) → LinkM ℕ (ℕ × List (Option PoolStruct))
  | [] => return (0, [])
  | p :: ps => do
    let (ptr, p) ← poolGetPtr p
    if ptr ≠ 0 then return (ptr, p :: ps)
    else
      let (ptr, ps) ← bankGetLoop ps
      return (ptr, p :: ps)

def bankGetPtr : Option BankStruct → LinkM ℕ (ℕ × Option BankStruct)
  | none => return (0, none)
  | some b => do
    let (ptr, ps) ← bankGetLoop (b.bank.take b.allocdPools)
    return (ptr, some { b with bank := ps ++ b.bank.drop b.allocdPools })

/-- The loop of `bank_put_ptr` over the pools from some index on, where `ret` is the outcome of the
round before. -/
def bankPutLoop (ptr : ℕ) : ℤ → List (Option PoolStruct) → LinkM ℕ (ℤ × List (Option PoolStruct))
  | ret, [] => return (ret, [])
  | _, p :: ps => do
    let (ret, p) ← poolPutPtr p ptr
    if ret = 0 then return (ret, p :: ps)
    else
      let (ret, ps) ← bankPutLoop ptr ret ps
      return (ret, p :: ps)

def bankPutPtr (b : Option BankStruct) (ptr : ℕ) : LinkM ℕ (ℤ × Option BankStruct) :=
  match b with
  | none => return (-1, none)
  | some b => do
    let (ret, ps) ← bankPutLoop ptr 0 (b.bank.take b.allocdPools)
    return (ret, some { b with bank := ps ++ b.bank.drop b.allocdPools })

end InMemory

end Milu
