import Milu.Lib.Ledger
import Milu.Pool.Slots

/-!
# The blocks of a pool and of a bank

What each operation on a bank asks for and gives back, whatever the sizes and whatever the allocator
refuses. A pool consists of three blocks and a bank of its struct, its array and its pools; gets and
puts leave them alone.

## Main definitions

* `Pool.bases`, `Bank.bases` — where these blocks begin
* `poolRequests`, `Bank.Grows` — what a new pool asks for, and when `add_pool` succeeds
* `BankStep`, `BankCalls` — calls of `add_pool`, `bank_get_ptr` and `bank_put_ptr`, with any
  pointers
* `Bank.Whole` — the blocks of a bank are what is to be given back

## Main results

* `createPool_ledger`, `addPool_ledger`, `destroyBank_ledger` — one operation
* `BankCalls.count`, `BankCalls.whole` — any calls count the pools and keep their blocks
-/

namespace Milu

/-! ### Pools -/

/-- Where the three blocks of a pool begin, in the order in which they are released. -/
def Pool.bases (P : Pool) : List ℕ := [P.poolMem, P.entries, P.addr]

/-- The sizes that `create_pool` asks for. -/
def poolRequests (pSz oSz : ℕ) : List ℕ :=
  [sizeofPool, pSz % 2 ^ 16 * (oSz % 2 ^ 64) % 2 ^ 64, pSz % 2 ^ 16 * sizeofPoolEntry]

theorem Pool.fresh_bases (addr pSz oSz entries : ℕ) {mem : ℕ} (hmem : mem < 2 ^ 64) :
    (Pool.fresh addr pSz oSz mem entries).bases = [mem, entries, addr] := by
  rw [Pool.bases, Pool.fresh_eq addr pSz oSz entries hmem]

variable {L : Ledger}

/-- **Making a pool** keeps nothing when a request is refused, and else keeps its three blocks. -/
theorem createPool_ledger (pSz oSz : ℕ) (L : Ledger) :
    (∃ L', createPool Ledger.malloc Ledger.free pSz oSz L = (none, L') ∧
        ¬ L.heap.Grants (poolRequests pSz oSz) ∧ L.heap.refused < L'.heap.refused ∧
        ∀ as, L.Owns as → L'.Owns as) ∨
      ∃ P L', createPool Ledger.malloc Ledger.free pSz oSz L = (some P, L') ∧
        L.heap.Grants (poolRequests pSz oSz) ∧
        L'.heap = L.heap.afterMallocs (poolRequests pSz oSz) ∧
        ∀ as, L.Owns as → L'.Owns (P.bases ++ as) := by
  rw [createPool, poolRequests, Ledger.malloc_bind, Heap.grants_cons, Heap.grants_cons,
    Heap.grants_cons]
  set size := pSz % 2 ^ 16 * (oSz % 2 ^ 64) % 2 ^ 64
  set count := pSz % 2 ^ 16 * sizeofPoolEntry
  rcases L.heap.answer_cases sizeofPool with ⟨hp, hcount⟩ | ⟨p, hp, -, -, hcount⟩ <;> rw [hp]
  · exact .inl ⟨_, rfl, fun h => h.1 rfl, by rw [Ledger.heap_afterMalloc]; omega,
      fun as h => h.refused hp⟩
  set L₁ := L.afterMalloc sizeofPool
  dsimp only
  rw [Ledger.malloc_bind]
  rcases L₁.heap.answer_cases size with ⟨hmem, hcount₁⟩ | ⟨mem, hmem, hfresh, -, hcount₁⟩ <;>
    rw [hmem]
  · refine .inl ⟨_, rfl, fun h => h.2.1 hmem, ?_, fun as h => ((h.malloc hp).refused hmem).free⟩
    show L.heap.refused < ((L₁.heap.afterMalloc size).afterFree p).refused
    rw [Heap.refused_afterFree, hcount₁]
    exact Nat.lt_succ_of_le hcount.ge
  set L₂ := L₁.afterMalloc size
  dsimp only
  rw [Ledger.malloc_bind]
  rcases L₂.heap.answer_cases count with ⟨he, hcount₂⟩ | ⟨e, he, -, -, hcount₂⟩ <;> rw [he]
  · refine .inl ⟨_, rfl, fun h => h.2.2.1 he, ?_,
      fun as h => (((h.malloc hp).malloc hmem).refused he).free.free⟩
    show L.heap.refused < (((L₂.heap.afterMalloc count).afterFree mem).afterFree p).refused
    rw [Heap.refused_afterFree, Heap.refused_afterFree, hcount₂]
    exact Nat.lt_succ_of_le (hcount₁.trans hcount).ge
  · refine .inr ⟨_, _, rfl, ⟨by simp, ?_, ?_, trivial⟩, rfl, fun as h => ?_⟩
    · exact fun hc => Option.some_ne_none mem (hmem.symm.trans hc)
    · exact fun hc => Option.some_ne_none e (he.symm.trans hc)
    · have hlt : mem < 2 ^ 64 := Nat.lt_of_le_of_lt (Nat.le_add_right _ _) hfresh.2.1
      rw [Pool.fresh_bases p _ _ e hlt]
      exact (((h.malloc hp).malloc hmem).malloc he).perm (List.Perm.swap mem e (p :: as))

/-- **Releasing a pool** gives back its three blocks. -/
theorem destroyPool_ledger {P : Pool} {as : List ℕ} (h : L.Owns (P.bases ++ as)) :
    ∃ L', destroyPool Ledger.free (some P) L = (0, L') ∧ L'.Owns as := by
  have hmem : P.poolMem ≠ 0 := h.ne_zero (by simp [Pool.bases])
  have hentries : P.entries ≠ 0 := h.ne_zero (by simp [Pool.bases])
  refine ⟨((L.afterFree P.poolMem).afterFree P.entries).afterFree P.addr, ?_, h.free.free.free⟩
  rw [destroyPool, if_neg hmem, if_neg hentries]
  rfl

/-! ### Banks -/

/-- Where the blocks of each pool begin. -/
def storage (ps : List (Option Pool)) : List (Option (List ℕ)) := ps.map (Option.map Pool.bases)

theorem storage_append (ps qs : List (Option Pool)) :
    storage (ps ++ qs) = storage ps ++ storage qs :=
  List.map_append

/-- Where the blocks of all the pools begin. -/
def poolBases (ps : List (Option Pool)) : List ℕ := (storage ps).flatMap (·.getD [])

@[simp] theorem poolBases_cons_some (P : Pool) (ps : List (Option Pool)) :
    poolBases (some P :: ps) = P.bases ++ poolBases ps := rfl

@[simp] theorem poolBases_append (ps qs : List (Option Pool)) :
    poolBases (ps ++ qs) = poolBases ps ++ poolBases qs := by
  rw [poolBases, storage_append, List.flatMap_append, ← poolBases, ← poolBases]

/-- Where the array of pools begins. A bank made with no pools has none. -/
def Bank.arrayBases (b : Bank) : List ℕ := if b.bankMem = 0 then [] else [b.bankMem]

/-- Where the blocks of a bank begin, in the order in which they are released. -/
def Bank.bases (b : Bank) : List ℕ := poolBases b.bank ++ (b.arrayBases ++ [b.addr])

/-- The bank after `add_pool` put the pool `P` behind the others, in a new array at `mem`. -/
def Bank.grown (b : Bank) (mem : ℕ) (P : Pool) : Bank :=
  { b with
    allocdPools := (b.allocdPools + 1) % 2 ^ 16
    bankMem := mem
    bank := b.bank.take b.allocdPools ++ [some P] }

/-- The bank is not full, and the allocator answers everything that `add_pool` asks for. -/
def Bank.Grows (b : Bank) (H : Heap) : Prop :=
  ¬ (b.maxPools ≠ 0 ∧ b.allocdPools = b.maxPools) ∧
    H.Grants ((b.allocdPools + 1) * sizeofPoolPtr :: poolRequests b.poolsz b.objsz)

instance (b : Bank) (H : Heap) : Decidable (b.Grows H) := inferInstanceAs (Decidable (_ ∧ _))

theorem Bank.free_array {b : Bank} {as : List ℕ} (h : L.Owns (b.arrayBases ++ as)) :
    (L.afterFree b.bankMem).Owns as := by
  rw [Bank.arrayBases] at h
  split_ifs at h with h0
  · rw [h0]
    exact h.free_null
  · exact h.free

/-- **Adding a pool** keeps nothing when it fails, and else keeps the new pool and the new array in
place of the old one. -/
theorem addPool_ledger (b : Bank) (L : Ledger) :
    (∃ L', addPool Ledger.malloc Ledger.free (some b) L = ((-1, some b), L') ∧ ¬ b.Grows L.heap ∧
        ∀ as, L.Owns as → L'.Owns as) ∨
      ∃ mem P L', addPool Ledger.malloc Ledger.free (some b) L = ((0, some (b.grown mem P)), L') ∧
        b.Grows L.heap ∧ mem ≠ 0 ∧
        ∀ as, L.Owns (b.arrayBases ++ as) → L'.Owns (P.bases ++ mem :: as) := by
  rw [addPool, Bank.Grows, Heap.grants_cons]
  by_cases hfull : b.maxPools ≠ 0 ∧ b.allocdPools = b.maxPools
  · rw [if_pos hfull]
    exact .inl ⟨L, rfl, fun hgrows => hgrows.1 hfull, fun as h => h⟩
  rw [if_neg hfull, Ledger.malloc_bind]
  rcases L.heap.answer_cases ((b.allocdPools + 1) * sizeofPoolPtr) with
    ⟨hmem, -⟩ | ⟨mem, hmem, hfresh, -⟩ <;> rw [hmem]
  · exact .inl ⟨_, rfl, fun hgrows => hgrows.2.1 rfl, fun as h => h.refused hmem⟩
  dsimp only
  rcases createPool_ledger b.poolsz b.objsz (L.afterMalloc ((b.allocdPools + 1) * sizeofPoolPtr))
    with ⟨L', hpool, hno, -, howns⟩ | ⟨P, L', hpool, hyes, -, howns⟩ <;>
    rw [Ledger.bind_apply hpool]
  · exact .inl ⟨_, rfl, fun hgrows => hno hgrows.2.2,
      fun as h => (howns _ (h.malloc hmem)).free⟩
  · refine .inr ⟨mem, P, _, rfl, ⟨hfull, Option.some_ne_none mem, hyes⟩, hfresh.1, fun as h => ?_⟩
    have hnew := howns _ (h.malloc hmem)
    have hfront : (P.bases ++ mem :: (b.arrayBases ++ as)).Perm
        (b.arrayBases ++ (P.bases ++ mem :: as)) := by
      simpa using List.perm_append_comm_assoc (P.bases ++ [mem]) b.arrayBases as
    exact Bank.free_array (hnew.perm hfront)

theorem addPool_cases {b b' : Bank} {L L' : Ledger} {ret : ℤ}
    (hadd : addPool Ledger.malloc Ledger.free (some b) L = ((ret, some b'), L')) :
    (ret = -1 ∧ b' = b ∧ ¬ b.Grows L.heap ∧ ∀ as, L.Owns as → L'.Owns as) ∨
      (ret = 0 ∧ b.Grows L.heap ∧ ∃ mem P, b' = b.grown mem P ∧ mem ≠ 0 ∧
        ∀ as, L.Owns (b.arrayBases ++ as) → L'.Owns (P.bases ++ mem :: as)) := by
  rcases addPool_ledger b L with ⟨L₁, hcall, hno, howns⟩ | ⟨mem, P, L₁, hcall, hyes, hne, howns⟩ <;>
    obtain ⟨hpair, rfl⟩ := Prod.mk.inj (hadd.symm.trans hcall) <;>
    obtain ⟨rfl, hbank⟩ := Prod.mk.inj hpair <;> obtain rfl := Option.some.inj hbank
  · exact .inl ⟨rfl, rfl, hno, howns⟩
  · exact .inr ⟨rfl, hyes, mem, P, rfl, hne, howns⟩

/-- The pools of a bank are released one after the other. -/
theorem destroyBankLoop_ledger {as : List ℕ} : ∀ {ps : List (Option Pool)} {L : Ledger} (err : ℤ),
    none ∉ ps → L.Owns (poolBases ps ++ as) →
    ∃ L', destroyBankLoop Ledger.free err ps L = (err, L') ∧ L'.Owns as
  | [], L, err, _, h => ⟨L, rfl, h⟩
  | none :: _, _, _, hsome, _ => absurd List.mem_cons_self hsome
  | some P :: ps, L, err, hsome, h => by
    rw [poolBases_cons_some, List.append_assoc] at h
    obtain ⟨L₁, hpool, h₁⟩ := destroyPool_ledger h
    obtain ⟨L', hloop, h'⟩ :=
      destroyBankLoop_ledger err (fun hp => hsome (List.mem_cons_of_mem _ hp)) h₁
    refine ⟨L', ?_, h'⟩
    rw [destroyBankLoop, Ledger.bind_apply hpool, if_neg (by simp), hloop]

/-- **Releasing a bank** gives back all its blocks. -/
theorem destroyBank_ledger {b : Bank} {as : List ℕ} (hcount : b.bank.length = b.allocdPools)
    (hsome : none ∉ b.bank) (h : L.Owns (b.bases ++ as)) :
    ∃ L', destroyBank Ledger.free (some b) L = (0, L') ∧ L'.Owns as := by
  rw [Bank.bases, List.append_assoc, List.append_assoc] at h
  obtain ⟨L₁, hloop, h₁⟩ := destroyBankLoop_ledger 0 hsome h
  refine ⟨(L₁.afterFree b.bankMem).afterFree b.addr, ?_, (Bank.free_array h₁).free⟩
  rw [destroyBank, ← hcount, List.take_length, Ledger.bind_apply hloop]
  rfl

/-! ### Calls on a bank -/

theorem poolGetPtr_bases (p : Option Pool) :
    (poolGetPtr p).2.map Pool.bases = p.map Pool.bases := by
  cases p with
  | none => rfl
  | some P =>
    rcases poolGetPtr_cases P with ⟨-, h⟩ | ⟨lh, q, -, h⟩ <;> rw [h]
    simp [Pool.bases]

theorem poolPutPtr_bases (p : Option Pool) (x : ℕ) :
    (poolPutPtr p x).2.map Pool.bases = p.map Pool.bases := by
  cases p with
  | none => rfl
  | some P =>
    rcases poolPutPtr_cases P x with ⟨-, h⟩ | ⟨lh, q, -, -, -, h⟩ <;> rw [h]
    simp [Pool.bases]

theorem bankGetLoop_storage : ∀ ps : List (Option Pool), storage (bankGetLoop ps).2 = storage ps
  | [] => rfl
  | p :: ps => by
    have hp := poolGetPtr_bases p
    have ih := bankGetLoop_storage ps
    simp only [storage] at ih ⊢
    rw [bankGetLoop]
    dsimp only
    split_ifs
    · rw [List.map_cons, List.map_cons, hp]
    · rw [List.map_cons, List.map_cons, hp, ih]

theorem bankPutLoop_storage (x : ℕ) : ∀ (ret : ℤ) (ps : List (Option Pool)),
    storage (bankPutLoop x ret ps).2 = storage ps
  | _, [] => rfl
  | ret, p :: ps => by
    have hp := poolPutPtr_bases p x
    have ih := bankPutLoop_storage x (poolPutPtr p x).1 ps
    simp only [storage] at ih ⊢
    rw [bankPutLoop]
    dsimp only
    split_ifs
    · rw [List.map_cons, List.map_cons, hp]
    · rw [List.map_cons, List.map_cons, hp, ih]

/-- The banks differ in the queues of their pools at most. -/
structure Bank.SameStorage (b b' : Bank) : Prop where
  addr : b'.addr = b.addr
  maxPools : b'.maxPools = b.maxPools
  allocdPools : b'.allocdPools = b.allocdPools
  poolsz : b'.poolsz = b.poolsz
  objsz : b'.objsz = b.objsz
  bankMem : b'.bankMem = b.bankMem
  storage : storage b'.bank = storage b.bank

/-- A bank in which a loop over its pools moved none of their blocks. -/
theorem Bank.sameStorage_of_loop {b : Bank} {ps : List (Option Pool)}
    (h : Milu.storage ps = Milu.storage (b.bank.take b.allocdPools)) :
    b.SameStorage { b with bank := ps ++ b.bank.drop b.allocdPools } := by
  refine ⟨rfl, rfl, rfl, rfl, rfl, rfl, ?_⟩
  show Milu.storage (ps ++ b.bank.drop b.allocdPools) = Milu.storage b.bank
  rw [storage_append, h, ← storage_append, List.take_append_drop]

theorem bankGetPtr_sameStorage {b b' : Bank} {x : ℕ} (h : bankGetPtr (some b) = (x, some b')) :
    b.SameStorage b' := by
  rw [bankGetPtr, Prod.mk.injEq, Option.some.injEq] at h
  rw [← h.2]
  exact Bank.sameStorage_of_loop (bankGetLoop_storage _)

theorem bankPutPtr_sameStorage {b b' : Bank} {x : ℕ} {ret : ℤ}
    (h : bankPutPtr (some b) x = (ret, some b')) : b.SameStorage b' := by
  rw [bankPutPtr, Prod.mk.injEq, Option.some.injEq] at h
  rw [← h.2]
  exact Bank.sameStorage_of_loop (bankPutLoop_storage x 0 _)

/-- Calls on a bank with its return value: `add_pool`, `bank_get_ptr` and `bank_put_ptr` with any
pointer. -/
inductive BankEvent
  | added (ret : ℤ)
  | got (x : ℕ)
  | put (x : ℕ) (ret : ℤ)
  deriving DecidableEq

/-- The bank and the ledger before a call, and the call. -/
structure BankStep where
  bank : Bank
  ledger : Ledger
  event : BankEvent

/-- The calls that lead from one bank and ledger to another, latest first. -/
inductive BankCalls (b₀ : Bank) (L₀ : Ledger) : List BankStep → Bank → Ledger → Prop
  | start : BankCalls b₀ L₀ [] b₀ L₀
  | add {steps b L ret b' L'} (h : BankCalls b₀ L₀ steps b L)
      (hadd : addPool Ledger.malloc Ledger.free (some b) L = ((ret, some b'), L')) :
      BankCalls b₀ L₀ (⟨b, L, .added ret⟩ :: steps) b' L'
  | get {steps b L x b'} (h : BankCalls b₀ L₀ steps b L)
      (hget : bankGetPtr (some b) = (x, some b')) :
      BankCalls b₀ L₀ (⟨b, L, .got x⟩ :: steps) b' L
  | put {steps b L ret b'} (x : ℕ) (h : BankCalls b₀ L₀ steps b L)
      (hput : bankPutPtr (some b) x = (ret, some b')) :
      BankCalls b₀ L₀ (⟨b, L, .put x ret⟩ :: steps) b' L

/-- How many calls of `add_pool` returned zero. -/
def poolsAdded (steps : List BankStep) : ℕ := steps.countP fun s => s.event = .added 0

/-- The bank has as many pools as it counts, none of them is `NULL`, and their blocks and its own
are what is to be given back. -/
structure Bank.Whole (b : Bank) (L : Ledger) : Prop where
  count : b.bank.length = b.allocdPools
  pools : none ∉ b.bank
  owns : L.Owns b.bases

namespace Bank.Whole

variable {b b' : Bank} {L L' : Ledger}

theorem same (h : b.Whole L) (hsame : b.SameStorage b') : b'.Whole L := by
  have hlength : b'.bank.length = b.bank.length := by
    have := congrArg List.length hsame.storage
    rwa [storage, storage, List.length_map, List.length_map] at this
  have hnone : none ∈ b'.bank ↔ none ∈ b.bank := by
    have (ps : List (Option Pool)) : none ∈ ps ↔ none ∈ storage ps := by simp [storage]
    rw [this, hsame.storage, ← this]
  have hbases : b'.bases = b.bases := by
    rw [Bank.bases, Bank.bases, Bank.arrayBases, Bank.arrayBases, poolBases, poolBases,
      hsame.storage, hsame.bankMem, hsame.addr]
  exact ⟨by rw [hlength, hsame.allocdPools, h.count], by rw [hnone]; exact h.pools,
    by rw [hbases]; exact h.owns⟩

theorem add (h : b.Whole L) {ret : ℤ}
    (hadd : addPool Ledger.malloc Ledger.free (some b) L = ((ret, some b'), L'))
    (hroom : ret = 0 → b.allocdPools + 1 < 2 ^ 16) : b'.Whole L' := by
  rcases addPool_cases hadd with ⟨rfl, rfl, -, howns⟩ | ⟨rfl, -, mem, P, rfl, hne, howns⟩
  · exact ⟨h.count, h.pools, howns _ h.owns⟩
  · have hbank : (b.grown mem P).bank = b.bank ++ [some P] := by
      rw [Bank.grown, ← h.count, List.take_length]
    have hlen : (b.grown mem P).allocdPools = b.allocdPools + 1 := Nat.mod_eq_of_lt (hroom rfl)
    have harray : (b.grown mem P).arrayBases = [mem] := if_neg hne
    refine ⟨?_, ?_, ?_⟩
    · rw [hbank, hlen, List.length_append, h.count, List.length_singleton]
    · rw [hbank]
      simpa using h.pools
    · have hfront : b.bases.Perm (b.arrayBases ++ (poolBases b.bank ++ [b.addr])) :=
        List.perm_append_comm_assoc _ _ _
      have hback : (P.bases ++ mem :: (poolBases b.bank ++ [b.addr])).Perm
          (b.grown mem P).bases := by
        rw [Bank.bases, hbank, harray, poolBases_append, List.append_assoc]
        simpa [Bank.grown, poolBases, storage] using
          List.perm_append_comm_assoc (P.bases ++ [mem]) (poolBases b.bank) [b.addr]
      exact (howns _ (h.owns.perm hfront)).perm hback

end Bank.Whole

namespace BankCalls

variable {b₀ b : Bank} {L₀ L : Ledger} {steps : List BankStep}

/-- **Any calls** count the pools they add, in 16 bits, and leave the limit alone. -/
theorem count (h : BankCalls b₀ L₀ steps b L) (h₀ : b₀.allocdPools < 2 ^ 16) :
    b.allocdPools = (b₀.allocdPools + poolsAdded steps) % 2 ^ 16 ∧ b.maxPools = b₀.maxPools := by
  induction h with
  | start => exact ⟨(Nat.mod_eq_of_lt h₀).symm, rfl⟩
  | @add steps b L ret b' L' _ hadd ih =>
    rcases addPool_cases hadd with ⟨rfl, rfl, -⟩ | ⟨rfl, -, mem, P, rfl, -⟩
    · exact ih
    · refine ⟨?_, ih.2⟩
      show (b.allocdPools + 1) % 2 ^ 16 = _
      rw [ih.1, poolsAdded, poolsAdded, List.countP_cons_of_pos (by simp), Nat.mod_add_mod,
        Nat.add_assoc]
  | get _ hget ih =>
    have hsame := bankGetPtr_sameStorage hget
    exact ⟨hsame.allocdPools.trans ih.1, hsame.maxPools.trans ih.2⟩
  | put x _ hput ih =>
    have hsame := bankPutPtr_sameStorage hput
    exact ⟨hsame.allocdPools.trans ih.1, hsame.maxPools.trans ih.2⟩

/-- **Any calls** keep a bank whole, as long as its count has not come round. -/
theorem whole (h : BankCalls b₀ L₀ steps b L) (h₀ : b₀.Whole L₀)
    (hroom : b₀.allocdPools + poolsAdded steps < 2 ^ 16) : b.Whole L := by
  induction h with
  | start => exact h₀
  | @add steps b L ret b' L' h hadd ih =>
    have hle : poolsAdded steps ≤ poolsAdded (⟨b, L, .added ret⟩ :: steps) :=
      (List.sublist_cons_self _ _).countP_le
    refine (ih (by omega)).add hadd fun hret => ?_
    rw [poolsAdded, List.countP_cons_of_pos (by simp [hret])] at hroom
    rw [(h.count (by omega)).1]
    exact Nat.lt_of_le_of_lt (Nat.add_le_add_right (Nat.mod_le _ _) 1) hroom
  | get _ hget ih => exact (ih hroom).same (bankGetPtr_sameStorage hget)
  | put x _ hput ih => exact (ih hroom).same (bankPutPtr_sameStorage hput)

end BankCalls

end Milu
