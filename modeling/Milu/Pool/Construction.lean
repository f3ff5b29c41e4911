import Milu.Pool.Storage

/-!
# Whether a bank is made all or nothing

`create_bank` asks for the struct, for the array and for three blocks for each pool, and any of
these may be refused. Without the struct or the array it gives back what it has and returns `NULL`.
For a pool it tries to do the same, in a loop over the pools made before. That loop releases the
wrong pointers and leaves after its first round, and for the first pool it has no round: then the
bank is returned with `NULL` for a pool.

## Main definitions

* `bankRequests` — what a bank asks for before its pools
* `AllOrNothing` — what `create_bank` owes its caller

## Main results

* `createBank_ledger`, `createBankLoop_ledger` — what `create_bank` keeps, whatever is refused
* `all_or_nothing_iff` — it keeps its word exactly when no pool is refused anything
* `all_or_nothing_broken` — a bank with no pool
-/

namespace Milu

/-- The sizes that `create_bank` asks for before it makes the first of `n` pools. -/
def bankRequests (n : ℕ) : List ℕ := sizeofBank :: if n = 0 then [] else [n * sizeofPoolPtr]

/-- The sizes that `n` pools ask for. -/
def poolsRequests (n pSz oSz : ℕ) : List ℕ := (List.replicate n (poolRequests pSz oSz)).flatten

theorem poolsRequests_succ (n pSz oSz : ℕ) :
    poolsRequests (n + 1) pSz oSz = poolRequests pSz oSz ++ poolsRequests n pSz oSz := by
  rw [poolsRequests, List.replicate_succ, List.flatten_cons, ← poolsRequests]

/-- The bank with more pools, as `create_bank` adds them. -/
def Bank.extended (b : Bank) (ps : List (Option Pool)) : Bank :=
  { b with
    bank := b.bank ++ ps
    allocdPools := (b.allocdPools + ps.length) % 2 ^ 16 }

theorem Bank.extended_extended (b : Bank) (ps qs : List (Option Pool)) :
    (b.extended ps).extended qs = b.extended (ps ++ qs) := by
  simp only [Bank.extended, List.append_assoc, List.length_append, Nat.mod_add_mod, Nat.add_assoc]

theorem Bank.extended_nil {b : Bank} (h : b.allocdPools < 2 ^ 16) : b.extended [] = b := by
  rw [Bank.extended, List.append_nil, List.length_nil, Nat.add_zero, Nat.mod_eq_of_lt h]

theorem Bank.bases_extended (b : Bank) (p : Option Pool) :
    (p.elim [] Pool.bases ++ b.bases).Perm (b.extended [p]).bases := by
  have hbases : (b.extended [p]).bases =
      poolBases b.bank ++ (p.elim [] Pool.bases ++ (b.arrayBases ++ [b.addr])) := by
    show poolBases (b.bank ++ [p]) ++ (b.arrayBases ++ [b.addr]) = _
    rw [poolBases_append, List.append_assoc]
    cases p <;> simp [poolBases, storage]
  rw [hbases]
  exact List.perm_append_comm_assoc _ _ _

theorem createPool_extended (pSz oSz : ℕ) (b : Bank) (L : Ledger) :
    ∃ p L', createPool Ledger.malloc Ledger.free pSz oSz L = (p, L') ∧
      (L.Owns b.bases → L'.Owns (b.extended [p]).bases) ∧
      ((p = none ∧ ¬ L.heap.Grants (poolRequests pSz oSz) ∧ L.heap.refused < L'.heap.refused) ∨
        (p ≠ none ∧ L.heap.Grants (poolRequests pSz oSz) ∧
          L'.heap = L.heap.afterMallocs (poolRequests pSz oSz))) := by
  rcases createPool_ledger pSz oSz L with
    ⟨L', hcall, hno, hcount, howns⟩ | ⟨P, L', hcall, hyes, hheap, howns⟩
  · exact ⟨none, L', hcall, fun h => (howns _ h).perm (b.bases_extended none),
      .inl ⟨rfl, hno, hcount⟩⟩
  · exact ⟨some P, L', hcall, fun h => (howns _ h).perm (b.bases_extended (some P)),
      .inr ⟨Option.some_ne_none P, hyes, hheap⟩⟩

/-- **The loop of `create_bank`** ends with the bank gone and its array left behind, or with a bank
that has all its pools unless something was refused. -/
theorem createBankLoop_ledger (pSz oSz : ℕ) : ∀ (k : ℕ) (b : Bank) (L : Ledger),
    b.allocdPools < 2 ^ 16 →
    (∃ L', createBankLoop Ledger.malloc Ledger.free pSz oSz k b L = (none, L') ∧
        ¬ L.heap.Grants (poolsRequests k pSz oSz) ∧
        (b.bankMem ≠ 0 → L.Owns b.bases → ¬ L'.Balanced)) ∨
      ∃ ps L', createBankLoop Ledger.malloc Ledger.free pSz oSz k b L = (some (b.extended ps), L') ∧
        ps.length = k ∧ (L.Owns b.bases → L'.Owns (b.extended ps).bases) ∧
        ((¬ L.heap.Grants (poolsRequests k pSz oSz) ∧ L.heap.refused < L'.heap.refused) ∨
          (L.heap.Grants (poolsRequests k pSz oSz) ∧ none ∉ ps ∧
            L'.heap.refused = L.heap.refused))
  | 0, b, L, hb => by
    refine .inr ⟨[], L, ?_, rfl, ?_, .inr ⟨trivial, List.not_mem_nil, rfl⟩⟩ <;>
      rw [Bank.extended_nil hb]
    · rfl
    · exact fun h => h
  | k + 1, b, L, hb => by
    obtain ⟨p, L₁, hcall, howns, hp⟩ := createPool_extended pSz oSz b L
    rw [createBankLoop, Ledger.bind_apply hcall, poolsRequests_succ, Heap.grants_append]
    by_cases hexit : p.isNone ∧ 0 < b.bank.length
    · -- the clean-up, which leaves the array and the pools before
      rw [if_pos hexit]
      rcases hp with ⟨rfl, hno, -⟩ | ⟨hsome, -⟩
      · refine .inl ⟨_, rfl, fun h => hno h.1, fun hmem h => ?_⟩
        have hbases : (b.extended [none]).bases.Perm
            (b.addr :: (poolBases (b.bank ++ [none]) ++ [b.bankMem])) := by
          have harray : (b.extended [none]).arrayBases = [b.bankMem] := if_neg hmem
          rw [Bank.bases, harray, ← List.append_assoc]
          exact List.perm_append_singleton _ _
        exact ((howns h).free_null.perm hbases).free.not_balanced (by simp)
      · exact absurd (Option.isNone_iff_eq_none.mp hexit.1) hsome
    · rw [if_neg hexit]
      have hlt : (b.extended [p]).allocdPools < 2 ^ 16 := Nat.mod_lt _ (by decide)
      rcases createBankLoop_ledger pSz oSz k (b.extended [p]) L₁ hlt with
        ⟨L', hloop, hno, hleft⟩ | ⟨ps, L', hloop, hlen, hkeep, hend⟩
      · refine .inl ⟨L', hloop, fun h => ?_, fun hmem h => hleft hmem (howns h)⟩
        rcases hp with ⟨-, hrefused, -⟩ | ⟨-, -, hheap⟩
        · exact hrefused h.1
        · exact hno (hheap ▸ h.2)
      · rw [Bank.extended_extended] at hloop hkeep
        refine .inr ⟨p :: ps, L', hloop, by rw [List.length_cons, hlen],
          fun h => hkeep (howns h), ?_⟩
        rcases hp with ⟨-, hrefused, hcount⟩ | ⟨hsome, hyes, hheap⟩
        · -- the first pool is `NULL`, and the loop went on
          refine .inl ⟨fun h => hrefused h.1, ?_⟩
          rcases hend with ⟨-, hcount'⟩ | ⟨-, -, hcount'⟩ <;> omega
        · have hsame : L₁.heap.refused = L.heap.refused := by
            rw [hheap, Heap.refused_afterMallocs hyes]
          rw [← hheap, ← hsame]
          rcases hend with ⟨hno, hcount'⟩ | ⟨hall, hnone, hcount'⟩
          · exact .inl ⟨fun h => hno h.2, hcount'⟩
          · refine .inr ⟨⟨hyes, hall⟩, fun hmem => ?_, hcount'⟩
            rcases List.mem_cons.mp hmem with h | h
            · exact hsome h.symm
            · exact hnone h

/-- The bank before its first pool. -/
def Bank.bare (addr maxPools poolsize objsize bankMem : ℕ) : Bank :=
  ⟨addr, maxPools, 0, poolsize % 2 ^ 16, objsize % 2 ^ 64, bankMem, []⟩

/-- **Making a bank** keeps nothing when the struct or the array is refused, and else goes on to its
loop with these two blocks. -/
theorem createBank_ledger (nPools : ℕ) (growing : Bool) (poolsize objsize : ℕ) (L : Ledger) :
    (∃ L', createBank Ledger.malloc Ledger.free nPools growing poolsize objsize L = (none, L') ∧
        ¬ L.heap.Grants (bankRequests (nPools % 2 ^ 16)) ∧ L.heap.refused < L'.heap.refused ∧
        ∀ as, L.Owns as → L'.Owns as) ∨
      ∃ addr mem L₀,
        createBank Ledger.malloc Ledger.free nPools growing poolsize objsize L =
          createBankLoop Ledger.malloc Ledger.free poolsize objsize (nPools % 2 ^ 16)
            (Bank.bare addr (if growing then 0 else nPools % 2 ^ 16) poolsize objsize mem) L₀ ∧
        L.heap.Grants (bankRequests (nPools % 2 ^ 16)) ∧
        L₀.heap = L.heap.afterMallocs (bankRequests (nPools % 2 ^ 16)) ∧
        (nPools % 2 ^ 16 ≠ 0 → mem ≠ 0) ∧
        ∀ as, L.Owns as →
          L₀.Owns ((Bank.bare addr (if growing then 0 else nPools % 2 ^ 16) poolsize objsize
            mem).bases ++ as) := by
  rw [createBank, bankRequests, Ledger.malloc_bind, Heap.grants_cons]
  set n := nPools % 2 ^ 16
  rcases L.heap.answer_cases sizeofBank with ⟨hb, hcount⟩ | ⟨addr, hb, -, -, hcount⟩ <;> rw [hb]
  · exact .inl ⟨_, rfl, fun h => h.1 rfl, by rw [Ledger.heap_afterMalloc]; omega,
      fun as h => h.refused hb⟩
  set L₁ := L.afterMalloc sizeofBank
  dsimp only
  by_cases hn : n = 0
  · rw [if_neg (by omega), if_pos hn]
    refine .inr ⟨addr, 0, L₁, ?_, ⟨Option.some_ne_none addr, trivial⟩, rfl, absurd hn,
      fun as h => h.malloc hb⟩
    rw [hn]
    rfl
  rw [if_pos (Nat.pos_of_ne_zero hn), if_neg hn, Ledger.malloc_bind]
  rcases L₁.heap.answer_cases (n * sizeofPoolPtr) with ⟨hm, hcount₁⟩ | ⟨mem, hm, hfresh, -, -⟩ <;>
    rw [hm]
  · refine .inl ⟨_, rfl, fun h => h.2.1 hm, ?_, fun as h => ((h.malloc hb).refused hm).free⟩
    show L.heap.refused < ((L₁.heap.afterMalloc (n * sizeofPoolPtr)).afterFree addr).refused
    rw [Heap.refused_afterFree, hcount₁]
    exact Nat.lt_succ_of_le hcount.ge
  · refine .inr ⟨addr, mem, L₁.afterMalloc (n * sizeofPoolPtr), rfl,
      ⟨Option.some_ne_none addr, fun h => Option.some_ne_none mem (hm.symm.trans h), trivial⟩, rfl,
      fun _ => hfresh.1, fun as h => ?_⟩
    have harray : (Bank.bare addr (if growing then 0 else n) poolsize objsize mem).arrayBases =
        [mem] := if_neg hfresh.1
    rw [Bank.bases, harray]
    exact (h.malloc hb).malloc hm

/-- What `create_bank` owes its caller, when it was called with nothing to give back and the heap
`H` and returned `r` with the ledger `L`: it returns `NULL` when an allocation failed and only then,
and has given back everything; and a bank it returns has all its pools, and gives back everything
when it is released, whatever was done with it, as long as its count has not come round. -/
structure AllOrNothing (nPools : ℕ) (H : Heap) (r : Option Bank) (L : Ledger) : Prop where
  none_iff : r = none ↔ H.refused < L.heap.refused
  nothing : r = none → L.Balanced
  all : ∀ b, r = some b → b.bank.length = nPools % 2 ^ 16 ∧ none ∉ b.bank
  released : ∀ b, r = some b → ∀ steps b' L', BankCalls b L steps b' L' →
    nPools % 2 ^ 16 + poolsAdded steps < 2 ^ 16 →
    ∃ L'', destroyBank Ledger.free (some b') L' = (0, L'') ∧ L''.Balanced

/-- **A bank is made all or nothing** exactly when no pool is refused anything, once the struct and
the array are there. -/
theorem all_or_nothing_iff (nPools : ℕ) (growing : Bool) (poolsize objsize : ℕ) (H : Heap) :
    ∃ r L, createBank Ledger.malloc Ledger.free nPools growing poolsize objsize (Ledger.opened H) =
        (r, L) ∧
      (AllOrNothing nPools H r L ↔
        (H.Grants (bankRequests (nPools % 2 ^ 16)) →
          H.Grants (bankRequests (nPools % 2 ^ 16) ++
            poolsRequests (nPools % 2 ^ 16) poolsize objsize))) := by
  have hopened := Ledger.owns_opened H
  rcases createBank_ledger nPools growing poolsize objsize (Ledger.opened H) with
    ⟨L', hcall, hno, hcount, howns⟩ | ⟨addr, mem, L₀, hcall, hyes, hheap, hmem, howns⟩ <;>
    rw [hcall]
  · refine ⟨none, L', rfl, iff_of_true ?_ fun h => absurd h hno⟩
    exact ⟨iff_of_true rfl hcount, fun _ => Ledger.owns_nil_iff.mp (howns _ hopened),
      fun b hb => absurd hb.symm (Option.some_ne_none b),
      fun b hb => absurd hb.symm (Option.some_ne_none b)⟩
  set n := nPools % 2 ^ 16
  have hyes : H.Grants (bankRequests n) := hyes
  have hheap : L₀.heap = H.afterMallocs (bankRequests n) := hheap
  have hbare := howns _ hopened
  rw [List.append_nil] at hbare
  have hrefused : L₀.heap.refused = H.refused := by rw [hheap, Heap.refused_afterMallocs hyes]
  rw [Heap.grants_append, ← hheap]
  set b₀ := Bank.bare addr (if growing then 0 else n) poolsize objsize mem
  rcases createBankLoop_ledger poolsize objsize n b₀ L₀ (by decide : 0 < 2 ^ 16) with
    ⟨L', hloop, hno, hleft⟩ | ⟨ps, L', hloop, hlen, hkeep, hend⟩ <;> rw [hloop]
  · -- a later pool was refused something, and blocks were left behind
    have hn : n ≠ 0 := fun h0 => hno (by rw [h0]; exact trivial)
    exact ⟨none, L', rfl, iff_of_false
      (fun h => hleft (hmem hn) hbare (h.nothing rfl)) fun h => hno (h hyes).2⟩
  · refine ⟨_, L', rfl, ?_⟩
    rcases hend with ⟨hno, hcount⟩ | ⟨hall, hnone, hcount⟩
    · -- the first pool was refused something, and the bank is returned all the same
      refine iff_of_false (fun h => ?_) fun h => hno (h hyes).2
      exact Option.some_ne_none _ (h.none_iff.mpr (hrefused ▸ hcount))
    · have hwhole : (b₀.extended ps).Whole L' := by
        refine ⟨?_, hnone, hkeep hbare⟩
        show ps.length = (0 + ps.length) % 2 ^ 16
        rw [Nat.zero_add, hlen, Nat.mod_mod]
      refine iff_of_true ⟨iff_of_false (Option.some_ne_none _) (by omega),
        fun h => absurd h (Option.some_ne_none _), ?_, ?_⟩ fun _ => ⟨hyes, hall⟩
      · rintro _ ⟨⟩
        exact ⟨hlen, hnone⟩
      · rintro _ ⟨⟩ steps b' L'' hcalls hroom
        have hcount' : (b₀.extended ps).allocdPools = n := hwhole.count.symm.trans hlen
        have hwhole' := hcalls.whole hwhole (by rw [hcount']; exact hroom)
        have howned := hwhole'.owns
        rw [← List.append_nil b'.bases] at howned
        obtain ⟨L₃, hdestroy, hnil⟩ := destroyBank_ledger hwhole'.count hwhole'.pools howned
        exact ⟨L₃, hdestroy, Ledger.owns_nil_iff.mp hnil⟩

/-- The allocator answers two requests, for a bank of one pool and for its array, and no more. -/
def twoAnswersHeap : Heap :=
    { pageHeap with reply k := if k < 2 then some (4096 * (k + 1)) else none }

/-- **A bank with no pool**: the first pool is refused its struct, and `create_bank` returns. -/
theorem all_or_nothing_broken : ∃ r L,
    createBank Ledger.malloc Ledger.free 1 false 2 16 (Ledger.opened twoAnswersHeap) = (r, L) ∧
      ¬ AllOrNothing 1 twoAnswersHeap r L := by
  refine ⟨some ⟨4096, 1, 1, 2, 16, 8192, [none]⟩, _, rfl, fun h => ?_⟩
  have hnone := (h.all _ rfl).2
  exact hnone List.mem_cons_self

end Milu
