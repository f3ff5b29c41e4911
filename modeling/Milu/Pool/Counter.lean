import Milu.Pool.Fifo

/-!
# The counter of free entries

`_n_q` is there to say how many entries are on `pool_q`. Every get that takes one and every put that
brings one back keeps it in step, modulo `2 ^ 16`. `create_pool` however starts it at the size of an
object instead of the number of objects, and from then on it is off by the difference of the two.

## Main definitions

* `CounterExact` — the counter says how many entries are on each queue

## Main results

* `PoolRun.counter` — how far it is off, after any calls
* `counter_exact_iff` — it is exact when the two sizes are the same modulo `2 ^ 16`, and never
  otherwise
* `counter_off` — a pool of two objects of 16 bytes
-/

namespace Milu

/-- The counter is the number of entries on `pool_q`, what it leaves of the objects is the number on
`avail_q`, and the next get or put that changes it does not wrap it around. -/
structure CounterExact (P : Pool) : Prop where
  free : P.nQ = P.poolQ.length
  out : (P.nobjs : ℤ) - P.nQ = P.availQ.length
  get : P.poolQ ≠ [] → 1 ≤ P.nQ
  put : P.availQ ≠ [] → P.nQ + 1 < 2 ^ 16

@[simp] theorem Pool.taken_nQ (P : Pool) (lh : ℕ) (q : List ℕ) :
    (P.taken lh q).nQ = (P.nQ + 2 ^ 16 - 1) % 2 ^ 16 := by rw [Pool.taken]

@[simp] theorem Pool.returned_nQ (P : Pool) (lh : ℕ) (q : List ℕ) (x : ℕ) :
    (P.returned lh q x).nQ = (P.nQ + 1) % 2 ^ 16 := by rw [Pool.returned]

/-- **How far the counter is off**: as far as it was at first. -/
theorem PoolRun.counter {P₀ P : Pool} {es : List PoolEvent} (hrun : PoolRun P₀ es P)
    (hlt : P₀.nQ < 2 ^ 16) :
    P.nQ < 2 ^ 16 ∧ (P.nQ + P₀.poolQ.length) % 2 ^ 16 = (P₀.nQ + P.poolQ.length) % 2 ^ 16 := by
  induction hrun with
  | start => exact ⟨hlt, rfl⟩
  | @get es P x P' _ hget ih =>
    rcases poolGetPtr_inversion hget with ⟨-, rfl, rfl⟩ | ⟨lh, q, hq, rfl, rfl⟩
    · exact ih
    · rw [hq, List.length_cons] at ih
      rw [Pool.taken_nQ, Pool.taken_poolQ]
      omega
  | @put es P x ret P' _ hput ih =>
    rcases poolPutPtr_inversion hput with ⟨rfl, rfl⟩ | ⟨lh, q, -, hq, rfl, rfl⟩
    · exact ih
    · rw [Pool.returned_nQ, Pool.returned_poolQ, List.length_append, List.length_singleton]
      omega

/-- **The counter is exact** in every state that calls on a new pool lead to, when the size of an
object is the number of objects modulo `2 ^ 16`. In any other pool it is exact in none. -/
theorem counter_exact_iff {pSz oSz : ℕ} (hp : pSz < 2 ^ 16) (ho : oSz < 2 ^ 64) {H H' : Heap}
    {P₀ : Pool} (h : createPool Heap.malloc Heap.free pSz oSz H = some (some P₀, H'))
    {es : List PoolEvent} {P : Pool} (hrun : PoolRun P₀ es P) :
    CounterExact P ↔ oSz % 2 ^ 16 = pSz := by
  have hcases := createPool_cases h
  rw [Nat.mod_eq_of_lt hp, Nat.mod_eq_of_lt ho] at hcases
  rcases hcases with ⟨hnone, -⟩ | ⟨addr, mem, entries, hfresh, ⟨-, hend, -⟩, -⟩
  · simp at hnone
  · rw [Option.some.injEq] at hfresh
    have hmem : mem < 2 ^ 64 := Nat.lt_of_le_of_lt (Nat.le_add_right _ _) hend
    have heq := Pool.fresh_eq addr pSz oSz entries hmem
    have hnQ : P₀.nQ = oSz % 2 ^ 16 := by rw [hfresh, heq]
    have hlen : P₀.poolQ.length = pSz := by rw [hfresh, heq, List.length_range]
    have hn : P₀.nobjs = pSz := by rw [hfresh, heq]
    have hlinked := hrun.linked (hfresh ▸ linked_fresh addr pSz oSz entries hmem)
    have hnodes := hlinked.nodes.length_eq
    rw [List.length_append, List.length_range, hn] at hnodes
    obtain ⟨hlt, hoff⟩ := hrun.counter (hnQ ▸ Nat.mod_lt _ (by decide))
    rw [hnQ, hlen] at hoff
    constructor
    · intro hexact
      rw [hexact.free] at hoff
      omega
    · intro hsame
      have hfree : P.nQ = P.poolQ.length := by omega
      refine ⟨hfree, ?_, fun hq => ?_, fun hq => ?_⟩
      · rw [hlinked.nobjs, hn, hfree]
        omega
      · have := List.length_pos_of_ne_nil hq
        omega
      · have := List.length_pos_of_ne_nil hq
        omega

/-- Sixteen objects of 16 bytes: two are handed out, one is given back, and an address that is none
of theirs is refused. -/
theorem counter_exact_iff_page : ∃ P₀ P H', createPool Heap.malloc Heap.free 16 16 pageHeap =
      some (some P₀, H') ∧
    PoolRun P₀ [.get 8192, .get 8208, .put 8192 0, .put 4096 (-1)] P ∧ CounterExact P := by
  have hcreate : createPool Heap.malloc Heap.free 16 16 pageHeap =
      some (some (Pool.fresh 4096 16 16 8192 12288), _) := rfl
  have hnew := @PoolRun.start (Pool.fresh 4096 16 16 8192 12288)
  have hout := (hnew.get (x := 8192) rfl).get (x := 8208) rfl
  have hback := (hout.put (x := 8192) rfl).put (x := 4096) rfl
  exact ⟨_, _, _, hcreate, hback,
    (counter_exact_iff (by decide) (by decide) hcreate hback).mpr (by decide)⟩

/-- **Two objects of 16 bytes**: the counter starts at 16. -/
theorem counter_off : ∃ P H',
    createPool Heap.malloc Heap.free 2 16 pageHeap = some (some P, H') ∧ ¬ CounterExact P := by
  refine ⟨_, _, rfl, fun hexact => ?_⟩
  exact absurd hexact.free (by decide)

end Milu
