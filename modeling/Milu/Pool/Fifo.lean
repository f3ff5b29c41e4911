import Milu.Lib.Fifo
import Milu.Pool.Slots

/-!
# A pool is a queue of addresses

The nodes of a pool wander between its two queues, and a put writes its address into whichever node
comes first. Nodes and addresses are soon out of step, but nothing of this shows: the addresses on
`pool_q`, front to back, are a queue from which each get takes the first and behind which each
accepted put adds its own.

One address spoils it. A get returns `NULL` to say that the pool is used up, and where the addresses
of the slots wrap around the end of the address space, one of them may be `NULL`.

## Main definitions

* `PoolEvent`, `PoolRun` — calls of `pool_get_ptr` and `pool_put_ptr`, with any pointers
* `got`, `accepted` — the addresses handed out and taken back, in order
* `IsFifo` — what the calls look like from outside

## Main results

* `PoolRun.linked` — every node is on one queue, once
* `PoolRun.fifo` — the available addresses go through a run of a queue
* `pool_fifo_iff` — a pool is a queue of addresses exactly when no slot is at `NULL`
* `pool_fifo_null` — a pool whose second slot is at `NULL`
-/

namespace Milu

/-! ### Runs -/

/-- A call on a pool: a get that returned `x`, or a put of `x` that returned `ret`. -/
inductive PoolEvent
  | get (x : ℕ)
  | put (x : ℕ) (ret : ℤ)

/-- The pool that calls lead to from `P₀`, first call first. Any pointer may be put. -/
inductive PoolRun (P₀ : Pool) : List PoolEvent → Pool → Prop
  | start : PoolRun P₀ [] P₀
  | get {es P x P'} : PoolRun P₀ es P → poolGetPtr (some P) = (x, some P') →
      PoolRun P₀ (es ++ [.get x]) P'
  | put {es P x ret P'} : PoolRun P₀ es P → poolPutPtr (some P) x = (ret, some P') →
      PoolRun P₀ (es ++ [.put x ret]) P'

/-- The addresses that gets returned, in order; `NULL` is no address. -/
def got : List PoolEvent → List ℕ
  | [] => []
  | .get x :: es => if x = 0 then got es else x :: got es
  | .put _ _ :: es => got es

/-- The addresses that puts accepted, in order. -/
def accepted : List PoolEvent → List ℕ
  | [] => []
  | .get _ :: es => accepted es
  | .put x ret :: es => if ret = 0 then x :: accepted es else accepted es

@[simp] theorem got_append (es fs : List PoolEvent) : got (es ++ fs) = got es ++ got fs := by
  induction es with
  | nil => rfl
  | cons e es ih =>
    cases e with
    | get x =>
      rw [List.cons_append, got, got, ih]
      split_ifs <;> rfl
    | put x ret => exact ih

@[simp] theorem accepted_append (es fs : List PoolEvent) :
    accepted (es ++ fs) = accepted es ++ accepted fs := by
  induction es with
  | nil => rfl
  | cons e es ih =>
    cases e with
    | get x => exact ih
    | put x ret =>
      rw [List.cons_append, accepted, accepted, ih]
      split_ifs <;> rfl

/-- What a pool has in common with the pool it was at first: its bounds, and all its nodes, each on
one of the two queues, once. -/
structure Linked (P₀ P : Pool) : Prop where
  nobjs : P.nobjs = P₀.nobjs
  startAddr : P.startAddr = P₀.startAddr
  endAddr : P.endAddr = P₀.endAddr
  nodes : (P.poolQ ++ P.availQ).Perm (List.range P₀.nobjs)

namespace Linked

variable {P₀ P : Pool} {lh x : ℕ} {q : List ℕ}

theorem nodup (h : Linked P₀ P) : (P.poolQ ++ P.availQ).Nodup :=
    h.nodes.nodup_iff.mpr List.nodup_range

theorem taken (h : Linked P₀ P) (hq : P.poolQ = lh :: q) : Linked P₀ (P.taken lh q) where
  nobjs := by rw [Pool.taken_nobjs, h.nobjs]
  startAddr := by rw [Pool.taken_startAddr, h.startAddr]
  endAddr := by rw [Pool.taken_endAddr, h.endAddr]
  nodes := (Pool.taken_nodes hq).trans h.nodes

theorem returned (h : Linked P₀ P) (hq : P.availQ = lh :: q) : Linked P₀ (P.returned lh q x) where
  nobjs := by rw [Pool.returned_nobjs, h.nobjs]
  startAddr := by rw [Pool.returned_startAddr, h.startAddr]
  endAddr := by rw [Pool.returned_endAddr, h.endAddr]
  nodes := (Pool.returned_nodes hq).trans h.nodes

end Linked

namespace PoolRun

variable {P₀ P P' : Pool} {es : List PoolEvent} {x : ℕ} {ret : ℤ}

/-- **Every node is on one queue**, once, after any calls. -/
theorem linked (hrun : PoolRun P₀ es P) (h₀ : Linked P₀ P₀) : Linked P₀ P := by
  induction hrun with
  | start => exact h₀
  | @get es P x P' _ hget ih =>
    rcases poolGetPtr_inversion hget with ⟨-, rfl, rfl⟩ | ⟨lh, q, hq, rfl, rfl⟩
    · exact ih
    · exact ih.taken hq
  | @put es P x ret P' _ hput ih =>
    rcases poolPutPtr_inversion hput with ⟨rfl, rfl⟩ | ⟨lh, q, -, hq, rfl, rfl⟩
    · exact ih
    · exact ih.returned hq

/-! ### The queue of addresses -/

/-- **The available addresses go through a run of a queue**, as long as `NULL` is not among them. -/
theorem fifo (hrun : PoolRun P₀ es P) (h₀ : Linked P₀ P₀) (hstart : P₀.startAddr ≠ 0)
    (hnull : 0 ∉ P₀.available) : 0 ∉ P.available ∧
      ∃ fs, Fifo.Run P₀.available fs P.available ∧ Fifo.taken fs = got es ∧
        Fifo.added fs = accepted es := by
  induction hrun with
  | start => exact ⟨hnull, [], .start, rfl, rfl⟩
  | @get es P x P' hprev hget ih =>
    obtain ⟨hne, fs, hfifo, htaken, hadded⟩ := ih
    rcases poolGetPtr_inversion hget with ⟨-, rfl, rfl⟩ | ⟨lh, q, hq, rfl, rfl⟩
    · exact ⟨hne, fs, hfifo, by simp [htaken, got], by simp [hadded, accepted]⟩
    · rw [Pool.available_taken hq, List.mem_cons, not_or] at hne
      rw [Pool.available_taken hq] at hfifo
      have hptr : P.ptr lh ≠ 0 := Ne.symm hne.1
      exact ⟨hne.2, _, hfifo.take, by simp [htaken, got, hptr, Fifo.taken],
        by simp [hadded, accepted, Fifo.added]⟩
  | @put es P x ret P' hprev hput ih =>
    obtain ⟨hne, fs, hfifo, htaken, hadded⟩ := ih
    rcases poolPutPtr_inversion hput with ⟨rfl, rfl⟩ | ⟨lh, q, hlo, hq, rfl, rfl⟩
    · exact ⟨hne, fs, hfifo, by simp [htaken, got], by simp [hadded, accepted]⟩
    · have hlinked := hprev.linked h₀
      have hx : x ≠ 0 := by
        rw [hlinked.startAddr] at hlo
        omega
      rw [Pool.available_returned hq hlinked.nodup]
      refine ⟨?_, _, hfifo.add, by simp [htaken, got, Fifo.taken],
        by simp [hadded, accepted, Fifo.added]⟩
      rw [List.mem_append, List.mem_singleton, not_or]
      exact ⟨hne, Ne.symm hx⟩

theorem gets : ∀ {k : ℕ}, k ≤ P₀.available.length → 0 ∉ P₀.available.take k →
    ∃ P, PoolRun P₀ ((P₀.available.take k).map .get) P ∧ P.available = P₀.available.drop k
  | 0, _, _ => ⟨P₀, .start, rfl⟩
  | k + 1, hk, hnull => by
    have htake := List.take_succ_eq_append_getElem (l := P₀.available) hk
    rw [htake, List.mem_append, not_or] at hnull
    obtain ⟨P, hrun, havail⟩ := gets (Nat.le_of_succ_le hk) hnull.1
    rw [List.drop_eq_getElem_cons hk] at havail
    rcases poolGetPtr_cases P with ⟨hnil, -⟩ | ⟨lh, q, hq, hget⟩
    · rw [Pool.available, hnil, List.map_nil] at havail
      exact absurd havail (List.cons_ne_nil _ _).symm
    · rw [Pool.available_taken hq, List.cons.injEq] at havail
      refine ⟨P.taken lh q, ?_, havail.2⟩
      rw [htake, List.map_append, List.map_singleton, ← havail.1]
      exact hrun.get hget

end PoolRun

/-! ### A new pool -/

/-- The addresses of `n` slots of `oSz` bytes from `start` on, in the arithmetic of a `char *`. -/
def slotAddrs (start oSz n : ℕ) : List ℕ := (List.range n).map fun i => (start + i * oSz) % 2 ^ 64

theorem Pool.available_fresh (addr pSz oSz entries : ℕ) {mem : ℕ} (hmem : mem < 2 ^ 64) :
    (Pool.fresh addr pSz oSz mem entries).available = slotAddrs mem oSz pSz := by
  rw [Pool.available, Pool.fresh_eq addr pSz oSz entries hmem]
  refine List.map_congr_left fun i hi => ?_
  dsimp only
  rw [if_pos (List.mem_range.mp hi)]

theorem linked_fresh (addr pSz oSz entries : ℕ) {mem : ℕ} (hmem : mem < 2 ^ 64) :
    Linked (Pool.fresh addr pSz oSz mem entries) (Pool.fresh addr pSz oSz mem entries) := by
  refine ⟨rfl, rfl, rfl, ?_⟩
  rw [Pool.fresh_eq addr pSz oSz entries hmem]
  simp

/-- What the pool `P₀` of `n` slots of `oSz` bytes looks like from outside, whatever the calls: the
gets return the addresses of the slots and then those that were put back, in order; a get returns
`NULL` when these are used up, and only then; and the nodes stay what they are. -/
structure IsFifo (P₀ : Pool) (n oSz : ℕ) : Prop where
  order : ∀ es P, PoolRun P₀ es P → got es <+: slotAddrs P₀.startAddr oSz n ++ accepted es
  used_up : ∀ es P, PoolRun P₀ es P →
    ((poolGetPtr (some P)).1 = 0 ↔ got es = slotAddrs P₀.startAddr oSz n ++ accepted es)
  nodes : ∀ es P, PoolRun P₀ es P → (P.poolQ ++ P.availQ).Perm (List.range n)

theorem isFifo_of_no_null {P₀ : Pool} {n oSz : ℕ} (h₀ : Linked P₀ P₀) (hn : P₀.nobjs = n)
    (hstart : P₀.startAddr ≠ 0) (havail : P₀.available = slotAddrs P₀.startAddr oSz n)
    (hnull : 0 ∉ P₀.available) : IsFifo P₀ n oSz := by
  refine ⟨fun es P hrun => ?_, fun es P hrun => ?_, fun es P hrun => ?_⟩
  · obtain ⟨-, fs, hfifo, htaken, hadded⟩ := hrun.fifo h₀ hstart hnull
    rw [← havail, ← htaken, ← hadded]
    exact hfifo.taken_prefix
  · obtain ⟨hne, fs, hfifo, htaken, hadded⟩ := hrun.fifo h₀ hstart hnull
    rw [← havail, ← htaken, ← hadded, ← hfifo.eq_nil_iff]
    rcases poolGetPtr_cases P with ⟨hq, hget⟩ | ⟨lh, q, hq, hget⟩ <;> rw [hget]
    · exact iff_of_true rfl (by rw [Pool.available, hq, List.map_nil])
    · rw [Pool.available_taken hq] at hne ⊢
      exact iff_of_false (Ne.symm (List.ne_of_not_mem_cons hne)) (List.cons_ne_nil _ _)
  · rw [← hn]
    exact (hrun.linked h₀).nodes

theorem not_isFifo_of_null {P₀ : Pool} {n oSz i : ℕ}
    (havail : P₀.available = slotAddrs P₀.startAddr oSz n) (hi : i < n)
    (hnull : (P₀.startAddr + i * oSz) % 2 ^ 64 = 0) : ¬ IsFifo P₀ n oSz := by
  intro hfifo
  have hlen : P₀.available.length = n := by
    rw [havail, slotAddrs, List.length_map, List.length_range]
  have hslot : ∀ {k : ℕ} (hk : k < P₀.available.length),
      P₀.available[k] = (P₀.startAddr + k * oSz) % 2 ^ 64 := by
    intro k hk
    simp only [havail, slotAddrs, List.getElem_map, List.getElem_range]
  -- the first slot at `NULL`: the gets before it return the slots before it
  have hex : ∃ k, k < n ∧ (P₀.startAddr + k * oSz) % 2 ^ 64 = 0 := ⟨i, hi, hnull⟩
  obtain ⟨hk, hzero⟩ := Nat.find_spec hex
  have hbefore := fun j => @Nat.find_min _ _ hex j
  generalize Nat.find hex = k at hk hzero hbefore
  have hfirst : 0 ∉ P₀.available.take k := by
    intro hmem
    obtain ⟨j, hj, hslotj⟩ := List.mem_iff_getElem.mp hmem
    rw [List.length_take] at hj
    rw [List.getElem_take, hslot (by omega)] at hslotj
    exact hbefore j (by omega) ⟨by omega, hslotj⟩
  obtain ⟨P, hrun, hrest⟩ := PoolRun.gets (by omega : k ≤ P₀.available.length) hfirst
  rw [List.drop_eq_getElem_cons (by omega), hslot (by omega), hzero] at hrest
  have hnone : (poolGetPtr (some P)).1 = 0 := by
    rcases poolGetPtr_cases P with ⟨-, hget⟩ | ⟨lh, q, hq, hget⟩ <;> rw [hget]
    rw [Pool.available_taken hq, List.cons.injEq] at hrest
    exact hrest.1
  have hgot := (hfifo.used_up _ P hrun).mp hnone
  have htaken : ∀ xs : List ℕ, 0 ∉ xs → got (xs.map .get) = xs := by
    intro xs hxs
    induction xs with
    | nil => rfl
    | cons x xs ih =>
      rw [List.mem_cons, not_or] at hxs
      rw [List.map_cons, got, if_neg (Ne.symm hxs.1), ih hxs.2]
  have hadded : ∀ xs : List ℕ, accepted (xs.map .get) = [] := by
    intro xs
    induction xs with
    | nil => rfl
    | cons x xs ih => exact ih
  rw [htaken _ hfirst, hadded, List.append_nil, ← havail] at hgot
  have hshort := congrArg List.length hgot
  rw [List.length_take] at hshort
  omega

/-- **A pool is a queue of addresses** exactly when none of its slots is at `NULL`. -/
theorem pool_fifo_iff {pSz oSz : ℕ} (hp : pSz < 2 ^ 16) (ho : oSz < 2 ^ 64)
    {H H' : Heap} {P₀ : Pool}
    (h : createPool Heap.malloc Heap.free pSz oSz H = some (some P₀, H')) :
    IsFifo P₀ pSz oSz ↔ ∀ i < pSz, (P₀.startAddr + i * oSz) % 2 ^ 64 ≠ 0 := by
  have hcases := createPool_cases h
  rw [Nat.mod_eq_of_lt hp, Nat.mod_eq_of_lt ho] at hcases
  rcases hcases with ⟨hnone, -⟩ | ⟨addr, mem, entries, hfresh, ⟨hne, hend, -⟩, -⟩
  · simp at hnone
  · rw [Option.some.injEq] at hfresh
    have hmem : mem < 2 ^ 64 := Nat.lt_of_le_of_lt (Nat.le_add_right _ _) hend
    have heq := Pool.fresh_eq addr pSz oSz entries hmem
    have hstart : P₀.startAddr = mem := by rw [hfresh, heq]
    have hn : P₀.nobjs = pSz := by rw [hfresh, heq]
    have havail : P₀.available = slotAddrs P₀.startAddr oSz pSz := by
      rw [hstart, hfresh, Pool.available_fresh addr pSz oSz entries hmem]
    constructor
    · intro hfifo i hi hnull
      exact not_isFifo_of_null havail hi hnull hfifo
    · intro hslots
      refine isFifo_of_no_null (hfresh ▸ linked_fresh addr pSz oSz entries hmem) hn (hstart ▸ hne)
        havail fun hzero => ?_
      rw [havail] at hzero
      obtain ⟨i, hi, hslot⟩ := List.mem_map.mp hzero
      exact hslots i (List.mem_range.mp hi) hslot

theorem pool_fifo_iff_page : ∃ P H',
    createPool Heap.malloc Heap.free 2 16 pageHeap = some (some P, H') ∧ IsFifo P 2 16 := by
  refine ⟨_, _, rfl, ?_⟩
  exact (@pool_fifo_iff 2 16 (by decide) (by decide) pageHeap _ _ rfl).mpr (by decide)

/-- A heap whose allocator answers requests with the pages around the middle of the address
space. -/
def middleHeap : Heap := { pageHeap with reply k := some (2 ^ 63 - 4096 + 4096 * k) }

/-- **A slot at `NULL`.** Two slots that are half the address space apart, the first in the middle
of it: the second get returns `NULL`, with a slot left to hand out. -/
theorem pool_fifo_null : ∃ P H',
    createPool Heap.malloc Heap.free 2 (2 ^ 63) middleHeap = some (some P, H') ∧
      ¬ IsFifo P 2 (2 ^ 63) := by
  have hmem : 2 ^ 63 < 2 ^ 64 := by decide
  have havail := Pool.available_fresh (2 ^ 63 - 4096) 2 (2 ^ 63) (2 ^ 63 + 4096) hmem
  have hstart : (Pool.fresh (2 ^ 63 - 4096) 2 (2 ^ 63) (2 ^ 63) (2 ^ 63 + 4096)).startAddr =
    2 ^ 63 := by
    rw [Pool.fresh_eq _ _ _ _ hmem]
  refine ⟨Pool.fresh (2 ^ 63 - 4096) 2 (2 ^ 63) (2 ^ 63) (2 ^ 63 + 4096), _, rfl, ?_⟩
  refine @not_isFifo_of_null _ 2 (2 ^ 63) 1 (by rw [hstart]; exact havail) (by decide) ?_
  rw [hstart]
  decide

end Milu
