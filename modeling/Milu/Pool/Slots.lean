import Milu.Pool.Basic
import Milu.Lib.Lists
import Mathlib.Tactic.Ring

/-!
# The slots of one pool

A pool owns one block, cut into `_nobjs` slots of `_obj_sz` bytes. Nodes and addresses are shuffled
by every put, since a put writes its address into whichever node comes first; what stays is that the
two queues hold every node once, and that the addresses on `pool_q` and the addresses held by
clients are the slots, each once.

## Main definitions

* `Pool.slots`, `Pool.available`, `Pool.owns`
* `Pool.Ok` — the invariant of a pool whose clients hold the addresses `held`

## Main results

* `fillEntries_eq`, `createPool_cases`, `Pool.fresh_ok` — a new pool
* `poolGetPtr_cases`, `poolPutPtr_cases`, with their inversions — what a get and a put do
* `poolGetPtr_spec`, `poolPutPtr_spec` — a get hands out a slot or the pool is used up; a put of a
  held address is accepted
-/

namespace Milu

/-! ### Filling the entries -/

/-- What the loop of `create_pool` has done after `k` rounds. -/
theorem fillEntries_eq (oSz : ℕ) (p : Pool) {mem : ℕ} (hmem : mem < 2 ^ 64) : ∀ k,
    fillEntries oSz p mem k =
      ({ p with
        ptr := fun i => if i < k then (mem + i * oSz) % 2 ^ 64 else p.ptr i
        poolQ := p.poolQ ++ List.range k }, (mem + k * oSz) % 2 ^ 64)
  | 0 => by
    have hend : (mem + 0 * oSz) % 2 ^ 64 = mem := by
      rw [Nat.zero_mul, Nat.add_zero, Nat.mod_eq_of_lt hmem]
    rw [hend, fillEntries, List.range_zero, List.append_nil]
    rfl
  | k + 1 => by
    rw [fillEntries, fillEntries_eq oSz p hmem k]
    dsimp only
    have hptr : Function.update (fun i => if i < k then (mem + i * oSz) % 2 ^ 64 else p.ptr i) k
        ((mem + k * oSz) % 2 ^ 64) =
          fun i => if i < k + 1 then (mem + i * oSz) % 2 ^ 64 else p.ptr i := by
      funext i
      rcases Nat.lt_trichotomy i k with hi | rfl | hi
      · rw [Function.update_of_ne (by omega), if_pos hi, if_pos (by omega)]
      · rw [Function.update_self, if_pos (by omega)]
      · rw [Function.update_of_ne (by omega), if_neg (by omega), if_neg (by omega)]
    have hend : ((mem + k * oSz) % 2 ^ 64 + oSz) % 2 ^ 64 = (mem + (k + 1) * oSz) % 2 ^ 64 := by
      rw [Nat.mod_add_mod, Nat.succ_mul, Nat.add_assoc]
    rw [hptr, hend, putFifo, List.append_assoc, ← List.range_succ]

theorem Pool.fresh_eq (addr pSz oSz entries : ℕ) {mem : ℕ} (hmem : mem < 2 ^ 64) :
    Pool.fresh addr pSz oSz mem entries = {
      addr := addr
      nobjs := pSz
      nQ := oSz % 2 ^ 16
      objSz := oSz
      entries := entries
      ptr := fun i => if i < pSz then (mem + i * oSz) % 2 ^ 64 else 0
      poolMem := mem
      startAddr := mem
      endAddr := (mem + pSz * oSz) % 2 ^ 64
      poolQ := List.range pSz
      availQ := [] } := by
  rw [Pool.fresh]
  dsimp only
  rw [fillEntries_eq oSz _ hmem]
  rfl

/-! ### Making a pool -/

/-- **Making a pool**, for sizes of any kind: a request is refused and the live blocks stay live, or
the pool is the new one in the block it asked for. The block is as large as the product of the sizes
is modulo `2 ^ 64`. -/
theorem createPool_cases {pSz oSz : ℕ} {H H' : Heap} {r : Option Pool}
    (h : createPool Heap.malloc Heap.free pSz oSz H = some (r, H')) :
    (r = none ∧ H.refused < H'.refused ∧ H.live ⊆ H'.live) ∨
      ∃ addr mem entries,
        r = some (Pool.fresh addr (pSz % 2 ^ 16) (oSz % 2 ^ 64) mem entries) ∧
        H.Fresh ⟨mem, pSz % 2 ^ 16 * (oSz % 2 ^ 64) % 2 ^ 64⟩ ∧
        ⟨mem, pSz % 2 ^ 16 * (oSz % 2 ^ 64) % 2 ^ 64⟩ ∈ H'.live ∧ H.live ⊆ H'.live := by
  rw [createPool, Heap.malloc_bind] at h
  set size := pSz % 2 ^ 16 * (oSz % 2 ^ 64) % 2 ^ 64
  have hlive := Heap.live_subset_afterMalloc H sizeofPool
  rcases H.answer_cases sizeofPool with ⟨hpool, hcount⟩ | ⟨p, hpool, hfresh, -, hcount⟩ <;>
    rw [hpool] at h <;> dsimp only at h
  · obtain ⟨rfl, rfl⟩ := HeapM.pure_inj h
    exact .inl ⟨rfl, by omega, hlive⟩
  set H₁ := H.afterMalloc sizeofPool
  have hp_ne : ∀ l ∈ H.live, l.base ≠ p := fun l hl => (hfresh.2.2 l hl).base_ne.symm
  rw [Heap.malloc_bind] at h
  have hlive₁ := Heap.live_subset_afterMalloc H₁ size
  rcases H₁.answer_cases size with ⟨hmem, hcount₁⟩ | ⟨mem, hmem, hfresh₁, hin, hcount₁⟩ <;>
    rw [hmem] at h <;> dsimp only at h
  · rw [Heap.free_bind] at h
    obtain ⟨rfl, rfl⟩ := HeapM.pure_inj h
    refine .inl ⟨rfl, ?_, fun l hl => Heap.mem_live_afterFree (hlive₁ (hlive hl)) (hp_ne l hl)⟩
    rw [Heap.refused_afterFree]
    omega
  set H₂ := H₁.afterMalloc size
  have hmem_ne : ∀ l ∈ H.live, l.base ≠ mem :=
    fun l hl => (hfresh₁.2.2 l (hlive hl)).base_ne.symm
  rw [Heap.malloc_bind] at h
  have hlive₂ := Heap.live_subset_afterMalloc H₂ (pSz % 2 ^ 16 * sizeofPoolEntry)
  rcases H₂.answer_cases (pSz % 2 ^ 16 * sizeofPoolEntry) with
    ⟨he, hcount₂⟩ | ⟨e, he, -, -, hcount₂⟩ <;> rw [he] at h <;> dsimp only at h
  · rw [Heap.free_bind, Heap.free_bind] at h
    obtain ⟨rfl, rfl⟩ := HeapM.pure_inj h
    refine .inl ⟨rfl, ?_, fun l hl => Heap.mem_live_afterFree (Heap.mem_live_afterFree
      (hlive₂ (hlive₁ (hlive hl))) (hmem_ne l hl)) (hp_ne l hl)⟩
    rw [Heap.refused_afterFree, Heap.refused_afterFree]
    omega
  · obtain ⟨rfl, rfl⟩ := HeapM.pure_inj h
    refine .inr ⟨p, mem, e, rfl, ⟨hfresh₁.1, hfresh₁.2.1, fun l hl => hfresh₁.2.2 l (hlive hl)⟩,
      hlive₂ hin, fun l hl => hlive₂ (hlive₁ (hlive hl))⟩

/-- A heap whose allocator answers the `k`-th request with page `k + 1`. -/
def pageHeap : Heap where
  live := []
  apart := .nil
  reply k := some (4096 * (k + 1))
  asked := 0
  refused := 0
  freed := []

/-! ### Slots -/

namespace Pool

/-- The block a pool hands out slots of. -/
def block (P : Pool) : Block := ⟨P.poolMem, P.nobjs * P.objSz⟩

/-- The addresses of the slots. -/
def slots (P : Pool) : List ℕ := (List.range P.nobjs).map fun i => P.poolMem + i * P.objSz

/-- The addresses that can still be handed out, in the order in which they will be. -/
def available (P : Pool) : List ℕ := P.poolQ.map P.ptr

/-- Is the address inside the block of the pool? -/
def owns (P : Pool) (x : ℕ) : Bool := P.poolMem ≤ x ∧ x < P.poolMem + P.nobjs * P.objSz

theorem owns_iff {P : Pool} {x : ℕ} :
    P.owns x = true ↔ P.poolMem ≤ x ∧ x < P.poolMem + P.nobjs * P.objSz :=
  decide_eq_true_iff

theorem slot_inside {P : Pool} {x : ℕ} (hx : x ∈ P.slots) :
    P.poolMem ≤ x ∧ x + P.objSz ≤ P.poolMem + P.nobjs * P.objSz := by
  obtain ⟨i, hi, rfl⟩ := List.mem_map.mp hx
  have hle : (i + 1) * P.objSz ≤ P.nobjs * P.objSz :=
    Nat.mul_le_mul_right _ (List.mem_range.mp hi)
  rw [Nat.succ_mul] at hle
  omega

theorem slot_owned {P : Pool} (ho : 0 < P.objSz) {x : ℕ} (hx : x ∈ P.slots) :
    P.owns x = true := by
  have := slot_inside hx
  exact owns_iff.mpr ⟨this.1, by omega⟩

theorem slot_disjoint {P : Pool} {x y : ℕ} (hx : x ∈ P.slots) (hy : y ∈ P.slots) (hne : x ≠ y) :
    x + P.objSz ≤ y ∨ y + P.objSz ≤ x := by
  obtain ⟨i, -, rfl⟩ := List.mem_map.mp hx
  obtain ⟨j, -, rfl⟩ := List.mem_map.mp hy
  rcases Nat.lt_trichotomy i j with hij | rfl | hij
  · have hle := Nat.mul_le_mul_right P.objSz (Nat.succ_le_of_lt hij)
    rw [Nat.succ_mul] at hle
    omega
  · exact absurd rfl hne
  · have hle := Nat.mul_le_mul_right P.objSz (Nat.succ_le_of_lt hij)
    rw [Nat.succ_mul] at hle
    omega

theorem slots_nodup {P : Pool} (ho : 0 < P.objSz) : P.slots.Nodup := by
  refine List.Nodup.map ?_ List.nodup_range
  intro i j hij
  exact Nat.eq_of_mul_eq_mul_right ho (Nat.add_left_cancel hij)

theorem length_slots (P : Pool) : P.slots.length = P.nobjs := by
  rw [slots, List.length_map, List.length_range]

/-- Two pools with the same block. -/
structure SameBlock (P Q : Pool) : Prop where
  nobjs : P.nobjs = Q.nobjs
  objSz : P.objSz = Q.objSz
  poolMem : P.poolMem = Q.poolMem

namespace SameBlock

variable {P Q : Pool}

theorem trans {R : Pool} (h : P.SameBlock Q) (h' : Q.SameBlock R) : P.SameBlock R :=
  ⟨h.nobjs.trans h'.nobjs, h.objSz.trans h'.objSz, h.poolMem.trans h'.poolMem⟩

theorem block_eq (h : P.SameBlock Q) : P.block = Q.block := by
  rw [block, block, h.nobjs, h.objSz, h.poolMem]

theorem slots_eq (h : P.SameBlock Q) : P.slots = Q.slots := by
  rw [slots, slots, h.nobjs, h.objSz, h.poolMem]

theorem owns_eq (h : P.SameBlock Q) : P.owns = Q.owns := by
  funext x
  rw [owns, owns, h.nobjs, h.objSz, h.poolMem]

end SameBlock

/-! ### The invariant -/

/-- A pool whose clients hold the addresses `held`: each node is on one queue, once, and the
addresses still available and those held are the slots, each once. -/
structure Ok (P : Pool) (held : List ℕ) : Prop where
  base_ne : P.poolMem ≠ 0
  start_eq : P.startAddr = P.poolMem
  end_eq : P.endAddr = P.poolMem + P.nobjs * P.objSz
  nodes : (P.poolQ ++ P.availQ).Perm (List.range P.nobjs)
  slots : (P.available ++ held).Perm P.slots

theorem Ok.available_subset {P : Pool} {held : List ℕ} (h : P.Ok held) :
    P.available ⊆ P.slots :=
  fun _ hx => h.slots.subset (List.mem_append_left _ hx)

theorem Ok.length_held {P : Pool} {held : List ℕ} (h : P.Ok held) :
    held.length = P.availQ.length := by
  have hnodes := h.nodes.length_eq
  have hslots := h.slots.length_eq
  rw [List.length_append, List.length_range] at hnodes
  rw [List.length_append, available, List.length_map, length_slots] at hslots
  omega

/-- A new pool in a block that does not reach the end of the address space. -/
theorem fresh_ok (addr pSz oSz entries : ℕ) {mem : ℕ} (hne : mem ≠ 0)
    (hend : mem + pSz * oSz < 2 ^ 64) : (Pool.fresh addr pSz oSz mem entries).Ok [] := by
  rw [Pool.fresh_eq addr pSz oSz entries (by omega)]
  refine ⟨hne, rfl, Nat.mod_eq_of_lt hend, by rw [List.append_nil], ?_⟩
  rw [List.append_nil]
  refine List.Perm.of_eq (List.map_congr_left fun i hi => ?_)
  have hi := List.mem_range.mp hi
  have hle : i * oSz ≤ pSz * oSz := Nat.mul_le_mul_right _ (Nat.le_of_lt hi)
  show (if i < pSz then (mem + i * oSz) % 2 ^ 64 else 0) = mem + i * oSz
  rw [if_pos hi, Nat.mod_eq_of_lt (by omega)]

end Pool

/-! ### Gets and puts -/

/-- The pool after a get took the node `lh` and left `q` on `pool_q`. -/
def Pool.taken (P : Pool) (lh : ℕ) (q : List ℕ) : Pool :=
  { P with
    poolQ := q
    availQ := putFifo P.availQ lh
    nQ := (P.nQ + 2 ^ 16 - 1) % 2 ^ 16 }

/-- The pool after a put wrote `x` into the node `lh` and left `q` on `avail_q`. -/
def Pool.returned (P : Pool) (lh : ℕ) (q : List ℕ) (x : ℕ) : Pool :=
  { P with
    availQ := q
    ptr := Function.update P.ptr lh x
    poolQ := putFifo P.poolQ lh
    nQ := (P.nQ + 1) % 2 ^ 16 }

theorem poolGetPtr_cases (P : Pool) :
    (P.poolQ = [] ∧ poolGetPtr (some P) = (0, some P)) ∨
      ∃ lh q, P.poolQ = lh :: q ∧ poolGetPtr (some P) = (P.ptr lh, some (P.taken lh q)) := by
  cases hq : P.poolQ with
  | nil => exact .inl ⟨rfl, by rw [poolGetPtr, hq, getFifo]⟩
  | cons lh q => exact .inr ⟨lh, q, rfl, by rw [poolGetPtr, hq, getFifo, Pool.taken]⟩

/-- What a put does: it looks at the range of the pool, and at whether any node is on `avail_q`. -/
theorem poolPutPtr_cases (P : Pool) (x : ℕ) :
    (¬ (P.startAddr ≤ x ∧ x < P.endAddr ∧ P.availQ ≠ []) ∧ poolPutPtr (some P) x = (-1, some P)) ∨
      ∃ lh q, P.startAddr ≤ x ∧ x < P.endAddr ∧ P.availQ = lh :: q ∧
        poolPutPtr (some P) x = (0, some (P.returned lh q x)) := by
  by_cases hrange : x < P.startAddr ∨ x ≥ P.endAddr
  · exact .inl ⟨by omega, by rw [poolPutPtr, if_pos hrange]⟩
  · cases hq : P.availQ with
    | nil => exact .inl ⟨by simp, by rw [poolPutPtr, if_neg hrange, hq, getFifo]⟩
    | cons lh q =>
      refine .inr ⟨lh, q, by omega, by omega, rfl, ?_⟩
      rw [poolPutPtr, if_neg hrange, hq, getFifo, Pool.returned]

theorem poolGetPtr_inversion {P P' : Pool} {x : ℕ} (h : poolGetPtr (some P) = (x, some P')) :
    (P.poolQ = [] ∧ x = 0 ∧ P' = P) ∨
      ∃ lh q, P.poolQ = lh :: q ∧ x = P.ptr lh ∧ P' = P.taken lh q := by
  rcases poolGetPtr_cases P with ⟨hq, hget⟩ | ⟨lh, q, hq, hget⟩ <;>
    obtain ⟨hx, hP⟩ := Prod.mk.inj (h.symm.trans hget)
  · exact .inl ⟨hq, hx, Option.some.inj hP⟩
  · exact .inr ⟨lh, q, hq, hx, Option.some.inj hP⟩

theorem poolPutPtr_inversion {P P' : Pool} {x : ℕ} {ret : ℤ}
    (h : poolPutPtr (some P) x = (ret, some P')) : (ret = -1 ∧ P' = P) ∨
      ∃ lh q, P.startAddr ≤ x ∧ P.availQ = lh :: q ∧ ret = 0 ∧ P' = P.returned lh q x := by
  rcases poolPutPtr_cases P x with ⟨-, hput⟩ | ⟨lh, q, hlo, -, hq, hput⟩ <;>
    obtain ⟨hret, hP⟩ := Prod.mk.inj (h.symm.trans hput)
  · exact .inl ⟨hret, Option.some.inj hP⟩
  · exact .inr ⟨lh, q, hlo, hq, hret, Option.some.inj hP⟩

namespace Pool

variable {P : Pool} {lh x : ℕ} {q : List ℕ}

@[simp] theorem taken_nobjs : (P.taken lh q).nobjs = P.nobjs := by rw [taken]

@[simp] theorem taken_objSz : (P.taken lh q).objSz = P.objSz := by rw [taken]

@[simp] theorem taken_poolMem : (P.taken lh q).poolMem = P.poolMem := by rw [taken]

@[simp] theorem taken_startAddr : (P.taken lh q).startAddr = P.startAddr := by rw [taken]

@[simp] theorem taken_endAddr : (P.taken lh q).endAddr = P.endAddr := by rw [taken]

@[simp] theorem taken_addr : (P.taken lh q).addr = P.addr := by rw [taken]

@[simp] theorem taken_entries : (P.taken lh q).entries = P.entries := by rw [taken]

@[simp] theorem taken_ptr : (P.taken lh q).ptr = P.ptr := by rw [taken]

@[simp] theorem taken_poolQ : (P.taken lh q).poolQ = q := rfl

@[simp] theorem taken_availQ : (P.taken lh q).availQ = P.availQ ++ [lh] := rfl

@[simp] theorem returned_nobjs : (P.returned lh q x).nobjs = P.nobjs := by rw [returned]

@[simp] theorem returned_objSz : (P.returned lh q x).objSz = P.objSz := by rw [returned]

@[simp] theorem returned_poolMem : (P.returned lh q x).poolMem = P.poolMem := by rw [returned]

@[simp] theorem returned_startAddr : (P.returned lh q x).startAddr = P.startAddr := by rw [returned]

@[simp] theorem returned_endAddr : (P.returned lh q x).endAddr = P.endAddr := by rw [returned]

@[simp] theorem returned_addr : (P.returned lh q x).addr = P.addr := by rw [returned]

@[simp] theorem returned_entries : (P.returned lh q x).entries = P.entries := by rw [returned]

@[simp] theorem returned_ptr : (P.returned lh q x).ptr = Function.update P.ptr lh x := rfl

@[simp] theorem returned_poolQ : (P.returned lh q x).poolQ = P.poolQ ++ [lh] := rfl

@[simp] theorem returned_availQ : (P.returned lh q x).availQ = q := rfl

theorem taken_sameBlock : (P.taken lh q).SameBlock P := ⟨taken_nobjs, taken_objSz, taken_poolMem⟩

theorem returned_sameBlock : (P.returned lh q x).SameBlock P :=
  ⟨returned_nobjs, returned_objSz, returned_poolMem⟩

theorem taken_nodes (hq : P.poolQ = lh :: q) :
    ((P.taken lh q).poolQ ++ (P.taken lh q).availQ).Perm (P.poolQ ++ P.availQ) := by
  rw [taken_poolQ, taken_availQ, hq, ← List.append_assoc]
  exact List.perm_append_comm

theorem returned_nodes (hq : P.availQ = lh :: q) :
    ((P.returned lh q x).poolQ ++ (P.returned lh q x).availQ).Perm (P.poolQ ++ P.availQ) := by
  rw [returned_poolQ, returned_availQ, hq, List.append_assoc]
  exact List.Perm.refl _

theorem available_taken (hq : P.poolQ = lh :: q) :
    P.available = P.ptr lh :: (P.taken lh q).available := by
  rw [available, available, taken_poolQ, taken_ptr, hq, List.map_cons]

/-- A put adds its address behind the available ones: the node it writes to is not on `pool_q`. -/
theorem available_returned (hq : P.availQ = lh :: q) (hn : (P.poolQ ++ P.availQ).Nodup) :
    (P.returned lh q x).available = P.available ++ [x] := by
  have hnotin : lh ∉ P.poolQ := by
    rw [hq, List.nodup_middle, List.nodup_cons] at hn
    exact fun hmem => hn.1 (List.mem_append_left _ hmem)
  have hold : P.poolQ.map (Function.update P.ptr lh x) = P.available := by
    refine List.map_congr_left fun e he => Function.update_of_ne ?_ _ _
    rintro rfl
    exact hnotin he
  rw [available, returned_poolQ, returned_ptr, List.map_append, hold, List.map_singleton,
    Function.update_self]

end Pool

/-- **A get** finds the pool used up, or hands out an available address. -/
theorem poolGetPtr_spec {P : Pool} {held : List ℕ} (h : P.Ok held) :
    (P.poolQ = [] ∧ poolGetPtr (some P) = (0, some P)) ∨
      ∃ x P', x ≠ 0 ∧ x ∈ P.available ∧ poolGetPtr (some P) = (x, some P') ∧ P'.SameBlock P ∧
        P'.Ok (x :: held) := by
  rcases poolGetPtr_cases P with hnil | ⟨lh, q, hq, hget⟩
  · exact .inl hnil
  · have havail := Pool.available_taken hq
    have hmem : P.ptr lh ∈ P.available := by
      rw [havail]
      exact List.mem_cons_self
    refine .inr ⟨P.ptr lh, P.taken lh q, ?_, hmem, hget, Pool.taken_sameBlock, ?_⟩
    · have := h.base_ne
      have := (Pool.slot_inside (h.available_subset hmem)).1
      omega
    · have hslots := h.slots
      rw [havail] at hslots
      refine ⟨?_, ?_, ?_, (Pool.taken_nodes hq).trans ?_, ?_⟩
      · simpa using h.base_ne
      · simpa using h.start_eq
      · simpa using h.end_eq
      · simpa using h.nodes
      · rw [Pool.taken_sameBlock.slots_eq]
        exact List.perm_middle.trans hslots

/-- **A put** of a held address is accepted. -/
theorem poolPutPtr_spec {P : Pool} {held : List ℕ} (h : P.Ok held) {x : ℕ} (hx : x ∈ held)
    (ho : P.owns x = true) :
    ∃ P', poolPutPtr (some P) x = (0, some P') ∧ P'.SameBlock P ∧ P'.Ok (held.erase x) := by
  obtain ⟨hlo, hhi⟩ := Pool.owns_iff.mp ho
  have hout : P.availQ ≠ [] := by
    intro hq
    have hlen := h.length_held
    rw [hq, List.length_nil, List.length_eq_zero_iff] at hlen
    rw [hlen] at hx
    exact List.not_mem_nil hx
  rcases poolPutPtr_cases P x with ⟨hnot, -⟩ | ⟨lh, q, -, -, hq, hput⟩
  · rw [h.start_eq, h.end_eq] at hnot
    exact absurd ⟨hlo, hhi, hout⟩ hnot
  · refine ⟨P.returned lh q x, hput, Pool.returned_sameBlock,
      ⟨?_, ?_, ?_, (Pool.returned_nodes hq).trans ?_, ?_⟩⟩
    · simpa using h.base_ne
    · simpa using h.start_eq
    · simpa using h.end_eq
    · simpa using h.nodes
    · rw [Pool.returned_sameBlock.slots_eq,
        Pool.available_returned hq (h.nodes.nodup_iff.mpr List.nodup_range), List.append_assoc,
        List.singleton_append]
      exact ((List.perm_cons_erase hx).symm.append_left _).trans h.slots

end Milu
