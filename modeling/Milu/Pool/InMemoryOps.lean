import Milu.Pool.InMemory
import Milu.Pool.Slots

/-!
# One pool in memory

What the calls on one pool do to the memory, next to what they do to its lists. A pool owns two
blocks: its struct, where its queues are, and its array of entries. Whether the memory spells out a
pool is decided inside these blocks, and a call writes nowhere else. So pools with blocks of their
own do not see each other's calls, and neither do they see what is done to the memory outside.

Making a pool is different only in that it gets its blocks from the allocator. When it is refused
one of them, it has written into a struct that is gone.

## Main definitions

* `Pool.header`, `Pool.queues` — the struct of a pool, and the nodes of its queues
* `Pool.Spelled` — the memory spells out the pool
* `InMemory.Acts` — what a call on a pool may do
* `InMemory.Makes` — what making one may do

## Main results

* `Pool.Spelled.congr` — only the blocks of a pool matter
* `InMemory.poolGetPtr_apply`, `InMemory.poolPutPtr_apply`, `InMemory.createPool_apply` — a call in
  memory returns what it returns on lists
-/

namespace Milu

/-! ### What a queue writes -/

namespace Queue.Chains

variable {m m' : Queue.Memory} {qs : Set ℕ} {σ : ℕ → List ℕ} {q e x : ℕ} {l : List ℕ}

/-- **A put** writes into the node and its new queue. -/
theorem put_same (h : Chains m qs σ) (hq : q ∈ qs) (he : e ≠ 0)
    (hcall : putFifo q e m = .ok ((), m')) (hl : l.Disjoint (e :: q :: σ q)) :
    m'.mutex = m.mutex ∧ m.links.SameOn m'.links l := by
  have hprev := (h.loops.loop q hq).prev_mem
  have hput := putFifo_apply (h.free q hq) (h.ne_zero hq List.mem_cons_self) he (h.ne_zero hq hprev)
  obtain ⟨-, rfl⟩ := ok_unique hcall hput
  have hoff : ∀ {y}, y ∈ e :: q :: σ q → y ∉ l := fun hy hc => hl hc hy
  exact ⟨rfl, .insert (hoff (by simp)) (hoff (List.mem_cons_of_mem _ hprev)) (hoff (by simp))⟩

/-- **A get** writes into its queue. -/
theorem get_same (h : Chains m qs σ) (hq : q ∈ qs) (hcall : getFifo q m = .ok (x, m'))
    (hl : l.Disjoint (q :: σ q)) : m'.mutex = m.mutex ∧ m.links.SameOn m'.links l := by
  have hq0 := h.ne_zero hq List.mem_cons_self
  have hloop := h.loops.loop q hq
  cases hσ : σ q with
  | nil =>
    obtain ⟨-, rfl⟩ := ok_unique hcall
      (getFifo_empty (h.free q hq) hq0 (hloop.next_eq_iff.mpr hσ))
    exact ⟨rfl, .refl _ _⟩
  | cons e k =>
    have he : e ∈ q :: σ q := by simp [hσ]
    obtain ⟨hn, hp⟩ := hloop.links_mem he
    have hpath := hloop.path
    have hnodup := hloop.nodup
    rw [hσ] at hpath hnodup
    have heq : e ≠ q := fun hc => (List.nodup_cons.mp hnodup).1 (by simp [hc])
    obtain ⟨-, rfl⟩ := ok_unique hcall (getFifo_apply (h.free q hq) hq0 hpath.1.1 heq
      (h.ne_zero hq he) (h.ne_zero hq hp) (h.ne_zero hq hn))
    have hoff : ∀ {y}, y ∈ q :: σ q → y ∉ l := fun hy hc => hl hc hy
    refine ⟨rfl, ?_⟩
    exact ((Links.SameOn.remove (hoff hp) (hoff hn)).trans (.setNext (hoff he))).trans
      (.setPrev (hoff he))

end Queue.Chains

open InMemory (Memory PoolStruct Covered entryAt qE)

/-! ### Blocks -/

/-- The two blocks of a pool: its struct, and its entries. -/
def InMemory.PoolStruct.blocks (p : PoolStruct) : List Block :=
  [⟨p.addr, sizeofPool⟩, ⟨p.entries, p.nobjs * sizeofPoolEntry⟩]

namespace InMemory.PoolStruct

variable {p : PoolStruct} {x i : ℕ}

theorem covered_struct (hle : p.addr ≤ x) (hlt : x < p.addr + sizeofPool) : Covered p.blocks x :=
  ⟨⟨p.addr, sizeofPool⟩, by simp [blocks], hle, Nat.lt_of_lt_of_le hlt (by simp [Block.span])⟩

theorem covered_entries (hle : p.entries ≤ x) (hlt : x < p.entries + p.nobjs * sizeofPoolEntry) :
    Covered p.blocks x :=
  ⟨⟨p.entries, p.nobjs * sizeofPoolEntry⟩, by simp [blocks], hle,
    Nat.lt_of_lt_of_le hlt (by simp [Block.span])⟩

theorem covered_poolQ (p : PoolStruct) : Covered p.blocks p.poolQ := by
  apply covered_struct <;> simp only [poolQ, offsetofPoolQ, sizeofPool] <;> omega

theorem covered_availQ (p : PoolStruct) : Covered p.blocks p.availQ := by
  apply covered_struct <;> simp only [availQ, offsetofAvailQ, sizeofPool] <;> omega

theorem covered_entryAt (hi : i < p.nobjs) : Covered p.blocks (entryAt p.entries i) := by
  apply covered_entries <;> simp only [entryAt, sizeofPoolEntry] <;> omega

theorem covered_qE (hi : i < p.nobjs) : Covered p.blocks (qE (entryAt p.entries i)) := by
  apply covered_entries <;> simp only [qE, offsetofQE, entryAt, sizeofPoolEntry] <;> omega

theorem poolQ_ne_availQ (p : PoolStruct) : p.poolQ ≠ p.availQ := by
  simp only [poolQ, availQ, offsetofPoolQ, offsetofAvailQ]
  omega

theorem qE_ne_zero (e : ℕ) : qE e ≠ 0 := Nat.succ_ne_zero _

theorem qE_sub (e : ℕ) : qE e - offsetofQE = e := Nat.add_sub_cancel e offsetofQE

end InMemory.PoolStruct

theorem InMemory.entryAt_inj {entries i j : ℕ} : entryAt entries i = entryAt entries j ↔ i = j := by
  simp only [entryAt, sizeofPoolEntry]
  omega

theorem InMemory.qE_inj {a b : ℕ} : qE a = qE b ↔ a = b := Nat.add_right_cancel_iff

/-! ### A pool that the memory spells out -/

namespace Pool

variable {P P' : Pool} {m m' : Memory ℕ} {lh x : ℕ} {q : List ℕ}

/-- The struct of a pool. -/
def header (P : Pool) : PoolStruct where
  addr := P.addr
  nobjs := P.nobjs
  nQ := P.nQ
  objSz := P.objSz
  entries := P.entries
  poolMem := P.poolMem
  startAddr := P.startAddr
  endAddr := P.endAddr

/-- The entry with this index is on a queue by this node. -/
def node (P : Pool) (i : ℕ) : ℕ := qE (entryAt P.entries i)

/-- The nodes on each of the two queues. -/
def queues (P : Pool) : ℕ → List ℕ :=
  Function.update (Function.update (fun _ => []) P.header.poolQ (P.poolQ.map P.node))
    P.header.availQ (P.availQ.map P.node)

@[simp] theorem queues_availQ (P : Pool) : P.queues P.header.availQ = P.availQ.map P.node :=
  Function.update_self ..

@[simp] theorem queues_poolQ (P : Pool) : P.queues P.header.poolQ = P.poolQ.map P.node := by
  rw [queues, Function.update_of_ne P.header.poolQ_ne_availQ, Function.update_self]

/-- **The memory spells out the pool**: the links lead through the entries on each queue, every
entry is on one, and each holds its address. -/
structure Spelled (P : Pool) (m : Memory ℕ) : Prop where
  chains : Queue.Chains m.lists {P.header.poolQ, P.header.availQ} P.queues
  nodes : (P.poolQ ++ P.availQ).Perm (List.range P.nobjs)
  entries_ne : P.entries ≠ 0
  ptr : ∀ i < P.nobjs, m.fields (entryAt P.entries i) = P.ptr i

theorem node_injective (P : Pool) : Function.Injective P.node := by
  intro i j hij
  rwa [node, node, InMemory.qE_inj, InMemory.entryAt_inj] at hij

namespace Spelled

theorem lt_nobjs (h : P.Spelled m) {i : ℕ} (hi : i ∈ P.poolQ ++ P.availQ) : i < P.nobjs :=
  List.mem_range.mp (h.nodes.subset hi)

theorem entryAt_ne_zero (h : P.Spelled m) (i : ℕ) : entryAt P.entries i ≠ 0 := by
  have := h.entries_ne
  simp only [entryAt]
  omega

theorem covered (h : P.Spelled m) {q : ℕ} (hq : q ∈ ({P.header.poolQ, P.header.availQ} : Set ℕ))
    (hx : x ∈ q :: P.queues q) : Covered P.header.blocks x := by
  have hnode : ∀ i ∈ P.poolQ ++ P.availQ, Covered P.header.blocks (P.node i) :=
    fun i hi => PoolStruct.covered_qE (p := P.header) (h.lt_nobjs hi)
  rcases hq with rfl | rfl
  · rw [queues_poolQ, List.mem_cons, List.mem_map] at hx
    rcases hx with rfl | ⟨i, hi, rfl⟩
    · exact PoolStruct.covered_poolQ _
    · exact hnode i (List.mem_append_left _ hi)
  · rw [queues_availQ, List.mem_cons, List.mem_map] at hx
    rcases hx with rfl | ⟨i, hi, rfl⟩
    · exact PoolStruct.covered_availQ _
    · exact hnode i (List.mem_append_right _ hi)

/-- **Only the blocks of the pool matter.** -/
theorem congr (h : P.Spelled m) (hsame : ∀ x, Covered P.header.blocks x → m.SameAt m' x) :
    P.Spelled m' where
  chains :=
    { loops := h.chains.loops.congr fun _ hq x hx =>
        ⟨(hsame x (h.covered hq hx)).next, (hsame x (h.covered hq hx)).prev⟩
      ne_null := h.chains.ne_null
      free := fun q hq => by
        rw [(hsame q (h.covered hq List.mem_cons_self)).mutex]
        exact h.chains.free q hq }
  nodes := h.nodes
  entries_ne := h.entries_ne
  ptr := fun i hi =>
    (hsame _ (PoolStruct.covered_entryAt (p := P.header) hi)).fields.trans (h.ptr i hi)

theorem move (h : P.Spelled m) {a b i : ℕ} {l : List ℕ}
    (ha : a ∈ ({P.header.poolQ, P.header.availQ} : Set ℕ))
    (hb : b ∈ ({P.header.poolQ, P.header.availQ} : Set ℕ)) (hab : a ≠ b)
    (hqueue : P.queues a = P.node i :: l) : ∃ lists₁ lists₂,
      Queue.getFifo a m.lists = .ok (P.node i, lists₁) ∧
      Queue.putFifo b (P.node i) lists₁ = .ok ((), lists₂) ∧
      Queue.Chains lists₂ {P.header.poolQ, P.header.availQ} (Function.update
        (Function.update P.queues a l) b (P.queues b ++ [P.node i])) ∧
      lists₂.mutex = m.lists.mutex ∧
      ∀ x, ¬ Covered P.header.blocks x → m.lists.links.SameOn lists₂.links [x] := by
  have hnode : P.node i ∈ a :: P.queues a := by simp [hqueue]
  rcases h.chains.get ha with ⟨hnone, -⟩ | ⟨e, k, lists₁, hfirst, hget, he, hchains, hout, -⟩
  · rw [hqueue, getFifo] at hnone
    cases hnone
  · rw [hqueue, getFifo, Option.some.injEq, Prod.mk.injEq] at hfirst
    obtain ⟨rfl, rfl⟩ := hfirst
    obtain ⟨lists₂, hput, hchains₂, -⟩ := hchains.put hb he hout
    have hkept : Function.update P.queues a l b = P.queues b := Function.update_of_ne hab.symm _ _
    rw [hkept, putFifo] at hchains₂
    have hoff : ∀ {x y q : ℕ}, ¬ Covered P.header.blocks x →
        q ∈ ({P.header.poolQ, P.header.availQ} : Set ℕ) → y ∈ q :: P.queues q → x ≠ y := by
      rintro x y q hx hq hy rfl
      exact hx (h.covered hq hy)
    refine ⟨lists₁, lists₂, hget, hput, hchains₂, ?_, fun x hx => ?_⟩
    · have hmutex := (hchains.put_same hb he hput (List.disjoint_nil_left _)).1
      exact hmutex.trans (h.chains.get_same ha hget (List.disjoint_nil_left _)).1
    · have hget' := h.chains.get_same ha hget (l := [x]) (by
        rw [List.singleton_disjoint]
        exact fun hc => hoff hx ha hc rfl)
      have hput' := hchains.put_same hb he hput (l := [x]) (by
        rw [List.singleton_disjoint, hkept, List.mem_cons, not_or]
        exact ⟨hoff hx ha hnode, fun hc => hoff hx hb hc rfl⟩)
      exact hget'.2.trans hput'.2

end Spelled

theorem header_taken (P : Pool) (lh : ℕ) (q : List ℕ) :
    (P.taken lh q).header = ⟨P.header.addr, P.header.nobjs, (P.header.nQ + 2 ^ 16 - 1) % 2 ^ 16,
      P.header.objSz, P.header.entries, P.header.poolMem, P.header.startAddr,
        P.header.endAddr⟩ := by
  rw [header, header, taken]

theorem header_returned (P : Pool) (lh : ℕ) (q : List ℕ) (x : ℕ) :
    (P.returned lh q x).header = ⟨P.header.addr, P.header.nobjs, (P.header.nQ + 1) % 2 ^ 16,
      P.header.objSz, P.header.entries, P.header.poolMem, P.header.startAddr,
        P.header.endAddr⟩ := by
  rw [header, header, returned]

theorem placed_taken (P : Pool) (lh : ℕ) (q : List ℕ) :
    (P.taken lh q).header.blocks = P.header.blocks ∧
      (P.taken lh q).header.poolQ = P.header.poolQ ∧
        (P.taken lh q).header.availQ = P.header.availQ ∧ (P.taken lh q).node = P.node := by
  refine ⟨by rw [header_taken, PoolStruct.blocks, PoolStruct.blocks],
    by rw [header_taken, PoolStruct.poolQ, PoolStruct.poolQ],
    by rw [header_taken, PoolStruct.availQ, PoolStruct.availQ], ?_⟩
  funext i
  rw [node, node, taken_entries]

theorem placed_returned (P : Pool) (lh : ℕ) (q : List ℕ) (x : ℕ) :
    (P.returned lh q x).header.blocks = P.header.blocks ∧
      (P.returned lh q x).header.poolQ = P.header.poolQ ∧
        (P.returned lh q x).header.availQ = P.header.availQ ∧
          (P.returned lh q x).node = P.node := by
  refine ⟨by rw [header_returned, PoolStruct.blocks, PoolStruct.blocks],
    by rw [header_returned, PoolStruct.poolQ, PoolStruct.poolQ],
    by rw [header_returned, PoolStruct.availQ, PoolStruct.availQ], ?_⟩
  funext i
  rw [node, node, returned_entries]

theorem queues_taken (P : Pool) (lh : ℕ) (q : List ℕ) : (P.taken lh q).queues =
    Function.update (Function.update P.queues P.header.poolQ (q.map P.node)) P.header.availQ
      (P.queues P.header.availQ ++ [P.node lh]) := by
  obtain ⟨-, hpool, havail, hnode⟩ := P.placed_taken lh q
  have hlast : P.queues P.header.availQ ++ [P.node lh] = (P.availQ ++ [lh]).map P.node := by simp
  rw [hlast, queues, hnode, hpool, havail, taken_poolQ, taken_availQ, queues,
    Function.update_comm P.header.poolQ_ne_availQ.symm, Function.update_idem, Function.update_idem]

theorem queues_returned (P : Pool) (lh : ℕ) (q : List ℕ) (x : ℕ) : (P.returned lh q x).queues =
    Function.update (Function.update P.queues P.header.availQ (q.map P.node)) P.header.poolQ
      (P.queues P.header.poolQ ++ [P.node lh]) := by
  obtain ⟨-, hpool, havail, hnode⟩ := P.placed_returned lh q x
  have hlast : P.queues P.header.poolQ ++ [P.node lh] = (P.poolQ ++ [lh]).map P.node := by simp
  rw [hlast, queues, hnode, hpool, havail, returned_poolQ, returned_availQ, queues,
    Function.update_idem, Function.update_comm P.header.poolQ_ne_availQ.symm, Function.update_idem]

end Pool

/-! ### Gets and puts -/

namespace InMemory

variable {P P' : Pool} {m m' : Memory ℕ} {x : ℕ} {ret : ℤ}

/-- **What a call on a pool may do**: afterwards the memory spells out another pool, with the same
blocks, and outside these it is as it was. -/
structure Acts (P : Pool) (m : Memory ℕ) (P' : Pool) (m' : Memory ℕ) : Prop where
  spelled : P'.Spelled m'
  blocks : P'.header.blocks = P.header.blocks
  outside : ∀ x, ¬ Covered P.header.blocks x → m.SameAt m' x

theorem Acts.refl (h : P.Spelled m) : Acts P m P m := ⟨h, rfl, fun x _ => .refl m x⟩

/-- **A get in memory** returns what it returns on lists. -/
theorem poolGetPtr_apply (h : P.Spelled m) (hget : Milu.poolGetPtr (some P) = (x, some P'))
    (H : Heap) :
    ∃ m', poolGetPtr (some P.header) m H = some (((x, some P'.header), m'), H) ∧
      Acts P m P' m' := by
  rcases poolGetPtr_inversion hget with ⟨hnil, rfl, rfl⟩ | ⟨lh, q, hq, rfl, rfl⟩
  · have hempty : P'.queues P'.header.poolQ = [] := by simp [hnil]
    rcases h.chains.get (q := P'.header.poolQ) (by simp) with ⟨-, hcall⟩ | ⟨e, l, _, hfirst, -⟩
    · exact ⟨m, bind_apply (onLists_apply hcall H) _, .refl h⟩
    · rw [hempty, getFifo] at hfirst
      cases hfirst
  · obtain ⟨lists₁, lists₂, hgot, hput, hchains, hmutex, hsame⟩ := h.move (a := P.header.poolQ)
      (b := P.header.availQ) (i := lh) (l := q.map P.node) (by simp) (by simp)
      P.header.poolQ_ne_availQ (by simp [hq])
    have hentry : P.node lh - offsetofQE = entryAt P.entries lh := PoolStruct.qE_sub _
    have hnode : P.node lh ≠ 0 := PoolStruct.qE_ne_zero _
    refine ⟨(m.withLists lists₁).withLists lists₂, ?_, ?_, (P.placed_taken lh q).1, fun y hy => ?_⟩
    · rw [Pool.header_taken]
      refine (bind_apply (onLists_apply hgot H) _).trans ?_
      rw [if_neg hnode, hentry]
      refine (bind_apply (load_apply (h.entryAt_ne_zero lh) _ H) _).trans ?_
      rw [fields_withLists, h.ptr lh (h.lt_nobjs (by simp [hq]))]
      exact bind_apply (onLists_apply hput H) _
    · obtain ⟨-, hpool, havail, -⟩ := P.placed_taken lh q
      refine ⟨by rw [hpool, havail, Pool.queues_taken]; exact hchains, ?_, ?_, fun i hi => ?_⟩
      · rw [Pool.taken_nobjs]
        exact (Pool.taken_nodes hq).trans h.nodes
      · rw [Pool.taken_entries]
        exact h.entries_ne
      · rw [Pool.taken_nobjs] at hi
        rw [Pool.taken_entries, Pool.taken_ptr, fields_withLists, fields_withLists, h.ptr i hi]
    · exact ⟨(hsame y hy y (by simp)).1, (hsame y hy y (by simp)).2, congrFun hmutex y, rfl⟩

/-- **A put in memory** returns what it returns on lists. -/
theorem poolPutPtr_apply (h : P.Spelled m) (hput : Milu.poolPutPtr (some P) x = (ret, some P'))
    (H : Heap) :
    ∃ m', poolPutPtr (some P.header) x m H = some (((ret, some P'.header), m'), H) ∧
      Acts P m P' m' := by
  rcases poolPutPtr_cases P x with ⟨hnot, hcall⟩ | ⟨lh, q, hlo, hhi, hq, hcall⟩ <;>
    obtain ⟨rfl, hP⟩ := Prod.mk.inj (hput.symm.trans hcall) <;> obtain rfl := Option.some.inj hP
  · refine ⟨m, ?_, .refl h⟩
    by_cases hrange : x < P'.header.startAddr ∨ x ≥ P'.header.endAddr
    · rw [poolPutPtr, if_pos hrange]
      rfl
    · obtain ⟨hlo, hhi⟩ := not_or.mp hrange
      have hnil : P'.availQ = [] := by
        by_contra hne
        exact hnot ⟨Nat.not_lt.mp hlo, Nat.not_le.mp hhi, hne⟩
      have hempty : P'.queues P'.header.availQ = [] := by simp [hnil]
      rw [poolPutPtr, if_neg hrange]
      rcases h.chains.get (q := P'.header.availQ) (by simp) with ⟨-, hgot⟩ | ⟨e, l, _, hfirst, -⟩
      · exact bind_apply (onLists_apply hgot H) _
      · rw [hempty, getFifo] at hfirst
        cases hfirst
  · have hrange : ¬ (x < P.header.startAddr ∨ x ≥ P.header.endAddr) :=
      not_or.mpr ⟨Nat.not_lt.mpr hlo, Nat.not_le.mpr hhi⟩
    obtain ⟨lists₁, lists₂, hgot, hput, hchains, hmutex, hsame⟩ := h.move (a := P.header.availQ)
      (b := P.header.poolQ) (i := lh) (l := q.map P.node) (by simp) (by simp)
      P.header.poolQ_ne_availQ.symm (by simp [hq])
    have hentry : P.node lh - offsetofQE = entryAt P.entries lh := PoolStruct.qE_sub _
    have hnode : P.node lh ≠ 0 := PoolStruct.qE_ne_zero _
    have hlt : lh < P.nobjs := h.lt_nobjs (by simp [hq])
    refine ⟨((m.withLists lists₁).withFields (entryAt P.entries lh) x).withLists lists₂, ?_, ?_,
      (P.placed_returned lh q x).1, fun y hy => ?_⟩
    · rw [Pool.header_returned, poolPutPtr, if_neg hrange]
      refine (bind_apply (onLists_apply hgot H) _).trans ?_
      rw [if_neg hnode, hentry]
      refine (bind_apply (store_apply (h.entryAt_ne_zero lh) x _ H) _).trans ?_
      exact bind_apply (onLists_apply hput H) _
    · obtain ⟨-, hpool, havail, -⟩ := P.placed_returned lh q x
      refine ⟨by rw [hpool, havail, Pool.queues_returned]; exact hchains, ?_, ?_, fun i hi => ?_⟩
      · rw [Pool.returned_nobjs]
        exact (Pool.returned_nodes hq).trans h.nodes
      · rw [Pool.returned_entries]
        exact h.entries_ne
      · rw [Pool.returned_nobjs] at hi
        rw [Pool.returned_entries, Pool.returned_ptr, fields_withLists, fields_withFields,
          fields_withLists]
        by_cases heq : i = lh
        · rw [heq, Function.update_self, Function.update_self]
        · rw [Function.update_of_ne (mt entryAt_inj.mp heq), Function.update_of_ne heq, h.ptr i hi]
    · have hne : y ≠ entryAt P.entries lh := by
        rintro rfl
        exact hy (PoolStruct.covered_entryAt (p := P.header) hlt)
      exact ⟨(hsame y hy y (by simp)).1, (hsame y hy y (by simp)).2, congrFun hmutex y,
        Function.update_of_ne hne _ _⟩

/-! ### Making a pool -/

theorem initQueues_apply (lists : Queue.Memory) {p : ℕ} : ∃ lists₁ lists₂,
    Queue.initQueue (p + offsetofPoolQ) lists = .ok ((), lists₁) ∧
    Queue.initQueue (p + offsetofAvailQ) lists₁ = .ok ((), lists₂) ∧
    Queue.Chains lists₂ {p + offsetofPoolQ, p + offsetofAvailQ} (fun _ => []) ∧
    ∀ x, x ≠ p + offsetofPoolQ → x ≠ p + offsetofAvailQ →
      lists.links.SameOn lists₂.links [x] ∧ lists₂.mutex x = lists.mutex x := by
  set a := p + offsetofPoolQ
  set b := p + offsetofAvailQ
  have hnone : Queue.Chains lists ∅ fun _ => [] :=
    ⟨⟨fun _ hq => hq.elim, fun _ hq => hq.elim⟩, fun _ hq => hq.elim, fun _ hq => hq.elim⟩
  have ha : a ≠ 0 := Nat.succ_ne_zero _
  have hb : b ≠ 0 := Nat.succ_ne_zero _
  have hab : b ≠ a := by
    simp only [a, b, offsetofPoolQ, offsetofAvailQ]
    omega
  obtain ⟨lists₁, h₁, hchains₁, -⟩ := hnone.init ha (by simp [Links.OnLoop])
  obtain ⟨lists₂, h₂, hchains₂, -⟩ := hchains₁.init hb (by simp [Links.OnLoop, hab])
  refine ⟨lists₁, lists₂, h₁, h₂, ?_, fun x hxa hxb => ?_⟩
  · have hnil : ∀ q, Function.update (fun _ : ℕ => ([] : List ℕ)) q [] = fun _ => [] :=
      fun q => Function.update_eq_self q _
    rw [hnil, hnil, insert_empty_eq] at hchains₂
    rwa [Set.pair_comm]
  · obtain ⟨-, rfl⟩ := ok_unique h₁ (Queue.initQueue_apply ha lists)
    obtain ⟨-, rfl⟩ := ok_unique h₂ (Queue.initQueue_apply hb _)
    have hoff : ∀ {q : ℕ}, x ≠ q → q ∉ [x] := fun hne hc => hne (List.mem_singleton.mp hc).symm
    refine ⟨?_, ?_⟩
    · exact ((Links.SameOn.setNext (hoff hxa)).trans (.setPrev (hoff hxa))).trans
        ((Links.SameOn.setNext (hoff hxb)).trans (.setPrev (hoff hxb)))
    · dsimp only
      rw [Function.update_of_ne hxb, Function.update_of_ne hxa]

/-- The nodes of the first `k` entries. -/
def nodesTo (entries k : ℕ) : List ℕ := (List.range k).map fun i => qE (entryAt entries i)

/-- **The loop of `create_pool`** over the entries of an array that lies apart from the queues. -/
theorem fillEntries_apply (oSz : ℕ) {a b entries mem : ℕ} (hab : a ≠ b) (hentries : entries ≠ 0)
    (hmem : mem < 2 ^ 64) (hc : Queue.Chains m.lists {a, b} fun _ => []) (H : Heap) :
    ∀ k, (∀ i < k, qE (entryAt entries i) ≠ a ∧ qE (entryAt entries i) ≠ b) →
      ∃ m', fillEntries oSz a entries mem k m H = some (((mem + k * oSz) % 2 ^ 64, m'), H) ∧
        Queue.Chains m'.lists {a, b} (Function.update (fun _ => []) a (nodesTo entries k)) ∧
        (∀ i < k, m'.fields (entryAt entries i) = (mem + i * oSz) % 2 ^ 64) ∧
        ∀ x, x ≠ a → (∀ i < k, x ≠ entryAt entries i ∧ x ≠ qE (entryAt entries i)) →
          m.SameAt m' x
  | 0, _ => by
    refine ⟨m, ?_, ?_, fun i hi => absurd hi (Nat.not_lt_zero i), fun x _ _ => .refl m x⟩
    · rw [Nat.zero_mul, Nat.add_zero, Nat.mod_eq_of_lt hmem]
      rfl
    · have hnil : Function.update (fun _ : ℕ => ([] : List ℕ)) a [] = fun _ => [] :=
        Function.update_eq_self a _
      rwa [nodesTo, List.range_zero, List.map_nil, hnil]
  | k + 1, hfar => by
    obtain ⟨m₁, hloop, hchains, hfields, houtside⟩ := fillEntries_apply oSz hab hentries hmem hc H k
      fun i hi => hfar i (Nat.lt_succ_of_lt hi)
    set e := entryAt entries k
    have he : e ≠ 0 := by
      simp only [e, entryAt]
      omega
    have hnode : qE e ≠ 0 := PoolStruct.qE_ne_zero e
    obtain ⟨hea, heb⟩ := hfar k (Nat.lt_succ_self k)
    have hnew : ¬ Links.OnLoop {a, b}
      (Function.update (fun _ => []) a (nodesTo entries k)) (qE e) := by
      rintro ⟨q, rfl | rfl, hq⟩
      · rw [Function.update_self, List.mem_cons, nodesTo, List.mem_map] at hq
        rcases hq with heq | ⟨i, hi, heq⟩
        · exact hea heq
        · rw [qE_inj, entryAt_inj] at heq
          exact absurd (List.mem_range.mp hi) (by omega)
      · rw [Function.update_of_ne hab.symm, List.mem_singleton] at hq
        exact heb hq
    obtain ⟨lists', hput, hchains', -⟩ := hchains.put (q := a) (by simp) hnode hnew
    refine ⟨(m₁.withFields e ((mem + k * oSz) % 2 ^ 64)).withLists lists', ?_, ?_, fun i hi => ?_,
      fun x hxa hx => ?_⟩
    · refine (bind_apply hloop _).trans ?_
      refine (bind_apply (store_apply he _ m₁ H) _).trans ?_
      refine (bind_apply (onLists_apply (m := m₁.withFields e _) hput H) _).trans ?_
      rw [Nat.mod_add_mod, Nat.succ_mul, Nat.add_assoc]
      rfl
    · have hlast : nodesTo entries k ++ [qE e] = nodesTo entries (k + 1) := by
        simp [nodesTo, List.range_succ, e]
      rwa [Function.update_self, putFifo, Function.update_idem, hlast] at hchains'
    · rw [fields_withLists, fields_withFields]
      rcases Nat.lt_succ_iff_lt_or_eq.mp hi with hi | rfl
      · rw [Function.update_of_ne (mt entryAt_inj.mp (Nat.ne_of_lt hi)), hfields i hi]
      · exact Function.update_self ..
    · have hsame := houtside x hxa fun i hi => hx i (Nat.lt_succ_of_lt hi)
      obtain ⟨hxe, hxnode⟩ := hx k (Nat.lt_succ_self k)
      have hput' := hchains.put_same (q := a) (by simp) hnode hput (l := [x]) (by
        rw [List.singleton_disjoint, Function.update_self, List.mem_cons, List.mem_cons, nodesTo,
          List.mem_map]
        rintro (heq | heq | ⟨i, hi, heq⟩)
        · exact hxnode heq
        · exact hxa heq
        · exact (hx i (Nat.lt_succ_of_lt (List.mem_range.mp hi))).2 heq.symm)
      refine hsame.trans ⟨(hput'.2 x (by simp)).1, (hput'.2 x (by simp)).2, congrFun hput'.1 x, ?_⟩
      rw [fields_withLists, fields_withFields, Function.update_of_ne hxe]

/-- The blocks are allocated in the second heap, overlap nothing that is allocated in the first, and
not each other. -/
structure NewBlocks (bs : List Block) (H H' : Heap) : Prop where
  apart : bs.Pairwise Block.Apart
  fresh : ∀ b ∈ bs, ∀ l ∈ H.live, b.Apart l
  live : bs ⊆ H'.live

/-- **What making a pool may do**: a pool that is made has blocks of its own, and nothing is written
where anything is allocated. -/
structure Makes (m : Memory ℕ) (H : Heap) (r : Option Pool) (m' : Memory ℕ) (H' : Heap) : Prop where
  spelled : ∀ P, r = some P → P.Spelled m'
  blocks : ∀ P, r = some P → NewBlocks P.header.blocks H H'
  kept : H.live ⊆ H'.live
  outside : ∀ x, Stored H x → m.SameAt m' x

/-- A new pool, once the loop has filled its entries. -/
theorem spelled_fresh {p pSz oSz mem entries : ℕ} (hmem : mem < 2 ^ 64) (hentries : entries ≠ 0)
    (hc : Queue.Chains m.lists {p + offsetofPoolQ, p + offsetofAvailQ}
      (Function.update (fun _ => []) (p + offsetofPoolQ) (nodesTo entries pSz)))
    (hfields : ∀ i < pSz, m.fields (entryAt entries i) = (mem + i * oSz) % 2 ^ 64) :
    (Pool.fresh p pSz oSz mem entries).Spelled m := by
  rw [Pool.fresh_eq p pSz oSz entries hmem]
  refine ⟨?_, ?_, hentries, fun i hi => ?_⟩
  · have hqueues : Pool.queues ⟨p, pSz, oSz % 2 ^ 16, oSz, entries,
        fun i => if i < pSz then (mem + i * oSz) % 2 ^ 64 else 0, mem, mem,
        (mem + pSz * oSz) % 2 ^ 64, List.range pSz, []⟩ =
          Function.update (fun _ => []) (p + offsetofPoolQ) (nodesTo entries pSz) := by
      funext q
      simp only [Pool.queues, Pool.header, PoolStruct.poolQ, PoolStruct.availQ, List.map_nil]
      by_cases hq : q = p + offsetofAvailQ
      · have hne : p + offsetofAvailQ ≠ p + offsetofPoolQ := by
          simp only [offsetofAvailQ, offsetofPoolQ]
          omega
        rw [hq, Function.update_self, Function.update_of_ne hne]
      · rw [Function.update_of_ne hq]
        rfl
    rw [hqueues]
    exact hc
  · rw [List.append_nil]
  · exact (hfields i hi).trans (if_pos hi).symm

/-- The entries of a new pool lie in a block of their own, and filling them makes it a pool. -/
theorem fillPool_apply (oSz : ℕ) {p n mem e : ℕ} {H₂ : Heap} (hmem : mem < 2 ^ 64)
    (hc : Queue.Chains m.lists {p + offsetofPoolQ, p + offsetofAvailQ} fun _ => [])
    (he : H₂.answer (n * sizeofPoolEntry) = some e)
    (hstruct : ⟨p, sizeofPool⟩ ∈ H₂.live) (H : Heap) :
    ∃ m', fillEntries oSz (p + offsetofPoolQ) e mem n m H =
        some (((mem + n * oSz) % 2 ^ 64, m'), H) ∧
      (Pool.fresh p n oSz mem e).Spelled m' ∧
      ∀ x, Stored H₂ x → x ≠ p + offsetofPoolQ → m.SameAt m' x := by
  have hentries : e ≠ 0 := (Heap.answer_fresh he).1
  have hoff : ∀ x, Stored H₂ x → ∀ i < n, x ≠ entryAt e i ∧ x ≠ qE (entryAt e i) := by
    intro x hx i hi
    constructor <;> rintro rfl <;> refine not_stored_of_answer he ?_ ?_ hx <;>
      simp only [qE, offsetofQE, entryAt, sizeofPoolEntry] <;> omega
  have hheads : ∀ off < sizeofPool, Stored H₂ (p + off) := fun off hlt =>
    ⟨_, hstruct, Nat.le_add_right p off,
      Nat.add_lt_add_left (Nat.lt_of_lt_of_le hlt (Block.size_le_span ⟨p, sizeofPool⟩)) p⟩
  have hne : p + offsetofPoolQ ≠ p + offsetofAvailQ := by simp [offsetofPoolQ, offsetofAvailQ]
  obtain ⟨m', hloop, hchains, hfields, hsame⟩ := fillEntries_apply oSz hne hentries hmem hc
    H n fun i hi => ⟨((hoff _ (hheads _ (by decide)) i hi).2).symm,
      ((hoff _ (hheads _ (by decide)) i hi).2).symm⟩
  exact ⟨m', hloop, spelled_fresh hmem hentries hchains hfields,
    fun x hx hxq => hsame x hxq (hoff x hx)⟩

theorem Makes.none {m' : Memory ℕ} {H H' : Heap} (hkept : H.live ⊆ H'.live)
    (hout : ∀ x, Stored H x → m.SameAt m' x) : Makes m H none m' H' :=
  ⟨fun P hP => absurd hP.symm (Option.some_ne_none P),
    fun P hP => absurd hP.symm (Option.some_ne_none P), hkept, hout⟩

/-- **Making a pool in memory** goes as it does on lists. -/
theorem createPool_apply (pSz oSz : ℕ) (m : Memory ℕ) (H : Heap) : ∃ r m' H',
    Milu.createPool Heap.malloc Heap.free pSz oSz H = some (r, H') ∧
      createPool pSz oSz m H = some ((r.map Pool.header, m'), H') ∧ Makes m H r m' H' := by
  rw [Milu.createPool, createPool]
  set n := pSz % 2 ^ 16
  set size := n * (oSz % 2 ^ 64) % 2 ^ 64
  rw [Heap.malloc_bind, bind_apply (onHeap_apply (Heap.malloc_apply _ H) m)]
  set H₁ := H.afterMalloc sizeofPool
  have hlive₁ : H.live ⊆ H₁.live := Heap.live_subset_afterMalloc H sizeofPool
  cases hp : H.answer sizeofPool with
  | none => exact ⟨none, m, H₁, rfl, rfl, .none hlive₁ fun x _ => .refl m x⟩
  | some p =>
    dsimp only
    obtain ⟨lists₁, lists₂, hq₁, hq₂, hchains, hinit⟩ := initQueues_apply m.lists (p := p)
    have hout : ∀ x, Stored H x → ∀ off < sizeofPool, x ≠ p + off := by
      rintro _ hx off hoff rfl
      exact not_stored_of_answer hp (Nat.le_add_right p off) (Nat.add_lt_add_left hoff p) hx
    have hwritten : ∀ x, Stored H x → m.SameAt (m.withLists lists₂) x := by
      intro x hx
      obtain ⟨hlinks, hmutex⟩ := hinit x (hout x hx _ (by decide)) (hout x hx _ (by decide))
      exact ⟨(hlinks x (by simp)).1, (hlinks x (by simp)).2, hmutex, rfl⟩
    have hfresh := Heap.answer_fresh hp
    have hp_ne : ∀ l ∈ H.live, l.base ≠ p := fun l hl => (hfresh.2.2 l hl).base_ne.symm
    rw [bind_apply (onLists_apply hq₁ H₁),
      bind_apply (onLists_apply (m := m.withLists lists₁) hq₂ H₁), Heap.malloc_bind,
      bind_apply (onHeap_apply (Heap.malloc_apply _ H₁) _)]
    set H₂ := H₁.afterMalloc size
    have hlive₂ : H₁.live ⊆ H₂.live := Heap.live_subset_afterMalloc H₁ size
    cases hmem : H₁.answer size with
    | none =>
      refine ⟨none, _, H₂.afterFree p, rfl, rfl, .none (fun l hl => ?_) hwritten⟩
      exact Heap.mem_live_afterFree (hlive₂ (hlive₁ hl)) (hp_ne l hl)
    | some mem =>
      dsimp only
      have hfresh₁ := Heap.answer_fresh hmem
      have hmem_ne : ∀ l ∈ H.live, l.base ≠ mem :=
        fun l hl => (hfresh₁.2.2 l (hlive₁ hl)).base_ne.symm
      rw [Heap.malloc_bind, bind_apply (onHeap_apply (Heap.malloc_apply _ H₂) _)]
      set H₃ := H₂.afterMalloc (n * sizeofPoolEntry)
      have hlive₃ : H₂.live ⊆ H₃.live := Heap.live_subset_afterMalloc H₂ (n * sizeofPoolEntry)
      cases he : H₂.answer (n * sizeofPoolEntry) with
      | none =>
        refine ⟨none, _, (H₃.afterFree mem).afterFree p, rfl, rfl, .none (fun l hl => ?_) hwritten⟩
        exact Heap.mem_live_afterFree (Heap.mem_live_afterFree (hlive₃ (hlive₂ (hlive₁ hl)))
          (hmem_ne l hl)) (hp_ne l hl)
      | some e =>
        dsimp only
        have hstruct : ⟨p, sizeofPool⟩ ∈ H₂.live := by
          refine hlive₂ ?_
          rw [Heap.afterMalloc_live hp]
          exact List.mem_cons_self
        have hmem_lt : mem < 2 ^ 64 := by
          have := hfresh₁.2.1
          simp only [Heap.addrSpace] at this
          omega
        obtain ⟨m', hloop, hspelled, hsame⟩ := fillPool_apply (m := m.withLists lists₂)
          (oSz % 2 ^ 64) hmem_lt hchains he hstruct H₃
        have hheader : (Pool.fresh p n (oSz % 2 ^ 64) mem e).header = ⟨p, n, oSz % 2 ^ 64 % 2 ^ 16,
            oSz % 2 ^ 64, e, mem, mem, (mem + n * (oSz % 2 ^ 64)) % 2 ^ 64⟩ := by
          rw [Pool.fresh_eq p n (oSz % 2 ^ 64) e hmem_lt, Pool.header]
        refine ⟨some (Pool.fresh p n (oSz % 2 ^ 64) mem e), m', H₃, rfl, ?_, ?_, ?_,
          fun _ hl => hlive₃ (hlive₂ (hlive₁ hl)), fun x hx => ?_⟩
        · refine (bind_apply hloop _).trans ?_
          rw [Option.map_some, hheader]
          rfl
        · intro P hP
          rwa [← Option.some.inj hP]
        · intro P hP
          rw [← Option.some.inj hP, hheader, PoolStruct.blocks]
          refine ⟨?_, fun b hb l hl => ?_, fun b hb => ?_⟩
          · rw [List.pairwise_pair]
            exact ((Heap.answer_fresh he).2.2 _ hstruct).symm
          · rcases List.mem_pair.mp hb with rfl | rfl
            · exact hfresh.2.2 l hl
            · exact (Heap.answer_fresh he).2.2 l (hlive₂ (hlive₁ hl))
          · rcases List.mem_pair.mp hb with rfl | rfl
            · exact hlive₃ hstruct
            · rw [Heap.afterMalloc_live he]
              exact List.mem_cons_self
        · have hx₂ : Stored H₂ x := Covered.mono hx fun _ hl => hlive₂ (hlive₁ hl)
          exact (hwritten x hx).trans (hsame x hx₂ (hout x hx _ (by decide)))

end InMemory

end Milu
