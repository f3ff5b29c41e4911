import Milu.Hashtbl.InMemory

/-!
# What the links of a table spell out

Each head is on a loop with the entries of its bucket. A search reads its way along the loop and
finds what it would find in the list, `list_add` puts an entry in front of the list and
`list_del_init` takes one out, and in no case is anything written into another loop.

## Main definitions

* `HashEntry.node`, `HashTable.head` — where an entry and a bucket are linked
* `InMemory.Chains` — through each head leads a loop with certain entries
* `HashTable.On` — the buckets of a table are among them

## Main results

* `InMemory.Chains.search` — the loop of a lookup
* `InMemory.Chains.listAdd`, `InMemory.Chains.listDelInit` — an entry comes or goes
* `InMemory.Chains.initHeads` — the heads of a new table
-/

namespace Milu

variable {K : Type}

/-- `&e->list`. -/
def HashEntry.node (e : HashEntry K) : ℕ := InMemory.node e.addr

/-- `&h->table[i].list`. -/
def HashTable.head (h : HashTable K) (i : ℕ) : ℕ := InMemory.bucketHead h.tableMem i

theorem HashEntry.node_ne_zero (e : HashEntry K) : e.node ≠ 0 := Nat.succ_ne_zero _

theorem HashEntry.node_sub (e : HashEntry K) : e.node - InMemory.offsetofList = e.addr :=
  Nat.add_sub_cancel ..

theorem HashEntry.node_inj {e t : HashEntry K} : e.node = t.node ↔ e.addr = t.addr :=
  Nat.add_right_cancel_iff

theorem HashTable.head_inj {h : HashTable K} {i j : ℕ} : h.head i = h.head j ↔ i = j := by
  simp only [head, InMemory.bucketHead, InMemory.node, InMemory.offsetofList, sizeofHashEntry]
  omega

theorem HashTable.head_ne_zero (h : HashTable K) (i : ℕ) : h.head i ≠ 0 := Nat.succ_ne_zero _

namespace InMemory

/-! ### Computations -/

section

variable {e : ℕ}

theorem entry_apply (he : e ≠ 0) (m : Memory (Fields K)) (H : Heap) :
    entry e m H = some ((m.entry e, m), H) :=
  bind_apply (load_apply he m H) _

theorem setEntry_apply {e : HashEntry K} (he : e.addr ≠ 0) (m : Memory (Fields K)) (H : Heap) :
    setEntry e m H = some (((), m.setEntry e), H) := store_apply he _ m H

@[simp] theorem entry_withLists (m : Memory (Fields K)) (lists : Queue.Memory) (e : ℕ) :
    (m.withLists lists).entry e = m.entry e := rfl

@[simp] theorem lists_setEntry (m : Memory (Fields K)) (e : HashEntry K) :
    (m.setEntry e).lists = m.lists := rfl

@[simp] theorem entry_setEntry (m : Memory (Fields K)) (e : HashEntry K) :
    (m.setEntry e).entry e.addr = e := by
  simp [Memory.entry, Memory.setEntry]

theorem entry_setEntry_of_ne (m : Memory (Fields K)) {s : HashEntry K} (he : e ≠ s.addr) :
    (m.setEntry s).entry e = m.entry e := by
  simp only [Memory.entry, Memory.setEntry, fields_withFields, Function.update_of_ne he]

end

/-! ### Loops -/

/-- The nodes on the loops. -/
def nodes (σ : ℕ → List (HashEntry K)) : ℕ → List ℕ := List.map HashEntry.node ∘ σ

theorem nodes_update (σ : ℕ → List (HashEntry K)) (q : ℕ) (c : List (HashEntry K)) :
    nodes (Function.update σ q c) = Function.update (nodes σ) q (c.map HashEntry.node) :=
  Function.comp_update ..

/-- Through each head of `hs` leads a loop with the entries that `σ` names, whose structs hold what
they should. No node is on two loops. -/
structure Chains (m : Memory (Fields K)) (hs : Set ℕ) (σ : ℕ → List (HashEntry K)) : Prop where
  loops : m.lists.links.Loops hs (nodes σ)
  entry_eq : ∀ q ∈ hs, ∀ e ∈ σ q, m.entry e.addr = e
  addr_ne : ∀ q ∈ hs, ∀ e ∈ σ q, e.addr ≠ 0
  head_ne : ∀ q ∈ hs, q ≠ 0

/-- The entry is on one of the lists. -/
def OnList (hs : Set ℕ) (σ : ℕ → List (HashEntry K)) (e : HashEntry K) : Prop := ∃ q ∈ hs, e ∈ σ q

theorem onLoop_iff {hs : Set ℕ} {σ : ℕ → List (HashEntry K)} {x : ℕ} :
    Links.OnLoop hs (nodes σ) x ↔ x ∈ hs ∨ ∃ e, OnList hs σ e ∧ e.node = x := by
  constructor
  · rintro ⟨q, hq, hx⟩
    rcases List.mem_cons.mp hx with rfl | hx
    · exact .inl hq
    · obtain ⟨e, he, rfl⟩ := List.mem_map.mp hx
      exact .inr ⟨e, ⟨q, hq, he⟩, rfl⟩
  · rintro (hx | ⟨e, ⟨q, hq, he⟩, rfl⟩)
    · exact ⟨x, hx, List.mem_cons_self⟩
    · exact ⟨q, hq, List.mem_cons_of_mem _ (List.mem_map_of_mem he)⟩

namespace Chains

variable {m : Memory (Fields K)} {H : Heap} {hs : Set ℕ} {σ : ℕ → List (HashEntry K)} {q : ℕ}
  {e : HashEntry K}

theorem on_loop (hq : q ∈ hs) (he : e ∈ σ q) : Links.OnLoop hs (nodes σ) e.node :=
  onLoop_iff.mpr (.inr ⟨e, ⟨q, hq, he⟩, rfl⟩)

theorem subset (h : Chains m hs σ) {hs' : Set ℕ} (hsub : hs' ⊆ hs) : Chains m hs' σ :=
  ⟨⟨fun q hq => h.loops.loop q (hsub hq), fun q hq q' hq' =>
    h.loops.apart q (hsub hq) q' (hsub hq')⟩,
    fun q hq => h.entry_eq q (hsub hq), fun q hq => h.addr_ne q (hsub hq),
    fun q hq => h.head_ne q (hsub hq)⟩

theorem node_ne (h : Chains m hs σ) (hq : q ∈ hs) {x : ℕ} (hx : x ∈ q :: nodes σ q) : x ≠ 0 := by
  rcases List.mem_cons.mp hx with rfl | hx
  · exact h.head_ne _ hq
  · obtain ⟨e, -, rfl⟩ := List.mem_map.mp hx
    exact e.node_ne_zero

theorem node_ne_head (h : Chains m hs σ) (hq : q ∈ hs) (he : e ∈ σ q) {q' : ℕ} (hq' : q' ∈ hs) :
    e.node ≠ q' := by
  have hnode : e.node ∈ nodes σ q := List.mem_map_of_mem he
  by_cases hne : q = q'
  · rw [← hne]
    exact ne_of_mem_of_not_mem hnode (List.nodup_cons.mp (h.loops.loop q hq).nodup).1
  · rintro heq
    exact h.loops.apart q hq q' hq' hne (List.mem_cons_of_mem _ hnode) (heq ▸ List.mem_cons_self)

/-- No struct is linked twice. -/
theorem addr_nodup (h : Chains m hs σ) (hq : q ∈ hs) : ((σ q).map HashEntry.addr).Nodup := by
  have hnodup := (List.nodup_cons.mp (h.loops.loop q hq).nodup).2
  refine List.Nodup.of_map node ?_
  rw [List.map_map]
  exact hnodup

/-- Structs that are not linked may be written to. -/
theorem setEntry (h : Chains m hs σ) (he : ¬ Links.OnLoop hs (nodes σ) e.node) :
    Chains (m.setEntry e) hs σ := by
  refine ⟨h.loops, fun q hq t ht => ?_, h.addr_ne, h.head_ne⟩
  have hne : t.addr ≠ e.addr := fun hc => he (HashEntry.node_inj.mpr hc ▸ on_loop hq ht)
  rw [entry_setEntry_of_ne m hne, h.entry_eq q hq t ht]

/-! ### Searching -/

/-- The node after the head, or after an entry. -/
def firstNode (q : ℕ) : List (HashEntry K) → ℕ
  | [] => q
  | e :: _ => e.node

theorem next_of_path {links : Links ℕ} {p : ℕ} : ∀ {c : List (HashEntry K)},
    links.Path p (c.map HashEntry.node) q → links.next p = firstNode q c
  | [], h => h.1
  | _ :: _, h => h.1.1

theorem next_head (h : Chains m hs σ) (hq : q ∈ hs) :
    m.lists.links.next q = firstNode q (σ q) :=
  next_of_path (h.loops.loop q hq).path

theorem next_node (h : Chains m hs σ) (hq : q ∈ hs) {pre c : List (HashEntry K)}
    (hσ : σ q = pre ++ e :: c) : m.lists.links.next e.node = firstNode q c := by
  have hpath := (h.loops.loop q hq).path
  rw [nodes, Function.comp_apply, hσ, List.map_append, List.map_cons,
    Links.Path.append_iff] at hpath
  exact next_of_path hpath.2

/-- **The loop of a lookup**, at the first entry of what is left of a chain, finds what it would
find in the list. -/
theorem lookupLoop (h : Chains m hs σ) (hq : q ∈ hs) (accepts : HashEntry K → Bool) :
    ∀ {c pre : List (HashEntry K)} {fuel : ℕ}, σ q = pre ++ c → c.length < fuel →
      InMemory.lookupLoop q accepts fuel (firstNode q c) m H =
        some (((c.find? accepts).elim 0 HashEntry.addr, m), H)
  | [], _, fuel + 1, _, _ => by
    rw [firstNode, InMemory.lookupLoop, if_pos rfl]
    rfl
  | e :: c, pre, fuel + 1, hσ, hfuel => by
    have he : e ∈ σ q := hσ ▸ List.mem_append_right _ List.mem_cons_self
    rw [firstNode, InMemory.lookupLoop, if_neg (h.node_ne_head hq he hq), HashEntry.node_sub]
    rw [bind_apply (entry_apply (h.addr_ne q hq e he) m H), h.entry_eq q hq e he]
    cases ha : accepts e with
    | true =>
      rw [if_pos rfl, List.find?_cons_of_pos ha]
      rfl
    | false =>
      rw [if_neg Bool.false_ne_true, List.find?_cons_of_neg (by simp [ha]),
        bind_apply (next_apply e.node_ne_zero m H), h.next_node hq hσ]
      have hσ' : σ q = (pre ++ [e]) ++ c := by rw [hσ, List.append_assoc, List.singleton_append]
      exact lookupLoop h hq accepts hσ' (Nat.lt_of_succ_lt_succ hfuel)

/-- **A search** of a whole chain. -/
theorem search (h : Chains m hs σ) (hq : q ∈ hs) (accepts : HashEntry K → Bool) {fuel : ℕ}
    (hfuel : (σ q).length < fuel) :
    (do let pos ← onLists (Queue.next q)
        InMemory.lookupLoop q accepts fuel pos : LinkM (Fields K) ℕ) m H =
      some ((((σ q).find? accepts).elim 0 HashEntry.addr, m), H) := by
  rw [bind_apply (next_apply (h.head_ne q hq) m H), h.next_head hq]
  exact h.lookupLoop hq accepts (List.nil_append _).symm hfuel

/-! ### Linking and unlinking -/

/-- Linking and unlinking write to no struct. -/
theorem of_loops (h : Chains m hs σ) {lists : Queue.Memory} {c : List (HashEntry K)}
    (hloops : lists.links.Loops hs (nodes (Function.update σ q c)))
    (hc : ∀ e ∈ c, m.entry e.addr = e ∧ e.addr ≠ 0) :
    Chains (m.withLists lists) hs (Function.update σ q c) := by
  have hall : ∀ q' ∈ hs, ∀ e ∈ Function.update σ q c q', m.entry e.addr = e ∧ e.addr ≠ 0 := by
    intro q' hq' e he
    by_cases hne : q' = q
    · rw [hne, Function.update_self] at he
      exact hc e he
    · rw [Function.update_of_ne hne] at he
      exact ⟨h.entry_eq q' hq' e he, h.addr_ne q' hq' e he⟩
  exact ⟨hloops, fun q' hq' e he => (hall q' hq' e he).1, fun q' hq' e he => (hall q' hq' e he).2,
    h.head_ne⟩

/-- **An entry comes** to the front of a chain. -/
theorem listAdd (h : Chains m hs σ) (hq : q ∈ hs) (hnew : ¬ Links.OnLoop hs (nodes σ) e.node)
    (hentry : m.entry e.addr = e) (haddr : e.addr ≠ 0) (H : Heap) :
    ∃ lists, (onLists (Queue.listAdd e.node q) : LinkM (Fields K) Unit) m H =
        some (((), m.withLists lists), H) ∧
      Chains (m.withLists lists) hs (Function.update σ q (e :: σ q)) := by
  obtain ⟨hloops, -⟩ := h.loops.insert_first hq hnew
  have hnext := h.node_ne hq (h.loops.loop q hq).next_mem
  refine ⟨_, onLists_apply (Queue.listAdd_apply e.node_ne_zero (h.head_ne q hq) hnext) H,
    h.of_loops ?_ fun t ht => ?_⟩
  · rw [nodes_update]
    exact hloops
  · rcases List.mem_cons.mp ht with rfl | ht
    · exact ⟨hentry, haddr⟩
    · exact ⟨h.entry_eq q hq t ht, h.addr_ne q hq t ht⟩

/-- **An entry goes**, wherever it is on its chain, and is on none then. -/
theorem listDelInit (h : Chains m hs σ) (hq : q ∈ hs) {l₁ l₂ : List (HashEntry K)}
    (hσ : σ q = l₁ ++ e :: l₂) (H : Heap) :
    ∃ lists, (onLists (Queue.listDelInit e.node) : LinkM (Fields K) Unit) m H =
        some (((), m.withLists lists), H) ∧
      Chains (m.withLists lists) hs (Function.update σ q (l₁ ++ l₂)) ∧
      ¬ Links.OnLoop hs (nodes (Function.update σ q (l₁ ++ l₂))) e.node := by
  have he : e ∈ σ q := hσ ▸ List.mem_append_right _ List.mem_cons_self
  have hnodes : nodes σ q = l₁.map HashEntry.node ++ e.node :: l₂.map HashEntry.node := by
    rw [nodes, Function.comp_apply, hσ, List.map_append, List.map_cons]
  obtain ⟨hloops, -, hout⟩ := h.loops.remove hq hnodes
  obtain ⟨hnext, hprev⟩ := (h.loops.loop q hq).links_mem
    (List.mem_cons_of_mem q (List.mem_map_of_mem he))
  rw [← List.map_append, ← nodes_update] at hloops hout
  refine ⟨_, onLists_apply (Queue.listDelInit_apply e.node_ne_zero (h.node_ne hq hprev)
    (h.node_ne hq hnext)) H, h.of_loops ?_ fun t ht => ?_, hout⟩
  · -- the links of the entry itself are written last, and it is on no loop any more
    refine hloops.congr fun q' hq' => ?_
    have hoff := fun hc => hout ⟨q', hq', hc⟩
    exact (Links.SameOn.setNext hoff).trans (Links.SameOn.setPrev hoff)
  · have ht' : t ∈ σ q := by
      rw [hσ]
      exact ((List.sublist_cons_self e l₂).append_left l₁).subset ht
    exact ⟨h.entry_eq q hq t ht', h.addr_ne q hq t ht'⟩

end Chains

end InMemory

open InMemory (Chains nodes)

/-! ### Tables -/

namespace HashTable

/-- `struct hash_table`, without what is in the array. -/
def header (h : HashTable K) : InMemory.Table K :=
  ⟨h.tableMem, h.buckets, h.bucketLocks, h.myHashFn, h.keycmp, h.resizeThreshold, h.usedBuckets⟩

/-- The buckets of the table are among the lists. -/
def On (h : HashTable K) (hs : Set ℕ) (σ : ℕ → List (HashEntry K)) : Prop :=
  ∀ i < h.buckets, h.head i ∈ hs ∧ σ (h.head i) = h.table i

variable {h : HashTable K} {hs : Set ℕ} {σ : ℕ → List (HashEntry K)} {i q : ℕ}
  {c : List (HashEntry K)}

theorem On.update (hon : h.On hs σ) (i : ℕ) (c : List (HashEntry K)) :
    (h.withTable (Function.update h.table i c)).On hs (Function.update σ (h.head i) c) := by
  intro j hj
  refine ⟨(hon j hj).1, ?_⟩
  show Function.update σ (h.head i) c (h.head j) = Function.update h.table i c j
  by_cases hji : j = i
  · rw [hji, Function.update_self, Function.update_self]
  · rw [Function.update_of_ne hji, Function.update_of_ne (mt head_inj.mp hji), (hon j hj).2]

end HashTable

end Milu
