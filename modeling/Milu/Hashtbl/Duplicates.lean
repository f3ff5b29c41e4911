import Milu.Hashtbl.Refinement

/-!
# Several entries under one key

The table accepts a key that is already present. `list_add` puts the new entry in front of the old
ones, so a lookup answers with the entry inserted last. A resize walks each chain from its front and
puts every entry in front of its new chain, which turns the order of equal keys around: the lookup
now answers with the entry inserted *first*, and the next resize turns it around again.

An entry whose key the deletion refuses is not moved at all, and a later entry with the same key
makes the walk move the first of them instead. So a resize moves as many entries under a key as
there are valid ones, and it takes them from the front.

## Main results

* `passChain_under` — what the walk moves of the entries under one key
* `lookup_eq_head?`, `HashTable.Rebuilt.lookup_eq_getLast?` — what a lookup answers before and after
  a resize
* `resize_lookup_iff` — when the answer survives a resize
-/

namespace Milu

variable {K : Type}

/-- The entries of the table under a key of a given length, in the order of a walk. -/
def HashTable.under [DecidableEq K] (h : HashTable K) (key : K) (len : ℕ) : List (HashEntry K) :=
  h.entries.filter fun e => e.klen = len ∧ e.key = key

section

variable [DecidableEq K] {h : HashTable K} (hcmp : ∀ a b n, h.keycmp a b n = 0 ↔ a = b)

include hcmp

/-- The search predicate of a lookup, for an exact comparator. -/
theorem lookup_eq_find? (key : K) (len : ℕ) :
    hashTableLookupKey h key len = (h.table (hashTableHashCode h key len)).find? fun e =>
      e.klen = len ∧ e.key = key := by
  refine congrArg (List.find? · _) (funext fun e => ?_)
  rw [Bool.eq_iff_iff, Bool.and_eq_true, beq_iff_eq, beq_iff_eq, decide_eq_true_iff, hcmp]

/-- **Before the resize** the answer is the first entry under the key. -/
theorem lookup_eq_head? (hp : h.Placed) (key : K) (len : ℕ) :
    hashTableLookupKey h key len = (h.under key len).head? := by
  have hother : ∀ i, i ≠ hashTableHashCode h key len → ∀ e ∈ h.table i,
      decide (e.klen = len ∧ e.key = key) = false := by
    intro i hi e he
    refine decide_eq_false ?_
    rintro ⟨rfl, rfl⟩
    exact hi (hp.home_eq i e he).symm
  rw [lookup_eq_find? hcmp, HashTable.under, HashTable.entries,
    filter_flatMap_range (HashTable.hashCode_lt hp.buckets_pos key len) hother, List.head?_filter]

omit hcmp in
/-- The new chain of a key, cut down to the key, is what was moved, backwards. -/
theorem HashTable.Rebuilt.filter_table {C : Clib K} {h' : HashTable K} {moved : List (HashEntry K)}
    (hm : HashTable.Rebuilt C h h' moved) (key : K) (len : ℕ) :
    (h'.table (hashTableHashCode h' key len)).filter (fun e => e.klen = len ∧ e.key = key) =
      (moved.filter fun e => e.klen = len ∧ e.key = key).reverse := by
  rw [hm.table_eq, List.filter_reverse, List.filter_filter]
  refine congrArg _ (List.filter_congr fun e _ => ?_)
  rw [Bool.eq_iff_iff, Bool.and_eq_true, decide_eq_true_iff, beq_iff_eq]
  constructor
  · exact fun hboth => hboth.1
  · rintro ⟨rfl, rfl⟩
    exact ⟨⟨rfl, rfl⟩, rfl⟩

/-- **After the resize** the answer is the last entry moved under the key. -/
theorem HashTable.Rebuilt.lookup_eq_getLast? {C : Clib K} {h' : HashTable K}
    {moved : List (HashEntry K)} (hm : HashTable.Rebuilt C h h' moved) (key : K) (len : ℕ) :
    hashTableLookupKey h' key len =
      (moved.filter fun e => e.klen = len ∧ e.key = key).getLast? := by
  have hcmp' : ∀ a b n, h'.keycmp a b n = 0 ↔ a = b := by
    rw [hm.keycmp]
    exact hcmp
  rw [lookup_eq_find? hcmp', ← List.head?_filter, hm.filter_table, List.head?_reverse]

end

/-! ### What is moved -/

section

variable {keycmp : K → K → ℕ → ℤ} (hcmp : ∀ a b n, keycmp a b n = 0 ↔ a = b)

include hcmp

theorem matchesKey_iff (e t : HashEntry K) :
    matchesKey keycmp e t = true ↔ t.klen = e.klen ∧ t.key = e.key := by
  rw [matchesKey, Bool.and_eq_true, beq_iff_eq, beq_iff_eq, hcmp]

/-- Passing one entry: of the entries under a key, the front one is moved when the entry passed is
one of them and valid, and none otherwise. -/
theorem passEntry_under {s : List (HashEntry K)} {e : HashEntry K}
    (hn : ((s ++ [e]).map HashEntry.addr).Nodup) {p : HashEntry K → Bool} {key : K} {len : ℕ}
    (hp : ∀ t, p t = true ↔ t.klen = len ∧ t.key = key) :
    (passEntry keycmp s e).2.filter p ++ (passEntry keycmp s e).1.filter p = (s ++ [e]).filter p ∧
      ((passEntry keycmp s e).2.filter p).length =
        ([e].filter fun t => p t && decide t.Valid).length := by
  rcases passEntry_cases hn ((hcmp e.key e.key e.klen).mpr rfl) with
    ⟨hv, hpass⟩ | ⟨hv, t, l₁, l₂, hsplit, ht, hl₁, hpass⟩
  · rw [hpass]
    refine ⟨rfl, ?_⟩
    rw [List.filter_cons_of_neg (by simp [hv])]
    rfl
  · rw [hpass, hsplit]
    have hte := (matchesKey_iff hcmp e t).mp ht
    constructor
    · by_cases hpe : p e = true
      · have hnil : l₁.filter p = [] := by
          refine List.filter_eq_nil_iff.mpr fun u hu hpu => ?_
          have hue : matchesKey keycmp e u = true := (matchesKey_iff hcmp e u).mpr
            ⟨((hp u).mp hpu).1.trans ((hp e).mp hpe).1.symm,
              ((hp u).mp hpu).2.trans ((hp e).mp hpe).2.symm⟩
          rw [hl₁ u hu] at hue
          exact Bool.false_ne_true hue
        have hpt : p t = true :=
          (hp t).mpr ⟨hte.1.trans ((hp e).mp hpe).1, hte.2.trans ((hp e).mp hpe).2⟩
        rw [List.filter_append, List.filter_append, hnil, List.filter_cons_of_pos hpt,
          List.filter_cons_of_pos hpt]
        rfl
      · have hpt : ¬ p t = true := fun hpt =>
          hpe ((hp e).mpr ⟨hte.1.symm.trans ((hp t).mp hpt).1, hte.2.symm.trans ((hp t).mp hpt).2⟩)
        rw [List.filter_append, List.filter_append, List.filter_cons_of_neg hpt,
          List.filter_cons_of_neg hpt]
        rfl
    · have hpet : p t = p e := by
        rw [Bool.eq_iff_iff, hp, hp, hte.1, hte.2]
      by_cases hpe : p e = true
      · rw [List.filter_cons_of_pos (hpet ▸ hpe), List.filter_cons_of_pos (by simp [hpe, hv])]
        rfl
      · rw [List.filter_cons_of_neg (hpet ▸ hpe), List.filter_cons_of_neg (by simp [hpe])]
        rfl

/-- **Passing a chain** splits the entries under a key into a front part, which is moved, and the
rest, which is left behind. The front part is as long as there are valid entries under the key. -/
theorem passChain_under {p : HashEntry K → Bool} {key : K} {len : ℕ}
    (hp : ∀ t, p t = true ↔ t.klen = len ∧ t.key = key) :
    ∀ {c s : List (HashEntry K)}, ((s ++ c).map HashEntry.addr).Nodup →
      (passChain keycmp s c).2.filter p ++ (passChain keycmp s c).1.filter p = (s ++ c).filter p ∧
        ((passChain keycmp s c).2.filter p).length =
          (c.filter fun t => p t && decide t.Valid).length
  | [], s, _ => by
    rw [passChain, List.append_nil]
    exact ⟨rfl, rfl⟩
  | e :: c, s, hn => by
    rw [← List.singleton_append, ← List.append_assoc] at hn
    have hn₁ : ((s ++ [e]).map HashEntry.addr).Nodup :=
      hn.sublist ((List.sublist_append_left _ c).map _)
    obtain ⟨hsplit, hlen⟩ := passEntry_under hcmp hn₁ hp
    have hperm := passEntry_perm hn₁ ((hcmp e.key e.key e.klen).mpr rfl)
    have hn₂ : (((passEntry keycmp s e).1 ++ c).map HashEntry.addr).Nodup := by
      have hnew := ((hperm.append_right c).map HashEntry.addr).nodup_iff.mpr hn
      rw [List.append_assoc] at hnew
      exact hnew.sublist ((List.sublist_append_right _ _).map _)
    obtain ⟨ihsplit, ihlen⟩ := passChain_under hp hn₂
    rw [passChain]
    constructor
    · rw [List.filter_append, List.append_assoc, ihsplit, List.filter_append, ← List.append_assoc,
        hsplit, ← List.filter_append, List.append_assoc, List.singleton_append]
    · rw [List.filter_append, List.length_append, hlen, ihlen, ← List.length_append,
        ← List.filter_append, List.singleton_append]

end

/-- Of the entries under a key, in the order of a walk, a resize moves a front part, as long as
there are valid ones among them. -/
theorem HashTable.Placed.moved_under [DecidableEq K] {h : HashTable K} (hp : h.Placed)
    (hcmp : ∀ a b n, h.keycmp a b n = 0 ↔ a = b) (key : K) (len : ℕ) :
    ∃ left, ((h.movedFrom (List.range h.buckets)).filter fun e => e.klen = len ∧ e.key = key) ++
        left = h.under key len ∧
      ((h.movedFrom (List.range h.buckets)).filter fun e => e.klen = len ∧ e.key = key).length =
        ((h.under key len).filter fun e => e.Valid).length := by
  set p : HashEntry K → Bool := fun e => e.klen = len ∧ e.key = key with hpdef
  have hpiff : ∀ t, p t = true ↔ t.klen = len ∧ t.key = key := fun t => decide_eq_true_iff
  set n := hashTableHashCode h key len
  have hn : n < h.buckets := HashTable.hashCode_lt hp.buckets_pos key len
  have hother : ∀ i, i ≠ n → ∀ e ∈ h.table i, p e = false := by
    intro i hi e he
    refine decide_eq_false ?_
    rintro ⟨rfl, rfl⟩
    exact hi (hp.home_eq i e he).symm
  have hchain : ∀ i, _ := fun i => passChain_under hcmp hpiff (s := []) (c := h.table i)
    (hp.chain_nodup i)
  have hmoved : ∀ i, i ≠ n → ∀ e ∈ (passChain h.keycmp [] (h.table i)).2, p e = false := by
    intro i hi e he
    have hnil : (h.table i).filter p = [] :=
      List.filter_eq_nil_iff.mpr fun t ht => by simp [hother i hi t ht]
    have hboth := (hchain i).1
    rw [List.nil_append, hnil, List.append_eq_nil_iff] at hboth
    simpa using List.filter_eq_nil_iff.mp hboth.1 e he
  have hunder : h.under key len = (h.table n).filter p := filter_flatMap_range hn hother
  have hfilter : (h.movedFrom (List.range h.buckets)).filter p =
      (passChain h.keycmp [] (h.table n)).2.filter p := filter_flatMap_range hn hmoved
  refine ⟨(passChain h.keycmp [] (h.table n)).1.filter p, ?_, ?_⟩
  · rw [hfilter, hunder]
    exact (hchain n).1
  · rw [hfilter, hunder, (hchain n).2, List.filter_filter]
    exact congrArg List.length (List.filter_congr fun e _ => Bool.and_comm _ _)

/-- The head at which a lookup in the rebuilt table looks is set up. -/
theorem HashTable.Rebuilt.reaches_key {C : Clib K} {h h' : HashTable K} {moved : List (HashEntry K)}
    (hm : HashTable.Rebuilt C h h' moved) (key : K) (len : ℕ) :
    hashTableHashCode h' key len < h'.heads ↔
      h.myHashFn key len % hashtblSz C (h.resizeThreshold * 2 % 2 ^ 32) % 2 ^ 32 <
        (hashtblSz C (h.resizeThreshold * 2 % 2 ^ 32) - 1) % 2 ^ 32 + 1 := by
  rw [hashTableHashCode, HashTable.heads, hm.hashFn, hm.buckets]

/-- **When a resize keeps the answer of a lookup**: exactly when the lookup comes to a head that is
set up, and no entry has the key, or exactly one of the entries with the key is valid. -/
theorem resize_lookup_iff [DecidableEq K] (C : Clib K) {h h' : HashTable K} (hp : h.Placed)
    (hcmp : ∀ a b n, h.keycmp a b n = 0 ↔ a = b) {H H' : Heap}
    (hres : hashTableResize C h H = some ((0, h'), H')) (key : K) (len : ℕ) :
    hashTableHashCode h' key len < h'.heads ∧
        hashTableLookupKey h' key len = hashTableLookupKey h key len ↔
      h.myHashFn key len % hashtblSz C (h.resizeThreshold * 2 % 2 ^ 32) % 2 ^ 32 <
          (hashtblSz C (h.resizeThreshold * 2 % 2 ^ 32) - 1) % 2 ^ 32 + 1 ∧
        (h.under key len = [] ∨ ((h.under key len).filter fun e => e.Valid).length = 1) := by
  have hm : HashTable.Rebuilt C h h' (h.movedFrom (List.range h.buckets)) := by
    rcases hashTableResize_cases hp (fun e _ => (hcmp _ _ _).mpr rfl) hres with
      ⟨hret, -⟩ | ⟨-, -, hm⟩
    · simp at hret
    · exact hm
  obtain ⟨left, hsplit, hlen⟩ := hp.moved_under hcmp key len
  have hnodup : (h.under key len).Nodup := hp.entries_nodup.filter _
  rw [hm.lookup_eq_getLast? hcmp, lookup_eq_head? hcmp hp, ← hlen, ← hsplit]
  rw [← hsplit] at hnodup
  exact and_congr (hm.reaches_key key len) (getLast?_eq_head?_iff hnodup)

/-- `sampleTable` after two inserts under the key `5`. -/
def twiceTable : HashTable ℕ :=
  hashTableInsert (hashTableInsert sampleTable ⟨100, 5, 8, false⟩) ⟨200, 5, 8, false⟩

theorem twiceTable_placed : twiceTable.Placed := by
  have hempty : sampleTable.Placed :=
    (represents_fresh Clib.nearest 40 8 (fun a b => by omega) _ _ _).placed
  have hone : (hashTableInsert sampleTable ⟨100, 5, 8, false⟩).Placed :=
    hempty.listAdd (e := ⟨100, 5, 8, false⟩) (by decide)
  exact hone.listAdd (e := ⟨200, 5, 8, false⟩) (by decide)

theorem twiceTable_keycmp (a b n : ℕ) : twiceTable.keycmp a b n = 0 ↔ a = b := by
  show (a : ℤ) - b = 0 ↔ a = b
  omega

/-- A resize of `twiceTable`, and the struct a lookup answers with afterwards. -/
theorem twiceTable_resize : ∃ h' H',
    hashTableResize Clib.nearest twiceTable tightHeap = some ((0, h'), H') ∧
      (hashTableLookupKey h' 5 8).map HashEntry.addr = some 100 := by
  have hrun : (hashTableResize Clib.nearest twiceTable tightHeap).map (fun p =>
      (p.1.1, (hashTableLookupKey p.1.2 5 8).map HashEntry.addr)) = some (0, some 100) := by
    decide +kernel
  obtain ⟨⟨⟨ret, h'⟩, H'⟩, hres, hp⟩ := Option.map_eq_some_iff.mp hrun
  rw [Prod.mk.injEq] at hp
  obtain ⟨rfl, hl⟩ := hp
  exact ⟨h', H', hres, hl⟩

theorem resize_lookup_iff_twice : ∃ h' H',
    hashTableResize Clib.nearest twiceTable tightHeap = some ((0, h'), H') ∧
      (∀ key len, hashTableHashCode h' key len < h'.heads ∧
          hashTableLookupKey h' key len = hashTableLookupKey twiceTable key len ↔
        (twiceTable.under key len = [] ∨
          ((twiceTable.under key len).filter fun e => e.Valid).length = 1)) ∧
      (twiceTable.under 5 8).length = 2 ∧ twiceTable.under 6 8 = [] := by
  obtain ⟨h', H', hres, -⟩ := twiceTable_resize
  refine ⟨h', H', hres, fun key len => ?_, by decide, by decide⟩
  refine (resize_lookup_iff Clib.nearest twiceTable_placed twiceTable_keycmp hres key len).trans
    (and_iff_right ?_)
  show key % 193 % 2 ^ 32 < 193
  omega

/-- The lookup that answered with the struct at `200` answers with another one after a resize. -/
theorem resize_changes_lookup : twiceTable.Placed ∧
    (∀ a b n, twiceTable.keycmp a b n = 0 ↔ a = b) ∧
    (hashTableLookupKey twiceTable 5 8).map HashEntry.addr = some 200 ∧
      ∃ h' H', hashTableResize Clib.nearest twiceTable tightHeap = some ((0, h'), H') ∧
        hashTableLookupKey h' 5 8 ≠ hashTableLookupKey twiceTable 5 8 := by
  have hbefore : (hashTableLookupKey twiceTable 5 8).map HashEntry.addr = some 200 := by decide
  obtain ⟨h', H', hres, hl⟩ := twiceTable_resize
  refine ⟨twiceTable_placed, twiceTable_keycmp, hbefore, h', H', hres, fun hsame => ?_⟩
  rw [hsame, hbefore] at hl
  simp at hl

end Milu
