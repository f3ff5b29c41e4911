import Milu.Hashtbl.Placement

/-!
# What a resize does

`hash_table_resize` walks the old table with a saved successor, deletes each entry *by its key* and
inserts what was deleted at the front of its new chain. Two things could go wrong: the search could
hit another entry than the one the walk stands on, and the walk could be left on an unlinked entry.

The walk is never derailed. The search starts at the front of the chain the key hashes to, which by
the placement invariant is the chain the walk is on, and the entry the walk stands on matches its
own key; so what is unlinked lies at or before that entry, and the saved successor stays linked.

The search does hit another entry when the walk has left one with an equal key behind, which it does
only for keys the deletion refuses. When it refuses none, every entry is the first of its chain as
the walk reaches it, and the search returns that entry.

## Main definitions

* `passEntry`, `passChain` — what the walk moves, and what it leaves behind
* `HashTable.takeOver` — what the table takes over from the auxiliary one
* `HashTable.Rebuilt` — the table after a successful resize, chain by chain
* `HashTable.Migrated` — the same, when every entry was moved

## Main results

* `migrateEntry_spec`, `forEachSafe_migrate_chain`, `forEachSafe_migrate` — the body of the loop,
  the inner loop, the whole walk
* `hashTableResize_inversion`, `hashTableInsertSafe_inversion` — what a resize and an insert that
  return have done, in any table
* `hashTableResize_spec`, `hashTableResize_cases` — a resize fails and changes nothing, or rebuilds
  the table from what it moved
* `hashTableInsertSafe_cases` — an insert, with whatever it does to the table first
-/

namespace Milu

variable {K : Type}

/-! ### Successors -/

theorem chainNext_of_notMem (i : ℕ) {a : ℕ} : ∀ {c : List (HashEntry K)},
    (∀ t ∈ c, t.addr ≠ a) → chainNext i a c = none
  | [], _ => rfl
  | t :: c, h => by
    rw [chainNext, if_neg (h t (List.mem_cons_self ..)),
      chainNext_of_notMem i fun s hs => h s (List.mem_cons_of_mem _ hs)]

theorem chainNext_append (i : ℕ) {e : HashEntry K} {post : List (HashEntry K)} :
    ∀ {pre : List (HashEntry K)}, (∀ t ∈ pre, t.addr ≠ e.addr) →
      chainNext i e.addr (pre ++ e :: post) = some (Pos.first i post)
  | [], _ => by
    rw [List.nil_append, chainNext, if_pos rfl]
  | t :: pre, h => by
    rw [List.cons_append, chainNext, if_neg (h t (List.mem_cons_self ..)),
      chainNext_append i fun s hs => h s (List.mem_cons_of_mem _ hs)]

/-- The successor of a linked entry is what follows it on its chain, when no struct is linked
twice. -/
theorem HashTable.next_node {h : HashTable K} (hn : (h.entries.map HashEntry.addr).Nodup) {i : ℕ}
    (hi : i < h.buckets) {e : HashEntry K} {pre post : List (HashEntry K)}
    (hc : h.table i = pre ++ e :: post) : h.next (.node e) = some (Pos.first i post) := by
  have hparts := ((h.entries_perm_chain hi).map HashEntry.addr).nodup_iff.mp hn
  rw [List.map_append, List.nodup_append', hc, List.map_append, List.map_cons,
    List.nodup_middle, List.nodup_cons] at hparts
  obtain ⟨⟨hchain, -⟩, -, hdisjoint⟩ := hparts
  have hpre : ∀ t ∈ pre, t.addr ≠ e.addr := fun t ht hta =>
    hchain (List.mem_append_left _ (List.mem_map.mpr ⟨t, ht, hta⟩))
  have hother : ∀ j ∈ List.range h.buckets, j ≠ i → chainNext j e.addr (h.table j) = none := by
    intro j hj hji
    refine chainNext_of_notMem j fun t ht hta => hdisjoint (a := e.addr) (by simp) ?_
    rw [← hta]
    refine List.mem_map_of_mem (List.mem_flatMap.mpr ⟨j, ?_, ht⟩)
    exact (List.mem_erase_of_ne hji).mpr hj
  have hhere : chainNext i e.addr (h.table i) = some (Pos.first i post) := by
    rw [hc, chainNext_append i hpre]
  rw [HashTable.next]
  refine List.findSome?_eq_some_iff.mpr ?_
  obtain ⟨l₁, l₂, hsplit⟩ := List.append_of_mem (List.mem_range.mpr hi)
  refine ⟨l₁, i, l₂, hsplit, hhere, fun j hj => hother j (hsplit ▸ List.mem_append_left _ hj) ?_⟩
  rintro rfl
  have hrange := List.nodup_range (n := h.buckets)
  rw [hsplit, List.nodup_middle, List.nodup_cons] at hrange
  exact hrange.1 (List.mem_append_left _ hj)

theorem HashTable.Placed.next_node {h : HashTable K} (hp : h.Placed) {i : ℕ} {e : HashEntry K}
    {pre post : List (HashEntry K)} (hc : h.table i = pre ++ e :: post) :
    h.next (.node e) = some (Pos.first i post) :=
  HashTable.next_node hp.nodup (hp.lt_buckets (e := e) (by simp [hc])) hc

/-- The step of a walk along bucket `i`: from the first entry of what is left of the chain to what
comes after. -/
theorem HashTable.Placed.next_first {h : HashTable K} (hp : h.Placed) {i : ℕ}
    {s : List (HashEntry K)} : ∀ {c : List (HashEntry K)}, h.table i = s ++ c → c ≠ [] →
      h.next (Pos.first i c) = some (Pos.first i c.tail)
  | [], _, hne => absurd rfl hne
  | _ :: _, hc, _ => hp.next_node hc

/-! ### One entry -/

/-- The comparator returns zero on every linked key and itself. -/
def HashTable.Reflexive (h : HashTable K) : Prop := ∀ e ∈ h.entries, h.keycmp e.key e.key e.klen = 0

/-- What the search of `hash_table_lookup_key` for the key of `e` accepts. -/
def matchesKey (keycmp : K → K → ℕ → ℤ) (e t : HashEntry K) : Bool :=
  t.klen == e.klen && keycmp t.key e.key t.klen == 0

/-- The walk passes the entry `e`, having left the entries `s` behind on the chain: what is left
behind now, and what was moved to the new table. An entry the deletion refuses stays; otherwise the
first entry with that key goes, be it `e` or one left behind before. -/
def passEntry (keycmp : K → K → ℕ → ℤ) (s : List (HashEntry K)) (e : HashEntry K) :
    List (HashEntry K) × List (HashEntry K) :=
  if e.Valid then
    match (s ++ [e]).find? (matchesKey keycmp e) with
    | none => (s ++ [e], [])
    | some t => ((s ++ [e]).eraseP fun u => u.addr == t.addr, [t])
  else (s ++ [e], [])

/-- The walk passes a whole chain. -/
def passChain (keycmp : K → K → ℕ → ℤ) :
    List (HashEntry K) → List (HashEntry K) → List (HashEntry K) × List (HashEntry K)
  | s, [] => (s, [])
  | s, e :: c =>
    let p := passEntry keycmp s e
    let q := passChain keycmp p.1 c
    (q.1, p.2 ++ q.2)

theorem eraseP_addr_middle {t : HashEntry K} {l₁ l₂ : List (HashEntry K)}
    (hn : ((l₁ ++ t :: l₂).map HashEntry.addr).Nodup) :
    (l₁ ++ t :: l₂).eraseP (fun u => u.addr == t.addr) = l₁ ++ l₂ := by
  rw [List.map_append, List.map_cons, List.nodup_middle, List.nodup_cons] at hn
  rw [List.eraseP_append_right, List.eraseP_cons_of_pos (by simp)]
  intro u hu hua
  refine hn.1 (List.mem_append_left _ (List.mem_map.mpr ⟨u, hu, ?_⟩))
  simpa using hua

/-- Passing an entry finds something to move, unless the deletion refuses the entry. -/
theorem passEntry_cases {keycmp : K → K → ℕ → ℤ} {s : List (HashEntry K)} {e : HashEntry K}
    (hn : ((s ++ [e]).map HashEntry.addr).Nodup) (hr : keycmp e.key e.key e.klen = 0) :
    ¬ e.Valid ∧ passEntry keycmp s e = (s ++ [e], []) ∨
      e.Valid ∧ ∃ t l₁ l₂, s ++ [e] = l₁ ++ t :: l₂ ∧ matchesKey keycmp e t = true ∧
        (∀ u ∈ l₁, matchesKey keycmp e u = false) ∧ passEntry keycmp s e = (l₁ ++ l₂, [t]) := by
  by_cases hv : e.Valid
  · refine .inr ⟨hv, ?_⟩
    cases hf : (s ++ [e]).find? (matchesKey keycmp e) with
    | none =>
      have := List.find?_eq_none.mp hf e (by simp)
      simp [matchesKey, hr] at this
    | some t =>
      obtain ⟨ht, l₁, l₂, hsplit, hl₁⟩ := List.find?_eq_some_iff_append.mp hf
      refine ⟨t, l₁, l₂, hsplit, ht, fun u hu => by simpa using hl₁ u hu, ?_⟩
      rw [passEntry, if_pos hv, hf]
      dsimp only
      rw [hsplit] at hn ⊢
      rw [eraseP_addr_middle hn]
  · exact .inl ⟨hv, by rw [passEntry, if_neg hv]⟩

theorem passEntry_perm {keycmp : K → K → ℕ → ℤ} {s : List (HashEntry K)} {e : HashEntry K}
    (hn : ((s ++ [e]).map HashEntry.addr).Nodup) (hr : keycmp e.key e.key e.klen = 0) :
    ((passEntry keycmp s e).2 ++ (passEntry keycmp s e).1).Perm (s ++ [e]) := by
  rcases passEntry_cases hn hr with ⟨-, hpass⟩ | ⟨-, t, l₁, l₂, hsplit, -, -, hpass⟩
  · rw [hpass]
    exact List.Perm.refl _
  · rw [hpass, hsplit]
    show (t :: (l₁ ++ l₂)).Perm (l₁ ++ t :: l₂)
    exact List.perm_middle.symm

/-- When every entry is accepted, nothing is ever left behind and the entries are moved in the order
of the chain. -/
theorem passChain_of_valid {keycmp : K → K → ℕ → ℤ} : ∀ {c : List (HashEntry K)},
    (∀ e ∈ c, e.Valid ∧ keycmp e.key e.key e.klen = 0) → passChain keycmp [] c = ([], c)
  | [], _ => rfl
  | e :: c, hc => by
    obtain ⟨hv, hr⟩ := hc e (List.mem_cons_self ..)
    have hpass : passEntry keycmp [] e = ([], [e]) := by
      simp [passEntry, hv, matchesKey, hr]
    rw [passChain, hpass, passChain_of_valid fun t ht => hc t (List.mem_cons_of_mem _ ht)]
    rfl

/-- Each of the entries belongs to a bucket whose head was set up. -/
def HashTable.Reaches (h : HashTable K) (l : List (HashEntry K)) : Prop :=
  ∀ e ∈ l, h.home e < h.heads

instance (h : HashTable K) (l : List (HashEntry K)) : Decidable (h.Reaches l) :=
  inferInstanceAs (Decidable (∀ e ∈ l, _))

theorem HashTable.reaches_nil (h : HashTable K) : h.Reaches [] := List.forall_mem_nil _

theorem HashTable.reaches_append {h : HashTable K} {l l' : List (HashEntry K)} :
    h.Reaches (l ++ l') ↔ h.Reaches l ∧ h.Reaches l' := List.forall_mem_append

/-- Insertions change neither the heads nor the homes. -/
theorem HashTable.reaches_foldl {l l' : List (HashEntry K)} : ∀ {h : HashTable K},
    (l.foldl hashTableInsert h).Reaches l' ↔ h.Reaches l' := by
  induction l with
  | nil => exact Iff.rfl
  | cons e l ih => exact ih

theorem HashTable.reaches_of_le {h : HashTable K} (hpos : 0 < h.buckets) (hle : h.buckets ≤ 2 ^ 32)
    (l : List (HashEntry K)) : h.Reaches l := fun e _ => home_lt_heads hpos hle e

/-- **The body of the loop**, standing on the entry `e` behind the entries `s` of its chain. It goes
astray when the entry that it moves belongs to a head that was never set up. -/
theorem migrateEntry_spec {h : HashTable K} (hp : h.Placed) (hr : h.Reflexive) {i : ℕ}
    {s c : List (HashEntry K)} {e : HashEntry K} (hc : h.table i = s ++ e :: c)
    (aux : HashTable K) :
    ∃ h', migrateEntry (.node e) i (h, aux) =
        (if aux.Reaches (passEntry h.keycmp s e).2 then
          some (i, h', (passEntry h.keycmp s e).2.foldl hashTableInsert aux) else none) ∧
      h'.Placed ∧ h'.Reflexive ∧
      h' = h.withTable (Function.update h.table i ((passEntry h.keycmp s e).1 ++ c)) := by
  have he : e ∈ h.table i := by simp [hc]
  have hcode : hashTableHashCode h e.key e.klen = i := hp.home_eq i e he
  have hchain : h.table i = (s ++ [e]) ++ c := by simp [hc]
  have hnodup := hp.chain_nodup i
  rw [hchain] at hnodup
  have hn : ((s ++ [e]).map HashEntry.addr).Nodup :=
    hnodup.sublist ((List.sublist_append_left _ c).map _)
  rcases passEntry_cases hn (hr e (hp.mem_entries he)) with
    ⟨hv, hpass⟩ | ⟨hv, t, l₁, l₂, hsplit, ht, hl₁, hpass⟩
  · -- the deletion refuses the key: nothing changes
    have hdel : hashTableDelHashEntrySafe h e = (none, h) := by
      rw [HashEntry.Valid, not_or, Nat.not_le] at hv
      rw [hashTableDelHashEntrySafe, if_neg hv.1, hashTableDelKeySafeI, if_pos hv.2]
    refine ⟨h, ?_, hp, hr, ?_⟩
    · rw [hpass, if_pos aux.reaches_nil]
      simp only [migrateEntry, hdel]
      rfl
    · rw [hpass, ← hchain, Function.update_eq_self, HashTable.withTable_self]
  · -- the deletion takes out `t`
    rw [hsplit, List.append_assoc, List.cons_append] at hchain
    have htmem : t ∈ h.table i := by simp [hchain]
    have hlookup : hashTableLookupKey h e.key e.klen = some t := by
      rw [hashTableLookupKey, hcode, hchain]
      exact List.find?_eq_some_iff_append.mpr
        ⟨ht, l₁, l₂ ++ c, rfl, fun u hu => congrArg not (hl₁ u hu)⟩
    have hdelKey : hashTableDelKeySafe h e.key e.klen = (some t, h.listDelInit i t) := by
      simp only [hashTableDelKeySafe, hlookup, hcode]
    have hdel : hashTableDelHashEntrySafe h e = (some t, h.listDelInit i t) := by
      rw [hashTableDelHashEntrySafe, hashTableDelKeySafeS, hashTableDelKeySafeI, hdelKey]
      by_cases hs : e.skey = true
      · rw [if_pos hs]
      · rw [if_neg hs, if_neg (Nat.not_lt.mpr (hv.resolve_left hs))]
    have hleft : (h.table i).eraseP (fun u => u.addr == t.addr) = (l₁ ++ l₂) ++ c := by
      have hn' := hp.chain_nodup i
      rw [hchain] at hn' ⊢
      rw [eraseP_addr_middle hn', List.append_assoc]
    refine ⟨h.listDelInit i t, ?_, hp.listDelInit htmem, fun u hu => ?_, ?_⟩
    · simp only [migrateEntry, hdel, hpass, HashTable.Reaches, List.forall_mem_singleton,
        List.foldl_cons, List.foldl_nil]
    · exact hr u ((HashTable.entries_listDelInit hp htmem).subset (List.mem_cons_of_mem _ hu))
    · rw [hpass, HashTable.listDelInit, hleft]
      rfl

/-! ### One chain -/

/-- **The inner loop** passes the chain of bucket `i`, leaves the other chains alone and inserts
what it moves into the auxiliary table, one entry after the other, if the heads are set up. -/
theorem forEachSafe_migrate_chain {i : ℕ} (fuel : ℕ) : ∀ (c : List (HashEntry K))
    {s : List (HashEntry K)} {h : HashTable K} (aux : HashTable K) {n : Pos K}, h.Placed →
    h.Reflexive → i < h.heads → h.table i = s ++ c → (c ≠ [] → n = Pos.first i c.tail) →
      ∃ h', forEachSafe failure (Prod.fst <$> get) migrateEntry (fuel + c.length + 1) i
            (some (Pos.first i c, n)) (h, aux) =
          (if aux.Reaches (passChain h.keycmp s c).2 then
            forEachSafe failure (Prod.fst <$> get) migrateEntry fuel ((i + 1) % 2 ^ 32) none
              (h', (passChain h.keycmp s c).2.foldl hashTableInsert aux) else none) ∧
        h'.Placed ∧ h'.Reflexive ∧
        h' = h.withTable (Function.update h.table i (passChain h.keycmp s c).1)
  | [], s, h, aux, n, hp, hr, _, hc, _ => by
    refine ⟨h, ?_, hp, hr, ?_⟩
    · have hhead : (Pos.first i ([] : List (HashEntry K))).isHead i = true := beq_self_eq_true i
      rw [List.length_nil, Nat.add_zero, forEachSafe_head hhead, passChain,
        if_pos aux.reaches_nil]
      rfl
    · rw [passChain, ← List.append_nil s, ← hc, Function.update_eq_self, HashTable.withTable_self]
  | e :: c, s, h, aux, n, hp, hr, hi, hc, hn => by
    obtain ⟨h₁, hbody, hp₁, hr₁, rfl⟩ := migrateEntry_spec hp hr hc aux
    set s₁ := (passEntry h.keycmp s e).1
    set h₁ := h.withTable (Function.update h.table i (s₁ ++ c)) with hh₁
    have hc₁ : h₁.table i = s₁ ++ c := by simp [hh₁]
    -- the saved successor is still linked: what was unlinked lies before it
    have hnext : ∃ n', h₁.next (Pos.first i c) = some n' ∧ (c ≠ [] → n' = Pos.first i c.tail) := by
      cases c with
      | nil => exact ⟨_, HashTable.next_head hi, fun hne => absurd rfl hne⟩
      | cons e' c => exact ⟨_, hp₁.next_first hc₁ (by simp), fun _ => rfl⟩
    obtain ⟨n', hn', hfirst⟩ := hnext
    obtain ⟨h', hrest, hp', hr', hh'⟩ := forEachSafe_migrate_chain fuel c
      ((passEntry h.keycmp s e).2.foldl hashTableInsert aux) hp₁ hr₁ hi hc₁ hfirst
    refine ⟨h', ?_, hp', hr', ?_⟩
    · rw [List.length_cons, ← Nat.add_assoc, hn (by simp), Pos.first, forEachSafe_node rfl, hbody,
        passChain]
      simp only [HashTable.reaches_append]
      by_cases hreach : aux.Reaches (passEntry h.keycmp s e).2
      · rw [if_pos hreach, List.tail_cons, Option.elim_some]
        dsimp only
        rw [hn', Option.elim_some, hrest, List.foldl_append]
        simp only [HashTable.reaches_foldl, hreach, true_and]
        rfl
      · rw [if_neg hreach, if_neg fun hboth => hreach hboth.1]
        rfl
    · rw [hh', hh₁, HashTable.withTable_withTable, HashTable.withTable_table,
        Function.update_idem]
      rfl

/-! ### The whole table -/

/-- What the walk moves out of the buckets `l`, in order. -/
def HashTable.movedFrom (h : HashTable K) (l : List ℕ) : List (HashEntry K) :=
  l.flatMap fun i => (passChain h.keycmp [] (h.table i)).2

/-- The chains after a walk of the buckets `l`: in these what was left behind, the others as they
were. -/
def HashTable.leftIn (h : HashTable K) (l : List ℕ) (i : ℕ) : List (HashEntry K) :=
  if i ∈ l then (passChain h.keycmp [] (h.table i)).1 else h.table i

/-- **The two loops**, from bucket `i` on, return when the heads for what they move are set up. They
have then inserted what they moved into the auxiliary table, in the order of the walk, and leave the
rest on the chains. -/
theorem forEachSafe_migrate : ∀ (k : ℕ) {i : ℕ} {h : HashTable K} (aux : HashTable K), h.Placed →
    h.Reflexive → h.buckets < 2 ^ 32 → i + k = h.buckets →
      forEachSafe failure (Prod.fst <$> get) migrateEntry
          (((List.range' i k).flatMap h.table).length + 2 * k + 1) i none (h, aux) =
        if aux.Reaches (h.movedFrom (List.range' i k)) then
          some ((), h.withTable (h.leftIn (List.range' i k)),
            (h.movedFrom (List.range' i k)).foldl hashTableInsert aux) else none
  | 0, i, h, aux, hp, hr, hlt, hk => by
    have hnone : h.leftIn (List.range' i 0) = h.table := by
      funext j
      simp [HashTable.leftIn]
    rw [hnone, List.range'_zero, List.flatMap_nil, forEachSafe_outer, if_neg (by simp; omega),
      HashTable.movedFrom, List.flatMap_nil, if_pos aux.reaches_nil]
    rfl
  | k + 1, i, h, aux, hp, hr, hlt, hk => by
    set rest := (List.range' (i + 1) k).flatMap h.table with hrest
    have hi : i < h.heads := by
      rw [HashTable.heads_eq hp.buckets_pos hlt.le]
      omega
    have hsucc : ∃ n, h.next (Pos.first i (h.table i)) = some n ∧
        (h.table i ≠ [] → n = Pos.first i (h.table i).tail) := by
      cases hc : h.table i with
      | nil => exact ⟨_, HashTable.next_head hi, fun hne => absurd rfl hne⟩
      | cons e c => exact ⟨_, hp.next_first (s := []) hc (by simp), fun _ => rfl⟩
    obtain ⟨n, hn, hfirst⟩ := hsucc
    obtain ⟨h₁, hchain, hp₁, hr₁, hh₁⟩ := forEachSafe_migrate_chain
      (rest.length + 2 * k + 1) (h.table i) (s := []) aux hp hr hi rfl hfirst
    have hsame : ∀ j, j ≠ i → h₁.table j = h.table j := by
      intro j hij
      rw [hh₁, HashTable.withTable_table, Function.update_of_ne hij]
    have hlater : ∀ j ∈ List.range' (i + 1) k, h₁.table j = h.table j := by
      intro j hj
      have := (List.mem_range'_1.mp hj).1
      exact hsame j (by omega)
    have hcmp : h₁.keycmp = h.keycmp := by rw [hh₁]; rfl
    have hbuckets : h₁.buckets = h.buckets := by rw [hh₁]; rfl
    have hloop := forEachSafe_migrate k (i := i + 1)
      ((passChain h.keycmp [] (h.table i)).2.foldl hashTableInsert aux) hp₁ hr₁ (hbuckets ▸ hlt)
      (by omega)
    have hlen : (List.range' (i + 1) k).flatMap h₁.table = rest := List.flatMap_congr hlater
    have hmoved : h₁.movedFrom (List.range' (i + 1) k) = h.movedFrom (List.range' (i + 1) k) :=
      List.flatMap_congr fun j hj => by rw [hcmp, hlater j hj]
    have hleft : h₁.withTable (h₁.leftIn (List.range' (i + 1) k)) =
        h.withTable (h.leftIn (List.range' i (k + 1))) := by
      rw [hh₁, HashTable.withTable_withTable, ← hh₁]
      refine congrArg h.withTable (funext fun j => ?_)
      simp only [HashTable.leftIn, List.range'_succ, List.mem_cons, hcmp]
      by_cases hj : j = i
      · subst hj
        rw [if_neg (by simp [List.mem_range'_1]), if_pos (.inl rfl), hh₁,
          HashTable.withTable_table, Function.update_self]
      · rw [hsame j hj]
        simp only [hj, false_or]
    have hmod : (i + 1) % 2 ^ 32 = i + 1 := Nat.mod_eq_of_lt (by omega)
    have hfuel : ((List.range' i (k + 1)).flatMap h.table).length + 2 * (k + 1) + 1 =
        (rest.length + 2 * k + 1 + (h.table i).length + 1) + 1 := by
      rw [List.range'_succ, List.flatMap_cons, List.length_append, ← hrest]
      omega
    rw [hlen, hmoved, hleft, ← List.foldl_append] at hloop
    rw [hfuel, forEachSafe_outer, if_pos (by simp; omega), HashTable.next_head hi, Option.elim_some,
      hn, Option.elim_some, hchain, hmod, hloop]
    have hcons : h.movedFrom (List.range' i (k + 1)) =
        (passChain h.keycmp [] (h.table i)).2 ++ h.movedFrom (List.range' (i + 1) k) := by
      simp only [HashTable.movedFrom, List.range'_succ, List.flatMap_cons]
    simp only [hcons, HashTable.reaches_append, HashTable.reaches_foldl]
    split_ifs with hfirst hrest hboth hboth
    · rfl
    · exact absurd ⟨hfirst, hrest⟩ hboth
    · exact absurd hboth.2 hrest
    · rfl
    · exact absurd ‹_ ∧ _›.1 hfirst
    · rfl

/-- **The walk of a resize** returns as long as an `unsigned int` can count the buckets, and the
heads for what it moves are set up. -/
theorem migrate_walk {h : HashTable K} (hp : h.Placed) (hr : h.Reflexive)
    (hlt : h.buckets < 2 ^ 32) (aux : HashTable K) :
    forEachSafe failure (Prod.fst <$> get) migrateEntry h.rounds 0 none (h, aux) =
      if aux.Reaches (h.movedFrom (List.range h.buckets)) then
        some ((), h.withTable (h.leftIn (List.range h.buckets)),
          (h.movedFrom (List.range h.buckets)).foldl hashTableInsert aux) else none := by
  have hwalk := forEachSafe_migrate h.buckets (i := 0) aux hp hr hlt (by omega)
  rw [← List.range_eq_range'] at hwalk
  exact hwalk

theorem HashTable.Findable.reflexive {h : HashTable K} (hf : h.Findable) : h.Reflexive :=
  fun e he => (hf e he).2

/-- When every entry can be found by its own key, every entry is moved. -/
theorem HashTable.Findable.movedFrom {h : HashTable K} (hf : h.Findable) :
    h.movedFrom (List.range h.buckets) = h.entries := by
  refine List.flatMap_congr fun i hi => ?_
  rw [passChain_of_valid fun e he => hf e (mem_entries_iff.mpr ⟨i, List.mem_range.mp hi, he⟩)]

/-! ### The new table -/

theorem foldl_hashTableInsert (l : List (HashEntry K)) (aux : HashTable K) :
    l.foldl hashTableInsert aux = aux.withTable fun j =>
      (l.filter fun e => aux.home e == j).reverse ++ aux.table j := by
  induction l generalizing aux with
  | nil => simp
  | cons e l ih =>
    have hhome : (hashTableInsert aux e).home = aux.home := rfl
    have htable : (hashTableInsert aux e).table =
        Function.update aux.table (aux.home e) (e :: aux.table (aux.home e)) := rfl
    rw [List.foldl_cons, ih, hhome, htable]
    refine congrArg aux.withTable (funext fun j => ?_)
    by_cases hj : aux.home e = j
    · subst hj
      simp
    · rw [List.filter_cons_of_neg (by simpa using hj), Function.update_of_ne (Ne.symm hj)]

/-- `h'` is what a resize makes of `h` when its walk moves the entries `moved`: each of them in its
home bucket under the new bucket count, and each chain in the reverse of the order of the walk. -/
structure HashTable.Rebuilt (C : Clib K) (h h' : HashTable K) (moved : List (HashEntry K)) :
    Prop where
  buckets : h'.buckets = hashtblSz C (h.resizeThreshold * 2 % 2 ^ 32)
  threshold : h'.resizeThreshold = h.resizeThreshold * 2 % 2 ^ 32
  used : h'.usedBuckets = 0
  hashFn : h'.myHashFn = h.myHashFn
  keycmp : h'.keycmp = h.keycmp
  table_eq : ∀ j, h'.table j = (moved.filter fun e => h'.home e == j).reverse

/-- The outcome of a resize that moves every entry. -/
abbrev HashTable.Migrated (C : Clib K) (h h' : HashTable K) : Prop :=
  HashTable.Rebuilt C h h' h.entries

theorem HashTable.Findable.leftIn {h : HashTable K} (hf : h.Findable) (hp : h.Placed) (i : ℕ) :
    h.leftIn (List.range h.buckets) i = [] := by
  have hvalid : ∀ e ∈ h.table i, e.Valid ∧ h.keycmp e.key e.key e.klen = 0 :=
    fun e he => hf e (hp.mem_entries he)
  rw [HashTable.leftIn, passChain_of_valid hvalid]
  split_ifs with hi
  · rfl
  · refine List.eq_nil_iff_forall_not_mem.mpr fun e he => hi ?_
    exact List.mem_range.mpr (hp.lt_buckets he)

theorem HashTable.Findable.migrated {C : Clib K} {h h' : HashTable K} (hf : h.Findable)
    (hm : HashTable.Rebuilt C h h' (h.movedFrom (List.range h.buckets))) :
    HashTable.Migrated C h h' := by
  rwa [hf.movedFrom] at hm

/-- `hash_table_init` with a hash function fails, or sets up an empty table. -/
theorem hashTableInit_spec (C : Clib K) (b : ℕ) (keycmp : Option (K → K → ℕ → ℤ))
    (hashFn : K → ℕ → ℕ) (H : Heap) :
    (∃ H', hashTableInit Heap.malloc C b keycmp (some hashFn) H = some (none, H')) ∨
      ∃ tableMem bucketLocks H', hashTableInit Heap.malloc C b keycmp (some hashFn) H =
        some (some (HashTable.fresh C (b % 2 ^ 32) (keycmp.getD C.memcmp) hashFn tableMem
          bucketLocks), H') := by
  rw [hashTableInit]
  generalize b % 2 ^ 32 = b
  rw [HeapM.bind_apply (Heap.malloc_apply _ H)]
  cases H.answer (sizeofHashEntry * hashtblSz C b % 2 ^ 64) with
  | none => exact .inl ⟨_, rfl⟩
  | some tableMem =>
    dsimp only
    rw [HeapM.bind_apply (Heap.malloc_apply _ _)]
    cases Heap.answer _ (sizeofMutex * hashtblSz C b % 2 ^ 64) with
    | none => exact .inl ⟨_, rfl⟩
    | some bucketLocks => exact .inr ⟨tableMem, bucketLocks, _, rfl⟩

theorem eq_fresh_of_hashTableInit {C : Clib K} {b : ℕ} {keycmp : Option (K → K → ℕ → ℤ)}
    {hashFn : K → ℕ → ℕ} {H H' : Heap} {h : HashTable K}
    (hinit : hashTableInit Heap.malloc C b keycmp (some hashFn) H = some (some h, H')) :
    ∃ tableMem bucketLocks, h = HashTable.fresh C (b % 2 ^ 32) (keycmp.getD C.memcmp) hashFn
      tableMem bucketLocks := by
  rcases hashTableInit_spec C b keycmp hashFn H with ⟨_, hi⟩ | ⟨tableMem, bucketLocks, _, hi⟩
  · simp [hinit] at hi
  · rw [hinit, Option.some.injEq, Prod.mk.injEq, Option.some.injEq] at hi
    exact ⟨tableMem, bucketLocks, hi.1⟩

/-- The table after a resize, with what it takes over from the auxiliary one. -/
def HashTable.takeOver (h aux : HashTable K) : HashTable K :=
  { h with
    bucketLocks := aux.bucketLocks
    tableMem := aux.tableMem
    table := aux.table
    buckets := aux.buckets
    usedBuckets := aux.usedBuckets
    resizeThreshold := aux.resizeThreshold }

/-- **What a resize that returns has done**: nothing, when it was refused an array; else it walked
the table, which took over the auxiliary one. -/
theorem hashTableResize_inversion {C : Clib K} {h h' : HashTable K} {ret : ℤ} {H H' : Heap}
    (hres : hashTableResize C h H = some ((ret, h'), H')) :
    (ret = -1 ∧ h' = h ∧ ∃ H₁, hashTableInit Heap.malloc C (h.resizeThreshold * 2 % 2 ^ 64)
        (some h.keycmp) (some h.myHashFn) H = some (none, H₁)) ∨
      (ret = 0 ∧ ∃ aux H₁ old new,
        hashTableInit Heap.malloc C (h.resizeThreshold * 2 % 2 ^ 64) (some h.keycmp)
          (some h.myHashFn) H = some (some aux, H₁) ∧
        forEachSafe failure (Prod.fst <$> get) migrateEntry h.rounds 0 none (h, aux) =
          some ((), old, new) ∧ h' = old.takeOver new) := by
  rw [hashTableResize] at hres
  obtain ⟨aux, H₁, hinit, hrest⟩ := HeapM.of_bind hres
  cases aux with
  | none =>
    obtain ⟨rfl, rfl⟩ := Prod.mk.inj (HeapM.pure_inj hrest).1
    exact .inl ⟨rfl, rfl, H₁, hinit⟩
  | some aux =>
    obtain ⟨⟨_, old, new⟩, H₂, hwalk, hrest⟩ := HeapM.of_bind hrest
    obtain ⟨_, H₃, -, hrest⟩ := HeapM.of_bind hrest
    obtain ⟨_, H₄, -, hrest⟩ := HeapM.of_bind hrest
    obtain ⟨rfl, rfl⟩ := Prod.mk.inj (HeapM.pure_inj hrest).1
    exact .inr ⟨rfl, aux, H₁, old, new, hinit, HeapM.of_lift hwalk, rfl⟩

/-- The heads for what a resize moves are set up in the new table. -/
def HashTable.Fits (C : Clib K) (h : HashTable K) : Prop :=
  (HashTable.fresh C (h.resizeThreshold * 2 % 2 ^ 32) h.keycmp h.myHashFn 0 0).Reaches
    (h.movedFrom (List.range h.buckets))

theorem HashTable.fits_of_le {C : Clib K} {h : HashTable K}
    (hle : hashtblSz C (h.resizeThreshold * 2 % 2 ^ 32) ≤ 2 ^ 32) : h.Fits C :=
  HashTable.reaches_of_le (hashtblSz_pos C _) hle _

/-- The allocator has both arrays of the table that a resize asks for. -/
def HashTable.Gets (C : Clib K) (h : HashTable K) (H : Heap) : Prop :=
  ∃ aux H', hashTableInit Heap.malloc C (h.resizeThreshold * 2 % 2 ^ 64) (some h.keycmp)
    (some h.myHashFn) H = some (some aux, H')

/-- A walk whose auxiliary table lacks a head goes astray. -/
theorem hashTableResize_of_not_fits {C : Clib K} {h : HashTable K} (hp : h.Placed)
    (hr : h.Reflexive)
    (hlt : h.buckets < 2 ^ 32) {H H' : Heap} {tableMem bucketLocks : ℕ}
    (hinit : hashTableInit Heap.malloc C (h.resizeThreshold * 2 % 2 ^ 64) (some h.keycmp)
      (some h.myHashFn) H = some (some (HashTable.fresh C (h.resizeThreshold * 2 % 2 ^ 32) h.keycmp
        h.myHashFn tableMem bucketLocks), H')) (hfits : ¬ h.Fits C) :
    hashTableResize C h H = none := by
  have hloop := (migrate_walk hp hr hlt (HashTable.fresh C (h.resizeThreshold * 2 % 2 ^ 32) h.keycmp
    h.myHashFn tableMem bucketLocks)).trans (if_neg hfits)
  rw [hashTableResize, HeapM.bind_apply hinit]
  dsimp only
  rw [hloop]
  rfl

theorem hashTableResize_gets {C : Clib K} {h h' : HashTable K} {H H' : Heap}
    (hres : hashTableResize C h H = some ((0, h'), H')) : h.Gets C H := by
  rcases hashTableResize_inversion hres with ⟨hfailed, -⟩ | ⟨-, aux, H₁, -, -, hinit, -⟩
  · exact absurd hfailed (by decide)
  · exact ⟨aux, H₁, hinit⟩

/-- **A resize succeeds** when the two arrays of the new table can be had, an `unsigned int` can
count the old buckets, and the new heads are set up. The table is rebuilt from what the walk
moves. -/
theorem hashTableResize_of_fresh {C : Clib K} {h : HashTable K} (hp : h.Placed) (hr : h.Reflexive)
    (hlt : h.buckets < 2 ^ 32) (hfits : h.Fits C) {H H' : Heap} {tableMem bucketLocks : ℕ}
    (hinit : hashTableInit Heap.malloc C (h.resizeThreshold * 2 % 2 ^ 64) (some h.keycmp)
      (some h.myHashFn) H = some (some (HashTable.fresh C (h.resizeThreshold * 2 % 2 ^ 32) h.keycmp
        h.myHashFn tableMem bucketLocks), H')) :
    ∃ h' H', hashTableResize C h H = some ((0, h'), H') ∧
      HashTable.Rebuilt C h h' (h.movedFrom (List.range h.buckets)) := by
  set aux := HashTable.fresh C (h.resizeThreshold * 2 % 2 ^ 32) h.keycmp h.myHashFn tableMem
    bucketLocks
  have hloop := (migrate_walk hp hr hlt aux).trans (if_pos hfits)
  set moved := h.movedFrom (List.range h.buckets)
  have hnil : aux.table = fun _ => [] := rfl
  rw [foldl_hashTableInsert, hnil] at hloop
  simp only [List.append_nil] at hloop
  refine ⟨{ aux with table := fun j => (moved.filter fun e => aux.home e == j).reverse },
    (H'.afterFree h.tableMem).afterFree h.bucketLocks, ?_, ⟨rfl, rfl, rfl, rfl, rfl, fun _ => rfl⟩⟩
  rw [hashTableResize, HeapM.bind_apply hinit]
  dsimp only
  rw [HeapM.bind_apply (HeapM.lift_apply hloop H')]
  rfl

/-- **A resize returns** as long as an `unsigned int` can count the buckets, and the new heads are
set up. It fails and leaves the table as it was, or it rebuilds the table from what its walk
moves. -/
theorem hashTableResize_spec (C : Clib K) {h : HashTable K} (hp : h.Placed) (hr : h.Reflexive)
    (hlt : h.buckets < 2 ^ 32) (H : Heap) :
    (∃ H', hashTableResize C h H = some ((-1, h), H')) ∨
      (h.Fits C ∧ ∃ h' H', hashTableResize C h H = some ((0, h'), H') ∧
        HashTable.Rebuilt C h h' (h.movedFrom (List.range h.buckets))) ∨
      ¬ h.Fits C ∧ h.Gets C H ∧ hashTableResize C h H = none := by
  rcases hashTableInit_spec C (h.resizeThreshold * 2 % 2 ^ 64) (some h.keycmp) h.myHashFn H with
    ⟨H', hinit⟩ | ⟨tableMem, bucketLocks, H', hinit⟩
  · exact .inl ⟨H', by rw [hashTableResize, HeapM.bind_apply hinit]; rfl⟩
  · have hthreshold : h.resizeThreshold * 2 % 2 ^ 64 % 2 ^ 32 = h.resizeThreshold * 2 % 2 ^ 32 :=
      Nat.mod_mod_of_dvd _ (by decide)
    rw [hthreshold, Option.getD_some] at hinit
    by_cases hfits : h.Fits C
    · exact .inr (.inl ⟨hfits, hashTableResize_of_fresh hp hr hlt hfits hinit⟩)
    · exact .inr (.inr ⟨hfits, ⟨_, _, hinit⟩, hashTableResize_of_not_fits hp hr hlt hinit hfits⟩)

/-- The body of the loop touches neither the bucket count nor the loop variable. -/
theorem migrateEntry_keeps {s : HashTable K × HashTable K} {pos : Pos K} {hti : ℕ}
    {r : ℕ × HashTable K × HashTable K} (hr : migrateEntry pos hti s = some r) :
    r.2.1.buckets = s.1.buckets ∧ (hti < 2 ^ 32 → r.1 < 2 ^ 32) := by
  cases pos with
  | head i => exact absurd hr (Option.some_ne_none r).symm
  | node e =>
    obtain ⟨t, ht⟩ := hashTableDelHashEntrySafe_withTable s.1 e
    have hb : (hashTableDelHashEntrySafe s.1 e).2.buckets = s.1.buckets := by rw [ht]; rfl
    simp only [migrateEntry] at hr
    split at hr
    · rename_i heq
      rw [Option.some.injEq] at hr
      subst hr
      rw [heq] at hb
      exact ⟨hb, id⟩
    · rename_i heq
      split_ifs at hr
      rw [Option.some.injEq] at hr
      subst hr
      rw [heq] at hb
      exact ⟨hb, id⟩

/-- With `2 ^ 32` buckets or more the bucket counter wraps around and a traversal never comes to its
end, unless its body changes the bucket count. -/
theorem forEachSafe_wraps {S : Type} {t : S → HashTable K} {body : Pos K → ℕ → StateT S Option ℕ}
    (hbody : ∀ {pos hti s r}, body pos hti s = some r →
      (t r.2).buckets = (t s).buckets ∧ (hti < 2 ^ 32 → r.1 < 2 ^ 32)) :
    ∀ (fuel : ℕ) {s : S} {hti : ℕ} {cur : Option (Pos K × Pos K)}, 2 ^ 32 ≤ (t s).buckets →
      hti < 2 ^ 32 → forEachSafe failure (t <$> get) body fuel hti cur s = none
  | 0, _, _, _, _, _ => rfl
  | fuel + 1, s, hti, none, hs, hi => by
    rw [forEachSafe_outer, if_pos (Nat.lt_of_lt_of_le hi hs)]
    cases (t s).next (.head hti) with
    | none => rfl
    | some pos =>
      rw [Option.elim_some]
      cases (t s).next pos with
      | none => rfl
      | some n => exact forEachSafe_wraps hbody fuel hs hi
  | fuel + 1, s, hti, some (pos, n), hs, hi => by
    cases hpos : pos.isHead hti with
    | true =>
      rw [forEachSafe_head hpos]
      exact forEachSafe_wraps hbody fuel hs (Nat.mod_lt _ (by decide))
    | false =>
      rw [forEachSafe_node hpos]
      cases hr : body pos hti s with
      | none => rfl
      | some r =>
        obtain ⟨hb, hhti⟩ := hbody hr
        rw [Option.elim_some]
        cases (t r.2).next n with
        | none => rfl
        | some n' => exact forEachSafe_wraps hbody fuel (hb ▸ hs) (hhti hi)

/-- The walk of a resize never ends with `2 ^ 32` buckets or more. -/
theorem forEachSafe_migrate_wraps (fuel : ℕ) {s : HashTable K × HashTable K} {hti : ℕ}
    {cur : Option (Pos K × Pos K)} (hs : 2 ^ 32 ≤ s.1.buckets) (hi : hti < 2 ^ 32) :
    forEachSafe failure (Prod.fst <$> get) migrateEntry fuel hti cur s = none :=
  forEachSafe_wraps migrateEntry_keeps fuel hs hi

theorem hashTableResize_cases {C : Clib K} {h h' : HashTable K} (hp : h.Placed) (hr : h.Reflexive)
    {ret : ℤ} {H H' : Heap} (hres : hashTableResize C h H = some ((ret, h'), H')) :
    ret = -1 ∧ h' = h ∨
      ret = 0 ∧ h.Fits C ∧ HashTable.Rebuilt C h h' (h.movedFrom (List.range h.buckets)) := by
  by_cases hlt : h.buckets < 2 ^ 32
  · rcases hashTableResize_spec C hp hr hlt H with
      ⟨H₁, hrun⟩ | ⟨hfits, h₁, H₁, hrun, hm⟩ | ⟨-, -, hrun⟩
    · rw [hres, Option.some.injEq, Prod.mk.injEq, Prod.mk.injEq] at hrun
      exact .inl hrun.1
    · rw [hres, Option.some.injEq, Prod.mk.injEq, Prod.mk.injEq] at hrun
      obtain ⟨⟨rfl, rfl⟩, -⟩ := hrun
      exact .inr ⟨rfl, hfits, hm⟩
    · exact absurd (hres.symm.trans hrun) (Option.some_ne_none _)
  · rcases hashTableResize_inversion hres with ⟨hret, hsame, -⟩
      | ⟨-, aux, H₁, old, new, -, hwalk, -⟩
    · exact .inl ⟨hret, hsame⟩
    · rw [forEachSafe_migrate_wraps _ (Nat.not_lt.mp hlt) (by decide)] at hwalk
      exact absurd hwalk.symm (Option.some_ne_none _)

/-! ### The invariant across a resize -/

namespace HashTable.Rebuilt

variable {C : Clib K} {h h' : HashTable K} {moved : List (HashEntry K)}

theorem buckets_pos (hm : Rebuilt C h h' moved) : 0 < h'.buckets := by
  rw [hm.buckets]
  exact hashtblSz_pos C _

/-- **What was moved is in the new table**, no more and no less. -/
theorem entries_perm (hm : Rebuilt C h h' moved) : h'.entries.Perm moved := by
  have htable : h'.table = fun j => (moved.filter fun e => h'.home e == j).reverse :=
    funext hm.table_eq
  rw [HashTable.entries, htable]
  exact flatMap_filter_perm h'.home fun e _ => home_lt hm.buckets_pos e

theorem placed (hm : Rebuilt C h h' moved) (hn : (moved.map HashEntry.addr).Nodup) :
    h'.Placed where
  buckets_pos := hm.buckets_pos
  home_eq j e he := by
    rw [hm.table_eq, List.mem_reverse] at he
    simpa using (List.mem_filter.mp he).2
  nodup := (hm.entries_perm.map HashEntry.addr).nodup_iff.mpr hn

end HashTable.Rebuilt

/-! ### Inserting with a resize -/

@[simp] theorem HashTable.insertAt_table (h : HashTable K) (n : ℕ) (e : HashEntry K) :
    (h.insertAt n e).table = (h.listAdd n e).table := by
  rw [HashTable.insertAt]
  split <;> rfl

@[simp] theorem HashTable.insertAt_buckets (h : HashTable K) (n : ℕ) (e : HashEntry K) :
    (h.insertAt n e).buckets = h.buckets := by
  rw [HashTable.insertAt]
  split <;> rfl

@[simp] theorem HashTable.insertAt_myHashFn (h : HashTable K) (n : ℕ) (e : HashEntry K) :
    (h.insertAt n e).myHashFn = h.myHashFn := by
  rw [HashTable.insertAt]
  split <;> rfl

@[simp] theorem HashTable.insertAt_keycmp (h : HashTable K) (n : ℕ) (e : HashEntry K) :
    (h.insertAt n e).keycmp = h.keycmp := by
  rw [HashTable.insertAt]
  split <;> rfl

@[simp] theorem HashTable.insertAt_resizeThreshold (h : HashTable K) (n : ℕ) (e : HashEntry K) :
    (h.insertAt n e).resizeThreshold = h.resizeThreshold := by
  rw [HashTable.insertAt]
  split <;> rfl

/-- A safe insert counts at most one bucket. -/
theorem HashTable.usedBuckets_insertAt_le (h : HashTable K) (n : ℕ) (e : HashEntry K) :
    (h.insertAt n e).usedBuckets ≤ h.usedBuckets + 1 := by
  rw [HashTable.insertAt]
  split
  · exact le_rfl
  · exact Nat.le_succ _

theorem HashTable.entries_insertAt (h : HashTable K) {n : ℕ} (hn : n < h.buckets)
    (e : HashEntry K) : (h.insertAt n e).entries.Perm (e :: h.entries) := by
  have hsame : (h.insertAt n e).entries = (h.listAdd n e).entries := by
    rw [HashTable.entries, HashTable.insertAt_table, HashTable.insertAt_buckets]
    rfl
  rw [hsame]
  exact h.entries_listAdd hn e

theorem HashTable.Placed.insertAt {h : HashTable K} (hp : h.Placed) {e : HashEntry K}
    (hnew : ∀ t ∈ h.entries, t.addr ≠ e.addr) : (h.insertAt (h.home e) e).Placed :=
  (hp.listAdd hnew).congr (h.insertAt_table _ e) (h.insertAt_buckets _ e) (h.insertAt_myHashFn _ e)

theorem HashTable.link_apply {h : HashTable K} {n : ℕ} (hn : n < h.heads) (e : HashEntry K)
    (H : Heap) : (do
      h.reach n
      return h.insertAt n e : HeapM (HashTable K)) H = some (h.insertAt n e, H) :=
  HeapM.bind_apply (HashTable.reach_apply hn H) _

/-- **What a safe insert that returns has done**: it resized a full table, and then put the entry in
front of its home chain, whose head was set up. -/
theorem hashTableInsertSafe_inversion {C : Clib K} {h h' : HashTable K} {e : HashEntry K}
    {H H' : Heap} (hins : hashTableInsertSafe C h e H = some (h', H')) :
    (h.usedBuckets < h.resizeThreshold ∧ h.home e < h.heads ∧ h' = h.insertAt (h.home e) e) ∨
      (h.resizeThreshold ≤ h.usedBuckets ∧ ∃ ret h₁ H₁,
        hashTableResize C h H = some ((ret, h₁), H₁) ∧ h₁.home e < h₁.heads ∧
          h' = h₁.insertAt (h₁.home e) e) := by
  have hlink : ∀ {h₁ : HashTable K} {n : ℕ} {H₁ : Heap},
      (do
        h₁.reach n
        return h₁.insertAt n e : HeapM (HashTable K)) H₁ = some (h', H') →
      n < h₁.heads ∧ h' = h₁.insertAt n e := by
    intro h₁ n H₁ hrest
    obtain ⟨_, H₂, hreach, hlast⟩ := HeapM.of_bind hrest
    exact ⟨(HashTable.of_reach hreach).1, (HeapM.pure_inj hlast).1.symm⟩
  rw [hashTableInsertSafe] at hins
  split_ifs at hins with hused
  · obtain ⟨⟨ret, h₁⟩, H₁, hres, hrest⟩ := HeapM.of_bind hins
    refine .inr ⟨hused, ret, h₁, H₁, hres, ?_⟩
    -- a resize that failed left the table, so the index from before it is the right one too
    rcases hashTableResize_inversion hres with ⟨rfl, rfl, -⟩ | ⟨rfl, -⟩
    · exact hlink hrest
    · exact hlink hrest
  · exact .inl ⟨Nat.lt_of_not_le hused, hlink hins⟩

/-- What a safe insert that returns has done: the table may have been migrated first, and only if
the counter had reached the threshold; then the entry was put in front of its home chain. -/
theorem hashTableInsertSafe_cases {C : Clib K} {h h' : HashTable K} (hp : h.Placed)
    (hf : h.Findable) {e : HashEntry K} {H H' : Heap}
    (hins : hashTableInsertSafe C h e H = some (h', H')) :
    ∃ h₁, h' = h₁.insertAt (h₁.home e) e ∧
      (h₁ = h ∨ h.resizeThreshold ≤ h.usedBuckets ∧ HashTable.Migrated C h h₁) := by
  rcases hashTableInsertSafe_inversion hins with ⟨-, -, rfl⟩ | ⟨hused, ret, h₁, H₁, hres, -, rfl⟩
  · exact ⟨h, rfl, .inl rfl⟩
  · refine ⟨h₁, rfl, ?_⟩
    rcases hashTableResize_cases hp hf.reflexive hres with ⟨-, rfl⟩ | ⟨-, -, hm⟩
    · exact .inl rfl
    · exact .inr ⟨hused, hf.migrated hm⟩

/-- **A safe insert returns** as long as an `unsigned int` can count the buckets, and those of the
table that it sets up in a resize. -/
theorem hashTableInsertSafe_returns (C : Clib K) {h : HashTable K} (hp : h.Placed)
    (hr : h.Reflexive) (hlt : h.buckets < 2 ^ 32) (e : HashEntry K) {H : Heap}
    (hle : h.resizeThreshold ≤ h.usedBuckets → h.Gets C H →
      hashtblSz C (h.resizeThreshold * 2 % 2 ^ 32) ≤ 2 ^ 32) :
    ∃ h' H', hashTableInsertSafe C h e H = some (h', H') := by
  have hhere := HashTable.home_lt_heads hp.buckets_pos hlt.le e
  rw [hashTableInsertSafe]
  by_cases hused : h.usedBuckets ≥ h.resizeThreshold
  · rw [if_pos hused]
    rcases hashTableResize_spec C hp hr hlt H with
      ⟨H', hres⟩ | ⟨-, h₁, H', hres, hm⟩ | ⟨hfits, hgets, -⟩
    · exact ⟨_, H', (HeapM.bind_apply hres _).trans (HashTable.link_apply hhere e H')⟩
    · have hsize := hle hused (hashTableResize_gets hres)
      have hthere := HashTable.home_lt_heads hm.buckets_pos (hm.buckets ▸ hsize) e
      exact ⟨_, H', (HeapM.bind_apply hres _).trans (HashTable.link_apply hthere e H')⟩
    · exact absurd (HashTable.fits_of_le (hle hused hgets)) hfits
  · rw [if_neg hused]
    exact ⟨_, H, HashTable.link_apply hhere e H⟩

end Milu
