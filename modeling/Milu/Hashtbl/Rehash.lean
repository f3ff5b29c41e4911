import Milu.Hashtbl.Lossless
import Milu.Hashtbl.Traversal

/-!
# A resize, whatever the comparator

A comparator that does not return zero on a key and itself can derail the walk of a resize: the
search may hit the saved successor, and the call may not return. When it does return, little is
lost: every entry that was taken out of the old table is in the new one, in its home bucket, and the
walk moved something as soon as the deletion accepts the key of any entry.

## Main definitions

* `Migrating` — the walk under way
* `Rehashed` — the table after a resize
* `Resizes` — a safe insert that resizes the table first

## Main results

* `Migrating.body` — the entries are split between the two tables
* `Migrating.table` — the walk moves nothing exactly when the deletion accepts no key
* `hashTableResize_rehashed`, `hashTableInsertSafe_rehashed` — a resize that succeeds, and an insert
  with whatever it does to the table first
-/

namespace Milu

variable {K : Type}

/-! ### The entries are split -/

/-- A deletion finds nothing and changes nothing, or takes an entry out of its chain. -/
theorem hashTableDelHashEntrySafe_cases (h : HashTable K) (e : HashEntry K) :
    hashTableDelHashEntrySafe h e = (none, h) ∨
      ∃ n t, t ∈ h.table n ∧ hashTableDelHashEntrySafe h e = (some t, h.listDelInit n t) := by
  have hdel : hashTableDelKeySafe h e.key e.klen = (none, h) ∨
      ∃ n t, t ∈ h.table n ∧ hashTableDelKeySafe h e.key e.klen = (some t, h.listDelInit n t) := by
    rw [hashTableDelKeySafe]
    cases hl : hashTableLookupKey h e.key e.klen with
    | none => exact .inl rfl
    | some t => exact .inr ⟨_, t, (hashTableLookupKey_mem hl).1, rfl⟩
  rw [hashTableDelHashEntrySafe, hashTableDelKeySafeS, hashTableDelKeySafeI]
  split_ifs
  · exact hdel
  · exact .inl rfl
  · exact hdel

/-- What the body of the loop has done when it goes on: nothing, or it took an entry out of its
chain and put it in front of its new one, whose head was set up. -/
theorem migrateEntry_inversion {e : HashEntry K} {hti : ℕ} {old new : HashTable K}
    {r : ℕ × HashTable K × HashTable K} (hr : migrateEntry (.node e) hti (old, new) = some r) :
    (hashTableDelHashEntrySafe old e = (none, old) ∧ r = (hti, old, new)) ∨
      ∃ n t, t ∈ old.table n ∧ hashTableDelHashEntrySafe old e = (some t, old.listDelInit n t) ∧
        new.home t < new.heads ∧ r = (hti, old.listDelInit n t, hashTableInsert new t) := by
  rcases hashTableDelHashEntrySafe_cases old e with hdel | ⟨n, t, ht, hdel⟩
  · simp only [migrateEntry, hdel, Option.some.injEq] at hr
    exact .inl ⟨hdel, hr.symm⟩
  · simp only [migrateEntry, hdel] at hr
    split_ifs at hr with hreach
    exact .inr ⟨n, t, ht, hdel, hreach, (Option.some.inj hr).symm⟩

/-- The walk of a resize changes nothing of the two tables but their chains. -/
theorem forEachSafe_migrate_withTable {h aux : HashTable K} {fuel hti : ℕ}
    {cur : Option (Pos K × Pos K)} {s' : HashTable K × HashTable K}
    (hrun : forEachSafe failure (Prod.fst <$> get) migrateEntry fuel hti cur (h, aux) =
      some ((), s')) : (∃ t, s'.1 = h.withTable t) ∧ ∃ t, s'.2 = aux.withTable t := by
  refine forEachSafe_invariant (fun s => (∃ t, s.1 = h.withTable t) ∧ ∃ t, s.2 = aux.withTable t)
    ?_ fuel ⟨⟨h.table, rfl⟩, aux.table, rfl⟩ hrun
  rintro pos hti ⟨old, new⟩ r ⟨⟨t, rfl⟩, t', rfl⟩ hr
  cases pos with
  | head i => exact absurd hr (Option.some_ne_none r).symm
  | node e =>
    rcases migrateEntry_inversion hr with ⟨-, rfl⟩ | ⟨n, u, -, -, -, rfl⟩
    · exact ⟨⟨t, rfl⟩, t', rfl⟩
    · exact ⟨⟨_, rfl⟩, _, rfl⟩

theorem hashTableResize_functions {C : Clib K} {h h' : HashTable K} {ret : ℤ} {H H' : Heap}
    (hres : hashTableResize C h H = some ((ret, h'), H')) :
    h'.myHashFn = h.myHashFn ∧ h'.keycmp = h.keycmp := by
  rcases hashTableResize_inversion hres with ⟨-, rfl, -⟩ | ⟨-, aux, H₁, old, new, -, hwalk, rfl⟩
  · exact ⟨rfl, rfl⟩
  · obtain ⟨⟨t, rfl⟩, -⟩ := forEachSafe_migrate_withTable hwalk
    exact ⟨rfl, rfl⟩

/-- The walk of a resize is under way: the entries of `h` are split between what is left of it and
the auxiliary table, and each is in its home bucket. -/
structure Migrating (h aux : HashTable K) (s : HashTable K × HashTable K) : Prop where
  old : ∃ t, s.1 = h.withTable t
  new : ∃ t, s.2 = aux.withTable t
  oldPlaced : s.1.Placed
  newPlaced : s.2.Placed
  perm : (s.2.entries ++ s.1.entries).Perm h.entries

namespace Migrating

variable {h aux : HashTable K} {s : HashTable K × HashTable K}

theorem start (hp : h.Placed) (haux : aux.Placed) (hnil : aux.entries = []) :
    Migrating h aux (h, aux) :=
  ⟨⟨h.table, rfl⟩, ⟨aux.table, rfl⟩, hp, haux, by rw [hnil]; exact List.Perm.refl _⟩

theorem move (hm : Migrating h aux s) (hn : (h.entries.map HashEntry.addr).Nodup) {n : ℕ}
    {e : HashEntry K} (he : e ∈ s.1.table n) :
    Migrating h aux (s.1.listDelInit n e, hashTableInsert s.2 e) ∧
      (hashTableInsert s.2 e).entries ≠ [] := by
  have hold := HashTable.entries_listDelInit hm.oldPlaced he
  have hnew := s.2.entries_listAdd (HashTable.home_lt hm.newPlaced.buckets_pos e) e
  have hboth : ((e :: s.2.entries) ++ (s.1.listDelInit n e).entries).Perm h.entries :=
    (List.perm_middle.symm.trans (hold.append_left _)).trans hm.perm
  have hfresh : ∀ t ∈ s.2.entries, t.addr ≠ e.addr := by
    intro t ht hta
    have hnodup := (hboth.map HashEntry.addr).nodup_iff.mpr hn
    rw [List.cons_append, List.map_cons, List.nodup_cons] at hnodup
    exact hnodup.1 (List.mem_map.mpr ⟨t, List.mem_append_left _ ht, hta⟩)
  obtain ⟨told, hto⟩ := hm.old
  obtain ⟨tnew, htn⟩ := hm.new
  refine ⟨⟨⟨(s.1.listDelInit n e).table, ?_⟩, ⟨(hashTableInsert s.2 e).table, ?_⟩,
    hm.oldPlaced.listDelInit he, hm.newPlaced.listAdd hfresh, ?_⟩, ?_⟩
  · rw [hto]
    rfl
  · rw [htn]
    rfl
  · exact (hnew.append_right _).trans hboth
  · intro hnil
    have hmem : e ∈ (s.2.listAdd (s.2.home e) e).entries := hnew.mem_iff.mpr List.mem_cons_self
    exact List.not_mem_nil (hnil ▸ hmem)

/-- **The body of the loop** keeps the split, and what was moved stays moved. -/
theorem body (hm : Migrating h aux s) (hn : (h.entries.map HashEntry.addr).Nodup) {pos : Pos K}
    {hti : ℕ} {r : ℕ × HashTable K × HashTable K} (hr : migrateEntry pos hti s = some r) :
    Migrating h aux r.2 ∧ (s.2.entries ≠ [] → r.2.2.entries ≠ []) := by
  cases pos with
  | head i => exact absurd hr (Option.some_ne_none r).symm
  | node e =>
    obtain ⟨old, new⟩ := s
    rcases migrateEntry_inversion hr with ⟨-, rfl⟩ | ⟨n, t, ht, -, -, rfl⟩
    · exact ⟨hm, id⟩
    · obtain ⟨hmove, hne⟩ := hm.move hn ht
      exact ⟨hmove, fun _ => hne⟩

/-- What was moved stays moved to the end of the walk. -/
theorem moved (hm : Migrating h aux s) (hn : (h.entries.map HashEntry.addr).Nodup)
    (hne : s.2.entries ≠ []) {fuel hti : ℕ} {cur : Option (Pos K × Pos K)}
    {s' : HashTable K × HashTable K}
    (hrun : forEachSafe failure (Prod.fst <$> get) migrateEntry fuel hti cur s = some ((), s')) :
    s'.2.entries ≠ [] := by
  refine (forEachSafe_invariant (fun s => Migrating h aux s ∧ s.2.entries ≠ []) ?_ fuel ⟨hm, hne⟩
    hrun).2
  rintro pos hti s r ⟨hm, hne⟩ hr
  obtain ⟨hm', hstays⟩ := hm.body hn hr
  exact ⟨hm', hstays hne⟩

theorem finish (hm : Migrating h aux s) (hn : (h.entries.map HashEntry.addr).Nodup) {fuel hti : ℕ}
    {cur : Option (Pos K × Pos K)} {s' : HashTable K × HashTable K}
    (hrun : forEachSafe failure (Prod.fst <$> get) migrateEntry fuel hti cur s = some ((), s')) :
    Migrating h aux s' :=
  forEachSafe_invariant (Migrating h aux) (fun _ _ _ _ hm hr => (hm.body hn hr).1) fuel hm hrun

/-- **The inner loop**, while nothing has been moved: it moves something when the deletion accepts
the key of an entry ahead, and otherwise passes on to the next bucket. -/
theorem chain (hm : Migrating h aux (h, aux)) {i : ℕ} {s' : HashTable K × HashTable K} :
    ∀ (fuel : ℕ) {c l : List (HashEntry K)} {n : Pos K}, h.table i = l ++ c →
      (c ≠ [] → n = Pos.first i c.tail) →
      forEachSafe failure (Prod.fst <$> get) migrateEntry fuel i (some (Pos.first i c, n))
        (h, aux) = some ((), s') →
      ((∃ e ∈ c, (hashTableDelHashEntrySafe h e).1 ≠ none) ∧ s'.2.entries ≠ []) ∨
        (∀ e ∈ c, (hashTableDelHashEntrySafe h e).1 = none) ∧
          ∃ fuel', forEachSafe failure (Prod.fst <$> get) migrateEntry fuel' ((i + 1) % 2 ^ 32) none
            (h, aux) = some ((), s')
  | 0, _, _, _, _, _, hrun => absurd hrun (Option.some_ne_none _).symm
  | fuel + 1, [], _, n, _, _, hrun => by
    have hhead : (Pos.first i ([] : List (HashEntry K))).isHead i = true := beq_self_eq_true i
    rw [forEachSafe_head hhead] at hrun
    exact .inr ⟨List.forall_mem_nil _, fuel, hrun⟩
  | fuel + 1, e :: c, l, n, hc, hn, hrun => by
    rw [Pos.first, forEachSafe_node rfl] at hrun
    cases hbody : migrateEntry (.node e) i (h, aux) with
    | none => simp [hbody] at hrun
    | some r =>
      rw [hbody, Option.elim_some] at hrun
      rcases migrateEntry_inversion hbody with ⟨hdel, rfl⟩ | ⟨k, t, ht, hdel, -, rfl⟩
      · have hc' : h.table i = (l ++ [e]) ++ c := by simp [hc]
        rw [hn (by simp), List.tail_cons] at hrun
        cases hnext : h.next (Pos.first i c) with
        | none => simp [hnext] at hrun
        | some n' =>
          rw [hnext, Option.elim_some] at hrun
          have hfirst : c ≠ [] → n' = Pos.first i c.tail := by
            intro hne
            rw [hm.oldPlaced.next_first hc' hne, Option.some.injEq] at hnext
            exact hnext.symm
          rcases hm.chain fuel hc' hfirst hrun with ⟨⟨e', he', hdel'⟩, hne⟩ | ⟨hall, hrest⟩
          · exact .inl ⟨⟨e', List.mem_cons_of_mem _ he', hdel'⟩, hne⟩
          · refine .inr ⟨?_, hrest⟩
            rw [List.forall_mem_cons]
            exact ⟨by rw [hdel], hall⟩
      · left
        obtain ⟨hmove, hne⟩ := hm.move hm.oldPlaced.nodup ht
        refine ⟨⟨e, List.mem_cons_self, by simp [hdel]⟩, ?_⟩
        cases hnext : (h.listDelInit k t).next n with
        | none => simp [hnext] at hrun
        | some n' =>
          rw [hnext, Option.elim_some] at hrun
          exact hmove.moved hm.oldPlaced.nodup hne hrun

/-- **The two loops**, from bucket `i` on, while nothing has been moved. -/
theorem table (hm : Migrating h aux (h, aux)) (hlt : h.buckets < 2 ^ 32)
    {s' : HashTable K × HashTable K} : ∀ (k : ℕ) {i fuel : ℕ}, i + k = h.buckets →
      forEachSafe failure (Prod.fst <$> get) migrateEntry fuel i none (h, aux) = some ((), s') →
      ((∃ e ∈ (List.range' i k).flatMap h.table, (hashTableDelHashEntrySafe h e).1 ≠ none) ∧
          s'.2.entries ≠ []) ∨
        (∀ e ∈ (List.range' i k).flatMap h.table, (hashTableDelHashEntrySafe h e).1 = none) ∧
          s' = (h, aux)
  | _, _, 0, _, hrun => absurd hrun (Option.some_ne_none _).symm
  | 0, i, fuel + 1, hk, hrun => by
    rw [forEachSafe_outer, if_neg (by simp; omega), Option.some.injEq, Prod.mk.injEq] at hrun
    exact .inr ⟨by simp, hrun.2.symm⟩
  | k + 1, i, fuel + 1, hk, hrun => by
    have hmod : (i + 1) % 2 ^ 32 = i + 1 := Nat.mod_eq_of_lt (by omega)
    have hheads : h.heads = h.buckets := HashTable.heads_eq hm.oldPlaced.buckets_pos hlt.le
    have hhead : h.next (.head i) = some (Pos.first i (h.table i)) :=
      HashTable.next_head (by omega)
    rw [forEachSafe_outer, if_pos (by simp; omega), hhead, Option.elim_some] at hrun
    simp only [List.range'_succ, List.flatMap_cons, List.mem_append, or_and_right, exists_or,
      or_imp, forall_and]
    cases hnext : h.next (Pos.first i (h.table i)) with
    | none => simp [hnext] at hrun
    | some n =>
      rw [hnext, Option.elim_some] at hrun
      have hfirst : h.table i ≠ [] → n = Pos.first i (h.table i).tail := by
        intro hne
        rw [hm.oldPlaced.next_first (s := []) rfl hne, Option.some.injEq] at hnext
        exact hnext.symm
      rcases hm.chain fuel (l := []) rfl hfirst hrun with ⟨hsome, hne⟩ | ⟨hnone, fuel', hrest⟩
      · exact .inl (.inl ⟨hsome, hne⟩)
      · rw [hmod] at hrest
        rcases hm.table hlt k (by omega) hrest with ⟨hsome, hne⟩ | ⟨hall, heq⟩
        · exact .inl (.inr ⟨hsome, hne⟩)
        · exact .inr ⟨⟨hnone, hall⟩, heq⟩

end Migrating

/-! ### A resize that succeeds -/

/-- The table `h'` that a resize made of `h`, whatever the comparator: fresh but for the chains,
every entry in its home bucket, no entry that `h` had not. -/
structure Rehashed (C : Clib K) (h h' : HashTable K) : Prop where
  buckets : h'.buckets = hashtblSz C (h.resizeThreshold * 2 % 2 ^ 32)
  threshold : h'.resizeThreshold = h.resizeThreshold * 2 % 2 ^ 32
  used : h'.usedBuckets = 0
  hashFn : h'.myHashFn = h.myHashFn
  keycmp : h'.keycmp = h.keycmp
  placed : h'.Placed
  subset : h'.entries ⊆ h.entries
  nil_iff : h'.entries = [] ↔ ∀ e ∈ h.entries, (hashTableDelHashEntrySafe h e).1 = none

/-- **A resize that succeeds** had both arrays and moved what the deletion found. -/
theorem hashTableResize_rehashed {C : Clib K} {h h' : HashTable K} (hp : h.Placed) {H H' : Heap}
    (hres : hashTableResize C h H = some ((0, h'), H')) : Rehashed C h h' := by
  have hlt := (hashTableResize_succeeded hres).2
  rcases hashTableResize_inversion hres with
    ⟨hfailed, -⟩ | ⟨-, aux, H₁, old, new, hinit, hloop, rfl⟩
  · exact absurd hfailed (by decide)
  obtain ⟨tableMem, bucketLocks, rfl⟩ := eq_fresh_of_hashTableInit hinit
  rw [Nat.mod_mod_of_dvd _ (by decide), Option.getD_some] at hloop
  set aux := HashTable.fresh C (h.resizeThreshold * 2 % 2 ^ 32) h.keycmp h.myHashFn tableMem
    bucketLocks
  have haux : aux.entries = [] := entries_fresh C _ h.keycmp h.myHashFn tableMem bucketLocks
  have hstart : Migrating h aux (h, aux) := .start hp (placed_fresh C _ _ _ _ _) haux
  have hfinish := hstart.finish hp.nodup hloop
  obtain ⟨told, rfl⟩ := hfinish.old
  obtain ⟨tnew, rfl⟩ := hfinish.new
  refine ⟨rfl, rfl, rfl, rfl, rfl, hfinish.newPlaced.congr rfl rfl rfl, ?_, ?_⟩
  · intro e he
    exact hfinish.perm.subset (List.mem_append_left _ he)
  · have htable := hstart.table hlt h.buckets (i := 0) (by omega) hloop
    rw [← List.range_eq_range'] at htable
    constructor
    · intro hnil e he
      rcases htable with ⟨-, hne⟩ | ⟨hall, -⟩
      · exact absurd hnil hne
      · exact hall e he
    · intro hall
      rcases htable with ⟨⟨e, he, hdel⟩, -⟩ | ⟨-, heq⟩
      · exact absurd (hall e he) hdel
      · rw [Prod.mk.injEq] at heq
        exact (congrArg HashTable.entries heq.2).trans haux

/-- A safe insert resizes the table: the counter has reached the threshold, and the resize
succeeds. -/
def Resizes (C : Clib K) (h : HashTable K) (H : Heap) : Prop :=
  h.resizeThreshold ≤ h.usedBuckets ∧ (hashTableResize C h H).map (fun r => r.1.1) = some 0

instance (C : Clib K) (h : HashTable K) (H : Heap) : Decidable (Resizes C h H) :=
  inferInstanceAs (Decidable (_ ∧ _))

/-- **A safe insert that returns** put the entry in front of its home chain. Before that it may have
rebuilt the table: it did so when the counter had reached the threshold and both arrays could be
had. -/
theorem hashTableInsertSafe_rehashed {C : Clib K} {h h' : HashTable K} (hp : h.Placed)
    {e : HashEntry K} {H H' : Heap} (hins : hashTableInsertSafe C h e H = some (h', H')) :
    ∃ h₁, h' = h₁.insertAt (h₁.home e) e ∧
      (¬ Resizes C h H ∧ h₁ = h ∧ (h.usedBuckets < h.resizeThreshold ∨
          ¬ GrantsArrays C (h.resizeThreshold * 2 % 2 ^ 32) H) ∨
        Resizes C h H ∧ GrantsArrays C (h.resizeThreshold * 2 % 2 ^ 32) H ∧ Rehashed C h h₁) := by
  rcases hashTableInsertSafe_inversion hins with ⟨hroom, -, rfl⟩ |
    ⟨hused, ret, h₁, H₁, hres, -, rfl⟩
  · exact ⟨h, rfl, .inl ⟨fun hc => absurd hroom (Nat.not_lt.mpr hc.1), rfl, .inl hroom⟩⟩
  · have hresizes : Resizes C h H ↔ ret = 0 := by
      simp [Resizes, hres, hused]
    refine ⟨h₁, rfl, ?_⟩
    by_cases hret : ret = 0
    · subst hret
      exact .inr ⟨hresizes.mpr rfl, (hashTableResize_succeeded hres).1,
        hashTableResize_rehashed hp hres⟩
    · obtain ⟨rfl, hrefused⟩ := hashTableResize_failed hres hret
      exact .inl ⟨fun hc => hret (hresizes.mp hc), rfl, .inr hrefused⟩

end Milu
