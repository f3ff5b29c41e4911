import Milu.Hashtbl.Thread

/-!
# Whether a call leaves its mutexes as it found them

Every thread-safe operation locks what it needs and unlocks it on each of its ways out: a search and
a deletion on a hit and on a miss, a resize when it fails and when it succeeds. What can keep the
table lock of a resize is the walk of the old table, if it never ends. And beyond `2 ^ 32` buckets a
call may come to a head or a mutex that `hash_table_init` never set up, and has no defined end then.

The two functions that are to tell whether a mutex is locked try to lock it. When it was free, they
say so and keep it.

## Main definitions

* `ThreadOp.Balances`, `RunBalances` — a call returns with no mutex locked, and so do all of a run
* `HashTable.WalkEnds` — the walk that a resize makes comes to its end
* `ThreadOp.Meets`, `RunMeets` — the condition

## Main results

* `walkEnds_iff` — the walk ends while an `unsigned int` can count the buckets and the new heads
  were set up
* `balances_iff` — one call
* `lock_balance_iff` — a run of calls
* `lock_balance_query` — a query on a free mutex
-/

namespace Milu

open TableThread

variable {K : Type} {C : Clib K} {s : TableThread K}

/-! ### Calls and runs -/

/-- The call returns with no mutex locked. On the way there it has unlocked none that it did not
hold, nor locked one that it did. -/
def ThreadOp.Balances (C : Clib K) (op : ThreadOp K) (s : TableThread K) : Prop :=
  ∃ s', op.perform C s = .ok ((), s') ∧ s'.held = []

/-- Every call of the run returns with no mutex locked. -/
def RunBalances (C : Clib K) : List (ThreadOp K) → TableThread K → Prop
  | [], _ => True
  | op :: ops, s => ∃ s', op.perform C s = .ok ((), s') ∧ s'.held = [] ∧ RunBalances C ops s'

/-- The functions that are to tell whether a mutex is locked. -/
def ThreadOp.IsQuery : ThreadOp K → Prop
  | .locked | .bucketLocked _ => True
  | .call _ | .hashCodeSafe _ _ => False

/-- The walk that a resize makes of the table comes to its end. -/
def HashTable.WalkEnds (C : Clib K) (h : HashTable K) : Prop :=
  forEachSafe failure (Prod.fst <$> get) migrateEntry h.rounds 0 none
    (h, HashTable.fresh C (h.resizeThreshold * 2 % 2 ^ 32) h.keycmp h.myHashFn 0 0) ≠ none

/-- The condition on a call: it is no query; if it is a safe insert into a full table for which the
allocator has both new arrays, the walk of the old table ends; and the bucket that it looks at or
links into was set up. -/
def ThreadOp.Meets (C : Clib K) (op : ThreadOp K) (s : TableThread K) : Prop :=
  ¬ op.IsQuery ∧
    (∀ e key len, op = .call (.insertSafe e key len) →
      s.htable.resizeThreshold ≤ s.htable.usedBuckets →
      GrantsArrays C (s.htable.resizeThreshold * 2 % 2 ^ 32) (key.heapAfter s.ledger.heap len) →
      s.htable.WalkEnds C) ∧
    ∀ call, op = .call call → call.InReach C s

/-- The condition on a run: each call meets it as its turn comes. -/
def RunMeets (C : Clib K) : List (ThreadOp K) → TableThread K → Prop
  | [], _ => True
  | op :: ops, s => op.Meets C s ∧ ∀ s', op.perform C s = .ok ((), s') → RunMeets C ops s'

/-! ### The walk -/

/-- Whether the walk ends depends on no more of the auxiliary table than which heads it has set up,
and where the entries belong. -/
theorem forEachSafe_migrate_aux : ∀ (fuel hti : ℕ) (cur : Option (Pos K × Pos K))
    (h : HashTable K) {aux aux' : HashTable K}, aux.heads = aux'.heads →
    (∀ e, aux.home e = aux'.home e) →
    forEachSafe failure (Prod.fst <$> get) migrateEntry fuel hti cur (h, aux) = none →
      forEachSafe failure (Prod.fst <$> get) migrateEntry fuel hti cur (h, aux') = none
  | 0, _, _, _, _, _, _, _, _ => rfl
  | fuel + 1, hti, none, h, aux, aux', hheads, hhome, hnone => by
    rw [forEachSafe_outer] at hnone ⊢
    split_ifs at hnone ⊢
    dsimp only at hnone ⊢
    cases hpos : h.next (.head hti) with
    | none => rfl
    | some pos =>
      rw [hpos, Option.elim_some] at hnone
      rw [Option.elim_some]
      cases hn : h.next pos with
      | none => rfl
      | some n =>
        rw [hn, Option.elim_some] at hnone
        exact forEachSafe_migrate_aux fuel hti (some (pos, n)) h hheads hhome hnone
  | fuel + 1, hti, some (pos, n), h, aux, aux', hheads, hhome, hnone => by
    cases hpos : pos.isHead hti with
    | true =>
      rw [forEachSafe_head hpos] at hnone ⊢
      exact forEachSafe_migrate_aux fuel _ none h hheads hhome hnone
    | false =>
      rw [forEachSafe_node hpos] at hnone ⊢
      have hnext : ∀ h₁ aux₁ aux₁' : HashTable K, aux₁.heads = aux₁'.heads →
          (∀ e, aux₁.home e = aux₁'.home e) →
          ((h₁.next n).elim none fun n' => forEachSafe failure (Prod.fst <$> get) migrateEntry fuel
            hti (some (n, n')) (h₁, aux₁)) = none →
          ((h₁.next n).elim none fun n' => forEachSafe failure (Prod.fst <$> get) migrateEntry fuel
            hti (some (n, n')) (h₁, aux₁')) = none := by
        intro h₁ aux₁ aux₁' hheads hhome hnone
        cases hn : h₁.next n with
        | none => rfl
        | some n' =>
          rw [hn, Option.elim_some] at hnone
          exact forEachSafe_migrate_aux fuel hti (some (n, n')) h₁ hheads hhome hnone
      cases pos with
      | head i => rfl
      | node e =>
        rw [migrateEntry] at hnone ⊢
        generalize hashTableDelHashEntrySafe h e = d at hnone ⊢
        rcases d with ⟨_ | t, h₁⟩
        · exact hnext h₁ _ _ hheads hhome hnone
        · dsimp only at hnone ⊢
          rw [← hhome t, ← hheads]
          by_cases hset : aux.home t < aux.heads
          · rw [if_pos hset, Option.elim_some] at hnone ⊢
            exact hnext h₁ (hashTableInsert aux t) (hashTableInsert aux' t) hheads hhome hnone
          · rw [if_neg hset]
            rfl

/-- The two arrays of the auxiliary table do not matter. -/
theorem HashTable.walkEnds_iff_some {h : HashTable K} (tableMem bucketLocks : ℕ) :
    h.WalkEnds C ↔ ∃ r, forEachSafe failure (Prod.fst <$> get) migrateEntry h.rounds 0 none
      (h, HashTable.fresh C (h.resizeThreshold * 2 % 2 ^ 32) h.keycmp h.myHashFn tableMem
        bucketLocks) = some r := by
  rw [← Option.ne_none_iff_exists', HashTable.WalkEnds, not_iff_not]
  exact ⟨forEachSafe_migrate_aux _ _ _ h rfl fun _ => rfl,
    forEachSafe_migrate_aux _ _ _ h rfl fun _ => rfl⟩

/-- **The walk ends** while an `unsigned int` can count the buckets and the new heads were set up,
when every entry is in its home bucket and the comparator returns zero on a key and itself. -/
theorem walkEnds_iff {h : HashTable K} (hp : h.Placed) (hr : h.Reflexive) :
    h.WalkEnds C ↔ h.buckets < 2 ^ 32 ∧ h.Fits C := by
  by_cases hlt : h.buckets < 2 ^ 32
  · rw [HashTable.WalkEnds, migrate_walk hp hr hlt, and_iff_right hlt, HashTable.Fits]
    simp
  · refine iff_of_false (fun hends => hends ?_) fun h => hlt h.1
    exact forEachSafe_migrate_wraps _ (Nat.not_lt.mp hlt) (by decide)

/-! ### One call -/

/-- The allocator has both arrays exactly when the auxiliary table can be set up. -/
theorem grantsArrays_iff (C : Clib K) (b : ℕ) (keycmp : Option (K → K → ℕ → ℤ))
    (hashFn : K → ℕ → ℕ) (L : Ledger) : GrantsArrays C (b % 2 ^ 32) L.heap ↔
      ∃ aux L', hashTableInit Ledger.malloc C b keycmp (some hashFn) L = (some aux, L') := by
  have hgrants : GrantsArrays C (b % 2 ^ 32) L.heap ↔
      (L.heap.answer (tableBytes C b)).isSome ∧
        ((L.heap.afterMalloc (tableBytes C b)).answer (lockBytes C b)).isSome := by
    rw [GrantsArrays, tableBytes, lockBytes]
  have hfails : ∀ {L' : Ledger}, ¬ ∃ (aux : HashTable K) (L'' : Ledger),
      ((none : Option (HashTable K)), L') = (some aux, L'') := by
    rintro L' ⟨aux, L'', h⟩
    exact Option.some_ne_none aux (Prod.mk.inj h).1.symm
  rw [hgrants]
  rcases hashTableInit_ledger C b keycmp (some hashFn) L with
    ⟨ht, hinit⟩ | ⟨tableMem, ht, ⟨hb, hinit⟩ | ⟨bucketLocks, hb, hinit⟩⟩ <;> rw [ht, hinit]
  · exact iff_of_false (fun h => by simp at h) hfails
  · rw [hb]
    exact iff_of_false (fun h => by simp at h) hfails
  · rw [hb]
    exact iff_of_true ⟨rfl, rfl⟩ ⟨_, _, rfl⟩

/-- **A resize returns** exactly when its walk ends, if it comes to that. -/
theorem resize_returns_iff (hfree : s.held = []) :
    (∃ ret s₁, Locked.hashTableResize env C s = .ok (ret, s₁)) ↔
      (GrantsArrays C (s.htable.resizeThreshold * 2 % 2 ^ 32) s.ledger.heap →
        s.htable.WalkEnds C) := by
  rw [← Nat.mod_mod_of_dvd (s.htable.resizeThreshold * 2) (by decide : 2 ^ 32 ∣ 2 ^ 64),
    grantsArrays_iff C _ (some s.htable.keycmp) s.htable.myHashFn, resize_locked C hfree]
  rcases hinit : hashTableInit Ledger.malloc C (s.htable.resizeThreshold * 2 % 2 ^ 64)
    (some s.htable.keycmp) (some s.htable.myHashFn) s.ledger with ⟨_ | aux, L⟩
  · refine iff_of_true ⟨_, _, rfl⟩ ?_
    rintro ⟨aux, L', h⟩
    exact absurd (Prod.mk.inj h).1.symm (Option.some_ne_none aux)
  · obtain ⟨tableMem, bucketLocks, rfl⟩ := eq_fresh_of_ledger hinit
    rw [HashTable.walkEnds_iff_some tableMem bucketLocks, TableThread.resized]
    cases forEachSafe failure (Prod.fst <$> get) migrateEntry s.htable.rounds 0 none
      (s.htable, HashTable.fresh C (s.htable.resizeThreshold * 2 % 2 ^ 32) s.htable.keycmp
        s.htable.myHashFn tableMem bucketLocks) with
    | none =>
      refine iff_of_false ?_ fun hends => ?_
      · rintro ⟨ret, s₁, hres⟩
        cases hres
      · obtain ⟨r, hr⟩ := hends ⟨_, L, rfl⟩
        exact Option.some_ne_none r hr.symm
    | some r => exact iff_of_true ⟨_, _, rfl⟩ fun _ => ⟨r, rfl⟩

/-- Where an entry belongs after a resize that returned, and which heads there are. -/
theorem resize_linksInto {ret : ℤ} {s₁ : TableThread K} (hfree : s.held = [])
    (hfull : s.htable.resizeThreshold ≤ s.htable.usedBuckets)
    (hres : Locked.hashTableResize env C s = .ok (ret, s₁)) (e : HashEntry K) :
    s₁.htable.home e = (s.htable.linksInto C s.ledger.heap).home e ∧
      s₁.htable.heads = (s.htable.linksInto C s.ledger.heap).heads := by
  have hgrants := grantsArrays_iff C (s.htable.resizeThreshold * 2 % 2 ^ 64) (some s.htable.keycmp)
    s.htable.myHashFn s.ledger
  rw [Nat.mod_mod_of_dvd (s.htable.resizeThreshold * 2) (by decide : 2 ^ 32 ∣ 2 ^ 64)] at hgrants
  rw [HashTable.linksInto]
  rcases resize_inversion hfree hres with
    ⟨L, hinit, -, rfl⟩ | ⟨aux, L, old, new, hinit, hwalk, -, rfl⟩
  · rw [if_neg]
    · exact ⟨rfl, rfl⟩
    · rintro ⟨-, hgranted⟩
      obtain ⟨aux, L', hsome⟩ := hgrants.mp hgranted
      exact Option.some_ne_none aux (Prod.mk.inj (hsome.symm.trans hinit)).1
  · rw [if_pos ⟨hfull, hgrants.mpr ⟨aux, L, hinit⟩⟩]
    obtain ⟨tableMem, bucketLocks, rfl⟩ := eq_fresh_of_ledger hinit
    obtain ⟨⟨t, rfl⟩, t', rfl⟩ := forEachSafe_migrate_withTable hwalk
    exact ⟨rfl, rfl⟩

theorem perform_call {α : Type} {x : ThreadM K α} {a : α} {s' : TableThread K}
    (h : x s = .ok (a, s')) :
    (do
      let _ ← x
      return () : ThreadM K Unit) s = .ok ((), s') :=
  bind_of_ok h _

/-- A safe insert balances exactly when the resize that it needs returns, and its bucket was set
up. -/
theorem balances_insertSafe_iff (hfree : s.held = []) (e : HashEntry K) (key : KeyArg K) (len : ℕ) :
    (ThreadOp.call (.insertSafe e key len)).Balances C s ↔
      (ThreadOp.call (.insertSafe e key len)).Meets C s := by
  obtain ⟨ret₀, e', L', hinit, hheap, -, hrun⟩ := TableOp.perform_insertSafe (C := C) e key len s
  have hresize := resize_returns_iff (C := C) (s := { s with ledger := L' }) hfree
  rw [hheap] at hresize
  -- the condition, for this entry, key and length
  have hmeets : (ThreadOp.call (.insertSafe e key len)).Meets C s ↔
      (s.htable.resizeThreshold ≤ s.htable.usedBuckets →
        ∃ ret s₁, Locked.hashTableResize env C { s with ledger := L' } = .ok (ret, s₁)) ∧
      (s.htable.linksInto C L'.heap).home e' < (s.htable.linksInto C L'.heap).heads := by
    constructor
    · rintro ⟨-, hwalk, hreach⟩
      exact ⟨fun hfull => hresize.mpr (hwalk e key len rfl hfull), hreach _ rfl _ _ _ hinit⟩
    · rintro ⟨hreturns, hreach⟩
      refine ⟨id, ?_, ?_⟩
      · rintro _ _ _ ⟨⟩ hfull
        exact hresize.mp (hreturns hfull)
      · rintro _ ⟨⟩ ret₁ e₁ s₁ hinit₁
        obtain ⟨hsame, rfl⟩ := ok_unique hinit hinit₁
        exact (Prod.mk.inj hsame).2 ▸ hreach
  have hbalances : ∀ s₁ : TableThread K, s₁.held = [] →
      Locked.hashTableInsertSafe env C e' { s with ledger := L' } = s₁.linked e' →
      ((ThreadOp.call (.insertSafe e key len)).Balances C s ↔
        s₁.htable.home e' < s₁.htable.heads) := by
    intro s₁ hfree₁ hins
    rw [TableThread.linked] at hins
    by_cases hset : s₁.htable.home e' < s₁.htable.heads
    · rw [if_pos hset] at hins
      exact iff_of_true ⟨_, perform_call (hrun.trans (bind_of_ok hins _)), hfree₁⟩ hset
    · rw [if_neg hset] at hins
      refine iff_of_false ?_ hset
      rintro ⟨s', hcall, -⟩
      have hlost := bind_of_error (hrun.trans (bind_of_error hins _)) fun _ => pure ()
      cases hlost.symm.trans hcall
  rw [hmeets]
  rcases insertSafe_locked C (s := { s with ledger := L' }) hfree e' with
    ⟨hroom, hins⟩ | ⟨hfull, ret, s₁, hres, hins⟩ | ⟨hfull, x, hres, hins⟩
  · have hsame : s.htable.linksInto C L'.heap = s.htable :=
      if_neg fun h => absurd h.1 (Nat.not_le.mpr hroom)
    rw [hbalances { s with ledger := L' } hfree hins, hsame]
    exact (and_iff_right fun hfull => absurd hroom (Nat.not_lt.mpr hfull)).symm
  · obtain ⟨hhome, hheads⟩ := resize_linksInto (s := { s with ledger := L' }) hfree hfull hres e'
    rw [hbalances _ (resize_returns (s := { s with ledger := L' }) hfree hres).1 hins, hhome,
      hheads]
    exact (and_iff_right fun _ => ⟨ret, s₁, hres⟩).symm
  · refine iff_of_false ?_ fun h => ?_
    · rintro ⟨s', hcall, -⟩
      have hlost := bind_of_error (hrun.trans (bind_of_error hins _)) fun _ => pure ()
      cases hlost.symm.trans hcall
    · obtain ⟨ret, s₁, hok⟩ := h.1 hfull
      cases hres.symm.trans hok

/-- **One call** balances exactly when it meets the condition. -/
theorem balances_iff (hfree : s.held = []) (op : ThreadOp K) : op.Balances C s ↔ op.Meets C s := by
  have hl : ∀ l, l ∉ s.held := by simp [hfree]
  -- a query locks what it asks about, if it returns
  have hquery : ∀ {l}, op.perform C s = .error .astray ∨
      op.perform C s = .ok ((), { s with held := l :: s.held }) →
      op.IsQuery → (op.Balances C s ↔ op.Meets C s) := by
    rintro l hrun hquery
    refine iff_of_false ?_ fun hmeets => hmeets.1 hquery
    rintro ⟨s', hrun', hheld⟩
    rcases hrun with hlost | hrun
    · cases hlost.symm.trans hrun'
    · obtain ⟨-, rfl⟩ := ok_unique hrun hrun'
      exact List.cons_ne_nil _ _ hheld
  cases op with
  | hashCodeSafe key len =>
    exact iff_of_true ⟨s, perform_call (hashCodeSafe_locked (hl _) key len), hfree⟩
      ⟨id, nofun, nofun⟩
  | locked =>
    have hkept : trylock .table s = .ok (0, { s with held := .table :: s.held }) :=
      trylock_of_notMem trivial (hl _)
    exact hquery (.inr (perform_call (bind_of_ok hkept _))) trivial
  | bucketLocked n =>
    refine hquery (l := .bucket n) ?_ trivial
    by_cases hset : n < s.htable.heads
    · have hkept : trylock (.bucket n) s = .ok (0, { s with held := .bucket n :: s.held }) :=
        trylock_of_notMem hset (hl _)
      exact .inr (perform_call (bind_of_ok hkept _))
    · have hlost : trylock (.bucket n) s = .error .astray := if_pos hset
      exact .inl (bind_of_error (bind_of_error hlost _) _)
  | call op =>
    by_cases hins : ∃ e key len, op = .insertSafe e key len
    · obtain ⟨e, key, len, rfl⟩ := hins
      exact balances_insertSafe_iff hfree e key len
    · simp only [not_exists] at hins
      have hmeets : (ThreadOp.call op).Meets C s ↔ op.InReach C s := by
        refine ⟨fun h => h.2.2 op rfl, fun hreach => ⟨id, fun e key len h => ?_, ?_⟩⟩
        · exact absurd (ThreadOp.call.inj h) (hins e key len)
        · rintro _ ⟨⟩
          exact hreach
      rw [hmeets]
      rcases TableOp.perform_other (C := C) hfree hins with
        ⟨hreach, r, t, L', hrun, -⟩ | ⟨hreach, hlost⟩
      · exact iff_of_true ⟨_, perform_call hrun, hfree⟩ hreach
      · refine iff_of_false ?_ hreach
        rintro ⟨s', hcall, -⟩
        cases (bind_of_error hlost fun _ => pure ()).symm.trans hcall

/-! ### Runs of calls -/

/-- **A run balances** exactly when each call meets the condition as its turn comes; and the walk of
a resize ends exactly while an `unsigned int` can count the buckets and the new heads were set up,
when every entry is in its home bucket and the comparator returns zero on a key and itself. Up to
`2 ^ 32` buckets every bucket was set up. -/
theorem lock_balance_iff (hfree : s.held = []) (ops : List (ThreadOp K)) :
    (RunBalances C ops s ↔ RunMeets C ops s) ∧
      (∀ h : HashTable K, h.Placed → h.Reflexive →
        (h.WalkEnds C ↔ h.buckets < 2 ^ 32 ∧ h.Fits C)) ∧
      ∀ h : HashTable K, 0 < h.buckets → h.buckets ≤ 2 ^ 32 → h.heads = h.buckets := by
  refine ⟨?_, fun h hp hr => walkEnds_iff hp hr, fun h => HashTable.heads_eq⟩
  induction ops generalizing s with
  | nil => exact Iff.rfl
  | cons op ops ih =>
    constructor
    · rintro ⟨s', hrun, hfree', hrest⟩
      refine ⟨(balances_iff hfree op).mp ⟨s', hrun, hfree'⟩, fun s₁ hrun₁ => ?_⟩
      obtain ⟨-, rfl⟩ := ok_unique hrun hrun₁
      exact (ih hfree').mp hrest
    · rintro ⟨hmeets, hrest⟩
      obtain ⟨s', hrun, hfree'⟩ := (balances_iff hfree op).mpr hmeets
      exact ⟨s', hrun, hfree', (ih hfree').mpr (hrest s' hrun)⟩

/-- A thread with an empty table, before it has locked anything. -/
def idleThread : TableThread ℕ where
  htable := sampleTable
  held := []
  ledger := .opened ⟨[], List.Pairwise.nil, fun _ => none, 0, 0, []⟩

/-- A thread with an empty table for one entry, and memory. -/
def tightThread : TableThread ℕ where
  htable := tightTable
  held := []
  ledger := .opened tightHeap

/-- Two inserts into bucket 5, the second of which resizes the table, a deletion and a search. -/
def balancedOps : List (ThreadOp ℕ) :=
  [.call (.insertSafe ⟨100, 0, 0, false⟩ (.int 5) 8),
    .call (.insertSafe ⟨200, 0, 0, false⟩ (.int 102) 8), .call (.delKeySafe false 5 8),
    .call (.lookupKeySafe false 5 8)]

theorem meets_of_buckets {s : TableThread ℕ} (hb : s.htable.buckets = 97) {op : TableOp ℕ}
    (hop : op = .delKeySafe false 5 8 ∨ op = .lookupKeySafe false 5 8) :
    (ThreadOp.call op).Meets Clib.nearest s := by
  have hheads : s.htable.heads = s.htable.buckets := HashTable.heads_eq (by omega) (by omega)
  have hcode : hashTableHashCode s.htable 5 8 < s.htable.heads := by
    rw [hheads]
    exact HashTable.hashCode_lt (by omega) 5 8
  rcases hop with rfl | rfl <;> refine ⟨id, nofun, ?_⟩ <;> rintro _ ⟨⟩ <;> exact fun _ => hcode

/-- The table after the first insert. -/
def heldOneThread : TableThread ℕ :=
  { tightThread with htable := tightTable.insertAt 5 ⟨100, 5, 8, false⟩ }

/-- The number of buckets after a call, if it returns. -/
def bucketsAfter (op : ThreadOp ℕ) (s : TableThread ℕ) : Option ℕ :=
  match op.perform Clib.nearest s with
  | .ok (_, s') => some s'.htable.buckets
  | .error _ => none

theorem buckets_of_perform {op : ThreadOp ℕ} {s s' : TableThread ℕ}
    (hrun : op.perform Clib.nearest s = .ok ((), s')) :
    bucketsAfter op s = some s'.htable.buckets := by
  rw [bucketsAfter, hrun]

theorem tightThread_meets : (ThreadOp.call (.insertSafe ⟨100, 0, 0, false⟩ (.int 5) 8)).Meets
    Clib.nearest tightThread := by
  refine ⟨id, ?_, ?_⟩
  · rintro _ _ _ ⟨⟩ hfull
    exact absurd hfull (by decide)
  · rintro _ ⟨⟩ ret e' s' hinit
    obtain ⟨hsame, rfl⟩ := Prod.mk.inj (Except.ok.inj hinit)
    rw [← (Prod.mk.inj hsame).2]
    decide +kernel

theorem heldOneThread_meets : (ThreadOp.call (.insertSafe ⟨200, 0, 0, false⟩ (.int 102) 8)).Meets
    Clib.nearest heldOneThread := by
  refine ⟨id, ?_, ?_⟩
  · rintro _ _ _ ⟨⟩ - -
    exact Option.ne_none_iff_isSome.mpr (by decide +kernel)
  · rintro _ ⟨⟩ ret e' s' hinit
    obtain ⟨hsame, rfl⟩ := Prod.mk.inj (Except.ok.inj hinit)
    rw [← (Prod.mk.inj hsame).2]
    decide +kernel

theorem lock_balance_iff_resized : RunBalances Clib.nearest balancedOps tightThread := by
  have hfirst : (ThreadOp.call (.insertSafe ⟨100, 0, 0, false⟩ (.int 5) 8)).perform Clib.nearest
      tightThread = .ok ((), heldOneThread) := rfl
  refine (lock_balance_iff rfl _).1.mpr ⟨tightThread_meets, fun s₁ hrun₁ => ?_⟩
  obtain ⟨-, rfl⟩ := ok_unique hfirst hrun₁
  refine ⟨heldOneThread_meets, fun s₂ hrun₂ => ?_⟩
  have hb₂ : s₂.htable.buckets = 97 :=
    Option.some.inj ((buckets_of_perform hrun₂).symm.trans (by decide +kernel))
  have hdel : (ThreadOp.call (.delKeySafe false 5 8)).Meets Clib.nearest s₂ :=
    meets_of_buckets hb₂ (.inl rfl)
  refine ⟨hdel, fun s₃ hrun₃ => ⟨?_, fun _ _ => trivial⟩⟩
  obtain ⟨s₂', hrun₂', hfree₂⟩ := (balances_iff rfl _).mpr heldOneThread_meets
  obtain ⟨-, rfl⟩ := ok_unique hrun₂ hrun₂'
  rcases TableOp.perform_delKeySafe (C := Clib.nearest) hfree₂ false 5 8 with
    ⟨-, r, t, L, hcall, -⟩ | ⟨hreach, -⟩
  · obtain ⟨-, rfl⟩ := ok_unique (perform_call hcall) hrun₃
    exact meets_of_buckets (s := ⟨s₂.htable.withTable t, s₂.held, L⟩) hb₂ (.inr rfl)
  · exact absurd (hdel.2.2 _ rfl) hreach

/-- **A query** on a free mutex keeps it, and the next call waits for ever. -/
theorem lock_balance_query :
    ThreadOp.locked.perform Clib.nearest idleThread =
      .ok ((), { idleThread with held := [.table] }) ∧
      (ThreadOp.hashCodeSafe 5 8).perform Clib.nearest { idleThread with held := [.table] } =
        .error .deadlock ∧
      ¬ RunBalances Clib.nearest [.locked, .hashCodeSafe 5 8] idleThread := by
  refine ⟨rfl, rfl, ?_⟩
  rintro ⟨s', hrun, hheld, -⟩
  obtain ⟨-, rfl⟩ := Prod.mk.inj (Except.ok.inj hrun)
  exact List.cons_ne_nil _ _ hheld

end Milu
