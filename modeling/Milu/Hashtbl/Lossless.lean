import Milu.Hashtbl.Refinement

/-!
# Resizing loses and repeats nothing

`hash_table_resize` deletes every entry by its key while it walks the chains. With keys that the
deletion accepts, and a comparator that returns zero on a key and itself, the entry the walk stands
on is always the first of its chain, so the search returns that entry however coarse the comparator
is. Every old chain ends empty and the entries of the new table are those of the old one.

Where they end up is another matter. The remainder by the new bucket count passes through an `int`
into an `unsigned int`, and `hash_table_init` counts the heads in one. So above `2 ^ 32` buckets an
entry may land in another bucket than the one its hash names, or at a head that was never set up.

## Main definitions

* `HashTable.slot`, `HashTable.Seated` — the bucket a hash names, and a table with every entry there
* `Kept`, `ResizeConserves` — what a resize owes its entries
* `GrantsArrays` — the allocator has both arrays of the new table

## Main results

* `resize_conserves_iff` — a resize keeps every entry, and keeps it in its bucket, exactly when the
  buckets can be counted and the new heads are set up
* `resize_misplaces` — a table that grows beyond `2 ^ 32` buckets
-/

namespace Milu

variable {K : Type}

/-- The bucket that the hash of the entry names. -/
def HashTable.slot (h : HashTable K) (e : HashEntry K) : ℕ := h.myHashFn e.key e.klen % h.buckets

/-- Every entry is in the bucket its hash names, and no entry struct is linked twice. -/
structure HashTable.Seated (h : HashTable K) : Prop where
  buckets_pos : 0 < h.buckets
  slot_eq : ∀ i, ∀ e ∈ h.table i, h.slot e = i
  nodup : (h.entries.map HashEntry.addr).Nodup

/-- The table `h'` that a resize made of `h`: the walk left the old chains empty and its auxiliary
table gave `h'` the chains, the entries are those of `h`, and each is in the bucket its hash names
under the new bucket count. -/
structure Kept (C : Clib K) (h h' : HashTable K) (H : Heap) : Prop where
  walk : ∃ auxHtbl H₁ old new,
    hashTableInit Heap.malloc C (h.resizeThreshold * 2 % 2 ^ 64) (some h.keycmp)
        (some h.myHashFn) H = some (some auxHtbl, H₁) ∧
      forEachSafe failure (Prod.fst <$> get) migrateEntry h.rounds 0 none (h, auxHtbl) =
        some ((), old, new) ∧
      (∀ i, old.table i = []) ∧ h'.table = new.table
  perm : h'.entries.Perm h.entries
  slot_eq : ∀ i, ∀ e ∈ h'.table i, h'.slot e = i

/-- A resize comes to an end. One that returns zero has kept every entry; one that returns something
else has changed nothing. -/
def ResizeConserves (C : Clib K) (h : HashTable K) (H : Heap) : Prop :=
  ∃ ret h' H', hashTableResize C h H = some ((ret, h'), H') ∧
    (ret = 0 → Kept C h h' H) ∧ (ret ≠ 0 → h' = h)

/-- The allocator has both arrays of a table for a threshold of `b`. -/
def GrantsArrays (C : Clib K) (b : ℕ) (H : Heap) : Prop :=
  (H.answer (sizeofHashEntry * hashtblSz C b % 2 ^ 64)).isSome ∧
    ((H.afterMalloc (sizeofHashEntry * hashtblSz C b % 2 ^ 64)).answer
      (sizeofMutex * hashtblSz C b % 2 ^ 64)).isSome

instance (C : Clib K) (b : ℕ) (H : Heap) : Decidable (GrantsArrays C b H) :=
  inferInstanceAs (Decidable (_ ∧ _))

/-! ### The old table -/

/-- Below `2 ^ 32` buckets the bucket a hash names is the one the code uses. -/
theorem HashTable.home_eq_slot {h : HashTable K} {e : HashEntry K} (hlt : h.slot e < 2 ^ 32) :
    h.home e = h.slot e :=
  Nat.mod_eq_of_lt hlt

theorem HashTable.Seated.placed {h : HashTable K} (hs : h.Seated) (hle : h.buckets ≤ 2 ^ 32) :
    h.Placed where
  buckets_pos := hs.buckets_pos
  home_eq i e he := by
    have hslot : h.slot e < h.buckets := Nat.mod_lt _ hs.buckets_pos
    rw [HashTable.home_eq_slot (hslot.trans_le hle), hs.slot_eq i e he]
  nodup := hs.nodup

theorem HashTable.Placed.seated {h : HashTable K} (hp : h.Placed) (hle : h.buckets ≤ 2 ^ 32) :
    h.Seated where
  buckets_pos := hp.buckets_pos
  slot_eq i e he := by
    have hslot : h.slot e < h.buckets := Nat.mod_lt _ hp.buckets_pos
    rw [← HashTable.home_eq_slot (hslot.trans_le hle), hp.home_eq i e he]
  nodup := hp.nodup

/-! ### The arrays of the new table -/

theorem hashTableInit_iff_grants {C : Clib K} {b : ℕ} {H : Heap} {keycmp : K → K → ℕ → ℤ}
    {hashFn : K → ℕ → ℕ} :
    (∃ aux H', hashTableInit Heap.malloc C b (some keycmp) (some hashFn) H = some (some aux, H')) ↔
      GrantsArrays C (b % 2 ^ 32) H := by
  rw [hashTableInit, GrantsArrays]
  generalize b % 2 ^ 32 = b
  rw [HeapM.bind_apply (Heap.malloc_apply _ H)]
  cases H.answer (sizeofHashEntry * hashtblSz C b % 2 ^ 64) with
  | none => simp
  | some tableMem =>
    dsimp only
    rw [HeapM.bind_apply (Heap.malloc_apply _ _)]
    cases (H.afterMalloc (sizeofHashEntry * hashtblSz C b % 2 ^ 64)).answer
        (sizeofMutex * hashtblSz C b % 2 ^ 64) with
    | none => simp
    | some bucketLocks => simp

/-! ### What a resize keeps -/

variable {C : Clib K} {h h' : HashTable K} {H H' : Heap}

/-- A resize that fails was refused an array, and leaves the table as it was. -/
theorem hashTableResize_failed {ret : ℤ}
    (hres : hashTableResize C h H = some ((ret, h'), H')) (hret : ret ≠ 0) :
    h' = h ∧ ¬ GrantsArrays C (h.resizeThreshold * 2 % 2 ^ 32) H := by
  rcases hashTableResize_inversion hres with ⟨-, hsame, H₁, hinit⟩ | ⟨hzero, -⟩
  · refine ⟨hsame, fun hgrants => ?_⟩
    rw [← Nat.mod_mod_of_dvd (h.resizeThreshold * 2) (by decide : 2 ^ 32 ∣ 2 ^ 64)] at hgrants
    obtain ⟨aux, H₂, hsome⟩ := hashTableInit_iff_grants.mpr hgrants
    rw [hinit, Option.some.injEq, Prod.mk.injEq] at hsome
    exact absurd hsome.1.symm (Option.some_ne_none aux)
  · exact absurd hzero hret

/-- A resize that succeeds had both arrays, and an `unsigned int` could count the old buckets. -/
theorem hashTableResize_succeeded (hres : hashTableResize C h H = some ((0, h'), H')) :
    GrantsArrays C (h.resizeThreshold * 2 % 2 ^ 32) H ∧ h.buckets < 2 ^ 32 := by
  rcases hashTableResize_inversion hres with ⟨hfailed, -⟩ | ⟨-, aux, H₁, old, new, hinit, hwalk, -⟩
  · exact absurd hfailed (by decide)
  · have hgrants := hashTableInit_iff_grants.mp ⟨aux, H₁, hinit⟩
    rw [Nat.mod_mod_of_dvd _ (by decide)] at hgrants
    refine ⟨hgrants, ?_⟩
    by_contra hge
    rw [forEachSafe_migrate_wraps _ (Nat.not_lt.mp hge) (by decide)] at hwalk
    exact absurd hwalk.symm (Option.some_ne_none _)

/-- The entries of the rebuilt table are where their hashes name, as long as the indices survive an
`unsigned int`, and not otherwise. -/
theorem HashTable.Rebuilt.slot_eq_iff {moved : List (HashEntry K)}
    (hm : HashTable.Rebuilt C h h' moved) :
    (∀ i, ∀ e ∈ h'.table i, h'.slot e = i) ↔ ∀ e ∈ moved, h'.slot e < 2 ^ 32 := by
  have hmem : ∀ e, e ∈ moved ↔ e ∈ h'.table (h'.home e) := by
    intro e
    rw [hm.table_eq]
    simp
  constructor
  · intro hslot e he
    have heq := hslot (h'.home e) e ((hmem e).mp he)
    rw [heq]
    exact Nat.mod_lt _ (by decide)
  · intro hlt i e he
    rw [hm.table_eq, List.mem_reverse, List.mem_filter, beq_iff_eq] at he
    rw [← HashTable.home_eq_slot (hlt e he.1), he.2]

/-- The chains the walk left in its auxiliary table are those of the rebuilt one. -/
theorem HashTable.Rebuilt.table_eq_foldl {moved : List (HashEntry K)}
    (hm : HashTable.Rebuilt C h h' moved) (tableMem bucketLocks : ℕ) :
    h'.table = (moved.foldl hashTableInsert (HashTable.fresh C (h.resizeThreshold * 2 % 2 ^ 32)
      h.keycmp h.myHashFn tableMem bucketLocks)).table := by
  have hhome : ∀ e, h'.home e = (HashTable.fresh C (h.resizeThreshold * 2 % 2 ^ 32) h.keycmp
      h.myHashFn tableMem bucketLocks).home e := by
    intro e
    rw [HashTable.home, hashTableHashCode, hm.hashFn, hm.buckets]
    rfl
  rw [foldl_hashTableInsert]
  funext j
  rw [hm.table_eq]
  simp only [hhome]
  exact (List.append_nil _).symm

/-- **A resize that succeeds** loses and repeats nothing; the entries are in the buckets their
hashes name exactly when the new indices survive an `unsigned int`. -/
theorem kept_iff (hp : h.Placed) (hf : h.Findable)
    (hres : hashTableResize C h H = some ((0, h'), H')) :
    Kept C h h' H ↔ ∀ e ∈ h.entries,
      h.myHashFn e.key e.klen % hashtblSz C (h.resizeThreshold * 2 % 2 ^ 32) < 2 ^ 32 := by
  obtain ⟨hgrants, hlt⟩ := hashTableResize_succeeded hres
  have hmod : h.resizeThreshold * 2 % 2 ^ 64 % 2 ^ 32 = h.resizeThreshold * 2 % 2 ^ 32 :=
    Nat.mod_mod_of_dvd _ (by decide)
  rw [← hmod] at hgrants
  obtain ⟨aux, H₁, hinit⟩ := hashTableInit_iff_grants.mpr hgrants
  obtain ⟨tableMem, bucketLocks, rfl⟩ := eq_fresh_of_hashTableInit hinit
  rw [hmod] at hinit
  obtain ⟨hfits, hm⟩ : h.Fits C ∧ HashTable.Migrated C h h' := by
    rcases hashTableResize_cases hp hf.reflexive hres with ⟨hret, -⟩ | ⟨-, hfits, hm⟩
    · simp at hret
    · exact ⟨hfits, hf.migrated hm⟩
  have hslot : ∀ e, h'.slot e =
      h.myHashFn e.key e.klen % hashtblSz C (h.resizeThreshold * 2 % 2 ^ 32) := by
    intro e
    rw [HashTable.slot, hm.hashFn, hm.buckets]
  simp only [← hslot]
  rw [← hm.slot_eq_iff]
  constructor
  · intro hkept
    exact hkept.slot_eq
  · intro hseated
    have hwalk := (migrate_walk hp hf.reflexive hlt (HashTable.fresh C
      (h.resizeThreshold * 2 % 2 ^ 32) h.keycmp h.myHashFn tableMem bucketLocks)).trans
        (if_pos hfits)
    rw [hf.movedFrom] at hwalk
    exact ⟨⟨_, H₁, _, _, hinit, hwalk, hf.leftIn hp, hm.table_eq_foldl tableMem bucketLocks⟩,
      hm.entries_perm, hseated⟩

/-- The allocator has both arrays of the new table, whatever the threshold is reduced by first. -/
theorem HashTable.gets_iff_grants :
    h.Gets C H ↔ GrantsArrays C (h.resizeThreshold * 2 % 2 ^ 32) H := by
  rw [HashTable.Gets, hashTableInit_iff_grants, Nat.mod_mod_of_dvd _ (by decide)]

/-- Every hash names a bucket whose head is set up exactly when every entry goes to such a head, and
its index survives an `unsigned int`. -/
theorem HashTable.Findable.fits_iff (hf : h.Findable) :
    (∀ e ∈ h.entries, h.myHashFn e.key e.klen % hashtblSz C (h.resizeThreshold * 2 % 2 ^ 32) <
        (hashtblSz C (h.resizeThreshold * 2 % 2 ^ 32) - 1) % 2 ^ 32 + 1) ↔
      h.Fits C ∧ ∀ e ∈ h.entries,
        h.myHashFn e.key e.klen % hashtblSz C (h.resizeThreshold * 2 % 2 ^ 32) < 2 ^ 32 := by
  have hfits : h.Fits C ↔ ∀ e ∈ h.entries,
      h.myHashFn e.key e.klen % hashtblSz C (h.resizeThreshold * 2 % 2 ^ 32) % 2 ^ 32 <
        (hashtblSz C (h.resizeThreshold * 2 % 2 ^ 32) - 1) % 2 ^ 32 + 1 := by
    rw [HashTable.Fits, hf.movedFrom]
    exact Iff.rfl
  have hsize : 0 < hashtblSz C (h.resizeThreshold * 2 % 2 ^ 32) := hashtblSz_pos C _
  generalize hashtblSz C (h.resizeThreshold * 2 % 2 ^ 32) = n at hfits hsize ⊢
  rw [hfits, ← forall₂_and]
  refine forall₂_congr fun e _ => ?_
  have hlt : h.myHashFn e.key e.klen % n < n := Nat.mod_lt _ hsize
  omega

/-- **When a resize returns**: an array of the new table is refused, or the old buckets can be
counted and the new heads are set up. -/
theorem hashTableResize_returns_iff (hs : h.Seated) (hf : h.Findable) :
    (∃ ret h' H', hashTableResize C h H = some ((ret, h'), H')) ↔
      (GrantsArrays C (h.resizeThreshold * 2 % 2 ^ 32) H → h.buckets < 2 ^ 32 ∧ h.Fits C) := by
  constructor
  · rintro ⟨ret, h', H', hres⟩ hgrants
    have hret : ret = 0 := by
      by_contra hne
      exact (hashTableResize_failed hres hne).2 hgrants
    subst hret
    have hlt := (hashTableResize_succeeded hres).2
    rcases hashTableResize_cases (hs.placed hlt.le) hf.reflexive hres with
      ⟨hret, -⟩ | ⟨-, hfits, -⟩
    · exact absurd hret (by decide)
    · exact ⟨hlt, hfits⟩
  · intro hwhen
    by_cases hgrants : GrantsArrays C (h.resizeThreshold * 2 % 2 ^ 32) H
    · obtain ⟨hlt, hfits⟩ := hwhen hgrants
      rcases hashTableResize_spec C (hs.placed hlt.le) hf.reflexive hlt H with
        ⟨H', hres⟩ | ⟨-, h', H', hres, -⟩ | ⟨hnot, -⟩
      · exact ⟨-1, h, H', hres⟩
      · exact ⟨0, h', H', hres⟩
      · exact absurd hfits hnot
    · rcases hashTableInit_spec C (h.resizeThreshold * 2 % 2 ^ 64) (some h.keycmp) h.myHashFn H with
        ⟨H', hinit⟩ | ⟨_, _, H', hinit⟩
      · exact ⟨-1, h, H', by rw [hashTableResize, HeapM.bind_apply hinit]; rfl⟩
      · exact absurd (HashTable.gets_iff_grants.mp ⟨_, H', hinit⟩) hgrants

/-- **Resizing loses and repeats nothing.** A resize that fails changes nothing. One that succeeds
has emptied the old chains and holds the same entries; each is in the bucket its hash names exactly
when every new index survives an `unsigned int`. All this comes to pass exactly when an array is
refused, or the old buckets can be counted and every entry belongs to a bucket whose head is set
up. -/
theorem resize_conserves_iff (C : Clib K) {h : HashTable K} (hs : h.Seated) (hf : h.Findable)
    (H : Heap) :
    (∀ ret h' H', hashTableResize C h H = some ((ret, h'), H') → (ret ≠ 0 → h' = h) ∧
      (ret = 0 → (Kept C h h' H ↔ ∀ e ∈ h.entries,
        h.myHashFn e.key e.klen % hashtblSz C (h.resizeThreshold * 2 % 2 ^ 32) < 2 ^ 32))) ∧
      (ResizeConserves C h H ↔
        (GrantsArrays C (h.resizeThreshold * 2 % 2 ^ 32) H → h.buckets < 2 ^ 32 ∧
          ∀ e ∈ h.entries,
            h.myHashFn e.key e.klen % hashtblSz C (h.resizeThreshold * 2 % 2 ^ 32) <
              (hashtblSz C (h.resizeThreshold * 2 % 2 ^ 32) - 1) % 2 ^ 32 + 1)) := by
  have hends : ∀ {ret h' H'}, hashTableResize C h H = some ((ret, h'), H') → (ret ≠ 0 → h' = h) ∧
      (ret = 0 → (Kept C h h' H ↔ ∀ e ∈ h.entries,
        h.myHashFn e.key e.klen % hashtblSz C (h.resizeThreshold * 2 % 2 ^ 32) < 2 ^ 32)) := by
    intro ret h' H' hres
    refine ⟨fun hret => (hashTableResize_failed hres hret).1, ?_⟩
    rintro rfl
    exact kept_iff (hs.placed (hashTableResize_succeeded hres).2.le) hf hres
  refine ⟨fun _ _ _ => hends, ?_⟩
  rw [hf.fits_iff]
  constructor
  · rintro ⟨ret, h', H', hres, hkept, -⟩ hgrants
    obtain ⟨hlt, hfits⟩ := (hashTableResize_returns_iff hs hf).mp ⟨ret, h', H', hres⟩ hgrants
    have hret : ret = 0 := by
      by_contra hne
      exact (hashTableResize_failed hres hne).2 hgrants
    exact ⟨hlt, hfits, ((hends hres).2 hret).mp (hkept hret)⟩
  · intro hwhen
    obtain ⟨ret, h', H', hres⟩ := (hashTableResize_returns_iff hs hf).mpr fun hgrants =>
      ⟨(hwhen hgrants).1, (hwhen hgrants).2.1⟩
    refine ⟨ret, h', H', hres, fun hret => ?_, (hends hres).1⟩
    subst hret
    exact ((hends hres).2 rfl).mpr (hwhen (hashTableResize_succeeded hres).1).2.2

/-- A table for a threshold of `b`, the key its own hash, into which one integer key was
inserted. -/
def oneKeyTable (b key : ℕ) : HashTable ℕ :=
  hashTableInsert (HashTable.fresh Clib.nearest b (fun a b _ => a - b) (fun key _ => key)
    1048576 2097152) ⟨100, key, 8, false⟩

theorem oneKeyTable_placed (b key : ℕ) : (oneKeyTable b key).Placed := by
  refine (placed_fresh Clib.nearest b _ _ _ _).listAdd fun t ht => ?_
  rw [entries_fresh] at ht
  exact absurd ht List.not_mem_nil

theorem mem_oneKeyTable {b key : ℕ} {e : HashEntry ℕ} :
    e ∈ (oneKeyTable b key).entries ↔ e = ⟨100, key, 8, false⟩ := by
  have hperm := (HashTable.fresh Clib.nearest b (fun a b _ => (a : ℤ) - b) (fun key _ => key)
    1048576 2097152).entries_listAdd (HashTable.home_lt (hashtblSz_pos _ b)
      ⟨100, key, 8, false⟩) ⟨100, key, 8, false⟩
  rw [entries_fresh] at hperm
  exact hperm.mem_iff.trans List.mem_singleton

theorem oneKeyTable_findable (b key : ℕ) : (oneKeyTable b key).Findable := by
  intro e he
  obtain rfl := mem_oneKeyTable.mp he
  exact ⟨.inr le_rfl, sub_self (key : ℤ)⟩

/-- Three entries on one chain: two of them share the key `5`, one of these is a string, and the
comparator tells no key from another. -/
def crowdedTable : HashTable ℕ :=
  [⟨100, 5, 8, false⟩, ⟨200, 102, 8, false⟩, ⟨300, 5, 9, true⟩].foldl hashTableInsert
    (HashTable.fresh Clib.nearest 40 (fun _ _ _ => 0) (fun key _ => key) 1048576 2097152)

theorem crowdedTable_entries :
    crowdedTable.entries = [⟨300, 5, 9, true⟩, ⟨200, 102, 8, false⟩, ⟨100, 5, 8, false⟩] := by
  decide

theorem crowdedTable_placed : crowdedTable.Placed := by
  have hnone := placed_fresh Clib.nearest 40 (fun _ _ _ => 0) (fun key _ => key) 1048576 2097152
  have hone := hnone.listAdd (e := ⟨100, 5, 8, false⟩) (by decide)
  have htwo := hone.listAdd (e := ⟨200, 102, 8, false⟩) (by decide)
  exact htwo.listAdd (e := ⟨300, 5, 9, true⟩) (by decide)

theorem crowdedTable_findable : crowdedTable.Findable := by
  intro e he
  rw [crowdedTable_entries] at he
  exact ⟨by revert e; decide, rfl⟩

theorem resize_conserves_iff_crowded : crowdedTable.table 5 = crowdedTable.entries ∧
    crowdedTable.entries.length = 3 ∧ GrantsArrays Clib.nearest 80 sampleHeap ∧
      ResizeConserves Clib.nearest crowdedTable sampleHeap := by
  have hlt : crowdedTable.buckets < 2 ^ 32 := by decide
  refine ⟨by decide, by decide, ⟨by decide, by decide⟩, ?_⟩
  refine (resize_conserves_iff Clib.nearest (crowdedTable_placed.seated hlt.le)
    crowdedTable_findable sampleHeap).2.mpr fun _ => ⟨hlt, ?_⟩
  rw [crowdedTable_entries]
  decide

/-- A heap whose allocator answers the `k`-th request with terabyte `k + 1`. -/
def vastHeap : Heap := { sampleHeap with reply k := some (2 ^ 40 * (k + 1)) }

/-- **A table beyond `2 ^ 32` buckets.** The key `2 ^ 32`, its own hash, is in its bucket before the
resize, which makes `2 ^ 32 + 1024` buckets and puts the key into bucket `0`. -/
theorem resize_misplaces : (oneKeyTable 1610613120 (2 ^ 32)).Seated ∧
    (oneKeyTable 1610613120 (2 ^ 32)).Findable ∧
    ¬ ResizeConserves Clib.nearest (oneKeyTable 1610613120 (2 ^ 32)) vastHeap := by
  have hlt : (oneKeyTable 1610613120 (2 ^ 32)).buckets < 2 ^ 32 := by decide
  have hs := (oneKeyTable_placed 1610613120 (2 ^ 32)).seated hlt.le
  have hf := oneKeyTable_findable 1610613120 (2 ^ 32)
  refine ⟨hs, hf, fun hkeeps => ?_⟩
  have hgrants : GrantsArrays Clib.nearest (1610613120 * 2 % 2 ^ 32) vastHeap := by
    constructor <;> decide
  obtain ⟨ret, h', H', hres, hkept, -⟩ := hkeeps
  have hret : ret = 0 := by
    by_contra hne
    exact (hashTableResize_failed hres hne).2 hgrants
  subst hret
  have hindex := (kept_iff (hs.placed hlt.le) hf hres).mp (hkept rfl) _ (mem_oneKeyTable.mpr rfl)
  exact absurd hindex (by decide)

end Milu
