import Milu.Hashtbl.Basic
import Milu.Lib.Lists

/-!
# Entries in their home buckets

The invariant of the table: every entry is on the chain of the bucket its key hashes to, and no
entry struct is linked twice. Each operation is described once by what it does to the list of all
entries, up to order; the invariant follows from that.

## Main definitions

* `HashTable.Placed` — the placement invariant
* `HashTable.Findable` — every entry can be found by its own key

## Main results

* `HashTable.entries_listAdd`, `HashTable.entries_listDelInit` — linking and unlinking, as
  permutations of the entries
* `HashTable.Placed.listAdd`, `HashTable.Placed.listDelInit`
* `hashTableDelKeySafe_spec` — a deletion removes nothing or the entry the lookup finds
-/

namespace Milu

variable {K : Type}

/-! ### Chains -/

/-- Erasing by address from a chain without repeated addresses takes out the entry itself. -/
theorem cons_eraseP_perm {c : List (HashEntry K)} (hc : (c.map HashEntry.addr).Nodup)
    {e : HashEntry K} (he : e ∈ c) : (e :: c.eraseP fun t => t.addr == e.addr).Perm c := by
  obtain ⟨a, l₁, l₂, -, ha, hsplit, herase⟩ := List.exists_of_eraseP he (p := fun t =>
    t.addr == e.addr) (by simp)
  have hae : a = e := by
    refine List.inj_on_of_nodup_map hc ?_ he (by simpa using ha)
    rw [hsplit]
    simp
  rw [herase, hsplit, hae]
  exact List.perm_middle.symm

/-! ### The placement invariant -/

namespace HashTable

/-- Every entry is in its home bucket and no struct is linked twice. -/
structure Placed (h : HashTable K) : Prop where
  buckets_pos : 0 < h.buckets
  home_eq : ∀ i, ∀ e ∈ h.table i, h.home e = i
  nodup : (h.entries.map HashEntry.addr).Nodup

/-- Every entry can be found by its own key: the key is one the table accepts, and the comparator
returns zero on it. -/
def Findable (h : HashTable K) : Prop :=
  ∀ e ∈ h.entries, e.Valid ∧ h.keycmp e.key e.key e.klen = 0

/-- The same table with other chains. -/
def withTable (h : HashTable K) (t : ℕ → List (HashEntry K)) : HashTable K := { h with table := t }

@[simp] theorem withTable_table (h : HashTable K) (t : ℕ → List (HashEntry K)) :
    (h.withTable t).table = t := rfl

@[simp] theorem withTable_self (h : HashTable K) : h.withTable h.table = h := rfl

@[simp] theorem withTable_withTable (h : HashTable K) (t t' : ℕ → List (HashEntry K)) :
    (h.withTable t).withTable t' = h.withTable t' := rfl

@[simp] theorem listAdd_table (h : HashTable K) (n : ℕ) (e : HashEntry K) :
    (h.listAdd n e).table = Function.update h.table n (e :: h.table n) := rfl

@[simp] theorem listDelInit_table (h : HashTable K) (n : ℕ) (e : HashEntry K) :
    (h.listDelInit n e).table =
      Function.update h.table n ((h.table n).eraseP fun t => t.addr == e.addr) := rfl

theorem hashCode_lt {h : HashTable K} (hpos : 0 < h.buckets) (key : K) (len : ℕ) :
    hashTableHashCode h key len < h.buckets :=
  Nat.lt_of_le_of_lt (Nat.mod_le _ _) (Nat.mod_lt _ hpos)

theorem home_lt {h : HashTable K} (hpos : 0 < h.buckets) (e : HashEntry K) :
    h.home e < h.buckets :=
  hashCode_lt hpos e.key e.klen

/-- Up to `2 ^ 32` buckets every head is set up. -/
theorem heads_eq {h : HashTable K} (hpos : 0 < h.buckets) (hle : h.buckets ≤ 2 ^ 32) :
    h.heads = h.buckets := by
  rw [heads, Nat.mod_eq_of_lt (by omega)]
  omega

theorem home_lt_heads {h : HashTable K} (hpos : 0 < h.buckets) (hle : h.buckets ≤ 2 ^ 32)
    (e : HashEntry K) : h.home e < h.heads := by
  rw [heads_eq hpos hle]
  exact home_lt hpos e

theorem reach_apply {h : HashTable K} {n : ℕ} (hn : n < h.heads) (H : Heap) :
    h.reach n H = some ((), H) := by
  rw [reach, guard, if_pos hn]
  rfl

theorem of_reach {h : HashTable K} {n : ℕ} {H : Heap} {r : Unit × Heap}
    (hr : h.reach n H = some r) : n < h.heads ∧ r = ((), H) := by
  by_cases hn : n < h.heads
  · rw [reach_apply hn] at hr
    exact ⟨hn, (Option.some.inj hr).symm⟩
  · rw [reach, guard, if_neg hn] at hr
    exact absurd hr.symm (Option.some_ne_none r)

@[simp] theorem next_head {h : HashTable K} {i : ℕ} (hi : i < h.heads) :
    h.next (.head i) = some (Pos.first i (h.table i)) := if_pos hi

theorem of_next_head {h : HashTable K} {i : ℕ} {n : Pos K} (hn : h.next (.head i) = some n) :
    i < h.heads ∧ n = Pos.first i (h.table i) := by
  rw [next] at hn
  split_ifs at hn with hi
  exact ⟨hi, (Option.some.inj hn).symm⟩

theorem mem_entries_iff {h : HashTable K} {e : HashEntry K} :
    e ∈ h.entries ↔ ∃ i < h.buckets, e ∈ h.table i := by
  simp [entries]

theorem Placed.lt_buckets {h : HashTable K} (hp : h.Placed) {i : ℕ} {e : HashEntry K}
    (he : e ∈ h.table i) : i < h.buckets := by
  rw [← hp.home_eq i e he]
  exact home_lt hp.buckets_pos e

theorem Placed.mem_entries {h : HashTable K} (hp : h.Placed) {i : ℕ} {e : HashEntry K}
    (he : e ∈ h.table i) : e ∈ h.entries :=
  mem_entries_iff.mpr ⟨i, hp.lt_buckets he, he⟩

theorem Placed.mem_home {h : HashTable K} (hp : h.Placed) {e : HashEntry K}
    (he : e ∈ h.entries) : e ∈ h.table (h.home e) := by
  obtain ⟨i, -, hi⟩ := mem_entries_iff.mp he
  rwa [hp.home_eq i e hi]

theorem Placed.entries_nodup {h : HashTable K} (hp : h.Placed) : h.entries.Nodup :=
  List.Nodup.of_map _ hp.nodup

/-- A chain is a sublist of the entries, so it has no repeated address either. -/
theorem Placed.chain_nodup {h : HashTable K} (hp : h.Placed) (i : ℕ) :
    ((h.table i).map HashEntry.addr).Nodup := by
  by_cases hi : i < h.buckets
  · have hsub : (h.table i).Sublist h.entries :=
      List.sublist_flatten_of_mem (List.mem_map.mpr ⟨i, List.mem_range.mpr hi, rfl⟩)
    exact hp.nodup.sublist (hsub.map _)
  · have hnil : h.table i = [] :=
      List.eq_nil_iff_forall_not_mem.mpr fun e he => hi (hp.lt_buckets he)
    simp [hnil]

/-! ### Linking and unlinking -/

/-- The entries, with the chain of one bucket in front. -/
theorem entries_perm_chain (h : HashTable K) {n : ℕ} (hn : n < h.buckets) :
    h.entries.Perm (h.table n ++ ((List.range h.buckets).erase n).flatMap h.table) := by
  simpa [entries] using
    flatMap_update_perm List.nodup_range (List.mem_range.mpr hn) h.table (h.table n)

/-- **Linking adds the entry and nothing else.** -/
theorem entries_listAdd (h : HashTable K) {n : ℕ} (hn : n < h.buckets) (e : HashEntry K) :
    (h.listAdd n e).entries.Perm (e :: h.entries) :=
  (flatMap_update_perm List.nodup_range (List.mem_range.mpr hn) h.table _).trans
    ((h.entries_perm_chain hn).symm.cons e)

/-- **Unlinking takes the entry out and nothing else.** -/
theorem entries_listDelInit {h : HashTable K} (hp : h.Placed) {n : ℕ} {e : HashEntry K}
    (he : e ∈ h.table n) : (e :: (h.listDelInit n e).entries).Perm h.entries := by
  have hn := hp.lt_buckets he
  have hnew := flatMap_update_perm List.nodup_range (List.mem_range.mpr hn) h.table
    ((h.table n).eraseP fun t => t.addr == e.addr)
  exact (hnew.cons e).trans
    (((cons_eraseP_perm (hp.chain_nodup n) he).append_right _).trans
      (h.entries_perm_chain hn).symm)

theorem Placed.listAdd {h : HashTable K} (hp : h.Placed) {e : HashEntry K}
    (hnew : ∀ t ∈ h.entries, t.addr ≠ e.addr) : (h.listAdd (h.home e) e).Placed where
  buckets_pos := hp.buckets_pos
  home_eq i t ht := by
    by_cases hi : i = h.home e
    · subst hi
      rw [listAdd_table, Function.update_self] at ht
      rcases List.mem_cons.mp ht with rfl | ht
      · rfl
      · exact hp.home_eq _ t ht
    · rw [listAdd_table, Function.update_of_ne hi] at ht
      exact hp.home_eq i t ht
  nodup := by
    have hperm := (h.entries_listAdd (home_lt hp.buckets_pos e) e).map HashEntry.addr
    refine hperm.nodup_iff.mpr (List.nodup_cons.mpr ⟨fun hmem => ?_, hp.nodup⟩)
    obtain ⟨t, ht, hta⟩ := List.mem_map.mp hmem
    exact hnew t ht hta

theorem Placed.listDelInit {h : HashTable K} (hp : h.Placed) {n : ℕ} {e : HashEntry K}
    (he : e ∈ h.table n) : (h.listDelInit n e).Placed where
  buckets_pos := hp.buckets_pos
  home_eq i t ht := by
    by_cases hi : i = n
    · subst hi
      rw [listDelInit_table, Function.update_self] at ht
      exact hp.home_eq _ t (List.mem_of_mem_eraseP ht)
    · rw [listDelInit_table, Function.update_of_ne hi] at ht
      exact hp.home_eq i t ht
  nodup := by
    have hperm := (entries_listDelInit hp he).map HashEntry.addr
    exact (List.nodup_cons.mp (hperm.nodup_iff.mpr hp.nodup)).2

/-- The counter plays no part in the placement. -/
theorem Placed.congr {h h' : HashTable K} (hp : h.Placed) (htable : h'.table = h.table)
    (hbuckets : h'.buckets = h.buckets) (hfn : h'.myHashFn = h.myHashFn) : h'.Placed where
  buckets_pos := hbuckets ▸ hp.buckets_pos
  home_eq i e he := by
    rw [htable] at he
    rw [← hp.home_eq i e he, home, home, hashTableHashCode, hashTableHashCode, hfn, hbuckets]
  nodup := by
    rw [entries, htable, hbuckets]
    exact hp.nodup

end HashTable

theorem hashtblSz_pos (C : Clib K) (b : ℕ) : 0 < hashtblSz C b := by
  rw [hashtblSz]
  split_ifs
  · cases hf : hashtblPrimeSz.find? (C.roundf b ≤ ·) with
    | none =>
      have := List.find?_eq_none.mp hf lastPrimeSz (by decide)
      simp_all
    | some p =>
      have hp : p ∈ hashtblPrimeSz := List.mem_of_find?_eq_some hf
      exact (by decide : ∀ q ∈ hashtblPrimeSz, 0 < q) p hp
  · have : 0 < lastPrimeSz := by decide
    omega

theorem entries_fresh (C : Clib K) (b : ℕ) (keycmp : K → K → ℕ → ℤ) (hashFn : K → ℕ → ℕ)
    (tableMem bucketLocks : ℕ) :
    (HashTable.fresh C b keycmp hashFn tableMem bucketLocks).entries = [] := by
  simp [HashTable.entries, HashTable.fresh]

theorem placed_fresh (C : Clib K) (b : ℕ) (keycmp : K → K → ℕ → ℤ) (hashFn : K → ℕ → ℕ)
    (tableMem bucketLocks : ℕ) :
    (HashTable.fresh C b keycmp hashFn tableMem bucketLocks).Placed where
  buckets_pos := hashtblSz_pos C b
  home_eq i e he := absurd he List.not_mem_nil
  nodup := by
    rw [entries_fresh]
    exact List.nodup_nil

/-! ### Lookups and deletions -/

theorem hashTableLookupKey_mem {h : HashTable K} {key : K} {len : ℕ} {e : HashEntry K}
    (he : hashTableLookupKey h key len = some e) :
    e ∈ h.table (hashTableHashCode h key len) ∧ e.klen = len ∧ h.keycmp e.key key e.klen = 0 := by
  refine ⟨List.mem_of_find?_eq_some he, ?_⟩
  simpa using List.find?_some he

/-- Run by one thread, the two deletions do the same. -/
theorem hashTableDelKeySafe_eq (h : HashTable K) (key : K) (len : ℕ) :
    hashTableDelKeySafe h key len = hashTableDelKey h key len := rfl

theorem hashTableDelKeySafe_withTable (h : HashTable K) (key : K) (len : ℕ) :
    ∃ t, (hashTableDelKeySafe h key len).2 = h.withTable t := by
  rw [hashTableDelKeySafe]
  cases hashTableLookupKey h key len with
  | none => exact ⟨h.table, rfl⟩
  | some e => exact ⟨_, rfl⟩

theorem hashTableDelHashEntrySafe_withTable (h : HashTable K) (e : HashEntry K) :
    ∃ t, (hashTableDelHashEntrySafe h e).2 = h.withTable t := by
  rw [hashTableDelHashEntrySafe, hashTableDelKeySafeS, hashTableDelKeySafeI]
  split_ifs
  · exact hashTableDelKeySafe_withTable h _ _
  · exact ⟨h.table, rfl⟩
  · exact hashTableDelKeySafe_withTable h _ _

/-- **A deletion** returns what the lookup finds and unlinks exactly that. -/
theorem hashTableDelKeySafe_spec {h : HashTable K} (hp : h.Placed) (key : K) (len : ℕ) :
    ((hashTableDelKeySafe h key len).1 = none ∧ hashTableLookupKey h key len = none ∧
        (hashTableDelKeySafe h key len).2 = h) ∨
      ∃ e, hashTableLookupKey h key len = some e ∧ (hashTableDelKeySafe h key len).1 = some e ∧
        (hashTableDelKeySafe h key len).2 = h.listDelInit (hashTableHashCode h key len) e ∧
        (hashTableDelKeySafe h key len).2.Placed ∧
        (e :: (hashTableDelKeySafe h key len).2.entries).Perm h.entries := by
  cases hl : hashTableLookupKey h key len with
  | none => left; simp [hashTableDelKeySafe, hl]
  | some e =>
    right
    have hmem := (hashTableLookupKey_mem hl).1
    refine ⟨e, rfl, ?_⟩
    simp only [hashTableDelKeySafe, hl]
    exact ⟨trivial, trivial, hp.listDelInit hmem, HashTable.entries_listDelInit hp hmem⟩

end Milu
