import Milu.Hashtbl.Lossless
import Milu.Hashtbl.Traversal

/-!
# Emptying a table while walking it

The loop of `milu_cleanup` deletes the entry it stands on by its key and releases its record. The
search for the key starts at the front of the chain. The walk has emptied the chain up to where it
stands, so the first entry the search meets is that very entry, and it matches its own key. The
successor was saved before, and is still linked.

Only the bucket counter can go wrong: it is a `uint32_t`, and the bucket count is a `size_t`.

## Main definitions

* `cleanupBody` — the body of the loop on a table, with a log of what it unlinks and releases
* `CleanedUp` — what the traversal owes the entries
* `Cleaning` — the traversal under way

## Main results

* `cleanupBody_spec`, `Cleaning.step`, `cleanup_run` — the body, one step of the loops, all of them
* `cleanup_iff` — the traversal empties the table and visits each entry once
* `cleanup_never_ends` — a table of `2 ^ 32` buckets
-/

namespace Milu

variable {K : Type}

/-- What the loop did in one round: the entry that the deletion unlinked, and the one whose record
was released. -/
abbrev CleanupLog (K : Type) := List (Option (HashEntry K) × HashEntry K)

/-- The body of the loop in `milu_cleanup`. -/
def cleanupBody (pos : Pos K) (i : ℕ) : StateT (HashTable K × CleanupLog K) Option ℕ :=
  fun (h, log) =>
    match pos with
    | .head _ => none
    | .node entry =>
      let (unlinked, h) := hashTableDelHashEntry h entry
      some (i, h, log ++ [(unlinked, entry)])

/-- The cursor is the head of the bucket, or an entry linked in the table. -/
def Pos.Linked (h : HashTable K) (i : ℕ) : Pos K → Prop
  | .head j => j = i
  | .node e => e ∈ h.entries

/-- The traversal returns with every chain empty and every entry released, once and in order. All
along, the entry released is the one unlinked, an entry is either linked or released, and the
cursors, from which the loops read on, are linked. -/
structure CleanedUp (h : HashTable K) : Prop where
  returns : ∃ fuel h' log,
    forEachSafe failure (Prod.fst <$> get) cleanupBody fuel 0 none (h, []) = some ((), h', log) ∧
      (∀ i, h'.table i = []) ∧ log.map Prod.snd = h.entries
  underway : ∀ w, Walk.Reaches Prod.fst cleanupBody ⟨0, none, (h, [])⟩ w →
    (∀ p ∈ w.state.2, p.1 = some p.2) ∧
      (w.state.2.map Prod.snd ++ w.state.1.entries).Perm h.entries ∧
      (∀ p ∈ w.state.2, ∀ t ∈ w.state.1.entries, t.addr ≠ p.2.addr) ∧
      ∀ pos n, w.cur = some (pos, n) → pos.Linked w.state.1 w.hti ∧ n.Linked w.state.1 w.hti

/-! ### The traversal under way -/

/-- Chains cut down leave the remaining entries where they are. -/
theorem HashTable.Placed.of_sublist {h : HashTable K} (hp : h.Placed) {c : ℕ → List (HashEntry K)}
    (hc : ∀ i, (c i).Sublist (h.table i)) : (h.withTable c).Placed where
  buckets_pos := hp.buckets_pos
  home_eq i e he := hp.home_eq i e ((hc i).subset he)
  nodup := by
    have hsub : ((List.range h.buckets).flatMap c).Sublist h.entries := by
      rw [HashTable.entries]
      induction List.range h.buckets with
      | nil => exact List.Sublist.refl _
      | cons i l ih => simpa using (hc i).append ih
    exact hp.nodup.sublist (hsub.map _)

/-- The chains of `h` from bucket `i` on, with `c` left of the chain of bucket `i`. -/
def HashTable.leftFrom (h : HashTable K) (i : ℕ) (c : List (HashEntry K)) (j : ℕ) :
    List (HashEntry K) :=
  if j < i then [] else if j = i then c else h.table j

/-- The log after the entries `l` were visited. -/
def visited (l : List (HashEntry K)) : CleanupLog K := l.map fun e => (some e, e)

/-- The walk under way, with the number of steps that are left: before a bucket, or on a chain of
which `l` was visited and `c` is left. -/
inductive Cleaning (h : HashTable K) : ℕ → Walk K (HashTable K × CleanupLog K) → Prop
  | outer (i : ℕ) : i ≤ h.buckets → Cleaning h (h.stepsFrom i)
      ⟨i, none, (h.withTable (h.leftFrom i (h.table i)),
        visited ((List.range i).flatMap h.table))⟩
  | inner (i : ℕ) (l c : List (HashEntry K)) : i < h.buckets → h.table i = l ++ c →
      Cleaning h (c.length + 1 + h.stepsFrom (i + 1))
        ⟨i, some (Pos.first i c, Pos.first i c.tail),
          (h.withTable (h.leftFrom i c), visited ((List.range i).flatMap h.table ++ l))⟩

section

variable {h : HashTable K}

theorem leftFrom_self (i : ℕ) (c : List (HashEntry K)) : h.leftFrom i c i = c := by
  simp [HashTable.leftFrom]

theorem leftFrom_zero : h.leftFrom 0 (h.table 0) = h.table := by
  funext j
  by_cases hj : j = 0 <;> simp [HashTable.leftFrom, hj]

theorem leftFrom_succ (i : ℕ) : h.leftFrom i [] = h.leftFrom (i + 1) (h.table (i + 1)) := by
  funext j
  simp only [HashTable.leftFrom]
  rcases Nat.lt_trichotomy j i with hj | rfl | hj
  · rw [if_pos hj, if_pos (by omega)]
  · rw [if_neg (by omega), if_pos rfl, if_pos (by omega)]
  · rw [if_neg (by omega), if_neg (by omega), if_neg (by omega)]
    split_ifs with heq
    · rw [heq]
    · rfl

theorem leftFrom_sublist {i : ℕ} {l c : List (HashEntry K)} (hc : h.table i = l ++ c) (j : ℕ) :
    (h.leftFrom i c j).Sublist (h.table j) := by
  simp only [HashTable.leftFrom]
  split_ifs with hlt heq
  · exact List.nil_sublist _
  · rw [heq, hc]
    exact List.sublist_append_right l c
  · exact List.Sublist.refl _

/-- The successor that the loops read on a chain. -/
theorem next_leftFrom (hp : h.Placed) {i : ℕ} (hi : i < h.heads) {l c : List (HashEntry K)}
    (hc : h.table i = l ++ c) :
    (h.withTable (h.leftFrom i c)).next (Pos.first i c) = some (Pos.first i c.tail) := by
  have hp' := hp.of_sublist (leftFrom_sublist hc)
  cases c with
  | nil =>
    have hi' : i < (h.withTable (h.leftFrom i [])).heads := hi
    rw [Pos.first, HashTable.next_head hi', HashTable.withTable_table, leftFrom_self]
    rfl
  | cons e c =>
    have hchain : (h.withTable (h.leftFrom i (e :: c))).table i = [] ++ e :: c := leftFrom_self i _
    exact hp'.next_first hchain (by simp)

/-- Unlinking the first entry of what is left. -/
theorem listDelInit_leftFrom (i : ℕ) (e : HashEntry K) (c : List (HashEntry K)) :
    (h.withTable (h.leftFrom i (e :: c))).listDelInit i e = h.withTable (h.leftFrom i c) := by
  have hchain : (h.withTable (h.leftFrom i (e :: c))).table i = e :: c := leftFrom_self i _
  rw [HashTable.listDelInit, hchain, List.eraseP_cons_of_pos (by simp)]
  refine congrArg h.withTable (funext fun j => ?_)
  by_cases hj : j = i
  · rw [hj, Function.update_self, leftFrom_self]
  · rw [Function.update_of_ne hj]
    simp [HashTable.leftFrom, hj]

/-- What was visited on the way to a place in bucket `i`, and what is left from there on. -/
theorem visited_append_left {i : ℕ} (hi : i < h.buckets) {l c : List (HashEntry K)}
    (hc : h.table i = l ++ c) :
    ((List.range i).flatMap h.table ++ l) ++ (h.withTable (h.leftFrom i c)).entries =
      h.entries := by
  have hsplit : List.range h.buckets =
      List.range i ++ i :: List.range' (i + 1) (h.buckets - i - 1) := by
    have happend := List.range'_append_1 (s := 0) (m := i) (n := h.buckets - i - 1 + 1)
    rw [Nat.zero_add] at happend
    rw [List.range_eq_range', List.range_eq_range', ← List.range'_succ, happend]
    exact congrArg (fun n => List.range' 0 n) (by omega)
  have hbefore : (List.range i).flatMap (h.leftFrom i c) = [] := by
    refine List.flatMap_eq_nil_iff.mpr fun j hj => ?_
    rw [HashTable.leftFrom, if_pos (List.mem_range.mp hj)]
  have hafter : (List.range' (i + 1) (h.buckets - i - 1)).flatMap (h.leftFrom i c) =
      (List.range' (i + 1) (h.buckets - i - 1)).flatMap h.table := by
    refine List.flatMap_congr fun j hj => ?_
    have := (List.mem_range'_1.mp hj).1
    rw [HashTable.leftFrom, if_neg (by omega), if_neg (by omega)]
  have hleft : (h.withTable (h.leftFrom i c)).entries =
      c ++ (List.range' (i + 1) (h.buckets - i - 1)).flatMap h.table := by
    show (List.range h.buckets).flatMap (h.leftFrom i c) = _
    rw [hsplit, List.flatMap_append, List.flatMap_cons, hbefore, hafter, leftFrom_self,
      List.nil_append]
  rw [hleft, HashTable.entries, hsplit, List.flatMap_append, List.flatMap_cons, hc]
  simp

theorem entries_leftFrom_buckets (c : List (HashEntry K)) :
    (h.withTable (h.leftFrom h.buckets c)).entries = [] := by
  refine List.flatMap_eq_nil_iff.mpr fun j hj => ?_
  have hlt : j < h.buckets := List.mem_range.mp hj
  show h.leftFrom h.buckets c j = []
  rw [HashTable.leftFrom, if_pos hlt]

/-- **The body of the loop** on the first entry of a chain unlinks that entry and releases it. -/
theorem cleanupBody_spec (hp : h.Placed) (hf : h.Findable) {i : ℕ} {l c : List (HashEntry K)}
    {e : HashEntry K} (hc : h.table i = l ++ e :: c) (log : CleanupLog K) :
    cleanupBody (.node e) i (h.withTable (h.leftFrom i (e :: c)), log) =
      some (i, h.withTable (h.leftFrom i c), log ++ [(some e, e)]) := by
  set g := h.withTable (h.leftFrom i (e :: c)) with hg
  have hmem : e ∈ h.table i := by simp [hc]
  obtain ⟨hvalid, hself⟩ := hf e (hp.mem_entries hmem)
  have hchain : g.table i = e :: c := leftFrom_self i _
  have hhome : hashTableHashCode g e.key e.klen = i := hp.home_eq i e hmem
  have hlookup : hashTableLookupKey g e.key e.klen = some e := by
    have hmatch : (e.klen == e.klen && g.keycmp e.key e.key e.klen == 0) = true := by
      have hzero : g.keycmp e.key e.key e.klen = 0 := hself
      simp [hzero]
    rw [hashTableLookupKey, hhome, hchain]
    exact List.find?_cons_of_pos hmatch
  have hdelKey : hashTableDelKey g e.key e.klen = (some e, h.withTable (h.leftFrom i c)) := by
    simp only [hashTableDelKey, hlookup, hhome]
    rw [hg, listDelInit_leftFrom]
  have hdel : hashTableDelHashEntry g e = (some e, h.withTable (h.leftFrom i c)) := by
    rw [hashTableDelHashEntry, hashTableDelKeyS, hashTableDelKeyI, hdelKey]
    rcases hvalid with hs | hlen
    · rw [if_pos hs]
    · rw [if_neg (Nat.not_lt.mpr hlen), ite_self]
  simp only [cleanupBody, hdel]

theorem map_snd_visited (l : List (HashEntry K)) : (visited l).map Prod.snd = l := by
  rw [visited, List.map_map]
  exact List.map_id l

theorem visited_append (l : List (HashEntry K)) (e : HashEntry K) :
    visited l ++ [(some e, e)] = visited (l ++ [e]) := by
  simp [visited]

namespace Cleaning

/-- **One step of the loops**, while buckets are left to an `unsigned int`. -/
theorem step (hp : h.Placed) (hf : h.Findable) (hlt : h.buckets < 2 ^ 32)
    {k : ℕ} {w : Walk K (HashTable K × CleanupLog K)} (hw : Cleaning h k w) :
    (∃ k' w', w.step Prod.fst cleanupBody = some (.inl w') ∧ Cleaning h k' w' ∧ k' < k) ∨
      ∃ s, w.step Prod.fst cleanupBody = some (.inr s) ∧ (∀ i, s.1.table i = []) ∧
        s.2.map Prod.snd = h.entries := by
  have hheads : h.heads = h.buckets := HashTable.heads_eq hp.buckets_pos hlt.le
  cases hw with
  | outer i hi =>
    rcases Nat.lt_or_eq_of_le hi with hi | rfl
    · -- into the bucket
      left
      have hnext := next_leftFrom hp (i := i) (by omega) (l := []) rfl
      have hhead : (h.withTable (h.leftFrom i (h.table i))).next (.head i) =
          some (Pos.first i (h.table i)) := by
        have hi' : i < (h.withTable (h.leftFrom i (h.table i))).heads := hheads ▸ hi
        rw [HashTable.next_head hi', HashTable.withTable_table, leftFrom_self]
      refine ⟨_, _, ?_, .inner i [] (h.table i) hi rfl, ?_⟩
      · have hcond : i < (h.withTable (h.leftFrom i (h.table i))).buckets := hi
        simp only [Walk.step, if_pos hcond, hhead, Option.bind_some, hnext, Option.map_some,
          List.append_nil]
      · rw [stepsFrom_eq hi]
        omega
    · -- out of the table
      right
      refine ⟨_, if_neg (Nat.lt_irrefl h.buckets), fun j => ?_, ?_⟩
      · show h.leftFrom h.buckets (h.table h.buckets) j = []
        have hbeyond : ∀ j, h.buckets ≤ j → h.table j = [] := fun j hj =>
          List.eq_nil_iff_forall_not_mem.mpr fun e he => by
            have := hp.lt_buckets he
            omega
        simp only [HashTable.leftFrom]
        split_ifs
        · rfl
        · exact hbeyond _ le_rfl
        · exact hbeyond j (by omega)
      · rw [map_snd_visited]
        rfl
  | inner i l c hi hc =>
    left
    cases c with
    | nil =>
      have hmod : (i + 1) % 2 ^ 32 = i + 1 := Nat.mod_eq_of_lt (by omega)
      have hl : (List.range (i + 1)).flatMap h.table = (List.range i).flatMap h.table ++ l := by
        rw [List.range_succ, List.flatMap_append, List.flatMap_singleton, hc, List.append_nil]
      refine ⟨_, _, ?_, .outer (i + 1) hi, ?_⟩
      · simp only [Walk.step, Pos.first, Pos.isHead, beq_self_eq_true, if_true, hmod,
          leftFrom_succ, hl]
      · exact Nat.lt_add_of_pos_left (Nat.succ_pos _)
    | cons e c =>
      have hc' : h.table i = (l ++ [e]) ++ c := by simp [hc]
      have hbody := cleanupBody_spec hp hf hc (visited ((List.range i).flatMap h.table ++ l))
      rw [visited_append, List.append_assoc] at hbody
      have hpos : Pos.first i (e :: c) = .node e := rfl
      refine ⟨_, _, ?_, .inner i (l ++ [e]) c hi hc', ?_⟩
      · simp only [Walk.step, hpos, Pos.isHead, Bool.false_eq_true, if_false, hbody,
          Option.bind_some, List.tail_cons, next_leftFrom hp (by omega) hc', Option.map_some]
      · rw [List.length_cons]
        omega

/-- The entries visited and those linked are all there were. -/
theorem perm {k : ℕ} {w : Walk K (HashTable K × CleanupLog K)} (hw : Cleaning h k w) :
    (w.state.2.map Prod.snd ++ w.state.1.entries).Perm h.entries := by
  cases hw with
  | outer i hi =>
    rw [map_snd_visited]
    rcases Nat.lt_or_eq_of_le hi with hi | rfl
    · have hall := visited_append_left hi (l := []) (c := h.table i) rfl
      rw [List.append_nil] at hall
      rw [hall]
    · rw [entries_leftFrom_buckets, List.append_nil]
      exact List.Perm.refl _
  | inner i l c hi hc =>
    rw [map_snd_visited, visited_append_left hi hc]

theorem linked {k : ℕ} {w : Walk K (HashTable K × CleanupLog K)} (hw : Cleaning h k w)
    {pos n : Pos K}
    (hcur : w.cur = some (pos, n)) : pos.Linked w.state.1 w.hti ∧ n.Linked w.state.1 w.hti := by
  have hfirst : ∀ {i : ℕ} {c d : List (HashEntry K)}, i < h.buckets → (∀ e ∈ d, e ∈ c) →
      (Pos.first i d).Linked (h.withTable (h.leftFrom i c)) i := by
    intro i c d hi hsub
    cases d with
    | nil => rfl
    | cons e d =>
      refine HashTable.mem_entries_iff.mpr ⟨i, hi, ?_⟩
      rw [HashTable.withTable_table, leftFrom_self]
      exact hsub e List.mem_cons_self
  cases hw with
  | outer i hi => exact absurd hcur (Option.some_ne_none _).symm
  | inner i l c hi hc =>
    rw [Option.some.injEq, Prod.mk.injEq] at hcur
    obtain ⟨rfl, rfl⟩ := hcur
    exact ⟨hfirst hi fun e he => he, hfirst hi fun e he => List.mem_of_mem_tail he⟩

/-- The entry released is the one unlinked. -/
theorem same {k : ℕ} {w : Walk K (HashTable K × CleanupLog K)} (hw : Cleaning h k w) :
    ∀ p ∈ w.state.2, p.1 = some p.2 := by
  have hvisited : ∀ l : List (HashEntry K), ∀ p ∈ visited l, p.1 = some p.2 := by
    intro l p hp
    obtain ⟨e, -, rfl⟩ := List.mem_map.mp hp
    rfl
  cases hw with
  | outer i hi => exact hvisited _
  | inner i l c hi hc => exact hvisited _

theorem apart (hn : (h.entries.map HashEntry.addr).Nodup)
    {k : ℕ} {w : Walk K (HashTable K × CleanupLog K)} (hw : Cleaning h k w) :
    ∀ p ∈ w.state.2, ∀ t ∈ w.state.1.entries, t.addr ≠ p.2.addr := by
  intro p hp t ht hta
  have hnodup := (hw.perm.map HashEntry.addr).nodup_iff.mpr hn
  rw [List.map_append, List.nodup_append'] at hnodup
  refine hnodup.2.2 (List.mem_map_of_mem (List.mem_map_of_mem hp)) ?_
  rw [← hta]
  exact List.mem_map_of_mem ht

end Cleaning

/-! ### The whole traversal -/

theorem cleaning_start : Cleaning h (h.stepsFrom 0) ⟨0, none, (h, [])⟩ := by
  have hstart := Cleaning.outer (h := h) 0 (Nat.zero_le _)
  rw [leftFrom_zero] at hstart
  exact hstart

/-- **The traversal runs to its end** below `2 ^ 32` buckets. -/
theorem cleanup_run (hp : h.Placed) (hf : h.Findable) (hlt : h.buckets < 2 ^ 32) {fuel : ℕ}
    (hfuel : h.stepsFrom 0 < fuel) : ∃ h' log,
      forEachSafe failure (Prod.fst <$> get) cleanupBody fuel 0 none (h, []) = some ((), h', log) ∧
        (∀ i, h'.table i = []) ∧ log.map Prod.snd = h.entries := by
  obtain ⟨⟨h', log⟩, hrun, hempty, hlog⟩ := forEachSafe_total
    (fun k w (hw : Cleaning h k w) => hw.step hp hf hlt) cleaning_start hfuel
  exact ⟨h', log, hrun, hempty, hlog⟩

/-- Below `2 ^ 32` buckets the traversal keeps its promises. -/
theorem cleanedUp_of_lt (hp : h.Placed) (hf : h.Findable) (hlt : h.buckets < 2 ^ 32) :
    CleanedUp h := by
  constructor
  · exact ⟨_, cleanup_run hp hf hlt (Nat.lt_succ_self _)⟩
  · intro w hreach
    have hcleaning : ∃ k, Cleaning h k w := by
      refine hreach.invariant (I := fun w => ∃ k, Cleaning h k w) ?_ ⟨_, cleaning_start⟩
      rintro w w' ⟨k, hw⟩ hstep
      rcases hw.step hp hf hlt with ⟨k', w₁, hstep₁, hw₁, -⟩ | ⟨s, hlast, -⟩
      · rw [hstep, Option.some.injEq, Sum.inl.injEq] at hstep₁
        exact ⟨k', hstep₁ ▸ hw₁⟩
      · simp [hstep] at hlast
    obtain ⟨k, hw⟩ := hcleaning
    exact ⟨hw.same, hw.perm, hw.apart hp.nodup, fun pos n => hw.linked⟩

/-- The body of the loop touches neither the bucket count nor the loop variable. -/
theorem cleanupBody_keeps {pos : Pos K} {i : ℕ} {s : HashTable K × CleanupLog K}
    {r : ℕ × HashTable K × CleanupLog K} (hr : cleanupBody pos i s = some r) :
    r.2.1.buckets = s.1.buckets ∧ (i < 2 ^ 32 → r.1 < 2 ^ 32) := by
  cases pos with
  | head j => exact absurd hr (Option.some_ne_none r).symm
  | node e =>
    obtain ⟨t, ht⟩ := hashTableDelHashEntrySafe_withTable s.1 e
    have hdel : (hashTableDelHashEntry s.1 e).2 = s.1.withTable t := ht
    have hstep : cleanupBody (.node e) i s = some (i, (hashTableDelHashEntry s.1 e).2,
      s.2 ++ [((hashTableDelHashEntry s.1 e).1, e)]) := rfl
    rw [hstep, Option.some.injEq] at hr
    subst hr
    exact ⟨by rw [hdel]; rfl, id⟩

/-- With more buckets than a `uint32_t` can count the traversal does not end. -/
theorem cleanup_wraps (hge : 2 ^ 32 ≤ h.buckets) (fuel : ℕ) :
    forEachSafe failure (Prod.fst <$> get) cleanupBody fuel 0 none (h, []) = none :=
  forEachSafe_wraps cleanupBody_keeps fuel hge (by decide)

/-- **The traversal empties the table and visits each entry once**, exactly when a `uint32_t` can
count the buckets. -/
theorem cleanup_iff (hs : h.Seated) (hf : h.Findable) : CleanedUp h ↔ h.buckets < 2 ^ 32 := by
  constructor
  · intro hclean
    by_contra hge
    obtain ⟨fuel, h', log, hrun, -⟩ := hclean.returns
    exact absurd (hrun.symm.trans (cleanup_wraps (Nat.not_lt.mp hge) fuel)) (Option.some_ne_none _)
  · intro hlt
    exact cleanedUp_of_lt (hs.placed hlt.le) hf hlt

end

theorem cleanup_iff_crowded : crowdedTable.table 5 = crowdedTable.entries ∧
    crowdedTable.entries.length = 3 ∧ CleanedUp crowdedTable := by
  have hlt : crowdedTable.buckets < 2 ^ 32 := by decide
  exact ⟨by decide, by decide,
    (cleanup_iff (crowdedTable_placed.seated hlt.le) crowdedTable_findable).mpr hlt⟩

/-- **A table of `2 ^ 32` buckets**, with one entry: the bucket counter wraps around to zero, and
the traversal starts again. -/
theorem cleanup_never_ends : (oneKeyTable 3221225472 5).buckets = 2 ^ 32 ∧
    (oneKeyTable 3221225472 5).Seated ∧ (oneKeyTable 3221225472 5).Findable ∧
      ¬ CleanedUp (oneKeyTable 3221225472 5) := by
  have hbuckets : (oneKeyTable 3221225472 5).buckets = 2 ^ 32 := by decide
  refine ⟨hbuckets, (oneKeyTable_placed _ 5).seated hbuckets.le, oneKeyTable_findable _ 5, ?_⟩
  intro hclean
  obtain ⟨fuel, h', log, hrun, -⟩ := hclean.returns
  exact absurd (hrun.symm.trans (cleanup_wraps hbuckets.ge fuel)) (Option.some_ne_none _)

end Milu
