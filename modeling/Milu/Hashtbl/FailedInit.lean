import Milu.Hashtbl.Runs

/-!
# Inserts whose entry could not be set up

`hash_entry_init` returns `-1` for an integer key longer than a pointer, for a string key that is
`NULL`, and when the copy of a string key cannot be had. It has set the flag by then. The length in
the struct is whatever it was before, and so is the key, unless the copy was asked for: then the key
is `NULL`, since the answer of `malloc` is assigned to it before it is looked at.

None of the four inserts looks at what `hash_entry_init` returned. They hash the key they find in
the struct and link the entry under it, so the next search for that key finds it.

## Main definitions

* `KeyArg.Refused` — what makes `hash_entry_init` fail
* `HashEntry.halfInit` — the entry it leaves
* `LeftAlone` — no one can tell a table from another

## Main results

* `hashEntryInit_refused_iff` — when `hash_entry_init` fails
* `insert_links` — an insert links what `hash_entry_init` left
* `failed_init_links` — no insert leaves the table alone
* `failed_init_found` — a search for the key of a failed insert
-/

namespace Milu

variable {K : Type}

/-! ### Setting up an entry -/

/-- `hash_entry_init` fails on the key. -/
def KeyArg.Refused (len : ℕ) (H : Heap) : KeyArg K → Prop
  | .int _ => sizeofPtr < len
  | .str none => True
  | .str (some _) => H.answer len = none

/-- The entry that a failing `hash_entry_init` leaves: the length is the old one, and so is the key
unless `malloc` was asked for a copy. -/
def HashEntry.halfInit (null : K) (e : HashEntry K) (key : KeyArg K) : HashEntry K :=
  match key with
  | .int _ => { e with skey := false }
  | .str none => { e with skey := true }
  | .str (some _) => { e with skey := true, key := null }

@[simp] theorem HashEntry.halfInit_addr (null : K) (e : HashEntry K) (key : KeyArg K) :
    (e.halfInit null key).addr = e.addr := by
  rcases key with _ | _ | _ <;> rfl

/-- **Setting up an entry fails** for one of three reasons. -/
theorem hashEntryInit_refused_iff {C : Clib K} {e : HashEntry K} {key : KeyArg K}
    {len : ℕ} {H H' : Heap}
    {ret : ℤ} {e' : HashEntry K}
    (hinit : hashEntryInit C.null Heap.malloc e key len H = some ((ret, e'), H')) :
    (key.Refused len H ↔ ret = -1) ∧ (key.Refused len H → e' = e.halfInit C.null key) := by
  rw [hashEntryInit.eq_def] at hinit
  cases key with
  | int key =>
    dsimp only at hinit
    split_ifs at hinit with hlen
    · obtain ⟨rfl, rfl⟩ := Prod.mk.inj (HeapM.pure_inj hinit).1
      exact ⟨iff_of_true hlen rfl, fun _ => rfl⟩
    · obtain ⟨rfl, rfl⟩ := Prod.mk.inj (HeapM.pure_inj hinit).1
      exact ⟨iff_of_false hlen (by decide), fun h => absurd h hlen⟩
  | str key =>
    cases key with
    | none =>
      obtain ⟨rfl, rfl⟩ := Prod.mk.inj (HeapM.pure_inj hinit).1
      exact ⟨iff_of_true trivial rfl, fun _ => rfl⟩
    | some key =>
      dsimp only at hinit
      rw [Heap.malloc_bind] at hinit
      rw [KeyArg.Refused]
      cases hcopy : H.answer len with
      | none =>
        rw [hcopy] at hinit
        obtain ⟨rfl, rfl⟩ := Prod.mk.inj (HeapM.pure_inj hinit).1
        exact ⟨iff_of_true rfl rfl, fun _ => rfl⟩
      | some a =>
        rw [hcopy] at hinit
        obtain ⟨rfl, rfl⟩ := Prod.mk.inj (HeapM.pure_inj hinit).1
        exact ⟨iff_of_false (Option.some_ne_none a) (by decide),
          fun h => absurd h (Option.some_ne_none a)⟩

/-! ### Linking it -/

variable {C : Clib K} {h h' : HashTable K} {r : Option (HashEntry K)} {H H' : Heap}

/-- A safe insert that returns puts the entry in front of its home chain, in the table or in what a
resize made of it. -/
theorem hashTableInsertSafe_links {e : HashEntry K}
    (hins : hashTableInsertSafe C h e H = some (h', H')) :
    (∃ c, h'.table (h'.home e) = e :: c) ∧ h'.keycmp = h.keycmp := by
  have hlink : ∀ h₁ : HashTable K,
      ∃ c, (h₁.insertAt (h₁.home e) e).table ((h₁.insertAt (h₁.home e) e).home e) = e :: c := by
    intro h₁
    have hhome : (h₁.insertAt (h₁.home e) e).home e = h₁.home e := by
      rw [HashTable.home, hashTableHashCode, HashTable.insertAt_buckets,
        HashTable.insertAt_myHashFn]
      rfl
    refine ⟨h₁.table (h₁.home e), ?_⟩
    rw [hhome, HashTable.insertAt_table, HashTable.listAdd_table, Function.update_self]
  rcases hashTableInsertSafe_inversion hins with ⟨-, -, rfl⟩ | ⟨-, ret, h₁, H₁, hres, -, rfl⟩
  · exact ⟨hlink h, h.insertAt_keycmp _ _⟩
  · exact ⟨hlink h₁, by rw [HashTable.insertAt_keycmp, (hashTableResize_functions hres).2]⟩

/-- The two inserts of `TableOp`, each with its two variants. -/
def TableOp.Inserts (e : HashEntry K) (key : KeyArg K) (len : ℕ) (op : TableOp K) : Prop :=
  op = .insert e key len ∨ op = .insertSafe e key len

/-- **An insert** that returns has linked what `hash_entry_init` left, whether that failed or
not. -/
theorem insert_links {op : TableOp K} {e : HashEntry K} {key : KeyArg K} {len : ℕ}
    (hop : op.Inserts e key len) (hrun : op.run C h H = some ((h', r), H')) :
    ∃ ret e' H₁, hashEntryInit C.null Heap.malloc e key len H = some ((ret, e'), H₁) ∧
      (∃ c, h'.table (h'.home e') = e' :: c) ∧ h'.keycmp = h.keycmp := by
  rcases hop with rfl | rfl
  · obtain ⟨ret, e', hinit, -, -, rfl, -⟩ := TableOp.run_insert hrun
    refine ⟨ret, e', H', hinit, ⟨h.table (h.home e'), ?_⟩, rfl⟩
    show Function.update h.table (h.home e') (e' :: h.table (h.home e')) (h.home e') = _
    rw [Function.update_self]
  · obtain ⟨ret, e', H₁, hinit, -, hins, -⟩ := TableOp.run_insertSafe hrun
    exact ⟨ret, e', H₁, hinit, hashTableInsertSafe_links hins⟩

/-! ### What the next calls see -/

/-- No one can tell the table `h'` from `h`: it has the same chains and counters, and every call and
every resize answers the same. -/
structure LeftAlone (C : Clib K) (h h' : HashTable K) : Prop where
  chains : h'.table = h.table
  buckets : h'.buckets = h.buckets
  threshold : h'.resizeThreshold = h.resizeThreshold
  used : h'.usedBuckets = h.usedBuckets
  later : ∀ (op : TableOp K) (H : Heap),
    (op.run C h' H).map (fun r => r.1.2) = (op.run C h H).map fun r => r.1.2
  resize : ∀ H : Heap, (hashTableResize C h' H).map (fun r => (r.1.1, r.1.2.table)) =
    (hashTableResize C h H).map fun r => (r.1.1, r.1.2.table)

/-- **No insert leaves the table alone** when its entry could not be set up. When it returns, the
entry is in front of the chain of the key it was left with, and found by the next search for that
key. -/
theorem failed_init_links {e : HashEntry K} (hnew : ∀ i, ∀ t ∈ h.table i, t.addr ≠ e.addr)
    {key : KeyArg K} {len : ℕ} (hrefused : key.Refused len H) {op : TableOp K}
    (hop : op.Inserts e key len) :
    (¬ ∃ h' r H', op.run C h H = some ((h', r), H') ∧ LeftAlone C h h') ∧
      ∀ h' r H', op.run C h H = some ((h', r), H') →
        (∃ c, h'.table (h'.home (e.halfInit C.null key)) = e.halfInit C.null key :: c) ∧
          (h.keycmp (e.halfInit C.null key).key (e.halfInit C.null key).key
              (e.halfInit C.null key).klen = 0 →
            hashTableLookupKey h' (e.halfInit C.null key).key (e.halfInit C.null key).klen =
              some (e.halfInit C.null key)) := by
  have hlinked : ∀ h' r H', op.run C h H = some ((h', r), H') →
      (∃ c, h'.table (h'.home (e.halfInit C.null key)) = e.halfInit C.null key :: c) ∧
        h'.keycmp = h.keycmp := by
    intro h' r H' hrun
    obtain ⟨ret, e', H₁, hinit, hchain, hkeycmp⟩ := insert_links hop hrun
    obtain rfl := (hashEntryInit_refused_iff hinit).2 hrefused
    exact ⟨hchain, hkeycmp⟩
  constructor
  · rintro ⟨h', r, H', hrun, halone⟩
    obtain ⟨⟨c, hc⟩, -⟩ := hlinked h' r H' hrun
    rw [halone.chains] at hc
    exact hnew _ _ (hc ▸ List.mem_cons_self) (e.halfInit_addr C.null key)
  · intro h' r H' hrun
    obtain ⟨⟨c, hc⟩, hkeycmp⟩ := hlinked h' r H' hrun
    refine ⟨⟨c, hc⟩, fun hself => ?_⟩
    rw [hashTableLookupKey]
    show (h'.table (h'.home (e.halfInit C.null key))).find? _ = _
    rw [hc, hkeycmp]
    exact List.find?_cons_of_pos (by simp [hself])

/-- A heap whose allocator refuses everything. -/
def exhaustedHeap : Heap := { sampleHeap with reply _ := none }

/-- A struct that was used for the key `7` before is inserted with a key of nine bytes, and with a
string whose copy is refused. -/
theorem failed_init_links_sample :
    (∃ h' H', (TableOp.insert ⟨100, 7, 8, true⟩ (.int 5) 9).run Clib.nearest
      sampleTable sampleHeap =
        some ((h', none), H') ∧ hashTableLookupKey h' 7 8 = some ⟨100, 7, 8, false⟩) ∧
      ∃ h' H', (TableOp.insertSafe ⟨100, 7, 8, false⟩ (.str (some 5)) 3).run Clib.nearest
          sampleTable exhaustedHeap = some ((h', none), H') ∧
        hashTableLookupKey h' 0 8 = some ⟨100, 0, 8, true⟩ := by
  have hlong : (KeyArg.int 5 : KeyArg ℕ).Refused 9 sampleHeap := (by decide : sizeofPtr < 9)
  have hcopy : (KeyArg.str (some 5) : KeyArg ℕ).Refused 3 exhaustedHeap := rfl
  have hint := @failed_init_links ℕ Clib.nearest sampleTable sampleHeap ⟨100, 7, 8, true⟩ nofun
    (.int 5) 9 hlong _ (.inl rfl)
  have hstr := @failed_init_links ℕ Clib.nearest sampleTable exhaustedHeap ⟨100, 7, 8, false⟩ nofun
    (.str (some 5)) 3 hcopy _ (.inr rfl)
  exact ⟨⟨_, _, rfl, (hint.2 _ _ _ rfl).2 rfl⟩, _, _, rfl, (hstr.2 _ _ _ rfl).2 rfl⟩

/-- **A search for the old key** found nothing before, and finds the entry now. -/
theorem failed_init_found :
    hashTableLookupKey sampleTable 7 8 = none ∧
      ∃ h' H', (TableOp.insert ⟨100, 7, 8, true⟩ (.int 5) 9).run Clib.nearest
        sampleTable sampleHeap =
          some ((h', none), H') ∧ hashTableLookupKey h' 7 8 = some ⟨100, 7, 8, false⟩ ∧
        ¬ LeftAlone Clib.nearest sampleTable h' := by
  refine ⟨rfl, _, _, rfl, rfl, fun halone => ?_⟩
  have hchain := congrFun halone.chains 7
  exact List.cons_ne_nil _ _ hchain

end Milu
