import Milu.Hashtbl.Thread

/-!
# Whether a table gives back its arrays

A table has two arrays. `hash_table_init` asks for the bucket array first; when it is refused the
lock array after that, or has no hash function, it returns with what it has. A resize takes over the
arrays of the auxiliary table and gives back both old ones, and when the auxiliary table cannot be
set up it returns as `hash_table_init` did. `hash_table_finit` gives back the bucket array.

So a table that is set up at all leaves its last lock array behind, and a resize that gets half of
what it asks for leaves that half behind.

## Main definitions

* `ThreadRun` — the calls on a table by one thread
* `StorageBalanced` — what the table owes the allocator
* `TableOp.strands` — a call whose resize gets one array of two

## Main results

* `ThreadRun.owns` — what is to be given back at any point of a run
* `storage_iff` — a table balances exactly when it does not come to be; else what a run leaves
  behind
* `storage_leaks` — a table that is set up and given back
-/

namespace Milu

open TableThread

variable {K : Type} {C : Clib K}

/-! ### Runs -/

/-- Calls on a table by one thread, each with the thread before it, the last one first. -/
inductive ThreadRun (C : Clib K) (s₀ : TableThread K) :
    List (TableThread K × TableOp K) → TableThread K → Prop
  | start : ThreadRun C s₀ [] s₀
  | step {steps : List (TableThread K × TableOp K)} {s s' : TableThread K} {op : TableOp K}
      {r : Option (HashEntry K)} : ThreadRun C s₀ steps s → op.perform C s = .ok (r, s') →
      ThreadRun C s₀ ((s, op) :: steps) s'

/-- What a table owes the allocator, from `hash_table_init` on: when it fails, it keeps nothing;
when a resize fails, it keeps nothing that it was not keeping before; and at the end of each run
`hash_table_finit` gives back what is left. -/
structure StorageBalanced (C : Clib K) (b : ℕ) (keycmp : Option (K → K → ℕ → ℤ))
    (hashFn : Option (K → ℕ → ℕ)) (H : Heap) : Prop where
  init : ∀ L, hashTableInit Ledger.malloc C b keycmp hashFn (.opened H) = (none, L) → L.Balanced
  resize : ∀ h L, hashTableInit Ledger.malloc C b keycmp hashFn (.opened H) = (some h, L) →
    ∀ steps s, ThreadRun C ⟨h, [], L⟩ steps s → ∀ ret s',
      Locked.hashTableResize env C s = .ok (ret, s') → ret ≠ 0 → s'.ledger.own = s.ledger.own
  finit : ∀ h L, hashTableInit Ledger.malloc C b keycmp hashFn (.opened H) = (some h, L) →
    ∀ steps s, ThreadRun C ⟨h, [], L⟩ steps s →
      (hashTableFinit Ledger.free s.htable s.ledger).2.Balanced

/-! ### What is left behind -/

/-- A resize now would be given the bucket array of the new table, but not its lock array. -/
def HashTable.halves (C : Clib K) (h : HashTable K) (H : Heap) : Bool :=
  let b := h.resizeThreshold * 2 % 2 ^ 64
  (H.answer (tableBytes C b)).isSome &&
    ((H.afterMalloc (tableBytes C b)).answer (lockBytes C b)).isNone

/-- The call resizes the table, and is given one array of two. -/
def TableOp.strands (C : Clib K) (s : TableThread K) : TableOp K → Bool
  | .insertSafe _ key len =>
    s.htable.resizeThreshold ≤ s.htable.usedBuckets &&
      s.htable.halves C (key.heapAfter s.ledger.heap len)
  | _ => false

/-- The arrays of a table, in the order in which a resize gives them back. -/
def HashTable.arrays (h : HashTable K) : List ℕ := [h.tableMem, h.bucketLocks]

variable {s s' : TableThread K} {left : List ℕ}

/-- **A resize** that returns has kept one array too many, or has as many as before. -/
theorem resize_owns {ret : ℤ} (hfree : s.held = [])
    (hres : Locked.hashTableResize env C s = .ok (ret, s'))
    (howns : s.ledger.Owns (s.htable.arrays ++ left)) :
    ∃ left', s'.ledger.Owns (s'.htable.arrays ++ left') ∧
      left'.length = left.length + (if s.htable.halves C s.ledger.heap then 1 else 0) := by
  have hinversion := resize_inversion hfree hres
  rw [HashTable.halves]
  generalize s.htable.resizeThreshold * 2 % 2 ^ 64 = b at hinversion ⊢
  rcases hashTableInit_ledger C b (some s.htable.keycmp) (some s.htable.myHashFn) s.ledger with
    ⟨ht, hinit⟩ | ⟨tableMem, ht, ⟨hb, hinit⟩ | ⟨bucketLocks, hb, hinit⟩⟩ <;>
    rcases hinversion with ⟨L, hinit', rfl, rfl⟩ | ⟨aux, L, old, new, hinit', hwalk, rfl, rfl⟩ <;>
    obtain ⟨haux, rfl⟩ := Prod.mk.inj (hinit.symm.trans hinit')
  · exact ⟨left, howns.refused ht, by rw [ht]; rfl⟩
  · -- the resize goes by how setting up the auxiliary table went
    cases haux
  · refine ⟨tableMem :: left, ?_, by rw [ht, hb]; rfl⟩
    exact ((howns.malloc ht).refused hb).perm List.perm_middle.symm
  · cases haux
  · cases haux
  · obtain rfl := Option.some.inj haux
    have harrays : (old.takeOver new).arrays = [tableMem, bucketLocks] := by
      obtain ⟨-, t, rfl⟩ := forEachSafe_migrate_withTable hwalk
      rfl
    have hfront : (bucketLocks :: tableMem :: (s.htable.arrays ++ left)).Perm
        (s.htable.arrays ++ ([tableMem, bucketLocks] ++ left)) :=
      (List.Perm.swap _ _ _).trans (List.perm_append_comm_assoc [tableMem, bucketLocks]
        s.htable.arrays left)
    refine ⟨left, ?_, by rw [ht, hb]; rfl⟩
    rw [harrays]
    exact (((howns.malloc ht).malloc hb).perm hfront).free.free

theorem HashTable.arrays_insertAt (h : HashTable K) (n : ℕ) (e : HashEntry K) :
    (h.insertAt n e).arrays = h.arrays := by
  rw [HashTable.insertAt]
  split <;> rfl

/-- **One call** keeps the arrays of the table, and one more if its resize strands it. -/
theorem TableOp.owns {op : TableOp K} {r : Option (HashEntry K)} (hfree : s.held = [])
    (hrun : op.perform C s = .ok (r, s')) (howns : s.ledger.Owns (s.htable.arrays ++ left)) :
    s'.held = [] ∧ ∃ left', s'.ledger.Owns (s'.htable.arrays ++ left') ∧
      left'.length = left.length + (if op.strands C s then 1 else 0) := by
  by_cases hins : ∃ e key len, op = .insertSafe e key len
  · obtain ⟨e, key, len, rfl⟩ := hins
    obtain ⟨_, e', L', -, hheap, hkeep, hstart⟩ :=
      TableOp.perform_insertSafe (C := C) e key len s
    rw [hstart] at hrun
    rw [TableOp.strands, ← hheap]
    rcases insertSafe_locked C (s := { s with ledger := L' }) hfree e' with
      ⟨hroom, hcall⟩ | ⟨hfull, ret, s₁, hres, hcall⟩ | ⟨-, x, -, hcall⟩
    · obtain ⟨-, rfl⟩ := Prod.mk.inj (Except.ok.inj (TableThread.of_linked hcall hrun))
      refine ⟨hfree, left, ?_, ?_⟩
      · rw [HashTable.arrays_insertAt]
        exact hkeep _ howns
      · rw [decide_eq_false (Nat.not_le.mpr hroom)]
        rfl
    · obtain ⟨-, rfl⟩ := Prod.mk.inj (Except.ok.inj (TableThread.of_linked hcall hrun))
      obtain ⟨left', howns', hlen⟩ :=
        resize_owns (s := { s with ledger := L' }) hfree hres (hkeep _ howns)
      refine ⟨(resize_returns (s := { s with ledger := L' }) hfree hres).1, left', ?_, ?_⟩
      · rw [HashTable.arrays_insertAt]
        exact howns'
      · rw [decide_eq_true hfull]
        exact hlen
    · exact nomatch (bind_of_error hcall _).symm.trans hrun
  · simp only [not_exists] at hins
    obtain ⟨r', t, L', hcall, hkeep⟩ : ∃ r t L', op.perform C s =
        .ok (r, { s with htable := s.htable.withTable t, ledger := L' }) ∧
          ∀ as, s.ledger.Owns as → L'.Owns as := by
      rcases TableOp.perform_other (C := C) hfree hins with ⟨-, hreturns⟩ | ⟨-, hlost⟩
      · exact hreturns
      · exact nomatch hlost.symm.trans hrun
    obtain ⟨-, rfl⟩ := ok_unique hcall hrun
    have hstrands : op.strands C s = false := by
      cases op with
      | insertSafe e key len => exact absurd rfl (hins e key len)
      | _ => rfl
    exact ⟨hfree, left, hkeep _ howns, by rw [hstrands]; rfl⟩

/-- **At any point of a run** the table has its two arrays to give back, and one for each call that
stranded one. -/
theorem ThreadRun.owns {s₀ : TableThread K} {steps : List (TableThread K × TableOp K)}
    (hrun : ThreadRun C s₀ steps s) (hfree : s₀.held = [])
    (howns : s₀.ledger.Owns s₀.htable.arrays) :
    s.held = [] ∧ ∃ left, s.ledger.Owns (s.htable.arrays ++ left) ∧
      left.length = steps.countP fun st => st.2.strands C st.1 := by
  induction hrun with
  | start => exact ⟨hfree, [], by rwa [List.append_nil], rfl⟩
  | step _ hop ih =>
    obtain ⟨hfree', left, howns', hlen⟩ := ih
    obtain ⟨hfree₁, left', howns₁, hlen₁⟩ := TableOp.owns hfree' hop howns'
    refine ⟨hfree₁, left', howns₁, ?_⟩
    rw [hlen₁, hlen, List.countP_cons]

theorem hashTableFinit_owns {h : HashTable K} {L : Ledger} (howns : L.Owns (h.arrays ++ left)) :
    (hashTableFinit Ledger.free h L).2.Owns (h.bucketLocks :: left) := by
  have hne : h.tableMem ≠ 0 := howns.ne_zero List.mem_cons_self
  rw [hashTableFinit, if_pos hne]
  exact howns.free

/-! ### From `hash_table_init` to `hash_table_finit` -/

variable {b : ℕ} {keycmp : Option (K → K → ℕ → ℤ)} {hashFn : Option (K → ℕ → ℕ)} {H : Heap}
  {h : HashTable K} {L : Ledger}

theorem hashTableInit_owns
    (hinit : hashTableInit Ledger.malloc C b keycmp hashFn (.opened H) = (some h, L)) :
    L.Owns h.arrays := by
  have hopened := Ledger.owns_opened H
  rcases hashTableInit_ledger C b keycmp hashFn (.opened H) with
    ⟨-, hrun⟩ | ⟨tableMem, ht, ⟨-, hrun⟩ | ⟨bucketLocks, hb, hrun⟩⟩ <;>
    obtain ⟨hsome, rfl⟩ := Prod.mk.inj (hinit.symm.trans hrun)
  · exact absurd hsome (Option.some_ne_none h)
  · exact absurd hsome (Option.some_ne_none h)
  · obtain ⟨f, -, rfl⟩ := Option.map_eq_some_iff.mp hsome.symm
    exact ((hopened.malloc ht).malloc hb).perm (List.Perm.swap _ _ _)

theorem hashTableInit_none_owns
    (hinit : hashTableInit Ledger.malloc C b keycmp hashFn (.opened H) = (none, L)) :
    ∃ as, L.Owns as ∧ (as = [] ↔ H.answer (tableBytes C b) = none) := by
  have hopened := Ledger.owns_opened H
  rcases hashTableInit_ledger C b keycmp hashFn (.opened H) with
    ⟨ht, hrun⟩ | ⟨tableMem, ht, ⟨hb, hrun⟩ | ⟨bucketLocks, hb, hrun⟩⟩ <;>
    obtain ⟨-, rfl⟩ := Prod.mk.inj (hinit.symm.trans hrun)
  · exact ⟨[], hopened.refused ht, iff_of_true rfl ht⟩
  · refine ⟨[tableMem], (hopened.malloc ht).refused hb, iff_of_false (List.cons_ne_nil _ _) ?_⟩
    exact fun hnone => Option.some_ne_none tableMem (ht.symm.trans hnone)
  · refine ⟨[bucketLocks, tableMem], (hopened.malloc ht).malloc hb,
      iff_of_false (List.cons_ne_nil _ _) ?_⟩
    exact fun hnone => Option.some_ne_none tableMem (ht.symm.trans hnone)

/-- **At the end of a run** there is left the last lock array, and what the calls stranded. -/
theorem ThreadRun.finit_owns {steps : List (TableThread K × TableOp K)}
    (hinit : hashTableInit Ledger.malloc C b keycmp hashFn (.opened H) = (some h, L))
    (hrun : ThreadRun C ⟨h, [], L⟩ steps s) :
    ∃ left : List ℕ, left.length = (steps.countP fun st => st.2.strands C st.1) ∧
      (hashTableFinit Ledger.free s.htable s.ledger).2.Owns (s.htable.bucketLocks :: left) := by
  obtain ⟨-, left, howns, hlen⟩ := hrun.owns rfl (hashTableInit_owns hinit)
  exact ⟨left, hlen, hashTableFinit_owns howns⟩

/-- **A table balances** exactly when it does not come to be, because the first thing it asks for is
refused. Any other leaves behind its last lock array and what the calls of the run stranded; the
rest was given back once. -/
theorem storage_iff (C : Clib K) (b : ℕ) (keycmp : Option (K → K → ℕ → ℤ))
    (hashFn : Option (K → ℕ → ℕ)) (H : Heap) :
    (StorageBalanced C b keycmp hashFn H ↔ H.answer (tableBytes C b) = none) ∧
      ∀ h L, hashTableInit Ledger.malloc C b keycmp hashFn (.opened H) = (some h, L) →
        ∀ steps s, ThreadRun C ⟨h, [], L⟩ steps s → ∃ left : List ℕ,
          left.length = (steps.countP fun st => st.2.strands C st.1) ∧
            (hashTableFinit Ledger.free s.htable s.ledger).2.Owns
              (s.htable.bucketLocks :: left) := by
  refine ⟨?_, fun h L hinit steps s hrun => hrun.finit_owns hinit⟩
  obtain ⟨o, L, hinit⟩ : ∃ o L,
      hashTableInit Ledger.malloc C b keycmp hashFn (.opened H) = (o, L) := ⟨_, _, rfl⟩
  cases o with
  | none =>
    have hnone : ∀ h L', hashTableInit Ledger.malloc C b keycmp hashFn (.opened H) ≠ (some h, L') :=
      fun h L' hsome => Option.some_ne_none h (Prod.mk.inj (hsome.symm.trans hinit)).1
    obtain ⟨as, howns, hnil⟩ := hashTableInit_none_owns hinit
    rw [← hnil]
    constructor
    · intro hbalanced
      by_contra hne
      exact howns.not_balanced hne (hbalanced.init L hinit)
    · rintro rfl
      refine ⟨fun L' hfail => ?_, fun h L' hsome => absurd hsome (hnone h L'),
        fun h L' hsome => absurd hsome (hnone h L')⟩
      obtain rfl := (Prod.mk.inj (hinit.symm.trans hfail)).2
      exact Ledger.owns_nil_iff.mp howns
  | some h =>
    refine iff_of_false (fun hbalanced => ?_) fun hrefused => ?_
    · obtain ⟨left, -, howns⟩ := ThreadRun.finit_owns hinit (.start (C := C))
      exact howns.not_balanced (List.cons_ne_nil _ _) (hbalanced.finit h L hinit [] _ .start)
    · rcases hashTableInit_ledger C b keycmp hashFn (.opened H) with
        ⟨-, hrun⟩ | ⟨tableMem, ht, -⟩
      · exact Option.some_ne_none h (Prod.mk.inj (hinit.symm.trans hrun)).1
      · exact Option.some_ne_none tableMem (ht.symm.trans hrefused)

/-- **A table that is set up** and given back at once leaves its lock array. -/
theorem storage_leaks : ∃ h L,
    hashTableInit Ledger.malloc Clib.nearest 40 none (some fun key _ => key) (.opened sampleHeap) =
        (some h, L) ∧
      (hashTableFinit Ledger.free h L).2.Owns [h.bucketLocks] ∧
      ¬ StorageBalanced Clib.nearest 40 none (some fun key _ => key) sampleHeap := by
  obtain ⟨h, L, hinit⟩ : ∃ h L, hashTableInit Ledger.malloc Clib.nearest 40 none
      (some fun key _ => key) (.opened sampleHeap) = (some h, L) := ⟨_, _, rfl⟩
  have hleft : (hashTableFinit Ledger.free h L).2.Owns [h.bucketLocks] :=
    hashTableFinit_owns (hashTableInit_owns hinit)
  refine ⟨h, L, hinit, hleft, fun hbalanced => ?_⟩
  exact hleft.not_balanced (List.cons_ne_nil _ _) (hbalanced.finit h L hinit [] _ .start)

end Milu
