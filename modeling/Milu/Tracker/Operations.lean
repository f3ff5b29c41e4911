import Milu.Tracker.Process

/-!
# The operations as linked

What one operation of the linked library does when the thread holds no mutex and milu is enabled.

An insertion into a full table comes to a resize, which asks for its bucket array with `malloc`,
under the table lock. That `malloc` is milu's own. When the real allocator gives it a block, it
inserts a record, and waits for the lock that its own thread holds.

## Main definitions

* `Process.inserted`, `Process.withRecord`, `Process.newMem` — what an insertion leaves
* `Process.GrowthBlocks`, `Process.GrowthFaults` — an insertion now would block, or find no record
  for the bucket array
* `Process.Untouched`, `Process.Quiet` — computations that take neither a mutex nor a record
* `Process.Lenient` — relations that leave room for other statistics, and for releases

## Main results

* `insert_of_growth`, `insert_ends` — an insertion blocks, or finds no record or no table, or
  returns
* `delete_of_ready` — a deletion
* `moves_memReport`, `quiet_miluCleanup` — the traversals
-/

namespace Milu

namespace Process

variable {R : Runtime} {malloc : ℕ → ProcM (Option ℕ)} {free : ℕ → ProcM Unit} {s : Process}
  {d a key len : ℕ} {t : HashTable ℕ}

/-! ### Programs -/

theorem perform_of_ok {h : (o : MiluOp) → ProcM o.Reply} {o : MiluOp} {r : o.Reply} {s' : Process}
    (ho : h o s = .ok (r, s')) {α : Type} (f : o.Reply → Tracker α) :
    (Tracker.perform o >>= f).interp h s = (f r).interp h s' := bind_of_ok ho _

theorem perform_of_error {h : (o : MiluOp) → ProcM o.Reply} {o : MiluOp} {e : Stuck}
    (ho : h o s = .error e) {α : Type} (f : o.Reply → Tracker α) :
    (Tracker.perform o >>= f).interp h s = .error e := bind_of_error ho _

theorem interp_of_ok {h : (o : MiluOp) → ProcM o.Reply} {α β : Type} {p : Tracker α} {b : α}
    {s' : Process} (hp : p.interp h s = .ok (b, s')) (f : α → Tracker β) :
    (p >>= f).interp h s = (f b).interp h s' := by
  rw [Program.interp_bind]
  exact bind_of_ok hp _

theorem interp_of_error {h : (o : MiluOp) → ProcM o.Reply} {α β : Type} {p : Tracker α} {e : Stuck}
    (hp : p.interp h s = .error e) (f : α → Tracker β) : (p >>= f).interp h s = .error e := by
  rw [Program.interp_bind]
  exact bind_of_error hp _

/-! ### Mutexes -/

theorem lock_of_notMem {l : Mutex} (h : l ∉ s.held) :
    lock l s = .ok ((), { s with held := l :: s.held }) := if_neg h

theorem lock_of_mem {l : Mutex} (h : l ∈ s.held) : lock l s = .error .deadlock := if_pos h

theorem load_of_ready (h : s.htable = .ready a t) : load s = .ok (t.reading s.user, s) := by
  rw [load, h]

/-- The table is `NULL` or was never set up. -/
theorem load_of_not_ready (h : ∀ a t, s.htable ≠ .ready a t) : load s = .error .crash := by
  rw [load]
  cases ht : s.htable with
  | null => rfl
  | raw a => rfl
  | ready a t => exact absurd ht (h a t)

theorem hashCodeSafe_of_ready (ht : s.htable = .ready a t) (hl : .hashtbl .table ∉ s.held) :
    Locked.hashTableHashCodeSafe (tableEnv malloc free) key len s =
      .ok (hashTableHashCode t key len, s) := by
  rw [Locked.hashTableHashCodeSafe]
  refine (bind_of_ok (lock_of_notMem hl) _).trans ?_
  refine (bind_of_ok (load_of_ready (s := { s with held := _ :: s.held }) ht) _).trans ?_
  show Except.ok (_, { s with held := (_ :: s.held).erase _ }) = _
  rw [List.erase_cons_head]
  rfl

/-- A thread that holds the table lock waits for ever. -/
theorem hashCodeSafe_of_held (hl : .hashtbl .table ∈ s.held) :
    Locked.hashTableHashCodeSafe (tableEnv malloc free) key len s = .error .deadlock := by
  rw [Locked.hashTableHashCodeSafe]
  exact bind_of_error (lock_of_mem hl) _

theorem hashCodeSafe_of_not_ready (h : ∀ a t, s.htable ≠ .ready a t)
    (hl : .hashtbl .table ∉ s.held) :
    Locked.hashTableHashCodeSafe (tableEnv malloc free) key len s = .error .crash := by
  rw [Locked.hashTableHashCodeSafe]
  refine (bind_of_ok (lock_of_notMem hl) _).trans ?_
  exact bind_of_error (load_of_not_ready (s := { s with held := _ :: s.held }) h) _

/-! ### Resizes -/

/-- The bytes of the bucket array that a resize of `t` asks for. -/
def bucketBytes (R : Runtime) (t : HashTable ℕ) : ℕ :=
  sizeofHashEntry * hashtblSz R.clib (t.resizeThreshold * 2 % 2 ^ 64 % 2 ^ 32) % 2 ^ 64

theorem resizeIfFull_of_ready (ht : s.htable = .ready a t) :
    Locked.resizeIfFull (tableEnv malloc free) R.clib s =
      (if t.resizeThreshold ≤ t.usedBuckets then do
        let ret ← Locked.hashTableResize (tableEnv malloc free) R.clib
        return ret == 0
      else return false : ProcM Bool) s :=
  bind_of_ok (load_of_ready ht) _

theorem resizeIfFull_of_room (ht : s.htable = .ready a t)
    (hroom : t.usedBuckets < t.resizeThreshold) :
    Locked.resizeIfFull (tableEnv malloc free) R.clib s = .ok (false, s) := by
  rw [resizeIfFull_of_ready ht, if_neg (Nat.not_le.mpr hroom)]
  rfl

/-- A full table asks for its next bucket array under the table lock. When it is refused, the table
stays as it is. -/
theorem resizeIfFull_of_refused (ht : s.htable = .ready a t)
    (hfull : t.resizeThreshold ≤ t.usedBuckets) (hl : .hashtbl .table ∉ s.held) {H : Heap}
    (hm : malloc (bucketBytes R t) { s with held := .hashtbl .table :: s.held } =
      .ok (none, { s with held := .hashtbl .table :: s.held, heap := H })) :
    Locked.resizeIfFull (tableEnv malloc free) R.clib s = .ok (false, { s with heap := H }) := by
  have hresize : Locked.hashTableResize (tableEnv malloc free) R.clib s =
      .ok (-1, { s with heap := H }) := by
    rw [Locked.hashTableResize]
    refine (bind_of_ok (lock_of_notMem hl) _).trans ?_
    refine (bind_of_ok (load_of_ready (s := { s with held := _ :: s.held }) ht) _).trans ?_
    refine (bind_of_ok (bind_of_ok hm _) _).trans ?_
    show Except.ok (_, { s with heap := H, held := (_ :: s.held).erase _ }) = _
    rw [List.erase_cons_head]
  rw [resizeIfFull_of_ready ht, if_pos hfull]
  exact bind_of_ok hresize _

theorem resizeIfFull_of_stuck (ht : s.htable = .ready a t)
    (hfull : t.resizeThreshold ≤ t.usedBuckets) (hl : .hashtbl .table ∉ s.held) {e : Stuck}
    (hm : malloc (bucketBytes R t) { s with held := .hashtbl .table :: s.held } = .error e) :
    Locked.resizeIfFull (tableEnv malloc free) R.clib s = .error e := by
  have hresize : Locked.hashTableResize (tableEnv malloc free) R.clib s = .error e := by
    rw [Locked.hashTableResize]
    refine (bind_of_ok (lock_of_notMem hl) _).trans ?_
    refine (bind_of_ok (load_of_ready (s := { s with held := _ :: s.held }) ht) _).trans ?_
    exact bind_of_error (bind_of_error hm _) _
  rw [resizeIfFull_of_ready ht, if_pos hfull]
  exact bind_of_error hresize _

/-! ### Insertions -/

/-- The entry of a record that is inserted under `key`. -/
def entryOf (key : ℕ) (mem : Memalloc) : HashEntry ℕ :=
  ⟨mem.addr + hentryOffset, key, sizeofPtr, false⟩

/-- The process with a record in its table, and the heap after what the insertion asked for. -/
def inserted (s : Process) (a : ℕ) (t : HashTable ℕ) (key : ℕ) (mem : Memalloc) (H : Heap) :
    Process :=
  { s with
    record := Function.update s.record mem.addr mem
    htable := .ready a
      ((t.reading s.user).insertAt (hashTableHashCode t key sizeofPtr) (entryOf key mem))
    heap := H }

/-- The insertion, once it is settled that the table is not resized. -/
theorem insert_of_resizeIfFull {mem : Memalloc} (ht : s.htable = .ready a t) (hheld : s.held = [])
    {H : Heap} (hr : Locked.resizeIfFull (tableEnv malloc free) R.clib
        { s with record := Function.update s.record mem.addr mem } =
      .ok (false, { s with record := Function.update s.record mem.addr mem, heap := H })) :
    insert R malloc free key mem s = .ok ((), s.inserted a t key mem H) := by
  have hl : ∀ l, l ∉ s.held := fun l => by
    rw [hheld]
    exact List.not_mem_nil
  show Locked.hashTableInsertSafe (tableEnv malloc free) R.clib (entryOf key mem) _ = _
  rw [Locked.hashTableInsertSafe]
  refine (bind_of_ok (hashCodeSafe_of_ready
    (s := { s with record := Function.update s.record mem.addr mem }) ht (hl _)) _).trans ?_
  refine (bind_of_ok hr _).trans ?_
  rw [if_neg Bool.false_ne_true]
  refine (bind_of_ok rfl _).trans ?_
  refine (bind_of_ok (lock_of_notMem
    (s := { s with record := Function.update s.record mem.addr mem, heap := H }) (hl _)) _).trans ?_
  refine (bind_of_ok (load_of_ready (s := { s with
    record := Function.update s.record mem.addr mem, heap := H, held := _ :: s.held })
      ht) _).trans ?_
  refine (bind_of_ok rfl _).trans ?_
  show unlock _ _ = _
  rw [unlock, List.erase_cons_head, ht]
  rfl

/-! ### Records -/

/-- The process when a new record is ready to be filled in: `bank_get_ptr` and
`backtrace_symbols` have returned. -/
def withRecord (R : Runtime) (s : Process) : Process :=
  { s with
    pools := (bankGetPtr s.pools).2
    taken := (bankGetPtr s.pools).1 :: s.taken
    heap := s.heap.afterMalloc R.symbols }

/-- The new record. -/
def newMem (R : Runtime) (s : Process) (ptr calladdr : ℕ) (size : UInt64) : Memalloc :=
  ⟨(bankGetPtr s.pools).1, ptr, calladdr, R.depth % 2 ^ 8, (s.heap.answer R.symbols).getD 0, size⟩

section

variable {α β : Type} {ptr calladdr : ℕ} {size : UInt64}

theorem interp_enabled (hen : s.enabled ≠ 0) {x y : Tracker α} {f : α → Tracker β} :
    ((Tracker.perform .enabled >>= fun enabled => if enabled = 0 then x else y) >>= f).interp
      (handleWith R malloc free) s = (y >>= f).interp (handleWith R malloc free) s := by
  have hread : handleWith R malloc free .enabled s = .ok (s.enabled, s) := rfl
  refine (bind_of_ok hread _).trans ?_
  show ((if s.enabled = 0 then x else y) >>= f).interp (handleWith R malloc free) s = _
  rw [if_neg hen]

/-- Without a record the call writes through `NULL`. -/
theorem interp_newRecord_none (h0 : (bankGetPtr s.pools).1 = 0) {f : Memalloc → Tracker β} :
    (Tracker.newRecord ptr calladdr size >>= f).interp (handleWith R malloc free) s =
      .error .fault := by
  have htake : takeRecord s = .ok (none, { s with pools := (bankGetPtr s.pools).2 }) := by
    show (if (bankGetPtr s.pools).1 = 0 then _ else _ : ProcM (Option ℕ)) s = _
    rw [if_pos h0]
    rfl
  exact bind_of_ok htake _

theorem interp_newRecord_some (hne : (bankGetPtr s.pools).1 ≠ 0) {f : Memalloc → Tracker β} :
    (Tracker.newRecord ptr calladdr size >>= f).interp (handleWith R malloc free) s =
      (f (s.newMem R ptr calladdr size)).interp (handleWith R malloc free) (s.withRecord R) := by
  have htake : takeRecord s = .ok (some (bankGetPtr s.pools).1, { s with
      pools := (bankGetPtr s.pools).2, taken := (bankGetPtr s.pools).1 :: s.taken }) := by
    show (if (bankGetPtr s.pools).1 = 0 then _ else _ : ProcM (Option ℕ)) s = _
    rw [if_neg hne]
    rfl
  exact bind_of_ok htake _

/-! ### A new block -/

theorem interp_malloc_refused (hen : s.enabled ≠ 0) (h : s.heap.answer size.toNat = none) :
    (Tracker.malloc calladdr size).interp (handleWith R malloc free) s =
      .ok (none, { s with heap := s.heap.afterMalloc size.toNat }) := by
  refine (interp_enabled hen).trans ?_
  have hasked : handleWith R malloc free (.malloc size) s =
      .ok (none, { s with heap := s.heap.afterMalloc size.toNat }) := by
    show Except.ok (s.heap.answer size.toNat, _) = _
    rw [h]
  exact (bind_of_ok hasked _).trans rfl

theorem interp_malloc_given (hen : s.enabled ≠ 0) (h : s.heap.answer size.toNat = some ptr) :
    (Tracker.malloc calladdr size).interp (handleWith R malloc free) s =
      (Tracker.trackNew calladdr size (some ptr)).interp (handleWith R malloc free)
        { s with heap := s.heap.afterMalloc size.toNat } := by
  refine (interp_enabled hen).trans ?_
  have hasked : handleWith R malloc free (.malloc size) s =
      .ok (some ptr, { s with heap := s.heap.afterMalloc size.toNat }) := by
    show Except.ok (s.heap.answer size.toNat, _) = _
    rw [h]
  exact bind_of_ok hasked _

theorem trackNew_of_no_record (hen : s.enabled ≠ 0) (h0 : (bankGetPtr s.pools).1 = 0) :
    (Tracker.trackNew calladdr size (some ptr)).interp (handleWith R malloc free) s =
      .error .fault := by
  refine (interp_enabled hen).trans ?_
  rw [bind_assoc]
  exact interp_newRecord_none h0

theorem trackNew_of_insert_error (hen : s.enabled ≠ 0)
    (hne : (bankGetPtr s.pools).1 ≠ 0) {e : Stuck}
    (h : handleWith R malloc free (.insert ptr (s.newMem R ptr calladdr size)) (s.withRecord R) =
      .error e) :
    (Tracker.trackNew calladdr size (some ptr)).interp (handleWith R malloc free) s = .error e := by
  refine (interp_enabled hen).trans ?_
  rw [bind_assoc]
  exact (interp_newRecord_some hne).trans (bind_of_error h _)

/-- The statistics with one allocation more. -/
def counted (st : Memstats) (size : UInt64) : Memstats :=
  (((st.add .alloc 1).add .activeAlloc 1).add .reserved size).add .activeReserved size

theorem trackNew_of_insert_ok (hen : s.enabled ≠ 0) (hne : (bankGetPtr s.pools).1 ≠ 0)
    {s' : Process}
    (h : handleWith R malloc free (.insert ptr (s.newMem R ptr calladdr size)) (s.withRecord R) =
      .ok ((), s')) :
    (Tracker.trackNew calladdr size (some ptr)).interp (handleWith R malloc free) s =
      .ok (some ptr, { s' with stats := counted s'.stats size }) := by
  refine (interp_enabled hen).trans ?_
  rw [bind_assoc]
  exact (interp_newRecord_some hne).trans (bind_of_ok h _)

end

/-! ### Insertions into a full table -/

/-- An insertion under the table lock. -/
theorem insert_of_held {mem : Memalloc} (hl : .hashtbl .table ∈ s.held) :
    insert R malloc free key mem s = .error .deadlock := by
  show Locked.hashTableInsertSafe (tableEnv malloc free) R.clib (entryOf key mem) _ = _
  rw [Locked.hashTableInsertSafe]
  exact bind_of_error (hashCodeSafe_of_held
    (s := { s with record := Function.update s.record mem.addr mem }) hl) _

/-- An insertion now would come to a resize whose bucket array can be had, with a record left for
the array. -/
def GrowthBlocks (R : Runtime) (s : Process) : Prop :=
  ∃ a t, s.htable = .ready a t ∧ t.resizeThreshold ≤ t.usedBuckets ∧
    s.heap.answer (bucketBytes R t) ≠ none ∧ (bankGetPtr s.pools).1 ≠ 0

/-- An insertion now would come to a resize whose bucket array can be had, with no record left for
the array. -/
def GrowthFaults (R : Runtime) (s : Process) : Prop :=
  ∃ a t, s.htable = .ready a t ∧ t.resizeThreshold ≤ t.usedBuckets ∧
    s.heap.answer (bucketBytes R t) ≠ none ∧ (bankGetPtr s.pools).1 = 0

theorem exists_handleWith (R : Runtime) (d : ℕ) :
    ∃ malloc free, handle R d = handleWith R malloc free := by
  cases d with
  | zero => exact ⟨_, _, rfl⟩
  | succ d => exact ⟨_, _, rfl⟩

/-- The request for the bucket array, which comes back to `malloc` under the table lock. -/
theorem nested_malloc_refused (hen : s.enabled ≠ 0) (h : s.heap.answer (bucketBytes R t) = none) :
    (Tracker.malloc R.caller (UInt64.ofNat (bucketBytes R t))).interp (handle R d) s =
      .ok (none, { s with heap := s.heap.afterMalloc (bucketBytes R t) }) := by
  obtain ⟨malloc, free, hd⟩ := exists_handleWith R d
  have hn : (UInt64.ofNat (bucketBytes R t)).toNat = bucketBytes R t :=
    UInt64.toNat_ofNat_of_lt' (Nat.mod_lt _ (by decide))
  rw [hd, interp_malloc_refused hen (by rw [hn]; exact h), hn]

theorem nested_malloc_given (hen : s.enabled ≠ 0) (hl : .hashtbl .table ∈ s.held)
    (h : s.heap.answer (bucketBytes R t) ≠ none) :
    (Tracker.malloc R.caller (UInt64.ofNat (bucketBytes R t))).interp (handle R d) s =
      .error (if (bankGetPtr s.pools).1 = 0 then .fault else .deadlock) := by
  obtain ⟨malloc, free, hd⟩ := exists_handleWith R d
  have hn : (UInt64.ofNat (bucketBytes R t)).toNat = bucketBytes R t :=
    UInt64.toNat_ofNat_of_lt' (Nat.mod_lt _ (by decide))
  obtain ⟨ptr, hptr⟩ := Option.ne_none_iff_exists'.mp h
  rw [hd, interp_malloc_given hen (by rw [hn]; exact hptr)]
  split_ifs with h0
  · exact trackNew_of_no_record hen h0
  · exact trackNew_of_insert_error (s := { s with heap := s.heap.afterMalloc _ }) hen h0
      (insert_of_held (s := withRecord R { s with heap := s.heap.afterMalloc _ }) hl)

/-- An insertion that comes to a resize whose bucket array can be had ends in the call of `malloc`
for the array. -/
theorem insert_of_growth {mem : Memalloc} (hen : s.enabled ≠ 0) (hheld : s.held = [])
    (ht : s.htable = .ready a t) (hfull : t.resizeThreshold ≤ t.usedBuckets)
    (hanswer : s.heap.answer (bucketBytes R t) ≠ none) :
    handle R (d + 1) (.insert key mem) s =
      .error (if (bankGetPtr s.pools).1 = 0 then .fault else .deadlock) := by
  have hl : ∀ l, l ∉ s.held := fun l => by
    rw [hheld]
    exact List.not_mem_nil
  have hnested := nested_malloc_given (R := R) (d := d) (t := t)
    (s := { s with
      record := Function.update s.record mem.addr mem, held := .hashtbl .table :: s.held })
    hen List.mem_cons_self hanswer
  show Locked.hashTableInsertSafe (tableEnv _ _) R.clib (entryOf key mem) _ = _
  rw [Locked.hashTableInsertSafe]
  refine (bind_of_ok (hashCodeSafe_of_ready
    (s := { s with record := Function.update s.record mem.addr mem }) ht (hl _)) _).trans ?_
  exact bind_of_error (resizeIfFull_of_stuck
    (s := { s with record := Function.update s.record mem.addr mem }) ht hfull (hl _) hnested) _

/-- **An insertion that blocks.** -/
theorem insert_of_growthBlocks {mem : Memalloc} (hen : s.enabled ≠ 0) (hheld : s.held = [])
    (h : GrowthBlocks R s) : handle R (d + 1) (.insert key mem) s = .error .deadlock := by
  obtain ⟨a, t, ht, hfull, hanswer, hrec⟩ := h
  rw [insert_of_growth hen hheld ht hfull hanswer, if_neg hrec]

/-- **An insertion that finds no record** for the bucket array. -/
theorem insert_of_growthFaults {mem : Memalloc} (hen : s.enabled ≠ 0) (hheld : s.held = [])
    (h : GrowthFaults R s) : handle R (d + 1) (.insert key mem) s = .error .fault := by
  obtain ⟨a, t, ht, hfull, hanswer, hrec⟩ := h
  rw [insert_of_growth hen hheld ht hfull hanswer, if_pos hrec]

/-- **An insertion that does not block** returns, unless it finds no record for the bucket array, or
no table. -/
theorem insert_ends {mem : Memalloc} {bad : Stuck → Prop} (hen : s.enabled ≠ 0)
    (hheld : s.held = [])
    (h : ¬ GrowthBlocks R s) (hcrash : bad .crash) (hfault : GrowthFaults R s → bad .fault) :
    Ends (handle R (d + 1) (.insert key mem)) s
      (fun _ s' => ∃ a t H, s.htable = .ready a t ∧ s' = s.inserted a t key mem H ∧
        H.freed = s.heap.freed) bad := by
  have hl : ∀ l, l ∉ s.held := fun l => by
    rw [hheld]
    exact List.not_mem_nil
  by_cases hready : ∃ a t, s.htable = .ready a t
  · obtain ⟨a, t, ht⟩ := hready
    rcases Nat.lt_or_ge t.usedBuckets t.resizeThreshold with hroom | hfull
    · refine ends_of_ok (insert_of_resizeIfFull ht hheld (resizeIfFull_of_room
        (s := { s with record := Function.update s.record mem.addr mem }) ht hroom)) ?_
      exact ⟨a, t, _, ht, rfl, rfl⟩
    · by_cases hanswer : s.heap.answer (bucketBytes R t) = none
      · have hm := nested_malloc_refused (R := R) (d := d) (s := { s with
          record := Function.update s.record mem.addr mem, held := .hashtbl .table :: s.held })
          hen hanswer
        refine ends_of_ok (insert_of_resizeIfFull ht hheld (resizeIfFull_of_refused
          (s := { s with record := Function.update s.record mem.addr mem }) ht hfull (hl _) hm)) ?_
        exact ⟨a, t, _, ht, rfl, Heap.freed_afterMalloc _ _⟩
      · have hrec : (bankGetPtr s.pools).1 = 0 := by
          by_contra hne
          exact h ⟨a, t, ht, hfull, hanswer, hne⟩
        have hg : GrowthFaults R s := ⟨a, t, ht, hfull, hanswer, hrec⟩
        exact ends_of_error (insert_of_growthFaults hen hheld hg) (hfault hg)
  · refine ends_of_error ?_ hcrash
    show Locked.hashTableInsertSafe (tableEnv _ _) R.clib (entryOf key mem) _ = _
    rw [Locked.hashTableInsertSafe]
    exact bind_of_error (hashCodeSafe_of_not_ready
      (s := { s with record := Function.update s.record mem.addr mem })
      (fun a t ht => hready ⟨a, t, ht⟩) (hl _)) _

/-! ### Operations that take no mutex -/

/-- A call does not return for a reason that has nothing to do with a mutex. -/
def Lost (e : Stuck) : Prop := e = .crash ∨ e = .astray

/-- What the operations that take neither a mutex nor a record leave as it is: the mutexes, the
bank and its log, and the log of releases up to new ones. -/
structure Untouched (s s' : Process) : Prop where
  held : s'.held = s.held
  pools : s'.pools = s.pools
  taken : s'.taken = s.taken
  freed : s.heap.freed ⊆ s'.heap.freed

instance : IsPreorder Process Untouched where
  refl _ := ⟨rfl, rfl, rfl, List.Subset.refl _⟩
  trans _ _ _ h₁ h₂ := ⟨h₂.held.trans h₁.held, h₂.pools.trans h₁.pools, h₂.taken.trans h₁.taken,
    List.Subset.trans h₁.freed h₂.freed⟩

/-- The computation takes neither a mutex nor a record. -/
def Quiet {α : Type} (x : ProcM α) : Prop := Moves Untouched Lost x

section

theorem moves_load {rel : Process → Process → Prop} [Std.Refl rel] : Moves rel Lost load := by
  intro s
  by_cases hready : ∃ a t, s.htable = .ready a t
  · obtain ⟨a, t, ht⟩ := hready
    exact ends_of_ok (load_of_ready ht) (refl_of rel s)
  · exact ends_of_error (load_of_not_ready fun a t ht => hready ⟨a, t, ht⟩) (.inl rfl)

theorem moves_forEachSafe {rel : Process → Process → Prop} [IsPreorder Process rel]
    {body : Pos ℕ → ℕ → ProcM ℕ} (hbody : ∀ pos i, Moves rel Lost (body pos i)) :
    ∀ fuel i cur, Moves rel Lost (forEachSafe (stuck .astray) load body fuel i cur)
  | 0, _, _ => fun _ => .inr rfl
  | fuel + 1, i, none => by
    have hstray : Moves rel Lost (stuck .astray : ProcM Unit) := fun _ => .inr rfl
    refine .bind moves_load fun h => ?_
    split_ifs
    · cases h.next (.head i) with
      | none => exact hstray
      | some pos =>
        show Moves rel Lost ((h.next pos).elim _ _)
        cases h.next pos with
        | none => exact hstray
        | some n => exact moves_forEachSafe hbody fuel i _
    · exact .pure _
  | fuel + 1, i, some (pos, n) => by
    have hstray : Moves rel Lost (stuck .astray : ProcM Unit) := fun _ => .inr rfl
    rw [forEachSafe]
    split_ifs
    · exact moves_forEachSafe hbody fuel _ _
    · refine .bind (hbody pos i) fun i => .bind moves_load fun h => ?_
      cases h.next n with
      | none => exact hstray
      | some n' => exact moves_forEachSafe hbody fuel i _

theorem moves_memReport {rel : Process → Process → Prop} [IsPreorder Process rel] :
    Moves rel Lost memReport := by
  refine .bind moves_load fun h => moves_forEachSafe (fun pos i => ?_) _ _ _
  cases pos with
  | head j => exact fun _ => .inr rfl
  | node entry =>
    refine .bind .get fun s => ?_
    dsimp only
    split_ifs
    · exact fun _ => .inr rfl
    · exact .pure _

/-- How `free` ends. -/
def finish (ptr : ℕ) : ProcM (Option ℕ) := do
  allocate (Heap.free ptr)
  return none

/-- The relation leaves room for other statistics, and for releases. -/
structure Lenient (rel : Process → Process → Prop) : Prop where
  stats : ∀ s st, rel s { s with stats := st }
  release : ∀ s ptr, rel s { s with heap := s.heap.afterFree ptr }

namespace Lenient

variable {rel : Process → Process → Prop}

theorem sub (h : Lenient rel) (c : Counter) (n : UInt64) :
    Moves rel Lost (handleWith R malloc free (.sub c n)) := .modify fun s => h.stats s _

theorem add (h : Lenient rel) (c : Counter) (n : UInt64) :
    Moves rel Lost (handleWith R malloc free (.add c n)) := .modify fun s => h.stats s _

theorem giveBack (h : Lenient rel) (ptr : ℕ) : Moves rel Lost (allocate (Heap.free ptr)) :=
  fun s => h.release s ptr

theorem freeRecord [IsTrans Process rel] (h : Lenient rel) (mem : Memalloc) :
    Moves rel Lost (freeRecord mem) := .bind (h.giveBack _) fun _ => h.giveBack _

theorem finish [IsPreorder Process rel] (h : Lenient rel) (ptr : ℕ) : Moves rel Lost (finish ptr) :=
  .bind (h.giveBack ptr) fun _ => .pure _

end Lenient

theorem lenient_untouched : Lenient Untouched where
  stats _ _ := ⟨rfl, rfl, rfl, List.Subset.refl _⟩
  release s ptr := ⟨rfl, rfl, rfl, s.heap.freed_subset_afterFree ptr⟩

theorem quiet_store (t : HashTable ℕ) : Quiet (store t) :=
  fun _ => ⟨rfl, rfl, rfl, List.Subset.refl _⟩

theorem quiet_cleanupEntry (pos : Pos ℕ) (i : ℕ) : Quiet (cleanupEntry pos i) := by
  cases pos with
  | head j => exact fun _ => .inr rfl
  | node entry =>
    refine .bind moves_load fun h => .bind (quiet_store _) fun _ => .bind .get fun s => ?_
    exact .bind (lenient_untouched.freeRecord _) fun _ => .pure _

theorem quiet_miluCleanup : Quiet miluCleanup :=
  .bind moves_load fun _ => moves_forEachSafe quiet_cleanupEntry _ _ _

end

/-! ### Deletions -/

/-- The process without an entry of its table. -/
def deleted (s : Process) (a : ℕ) (t : HashTable ℕ) (key : ℕ) (e : HashEntry ℕ) : Process :=
  { s with
    htable := .ready a
      ((t.reading s.user).listDelInit (hashTableHashCode t key sizeofPtr) e) }

/-- **A deletion** takes out the first record that the comparator takes for that of the key. -/
theorem delete_of_ready (ht : s.htable = .ready a t) (hheld : s.held = []) (key : ℕ) :
    (hashTableLookupKey (t.reading s.user) key sizeofPtr = none ∧
      delete malloc free key s = .ok (none, s)) ∨
    ∃ e, hashTableLookupKey (t.reading s.user) key sizeofPtr = some e ∧
      delete malloc free key s = .ok (some (s.recordOf e), s.deleted a t key e) := by
  let l : Mutex := .hashtbl (.bucket (hashTableHashCode t key sizeofPtr))
  let s₁ : Process := { s with held := l :: s.held }
  have hl : l ∉ s.held := by
    rw [hheld]
    exact List.not_mem_nil
  cases hlookup : hashTableLookupKey (t.reading s.user) key sizeofPtr with
  | none =>
    have hdel : Locked.hashTableDelKeySafe (tableEnv malloc free) key sizeofPtr s =
        .ok (none, s) := by
      rw [Locked.hashTableDelKeySafe]
      refine (bind_of_ok (load_of_ready ht) _).trans ?_
      refine (bind_of_ok (lock_of_notMem hl) _).trans ?_
      refine (bind_of_ok (load_of_ready (s := s₁) ht) _).trans ?_
      rw [show hashTableLookupKey (t.reading s₁.user) key sizeofPtr = none from hlookup]
      show Except.ok (none, { s with held := (l :: s.held).erase l }) = _
      rw [List.erase_cons_head]
    exact .inl ⟨rfl, bind_of_ok hdel _⟩
  | some e =>
    have hdel : Locked.hashTableDelKeySafe (tableEnv malloc free) key sizeofPtr s =
        .ok (some e, s.deleted a t key e) := by
      rw [Locked.hashTableDelKeySafe]
      refine (bind_of_ok (load_of_ready ht) _).trans ?_
      refine (bind_of_ok (lock_of_notMem hl) _).trans ?_
      refine (bind_of_ok (load_of_ready (s := s₁) ht) _).trans ?_
      rw [show hashTableLookupKey (t.reading s₁.user) key sizeofPtr = some e from hlookup]
      show Except.ok (some e, { s with
        htable := .ready s.htable.addr _, held := (l :: s.held).erase l }) = _
      rw [List.erase_cons_head, ht]
      rfl
    exact .inr ⟨e, rfl, bind_of_ok hdel _⟩

theorem delete_of_not_ready (h : ∀ a t, s.htable ≠ .ready a t) :
    delete malloc free key s = .error .crash := by
  refine bind_of_error ?_ _
  show Locked.hashTableDelKeySafe (tableEnv malloc free) key sizeofPtr s = _
  rw [Locked.hashTableDelKeySafe]
  exact bind_of_error (load_of_not_ready h) _

/-! ### Blocks and their records -/

/-- A call that has its block would take a record, and block on inserting it. -/
def RecordBlocks (R : Runtime) (s : Process) : Prop :=
  (bankGetPtr s.pools).1 ≠ 0 ∧ GrowthBlocks R (s.withRecord R)

/-- A call that has its block would write through a record that is `NULL`: its own, or that of the
bucket array. -/
def RecordFaults (R : Runtime) (s : Process) : Prop :=
  (bankGetPtr s.pools).1 = 0 ∨ GrowthFaults R (s.withRecord R)

theorem recordBlocks_deleted (ht : s.htable = .ready a t) {e : HashEntry ℕ} :
    RecordBlocks R (s.deleted a t key e) ↔ RecordBlocks R s := by
  have hgrowth : GrowthBlocks R ((s.deleted a t key e).withRecord R) ↔
      GrowthBlocks R (s.withRecord R) := by
    constructor
    · rintro ⟨a', t', ht', hfull, hanswer, hrec⟩
      obtain ⟨rfl, rfl⟩ := TablePtr.ready.inj ht'
      exact ⟨a, t, ht, hfull, hanswer, hrec⟩
    · rintro ⟨a', t', ht', hfull, hanswer, hrec⟩
      obtain ⟨rfl, rfl⟩ := TablePtr.ready.inj (ht.symm.trans ht')
      exact ⟨a, _, rfl, hfull, hanswer, hrec⟩
  exact and_congr_right' hgrowth

theorem recordFaults_deleted (ht : s.htable = .ready a t) {e : HashEntry ℕ} :
    RecordFaults R (s.deleted a t key e) ↔ RecordFaults R s := by
  have hgrowth : GrowthFaults R ((s.deleted a t key e).withRecord R) ↔
      GrowthFaults R (s.withRecord R) := by
    constructor
    · rintro ⟨a', t', ht', hfull, hanswer, hrec⟩
      obtain ⟨rfl, rfl⟩ := TablePtr.ready.inj ht'
      exact ⟨a, t, ht, hfull, hanswer, hrec⟩
    · rintro ⟨a', t', ht', hfull, hanswer, hrec⟩
      obtain ⟨rfl, rfl⟩ := TablePtr.ready.inj (ht.symm.trans ht')
      exact ⟨a, _, rfl, hfull, hanswer, hrec⟩
  exact or_congr_right hgrowth

section

variable {ptr nptr calladdr : ℕ} {size : UInt64}

/-- The process with a new record for `ptr` in its table. -/
def tracked (R : Runtime) (s : Process) (a : ℕ) (t : HashTable ℕ) (ptr calladdr : ℕ) (size : UInt64)
    (H : Heap) : Process :=
  (s.withRecord R).inserted a t ptr (s.newMem R ptr calladdr size) H

theorem trackNew_of_recordBlocks (hen : s.enabled ≠ 0) (hheld : s.held = [])
    (h : RecordBlocks R s) :
    (Tracker.trackNew calladdr size (some ptr)).interp (handle R (d + 1)) s = .error .deadlock :=
  trackNew_of_insert_error hen h.1 (insert_of_growthBlocks (s := s.withRecord R) hen hheld h.2)

theorem trackNew_of_recordFaults (hen : s.enabled ≠ 0) (hheld : s.held = [])
    (h : RecordFaults R s) :
    (Tracker.trackNew calladdr size (some ptr)).interp (handle R (d + 1)) s = .error .fault := by
  by_cases h0 : (bankGetPtr s.pools).1 = 0
  · exact trackNew_of_no_record hen h0
  · exact trackNew_of_insert_error hen h0
      (insert_of_growthFaults (s := s.withRecord R) hen hheld (h.resolve_left h0))

theorem insert_ends_withRecord {bad : Stuck → Prop} (hen : s.enabled ≠ 0) (hheld : s.held = [])
    (h : ¬ RecordBlocks R s) (hcrash : bad .crash) (hfault : RecordFaults R s → bad .fault)
    (hne : (bankGetPtr s.pools).1 ≠ 0) (key : ℕ) (mem : Memalloc) :
    Ends (handle R (d + 1) (.insert key mem)) (s.withRecord R)
      (fun _ s' => ∃ a t H, s.htable = .ready a t ∧ s' = (s.withRecord R).inserted a t key mem H ∧
        H.freed = s.heap.freed) bad := by
  refine (insert_ends (s := s.withRecord R) hen hheld (fun hg => h ⟨hne, hg⟩) hcrash
    fun hg => hfault (.inr hg)).mono ?_ fun _ he => he
  rintro _ _ ⟨a, t, H, ht, rfl, hH⟩
  exact ⟨a, t, H, ht, rfl, hH.trans (Heap.freed_afterMalloc _ _)⟩

/-- **A new block** is recorded, unless there is no record or no table. -/
theorem trackNew_ends {bad : Stuck → Prop} (hen : s.enabled ≠ 0) (hheld : s.held = [])
    (h : ¬ RecordBlocks R s) (hcrash : bad .crash) (hfault : RecordFaults R s → bad .fault) :
    Ends ((Tracker.trackNew calladdr size (some ptr)).interp (handle R (d + 1))) s
      (fun r s' => ∃ a t H, s.htable = .ready a t ∧ (bankGetPtr s.pools).1 ≠ 0 ∧
        H.freed = s.heap.freed ∧ r = some ptr ∧
        s' = { s.tracked R a t ptr calladdr size H with stats := counted s.stats size }) bad := by
  by_cases h0 : (bankGetPtr s.pools).1 = 0
  · exact ends_of_error (trackNew_of_no_record hen h0) (hfault (.inl h0))
  · have hins := insert_ends_withRecord (d := d) hen hheld h hcrash hfault h0 ptr
      (s.newMem R ptr calladdr size)
    cases hx : handle R (d + 1) (.insert ptr (s.newMem R ptr calladdr size)) (s.withRecord R) with
    | error e => exact ends_of_error (trackNew_of_insert_error hen h0 hx) (hins.of_error hx)
    | ok r =>
      obtain ⟨_, s'⟩ := r
      obtain ⟨a, t, H, ht, rfl, hH⟩ := hins.of_ok hx
      exact ends_of_ok (trackNew_of_insert_ok hen h0 hx)
        ⟨a, t, H, ht, h0, hH, rfl, rfl⟩

theorem relink_of_recordBlocks (hen : s.enabled ≠ 0) (hheld : s.held = []) (h : RecordBlocks R s)
    {old : Option Memalloc} :
    (Tracker.relink old nptr calladdr size).interp (handle R (d + 1)) s = .error .deadlock :=
  (interp_newRecord_some h.1).trans (bind_of_error
    (insert_of_growthBlocks (s := s.withRecord R) hen hheld h.2) _)

theorem relink_of_recordFaults (hen : s.enabled ≠ 0) (hheld : s.held = []) (h : RecordFaults R s)
    {old : Option Memalloc} :
    (Tracker.relink old nptr calladdr size).interp (handle R (d + 1)) s = .error .fault := by
  by_cases h0 : (bankGetPtr s.pools).1 = 0
  · exact interp_newRecord_none h0
  · exact (interp_newRecord_some h0).trans (bind_of_error
      (insert_of_growthFaults (s := s.withRecord R) hen hheld (h.resolve_left h0)) _)

/-- How `realloc` ends: the record that it deleted is given up, and the new one counted. -/
def settle (old : Option Memalloc) (size : UInt64) : Tracker Unit := do
  Tracker.forgetOld old
  Tracker.perform (.add .reserved size)
  Tracker.perform (.add .activeReserved size)

theorem Lenient.settle {rel : Process → Process → Prop} [IsPreorder Process rel] (h : Lenient rel)
    (old : Option Memalloc) :
    Moves rel Lost ((settle old size).interp (handleWith R malloc free)) := by
  have hold : Moves rel Lost ((Tracker.forgetOld old).interp (handleWith R malloc free)) := by
    cases old with
    | none => exact .pure _
    | some mem =>
      refine .bind (h.sub _ _) fun _ => .bind (h.sub _ _) fun _ => ?_
      exact .bind (h.freeRecord _) fun _ => .pure _
  rw [Process.settle, Program.interp_bind]
  exact .bind hold fun _ => .bind (h.add _ _) fun _ => .bind (h.add _ _) fun _ => .pure _

/-- **A record in place of another** is inserted, unless there is no record or no table. -/
theorem relink_ends {bad : Stuck → Prop} (hen : s.enabled ≠ 0) (hheld : s.held = [])
    (h : ¬ RecordBlocks R s) (hcrash : bad .crash) (hfault : RecordFaults R s → bad .fault)
    {old : Option Memalloc} {post : Unit → Process → Prop}
    (hrest : ∀ a t H, s.htable = .ready a t → (bankGetPtr s.pools).1 ≠ 0 →
      H.freed = s.heap.freed → Ends ((settle old size).interp (handle R (d + 1)))
        (s.tracked R a t nptr calladdr size H) post bad) :
    Ends ((Tracker.relink old nptr calladdr size).interp (handle R (d + 1))) s post bad := by
  by_cases h0 : (bankGetPtr s.pools).1 = 0
  · exact ends_of_error (interp_newRecord_none h0) (hfault (.inl h0))
  · have hins := insert_ends_withRecord (d := d) hen hheld h hcrash hfault h0 nptr
      (s.newMem R nptr calladdr size)
    refine ends_of_eq (interp_newRecord_some h0) ?_
    refine Ends.bind hins ?_
    rintro _ _ ⟨a, t, H, ht, rfl, hH⟩
    exact hrest a t H ht h0 hH

/-- What a call that returns has done with a new block. -/
theorem trackNew_ifReturns (hen : s.enabled ≠ 0) (hheld : s.held = []) :
    IfReturns ((Tracker.trackNew calladdr size (some ptr)).interp (handle R (d + 1))) s
      fun r s' => ∃ a t H, s.htable = .ready a t ∧ (bankGetPtr s.pools).1 ≠ 0 ∧
        H.freed = s.heap.freed ∧ r = some ptr ∧
        s' = { s.tracked R a t ptr calladdr size H with stats := counted s.stats size } := by
  by_cases hb : RecordBlocks R s
  · exact ends_of_error (trackNew_of_recordBlocks hen hheld hb) trivial
  · exact trackNew_ends hen hheld hb trivial fun _ => trivial

theorem relink_ifReturns (hen : s.enabled ≠ 0) (hheld : s.held = []) {old : Option Memalloc}
    {post : Unit → Process → Prop}
    (hrest : ∀ a t H, s.htable = .ready a t → (bankGetPtr s.pools).1 ≠ 0 →
      H.freed = s.heap.freed → IfReturns ((settle old size).interp (handle R (d + 1)))
        (s.tracked R a t nptr calladdr size H) post) :
    IfReturns ((Tracker.relink old nptr calladdr size).interp (handle R (d + 1))) s post := by
  by_cases hb : RecordBlocks R s
  · exact ends_of_error (relink_of_recordBlocks hen hheld hb) trivial
  · exact relink_ends hen hheld hb trivial (fun _ => trivial) hrest

end

end Process

end Milu
