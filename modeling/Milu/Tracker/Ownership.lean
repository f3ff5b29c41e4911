import Milu.Pool.Outstanding
import Milu.Tracker.Reentrancy

/-!
# Who owns a record

The records come from the bank. `malloc`, `calloc` and `realloc` take one for each block, and the
table holds it. `free` means to put the record back into the bank, but the macro it tests is
misspelt; `realloc` and `milu_cleanup` do not test one. All three pass the record to `_free`. Its
address is inside the memory of a pool, the bank counts it as out for ever, and the first record of
a pool is at the address of the whole block.

## Main definitions

* `Process.records`, `Process.outstanding`, `Process.inPools` — the records in the table, how many
  are out, and the memory of the pools
* `Owned` — each record that is out is in the table, and no memory of a pool was released
* `Event`, `Event.Keeps` — a step of the program, and the steps that give up no record
* `Start`, `OwnershipRun` — milu as it is enabled, and the runs from there

## Main results

* `OwnInv.event` — one step: a step that gives up no record keeps the invariant, and every other
  releases memory of a pool
* `owned_iff_keeps` — every record stays owned throughout exactly the runs whose steps give up none
* `free_releases_pool` — the record of the first block, freed
-/

namespace Milu

/-! ### Records -/

namespace Process

def records (s : Process) : List ℕ :=
  match s.htable with
  | .ready _ t => t.entries.map fun e => e.addr - hentryOffset
  | _ => []

def outstanding (s : Process) : ℕ := s.pools.elim 0 Bank.outstanding

/-- Is the address inside the memory of a pool? -/
def inPools (s : Process) (x : ℕ) : Bool := s.pools.elim false (Bank.owns · x)

/-- The entry a search of the table comes to. -/
def find (s : Process) (ptr : ℕ) : Option (HashEntry ℕ) :=
  match s.htable with
  | .ready _ t => hashTableLookupKey (t.reading s.user) ptr sizeofPtr
  | _ => none

end Process

/-- As many records are out as the table holds; each that was taken is in the table, once, as none
is ever put back; and no address inside a pool was passed to the real `free`. -/
structure Owned (s : Process) : Prop where
  outstanding : s.outstanding = s.records.length
  taken : s.taken.Perm s.records
  apart : ∀ x ∈ s.heap.freed, s.inPools x = false

/-- Memory of a pool was released. -/
def Released (s : Process) : Prop := ∃ x ∈ s.heap.freed, s.inPools x = true

theorem Released.not_owned {s : Process} (h : Released s) : ¬ Owned s := by
  obtain ⟨x, hx, hin⟩ := h
  intro hs
  exact absurd ((hs.apart x hx).symm.trans hin) Bool.false_ne_true

/-- A step of the program: a call, with as many as `d` calls inside one another, a call of
`milu_cleanup`, or writes to its own memory. -/
inductive Event
  | call (d calladdr : ℕ) (q : Request)
  | cleanup
  | write (user : UserMem)

/-- What the step does. -/
def Event.run (R : Runtime) : Event → ProcM Unit
  | call d calladdr q => do
    let _ ← Process.call R (d + 1) calladdr q
    return ()
  | cleanup => Process.miluCleanup
  | write user => modify fun s => { s with user := user }

/-- The steps that give up no record: `free` and `milu_cleanup` when the table is empty, `free` not
of memory of a pool, and `realloc` when it is refused or finds no record. -/
def Event.Keeps (s : Process) : Event → Prop
  | call _ _ (.malloc _) | call _ _ (.calloc _ _) | write _ => True
  | call _ _ (.realloc ptr size) =>
    (∃ nptr H, Heap.realloc ptr size.toNat s.heap = some (some nptr, H)) → s.find ptr = none
  | call _ _ (.free ptr) => s.records = [] ∧ s.inPools ptr = false
  | cleanup => s.records = []

/-- Milu as it is enabled: the table, if there is one, as `hash_table_init` makes it, the bank as
`create_bank` makes it, and no record taken. -/
structure Start (R : Runtime) (s : Process) : Prop where
  enabled : s.enabled ≠ 0
  held : s.held = []
  table : ∀ a t, s.htable = .ready a t → ∃ H H', hashTableInit Heap.malloc R.clib defHsize
    (some (hash64Cmp s.user)) (some miluHashPtr) H = some (some t, H')
  bank : ∃ H H', createBank Heap.malloc Heap.free 1 true poolsize sizeofMemalloc H =
    some (s.pools, H')
  taken : s.taken = []
  apart : ∀ x ∈ s.heap.freed, s.inPools x = false

/-- A run, with its steps and the states they start in, the last step first. -/
inductive OwnershipRun (R : Runtime) : List (Process × Event) → Process → Prop
  | start {s : Process} : Start R s → OwnershipRun R [] s
  | step {steps : List (Process × Event)} {s s' : Process} {ev : Event} :
      OwnershipRun R steps s → ev.run R s = .ok ((), s') → OwnershipRun R ((s, ev) :: steps) s'

/-! ### The invariant -/

/-- The invariant of a run that gives up no record. -/
structure OwnInv (s : Process) : Prop where
  enabled : s.enabled ≠ 0
  held : s.held = []
  buckets : ∀ a t, s.htable = .ready a t → 0 < t.buckets
  bank : BankState s.pools s.taken
  taken : s.taken.Perm s.records
  apart : ∀ x ∈ s.heap.freed, s.inPools x = false

namespace OwnInv

variable {R : Runtime} {s : Process} {a : ℕ} {t : HashTable ℕ} {H : Heap}

theorem owned (hi : OwnInv s) : Owned s :=
  ⟨hi.bank.outstanding_eq.trans hi.taken.length_eq, hi.taken, hi.apart⟩

theorem inPools_of_mem (hi : OwnInv s) {x : ℕ} (hx : x ∈ s.records) : s.inPools x = true :=
  hi.bank.owns_of_mem (hi.taken.mem_iff.mpr hx)

theorem of_start (h : Start R s) : OwnInv s := by
  have hfresh : ∀ a t, s.htable = .ready a t → t.entries = [] ∧ 0 < t.buckets := by
    intro a t ht
    obtain ⟨H, H', hinit⟩ := h.table a t ht
    obtain ⟨tableMem, bucketLocks, rfl⟩ := eq_fresh_of_hashTableInit hinit
    exact ⟨entries_fresh _ _ _ _ _ _, hashtblSz_pos _ _⟩
  have hrecords : s.records = [] := by
    rw [Process.records]
    split
    · next a t ht => rw [(hfresh a t ht).1, List.map_nil]
    · rfl
  obtain ⟨H, H', hbank⟩ := h.bank
  have hstate : BankState s.pools [] :=
    createBank_state ⟨by decide, by decide, by decide, by decide⟩ hbank
  refine ⟨h.enabled, h.held, fun a t ht => (hfresh a t ht).2, ?_, ?_, h.apart⟩
  · rw [h.taken]
    exact hstate
  · rw [h.taken, hrecords]

theorem withHeap (hi : OwnInv s) (hfreed : ∀ x ∈ H.freed, s.inPools x = false) :
    OwnInv { s with heap := H } :=
  ⟨hi.enabled, hi.held, hi.buckets, hi.bank, hi.taken, hfreed⟩

theorem tracked (hi : OwnInv s) (ht : s.htable = .ready a t) (hne : (bankGetPtr s.pools).1 ≠ 0)
    (hfreed : H.freed = s.heap.freed) (ptr calladdr : ℕ) (size : UInt64) (st : Memstats) :
    OwnInv { s.tracked R a t ptr calladdr size H with stats := st } := by
  set s' : Process := { s.tracked R a t ptr calladdr size H with stats := st }
  have hpos := hi.buckets a t ht
  have hin : ∀ x, s'.inPools x = s.inPools x := bankGetPtr_owns s.pools
  have hrecords : s'.records.Perm ((bankGetPtr s.pools).1 :: s.records) := by
    have hold : s.records = t.entries.map fun e => e.addr - hentryOffset := by
      rw [Process.records, ht]
    have hadd := ((t.reading s.user).entries_insertAt
      (HashTable.hashCode_lt (h := t) hpos ptr sizeofPtr)
      (Process.entryOf ptr (s.newMem R ptr calladdr size))).map fun e => e.addr - hentryOffset
    rw [List.map_cons] at hadd
    rw [hold]
    exact hadd
  refine ⟨hi.enabled, hi.held, ?_, hi.bank.get hne, ?_, ?_⟩
  · intro a' t' ht'
    obtain ⟨-, rfl⟩ := TablePtr.ready.inj ht'
    rw [HashTable.insertAt_buckets]
    exact hpos
  · exact (hi.taken.cons _).trans hrecords.symm
  · intro x hx
    rw [hin]
    exact hi.apart x (hfreed ▸ hx)


end OwnInv

/-! ### Traversals -/

namespace Process

variable {R : Runtime} {malloc : ℕ → ProcM (Option ℕ)} {free : ℕ → ProcM Unit} {s : Process}
  {d a : ℕ} {t : HashTable ℕ}

/-- A traversal passes the empty buckets. It returns, or is lost, or comes to an entry while all is
still as it was. -/
theorem forEachSafe_ends (ht : s.htable = .ready a t) {body : Pos ℕ → ℕ → ProcM ℕ}
    {post : Unit → Process → Prop} (hempty : t.entries = [] → post () s)
    (hnode : ∀ e ∈ t.entries, ∀ i n fuel, Ends
      (forEachSafe (stuck .astray) load body (fuel + 1) i (some (.node e, n))) s post Lost) :
    ∀ fuel i, (∀ j < i, j < t.buckets → t.table j = []) →
      Ends (forEachSafe (stuck .astray) load body fuel i none) s post Lost
  | 0, _, _ => .inr rfl
  | fuel + 1, i, hpassed => by
    have hload := load_of_ready ht
    refine ends_of_eq (bind_of_ok hload _) ?_
    by_cases hi : i < t.buckets
    · have hin : i < (t.reading s.user).buckets := hi
      rw [if_pos hin]
      have hhead : (t.reading s.user).next (.head i) = none ∨
          (t.reading s.user).next (.head i) = some (Pos.first i (t.table i)) :=
        (ite_eq_or_eq _ _ _).symm
      rcases hhead with hunset | hfirst
      · rw [hunset]
        exact .inr rfl
      cases hc : t.table i with
      | nil =>
        have hnext : (t.reading s.user).next (.head i) = some (.head i) := by
          rw [hfirst, hc]
          rfl
        rw [hnext, Option.elim_some, hnext, Option.elim_some]
        cases fuel with
        | zero => exact .inr rfl
        | succ fuel =>
          rw [forEachSafe, if_pos (by simp [Pos.isHead])]
          refine forEachSafe_ends ht hempty hnode fuel _ fun j hj hjb => ?_
          have hle : (i + 1) % 2 ^ 32 ≤ i + 1 := Nat.mod_le _ _
          rcases Nat.lt_or_ge j i with hji | hij
          · exact hpassed j hji hjb
          · rw [show j = i by omega]
            exact hc
      | cons e c =>
        have hmem : e ∈ t.entries :=
          HashTable.mem_entries_iff.mpr ⟨i, hi, hc ▸ List.mem_cons_self⟩
        have hnext : (t.reading s.user).next (.head i) = some (.node e) := by
          rw [hfirst, hc]
          rfl
        rw [hnext, Option.elim_some]
        cases (t.reading s.user).next (.node e) with
        | none => exact .inr rfl
        | some n =>
          cases fuel with
          | zero => exact .inr rfl
          | succ fuel => exact hnode e hmem i n fuel
    · have hin : ¬ i < (t.reading s.user).buckets := hi
      rw [if_neg hin]
      refine hempty (List.flatMap_eq_nil_iff.mpr fun j hj => ?_)
      have hj := List.mem_range.mp hj
      exact hpassed j (by omega) hj

theorem miluCleanup_of_empty (h : s.records = []) : Ends miluCleanup s
    (fun _ s' => s' = s) Lost := by
  by_cases hready : ∃ a t, s.htable = .ready a t
  · obtain ⟨a, t, ht⟩ := hready
    have hempty : t.entries = [] := by
      rw [records, ht] at h
      exact List.map_eq_nil_iff.mp h
    refine ends_of_eq (bind_of_ok (load_of_ready ht) _) ?_
    refine forEachSafe_ends ht (fun _ => rfl) (fun e he => ?_) _ 0 fun j hj =>
      absurd hj (Nat.not_lt_zero j)
    rw [hempty] at he
    exact absurd he List.not_mem_nil
  · exact ends_of_error
      (bind_of_error (load_of_not_ready fun a t ht => hready ⟨a, t, ht⟩) _) (.inl rfl)

end Process

/-! ### Releases -/

/-- What takes no record leaves a release on the log. -/
theorem Released.untouched {s s' : Process} (h : Released s) (hu : Process.Untouched s s') :
    Released s' := by
  obtain ⟨x, hx, hin⟩ := h
  refine ⟨x, hu.freed hx, ?_⟩
  rw [Process.inPools, hu.pools]
  exact hin

namespace Process

variable {R : Runtime} {malloc : ℕ → ProcM (Option ℕ)} {free : ℕ → ProcM Unit} {s : Process}
  {d a : ℕ} {t : HashTable ℕ}

theorem Quiet.released {α : Type} {x : ProcM α} (hx : Quiet x) (h : Released s) :
    Ends x s (fun _ s' => Released s') Lost :=
  (hx s).mono (fun _ _ hu => h.untouched hu) fun _ he => he

theorem released_afterFree {x : ℕ} (hx : x ≠ 0) (hin : s.inPools x = true) :
    Released { s with heap := s.heap.afterFree x } := by
  refine ⟨x, ?_, hin⟩
  rw [Heap.freed_afterFree, if_neg hx]
  exact List.mem_cons_self

theorem freeRecord_released {mem : Memalloc} (hne : mem.addr ≠ 0)
    (hin : s.inPools mem.addr = true) :
    Ends (freeRecord mem) s (fun _ s' => Released s') Lost :=
  released_afterFree (s := { s with heap := s.heap.afterFree mem.bt }) hne hin

theorem miluCleanup_released (hi : OwnInv s) (h : s.records ≠ []) :
    Ends miluCleanup s (fun _ s' => Released s') Lost := by
  by_cases hready : ∃ a t, s.htable = .ready a t
  · obtain ⟨a, t, ht⟩ := hready
    have hrecords : s.records = t.entries.map fun e => e.addr - hentryOffset := by
      rw [records, ht]
    refine ends_of_eq (bind_of_ok (load_of_ready ht) _) ?_
    refine forEachSafe_ends ht (fun hempty => ?_) (fun e he i n fuel => ?_) _ 0
      fun j hj => absurd hj (Nat.not_lt_zero j)
    · rw [hrecords, hempty] at h
      exact absurd rfl h
    · have hin : s.inPools (e.addr - hentryOffset) = true :=
        hi.inPools_of_mem (hrecords ▸ List.mem_map_of_mem he)
      have hne : e.addr - hentryOffset ≠ 0 := hi.bank.ne_zero_of_owns hin
      have hbody : Ends (cleanupEntry (.node e) i) s (fun _ s' => Released s') Lost := by
        refine ends_of_eq (bind_of_ok (load_of_ready ht) _) ?_
        let t₁ := (hashTableDelHashEntry (t.reading s.user) e).2
        let s₁ : Process := { s with htable := .ready s.htable.addr t₁ }
        refine ends_of_eq (show _ = (freeRecord (s₁.recordOf e) >>= fun _ => pure i) s₁ from rfl) ?_
        have hfree : Ends (freeRecord (s₁.recordOf e)) s₁ (fun _ s' => Released s') Lost :=
          freeRecord_released hne hin
        exact hfree.bind fun _ s' h' => h'
      rw [forEachSafe, if_neg (by simp [Pos.isHead])]
      refine hbody.bind fun i s₁ h₁ => ?_
      have hrest : Quiet (load >>= fun h => (h.next n).elim (stuck .astray) fun n' =>
          forEachSafe (stuck .astray) load cleanupEntry fuel i (some (n, n'))) := by
        refine .bind moves_load fun h => ?_
        cases h.next n with
        | none => exact fun _ => .inr rfl
        | some n' => exact moves_forEachSafe quiet_cleanupEntry _ _ _
      exact hrest.released h₁
  · exact ends_of_error
      (bind_of_error (load_of_not_ready fun a t ht => hready ⟨a, t, ht⟩) _) (.inl rfl)

/-! ### Calls -/

section

variable {calladdr ptr nptr : ℕ} {size : UInt64}

theorem mem_records_of_find (hi : OwnInv s) {e : HashEntry ℕ} (h : s.find ptr = some e) :
    e.addr - hentryOffset ∈ s.records := by
  rw [find] at h
  rw [records]
  split at h
  · next a t ht =>
    have hmem : e ∈ t.table (hashTableHashCode t ptr sizeofPtr) := List.mem_of_find?_eq_some h
    have hlt := HashTable.hashCode_lt (h := t) (hi.buckets a t ht) ptr sizeofPtr
    exact List.mem_map_of_mem (HashTable.mem_entries_iff.mpr ⟨_, hlt, hmem⟩)
  · exact absurd h (Option.some_ne_none e).symm

theorem trackNew_owned (hi : OwnInv s) (r : Option ℕ) : IfReturns
    ((Tracker.trackNew calladdr size r).interp (handle R (d + 1))) s fun _ s' => OwnInv s' := by
  cases r with
  | none => exact hi
  | some ptr =>
    refine (trackNew_ifReturns hi.enabled hi.held).mono ?_ fun _ he => he
    rintro _ _ ⟨a, t, H, ht, hne, hfreed, -, rfl⟩
    exact hi.tracked ht hne hfreed ptr calladdr size _

theorem relink_none_owned (hi : OwnInv s) : IfReturns
    ((Tracker.relink none nptr calladdr size).interp (handle R (d + 1))) s fun _ s' => OwnInv s' :=
  relink_ifReturns hi.enabled hi.held fun _ _ _ ht hne hfreed =>
    hi.tracked ht hne hfreed nptr calladdr size _

/-- A record that is given up in a program which takes no record after that. -/
theorem interp_freeRecord_released {α : Type} {mem : Memalloc} (hne : mem.addr ≠ 0)
    (hin : s.inPools mem.addr = true) {f : Unit → Tracker α}
    (hf : Quiet ((f ()).interp (handleWith R malloc free))) :
    Ends ((Tracker.perform (.freeRecord mem) >>= f).interp (handleWith R malloc free)) s
      (fun _ s' => Released s') Lost :=
  (freeRecord_released hne hin).bind fun _ _ h => hf.released h

/-- A record that was taken out of the table for another. -/
theorem relink_some_released (hen : s.enabled ≠ 0) (hheld : s.held = []) {mem : Memalloc}
    (hne : mem.addr ≠ 0) (hin : s.inPools mem.addr = true) : IfReturns
      ((Tracker.relink (some mem) nptr calladdr size).interp (handle R (d + 1))) s
        fun _ s' => Released s' := by
  refine relink_ifReturns hen hheld fun a t H ht hget hfreed => ?_
  let s₁ : Process := s.tracked R a t nptr calladdr size H
  let s₂ : Process := { s₁ with
    stats := (s₁.stats.sub .reserved mem.size).sub .activeReserved mem.size }
  let count : Tracker Unit := do
    Tracker.perform (.add .reserved size)
    Tracker.perform (.add .activeReserved size)
  have hin₂ : s₂.inPools mem.addr = true := (bankGetPtr_owns s.pools mem.addr).trans hin
  have hsettle : (settle (some mem) size).interp (handle R (d + 1)) s₁ =
    (Tracker.perform (.freeRecord mem) >>= fun _ => count).interp (handle R (d + 1)) s₂ := rfl
  have hreleased : Ends ((Tracker.perform (.freeRecord mem) >>= fun _ => count).interp
      (handle R (d + 1))) s₂ (fun _ s' => Released s') Lost :=
    interp_freeRecord_released hne hin₂ (.bind (lenient_untouched.add _ _) fun _ =>
      .bind (lenient_untouched.add _ _) fun _ => .pure _)
  exact ends_of_eq hsettle hreleased.ifReturns

/-- **A moved block** keeps the invariant when it had no record, and releases memory of a pool when
it had one. -/
theorem trackMoved_outcome (hi : OwnInv s) : IfReturns
    ((Tracker.trackMoved calladdr ptr size (some nptr)).interp (handle R (d + 1))) s fun _ s' =>
      (s.find ptr = none → OwnInv s') ∧ (s.find ptr ≠ none → Released s') := by
  refine ends_of_eq (interp_enabled hi.enabled) ?_
  by_cases hready : ∃ a t, s.htable = .ready a t
  · obtain ⟨a, t, ht⟩ := hready
    have hfind : s.find ptr = hashTableLookupKey (t.reading s.user) ptr sizeofPtr := by
      rw [find, ht]
    rcases delete_of_ready ht hi.held ptr with ⟨hnone, hdel⟩ | ⟨e, hsome, hdel⟩
    · refine ends_of_eq (perform_of_ok hdel _) ?_
      show IfReturns ((Tracker.relink none nptr calladdr size >>= fun _ => pure (some nptr)).interp
        (handle R (d + 1))) s _
      rw [Program.interp_bind]
      exact (relink_none_owned hi).bind fun _ s' h =>
        ⟨fun _ => h, fun hne => absurd (hfind.trans hnone) hne⟩
    · have hin := hi.inPools_of_mem (mem_records_of_find hi (hfind.trans hsome))
      have hne : e.addr - hentryOffset ≠ 0 := hi.bank.ne_zero_of_owns hin
      refine ends_of_eq (perform_of_ok hdel _) ?_
      show IfReturns ((Tracker.relink (some (s.recordOf e)) nptr calladdr size >>= fun _ =>
        pure (some nptr)).interp (handle R (d + 1))) (s.deleted a t ptr e) _
      rw [Program.interp_bind]
      have hlink : IfReturns ((Tracker.relink (some (s.recordOf e)) nptr calladdr size).interp
          (handle R (d + 1))) (s.deleted a t ptr e) fun _ s' => Released s' :=
        relink_some_released (s := s.deleted a t ptr e) hi.enabled hi.held hne hin
      exact hlink.bind fun _ s' h =>
        ⟨fun hnone => absurd (hsome.symm.trans (hfind.symm.trans hnone)) (Option.some_ne_none e),
          fun _ => h⟩
  · exact ends_of_error (perform_of_error (delete_of_not_ready fun a t ht => hready ⟨a, t, ht⟩) _)
      trivial

/-- A free that finds a record releases memory of a pool. -/
theorem free_tracked_released (hi : OwnInv s) {e : HashEntry ℕ}
    (hmem : e.addr - hentryOffset ∈ s.records)
    (hdel : handle R (d + 1) (.delete ptr) s = .ok (some (s.recordOf e), s.deleted a t ptr e)) :
    IfReturns (((Request.free ptr).body calladdr).interp (handle R (d + 1))) s
      fun _ s' => Released s' := by
  have hin := hi.inPools_of_mem hmem
  have hne : e.addr - hentryOffset ≠ 0 := hi.bank.ne_zero_of_owns hin
  let s₁ : Process := s.deleted a t ptr e
  let mem : Memalloc := s.recordOf e
  let s₂ : Process := { s₁ with
    stats := (s₁.stats.sub .activeAlloc 1).sub .activeReserved mem.size }
  have hin₂ : s₂.inPools mem.addr = true := hin
  refine ends_of_eq (interp_enabled hi.enabled) ?_
  refine ends_of_eq (perform_of_ok hdel _) ?_
  refine ends_of_eq (show _ = (freeRecord mem >>= fun _ => finish ptr) s₂ from rfl) ?_
  exact (freeRecord_released hne hin₂).ifReturns.bind fun _ _ h₃ =>
    (Quiet.released (lenient_untouched.finish ptr) h₃).ifReturns

/-- A free that finds no record keeps the invariant when there is none and its address is outside
the pools, and releases memory of a pool otherwise. -/
theorem free_untracked_outcome (hi : OwnInv s)
    (hdel : handle R (d + 1) (.delete ptr) s = .ok (none, s)) :
    IfReturns (((Request.free ptr).body calladdr).interp (handle R (d + 1))) s fun _ s' =>
      (s.records = [] ∧ s.inPools ptr = false → OwnInv s') ∧
        (¬ (s.records = [] ∧ s.inPools ptr = false) → Released s') := by
  refine ends_of_eq (interp_enabled hi.enabled) ?_
  refine ends_of_eq (perform_of_ok hdel _) ?_
  show IfReturns (memReport >>= fun _ => miluCleanup >>= fun _ => finish ptr) s _
  have hreport : IfReturns memReport s fun _ s' => s = s' := (moves_memReport s).ifReturns
  refine hreport.bind ?_
  rintro _ _ rfl
  by_cases hrecords : s.records = []
  · refine (miluCleanup_of_empty hrecords).ifReturns.bind ?_
    rintro _ s' rfl
    have hfree : finish ptr s' = .ok (none, { s' with heap := s'.heap.afterFree ptr }) := rfl
    refine ends_of_ok hfree ?_
    cases hin : s'.inPools ptr with
    | true =>
      exact ⟨fun hk => absurd hk.2 Bool.noConfusion, fun _ =>
        released_afterFree (hi.bank.ne_zero_of_owns hin) hin⟩
    | false =>
      refine ⟨fun _ => hi.withHeap fun x hx => ?_, fun hk => absurd ⟨hrecords, rfl⟩ hk⟩
      rw [Heap.freed_afterFree] at hx
      split_ifs at hx
      · exact hi.apart x hx
      · rcases List.mem_cons.mp hx with rfl | hx
        · exact hin
        · exact hi.apart x hx
  · refine (miluCleanup_released hi hrecords).ifReturns.bind fun _ s₁ h₁ => ?_
    exact (Quiet.released (lenient_untouched.finish ptr) h₁).ifReturns.mono
      (fun _ _ h => ⟨fun hk => absurd hk.1 hrecords, fun _ => h⟩) fun _ he => he

/-- **A free** keeps the invariant when there is no record and its address is outside the pools, and
releases memory of a pool otherwise. -/
theorem free_outcome (hi : OwnInv s) : IfReturns
    (((Request.free ptr).body calladdr).interp (handle R (d + 1))) s fun _ s' =>
      (s.records = [] ∧ s.inPools ptr = false → OwnInv s') ∧
        (¬ (s.records = [] ∧ s.inPools ptr = false) → Released s') := by
  by_cases hready : ∃ a t, s.htable = .ready a t
  · obtain ⟨a, t, ht⟩ := hready
    have hfind : s.find ptr = hashTableLookupKey (t.reading s.user) ptr sizeofPtr := by
      rw [find, ht]
    rcases delete_of_ready ht hi.held ptr with ⟨-, hdel⟩ | ⟨e, hsome, hdel⟩
    · exact free_untracked_outcome hi hdel
    · have hmem := mem_records_of_find hi (hfind.trans hsome)
      have hrecords : s.records ≠ [] := List.ne_nil_of_mem hmem
      exact (free_tracked_released hi hmem hdel).mono
        (fun _ _ h => ⟨fun hk => absurd hk.1 hrecords, fun _ => h⟩) fun _ he => he
  · refine ends_of_eq (interp_enabled hi.enabled) ?_
    exact ends_of_error (perform_of_error (delete_of_not_ready fun a t ht => hready ⟨a, t, ht⟩) _)
      trivial

/-- **A call.** -/
theorem body_outcome (hi : OwnInv s) (q : Request) : IfReturns
    ((q.body calladdr).interp (handle R (d + 1))) s fun _ s' =>
      ((Event.call d calladdr q).Keeps s → OwnInv s') ∧
        (¬ (Event.call d calladdr q).Keeps s → Released s') := by
  have hheap : ∀ H : Heap, H.freed = s.heap.freed → OwnInv { s with heap := H } := fun H hH =>
    hi.withHeap fun x hx => hi.apart x (hH ▸ hx)
  cases q with
  | malloc size =>
    have hask : handle R (d + 1) (.malloc size) s = .ok (s.heap.answer size.toNat,
      { s with heap := s.heap.afterMalloc size.toNat }) := rfl
    refine ends_of_eq (perform_of_ok hask _) ?_
    exact (trackNew_owned (hheap _ (Heap.freed_afterMalloc _ _)) _).mono
      (fun _ _ h => ⟨fun _ => h, fun hk => absurd trivial hk⟩) fun _ he => he
  | calloc nmemb size =>
    have hask : handle R (d + 1) (.calloc nmemb size) s =
      .ok ((s.heap.remove nmemb.toNat).answer size.toNat,
        { s with heap := s.heap.afterRealloc nmemb.toNat size.toNat }) := rfl
    refine ends_of_eq (perform_of_ok hask _) ?_
    exact (trackNew_owned (hheap _ (Heap.freed_afterRealloc _ _ _)) _).mono
      (fun _ _ h => ⟨fun _ => h, fun hk => absurd trivial hk⟩) fun _ he => he
  | realloc ptr size =>
    have hreal : Heap.realloc ptr size.toNat s.heap = some ((s.heap.remove ptr).answer size.toNat,
      s.heap.afterRealloc ptr size.toNat) := rfl
    have hask : handle R (d + 1) (.realloc ptr size) s =
      .ok ((s.heap.remove ptr).answer size.toNat,
        { s with heap := s.heap.afterRealloc ptr size.toNat }) := rfl
    have hi' := hheap _ (Heap.freed_afterRealloc s.heap ptr size.toNat)
    refine ends_of_eq (perform_of_ok hask _) ?_
    cases hanswer : (s.heap.remove ptr).answer size.toNat with
    | none =>
      refine ⟨fun _ => hi', fun hk => absurd ?_ hk⟩
      rintro ⟨nptr, H, hsome⟩
      rw [hreal, hanswer] at hsome
      exact absurd (HeapM.pure_inj hsome).1 (Option.some_ne_none nptr).symm
    | some nptr =>
      rw [hanswer] at hreal
      refine (trackMoved_outcome hi').mono (fun _ s' h => ⟨fun hk => h.1 (hk ⟨nptr, _, hreal⟩), ?_⟩)
        fun _ he => he
      exact fun hk => h.2 fun hfind => hk fun _ => hfind
  | free ptr => exact free_outcome hi

end

end Process

/-! ### Calls that return -/

namespace Process

variable {R : Runtime} {s : Process} {d a calladdr ptr : ℕ} {t : HashTable ℕ} {size : UInt64}

theorem trackNew_of_room (hen : s.enabled ≠ 0) (hheld : s.held = []) (ht : s.htable = .ready a t)
    (hroom : t.usedBuckets < t.resizeThreshold) (hne : (bankGetPtr s.pools).1 ≠ 0) :
    (Tracker.trackNew calladdr size (some ptr)).interp (handle R (d + 1)) s = .ok (some ptr,
      { s.tracked R a t ptr calladdr size (s.heap.afterMalloc R.symbols) with
        stats := counted s.stats size }) := by
  have hinsert : handle R (d + 1) (.insert ptr (s.newMem R ptr calladdr size)) (s.withRecord R) =
      .ok ((), s.tracked R a t ptr calladdr size (s.heap.afterMalloc R.symbols)) :=
    insert_of_resizeIfFull (s := s.withRecord R) ht hheld (resizeIfFull_of_room ht hroom)
  exact trackNew_of_insert_ok hen hne hinsert

/-- The process after a real call that returned `ptr` and left the heap at `H`, with room in the
table. -/
def served (R : Runtime) (s : Process) (a : ℕ) (t : HashTable ℕ) (ptr calladdr : ℕ) (size : UInt64)
    (H : Heap) : Process :=
  let s₀ : Process := { s with heap := H }
  { s₀.tracked R a t ptr calladdr size (H.afterMalloc R.symbols) with
    stats := counted s.stats size }

theorem served_pools (H : Heap) :
    (s.served R a t ptr calladdr size H).pools = (bankGetPtr s.pools).2 := rfl

section

variable (hen : s.enabled ≠ 0) (hheld : s.held = []) (ht : s.htable = .ready a t)
  (hroom : t.usedBuckets < t.resizeThreshold) (hne : (bankGetPtr s.pools).1 ≠ 0)

include hen hheld ht hroom hne

theorem trackNew_served (H : Heap) :
    (Tracker.trackNew calladdr size (some ptr)).interp (handle R (d + 1)) { s with heap := H } =
      .ok (some ptr, s.served R a t ptr calladdr size H) :=
  trackNew_of_room (s := { s with heap := H }) hen hheld ht hroom hne

theorem malloc_of_room (hanswer : s.heap.answer size.toNat = some ptr) :
    call R (d + 1) calladdr (.malloc size) s =
      .ok (some ptr, s.served R a t ptr calladdr size (s.heap.afterMalloc size.toNat)) := by
  have hask : handle R (d + 1) (.malloc size) s =
      .ok (some ptr, { s with heap := s.heap.afterMalloc size.toNat }) := by
    rw [← hanswer]
    rfl
  refine (call_of_enabled hen).trans ((perform_of_ok hask _).trans ?_)
  exact trackNew_served hen hheld ht hroom hne _

theorem calloc_of_room {nmemb : UInt64}
    (hanswer : (s.heap.remove nmemb.toNat).answer size.toNat = some ptr) :
    call R (d + 1) calladdr (.calloc nmemb size) s = .ok (some ptr, s.served R a t ptr calladdr
      (size * nmemb) (s.heap.afterRealloc nmemb.toNat size.toNat)) := by
  have hask : handle R (d + 1) (.calloc nmemb size) s =
      .ok (some ptr, { s with heap := s.heap.afterRealloc nmemb.toNat size.toNat }) := by
    rw [← hanswer]
    rfl
  refine (call_of_enabled hen).trans ((perform_of_ok hask _).trans ?_)
  exact trackNew_served hen hheld ht hroom hne _

end

/-- A `realloc` that is refused returns, and leaves every record. -/
theorem realloc_of_refused (hen : s.enabled ≠ 0)
    (hanswer : (s.heap.remove ptr).answer size.toNat = none) :
    call R (d + 1) calladdr (.realloc ptr size) s =
      .ok (none, { s with heap := s.heap.afterRealloc ptr size.toNat }) := by
  have hask : handle R (d + 1) (.realloc ptr size) s =
      .ok (none, { s with heap := s.heap.afterRealloc ptr size.toNat }) := by
    rw [← hanswer]
    rfl
  exact (call_of_enabled hen).trans (perform_of_ok hask _)

/-- A search comes to the record that was inserted last. -/
theorem find_tracked (H : Heap) (st : Memstats) :
    ({ s.tracked R a t ptr calladdr size H with stats := st } : Process).find ptr =
      some (entryOf ptr (s.newMem R ptr calladdr size)) := by
  set e := entryOf ptr (s.newMem R ptr calladdr size)
  set t₁ := (t.reading s.user).insertAt (hashTableHashCode t ptr sizeofPtr) e
  have hcode : hashTableHashCode t₁ ptr sizeofPtr = hashTableHashCode t ptr sizeofPtr := by
    rw [hashTableHashCode, hashTableHashCode, HashTable.insertAt_myHashFn,
      HashTable.insertAt_buckets]
    rfl
  have hchain : t₁.table (hashTableHashCode t ptr sizeofPtr) =
      e :: t.table (hashTableHashCode t ptr sizeofPtr) := by
    rw [HashTable.insertAt_table, HashTable.listAdd_table, Function.update_self]
    rfl
  show (t₁.table (hashTableHashCode t₁ ptr sizeofPtr)).find? _ = some e
  rw [hcode, hchain]
  refine List.find?_cons_of_pos ?_
  show (sizeofPtr == sizeofPtr && hash64Cmp s.user ptr ptr sizeofPtr == 0) = true
  rw [hash64Cmp_self]
  rfl

theorem free_of_find (hen : s.enabled ≠ 0) (hheld : s.held = []) (h : s.find ptr ≠ none) :
    ∃ s', call R (d + 1) calladdr (.free ptr) s = .ok (none, s') := by
  have hready : ∃ a t, s.htable = .ready a t := by
    rw [find] at h
    split at h
    · next a t ht => exact ⟨a, t, ht⟩
    · exact absurd rfl h
  obtain ⟨a, t, ht⟩ := hready
  rcases delete_of_ready ht hheld ptr with ⟨hnone, -⟩ | ⟨e, -, hdel⟩
  · rw [find, ht] at h
    exact absurd hnone h
  · let s₁ : Process := s.deleted a t ptr e
    let mem : Memalloc := s.recordOf e
    refine ⟨{ s₁ with
      stats := (s₁.stats.sub .activeAlloc 1).sub .activeReserved mem.size
      heap := ((s₁.heap.afterFree mem.bt).afterFree mem.addr).afterFree ptr }, ?_⟩
    refine (call_of_enabled hen).trans ((interp_enabled hen).trans ?_)
    exact (perform_of_ok hdel _).trans rfl

end Process

/-! ### Runs -/

/-- **One step**: one that gives up no record keeps the invariant, and every other releases memory
of a pool. -/
theorem OwnInv.event {R : Runtime} {s : Process} (hi : OwnInv s) (ev : Event) :
    IfReturns (ev.run R) s fun _ s' => (ev.Keeps s → OwnInv s') ∧ (¬ ev.Keeps s → Released s') := by
  cases ev with
  | call d calladdr q =>
    have hcall : IfReturns (Process.call R (d + 1) calladdr q) s fun _ s' =>
        ((Event.call d calladdr q).Keeps s → OwnInv s') ∧
          (¬ (Event.call d calladdr q).Keeps s → Released s') :=
      ends_of_eq (Process.call_of_enabled hi.enabled) (Process.body_outcome hi q)
    exact hcall.bind fun _ _ h => h
  | cleanup =>
    by_cases hrecords : s.records = []
    · refine (Process.miluCleanup_of_empty hrecords).ifReturns.mono ?_ fun _ he => he
      rintro _ _ rfl
      exact ⟨fun _ => hi, fun hk => absurd hrecords hk⟩
    · exact (Process.miluCleanup_released hi hrecords).ifReturns.mono
        (fun _ _ h => ⟨fun hk => absurd hk hrecords, fun _ => h⟩) fun _ he => he
  | write user =>
    refine ⟨fun _ => ?_, fun hk => absurd trivial hk⟩
    exact ⟨hi.enabled, hi.held, hi.buckets, hi.bank, hi.taken, hi.apart⟩

namespace OwnershipRun

variable {R : Runtime} {steps : List (Process × Event)} {s : Process}

theorem ownInv (h : OwnershipRun R steps s) (hk : ∀ p ∈ steps, p.2.Keeps p.1) : OwnInv s := by
  induction h with
  | start hs => exact .of_start hs
  | step hrun hev ih =>
    rw [List.forall_mem_cons] at hk
    exact ((ih hk.2).event _ |>.of_ok hev).1 hk.1

end OwnershipRun

/-- **Every record stays owned throughout a run if and only if no step of the run gives one up.** -/
theorem owned_iff_keeps {R : Runtime} {steps : List (Process × Event)} {s : Process}
    (h : OwnershipRun R steps s) :
    ((∀ p ∈ steps, Owned p.1) ∧ Owned s) ↔ ∀ p ∈ steps, p.2.Keeps p.1 := by
  induction h with
  | start hs =>
    exact iff_of_true ⟨List.forall_mem_nil _, (OwnInv.of_start hs).owned⟩ (List.forall_mem_nil _)
  | @step steps s s' ev hrun hev ih =>
    rw [List.forall_mem_cons, List.forall_mem_cons]
    constructor
    · rintro ⟨⟨hs, hsteps⟩, hs'⟩
      have hk := ih.mp ⟨hsteps, hs⟩
      have hout := ((hrun.ownInv hk).event ev).of_ok hev
      refine ⟨?_, hk⟩
      by_contra hn
      exact (hout.2 hn).not_owned hs'
    · rintro ⟨hn, hk⟩
      obtain ⟨hsteps, hs⟩ := ih.mpr hk
      have hout := ((hrun.ownInv hk).event ev).of_ok hev
      exact ⟨⟨hs, hsteps⟩, (hout.1 hn).owned⟩

/-! ### The record of the first block -/

/-- An allocator with room between its answers. -/
def wideHeap : Heap := ⟨[], .nil, fun n => some (2 ^ 32 * (n + 1)), 0, 0, []⟩

/-- `wideHeap` with the struct and the arrays of the table. -/
def tableHeap : Heap := [sizeofHashTable, sizeofHashEntry * hashtblSz Clib.nearest defHsize,
  sizeofMutex * hashtblSz Clib.nearest defHsize].foldl Heap.afterMalloc wideHeap

/-- `tableHeap` with the bank and its pool. -/
def bankHeap : Heap := [sizeofBank, sizeofPoolPtr, sizeofPool, poolsize * sizeofMemalloc,
  poolsize * sizeofPoolEntry].foldl Heap.afterMalloc tableHeap

/-- A process with milu enabled, and nothing recorded. -/
def enabledProcess : Process :=
  { bootProcess with
    enabled := 1
    htable := .ready (2 ^ 32) (HashTable.fresh Clib.nearest defHsize (hash64Cmp fun _ => 0)
      miluHashPtr (2 * 2 ^ 32) (3 * 2 ^ 32))
    pools := some ⟨4 * 2 ^ 32, 0, 1, poolsize, sizeofMemalloc, 5 * 2 ^ 32,
      [some (Pool.fresh (6 * 2 ^ 32) poolsize sizeofMemalloc (7 * 2 ^ 32) (8 * 2 ^ 32))]⟩
    heap := bankHeap }

theorem enabledProcess_start : Start sampleRuntime enabledProcess where
  enabled := Nat.one_ne_zero
  held := rfl
  table a t ht := by
    obtain ⟨-, rfl⟩ := TablePtr.ready.inj ht
    exact ⟨wideHeap.afterMalloc sizeofHashTable, tableHeap, rfl⟩
  bank := ⟨tableHeap, bankHeap, rfl⟩
  taken := rfl
  apart x hx := absurd hx List.not_mem_nil

theorem enabledProcess_bank : (bankGetPtr enabledProcess.pools).1 = 7 * 2 ^ 32 :=
  bankGetPtr_fresh rfl rfl (by decide) (by decide)

/-- The table of `enabledProcess`. -/
def enabledTable : HashTable ℕ :=
  HashTable.fresh Clib.nearest defHsize (hash64Cmp fun _ => 0) miluHashPtr (2 * 2 ^ 32) (3 * 2 ^ 32)

/-- `enabledProcess` after a `malloc(8)`. -/
def oneBlockProcess : Process :=
  enabledProcess.served sampleRuntime (2 ^ 32) enabledTable (9 * 2 ^ 32) 1024 8
    (bankHeap.afterMalloc 8)

theorem enabledProcess_malloc : Process.call sampleRuntime 1 1024 (.malloc 8) enabledProcess =
    .ok (some (9 * 2 ^ 32), oneBlockProcess) := by
  have hne : (bankGetPtr enabledProcess.pools).1 ≠ 0 := by
    rw [enabledProcess_bank]
    decide
  have hanswer : bankHeap.answer 8 = some (9 * 2 ^ 32) := by decide
  exact Process.malloc_of_room Nat.one_ne_zero rfl rfl (by decide) hne hanswer

theorem oneBlockProcess_find : oneBlockProcess.find (9 * 2 ^ 32) ≠ none := by
  rw [oneBlockProcess, Process.served, Process.find_tracked]
  exact Option.some_ne_none _

theorem oneBlockProcess_run : OwnershipRun sampleRuntime
    [(enabledProcess, .call 0 1024 (.malloc 8))] oneBlockProcess :=
  .step (.start enabledProcess_start) (bind_of_ok enabledProcess_malloc _)

theorem oneBlockProcess_bank : (bankGetPtr oneBlockProcess.pools).1 ≠ 0 := by
  have hfull : Stocked poolsize enabledProcess.pools [] :=
    (OwnInv.of_start enabledProcess_start).bank.stocked fun hnull =>
      Option.some_ne_none _ (List.cons.inj hnull).1
  have hne : (bankGetPtr enabledProcess.pools).1 ≠ 0 := by
    rw [enabledProcess_bank]
    decide
  rw [oneBlockProcess, Process.served_pools, Ne, (hfull.get hne).get_eq_zero_iff]
  show ¬ 1 = 20000
  decide

theorem oneBlockProcess_calloc : ∃ s,
    Process.call sampleRuntime 1 1032 (.calloc 0 16) oneBlockProcess = .ok (some (11 * 2 ^ 32), s) ∧
      s.enabled ≠ 0 ∧ s.taken.length = 2 :=
  ⟨_, Process.calloc_of_room Nat.one_ne_zero rfl rfl
    (lt_of_le_of_lt (HashTable.usedBuckets_insertAt_le _ _ _) (by decide)) oneBlockProcess_bank
    (by decide), Nat.one_ne_zero, rfl⟩

/-- A `malloc` and a `calloc`, and a `realloc` that is refused: two records, both owned. -/
theorem owned_iff_keeps_calls : ∃ s₂ s₃,
    OwnershipRun sampleRuntime [(s₂, .call 0 1040 (.realloc (9 * 2 ^ 32) 0xffffffffffffffff)),
      (oneBlockProcess, .call 0 1032 (.calloc 0 16)),
      (enabledProcess, .call 0 1024 (.malloc 8))] s₃ ∧ Owned s₃ ∧ s₃.records.length = 2 := by
  obtain ⟨s₂, hcalloc, hen, htaken⟩ := oneBlockProcess_calloc
  have hrefused : (s₂.heap.remove (9 * 2 ^ 32)).answer (0xffffffffffffffff : UInt64).toNat = none :=
    Heap.answer_of_addrSpace_le (by decide +kernel)
  have hrealloc : Process.call sampleRuntime 1 1040 (.realloc (9 * 2 ^ 32) 0xffffffffffffffff) s₂ =
    _ := Process.realloc_of_refused hen hrefused
  have hrun₁ : OwnershipRun sampleRuntime [(oneBlockProcess, .call 0 1032 (.calloc 0 16)),
      (enabledProcess, .call 0 1024 (.malloc 8))] s₂ :=
    oneBlockProcess_run.step (bind_of_ok hcalloc _)
  have hrun : OwnershipRun sampleRuntime
      [(s₂, .call 0 1040 (.realloc (9 * 2 ^ 32) 0xffffffffffffffff)),
        (oneBlockProcess, .call 0 1032 (.calloc 0 16)),
        (enabledProcess, .call 0 1024 (.malloc 8))] _ :=
    hrun₁.step (bind_of_ok hrealloc _)
  have hkeeps : Event.Keeps s₂ (.call 0 1040 (.realloc (9 * 2 ^ 32) 0xffffffffffffffff)) := by
    rintro ⟨nptr, H, hserved⟩
    have hreply := hrefused.symm.trans (HeapM.pure_inj hserved).1
    exact absurd hreply.symm (Option.some_ne_none nptr)
  have howned := ((owned_iff_keeps hrun).mpr (List.forall_mem_cons.mpr ⟨hkeeps,
    List.forall_mem_cons.mpr ⟨trivial, List.forall_mem_singleton.mpr trivial⟩⟩)).2
  exact ⟨s₂, _, hrun, howned, howned.taken.length_eq.symm.trans htaken⟩

/-- **The first block, freed**: its record is at the address of the pool, and is passed to the real
`free`. -/
theorem free_releases_pool : ∃ s s',
    OwnershipRun sampleRuntime [(s, .call 0 1024 (.free (9 * 2 ^ 32))),
      (enabledProcess, .call 0 1024 (.malloc 8))] s' ∧ ¬ Owned s' := by
  have hi : OwnInv oneBlockProcess := oneBlockProcess_run.ownInv fun p hp => by
    rw [List.mem_singleton.mp hp]
    trivial
  have hreturns : ∃ s', Process.call sampleRuntime 1 1024 (.free (9 * 2 ^ 32)) oneBlockProcess =
      .ok (none, s') := Process.free_of_find hi.enabled hi.held oneBlockProcess_find
  obtain ⟨s', hfree⟩ := hreturns
  have hev : (Event.call 0 1024 (.free (9 * 2 ^ 32))).run sampleRuntime oneBlockProcess =
      .ok ((), s') := bind_of_ok hfree _
  refine ⟨oneBlockProcess, s', .step oneBlockProcess_run hev, ?_⟩
  refine (((hi.event _).of_ok hev).2 ?_).not_owned
  rintro ⟨hnil, -⟩
  obtain ⟨e, he⟩ := Option.ne_none_iff_exists'.mp oneBlockProcess_find
  exact List.not_mem_nil (hnil ▸ Process.mem_records_of_find hi he)

end Milu
