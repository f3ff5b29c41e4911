import Milu.Tracker.Ownership
import Milu.Tracker.Traversals

/-!
# Freeing what has no record

`free` takes a pointer without a record for a sign that the program has gone wrong: it prints the
report and deletes all records. It does not touch the statistics, which go on counting the blocks
whose records are gone, and each later `free` of one of these blocks finds no record either.
`free(NULL)`, which does nothing, is taken for the same sign.

So the books survive such a `free` only when there was no record to lose.

## Main definitions

* `Process.entries` — the entries of the table
* `Tidy` — what every table of a run is like
* `Balanced` — the statistics are the number and the total size of the records
* `Harmless` — a `free` that does no damage

## Main results

* `Tidy.event` — every step of the program keeps the table tidy
* `Process.free_of_empty` — a `free` while there is no record
* `Process.free_of_report` — a `free` of a pointer in an empty bucket
* `Harmless.empty` — a `free` while there is one
* `untracked_free_iff` — exactly when a `free` of a pointer without a record does no damage
-/

namespace Milu

namespace Process

/-- The entries of the table. -/
def entries (s : Process) : List (HashEntry ℕ) :=
  match s.htable with
  | .ready _ t => t.entries
  | _ => []

theorem entries_of_ready {s : Process} {a : ℕ} {t : HashTable ℕ} (ht : s.htable = .ready a t) :
    s.entries = t.entries := by
  rw [entries, ht]

end Process

/-- The accounting invariant: the statistics are the number of the records in the table, and the sum
of their sizes. -/
structure Balanced (s : Process) : Prop where
  count : s.stats.activeAlloc.toNat = s.entries.length
  size : s.stats.activeReserved.toNat = (s.entries.map fun e => (s.recordOf e).size.toNat).sum

/-- A `free` that does no damage: it returns, every record that was in the table still is, and is
found under its key, and the books balance as before. `free(NULL)` changes neither table nor
statistics. -/
def Harmless (R : Runtime) (d calladdr ptr : ℕ) (s : Process) : Prop :=
  ∃ s', Process.call R (d + 1) calladdr (.free ptr) s = .ok (none, s') ∧
    (∀ e ∈ s.entries, e ∈ s'.entries ∧ s'.recordOf e = s.recordOf e ∧ s'.find e.key ≠ none) ∧
    Balanced s' ∧ (ptr = 0 → s'.htable = s.htable ∧ s'.stats = s.stats)

/-! ### Every table of a run -/

/-- The table of a run: every entry is in its home bucket, once, has a pointer for a key, and lies
in a record that the bank has handed out. -/
structure TidyTable (taken : List ℕ) (t : HashTable ℕ) : Prop where
  placed : t.Placed
  klen_eq : ∀ e ∈ t.entries, e.klen = sizeofPtr
  taken : ∀ e ∈ t.entries, ∃ x ∈ taken, e.addr = x + hentryOffset

/-- What is true of the process in every run. -/
structure Tidy (s : Process) : Prop where
  enabled : s.enabled ≠ 0
  held : s.held = []
  bank : BankState s.pools s.taken
  table : ∀ a t, s.htable = .ready a t → TidyTable s.taken t

namespace TidyTable

variable {taken : List ℕ} {t t' : HashTable ℕ}

/-- The comparator plays no part. -/
theorem reading (h : TidyTable taken t) (user : UserMem) : TidyTable taken (t.reading user) :=
  ⟨h.placed.congr rfl rfl rfl, h.klen_eq, h.taken⟩

theorem of_subset (h : TidyTable taken t) (hp : t'.Placed) (hsub : t'.entries ⊆ t.entries) :
    TidyTable taken t' :=
  ⟨hp, fun e he => h.klen_eq e (hsub he), fun e he => h.taken e (hsub he)⟩

/-- Each entry is found by its own key, whatever the program writes. -/
theorem findable (h : TidyTable taken t) (user : UserMem) : (t.reading user).Findable := by
  intro e he
  have hklen := h.klen_eq e he
  exact ⟨.inr hklen.le, hash64Cmp_self user e.key e.klen⟩

theorem insertAt (h : TidyTable taken t) {x key : ℕ} {mem : Memalloc} (hmem : mem.addr = x)
    (hx : x ∉ taken) : TidyTable (x :: taken)
      (t.insertAt (hashTableHashCode t key sizeofPtr) (Process.entryOf key mem)) := by
  have hnew : ∀ e ∈ t.entries, e.addr ≠ (Process.entryOf key mem).addr := by
    rintro e he heq
    obtain ⟨y, hy, haddr⟩ := h.taken e he
    have hxy : y + hentryOffset = mem.addr + hentryOffset := haddr.symm.trans heq
    rw [hmem] at hxy
    exact hx (Nat.add_right_cancel hxy ▸ hy)
  have hperm := t.entries_insertAt
    (HashTable.hashCode_lt (h := t) h.placed.buckets_pos key sizeofPtr)
    (Process.entryOf key mem)
  refine ⟨h.placed.insertAt hnew, fun e he => ?_, fun e he => ?_⟩
  · rcases List.mem_cons.mp (hperm.subset he) with rfl | he
    · rfl
    · exact h.klen_eq e he
  · rcases List.mem_cons.mp (hperm.subset he) with rfl | he
    · exact ⟨x, List.mem_cons_self, congrArg (· + hentryOffset) hmem⟩
    · obtain ⟨y, hy, haddr⟩ := h.taken e he
      exact ⟨y, List.mem_cons_of_mem _ hy, haddr⟩

theorem listDelInit (h : TidyTable taken t) {n : ℕ} {e : HashEntry ℕ} (he : e ∈ t.table n) :
    TidyTable taken (t.listDelInit n e) :=
  h.of_subset (h.placed.listDelInit he) fun _ hx =>
    (HashTable.entries_listDelInit h.placed he).subset (List.mem_cons_of_mem e hx)

theorem delHashEntry (h : TidyTable taken t) (e : HashEntry ℕ) :
    TidyTable taken (hashTableDelHashEntry t e).2 := by
  have hkey : ∀ key len, TidyTable taken (hashTableDelKey t key len).2 := by
    intro key len
    rw [← hashTableDelKeySafe_eq]
    rcases hashTableDelKeySafe_spec h.placed key len with ⟨-, -, hsame⟩ | ⟨e, hl, -, hdel, -, -⟩
    · rwa [hsame]
    · rw [hdel]
      exact h.listDelInit (hashTableLookupKey_mem hl).1
  rw [hashTableDelHashEntry, hashTableDelKeyS, hashTableDelKeyI]
  split_ifs
  · exact hkey _ _
  · exact h
  · exact hkey _ _

end TidyTable

namespace Tidy

variable {R : Runtime} {s s' : Process} {a : ℕ} {t : HashTable ℕ} {H : Heap}

theorem of_start (h : Start R s) : Tidy s := by
  have hi := OwnInv.of_start h
  refine ⟨hi.enabled, hi.held, hi.bank, fun a t ht => ?_⟩
  obtain ⟨H, H', hinit⟩ := h.table a t ht
  obtain ⟨tableMem, bucketLocks, rfl⟩ := eq_fresh_of_hashTableInit hinit
  refine ⟨placed_fresh _ _ _ _ _ _, ?_, ?_⟩ <;> rw [entries_fresh]
  · exact List.forall_mem_nil _
  · exact List.forall_mem_nil _

theorem withTable (hi : Tidy s) (ht : TidyTable s.taken t) : Tidy
    { s with htable := .ready a t } := by
  refine ⟨hi.enabled, hi.held, hi.bank, fun a' t' ht' => ?_⟩
  obtain ⟨-, rfl⟩ := TablePtr.ready.inj ht'
  exact ht

theorem tracked (hi : Tidy s) (ht : s.htable = .ready a t) (hne : (bankGetPtr s.pools).1 ≠ 0)
    (ptr calladdr : ℕ) (size : UInt64) (st : Memstats) :
    Tidy { s.tracked R a t ptr calladdr size H with stats := st } := by
  have hbank := hi.bank.get hne
  refine ⟨hi.enabled, hi.held, hbank, fun a' t' ht' => ?_⟩
  obtain ⟨-, rfl⟩ := TablePtr.ready.inj ht'
  exact ((hi.table a t ht).reading s.user).insertAt rfl (List.nodup_cons.mp hbank.nodup).1

/-- An entry that a search comes to is in the chain of the pointer. -/
theorem mem_chain_of_lookup {ptr : ℕ} {e : HashEntry ℕ}
    (h : hashTableLookupKey (t.reading s.user) ptr sizeofPtr = some e) :
    e ∈ t.table (hashTableHashCode t ptr sizeofPtr) := List.mem_of_find?_eq_some h

theorem deleted (hi : Tidy s) (ht : s.htable = .ready a t) {ptr : ℕ} {e : HashEntry ℕ}
    (he : e ∈ t.table (hashTableHashCode t ptr sizeofPtr)) : Tidy (s.deleted a t ptr e) :=
  hi.withTable (((hi.table a t ht).reading s.user).listDelInit he)

end Tidy

namespace Process

variable {R : Runtime} {malloc : ℕ → ProcM (Option ℕ)} {free : ℕ → ProcM Unit} {s : Process}
  {d a calladdr ptr nptr : ℕ} {t : HashTable ℕ} {size : UInt64}

/-- If the one is tidy, so is the other. -/
def KeepsTidy (s s' : Process) : Prop := Tidy s → Tidy s'

instance : IsPreorder Process KeepsTidy where
  refl _ := id
  trans _ _ _ h₁ h₂ := h₂ ∘ h₁

theorem lenient_keepsTidy : Lenient KeepsTidy where
  stats _ _ hi := ⟨hi.enabled, hi.held, hi.bank, hi.table⟩
  release _ _ hi := ⟨hi.enabled, hi.held, hi.bank, hi.table⟩

theorem keepsTidy_miluCleanup : Moves KeepsTidy Lost miluCleanup := by
  refine .bind moves_load fun h => moves_forEachSafe (fun pos i => ?_) _ _ _
  cases pos with
  | head j => exact fun _ => .inr rfl
  | node e =>
    intro s
    by_cases hready : ∃ a t, s.htable = .ready a t
    · obtain ⟨a, t, ht⟩ := hready
      refine ends_of_eq (bind_of_ok (load_of_ready ht) _) ?_
      let s₁ : Process :=
        { s with htable := .ready s.htable.addr (hashTableDelHashEntry (t.reading s.user) e).2 }
      refine ends_of_eq (show _ = (freeRecord (s₁.recordOf e) >>= fun _ => pure i) s₁ from rfl) ?_
      have hrest : Moves KeepsTidy Lost (freeRecord (s₁.recordOf e) >>= fun _ => pure i) :=
        .bind (lenient_keepsTidy.freeRecord _) fun _ => .pure _
      refine (hrest s₁).mono (fun _ _ h hi => h ?_) fun _ he => he
      exact hi.withTable (((hi.table a t ht).reading s.user).delHashEntry e)
    · exact ends_of_error (bind_of_error
        (load_of_not_ready fun a t ht => hready ⟨a, t, ht⟩) _) (.inl rfl)

theorem trackNew_tidy (hi : Tidy s) (r : Option ℕ) : IfReturns
    ((Tracker.trackNew calladdr size r).interp (handle R (d + 1))) s fun _ s' => Tidy s' := by
  cases r with
  | none => exact hi
  | some ptr =>
    refine (trackNew_ifReturns hi.enabled hi.held).mono ?_ fun _ he => he
    rintro _ _ ⟨a, t, H, ht, hne, -, -, rfl⟩
    exact hi.tracked ht hne ptr calladdr size _

theorem relink_tidy (hi : Tidy s) (old : Option Memalloc) : IfReturns
    ((Tracker.relink old nptr calladdr size).interp (handle R (d + 1))) s fun _ s' => Tidy s' := by
  refine relink_ifReturns hi.enabled hi.held fun a t H ht hne _ => ?_
  refine (lenient_keepsTidy.settle old _).ifReturns.mono (fun _ _ h => h ?_) fun _ he => he
  exact hi.tracked ht hne nptr calladdr size _

theorem trackMoved_tidy (hi : Tidy s) (r : Option ℕ) : IfReturns
    ((Tracker.trackMoved calladdr ptr size r).interp (handle R (d + 1))) s fun _ s' => Tidy s' := by
  cases r with
  | none => exact hi
  | some nptr =>
    refine ends_of_eq (interp_enabled hi.enabled) ?_
    by_cases hready : ∃ a t, s.htable = .ready a t
    · obtain ⟨a, t, ht⟩ := hready
      have hrest : ∀ old (s₁ : Process), Tidy s₁ → IfReturns
          ((Tracker.relink old nptr calladdr size >>= fun _ => pure (some nptr)).interp
            (handle R (d + 1))) s₁ fun _ s' => Tidy s' := by
        intro old s₁ hi₁
        rw [Program.interp_bind]
        exact (relink_tidy hi₁ old).bind fun _ _ h => h
      rcases delete_of_ready ht hi.held ptr with ⟨-, hdel⟩ | ⟨e, hsome, hdel⟩
      · exact ends_of_eq (perform_of_ok hdel _) (hrest _ s hi)
      · exact ends_of_eq (perform_of_ok hdel _)
          (hrest _ _ (hi.deleted ht (Tidy.mem_chain_of_lookup hsome)))
    · exact ends_of_error (perform_of_error (delete_of_not_ready fun a t ht => hready ⟨a, t, ht⟩) _)
        trivial

theorem forget_tidy (hi : Tidy s) : IfReturns
    ((Tracker.forget ptr).interp (handle R (d + 1))) s fun _ s' => Tidy s' := by
  have hread : handle R (d + 1) .enabled s = .ok (s.enabled, s) := rfl
  refine ends_of_eq (perform_of_ok hread _) ?_
  rw [if_neg hi.enabled]
  by_cases hready : ∃ a t, s.htable = .ready a t
  · obtain ⟨a, t, ht⟩ := hready
    rcases delete_of_ready ht hi.held ptr with ⟨-, hdel⟩ | ⟨e, hsome, hdel⟩
    · refine ends_of_eq (perform_of_ok hdel _) ?_
      have hall : Moves KeepsTidy Lost (Program.interp (handle R (d + 1)) (do
          Tracker.perform .memReport
          Tracker.perform .miluCleanup)) :=
        .bind moves_memReport fun _ => .bind keepsTidy_miluCleanup fun _ => .pure _
      exact (hall s).ifReturns.mono (fun _ _ h => h hi) fun _ he => he
    · refine ends_of_eq (perform_of_ok hdel _) ?_
      have hall : Moves KeepsTidy Lost (Program.interp (handle R (d + 1)) (do
          Tracker.perform (.sub .activeAlloc 1)
          Tracker.perform (.sub .activeReserved (s.recordOf e).size)
          Tracker.perform (.freeRecord (s.recordOf e)))) :=
        .bind (lenient_keepsTidy.sub _ _) fun _ => .bind (lenient_keepsTidy.sub _ _) fun _ =>
          .bind (lenient_keepsTidy.freeRecord _) fun _ => .pure _
      exact (hall _).ifReturns.mono
        (fun _ _ h => h (hi.deleted ht (Tidy.mem_chain_of_lookup hsome))) fun _ he => he
  · exact ends_of_error (perform_of_error (delete_of_not_ready fun a t ht => hready ⟨a, t, ht⟩) _)
      trivial

/-- **A call.** -/
theorem body_tidy (hi : Tidy s) (q : Request) : IfReturns
    ((q.body calladdr).interp (handle R (d + 1))) s fun _ s' => Tidy s' := by
  have hheap : ∀ H : Heap, Tidy { s with heap := H } := fun H =>
    ⟨hi.enabled, hi.held, hi.bank, hi.table⟩
  obtain ⟨r, H, hreal⟩ := exists_real q s.heap
  have hask : allocate q.real s = .ok (r, { s with heap := H }) := by rw [allocate, hreal]
  cases q with
  | malloc size => exact ends_of_eq (perform_of_ok hask _) (trackNew_tidy (hheap H) r)
  | calloc nmemb size => exact ends_of_eq (perform_of_ok hask _) (trackNew_tidy (hheap H) r)
  | realloc ptr size => exact ends_of_eq (perform_of_ok hask _) (trackMoved_tidy (hheap H) r)
  | free ptr =>
    rw [Request.body, Program.interp_bind]
    refine (forget_tidy hi).bind fun _ s₁ h₁ => ?_
    exact (lenient_keepsTidy.giveBack ptr s₁).ifReturns.bind fun _ _ h => h h₁

end Process

/-- **Every step of the program** keeps the table tidy. -/
theorem Tidy.event {R : Runtime} {s : Process} (hi : Tidy s) (ev : Event) :
    IfReturns (ev.run R) s fun _ s' => Tidy s' := by
  cases ev with
  | call d calladdr q =>
    have hcall : IfReturns (Process.call R (d + 1) calladdr q) s fun _ s' => Tidy s' :=
      ends_of_eq (Process.call_of_enabled hi.enabled) (Process.body_tidy hi q)
    exact hcall.bind fun _ _ h => h
  | cleanup =>
    exact (Process.keepsTidy_miluCleanup s).ifReturns.mono (fun _ _ h => h hi) fun _ he => he
  | write user => exact ⟨hi.enabled, hi.held, hi.bank, hi.table⟩

theorem OwnershipRun.tidy {R : Runtime} {steps : List (Process × Event)} {s : Process}
    (h : OwnershipRun R steps s) : Tidy s := by
  induction h with
  | start hs => exact .of_start hs
  | step _ hev ih => exact (ih.event _).of_ok hev

/-! ### Without a record -/

namespace Process

variable {R : Runtime} {s : Process} {d a calladdr ptr : ℕ} {t : HashTable ℕ}

/-- A traversal of a table without entries comes to its end. -/
theorem forEachSafe_of_empty (ht : s.htable = .ready a t) (hempty : ∀ j < t.buckets, t.table j = [])
    (hlt : t.buckets < 2 ^ 32) {body : Pos ℕ → ℕ → ProcM ℕ} (k : ℕ) :
    ∀ {i fuel : ℕ}, i + k = t.buckets → 2 * k < fuel →
      forEachSafe (stuck .astray) load body fuel i none s = .ok ((), s) := by
  have hload := load_of_ready ht
  induction k with
  | zero =>
    intro i fuel hi hfuel
    obtain ⟨fuel, rfl⟩ := Nat.exists_eq_add_one_of_ne_zero (Nat.ne_zero_of_lt hfuel)
    have hout : ¬ i < (t.reading s.user).buckets := by
      show ¬ i < t.buckets
      omega
    refine (bind_of_ok hload _).trans ?_
    rw [if_neg hout]
    rfl
  | succ k ih =>
    intro i fuel hi hfuel
    obtain ⟨fuel, rfl⟩ : ∃ f, fuel = f + 1 + 1 := ⟨fuel - 2, by omega⟩
    have hin : i < (t.reading s.user).buckets := by
      show i < t.buckets
      omega
    have hset : i < (t.reading s.user).heads := by
      rw [HashTable.heads_eq (Nat.zero_lt_of_lt hin) hlt.le]
      exact hin
    have hnext : (t.reading s.user).next (.head i) = some (.head i) := by
      rw [HashTable.next_head hset]
      show some (Pos.first i (t.table i)) = _
      rw [hempty i hin]
      rfl
    have hmod : (i + 1) % 2 ^ 32 = i + 1 := Nat.mod_eq_of_lt (by omega)
    refine (bind_of_ok hload _).trans ?_
    rw [if_pos hin, hnext, Option.elim_some, hnext, Option.elim_some, forEachSafe,
      if_pos (by simp [Pos.isHead]), hmod]
    exact ih (by omega) (by omega)

/-- **A free while there is no record** changes nothing but the heap. -/
theorem free_of_empty (hi : Tidy s) (ht : s.htable = .ready a t) (hempty : t.entries = [])
    (hlt : t.buckets < 2 ^ 32) : call R (d + 1) calladdr (.free ptr) s =
      .ok (none, { s with heap := s.heap.afterFree ptr }) := by
  have hchains : ∀ j < t.buckets, t.table j = [] := fun j hj =>
    List.flatMap_eq_nil_iff.mp hempty j (List.mem_range.mpr hj)
  have hwalk : ∀ body, forEachSafe (stuck .astray) load body (t.reading s.user).rounds 0 none s =
      .ok ((), s) := fun body => by
    refine forEachSafe_of_empty ht hchains hlt t.buckets (Nat.zero_add _) ?_
    show 2 * t.buckets < t.entries.length + 2 * t.buckets + 1
    omega
  refine (call_of_enabled hi.enabled).trans ((interp_enabled hi.enabled).trans ?_)
  rcases delete_of_ready ht hi.held ptr with ⟨-, hdel⟩ | ⟨e, hsome, -⟩
  · have hreport : handle R (d + 1) .memReport s = .ok ((), s) :=
      (bind_of_ok (load_of_ready ht) _).trans (hwalk _)
    have hcleanup : handle R (d + 1) .miluCleanup s = .ok ((), s) :=
      (bind_of_ok (load_of_ready ht) _).trans (hwalk _)
    refine (perform_of_ok hdel _).trans ?_
    exact (perform_of_ok hreport _).trans ((perform_of_ok hcleanup _).trans rfl)
  · have hmem := Tidy.mem_chain_of_lookup hsome
    rw [hchains _ (HashTable.hashCode_lt (h := t) (hi.table a t ht).placed.buckets_pos _ _)] at hmem
    exact absurd hmem List.not_mem_nil

theorem miluCleanup_empties (hi : Tidy s) (ht : s.htable = .ready a t) :
    Ends miluCleanup s (fun _ s' => t.buckets < 2 ^ 32 ∧ s'.entries = []) Lost := by
  by_cases hlt : t.buckets < 2 ^ 32
  · have htidy := hi.table a t ht
    obtain ⟨t', hrun, hempty⟩ :=
      miluCleanup_of_ready ht htidy.placed (htidy.findable s.user) hlt
    exact ends_of_ok hrun ⟨hlt, List.flatMap_eq_nil_iff.mpr fun j _ => hempty j⟩
  · exact ends_of_error (miluCleanup_of_wraps ht (Nat.not_lt.mp hlt)) (.inr rfl)

/-- **A free that comes to an empty bucket** takes every record out of the table when the report
returns, and tells the statistics nothing of it. -/
theorem free_of_report (hi : Tidy s) (ht : s.htable = .ready a t) (hlt : t.buckets < 2 ^ 32)
    (hreport : memReport s = .ok ((), s))
    (hchain : t.table (hashTableHashCode t ptr sizeofPtr) = []) :
    ∃ s', call R (d + 1) calladdr (.free ptr) s = .ok (none, s') ∧ s'.entries = [] ∧
      s'.stats = s.stats := by
  rcases delete_of_ready ht hi.held ptr with ⟨-, hdel⟩ | ⟨e, hsome, -⟩
  · have htidy := hi.table a t ht
    obtain ⟨t', hclean, hempty⟩ := miluCleanup_of_ready ht htidy.placed (htidy.findable s.user) hlt
    have hreport : handle R (d + 1) .memReport s = .ok ((), s) := hreport
    have hclean : handle R (d + 1) .miluCleanup s = .ok ((), s.cleaned a t' t.entries) := hclean
    refine ⟨{ s.cleaned a t' t.entries with heap := (s.releases t.entries).afterFree ptr }, ?_,
      List.flatMap_eq_nil_iff.mpr fun j _ => hempty j, rfl⟩
    refine (call_of_enabled hi.enabled).trans ((interp_enabled hi.enabled).trans ?_)
    refine (perform_of_ok hdel _).trans ?_
    exact (perform_of_ok hreport _).trans ((perform_of_ok hclean _).trans rfl)
  · have hmem := Tidy.mem_chain_of_lookup hsome
    rw [hchain] at hmem
    exact absurd hmem List.not_mem_nil

/-- **A free that finds no record** leaves no record. -/
theorem free_of_not_found (hi : Tidy s) (ht : s.htable = .ready a t)
    (hdel : handle R (d + 1) (.delete ptr) s = .ok (none, s)) :
    IfReturns (call R (d + 1) calladdr (.free ptr)) s
      fun _ s' => t.buckets < 2 ^ 32 ∧ s'.entries = [] := by
  refine ends_of_eq ((call_of_enabled hi.enabled).trans (interp_enabled hi.enabled)) ?_
  refine ends_of_eq (perform_of_ok hdel _) ?_
  show IfReturns (memReport >>= fun _ => miluCleanup >>= fun _ => finish ptr) s _
  have hreport : IfReturns memReport s fun _ s' => s = s' := (moves_memReport s).ifReturns
  refine hreport.bind ?_
  rintro _ _ rfl
  exact (miluCleanup_empties hi ht).ifReturns.bind fun _ s₁ h₁ => h₁

/-- **A free that finds a record** takes it out of the table. -/
theorem free_of_found (hi : Tidy s) (ht : s.htable = .ready a t) {e : HashEntry ℕ}
    (he : e ∈ t.table (hashTableHashCode t ptr sizeofPtr))
    (hdel : handle R (d + 1) (.delete ptr) s = .ok (some (s.recordOf e), s.deleted a t ptr e)) :
    IfReturns (call R (d + 1) calladdr (.free ptr)) s fun _ s' => e ∉ s'.entries := by
  have hp := (hi.table a t ht).placed
  have hnodup := (HashTable.entries_listDelInit hp he).nodup_iff.mpr hp.entries_nodup
  refine ends_of_eq ((call_of_enabled hi.enabled).trans (interp_enabled hi.enabled)) ?_
  refine ends_of_eq (perform_of_ok hdel _) ?_
  exact (List.nodup_cons.mp hnodup).1

end Process

/-! ### Harmless frees -/

section

variable {R : Runtime} {s : Process} {d calladdr ptr : ℕ}

/-- A `free` that does no damage finds a table without a record. -/
theorem Harmless.empty (hi : Tidy s) (h : Harmless R d calladdr ptr s) :
    ∃ a t, s.htable = .ready a t ∧ t.entries = [] ∧ t.buckets < 2 ^ 32 := by
  obtain ⟨s', hcall, hkept, -, -⟩ := h
  by_cases hready : ∃ a t, s.htable = .ready a t
  · obtain ⟨a, t, ht⟩ := hready
    rw [Process.entries_of_ready ht] at hkept
    rcases Process.delete_of_ready ht hi.held ptr with ⟨-, hdel⟩ | ⟨e, hsome, hdel⟩
    · obtain ⟨hlt, hnil⟩ := (Process.free_of_not_found hi ht hdel).of_ok hcall
      refine ⟨a, t, ht, List.eq_nil_iff_forall_not_mem.mpr fun e he => ?_, hlt⟩
      have hmem := (hkept e he).1
      rw [hnil] at hmem
      exact List.not_mem_nil hmem
    · have hmem := Tidy.mem_chain_of_lookup hsome
      have hentry := (hi.table a t ht).placed.mem_entries hmem
      have hlost := (Process.free_of_found hi ht hmem hdel).of_ok hcall
      exact absurd (hkept e hentry).1 hlost
  · have hcrash : Process.call R (d + 1) calladdr (.free ptr) s = .error .crash :=
      (Process.call_of_enabled hi.enabled).trans ((Process.interp_enabled hi.enabled).trans
        (Process.perform_of_error
          (Process.delete_of_not_ready fun a t ht => hready ⟨a, t, ht⟩) _))
    exact nomatch hcrash.symm.trans hcall

/-- **Freeing a pointer that has no record does no damage** exactly when there is no record at all,
in a table whose buckets a `uint32_t` can count. It makes no difference which pointer it is. -/
theorem untracked_free_iff {steps : List (Process × Event)} (hrun : OwnershipRun R steps s)
    (hb : Balanced s) (ptr d calladdr : ℕ) :
    Harmless R d calladdr ptr s ↔
      ∃ a t, s.htable = .ready a t ∧ t.entries = [] ∧ t.buckets < 2 ^ 32 := by
  have hi := hrun.tidy
  constructor
  · exact Harmless.empty hi
  · rintro ⟨a, t, ht, hempty, hlt⟩
    refine ⟨_, Process.free_of_empty hi ht hempty hlt, fun e he => ?_, ⟨hb.count, hb.size⟩,
      fun _ => ⟨rfl, rfl⟩⟩
    rw [Process.entries_of_ready ht, hempty] at he
    exact absurd he List.not_mem_nil

end

/-! ### A new record -/

section

variable {R : Runtime} {s : Process} {a ptr calladdr : ℕ} {t : HashTable ℕ} {H : Heap}
  {size : UInt64} {st : Memstats}

theorem Process.entries_tracked (ht : s.htable = .ready a t) (hpos : 0 < t.buckets) :
    ({ s.tracked R a t ptr calladdr size H with stats := st } : Process).entries.Perm
      (Process.entryOf ptr (s.newMem R ptr calladdr size) :: s.entries) := by
  rw [Process.entries_of_ready ht]
  exact (t.reading s.user).entries_insertAt (HashTable.hashCode_lt (h := t) hpos ptr sizeofPtr) _

theorem Process.recordOf_tracked :
    ({ s.tracked R a t ptr calladdr size H with stats := st } : Process).recordOf
      (Process.entryOf ptr (s.newMem R ptr calladdr size)) = s.newMem R ptr calladdr size := by
  set mem := s.newMem R ptr calladdr size
  show ({ Function.update s.record mem.addr mem (mem.addr + hentryOffset - hentryOffset) with
    addr := mem.addr + hentryOffset - hentryOffset } : Memalloc) = mem
  rw [Nat.add_sub_cancel, Function.update_self]

/-- **A new record keeps the balance**, while the counters have room. -/
theorem Balanced.tracked (hi : Tidy s) (hb : Balanced s) (ht : s.htable = .ready a t)
    (hne : (bankGetPtr s.pools).1 ≠ 0) (hcount : s.stats.activeAlloc.toNat + 1 < 2 ^ 64)
    (hsize : s.stats.activeReserved.toNat + size.toNat < 2 ^ 64) :
    Balanced { s.tracked R a t ptr calladdr size H with
      stats := Process.counted s.stats size } := by
  set s' : Process :=
    { s.tracked R a t ptr calladdr size H with stats := Process.counted s.stats size }
  set mem := s.newMem R ptr calladdr size
  have htidy := hi.table a t ht
  have hperm : s'.entries.Perm (Process.entryOf ptr mem :: s.entries) :=
    Process.entries_tracked ht htidy.placed.buckets_pos
  have hnew : s'.recordOf (Process.entryOf ptr mem) = mem := Process.recordOf_tracked
  have hold : ∀ e ∈ s.entries, s'.recordOf e = s.recordOf e := by
    intro e he
    rw [Process.entries_of_ready ht] at he
    obtain ⟨x, hx, haddr⟩ := htidy.taken e he
    have hfresh := (List.nodup_cons.mp (hi.bank.get hne).nodup).1
    have hx' : x ≠ mem.addr := fun heq => hfresh (show mem.addr ∈ s.taken from heq ▸ hx)
    show ({ Function.update s.record mem.addr mem (e.addr - hentryOffset) with
      addr := e.addr - hentryOffset } : Memalloc) = _
    rw [haddr, Nat.add_sub_cancel, Function.update_of_ne hx', Process.recordOf, haddr,
      Nat.add_sub_cancel]
  constructor
  · rw [hperm.length_eq, List.length_cons, ← hb.count]
    show (s.stats.activeAlloc + 1).toNat = _
    rw [UInt64.toNat_add]
    exact Nat.mod_eq_of_lt hcount
  · have hmap : s.entries.map (fun e => (s'.recordOf e).size.toNat) =
        s.entries.map fun e => (s.recordOf e).size.toNat :=
      List.map_congr_left fun e he => by rw [hold e he]
    rw [(hperm.map _).sum_nat, List.map_cons, List.sum_cons, hmap, ← hb.size, hnew]
    show (s.stats.activeReserved + size).toNat = size.toNat + _
    rw [UInt64.toNat_add, Nat.mod_eq_of_lt hsize, Nat.add_comm]

end

/-! ### The first block -/

theorem enabledProcess_balanced : Balanced enabledProcess := by
  have hempty : enabledProcess.entries = [] := entries_fresh _ _ _ _ _ _
  constructor <;> rw [hempty] <;> rfl

theorem untracked_free_iff_enabledProcess : Harmless sampleRuntime 0 1024 0 enabledProcess :=
  (untracked_free_iff (.start enabledProcess_start) enabledProcess_balanced 0 0 1024).mpr
    ⟨_, _, rfl, entries_fresh _ _ _ _ _ _, by decide⟩

/-- Backtraces of ten frames. -/
def tenFrames : Runtime := ⟨Clib.nearest, 10, 1024, 0⟩

/-- `enabledProcess`, with an allocator whose next block has a pointer of bucket `10`. -/
def tenProcess : Process :=
  { enabledProcess with
    heap := { bankHeap with reply n := some (981 * 2 ^ 36 + 2 ^ 32 * (n - 8)) } }

theorem tenProcess_start : Start tenFrames tenProcess where
  enabled := enabledProcess_start.enabled
  held := rfl
  table := enabledProcess_start.table
  bank := enabledProcess_start.bank
  taken := rfl
  apart _ hx := absurd hx List.not_mem_nil

/-- `tenProcess` after a `malloc(8)`. -/
def listedProcess : Process :=
  tenProcess.served tenFrames (2 ^ 32) enabledTable (981 * 2 ^ 36) 1024 8
    (tenProcess.heap.afterMalloc 8)

theorem tenProcess_ne : (bankGetPtr tenProcess.pools).1 ≠ 0 := by
  rw [show (bankGetPtr tenProcess.pools).1 = 7 * 2 ^ 32 from enabledProcess_bank]
  decide

theorem listedProcess_run : OwnershipRun tenFrames [(tenProcess, .call 0 1024 (.malloc 8))]
    listedProcess := by
  have hanswer : tenProcess.heap.answer 8 = some (981 * 2 ^ 36) := by decide
  have hcall : Process.call tenFrames 1 1024 (.malloc 8) tenProcess =
      .ok (some (981 * 2 ^ 36), listedProcess) :=
    Process.malloc_of_room Nat.one_ne_zero rfl rfl (by decide) tenProcess_ne hanswer
  exact .step (.start tenProcess_start) (bind_of_ok hcall _)

/-- The one record, with its ten frames, is in bucket `10`. -/
theorem listedProcess_record : ∃ e, listedProcess.entries = [e] ∧ e.key = 981 * 2 ^ 36 ∧
    enabledTable.home e = 10 ∧ (listedProcess.recordOf e).btSize = 10 ∧
      (listedProcess.recordOf e).bt ≠ 0 := by
  let s₀ : Process := { tenProcess with heap := tenProcess.heap.afterMalloc 8 }
  let s₁ := s₀.tracked tenFrames (2 ^ 32) enabledTable (981 * 2 ^ 36) 1024 8
    (s₀.heap.afterMalloc tenFrames.symbols)
  have hperm : ({ s₁ with stats := Process.counted s₀.stats 8 } : Process).entries.Perm _ :=
    Process.entries_tracked rfl (by decide)
  have hempty : s₀.entries = [] := entries_fresh _ _ _ _ _ _
  rw [hempty] at hperm
  have hrecord : listedProcess.recordOf
      (Process.entryOf (981 * 2 ^ 36) (s₀.newMem tenFrames (981 * 2 ^ 36) 1024 8)) =
        s₀.newMem tenFrames (981 * 2 ^ 36) 1024 8 := Process.recordOf_tracked
  have hsize : (s₀.newMem tenFrames (981 * 2 ^ 36) 1024 8).btSize = 10 := rfl
  have hbt : (s₀.newMem tenFrames (981 * 2 ^ 36) 1024 8).bt ≠ 0 := by
    have hanswer : s₀.heap.answer tenFrames.symbols = some (981 * 2 ^ 36 + 2 ^ 32) := by decide
    simp only [Process.newMem, hanswer]
    decide
  refine ⟨_, List.perm_singleton.mp hperm, rfl, ?_, ?_, ?_⟩
  · show hashTableHashCode enabledTable (981 * 2 ^ 36) sizeofPtr = 10
    decide
  · rw [hrecord, hsize]
  · rw [hrecord]
    exact hbt

/-- The records of `listedProcess`, with names for the frames. -/
def listedMem : RecordMem ℕ where
  mem := listedProcess.recordOf
  btSize_lt e := by
    have hold : 0 < 2 ^ 8 := by decide
    have hnew : 10 % 2 ^ 8 < 2 ^ 8 := by decide
    show (Function.update tenProcess.record _ _ (e.addr - hentryOffset)).btSize < 2 ^ 8
    rw [Function.update_apply]
    split_ifs
    · exact hnew
    · exact hold
  symbol _ _ := "main"

/-- The table of `listedProcess`. -/
def listedTable : HashTable ℕ :=
  (enabledTable.reading fun _ => 0).insertAt
    (hashTableHashCode enabledTable (981 * 2 ^ 36) sizeofPtr)
    (Process.entryOf (981 * 2 ^ 36) (Process.newMem tenFrames
      { tenProcess with heap := tenProcess.heap.afterMalloc 8 } (981 * 2 ^ 36) 1024 8))

theorem listedProcess_htable : listedProcess.htable = .ready (2 ^ 32) listedTable := rfl

theorem listedTable_buckets_lt : listedTable.buckets < 2 ^ 32 := by
  rw [listedTable, HashTable.insertAt_buckets]
  decide

theorem listedProcess_balanced : Balanced listedProcess := by
  have hstart := Tidy.of_start tenProcess_start
  have hgiven : Tidy { tenProcess with heap := tenProcess.heap.afterMalloc 8 } :=
    ⟨hstart.enabled, hstart.held, hstart.bank, hstart.table⟩
  exact Balanced.tracked hgiven ⟨enabledProcess_balanced.count, enabledProcess_balanced.size⟩ rfl
    tenProcess_ne (by decide) (by decide)

/-- It is the only record, and in no other bucket. -/
theorem listedTable_record : ∃ e, listedTable.entries = [e] ∧ e.key = 981 * 2 ^ 36 ∧
    (∀ j, ∀ x ∈ listedTable.table j, x = e ∧ j = 10) ∧
    (listedProcess.recordOf e).btSize = 10 ∧ (listedProcess.recordOf e).bt ≠ 0 := by
  obtain ⟨e, hentries, hkey, hhome, hsize, hbt⟩ := listedProcess_record
  rw [Process.entries_of_ready listedProcess_htable] at hentries
  have hplaced := (listedProcess_run.tidy.table _ _ listedProcess_htable).placed
  have hbucket : listedTable.home e = 10 := by
    rw [listedTable, HashTable.home, hashTableHashCode, HashTable.insertAt_myHashFn,
      HashTable.insertAt_buckets]
    exact hhome
  refine ⟨e, hentries, hkey, fun j x hx => ?_, hsize, hbt⟩
  have hmem := hplaced.mem_entries hx
  rw [hentries, List.mem_singleton] at hmem
  subst hmem
  exact ⟨rfl, (hplaced.home_eq j x hx).symm.trans hbucket⟩

theorem listedProcess_memReport : Process.memReport listedProcess = .ok ((), listedProcess) := by
  obtain ⟨e, hentries, -, honly, hsize, hbt⟩ := listedTable_record
  have hplaced := (listedProcess_run.tidy.table _ _ listedProcess_htable).placed
  rcases Process.memReport_of_ready (M := listedMem) listedProcess_htable rfl hplaced.nodup with
    ⟨hreturns, -⟩ | ⟨-, hlost⟩
  · exact hreturns
  · refine absurd ⟨listedTable_buckets_lt, fun j _ x hx => ?_, fun x hx => ?_⟩ hlost
    · obtain ⟨rfl, rfl⟩ := honly j x (List.mem_of_getLast? hx)
      exact hsize
    · rw [hentries, List.mem_singleton] at hx
      subst hx
      exact fun hno => absurd hno hbt

/-- **The first block, and `free(NULL)`**: the books balance, the `free` returns, and the record of
the block is gone while the statistics go on counting it. -/
theorem untracked_free_damages : ∃ steps s s', OwnershipRun tenFrames steps s ∧ Balanced s ∧
    (∃ e, s.entries = [e] ∧ e.key ≠ 0) ∧
    Process.call tenFrames 1 1024 (.free 0) s = .ok (none, s') ∧ s'.entries = [] ∧
    s'.stats.activeAlloc = 1 ∧ ¬ Harmless tenFrames 0 1024 0 s := by
  obtain ⟨e, hentries, hkey, honly, -, -⟩ := listedTable_record
  have hi := listedProcess_run.tidy
  -- `NULL` belongs to an empty bucket
  have hchain : listedTable.table (hashTableHashCode listedTable 0 sizeofPtr) = [] := by
    refine List.eq_nil_iff_forall_not_mem.mpr fun x hx => ?_
    have hten := (honly _ x hx).2
    rw [listedTable, hashTableHashCode, HashTable.insertAt_myHashFn,
      HashTable.insertAt_buckets] at hten
    exact absurd hten (by decide)
  have hreturns : ∃ s', Process.call tenFrames 1 1024 (.free 0) listedProcess = .ok (none, s') ∧
      s'.entries = [] ∧ s'.stats = listedProcess.stats :=
    Process.free_of_report hi listedProcess_htable listedTable_buckets_lt listedProcess_memReport
      hchain
  obtain ⟨s', hcall, hempty, hstats⟩ := hreturns
  refine ⟨_, _, s', listedProcess_run, listedProcess_balanced, ⟨e, ?_, ?_⟩, hcall, hempty, ?_,
    fun hharm => ?_⟩
  · rw [Process.entries_of_ready listedProcess_htable, hentries]
  · rw [hkey]
    decide
  · rw [hstats]
    rfl
  · obtain ⟨a, t, ht, hnil, -⟩ := hharm.empty hi
    obtain ⟨-, rfl⟩ := TablePtr.ready.inj (listedProcess_htable.symm.trans ht)
    rw [hentries] at hnil
    exact List.cons_ne_nil _ _ hnil

end Milu
