import Milu.Tracker.Untracked

/-!
# Running out of records

`malloc`, `calloc` and `realloc` take a record for each block they hand out. Whether they got one is
tested; the branch for the case that they did not is empty but for the word `ERROR`, and the next
line writes through the pointer.

The bank is created as one that grows, but `bank_get_ptr` does not make it grow, and no record is
ever put back. So the records of the one pool last for as many blocks as the pool has slots.

## Main definitions

* `RecordsHandled` — a call that copes with having no record

## Main results

* `call_of_runsOut` — a call that runs out of records
* `records_handled_iff` — exactly which calls cope
* `pool_runs_out` — the block after as many as the pool has slots
-/

namespace Milu

/-- The calls that obtain a block. -/
def Request.Obtains : Request → Prop
  | .malloc _ | .calloc _ _ | .realloc _ _ => True
  | .free _ => False

/-- A call that copes with having no record: it does not write through one that is `NULL`, and when
there is none it returns, with the statistics as consistent with the table as before. -/
def RecordsHandled (R : Runtime) (d calladdr : ℕ) (q : Request) (s : Process) : Prop :=
  Process.call R (d + 1) calladdr q s ≠ .error .fault ∧
    ((bankGetPtr s.pools).1 = 0 → ∃ r s',
      Process.call R (d + 1) calladdr q s = .ok (r, s') ∧ (Balanced s → Balanced s'))

namespace Process

variable {R : Runtime} {s : Process} {d calladdr : ℕ} {q : Request}

theorem call_of_refused (hen : s.enabled ≠ 0) (hq : q.Obtains) {H : Heap}
    (hreal : q.real s.heap = some (none, H)) :
    call R (d + 1) calladdr q s = .ok (none, { s with heap := H }) := by
  have hask : allocate q.real s = .ok (none, { s with heap := H }) := by rw [allocate, hreal]
  refine (call_of_enabled hen).trans ?_
  cases q with
  | malloc size => exact (perform_of_ok hask _).trans rfl
  | calloc nmemb size => exact (perform_of_ok hask _).trans rfl
  | realloc ptr size => exact (perform_of_ok hask _).trans rfl
  | free ptr => exact hq.elim

/-- **A call that runs out of records** writes through one that is `NULL`; a `realloc` without a
table does not come to that. -/
theorem call_of_runsOut (hen : s.enabled ≠ 0) (hheld : s.held = []) (h : RunsOut R s q) :
    call R (d + 1) calladdr q s = .error .fault ∨
      (bankGetPtr s.pools).1 = 0 ∧ call R (d + 1) calladdr q s = .error .crash := by
  obtain ⟨ptr, H, hreal, hf⟩ := h
  have hask : allocate q.real s = .ok (some ptr, { s with heap := H }) := by rw [allocate, hreal]
  have hnew : ∀ size, (Tracker.trackNew calladdr size (some ptr)).interp (handle R (d + 1))
      { s with heap := H } = .error .fault := fun size => trackNew_of_recordFaults hen hheld hf
  rw [call_of_enabled hen]
  cases q with
  | malloc size => exact .inl ((perform_of_ok hask _).trans (hnew _))
  | calloc nmemb size => exact .inl ((perform_of_ok hask _).trans (hnew _))
  | realloc old size =>
    by_cases hready : ∃ a t, s.htable = .ready a t
    · obtain ⟨a, t, ht⟩ := hready
      exact .inl ((perform_of_ok hask _).trans
        (trackMoved_of_recordFaults (s := { s with heap := H }) hen hheld ht hf))
    · have h0 : (bankGetPtr s.pools).1 = 0 := by
        rcases hf with h0 | ⟨a, t, ht, -⟩
        · exact h0
        · exact absurd ⟨a, t, ht⟩ hready
      exact .inr ⟨h0, (perform_of_ok hask _).trans (trackMoved_of_not_ready
        (s := { s with heap := H }) hen fun a t ht => hready ⟨a, t, ht⟩)⟩
  | free ptr => exact absurd (HeapM.pure_inj hreal).1 (Option.some_ne_none _).symm

/-- A call that does not run out of records does not write through one that is `NULL`. -/
theorem call_ne_fault (hen : s.enabled ≠ 0) (hheld : s.held = []) (h : ¬ RunsOut R s q) :
    call R (d + 1) calladdr q s ≠ .error .fault := by
  rw [call_of_enabled hen]
  intro hfault
  by_cases hb : Blocks R s q
  · exact nomatch (body_of_blocks hen hheld hb).symm.trans hfault
  · have hlost : ∀ e, Lost e → e ≠ .fault := by
      rintro e (rfl | rfl) <;> exact nofun
    have hends : Ends ((q.body calladdr).interp (handle R (d + 1))) s (fun _ s' => s'.held = [])
        (· ≠ .fault) := body_ends hen hheld hb hlost fun hr => absurd hr h
    exact hends.of_error hfault rfl

end Process

section

variable {R : Runtime} {s : Process} {d calladdr : ℕ} {q : Request}

/-- A call that copes has not run out of records. -/
theorem RecordsHandled.not_runsOut (hen : s.enabled ≠ 0) (hheld : s.held = [])
    (h : RecordsHandled R d calladdr q s) : ¬ Process.RunsOut R s q := by
  intro hr
  obtain ⟨hne, hreturns⟩ := h
  rcases Process.call_of_runsOut hen hheld hr with hfault | ⟨h0, hcrash⟩
  · exact hne hfault
  · obtain ⟨r, s', hcall, -⟩ := hreturns h0
    exact nomatch hcrash.symm.trans hcall

/-- **Running out of records is handled** exactly when it does not happen: the real allocator gives
no block, or there is a record for the block, and another for the bucket array if the record goes
into a full table and the array can be had. -/
theorem records_handled_iff (h : Process.Reached R s) (hen : s.enabled ≠ 0) (hq : q.Obtains)
    (d calladdr : ℕ) : RecordsHandled R d calladdr q s ↔ ¬ Process.RunsOut R s q := by
  constructor
  · exact RecordsHandled.not_runsOut hen h.held_eq
  · intro hr
    refine ⟨Process.call_ne_fault hen h.held_eq hr, fun h0 => ?_⟩
    obtain ⟨r, H, hreal⟩ := Process.exists_real q s.heap
    cases r with
    | none => exact ⟨_, _, Process.call_of_refused hen hq hreal, fun hb => ⟨hb.count, hb.size⟩⟩
    | some ptr => exact absurd ⟨ptr, H, hreal, .inl h0⟩ hr

end

/-- The first block has a record. -/
theorem records_handled_iff_enabledProcess :
    RecordsHandled sampleRuntime 0 1024 (.malloc 8) enabledProcess := by
  have hreached : Process.Reached sampleRuntime enabledProcess := .start rfl
  have hobtains : (Request.malloc 8).Obtains := trivial
  refine (records_handled_iff hreached Nat.one_ne_zero hobtains 0 1024).mpr ?_
  rintro ⟨ptr, H, -, hnone | ⟨a, t, ht, hfull, -⟩⟩
  · have hfirst : (bankGetPtr enabledProcess.pools).1 = 7 * 2 ^ 32 := enabledProcess_bank
    rw [show (bankGetPtr enabledProcess.pools).1 = 0 from hnone] at hfirst
    exact absurd hfirst (by decide)
  · obtain ⟨-, rfl⟩ := TablePtr.ready.inj ht
    exact absurd hfull (by decide)

/-! ### As many blocks as the pool has slots -/

/-- A heap that has answered `k` requests, all in order, with blocks far apart. -/
structure Wide (k : ℕ) (H : Heap) : Prop where
  reply : H.reply = wideHeap.reply
  asked : H.asked = k
  below : ∀ b ∈ H.live, b.base + b.span ≤ 2 ^ 32 * (k + 1)

namespace Wide

variable {k n : ℕ} {H : Heap}

theorem start : Wide 0 wideHeap := ⟨rfl, rfl, List.forall_mem_nil _⟩

theorem answer (h : Wide k H) (hk : k < 2 ^ 31) (hn : n ≤ 2 ^ 32) :
    H.answer n = some (2 ^ 32 * (k + 1)) := by
  have hspan : Block.span ⟨2 ^ 32 * (k + 1), n⟩ ≤ 2 ^ 32 := max_le hn (by decide)
  have hfresh : H.Fresh ⟨2 ^ 32 * (k + 1), n⟩ := by
    refine ⟨?_, ?_, fun b hb => .inr (h.below b hb)⟩
    · show 2 ^ 32 * (k + 1) ≠ 0
      omega
    · show 2 ^ 32 * (k + 1) + _ < 2 ^ 64
      omega
  rw [Heap.answer, h.asked, h.reply]
  exact Option.filter_eq_some_iff.mpr ⟨rfl, decide_eq_true hfresh⟩

theorem malloc (h : Wide k H) (hk : k < 2 ^ 31) (hn : n ≤ 2 ^ 32) :
    Wide (k + 1) (H.afterMalloc n) := by
  have hanswer := h.answer hk hn
  have hspan : Block.span ⟨2 ^ 32 * (k + 1), n⟩ ≤ 2 ^ 32 := max_le hn (by decide)
  refine ⟨?_, ?_, fun b hb => ?_⟩
  · rw [Heap.afterMalloc]
    split <;> exact h.reply
  · rw [Heap.afterMalloc]
    split <;> exact congrArg (· + 1) h.asked
  · rw [Heap.afterMalloc_live hanswer] at hb
    rcases List.mem_cons.mp hb with rfl | hb
    · show 2 ^ 32 * (k + 1) + _ ≤ _
      omega
    · have := h.below b hb
      omega

theorem mallocs (l : List ℕ) : ∀ {k : ℕ} {H : Heap}, Wide k H → k + l.length < 2 ^ 31 →
    (∀ n ∈ l, n ≤ 2 ^ 32) → Wide (k + l.length) (l.foldl Heap.afterMalloc H) := by
  induction l with
  | nil => exact fun h _ _ => h
  | cons n l ih =>
    intro k H h hk hl
    rw [List.length_cons] at hk ⊢
    have hrest := ih (h.malloc (by omega) (hl n List.mem_cons_self)) (by omega)
      fun m hm => hl m (List.mem_cons_of_mem _ hm)
    rw [show k + (l.length + 1) = k + 1 + l.length by omega]
    exact hrest

theorem bankHeap : Wide 8 bankHeap := by
  have htable : Wide 3 tableHeap := by
    rw [tableHeap]
    exact mallocs [_, _, _] start (by decide) (by decide)
  rw [Milu.bankHeap]
  exact mallocs [_, _, _, _, _] htable (by decide) (by decide)

end Wide

/-- The process after `n` calls of `malloc(8)`. -/
structure Filling (n : ℕ) (s : Process) : Prop where
  run : ∃ steps, OwnershipRun sampleRuntime steps s ∧ steps.length = n
  bank : Stocked poolsize s.pools s.taken
  count : s.taken.length = n
  table : ∃ a t, s.htable = .ready a t ∧ t.resizeThreshold = defHsize ∧ t.usedBuckets ≤ n
  heap : Wide (8 + 2 * n) s.heap

namespace Filling

variable {n : ℕ} {s : Process}

theorem start : Filling 0 enabledProcess where
  run := ⟨[], .start enabledProcess_start, rfl⟩
  bank := by
    have hbank := (Tidy.of_start enabledProcess_start).bank
    exact hbank.stocked fun hnull => Option.some_ne_none _ (List.cons.inj hnull).1
  count := rfl
  table := ⟨_, _, rfl, rfl, le_rfl⟩
  heap := Wide.bankHeap

/-- **One call more**, while there is a slot. -/
theorem malloc (h : Filling n s) (hn : n < poolsize) : ∃ s', Filling (n + 1) s' := by
  obtain ⟨steps, hrun, hlen⟩ := h.run
  obtain ⟨a, t, ht, hthreshold, hused⟩ := h.table
  have hpool : n < 20000 := hn
  have hi := hrun.tidy
  have hanswer := h.heap.answer (n := 8) (by omega) (by decide)
  have hheap := (h.heap.malloc (n := 8) (by omega) (by decide)).malloc (n := 8)
    (by omega) (by decide)
  have hne : (bankGetPtr s.pools).1 ≠ 0 := by
    intro h0
    have hout := h.bank.get_eq_zero_iff.mp h0
    have hcount := h.count
    omega
  have hroom : t.usedBuckets < t.resizeThreshold := by
    rw [hthreshold]
    exact lt_of_le_of_lt hused (lt_of_lt_of_le hpool (by decide))
  have hcall : Process.call sampleRuntime 1 1024 (.malloc 8) s = _ :=
    Process.malloc_of_room hi.enabled hi.held ht hroom hne hanswer
  refine ⟨_, ⟨(s, .call 0 1024 (.malloc 8)) :: steps, .step hrun (bind_of_ok hcall _), ?_⟩,
    h.bank.get hne, congrArg (· + 1) h.count, ?_, hheap⟩
  · rw [List.length_cons, hlen]
  · refine ⟨a, _, rfl, ?_, ?_⟩
    · rw [HashTable.insertAt_resizeThreshold]
      exact hthreshold
    · refine (HashTable.usedBuckets_insertAt_le _ _ _).trans ?_
      exact Nat.succ_le_succ hused

/-- As many calls as there are slots. -/
theorem upTo (n : ℕ) (hn : n ≤ poolsize) : ∃ s, Filling n s := by
  induction n with
  | zero => exact ⟨_, start⟩
  | succ n ih =>
    obtain ⟨s, hs⟩ := ih (Nat.le_of_succ_le hn)
    exact hs.malloc hn

end Filling

/-- **One block more than the pool has slots**: the call finds no record, and writes through
`NULL`. -/
theorem pool_runs_out : ∃ steps s, OwnershipRun sampleRuntime steps s ∧ steps.length = poolsize ∧
    Process.Reached sampleRuntime s ∧ s.enabled ≠ 0 ∧
      ¬ RecordsHandled sampleRuntime 0 1024 (.malloc 8) s := by
  obtain ⟨s, hs⟩ := Filling.upTo poolsize le_rfl
  obtain ⟨steps, hrun, hlen⟩ := hs.run
  have hi := hrun.tidy
  refine ⟨steps, s, hrun, hlen, .start hi.held, hi.enabled, fun hhandled => ?_⟩
  refine hhandled.not_runsOut hi.enabled hi.held ?_
  have hanswer := hs.heap.answer (n := 8) (by decide) (by decide)
  have hreal : (Request.malloc 8).real s.heap = some (s.heap.answer 8, s.heap.afterMalloc 8) := rfl
  rw [hanswer] at hreal
  exact ⟨_, _, hreal, .inl (hs.bank.get_eq_zero_iff.mpr hs.count)⟩

end Milu
