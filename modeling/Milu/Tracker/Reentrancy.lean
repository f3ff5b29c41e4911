import Milu.Tracker.Operations

/-!
# Calls that come back to the library

One thread, and the library as it is linked. `milu.c` goes to the real allocator through `_malloc`
and `_free`, and the bank has been told to; `hashtbl.c` and `hash_table_init` have not.

While milu is disabled a call takes `init_mutex` and sets up the table, whose arrays come from
`malloc`: that call finds milu disabled and locks `init_mutex` again. Once milu is enabled the
arrays of a resize come from `malloc`: that call records its block, and locks the table again.

## Main definitions

* `Request.real` — what a call asks of the real allocator
* `SelfDeadlocks` — the calls that block, by the state they start in
* `Process.Reached` — the states between calls

## Main results

* `lockedInit_of_table`, `lockedInit_of_refused` — initialisation
* `body_of_recordBlocks`, `body_ends` — the rest of a call
* `call_deadlock_iff` — exactly which calls block
* `first_malloc_deadlocks` — the first call of all
-/

namespace Milu

namespace Process

variable {R : Runtime} {malloc : ℕ → ProcM (Option ℕ)} {free : ℕ → ProcM Unit} {s : Process}
  {d a : ℕ} {t : HashTable ℕ} {ptr nptr calladdr : ℕ} {size : UInt64}

/-! ### Initialisation -/

theorem interp_disabled (hen : s.enabled = 0) {α β : Type} {x y : Tracker α} {f : α → Tracker β} :
    ((Tracker.perform .enabled >>= fun enabled => if enabled = 0 then x else y) >>= f).interp
      (handleWith R malloc free) s = (x >>= f).interp (handleWith R malloc free) s := by
  have hread : handleWith R malloc free .enabled s = .ok (s.enabled, s) := rfl
  refine (bind_of_ok hread _).trans ?_
  show ((if s.enabled = 0 then x else y) >>= f).interp (handleWith R malloc free) s = _
  rw [if_pos hen]

/-- A `malloc` from inside the initialisation. -/
theorem nested_malloc_disabled (hen : s.enabled = 0) (hl : .init ∈ s.held) :
    (Tracker.malloc calladdr size).interp (handle R d) s = .error .deadlock := by
  obtain ⟨malloc, free, hd⟩ := exists_handleWith R d
  rw [hd]
  exact (interp_disabled hen).trans (bind_of_error (lock_of_mem hl) _)

/-- The table cannot be set up under `init_mutex`. -/
theorem hashTableInit_disabled (hen : s.enabled = 0) (hl : .init ∈ s.held) {b : ℕ} :
    handle R (d + 1) (.hashTableInit b) s = .error .deadlock := by
  have hget : (get : ProcM Process) s = .ok (s, s) := rfl
  refine (bind_of_ok hget _).trans ?_
  exact bind_of_error (bind_of_error (nested_malloc_disabled hen hl) _) _

/-- There is no struct for the table: the real allocator is asked for one. -/
theorem allocHtable_eq {n : ℕ} : handle R (d + 1) (.allocHtable n) s =
    .ok ((s.heap.answer n).isSome, { s with
      heap := s.heap.afterMalloc n
      htable := (s.heap.answer n).elim .null .raw }) := by
  have hask : allocate (Heap.malloc n) s =
      .ok (s.heap.answer n, { s with heap := s.heap.afterMalloc n }) := rfl
  refine (bind_of_ok hask _).trans ?_
  cases s.heap.answer n <;> rfl

/-- With a struct for the table, or memory for one. -/
theorem initHtable_of_table (hen : s.enabled = 0) (hl : .init ∈ s.held)
    (h : s.htable.isSome = true ∨ s.heap.answer sizeofHashTable ≠ none) :
    Tracker.initHtable.interp (handle R (d + 1)) s = .error .deadlock := by
  have hread : handle R (d + 1) .htable s = .ok (s.htable.isSome, s) := rfl
  refine (perform_of_ok hread _).trans ?_
  by_cases hs : s.htable.isSome = true
  · rw [if_pos hs]
    exact perform_of_error (hashTableInit_disabled hen hl) _
  · obtain ⟨addr, haddr⟩ := Option.ne_none_iff_exists'.mp (h.resolve_left hs)
    rw [if_neg hs]
    refine (perform_of_ok allocHtable_eq _).trans ?_
    rw [if_pos (by rw [haddr]; rfl)]
    exact perform_of_error (hashTableInit_disabled
      (s := { s with heap := s.heap.afterMalloc _, htable := (s.heap.answer _).elim _ _ }) hen hl) _

theorem initHtable_of_refused (hs : s.htable.isSome = false)
    (h : s.heap.answer sizeofHashTable = none) : Tracker.initHtable.interp (handle R (d + 1)) s =
      .ok (-1, { s with heap := s.heap.afterMalloc sizeofHashTable, htable := .null }) := by
  have hread : handle R (d + 1) .htable s = .ok (s.htable.isSome, s) := rfl
  refine (perform_of_ok hread _).trans ?_
  rw [if_neg (hs ▸ Bool.false_ne_true)]
  refine (perform_of_ok allocHtable_eq _).trans ?_
  rw [h]
  rfl

/-- **Initialisation blocks** when there is a struct for the table, or memory for one. -/
theorem lockedInit_of_table (hen : s.enabled = 0) (hheld : s.held = [])
    (h : s.htable.isSome = true ∨ s.heap.answer sizeofHashTable ≠ none) :
    Tracker.lockedInit.interp (handle R (d + 1)) s = .error .deadlock := by
  have hl : .init ∉ s.held := by
    rw [hheld]
    exact List.not_mem_nil
  have hinit : Tracker.initMilu.interp (handle R (d + 1)) { s with held := .init :: s.held } =
      .error .deadlock := by
    have hread : handle R (d + 1) .enabled { s with held := .init :: s.held } =
      .ok (s.enabled, { s with held := .init :: s.held }) := rfl
    refine (perform_of_ok hread _).trans ?_
    rw [if_pos hen]
    exact interp_of_error (initHtable_of_table (s := { s with held := .init :: s.held }) hen
      List.mem_cons_self h) _
  refine (perform_of_ok (lock_of_notMem hl) _).trans ?_
  exact interp_of_error hinit _

/-- When the struct is refused, initialisation enables milu without a table. -/
theorem lockedInit_of_refused (hen : s.enabled = 0) (hheld : s.held = [])
    (hs : s.htable.isSome = false) (h : s.heap.answer sizeofHashTable = none) :
    Tracker.lockedInit.interp (handle R (d + 1)) s = .ok ((), { s with
      enabled := 1, heap := s.heap.afterMalloc sizeofHashTable, htable := .null }) := by
  have hl : .init ∉ s.held := by
    rw [hheld]
    exact List.not_mem_nil
  have hinit : Tracker.initMilu.interp (handle R (d + 1)) { s with held := .init :: s.held } =
      .ok (1, { s with
        heap := s.heap.afterMalloc sizeofHashTable, htable := .null,
        held := .init :: s.held }) := by
    have hread : handle R (d + 1) .enabled { s with held := .init :: s.held } =
      .ok (s.enabled, { s with held := .init :: s.held }) := rfl
    refine (perform_of_ok hread _).trans ?_
    rw [if_pos hen]
    exact interp_of_ok (initHtable_of_refused (s := { s with held := .init :: s.held }) hs h) _
  refine (perform_of_ok (lock_of_notMem hl) _).trans ?_
  refine (interp_of_ok hinit _).trans ?_
  show Except.ok ((), { s with
    enabled := 1, heap := _, htable := .null, held := (_ :: s.held).erase _ }) = _
  rw [List.erase_cons_head]

/-! ### The rest of a call -/

theorem trackMoved_of_recordBlocks (hen : s.enabled ≠ 0) (hheld : s.held = [])
    (h : RecordBlocks R s) :
    (Tracker.trackMoved calladdr ptr size (some nptr)).interp (handle R (d + 1)) s =
      .error .deadlock := by
  obtain ⟨a, t, (ht : s.htable = .ready a t), -⟩ := h.2
  refine (interp_enabled hen).trans (interp_of_error ?_ _)
  rcases delete_of_ready ht hheld ptr with ⟨-, hdel⟩ | ⟨e, -, hdel⟩
  · exact (perform_of_ok hdel _).trans (relink_of_recordBlocks hen hheld h)
  · exact (perform_of_ok hdel _).trans (relink_of_recordBlocks (s := s.deleted a t ptr e) hen hheld
      ((recordBlocks_deleted ht).mpr h))

theorem trackMoved_of_recordFaults (hen : s.enabled ≠ 0) (hheld : s.held = [])
    (ht : s.htable = .ready a t) (h : RecordFaults R s) :
    (Tracker.trackMoved calladdr ptr size (some nptr)).interp (handle R (d + 1)) s =
      .error .fault := by
  refine (interp_enabled hen).trans (interp_of_error ?_ _)
  rcases delete_of_ready ht hheld ptr with ⟨-, hdel⟩ | ⟨e, -, hdel⟩
  · exact (perform_of_ok hdel _).trans (relink_of_recordFaults hen hheld h)
  · exact (perform_of_ok hdel _).trans (relink_of_recordFaults (s := s.deleted a t ptr e) hen hheld
      ((recordFaults_deleted ht).mpr h))

theorem trackMoved_of_not_ready (hen : s.enabled ≠ 0) (h : ∀ a t, s.htable ≠ .ready a t) :
    (Tracker.trackMoved calladdr ptr size (some nptr)).interp (handle R (d + 1)) s =
      .error .crash :=
  (interp_enabled hen).trans (perform_of_error (delete_of_not_ready h) _)

theorem trackMoved_ends {bad : Stuck → Prop} (hen : s.enabled ≠ 0) (hheld : s.held = [])
    (h : ¬ RecordBlocks R s) (hlost : ∀ e, Lost e → bad e)
    (hfault : RecordFaults R s → bad .fault) :
    Ends ((Tracker.trackMoved calladdr ptr size (some nptr)).interp (handle R (d + 1))) s
      (fun _ s' => s'.held = []) bad := by
  have hcrash : bad .crash := hlost _ (.inl rfl)
  by_cases hready : ∃ a t, s.htable = .ready a t
  · obtain ⟨a, t, ht⟩ := hready
    refine ends_of_eq (interp_enabled hen) ?_
    have hrest : ∀ old (s₁ : Process), s₁.enabled ≠ 0 → s₁.held = [] → ¬ RecordBlocks R s₁ →
        (RecordFaults R s₁ → bad .fault) →
        Ends ((Tracker.relink old nptr calladdr size >>= fun _ => pure (some nptr)).interp
          (handle R (d + 1))) s₁ (fun _ s' => s'.held = []) bad := by
      intro old s₁ hen₁ hheld₁ h₁ hfault₁
      rw [Program.interp_bind]
      have hlink : Ends ((Tracker.relink old nptr calladdr size).interp (handle R (d + 1))) s₁
          (fun _ s' => s'.held = []) bad :=
        relink_ends hen₁ hheld₁ h₁ hcrash hfault₁ fun a t H _ _ _ =>
          (lenient_untouched.settle old _).mono (fun _ _ hs => hs.held.trans hheld₁) hlost
      exact hlink.bind fun _ s₂ h₂ => h₂
    rcases delete_of_ready ht hheld ptr with ⟨-, hdel⟩ | ⟨e, -, hdel⟩
    · exact ends_of_eq (perform_of_ok hdel _) (hrest _ s hen hheld h hfault)
    · exact ends_of_eq (perform_of_ok hdel _) (hrest _ (s.deleted a t ptr e) hen hheld
        (fun hb => h ((recordBlocks_deleted ht).mp hb))
        fun hf => hfault ((recordFaults_deleted ht).mp hf))
  · exact ends_of_error (trackMoved_of_not_ready hen fun a t ht => hready ⟨a, t, ht⟩) hcrash

/-- `free` takes no mutex but that of a bucket. -/
theorem forget_ends (hen : s.enabled ≠ 0) (hheld : s.held = []) :
    Ends ((Tracker.forget ptr).interp (handle R (d + 1))) s (fun _ s' => s'.held = []) Lost := by
  have hread : handle R (d + 1) .enabled s = .ok (s.enabled, s) := rfl
  refine ends_of_eq (perform_of_ok hread _) ?_
  rw [if_neg hen]
  by_cases hready : ∃ a t, s.htable = .ready a t
  · obtain ⟨a, t, ht⟩ := hready
    rcases delete_of_ready ht hheld ptr with ⟨-, hdel⟩ | ⟨e, -, hdel⟩
    · refine ends_of_eq (perform_of_ok hdel _) ?_
      have hquiet : Quiet (Program.interp (handle R (d + 1)) (do
          Tracker.perform .memReport
          Tracker.perform .miluCleanup)) :=
        .bind moves_memReport fun _ => .bind quiet_miluCleanup fun _ => .pure _
      exact (hquiet s).mono (fun _ _ h => h.held.trans hheld) fun _ he => he
    · refine ends_of_eq (perform_of_ok hdel _) ?_
      have hquiet : Quiet (Program.interp (handle R (d + 1)) (do
          Tracker.perform (.sub .activeAlloc 1)
          Tracker.perform (.sub .activeReserved (s.recordOf e).size)
          Tracker.perform (.freeRecord (s.recordOf e)))) :=
        .bind (lenient_untouched.sub _ _) fun _ => .bind (lenient_untouched.sub _ _) fun _ =>
          .bind (lenient_untouched.freeRecord _) fun _ => .pure _
      exact (hquiet (s.deleted a t ptr e)).mono (fun _ _ h => h.held.trans hheld) fun _ he => he
  · exact ends_of_error (perform_of_error (delete_of_not_ready fun a t ht => hready ⟨a, t, ht⟩) _)
      (.inl rfl)

end Process

/-! ### Calls -/

/-- What a call asks of the real allocator for the program. `free` asks for nothing. `_calloc` is
the function `dlsym` finds under the name `realloc`. -/
def Request.real : Request → HeapM (Option ℕ)
  | malloc size => Heap.malloc size.toNat
  | calloc nmemb size => Heap.realloc nmemb.toNat size.toNat
  | realloc ptr size => Heap.realloc ptr size.toNat
  | free _ => pure none

namespace Process

variable {R : Runtime} {s : Process} {d calladdr : ℕ} {q : Request}

/-- A call that is given its block while milu is enabled, and would block on recording it. -/
def Blocks (R : Runtime) (s : Process) (q : Request) : Prop :=
  ∃ ptr H, q.real s.heap = some (some ptr, H) ∧ RecordBlocks R { s with heap := H }

/-- A call that is given its block while milu is enabled, and finds no record for it, or for the
bucket array that its record needs. -/
def RunsOut (R : Runtime) (s : Process) (q : Request) : Prop :=
  ∃ ptr H, q.real s.heap = some (some ptr, H) ∧ RecordFaults R { s with heap := H }

/-- The calls that block: while milu is disabled, when there is a struct for the table or memory for
one; once it is enabled, when the record of the new block goes into a full table whose next bucket
array can be had, with a record left for it. -/
def SelfDeadlocks (R : Runtime) (s : Process) (q : Request) : Prop :=
  s.enabled = 0 ∧ (s.htable.isSome = true ∨ s.heap.answer sizeofHashTable ≠ none) ∨
    s.enabled ≠ 0 ∧ Blocks R s q

/-- **A call that blocks.** -/
theorem body_of_blocks (hen : s.enabled ≠ 0) (hheld : s.held = []) (h : Blocks R s q) :
    (q.body calladdr).interp (handle R (d + 1)) s = .error .deadlock := by
  obtain ⟨ptr, H, hreal, hrec⟩ := h
  have hask : allocate q.real s = .ok (some ptr, { s with heap := H }) := by rw [allocate, hreal]
  cases q with
  | malloc size =>
    exact (perform_of_ok hask _).trans
      (trackNew_of_recordBlocks (s := { s with heap := H }) hen hheld hrec)
  | calloc nmemb size =>
    exact (perform_of_ok hask _).trans
      (trackNew_of_recordBlocks (s := { s with heap := H }) hen hheld hrec)
  | realloc ptr size =>
    exact (perform_of_ok hask _).trans
      (trackMoved_of_recordBlocks (s := { s with heap := H }) hen hheld hrec)
  | free ptr => exact absurd (HeapM.pure_inj hreal).1 (Option.some_ne_none _).symm

/-- What a call asks of the real allocator for the program always has an answer. -/
theorem exists_real (q : Request) (H : Heap) : ∃ r H', q.real H = some (r, H') := by
  cases q <;> exact ⟨_, _, rfl⟩

/-- **A call that does not block**, once milu is enabled, returns with no mutex held, or is lost, or
runs out of records. -/
theorem body_ends {bad : Stuck → Prop} (hen : s.enabled ≠ 0) (hheld : s.held = [])
    (h : ¬ Blocks R s q) (hlost : ∀ e, Lost e → bad e) (hfault : RunsOut R s q → bad .fault) :
    Ends ((q.body calladdr).interp (handle R (d + 1))) s (fun _ s' => s'.held = []) bad := by
  obtain ⟨r, H, hreal⟩ := exists_real q s.heap
  have hask : allocate q.real s = .ok (r, { s with heap := H }) := by rw [allocate, hreal]
  have hrec : ∀ ptr, r = some ptr → ¬ RecordBlocks R { s with heap := H } ∧
      (RecordFaults R { s with heap := H } → bad .fault) := by
    rintro ptr rfl
    exact ⟨fun hrec => h ⟨ptr, H, hreal, hrec⟩, fun hf => hfault ⟨ptr, H, hreal, hf⟩⟩
  have hnew : ∀ size, Ends ((Tracker.trackNew calladdr size r).interp (handle R (d + 1)))
      { s with heap := H } (fun _ s' => s'.held = []) bad := by
    intro size
    cases r with
    | none => exact hheld
    | some ptr =>
      obtain ⟨hb, hf⟩ := hrec ptr rfl
      refine (trackNew_ends (s := { s with heap := H }) hen hheld hb (hlost _ (.inl rfl)) hf).mono
        ?_ fun _ he => he
      rintro _ _ ⟨a, t, H', -, -, -, -, rfl⟩
      exact hheld
  cases q with
  | malloc size => exact ends_of_eq (perform_of_ok hask _) (hnew size)
  | calloc nmemb size => exact ends_of_eq (perform_of_ok hask _) (hnew _)
  | realloc ptr size =>
    refine ends_of_eq (perform_of_ok hask _) ?_
    cases r with
    | none => exact hheld
    | some nptr =>
      obtain ⟨hb, hf⟩ := hrec nptr rfl
      exact trackMoved_ends hen hheld hb hlost hf
  | free ptr =>
    rw [Request.body, Program.interp_bind]
    refine ((forget_ends hen hheld).mono (fun _ _ h => h) hlost).bind fun _ s₁ h₁ => ?_
    exact (lenient_untouched.giveBack ptr s₁).mono (fun _ _ h₂ => h₂.held.trans h₁) hlost

theorem call_of_disabled (hen : s.enabled = 0) : call R (d + 1) calladdr q s =
    (Tracker.lockedInit >>= fun _ => q.body calladdr).interp (handle R (d + 1)) s := by
  rw [call, Request.program_eq]
  exact interp_disabled hen

theorem call_of_enabled (hen : s.enabled ≠ 0) :
    call R (d + 1) calladdr q s = (q.body calladdr).interp (handle R (d + 1)) s := by
  rw [call, Request.program_eq]
  exact interp_enabled hen

/-- **A call blocks or not**: one that blocks does so at any depth, and one that does not returns
with no mutex held, or gets stuck in another way. -/
theorem call_cases (hheld : s.held = []) :
    (SelfDeadlocks R s q ∧ call R (d + 1) calladdr q s = .error .deadlock) ∨
      (¬ SelfDeadlocks R s q ∧
        Ends (call R (d + 1) calladdr q) s (fun _ s' => s'.held = []) (· ≠ .deadlock)) := by
  have hlost : ∀ e, Lost e → e ≠ .deadlock := by
    rintro e (rfl | rfl) <;> exact nofun
  by_cases hen : s.enabled = 0
  · by_cases htable : s.htable.isSome = true ∨ s.heap.answer sizeofHashTable ≠ none
    · refine .inl ⟨.inl ⟨hen, htable⟩, (call_of_disabled hen).trans ?_⟩
      exact interp_of_error (lockedInit_of_table hen hheld htable) _
    · rw [not_or, Bool.not_eq_true, not_not] at htable
      refine .inr ⟨?_, ?_⟩
      · rintro (⟨-, hs | hs⟩ | ⟨hne, -⟩)
        · exact Bool.false_ne_true (htable.1.symm.trans hs)
        · exact hs htable.2
        · exact hne hen
      · refine ends_of_eq ((call_of_disabled hen).trans
          (interp_of_ok (lockedInit_of_refused hen hheld htable.1 htable.2) _)) ?_
        refine body_ends Nat.one_ne_zero hheld ?_ hlost nofun
        rintro ⟨_, _, -, -, a, t, ht, -⟩
        exact TablePtr.noConfusion ht
  · by_cases hb : Blocks R s q
    · exact .inl ⟨.inr ⟨hen, hb⟩, (call_of_enabled hen).trans (body_of_blocks hen hheld hb)⟩
    · refine .inr ⟨?_, ends_of_eq (call_of_enabled hen) (body_ends hen hheld hb hlost nofun)⟩
      rintro (⟨h0, -⟩ | ⟨-, h⟩)
      · exact hen h0
      · exact hb h

/-! ### Every reachable state -/

/-- The states between calls, from any state of the globals in which no mutex is held. Between calls
the program writes its memory. -/
inductive Reached (R : Runtime) : Process → Prop
  | start {s : Process} : s.held = [] → Reached R s
  | write {s : Process} (user : UserMem) : Reached R s → Reached R { s with user := user }
  | call {s s' : Process} {d calladdr : ℕ} {q : Request} {r : Option ℕ} : Reached R s →
      call R (d + 1) calladdr q s = .ok (r, s') → Reached R s'

theorem Reached.held_eq (h : Reached R s) : s.held = [] := by
  induction h with
  | start hs => exact hs
  | write user _ ih => exact ih
  | call _ hcall ih =>
    rcases call_cases ih with ⟨-, hdead⟩ | ⟨-, hends⟩
    · exact nomatch hdead.symm.trans hcall
    · exact hends.of_ok hcall

end Process

/-- An allocator that answers with one address after the other. -/
def bootHeap : Heap := ⟨[], .nil, fun n => some (65536 * (n + 1)), 0, 0, []⟩

/-- The process before the first call. -/
def bootProcess : Process :=
  ⟨0, .null, none, Memstats.zero, fun _ => ⟨0, 0, 0, 0, 0, 0⟩, [], fun _ => 0, bootHeap, []⟩

/-- A C library that finds no frames. -/
def sampleRuntime : Runtime := ⟨Clib.nearest, 0, 8, 0⟩

end Milu
