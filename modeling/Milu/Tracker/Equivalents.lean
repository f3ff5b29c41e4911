import Milu.Tracker.Accounting

/-!
# Calls that should account alike

C has more than one way to say the same thing: `realloc(NULL, s)` is `malloc(s)`, `realloc(p, 0)`
may be `free(p)`, and `calloc(n, s)` is `malloc(n * s)` as far as the books go. The four functions
of `milu.c` are written separately, and count separately.

`malloc` and `calloc` end alike. `realloc` never changes the numbers of allocations, so a `realloc`
of `NULL` leaves both of them one too low. When the real `realloc` returns `NULL` the wrapper
returns at once: the record of `p` stays, and so do the statistics. That is what `free(p)` does only
when there is no record at all.

## Main definitions

* `SameBooks` — the statistics, and the record table as a finite map
* `Twin`, `Twin.Agree` — two calls for one thing, and when they account alike

## Main results

* `World.runs_trackNew`, `World.runs_trackMoved`, `World.runs_forget` — what the parts of a call do
  to the books
* `alike_iff` — exactly when the two calls of a pair account alike
* `realloc_null_unlike` — the first call of a program
-/

namespace Milu

open Program (Runs runs_perform_iff runs_bind_iff)

/-! ### Books -/

/-- What the record table has under a key, up to where the record lies, its call address and its
backtrace. -/
def World.book (w : World) (key : ℕ) : Option (ℕ × UInt64) :=
  (w.records.lookup key).map fun mem => (mem.ptr, mem.size)

/-- The same statistics, and the same record table as a finite map. -/
structure SameBooks (w w' : World) : Prop where
  stats : w.stats = w'.stats
  book : w.book = w'.book

/-- Two calls for one thing. -/
inductive Twin
  /-- `realloc(NULL, size)` and `malloc(size)`, which obtain `q`. -/
  | reallocNull (size : UInt64) (q : ℕ)
  /-- `realloc(p, 0)`, which returns `NULL`, and `free(p)`. -/
  | reallocZero (p : ℕ)
  /-- `calloc(nmemb, size)` and `malloc(nmemb * size)`, which obtain `q`. -/
  | calloc (nmemb size : UInt64) (q : ℕ)
  deriving DecidableEq, Repr

namespace Twin

/-- The first of the two calls. -/
def left : Twin → Request
  | reallocNull size _ => .realloc 0 size
  | reallocZero p => .realloc p 0
  | calloc nmemb size _ => .calloc nmemb size

/-- The second. -/
def right : Twin → Request
  | reallocNull size _ => .malloc size
  | reallocZero p => .free p
  | calloc nmemb size _ => .malloc (nmemb * size)

/-- What both return. -/
def result : Twin → Option ℕ
  | reallocNull _ q | calloc _ _ q => some q
  | reallocZero _ => none

/-- When the two account alike: never, when there is no record at all, and always. -/
def Agree (w : World) : Twin → Prop
  | reallocNull _ _ => False
  | reallocZero _ => w.records = []
  | calloc _ _ _ => True

end Twin

/-! ### What the parts of a call do to the books -/

namespace World

variable {w w₁ w' : World} {u : Unit} {ptr nptr calladdr : ℕ} {size : UInt64} {r : Option ℕ}

/-- The real allocator does nothing to the books. -/
theorem malloc_books (h : w.Malloc size r w') : w'.records = w.records ∧ w'.stats = w.stats := by
  rcases h with ⟨-, rfl⟩ | ⟨a, -, -, rfl⟩ <;> exact ⟨rfl, rfl⟩

theorem realloc_books {asked : UInt64} (h : w.Realloc ptr size asked r w') :
    w'.records = w.records ∧ w'.stats = w.stats := by
  rw [Realloc] at h
  cases hlive : w.live.lookup ptr with
  | none =>
    rw [hlive] at h
    exact malloc_books h
  | some old =>
    rw [hlive] at h
    rcases h with ⟨-, rfl⟩ | ⟨-, -, rfl⟩ | ⟨a, -, -, rfl⟩ <;> exact ⟨rfl, rfl⟩

theorem ne_zero_of_enabled (r : ℕ) (w₁ : World) (h : Exec w .enabled r w₁) : r ≠ 0 ∧ w₁ = w := h

theorem runs_newRecord {mem : Memalloc}
    (h : Runs Exec w (Tracker.newRecord ptr calladdr size) mem w') :
    (mem.ptr, mem.size) = (ptr, size) ∧ w' = w := by
  obtain ⟨r, w₁, ⟨hr, rfl⟩, hrest⟩ := h
  cases r with
  | none => exact absurd rfl hr
  | some addr =>
    obtain ⟨-, w₂, rfl, rfl, rfl⟩ := hrest
    exact ⟨rfl, rfl⟩

theorem runs_trackNew (h : Runs Exec w (Tracker.trackNew calladdr size (some ptr)) r w') :
    ∃ mem : Memalloc, (mem.ptr, mem.size) = (ptr, size) ∧
      w' = ⟨w.live, (ptr, mem) :: w.records, ⟨w.stats.reserved + size,
        w.stats.activeReserved + size, w.stats.alloc + 1, w.stats.activeAlloc + 1⟩⟩ := by
  obtain ⟨_, w₁, hnew, -, rfl⟩ := runs_bind_iff.mp h
  have hrest := Tracker.runs_of_enabled ne_zero_of_enabled hnew
  obtain ⟨mem, w₃, hmem, hbooks⟩ := runs_bind_iff.mp hrest
  obtain ⟨hfields, rfl⟩ := runs_newRecord hmem
  obtain ⟨_, _, rfl, _, _, rfl, _, _, rfl, _, _, rfl, _, _, rfl, -, rfl⟩ := hbooks
  exact ⟨mem, hfields, rfl⟩

theorem runs_trackMoved (h : Runs Exec w (Tracker.trackMoved calladdr ptr size (some nptr)) r w') :
    w'.stats.alloc = w.stats.alloc ∧ w'.stats.activeAlloc = w.stats.activeAlloc := by
  obtain ⟨_, w₁, hmoved, -, rfl⟩ := runs_bind_iff.mp h
  have hrest := Tracker.runs_of_enabled ne_zero_of_enabled hmoved
  obtain ⟨old, w₃, ⟨-, rfl⟩, hlink⟩ := runs_perform_iff.mp hrest
  obtain ⟨mem, w₄, hmem, hbooks⟩ := runs_bind_iff.mp hlink
  obtain ⟨-, rfl⟩ := runs_newRecord hmem
  cases old with
  | none =>
    obtain ⟨_, _, rfl, _, _, rfl, _, _, rfl, -, rfl⟩ := hbooks
    exact ⟨rfl, rfl⟩
  | some old =>
    obtain ⟨_, _, rfl, _, _, rfl, _, _, rfl, _, _, rfl, _, _, rfl, _, _, rfl, -, rfl⟩ := hbooks
    exact ⟨rfl, rfl⟩

/-- What `free` does to the books: all records go, when there is none for the pointer. -/
theorem runs_forget (h : Runs Exec w (Tracker.forget ptr) u w') :
    (w.records.lookup ptr = none ∧ w'.records = [] ∧ w'.stats = w.stats) ∨
      ((w.records.lookup ptr).isSome ∧ w'.stats.activeAlloc = w.stats.activeAlloc - 1) := by
  have hrest := Tracker.runs_of_enabled ne_zero_of_enabled h
  obtain ⟨r, w₂, ⟨hr, rfl⟩, hdeleted⟩ := runs_perform_iff.mp hrest
  cases r with
  | none =>
    obtain ⟨_, _, rfl, _, _, rfl, -, rfl⟩ := hdeleted
    exact .inl ⟨hr.symm, rfl, rfl⟩
  | some mem =>
    obtain ⟨_, _, rfl, _, _, rfl, _, _, rfl, -, rfl⟩ := hdeleted
    exact .inr ⟨by rw [← hr]; rfl, rfl⟩

end World

/-! ### Pairs of calls -/

section

variable {w w₁ w₂ : World} {a₁ a₂ p q : ℕ} {nmemb size : UInt64}

/-- The books with one block of `size` bytes at `q` more. -/
structure OneMore (w : World) (q : ℕ) (size : UInt64) (w₁ : World) : Prop where
  stats : w₁.stats = ⟨w.stats.reserved + size, w.stats.activeReserved + size, w.stats.alloc + 1,
    w.stats.activeAlloc + 1⟩
  book : w₁.book = Function.update w.book q (some (q, size))

theorem OneMore.sameBooks (h₁ : OneMore w q size w₁) (h₂ : OneMore w q size w₂) :
    SameBooks w₁ w₂ :=
  ⟨h₁.stats.trans h₂.stats.symm, h₁.book.trans h₂.book.symm⟩

theorem oneMore_of_trackNew {w' : World} (hbooks : w'.records = w.records ∧ w'.stats = w.stats)
    (h : Runs World.Exec w' (Tracker.trackNew a₁ size (some q)) (some q) w₁) :
    OneMore w q size w₁ := by
  obtain ⟨hrecords, hstats⟩ := hbooks
  obtain ⟨mem, hfields, rfl⟩ := World.runs_trackNew h
  refine ⟨by rw [hstats], funext fun key => ?_⟩
  rw [World.book, hrecords, List.lookup_cons]
  by_cases hkey : key = q
  · rw [hkey, Function.update_self, beq_self_eq_true, ← hfields]
    rfl
  · rw [Function.update_of_ne hkey, beq_eq_false_iff_ne.mpr hkey]
    rfl

theorem oneMore_of_malloc (h : Runs World.Exec w ((Request.malloc size).program a₁) (some q) w₁) :
    OneMore w q size w₁ := by
  have hbody := Tracker.runs_guarded World.ne_zero_of_enabled h
  obtain ⟨s, w', hmalloc, htrack⟩ := runs_perform_iff.mp hbody
  obtain rfl := Tracker.trackNew_result htrack
  exact oneMore_of_trackNew (World.malloc_books hmalloc) htrack

theorem oneMore_of_calloc
    (h : Runs World.Exec w ((Request.calloc nmemb size).program a₁) (some q) w₁) :
    OneMore w q (nmemb * size) w₁ := by
  have hbody := Tracker.runs_guarded World.ne_zero_of_enabled h
  obtain ⟨s, w', hrealloc, htrack⟩ := runs_perform_iff.mp hbody
  obtain rfl := Tracker.trackNew_result htrack
  rw [UInt64.mul_comm]
  exact oneMore_of_trackNew (World.realloc_books hrealloc) htrack

theorem uncounted_of_realloc
    (h : Runs World.Exec w ((Request.realloc p size).program a₁) (some q) w₁) :
    w₁.stats.alloc = w.stats.alloc ∧ w₁.stats.activeAlloc = w.stats.activeAlloc := by
  have hbody := Tracker.runs_guarded World.ne_zero_of_enabled h
  obtain ⟨s, w', hrealloc, htrack⟩ := runs_perform_iff.mp hbody
  obtain ⟨-, hstats⟩ := World.realloc_books hrealloc
  cases s with
  | none => exact absurd htrack.1 (Option.some_ne_none q)
  | some nptr =>
    obtain ⟨halloc, hactive⟩ := World.runs_trackMoved htrack
    rw [halloc, hactive, hstats]
    exact ⟨rfl, rfl⟩

/-- **A `realloc` of `NULL`** and a `malloc` never account alike. -/
theorem unlike_of_reallocNull
    (h₁ : Runs World.Exec w ((Request.realloc p size).program a₁) (some q) w₁)
    (h₂ : Runs World.Exec w ((Request.malloc size).program a₂) (some q) w₂) :
    ¬ SameBooks w₁ w₂ := by
  intro hsame
  have hcounted : w₂.stats.alloc = w.stats.alloc + 1 := by rw [(oneMore_of_malloc h₂).stats]
  have hsucc : w.stats.alloc + 1 = w.stats.alloc := by
    rw [← hcounted, ← hsame.stats, (uncounted_of_realloc h₁).1]
  simp at hsucc

theorem books_of_realloc_none
    (h : Runs World.Exec w ((Request.realloc p size).program a₁) none w₁) :
    w₁.records = w.records ∧ w₁.stats = w.stats := by
  have hbody := Tracker.runs_guarded World.ne_zero_of_enabled h
  obtain ⟨s, w', hrealloc, htrack⟩ := runs_perform_iff.mp hbody
  cases s with
  | none =>
    rw [htrack.2]
    exact World.realloc_books hrealloc
  | some nptr =>
    obtain ⟨_, _, -, hnone, -⟩ := runs_bind_iff.mp htrack
    exact absurd hnone.symm (Option.some_ne_none nptr)

theorem book_eq_nil_iff : (∀ key, w.book key = none) ↔ w.records = [] := by
  constructor
  · intro hnone
    cases hrecords : w.records with
    | nil => rfl
    | cons r l =>
      have hfirst := hnone r.1
      rw [World.book, hrecords, List.lookup_cons_self] at hfirst
      exact absurd hfirst (Option.some_ne_none _)
  · intro hrecords key
    rw [World.book, hrecords]
    rfl

/-- **A `realloc` to zero bytes** that returns `NULL`, and a `free`. -/
theorem alike_reallocZero_iff (h₁ : Runs World.Exec w ((Request.realloc p 0).program a₁) none w₁)
    (h₂ : Runs World.Exec w ((Request.free p).program a₂) none w₂) :
    SameBooks w₁ w₂ ↔ w.records = [] := by
  obtain ⟨hrecords₁, hstats₁⟩ := books_of_realloc_none h₁
  obtain ⟨_, w₃, hfree, -, rfl⟩ := runs_bind_iff.mp h₂
  have hbody := Tracker.runs_guarded World.ne_zero_of_enabled hfree
  obtain ⟨_, w₄, hforget, _, _, rfl, -, rfl⟩ := runs_bind_iff.mp hbody
  rcases World.runs_forget hforget with ⟨hnone, hrecords, hstats⟩ | ⟨hsome, hactive⟩
  · have hbook : ∀ key, (w₄.release p).book key = none := book_eq_nil_iff.mpr hrecords
    constructor
    · intro hsame
      have hw₁ : ∀ key, w₁.book key = none := fun key => (congrFun hsame.book key).trans (hbook key)
      rw [← hrecords₁]
      exact book_eq_nil_iff.mp hw₁
    · intro hempty
      refine ⟨hstats₁.trans hstats.symm, funext fun key => ?_⟩
      rw [hbook key]
      exact book_eq_nil_iff.mpr (hrecords₁.trans hempty) key
  · have hne : w.records ≠ [] := by
      rintro hempty
      rw [hempty] at hsome
      exact absurd hsome Bool.false_ne_true
    refine iff_of_false (fun hsame => ?_) hne
    have hless : w.stats.activeAlloc - 1 = w.stats.activeAlloc := by
      rw [← hactive, ← hstats₁, hsame.stats]
      rfl
    have hsucc := congrArg (· + 1) hless
    simp at hsucc

/-- **Two calls for one thing account alike** exactly when they are a `calloc` and a `malloc`, or a
`realloc` to zero bytes and a `free` while there is no record at all. -/
theorem alike_iff (t : Twin) (h₁ : Runs World.Exec w (t.left.program a₁) t.result w₁)
    (h₂ : Runs World.Exec w (t.right.program a₂) t.result w₂) : SameBooks w₁ w₂ ↔ t.Agree w := by
  cases t with
  | reallocNull size q => exact iff_of_false (unlike_of_reallocNull h₁ h₂) id
  | reallocZero p => exact alike_reallocZero_iff h₁ h₂
  | calloc nmemb size q =>
    exact iff_of_true ((oneMore_of_calloc h₁).sameBooks (oneMore_of_malloc h₂)) trivial

end

/-! ### The first call -/

/-- What a `malloc(8)` or a `calloc(2, 4)` that gets the address 4096 leaves behind. -/
def firstBlock : World :=
  ⟨[(4096, 8)], [(4096, ⟨65536, 4096, 1024, 0, 0, 8⟩)], ⟨8, 8, 1, 1⟩⟩

theorem first_malloc : Runs World.Exec World.empty ((Request.malloc 8).program 1024) (some 4096)
    firstBlock :=
  ⟨1, _, ⟨by decide, rfl⟩, some 4096, _,
    .inr ⟨4096, rfl, ⟨by decide, by decide, by decide⟩, rfl⟩, 1, _, ⟨by decide, rfl⟩,
    some 65536, _, ⟨by decide, rfl⟩, (0, 0), _, rfl, (), _, rfl, (), _, rfl, (), _, rfl, (), _,
    rfl, (), _, rfl, rfl, rfl⟩

theorem alike_iff_calloc : SameBooks firstBlock firstBlock := by
  have hcalloc : Runs World.Exec World.empty ((Request.calloc 2 4).program 1024) (some 4096)
      firstBlock :=
    ⟨1, _, ⟨by decide, rfl⟩, some 4096, _,
      .inr ⟨4096, rfl, ⟨by decide, by decide, by decide⟩, rfl⟩, 1, _, ⟨by decide, rfl⟩,
      some 65536, _, ⟨by decide, rfl⟩, (0, 0), _, rfl, (), _, rfl, (), _, rfl, (), _, rfl, (), _,
      rfl, (), _, rfl, rfl, rfl⟩
  exact (alike_iff (.calloc 2 4 4096) hcalloc first_malloc).mpr trivial

/-- **The first call of a program**, `realloc(NULL, 8)` or `malloc(8)`, when the real allocator
answers 4096. -/
theorem realloc_null_unlike : Reached World.Exec World.empty ∧ ∃ w₁ w₂,
    Runs World.Exec World.empty ((Request.realloc 0 8).program 1024) (some 4096) w₁ ∧
      Runs World.Exec World.empty ((Request.malloc 8).program 1024) (some 4096) w₂ ∧
      ¬ SameBooks w₁ w₂ := by
  refine ⟨.start, { firstBlock with stats := ⟨8, 8, 0, 0⟩ }, firstBlock, ?_, first_malloc, ?_⟩
  · exact ⟨1, _, ⟨by decide, rfl⟩, some 4096, _,
      .inr ⟨4096, rfl, ⟨by decide, by decide, by decide⟩, rfl⟩, 1, _, ⟨by decide, rfl⟩, none, _,
      ⟨rfl, rfl⟩, some 65536, _, ⟨by decide, rfl⟩, (0, 0), _, rfl, (), _, rfl, (), _, rfl, (), _,
      rfl, rfl, rfl⟩
  · exact fun hsame => absurd hsame.stats (by decide)

end Milu
