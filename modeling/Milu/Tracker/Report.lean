import Milu.Hashtbl.Lossless
import Milu.Hashtbl.Traversal
import Milu.Tracker.Basic

/-!
# The leak report

`mem_report` prints the statistics and then walks the table, printing for each record where it was
allocated, its size, its address, and the frames of its backtrace. The loop over the frames runs on
`i`, the variable that also counts the buckets of the walk.

A wrong `i` does no harm in the middle of a chain: the test of the inner loop compares a node with
the head of *some* bucket, and the answer is no. At the end of the chain it has to be the head of
*this* bucket. There `i` is what the last record of the chain left in it, the number of its frames.
When that is another number the walk takes the head of the bucket for one more record.

A record whose backtrace could not be stored has frames all the same: `bt` is `NULL` and `bt_size`
is what `backtrace` counted. The loop over the frames looks for the first of them at `NULL`.

## Main definitions

* `ReportLine`, `RecordMem` — what is printed, and the records behind the entries
* `reportBody`, `recordLines`, `summary` — the report
* `Reported` — every record once, with its frames
* `LastDepths` — the last record of each bucket has as many frames as the bucket's number
* `AllTraced` — no record has frames and no backtrace

## Main results

* `Reporting.step`, `report_run` — one step of the loops, and all of them
* `report_iff` — when the report is complete and ends
* `report_lost` — one record with five frames, in bucket `6`
-/

namespace Milu

variable {K : Type}

/-! ### The report -/

/-- What one call of `fprintf` prints. -/
inductive ReportLine
  /-- One of the totals, such as `Total Allocations:%lu`. -/
  | total (label : String) (n : UInt64)
  /-- `Memory Leaks Found: SUMMARY`. -/
  | heading
  /-- `Allocation made at %lu for %ld bytes`. -/
  | leak (calladdr : ℕ) (size : UInt64)
  /-- `Unallocation ptr to heap address: %p`. -/
  | place (ptr : ℕ)
  /-- `[FRAME %d] %s`. -/
  | frame (i : ℕ) (symbol : String)
  /-- Two line ends. -/
  | blank
  deriving DecidableEq, Repr

/-- The memory behind the table: the record around an entry, whose `bt_size` is a `uint8_t`, and the
strings an array of symbols points to. -/
structure RecordMem (K : Type) where
  mem : HashEntry K → Memalloc
  btSize_lt : ∀ e, (mem e).btSize < 2 ^ 8
  symbol : ℕ → ℕ → String

/-- What `mem_report` prints first. -/
def summary (stats : Memstats) : List ReportLine :=
  [.total "Total Allocations:" stats.alloc, .total "Unfreed Allocations:" stats.activeAlloc,
    .total "Total Memory Reserved: " stats.reserved,
    .total "Total Unfreed Memory: " stats.activeReserved, .heading]

/-- `mem->bt[i]`, printed. There is nothing at `NULL`. -/
def RecordMem.frame (M : RecordMem K) (bt i : ℕ) : Option ReportLine :=
  if bt = 0 then none else some (.frame i (M.symbol bt i))

/-- The loop over the frames of a record. -/
def RecordMem.frames (M : RecordMem K) (mem : Memalloc) : Option (List ReportLine) :=
  (List.range mem.btSize).mapM (M.frame mem.bt)

/-- The body of the loop in `mem_report`. The loop over the frames starts `i` at zero and leaves it
at the number of frames. -/
def reportBody (M : RecordMem K) (pos : Pos K) (_ : ℕ) :
    StateT (HashTable K × List ReportLine) Option ℕ :=
  fun (h, out) =>
    match pos with
    | .head _ => none
    | .node entry => do
      let mem := M.mem entry
      let frames ← M.frames mem
      some (mem.btSize, h, out ++
        ([.leak mem.calladdr mem.size, .place mem.ptr] ++ frames ++ [.blank]))

/-- What the report should print for one record: where and how much, and each of its frames. -/
def recordLines (M : RecordMem K) (entry : HashEntry K) : List ReportLine :=
  let mem := M.mem entry
  [.leak mem.calladdr mem.size, .place mem.ptr] ++
    (List.range mem.btSize).map (fun i => .frame i (M.symbol mem.bt i)) ++ [.blank]

/-- The report ends with the table unchanged, has printed every record once, in the order of the
walk, each with its frames, and never takes the head of a bucket for a record. -/
structure Reported (M : RecordMem K) (stats : Memstats) (h : HashTable K) : Prop where
  returns : ∃ fuel,
    forEachSafe failure (Prod.fst <$> get) (reportBody M) fuel 0 none (h, summary stats) =
      some ((), h, summary stats ++ h.entries.flatMap (recordLines M))
  records : ∀ w, Walk.Reaches Prod.fst (reportBody M) ⟨0, none, (h, summary stats)⟩ w →
    ∀ pos n, w.cur = some (pos, n) → pos.isHead w.hti = false → ∃ e ∈ h.entries, pos = .node e

/-- The last record of bucket `j` has `j` frames. -/
def LastDepth (M : RecordMem K) (h : HashTable K) (j : ℕ) : Prop :=
  ∀ e, (h.table j).getLast? = some e → (M.mem e).btSize = j

/-- The last record of each bucket has as many frames as the bucket's number. -/
def LastDepths (M : RecordMem K) (h : HashTable K) : Prop := ∀ j < h.buckets, LastDepth M h j

/-- A record without a backtrace has no frames. -/
def Memalloc.Traced (mem : Memalloc) : Prop := mem.bt = 0 → mem.btSize = 0

/-- No record has frames and no backtrace. -/
def AllTraced (M : RecordMem K) (h : HashTable K) : Prop := ∀ e ∈ h.entries, (M.mem e).Traced

/-! ### One step -/

section

variable {M : RecordMem K} {stats : Memstats} {h : HashTable K}

/-- The loop variable, when the records `l` of bucket `j` have been printed. -/
def loopVar (M : RecordMem K) (j : ℕ) (l : List (HashEntry K)) : ℕ :=
  (l.getLast?.map fun e => (M.mem e).btSize).getD j

/-- All frames of bucket `j` are there, and its last record has `j` of them. -/
structure Readable (M : RecordMem K) (h : HashTable K) (j : ℕ) : Prop where
  lastDepth : LastDepth M h j
  traced : ∀ e ∈ h.table j, (M.mem e).Traced

/-- The report under way, with the number of steps that are left. The buckets before this one were
left with the right loop variable, and all frames were there so far. -/
inductive Reporting (M : RecordMem K) (stats : Memstats) (h : HashTable K) :
    ℕ → Walk K (HashTable K × List ReportLine) → Prop
  | outer (j : ℕ) : j ≤ h.buckets → (∀ i < j, Readable M h i) →
      Reporting M stats h (h.stepsFrom j) ⟨j, none, (h,
        summary stats ++ ((List.range j).flatMap h.table).flatMap (recordLines M))⟩
  | inner (j : ℕ) (l c : List (HashEntry K)) (n : Pos K) : j < h.buckets →
      (∀ i < j, Readable M h i) → (∀ e ∈ l, (M.mem e).Traced) → h.table j = l ++ c →
      (c ≠ [] → n = Pos.first j c.tail) →
      Reporting M stats h (c.length + 1 + h.stepsFrom (j + 1))
        ⟨loopVar M j l, some (Pos.first j c, n), (h,
          summary stats ++ ((List.range j).flatMap h.table ++ l).flatMap (recordLines M))⟩

theorem readable_iff : (∀ j < h.buckets, Readable M h j) ↔ LastDepths M h ∧ AllTraced M h := by
  constructor
  · intro hall
    refine ⟨fun j hj => (hall j hj).lastDepth, fun e he => ?_⟩
    obtain ⟨j, hj, he⟩ := HashTable.mem_entries_iff.mp he
    exact (hall j hj).traced e he
  · rintro ⟨hdepths, htraced⟩ j hj
    exact ⟨hdepths j hj, fun e he => htraced e (HashTable.mem_entries_iff.mpr ⟨j, hj, he⟩)⟩

/-- The loop over the frames runs to its end when there is a backtrace, or no frame. -/
theorem frames_traced {mem : Memalloc} (ht : mem.Traced) :
    M.frames mem = some ((List.range mem.btSize).map fun i => .frame i (M.symbol mem.bt i)) := by
  rw [RecordMem.frames]
  by_cases hbt : mem.bt = 0
  · rw [ht hbt]
    rfl
  · have hframe : M.frame mem.bt = fun i => pure (.frame i (M.symbol mem.bt i)) := by
      funext i
      exact if_neg hbt
    rw [hframe, List.mapM_pure]
    rfl

/-- It is lost at the first frame otherwise. -/
theorem frames_untraced {mem : Memalloc} (ht : ¬ mem.Traced) : M.frames mem = none := by
  rw [Memalloc.Traced, Classical.not_imp] at ht
  obtain ⟨hbt, hsize⟩ := ht
  obtain ⟨n, hn⟩ := Nat.exists_eq_add_one_of_ne_zero hsize
  rw [RecordMem.frames, hn, List.range_succ_eq_map, List.mapM_cons, RecordMem.frame, if_pos hbt]
  rfl

theorem reportBody_traced {e : HashEntry K} (ht : (M.mem e).Traced) (i : ℕ)
    (out : List ReportLine) :
    reportBody M (.node e) i (h, out) = some ((M.mem e).btSize, h, out ++ recordLines M e) := by
  show (M.frames (M.mem e)).bind _ = _
  rw [frames_traced ht]
  rfl

theorem reportBody_untraced {e : HashEntry K} (ht : ¬ (M.mem e).Traced) (i : ℕ)
    (s : HashTable K × List ReportLine) : reportBody M (.node e) i s = none := by
  show (M.frames (M.mem e)).bind _ = _
  rw [frames_untraced ht]
  rfl

theorem next_chain (hn : (h.entries.map HashEntry.addr).Nodup) {j : ℕ} (hj : j < h.buckets)
    (hset : j < h.heads) {l c : List (HashEntry K)} (hc : h.table j = l ++ c) :
    ∃ n, h.next (Pos.first j c) = some n ∧ (c ≠ [] → n = Pos.first j c.tail) := by
  cases c with
  | nil => exact ⟨_, HashTable.next_head hset, fun hne => absurd rfl hne⟩
  | cons e c => exact ⟨_, HashTable.next_node hn hj hc, fun _ => rfl⟩

/-- The loop variable at the end of a chain is right exactly when the last record has that many
frames. -/
theorem loopVar_eq_iff {j : ℕ} : loopVar M j (h.table j) = j ↔ LastDepth M h j := by
  rw [loopVar, LastDepth]
  cases (h.table j).getLast? with
  | none => simp
  | some e => simp

/-- **One step of the loops** leads on, or to the end of the report, or astray: at the end of a
chain, or at a record without a backtrace. -/
theorem Reporting.step (hn : (h.entries.map HashEntry.addr).Nodup) (hlt : h.buckets < 2 ^ 32)
    {k : ℕ} {w : Walk K (HashTable K × List ReportLine)} (hw : Reporting M stats h k w) :
    (∃ k' w', w.step Prod.fst (reportBody M) = some (.inl w') ∧ Reporting M stats h k' w' ∧
        k' < k) ∨
      (∃ s, w.step Prod.fst (reportBody M) = some (.inr s) ∧
        s = (h, summary stats ++ h.entries.flatMap (recordLines M)) ∧
          ∀ j < h.buckets, Readable M h j) ∨
      w.step Prod.fst (reportBody M) = none ∧ ¬ ∀ j < h.buckets, Readable M h j := by
  have hheads : ∀ {j}, j < h.buckets → j < h.heads := fun hj =>
    (HashTable.heads_eq (Nat.zero_lt_of_lt hj) hlt.le).symm ▸ hj
  cases hw with
  | outer j hj hgood =>
    rcases Nat.lt_or_eq_of_le hj with hj | rfl
    · -- into the bucket
      left
      obtain ⟨n, hnext, hfirst⟩ := next_chain hn hj (hheads hj) (l := []) (c := h.table j) rfl
      have hhead : h.next (.head j) = some (Pos.first j (h.table j)) :=
        HashTable.next_head (hheads hj)
      refine ⟨_, _, ?_, .inner j [] (h.table j) n hj hgood (List.forall_mem_nil _) rfl hfirst, ?_⟩
      · simp only [Walk.step, if_pos hj, hhead, Option.bind_some, hnext, Option.map_some,
          List.append_nil, loopVar, List.getLast?_nil, Option.map_none, Option.getD_none]
      · rw [stepsFrom_eq hj]
        omega
    · -- out of the table
      right
      left
      exact ⟨_, if_neg (Nat.lt_irrefl h.buckets), rfl, hgood⟩
  | inner j l c n hj hgood htraced hc hfirst =>
    cases c with
    | nil =>
      rw [List.append_nil] at hc
      subst hc
      by_cases hvar : loopVar M j (h.table j) = j
      · -- on to the next bucket
        left
        have hmod : (j + 1) % 2 ^ 32 = j + 1 := Nat.mod_eq_of_lt (by omega)
        have hgood' : ∀ i < j + 1, Readable M h i := by
          intro i hi
          rcases Nat.lt_succ_iff_lt_or_eq.mp hi with hi | rfl
          · exact hgood i hi
          · exact ⟨loopVar_eq_iff.mp hvar, htraced⟩
        refine ⟨_, _, ?_, .outer (j + 1) hj hgood', Nat.lt_add_of_pos_left (Nat.succ_pos _)⟩
        simp only [Walk.step, Pos.first, hvar, Pos.isHead, beq_self_eq_true, if_true, hmod,
          List.range_succ, List.flatMap_append, List.flatMap_singleton]
      · -- the head of the bucket is taken for a record
        right
        right
        refine ⟨?_, fun hall => hvar (loopVar_eq_iff.mpr (hall j hj).lastDepth)⟩
        have hhead : (Pos.head j : Pos K).isHead (loopVar M j (h.table j)) = false := by
          simpa [Pos.isHead] using Ne.symm hvar
        simp only [Walk.step, Pos.first, hhead, Bool.false_eq_true, if_false]
        rfl
    | cons e c =>
      have hpos : Pos.first j (e :: c) = .node e := rfl
      by_cases he : (M.mem e).Traced
      · -- a record is printed
        left
        have hc' : h.table j = (l ++ [e]) ++ c := by simp [hc]
        obtain ⟨n', hnext, hfirst'⟩ := next_chain hn hj (hheads hj) hc'
        have hvar : loopVar M j (l ++ [e]) = (M.mem e).btSize := by
          simp [loopVar]
        have htraced' : ∀ t ∈ l ++ [e], (M.mem t).Traced :=
          List.forall_mem_append.mpr ⟨htraced, List.forall_mem_singleton.mpr he⟩
        refine ⟨_, _, ?_, .inner j (l ++ [e]) c n' hj hgood htraced' hc' hfirst', ?_⟩
        · rw [hfirst (by simp), List.tail_cons]
          simp only [Walk.step, hpos, Pos.isHead, Bool.false_eq_true, if_false,
            reportBody_traced he, Option.bind_some, hnext, Option.map_some, hvar,
            List.flatMap_append, List.flatMap_singleton, List.append_assoc]
        · rw [List.length_cons]
          omega
      · -- its first frame is looked for at `NULL`
        right
        right
        refine ⟨?_, fun hall => he ((hall j hj).traced e (by simp [hc]))⟩
        simp only [Walk.step, hpos, Pos.isHead, Bool.false_eq_true, if_false,
          reportBody_untraced he, Option.bind_none]

theorem reporting_start : Reporting M stats h (h.stepsFrom 0) ⟨0, none, (h, summary stats)⟩ := by
  have hstart : Reporting M stats h _ _ := .outer 0 (Nat.zero_le _)
    fun i hi => absurd hi (Nat.not_lt_zero i)
  rw [List.range_zero, List.flatMap_nil, List.flatMap_nil, List.append_nil] at hstart
  exact hstart

/-- The cursor is an entry of the table as long as the body runs. -/
theorem Reporting.record (hall : ∀ j < h.buckets, Readable M h j) {k : ℕ}
    {w : Walk K (HashTable K × List ReportLine)} (hw : Reporting M stats h k w) {pos n : Pos K}
    (hcur : w.cur = some (pos, n)) (hbody : pos.isHead w.hti = false) :
    ∃ e ∈ h.entries, pos = .node e := by
  cases hw with
  | outer j hj hgood => exact absurd hcur (Option.some_ne_none _).symm
  | inner j l c n' hj hgood htraced hc hfirst =>
    rw [Option.some.injEq, Prod.mk.injEq] at hcur
    obtain ⟨rfl, rfl⟩ := hcur
    cases c with
    | nil =>
      rw [List.append_nil] at hc
      subst hc
      have hvar : loopVar M j (h.table j) = j := loopVar_eq_iff.mpr (hall j hj).lastDepth
      simp [Pos.first, Pos.isHead, hvar] at hbody
    | cons e c =>
      exact ⟨e, HashTable.mem_entries_iff.mpr ⟨j, hj, by simp [hc]⟩, rfl⟩

/-! ### The whole report -/

/-- The body of the loop leaves the table alone, and at most `255` in the loop variable. -/
theorem reportBody_keeps {pos : Pos K} {i : ℕ} {s : HashTable K × List ReportLine}
    {r : ℕ × HashTable K × List ReportLine} (hr : reportBody M pos i s = some r) :
    r.2.1.buckets = s.1.buckets ∧ (i < 2 ^ 32 → r.1 < 2 ^ 32) := by
  cases pos with
  | head j => exact absurd hr (Option.some_ne_none r).symm
  | node e =>
    by_cases ht : (M.mem e).Traced
    · rw [reportBody_traced ht] at hr
      obtain rfl := Option.some.inj hr
      exact ⟨rfl, fun _ => (M.btSize_lt e).trans (by decide)⟩
    · rw [reportBody_untraced ht] at hr
      exact absurd hr (Option.some_ne_none r).symm

/-- **The report runs to its end** with the right loop variables and all frames, and goes astray
otherwise. -/
theorem report_run (M : RecordMem K) (stats : Memstats)
    (hn : (h.entries.map HashEntry.addr).Nodup) (hlt : h.buckets < 2 ^ 32) :
    ((∀ fuel, h.stepsFrom 0 < fuel →
        forEachSafe failure (Prod.fst <$> get) (reportBody M) fuel 0 none (h, summary stats) =
          some ((), h, summary stats ++ h.entries.flatMap (recordLines M))) ∧
            LastDepths M h ∧ AllTraced M h) ∨
      (∀ fuel, forEachSafe failure (Prod.fst <$> get) (reportBody M) fuel 0 none
        (h, summary stats) = none) ∧ ¬ (LastDepths M h ∧ AllTraced M h) := by
  rw [← readable_iff]
  rcases forEachSafe_outcome (fun k w (hw : Reporting M stats h k w) => hw.step hn hlt) _ _
    reporting_start with hreturns | hlost
  · left
    obtain ⟨s, -, -, hall⟩ := hreturns _ (Nat.lt_succ_self _)
    refine ⟨fun fuel hfuel => ?_, hall⟩
    obtain ⟨s, hrun, rfl, -⟩ := hreturns fuel hfuel
    exact hrun
  · exact .inr hlost

/-- With more buckets than an `unsigned int` can count the report does not end. -/
theorem report_wraps (M : RecordMem K) (stats : Memstats) (hge : 2 ^ 32 ≤ h.buckets) (fuel : ℕ) :
    forEachSafe failure (Prod.fst <$> get) (reportBody M) fuel 0 none (h, summary stats) = none :=
  forEachSafe_wraps reportBody_keeps fuel hge (by decide)

theorem Reported.readable (hn : (h.entries.map HashEntry.addr).Nodup)
    (hr : Reported M stats h) : h.buckets < 2 ^ 32 ∧ LastDepths M h ∧ AllTraced M h := by
  obtain ⟨fuel, hrun⟩ := hr.returns
  have hlt : h.buckets < 2 ^ 32 := by
    by_contra hge
    exact absurd (hrun.symm.trans (report_wraps M stats (Nat.not_lt.mp hge) fuel))
      (Option.some_ne_none _)
  refine ⟨hlt, ?_⟩
  rcases report_run M stats hn hlt with ⟨-, hall⟩ | ⟨hlost, -⟩
  · exact hall
  · exact absurd (hrun.symm.trans (hlost fuel)) (Option.some_ne_none _)

/-- The walks of a report with the right loop variables. -/
theorem reporting_of_reaches (hn : (h.entries.map HashEntry.addr).Nodup)
    (hlt : h.buckets < 2 ^ 32) {w : Walk K (HashTable K × List ReportLine)}
    (hreach : Walk.Reaches Prod.fst (reportBody M) ⟨0, none, (h, summary stats)⟩ w) :
    ∃ k, Reporting M stats h k w := by
  refine hreach.invariant (I := fun w => ∃ k, Reporting M stats h k w) ?_ ⟨_, reporting_start⟩
  rintro w w' ⟨k, hw⟩ hstep
  rcases hw.step hn hlt with ⟨k', w₁, hstep₁, hw₁, -⟩ | ⟨s, hlast, -⟩ | ⟨hnone, -⟩
  · rw [hstep, Option.some.injEq, Sum.inl.injEq] at hstep₁
    exact ⟨k', hstep₁ ▸ hw₁⟩
  · simp [hstep] at hlast
  · simp [hstep] at hnone

/-- With the right loop variables and all frames the report is complete and ends. -/
theorem reported_of_readable (hn : (h.entries.map HashEntry.addr).Nodup) (hlt : h.buckets < 2 ^ 32)
    (hall : LastDepths M h ∧ AllTraced M h) : Reported M stats h := by
  constructor
  · rcases report_run M stats hn hlt with ⟨hreturns, -⟩ | ⟨-, hbad⟩
    · exact ⟨_, hreturns _ (Nat.lt_succ_self _)⟩
    · exact absurd hall hbad
  · intro w hreach pos n hcur hbody
    obtain ⟨k, hw⟩ := reporting_of_reaches hn hlt hreach
    exact hw.record (readable_iff.mpr hall) hcur hbody

/-- **The report is complete and ends** exactly when a `uint32_t` can count the buckets, the last
record of each bucket has as many frames as the bucket's number, and no record has frames and no
backtrace. -/
theorem report_iff (M : RecordMem K) (stats : Memstats) {h : HashTable K}
    (hn : (h.entries.map HashEntry.addr).Nodup) :
    Reported M stats h ↔ h.buckets < 2 ^ 32 ∧ LastDepths M h ∧ AllTraced M h := by
  constructor
  · exact Reported.readable hn
  · rintro ⟨hlt, hall⟩
    exact reported_of_readable hn hlt hall

end

/-! ### Three records, and one -/

/-- Records on one chain: the front one has three frames, the next one no backtrace and no frame,
the last one five frames. -/
def unevenFrames : RecordMem ℕ where
  mem e :=
    let (depth, bt) := if e.addr = 300 then (3, 4096) else if e.addr =
      200 then (0, 0) else (5, 2048)
    ⟨e.addr - 40, e.key, 1024, depth, bt, 8⟩
  btSize_lt e := by
    dsimp only
    split_ifs <;> decide
  symbol _ _ := "main"

/-- The chain is that of bucket `5`. -/
theorem report_iff_crowded : crowdedTable.table 5 = crowdedTable.entries ∧
    crowdedTable.entries.length = 3 ∧ Reported unevenFrames Memstats.zero crowdedTable := by
  refine ⟨by decide, by decide, ?_⟩
  refine (report_iff unevenFrames Memstats.zero crowdedTable_placed.nodup).mpr
    ⟨by decide, fun j hj e he => ?_, ?_⟩
  · have hmem := List.mem_of_getLast? he
    have hhome := crowdedTable_placed.home_eq j e hmem
    have hentry := crowdedTable_placed.mem_entries hmem
    rw [crowdedTable_entries] at hentry
    have hfive : ∀ t ∈ [(⟨300, 5, 9, true⟩ : HashEntry ℕ), ⟨200, 102, 8, false⟩,
      ⟨100, 5, 8, false⟩],
        crowdedTable.home t = 5 := by decide
    obtain rfl : j = 5 := hhome.symm.trans (hfive e hentry)
    have hlast : (crowdedTable.table 5).getLast? = some ⟨100, 5, 8, false⟩ := by decide
    rw [hlast] at he
    rw [← Option.some.inj he]
    decide
  · rw [AllTraced, crowdedTable_entries]
    simp only [Memalloc.Traced]
    decide

/-- Records with five frames each. -/
def fiveFrames : RecordMem ℕ where
  mem e := ⟨e.addr - 40, e.key, 1024, 5, 2048, 8⟩
  btSize_lt _ := (by decide : 5 < 2 ^ 8)
  symbol _ _ := "main"

/-- **One record**: the key `6` is in bucket `6`, and its record has five frames. The report takes
the head of the bucket for a record. -/
theorem report_lost : ((oneKeyTable 40 6).entries.map HashEntry.addr).Nodup ∧
    ¬ Reported fiveFrames Memstats.zero (oneKeyTable 40 6) := by
  have hn := (oneKeyTable_placed 40 6).nodup
  refine ⟨hn, fun hr => ?_⟩
  have hlast := (hr.readable hn).2.1 6 (by decide) ⟨100, 6, 8, false⟩ (by decide)
  exact absurd hlast (by decide)

end Milu
