import Milu.Hashtbl.Cleanup
import Milu.Tracker.Operations
import Milu.Tracker.Report

/-!
# The traversals of the linked library

`mem_report` and `milu_cleanup` walk the table of the process. What such a walk does was settled for
a table on its own; here it is carried over. Each body does to the process what its counterpart does
to a table and a log, so the two walks go the same way, step by step.

## Main definitions

* `Process.releases` — the heap after the records of some entries were released

## Main results

* `mirrors_forEachSafe` — a traversal whose body mirrors another
* `memReport_of_ready`, `memReport_iff` — the report returns, or is lost
* `miluCleanup_of_ready`, `miluCleanup_of_wraps` — the cleanup empties the table, or is lost
-/

namespace Milu

namespace Process

variable {s : Process} {a : ℕ} {t : HashTable ℕ}

/-! ### Two walks -/

theorem mirrors_forEachSafe {S : Type} {rel : S → Process → Prop} {table : S → HashTable ℕ}
    {body : Pos ℕ → ℕ → StateT S Option ℕ} {body' : Pos ℕ → ℕ → ProcM ℕ}
    (hload : Mirrors rel Stuck.astray (table <$> get) load)
    (hbody : ∀ pos i, Mirrors rel Stuck.astray (body pos i) (body' pos i)) :
    ∀ fuel i cur, Mirrors rel Stuck.astray (forEachSafe failure (table <$> get) body fuel i cur)
      (forEachSafe (stuck .astray) load body' fuel i cur)
  | 0, _, _ => .stuck fun _ => rfl
  | fuel + 1, i, none => by
    have hlost : Mirrors rel Stuck.astray (failure : StateT S Option Unit) (stuck .astray) :=
      .stuck fun _ => rfl
    refine .bind hload fun h => ?_
    split_ifs
    · cases h.next (.head i) with
      | none => exact hlost
      | some pos =>
        show Mirrors rel Stuck.astray ((h.next pos).elim _ _) ((h.next pos).elim _ _)
        cases h.next pos with
        | none => exact hlost
        | some n => exact mirrors_forEachSafe hload hbody fuel i _
    · exact .pure _
  | fuel + 1, i, some (pos, n) => by
    rw [forEachSafe, forEachSafe]
    split_ifs
    · exact mirrors_forEachSafe hload hbody fuel _ _
    · refine .bind (hbody pos i) fun i => .bind hload fun h => ?_
      cases h.next n with
      | none => exact .stuck fun _ => rfl
      | some n' => exact mirrors_forEachSafe hload hbody fuel i _

/-! ### The report -/

section

variable {M : RecordMem ℕ}

theorem mirrors_report (ht : s.htable = .ready a t) (hM : M.mem = s.recordOf) (fuel i : ℕ)
    (cur : Option (Pos ℕ × Pos ℕ)) :
    Mirrors (fun σ s' => σ.1 = t.reading s.user ∧ s' = s) Stuck.astray
      (forEachSafe failure (Prod.fst <$> get) (reportBody M) fuel i cur)
      (forEachSafe (stuck .astray) load reportEntry fuel i cur) := by
  refine mirrors_forEachSafe ?_ (fun pos i => ?_) fuel i cur
  · rintro ⟨h, out⟩ _ ⟨rfl, rfl⟩
    exact ⟨_, load_of_ready ht, rfl, rfl⟩
  · cases pos with
    | head j => exact .stuck fun _ => rfl
    | node e =>
      rintro ⟨h, out⟩ s' ⟨hh, rfl⟩
      show (reportBody M (.node e) i (h, out)).elim (_ = _) _
      have hbody : reportEntry (.node e) i s' = if (M.mem e).bt = 0 ∧ (M.mem e).btSize ≠ 0 then
          .error .astray else .ok ((M.mem e).btSize, s') := by
        rw [hM]
        show (if _ then _ else _ : ProcM ℕ) s' = _
        split_ifs <;> rfl
      rw [hbody]
      by_cases he : (M.mem e).Traced
      · rw [reportBody_traced he, if_neg fun hno => hno.2 (he hno.1)]
        exact ⟨s', rfl, hh, rfl⟩
      · rw [reportBody_untraced he, if_pos (Classical.not_imp.mp he)]
        rfl

/-- **The report** returns and has changed nothing, or is lost. -/
theorem memReport_of_ready (ht : s.htable = .ready a t) (hM : M.mem = s.recordOf)
    (hn : (t.entries.map HashEntry.addr).Nodup) :
    (memReport s = .ok ((), s) ∧ t.buckets < 2 ^ 32 ∧ LastDepths M t ∧ AllTraced M t) ∨
      memReport s = .error .astray ∧ ¬ (t.buckets < 2 ^ 32 ∧ LastDepths M t ∧ AllTraced M t) := by
  have hm := mirrors_report ht hM (t.reading s.user).rounds 0 none
  have hrel : (t.reading s.user, summary s.stats).1 = t.reading s.user ∧ s = s := ⟨rfl, rfl⟩
  have hreport : memReport s = forEachSafe (stuck .astray) load reportEntry
      (t.reading s.user).rounds 0 none s := bind_of_ok (load_of_ready ht) _
  have hn' : ((t.reading s.user).entries.map HashEntry.addr).Nodup := hn
  rw [hreport]
  by_cases hlt : (t.reading s.user).buckets < 2 ^ 32
  · rcases report_run M s.stats hn' hlt with ⟨hreturns, hall⟩ | ⟨hlost, hnot⟩
    · obtain ⟨s', hrun, -, rfl⟩ := hm.of_some hrel (hreturns _ (stepsFrom_zero_lt _))
      exact .inl ⟨hrun, hlt, hall⟩
    · exact .inr ⟨hm.of_none hrel (hlost _), fun h => hnot h.2⟩
  · exact .inr ⟨hm.of_none hrel (report_wraps M s.stats (Nat.not_lt.mp hlt) _), fun h => hlt h.1⟩

/-- **The report returns** exactly when the report on the table is complete and ends. -/
theorem memReport_iff (ht : s.htable = .ready a t) (hM : M.mem = s.recordOf)
    (hn : (t.entries.map HashEntry.addr).Nodup) :
    memReport s = .ok ((), s) ↔ Reported M s.stats (t.reading s.user) := by
  have hn' : ((t.reading s.user).entries.map HashEntry.addr).Nodup := hn
  rcases memReport_of_ready ht hM hn with ⟨hreturns, hlt, hall⟩ | ⟨hlost, hnot⟩
  · exact iff_of_true hreturns (reported_of_readable hn' hlt hall)
  · refine iff_of_false (fun hreturns => ?_) fun hr => ?_
    · exact nomatch hlost.symm.trans hreturns
    · have hall := Reported.readable hn' hr
      exact hnot hall

end

/-! ### The cleanup -/

/-- The heap after the records of the entries were released, one after the other. -/
def releases (s : Process) (l : List (HashEntry ℕ)) : Heap :=
  l.foldl (fun H e => (H.afterFree (s.recordOf e).bt).afterFree (s.recordOf e).addr) s.heap

theorem releases_append (s : Process) (l : List (HashEntry ℕ)) (e : HashEntry ℕ) :
    s.releases (l ++ [e]) =
      ((s.releases l).afterFree (s.recordOf e).bt).afterFree (s.recordOf e).addr := by
  rw [releases, List.foldl_append]
  rfl

/-- The process after the records of the entries were released, with another table. -/
def cleaned (s : Process) (a : ℕ) (t : HashTable ℕ) (l : List (HashEntry ℕ)) : Process :=
  { s with htable := .ready a t, heap := s.releases l }

theorem mirrors_cleanup (fuel i : ℕ) (cur : Option (Pos ℕ × Pos ℕ)) :
    Mirrors (fun σ s' => ∃ t', t'.reading s.user = σ.1 ∧ s' = s.cleaned a t' (σ.2.map Prod.snd))
      Stuck.astray (forEachSafe failure (Prod.fst <$> get) cleanupBody fuel i cur)
      (forEachSafe (stuck .astray) load cleanupEntry fuel i cur) := by
  refine mirrors_forEachSafe ?_ (fun pos i => ?_) fuel i cur
  · rintro ⟨h, log⟩ _ ⟨t', rfl, rfl⟩
    exact ⟨_, load_of_ready rfl, t', rfl, rfl⟩
  · cases pos with
    | head j => exact .stuck fun _ => rfl
    | node e =>
      rintro ⟨h, log⟩ _ ⟨t', rfl, rfl⟩
      set h := t'.reading s.user
      obtain ⟨c, hc⟩ := hashTableDelHashEntrySafe_withTable h e
      have hdel : (hashTableDelHashEntry h e).2 = h.withTable c := hc
      refine ⟨s.cleaned a (h.withTable c) ((log ++ [((hashTableDelHashEntry h e).1, e)]).map
        Prod.snd), ?_, h.withTable c, ?_, rfl⟩
      · refine (bind_of_ok (load_of_ready rfl) _).trans ?_
        show (store (hashTableDelHashEntry h e).2 >>= _) _ = _
        rw [hdel, List.map_append, cleaned, cleaned,
          show (List.map Prod.snd [((hashTableDelHashEntry h e).1, e)]) = [e] from rfl,
          releases_append]
        rfl
      · exact hdel.symm

/-- **The cleanup** empties the table and releases the record of each entry once, in order. -/
theorem miluCleanup_of_ready (ht : s.htable = .ready a t) (hp : t.Placed)
    (hf : (t.reading s.user).Findable) (hlt : t.buckets < 2 ^ 32) :
    ∃ t', miluCleanup s = .ok ((), s.cleaned a t' t.entries) ∧ ∀ i, t'.table i = [] := by
  have hp' : (t.reading s.user).Placed := hp.congr rfl rfl rfl
  obtain ⟨h', log, hrun, hempty, hlog⟩ := cleanup_run hp' hf hlt (stepsFrom_zero_lt _)
  have hstart : s = s.cleaned a t [] := by
    rw [cleaned, releases, ← ht]
    rfl
  obtain ⟨_, hclean, t', ht', rfl⟩ := (mirrors_cleanup _ 0 none).of_some ⟨t, rfl, hstart⟩ hrun
  refine ⟨t', (bind_of_ok (load_of_ready ht) _).trans ?_, fun i => ?_⟩
  · rw [← show log.map Prod.snd = t.entries from hlog]
    exact hclean
  · rw [← hempty i, ← show t'.reading s.user = h' from ht']
    rfl

/-- With more buckets than a `uint32_t` can count the cleanup is lost. -/
theorem miluCleanup_of_wraps (ht : s.htable = .ready a t) (hge : 2 ^ 32 ≤ t.buckets) :
    miluCleanup s = .error .astray := by
  have hstart : s = s.cleaned a t [] := by
    rw [cleaned, releases, ← ht]
    rfl
  have hwraps := cleanup_wraps (h := t.reading s.user) hge (t.reading s.user).rounds
  have hlost := (mirrors_cleanup (t.reading s.user).rounds 0 none).of_none ⟨t, rfl, hstart⟩ hwraps
  exact (bind_of_ok (load_of_ready ht) _).trans hlost

end Process

end Milu
