import Milu.Tracker.Basic

/-!
# Initialisation

Each of the four functions first reads `milu_enabled` without a lock, and when it finds zero takes
`init_mutex` and sets `milu_enabled` to what `init_milu` returns. Any number of threads may have
read zero and be waiting for the mutex. What the allocations behind the table and the bank come to
is decided anew for each execution of `init_milu`.

`init_milu` returns 0 when it has set up the table and the bank, and 1 when it has not. Each of the
four functions begins like this (`Request.program_eq`).

## Main definitions

* `InitState` — the globals, and what has happened to them
* `Outcome` — what the allocations of one execution of `init_milu` come to
* `InitState.Exec`, `initSystem` — the operations, and threads that wait for the mutex
* `Initialised` — what initialisation promises
* `Fruitless` — the condition: an execution that sets up something, but not everything

## Main results

* `runs_lockedInit` — one execution under the mutex
* `enabled_stays` — once `milu_enabled` is nonzero it stays nonzero
* `initialised_iff_fruitless` — the promise is kept by fruitless executions and by no others
* `enabled_not_set` — an execution that sets up everything leaves milu disabled
-/

namespace Milu

open Program

/-! ### The globals -/

/-- `_milu_htable`: `NULL`, a struct that `hash_table_init` has not or not successfully set up, or
a table. -/
inductive TableState
  | null
  | raw
  | ready
  deriving DecidableEq, Repr

/-- `_milu_pools`: `NULL`, a bank whose only pool is `NULL`, or a bank with a pool. -/
inductive PoolsState
  | null
  | hollow
  | complete
  deriving DecidableEq, Repr

/-- What the allocations of one execution of `init_milu` come to, as far as they are made: is there
memory for the struct of the table, does `hash_table_init` return 0, and what does `create_bank`
return. -/
structure Outcome where
  struct : Bool
  table : Bool
  bank : PoolsState
  deriving DecidableEq, Repr

/-- The globals, and three facts about the past: has `milu_enabled` been nonzero, has an execution
of `init_milu` come to its end with both the table and the pools initialised, and has
`hash_table_init` been called on a table. -/
structure InitState where
  enabled : ℕ
  htable : TableState
  pools : PoolsState
  wasEnabled : Bool
  completed : Bool
  redone : Bool
  deriving DecidableEq, Repr

namespace InitState

/-- The globals at the start. -/
def start : InitState := ⟨0, .null, .null, false, false, false⟩

/-- What an operation of an execution with the outcome `o` does. Under the mutex there is no one
else who writes the globals, and the mutex itself is left out. -/
def Exec (o : Outcome) (s : InitState) : (op : MiluOp) → op.Reply → InitState → Prop
  | .enabled, r, s' => r = s.enabled ∧ s' = s
  | .setEnabled v, _, s' => s' = { s with
      enabled := v
      wasEnabled := s.wasEnabled || v != 0
      completed := s.completed || (s.htable == .ready && s.pools == .complete) }
  | .lockInit, _, s' | .unlockInit, _, s' => s' = s
  | .htable, r, s' => r = (s.htable != .null) ∧ s' = s
  | .allocHtable _, r, s' => r = o.struct ∧
      s' = { s with htable := if o.struct then .raw else .null }
  | .hashTableInit _, _, s' => s' = { s with
      htable := if o.table then .ready else .raw
      redone := s.redone || s.htable == .ready }
  | .pools, r, s' => r = (s.pools != .null) ∧ s' = s
  | .createPools, r, s' => r = (o.bank != .null) ∧ s' = { s with pools := o.bank }
  | _, _, _ => False

end InitState

/-- Threads that have found `milu_enabled` zero, each with the outcome of the execution it waits
for. -/
def initSystem : System InitState Outcome where
  start s _ s' _ := s.enabled = 0 ∧ s' = s
  step s o s' next := next = none ∧ ∃ u, Runs (InitState.Exec o) s Tracker.lockedInit u s'

/-! ### The promise -/

/-- `milu_enabled` is nonzero exactly when an execution of `init_milu` has completed with everything
initialised, it does not become zero again, and a table is not initialised again. -/
structure Initialised (s : InitState) : Prop where
  enabled_iff : s.enabled ≠ 0 ↔ s.completed = true
  stays : s.wasEnabled = true → s.enabled ≠ 0
  once : s.redone = false

/-- The bank after an execution. -/
def InitState.bank (s : InitState) (o : Outcome) : PoolsState :=
  if s.pools = .null then o.bank else s.pools

/-- An execution finds or is given the struct of the table and the bank. -/
def InitState.Prepared (s : InitState) (o : Outcome) : Prop :=
  (s.htable ≠ .null ∨ o.struct = true) ∧ s.bank o ≠ .null

/-- An execution that finds or is given the struct of the table and the bank, but does not end with
both the table and the pools initialised, and that does not find the table initialised. -/
structure Fruitless (s : InitState) (o : Outcome) : Prop where
  prepared : s.Prepared o
  incomplete : ¬ (o.table = true ∧ s.bank o = .complete)
  once : s.htable ≠ .ready

/-! ### One execution -/

section

variable {s s' : InitState} {o : Outcome} {r : ℤ} {u : Unit}

theorem runs_initHtable (h : Runs (InitState.Exec o) s Tracker.initHtable r s') :
    (r = 0 ∧ (s.htable ≠ .null ∨ o.struct = true) ∧ s' = { s with
      htable := if o.table then .ready else .raw
      redone := s.redone || s.htable == .ready }) ∨
    (r ≠ 0 ∧ s.htable = .null ∧ o.struct = false ∧ s' = s) := by
  obtain ⟨_, s, ⟨rfl, rfl⟩, h⟩ := runs_perform_iff.mp h
  by_cases hs : s.htable = .null
  · rw [if_neg (by simp [hs])] at h
    obtain ⟨_, _, ⟨rfl, rfl⟩, h⟩ := runs_perform_iff.mp h
    cases ho : o.struct with
    | false =>
      rw [ho] at h
      obtain ⟨rfl, rfl⟩ := h
      refine .inr ⟨by decide, hs, rfl, ?_⟩
      rw [if_neg Bool.false_ne_true, ← hs]
    | true =>
      rw [ho] at h
      obtain ⟨_, _, rfl, rfl, rfl⟩ := runs_perform_iff.mp h
      refine .inl ⟨rfl, .inr rfl, ?_⟩
      rw [hs]
      rfl
  · rw [if_pos (by simp [hs])] at h
    obtain ⟨_, _, rfl, rfl, rfl⟩ := runs_perform_iff.mp h
    exact .inl ⟨rfl, .inl hs, rfl⟩

theorem runs_initPools (h : Runs (InitState.Exec o) s Tracker.initPools r s') :
    (r = 0 ↔ s.bank o ≠ .null) ∧ s' = { s with pools := s.bank o } := by
  obtain ⟨_, s, ⟨rfl, rfl⟩, h⟩ := runs_perform_iff.mp h
  by_cases hs : s.pools = .null
  · rw [if_neg (by simp [hs])] at h
    obtain ⟨_, _, ⟨rfl, rfl⟩, h⟩ := runs_perform_iff.mp h
    rw [InitState.bank, if_pos hs]
    by_cases hb : o.bank = .null
    · rw [if_neg (by simp [hb])] at h
      obtain ⟨rfl, rfl⟩ := h
      exact ⟨iff_of_false (by decide) (not_not.mpr hb), rfl⟩
    · rw [if_pos (by simp [hb])] at h
      obtain ⟨rfl, rfl⟩ := h
      exact ⟨iff_of_true rfl hb, rfl⟩
  · rw [if_pos (by simp [hs])] at h
    obtain ⟨rfl, rfl⟩ := h
    rw [InitState.bank, if_neg hs]
    exact ⟨iff_of_true rfl hs, rfl⟩

/-- One execution of `init_milu` while milu is disabled: what it leaves, and what it returns. -/
theorem runs_initMilu {v : ℕ} (hs : s.enabled = 0)
    (h : Runs (InitState.Exec o) s Tracker.initMilu v s') :
    (v = 0 ∧ s.Prepared o ∧ s' = { s with
      htable := if o.table then .ready else .raw
      redone := s.redone || s.htable == .ready
      pools := s.bank o }) ∨
    (v = 1 ∧ ¬ s.Prepared o ∧ (s'.htable = .null ∨ s'.pools = .null) ∧
      s'.completed = s.completed) := by
  obtain ⟨_, s, ⟨rfl, rfl⟩, hbody⟩ := runs_perform_iff.mp h
  rw [if_pos hs] at hbody
  obtain ⟨ret, s₁, htable, hrest⟩ := runs_bind_iff.mp hbody
  rcases runs_initHtable htable with ⟨rfl, hstruct, rfl⟩ | ⟨hret, hnull, hstruct, rfl⟩
  · rw [if_pos rfl] at hrest
    obtain ⟨ret, s₂, hpools, hlast⟩ := runs_bind_iff.mp hrest
    obtain ⟨hret, rfl⟩ := runs_initPools hpools
    by_cases hb : s.bank o = .null
    · rw [if_neg fun h0 => hret.mp h0 hb] at hlast
      obtain ⟨rfl, rfl⟩ := hlast
      exact .inr ⟨rfl, fun hp => hp.2 hb, .inr hb, rfl⟩
    · rw [if_pos (hret.mpr hb)] at hlast
      obtain ⟨rfl, rfl⟩ := hlast
      exact .inl ⟨rfl, ⟨hstruct, hb⟩, rfl⟩
  · rw [if_neg hret] at hrest
    obtain ⟨rfl, rfl⟩ := hrest
    refine .inr ⟨rfl, fun hp => ?_, .inl hnull, rfl⟩
    rcases hp.1 with hne | htrue
    · exact hne hnull
    · exact Bool.false_ne_true (hstruct.symm.trans htrue)

/-- What a thread does that has the mutex, while milu is disabled: an execution that is prepared
leaves milu disabled, and one that is not enables it. -/
theorem runs_lockedInit (hs : s.enabled = 0)
    (h : Runs (InitState.Exec o) s Tracker.lockedInit u s') :
    (s.Prepared o ∧ s' = { s with
      enabled := 0
      htable := if o.table then .ready else .raw
      pools := s.bank o
      completed := s.completed || (o.table && s.bank o == .complete)
      redone := s.redone || s.htable == .ready }) ∨
    (¬ s.Prepared o ∧ s'.enabled = 1 ∧ s'.completed = s.completed) := by
  obtain ⟨_, _, rfl, hbody⟩ := runs_perform_iff.mp h
  obtain ⟨v, s₁, hinit, _, _, rfl, _, _, rfl, -, rfl⟩ := runs_bind_iff.mp hbody
  rcases runs_initMilu hs hinit with ⟨rfl, hp, rfl⟩ | ⟨rfl, hp, hnull, hc⟩
  · refine .inl ⟨hp, ?_⟩
    cases o.table <;> simp
  · refine .inr ⟨hp, rfl, ?_⟩
    rcases hnull with hnull | hnull <;> simp [hnull, hc]

/-- **Once nonzero it stays nonzero**: a late thread finds `milu_enabled` set, and sets it again. -/
theorem enabled_stays (hs : s.enabled ≠ 0) (h : Runs (InitState.Exec o) s Tracker.lockedInit u s') :
    s'.enabled ≠ 0 ∧ s'.htable = s.htable ∧ s'.pools = s.pools ∧ s'.redone = s.redone := by
  obtain ⟨_, _, rfl, hbody⟩ := runs_perform_iff.mp h
  obtain ⟨v, s₁, hinit, _, _, rfl, _, _, rfl, -, rfl⟩ := runs_bind_iff.mp hbody
  obtain ⟨_, s, ⟨rfl, rfl⟩, hret⟩ := runs_perform_iff.mp hinit
  rw [if_neg hs] at hret
  obtain ⟨rfl, rfl⟩ := hret
  exact ⟨Nat.one_ne_zero, rfl, rfl, rfl⟩

/-- Milu is disabled and nothing has been initialised to the end. -/
structure Idle (s : InitState) : Prop where
  enabled : s.enabled = 0
  wasEnabled : s.wasEnabled = false
  completed : s.completed = false
  redone : s.redone = false

theorem Idle.initialised (hi : Idle s) : Initialised s where
  enabled_iff := iff_of_false (not_not.mpr hi.enabled) (by simp [hi.completed])
  stays h := absurd (hi.wasEnabled.symm.trans h) Bool.false_ne_true
  once := hi.redone

/-- A fruitless execution changes nothing that matters. -/
theorem Idle.lockedInit (hi : Idle s) (hf : Fruitless s o)
    (h : Runs (InitState.Exec o) s Tracker.lockedInit u s') : Idle s' := by
  rcases runs_lockedInit hi.enabled h with ⟨-, rfl⟩ | ⟨hp, -⟩
  · refine ⟨rfl, hi.wasEnabled, ?_, ?_⟩
    · have hinc := hf.incomplete
      simp_all [hi.completed]
    · simp [hi.redone, hf.once]
  · exact absurd hf.prepared hp

/-- Any other execution breaks the promise. -/
theorem Idle.fruitless (hi : Idle s) (h : Runs (InitState.Exec o) s Tracker.lockedInit u s')
    (hinit : Initialised s') : Fruitless s o := by
  rcases runs_lockedInit hi.enabled h with ⟨hp, rfl⟩ | ⟨-, hen, hc⟩
  · refine ⟨hp, ?_, ?_⟩
    · rintro ⟨ht, hb⟩
      exact hinit.enabled_iff.mpr (by simp [ht, hb]) rfl
    · intro hready
      exact absurd hinit.once (by simp [hready])
  · have hcompleted := hinit.enabled_iff.mp (by rw [hen]; exact Nat.one_ne_zero)
    rw [hc, hi.completed] at hcompleted
    exact absurd hcompleted Bool.false_ne_true

end

/-! ### Every run -/

/-- **The promise is kept by fruitless executions and by no others**: it holds in every state of a
run of such executions, and the first execution of another kind breaks it. -/
theorem initialised_iff_fruitless {s : InitState} {os : Multiset Outcome}
    (h : initSystem.Run (fun s _ o _ => Fruitless s o) ⟨InitState.start, 0⟩ ⟨s, os⟩) :
    Initialised s ∧ ∀ o s', initSystem.step s o s' none → (Initialised s' ↔ Fruitless s o) := by
  have hi : Idle s := by
    refine System.Run.invariant (I := fun s _ => Idle s) ?_ ?_ ?_ h ⟨rfl, rfl, rfl, rfl⟩
    · rintro s os s' o hi ⟨-, rfl⟩
      exact hi
    · rintro s o os s' o' hi ⟨hnone, -⟩ -
      exact absurd hnone (Option.some_ne_none o')
    · rintro s o os s' hi ⟨-, u, hu⟩ hf
      exact hi.lockedInit hf hu
  refine ⟨hi.initialised, ?_⟩
  rintro o s' ⟨-, u, hu⟩
  exact ⟨hi.fruitless hu, fun hf => (hi.lockedInit hf hu).initialised⟩

/-- An execution whose `hash_table_init` runs out of memory. -/
theorem initialised_iff_fruitless_noTable :
    Initialised ⟨0, .raw, .complete, false, false, false⟩ := by
  have hrun : initSystem.Run (fun s _ o _ => Fruitless s o) ⟨InitState.start, 0⟩
      ⟨⟨0, .raw, .complete, false, false, false⟩, 0⟩ := by
    refine .tail (.single (.start (c := ⟨true, false, .complete⟩) ⟨rfl, rfl⟩))
      (.ret ⟨rfl, (), ?_⟩ ⟨⟨.inr rfl, by decide⟩, by decide, by decide⟩)
    exact ⟨(), _, rfl, _, _, ⟨rfl, rfl⟩, _, _, ⟨rfl, rfl⟩, _, _, ⟨rfl, rfl⟩, 0, _, rfl, _, _,
      ⟨rfl, rfl⟩, _, _, ⟨rfl, rfl⟩, (), _, rfl, (), _, rfl, rfl, rfl⟩
  exact (initialised_iff_fruitless hrun).1

/-- **An execution that sets up everything leaves milu disabled.** -/
theorem enabled_not_set : ∃ s os, initSystem.Run System.anyStep ⟨InitState.start, 0⟩ ⟨s, os⟩ ∧
    ¬ Initialised s := by
  refine ⟨⟨0, .ready, .complete, false, true, false⟩, 0,
    .tail (.single (.start (c := ⟨true, true, .complete⟩) ⟨rfl, rfl⟩))
      (.ret ⟨rfl, (), ?_⟩ trivial), ?_⟩
  · exact ⟨(), _, rfl, _, _, ⟨rfl, rfl⟩, _, _, ⟨rfl, rfl⟩, _, _, ⟨rfl, rfl⟩, 0, _, rfl, _, _,
      ⟨rfl, rfl⟩, _, _, ⟨rfl, rfl⟩, (), _, rfl, (), _, rfl, rfl, rfl⟩
  · exact fun hi => hi.enabled_iff.mpr rfl rfl

end Milu
