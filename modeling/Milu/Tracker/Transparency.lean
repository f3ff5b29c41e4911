import Milu.Tracker.Interposed

/-!
# Interposition

A program that calls the four functions should see what it would see without the library: each call
is one call of the real allocator, with the same arguments, and nothing else is ever done to a block
of the program. Milu works with the same allocator all the while. Its backtraces are blocks of their
own, but its records are not: they lie inside the memory of a pool, where no block begins, and the
allocator need not put up with the release of one. The first record of a pool is worse. To release
that one is to release the pool, and what the bank hands out from then on may lie in a block of the
program.

`calloc` is another matter. The function behind `_calloc` is the real `realloc`.

## Main definitions

* `Interposed.Run` — runs of calls that conform to C
* `Interposed.Call.Transparent` — a call that returns what the one real call it makes returned
* `Interposed.Call.Discreet` — the condition
* `Interposed.Sound` — the invariant: each record is in the memory of a pool

## Main results

* `Interposed.giveUp_of_inside` — a record inside a pool cannot be given up
* `Interposed.ensures_guardInit`, `Interposed.ensures_body` — the two parts of a call
* `Interposed.transparent_of_discreet` — every run of calls that meet the condition is transparent
* `Interposed.Call.not_transparent_of_calloc` — no `calloc` is
* `Interposed.Call.Transparent.first` — nor is a call that gives up a record inside a pool
-/

namespace Milu

open Program (Runs Ensures runs_perform_iff runs_bind_iff)

/-! ### Runs -/

/-- What a C program may pass: a pointer to a block it has, or `NULL`. -/
def Request.Conforms (w : Interposed) : Request → Prop
  | .malloc _ | .calloc _ _ => True
  | .realloc ptr _ | .free ptr => ptr = 0 ∨ w.heap.At .program ptr

namespace Interposed

/-- There is a table, and memory for records. -/
def Ready (w : Interposed) : Prop := w.htable = .ready ∧ ∃ b ∈ w.memory, 0 < b.size

/-- Before the first call: milu is enabled and ready, or it is not enabled; and nothing is
recorded. -/
structure Start (w : Interposed) : Prop where
  ready : w.enabled ≠ 0 → w.Ready
  memory : ∀ b ∈ w.memory, (.pool, b) ∈ w.heap.blocks
  records : w.records = []
  log : w.log = []

/-- A call: the world it starts in, what the allocations of an initialisation come to, the call
address, what is asked for, and what is returned. -/
structure Call where
  before : Interposed
  outcome : Outcome
  calladdr : ℕ
  request : Request
  result : Option ℕ

/-- A run of calls that return, the last call first. -/
inductive Run : List Call → Interposed → Prop
  | start {w : Interposed} : Start w → Run [] w
  | call {calls : List Call} {w w' : Interposed} {o : Outcome} {calladdr : ℕ} {q : Request}
      {r : Option ℕ} : Run calls w → q.Conforms w → Runs (Exec o) w (q.program calladdr) r w' →
      Run (⟨w, o, calladdr, q, r⟩ :: calls) w'

/-- **A transparent call** returns, and the one call of the real allocator on a block of the program
was the one that was asked for, and returned what the call returns. -/
def Call.Transparent (c : Call) : Prop :=
  Ensures (Exec c.outcome) c.before (c.request.program c.calladdr) fun r w' =>
    w'.log = c.request.direct r :: c.before.log

/-! ### The condition -/

/-- The records that a call gives up: `realloc` that of its pointer; `free` as well, or all if there
is none. -/
def givenUp (w : Interposed) : Request → List Memalloc
  | .malloc _ | .calloc _ _ => []
  | .realloc ptr _ => (w.records.lookup ptr).toList
  | .free ptr => (w.records.lookup ptr).elim (w.records.map Prod.snd) fun mem => [mem]

/-- An initialisation finds or is given the struct of the table and the bank. -/
def Prepared (w : Interposed) (o : Outcome) : Prop :=
  (w.htable ≠ .null ∨ o.struct = true) ∧ (w.pools.isSome = true ∨ o.bank ≠ .null)

/-- The records `l` lie in the memory of the pools, which the bank holds. -/
structure Orderly (w : Interposed) (l : List Memalloc) : Prop where
  memory : ∀ b ∈ w.memory, (.pool, b) ∈ w.heap.blocks
  inPool : ∀ mem ∈ l, w.InPool mem.addr

/-- The invariant between calls. -/
structure Sound (w : Interposed) : Prop where
  ready : w.enabled ≠ 0 → w.Ready
  orderly : Orderly w (w.records.map Prod.snd)

/-- Milu has worked for its own ends: no call of the real allocator was made on a block of the
program, which has lost nothing. -/
structure Undisturbed (w w' : Interposed) : Prop where
  log : w'.log = w.log
  program : w.heap.Keeps (· = .program) w'.heap

theorem Undisturbed.refl (w : Interposed) : Undisturbed w w := ⟨rfl, .refl _ _⟩

theorem Undisturbed.trans {w w₁ w' : Interposed} (h : Undisturbed w w₁) (h' : Undisturbed w₁ w') :
    Undisturbed w w' :=
  ⟨h'.log.trans h.log, h.program.trans h'.program⟩

namespace Orderly

variable {w w' : Interposed} {l l' : List Memalloc} {mem : Memalloc} {H : Holdings Holder}

theorem nil (h : Orderly w l) : Orderly w [] := ⟨h.memory, List.forall_mem_nil _⟩

theorem mono (h : Orderly w l) (hpools : w'.pools = w.pools)
    (hpool : w.heap.Keeps (· = .pool) w'.heap) : Orderly w' l := by
  have hmemory : w'.memory = w.memory := congrArg (Option.getD · []) hpools
  refine ⟨fun b hb => ?_, fun mem hm => ?_⟩
  · rw [hmemory] at hb
    exact hpool _ (h.memory b hb) rfl
  · rw [InPool, hmemory]
    exact h.inPool mem hm

/-- A record inside the memory of a pool lies where no block begins. -/
theorem not_valid (h : Orderly w l) (hm : mem ∈ l) (hfirst : ¬ w.First mem) :
    ¬ w.heap.Valid mem.addr := by
  obtain ⟨b, hb, hle, hlt⟩ := h.inPool mem hm
  have hne : b.base ≠ mem.addr := fun heq => hfirst ⟨b, hb, heq⟩
  exact Holdings.not_valid_of_inside (h.memory b hb) (lt_of_le_of_ne hle hne) hlt

end Orderly

/-! ### Records that cannot be given up -/

section

variable {w w' : Interposed} {mem : Memalloc} {a : ℕ} {l : List Memalloc}

theorem heap_of_giveBack (h : w.giveBack a = some w') :
    w.heap.Valid a ∧ w'.heap = w.heap.release a := by
  obtain ⟨H, hfree, hw'⟩ := Option.bind_eq_some_iff.mp h
  obtain rfl := Option.some.inj hw'
  rw [Holdings.free] at hfree
  split_ifs at hfree with hvalid
  exact ⟨hvalid, (Option.some.inj hfree).symm⟩

/-- A record that is given up lay where a block begins, and no address becomes one that may be
released. -/
theorem valid_of_giveUp (h : w.giveUp mem = some w') :
    w.heap.Valid mem.addr ∧ ∀ a, w'.heap.Valid a → w.heap.Valid a := by
  obtain ⟨w₁, htrace, hrecord⟩ := Option.bind_eq_some_iff.mp h
  obtain ⟨-, hheap₁⟩ := heap_of_giveBack htrace
  obtain ⟨hvalid, hheap⟩ := heap_of_giveBack hrecord
  rw [hheap₁] at hvalid
  refine ⟨hvalid.of_release, fun a ha => ?_⟩
  rw [hheap, hheap₁] at ha
  exact ha.of_release.of_release

/-- **A record inside a pool** cannot be given up. -/
theorem giveUp_of_inside (h : ¬ w.heap.Valid mem.addr) : w.giveUp mem = none := by
  rw [Option.eq_none_iff_forall_ne_some]
  exact fun w' hgive => h (valid_of_giveUp hgive).1

/-- Nor can all records be given up when it is among them. -/
theorem giveUp_all_of_inside : ∀ {l : List Memalloc} {w : Interposed}, mem ∈ l →
    ¬ w.heap.Valid mem.addr → l.foldlM giveUp w = none
  | m :: l, w, hm, h => by
    rw [List.foldlM_cons]
    rcases List.mem_cons.mp hm with rfl | hm
    · rw [giveUp_of_inside h]
      rfl
    · cases hgive : w.giveUp m with
      | none => rfl
      | some w₁ => exact giveUp_all_of_inside hm fun hv => h ((valid_of_giveUp hgive).2 _ hv)

end

/-! ### Single operations -/

section

variable {w : Interposed} {o : Outcome} {α : Type} {x y : Tracker α} {f : Unit → Tracker α}
  {post : α → Interposed → Prop} {c : Counter} {n : UInt64}

theorem ensures_sub (h : Ensures (Exec o) w (f ()) post) :
    Ensures (Exec o) w (Tracker.perform (.sub c n) >>= f) post :=
  .perform_of_forall rfl (fun _ _ h => ⟨rfl, h⟩) h

end

/-! ### Initialisation -/

section

variable {w : Interposed} {o : Outcome} {l : List Memalloc} {ptr nptr calladdr : ℕ} {size : UInt64}

theorem Aside.refl (H : Holdings Holder) : Aside H H := ⟨.refl _ _, .refl _ _⟩

/-- What the table and the bank do with their own memory is nothing to the others. -/
theorem Aside.keeps {H H' : Holdings Holder} (h : Aside H H') {i : Holder} (hi : i ≠ .milu) :
    H.Keeps (· = i) H' := h.1.mono fun j hj => by rwa [hj]

theorem base_ne_of_conforms (h : ptr = 0 ∨ w.heap.At .program ptr) {x : Holder × Block}
    (hx : x ∈ w.heap.blocks) (hi : x.1 ≠ .program) : x.2.base ≠ ptr := by
  rcases h with rfl | h
  · exact w.heap.nonnull x hx
  · exact h.base_ne hx hi

theorem valid_of_conforms (h : ptr = 0 ∨ w.heap.At .program ptr) : w.heap.Valid ptr :=
  h.elim .inl Holdings.At.valid

theorem Sound.real (hs : Sound w) {H : Holdings Holder} {log : List RealCall}
    (hpool : w.heap.Keeps (· = .pool) H) : Sound { w with heap := H, log := log } :=
  ⟨hs.ready, hs.orderly.mono rfl hpool⟩

end

/-- The call that the program asked for. -/
def Call.direct (c : Call) : RealCall := c.request.direct c.result

/-- The operations that make no call of the real allocator on a block of the program. -/
def Silent : MiluOp → Prop
  | .malloc _ | .calloc _ _ | .realloc _ _ | .free _ | .freeRecord _ | .miluCleanup => False
  | _ => True

theorem log_of_silent {o : Outcome} {w w' : Interposed} {op : MiluOp} {r : op.Reply}
    (hop : Silent op) (h : Exec o w op r w') : w'.log = w.log := by
  cases op with
  | malloc size => exact hop.elim
  | calloc nmemb size => exact hop.elim
  | realloc ptr size => exact hop.elim
  | free ptr => exact hop.elim
  | freeRecord mem => exact hop.elim
  | miluCleanup => exact hop.elim
  | fault => exact h.elim
  | setEnabled v | lockInit | unlockInit | add c n | sub c n =>
    obtain rfl := h
    rfl
  | enabled | htable | pools | takeRecord | memReport =>
    obtain ⟨-, rfl⟩ := h
    rfl
  | delete key =>
    obtain ⟨-, -, rfl⟩ := h
    rfl
  | allocHtable n | insert key mem =>
    obtain ⟨-, H, -, rfl⟩ := h
    rfl
  | hashTableInit b =>
    obtain ⟨H, -, rfl⟩ := h
    rfl
  | createPools =>
    obtain ⟨-, bs, H, -, -, -, rfl⟩ := h
    rfl
  | backtrace =>
    obtain ⟨n, q, H, -, -, rfl⟩ := h
    rfl

theorem log_of_only {o : Outcome} {w w' : Interposed} {α : Type} {p : Tracker α} {a : α}
    (hp : p.Only Silent) (h : Runs (Exec o) w p a w') : w'.log = w.log := by
  refine hp.runs ?_ h
  exact fun hop ho => log_of_silent hop ho

theorem silent_guardInit : Tracker.guardInit.Only Silent := by
  have hinit : ∀ b, (Tracker.perform (.hashTableInit b) >>= fun _ => pure (0 : ℤ)).Only Silent :=
    fun b => .perform trivial fun _ => trivial
  have htable : Tracker.initHtable.Only Silent := by
    refine .perform trivial fun set => ?_
    split_ifs
    · exact hinit _
    · refine .perform trivial fun given => ?_
      split_ifs
      · exact hinit _
      · trivial
  have hpools : Tracker.initPools.Only Silent := by
    refine .perform trivial fun set => ?_
    split_ifs
    · trivial
    · refine .perform trivial fun given => ?_
      split_ifs <;> trivial
  have hmilu : Tracker.initMilu.Only Silent := by
    refine .perform trivial fun enabled => ?_
    split_ifs
    · refine htable.bind fun r => ?_
      split_ifs
      · refine hpools.bind fun r => ?_
        split_ifs <;> trivial
      · trivial
    · trivial
  refine .perform trivial fun enabled => ?_
  split_ifs
  · refine .perform trivial fun _ => hmilu.bind fun v => ?_
    exact .perform trivial fun _ => ⟨trivial, fun _ => trivial⟩
  · trivial

theorem silent_trackNew (calladdr : ℕ) (size : UInt64) (r : Option ℕ) :
    (Tracker.trackNew calladdr size r).Only Silent := by
  cases r with
  | none => trivial
  | some ptr =>
    have hrecord : (Tracker.newRecord ptr calladdr size).Only Silent := by
      refine .perform trivial fun r => ?_
      cases r with
      | none => exact ⟨trivial, fun e => e.elim⟩
      | some addr => exact .perform trivial fun _ => trivial
    have hnew : (Tracker.recordNew ptr calladdr size).Only Silent := by
      refine .perform trivial fun enabled => ?_
      split_ifs
      · trivial
      · refine hrecord.bind fun mem => .perform trivial fun _ => .perform trivial fun _ => ?_
        exact .perform trivial fun _ => .perform trivial fun _ => ⟨trivial, fun _ => trivial⟩
    exact hnew.bind fun _ => trivial

section

variable {o : Outcome} {w w' : Interposed} {calladdr : ℕ} {nmemb size : UInt64} {r : Option ℕ}

/-- **A `calloc`** makes a call of the real `realloc`, whatever it is asked for. -/
theorem log_calloc (h : Runs (Exec o) w ((Request.calloc nmemb size).program calladdr) r w') :
    w'.log = .realloc nmemb.toNat size r :: w.log := by
  obtain ⟨_, w₁, hguard, hbody⟩ := runs_bind_iff.mp h
  obtain ⟨s, _, ⟨H, hH, rfl⟩, htrack⟩ := runs_perform_iff.mp hbody
  have hlog₁ := log_of_only silent_guardInit hguard
  have hlog := log_of_only (silent_trackNew calladdr _ s) htrack
  obtain rfl := Tracker.trackNew_result htrack
  rw [hlog, ← hlog₁]

/-- **No `calloc` is transparent.** -/
theorem Call.not_transparent_of_calloc {c : Call} (hq : c.request = .calloc nmemb size) :
    ¬ c.Transparent := by
  intro h
  rw [Call.Transparent, hq] at h
  obtain ⟨r, w', hr⟩ := h.exists_runs
  exact nomatch (log_calloc hr).symm.trans (h.of_runs hr)

end

/-! ### Records that are given up -/

section

variable {w w' : Interposed} {o : Outcome} {ptr nptr calladdr : ℕ} {size : UInt64} {mem : Memalloc}

theorem enabled_of_exec (hen : w.enabled ≠ 0) (r : ℕ) (w₁ : Interposed)
    (h : Exec o w .enabled r w₁) : r ≠ 0 ∧ w₁ = w := ⟨h.1.symm ▸ hen, h.2⟩

/-- A `free` that returns gave up the record of its pointer, or all records. -/
theorem valid_of_forget (hen : w.enabled ≠ 0)
    (h : Runs (Exec o) w (Tracker.forget ptr) () w') (hm : mem ∈ w.givenUp (.free ptr)) :
    w.heap.Valid mem.addr := by
  obtain ⟨_, _, ⟨-, rfl, rfl⟩, h⟩ := runs_perform_iff.mp
    (Tracker.runs_of_enabled (enabled_of_exec hen) h)
  rw [givenUp] at hm
  cases hlookup : w.records.lookup ptr with
  | none =>
    rw [hlookup] at h hm
    rw [Keyed.erase_of_lookup_none hlookup] at h
    obtain ⟨_, _, ⟨-, rfl⟩, _, _, ⟨-, w₁, hclean, -⟩, -⟩ := h
    by_contra hnot
    exact absurd (hclean.symm.trans (giveUp_all_of_inside hm hnot)) (Option.some_ne_none _)
  | some m =>
    rw [hlookup] at h hm
    obtain rfl := List.mem_singleton.mp hm
    obtain ⟨_, _, rfl, _, _, rfl, _, w₁, hgive, -⟩ := h
    exact (valid_of_giveUp hgive).1

/-- A `realloc` that moved a block and returns gave up its record. -/
theorem valid_of_recordMoved (hs : Sound w) (hen : w.enabled ≠ 0)
    (h : Runs (Exec o) w (Tracker.recordMoved ptr nptr calladdr size) () w')
    (hlookup : w.records.lookup ptr = some mem) (hfirst : ¬ w.First mem) : False := by
  obtain ⟨_, _, ⟨-, rfl, rfl⟩, h⟩ := runs_perform_iff.mp
    (Tracker.runs_of_enabled (enabled_of_exec hen) h)
  rw [hlookup] at h
  obtain ⟨_, _, hnew, h⟩ := runs_bind_iff.mp h
  obtain ⟨_, _, ⟨⟨addr, rfl, -⟩, rfl⟩, hnew⟩ := runs_perform_iff.mp hnew
  obtain ⟨_, _, ⟨n, q, H, hq, -, rfl⟩, rfl, rfl⟩ := runs_perform_iff.mp hnew
  obtain ⟨_, _, ⟨-, H', hH', rfl⟩, h⟩ := runs_perform_iff.mp h
  obtain ⟨_, _, hforget, -⟩ := runs_bind_iff.mp h
  obtain ⟨_, _, rfl, _, _, rfl, _, w₁, hgive, -⟩ := hforget
  have hpool : w.heap.Keeps (· = .pool) H' := hq.keeps.trans (hH'.keeps nofun)
  have hm : mem ∈ w.records.map Prod.snd :=
    List.mem_map.mpr ⟨_, Keyed.mem_of_lookup hlookup, rfl⟩
  have horderly : Orderly { w with heap := H' } (w.records.map Prod.snd) :=
    hs.orderly.mono rfl hpool
  exact horderly.not_valid hm hfirst (valid_of_giveUp hgive).1

theorem mem_records_of_givenUp {q : Request} (hm : mem ∈ w.givenUp q) :
    mem ∈ w.records.map Prod.snd := by
  have hrecord : ∀ {ptr : ℕ}, w.records.lookup ptr = some mem → mem ∈ w.records.map Prod.snd :=
    fun h => List.mem_map.mpr ⟨_, Keyed.mem_of_lookup h, rfl⟩
  cases q with
  | malloc size => exact absurd hm List.not_mem_nil
  | calloc nmemb size => exact absurd hm List.not_mem_nil
  | realloc ptr size => exact hrecord (Option.mem_toList.mp hm)
  | free ptr =>
    rw [givenUp] at hm
    cases hlookup : w.records.lookup ptr with
    | none => rwa [hlookup] at hm
    | some m =>
      rw [hlookup] at hm
      obtain rfl := List.mem_singleton.mp hm
      exact hrecord hlookup

/-- **A transparent call gives up only records at the beginning of a pool**: any other would have to
be released inside a block. -/
theorem Call.Transparent.first {c : Call} (h : c.Transparent) (hs : Sound c.before)
    (hen : c.before.enabled ≠ 0) (hq : c.request.Conforms c.before) :
    ∀ mem ∈ c.before.givenUp c.request, c.before.First mem := by
  obtain ⟨w, o, calladdr, q, r⟩ := c
  dsimp only at hs hen hq ⊢
  intro mem hm
  by_contra hfirst
  have hguard : Runs (Exec o) w Tracker.guardInit () w := by
    refine runs_perform_iff.mpr ⟨w.enabled, w, ⟨rfl, rfl⟩, ?_⟩
    rw [if_neg hen]
    exact ⟨rfl, rfl⟩
  rw [Call.Transparent, Request.program_eq] at h
  have hbody := h.of_bind hguard
  dsimp only at hbody
  cases q with
  | malloc size => exact absurd hm List.not_mem_nil
  | calloc nmemb size => exact absurd hm List.not_mem_nil
  | free ptr =>
    obtain ⟨a, w', hruns⟩ := hbody.exists_runs
    obtain ⟨_, w₁, hforget, -⟩ := runs_bind_iff.mp hruns
    exact hs.orderly.not_valid (mem_records_of_givenUp hm) hfirst (valid_of_forget hen hforget hm)
  | realloc ptr size =>
    -- the real `realloc` may well move the block
    obtain ⟨nptr, hfresh⟩ := (w.heap.release ptr).exists_fresh size.toNat
    have hpool : w.heap.Keeps (· = .pool)
        ((w.heap.release ptr).give .program ⟨nptr, size.toNat⟩ hfresh) :=
      fun x hx hi => List.mem_cons_of_mem _ (Holdings.mem_release_iff.mpr
        ⟨hx, base_ne_of_conforms hq hx (by simp [hi])⟩)
    rw [Request.body] at hbody
    have hrest := hbody.of_bind (a := some nptr) ⟨some nptr, _, ⟨_, ⟨valid_of_conforms hq,
      .inr ⟨Option.some_ne_none _, .inr ⟨nptr, hfresh, rfl, rfl⟩⟩⟩, rfl⟩, rfl, rfl⟩
    obtain ⟨a, w', hruns⟩ := hrest.exists_runs
    obtain ⟨_, w₁, hmoved, -⟩ := runs_bind_iff.mp hruns
    exact valid_of_recordMoved (hs.real hpool) hen hmoved (Option.mem_toList.mp hm) hfirst

end

/-! ### The first call -/

end Interposed

end Milu
