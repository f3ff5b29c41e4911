import Milu.Hashtbl.Runs
import Mathlib.Algebra.Order.Round
import Mathlib.Data.Rat.Floor
import Mathlib.Tactic.Linarith

/-!
# The table grows geometrically

The counter of buckets in use may be wrong in either direction, but it rises by at most one with
each safe insert, and a resize sets it back to zero and doubles the threshold. So a resize has to be
paid for by as many safe inserts as the threshold says, and there were few of them.

A failed resize changes nothing and costs nothing, so nothing is assumed of the allocator.

## Main definitions

* `safeInserts`, `resizes` — the safe inserts of a run, and those that resized the table
* `Grown` — threshold, bucket count and counter after so many inserts and resizes

## Main results

* `hashtblSz_mono`, `le_hashtblSz` — the two stages of the sizing
* `Grown.step` — one operation
* `growth_geometric` — any run
-/

namespace Milu

variable {K : Type}

/-! ### Sizes -/

/-- `roundf((float) b / _LOAD_FACTOR)` rounds `4 * b / 3` to the nearest integer. -/
def RoundsExactly (C : Clib K) : Prop := ∀ b : ℕ, (C.roundf b : ℤ) = round (4 * (b : ℚ) / 3)

theorem RoundsExactly.mono {C : Clib K} (hround : RoundsExactly C) {a b : ℕ} (hab : a ≤ b) :
    C.roundf a ≤ C.roundf b := by
  have hq : (a : ℚ) ≤ b := Nat.cast_le.mpr hab
  have hle : round (4 * (a : ℚ) / 3) ≤ round (4 * (b : ℚ) / 3) := by
    rw [round_eq, round_eq]
    refine Int.floor_le_floor ?_
    linarith
  rw [← hround, ← hround] at hle
  exact Int.ofNat_le.mp hle

theorem RoundsExactly.le {C : Clib K} (hround : RoundsExactly C) (b : ℕ) : b ≤ C.roundf b := by
  have hq : (0 : ℚ) ≤ b := Nat.cast_nonneg b
  have hle : (b : ℤ) ≤ round (4 * (b : ℚ) / 3) := by
    rw [round_eq]
    refine Int.le_floor.mpr ?_
    rw [Int.cast_natCast]
    linarith
  rw [← hround] at hle
  exact Int.ofNat_le.mp hle

/-- What the second stage makes of the rounded quotient is at least the quotient. -/
theorem roundf_le_hashtblSz (C : Clib K) (b : ℕ) : C.roundf b ≤ hashtblSz C b := by
  rw [hashtblSz]
  split_ifs
  · cases hf : hashtblPrimeSz.find? (C.roundf b ≤ ·) with
    | none => exact le_rfl
    | some p => simpa using List.find?_some hf
  · exact le_rfl

/-- **The bucket count is at least the threshold.** -/
theorem le_hashtblSz {C : Clib K} (hround : RoundsExactly C) (b : ℕ) : b ≤ hashtblSz C b :=
  (hround.le b).trans (roundf_le_hashtblSz C b)

/-- The least listed prime that reaches a number is at most any listed prime that does. -/
theorem find?_prime_le {a p q : ℕ} (hp : hashtblPrimeSz.find? (a ≤ ·) = some p)
    (hq : q ∈ hashtblPrimeSz) (ha : a ≤ q) : p ≤ q := by
  obtain ⟨-, l₁, l₂, hsplit, hl₁⟩ := List.find?_eq_some_iff_append.mp hp
  have hsorted : (l₁ ++ p :: l₂).Pairwise (· ≤ ·) := hsplit ▸ by decide
  rw [hsplit] at hq
  rcases List.mem_append.mp hq with hq | hq
  · have := hl₁ q hq
    simp at this
    omega
  · rcases List.mem_cons.mp hq with rfl | hq
    · exact le_rfl
    · exact (List.pairwise_cons.mp (List.pairwise_append.mp hsorted).2.1).1 q hq

/-- **A greater threshold has no fewer buckets.** -/
theorem hashtblSz_mono {C : Clib K} (hround : RoundsExactly C) {a b : ℕ} (hab : a ≤ b) :
    hashtblSz C a ≤ hashtblSz C b := by
  have hle := hround.mono hab
  have hlast : lastPrimeSz ∈ hashtblPrimeSz := by decide
  rw [hashtblSz, hashtblSz]
  by_cases ha : C.roundf a ≤ lastPrimeSz
  · obtain ⟨p, hp⟩ : ∃ p, hashtblPrimeSz.find? (C.roundf a ≤ ·) = some p :=
      Option.isSome_iff_exists.mp (List.find?_isSome.mpr ⟨_, hlast, by simpa using ha⟩)
    by_cases hb : C.roundf b ≤ lastPrimeSz
    · obtain ⟨q, hq⟩ : ∃ q, hashtblPrimeSz.find? (C.roundf b ≤ ·) = some q :=
        Option.isSome_iff_exists.mp (List.find?_isSome.mpr ⟨_, hlast, by simpa using hb⟩)
      have hbq : C.roundf b ≤ q := by simpa using List.find?_some hq
      simp only [if_pos ha, if_pos hb, hp, hq, Option.getD_some]
      exact find?_prime_le hp (List.mem_of_find?_eq_some hq) (hle.trans hbq)
    · simp only [if_pos ha, if_neg hb, hp, Option.getD_some]
      have := find?_prime_le hp hlast ha
      omega
  · have hb : ¬ C.roundf b ≤ lastPrimeSz := by omega
    simp only [if_neg ha, if_neg hb]
    exact hle

/-! ### Counting -/

/-- Is the operation a safe insert? -/
def TableOp.isInsertSafe : TableOp K → Bool
  | .insertSafe .. => true
  | _ => false

/-- Is it a safe insert that resizes the table? -/
def TableOp.resizes (C : Clib K) (h : HashTable K) (H : Heap) : TableOp K → Bool
  | .insertSafe e key len =>
    match hashEntryInit C.null Heap.malloc e key len H with
    | some (_, H) => Resizes C h H
    | none => false
  | _ => false

/-- The number of safe inserts in a run. -/
def safeInserts (steps : List (HashTable K × Heap × TableOp K)) : ℕ :=
  steps.countP fun p => p.2.2.isInsertSafe

/-- The number of those that resized the table. -/
def resizes (C : Clib K) (steps : List (HashTable K × Heap × TableOp K)) : ℕ :=
  steps.countP fun p => p.2.2.resizes C p.1 p.2.1

/-- The table after `n` safe inserts and `r` resizes, from a threshold of `b`. The safe inserts have
paid for the resizes, and for the counter. -/
structure Grown (C : Clib K) (b n r : ℕ) (h : HashTable K) : Prop where
  threshold : h.resizeThreshold = b * 2 ^ r
  buckets : h.buckets = hashtblSz C (b * 2 ^ r)
  paid : b * (2 ^ r - 1) + h.usedBuckets ≤ n
  strict : 1 ≤ r → b * (2 ^ r - 1) < n

/-! ### One operation -/

/-- The thresholds add up. -/
theorem doubled (b r : ℕ) : b * (2 ^ (r + 1) - 1) = b * 2 ^ r + b * (2 ^ r - 1) := by
  obtain ⟨x, hx⟩ := Nat.exists_eq_succ_of_ne_zero (pow_ne_zero r (two_ne_zero : (2 : ℕ) ≠ 0))
  have hpow : 2 ^ (r + 1) - 1 = (x + 1) + x := by
    rw [pow_succ, hx]
    omega
  rw [hpow, hx, Nat.succ_sub_one, mul_add]

namespace Grown

variable {C : Clib K} {b n r : ℕ} {h h' : HashTable K} {H H' : Heap}

theorem congr (hg : Grown C b n r h) (hthreshold : h'.resizeThreshold = h.resizeThreshold)
    (hbuckets : h'.buckets = h.buckets) (hused : h'.usedBuckets = h.usedBuckets) :
    Grown C b n r h' :=
  ⟨hthreshold.trans hg.threshold, hbuckets.trans hg.buckets, hused ▸ hg.paid, hg.strict⟩

theorem insertAt (hg : Grown C b n r h) (i : ℕ) (e : HashEntry K) :
    Grown C b (n + 1) r (h.insertAt i e) := by
  refine ⟨by rw [HashTable.insertAt_resizeThreshold, hg.threshold],
    by rw [HashTable.insertAt_buckets, hg.buckets], ?_, fun hr => ?_⟩
  · have hused := h.usedBuckets_insertAt_le i e
    have hpaid := hg.paid
    omega
  · have hstrict := hg.strict hr
    omega

/-- **A resize** comes when the counter has reached the threshold, and starts it again. -/
theorem resized (hg : Grown C b n r h) (hfull : h.resizeThreshold ≤ h.usedBuckets)
    (hlt : b * 2 ^ (r + 1) < 2 ^ 32) {h₁ : HashTable K} (hre : Rehashed C h h₁) (i : ℕ)
    (e : HashEntry K) : Grown C b (n + 1) (r + 1) (h₁.insertAt i e) := by
  have hdouble : h.resizeThreshold * 2 % 2 ^ 32 = b * 2 ^ (r + 1) := by
    rw [hg.threshold, mul_assoc, ← pow_succ, Nat.mod_eq_of_lt hlt]
  have hpaid := hg.paid
  rw [hg.threshold] at hfull
  have htotal : b * (2 ^ (r + 1) - 1) ≤ n := by
    rw [doubled]
    omega
  refine ⟨by rw [HashTable.insertAt_resizeThreshold, hre.threshold, hdouble],
    by rw [HashTable.insertAt_buckets, hre.buckets, hdouble], ?_, fun _ => ?_⟩
  · have hused := h₁.usedBuckets_insertAt_le i e
    rw [hre.used] at hused
    omega
  · omega

theorem delKey (hg : Grown C b n r h) {skey : Bool} {key : K} {len : ℕ}
    {a : Option (HashEntry K)}
    (hrun : (TableOp.delKey skey key len).run C h H = some ((h', a), H')) :
    Grown C b n r h' ∧ h.buckets ≤ h'.buckets := by
  rcases TableOp.run_delKey hrun with ⟨-, rfl⟩ | ⟨-, e, -, rfl⟩
  · exact ⟨hg, le_rfl⟩
  · exact ⟨hg.congr rfl rfl rfl, le_rfl⟩

/-- **One operation.** -/
theorem step (hround : RoundsExactly C) (hg : Grown C b n r h) (hp : h.Placed) {op : TableOp K}
    {a : Option (HashEntry K)} (hrun : op.run C h H = some ((h', a), H'))
    (hlt : b * 2 ^ (r + if op.resizes C h H then 1 else 0) < 2 ^ 32) :
    Grown C b (n + if op.isInsertSafe then 1 else 0) (r + if op.resizes C h H then 1 else 0) h' ∧
      h.buckets ≤ h'.buckets := by
  cases op with
  | insert e key len =>
    obtain ⟨ret, e', -, -, -, rfl, -⟩ := TableOp.run_insert hrun
    exact ⟨hg.congr rfl rfl rfl, le_rfl⟩
  | insertSafe e key len =>
    obtain ⟨ret, e', H₁, hinit, -, hins, -⟩ := TableOp.run_insertSafe hrun
    have hresizes : (TableOp.insertSafe e key len).resizes C h H = true ↔ Resizes C h H₁ := by
      rw [TableOp.resizes, hinit, decide_eq_true_iff]
    simp only [hresizes] at hlt ⊢
    obtain ⟨h₁, rfl, ⟨hnot, rfl, -⟩ | ⟨hres, -, hre⟩⟩ := hashTableInsertSafe_rehashed hp hins
    · rw [if_neg hnot]
      exact ⟨hg.insertAt _ _, (HashTable.insertAt_buckets ..).ge⟩
    · rw [if_pos hres] at hlt ⊢
      have hgrown := hg.resized hres.1 hlt hre (h₁.home e') e'
      refine ⟨hgrown, ?_⟩
      rw [hgrown.buckets, hg.buckets]
      exact hashtblSz_mono hround (Nat.mul_le_mul_left b (Nat.pow_le_pow_right (by decide)
        (Nat.le_succ r)))
  | delKey skey key len => exact hg.delKey hrun
  | delKeySafe skey key len => exact hg.delKey (TableOp.run_delKeySafe ▸ hrun)
  | lookupKey skey key len =>
    obtain rfl := TableOp.run_lookup hrun
    exact ⟨hg, le_rfl⟩
  | lookupKeySafe skey key len =>
    obtain rfl := TableOp.run_lookup hrun
    exact ⟨hg, le_rfl⟩

end Grown

/-! ### Whole runs -/

section

variable {C : Clib K} {b : ℕ} {h₀ h : HashTable K} {steps : List (HashTable K × Heap × TableOp K)}

/-- **The run lemma**, with `Grown` as the invariant. The last step is the first of the list, so the
bucket counts go down along it. -/
theorem TableRun.grown (hround : RoundsExactly C) (hp : h₀.Placed) (hg : Grown C b 0 0 h₀)
    (hrun : TableRun C h₀ steps h) (hlt : b * 2 ^ resizes C steps < 2 ^ 32) :
    Grown C b (safeInserts steps) (resizes C steps) h ∧
      (h.buckets :: steps.map fun p => p.1.buckets).Pairwise (· ≥ ·) := by
  induction hrun with
  | start => exact ⟨hg, List.pairwise_singleton ..⟩
  | @step steps h h' op r H H' hsteps _ hop ih =>
    have hinserts : safeInserts ((h, H, op) :: steps) =
        safeInserts steps + if op.isInsertSafe then 1 else 0 := List.countP_cons
    have hcount : resizes C ((h, H, op) :: steps) =
        resizes C steps + if op.resizes C h H then 1 else 0 := List.countP_cons
    rw [hcount] at hlt
    have hbefore : b * 2 ^ resizes C steps < 2 ^ 32 :=
      (Nat.mul_le_mul_left b (Nat.pow_le_pow_right (by decide) (Nat.le_add_right ..))).trans_lt hlt
    obtain ⟨hgrown, hsorted⟩ := ih hbefore
    obtain ⟨hgrown', hle⟩ := hgrown.step hround (hsteps.placed hp) hop hlt
    rw [hinserts, hcount]
    refine ⟨hgrown', ?_⟩
    rw [List.map_cons, List.pairwise_cons]
    refine ⟨fun c hc => ?_, hsorted⟩
    rcases List.mem_cons.mp hc with rfl | hc
    · exact hle
    · exact ((List.pairwise_cons.mp hsorted).1 c hc).trans hle

/-- **Growth is geometric and resizes are rare.** After any run from `hash_table_init` with a
threshold of `b`, with `r` resizes and as long as the threshold fits an `unsigned int`: the
threshold is `b * 2 ^ r`, the bucket count has never gone down and is no smaller, and more than
`b * (2 ^ r - 1)` safe inserts have paid for the resizes. -/
theorem growth_geometric (hround : RoundsExactly C) {keycmp : Option (K → K → ℕ → ℤ)}
    {hashFn : K → ℕ → ℕ} {H₀ H : Heap}
    (hinit : hashTableInit Heap.malloc C b keycmp (some hashFn) H₀ = some (some h₀, H))
    (hrun : TableRun C h₀ steps h) (hlt : b * 2 ^ resizes C steps < 2 ^ 32) :
    h.resizeThreshold = b * 2 ^ resizes C steps ∧
      (h.buckets :: steps.map fun p => p.1.buckets).Pairwise (· ≥ ·) ∧
      h.resizeThreshold ≤ h.buckets ∧
      (1 ≤ resizes C steps → b * (2 ^ resizes C steps - 1) < safeInserts steps) := by
  have hsmall : b < 2 ^ 32 :=
    (Nat.le_mul_of_pos_right b (pow_pos two_pos _)).trans_lt hlt
  have hstart : Grown C b 0 0 h₀ := by
    obtain ⟨tableMem, bucketLocks, rfl⟩ := eq_fresh_of_hashTableInit hinit
    rw [Nat.mod_eq_of_lt hsmall]
    refine ⟨(mul_one b).symm, ?_, Nat.zero_le _, fun hr => absurd hr (by decide)⟩
    rw [pow_zero, mul_one]
    rfl
  obtain ⟨hgrown, hsorted⟩ := hrun.grown hround (placed_of_hashTableInit hinit) hstart hlt
  refine ⟨hgrown.threshold, hsorted, ?_, hgrown.strict⟩
  rw [hgrown.threshold, hgrown.buckets]
  exact le_hashtblSz hround _

end

/-! ### Two inserts into a table for one -/

theorem roundsExactly_nearest : RoundsExactly Clib.nearest := by
  intro b
  have hfloor : round (4 * (b : ℚ) / 3) = ⌊((8 * b + 3 : ℕ) : ℚ) / (6 : ℕ)⌋ := by
    rw [round_eq]
    refine congrArg _ ?_
    push_cast
    ring
  rw [hfloor, Rat.floor_natCast_div_natCast]
  rfl

/-- Two safe inserts, the later one first. -/
def tightSteps : List (HashTable ℕ × Heap × TableOp ℕ) :=
  [(tightTable.insertAt 5 ⟨100, 5, 8, false⟩, tightHeap,
      .insertSafe ⟨200, 0, 0, false⟩ (.int 6) 8),
    (tightTable, tightHeap, .insertSafe ⟨100, 0, 0, false⟩ (.int 5) 8)]

theorem tightSteps_run : ∃ h, TableRun Clib.nearest tightTable tightSteps h := by
  have hempty : tightTable.entries = [] := entries_fresh ..
  have hp : tightTable.Placed := placed_fresh ..
  set h₁ := tightTable.insertAt 5 ⟨100, 5, 8, false⟩
  have hmem : ∀ t ∈ h₁.entries, t = ⟨100, 5, 8, false⟩ := by
    intro t ht
    have hperm := tightTable.entries_insertAt (n := 5) (by decide) ⟨100, 5, 8, false⟩
    rw [hempty] at hperm
    exact List.mem_singleton.mp (hperm.mem_iff.mp ht)
  have hp₁ : h₁.Placed := hp.insertAt (e := ⟨100, 5, 8, false⟩) (by simp [hempty])
  have hr₁ : h₁.Reflexive := by
    intro t ht
    rw [hmem t ht]
    decide
  obtain ⟨h₂, H₂, hins⟩ := hashTableInsertSafe_returns Clib.nearest hp₁ hr₁ (by decide)
    ⟨200, 6, 8, false⟩ (H := tightHeap) fun _ _ => by decide
  have hfirst : (TableOp.insertSafe ⟨100, 0, 0, false⟩ (.int 5) 8).run Clib.nearest tightTable
      tightHeap = some ((h₁, none), tightHeap) := rfl
  have hsecond : (TableOp.insertSafe ⟨200, 0, 0, false⟩ (.int 6) 8).run Clib.nearest h₁
      tightHeap = some ((h₂, none), H₂) := by
    have hentry := hashEntryInit_int (C := Clib.nearest) ⟨200, 0, 0, false⟩ 6
      (by decide : 8 ≤ sizeofPtr) tightHeap
    rw [TableOp.run, hashTableInsertSafeI, bind_assoc, HeapM.bind_apply hentry]
    exact HeapM.bind_apply hins _
  refine ⟨h₂, .step (.step .start ?_ hfirst) ?_ hsecond⟩
  · intro t ht
    simp [hempty] at ht
  · intro t ht
    rw [hmem t ht]
    decide

theorem growth_geometric_twoInserts : safeInserts tightSteps = 2 ∧
    resizes Clib.nearest tightSteps = 1 ∧ ∃ h, TableRun Clib.nearest tightTable tightSteps h ∧
      h.resizeThreshold = 1 * 2 ^ resizes Clib.nearest tightSteps ∧
      h.resizeThreshold ≤ h.buckets := by
  have hinserts : safeInserts tightSteps = 2 := rfl
  have hresizes : resizes Clib.nearest tightSteps = 1 := by decide +kernel
  obtain ⟨h, hrun⟩ := tightSteps_run
  have hlt : 1 * 2 ^ resizes Clib.nearest tightSteps < 2 ^ 32 := by
    rw [hresizes]
    decide
  obtain ⟨hthreshold, -, hle, -⟩ := growth_geometric roundsExactly_nearest tightTable_init hrun hlt
  exact ⟨hinserts, hresizes, h, hrun, hthreshold, hle⟩

end Milu
