import Milu.Pool.Construction

/-!
# How many pools a bank counts

A bank counts its pools in 16 bits, and `_max_pools` says how many it may have, where `0` stands for
no limit. Nothing looks at the count of a growing bank before it is raised, so the 65536th pool sets
it to zero; and a bank that is made with no pools and is not to grow has the limit `0`, so it grows.

## Main definitions

* `CountedExactly` — what the count is to be, and how far it may go
* `BankStep.Fits` — a call that neither bumps the count past 16 bits nor grows a bank of no pools

## Main results

* `createBank_counts` — the count and the limit of a new bank
* `pool_count_iff` — the count is exact and capped exactly as long as every call fits
* `pool_count_uncapped` — a bank of no pools that grows
-/

namespace Milu

/-- The bank `b`, made for `nPools` pools, counts these and the pools that the calls have added; it
does not change when no pool can be added; and it has no more pools than it was made for when it is
not to grow. -/
structure CountedExactly (nPools : ℕ) (growing : Bool) (steps : List BankStep)
    (b : Bank) : Prop where
  count : b.allocdPools = nPools % 2 ^ 16 + poolsAdded steps
  failed : ∀ L b' L', addPool Ledger.malloc Ledger.free (some b) L = ((-1, some b'), L') → b' = b
  capped : growing = false → b.allocdPools ≤ nPools % 2 ^ 16

/-- A call of `add_pool` that gets all its memory finds room in the count, and a bank that is to
grow or was made with pools. Any other call fits. -/
def BankStep.Fits (nPools : ℕ) (growing : Bool) (s : BankStep) : Prop :=
  ∀ ret, s.event = .added ret → s.bank.Grows s.ledger.heap →
    s.bank.allocdPools + 1 < 2 ^ 16 ∧ (growing = false → nPools % 2 ^ 16 ≠ 0)

variable {nPools poolsize objsize : ℕ} {growing : Bool} {b₀ b : Bank} {L₀ L₁ L : Ledger}
  {steps : List BankStep}

/-- The count and the limit of a new bank, whatever the allocator refused. -/
theorem createBank_counts
    (hmade : createBank Ledger.malloc Ledger.free nPools growing poolsize objsize L₀ =
      (some b₀, L₁)) :
    b₀.allocdPools = nPools % 2 ^ 16 ∧
      b₀.maxPools = if growing then 0 else nPools % 2 ^ 16 := by
  rcases createBank_ledger nPools growing poolsize objsize L₀ with
    ⟨L', hcall, -⟩ | ⟨addr, mem, L', hcall, -⟩
  · exact absurd (Prod.mk.inj (hmade.symm.trans hcall)).1 (Option.some_ne_none b₀)
  set bare := Bank.bare addr (if growing then 0 else nPools % 2 ^ 16) poolsize objsize mem
  rcases createBankLoop_ledger poolsize objsize (nPools % 2 ^ 16) bare L'
    (by decide : 0 < 2 ^ 16) with ⟨L'', hloop, -⟩ | ⟨ps, L'', hloop, hlen, -⟩
  · exact absurd (Prod.mk.inj (hmade.symm.trans (hcall.trans hloop))).1 (Option.some_ne_none b₀)
  · obtain rfl := Option.some.inj (Prod.mk.inj (hmade.symm.trans (hcall.trans hloop))).1
    refine ⟨?_, rfl⟩
    show (0 + ps.length) % 2 ^ 16 = nPools % 2 ^ 16
    rw [hlen, Nat.zero_add, Nat.mod_mod]

/-- The calls fit exactly when the count has room for the pools that they add, and none is added to
a bank that is not to grow. -/
theorem BankCalls.fits_iff (hcalls : BankCalls b₀ L₁ steps b L)
    (hcount : b₀.allocdPools = nPools % 2 ^ 16)
    (hmax : b₀.maxPools = if growing then 0 else nPools % 2 ^ 16) :
    (∀ s ∈ steps, s.Fits nPools growing) ↔
      nPools % 2 ^ 16 + poolsAdded steps < 2 ^ 16 ∧ (growing = false → poolsAdded steps = 0) := by
  have hlt : nPools % 2 ^ 16 < 2 ^ 16 := Nat.mod_lt _ (by decide)
  induction hcalls with
  | start => exact iff_of_true (fun s hs => absurd hs List.not_mem_nil) ⟨hlt, fun _ => rfl⟩
  | @add steps b L ret b' L' h hadd ih =>
    refine List.forall_mem_cons.trans ((and_congr_right' ih).trans ?_)
    obtain ⟨hb, hbmax⟩ := h.count (hcount ▸ hlt)
    rw [hcount] at hb
    rcases addPool_cases hadd with ⟨rfl, -, hno, -⟩ | ⟨rfl, hgrows, -⟩
    · exact and_iff_right fun _ _ hgrows => absurd hgrows hno
    · have hadded : poolsAdded (⟨b, L, .added 0⟩ :: steps) = poolsAdded steps + 1 :=
        List.countP_cons_of_pos (by simp)
      rw [hadded]
      constructor
      · rintro ⟨hfits, hroom, hfixed⟩
        obtain ⟨hnext, hpools⟩ := hfits 0 rfl hgrows
        rw [hb, Nat.mod_eq_of_lt hroom] at hnext
        refine ⟨hnext, fun hg => ?_⟩
        -- a bank that is not to grow and was made with pools is full
        refine absurd ⟨?_, ?_⟩ hgrows.1 <;> rw [hbmax, hmax, hg, if_neg (by decide)]
        · exact hpools hg
        · rw [hb, hfixed hg, Nat.add_zero, Nat.mod_mod]
      · rintro ⟨hroom, hfixed⟩
        refine ⟨fun _ _ _ => ⟨?_, fun hg => absurd (hfixed hg) (Nat.succ_ne_zero _)⟩, by omega,
          fun hg => absurd (hfixed hg) (Nat.succ_ne_zero _)⟩
        show b.allocdPools + 1 < 2 ^ 16
        rw [hb, Nat.mod_eq_of_lt (by omega)]
        exact hroom
  | get _ _ ih => exact List.forall_mem_cons.trans (and_iff_right (by rintro _ ⟨⟩)) |>.trans ih
  | put _ _ _ ih => exact List.forall_mem_cons.trans (and_iff_right (by rintro _ ⟨⟩)) |>.trans ih

/-- **The count is exact and capped** exactly as long as every call fits. -/
theorem pool_count_iff
    (hmade : createBank Ledger.malloc Ledger.free nPools growing poolsize objsize L₀ =
      (some b₀, L₁))
    (hcalls : BankCalls b₀ L₁ steps b L) :
    CountedExactly nPools growing steps b ↔ ∀ s ∈ steps, s.Fits nPools growing := by
  obtain ⟨hcount, hmax⟩ := createBank_counts hmade
  have hlt : nPools % 2 ^ 16 < 2 ^ 16 := Nat.mod_lt _ (by decide)
  have hb := (hcalls.count (hcount ▸ hlt)).1
  rw [hcalls.fits_iff hcount hmax]
  rw [hcount] at hb
  constructor
  · intro h
    have hroom : nPools % 2 ^ 16 + poolsAdded steps < 2 ^ 16 := by
      rw [← h.count, hb]
      exact Nat.mod_lt _ (by decide)
    refine ⟨hroom, fun hg => ?_⟩
    have hle := h.capped hg
    rw [h.count] at hle
    omega
  · rintro ⟨hroom, hfixed⟩
    rw [Nat.mod_eq_of_lt hroom] at hb
    refine ⟨hb, fun L b' L' hadd => ?_, fun hg => ?_⟩
    · rcases addPool_cases hadd with ⟨-, hsame, -⟩ | ⟨hret, -⟩
      · exact hsame
      · exact absurd hret (by decide)
    · rw [hb, hfixed hg, Nat.add_zero]

/-- A growing bank of one pool is given a second one. -/
theorem pool_count_iff_two : ∃ b₀ L₁ b L,
    createBank Ledger.malloc Ledger.free 1 true 2 16 (Ledger.opened pageHeap) = (some b₀, L₁) ∧
      addPool Ledger.malloc Ledger.free (some b₀) L₁ = ((0, some b), L) ∧ b.allocdPools = 2 := by
  obtain ⟨b₀, L₁, hmade, hone, b, L, hadd⟩ : ∃ b₀ L₁,
      createBank Ledger.malloc Ledger.free 1 true 2 16 (Ledger.opened pageHeap) = (some b₀, L₁) ∧
        b₀.allocdPools = 1 ∧ ∃ b L,
          addPool Ledger.malloc Ledger.free (some b₀) L₁ = ((0, some b), L) :=
    ⟨_, _, rfl, rfl, _, _, rfl⟩
  have hcounted := (pool_count_iff hmade (.add .start hadd)).mpr fun s hs _ _ _ => by
    rw [List.mem_singleton.mp hs]
    exact ⟨by rw [hone]; decide, fun hg => absurd hg (by decide)⟩
  exact ⟨b₀, L₁, b, L, hmade, hadd, hcounted.count⟩

/-- **A bank of no pools** that is not to grow is given one. -/
theorem pool_count_uncapped : ∃ b₀ L₁ b L,
    createBank Ledger.malloc Ledger.free 0 false 2 16 (Ledger.opened pageHeap) = (some b₀, L₁) ∧
      BankCalls b₀ L₁ [⟨b₀, L₁, .added 0⟩] b L ∧
      ¬ CountedExactly 0 false [⟨b₀, L₁, .added 0⟩] b := by
  refine ⟨_, _, _, _, rfl, .add .start rfl, fun h => ?_⟩
  exact absurd (h.capped rfl) (by decide)

end Milu
