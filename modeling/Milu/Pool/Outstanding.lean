import Milu.Pool.Conservation

/-!
# A bank from which records are only taken

`milu.c` asks for one pool and never puts anything back. What `create_bank` gives it is `NULL`, or a
bank with one pool, or, when the pool could not be made, a bank with a `NULL` for its pool.

## Main definitions

* `Bank.outstanding` — how many addresses are out
* `Bank.owns` — is the address inside the memory of a pool?
* `BankState` — the banks that `create_bank` makes, and gets
* `Stocked` — a bank whose pools were all made

## Main results

* `createBank_state`, `BankState.get` — what the bank is like, from the start and after each get
* `BankState.outstanding_eq` — the addresses that are out are the ones that were handed out
* `Stocked.get_eq_zero_iff` — when the bank runs out
-/

namespace Milu

/-! ### What is out -/

/-- How many addresses are out: a get moves a node to `avail_q`, and a put moves one back. -/
def Bank.outstanding (b : Bank) : ℕ := (b.bank.map fun p => p.elim 0 fun P => P.availQ.length).sum

/-- Is the address inside the memory of a pool? -/
def Bank.owns (b : Bank) (x : ℕ) : Bool := b.bank.any fun p => p.elim false (Pool.owns · x)

theorem poolGetPtr_owns (p : Option Pool) (x : ℕ) :
    (poolGetPtr p).2.elim false (Pool.owns · x) = p.elim false (Pool.owns · x) := by
  cases p with
  | none => rfl
  | some P =>
    rcases poolGetPtr_cases P with ⟨-, h⟩ | ⟨lh, q, -, h⟩ <;> rw [h]
    exact congrFun Pool.taken_sameBlock.owns_eq x

theorem bankGetLoop_owns (x : ℕ) : ∀ ps : List (Option Pool),
    ((bankGetLoop ps).2.any fun p => p.elim false (Pool.owns · x)) =
      ps.any fun p => p.elim false (Pool.owns · x)
  | [] => rfl
  | p :: ps => by
    have hhead := poolGetPtr_owns p x
    rw [bankGetLoop]
    dsimp only
    split_ifs
    · rw [List.any_cons, List.any_cons, hhead]
    · rw [List.any_cons, List.any_cons, hhead, bankGetLoop_owns x ps]

theorem bankGetPtr_owns (ps : Option Bank) (x : ℕ) :
    (bankGetPtr ps).2.elim false (Bank.owns · x) = ps.elim false (Bank.owns · x) := by
  cases ps with
  | none => rfl
  | some b =>
    show ((bankGetLoop (b.bank.take b.allocdPools)).2 ++ b.bank.drop b.allocdPools).any _ = _
    rw [List.any_append, bankGetLoop_owns, ← List.any_append, List.take_append_drop]
    rfl

/-- The first address that a bank of one new pool hands out is that of the block of the pool. -/
theorem bankGetPtr_fresh {b : Bank} {addr n oSz mem entries : ℕ}
    (hbank : b.bank = [some (Pool.fresh addr (n + 1) oSz mem entries)])
    (hallocd : b.allocdPools = 1)
    (hne : mem ≠ 0) (hlt : mem < 2 ^ 64) : (bankGetPtr (some b)).1 = mem := by
  have hfirst : (poolGetPtr (some (Pool.fresh addr (n + 1) oSz mem entries))).1 = mem := by
    rw [Pool.fresh_eq addr (n + 1) oSz entries hlt, List.range_succ_eq_map]
    show (if 0 < n + 1 then (mem + 0 * oSz) % 2 ^ 64 else 0) = mem
    rw [if_pos (Nat.succ_pos n), Nat.zero_mul, Nat.add_zero, Nat.mod_eq_of_lt hlt]
  show (bankGetLoop (b.bank.take b.allocdPools)).1 = mem
  rw [hbank, hallocd]
  show (bankGetLoop [some (Pool.fresh addr (n + 1) oSz mem entries)]).1 = mem
  rw [bankGetLoop]
  dsimp only
  rw [hfirst, if_pos hne]

namespace BankInv

variable {pools : List Pool} {b : Bank} {held : List ℕ} {H : Heap}

theorem owns_iff (hi : BankInv pools b held H) {x : ℕ} :
    b.owns x = true ↔ ∃ P ∈ pools, P.owns x = true := by
  rw [Bank.owns, hi.bank_eq, List.any_map, List.any_eq_true]
  rfl

theorem outstanding_eq (hi : BankInv pools b held H) : b.outstanding = held.length := by
  have hperm : (pools.flatMap fun P => held.filter P.owns).Perm held :=
    flatMap_filter_owner hi.owned hi.owners_apart
  have hlen : pools.map (fun P => (held.filter P.owns).length) =
      pools.map fun P => P.availQ.length :=
    List.map_congr_left fun P hP => (hi.ok P hP).length_held
  rw [Bank.outstanding, hi.bank_eq, List.map_map, ← hperm.length_eq, List.length_flatMap, hlen]
  rfl

end BankInv

/-! ### From `create_bank` on -/

/-- What `_milu_pools` may be while the addresses `held` are out. -/
inductive BankState : Option Bank → List ℕ → Prop
  | none : BankState none []
  /-- The pool could not be made. -/
  | null {b : Bank} : b.bank = [Option.none] → BankState (some b) []
  | ready {pools : List Pool} {b : Bank} {held : List ℕ} {H : Heap} : BankInv pools b held H →
      BankState (some b) held

/-- **A new bank** of one pool. -/
theorem createBank_state {growing : Bool} {poolsize objsize : ℕ} (hs : Sizes poolsize objsize)
    {H H' : Heap} {r : Option Bank}
    (h : createBank Heap.malloc Heap.free 1 growing poolsize objsize H = some (r, H')) :
    BankState r [] := by
  rcases createBank_cases h with rfl | ⟨addr, bankMem, H₁, hmem, -, hloop⟩
  · exact .none
  generalize (if growing = true then 0 else 1 % 2 ^ 16) = maxPools at hloop
  rw [Nat.mod_eq_of_lt hs.poolsz_lt, Nat.mod_eq_of_lt hs.objsz_lt,
    show 1 % 2 ^ 16 = 0 + 1 from rfl, createBankLoop] at hloop
  obtain ⟨p, H₂, hpool, hrest⟩ := HeapM.of_bind hloop
  rw [if_neg fun hc => absurd hc.2 (by simp)] at hrest
  obtain ⟨rfl, -⟩ := HeapM.pure_inj hrest
  rcases createPool_spec hs.poolsz_lt hs.objsz_lt hs.fits hpool with
    ⟨rfl, -, -⟩ | ⟨P, rfl, hP, hn, ho, hblock, hap, hlive⟩
  · exact .null rfl
  · have hi : BankInv [] ⟨addr, maxPools, 0, poolsize, objsize, bankMem, []⟩ [] H₁ :=
      .empty hs hmem
    exact .ready (hi.push (by decide) hP hn ho hblock hap hlive)

namespace BankState

variable {ps : Option Bank} {held : List ℕ}

/-- **A get** hands out one address more, or none. -/
theorem get (h : BankState ps held) (hne : (bankGetPtr ps).1 ≠ 0) :
    BankState (bankGetPtr ps).2 ((bankGetPtr ps).1 :: held) := by
  cases h with
  | none => exact absurd rfl hne
  | @null b hb =>
    have hzero : (bankGetPtr (some b)).1 = 0 := by
      show (bankGetLoop (b.bank.take b.allocdPools)).1 = 0
      rw [hb]
      cases b.allocdPools with
      | zero => rfl
      | succ n => simp [bankGetLoop, poolGetPtr]
    exact absurd hzero hne
  | ready hi =>
    rcases hi.get with ⟨-, hget⟩ | ⟨x, b', pools', -, -, hget, -, -, hi'⟩ <;> rw [hget] at hne ⊢
    · exact absurd rfl hne
    · exact .ready hi'

theorem nodup (h : BankState ps held) : held.Nodup := by
  cases h with
  | none => exact List.nodup_nil
  | null _ => exact List.nodup_nil
  | ready hi => exact hi.conserved.distinct

theorem outstanding_eq (h : BankState ps held) : ps.elim 0 Bank.outstanding = held.length := by
  cases h with
  | none => rfl
  | @null b hb =>
    show b.outstanding = 0
    rw [Bank.outstanding, hb]
    rfl
  | ready hi => exact hi.outstanding_eq

theorem owns_of_mem (h : BankState ps held) {x : ℕ} (hx : x ∈ held) :
    ps.elim false (Bank.owns · x) = true := by
  cases h with
  | none => exact absurd hx List.not_mem_nil
  | null _ => exact absurd hx List.not_mem_nil
  | ready hi => exact hi.owns_iff.mpr (hi.owned x hx)

theorem ne_zero_of_owns (h : BankState ps held) {x : ℕ}
    (hx : ps.elim false (Bank.owns · x) = true) : x ≠ 0 := by
  cases h with
  | none => exact absurd hx Bool.false_ne_true
  | @null b hb =>
    have hnot : b.owns x = false := by
      rw [Bank.owns, hb]
      rfl
    exact absurd (hnot.symm.trans hx) Bool.false_ne_true
  | ready hi =>
    obtain ⟨P, hP, hown⟩ := hi.owns_iff.mp hx
    have hbase := (hi.ok P hP).base_ne
    have hlo := (Pool.owns_iff.mp hown).1
    omega

end BankState

/-! ### A bank that runs out -/

/-- A bank of `c` slots, of which those at `held` are out. -/
def Stocked (c : ℕ) (ps : Option Bank) (held : List ℕ) : Prop :=
  ∃ pools b H, ps = some b ∧ BankInv pools b held H ∧ b.poolsz * b.allocdPools = c

namespace Stocked

variable {c : ℕ} {ps : Option Bank} {held : List ℕ}

/-- **A get finds nothing** exactly when every slot is out; a growing bank makes no exception. -/
theorem get_eq_zero_iff (h : Stocked c ps held) : (bankGetPtr ps).1 = 0 ↔ held.length = c := by
  obtain ⟨pools, b, H, rfl, hi, rfl⟩ := h
  exact hi.conserved.get

theorem get (h : Stocked c ps held) (hne : (bankGetPtr ps).1 ≠ 0) :
    Stocked c (bankGetPtr ps).2 ((bankGetPtr ps).1 :: held) := by
  obtain ⟨pools, b, H, rfl, hi, rfl⟩ := h
  rcases hi.get with ⟨-, hget⟩ | ⟨x, b', pools', -, -, hget, hpoolsz, -, hi'⟩
  · rw [hget] at hne
    exact absurd rfl hne
  · have hallocd : b'.allocdPools = b.allocdPools := by
      have hsnd : (bankGetPtr (some b)).2 = some b' := by rw [hget]
      rw [bankGetPtr, Option.some.injEq] at hsnd
      rw [← hsnd]
    rw [hget]
    exact ⟨pools', b', H, rfl, hi', by rw [hpoolsz, hallocd]⟩

end Stocked

theorem BankState.stocked {b : Bank} {held : List ℕ} (h : BankState (some b) held)
    (hb : b.bank ≠ [Option.none]) : Stocked (b.poolsz * b.allocdPools) (some b) held := by
  cases h with
  | null hnull => exact absurd hnull hb
  | ready hi => exact ⟨_, b, _, rfl, hi, rfl⟩

end Milu
