import Milu.Pool.Slots
import Mathlib.Data.List.Pairwise

/-!
# Conservation of slots in a bank

A bank is a row of pools with disjoint blocks. A get asks the pools in order until one has a slot
left; a put is offered to the pools in order and taken by the one whose block the address is in. The
clients' addresses and the available ones are at all times the slots of all pools, each once.

## Main definitions

* `BankInv` — the invariant of a bank whose clients hold the addresses `held`
* `BankRun` — the banks reached by gets, puts of held addresses and new pools
* `Conserved` — what the bank promises its clients

## Main results

* `BankInv.get`, `BankInv.put`, `BankInv.addPool` — one operation
* `BankRun.inv` — every run
* `bank_conserved` — conservation and exhaustion
-/

namespace Milu

/-! ### Making pools -/

theorem createPool_counts (pSz oSz : ℕ) :
    HeapM.Counts (createPool Heap.malloc Heap.free pSz oSz) := by
  rw [createPool]
  refine .bind (.malloc _) fun p => ?_
  cases p with
  | none => exact .pure _
  | some p =>
    refine .bind (.malloc _) fun mem => ?_
    cases mem with
    | none => exact .bind (.free _) fun _ => .pure _
    | some mem =>
      refine .bind (.malloc _) fun e => ?_
      cases e with
      | none => exact .bind (.free _) fun _ => .bind (.free _) fun _ => .pure _
      | some e => exact .pure _

theorem createBankLoop_counts (poolsize objsize : ℕ) : ∀ (k : ℕ) (b : Bank),
    HeapM.Counts (createBankLoop Heap.malloc Heap.free poolsize objsize k b)
  | 0, _ => .pure _
  | k + 1, b => by
    rw [createBankLoop]
    refine .bind (createPool_counts _ _) fun p => ?_
    split_ifs
    · exact .bind (.free _) fun _ => .bind (.free _) fun _ => .pure _
    · exact createBankLoop_counts poolsize objsize k _

/-- **Making a pool** fails and leaves the live blocks live, or makes a pool in a block of its
own. -/
theorem createPool_spec {pSz oSz : ℕ} (hp : pSz < 2 ^ 16) (ho : oSz < 2 ^ 64)
    (hfit : pSz * oSz < 2 ^ 64) {H H' : Heap} {r : Option Pool}
    (h : createPool Heap.malloc Heap.free pSz oSz H = some (r, H')) :
    (r = none ∧ H.refused < H'.refused ∧ H.live ⊆ H'.live) ∨
      ∃ P, r = some P ∧ P.Ok [] ∧ P.nobjs = pSz ∧ P.objSz = oSz ∧ P.block ∈ H'.live ∧
        (∀ l ∈ H.live, P.block.Apart l) ∧ H.live ⊆ H'.live := by
  have hcases := createPool_cases h
  rw [Nat.mod_eq_of_lt hp, Nat.mod_eq_of_lt ho, Nat.mod_eq_of_lt hfit] at hcases
  rcases hcases with hrefused | ⟨addr, mem, entries, rfl, hfresh, hin, hlive⟩
  · exact .inl hrefused
  · obtain ⟨hne, hend, hapart⟩ := hfresh
    have hsize : pSz * oSz ≤ (Block.mk mem (pSz * oSz)).span :=
      Block.size_le_span (Block.mk mem (pSz * oSz))
    have hspan : mem + (Block.mk mem (pSz * oSz)).span < 2 ^ 64 := hend
    have hok : (Pool.fresh addr pSz oSz mem entries).Ok [] :=
      Pool.fresh_ok addr pSz oSz entries hne (by omega)
    have hfresh_eq := Pool.fresh_eq addr pSz oSz entries (by omega : mem < 2 ^ 64)
    have hblock : (Pool.fresh addr pSz oSz mem entries).block = ⟨mem, pSz * oSz⟩ := by
      rw [hfresh_eq]
      rfl
    refine .inr ⟨_, rfl, hok, by rw [hfresh_eq], by rw [hfresh_eq], ?_, ?_, hlive⟩
    · rwa [hblock]
    · rwa [hblock]

/-! ### The invariant of a bank -/

/-- Sizes of their types, with at least one byte to an object and a block for a pool that is not too
large to ask for. -/
structure Sizes (poolsz objsz : ℕ) : Prop where
  objsz_pos : 0 < objsz
  objsz_lt : objsz < 2 ^ 64
  poolsz_lt : poolsz < 2 ^ 16
  fits : poolsz * objsz < 2 ^ 64

/-- A bank of the pools `pools` whose clients hold the addresses `held`. -/
structure BankInv (pools : List Pool) (b : Bank) (held : List ℕ) (H : Heap) : Prop where
  sizes : Sizes b.poolsz b.objsz
  bank_eq : b.bank = pools.map some
  allocd_eq : b.allocdPools = pools.length
  count_lt : pools.length < 2 ^ 16
  nobjs_eq : ∀ P ∈ pools, P.nobjs = b.poolsz
  objSz_eq : ∀ P ∈ pools, P.objSz = b.objsz
  ok : ∀ P ∈ pools, P.Ok (held.filter P.owns)
  owned : ∀ x ∈ held, ∃ P ∈ pools, P.owns x = true
  live : ∀ P ∈ pools, P.block ∈ H.live
  apart : (pools.map Pool.block).Pairwise Block.Apart
  array : ∀ P ∈ pools, P.poolMem ≠ b.bankMem
  array_live : b.bankMem = 0 ∨ ∃ l ∈ H.live, l.base = b.bankMem

theorem Pool.not_owns_of_apart {P Q : Pool} (h : P.block.Apart Q.block) {x : ℕ}
    (hx : P.owns x = true) : Q.owns x = false := by
  rw [Bool.eq_false_iff]
  intro hq
  have hP := Pool.owns_iff.mp hx
  have hQ := Pool.owns_iff.mp hq
  have hPs : P.nobjs * P.objSz ≤ P.block.span := P.block.size_le_span
  have hQs : Q.nobjs * Q.objSz ≤ Q.block.span := Q.block.size_le_span
  have hap : P.poolMem + P.block.span ≤ Q.poolMem ∨ Q.poolMem + Q.block.span ≤ P.poolMem := h
  omega

namespace BankInv

variable {pools : List Pool} {b : Bank} {held : List ℕ} {H H' : Heap}

/-- The invariant looks at the heap for the blocks of the pools only. -/
theorem heap (hi : BankInv pools b held H) (hlive : H.live ⊆ H'.live) : BankInv pools b held H' :=
  { hi with
    live := fun P hP => hlive (hi.live P hP)
    array_live := hi.array_live.imp_right fun ⟨l, hl, hb⟩ => ⟨l, hlive hl, hb⟩ }

theorem apart_others {pre post : List Pool} {P : Pool} (hi : BankInv (pre ++ P :: post) b held H) :
    ∀ Q ∈ pre ++ post, P.block.Apart Q.block := by
  have hap := hi.apart
  rw [List.map_append, List.map_cons, List.pairwise_middle Block.Apart.symm,
    List.pairwise_cons] at hap
  intro Q hQ
  refine hap.1 Q.block ?_
  rw [← List.map_append]
  exact List.mem_map.mpr ⟨Q, hQ, rfl⟩

/-- One pool changed hands of some addresses that are all its own. -/
theorem replace {pre post : List Pool} {P P' : Pool} (hi : BankInv (pre ++ P :: post) b held H)
    (hsame : P'.SameBlock P) {held' : List ℕ} (hok : P'.Ok (held'.filter P.owns))
    (hothers : ∀ Q ∈ pre ++ post, held'.filter Q.owns = held.filter Q.owns)
    (howned : ∀ x ∈ held', ∃ Q ∈ pre ++ P :: post, Q.owns x = true) :
    BankInv (pre ++ P' :: post) { b with bank := (pre ++ P' :: post).map some } held' H := by
  have hmem : ∀ Q, Q ∈ pre ++ P' :: post ↔ Q = P' ∨ Q ∈ pre ++ post := by
    intro Q
    simp only [List.mem_append, List.mem_cons]
    tauto
  have hP : P ∈ pre ++ P :: post := by simp
  have hrest : ∀ Q ∈ pre ++ post, Q ∈ pre ++ P :: post := by
    intro Q hQ
    simp only [List.mem_append, List.mem_cons] at hQ ⊢
    tauto
  refine ⟨hi.sizes, rfl, ?_, ?_, ?_, ?_, ?_, ?_, ?_, ?_, ?_, hi.array_live⟩
  · rw [hi.allocd_eq]
    simp
  · have := hi.count_lt
    simpa using this
  · intro Q hQ
    rcases (hmem Q).mp hQ with rfl | hQ
    · exact hsame.nobjs.trans (hi.nobjs_eq P hP)
    · exact hi.nobjs_eq Q (hrest Q hQ)
  · intro Q hQ
    rcases (hmem Q).mp hQ with rfl | hQ
    · exact hsame.objSz.trans (hi.objSz_eq P hP)
    · exact hi.objSz_eq Q (hrest Q hQ)
  · intro Q hQ
    rcases (hmem Q).mp hQ with rfl | hQ
    · rw [hsame.owns_eq]
      exact hok
    · rw [hothers Q hQ]
      exact hi.ok Q (hrest Q hQ)
  · intro x hx
    obtain ⟨Q, hQ, hown⟩ := howned x hx
    rcases List.mem_append.mp hQ with hQ | hQ
    · exact ⟨Q, (hmem Q).mpr (.inr (List.mem_append_left _ hQ)), hown⟩
    · rcases List.mem_cons.mp hQ with rfl | hQ
      · exact ⟨P', (hmem P').mpr (.inl rfl), by rw [hsame.owns_eq]; exact hown⟩
      · exact ⟨Q, (hmem Q).mpr (.inr (List.mem_append_right _ hQ)), hown⟩
  · intro Q hQ
    rcases (hmem Q).mp hQ with rfl | hQ
    · rw [hsame.block_eq]
      exact hi.live P hP
    · exact hi.live Q (hrest Q hQ)
  · have hap := hi.apart
    rwa [List.map_append, List.map_cons, hsame.block_eq, ← List.map_cons, ← List.map_append]
  · intro Q hQ
    rcases (hmem Q).mp hQ with rfl | hQ
    · rw [hsame.poolMem]
      exact hi.array P hP
    · exact hi.array Q (hrest Q hQ)

theorem base_ne_array (hi : BankInv pools b held H) {l : Block} (hne : l.base ≠ 0)
    (hap : ∀ t ∈ H.live, l.Apart t) : l.base ≠ b.bankMem := by
  rcases hi.array_live with h0 | ⟨t, ht, hb⟩
  · rwa [h0]
  · rw [← hb]
    exact (hap t ht).base_ne

/-- One pool more, in a block of its own, and an array for the longer row. -/
theorem grow (hi : BankInv pools b held H) (H' : Heap) {P : Pool} (hP : P.Ok [])
    (hn : P.nobjs = b.poolsz) (ho : P.objSz = b.objsz) (hap : ∀ Q ∈ pools, P.block.Apart Q.block)
    (hlive : ∀ Q ∈ pools ++ [P], Q.block ∈ H'.live) (hcount : pools.length + 1 < 2 ^ 16)
    {mem : ℕ} (harray : ∀ Q ∈ pools ++ [P], Q.poolMem ≠ mem)
    (hmem : mem = 0 ∨ ∃ l ∈ H'.live, l.base = mem) :
    BankInv (pools ++ [P]) { b with
      bank := (pools ++ [P]).map some
      allocdPools := pools.length + 1
      bankMem := mem } held H' := by
  have hnone : held.filter P.owns = [] := by
    refine List.filter_eq_nil_iff.mpr fun x hx hown => ?_
    obtain ⟨Q, hQ, hQx⟩ := hi.owned x hx
    rw [Pool.not_owns_of_apart (hap Q hQ) hown] at hQx
    exact Bool.false_ne_true hQx
  have hsplit : ∀ {p : Pool → Prop}, (∀ Q ∈ pools, p Q) → p P → ∀ Q ∈ pools ++ [P], p Q := by
    intro p hold hnew Q hQ
    rcases List.mem_append.mp hQ with hQ | hQ
    · exact hold Q hQ
    · rw [List.mem_singleton.mp hQ]
      exact hnew
  refine ⟨hi.sizes, rfl, by simp, by simpa using hcount, hsplit hi.nobjs_eq hn,
    hsplit hi.objSz_eq ho, hsplit hi.ok (by rw [hnone]; exact hP), ?_, hlive, ?_, harray, hmem⟩
  · intro x hx
    obtain ⟨Q, hQ, hQx⟩ := hi.owned x hx
    exact ⟨Q, List.mem_append_left _ hQ, hQx⟩
  · rw [List.map_append, List.map_singleton, List.pairwise_append]
    refine ⟨hi.apart, List.pairwise_singleton _ _, ?_⟩
    intro l hl t ht
    obtain ⟨Q, hQ, rfl⟩ := List.mem_map.mp hl
    rw [List.mem_singleton.mp ht]
    exact (hap Q hQ).symm

end BankInv

/-! ### Making and growing a bank -/

theorem BankInv.push {pools : List Pool} {b : Bank} {H H₁ : Heap} {P : Pool}
    (hi : BankInv pools b [] H) (hcount : pools.length + 1 < 2 ^ 16) (hP : P.Ok [])
    (hn : P.nobjs = b.poolsz) (ho : P.objSz = b.objsz) (hblock : P.block ∈ H₁.live)
    (hap : ∀ l ∈ H.live, P.block.Apart l) (hlive : H.live ⊆ H₁.live) :
    BankInv (pools ++ [P]) { b with
      bank := b.bank ++ [some P]
      allocdPools := (b.allocdPools + 1) % 2 ^ 16 } [] H₁ := by
  have hgrow := hi.grow H₁ hP hn ho (fun Q hQ => hap Q.block (hi.live Q hQ))
    (by
      intro Q hQ
      rcases List.mem_append.mp hQ with hQ | hQ
      · exact hlive (hi.live Q hQ)
      · rw [List.mem_singleton.mp hQ]
        exact hblock)
    hcount
    (by
      intro Q hQ
      rcases List.mem_append.mp hQ with hQ | hQ
      · exact hi.array Q hQ
      · rw [List.mem_singleton.mp hQ]
        exact hi.base_ne_array hP.base_ne hap)
    (hi.array_live.imp_right fun ⟨l, hl, hb⟩ => ⟨l, hlive hl, hb⟩)
  have hbank : b.bank ++ [some P] = (pools ++ [P]).map some := by
    rw [hi.bank_eq, List.map_append, List.map_singleton]
  have hallocd : (b.allocdPools + 1) % 2 ^ 16 = pools.length + 1 := by
    rw [hi.allocd_eq]
    exact Nat.mod_eq_of_lt hcount
  rw [hbank, hallocd]
  exact hgrow

theorem createBankLoop_spec {poolsize objsize : ℕ} (hs : Sizes poolsize objsize) : ∀ (k : ℕ)
    {pools : List Pool} {b : Bank} {H H' : Heap} {r : Option Bank}, b.poolsz = poolsize →
    b.objsz = objsize → BankInv pools b [] H → pools.length + k < 2 ^ 16 →
    createBankLoop Heap.malloc Heap.free poolsize objsize k b H = some (r, H') →
    H'.refused = H.refused →
      ∃ b' pools', r = some b' ∧ b'.poolsz = poolsize ∧ b'.objsz = objsize ∧
        BankInv pools' b' [] H'
  | 0, pools, b, H, H', r, hbp, hbo, hi, _, h, _ => by
    obtain ⟨rfl, rfl⟩ := HeapM.pure_inj h
    exact ⟨b, pools, rfl, hbp, hbo, hi⟩
  | k + 1, pools, b, H, H', r, hbp, hbo, hi, hlen, h, hcount => by
    rw [createBankLoop] at h
    obtain ⟨p, H₁, hpool, hrest⟩ := HeapM.of_bind h
    have hcount₁ := createPool_counts _ _ _ _ _ hpool
    have hcount₂ : H₁.refused ≤ H'.refused := by
      split_ifs at hrest
      · exact (HeapM.Counts.bind (.free _) fun _ => .bind (.free _) fun _ => .pure _) _ _ _ hrest
      · exact createBankLoop_counts _ _ _ _ _ _ _ hrest
    rcases createPool_spec hs.poolsz_lt hs.objsz_lt hs.fits hpool with
      ⟨-, hrefused, -⟩ | ⟨P, rfl, hP, hn, ho, hblock, hap, hlive⟩
    · omega
    · rw [if_neg (by simp)] at hrest
      have hpush := hi.push (by omega) hP (hn.trans hbp.symm) (ho.trans hbo.symm) hblock hap hlive
      refine createBankLoop_spec hs k ?_ ?_ hpush ?_ hrest (by omega)
      · exact hbp
      · exact hbo
      · rw [List.length_append, List.length_singleton]
        omega

theorem BankInv.empty {addr maxPools poolsize objsize bankMem : ℕ} (hs : Sizes poolsize objsize)
    {H : Heap} (hmem : bankMem = 0 ∨ ∃ l ∈ H.live, l.base = bankMem) :
    BankInv [] ⟨addr, maxPools, 0, poolsize, objsize, bankMem, []⟩ [] H :=
  ⟨hs, rfl, rfl, by decide, by simp, by simp, by simp, by simp, by simp, .nil, by simp, hmem⟩

/-- What `create_bank` has done before its loop: it was refused the struct or the array, or goes on
with both. -/
theorem createBank_cases {nPools : ℕ} {growing : Bool} {poolsize objsize : ℕ} {H H' : Heap}
    {r : Option Bank}
    (h : createBank Heap.malloc Heap.free nPools growing poolsize objsize H = some (r, H')) :
    r = none ∨ ∃ addr bankMem H₁,
      (bankMem = 0 ∨ ∃ l ∈ H₁.live, l.base = bankMem) ∧ H.refused ≤ H₁.refused ∧
        createBankLoop Heap.malloc Heap.free poolsize objsize (nPools % 2 ^ 16)
          ⟨addr, if growing then 0 else nPools % 2 ^ 16, 0, poolsize % 2 ^ 16, objsize % 2 ^ 64,
            bankMem, []⟩ H₁ = some (r, H') := by
  rw [createBank, Heap.malloc_bind] at h
  generalize nPools % 2 ^ 16 = n at h ⊢
  rcases H.answer_cases sizeofBank with ⟨haddr, -⟩ | ⟨addr, haddr, -, -, hcount₁⟩ <;>
    rw [haddr] at h <;> dsimp only at h
  · exact .inl (HeapM.pure_inj h).1.symm
  set H₁ := H.afterMalloc sizeofBank
  by_cases hpos : n > 0
  · rw [if_pos hpos, Heap.malloc_bind] at h
    rcases H₁.answer_cases (n * sizeofPoolPtr) with
      ⟨hmem, -⟩ | ⟨bankMem, hmem, -, hin, hcount₂⟩ <;> rw [hmem] at h <;> dsimp only at h
    · rw [Heap.free_bind] at h
      exact .inl (HeapM.pure_inj h).1.symm
    · exact .inr ⟨addr, bankMem, _, .inr ⟨_, hin, rfl⟩, (hcount₂.trans hcount₁).ge, h⟩
  · rw [if_neg hpos] at h
    obtain rfl : n = 0 := Nat.eq_zero_of_not_pos hpos
    exact .inr ⟨addr, 0, H₁, .inl rfl, hcount₁.ge, h⟩

/-- **A new bank**, when no request is refused. -/
theorem createBank_spec {nPools : ℕ} {growing : Bool} {poolsize objsize : ℕ}
    (hs : Sizes poolsize objsize) {H H' : Heap} {b : Bank}
    (h : createBank Heap.malloc Heap.free nPools growing poolsize objsize H = some (some b, H'))
    (hcount : H'.refused = H.refused) :
    b.poolsz = poolsize ∧ b.objsz = objsize ∧ ∃ pools, BankInv pools b [] H' := by
  have hn : nPools % 2 ^ 16 < 2 ^ 16 := Nat.mod_lt _ (by decide)
  rcases createBank_cases h with hnone | ⟨addr, bankMem, H₁, hmem, hcount₁, hloop⟩
  · exact absurd hnone (Option.some_ne_none b)
  rw [Nat.mod_eq_of_lt hs.poolsz_lt, Nat.mod_eq_of_lt hs.objsz_lt] at hloop
  have hcount₂ := createBankLoop_counts _ _ _ _ _ _ _ hloop
  obtain ⟨b', pools, hb', hbp, hbo, hi⟩ := createBankLoop_spec hs _ (by rfl) (by rfl)
    (.empty hs hmem) (by simpa using hn) hloop (by omega)
  obtain rfl := Option.some.inj hb'
  exact ⟨hbp, hbo, pools, hi⟩

/-- **Growing a bank**, with any outcome of its requests. -/
theorem BankInv.addPool {pools : List Pool} {b : Bank} {held : List ℕ} {H H' : Heap}
    (hi : BankInv pools b held H) (hlen : pools.length + 1 < 2 ^ 16) {ret : ℤ}
    {r : Option Bank} (h : Milu.addPool Heap.malloc Heap.free (some b) H = some ((ret, r), H')) :
    ∃ b' pools', r = some b' ∧ b'.poolsz = b.poolsz ∧ b'.objsz = b.objsz ∧
      BankInv pools' b' held H' := by
  rw [Milu.addPool] at h
  split_ifs at h with hcap
  · obtain ⟨hr, rfl⟩ := HeapM.pure_inj h
    rw [Prod.mk.injEq] at hr
    exact ⟨b, pools, hr.2.symm, rfl, rfl, hi⟩
  rw [Heap.malloc_bind] at h
  have hlive := Heap.live_subset_afterMalloc H ((b.allocdPools + 1) * sizeofPoolPtr)
  rcases H.answer_cases ((b.allocdPools + 1) * sizeofPoolPtr) with
    ⟨haux, -⟩ | ⟨auxB, haux, hfresh, hin, -⟩ <;> rw [haux] at h <;> dsimp only at h
  · obtain ⟨hr, rfl⟩ := HeapM.pure_inj h
    rw [Prod.mk.injEq] at hr
    exact ⟨b, pools, hr.2.symm, rfl, rfl, hi.heap hlive⟩
  set H₁ := H.afterMalloc ((b.allocdPools + 1) * sizeofPoolPtr)
  have haux_ne : ∀ l ∈ H.live, l.base ≠ auxB := fun l hl => (hfresh.2.2 l hl).base_ne.symm
  obtain ⟨p, H₂, hpool, hrest⟩ := HeapM.of_bind h
  rcases createPool_spec hi.sizes.poolsz_lt hi.sizes.objsz_lt hi.sizes.fits hpool with
    ⟨rfl, -, hlive₂⟩ | ⟨P, rfl, hP, hn, ho, hblock, hap, hlive₂⟩ <;> dsimp only at hrest
  · rw [Heap.free_bind] at hrest
    obtain ⟨hr, rfl⟩ := HeapM.pure_inj hrest
    rw [Prod.mk.injEq] at hr
    refine ⟨b, pools, hr.2.symm, rfl, rfl, hi.heap fun l hl => ?_⟩
    exact Heap.mem_live_afterFree (hlive₂ (hlive hl)) (haux_ne l hl)
  · rw [Heap.free_bind] at hrest
    obtain ⟨hr, rfl⟩ := HeapM.pure_inj hrest
    rw [Prod.mk.injEq] at hr
    have hapQ : ∀ Q ∈ pools, P.block.Apart Q.block :=
      fun Q hQ => hap Q.block (hlive (hi.live Q hQ))
    have hP_array : P.poolMem ≠ b.bankMem :=
      hi.base_ne_array hP.base_ne fun t ht => hap t (hlive ht)
    have haux_array : auxB ≠ b.bankMem := hi.base_ne_array hfresh.1 hfresh.2.2
    have hgrow := hi.grow (H₂.afterFree b.bankMem) hP hn ho hapQ
      (by
        intro Q hQ
        rcases List.mem_append.mp hQ with hQ | hQ
        · exact Heap.mem_live_afterFree (hlive₂ (hlive (hi.live Q hQ))) (hi.array Q hQ)
        · rw [List.mem_singleton.mp hQ]
          exact Heap.mem_live_afterFree hblock hP_array)
      hlen
      (by
        intro Q hQ
        rcases List.mem_append.mp hQ with hQ | hQ
        · exact haux_ne _ (hi.live Q hQ)
        · rw [List.mem_singleton.mp hQ]
          exact (hap _ hin).base_ne)
      (.inr ⟨_, Heap.mem_live_afterFree (hlive₂ hin) haux_array, rfl⟩)
    have hbank : b.bank.take b.allocdPools ++ [some P] = (pools ++ [P]).map some := by
      rw [hi.bank_eq, hi.allocd_eq, List.take_of_length_le (by simp), List.map_append,
        List.map_singleton]
    have hallocd : (b.allocdPools + 1) % 2 ^ 16 = pools.length + 1 := by
      rw [hi.allocd_eq]
      exact Nat.mod_eq_of_lt hlen
    rw [hbank, hallocd] at hr
    exact ⟨_, _, hr.2.symm, rfl, rfl, hgrow⟩

/-! ### Gets and puts -/

/-- The loop of `bank_get_ptr` finds every pool used up, or takes a slot from one of them. -/
theorem bankGetLoop_spec (held : List ℕ) : ∀ {pools : List Pool},
    (∀ P ∈ pools, P.Ok (held.filter P.owns)) →
      ((∀ P ∈ pools, P.poolQ = []) ∧ bankGetLoop (pools.map some) = (0, pools.map some)) ∨
        ∃ pre P post x P', pools = pre ++ P :: post ∧ x ≠ 0 ∧ x ∈ P.available ∧
          bankGetLoop (pools.map some) = (x, (pre ++ P' :: post).map some) ∧ P'.SameBlock P ∧
          P'.Ok (x :: held.filter P.owns)
  | [], _ => .inl ⟨by simp, rfl⟩
  | P :: pools, hok => by
    rw [List.map_cons, bankGetLoop]
    rcases poolGetPtr_spec (hok P List.mem_cons_self) with
      ⟨hnil, hget⟩ | ⟨x, P', hx, hmem, hget, hsame, hP'⟩ <;> rw [hget] <;> dsimp only
    · rw [if_neg (by decide)]
      rcases bankGetLoop_spec held fun Q hQ => hok Q (List.mem_cons_of_mem _ hQ) with
        ⟨hall, hloop⟩ | ⟨pre, Q, post, x, Q', rfl, hx, hmem, hloop, hsame, hQ'⟩ <;>
        rw [hloop] <;> dsimp only
      · exact .inl ⟨List.forall_mem_cons.mpr ⟨hnil, hall⟩, rfl⟩
      · exact .inr ⟨P :: pre, Q, post, x, Q', rfl, hx, hmem, rfl, hsame, hQ'⟩
    · rw [if_pos hx]
      exact .inr ⟨[], P, pools, x, P', rfl, hx, hmem, rfl, hsame, hP'⟩

/-- The loop of `bank_put_ptr` gives a held address to the first pool whose block it is in. -/
theorem bankPutLoop_spec {held : List ℕ} {x : ℕ} (hx : x ∈ held) : ∀ {pools : List Pool} (ret : ℤ),
    (∀ P ∈ pools, P.Ok (held.filter P.owns)) → (∃ P ∈ pools, P.owns x = true) →
      ∃ pre P post P', pools = pre ++ P :: post ∧ P.owns x = true ∧
        bankPutLoop x ret (pools.map some) = (0, (pre ++ P' :: post).map some) ∧ P'.SameBlock P ∧
        P'.Ok ((held.filter P.owns).erase x)
  | [], _, _, ⟨_, hP, _⟩ => absurd hP List.not_mem_nil
  | P :: pools, ret, hok, howner => by
    have hP := hok P List.mem_cons_self
    rw [List.map_cons, bankPutLoop]
    by_cases ho : P.owns x = true
    · obtain ⟨P', hput, hsame, hP'⟩ := poolPutPtr_spec hP (List.mem_filter.mpr ⟨hx, ho⟩) ho
      refine ⟨[], P, pools, P', rfl, ho, ?_, hsame, hP'⟩
      rw [hput]
      rfl
    · have hrange : x < P.startAddr ∨ x ≥ P.endAddr := by
        rw [Pool.owns_iff] at ho
        rw [hP.start_eq, hP.end_eq]
        omega
      have hput : poolPutPtr (some P) x = (-1, some P) := by rw [poolPutPtr, if_pos hrange]
      obtain ⟨pre, Q, post, Q', rfl, hown, hloop, hsame, hQ'⟩ := bankPutLoop_spec hx (-1)
        (fun Q hQ => hok Q (List.mem_cons_of_mem _ hQ)) (by
          obtain ⟨Q, hQ, hQx⟩ := howner
          rcases List.mem_cons.mp hQ with rfl | hQ
          · exact absurd hQx ho
          · exact ⟨Q, hQ, hQx⟩)
      refine ⟨P :: pre, Q, post, Q', rfl, hown, ?_, hsame, hQ'⟩
      rw [hput]
      dsimp only
      rw [if_neg (by decide), hloop]
      rfl

namespace BankInv

variable {pools : List Pool} {b : Bank} {held : List ℕ} {H : Heap}

/-- **A get** finds every pool used up and changes nothing, or hands out an available address. -/
theorem get (hi : BankInv pools b held H) :
    ((∀ P ∈ pools, P.poolQ = []) ∧ bankGetPtr (some b) = (0, some b)) ∨
      ∃ x b' pools', x ≠ 0 ∧ (∃ P ∈ pools, x ∈ P.available) ∧ bankGetPtr (some b) = (x, some b') ∧
        b'.poolsz = b.poolsz ∧
        b'.objsz = b.objsz ∧ BankInv pools' b' (x :: held) H := by
  have hbank : b.bank.take b.allocdPools = pools.map some ∧ b.bank.drop b.allocdPools = [] := by
    rw [hi.bank_eq, hi.allocd_eq]
    exact ⟨List.take_of_length_le (by simp), List.drop_of_length_le (by simp)⟩
  rw [bankGetPtr, hbank.1, hbank.2]
  rcases bankGetLoop_spec held hi.ok with
    ⟨hall, hloop⟩ | ⟨pre, P, post, x, P', rfl, hx, hmem, hloop, hsame, hP'⟩ <;>
    rw [hloop] <;> dsimp only <;> rw [List.append_nil]
  · left
    rw [← hi.bank_eq]
    exact ⟨hall, rfl⟩
  · have hpos : 0 < P.objSz := by
      rw [hi.objSz_eq P (by simp)]
      exact hi.sizes.objsz_pos
    have hP : P ∈ pre ++ P :: post := by simp
    have hown := Pool.slot_owned hpos ((hi.ok P hP).available_subset hmem)
    refine .inr ⟨x, _, pre ++ P' :: post, hx, ⟨P, hP, hmem⟩, rfl, rfl, rfl,
      hi.replace hsame ?_ ?_ ?_⟩
    · rwa [List.filter_cons_of_pos hown]
    · intro Q hQ
      rw [List.filter_cons_of_neg]
      rw [Pool.not_owns_of_apart (hi.apart_others Q hQ) hown]
      exact Bool.false_ne_true
    · intro y hy
      rcases List.mem_cons.mp hy with rfl | hy
      · exact ⟨P, by simp, hown⟩
      · exact hi.owned y hy

/-- **A put** of a held address is accepted. -/
theorem put (hi : BankInv pools b held H) {x : ℕ} (hx : x ∈ held) :
    ∃ b' pools', bankPutPtr (some b) x = (0, some b') ∧ b'.poolsz = b.poolsz ∧
      b'.objsz = b.objsz ∧ BankInv pools' b' (held.erase x) H := by
  have hbank : b.bank.take b.allocdPools = pools.map some ∧ b.bank.drop b.allocdPools = [] := by
    rw [hi.bank_eq, hi.allocd_eq]
    exact ⟨List.take_of_length_le (by simp), List.drop_of_length_le (by simp)⟩
  obtain ⟨pre, P, post, P', rfl, hown, hloop, hsame, hP'⟩ :=
    bankPutLoop_spec hx 0 hi.ok (hi.owned x hx)
  rw [bankPutPtr, hbank.1, hbank.2, hloop]
  dsimp only
  rw [List.append_nil]
  refine ⟨_, pre ++ P' :: post, rfl, rfl, rfl, hi.replace hsame ?_ ?_ ?_⟩
  · rwa [← List.erase_filter]
  · intro Q hQ
    rw [← List.erase_filter]
    refine List.erase_of_not_mem fun hmem => ?_
    have hQx := (List.mem_filter.mp hmem).2
    rw [Pool.not_owns_of_apart (hi.apart_others Q hQ) hown] at hQx
    exact Bool.false_ne_true hQx
  · exact fun y hy => hi.owned y (List.mem_of_mem_erase hy)

end BankInv

/-! ### Runs -/

/-- A bank, the addresses its clients hold, and the heap, after `create_bank` with no request
refused and any sequence of `add_pool`, `bank_get_ptr`, and `bank_put_ptr` of held addresses. There
are never 65536 pools. -/
inductive BankRun (nPools : ℕ) (growing : Bool) (poolsize objsize : ℕ) :
    Bank → List ℕ → Heap → Prop
  | create {H H' b} :
      createBank Heap.malloc Heap.free nPools growing poolsize objsize H = some (some b, H') →
      H'.refused = H.refused → BankRun nPools growing poolsize objsize b [] H'
  | add {b b' held H H' ret} : BankRun nPools growing poolsize objsize b held H →
      b.allocdPools + 1 < 2 ^ 16 →
      addPool Heap.malloc Heap.free (some b) H = some ((ret, some b'), H') →
      BankRun nPools growing poolsize objsize b' held H'
  | get {b b' held H x} : BankRun nPools growing poolsize objsize b held H →
      bankGetPtr (some b) = (x, some b') →
      BankRun nPools growing poolsize objsize b' (if x = 0 then held else x :: held) H
  | put {b b' held H x ret} : BankRun nPools growing poolsize objsize b held H → x ∈ held →
      bankPutPtr (some b) x = (ret, some b') →
      BankRun nPools growing poolsize objsize b' (held.erase x) H

/-- The run lemma, by induction on the run. -/
theorem BankRun.inv {nPools : ℕ} {growing : Bool} {poolsize objsize : ℕ}
    (hs : Sizes poolsize objsize) {b : Bank} {held : List ℕ} {H : Heap}
    (hrun : BankRun nPools growing poolsize objsize b held H) :
    b.poolsz = poolsize ∧ b.objsz = objsize ∧ ∃ pools, BankInv pools b held H := by
  induction hrun with
  | create h hcount => exact createBank_spec hs h hcount
  | add _ hlen h ih =>
    obtain ⟨hp, ho, pools, hi⟩ := ih
    rw [hi.allocd_eq] at hlen
    obtain ⟨b', pools', hb', hp', ho', hi'⟩ := hi.addPool hlen h
    rw [Option.some.injEq] at hb'
    subst hb'
    exact ⟨hp'.trans hp, ho'.trans ho, pools', hi'⟩
  | get _ h ih =>
    obtain ⟨hp, ho, pools, hi⟩ := ih
    rcases hi.get with ⟨-, hget⟩ | ⟨x, b', pools', hx, -, hget, hp', ho', hi'⟩ <;>
      rw [h, Prod.mk.injEq, Option.some.injEq] at hget <;> obtain ⟨rfl, rfl⟩ := hget
    · rw [if_pos rfl]
      exact ⟨hp, ho, pools, hi⟩
    · rw [if_neg hx]
      exact ⟨hp'.trans hp, ho'.trans ho, pools', hi'⟩
  | put _ hx h ih =>
    obtain ⟨hp, ho, pools, hi⟩ := ih
    obtain ⟨b', pools', hput, hp', ho', hi'⟩ := hi.put hx
    rw [h, Prod.mk.injEq, Option.some.injEq] at hput
    obtain ⟨rfl, rfl⟩ := hput
    exact ⟨hp'.trans hp, ho'.trans ho, pools', hi'⟩

/-! ### Conservation -/

namespace Bank

/-- The addresses of the slots of all pools. -/
def slots (b : Bank) : List ℕ := b.bank.flatMap fun p => p.elim [] Pool.slots

/-- The addresses that can still be handed out. -/
def available (b : Bank) : List ℕ := b.bank.flatMap fun p => p.elim [] Pool.available

end Bank

/-- What a bank of pools of `poolsize` objects of `objsize` bytes promises to clients that hold the
addresses `held`. -/
structure Conserved (poolsize objsize : ℕ) (b : Bank) (held : List ℕ) : Prop where
  distinct : held.Nodup
  disjoint : ∀ x ∈ held, ∀ y ∈ held, x ≠ y → x + objsize ≤ y ∨ y + objsize ≤ x
  inside : ∀ x ∈ held, ∃ P, some P ∈ b.bank ∧ P.poolMem ≤ x ∧
    x + objsize ≤ P.poolMem + poolsize * objsize
  slots : (held ++ b.available).Perm b.slots
  slots_nodup : b.slots.Nodup
  put : ∀ x ∈ held, (bankPutPtr (some b) x).1 = 0
  get : (bankGetPtr (some b)).1 = 0 ↔ held.length = poolsize * b.allocdPools

namespace BankInv

variable {pools : List Pool} {b : Bank} {held : List ℕ} {H : Heap}

theorem slots_eq (hi : BankInv pools b held H) : b.slots = pools.flatMap Pool.slots := by
  rw [Bank.slots, hi.bank_eq, List.flatMap_map]
  rfl

theorem available_eq (hi : BankInv pools b held H) :
    b.available = pools.flatMap Pool.available := by
  rw [Bank.available, hi.bank_eq, List.flatMap_map]
  rfl

theorem owners_apart (hi : BankInv pools b held H) :
    pools.Pairwise fun P Q => ∀ x, P.owns x = true → Q.owns x = false :=
  (List.pairwise_map.mp hi.apart).imp fun hap _ hx => Pool.not_owns_of_apart hap hx

theorem objSz_pos (hi : BankInv pools b held H) {P : Pool} (hP : P ∈ pools) : 0 < P.objSz := by
  rw [hi.objSz_eq P hP]
  exact hi.sizes.objsz_pos

/-- **Held and available addresses are the slots**, each once. -/
theorem slots_perm (hi : BankInv pools b held H) : (held ++ b.available).Perm b.slots := by
  have howners : (pools.flatMap fun P => held.filter P.owns).Perm held :=
    flatMap_filter_owner hi.owned hi.owners_apart
  rw [hi.slots_eq, hi.available_eq]
  calc List.Perm (held ++ pools.flatMap Pool.available)
        (pools.flatMap Pool.available ++ held) := List.perm_append_comm
    List.Perm _ (pools.flatMap Pool.available ++ pools.flatMap fun P => held.filter P.owns) :=
        howners.symm.append_left _
    List.Perm _ (pools.flatMap fun P => P.available ++ held.filter P.owns) :=
        List.flatMap_append_perm _ _ _
    List.Perm _ (pools.flatMap Pool.slots) :=
        List.Perm.flatMap_left _ fun P hP => (hi.ok P hP).slots

theorem slots_nodup (hi : BankInv pools b held H) : b.slots.Nodup := by
  rw [hi.slots_eq, List.nodup_flatMap]
  refine ⟨fun P hP => Pool.slots_nodup (hi.objSz_pos hP), ?_⟩
  refine hi.owners_apart.imp_of_mem fun {P Q} hP hQ hap x hxP hxQ => ?_
  have hown := hap x (Pool.slot_owned (hi.objSz_pos hP) hxP)
  rw [Pool.slot_owned (hi.objSz_pos hQ) hxQ] at hown
  exact Bool.noConfusion hown

theorem length_slots (hi : BankInv pools b held H) :
    b.slots.length = b.poolsz * b.allocdPools := by
  rw [hi.slots_eq, hi.allocd_eq]
  have hsum : ∀ l : List Pool, (∀ P ∈ l, P.nobjs = b.poolsz) →
      (l.flatMap Pool.slots).length = b.poolsz * l.length := by
    intro l hl
    induction l with
    | nil => rfl
    | cons P l ih =>
      rw [List.flatMap_cons, List.length_append, Pool.length_slots, hl P List.mem_cons_self,
        ih fun Q hQ => hl Q (List.mem_cons_of_mem _ hQ), List.length_cons]
      ring
  exact hsum pools hi.nobjs_eq

theorem held_slot (hi : BankInv pools b held H) {x : ℕ} (hx : x ∈ held) :
    ∃ P ∈ pools, x ∈ P.slots := by
  have hslot : x ∈ b.slots := hi.slots_perm.subset (List.mem_append_left _ hx)
  rw [hi.slots_eq] at hslot
  exact List.mem_flatMap.mp hslot

theorem get_eq_zero_iff (hi : BankInv pools b held H) :
    (bankGetPtr (some b)).1 = 0 ↔ b.available = [] := by
  rcases hi.get with ⟨hall, hget⟩ | ⟨x, b', pools', hx, ⟨P, hP, hmem⟩, hget, -⟩ <;> rw [hget]
  · refine iff_of_true rfl ?_
    rw [hi.available_eq]
    refine List.flatMap_eq_nil_iff.mpr fun P hP => ?_
    rw [Pool.available, hall P hP, List.map_nil]
  · refine iff_of_false hx fun hnil => ?_
    rw [hi.available_eq] at hnil
    rw [List.flatMap_eq_nil_iff.mp hnil P hP] at hmem
    exact List.not_mem_nil hmem

theorem conserved (hi : BankInv pools b held H) : Conserved b.poolsz b.objsz b held := by
  have hall := hi.slots_perm
  have hnodup := hall.nodup_iff.mpr hi.slots_nodup
  refine ⟨(List.nodup_append.mp hnodup).1, ?_, ?_, hall, hi.slots_nodup, ?_, ?_⟩
  · intro x hx y hy hne
    obtain ⟨P, hP, hxP⟩ := hi.held_slot hx
    obtain ⟨Q, hQ, hyQ⟩ := hi.held_slot hy
    rw [← hi.objSz_eq P hP]
    by_cases hPQ : P = Q
    · subst hPQ
      exact Pool.slot_disjoint hxP hyQ hne
    · have : Std.Symm fun P Q : Pool => P.block.Apart Q.block := ⟨fun _ _ hab => hab.symm⟩
      have hap : P.block.Apart Q.block := (List.pairwise_map.mp hi.apart).forall hP hQ hPQ
      have hPs : P.nobjs * P.objSz ≤ P.block.span := P.block.size_le_span
      have hQs : Q.nobjs * Q.objSz ≤ Q.block.span := Q.block.size_le_span
      have hbase : P.poolMem + P.block.span ≤ Q.poolMem ∨ Q.poolMem + Q.block.span ≤ P.poolMem :=
        hap
      have hx' := Pool.slot_inside hxP
      have hy' := Pool.slot_inside hyQ
      have hobj := (hi.objSz_eq Q hQ).trans (hi.objSz_eq P hP).symm
      omega
  · intro x hx
    obtain ⟨P, hP, hxP⟩ := hi.held_slot hx
    refine ⟨P, ?_, ?_⟩
    · rw [hi.bank_eq]
      exact List.mem_map.mpr ⟨P, hP, rfl⟩
    · have := Pool.slot_inside hxP
      rwa [hi.nobjs_eq P hP, hi.objSz_eq P hP] at this
  · intro x hx
    obtain ⟨b', pools', hput, -⟩ := hi.put hx
    rw [hput]
  · rw [hi.get_eq_zero_iff, ← hi.length_slots, ← hall.length_eq, List.length_append,
      ← List.length_eq_zero_iff]
    omega

end BankInv

/-- **Conservation and exhaustion**, in every run. -/
theorem bank_conserved {nPools : ℕ} {growing : Bool} {poolsize objsize : ℕ}
    (hs : Sizes poolsize objsize) {b : Bank} {held : List ℕ} {H : Heap}
    (hrun : BankRun nPools growing poolsize objsize b held H) :
    Conserved poolsize objsize b held := by
  obtain ⟨rfl, rfl, pools, hi⟩ := hrun.inv hs
  exact hi.conserved

/-- The bank `create_bank(1, 0, 2, 16)` makes in `pageHeap`. -/
def pageBank : Bank := ⟨4096, 1, 1, 2, 16, 8192, [some (Pool.fresh 12288 2 16 16384 20480)]⟩

/-- The bank `create_bank(1, 1, 2, 16)` makes there, which grows. -/
def growingBank : Bank := { pageBank with maxPools := 0 }

/-- The only pool is emptied, another one is added and used, and the first address is given back and
handed out again. -/
theorem bank_conserved_page : ∃ b H, BankRun 1 true 2 16 b [16384, 32768, 16400] H ∧
    b.allocdPools = 2 ∧ Conserved 2 16 b [16384, 32768, 16400] := by
  have hcreate : createBank Heap.malloc Heap.free 1 true 2 16 pageHeap =
      some (some growingBank, _) := rfl
  have hnew := BankRun.create hcreate rfl
  have hone := hnew.get (x := 16384) rfl
  have htwo := hone.get (x := 16400) rfl
  have hempty := htwo.get (x := 0) rfl
  have hadded := hempty.add (by decide) rfl
  have hthree := hadded.get (x := 32768) rfl
  have hput := hthree.put (x := 16384) (by decide) rfl
  have hagain := hput.get (x := 16384) rfl
  exact ⟨_, _, hagain, rfl, bank_conserved ⟨by decide, by decide, by decide, by decide⟩ hagain⟩

end Milu
