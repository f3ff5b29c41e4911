import Milu.Pool.Conservation
import Milu.Pool.InMemoryOps
import Milu.Pool.Queue
import Milu.Pool.Storage
import Mathlib.Data.List.Flatten

/-!
# Banks in memory

A bank over pools whose queues are in memory. Its calls go through the pools until one of them
serves. What a pool does stays inside its own two blocks, so the pools that were tried before and
the ones that come after are not touched, and neither is anything else in memory. A new pool gets
blocks from the allocator that nothing uses; the old array is freed, which holds no link.

Between the calls a program may do what it likes with the memory outside the bank's blocks, the
slots it holds among them, and with the allocator, as long as it does not free what is the bank's.

## Main definitions

* `Bank.header`, `Bank.Spelled` — the struct of a bank, and the memory that spells out its pools
* `InMemory.Finds` — what a call finds: the bank's blocks as they were left, and allocated
* `InMemory.BankCallsIn`, `BankCallsOn` — calls in memory and on lists, with what they returned
* `InMemory.ServesBank` — what a bank in memory owes its clients

## Main results

* `InMemory.bankGetLoop_apply`, `InMemory.bankPutLoop_apply`, `InMemory.createBankLoop_apply` — the
  three loops over pools
* `InMemory.BankCallsIn.spelled` — any calls
* `InMemory.bank_in_memory` — a bank in memory returns what the bank on lists does
-/

namespace Milu

open InMemory (Memory PoolStruct BankStruct Covered Stored Acts Makes)

/-! ### Several pools -/

namespace InMemory

/-- The structs of the pools of an array. -/
def headers (ps : List (Option Pool)) : List (Option PoolStruct) := ps.map (Option.map Pool.header)

/-- The blocks of the pools of an array. -/
def poolBlocks (ps : List (Option PoolStruct)) : List Block :=
  ps.flatMap fun p => p.elim [] PoolStruct.blocks

@[simp] theorem headers_append (ps qs : List (Option Pool)) :
    headers (ps ++ qs) = headers ps ++ headers qs := List.map_append

@[simp] theorem headers_cons (p : Option Pool) (ps : List (Option Pool)) :
    headers (p :: ps) = p.map Pool.header :: headers ps := List.map_cons

@[simp] theorem poolBlocks_append (ps qs : List (Option PoolStruct)) :
    poolBlocks (ps ++ qs) = poolBlocks ps ++ poolBlocks qs := List.flatMap_append

@[simp] theorem poolBlocks_singleton (p : Option PoolStruct) :
    poolBlocks [p] = p.elim [] PoolStruct.blocks := List.flatMap_singleton ..

variable {ps ps' qs : List (Option Pool)} {p : Option Pool} {P P' : Pool} {m m' m'' : Memory ℕ}

/-- The memory spells out the pools, and these share no block. -/
structure SpelledAll (ps : List (Option Pool)) (m : Memory ℕ) : Prop where
  spelled : ∀ P, some P ∈ ps → P.Spelled m
  apart : (poolBlocks (headers ps)).Pairwise Block.Apart

/-- What a call may do to the pools it goes through. -/
structure ActsAll (ps : List (Option Pool)) (m : Memory ℕ) (ps' : List (Option Pool))
    (m' : Memory ℕ) :
    Prop where
  spelled : SpelledAll ps' m'
  blocks : poolBlocks (headers ps') = poolBlocks (headers ps)
  outside : ∀ x, ¬ Covered (poolBlocks (headers ps)) x → m.SameAt m' x

theorem ActsAll.refl (h : SpelledAll ps m) : ActsAll ps m ps m := ⟨h, rfl, fun x _ => .refl m x⟩

theorem ActsAll.trans (h : ActsAll ps m ps' m') (h' : ActsAll ps' m' qs m'') :
    ActsAll ps m qs m'' :=
  ⟨h'.spelled, h'.blocks.trans h.blocks,
    fun x hx => (h.outside x hx).trans (h'.outside x (h.blocks ▸ hx))⟩

theorem mem_poolBlocks (hP : some P ∈ ps) : P.header.blocks ⊆ poolBlocks (headers ps) := by
  intro b hb
  exact List.mem_flatMap.mpr ⟨some P.header, List.mem_map.mpr ⟨some P, hP, rfl⟩, hb⟩

namespace SpelledAll

theorem sublist (h : SpelledAll ps m) (hsub : qs.Sublist ps) : SpelledAll qs m := by
  refine ⟨fun P hP => h.spelled P (hsub.subset hP), h.apart.sublist ?_⟩
  exact (hsub.map _).flatMap _

/-- Only the blocks of the pools matter. -/
theorem congr (h : SpelledAll ps m)
    (hsame : ∀ x, Covered (poolBlocks (headers ps)) x → m.SameAt m' x) : SpelledAll ps m' :=
  ⟨fun P hP => (h.spelled P hP).congr fun x hx => hsame x (hx.mono (mem_poolBlocks hP)), h.apart⟩

/-- Pools that share no block with others can be taken together with them. -/
theorem append (h : SpelledAll ps m) (h' : SpelledAll qs m)
    (hapart : ∀ b ∈ poolBlocks (headers ps), ∀ c ∈ poolBlocks (headers qs), b.Apart c) :
    SpelledAll (ps ++ qs) m := by
  refine ⟨fun P hP => ?_, ?_⟩
  · rcases List.mem_append.mp hP with hP | hP
    · exact h.spelled P hP
    · exact h'.spelled P hP
  · rw [headers_append, poolBlocks_append, List.pairwise_append]
    exact ⟨h.apart, h'.apart, hapart⟩

end SpelledAll

/-- **Pools that a call does not go through** are not touched. -/
theorem ActsAll.frame (h : ActsAll ps m ps' m') (qs rs : List (Option Pool))
    (hs : SpelledAll (qs ++ ps ++ rs) m) :
    ActsAll (qs ++ ps ++ rs) m (qs ++ ps' ++ rs) m' := by
  have hblocks : poolBlocks (headers (qs ++ ps' ++ rs)) =
    poolBlocks (headers (qs ++ ps ++ rs)) := by
    simp [h.blocks]
  have hapart := hs.apart
  simp only [headers_append, poolBlocks_append, List.pairwise_append, List.mem_append] at hapart
  obtain ⟨⟨-, -, hqs⟩, -, hrs⟩ := hapart
  have hother : ∀ {x}, Covered (poolBlocks (headers qs)) x ∨ Covered (poolBlocks (headers rs)) x →
      m.SameAt m' x := by
    rintro x (hx | hx)
    · exact h.outside x (hx.not_of_apart hqs)
    · exact h.outside x (hx.not_of_apart fun b hb c hc => (hrs c (.inr hc) b hb).symm)
  refine ⟨⟨fun P hP => ?_, hblocks ▸ hs.apart⟩, hblocks, fun x hx => h.outside x fun hc => hx ?_⟩
  · simp only [List.mem_append] at hP
    rcases hP with (hP | hP) | hP
    · exact (hs.spelled P (by simp [hP])).congr fun x hx =>
        hother (.inl (hx.mono (mem_poolBlocks hP)))
    · exact h.spelled.spelled P hP
    · exact (hs.spelled P (by simp [hP])).congr fun x hx =>
        hother (.inr (hx.mono (mem_poolBlocks hP)))
  · simp only [headers_append, poolBlocks_append, covered_append]
    exact .inl (.inr hc)

theorem Acts.all (h : Acts P m P' m') (hs : SpelledAll [some P] m) :
    ActsAll [some P] m [some P'] m' := by
  have hblocks : poolBlocks (headers [some P']) = poolBlocks (headers [some P]) := by
    simp [headers, h.blocks]
  refine ⟨⟨fun Q hQ => ?_, hblocks ▸ hs.apart⟩, hblocks, fun x hx => h.outside x fun hc => hx ?_⟩
  · rw [Option.some.inj (List.mem_singleton.mp hQ)]
    exact h.spelled
  · exact hc.mono (mem_poolBlocks List.mem_cons_self)

theorem Acts.head (h : Acts P m P' m') (hs : SpelledAll (some P :: ps) m) :
    ActsAll (some P :: ps) m (some P' :: ps) m' :=
  (h.all (hs.sublist (List.singleton_sublist.mpr List.mem_cons_self))).frame [] ps hs

theorem ActsAll.tail (h : ActsAll ps m ps' m') (hs : SpelledAll (p :: ps) m) :
    ActsAll (p :: ps) m (p :: ps') m' := by
  have hframe := h.frame [p] [] (by simpa using hs)
  simpa using hframe

/-! ### The loops of gets and puts -/

theorem poolGetPtr_some (P : Pool) : ∃ x P', Milu.poolGetPtr (some P) = (x, some P') := by
  rcases poolGetPtr_cases P with ⟨-, h⟩ | ⟨lh, q, -, h⟩
  · exact ⟨_, _, h⟩
  · exact ⟨_, _, h⟩

theorem poolPutPtr_some (P : Pool) (x : ℕ) : ∃ ret P', Milu.poolPutPtr (some P) x =
    (ret, some P') := by
  rcases poolPutPtr_cases P x with ⟨-, h⟩ | ⟨lh, q, -, -, -, h⟩
  · exact ⟨_, _, h⟩
  · exact ⟨_, _, h⟩

/-- **The loop of `bank_get_ptr`.** -/
theorem bankGetLoop_apply (H : Heap) : ∀ {ps : List (Option Pool)} {m : Memory ℕ}, SpelledAll ps m →
    ∃ m', bankGetLoop (headers ps) m H =
        some ((((Milu.bankGetLoop ps).1, headers (Milu.bankGetLoop ps).2), m'), H) ∧
      ActsAll ps m (Milu.bankGetLoop ps).2 m'
  | [], m, h => ⟨m, rfl, .refl h⟩
  | none :: ps, m, h => by
    obtain ⟨m', hloop, hacts⟩ := bankGetLoop_apply H (h.sublist (List.sublist_cons_self _ _))
    have hnone : (poolGetPtr none : LinkM ℕ _) m H = some (((0, none), m), H) := rfl
    exact ⟨m', (bind_apply hnone _).trans (bind_apply hloop _), hacts.tail h⟩
  | some P :: ps, m, h => by
    obtain ⟨x, P', hget⟩ := poolGetPtr_some P
    obtain ⟨m₁, hcall, hacts⟩ := poolGetPtr_apply (h.spelled P List.mem_cons_self) hget H
    have hhead : ActsAll (some P :: ps) m (some P' :: ps) m₁ := hacts.head h
    by_cases hx : x ≠ 0
    · have hloop : Milu.bankGetLoop (some P :: ps) = (x, some P' :: ps) := by
        simp only [Milu.bankGetLoop, hget, if_pos hx]
      rw [hloop]
      refine ⟨m₁, (bind_apply hcall _).trans ?_, hhead⟩
      dsimp only
      rw [if_pos hx]
      rfl
    · obtain ⟨m₂, hrest, hacts₂⟩ := bankGetLoop_apply H
        (hhead.spelled.sublist (List.sublist_cons_self _ _))
      have hloop : Milu.bankGetLoop (some P :: ps) =
          ((Milu.bankGetLoop ps).1, some P' :: (Milu.bankGetLoop ps).2) := by
        simp only [Milu.bankGetLoop, hget, if_neg hx]
      rw [hloop]
      refine ⟨m₂, (bind_apply hcall _).trans ?_, hhead.trans (hacts₂.tail hhead.spelled)⟩
      dsimp only
      rw [if_neg hx]
      exact bind_apply hrest _

/-- **The loop of `bank_put_ptr`.** -/
theorem bankPutLoop_apply (x : ℕ) (H : Heap) : ∀ (ret : ℤ) {ps : List (Option Pool)} {m : Memory ℕ},
    SpelledAll ps m → ∃ m', bankPutLoop x ret (headers ps) m H = some
        ((((Milu.bankPutLoop x ret ps).1, headers (Milu.bankPutLoop x ret ps).2), m'), H) ∧
      ActsAll ps m (Milu.bankPutLoop x ret ps).2 m'
  | ret, [], m, h => ⟨m, rfl, .refl h⟩
  | ret, none :: ps, m, h => by
    obtain ⟨m', hloop, hacts⟩ := bankPutLoop_apply x H (-1) (h.sublist (List.sublist_cons_self _ _))
    have hnone : (poolPutPtr none x : LinkM ℕ _) m H = some (((-1, none), m), H) := rfl
    exact ⟨m', (bind_apply hnone _).trans (bind_apply hloop _), hacts.tail h⟩
  | ret, some P :: ps, m, h => by
    obtain ⟨ret₁, P', hput⟩ := poolPutPtr_some P x
    obtain ⟨m₁, hcall, hacts⟩ := poolPutPtr_apply (h.spelled P List.mem_cons_self) hput H
    have hhead : ActsAll (some P :: ps) m (some P' :: ps) m₁ := hacts.head h
    by_cases hret : ret₁ = 0
    · have hloop : Milu.bankPutLoop x ret (some P :: ps) = (ret₁, some P' :: ps) := by
        simp only [Milu.bankPutLoop, hput, if_pos hret]
      rw [hloop]
      refine ⟨m₁, (bind_apply hcall _).trans ?_, hhead⟩
      dsimp only
      rw [if_pos hret]
      rfl
    · obtain ⟨m₂, hrest, hacts₂⟩ := bankPutLoop_apply x H ret₁
        (hhead.spelled.sublist (List.sublist_cons_self _ _))
      have hloop : Milu.bankPutLoop x ret (some P :: ps) =
          ((Milu.bankPutLoop x ret₁ ps).1, some P' :: (Milu.bankPutLoop x ret₁ ps).2) := by
        simp only [Milu.bankPutLoop, hput, if_neg hret]
      rw [hloop]
      refine ⟨m₂, (bind_apply hcall _).trans ?_, hhead.trans (hacts₂.tail hhead.spelled)⟩
      dsimp only
      rw [if_neg hret]
      exact bind_apply hrest _

end InMemory

/-! ### Banks -/

open InMemory (headers poolBlocks SpelledAll ActsAll)

/-- The struct of a bank. -/
def Bank.header (b : Bank) : BankStruct where
  addr := b.addr
  maxPools := b.maxPools
  allocdPools := b.allocdPools
  poolsz := b.poolsz
  objsz := b.objsz
  bankMem := b.bankMem
  bank := headers b.bank

/-- **The memory spells out the bank**: its pools, none of whose blocks is the array. -/
structure Bank.Spelled (b : Bank) (m : Memory ℕ) : Prop where
  pools : SpelledAll b.bank m
  array : ∀ c ∈ poolBlocks (headers b.bank), c.base ≠ b.bankMem

namespace InMemory

variable {b b' : Bank} {m m' : Memory ℕ} {H H' : Heap} {x : ℕ} {ret : ℤ} {ps : List (Option Pool)}
  {r : Option Pool}

/-- A bank with other pools, after a call on those it counts. -/
theorem Bank.Spelled.acts (h : b.Spelled m) (hacts : ActsAll (b.bank.take b.allocdPools) m ps m') :
    ({ b with bank := ps ++ b.bank.drop b.allocdPools } : Bank).Spelled m' ∧
      ∀ x, ¬ Covered (poolBlocks (headers b.bank)) x → m.SameAt m' x := by
  have hall : ActsAll b.bank m (ps ++ b.bank.drop b.allocdPools) m' := by
    have hframe := hacts.frame [] (b.bank.drop b.allocdPools)
      (by rw [List.nil_append, List.take_append_drop]; exact h.pools)
    rwa [List.nil_append, List.take_append_drop, List.nil_append] at hframe
  refine ⟨⟨hall.spelled, fun c hc => h.array c ?_⟩, hall.outside⟩
  rw [← hall.blocks]
  exact hc

theorem headers_take (ps : List (Option Pool)) (n : ℕ) :
    headers (ps.take n) = (headers ps).take n := List.map_take

theorem headers_drop (ps : List (Option Pool)) (n : ℕ) :
    headers (ps.drop n) = (headers ps).drop n := List.map_drop

/-- **A get from a bank.** -/
theorem bankGetPtr_apply (h : b.Spelled m) (hget : Milu.bankGetPtr (some b) = (x, some b'))
    (H : Heap) : ∃ m', bankGetPtr (some b.header) m H = some (((x, some b'.header), m'), H) ∧
      b'.Spelled m' ∧ ∀ y, ¬ Covered (poolBlocks b.header.bank) y → m.SameAt m' y := by
  obtain ⟨m', hloop, hacts⟩ :=
    bankGetLoop_apply H (h.pools.sublist (List.take_sublist b.allocdPools b.bank))
  obtain ⟨hspelled, hout⟩ := Bank.Spelled.acts h hacts
  obtain ⟨rfl, hb⟩ := Prod.mk.inj hget
  obtain rfl := Option.some.inj hb
  refine ⟨m', ?_, hspelled, hout⟩
  rw [headers_take] at hloop
  refine (bind_apply hloop _).trans ?_
  simp only [Bank.header, headers_append, headers_drop]
  rfl

/-- **A put to a bank.** -/
theorem bankPutPtr_apply (h : b.Spelled m) (hput : Milu.bankPutPtr (some b) x = (ret, some b'))
    (H : Heap) : ∃ m', bankPutPtr (some b.header) x m H = some (((ret, some b'.header), m'), H) ∧
      b'.Spelled m' ∧ ∀ y, ¬ Covered (poolBlocks b.header.bank) y → m.SameAt m' y := by
  obtain ⟨m', hloop, hacts⟩ :=
    bankPutLoop_apply x H 0 (h.pools.sublist (List.take_sublist b.allocdPools b.bank))
  obtain ⟨hspelled, hout⟩ := Bank.Spelled.acts h hacts
  obtain ⟨rfl, hb⟩ := Prod.mk.inj hput
  obtain rfl := Option.some.inj hb
  refine ⟨m', ?_, hspelled, hout⟩
  rw [headers_take] at hloop
  refine (bind_apply hloop _).trans ?_
  simp only [Bank.header, headers_append, headers_drop]
  rfl

/-- **A new pool at the end of an array.** -/
theorem SpelledAll.push (h : SpelledAll ps m) (hlive : poolBlocks (headers ps) ⊆ H.live)
    (hmakes : Makes m H r m' H') :
    SpelledAll (ps ++ [r]) m' ∧ poolBlocks (headers (ps ++ [r])) ⊆ H'.live := by
  have hold : SpelledAll ps m' := h.congr fun x hx => hmakes.outside x (hx.mono hlive)
  have hkept : poolBlocks (headers ps) ⊆ H'.live := fun c hc => hmakes.kept (hlive hc)
  cases r with
  | none =>
    have hnone : SpelledAll [none] m' := ⟨fun P hP => by simp at hP, List.Pairwise.nil⟩
    refine ⟨hold.append hnone fun b _ c hc => ?_, ?_⟩
    · exact absurd hc List.not_mem_nil
    · simpa [headers] using hkept
  | some P =>
    have hnew := hmakes.blocks P rfl
    have hone : SpelledAll [some P] m' := by
      refine ⟨fun Q hQ => ?_, ?_⟩
      · rw [Option.some.inj (List.mem_singleton.mp hQ)]
        exact hmakes.spelled P rfl
      · simpa [headers] using hnew.apart
    refine ⟨hold.append hone fun c hc d hd => ?_, ?_⟩
    · have hd : d ∈ P.header.blocks := by simpa [headers] using hd
      exact (hnew.fresh d hd c (hlive hc)).symm
    · intro c hc
      rw [headers_append, poolBlocks_append, List.mem_append] at hc
      rcases hc with hc | hc
      · exact hkept hc
      · exact hnew.live (by simpa [headers] using hc)

theorem base_ne_of_makes (hmakes : Makes m H r m' H') {a : ℕ} (ha : ∃ l ∈ H.live, l.base = a)
    (hps : ∀ c ∈ poolBlocks (headers ps), c.base ≠ a) :
    ∀ c ∈ poolBlocks (headers (ps ++ [r])), c.base ≠ a := by
  intro c hc
  rw [headers_append, poolBlocks_append, List.mem_append] at hc
  rcases hc with hc | hc
  · exact hps c hc
  · obtain ⟨l, hl, rfl⟩ := ha
    cases r with
    | none => exact absurd hc List.not_mem_nil
    | some P => exact ((hmakes.blocks P rfl).fresh c (by simpa [headers] using hc) l hl).base_ne

/-! ### Making a bank -/

/-- The blocks of a bank are allocated: those of its pools, and its array, if it has one. -/
structure Allocated (b : BankStruct) (H : Heap) : Prop where
  pools : poolBlocks b.bank ⊆ H.live
  array : b.bankMem = 0 ∨ ∃ l ∈ H.live, l.base = b.bankMem

/-- What making a bank may do. -/
structure MakesBank (m : Memory ℕ) (H : Heap) (r : Option Bank) (m' : Memory ℕ) (H' : Heap) :
    Prop where
  spelled : ∀ b, r = some b → b.Spelled m'
  allocated : ∀ b, r = some b → Allocated b.header H'
  outside : ∀ x, Stored H x → m.SameAt m' x

theorem MakesBank.none (hout : ∀ x, Stored H x → m.SameAt m' x) : MakesBank m H none m' H' :=
  ⟨fun b hb => absurd hb.symm (Option.some_ne_none b),
    fun b hb => absurd hb.symm (Option.some_ne_none b), hout⟩

/-- **The loop of `create_bank`**, with the array allocated. -/
theorem createBankLoop_apply (poolsize objsize : ℕ) : ∀ (k : ℕ) {b : Bank}
    {m : Memory ℕ} {H : Heap},
    b.Spelled m → poolBlocks b.header.bank ⊆ H.live → (∃ l ∈ H.live, l.base = b.bankMem) →
      ∃ r m' H', Milu.createBankLoop Heap.malloc Heap.free poolsize objsize k b H = some (r, H') ∧
        createBankLoop poolsize objsize k b.header m H = some ((r.map Bank.header, m'), H') ∧
        MakesBank m H r m' H'
  | 0, b, m, H, hs, hlive, harray => by
    refine ⟨some b, m, H, rfl, rfl, fun c hc => ?_, fun c hc => ?_, fun x _ => .refl m x⟩ <;>
      rw [← Option.some.inj hc]
    · exact hs
    · exact ⟨hlive, .inr harray⟩
  | k + 1, b, m, H, hs, hlive, harray => by
    obtain ⟨p, m₁, H₁, hcall, hcallIn, hmakes⟩ := createPool_apply poolsize objsize m H
    have hempty : (p.map Pool.header).isNone ∧ 0 < b.header.bank.length ↔
        p.isNone ∧ 0 < b.bank.length := by
      rw [Option.isNone_map, Bank.header, headers, List.length_map]
    rw [Milu.createBankLoop, createBankLoop, HeapM.bind_apply hcall, bind_apply hcallIn]
    by_cases hfail : p.isNone ∧ 0 < b.bank.length
    · rw [if_pos hfail, if_pos (hempty.mpr hfail)]
      exact ⟨none, m₁, _, rfl, rfl, .none hmakes.outside⟩
    · rw [if_neg hfail, if_neg (mt hempty.mp hfail)]
      obtain ⟨hpools, hlive₁⟩ := hs.pools.push hlive hmakes
      obtain ⟨r, m', H', hloop, hloopIn, hrest⟩ := createBankLoop_apply poolsize objsize k
        (b := { b with bank := b.bank ++ [p], allocdPools := (b.allocdPools + 1) % 2 ^ 16 })
        ⟨hpools, base_ne_of_makes hmakes harray hs.array⟩ hlive₁
        (harray.imp fun l hl => ⟨hmakes.kept hl.1, hl.2⟩)
      refine ⟨r, m', H', hloop, ?_, hrest.spelled, hrest.allocated, fun x hx => ?_⟩
      · have hheader : b.header.bank ++ [p.map Pool.header] = headers (b.bank ++ [p]) :=
          (headers_append b.bank [p]).symm
        rw [hheader]
        exact hloopIn
      · exact (hmakes.outside x hx).trans (hrest.outside x (hx.mono hmakes.kept))

/-- **Making a bank in memory** goes as it does on lists. -/
theorem createBank_apply (nPools : ℕ) (growing : Bool) (poolsize objsize : ℕ) (m : Memory ℕ)
    (H : Heap) : ∃ r m' H',
      Milu.createBank Heap.malloc Heap.free nPools growing poolsize objsize H = some (r, H') ∧
        createBank nPools growing poolsize objsize m H = some ((r.map Bank.header, m'), H') ∧
        MakesBank m H r m' H' := by
  rw [Milu.createBank, createBank]
  set n := nPools % 2 ^ 16
  rw [Heap.malloc_bind, bind_apply (onHeap_apply (Heap.malloc_apply _ H) m)]
  set H₁ := H.afterMalloc sizeofBank
  have hlive₁ : H.live ⊆ H₁.live := Heap.live_subset_afterMalloc H sizeofBank
  cases hb : H.answer sizeofBank with
  | none => exact ⟨none, m, H₁, rfl, rfl, .none fun x _ => .refl m x⟩
  | some addr =>
    have hnil : ∀ {b : Bank}, b.bank = [] → b.Spelled m := by
      intro b hbank
      refine ⟨⟨fun P hP => ?_, ?_⟩, fun c hc => ?_⟩
      · rw [hbank] at hP
        exact absurd hP List.not_mem_nil
      · rw [hbank]
        exact List.Pairwise.nil
      · rw [hbank] at hc
        exact absurd hc List.not_mem_nil
    dsimp only
    by_cases hn : n > 0
    · rw [if_pos hn, if_pos hn, Heap.malloc_bind,
        bind_apply (onHeap_apply (Heap.malloc_apply _ H₁) m)]
      cases hmem : H₁.answer (n * sizeofPoolPtr) with
      | none => exact ⟨none, m, _, rfl, rfl, .none fun x _ => .refl m x⟩
      | some bankMem =>
        have harray : ∃ l ∈ (H₁.afterMalloc (n * sizeofPoolPtr)).live, l.base = bankMem := by
          rw [Heap.afterMalloc_live hmem]
          exact ⟨_, List.mem_cons_self, rfl⟩
        obtain ⟨r, m', H', hloop, hloopIn, hmakes⟩ := createBankLoop_apply poolsize objsize n
          (b := ⟨addr, if growing then 0 else n, 0, poolsize % 2 ^ 16,
            objsize % 2 ^ 64, bankMem, []⟩)
          (hnil rfl) (List.nil_subset _) harray
        refine ⟨r, m', H', hloop, hloopIn, hmakes.spelled, hmakes.allocated, fun x hx => ?_⟩
        exact hmakes.outside x (hx.mono fun l hl => Heap.live_subset_afterMalloc H₁ _ (hlive₁ hl))
    · rw [if_neg hn, if_neg hn]
      refine ⟨_, m, H₁, rfl, rfl, fun c hc => ?_, fun c hc => ?_, fun x _ => .refl m x⟩ <;>
        rw [← Option.some.inj hc]
      · exact hnil rfl
      · exact ⟨List.nil_subset _, .inl rfl⟩

/-! ### Adding a pool -/

/-- What a call finds that comes after another one left `m`: the bank's blocks as they were, and
allocated. -/
structure Finds (b : BankStruct) (m m' : Memory ℕ) (H : Heap) : Prop where
  same : ∀ x, Covered (poolBlocks b.bank) x → m.SameAt m' x
  allocated : Allocated b H

theorem Finds.spelled (h : Finds b.header m m' H) (hs : b.Spelled m) : b.Spelled m' :=
  ⟨hs.pools.congr h.same, hs.array⟩

theorem live_afterFree {bs : List Block} {a : ℕ} (hlive : bs ⊆ H.live)
    (hne : ∀ c ∈ bs, c.base ≠ a) : bs ⊆ (H.afterFree a).live :=
  fun _ hc => Heap.mem_live_afterFree (hlive hc) (hne _ hc)

/-- **Adding a pool in memory** goes as it does on lists. Nothing is written where anything was
allocated. -/
theorem addPool_apply (hs : b.Spelled m) (ha : Allocated b.header H) : ∃ ret b' m' H',
    Milu.addPool Heap.malloc Heap.free (some b) H = some ((ret, some b'), H') ∧
      addPool (some b.header) m H = some (((ret, some b'.header), m'), H') ∧
      b'.Spelled m' ∧ Allocated b'.header H' ∧ ∀ x, Stored H x → m.SameAt m' x := by
  rw [Milu.addPool, addPool]
  by_cases hfull : b.maxPools ≠ 0 ∧ b.allocdPools = b.maxPools
  · have hfullIn : b.header.maxPools ≠ 0 ∧ b.header.allocdPools = b.header.maxPools := hfull
    rw [if_pos hfull, if_pos hfullIn]
    exact ⟨-1, b, m, H, rfl, rfl, hs, ha, fun x _ => .refl m x⟩
  have hroomIn : ¬ (b.header.maxPools ≠ 0 ∧ b.header.allocdPools = b.header.maxPools) := hfull
  rw [if_neg hfull, if_neg hroomIn]
  have harray : b.bankMem = 0 ∨ ∃ l ∈ H.live, l.base = b.bankMem := ha.array
  simp only [Bank.header]
  rw [Heap.malloc_bind, bind_apply (onHeap_apply (Heap.malloc_apply _ H) m)]
  set size := (b.allocdPools + 1) * sizeofPoolPtr
  set H₁ := H.afterMalloc size
  have hlive₁ : H.live ⊆ H₁.live := Heap.live_subset_afterMalloc H size
  cases haux : H.answer size with
  | none =>
    refine ⟨-1, b, m, H₁, rfl, rfl, hs, ⟨fun c hc => hlive₁ (ha.pools hc), ?_⟩,
      fun x _ => .refl m x⟩
    exact harray.imp_right (Exists.imp fun l hl => ⟨hlive₁ hl.1, hl.2⟩)
  | some auxB =>
    dsimp only
    have hold_ne : ∀ c ∈ H.live, c.base ≠ auxB := fun c hc =>
      ((Heap.answer_fresh haux).2.2 c hc).base_ne.symm
    have hauxB : ∃ l ∈ H₁.live, l.base = auxB := by
      rw [Heap.afterMalloc_live haux]
      exact ⟨_, List.mem_cons_self, rfl⟩
    obtain ⟨r, m', H₂, hcall, hcallIn, hmakes⟩ := createPool_apply b.poolsz b.objsz m H₁
    have hout : ∀ x, Stored H x → m.SameAt m' x := fun x hx => hmakes.outside x (hx.mono hlive₁)
    have hlive₂ : H.live ⊆ H₂.live := fun c hc => hmakes.kept (hlive₁ hc)
    rw [HeapM.bind_apply hcall, bind_apply hcallIn]
    cases r with
    | none =>
      have hsame := hs.pools.congr fun x hx => hout x (hx.mono ha.pools)
      refine ⟨-1, b, m', H₂.afterFree auxB, rfl, rfl, ⟨hsame, hs.array⟩, ⟨?_, ?_⟩, hout⟩
      · exact live_afterFree (fun c hc => hlive₂ (ha.pools hc)) fun c hc => hold_ne c (ha.pools hc)
      · exact harray.imp_right (Exists.imp fun l hl =>
          ⟨Heap.mem_live_afterFree (hlive₂ hl.1) (hold_ne l hl.1), hl.2⟩)
    | some P =>
      set ps := b.bank.take b.allocdPools
      have hsub : ps.Sublist b.bank := List.take_sublist _ _
      have hblocks : poolBlocks (headers ps) ⊆ poolBlocks (headers b.bank) :=
        ((hsub.map _).flatMap _).subset
      obtain ⟨hpools, hlive⟩ := (hs.pools.sublist hsub).push
        (fun c hc => hlive₁ (ha.pools (hblocks hc))) hmakes
      have hnew_ne : ∀ c ∈ poolBlocks (headers (ps ++ [some P])), c.base ≠ auxB :=
        base_ne_of_makes hmakes hauxB fun c hc => hold_ne c (ha.pools (hblocks hc))
      refine ⟨0, { b with
        allocdPools := (b.allocdPools + 1) % 2 ^ 16
        bankMem := auxB
        bank := ps ++ [some P] }, m', H₂.afterFree b.bankMem, rfl, ?_, ⟨hpools, hnew_ne⟩,
        ⟨?_, ?_⟩, hout⟩
      · rw [headers_append, headers_take]
        rfl
      · -- the array that goes is not a block of a pool
        rcases harray with hzero | harray
        · rwa [hzero, Heap.afterFree, if_pos rfl]
        · refine live_afterFree hlive (base_ne_of_makes hmakes ?_ fun c hc =>
            hs.array c (hblocks hc))
          exact harray.imp fun l hl => ⟨hlive₁ hl.1, hl.2⟩
      · have hother : auxB ≠ b.bankMem := by
          rcases harray with hzero | ⟨l, hl, hbase⟩
          · exact fun hc => (Heap.answer_fresh haux).1 (hc.trans hzero)
          · exact fun hc => hold_ne l hl (hbase.trans hc.symm)
        obtain ⟨l, hl, rfl⟩ := hauxB
        exact .inr ⟨l, Heap.mem_live_afterFree (hmakes.kept hl) hother, rfl⟩

/-! ### Runs -/

/-- Calls in memory with what they returned, latest first, and the heap that each of them found. -/
inductive BankCallsIn (b₀ : BankStruct) (m₀ : Memory ℕ) :
    List (Heap × BankEvent) → BankStruct → Memory ℕ → Prop
  | start : BankCallsIn b₀ m₀ [] b₀ m₀
  | add {cs b m m₁ H ret b' m' H'} : BankCallsIn b₀ m₀ cs b m → Finds b m m₁ H →
      addPool (some b) m₁ H = some (((ret, some b'), m'), H') →
      BankCallsIn b₀ m₀ ((H, .added ret) :: cs) b' m'
  | get {cs b m m₁ H x b' m' H'} : BankCallsIn b₀ m₀ cs b m → Finds b m m₁ H →
      bankGetPtr (some b) m₁ H = some (((x, some b'), m'), H') →
      BankCallsIn b₀ m₀ ((H, .got x) :: cs) b' m'
  | put {cs b m m₁ H x ret b' m' H'} : BankCallsIn b₀ m₀ cs b m → Finds b m m₁ H →
      bankPutPtr (some b) x m₁ H = some (((ret, some b'), m'), H') →
      BankCallsIn b₀ m₀ ((H, .put x ret) :: cs) b' m'

end InMemory

/-- The same calls on lists. -/
inductive BankCallsOn (b₀ : Bank) : List (Heap × BankEvent) → Bank → Prop
  | start : BankCallsOn b₀ [] b₀
  | add {cs b H ret b' H'} : BankCallsOn b₀ cs b →
      addPool Heap.malloc Heap.free (some b) H = some ((ret, some b'), H') →
      BankCallsOn b₀ ((H, .added ret) :: cs) b'
  | get {cs b H x b'} : BankCallsOn b₀ cs b → bankGetPtr (some b) = (x, some b') →
      BankCallsOn b₀ ((H, .got x) :: cs) b'
  | put {cs b H x ret b'} : BankCallsOn b₀ cs b → bankPutPtr (some b) x = (ret, some b') →
      BankCallsOn b₀ ((H, .put x ret) :: cs) b'

namespace InMemory

theorem some_unique {α : Type} {o : Option ((α × Memory ℕ) × Heap)} {a a' : α} {H'' : Heap}
    {m'' : Memory ℕ} (h : o = some ((a, m'), H')) (h' : o = some ((a', m''), H'')) :
    a = a' ∧ m' = m'' := by
  rw [h, Option.some.injEq, Prod.mk.injEq, Prod.mk.injEq] at h'
  exact h'.1

/-- **Any calls** on a bank in memory are calls on a bank on lists, which the memory spells out. -/
theorem BankCallsIn.spelled {B₀ : Bank} {m₀ : Memory ℕ} {cs : List (Heap × BankEvent)}
    {b : BankStruct} (hrun : BankCallsIn B₀.header m₀ cs b m) (hs : B₀.Spelled m₀) :
    ∃ B, BankCallsOn B₀ cs B ∧ B.header = b ∧ B.Spelled m := by
  induction hrun with
  | start => exact ⟨B₀, .start, rfl, hs⟩
  | @add cs b m m₁ H ret b' m' H' _ hfinds hcall ih =>
    obtain ⟨B, hcalls, rfl, hspelled⟩ := ih
    obtain ⟨ret', B', m'', H'', hadd, haddIn, hspelled', -⟩ :=
      addPool_apply (hfinds.spelled hspelled) hfinds.allocated
    obtain ⟨hret, rfl⟩ := some_unique hcall haddIn
    obtain ⟨rfl, hb⟩ := Prod.mk.inj hret
    exact ⟨B', hcalls.add hadd, (Option.some.inj hb).symm, hspelled'⟩
  | @get cs b m m₁ H x b' m' H' _ hfinds hcall ih =>
    obtain ⟨B, hcalls, rfl, hspelled⟩ := ih
    obtain ⟨m'', hgetIn, hspelled', -⟩ :=
      bankGetPtr_apply (b := B) (hfinds.spelled hspelled) rfl H
    obtain ⟨hret, rfl⟩ := some_unique hcall hgetIn
    obtain ⟨rfl, hb⟩ := Prod.mk.inj hret
    exact ⟨_, hcalls.get rfl, (Option.some.inj hb).symm, hspelled'⟩
  | @put cs b m m₁ H x ret b' m' H' _ hfinds hcall ih =>
    obtain ⟨B, hcalls, rfl, hspelled⟩ := ih
    obtain ⟨m'', hputIn, hspelled', -⟩ :=
      bankPutPtr_apply (b := B) (x := x) (hfinds.spelled hspelled) rfl H
    obtain ⟨hret, rfl⟩ := some_unique hcall hputIn
    obtain ⟨rfl, hb⟩ := Prod.mk.inj hret
    exact ⟨_, hcalls.put rfl, (Option.some.inj hb).symm, hspelled'⟩

/-- What a bank in memory owes its clients: it has returned what a bank on lists would have, and any
call that may come next returns, with what that bank returns next, and writes into the bank's own
blocks or into new ones. -/
structure ServesBank (B : Bank) (b : BankStruct) (m : Memory ℕ) : Prop where
  header : B.header = b
  get : ∀ m₁ H, Finds b m m₁ H → ∃ x B' m', Milu.bankGetPtr (some B) = (x, some B') ∧
    bankGetPtr (some b) m₁ H = some (((x, some B'.header), m'), H) ∧
    ∀ y, ¬ Covered (poolBlocks b.bank) y → m₁.SameAt m' y
  put : ∀ m₁ H x, Finds b m m₁ H → ∃ ret B' m', Milu.bankPutPtr (some B) x = (ret, some B') ∧
    bankPutPtr (some b) x m₁ H = some (((ret, some B'.header), m'), H) ∧
    ∀ y, ¬ Covered (poolBlocks b.bank) y → m₁.SameAt m' y
  add : ∀ m₁ H, Finds b m m₁ H → ∃ ret B' m' H',
    Milu.addPool Heap.malloc Heap.free (some B) H = some ((ret, some B'), H') ∧
    addPool (some b) m₁ H = some (((ret, some B'.header), m'), H') ∧ Allocated B'.header H' ∧
    ∀ y, Stored H y → m₁.SameAt m' y

theorem serves_of_spelled (hs : b.Spelled m) : ServesBank b b.header m where
  header := rfl
  get := fun m₁ H hfinds => by
    obtain ⟨m', hcall, -, hout⟩ := bankGetPtr_apply (b := b) (hfinds.spelled hs) rfl H
    exact ⟨_, _, m', rfl, hcall, hout⟩
  put := fun m₁ H x hfinds => by
    obtain ⟨m', hcall, -, hout⟩ := bankPutPtr_apply (b := b) (x := x) (hfinds.spelled hs) rfl H
    exact ⟨_, _, m', rfl, hcall, hout⟩
  add := fun m₁ H hfinds => by
    obtain ⟨ret, b', m', H', hcall, hcallIn, -, hallocated, hout⟩ :=
      addPool_apply (hfinds.spelled hs) hfinds.allocated
    exact ⟨ret, b', m', H', hcall, hcallIn, hallocated, hout⟩

/-- **A bank in memory** that `create_bank` has made, in whatever was in memory before, returns what
the bank on lists does, whatever the program does to the rest of the memory between the calls. -/
theorem bank_in_memory {nPools poolsize objsize : ℕ} {growing : Bool} {m₀ m₁ : Memory ℕ}
    {H₀ H₁ : Heap} {b₀ : BankStruct} (hcreate : createBank nPools growing poolsize objsize m₀ H₀ =
      some ((some b₀, m₁), H₁)) {cs : List (Heap × BankEvent)} {b : BankStruct}
    (hrun : BankCallsIn b₀ m₁ cs b m) : ∃ B₀ B,
      Milu.createBank Heap.malloc Heap.free nPools growing poolsize objsize H₀ =
        some (some B₀, H₁) ∧
      B₀.header = b₀ ∧ Finds b₀ m₁ m₁ H₁ ∧ (∀ x, Stored H₀ x → m₀.SameAt m₁ x) ∧
      BankCallsOn B₀ cs B ∧ ServesBank B b m := by
  obtain ⟨r, m₂, H₂, hlists, hmemory, hmakes⟩ :=
    createBank_apply nPools growing poolsize objsize m₀ H₀
  rw [hcreate, Option.some.injEq, Prod.mk.injEq, Prod.mk.injEq] at hmemory
  obtain ⟨⟨hb₀, rfl⟩, rfl⟩ := hmemory
  obtain ⟨B₀, rfl, rfl⟩ := Option.map_eq_some_iff.mp hb₀.symm
  obtain ⟨B, hcalls, rfl, hspelled⟩ := hrun.spelled (hmakes.spelled B₀ rfl)
  exact ⟨B₀, B, hlists, rfl, ⟨fun x _ => .refl m₁ x, hmakes.allocated B₀ rfl⟩, hmakes.outside,
    hcalls, serves_of_spelled hspelled⟩

/-- A memory full of anything. -/
def scribbled : Memory ℕ := ⟨usedMemory, fun a => a⟩

/-- A slot is taken, written to, and given back. -/
theorem bank_in_memory_page : ∃ m₁ H₁ b m,
    createBank 1 false 2 16 scribbled pageHeap = some ((some pageBank.header, m₁), H₁) ∧
      BankCallsIn pageBank.header m₁ [(H₁, .put 16384 0), (H₁, .got 16384)] b m ∧
      ∃ B₀ B, BankCallsOn B₀ [(H₁, .put 16384 0), (H₁, .got 16384)] B ∧ ServesBank B b m := by
  obtain ⟨r, m₁, H₁, hlists, hcreate, hmakes⟩ := createBank_apply 1 false 2 16 scribbled pageHeap
  have hpage : Milu.createBank Heap.malloc Heap.free 1 false 2 16 pageHeap =
      some (some pageBank, ((((pageHeap.afterMalloc 24).afterMalloc 8).afterMalloc 160).afterMalloc
        32).afterMalloc 48) := rfl
  rw [hpage, Option.some.injEq, Prod.mk.injEq] at hlists
  obtain ⟨rfl, -⟩ := hlists
  obtain ⟨b₁, b₂, hget, hput, hblocks, harray⟩ : ∃ b₁ b₂,
      Milu.bankGetPtr (some pageBank) = (16384, some b₁) ∧
      Milu.bankPutPtr (some b₁) 16384 = (0, some b₂) ∧
      poolBlocks b₁.header.bank = poolBlocks pageBank.header.bank ∧
      b₁.header.bankMem = pageBank.header.bankMem := ⟨_, _, rfl, rfl, rfl, rfl⟩
  have hallocated := hmakes.allocated _ rfl
  have hfinds : Finds pageBank.header m₁ m₁ H₁ := ⟨fun x _ => .refl m₁ x, hallocated⟩
  obtain ⟨m₂, hgetIn, hspelled, -⟩ := bankGetPtr_apply (hmakes.spelled _ rfl) hget H₁
  -- the client writes into its slot
  have hslot : ∀ x, Covered (poolBlocks pageBank.header.bank) x → x ≠ 16384 := by
    rintro _ hx rfl
    exact absurd hx (by decide)
  have hfinds₂ : Finds b₁.header m₂ (m₂.withFields 16384 99) H₁ := by
    refine ⟨fun x hx => ⟨rfl, rfl, rfl, Function.update_of_ne (hslot x (hblocks ▸ hx)) _ _⟩, ?_, ?_⟩
    · rw [hblocks]
      exact hallocated.pools
    · rw [harray]
      exact hallocated.array
  obtain ⟨m₃, hputIn, -⟩ := bankPutPtr_apply (hfinds₂.spelled hspelled) hput H₁
  have hput' := (BankCallsIn.start.get hfinds hgetIn).put hfinds₂ hputIn
  obtain ⟨B₀, B, -, -, -, -, hcalls, hserves⟩ := bank_in_memory hcreate hput'
  exact ⟨m₁, H₁, _, m₃, hcreate, hput', B₀, B, hcalls, hserves⟩

end InMemory

end Milu
