import Milu.Pool.Conservation

/-!
# Which pool takes a pointer back

`bank_put_ptr` offers the pointer to one pool after the other until one accepts it, and returns what
the last pool asked has returned. With at least one pool this is the truth: zero means that one pool
took the pointer, the one whose range it is in, and anything else means that none did. A bank
without pools, which `create_bank` makes when it is asked to, asks nobody and returns the zero it
started with.

## Main definitions

* `Took` — a pool of the bank took the pointer into its queue
* `RoutedTruthfully` — what a put owes its caller

## Main results

* `bankPutLoop_cases` — one pool takes the pointer, or none does
* `routed_iff` — a put tells the truth exactly when there is a pool to ask
* `routed_empty` — the bank of no pools
-/

namespace Milu

/-- The pool at index `i` of the bank took `x` behind its available addresses, when the bank `b`
became `b'`. -/
def Took (b b' : Bank) (x i : ℕ) : Prop :=
  ∃ P P', b.bank[i]? = some (some P) ∧ b'.bank[i]? = some (some P') ∧
    P'.available = P.available ++ [x]

/-- The pointer is in the range of the pool. -/
def Pool.InRange (P : Pool) (x : ℕ) : Prop := P.startAddr ≤ x ∧ x < P.endAddr

/-- What a put of `x` owes its caller, when it returned `ret` and the bank `b` became `b'`: zero
says that exactly one pool took the pointer, that pool is the one whose range the pointer is in, and
the other pools are as they were; anything else says that the bank is as it was. -/
structure RoutedTruthfully (b b' : Bank) (x : ℕ) (ret : ℤ) : Prop where
  zero_iff : ret = 0 ↔ ∃! i, Took b b' x i
  owner : ∀ i, Took b b' x i → ∀ j P, b.bank[j]? = some (some P) → (P.InRange x ↔ j = i)
  others : ∀ i, Took b b' x i → ∀ j, j ≠ i → b'.bank[j]? = b.bank[j]?
  refused : ret ≠ 0 → b' = b

/-- No address is in the ranges of two pools. -/
def Bank.RangesDisjoint (b : Bank) : Prop :=
  ∀ (i j : ℕ) (P Q : Pool), b.bank[i]? = some (some P) → b.bank[j]? = some (some Q) → i ≠ j →
    ∀ y, P.InRange y → ¬ Q.InRange y

theorem poolPutPtr_none (x : ℕ) : poolPutPtr none x = (-1, none) := rfl

/-- **One pool takes the pointer, or none does.** Without a pool to ask, the value of the round
before is returned. -/
theorem bankPutLoop_cases (x : ℕ) : ∀ (ret : ℤ) (ps : List (Option Pool)),
    (bankPutLoop x ret ps = (if ps = [] then ret else -1, ps)) ∨
      ∃ pre P post lh q, ps = pre ++ some P :: post ∧ P.InRange x ∧ P.availQ = lh :: q ∧
        bankPutLoop x ret ps = (0, pre ++ some (P.returned lh q x) :: post)
  | ret, [] => .inl rfl
  | ret, p :: ps => by
    have hnext : ∀ {r : ℤ}, r = -1 → poolPutPtr p x = (r, p) →
        (bankPutLoop x ret (p :: ps) = (if p :: ps = [] then ret else -1, p :: ps)) ∨
          ∃ pre P post lh q, p :: ps = pre ++ some P :: post ∧ P.InRange x ∧ P.availQ = lh :: q ∧
            bankPutLoop x ret (p :: ps) = (0, pre ++ some (P.returned lh q x) :: post) := by
      rintro _ rfl hput
      rw [bankPutLoop, hput]
      dsimp only
      rw [if_neg (by decide)]
      rcases bankPutLoop_cases x (-1) ps with h | ⟨pre, P, post, lh, q, rfl, hin, hq, h⟩ <;> rw [h]
      · left
        rw [ite_self, if_neg (List.cons_ne_nil _ _)]
      · exact .inr ⟨p :: pre, P, post, lh, q, rfl, hin, hq, rfl⟩
    cases p with
    | none => exact hnext rfl (poolPutPtr_none x)
    | some P =>
      rcases poolPutPtr_cases P x with ⟨-, hput⟩ | ⟨lh, q, hlo, hhi, hq, hput⟩
      · exact hnext rfl hput
      · refine .inr ⟨[], P, ps, lh, q, rfl, ⟨hlo, hhi⟩, hq, ?_⟩
        rw [bankPutLoop, hput]
        rfl

theorem not_took_of_eq {b b' : Bank} {x i : ℕ} (h : b'.bank[i]? = b.bank[i]?) :
    ¬ Took b b' x i := by
  rintro ⟨P, P', hP, hP', havail⟩
  rw [h, hP, Option.some.injEq, Option.some.injEq] at hP'
  rw [← hP'] at havail
  exact List.cons_ne_nil x [] (List.self_eq_append_right.mp havail)

theorem not_exists_took (b : Bank) (x : ℕ) : ¬ ∃! i, Took b b x i := by
  rintro ⟨i, hi, -⟩
  exact not_took_of_eq rfl hi

theorem routed_of_refused (b : Bank) (x : ℕ) : RoutedTruthfully b b x (-1) :=
  ⟨iff_of_false (by decide) (not_exists_took b x), fun _ hi => absurd hi (not_took_of_eq rfl),
    fun _ hi => absurd hi (not_took_of_eq rfl), fun _ => rfl⟩

theorem routed_of_returned {b b' : Bank} {x i lh : ℕ} {q : List ℕ} {P : Pool}
    (hat : b.bank[i]? = some (some P)) (hset : b'.bank = b.bank.set i (some (P.returned lh q x)))
    (hq : P.availQ = lh :: q) (hnodes : (P.poolQ ++ P.availQ).Nodup) (hin : P.InRange x)
    (hdisjoint : b.RangesDisjoint) : RoutedTruthfully b b' x 0 := by
  have hlt : i < b.bank.length := (List.getElem?_eq_some_iff.mp hat).1
  have hothers : ∀ j, j ≠ i → b'.bank[j]? = b.bank[j]? := by
    intro j hj
    rw [hset, List.getElem?_set_ne (Ne.symm hj)]
  have htook : Took b b' x i := by
    refine ⟨P, P.returned lh q x, hat, ?_, Pool.available_returned hq hnodes⟩
    rw [hset, List.getElem?_set_self hlt]
  have honly : ∀ j, Took b b' x j → j = i := by
    intro j hj
    by_contra hne
    exact not_took_of_eq (hothers j hne) hj
  refine ⟨iff_of_true rfl ⟨i, htook, honly⟩, ?_, ?_, fun hne => absurd rfl hne⟩
  · rintro k hk j Q hQ
    obtain rfl := honly k hk
    constructor
    · intro hQin
      by_contra hne
      exact hdisjoint _ _ _ _ hat hQ (Ne.symm hne) x hin hQin
    · rintro rfl
      rw [hat, Option.some.injEq, Option.some.injEq] at hQ
      exact hQ ▸ hin
  · intro k hk
    obtain rfl := honly k hk
    exact hothers

/-- **A put tells the truth** exactly when there is a pool to ask. -/
theorem routed_iff (b : Bank) (hcount : b.allocdPools ≤ b.bank.length)
    (hnodes : ∀ P, some P ∈ b.bank → (P.poolQ ++ P.availQ).Nodup) (hdisjoint : b.RangesDisjoint)
    (x : ℕ) :
    ∃ ret b', bankPutPtr (some b) x = (ret, some b') ∧
      (RoutedTruthfully b b' x ret ↔ b.allocdPools ≠ 0) := by
  rw [bankPutPtr]
  rcases bankPutLoop_cases x 0 (b.bank.take b.allocdPools) with
    h | ⟨pre, P, post, lh, q, hps, hin, hq, h⟩ <;> rw [h] <;> dsimp only
  · -- no pool took the pointer
    rw [List.take_append_drop]
    have hempty : b.bank.take b.allocdPools = [] ↔ b.allocdPools = 0 := by
      rw [List.take_eq_nil_iff, or_iff_left_iff_imp]
      intro hnil
      rw [hnil] at hcount
      exact Nat.le_zero.mp hcount
    refine ⟨_, b, rfl, ?_⟩
    rw [ne_eq, ← hempty]
    constructor
    · intro hrouted hnil
      rw [if_pos hnil] at hrouted
      exact not_exists_took b x (hrouted.zero_iff.mp rfl)
    · intro hne
      rw [if_neg hne]
      exact routed_of_refused b x
  · -- the pool after `pre` took it
    have hbank : b.bank = pre ++ some P :: (post ++ b.bank.drop b.allocdPools) := by
      rw [← List.cons_append, ← List.append_assoc, ← hps, List.take_append_drop]
    have hallocd : b.allocdPools ≠ 0 := by
      rintro h0
      rw [h0, List.take_zero] at hps
      exact List.append_ne_nil_of_right_ne_nil _ (List.cons_ne_nil _ _) hps.symm
    have hat : b.bank[pre.length]? = some (some P) := by
      rw [hbank]
      simp
    refine ⟨0, _, rfl, iff_of_true (routed_of_returned hat ?_ hq
      (hnodes P (List.mem_of_getElem? hat)) hin hdisjoint) hallocd⟩
    conv_rhs => rw [hbank]
    simp

theorem BankInv.rangesDisjoint {pools : List Pool} {b : Bank} {held : List ℕ} {H : Heap}
    (hi : BankInv pools b held H) : b.RangesDisjoint := by
  intro i j P Q hP hQ hne y hPy hQy
  have hpool : ∀ {k : ℕ} {R : Pool}, b.bank[k]? = some (some R) → pools[k]? = some R := by
    intro k R hR
    rw [hi.bank_eq, List.getElem?_map, Option.map_eq_some_iff] at hR
    obtain ⟨R', hR', heq⟩ := hR
    exact Option.some.inj heq ▸ hR'
  have howns : ∀ {R : Pool}, R ∈ pools → R.InRange y → R.owns y = true := by
    rintro R hR ⟨hlo, hhi⟩
    rw [(hi.ok R hR).start_eq] at hlo
    rw [(hi.ok R hR).end_eq] at hhi
    exact Pool.owns_iff.mpr ⟨hlo, hhi⟩
  obtain ⟨hi', rfl⟩ := List.getElem?_eq_some_iff.mp (hpool hP)
  obtain ⟨hj', rfl⟩ := List.getElem?_eq_some_iff.mp (hpool hQ)
  have hP := howns (List.getElem_mem hi') hPy
  have hQ := howns (List.getElem_mem hj') hQy
  have happ := List.pairwise_iff_getElem.mp hi.owners_apart
  rcases Nat.lt_or_gt_of_ne hne with hlt | hgt
  · exact Bool.noConfusion ((happ i j hi' hj' hlt y hP).symm.trans hQ)
  · exact Bool.noConfusion ((happ j i hj' hi' hgt y hQ).symm.trans hP)

theorem BankInv.nodes_nodup {pools : List Pool} {b : Bank} {held : List ℕ} {H : Heap}
    (hi : BankInv pools b held H) : ∀ P, some P ∈ b.bank → (P.poolQ ++ P.availQ).Nodup := by
  intro P hP
  rw [hi.bank_eq] at hP
  obtain ⟨Q, hQ, heq⟩ := List.mem_map.mp hP
  obtain rfl := Option.some.inj heq
  exact (hi.ok Q hQ).nodes.nodup_iff.mpr List.nodup_range

/-- Of two pools with an address each that is out, the second takes its own back. -/
theorem routed_iff_page : ∃ b held H b', BankRun 2 false 2 16 b held H ∧ b.allocdPools = 2 ∧
    held = [28672, 16400, 16384] ∧ bankPutPtr (some b) 28672 = (0, some b') ∧
    RoutedTruthfully b b' 28672 0 := by
  have hcreate : createBank Heap.malloc Heap.free 2 false 2 16 pageHeap = some (some _, _) := rfl
  have hnew := BankRun.create hcreate rfl
  have hone := hnew.get (x := 16384) rfl
  have htwo := hone.get (x := 16400) rfl
  have hthree := htwo.get (x := 28672) rfl
  obtain ⟨-, -, pools, hi⟩ := hthree.inv ⟨by decide, by decide, by decide, by decide⟩
  obtain ⟨ret, b', hput, hrouted⟩ :=
    routed_iff _ le_rfl hi.nodes_nodup hi.rangesDisjoint 28672
  have hzero : ret = 0 := (congrArg Prod.fst hput).symm
  subst hzero
  exact ⟨_, _, _, b', hthree, rfl, rfl, hput, hrouted.mpr (by decide)⟩

/-- **The bank of no pools** says that it took the pointer. -/
theorem routed_empty : ∃ b H',
    createBank Heap.malloc Heap.free 0 false 2 16 pageHeap = some (some b, H') ∧
      bankPutPtr (some b) 8192 = (0, some b) ∧ ¬ RoutedTruthfully b b 8192 0 := by
  refine ⟨⟨4096, 0, 0, 2, 16, 0, []⟩, _, rfl, rfl, fun hrouted => ?_⟩
  obtain ⟨i, hi, -⟩ := hrouted.zero_iff.mp rfl
  exact not_took_of_eq rfl hi

end Milu
