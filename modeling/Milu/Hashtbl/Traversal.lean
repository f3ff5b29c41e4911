import Milu.Hashtbl.Resize
import Mathlib.Logic.Relation

/-!
# Traversals, step by step

`forEachSafe` runs the two loops of `hash_table_for_each_safe` to their end. Here they are taken
apart into single steps, so that what holds while a traversal is under way can be stated as well:
where the two cursors stand, and what the body has done so far.

## Main definitions

* `Walk`, `Walk.step` — a traversal under way
* `Walk.Reaches` — the walks a traversal comes through
* `HashTable.stepsFrom` — the steps of a traversal that changes no successor

## Main results

* `forEachSafe_step` — the loops take one step after the other
* `forEachSafe_invariant` — what the body keeps, the traversal keeps
* `forEachSafe_outcome`, `forEachSafe_total` — an invariant with a measure decides whether a
  traversal returns
* `Walk.Reaches.invariant` — an invariant holds all along
-/

namespace Milu

variable {K S : Type}

/-- A traversal under way: the bucket counter, the cursors `pos` and `n` when the inner loop is
running, and the state of the program. -/
structure Walk (K S : Type) where
  hti : ℕ
  cur : Option (Pos K × Pos K)
  state : S

variable {t : S → HashTable K} {body : Pos K → ℕ → StateT S Option ℕ}

/-- One step of the loops: on to the next walk, or out of the outer loop. -/
def Walk.step (t : S → HashTable K) (body : Pos K → ℕ → StateT S Option ℕ) (w : Walk K S) :
    Option (Walk K S ⊕ S) :=
  match w.cur with
  | none =>
    if w.hti < (t w.state).buckets then
      ((t w.state).next (.head w.hti)).bind fun pos =>
        ((t w.state).next pos).map fun n => .inl ⟨w.hti, some (pos, n), w.state⟩
    else some (.inr w.state)
  | some (pos, n) =>
    if pos.isHead w.hti then some (.inl ⟨(w.hti + 1) % 2 ^ 32, none, w.state⟩)
    else (body pos w.hti w.state).bind fun r =>
      ((t r.2).next n).map fun n' => .inl ⟨r.1, some (n, n'), r.2⟩

/-- The walks a traversal comes through. -/
def Walk.Reaches (t : S → HashTable K) (body : Pos K → ℕ → StateT S Option ℕ) :
    Walk K S → Walk K S → Prop :=
  Relation.ReflTransGen fun w w' => w.step t body = some (.inl w')

theorem forEachSafe_step (fuel : ℕ) (w : Walk K S) :
    forEachSafe failure (t <$> get) body (fuel + 1) w.hti w.cur w.state =
      (w.step t body).elim none (Sum.elim
        (fun w' => forEachSafe failure (t <$> get) body fuel w'.hti w'.cur w'.state)
        fun s => some ((), s)) := by
  obtain ⟨hti, cur, s⟩ := w
  cases cur with
  | none =>
    rw [Walk.step, forEachSafe_outer]
    split_ifs
    · cases (t s).next (.head hti) with
      | none => rfl
      | some pos =>
        rw [Option.elim_some, Option.bind_some]
        cases (t s).next pos <;> rfl
    · rfl
  | some cursors =>
    obtain ⟨pos, n⟩ := cursors
    rw [Walk.step]
    cases hpos : pos.isHead hti with
    | true =>
      rw [forEachSafe_head hpos]
      simp [hpos]
    | false =>
      rw [forEachSafe_node hpos]
      simp only [hpos, Bool.false_eq_true, if_false]
      cases body pos hti s with
      | none => rfl
      | some r =>
        rw [Option.elim_some, Option.bind_some]
        cases (t r.2).next n <;> rfl

/-- What the body of a traversal keeps, the traversal keeps. -/
theorem forEachSafe_invariant (I : S → Prop)
    (hbody : ∀ pos hti s r, I s → body pos hti s = some r → I r.2) :
    ∀ (fuel : ℕ) {hti : ℕ} {cur : Option (Pos K × Pos K)} {s s' : S}, I s →
      forEachSafe failure (t <$> get) body fuel hti cur s = some ((), s') → I s'
  | 0, _, _, _, _, _, hrun => absurd hrun (Option.some_ne_none _).symm
  | fuel + 1, hti, none, s, s', hI, hrun => by
    rw [forEachSafe_outer] at hrun
    split_ifs at hrun
    · cases hpos : (t s).next (.head hti) with
      | none => simp [hpos] at hrun
      | some pos =>
        rw [hpos, Option.elim_some] at hrun
        cases hn : (t s).next pos with
        | none => simp [hn] at hrun
        | some n =>
          rw [hn] at hrun
          exact forEachSafe_invariant I hbody fuel hI hrun
    · rw [Option.some.injEq, Prod.mk.injEq] at hrun
      exact hrun.2 ▸ hI
  | fuel + 1, hti, some (pos, n), s, s', hI, hrun => by
    cases hpos : pos.isHead hti with
    | true =>
      rw [forEachSafe_head hpos] at hrun
      exact forEachSafe_invariant I hbody fuel hI hrun
    | false =>
      rw [forEachSafe_node hpos] at hrun
      cases hr : body pos hti s with
      | none => simp [hr] at hrun
      | some r =>
        rw [hr, Option.elim_some] at hrun
        cases hn : (t r.2).next n with
        | none => simp [hn] at hrun
        | some n' =>
          rw [hn] at hrun
          exact forEachSafe_invariant I hbody fuel (hbody pos hti s r hI hr) hrun

/-- The steps that a traversal of the whole table has left before bucket `i`. -/
def HashTable.stepsFrom (h : HashTable K) (i : ℕ) : ℕ :=
  ((List.range' i (h.buckets - i)).flatMap h.table).length + 2 * (h.buckets - i)

theorem stepsFrom_eq {h : HashTable K} {i : ℕ} (hi : i < h.buckets) :
    h.stepsFrom i = (h.table i).length + 2 + h.stepsFrom (i + 1) := by
  obtain ⟨k, hk⟩ : ∃ k, h.buckets - i = k + 1 := ⟨h.buckets - i - 1, by omega⟩
  have hk' : h.buckets - (i + 1) = k := by omega
  rw [HashTable.stepsFrom, HashTable.stepsFrom, hk, hk', List.range'_succ, List.flatMap_cons,
    List.length_append]
  omega

/-- A traversal of the whole table is given rounds enough. -/
theorem stepsFrom_zero_lt (h : HashTable K) : h.stepsFrom 0 < h.rounds := by
  rw [HashTable.stepsFrom, Nat.sub_zero, ← List.range_eq_range']
  exact Nat.lt_succ_self _

/-- **A traversal returns or is lost.** An invariant says of each step whether it leads on, with
less to do, or out of the loops, or astray; then it says so of the whole traversal. -/
theorem forEachSafe_outcome {I : ℕ → Walk K S → Prop} {post : S → Prop} {bad : Prop}
    (hstep : ∀ k w, I k w → (∃ k' w', w.step t body = some (.inl w') ∧ I k' w' ∧ k' < k) ∨
      (∃ s, w.step t body = some (.inr s) ∧ post s) ∨ w.step t body = none ∧ bad) :
    ∀ (k : ℕ) (w : Walk K S), I k w →
      (∀ fuel, k < fuel → ∃ s,
        forEachSafe failure (t <$> get) body fuel w.hti w.cur w.state = some ((), s) ∧ post s) ∨
      (∀ fuel, forEachSafe failure (t <$> get) body fuel w.hti w.cur w.state = none) ∧ bad := by
  intro k
  induction k using Nat.strong_induction_on with
  | _ k ih =>
    intro w hI
    rcases hstep k w hI with ⟨k', w', hw', hI', hlt⟩ | ⟨s, hs, hpost⟩ | ⟨hnone, hbad⟩
    · rcases ih k' hlt w' hI' with hreturns | ⟨hlost, hbad⟩
      · left
        intro fuel hfuel
        obtain ⟨fuel, rfl⟩ := Nat.exists_eq_add_one_of_ne_zero (Nat.ne_zero_of_lt hfuel)
        rw [forEachSafe_step, hw']
        exact hreturns fuel (by omega)
      · refine .inr ⟨fun fuel => ?_, hbad⟩
        cases fuel with
        | zero => rfl
        | succ fuel =>
          rw [forEachSafe_step, hw']
          exact hlost fuel
    · left
      intro fuel hfuel
      obtain ⟨fuel, rfl⟩ := Nat.exists_eq_add_one_of_ne_zero (Nat.ne_zero_of_lt hfuel)
      rw [forEachSafe_step, hs]
      exact ⟨s, rfl, hpost⟩
    · refine .inr ⟨fun fuel => ?_, hbad⟩
      cases fuel with
      | zero => rfl
      | succ fuel =>
        rw [forEachSafe_step, hnone]
        rfl

/-- **A traversal returns** when no step leads astray. -/
theorem forEachSafe_total {I : ℕ → Walk K S → Prop} {post : S → Prop}
    (hstep : ∀ k w, I k w → (∃ k' w', w.step t body = some (.inl w') ∧ I k' w' ∧ k' < k) ∨
      ∃ s, w.step t body = some (.inr s) ∧ post s) {k fuel : ℕ} {w : Walk K S} (hI : I k w)
    (hfuel : k < fuel) :
    ∃ s, forEachSafe failure (t <$> get) body fuel w.hti w.cur w.state = some ((), s) ∧ post s := by
  have hsafe : ∀ k w, I k w → (∃ k' w', w.step t body = some (.inl w') ∧ I k' w' ∧ k' < k) ∨
      (∃ s, w.step t body = some (.inr s) ∧ post s) ∨ w.step t body = none ∧ False :=
    fun k w hI => (hstep k w hI).imp_right Or.inl
  rcases forEachSafe_outcome hsafe k w hI with hreturns | ⟨-, hbad⟩
  · exact hreturns fuel hfuel
  · exact hbad.elim

/-- **An invariant holds all along** a traversal. -/
theorem Walk.Reaches.invariant {I : Walk K S → Prop}
    (hstep : ∀ w w', I w → w.step t body = some (.inl w') → I w') {w w' : Walk K S}
    (hreach : Walk.Reaches t body w w') (hI : I w) : I w' := by
  induction hreach with
  | refl => exact hI
  | tail _ hlast ih => exact hstep _ _ ih hlast

end Milu
