import Mathlib.Data.List.Nodup
import Mathlib.Data.List.Perm.Basic
import Mathlib.Data.List.Range

/-!
# Lists sorted into boxes

A list may be sorted into numbered boxes, one of which is then replaced or searched, or among the
owners of its elements. Nothing is lost or repeated on the way.

## Main results

* `flatMap_update_perm`, `flatMap_filter_perm`, `flatMap_filter_owner` — boxes and owners, up to
  order
* `countP_update` — how many boxes pass a test, after one was replaced
* `filter_flatMap_range` — a filter that only one box can pass
* `find?_eq_find?_iff` — when a weaker test finds what a stronger one finds
* `getLast?_eq_head?_iff` — when the last element is the first
-/

/-! ### Boxes -/

/-- Replacing the chain of one bucket replaces its share of the concatenation. -/
theorem flatMap_update_perm {α : Type} {l : List ℕ} (hl : l.Nodup) {n : ℕ} (hn : n ∈ l)
    (f : ℕ → List α) (c : List α) :
    (l.flatMap (Function.update f n c)).Perm (c ++ (l.erase n).flatMap f) := by
  have hrest : (l.erase n).flatMap (Function.update f n c) = (l.erase n).flatMap f := by
    refine List.flatMap_congr fun i hi => Function.update_of_ne ?_ _ _
    rintro rfl
    exact hl.not_mem_erase hi
  have hfront := (List.perm_cons_erase hn).flatMap_right (Function.update f n c)
  rwa [List.flatMap_cons, Function.update_self, hrest] at hfront

/-- Replacing the content of one box changes how many pass a test by what that box contributes. -/
theorem countP_update {α : Type} {l : List ℕ} (hl : l.Nodup) {n : ℕ} (hn : n ∈ l) (f : ℕ → α)
    (a : α) (p : α → Bool) :
    (l.countP fun i => p (Function.update f n a i)) + (if p (f n) then 1 else 0) =
      (l.countP fun i => p (f i)) + if p a then 1 else 0 := by
  have hrest : ((l.erase n).countP fun i => p (Function.update f n a i)) =
      (l.erase n).countP fun i => p (f i) := by
    refine List.countP_congr fun i hi => ?_
    have hne : i ≠ n := by
      rintro rfl
      exact hl.not_mem_erase hi
    rw [Function.update_of_ne hne]
  have hnew := (List.perm_cons_erase hn).countP_eq fun i => p (Function.update f n a i)
  have hold := (List.perm_cons_erase hn).countP_eq fun i => p (f i)
  rw [List.countP_cons, Function.update_self, hrest] at hnew
  rw [List.countP_cons] at hold
  omega

/-- Sorting the elements of a list into numbered boxes loses and repeats nothing. -/
theorem flatMap_filter_perm {α : Type} (f : α → ℕ) {n : ℕ} {l : List α} (hl : ∀ a ∈ l, f a < n) :
    ((List.range n).flatMap fun j => (l.filter fun a => f a == j).reverse).Perm l := by
  induction l with
  | nil => simp
  | cons a l ih =>
    set box : ℕ → List α := fun j => (l.filter fun a => f a == j).reverse
    have hbox : (fun j => ((a :: l).filter fun a => f a == j).reverse) =
        Function.update box (f a) (box (f a) ++ [a]) := by
      funext j
      by_cases hj : f a = j
      · subst hj
        simp [box]
      · rw [List.filter_cons_of_neg (by simpa using hj), Function.update_of_ne (Ne.symm hj)]
    have hmem := List.mem_range.mpr (hl a (List.mem_cons_self ..))
    have hold := flatMap_update_perm List.nodup_range hmem box (box (f a))
    rw [Function.update_eq_self] at hold
    rw [hbox]
    calc List.Perm ((List.range n).flatMap (Function.update box (f a) (box (f a) ++ [a])))
          (box (f a) ++ [a] ++ ((List.range n).erase (f a)).flatMap box) :=
            flatMap_update_perm List.nodup_range hmem box _
      List.Perm _ (a :: (box (f a) ++ ((List.range n).erase (f a)).flatMap box)) := by
            rw [List.append_assoc]
            exact List.perm_middle
      List.Perm _ (a :: l) :=
            (hold.symm.trans (ih fun b hb => hl b (List.mem_cons_of_mem _ hb))).cons a

/-- Sorting the elements of a list by who owns them loses and repeats nothing, when each has exactly
one owner. -/
theorem flatMap_filter_owner {ι α : Type} {owns : ι → α → Bool} : ∀ {l : List ι} {xs : List α},
    (∀ x ∈ xs, ∃ i ∈ l, owns i x = true) →
    (l.Pairwise fun i j => ∀ x, owns i x = true → owns j x = false) →
      (l.flatMap fun i => xs.filter (owns i)).Perm xs
  | [], xs, hown, _ => by
    have hnil : xs = [] := List.eq_nil_iff_forall_not_mem.mpr fun x hx => by
      obtain ⟨i, hi, -⟩ := hown x hx
      exact List.not_mem_nil hi
    rw [hnil]
    exact List.Perm.refl _
  | i :: l, xs, hown, hpair => by
    rw [List.pairwise_cons] at hpair
    set others := xs.filter fun x => !owns i x
    have hrest : (l.flatMap fun j => xs.filter (owns j)) = l.flatMap fun j =>
        others.filter (owns j) := by
      refine List.flatMap_congr fun j hj => ?_
      rw [List.filter_filter]
      refine List.filter_congr fun x _ => ?_
      cases hi : owns i x with
      | true => rw [hpair.1 j hj x hi]; rfl
      | false => simp
    have ih : (l.flatMap fun j => others.filter (owns j)).Perm others := by
      refine flatMap_filter_owner (fun x hx => ?_) hpair.2
      obtain ⟨hxs, hnot⟩ := List.mem_filter.mp hx
      obtain ⟨j, hj, hjx⟩ := hown x hxs
      rcases List.mem_cons.mp hj with rfl | hj
      · rw [hjx] at hnot
        exact absurd hnot (by decide)
      · exact ⟨j, hj, hjx⟩
    rw [List.flatMap_cons, hrest]
    exact (ih.append_left _).trans (List.filter_append_perm (owns i) xs)

/-- When only one of the chains can hold what a predicate accepts, filtering the whole is filtering
that chain. -/
theorem filter_flatMap_range {α : Type} {f : ℕ → List α} {p : α → Bool} {n b : ℕ} (hn : n < b)
    (hp : ∀ i, i ≠ n → ∀ a ∈ f i, p a = false) :
    ((List.range b).flatMap f).filter p = (f n).filter p := by
  obtain ⟨l₁, l₂, hsplit⟩ := List.append_of_mem (List.mem_range.mpr hn)
  have hnodup := List.nodup_range (n := b)
  rw [hsplit, List.nodup_middle, List.nodup_cons, List.mem_append, not_or] at hnodup
  have hnil : ∀ l : List ℕ, n ∉ l → (l.flatMap f).filter p = [] := by
    intro l hl
    refine List.filter_eq_nil_iff.mpr fun a ha => ?_
    obtain ⟨i, hi, hai⟩ := List.mem_flatMap.mp ha
    have hne : i ≠ n := fun hc => hl (hc ▸ hi)
    simp [hp i hne a hai]
  rw [hsplit, List.flatMap_append, List.flatMap_cons, List.filter_append, List.filter_append,
    hnil l₁ hnodup.1.1, hnil l₂ hnodup.1.2, List.nil_append, List.append_nil]

/-! ### Searches -/

/-- When one test accepts whatever a second test accepts, the first finds the same element as the
second exactly when it accepts nothing before it. -/
theorem find?_eq_find?_iff {α : Type} {p q : α → Bool} : ∀ {l : List α},
    (∀ a ∈ l, q a = true → p a = true) →
      (l.find? p = l.find? q ↔ ∀ a ∈ l.takeWhile fun a => !q a, p a = false)
  | [], _ => by simp
  | a :: l, hqp => by
    have ih := find?_eq_find?_iff fun t ht => hqp t (List.mem_cons_of_mem _ ht)
    by_cases hq : q a = true
    · have hp := hqp a List.mem_cons_self hq
      simp [hp, hq]
    · rw [Bool.not_eq_true] at hq
      by_cases hp : p a = true
      · have hne : l.find? q ≠ some a := by
          intro hc
          rw [List.find?_some hc] at hq
          exact Bool.noConfusion hq
        simp [hp, hq, hne.symm]
      · rw [Bool.not_eq_true] at hp
        simp [hp, hq, ih]

theorem filterMap_concat {α β : Type} (f : α → Option β) (l : List α) (a : α) :
    (l ++ [a]).filterMap f = l.filterMap f ++ (f a).toList := by
  rw [List.filterMap_append]
  cases h : f a <;> simp [h]

/-- The last element of a front part of a list without repetitions is the first of the list only
when the front part is a single element, or the list is empty. -/
theorem getLast?_eq_head?_iff {α : Type} {m l : List α} (hl : (m ++ l).Nodup) :
    m.getLast? = (m ++ l).head? ↔ m ++ l = [] ∨ m.length = 1 := by
  match m with
  | [] => cases l <;> simp
  | [a] => simp
  | a :: b :: m =>
    have hne : a ≠ (b :: m).getLast (by simp) := by
      intro hc
      have hmem : a ∈ b :: m ++ l := List.mem_append_left _ (hc ▸ List.getLast_mem (by simp))
      exact (List.nodup_cons.mp hl).1 hmem
    rw [List.getLast?_cons_cons, List.getLast?_eq_getLast_of_ne_nil (by simp), List.cons_append,
      List.head?_cons, Option.some.injEq]
    simp [hne.symm]
