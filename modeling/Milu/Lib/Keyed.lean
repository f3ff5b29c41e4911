import Mathlib.Data.List.Nodup
import Mathlib.Data.List.Perm.Basic

/-!
# Lists of pairs, by key

A list of pairs, read from the front: a lookup finds the first pair with its key, and a deletion
takes that pair out. Keys may repeat, and a later pair then comes to light when an earlier one is
deleted.

## Main definitions

* `Keyed.keys`, `Keyed.erase` — the keys, and the list without the first pair of a key

## Main results

* `Keyed.cons_erase_perm` — a deletion takes out what a lookup finds
* `Keyed.lookup_erase_of_ne` — a deletion leaves the answers for other keys
-/

namespace Keyed

variable {κ α : Type}

/-- The keys, in order. -/
def keys (l : List (κ × α)) : List κ := l.map Prod.fst

theorem mem_keys_of_mem {l : List (κ × α)} {p : κ × α} (hp : p ∈ l) : p.1 ∈ keys l :=
  List.mem_map_of_mem hp

theorem value_unique {l : List (κ × α)} (hl : (keys l).Nodup) {k : κ} {v w : α}
    (hv : (k, v) ∈ l) (hw : (k, w) ∈ l) : v = w :=
  (Prod.ext_iff.mp (List.inj_on_of_nodup_map hl hv hw rfl)).2

variable [DecidableEq κ]

/-- The list without the first pair of the key. -/
def erase (k : κ) (l : List (κ × α)) : List (κ × α) := l.eraseP fun p => p.1 == k

theorem erase_sublist (k : κ) (l : List (κ × α)) : (erase k l).Sublist l := List.eraseP_sublist

@[simp] theorem erase_cons_self (k : κ) (v : α) (l : List (κ × α)) : erase k ((k, v) :: l) = l :=
  List.eraseP_cons_of_pos (by simp)

theorem erase_cons_of_ne {k a : κ} (h : a ≠ k) (v : α) (l : List (κ × α)) :
    erase k ((a, v) :: l) = (a, v) :: erase k l :=
  List.eraseP_cons_of_neg (by simpa using h)

theorem lookup_cons_of_ne {k a : κ} (h : k ≠ a) (v : α) (l : List (κ × α)) :
    ((a, v) :: l).lookup k = l.lookup k := by
  rw [List.lookup_cons, beq_eq_false_iff_ne.mpr h]

theorem mem_of_lookup {k : κ} {v : α} {l : List (κ × α)} (h : l.lookup k = some v) :
    (k, v) ∈ l := by
  obtain ⟨l₁, l₂, rfl, -⟩ := List.lookup_eq_some_iff.mp h
  simp

theorem exists_lookup {k : κ} {l : List (κ × α)} (hk : k ∈ keys l) : ∃ v, l.lookup k = some v := by
  obtain ⟨p, hp, rfl⟩ := List.mem_map.mp hk
  exact Option.isSome_iff_exists.mp (List.lookup_isSome_iff.mpr ⟨p, hp, by simp⟩)

theorem lookup_of_mem {l : List (κ × α)} (hl : (keys l).Nodup) {k : κ} {v : α} (h : (k, v) ∈ l) :
    l.lookup k = some v := by
  obtain ⟨w, hw⟩ := exists_lookup (mem_keys_of_mem h)
  rw [hw, value_unique hl (mem_of_lookup hw) h]

theorem lookup_eq_none {k : κ} {l : List (κ × α)} (hk : k ∉ keys l) : l.lookup k = none := by
  refine List.lookup_eq_none_iff.mpr fun p hp => ?_
  rw [bne_iff_ne]
  rintro rfl
  exact hk (mem_keys_of_mem hp)

theorem erase_of_lookup_none {k : κ} {l : List (κ × α)}
    (h : l.lookup k = none) : erase k l = l := by
  refine List.eraseP_of_forall_not fun p hp hpk => ?_
  exact bne_iff_ne.mp (List.lookup_eq_none_iff.mp h p hp) (beq_iff_eq.mp hpk).symm

/-- **A deletion takes out what a lookup finds.** -/
theorem cons_erase_perm {k : κ} {v : α} : ∀ {l : List (κ × α)}, l.lookup k = some v →
    ((k, v) :: erase k l).Perm l
  | [], h => by simp at h
  | (a, w) :: l, h => by
    by_cases ha : a = k
    · subst ha
      rw [List.lookup_cons_self, Option.some.injEq] at h
      rw [erase_cons_self, h]
    · rw [lookup_cons_of_ne (Ne.symm ha)] at h
      rw [erase_cons_of_ne ha]
      exact (List.Perm.swap _ _ _).trans ((cons_erase_perm h).cons _)

/-- **A deletion leaves the answers for other keys.** -/
theorem lookup_erase_of_ne {k k' : κ} (hk : k' ≠ k) : ∀ (l : List (κ × α)),
    (erase k l).lookup k' = l.lookup k'
  | [] => rfl
  | (a, v) :: l => by
    by_cases ha : a = k
    · subst ha
      rw [erase_cons_self, lookup_cons_of_ne hk]
    · rw [erase_cons_of_ne ha, List.lookup_cons, List.lookup_cons, lookup_erase_of_ne hk l]

end Keyed
