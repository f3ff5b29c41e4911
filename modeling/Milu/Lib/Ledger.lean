import Milu.Lib.Heap

/-!
# A ledger of what a program was given

Part of a program asks the allocator for blocks and is to give each of them back, once. The ledger
keeps the blocks that it was given and has not given back yet, and the addresses of releases that
were none of its business: of a block it gave back before, or never had. When the ledger is
balanced, with no block left and no such release, every block was given back exactly once.

The allocator is that of `Heap`, so it may refuse any request.

## Main definitions

* `Ledger`, `Ledger.malloc`, `Ledger.free` — the ledger, and the requests and releases it records
* `Ledger.Owns`, `Ledger.Balanced` — what is left to give back; nothing is
* `Heap.Grants` — the allocator answers every request of a row

## Main results

* `Ledger.Owns.malloc`, `Ledger.Owns.free` — a request adds a block, a release takes it away
* `Heap.grants_append` — one row of requests after the other
-/

namespace Heap

/-! ### Requests in a row -/

/-- The heap after the requests, one after the other. -/
def afterMallocs : Heap → List ℕ → Heap
  | H, [] => H
  | H, n :: ns => (H.afterMalloc n).afterMallocs ns

/-- Each of the requests is answered with a block. -/
def Grants : Heap → List ℕ → Prop
  | _, [] => True
  | H, n :: ns => H.answer n ≠ none ∧ (H.afterMalloc n).Grants ns

instance decidableGrants : (H : Heap) → (ns : List ℕ) → Decidable (H.Grants ns)
  | _, [] => inferInstanceAs (Decidable True)
  | H, n :: ns =>
    have := decidableGrants (H.afterMalloc n) ns
    inferInstanceAs (Decidable (H.answer n ≠ none ∧ (H.afterMalloc n).Grants ns))

theorem grants_cons {H : Heap} {n : ℕ} {ns : List ℕ} :
    H.Grants (n :: ns) ↔ H.answer n ≠ none ∧ (H.afterMalloc n).Grants ns := Iff.rfl

theorem grants_append {H : Heap} {ms ns : List ℕ} :
    H.Grants (ms ++ ns) ↔ H.Grants ms ∧ (H.afterMallocs ms).Grants ns := by
  induction ms generalizing H with
  | nil => exact ⟨fun h => ⟨trivial, h⟩, fun h => h.2⟩
  | cons m ms ih =>
    rw [List.cons_append, grants_cons, grants_cons, ih, and_assoc]
    rfl

theorem refused_afterMallocs {H : Heap} {ns : List ℕ} (h : H.Grants ns) :
    (H.afterMallocs ns).refused = H.refused := by
  induction ns generalizing H with
  | nil => rfl
  | cons n ns ih =>
    rw [grants_cons] at h
    rcases H.answer_cases n with ⟨hnone, -⟩ | ⟨_, -, -, -, hcount⟩
    · exact absurd hnone h.1
    · exact (ih h.2).trans hcount

theorem live_afterMalloc (H : Heap) (n : ℕ) :
    (H.afterMalloc n).live = ((H.answer n).map fun a => ⟨a, n⟩).toList ++ H.live := by
  cases h : H.answer n with
  | none =>
    rw [afterMalloc]
    split
    · rename_i a ha
      rw [h] at ha
      exact absurd ha.symm (Option.some_ne_none a)
    · rfl
  | some a => exact afterMalloc_live h

theorem live_afterFree (H : Heap) (a : ℕ) :
    (H.afterFree a).live = if a = 0 then H.live else H.live.eraseP fun b => b.base == a := by
  rw [afterFree]
  split_ifs <;> rfl

end Heap

/-! ### The ledger -/

/-- The allocator, the blocks that are still to be given back, and the addresses of releases of
anything else. -/
structure Ledger where
  heap : Heap
  own : List Block
  stray : List ℕ
  own_live : own.Sublist heap.live
  own_ne : ∀ b ∈ own, b.base ≠ 0

namespace Ledger

/-- A ledger with nothing in it yet. -/
def opened (H : Heap) : Ledger where
  heap := H
  own := []
  stray := []
  own_live := List.nil_sublist _
  own_ne _ hb := absurd hb List.not_mem_nil

/-- The ledger after a request for `n` bytes. -/
def afterMalloc (L : Ledger) (n : ℕ) : Ledger where
  heap := L.heap.afterMalloc n
  own := ((L.heap.answer n).map fun a => ⟨a, n⟩).toList ++ L.own
  stray := L.stray
  own_live := by
    rw [Heap.live_afterMalloc]
    exact L.own_live.append_left _
  own_ne b hb := by
    rcases List.mem_append.mp hb with hb | hb
    · obtain ⟨a, ha, rfl⟩ := Option.map_eq_some_iff.mp (Option.mem_toList.mp hb)
      exact (Heap.answer_fresh ha).1
    · exact L.own_ne b hb

/-- The ledger after a request of the rest of the program, whose block is not the ledger's. -/
def afterOther (L : Ledger) (n : ℕ) : Ledger where
  heap := L.heap.afterMalloc n
  own := L.own
  stray := L.stray
  own_live := L.own_live.trans (by
    rw [Heap.live_afterMalloc]
    exact List.sublist_append_right _ _)
  own_ne := L.own_ne

/-- The ledger after a release. -/
def afterFree (L : Ledger) (a : ℕ) : Ledger where
  heap := L.heap.afterFree a
  own := if a = 0 then L.own else L.own.eraseP fun b => b.base == a
  stray := if a = 0 ∨ L.own.any (fun b => b.base == a) then L.stray else a :: L.stray
  own_live := by
    rw [Heap.live_afterFree]
    split_ifs
    · exact L.own_live
    · exact L.own_live.eraseP
  own_ne b hb := by
    refine L.own_ne b ?_
    split_ifs at hb
    · exact hb
    · exact List.mem_of_mem_eraseP hb

/-- `malloc(n)`, on the ledger. -/
def malloc (n : ℕ) : StateM Ledger (Option ℕ) := fun L => (L.heap.answer n, L.afterMalloc n)

/-- `free(a)`, on the ledger. -/
def free (a : ℕ) : StateM Ledger Unit := fun L => ((), L.afterFree a)

theorem malloc_bind {α : Type} (n : ℕ) (f : Option ℕ → StateM Ledger α) (L : Ledger) :
    (malloc n >>= f) L = f (L.heap.answer n) (L.afterMalloc n) := rfl

theorem bind_apply {α β : Type} {x : StateM Ledger α} {a : α} {L L' : Ledger} (hx : x L = (a, L'))
    (f : α → StateM Ledger β) : (x >>= f) L = f a L' := by
  show f (x L).1 (x L).2 = f a L'
  rw [hx]

@[simp] theorem heap_afterMalloc (L : Ledger) (n : ℕ) :
    (L.afterMalloc n).heap = L.heap.afterMalloc n := rfl

/-- Every block that was given is given back, and nothing else was. -/
def Balanced (L : Ledger) : Prop := L.own = [] ∧ L.stray = []

/-- The blocks at these addresses are still to be given back, and nothing was given back that was
not to be. -/
structure Owns (L : Ledger) (as : List ℕ) : Prop where
  bases : (L.own.map Block.base).Perm as
  stray : L.stray = []

theorem owns_nil_iff {L : Ledger} : L.Owns [] ↔ L.Balanced := by
  constructor
  · intro h
    exact ⟨List.map_eq_nil_iff.mp h.bases.eq_nil, h.stray⟩
  · intro h
    exact ⟨by rw [h.1, List.map_nil], h.2⟩

theorem owns_opened (H : Heap) : (opened H).Owns [] := ⟨List.Perm.refl _, rfl⟩

namespace Owns

variable {L : Ledger} {as bs : List ℕ} {a n : ℕ}

theorem perm (h : L.Owns as) (hp : as.Perm bs) : L.Owns bs := ⟨h.bases.trans hp, h.stray⟩

theorem ne_zero (h : L.Owns as) (ha : a ∈ as) : a ≠ 0 := by
  obtain ⟨b, hb, rfl⟩ := List.mem_map.mp (h.bases.symm.subset ha)
  exact L.own_ne b hb

/-- What is left to give back keeps a ledger from being balanced. -/
theorem not_balanced (h : L.Owns as) (hne : as ≠ []) : ¬ L.Balanced := by
  intro hb
  have hnil := h.bases
  rw [hb.1, List.map_nil] at hnil
  exact hne hnil.symm.eq_nil

/-- **A request** that is answered adds its block. -/
theorem malloc (h : L.Owns as) (ha : L.heap.answer n = some a) :
    (L.afterMalloc n).Owns (a :: as) := by
  refine ⟨?_, h.stray⟩
  show ((((L.heap.answer n).map fun a => (⟨a, n⟩ : Block)).toList ++ L.own).map Block.base).Perm _
  rw [ha]
  exact h.bases.cons a

theorem refused (h : L.Owns as) (ha : L.heap.answer n = none) : (L.afterMalloc n).Owns as := by
  refine ⟨?_, h.stray⟩
  show ((((L.heap.answer n).map fun a => (⟨a, n⟩ : Block)).toList ++ L.own).map Block.base).Perm _
  rw [ha]
  exact h.bases

theorem other (h : L.Owns as) (n : ℕ) : (L.afterOther n).Owns as := ⟨h.bases, h.stray⟩

/-- **A release** takes away the block. -/
theorem free (h : L.Owns (a :: as)) : (L.afterFree a).Owns as := by
  have hne := h.ne_zero List.mem_cons_self
  obtain ⟨b, hb, hba⟩ := List.mem_map.mp (h.bases.symm.subset List.mem_cons_self)
  constructor
  · show ((if a = 0 then L.own else L.own.eraseP fun b => b.base == a).map Block.base).Perm as
    have hmap : (L.own.eraseP fun b => b.base == a).map Block.base =
        (L.own.map Block.base).erase a := by
      rw [List.erase_eq_eraseP', List.eraseP_map]
      rfl
    rw [if_neg hne, hmap]
    have herase := h.bases.erase a
    rwa [List.erase_cons_head] at herase
  · show (if a = 0 ∨ L.own.any (fun b => b.base == a) then L.stray else a :: L.stray) = []
    rw [if_pos (.inr (List.any_eq_true.mpr ⟨b, hb, beq_iff_eq.mpr hba⟩))]
    exact h.stray

theorem free_null (h : L.Owns as) : (L.afterFree 0).Owns as := ⟨h.bases, h.stray⟩

end Owns

end Ledger
