import Mathlib.Data.List.Basic
import Mathlib.Data.List.Nodup
import Mathlib.Tactic.Ring

/-!
# A ledger of allocated blocks

A C program asks an allocator for blocks and hands them back. What the program may rely on is
small: a request is answered by `NULL` or by a block that overlaps no live block. Where the
allocator puts its blocks, and when it refuses, is not the program's business, so both are left
to an arbitrary stream of replies.

## Main definitions

* `Block`, `Block.Apart` — a block, and two blocks that share no byte
* `Heap` — the live blocks, the replies still to come, and the log of releases
* `HeapM` — computations that allocate; `none` is a call that never returns
* `Heap.malloc`, `Heap.free`, `Heap.realloc`

## Honest replies

A reply is an address. `Heap.malloc` turns a reply that would overlap a live block into `NULL`,
so every stream of replies describes a correct allocator, and every behaviour of a correct
allocator is described by some stream. No theorem needs a hypothesis about the replies.
-/

/-- A block of memory, by its first address and its size in bytes. -/
structure Block where
  base : ℕ
  size : ℕ
  deriving DecidableEq, Repr

namespace Block

/-- The addresses a block takes up. A block of size zero still has an address of its own. -/
def span (b : Block) : ℕ := max b.size 1

/-- Two blocks that share no address. -/
def Apart (a b : Block) : Prop := a.base + a.span ≤ b.base ∨ b.base + b.span ≤ a.base

instance (a b : Block) : Decidable (Apart a b) :=
  inferInstanceAs (Decidable (_ ∨ _))

theorem size_le_span (b : Block) : b.size ≤ b.span := le_max_left _ _

theorem span_pos (b : Block) : 0 < b.span := Nat.lt_of_lt_of_le Nat.one_pos (le_max_right _ _)

theorem Apart.symm {a b : Block} (h : a.Apart b) : b.Apart a := Or.symm h

theorem Apart.base_ne {a b : Block} (h : a.Apart b) : a.base ≠ b.base := by
  have ha := a.span_pos
  have hb := b.span_pos
  unfold Apart at h
  omega

end Block

/-- The allocator's side of the program: the live blocks, any two of which share no address, what
the `n`-th request will be answered, how many requests there were and how many were refused, and
every address handed back so far, latest first. -/
structure Heap where
  live : List Block
  apart : live.Pairwise Block.Apart
  reply : ℕ → Option ℕ
  asked : ℕ
  refused : ℕ
  freed : List ℕ

/-- A computation that may allocate. `none` means that the call does not return: it loops for
ever or stops the process. -/
abbrev HeapM := StateT Heap Option

namespace HeapM

variable {α β : Type} {H H' : Heap} {a : α}

theorem bind_apply {x : HeapM α} (hx : x H = some (a, H')) (f : α → HeapM β) :
    (x >>= f) H = f a H' := by
  simp [bind, StateT.bind, hx]

@[simp] theorem pure_apply (a : α) (H : Heap) : (pure a : HeapM α) H = some (a, H) := rfl

theorem pure_inj {b : α} (h : (pure a : HeapM α) H = some (b, H')) : a = b ∧ H = H' := by
  rwa [pure_apply, Option.some.injEq, Prod.mk.injEq] at h

theorem of_bind {x : HeapM α} {f : α → HeapM β} {r : β × Heap} (h : (x >>= f) H = some r) :
    ∃ a H', x H = some (a, H') ∧ f a H' = some r := by
  cases hx : x H with
  | none => simp [bind, StateT.bind, hx] at h
  | some p =>
    obtain ⟨a, H'⟩ := p
    exact ⟨a, H', rfl, by rwa [bind_apply hx] at h⟩

theorem lift_apply {o : Option α} (ho : o = some a) (H : Heap) :
    (StateT.lift o : HeapM α) H = some (a, H) := by
  subst ho
  rfl

theorem of_lift {o : Option α} {H' : Heap} {a : α}
    (h : (StateT.lift o : HeapM α) H = some (a, H')) : o = some a := by
  cases o with
  | none => simp [StateT.lift] at h
  | some b =>
    rw [lift_apply rfl, Option.some.injEq, Prod.mk.injEq] at h
    rw [h.1]

end HeapM

namespace Heap

/-- The size of the address space. -/
def addrSpace : ℕ := 2 ^ 64

/-- A block the allocator may hand out: not at `NULL`, ending at an address that exists, and apart
from every live block. -/
def Fresh (H : Heap) (b : Block) : Prop :=
  b.base ≠ 0 ∧ b.base + b.span < addrSpace ∧ ∀ l ∈ H.live, b.Apart l

instance (H : Heap) (b : Block) : Decidable (H.Fresh b) :=
  inferInstanceAs (Decidable (_ ∧ _ ∧ _))

/-- The answer to a request for `n` bytes in the heap `H`. -/
def answer (H : Heap) (n : ℕ) : Option ℕ :=
  (H.reply H.asked).filter fun a => H.Fresh ⟨a, n⟩

theorem answer_fresh {H : Heap} {n a : ℕ} (h : H.answer n = some a) : H.Fresh ⟨a, n⟩ := by
  simpa using (Option.filter_eq_some_iff.mp h).2

/-- No block takes up the whole address space. -/
theorem answer_of_addrSpace_le {H : Heap} {n : ℕ} (h : addrSpace ≤ n + 1) : H.answer n = none := by
  refine Option.eq_none_iff_forall_ne_some.mpr fun a ha => ?_
  obtain ⟨hne, hend, -⟩ := answer_fresh ha
  have hsize : n ≤ Block.span ⟨a, n⟩ := Block.size_le_span ⟨a, n⟩
  have hpos : 0 < a := Nat.pos_of_ne_zero hne
  omega

/-- The heap after a request for `n` bytes. -/
def afterMalloc (H : Heap) (n : ℕ) : Heap :=
  match h : H.answer n with
  | some a =>
    { H with
      live := ⟨a, n⟩ :: H.live
      apart := List.pairwise_cons.mpr ⟨(answer_fresh h).2.2, H.apart⟩
      asked := H.asked + 1 }
  | none => { H with asked := H.asked + 1, refused := H.refused + 1 }

/-- `malloc(n)`. -/
def malloc (n : ℕ) : HeapM (Option ℕ) := fun H => some (H.answer n, H.afterMalloc n)

/-- The heap after a release. Nothing happens to `NULL`; any other address is logged, and the live
block there, if there is one, is live no more. -/
def afterFree (H : Heap) (a : ℕ) : Heap :=
  if a = 0 then H else
    { H with
      live := H.live.eraseP fun b => b.base == a
      apart := H.apart.sublist List.eraseP_sublist
      freed := a :: H.freed }

/-- `free(a)`. -/
def free (a : ℕ) : HeapM Unit := fun H => some ((), H.afterFree a)

/-- The heap without the block at `a`. -/
def remove (H : Heap) (a : ℕ) : Heap :=
  if a = 0 then H else
    { H with
      live := H.live.eraseP fun b => b.base == a
      apart := H.apart.sublist List.eraseP_sublist }

/-- The heap after a request to move the block at `a`, or to resize it where it is, for `n` bytes.
What is no live block is treated as `NULL` is. A request that is refused leaves the block where it
is, unless it was for no bytes. -/
def afterRealloc (H : Heap) (a n : ℕ) : Heap :=
  if (H.remove a).answer n = none ∧ n ≠ 0 then
    { H with asked := H.asked + 1, refused := H.refused + 1 }
  else (H.remove a).afterMalloc n

/-- `realloc(a, n)`. -/
def realloc (a n : ℕ) : HeapM (Option ℕ) :=
  fun H => some ((H.remove a).answer n, H.afterRealloc a n)

theorem malloc_apply (n : ℕ) (H : Heap) : malloc n H = some (H.answer n, H.afterMalloc n) := rfl

theorem free_apply (a : ℕ) (H : Heap) : free a H = some ((), H.afterFree a) := rfl

theorem malloc_bind {α : Type} (n : ℕ) (f : Option ℕ → HeapM α) (H : Heap) :
    (malloc n >>= f) H = f (H.answer n) (H.afterMalloc n) :=
  HeapM.bind_apply (malloc_apply n H) f

theorem free_bind {α : Type} (a : ℕ) (f : Unit → HeapM α) (H : Heap) :
    (free a >>= f) H = f () (H.afterFree a) :=
  HeapM.bind_apply (free_apply a H) f

theorem afterMalloc_live {H : Heap} {n a : ℕ} (h : H.answer n = some a) :
    (H.afterMalloc n).live = ⟨a, n⟩ :: H.live := by
  rw [afterMalloc]
  split
  · rename_i a' h'
    rw [h, Option.some.injEq] at h'
    rw [h']
  · simp_all

theorem live_subset_afterMalloc (H : Heap) (n : ℕ) : H.live ⊆ (H.afterMalloc n).live := by
  rw [afterMalloc]
  split
  · exact List.subset_cons_self _ _
  · exact List.Subset.refl _

/-- **A request** is refused, and counted as refused, or answered with a new block. -/
theorem answer_cases (H : Heap) (n : ℕ) :
    (H.answer n = none ∧ (H.afterMalloc n).refused = H.refused + 1) ∨
      ∃ a, H.answer n = some a ∧ H.Fresh ⟨a, n⟩ ∧ ⟨a, n⟩ ∈ (H.afterMalloc n).live ∧
        (H.afterMalloc n).refused = H.refused := by
  cases h : H.answer n with
  | none =>
    left
    refine ⟨rfl, ?_⟩
    rw [afterMalloc]
    split <;> simp_all
  | some a =>
    right
    refine ⟨a, rfl, answer_fresh h, ?_, ?_⟩
    · rw [afterMalloc_live h]
      exact List.mem_cons_self
    · rw [afterMalloc]
      split <;> simp_all

@[simp] theorem freed_afterMalloc (H : Heap) (n : ℕ) : (H.afterMalloc n).freed = H.freed := by
  rw [afterMalloc]
  split <;> rfl

@[simp] theorem freed_remove (H : Heap) (a : ℕ) : (H.remove a).freed = H.freed := by
  rw [remove]
  split <;> rfl

@[simp] theorem freed_afterRealloc (H : Heap) (a n : ℕ) : (H.afterRealloc a n).freed = H.freed := by
  rw [afterRealloc]
  split_ifs <;> simp

theorem freed_afterFree (H : Heap) (a : ℕ) :
    (H.afterFree a).freed = if a = 0 then H.freed else a :: H.freed := by
  rw [afterFree]
  split_ifs <;> rfl

theorem freed_subset_afterFree (H : Heap) (a : ℕ) : H.freed ⊆ (H.afterFree a).freed := by
  rw [freed_afterFree]
  split_ifs
  · exact List.Subset.refl _
  · exact List.subset_cons_self _ _

@[simp] theorem refused_afterFree (H : Heap) (a : ℕ) : (H.afterFree a).refused = H.refused := by
  rw [afterFree]
  split <;> rfl

theorem mem_live_afterFree {H : Heap} {a : ℕ} {b : Block} (hb : b ∈ H.live) (hne : b.base ≠ a) :
    b ∈ (H.afterFree a).live := by
  rw [afterFree]
  split_ifs
  · exact hb
  · exact (List.mem_eraseP_of_neg (by simpa using hne)).mpr hb

end Heap

namespace HeapM

/-- The computation only adds to the number of refused requests. -/
def Counts {α : Type} (x : HeapM α) : Prop :=
  ∀ (H H' : Heap) (a : α), x H = some (a, H') → H.refused ≤ H'.refused

variable {α β : Type}

theorem Counts.pure (a : α) : Counts (Pure.pure a : HeapM α) := by
  intro H H' a' h
  rw [pure_apply, Option.some.injEq, Prod.mk.injEq] at h
  rw [h.2]

theorem Counts.bind {x : HeapM α} {f : α → HeapM β} (hx : Counts x) (hf : ∀ a, Counts (f a)) :
    Counts (x >>= f) := by
  intro H H' b h
  obtain ⟨a, H₁, h₁, h₂⟩ := of_bind h
  exact (hx H H₁ a h₁).trans (hf a H₁ H' b h₂)

theorem Counts.malloc (n : ℕ) : Counts (Heap.malloc n) := by
  intro H H' a h
  rw [Heap.malloc_apply, Option.some.injEq, Prod.mk.injEq] at h
  rw [← h.2]
  rcases H.answer_cases n with ⟨-, hr⟩ | ⟨_, -, -, -, hr⟩ <;> omega

theorem Counts.free (a : ℕ) : Counts (Heap.free a) := by
  intro H H' u h
  rw [Heap.free_apply, Option.some.injEq, Prod.mk.injEq] at h
  rw [← h.2, Heap.refused_afterFree]

end HeapM
