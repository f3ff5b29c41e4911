import Milu.Lib.Heap
import Milu.Lists.Basic

/-!
# Structs on lists

A struct is on a list by the `struct list_head` inside it. A program that keeps structs of one type
on lists reads and writes their links and their other fields, and asks the allocator for more of
them.

## Main definitions

* `InMemory.Memory`, `InMemory.LinkM` — the links and the fields of every struct, and computations
  on them that may allocate
* `InMemory.onLists`, `InMemory.onHeap` — a list function and the allocator at work
* `InMemory.load`, `InMemory.store` — the other fields
* `InMemory.Memory.SameAt` — nothing was written at an address
* `InMemory.Covered`, `InMemory.Stored` — an address inside blocks, and inside allocated ones
-/

namespace Milu

namespace InMemory

/-- The links of every `struct list_head`, and the other fields of every struct. -/
structure Memory (F : Type) where
  lists : Queue.Memory
  fields : ℕ → F

/-- Computations on the memory that may allocate. A call that goes through a null pointer does not
return. -/
abbrev LinkM (F : Type) := StateT (Memory F) HeapM

variable {F α β : Type}

/-- The memory with other links. -/
def Memory.withLists (m : Memory F) (lists : Queue.Memory) : Memory F := { m with lists := lists }

/-- The memory with other fields in one struct. -/
def Memory.withFields (m : Memory F) (e : ℕ) (s : F) : Memory F :=
  { m with fields := Function.update m.fields e s }

/-- A list function at work. -/
def onLists (x : Queue.QueueM α) : LinkM F α := fun m H =>
  match x m.lists with
  | .ok (a, lists) => some ((a, m.withLists lists), H)
  | .error _ => none

/-- The allocator at work. -/
def onHeap (x : HeapM α) : LinkM F α := fun m H => (x H).map fun r => ((r.1, m), r.2)

/-- The fields of `*e`. -/
def load (e : ℕ) : LinkM F F := fun m H => if e = 0 then none else some ((m.fields e, m), H)

/-- The fields of `*e` are written. -/
def store (e : ℕ) (s : F) : LinkM F Unit := fun m H =>
  if e = 0 then none else some (((), m.withFields e s), H)

variable {m m' : Memory F} {H H' : Heap} {a : α} {e : ℕ}

@[simp] theorem lists_withLists (m : Memory F) (lists : Queue.Memory) :
    (m.withLists lists).lists = lists := rfl

@[simp] theorem fields_withLists (m : Memory F) (lists : Queue.Memory) :
    (m.withLists lists).fields = m.fields := rfl

@[simp] theorem lists_withFields (m : Memory F) (e : ℕ) (s : F) :
    (m.withFields e s).lists = m.lists :=
  rfl

@[simp] theorem fields_withFields (m : Memory F) (e : ℕ) (s : F) :
    (m.withFields e s).fields = Function.update m.fields e s := rfl

theorem bind_apply {x : LinkM F α} (hx : x m H = some ((a, m'), H')) (f : α → LinkM F β) :
    (x >>= f) m H = f a m' H' :=
  HeapM.bind_apply hx fun r => f r.1 r.2

theorem onLists_apply {x : Queue.QueueM α} {lists : Queue.Memory} (hx : x m.lists = .ok (a, lists))
    (H : Heap) : (onLists x : LinkM F α) m H = some ((a, m.withLists lists), H) := by
  rw [onLists, hx]

theorem onHeap_apply {x : HeapM α} (hx : x H = some (a, H')) (m : Memory F) :
    (onHeap x : LinkM F α) m H = some ((a, m), H') := by
  rw [onHeap, hx]
  rfl

theorem load_apply (he : e ≠ 0) (m : Memory F) (H : Heap) :
    load e m H = some ((m.fields e, m), H) := if_neg he

theorem store_apply (he : e ≠ 0) (s : F) (m : Memory F) (H : Heap) :
    store e s m H = some (((), m.withFields e s), H) := if_neg he

theorem next_apply (he : e ≠ 0) (m : Memory F) (H : Heap) :
    (onLists (Queue.next e) : LinkM F ℕ) m H = some ((m.lists.links.next e, m), H) :=
  onLists_apply (Queue.next_apply he m.lists) H

/-! ### Addresses -/

/-- Nothing was written at the address. -/
structure Memory.SameAt (m m' : Memory F) (x : ℕ) : Prop where
  next : m'.lists.links.next x = m.lists.links.next x
  prev : m'.lists.links.prev x = m.lists.links.prev x
  mutex : m'.lists.mutex x = m.lists.mutex x
  fields : m'.fields x = m.fields x

theorem Memory.SameAt.refl (m : Memory F) (x : ℕ) : m.SameAt m x := ⟨rfl, rfl, rfl, rfl⟩

theorem Memory.SameAt.trans {m'' : Memory F} {x : ℕ} (h : m.SameAt m' x) (h' : m'.SameAt m'' x) :
    m.SameAt m'' x where
  next := h'.next.trans h.next
  prev := h'.prev.trans h.prev
  mutex := h'.mutex.trans h.mutex
  fields := h'.fields.trans h.fields

/-- The address lies in one of the blocks. -/
def Covered (bs : List Block) (x : ℕ) : Prop := ∃ b ∈ bs, b.base ≤ x ∧ x < b.base + b.span

instance (bs : List Block) (x : ℕ) : Decidable (Covered bs x) :=
  inferInstanceAs (Decidable (∃ b ∈ bs, b.base ≤ x ∧ x < b.base + b.span))

/-- The address lies in a block that is allocated. -/
def Stored (H : Heap) (x : ℕ) : Prop := Covered H.live x

theorem Covered.mono {bs cs : List Block} {x : ℕ} (h : Covered bs x)
    (hsub : bs ⊆ cs) : Covered cs x :=
  h.imp fun _ hb => ⟨hsub hb.1, hb.2⟩

theorem covered_append {bs cs : List Block} {x : ℕ} :
    Covered (bs ++ cs) x ↔ Covered bs x ∨ Covered cs x := by
  simp only [Covered, List.mem_append, or_and_right, exists_or]

theorem Covered.not_of_apart {bs cs : List Block} {x : ℕ} (h : Covered bs x)
    (hapart : ∀ b ∈ bs, ∀ c ∈ cs, b.Apart c) : ¬ Covered cs x := by
  obtain ⟨b, hb, hle, hlt⟩ := h
  rintro ⟨c, hc, hle', hlt'⟩
  have := hapart b hb c hc
  simp only [Block.Apart] at this
  omega

/-- A block from the allocator holds no address of a block that was allocated before. -/
theorem not_stored_of_answer {k a x : ℕ} (h : H.answer k = some a) (hge : a ≤ x) (hlt : x < a + k) :
    ¬ Stored H x := by
  rintro ⟨b, hb, hbase, hspan⟩
  have hsize := Block.size_le_span ⟨a, k⟩
  have hapart := (Heap.answer_fresh h).2.2 b hb
  simp only [Block.Apart] at hapart hsize
  omega

end InMemory

end Milu
