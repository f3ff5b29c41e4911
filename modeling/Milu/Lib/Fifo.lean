import Mathlib.Data.List.Infix

/-!
# First in, first out

A queue with some content to begin with. Elements are taken from its front and added behind its
back. Whatever the order of the events, what was taken so far, followed by what is still in the
queue, is the content of the beginning followed by what was added so far.

## Main definitions

* `Fifo.Event`, `Fifo.Run` — the events, and the queue after them
* `Fifo.taken`, `Fifo.added` — what went out and what came in, in order

## Main results

* `Fifo.Run.conserved` — nothing is lost, repeated or overtaken
* `Fifo.Run.taken_prefix`, `Fifo.Run.eq_nil_iff` — what was taken, and when the queue is used up
-/

namespace Fifo

variable {α : Type}

/-- The first element is taken, or an element is added behind the last one. -/
inductive Event (α : Type)
  | take (a : α)
  | add (a : α)

/-- The elements taken, in order. -/
def taken : List (Event α) → List α
  | [] => []
  | .take a :: es => a :: taken es
  | .add _ :: es => taken es

/-- The elements added, in order. -/
def added : List (Event α) → List α
  | [] => []
  | .take _ :: es => added es
  | .add a :: es => a :: added es

@[simp] theorem taken_append (es fs : List (Event α)) :
    taken (es ++ fs) = taken es ++ taken fs := by
  induction es with
  | nil => rfl
  | cons e es ih => cases e <;> simp [taken, ih]

@[simp] theorem added_append (es fs : List (Event α)) :
    added (es ++ fs) = added es ++ added fs := by
  induction es with
  | nil => rfl
  | cons e es ih => cases e <;> simp [added, ih]

/-- The queue that the events make of `init`, first event first. -/
inductive Run (init : List α) : List (Event α) → List α → Prop
  | start : Run init [] init
  | take {es a q} : Run init es (a :: q) → Run init (es ++ [.take a]) q
  | add {es a q} : Run init es q → Run init (es ++ [.add a]) (q ++ [a])

namespace Run

variable {init q : List α} {es : List (Event α)}

/-- **Nothing is lost, repeated or overtaken.** -/
theorem conserved (h : Run init es q) : taken es ++ q = init ++ added es := by
  induction h with
  | start => simp [taken, added]
  | take _ ih =>
    rw [taken_append, added_append, List.append_assoc]
    simpa [taken, added] using ih
  | add _ ih =>
    rw [taken_append, added_append, ← List.append_assoc init, ← ih]
    simp [taken, added]

/-- What was taken is a first part of what there was to take. -/
theorem taken_prefix (h : Run init es q) : taken es <+: init ++ added es := ⟨q, h.conserved⟩

theorem eq_nil_iff (h : Run init es q) : q = [] ↔ taken es = init ++ added es := by
  rw [← h.conserved]
  exact List.self_eq_append_right.symm

end Run

end Fifo
