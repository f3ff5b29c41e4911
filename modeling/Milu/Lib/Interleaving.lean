import Mathlib.Data.Multiset.AddSub
import Mathlib.Logic.Relation

/-!
# Calls in progress, interleaved

Any number of threads are inside calls on one shared state. A call is known by its locals: where it
stands and what it has read so far. It moves in atomic steps, each of which may read and change the
shared state; between two of its steps the other calls move as they like.

Threads have no names here. A thread that is inside no call has nothing to say about the shared
state, so a configuration is the shared state and the bag of the calls in progress, and any call may
be entered by some thread at any moment.

## Main definitions

* `System` — how a call is entered, and what its atomic steps are
* `System.Config`, `System.Step`, `System.Run` — configurations, and runs in which every step meets
  a condition

## Main results

* `System.Run.invariant` — what holds at the start and is kept by every entry and every step holds
  in every configuration reached
-/

/-- A system of calls with locals `C` on a shared state `S`. -/
structure System (S C : Type) where
  /-- A thread enters a call, while those in the bag are in progress. -/
  start : S → Multiset C → S → C → Prop
  /-- A call takes an atomic step and goes on with new locals, or returns. -/
  step : S → C → S → Option C → Prop

namespace System

/-- The shared state and the calls in progress. -/
structure Config (S C : Type) where
  shared : S
  calls : Multiset C

variable {S C : Type} (sys : System S C)

/-- A condition on a step: the shared state before it, the other calls in progress, the call that
takes it, and the locals it goes on with. -/
abbrev Guard (S C : Type) := S → Multiset C → C → Option C → Prop

def anyStep : Guard S C := fun _ _ _ _ => True

/-- One move of the system whose steps meet the condition `ok`. -/
inductive Step (ok : Guard S C) : Config S C → Config S C → Prop
  | start {s s' cs c} : sys.start s cs s' c → Step ok ⟨s, cs⟩ ⟨s', c ::ₘ cs⟩
  | next {s s' c c' cs} : sys.step s c s' (some c') → ok s cs c (some c') →
      Step ok ⟨s, c ::ₘ cs⟩ ⟨s', c' ::ₘ cs⟩
  | ret {s s' c cs} : sys.step s c s' none → ok s cs c none → Step ok ⟨s, c ::ₘ cs⟩ ⟨s', cs⟩

/-- Finitely many moves. -/
abbrev Run (ok : Guard S C) : Config S C → Config S C → Prop := Relation.ReflTransGen (sys.Step ok)

variable {sys} {ok : Guard S C}

/-- **The invariant rule.** -/
theorem Run.invariant {I : S → Multiset C → Prop}
    (hstart : ∀ {s cs s' c}, I s cs → sys.start s cs s' c → I s' (c ::ₘ cs))
    (hnext : ∀ {s c cs s' c'}, I s (c ::ₘ cs) → sys.step s c s' (some c') → ok s cs c (some c') →
      I s' (c' ::ₘ cs))
    (hret : ∀ {s c cs s'}, I s (c ::ₘ cs) → sys.step s c s' none → ok s cs c none → I s' cs)
    {a b : Config S C} (hrun : sys.Run ok a b) (ha : I a.shared a.calls) :
    I b.shared b.calls := by
  induction hrun with
  | refl => exact ha
  | tail _ hstep ih =>
    cases hstep with
    | start hs => exact hstart ih hs
    | next hs hok => exact hnext ih hs hok
    | ret hs hok => exact hret ih hs hok

/-- A run that meets the condition is a run. -/
theorem Run.weaken {a b : Config S C} (hrun : sys.Run ok a b) : sys.Run anyStep a b := by
  refine Relation.ReflTransGen.mono ?_ _ _ hrun
  intro a b hstep
  cases hstep with
  | start hs => exact .start hs
  | next hs _ => exact .next hs trivial
  | ret hs _ => exact .ret hs trivial

theorem Run.start {a : Config S C} {s s' : S} {cs : Multiset C} {c : C}
    (hrun : sys.Run ok a ⟨s, cs⟩) (hs : sys.start s cs s' c) : sys.Run ok a ⟨s', c ::ₘ cs⟩ :=
  hrun.tail (.start hs)

theorem Run.next {a : Config S C} {s s' : S} {cs : Multiset C} {c c' : C}
    (hrun : sys.Run ok a ⟨s, c ::ₘ cs⟩) (hs : sys.step s c s' (some c'))
    (hok : ok s cs c (some c')) : sys.Run ok a ⟨s', c' ::ₘ cs⟩ :=
  hrun.tail (.next hs hok)

theorem Run.ret {a : Config S C} {s s' : S} {cs : Multiset C} {c : C}
    (hrun : sys.Run ok a ⟨s, c ::ₘ cs⟩) (hs : sys.step s c s' none) (hok : ok s cs c none) :
    sys.Run ok a ⟨s', cs⟩ :=
  hrun.tail (.ret hs hok)

end System
