import Mathlib.Data.Finset.Image
import Mathlib.Logic.Equiv.Basic
import Milu.Lib.Segments
import Milu.Lists.Basic

/-!
# What the list functions are for

Several lists in one memory, each known by its head. What a call does to them is said without links
here: a list is a list of entries, and no entry is on two.

`list_splice` and `list_replace` leave a head behind that is no list any more. `list_cut_position`
on an empty list does nothing at all, and the other list keeps its entries.

## Main definitions

* `Lists` — the lists
* `Queue.forEach`, `Queue.forEachPrev` — the two loops over a list
* `ListCall`, `ListCall.run` — a call of one of the functions
* `ListCall.Legal`, `ListCall.next`, `ListCall.reply` — when a call may be made, what it does to the
  lists, and what it returns
* `ListCall.runAll`, `ListCall.LegalAll`, `ListCall.after`, `ListCall.replies` — several calls

## Main results

* `Queue.listReplace_apply`, `Queue._listCutPosition_apply`, `Queue._listSplice_apply` — what the
  functions write
-/

namespace Milu

/-! ### Lists -/

/-- Lists, by their heads. -/
structure Lists where
  heads : Finset ℕ
  on : ℕ → List ℕ

namespace Lists

/-- No lists. -/
def none : Lists := ⟨∅, fun _ => []⟩

/-- The node is neither a head nor on a list. -/
def Off (L : Lists) (x : ℕ) : Prop := x ∉ L.heads ∧ ∀ h ∈ L.heads, x ∉ L.on h

/-- The node is on a list. -/
def Entry (L : Lists) (x : ℕ) : Prop := ∃ h ∈ L.heads, x ∈ L.on h

instance (L : Lists) (x : ℕ) : Decidable (L.Off x) := inferInstanceAs (Decidable (_ ∧ _))

instance (L : Lists) (x : ℕ) : Decidable (L.Entry x) := inferInstanceAs (Decidable (∃ _ ∈ _, _))

/-- A list gets other entries, or there is a new one. -/
def set (L : Lists) (h : ℕ) (l : List ℕ) : Lists :=
  ⟨insert h L.heads, Function.update L.on h l⟩

/-- The list is none any more. -/
def drop (L : Lists) (h : ℕ) : Lists := { L with heads := L.heads.erase h }

/-- An entry is on no list any more. -/
def del (L : Lists) (e : ℕ) : Lists := { L with on := fun h => (L.on h).erase e }

/-- The node `e`, which is not in use, takes the place of `old`. -/
def replace (L : Lists) (old e : ℕ) : Lists where
  heads := L.heads.image (Equiv.swap old e)
  on h := (L.on (Equiv.swap old e h)).map (Equiv.swap old e)

end Lists

namespace Queue

/-! ### Loops over a list -/

/-- `list_for_each` from some entry on, or, with the other link, `list_for_each_prev`. The body
takes down its entry. The condition of the loop has a prefetch, which reads the link too. -/
def forEachLoop (link : ℕ → QueueM ℕ) (head : ℕ) : ℕ → ℕ → QueueM (List ℕ)
  | 0, _ => return []
  | fuel + 1, pos => do
    let _ ← link pos
    if pos = head then return []
    else
      let rest ← forEachLoop link head fuel (← link pos)
      return pos :: rest

def forEach (fuel head : ℕ) : QueueM (List ℕ) := do
  forEachLoop next head fuel (← next head)

def forEachPrev (fuel head : ℕ) : QueueM (List ℕ) := do
  forEachLoop prev head fuel (← prev head)

/-! ### What the functions write -/

variable {m : Memory} {a e h n p old : ℕ}

theorem listReplace_apply (hold : old ≠ 0) (he : e ≠ 0) (hn : m.links.next old ≠ 0)
    (hp : (m.links.join e (m.links.next old)).prev old ≠ 0) : listReplace old e m =
      .ok ((), m.withLinks ((m.links.join e (m.links.next old)).join
        ((m.links.join e (m.links.next old)).prev old) e)) := by
  set n := m.links.next old
  set p := (m.links.join e n).prev old
  have hnext : (m.links.setNext e n).next e = n := Function.update_self ..
  have hprev : ((m.links.join e n).setPrev e p).prev e = p := Function.update_self ..
  refine (bind_of_ok (next_apply hold m) _).trans ?_
  refine (bind_of_ok (setNext_apply he n m) _).trans ?_
  refine (bind_of_ok (next_apply he _) _).trans ?_
  dsimp only
  rw [hnext]
  refine (bind_of_ok (setPrev_apply hn e _) _).trans ?_
  refine (bind_of_ok (prev_apply hold _) _).trans ?_
  refine (bind_of_ok (setPrev_apply he p _) _).trans ?_
  refine (bind_of_ok (prev_apply he _) _).trans ?_
  rw [← hprev] at hp
  refine (setNext_apply hp e _).trans ?_
  dsimp only
  rw [hprev]
  rfl

theorem _listCutPosition_apply (ha : a ≠ 0) (hh : h ≠ 0) (he : e ≠ 0) (hf : m.links.next h ≠ 0)
    (hn : m.links.next e ≠ 0) : _listCutPosition a h e m =
      .ok ((), m.withLinks (((m.links.join a (m.links.next h)).join e a).join h
        (m.links.next e))) := by
  set f := m.links.next h
  set n := m.links.next e
  have hnext : (m.links.setNext a f).next a = f := Function.update_self ..
  refine (bind_of_ok (next_apply he m) _).trans ?_
  refine (bind_of_ok (next_apply hh m) _).trans ?_
  refine (bind_of_ok (setNext_apply ha f m) _).trans ?_
  refine (bind_of_ok (next_apply ha _) _).trans ?_
  dsimp only
  rw [hnext]
  refine (bind_of_ok (setPrev_apply hf a _) _).trans ?_
  refine (bind_of_ok (setPrev_apply ha e _) _).trans ?_
  refine (bind_of_ok (setNext_apply he a _) _).trans ?_
  refine (bind_of_ok (setNext_apply hh n _) _).trans ?_
  exact setPrev_apply hn h _

theorem _listSplice_apply (ha : a ≠ 0) (hp : p ≠ 0) (hn : n ≠ 0) (hf : m.links.next a ≠ 0)
    (hl : m.links.prev a ≠ 0) : _listSplice a p n m =
      .ok ((), m.withLinks ((m.links.join p (m.links.next a)).join (m.links.prev a) n)) := by
  refine (bind_of_ok (next_apply ha m) _).trans ?_
  refine (bind_of_ok (prev_apply ha m) _).trans ?_
  refine (bind_of_ok (setPrev_apply hf p m) _).trans ?_
  refine (bind_of_ok (setNext_apply hp _ _) _).trans ?_
  refine (bind_of_ok (setNext_apply hl n _) _).trans ?_
  exact setPrev_apply hn _ _

end Queue

/-! ### Calls -/

/-- A call of a function of `list.h`. -/
inductive ListCall
  | init (h : ℕ)
  | add (e h : ℕ)
  | addTail (e h : ℕ)
  | del (e : ℕ)
  | delInit (e : ℕ)
  | replace (old e : ℕ)
  | replaceInit (old e : ℕ)
  | move (e h : ℕ)
  | moveTail (e h : ℕ)
  | rotateLeft (h : ℕ)
  | cut (a h e : ℕ)
  | splice (a h : ℕ)
  | spliceTail (a h : ℕ)
  | spliceInit (a h : ℕ)
  | spliceTailInit (a h : ℕ)
  | isLast (e h : ℕ)
  | empty (h : ℕ)
  | emptyCareful (h : ℕ)
  | isSingular (h : ℕ)
  | forEach (fuel h : ℕ)
  | forEachPrev (fuel h : ℕ)
  deriving DecidableEq, Repr

/-- What a call returns. -/
inductive ListReply
  | done
  | bool (b : Bool)
  | entries (l : List ℕ)
  deriving DecidableEq, Repr

namespace ListCall

open Queue (QueueM)

def run : ListCall → QueueM ListReply
  | init h => do Queue.initListHead h; return .done
  | add e h => do Queue.listAdd e h; return .done
  | addTail e h => do Queue.listAddTail e h; return .done
  | del e => do Queue.listDel e; return .done
  | delInit e => do Queue.listDelInit e; return .done
  | replace old e => do Queue.listReplace old e; return .done
  | replaceInit old e => do Queue.listReplaceInit old e; return .done
  | move e h => do Queue.listMove e h; return .done
  | moveTail e h => do Queue.listMoveTail e h; return .done
  | rotateLeft h => do Queue.listRotateLeft h; return .done
  | cut a h e => do Queue.listCutPosition a h e; return .done
  | splice a h => do Queue.listSplice a h; return .done
  | spliceTail a h => do Queue.listSpliceTail a h; return .done
  | spliceInit a h => do Queue.listSpliceInit a h; return .done
  | spliceTailInit a h => do Queue.listSpliceTailInit a h; return .done
  | isLast e h => do return .bool (← Queue.listIsLast e h)
  | empty h => do return .bool (← Queue.listEmpty h)
  | emptyCareful h => do return .bool (← Queue.listEmptyCareful h)
  | isSingular h => do return .bool (← Queue.listIsSingular h)
  | forEach fuel h => do return .entries (← Queue.forEach fuel h)
  | forEachPrev fuel h => do return .entries (← Queue.forEachPrev fuel h)

/-- The nodes it is given. -/
def nodes : ListCall → List ℕ
  | init h | rotateLeft h | empty h | emptyCareful h | isSingular h | forEach _ h
      | forEachPrev _ h =>
    [h]
  | del e | delInit e => [e]
  | add e h | addTail e h | move e h | moveTail e h | isLast e h => [e, h]
  | replace old e | replaceInit old e => [old, e]
  | cut a h e => [a, h, e]
  | splice a h | spliceTail a h | spliceInit a h | spliceTailInit a h => [a, h]

/-- The call may be made. A loop is given enough fuel. -/
def Legal (L : Lists) : ListCall → Prop
  | init h => h ≠ 0 ∧ L.Off h
  | add e h | addTail e h => h ∈ L.heads ∧ e ≠ 0 ∧ L.Off e
  | del e | delInit e => L.Entry e
  | replace old e | replaceInit old e => (old ∈ L.heads ∨ L.Entry old) ∧ e ≠ 0 ∧ L.Off e
  | move e h | moveTail e h => L.Entry e ∧ h ∈ L.heads
  | rotateLeft h | empty h | emptyCareful h | isSingular h => h ∈ L.heads
  | cut a h e => a ∈ L.heads ∧ h ∈ L.heads ∧ a ≠ h ∧ e ∈ h :: L.on h
  | splice a h | spliceTail a h | spliceInit a h | spliceTailInit a h =>
    a ∈ L.heads ∧ h ∈ L.heads ∧ a ≠ h
  | isLast e h => h ∈ L.heads ∧ e ∈ L.on h
  | forEach fuel h | forEachPrev fuel h => h ∈ L.heads ∧ (L.on h).length < fuel

instance (L : Lists) : (c : ListCall) → Decidable (c.Legal L)
  | init _ | add _ _ | addTail _ _ | replace _ _ | replaceInit _ _ | move _ _ | moveTail _ _
  | cut _ _ _ | splice _ _ | spliceTail _ _ | spliceInit _ _ | spliceTailInit _ _ | isLast _ _
  | forEach _ _ | forEachPrev _ _ => inferInstanceAs (Decidable (_ ∧ _))
  | del _ | delInit _ => inferInstanceAs (Decidable (Lists.Entry _ _))
  | rotateLeft _ | empty _ | emptyCareful _ | isSingular _ => inferInstanceAs (Decidable (_ ∈ _))

def next (L : Lists) : ListCall → Lists
  | init h => L.set h []
  | add e h => L.set h (e :: L.on h)
  | addTail e h => L.set h (L.on h ++ [e])
  | del e => L.del e
  | delInit e => (L.del e).set e []
  | replace old e => L.replace old e
  | replaceInit old e => (L.replace old e).set old []
  | move e h => (L.del e).set h (e :: (L.on h).erase e)
  | moveTail e h => (L.del e).set h ((L.on h).erase e ++ [e])
  | rotateLeft h => L.set h ((L.on h).rotate 1)
  | cut a h e =>
    if L.on h = [] then L
    else if e = h then L.set a []
    else (L.set a ((L.on h).take ((L.on h).idxOf e + 1))).set h
      ((L.on h).drop ((L.on h).idxOf e + 1))
  | splice a h => if L.on a = [] then L else (L.set h (L.on a ++ L.on h)).drop a
  | spliceTail a h => if L.on a = [] then L else (L.set h (L.on h ++ L.on a)).drop a
  | spliceInit a h => if L.on a = [] then L else (L.set h (L.on a ++ L.on h)).set a []
  | spliceTailInit a h => if L.on a = [] then L else (L.set h (L.on h ++ L.on a)).set a []
  | isLast _ _ | empty _ | emptyCareful _ | isSingular _ | forEach _ _ | forEachPrev _ _ => L

def reply (L : Lists) : ListCall → ListReply
  | isLast e h => .bool ((L.on h).getLast? == some e)
  | empty h | emptyCareful h => .bool (L.on h).isEmpty
  | isSingular h => .bool ((L.on h).length == 1)
  | forEach _ h => .entries (L.on h)
  | forEachPrev _ h => .entries (L.on h).reverse
  | _ => .done

/-! ### Runs -/

/-- Calls one after another. -/
def runAll : List ListCall → QueueM (List ListReply)
  | [] => return []
  | c :: cs => do
    let r ← c.run
    let rs ← runAll cs
    return r :: rs

/-- Each of them may be made when its turn comes. -/
def LegalAll : Lists → List ListCall → Prop
  | _, [] => True
  | L, c :: cs => c.Legal L ∧ LegalAll (c.next L) cs

instance : (L : Lists) → (cs : List ListCall) → Decidable (LegalAll L cs)
  | _, [] => instDecidableTrue
  | L, c :: cs =>
    have : Decidable (LegalAll (c.next L) cs) := instDecidableLegalAll _ cs
    inferInstanceAs (Decidable (_ ∧ _))

def after : Lists → List ListCall → Lists
  | L, [] => L
  | L, c :: cs => after (c.next L) cs

def replies : Lists → List ListCall → List ListReply
  | _, [] => []
  | L, c :: cs => c.reply L :: replies (c.next L) cs

end ListCall

end Milu
