import Milu.Pool.Queue

/-!
# Lists in memory

The rest of `list.h`, over the memory of the queues. A list is a loop of `struct list_head`s through
its head, and nothing tells a head from an entry. The functions read links and write them, in the
order of the source, and check very little.

The hash table uses `list_add` and `list_del_init` of these. Nothing in the library uses the others,
which came along with the header.

## Main definitions

* `Queue.listAdd`, `Queue.listDelInit`, `Queue.listReplace`, `Queue.listMove`, `Queue.listMoveTail`,
  `Queue.listRotateLeft` — one entry
* `Queue.listCutPosition`, `Queue.listSplice` and its variants — several
* `Queue.listIsLast`, `Queue.listIsSingular`, `Queue.listEmptyCareful` — tests

## Main results

* `Queue.listAdd_apply`, `Queue.listDelInit_apply` and so on — what a function writes, when the
  pointers it follows are not null
-/

namespace Milu

namespace Queue

/-! ### One entry -/

def listAdd (elem head : ℕ) : QueueM Unit := do
  _listAdd elem head (← next head)

def _listDelEntry (entry : ℕ) : QueueM Unit := do
  _listDel (← prev entry) (← next entry)

def listReplace (old elem : ℕ) : QueueM Unit := do
  setNext elem (← next old)
  setPrev (← next elem) elem
  setPrev elem (← prev old)
  setNext (← prev elem) elem

def listReplaceInit (old elem : ℕ) : QueueM Unit := do
  listReplace old elem
  initListHead old

def listDelInit (entry : ℕ) : QueueM Unit := do
  _listDelEntry entry
  initListHead entry

def listMove (list head : ℕ) : QueueM Unit := do
  _listDelEntry list
  listAdd list head

def listMoveTail (list head : ℕ) : QueueM Unit := do
  _listDelEntry list
  listAddTail list head

def listRotateLeft (head : ℕ) : QueueM Unit := do
  if ← listEmpty head then return
  else
    let first ← next head
    listMoveTail first head

/-! ### Tests -/

def listIsLast (list head : ℕ) : QueueM Bool := do
  return (← next list) == head

def listEmptyCareful (head : ℕ) : QueueM Bool := do
  let n ← next head
  if n == head then return n == (← prev head) else return false

def listIsSingular (head : ℕ) : QueueM Bool := do
  if ← listEmpty head then return false
  else return (← next head) == (← prev head)

/-! ### Several entries -/

def _listCutPosition (list head entry : ℕ) : QueueM Unit := do
  let newFirst ← next entry
  setNext list (← next head)
  setPrev (← next list) list
  setPrev list entry
  setNext entry list
  setNext head newFirst
  setPrev newFirst head

def listCutPosition (list head entry : ℕ) : QueueM Unit := do
  if ← listEmpty head then return
  else if (← listIsSingular head) && ((← next head) != entry && head != entry) then return
  else if entry = head then initListHead list
  else _listCutPosition list head entry

/-- `__list_splice`. The parameters that the source calls `prev` and `next` are `p` and `n`. -/
def _listSplice (list p n : ℕ) : QueueM Unit := do
  let first ← next list
  let last ← prev list
  setPrev first p
  setNext p first
  setNext last n
  setPrev n last

def listSplice (list head : ℕ) : QueueM Unit := do
  if ← listEmpty list then return
  else _listSplice list head (← next head)

def listSpliceTail (list head : ℕ) : QueueM Unit := do
  if ← listEmpty list then return
  else _listSplice list (← prev head) head

def listSpliceInit (list head : ℕ) : QueueM Unit := do
  if ← listEmpty list then return
  else
    _listSplice list head (← next head)
    initListHead list

def listSpliceTailInit (list head : ℕ) : QueueM Unit := do
  if ← listEmpty list then return
  else
    _listSplice list (← prev head) head
    initListHead list

/-! ### What a function writes -/

variable {m : Memory} {a e h n p : ℕ}

/-- The memory with other links. -/
def Memory.withLinks (m : Memory) (links : Links ℕ) : Memory := { m with links := links }

@[simp] theorem Memory.withLinks_links (m : Memory) (links : Links ℕ) :
    (m.withLinks links).links = links := rfl

@[simp] theorem Memory.withLinks_mutex (m : Memory) (links : Links ℕ) :
    (m.withLinks links).mutex = m.mutex := rfl

theorem initListHead_apply (ha : a ≠ 0) (m : Memory) :
    initListHead a m = .ok ((), m.withLinks ((m.links.setNext a a).setPrev a a)) :=
  (bind_of_ok (setNext_apply ha a m) _).trans (setPrev_apply ha a _)

theorem listEmpty_apply (ha : a ≠ 0) (m : Memory) :
    listEmpty a m = .ok (m.links.next a == a, m) :=
  (bind_of_ok (next_apply ha m) _).trans rfl

theorem listAdd_apply (he : e ≠ 0) (hh : h ≠ 0) (hn : m.links.next h ≠ 0) :
    listAdd e h m = .ok ((), m.withLinks (m.links.insert e h (m.links.next h))) :=
  (bind_of_ok (next_apply hh m) _).trans (_listAdd_apply he hh hn m)

theorem listAddTail_apply (he : e ≠ 0) (hh : h ≠ 0) (hp : m.links.prev h ≠ 0) :
    listAddTail e h m = .ok ((), m.withLinks (m.links.insert e (m.links.prev h) h)) :=
  (bind_of_ok (prev_apply hh m) _).trans (_listAdd_apply he hp hh m)

theorem _listDelEntry_apply (he : e ≠ 0) (hp : m.links.prev e ≠ 0) (hn : m.links.next e ≠ 0) :
    _listDelEntry e m =
      .ok ((), m.withLinks (m.links.remove (m.links.prev e) (m.links.next e))) := by
  refine (bind_of_ok (prev_apply he m) _).trans ?_
  refine (bind_of_ok (next_apply he m) _).trans ?_
  exact (bind_of_ok (setPrev_apply hn _ m) _).trans (setNext_apply hp _ _)

theorem listDelInit_apply (he : e ≠ 0) (hp : m.links.prev e ≠ 0) (hn : m.links.next e ≠ 0) :
    listDelInit e m = .ok ((), m.withLinks
      (((m.links.remove (m.links.prev e) (m.links.next e)).setNext e e).setPrev e e)) :=
  (bind_of_ok (_listDelEntry_apply he hp hn) _).trans (initListHead_apply he _)

end Queue

end Milu
