import Milu.Lib.Ends
import Milu.Lib.Links
import Milu.Lib.Lists
import Milu.Pool.Basic

/-!
# The queues of a pool, link by link

`queue.h` and what it uses of `list.h`, run by one thread. A queue is a `struct list_head` with a
mutex, and its nodes are the `struct list_head`s inside the entries of a pool. They are linked in a
loop through the queue, first node next to it. `put_fifo` inserts a node before the queue, which is
behind the last node, and `get_fifo` takes the node behind it.

A node and a queue are their addresses, and `NULL` is `0`. No two of them overlap. What else is in
the memory, and which queue a node was in before, does not matter to the code, and a queue may be
set up at any time.

The pools are modelled with lists for their queues. Here these lists are what the links spell out.
The functions keep their names: `getFifo` is `get_fifo`, and `_listAdd` is `__list_add`.

## Main definitions

* `Queue.Memory`, `Queue.Fault` — the links and the mutexes, and how a call may fail to return
* `Queue.initQueue`, `Queue.getFifo`, `Queue.putFifo`
* `Queue.Chains` — the links spell out these lists
* `QueueRun` — the calls made so far
* `FifoQueues` — what the queues owe their clients

## Main results

* `Queue.Chains.init`, `Queue.Chains.put`, `Queue.Chains.get` — one call
* `QueueRun.chains` — any calls
* `queues_fifo` — the queues are first in, first out, and do not disturb each other
-/

namespace Milu

namespace Queue

/-! ### Memory -/

/-- The links of every `struct list_head`, and whether the mutex of the queue at an address is
locked. -/
structure Memory where
  links : Links ℕ
  mutex : ℕ → Bool

/-- Why a call does not return: it goes through a null pointer, locks a mutex that is locked, or
unlocks one that is not. -/
inductive Fault
  | null
  | deadlock
  | notLocked
  deriving DecidableEq, Repr

/-- Computations on the memory. -/
abbrev QueueM := StateT Memory (Except Fault)

/-- `a->next`. -/
def next (a : ℕ) : QueueM ℕ := fun m =>
  if a = 0 then .error .null else .ok (m.links.next a, m)

/-- `a->prev`. -/
def prev (a : ℕ) : QueueM ℕ := fun m =>
  if a = 0 then .error .null else .ok (m.links.prev a, m)

/-- `a->next = b`. -/
def setNext (a b : ℕ) : QueueM Unit := fun m =>
  if a = 0 then .error .null else .ok ((), { m with links := m.links.setNext a b })

/-- `a->prev = b`. -/
def setPrev (a b : ℕ) : QueueM Unit := fun m =>
  if a = 0 then .error .null else .ok ((), { m with links := m.links.setPrev a b })

def mutexInit (q : ℕ) : QueueM Unit := fun m =>
  .ok ((), { m with mutex := Function.update m.mutex q false })

def lock (q : ℕ) : QueueM Unit := fun m =>
  if m.mutex q then .error .deadlock
  else .ok ((), { m with mutex := Function.update m.mutex q true })

def unlock (q : ℕ) : QueueM Unit := fun m =>
  if m.mutex q then .ok ((), { m with mutex := Function.update m.mutex q false })
  else .error .notLocked

/-! ### Lists -/

def initListHead (list : ℕ) : QueueM Unit := do
  setNext list list
  setPrev list list

def _listAdd (elem prev next : ℕ) : QueueM Unit := do
  setPrev next elem
  setNext elem next
  setPrev elem prev
  setNext prev elem

def listAddTail (elem head : ℕ) : QueueM Unit := do
  _listAdd elem (← prev head) head

def _listDel (prev next : ℕ) : QueueM Unit := do
  setPrev next prev
  setNext prev next

def listDel (entry : ℕ) : QueueM Unit := do
  _listDel (← prev entry) (← next entry)
  setNext entry 0
  setPrev entry 0

def listEmpty (head : ℕ) : QueueM Bool := do
  return (← next head) == head

/-! ### Queues -/

def initQueue (q : ℕ) : QueueM Unit := do
  initListHead q
  mutexInit q

def emptyQueue (q : ℕ) : QueueM Bool := listEmpty q

def getFifo (q : ℕ) : QueueM ℕ := do
  lock q
  if ← emptyQueue q then
    unlock q
    return 0
  else
    let elem ← next q
    listDel elem
    unlock q
    return elem

def putFifo (q e : ℕ) : QueueM Unit := do
  lock q
  listAddTail e q
  unlock q

/-! ### What a call writes -/

variable {m m' : Memory} {q e n p x : ℕ}

theorem next_apply (h : q ≠ 0) (m : Memory) : next q m = .ok (m.links.next q, m) := if_neg h

theorem prev_apply (h : q ≠ 0) (m : Memory) : prev q m = .ok (m.links.prev q, m) := if_neg h

theorem setNext_apply (h : q ≠ 0) (x : ℕ) (m : Memory) :
    setNext q x m = .ok ((), { m with links := m.links.setNext q x }) := if_neg h

theorem setPrev_apply (h : q ≠ 0) (x : ℕ) (m : Memory) :
    setPrev q x m = .ok ((), { m with links := m.links.setPrev q x }) := if_neg h

/-- The memory while the mutex of `q` is locked. -/
def Memory.locked (m : Memory) (q : ℕ) : Memory :=
  { m with mutex := Function.update m.mutex q true }

theorem lock_apply (h : m.mutex q = false) : lock q m = .ok ((), m.locked q) := by
  rw [lock, h]
  rfl

theorem unlock_apply (h : m.mutex q = false) (links : Links ℕ) :
    unlock q { m.locked q with links := links } = .ok ((), { m with links := links }) := by
  have hfree : Function.update (Function.update m.mutex q true) q false = m.mutex := by
    rw [Function.update_idem, ← h, Function.update_eq_self]
  rw [unlock, Memory.locked, if_pos (Function.update_self ..)]
  dsimp only
  rw [hfree]

theorem initQueue_apply (hq : q ≠ 0) (m : Memory) :
    initQueue q m = .ok ((),
      ⟨(m.links.setNext q q).setPrev q q, Function.update m.mutex q false⟩) :=
  (bind_of_ok ((bind_of_ok (setNext_apply hq q m) _).trans (setPrev_apply hq q _)) _).trans rfl

theorem _listAdd_apply (he : e ≠ 0) (hp : p ≠ 0) (hn : n ≠ 0) (m : Memory) :
    _listAdd e p n m = .ok ((), { m with links := m.links.insert e p n }) := by
  refine (bind_of_ok (setPrev_apply hn e m) _).trans ?_
  refine (bind_of_ok (setNext_apply he n _) _).trans ?_
  refine (bind_of_ok (setPrev_apply he p _) _).trans ?_
  exact setNext_apply hp e _

theorem putFifo_apply (hfree : m.mutex q = false) (hq : q ≠ 0) (he : e ≠ 0)
    (hp : m.links.prev q ≠ 0) : putFifo q e m =
      .ok ((), { m with links := m.links.insert e (m.links.prev q) q }) := by
  refine (bind_of_ok (lock_apply hfree) _).trans ?_
  refine (bind_of_ok ((bind_of_ok (prev_apply hq _) _).trans
    (_listAdd_apply he hp hq _)) _).trans ?_
  exact unlock_apply hfree _

/-- The links after `list_del` of a node between `p` and `n`. -/
def delLinks (m : Links ℕ) (e p n : ℕ) : Links ℕ := ((m.remove p n).setNext e 0).setPrev e 0

theorem listDel_apply (he : e ≠ 0) (hp : m.links.prev e ≠ 0) (hn : m.links.next e ≠ 0) :
    listDel e m =
      .ok ((), { m with links := delLinks m.links e (m.links.prev e) (m.links.next e) }) := by
  refine (bind_of_ok (prev_apply he m) _).trans ?_
  refine (bind_of_ok (next_apply he m) _).trans ?_
  refine (bind_of_ok ((bind_of_ok (setPrev_apply hn _ m) _).trans
    (setNext_apply hp _ _)) _).trans ?_
  refine (bind_of_ok (setNext_apply he 0 _) _).trans ?_
  exact setPrev_apply he 0 _

theorem emptyQueue_apply (hq : q ≠ 0) (m : Memory) :
    emptyQueue q m = .ok (m.links.next q == q, m) :=
  (bind_of_ok (next_apply hq m) _).trans rfl

theorem getFifo_empty (hfree : m.mutex q = false) (hq : q ≠ 0) (hnil : m.links.next q = q) :
    getFifo q m = .ok (0, m) := by
  refine (bind_of_ok (lock_apply hfree) _).trans ?_
  refine (bind_of_ok (emptyQueue_apply hq _) _).trans ?_
  have hempty : (m.locked q).links.next q = q := hnil
  rw [if_pos (beq_iff_eq.mpr hempty)]
  exact bind_of_ok (unlock_apply hfree m.links) _

theorem getFifo_apply (hfree : m.mutex q = false) (hq : q ≠ 0) (hnext : m.links.next q = e)
    (heq : e ≠ q) (he : e ≠ 0) (hp : m.links.prev e ≠ 0) (hn : m.links.next e ≠ 0) :
    getFifo q m =
      .ok (e, { m with links := delLinks m.links e (m.links.prev e) (m.links.next e) }) := by
  refine (bind_of_ok (lock_apply hfree) _).trans ?_
  refine (bind_of_ok (emptyQueue_apply hq _) _).trans ?_
  have hfirst : (m.locked q).links.next q = e := hnext
  rw [if_neg (mt beq_iff_eq.mp (hfirst ▸ heq))]
  refine (bind_of_ok (next_apply hq _) _).trans ?_
  have hdel : listDel (m.links.next q) (m.locked q) = .ok ((), { m.locked q with
      links := delLinks m.links e (m.links.prev e) (m.links.next e) }) := by
    rw [hnext]
    exact listDel_apply (m := m.locked q) he hp hn
  refine (bind_of_ok hdel _).trans ?_
  refine (bind_of_ok (unlock_apply hfree _) _).trans ?_
  rw [← hnext]
  rfl

/-! ### What the links spell out -/

/-- Through each queue of `qs` leads a loop with the nodes that `σ` names. No node is on two, none
is `NULL`, and no mutex is locked. -/
structure Chains (m : Memory) (qs : Set ℕ) (σ : ℕ → List ℕ) : Prop where
  loops : m.links.Loops qs σ
  ne_null : ∀ q ∈ qs, 0 ∉ q :: σ q
  free : ∀ q ∈ qs, m.mutex q = false

namespace Chains

variable {qs : Set ℕ} {σ : ℕ → List ℕ}

theorem ne_zero (h : Chains m qs σ) (hq : q ∈ qs) (hx : x ∈ q :: σ q) : x ≠ 0 :=
  ne_of_mem_of_not_mem hx (h.ne_null q hq)

theorem ne_null_update (h : Chains m qs σ) {l : List ℕ} (hl : 0 ∉ q :: l) :
    ∀ q' ∈ insert q qs, 0 ∉ q' :: Function.update σ q l q' := by
  intro q' hq'
  by_cases hne : q' = q
  · rwa [hne, Function.update_self]
  · rw [Function.update_of_ne hne]
    exact h.ne_null q' (hq'.resolve_left hne)

/-- **A new queue** is empty. -/
theorem init (h : Chains m qs σ) (hq : q ≠ 0) (hnew : ¬ Links.OnLoop qs σ q) :
    ∃ m', initQueue q m = .ok ((), m') ∧ Chains m' (insert q qs) (Function.update σ q []) ∧
      ∀ q' ∈ qs, m.links.SameOn m'.links (q' :: σ q') := by
  obtain ⟨hloops, hsame⟩ := h.loops.add hnew
  refine ⟨_, initQueue_apply hq m,
    ⟨hloops, h.ne_null_update (mt List.mem_singleton.mp hq.symm), fun q' hq' => ?_⟩, hsame⟩
  show Function.update m.mutex q false q' = false
  by_cases hne : q' = q
  · rw [hne, Function.update_self]
  · rw [Function.update_of_ne hne]
    exact h.free q' (hq'.resolve_left hne)

/-- **A put** adds its node to one list, as its last. -/
theorem put (h : Chains m qs σ) (hq : q ∈ qs) (he : e ≠ 0) (hnew : ¬ Links.OnLoop qs σ e) :
    ∃ m', putFifo q e m = .ok ((), m') ∧
      Chains m' qs (Function.update σ q (Milu.putFifo (σ q) e)) ∧
      ∀ q' ∈ qs, q' ≠ q → m.links.SameOn m'.links (q' :: σ q') := by
  obtain ⟨hloops, hsame⟩ := h.loops.insert_last hq hnew
  have hprev := h.ne_zero hq (h.loops.loop q hq).prev_mem
  have hnull : 0 ∉ q :: (σ q ++ [e]) := by
    rw [← List.cons_append, List.mem_append, not_or]
    exact ⟨h.ne_null q hq, mt List.mem_singleton.mp he.symm⟩
  exact ⟨_, putFifo_apply (h.free q hq) (h.ne_zero hq List.mem_cons_self) he hprev,
    ⟨hloops, fun q' hq' => h.ne_null_update hnull q' (.inr hq'), h.free⟩, hsame⟩

/-- **A get** takes the first node of one list, which is in no queue then. -/
theorem get (h : Chains m qs σ) (hq : q ∈ qs) :
    (Milu.getFifo (σ q) = none ∧ getFifo q m = .ok (0, m)) ∨
      ∃ e l m', Milu.getFifo (σ q) = some (e, l) ∧ getFifo q m = .ok (e, m') ∧ e ≠ 0 ∧
        Chains m' qs (Function.update σ q l) ∧ ¬ Links.OnLoop qs (Function.update σ q l) e ∧
        ∀ q' ∈ qs, q' ≠ q → m.links.SameOn m'.links (q' :: σ q') := by
  have hq0 := h.ne_zero hq List.mem_cons_self
  have hloop := h.loops.loop q hq
  cases hσ : σ q with
  | nil => exact .inl ⟨rfl, getFifo_empty (h.free q hq) hq0 (hloop.next_eq_iff.mpr hσ)⟩
  | cons e l =>
    have he : e ∈ q :: σ q := hσ ▸ List.mem_cons_of_mem _ List.mem_cons_self
    have he0 := h.ne_zero hq he
    obtain ⟨hremoved, hsame, hout⟩ := h.loops.remove_first hq hσ
    rw [hσ] at hloop
    obtain ⟨⟨hnext, hprev⟩, hpath⟩ := hloop.path
    have heq : e ≠ q := (List.ne_of_not_mem_cons (List.nodup_cons.mp hloop.nodup).1).symm
    have hn : m.links.next e ≠ 0 := by
      refine h.ne_zero hq ?_
      rw [hσ]
      rcases List.mem_cons.mp hpath.next_mem with hn | hn
      · exact hn ▸ List.mem_cons_self
      · exact List.mem_cons_of_mem _ (List.mem_cons_of_mem _ hn)
    have hget := getFifo_apply (h.free q hq) hq0 hnext heq he0 (hprev.symm ▸ hq0) hn
    rw [hprev] at hget
    -- the links of the node itself are cleared, which no loop sees
    have hclear : ∀ {k : List ℕ}, e ∉ k → (m.links.remove q (m.links.next e)).SameOn
        (delLinks m.links e q (m.links.next e)) k :=
      fun hk => (Links.SameOn.setNext hk).trans (Links.SameOn.setPrev hk)
    have hoff : ∀ q' ∈ qs, e ∉ q' :: Function.update σ q l q' := fun q' hq' hc =>
      hout ⟨q', hq', hc⟩
    have hnull : 0 ∉ q :: l := by
      have hold := h.ne_null q hq
      rw [hσ] at hold
      exact mt (((List.sublist_cons_self e l).cons_cons q).subset ·) hold
    refine .inr ⟨e, l, _, rfl, hget, he0, ⟨hremoved.congr fun q' hq' => hclear (hoff q' hq'),
      fun q' hq' => h.ne_null_update hnull q' (.inr hq'), h.free⟩, hout,
      fun q' hq' hne => (hsame q' hq' hne).trans (hclear ?_)⟩
    have hother := hoff q' hq'
    rwa [Function.update_of_ne hne] at hother

end Chains

end Queue

open Queue (Memory Chains)

/-! ### Runs -/

/-- Calls with their return values, which are `NULL` or a node. -/
inductive QueueEvent
  | init (q : ℕ)
  | put (q e : ℕ)
  | got (q x : ℕ)
  deriving DecidableEq

/-- The queue that a call sets up. -/
def QueueEvent.queue : QueueEvent → Option ℕ
  | .init q => some q
  | _ => none

/-- The queues that were set up. -/
def setUp (es : List QueueEvent) : List ℕ := es.filterMap QueueEvent.queue

/-- A call leaves the nodes that were put into a queue and were not handed out since. -/
def QueueEvent.after (σ : ℕ → List ℕ) : QueueEvent → ℕ → List ℕ
  | .init _ => σ
  | .put q e => Function.update σ q (Milu.putFifo (σ q) e)
  | .got q x => Function.update σ q ((σ q).erase x)

/-- The nodes of each queue after some calls, first call first, in the order in which they were
put. -/
def queued (es : List QueueEvent) : ℕ → List ℕ := es.foldl QueueEvent.after fun _ => []

/-- Is the node in a queue, or a queue itself? -/
def InUse (es : List QueueEvent) (x : ℕ) : Prop := ∃ q ∈ setUp es, x ∈ q :: queued es q

instance (es : List QueueEvent) (x : ℕ) : Decidable (InUse es x) :=
  inferInstanceAs (Decidable (∃ q ∈ setUp es, x ∈ q :: queued es q))

/-- The memory that calls lead to. A queue may be set up at any time, and a node may be put into any
queue while it is in none. -/
inductive QueueRun (m₀ : Memory) : List QueueEvent → Memory → Prop
  | start : QueueRun m₀ [] m₀
  | init {es m q m'} : QueueRun m₀ es m → q ≠ 0 → ¬ InUse es q →
      Queue.initQueue q m = .ok ((), m') → QueueRun m₀ (es ++ [.init q]) m'
  | put {es m q e m'} : QueueRun m₀ es m → q ∈ setUp es → e ≠ 0 → ¬ InUse es e →
      Queue.putFifo q e m = .ok ((), m') → QueueRun m₀ (es ++ [.put q e]) m'
  | get {es m q x m'} : QueueRun m₀ es m → q ∈ setUp es →
      Queue.getFifo q m = .ok (x, m') → QueueRun m₀ (es ++ [.got q x]) m'

/-- The node that a call puts into `q`. -/
def QueueEvent.putTo (q : ℕ) : QueueEvent → Option ℕ
  | .put q' e => if q' = q then some e else none
  | _ => none

/-- The node that a call takes from `q`. -/
def QueueEvent.takenFrom (q : ℕ) : QueueEvent → Option ℕ
  | .got q' x => if q' = q ∧ x ≠ 0 then some x else none
  | _ => none

/-- The nodes put into `q`, in order. -/
def putInto (q : ℕ) (es : List QueueEvent) : List ℕ := es.filterMap (QueueEvent.putTo q)

/-- The nodes that gets on `q` returned, in order. -/
def gotFrom (q : ℕ) (es : List QueueEvent) : List ℕ := es.filterMap (QueueEvent.takenFrom q)

theorem queued_concat (es : List QueueEvent) (ev : QueueEvent) :
    queued (es ++ [ev]) = ev.after (queued es) :=
  List.foldl_concat _ _ _ _

theorem gotFrom_concat (q : ℕ) (es : List QueueEvent) (ev : QueueEvent) :
    gotFrom q (es ++ [ev]) = gotFrom q es ++ (ev.takenFrom q).toList :=
  filterMap_concat _ es ev

theorem putInto_concat (q : ℕ) (es : List QueueEvent) (ev : QueueEvent) :
    putInto q (es ++ [ev]) = putInto q es ++ (ev.putTo q).toList :=
  filterMap_concat _ es ev

theorem setUp_concat (es : List QueueEvent) (ev : QueueEvent) :
    setUp (es ++ [ev]) = setUp es ++ ev.queue.toList :=
  filterMap_concat _ es ev

theorem mem_setUp_init {es : List QueueEvent} {q q' : ℕ} :
    q' ∈ setUp (es ++ [.init q]) ↔ q' = q ∨ q' ∈ setUp es := by
  rw [setUp_concat, QueueEvent.queue, Option.toList_some, List.mem_append, List.mem_singleton,
    or_comm]

@[simp] theorem setUp_put (es : List QueueEvent) (q e : ℕ) :
    setUp (es ++ [.put q e]) = setUp es := by
  rw [setUp_concat]
  exact List.append_nil _

@[simp] theorem setUp_got (es : List QueueEvent) (q x : ℕ) :
    setUp (es ++ [.got q x]) = setUp es := by
  rw [setUp_concat]
  exact List.append_nil _

namespace QueueRun

variable {m₀ m : Memory} {es : List QueueEvent} {q : ℕ}

theorem queued_eq_nil (hrun : QueueRun m₀ es m) (hq : q ∉ setUp es) : queued es q = [] := by
  induction hrun with
  | start => rfl
  | init _ _ _ _ ih =>
    rw [queued_concat]
    exact ih fun hc => hq (mem_setUp_init.mpr (.inr hc))
  | put _ hset _ _ _ ih =>
    rw [setUp_put] at hq
    rw [queued_concat, QueueEvent.after, Function.update_of_ne (ne_of_mem_of_not_mem hset hq).symm]
    exact ih hq
  | get _ hset _ ih =>
    rw [setUp_got] at hq
    rw [queued_concat, QueueEvent.after, Function.update_of_ne (ne_of_mem_of_not_mem hset hq).symm]
    exact ih hq

/-- **After any calls** the links spell out what is in the queues. -/
theorem chains (hrun : QueueRun m₀ es m) : Chains m {q | q ∈ setUp es} (queued es) := by
  induction hrun with
  | start =>
    exact ⟨⟨fun q hq => absurd hq List.not_mem_nil, fun q hq => absurd hq List.not_mem_nil⟩,
      fun q hq => absurd hq List.not_mem_nil, fun q hq => absurd hq List.not_mem_nil⟩
  | @init es m q m' hprev hq hnew hcall ih =>
    obtain ⟨m₁, hcall₁, hchains, -⟩ := ih.init hq hnew
    obtain ⟨-, rfl⟩ := ok_unique hcall hcall₁
    have hnil : queued es q = [] := hprev.queued_eq_nil fun hc => hnew ⟨q, hc, List.mem_cons_self⟩
    rw [← hnil, Function.update_eq_self] at hchains
    have hqueues : {q' | q' ∈ setUp (es ++ [.init q])} = insert q {q' | q' ∈ setUp es} :=
      Set.ext fun _ => mem_setUp_init
    rw [hqueues, queued_concat]
    exact hchains
  | put _ hset he hnew hcall ih =>
    obtain ⟨m₁, hcall₁, hchains, -⟩ := ih.put hset he hnew
    obtain ⟨-, rfl⟩ := ok_unique hcall hcall₁
    rw [setUp_put, queued_concat]
    exact hchains
  | @get es m q x m' _ hset hcall ih =>
    rw [setUp_got, queued_concat, QueueEvent.after]
    rcases ih.get hset with ⟨-, hcall₁⟩ | ⟨e, l, m₁, hfirst, hcall₁, -, hchains, -⟩ <;>
      obtain ⟨rfl, rfl⟩ := ok_unique hcall hcall₁
    · have hnull := mt (List.mem_cons_of_mem q) (ih.ne_null q hset)
      rw [List.erase_of_not_mem hnull, Function.update_eq_self]
      exact ih
    · rwa [getFifo_eq_some.mp hfirst, List.erase_cons_head]

/-- **First in, first out**: what was taken, and what is there, is what was put. -/
theorem order (hrun : QueueRun m₀ es m) (q : ℕ) :
    gotFrom q es ++ queued es q = putInto q es := by
  induction hrun with
  | start => rfl
  | @init es m q' m' _ _ _ _ ih =>
    rw [queued_concat, gotFrom_concat, putInto_concat, ← ih]
    simp [QueueEvent.takenFrom, QueueEvent.putTo, QueueEvent.after]
  | @put es m q' e m' _ _ _ _ _ ih =>
    rw [queued_concat, gotFrom_concat, putInto_concat, ← ih, QueueEvent.after]
    by_cases hne : q' = q
    · subst hne
      simp [QueueEvent.takenFrom, QueueEvent.putTo, Milu.putFifo]
    · rw [Function.update_of_ne (Ne.symm hne)]
      simp [QueueEvent.takenFrom, QueueEvent.putTo, hne]
  | @get es m q' x m' hprev hset hcall ih =>
    rw [queued_concat, gotFrom_concat, putInto_concat, ← ih, QueueEvent.after]
    by_cases hne : q' = q
    · subst hne
      rw [Function.update_self]
      rcases hprev.chains.get hset with ⟨hfirst, hcall₁⟩ | ⟨e, l, m₁, hfirst, hcall₁, he, -⟩ <;>
        obtain ⟨rfl, -⟩ := ok_unique hcall hcall₁
      · simp [QueueEvent.takenFrom, QueueEvent.putTo, getFifo_eq_none.mp hfirst]
      · simp [QueueEvent.takenFrom, QueueEvent.putTo, getFifo_eq_some.mp hfirst, he]
    · rw [Function.update_of_ne (Ne.symm hne)]
      simp [QueueEvent.takenFrom, QueueEvent.putTo, hne]

end QueueRun

/-! ### What the queues owe their clients -/

/-- What the queues owe their clients after some calls, in the memory `m`: each is a loop of its
own, every call that may come next returns, gets hand out the nodes of a queue in the order in which
they were put, with `NULL` for an empty queue, and nothing is written into the loops of the
others. -/
structure FifoQueues (es : List QueueEvent) (m : Memory) : Prop where
  loop : ∀ q ∈ setUp es, m.links.Loop q (queued es q)
  inverse : ∀ q ∈ setUp es, ∀ x ∈ q :: queued es q,
    m.links.prev (m.links.next x) = x ∧ m.links.next (m.links.prev x) = x
  apart : ∀ q ∈ setUp es, ∀ q' ∈ setUp es, q ≠ q' →
    (q :: queued es q).Disjoint (q' :: queued es q')
  order : ∀ q ∈ setUp es, gotFrom q es ++ queued es q = putInto q es
  init : ∀ q, q ≠ 0 → ¬ InUse es q → ∃ m', Queue.initQueue q m = .ok ((), m') ∧
    ∀ q' ∈ setUp es, m.links.SameOn m'.links (q' :: queued es q')
  put : ∀ q ∈ setUp es, ∀ e, e ≠ 0 → ¬ InUse es e → ∃ m', Queue.putFifo q e m = .ok ((), m') ∧
    ∀ q' ∈ setUp es, q' ≠ q → m.links.SameOn m'.links (q' :: queued es q')
  get : ∀ q ∈ setUp es, ∃ x m', Queue.getFifo q m = .ok (x, m') ∧
    x = (queued es q).headD 0 ∧ (x = 0 ↔ queued es q = []) ∧
    (x ≠ 0 → ¬ InUse (es ++ [.got q x]) x) ∧
    ∀ q' ∈ setUp es, q' ≠ q → m.links.SameOn m'.links (q' :: queued es q')

/-- **Queues are first in, first out**, and do not disturb each other, whatever is put into
whichever of them. -/
theorem queues_fifo {m₀ m : Memory} {es : List QueueEvent} (hrun : QueueRun m₀ es m) :
    FifoQueues es m := by
  have hchains := hrun.chains
  refine ⟨hchains.loops.loop, fun q hq x hx => (hchains.loops.loop q hq).inverse hx,
    hchains.loops.apart, fun q _ => hrun.order q, fun q hq hnew => ?_, fun q hset e he hnew => ?_,
    fun q hset => ?_⟩
  · obtain ⟨m', hcall, -, hsame⟩ := hchains.init hq hnew
    exact ⟨m', hcall, hsame⟩
  · obtain ⟨m', hcall, -, hsame⟩ := hchains.put hset he hnew
    exact ⟨m', hcall, hsame⟩
  · rcases hchains.get hset with
      ⟨hfirst, hcall⟩ | ⟨e, l, m', hfirst, hcall, he, -, hout, hsame⟩
    · have hnil := getFifo_eq_none.mp hfirst
      exact ⟨0, m, hcall, by rw [hnil]; rfl, iff_of_true rfl hnil, absurd rfl,
        fun _ _ _ => .refl _ _⟩
    · have hcons := getFifo_eq_some.mp hfirst
      refine ⟨e, m', hcall, by rw [hcons]; rfl, iff_of_false he ?_, fun _ => ?_, hsame⟩
      · rw [hcons]
        exact List.cons_ne_nil _ _
      · rw [InUse, setUp_got, queued_concat, QueueEvent.after, hcons, List.erase_cons_head]
        exact hout

/-- A memory full of anything. -/
def usedMemory : Memory := ⟨⟨fun a => a + 1, fun a => a / 2⟩, fun _ => true⟩

/-- A node goes from one queue to another. -/
theorem queues_fifo_move : ∃ m, QueueRun usedMemory
    [.init 64, .init 128, .put 64 192, .put 64 224, .got 64 192, .put 128 192] m ∧
      m.links.Loop 64 [224] ∧ m.links.Loop 128 [192] := by
  have h₁ := @QueueRun.init usedMemory [] _ 64 _ .start (by decide) (by decide) rfl
  have h₂ := h₁.init (by decide : 128 ≠ 0) (by decide) rfl
  have h₃ := h₂.put (by decide : 64 ∈ _) (by decide : 192 ≠ 0) (by decide) rfl
  have h₄ := h₃.put (by decide : 64 ∈ _) (by decide : 224 ≠ 0) (by decide) rfl
  have h₅ := h₄.get (by decide : 64 ∈ _) rfl
  have h₆ := h₅.put (by decide : 128 ∈ _) (by decide : 192 ≠ 0) (by decide) rfl
  have hfifo := queues_fifo h₆
  exact ⟨_, h₆, hfifo.loop 64 (by decide), hfifo.loop 128 (by decide)⟩

end Milu
