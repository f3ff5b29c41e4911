import Milu.Lib.Atomicity
import Milu.Pool.Queue
import Mathlib.Algebra.Order.Group.Multiset
import Mathlib.Data.Finset.Basic

/-!
# Queues shared by threads

`get_fifo` and `put_fifo` again, run by any number of threads at the same time. A step is one access
to a link, or the lock or unlock of a mutex, and the threads take their steps in any order. What a
caller does besides, with data of its own or with shared data, is left open, and so are the callers:
they are programs that call `get_fifo` and `put_fifo` on some queues, and put only nodes that are
theirs.

A node belongs to nobody, to a queue or to a call. One that belongs to nobody is spare. A call may
come with spare nodes, and may leave some.

Every access is seen by all threads at once and in one order; what a compiler or a processor may
make of accesses that no mutex protects is not modelled.

## Main definitions

* `Shared.LinkOp`, `Shared.getFifo`, `Shared.putFifo` — the code, step by step
* `Shared.QueueOp` — the same calls, all at once
* `Shared.Clients`, `Shared.Clients.Careful` — callers, and what is asked of them
* `Shared.Clients.linkSystem`, `Shared.Clients.atomicSystem` — threads that run them, one way and
  the other

## Main results

* `Shared.getFifo_alone`, `Shared.putFifo_alone` — a thread by itself
* `Shared.runs_getFifo`, `Shared.runs_putFifo` — a thread that is not interrupted
-/

namespace Milu

namespace Shared

variable {D W X α β : Type} {DReply : D → Type}

/-! ### The code -/

/-- A step of a thread: an access to a link, a lock or unlock, or an operation on other data. -/
inductive LinkOp (D : Type)
  | next (a : ℕ)
  | prev (a : ℕ)
  | setNext (a b : ℕ)
  | setPrev (a b : ℕ)
  | lock (q : ℕ)
  | unlock (q : ℕ)
  | data (d : D)

/-- What a step returns. -/
abbrev LinkOp.Reply (DReply : D → Type) : LinkOp D → Type
  | next _ | prev _ => ℕ
  | setNext _ _ | setPrev _ _ | lock _ | unlock _ => Unit
  | data d => DReply d

/-- Programs of such steps. -/
abbrev LinkProgram (DReply : D → Type) := Program (LinkOp.Reply DReply)

/-- One step. -/
abbrev perform (o : LinkOp D) : LinkProgram DReply (o.Reply DReply) := Program.perform o

/-- `a->next`. -/
def next (a : ℕ) : LinkProgram DReply ℕ := perform (.next a)

/-- `a->prev`. -/
def prev (a : ℕ) : LinkProgram DReply ℕ := perform (.prev a)

/-- `a->next = b`. -/
def setNext (a b : ℕ) : LinkProgram DReply Unit := perform (.setNext a b)

/-- `a->prev = b`. -/
def setPrev (a b : ℕ) : LinkProgram DReply Unit := perform (.setPrev a b)

def lock (q : ℕ) : LinkProgram DReply Unit := perform (.lock q)

def unlock (q : ℕ) : LinkProgram DReply Unit := perform (.unlock q)

def _listAdd (elem prev next : ℕ) : LinkProgram DReply Unit := do
  setPrev next elem
  setNext elem next
  setPrev elem prev
  setNext prev elem

def listAddTail (elem head : ℕ) : LinkProgram DReply Unit := do
  _listAdd elem (← prev head) head

def _listDel (prev next : ℕ) : LinkProgram DReply Unit := do
  setPrev next prev
  setNext prev next

def listDel (entry : ℕ) : LinkProgram DReply Unit := do
  _listDel (← prev entry) (← next entry)
  setNext entry 0
  setPrev entry 0

def listEmpty (head : ℕ) : LinkProgram DReply Bool := do
  return (← next head) == head

def emptyQueue (q : ℕ) : LinkProgram DReply Bool := listEmpty q

def getFifo (q : ℕ) : LinkProgram DReply ℕ := do
  lock q
  if ← emptyQueue q then
    unlock q
    return 0
  else
    let elem ← next q
    listDel elem
    unlock q
    return elem

def putFifo (q e : ℕ) : LinkProgram DReply Unit := do
  lock q
  listAddTail e q
  unlock q

/-! ### A thread by itself -/

/-- A step on the memory of one thread. -/
def LinkOp.run (onData : (d : D) → Queue.QueueM (DReply d)) :
    (o : LinkOp D) → Queue.QueueM (o.Reply DReply)
  | next a => Queue.next a
  | prev a => Queue.prev a
  | setNext a b => Queue.setNext a b
  | setPrev a b => Queue.setPrev a b
  | lock q => Queue.lock q
  | unlock q => Queue.unlock q
  | data d => onData d

section

variable (onData : (d : D) → Queue.QueueM (DReply d))

@[simp] theorem interp_next (a : ℕ) : (next a).interp (LinkOp.run onData) = Queue.next a :=
  bind_pure _

@[simp] theorem interp_prev (a : ℕ) : (prev a).interp (LinkOp.run onData) = Queue.prev a :=
  bind_pure _

@[simp] theorem interp_setNext (a b : ℕ) :
    (setNext a b).interp (LinkOp.run onData) = Queue.setNext a b := bind_pure _

@[simp] theorem interp_setPrev (a b : ℕ) :
    (setPrev a b).interp (LinkOp.run onData) = Queue.setPrev a b := bind_pure _

@[simp] theorem interp_lock (q : ℕ) : (lock q).interp (LinkOp.run onData) = Queue.lock q :=
  bind_pure _

@[simp] theorem interp_unlock (q : ℕ) : (unlock q).interp (LinkOp.run onData) = Queue.unlock q :=
  bind_pure _

/-- **A thread by itself** runs the `put_fifo` of one thread. -/
theorem putFifo_alone (q e : ℕ) : (putFifo q e).interp (LinkOp.run onData) = Queue.putFifo q e := by
  simp [putFifo, listAddTail, _listAdd, Program.interp_bind, Queue.putFifo, Queue.listAddTail,
    Queue._listAdd]

theorem getFifo_alone (q : ℕ) : (getFifo q).interp (LinkOp.run onData) = Queue.getFifo q := by
  have hpure (a : ℕ) : (pure a : LinkProgram DReply ℕ).interp (LinkOp.run onData) = pure a := rfl
  have hif (a : ℕ) := apply_ite (Program.interp (α := ℕ) (LinkOp.run onData)) (a = q)
  simp [-bind_pure_comp, getFifo, emptyQueue, listEmpty, listDel, _listDel, Program.interp_bind,
    hif, hpure, Queue.getFifo, Queue.emptyQueue, Queue.listEmpty, Queue.listDel, Queue._listDel]

end

/-! ### Threads -/

/-- What the threads share: lists, other data, and the nodes that are spare. -/
structure State (L W : Type) where
  lists : L
  data : W
  spare : Multiset ℕ

/-- The state with other lists. -/
def State.withLists {L : Type} (s : State L W) (lists : L) : State L W :=
  ⟨lists, s.data, s.spare⟩

@[simp] theorem lists_withLists {L : Type} (s : State L W) (lists : L) :
    (s.withLists lists).lists = lists := rfl

@[simp] theorem data_withLists {L : Type} (s : State L W) (lists : L) :
    (s.withLists lists).data = s.data := rfl

@[simp] theorem spare_withLists {L : Type} (s : State L W) (lists : L) :
    (s.withLists lists).spare = s.spare := rfl

/-- A list function at work. -/
def onLists (x : Queue.QueueM α) (s : State Queue.Memory W) (r : α) (s' : State Queue.Memory W) :
    Prop :=
  ∃ lists, x s.lists = .ok (r, lists) ∧ s' = s.withLists lists

section

variable (exec : Program.Exec W DReply)

/-- An operation on the other data. -/
def onData {L : Type} (d : D) (s : State L W) (r : DReply d) (s' : State L W) : Prop :=
  ∃ data, exec s.data d r data ∧ s' = ⟨s.lists, data, s.spare⟩

/-- The steps. A thread that locks a mutex that is locked waits, and so does one that goes through a
null pointer or unlocks a mutex that is not locked, but for ever. -/
def linkExec : Program.Exec (State Queue.Memory W) (LinkOp.Reply DReply)
  | s, .next a, r, s' => onLists (Queue.next a) s r s'
  | s, .prev a, r, s' => onLists (Queue.prev a) s r s'
  | s, .setNext a b, r, s' => onLists (Queue.setNext a b) s r s'
  | s, .setPrev a b, r, s' => onLists (Queue.setPrev a b) s r s'
  | s, .lock q, r, s' => onLists (Queue.lock q) s r s'
  | s, .unlock q, r, s' => onLists (Queue.unlock q) s r s'
  | s, .data d, r, s' => onData exec d s r s'

end

section

variable {exec : Program.Exec W DReply} {s : State Queue.Memory W} {lists : Queue.Memory} {q e : ℕ}

/-- A list function that returns for a thread by itself is a run of its steps. -/
theorem runs_of_interp {p : LinkProgram DReply α} {v : α}
    (h : p.interp (LinkOp.run fun _ _ => .error .null) s.lists = .ok (v, lists)) :
    Program.Runs (linkExec exec) s p v (s.withLists lists) := by
  refine Program.Runs.of_interp s.withLists (fun {o m r m'} ho => ?_) h
  cases o with
  | data d => cases ho
  | _ => exact ⟨m', ho, rfl⟩

theorem runs_getFifo (h : Queue.getFifo q s.lists = .ok (e, lists)) :
    Program.Runs (linkExec exec) s (getFifo q) e (s.withLists lists) :=
  runs_of_interp (by rw [getFifo_alone, h])

theorem runs_putFifo (h : Queue.putFifo q e s.lists = .ok ((), lists)) :
    Program.Runs (linkExec exec) s (putFifo q e) () (s.withLists lists) :=
  runs_of_interp (by rw [putFifo_alone, h])

end

/-! ### The same calls, all at once -/

/-- A call of `get_fifo` or `put_fifo`, or an operation on other data. -/
inductive QueueOp (D : Type)
  | get (q : ℕ)
  | put (q e : ℕ)
  | data (d : D)

/-- What a call returns. -/
abbrev QueueOp.Reply (DReply : D → Type) : QueueOp D → Type
  | get _ => ℕ
  | put _ _ => Unit
  | data d => DReply d

/-- The code of a call. -/
def QueueOp.code : (o : QueueOp D) → LinkProgram DReply (o.Reply DReply)
  | get q => getFifo q
  | put q e => putFifo q e
  | data d => perform (.data d)

/-- A call on the list of its queue. -/
def atomicExec (exec : Program.Exec W DReply) :
    Program.Exec (State (ℕ → List ℕ) W) (QueueOp.Reply DReply)
  | t, .get q, r, t' => (Milu.getFifo (t.lists q) = none ∧ r = 0 ∧ t' = t) ∨
      ∃ l, Milu.getFifo (t.lists q) = some (r, l) ∧
        t' = t.withLists (Function.update t.lists q l)
  | t, .put q e, _, t' =>
      t' = t.withLists (Function.update t.lists q (Milu.putFifo (t.lists q) e))
  | t, .data d, r, t' => onData exec d t r t'

/-! ### Callers -/

/-- Programs that call `get_fifo` and `put_fifo`. Such a program has a tag, may change the other
data when it is entered and when it returns, and may come with spare nodes and leave some. -/
structure Clients (X : Type) {D : Type} (DReply : D → Type) (W α : Type) where
  exec : Program.Exec W DReply
  enter : W → X → Multiset ℕ → Program (QueueOp.Reply DReply) α → W → Prop
  leave : X → α → W → W
  left : X → α → Multiset ℕ

/-- When may a program with these nodes make the call? -/
def QueueOp.May (qs : Finset ℕ) : QueueOp D → Multiset ℕ → Prop
  | get q, _ => q ∈ qs
  | put q e, hand => q ∈ qs ∧ e ∈ hand
  | data _, _ => True

/-- The nodes that a program has after a call. -/
def QueueOp.hand : (o : QueueOp D) → o.Reply DReply → Multiset ℕ → Multiset ℕ
  | get _, e, hand => if e = 0 then hand else e ::ₘ hand
  | put _ e, _, hand => hand.erase e
  | data _, _, hand => hand

namespace Clients

variable (C : Clients X DReply W α)

/-- Every program keeps to the queues and to the nodes that are its own, whatever its calls return,
and leaves those that it says. What it does with the other data can always be done. -/
structure Careful (qs : Finset ℕ) : Prop where
  uses : ∀ {w x es p w'}, C.enter w x es p w' →
    p.Uses (QueueOp.May qs) QueueOp.hand (fun v hand => hand = C.left x v) es
  total : ∀ w d, ∃ r w', C.exec w d r w'

/-- A program is entered with nodes that are spare. `code` is what is run. -/
inductive Start {L Op : Type} {Reply : Op → Type}
    (code : Program (QueueOp.Reply DReply) α → Program Reply α) :
    State L W → Multiset (X × Program Reply α) → State L W → X × Program Reply α → Prop
  | enter {s cs x es p data} : C.enter s.data x es p data → es ≤ s.spare →
      Start code s cs ⟨s.lists, data, s.spare - es⟩ (x, code p)

def finish {L : Type} (x : X) (v : α) (s : State L W) : State L W :=
  ⟨s.lists, C.leave x v s.data, s.spare + C.left x v⟩

/-- Threads that run these programs, step by step. -/
def linkSystem : System (State Queue.Memory W) (X × LinkProgram DReply α) :=
  Program.system (linkExec C.exec) C.finish (C.Start (Program.interp QueueOp.code))

/-- A program is entered with no node. -/
theorem start_bare {s : State Queue.Memory W} {x : X} {p : Program (QueueOp.Reply DReply) α}
    {data : W} (h : C.enter s.data x 0 p data) (cs : Multiset (X × LinkProgram DReply α)) :
    C.linkSystem.start s cs ⟨s.lists, data, s.spare⟩ (x, p.interp QueueOp.code) := by
  have hstart : C.linkSystem.start s cs ⟨s.lists, data, s.spare - 0⟩ _ :=
    Start.enter h (Multiset.zero_le _)
  rwa [tsub_zero] at hstart

/-- The same threads, when each call happens all at once. -/
def atomicSystem : System (State (ℕ → List ℕ) W) (X × Program (QueueOp.Reply DReply) α) :=
  Program.system (atomicExec C.exec) C.finish (C.Start id)

end Clients

end Shared

end Milu
