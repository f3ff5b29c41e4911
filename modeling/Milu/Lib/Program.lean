import Milu.Lib.Interleaving
import Mathlib.Tactic.Common

/-!
# Programs over atomic operations

A program performs operations and branches on their replies. What an operation does is left open:
one text can be run alone against one state, interleaved with other calls, or translated into a
computation of another kind.

## Main definitions

* `Program` — programs whose operation `o` is answered by a `Reply o`
* `Program.Runs` — a program run alone, when the operations are given as a relation
* `Program.Only` — programs that perform only some operations
* `Program.Ensures` — what a program run alone comes to, whatever its operations do
* `Program.interp` — a program as a computation in another monad
* `Program.system` — calls of programs, interleaved operation by operation

## Main results

* `Program.runs_bind_iff`, `Program.runs_perform_iff` — a run of a composed program, part by part
* `Program.Ensures.bind`, `Program.Ensures.perform_of_forall` — what a composed program comes to
* `Program.interp_bind` — translation respects composition
* `Program.Runs.of_interp` — a translated program that returns
* `Program.run_part` — a call that is not interrupted
-/

/-- A program that performs operations and returns an `α`. -/
inductive Program {Op : Type} (Reply : Op → Type) (α : Type) : Type
  | ret (a : α)
  | op (o : Op) (k : Reply o → Program Reply α)

namespace Program

variable {Op : Type} {Reply : Op → Type} {α β : Type}

/-- One program after the other. -/
def bind : Program Reply α → (α → Program Reply β) → Program Reply β
  | ret a, f => f a
  | op o k, f => op o fun r => (k r).bind f

instance : Monad (Program Reply) where
  pure := ret
  bind := bind

/-- Perform one operation and return its reply. -/
def perform (o : Op) : Program Reply (Reply o) := op o ret

@[simp] theorem ret_bind (a : α) (f : α → Program Reply β) : ret a >>= f = f a := rfl

@[simp] theorem op_bind (o : Op) (k : Reply o → Program Reply α) (f : α → Program Reply β) :
    op o k >>= f = op o fun r => k r >>= f := rfl

theorem bind_ret (p : Program Reply α) : p >>= ret = p := by
  induction p with
  | ret a => rfl
  | op o k ih => exact congrArg (op o) (funext ih)

theorem bind_bind {γ : Type} (p : Program Reply α) (f : α → Program Reply β)
    (g : β → Program Reply γ) : p >>= f >>= g = p >>= fun a => f a >>= g := by
  induction p with
  | ret a => rfl
  | op o k ih => exact congrArg (op o) (funext ih)

instance : LawfulMonad (Program Reply) :=
  LawfulMonad.mk' _ (fun p => bind_ret p) (fun _ _ => rfl) bind_bind

/-! ### Alone -/

/-- What an operation may do: the state before, the operation, its reply, the state after. -/
abbrev Exec (S : Type) {Op : Type} (Reply : Op → Type) := S → (o : Op) → Reply o → S → Prop

variable {S : Type} (exec : Exec S Reply)

/-- The program, run alone from one state, may return a value in another. -/
def Runs : S → Program Reply α → α → S → Prop
  | s, ret a, b, s' => b = a ∧ s' = s
  | s, op o k, b, s' => ∃ r s₁, exec s o r s₁ ∧ Runs s₁ (k r) b s'

variable {exec}

@[simp] theorem runs_op_iff {s s' : S} {o : Op} {k : Reply o → Program Reply α} {b : α} :
    Runs exec s (op o k) b s' ↔ ∃ r s₁, exec s o r s₁ ∧ Runs exec s₁ (k r) b s' := Iff.rfl

theorem runs_perform_iff {s s' : S} {o : Op} {f : Reply o → Program Reply α} {b : α} :
    Runs exec s (perform o >>= f) b s' ↔ ∃ r s₁, exec s o r s₁ ∧ Runs exec s₁ (f r) b s' := Iff.rfl

theorem runs_bind_iff {p : Program Reply α} {f : α → Program Reply β} :
    ∀ {s s' : S} {b : β}, Runs exec s (p >>= f) b s' ↔
      ∃ a s₁, Runs exec s p a s₁ ∧ Runs exec s₁ (f a) b s' := by
  induction p with
  | ret a =>
    intro s s' b
    constructor
    · exact fun h => ⟨a, s, ⟨rfl, rfl⟩, h⟩
    · rintro ⟨_, _, ⟨rfl, rfl⟩, h⟩
      exact h
  | op o k ih =>
    intro s s' b
    rw [op_bind, runs_op_iff]
    constructor
    · rintro ⟨r, s₁, ho, h⟩
      obtain ⟨a, s₂, h₁, h₂⟩ := (ih r).mp h
      exact ⟨a, s₂, ⟨r, s₁, ho, h₁⟩, h₂⟩
    · rintro ⟨a, s₂, ⟨r, s₁, ho, h₁⟩, h₂⟩
      exact ⟨r, s₁, ho, (ih r).mpr ⟨a, s₂, h₁, h₂⟩⟩

/-- Every operation that the program may come to is one that `ok` picks out. -/
def Only (ok : Op → Prop) : Program Reply α → Prop
  | ret _ => True
  | op o k => ok o ∧ ∀ r, (k r).Only ok

theorem Only.perform {ok : Op → Prop} {o : Op} {f : Reply o → Program Reply α} (ho : ok o)
    (hf : ∀ r, (f r).Only ok) : (Program.perform o >>= f).Only ok := ⟨ho, hf⟩

theorem Only.bind {ok : Op → Prop} {p : Program Reply α} {f : α → Program Reply β} (h : p.Only ok)
    (hf : ∀ a, (f a).Only ok) : (p >>= f).Only ok := by
  induction p with
  | ret a => exact hf a
  | op o k ih => exact ⟨h.1, fun r => ih r (h.2 r)⟩

/-- What each of its operations leaves as it is, a program does. -/
theorem Only.runs {γ : Type} {g : S → γ} {ok : Op → Prop}
    (hok : ∀ {s o r s'}, ok o → exec s o r s' → g s' = g s) {p : Program Reply α} (h : p.Only ok) :
    ∀ {s s' : S} {a : α}, Runs exec s p a s' → g s' = g s := by
  induction p with
  | ret a =>
    rintro s _ _ ⟨rfl, rfl⟩
    rfl
  | op o k ih =>
    rintro s s' a ⟨r, s₁, ho, hr⟩
    exact (ih r (h.2 r) hr).trans (hok h.1 ho)

/-! ### Alone, whatever happens -/

variable (exec) in
/-- Started in `s`, the program returns, and `post` holds then: each operation it comes to can be
performed, and whichever way it goes, so does the rest of the program. -/
def Ensures : S → Program Reply α → (α → S → Prop) → Prop
  | s, ret a, post => post a s
  | s, op o k, post => (∃ r s', exec s o r s') ∧ ∀ r s', exec s o r s' → Ensures s' (k r) post

theorem Ensures.perform {s : S} {o : Op} {f : Reply o → Program Reply α} {post : α → S → Prop}
    (ho : ∃ r s', exec s o r s') (h : ∀ r s', exec s o r s' → Ensures exec s' (f r) post) :
    Ensures exec s (Program.perform o >>= f) post := ⟨ho, h⟩

theorem Ensures.perform_of_forall {s s' : S} {o : Op} {r : Reply o} {f : Reply o → Program Reply α}
    {post : α → S → Prop} (ho : exec s o r s') (honly : ∀ r₁ s₁, exec s o r₁ s₁ → r₁ = r ∧ s₁ = s')
    (h : Ensures exec s' (f r) post) : Ensures exec s (Program.perform o >>= f) post := by
  refine .perform ⟨r, s', ho⟩ fun r₁ s₁ ho₁ => ?_
  obtain ⟨rfl, rfl⟩ := honly r₁ s₁ ho₁
  exact h

theorem Ensures.mono {p : Program Reply α} {post post' : α → S → Prop} : ∀ {s : S},
    Ensures exec s p post → (∀ a s', post a s' → post' a s') → Ensures exec s p post' := by
  induction p with
  | ret a =>
    intro s h himp
    exact himp a s h
  | op o k ih =>
    rintro s ⟨hex, hall⟩ himp
    exact ⟨hex, fun r s' ho => ih r (hall r s' ho) himp⟩

theorem Ensures.bind {p : Program Reply α} {f : α → Program Reply β} {mid : α → S → Prop}
    {post : β → S → Prop} : ∀ {s : S}, Ensures exec s p mid →
      (∀ a s', mid a s' → Ensures exec s' (f a) post) → Ensures exec s (p >>= f) post := by
  induction p with
  | ret a =>
    intro s h hf
    exact hf a s h
  | op o k ih =>
    rintro s ⟨hex, hall⟩ hf
    exact ⟨hex, fun r s' ho => ih r (hall r s' ho) hf⟩

theorem Ensures.of_runs {p : Program Reply α} {post : α → S → Prop} : ∀ {s s' : S} {a : α},
    Ensures exec s p post → Runs exec s p a s' → post a s' := by
  induction p with
  | ret a =>
    rintro s _ _ h ⟨rfl, rfl⟩
    exact h
  | op o k ih =>
    rintro s s' a ⟨-, hall⟩ ⟨r, s₁, ho, hr⟩
    exact ih r (hall r s₁ ho) hr

theorem Ensures.exists_runs {p : Program Reply α} {post : α → S → Prop} : ∀ {s : S},
    Ensures exec s p post → ∃ a s', Runs exec s p a s' := by
  induction p with
  | ret a => exact fun _ => ⟨a, _, rfl, rfl⟩
  | op o k ih =>
    rintro s ⟨⟨r, s₁, ho⟩, hall⟩
    obtain ⟨a, s', hr⟩ := ih r (hall r s₁ ho)
    exact ⟨a, s', r, s₁, ho, hr⟩

/-- What is certain of a program is certain of its rest, once a run has come through its first
part. -/
theorem Ensures.of_bind {p : Program Reply α} {f : α → Program Reply β} {post : β → S → Prop} :
    ∀ {s s' : S} {a : α}, Ensures exec s (p >>= f) post → Runs exec s p a s' →
      Ensures exec s' (f a) post := by
  induction p with
  | ret a =>
    rintro s _ _ h ⟨rfl, rfl⟩
    exact h
  | op o k ih =>
    rintro s s' a ⟨-, hall⟩ ⟨r, s₁, ho, hr⟩
    exact ih r (hall r s₁ ho) hr

/-! ### In another monad -/

/-- The program with each operation translated into a computation. -/
def interp {m : Type → Type} [Monad m] (handle : (o : Op) → m (Reply o)) : Program Reply α → m α
  | ret a => pure a
  | op o k => handle o >>= fun r => (k r).interp handle

theorem interp_bind {m : Type → Type} [Monad m] [LawfulMonad m] (handle : (o : Op) → m (Reply o))
    (p : Program Reply α) (f : α → Program Reply β) :
    (p >>= f).interp handle = p.interp handle >>= fun a => (f a).interp handle := by
  induction p with
  | ret a => rw [ret_bind, interp, pure_bind]
  | op o k ih =>
    rw [op_bind, interp, interp, bind_assoc]
    exact congrArg _ (funext ih)

/-- A computation that returns is a run of the program, seen through a map of states. -/
theorem Runs.of_interp {σ ε : Type} {handle : (o : Op) → StateT σ (Except ε) (Reply o)} (f : σ → S)
    (h : ∀ {o t r t'}, handle o t = .ok (r, t') → exec (f t) o r (f t')) {p : Program Reply α} :
    ∀ {t t' : σ} {b : α}, p.interp handle t = .ok (b, t') → Runs exec (f t) p b (f t') := by
  induction p with
  | ret a =>
    intro t t' b hp
    obtain ⟨rfl, rfl⟩ := Prod.mk.inj (Except.ok.inj hp)
    exact ⟨rfl, rfl⟩
  | op o k ih =>
    intro t t' b hp
    change ((handle o t).bind fun r => (k r.1).interp handle r.2) = .ok (b, t') at hp
    cases ho : handle o t with
    | error e => rw [ho] at hp; cases hp
    | ok r =>
      rw [ho] at hp
      exact ⟨r.1, f r.2, h ho, ih r.1 hp⟩

/-! ### Interleaved -/

/-- The atomic steps of a call, which is a program and what else is known of the call: one
operation, or the return, which hands the value over. -/
inductive CallStep {X : Type} (exec : Exec S Reply) (finish : X → α → S → S) :
    S → X × Program Reply α → S → Option (X × Program Reply α) → Prop
  | op {s s' x o k r} : exec s o r s' → CallStep exec finish s (x, op o k) s' (some (x, k r))
  | ret {s x a} : CallStep exec finish s (x, ret a) (finish x a s) none

/-- Calls of programs, interleaved operation by operation. -/
def system {X : Type} (exec : Exec S Reply) (finish : X → α → S → S)
    (start : S → Multiset (X × Program Reply α) → S → X × Program Reply α → Prop) :
    System S (X × Program Reply α) where
  start := start
  step := CallStep exec finish

/-- A call that comes through the first part of its program without interruption. -/
theorem run_part {X : Type} {finish : X → α → S → S}
    {start : S → Multiset (X × Program Reply α) → S → X × Program Reply α → Prop}
    {ok : System.Guard S (X × Program Reply α)} {exec' : Exec S Reply}
    {a : System.Config S (X × Program Reply α)} {cs : Multiset (X × Program Reply α)} {x : X}
    (hexec : ∀ {s o r s'}, exec s o r s' → exec' s o r s')
    (hok : ∀ {s o r s' k}, exec s o r s' → ok s cs (x, op o k) (some (x, k r)))
    {f : β → Program Reply α} {p : Program Reply β} : ∀ {s s' : S} {b : β}, Runs exec s p b s' →
      (system exec' finish start).Run ok a ⟨s, (x, p >>= f) ::ₘ cs⟩ →
        (system exec' finish start).Run ok a ⟨s', (x, f b) ::ₘ cs⟩ := by
  induction p with
  | ret b =>
    rintro s s' _ ⟨rfl, rfl⟩ hrun
    exact hrun
  | op o k ih =>
    rintro s s' b ⟨r, s₁, ho, hr⟩ hrun
    exact ih r hr (hrun.next (.op (hexec ho)) (hok ho))

end Program
