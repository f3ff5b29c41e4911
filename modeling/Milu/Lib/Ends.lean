import Mathlib.Order.Defs.Unbundled
import Mathlib.Tactic.Common

/-!
# Computations that may get stuck

A computation on a state returns a value and a state, or gets stuck for a reason. `Ends` says how it
does one or the other, and is proved along the text of the computation.

## Main definitions

* `Ends` — how a computation ends when started in a state
* `IfReturns` — how it ends when it returns
* `Moves` — what a computation may do to the state, whichever it is
* `Mirrors` — a computation that does what one on another state does

## Main results

* `ends_bind_iff`, `Ends.bind` — one computation after the other
* `bind_of_ok`, `bind_of_error`, `bind_local_of_ok` — a first part whose end is known
* `Moves.bind` — what each part of a computation may do, all of it may do
* `Mirrors.bind` — computations that mirror others, one after the other
-/

section

variable {S E α β : Type}

/-- Started in `s`, the computation returns what `post` allows or gets stuck as `bad` allows. -/
def Ends (x : StateT S (Except E) α) (s : S) (post : α → S → Prop) (bad : E → Prop) : Prop :=
  match x s with
  | .ok (a, s') => post a s'
  | .error e => bad e

variable {x : StateT S (Except E) α} {f : α → StateT S (Except E) β} {s s' : S} {a : α} {e : E}
  {post : α → S → Prop} {bad : E → Prop}

theorem bind_of_ok (h : x s = .ok (a, s')) (f : α → StateT S (Except E) β) :
    (x >>= f) s = f a s' := by
  show (x s >>= fun r => f r.1 r.2) = _
  rw [h]
  rfl

theorem bind_of_error (h : x s = .error e) (f : α → StateT S (Except E) β) :
    (x >>= f) s = .error e := by
  show (x s >>= fun r => f r.1 r.2) = _
  rw [h]
  rfl

theorem bind_local_of_ok {A : Type} {x : StateT A (StateT S (Except E)) α} {c c' : A}
    (h : x c s = .ok ((a, c'), s')) (f : α → StateT A (StateT S (Except E)) β) :
    (x >>= f) c s = f a c' s' :=
  bind_of_ok h fun r => f r.1 r.2

theorem bind_local_of_error {A : Type} {x : StateT A (StateT S (Except E)) α} {c : A}
    (h : x c s = .error e) (f : α → StateT A (StateT S (Except E)) β) :
    (x >>= f) c s = .error e :=
  bind_of_error h fun r => f r.1 r.2

/-- A computation returns one thing. -/
theorem ok_unique {b : α} {t : S} (ha : x s = .ok (a, s')) (hb : x s = .ok (b, t)) :
    a = b ∧ s' = t :=
  Prod.mk.inj (Except.ok.inj (ha.symm.trans hb))

theorem ends_of_ok (h : x s = .ok (a, s')) (hpost : post a s') : Ends x s post bad := by
  rw [Ends, h]
  exact hpost

theorem ends_of_error (h : x s = .error e) (hbad : bad e) : Ends x s post bad := by
  rw [Ends, h]
  exact hbad

theorem ends_of_eq {y : StateT S (Except E) α} (h : x s = y s') (hy : Ends y s' post bad) :
    Ends x s post bad := by
  rw [Ends, h]
  exact hy

theorem ends_bind_iff {post : β → S → Prop} : Ends (x >>= f) s post bad ↔
    Ends x s (fun a s' => Ends (f a) s' post bad) bad := by
  rw [Ends, Ends]
  cases hx : x s with
  | error e => rw [bind_of_error hx f]
  | ok r =>
    rw [bind_of_ok hx f]
    rfl

theorem Ends.mono {post' : α → S → Prop} {bad' : E → Prop} (h : Ends x s post bad)
    (hpost : ∀ a s', post a s' → post' a s') (hbad : ∀ e, bad e → bad' e) :
    Ends x s post' bad' := by
  rw [Ends] at h ⊢
  split at h
  · exact hpost _ _ h
  · exact hbad _ h

theorem Ends.bind {post : β → S → Prop} {mid : α → S → Prop} (h : Ends x s mid bad)
    (hf : ∀ a s', mid a s' → Ends (f a) s' post bad) : Ends (x >>= f) s post bad :=
  ends_bind_iff.mpr (h.mono hf fun _ he => he)

theorem Ends.of_ok (h : Ends x s post bad) (hx : x s = .ok (a, s')) : post a s' := by
  rwa [Ends, hx] at h

theorem Ends.of_error (h : Ends x s post bad) (hx : x s = .error e) : bad e := by
  rwa [Ends, hx] at h

/-- If the computation returns, it does as `post` says. -/
abbrev IfReturns (x : StateT S (Except E) α) (s : S) (post : α → S → Prop) : Prop :=
  Ends x s post fun _ => True

theorem Ends.ifReturns (h : Ends x s post bad) : IfReturns x s post :=
  h.mono (fun _ _ hpost => hpost) fun _ _ => trivial

/-! ### What a computation may do to the state -/

/-- Started anywhere, the computation ends in a state that `rel` allows from there. -/
def Moves (rel : S → S → Prop) (bad : E → Prop) (x : StateT S (Except E) α) : Prop :=
  ∀ s, Ends x s (fun _ s' => rel s s') bad

variable {rel : S → S → Prop}

theorem Moves.pure [Std.Refl rel] (a : α) :
    Moves rel bad (Pure.pure a : StateT S (Except E) α) := fun s => refl_of rel s

theorem Moves.get [Std.Refl rel] : Moves rel bad (MonadState.get : StateT S (Except E) S) :=
  fun s => refl_of rel s

theorem Moves.modify {g : S → S} (hg : ∀ s, rel s (g s)) :
    Moves rel bad (modify g : StateT S (Except E) PUnit) := fun s => hg s

theorem Moves.bind [IsTrans S rel] (hx : Moves rel bad x) (hf : ∀ a, Moves rel bad (f a)) :
    Moves rel bad (x >>= f) := fun s =>
  (hx s).bind fun a s₁ h₁ => (hf a s₁).mono (fun _ _ h₂ => trans_of rel h₁ h₂) fun _ he => he

/-! ### Computations on two states -/

variable {T : Type} {R : S → T → Prop}

/-- Started in states that `R` relates, `y` does what `x` does: it returns the same value in related
states, or gets stuck for the reason `e`. -/
def Mirrors (R : S → T → Prop) (e : E) (x : StateT S Option α) (y : StateT T (Except E) α) : Prop :=
  ∀ s t, R s t → (x s).elim (y t = .error e) fun r => ∃ t', y t = .ok (r.1, t') ∧ R r.2 t'

theorem Mirrors.pure (a : α) :
    Mirrors R e (Pure.pure a : StateT S Option α) (Pure.pure a : StateT T (Except E) α) :=
  fun _ t h => ⟨t, rfl, h⟩

theorem Mirrors.stuck {y : StateT T (Except E) α} (hy : ∀ t, y t = .error e) :
    Mirrors R e (failure : StateT S Option α) y := fun _ t _ => hy t

theorem Mirrors.bind {x : StateT S Option α} {y : StateT T (Except E) α}
    {f : α → StateT S Option β} {g : α → StateT T (Except E) β} (hx : Mirrors R e x y)
    (hf : ∀ a, Mirrors R e (f a) (g a)) : Mirrors R e (x >>= f) (y >>= g) := by
  intro s t h
  have hfirst := hx s t h
  show ((x s).bind fun r => f r.1 r.2).elim _ _
  cases hxs : x s with
  | none =>
    rw [hxs] at hfirst
    exact bind_of_error hfirst g
  | some r =>
    rw [hxs] at hfirst
    obtain ⟨t₁, hyt, h₁⟩ := hfirst
    rw [bind_of_ok hyt g]
    exact hf r.1 r.2 t₁ h₁

theorem Mirrors.of_some {x : StateT S Option α} {y : StateT T (Except E) α} (h : Mirrors R e x y)
    {t : T} (hR : R s t) (hx : x s = some (a, s')) : ∃ t', y t = .ok (a, t') ∧ R s' t' := by
  have hst := h s t hR
  rwa [hx] at hst

theorem Mirrors.of_none {x : StateT S Option α} {y : StateT T (Except E) α} (h : Mirrors R e x y)
    {t : T} (hR : R s t) (hx : x s = none) : y t = .error e := by
  have hst := h s t hR
  rwa [hx] at hst

end
