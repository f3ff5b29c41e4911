import Milu.Lib.Program
import Mathlib.Data.Multiset.MapFold

/-!
# Operations that take many steps

The operations of an abstract program happen at once. In the code each of them is a program of its
own, and other calls move between its steps. The code is right if an observer who only sees what the
operations did cannot tell: every run of the code is a run of the abstract program, in which each
operation happened at one of the steps that the code spent on it.

As with shares in general, a call is known to the others by its share alone. The code of one
operation is checked by itself, for any bag of other shares, and so is the abstract program, which
has to keep to the rules for the use of its operations.

An operation of the code may have to wait. One that is ready has to be possible.

## Main definitions

* `Program.Performs` — the code of an operation, which happens at one of its steps
* `Program.Uses` — an abstract program that keeps to the rules
* `Program.Simulates` — the rest of a call, and what is left of its abstract program
* `Program.Simulated` — a configuration of the code, and an abstract one

## Main results

* `Program.Runs.interp` — a program run alone, and its code
* `Program.Uses.simulates` — a program that keeps to the rules, with each operation replaced by its
  code
* `Program.Simulated.run` — every run of the code is an abstract run
* `Program.Simulated.exists_step` — a call whose next operation is ready can go on
-/

namespace Program

variable {S T Op Op' X H Share α β : Type} {Reply : Op → Type} {Reply' : Op' → Type}

/-! ### One call -/

section

variable (exec : Exec S Reply) (ready : S → Share → Op → Prop) (exec' : Exec T Reply')
  (Inv : S → T → Multiset Share → Prop)

/-- The operation of the abstract program has happened, with the reply `v`, which the code is about
to return. -/
def Closes (post : β → Share → Prop) (v : β) : Program Reply β → Share → Prop
  | ret w, sh => w = v ∧ post v sh
  | op o k, sh => ∀ s t others, Inv s t (sh ::ₘ others) →
      (ready s sh o → ∃ r s', exec s o r s') ∧
      ∀ r s', exec s o r s' → ∃ sh', Inv s' t (sh' ::ₘ others) ∧ Closes post v (k r) sh'

/-- The code of the operation `o'`, from the share `sh`. The operation happens at one of its steps,
and the share is right for the reply at the end. -/
def Performs (o' : Op') (post : Reply' o' → Share → Prop) :
    Program Reply (Reply' o') → Share → Prop
  | ret _, _ => False
  | op o k, sh => ∀ s t others, Inv s t (sh ::ₘ others) →
      (ready s sh o → ∃ r s', exec s o r s') ∧
      ∀ r s', exec s o r s' →
        (∃ sh', Inv s' t (sh' ::ₘ others) ∧ Performs o' post (k r) sh') ∨
          ∃ v t' sh', exec' t o' v t' ∧ Inv s' t' (sh' ::ₘ others) ∧
            Closes exec ready Inv post v (k r) sh'

/-- The rest of a call, what is left of its abstract program, and its share: a step of the code is
a step of the abstract program or none at all. -/
def Simulates (post : α → Share → Prop) : Program Reply α → Program Reply' α → Share → Prop
  | ret v, p, sh => p = ret v ∧ post v sh
  | op o k, p, sh => ∀ s t others, Inv s t (sh ::ₘ others) →
      (ready s sh o → ∃ r s', exec s o r s') ∧
      ∀ r s', exec s o r s' →
        (∃ sh', Inv s' t (sh' ::ₘ others) ∧ Simulates post (k r) p sh') ∨
          ∃ o' k' v t' sh', p = op o' k' ∧ exec' t o' v t' ∧ Inv s' t' (sh' ::ₘ others) ∧
            Simulates post (k r) (k' v) sh'

end

/-- A program that keeps to the rules: it performs an operation only when it may, by what it has,
and a reply changes what it has. -/
def Uses (may : Op' → H → Prop) (next : (o : Op') → Reply' o → H → H) (done : α → H → Prop) :
    Program Reply' α → H → Prop
  | ret v, h => done v h
  | op o k, h => may o h ∧ ∀ v, Uses may next done (k v) (next o v h)

theorem Uses.bind {may : Op' → H → Prop} {next : (o : Op') → Reply' o → H → H}
    {mid : β → H → Prop} {done : α → H → Prop} {f : β → Program Reply' α} {p : Program Reply' β} :
    ∀ {h : H}, Uses may next mid p h → (∀ v h', mid v h' → Uses may next done (f v) h') →
      Uses may next done (p >>= f) h := by
  induction p with
  | ret v =>
    intro h hp hf
    exact hf v h hp
  | op o k ih =>
    intro h hp hf
    exact ⟨hp.1, fun v => ih v (hp.2 v) hf⟩

variable {exec : Exec S Reply} {ready : S → Share → Op → Prop} {exec' : Exec T Reply'}
  {Inv : S → T → Multiset Share → Prop}

/-- A step of the code at which nothing happens. -/
theorem Performs.step {o' : Op'} {post : Reply' o' → Share → Prop} {o : Op} {r : Reply o}
    {k : Reply o → Program Reply (Reply' o')} {sh sh' : Share}
    (hstep : ∀ s t others, Inv s t (sh ::ₘ others) → ∃ s', exec s o r s' ∧
      (∀ r₁ s₁, exec s o r₁ s₁ → r₁ = r ∧ s₁ = s') ∧ Inv s' t (sh' ::ₘ others))
    (hk : Performs exec ready exec' Inv o' post (k r) sh') :
    Performs exec ready exec' Inv o' post (op o k) sh := by
  intro s t others hinv
  obtain ⟨s', ho, honly, hinv'⟩ := hstep s t others hinv
  refine ⟨fun _ => ⟨r, s', ho⟩, fun r₁ s₁ ho₁ => ?_⟩
  obtain ⟨rfl, rfl⟩ := honly r₁ s₁ ho₁
  exact .inl ⟨sh', hinv', hk⟩

/-- What follows an operation that has happened. -/
theorem Closes.simulates {post : β → Share → Prop} {done : α → Share → Prop} {v : β}
    {f : β → Program Reply α} {p : Program Reply' α} {c : Program Reply β}
    (hf : ∀ sh, post v sh → Simulates exec ready exec' Inv done (f v) p sh) : ∀ {sh : Share},
      Closes exec ready Inv post v c sh → Simulates exec ready exec' Inv done (c >>= f) p sh := by
  induction c with
  | ret w =>
    rintro sh ⟨rfl, hpost⟩
    exact hf sh hpost
  | op o k ih =>
    intro sh hc s t others hinv
    refine ⟨(hc s t others hinv).1, fun r s' ho => ?_⟩
    obtain ⟨sh', hinv', hk⟩ := (hc s t others hinv).2 r s' ho
    exact .inl ⟨sh', hinv', ih r hk⟩

/-- **The code of an operation**, and what follows it. -/
theorem Performs.simulates {o' : Op'} {post : Reply' o' → Share → Prop} {done : α → Share → Prop}
    {f : Reply' o' → Program Reply α} {g : Reply' o' → Program Reply' α}
    {c : Program Reply (Reply' o')}
    (hf : ∀ v sh, post v sh → Simulates exec ready exec' Inv done (f v) (g v) sh) :
    ∀ {sh : Share}, Performs exec ready exec' Inv o' post c sh →
      Simulates exec ready exec' Inv done (c >>= f) (op o' g) sh := by
  induction c with
  | ret v => exact fun hc => hc.elim
  | op o k ih =>
    intro sh hc s t others hinv
    refine ⟨(hc s t others hinv).1, fun r s' ho => ?_⟩
    rcases (hc s t others hinv).2 r s' ho with ⟨sh', hinv', hk⟩ | ⟨v, t', sh', ho', hinv', hk⟩
    · exact .inl ⟨sh', hinv', ih r hk⟩
    · exact .inr ⟨o', g, v, t', sh', rfl, ho', hinv', hk.simulates (hf v)⟩

/-- **A program that keeps to the rules** is simulated by its code. -/
theorem Uses.simulates {may : Op' → H → Prop} {next : (o : Op') → Reply' o → H → H}
    {done : α → H → Prop} {post : α → Share → Prop} {idle : H → Share}
    {code : (o : Op') → Program Reply (Reply' o)}
    (hcode : ∀ o h, may o h →
      Performs exec ready exec' Inv o (fun v sh => sh = idle (next o v h)) (code o) (idle h))
    (hdone : ∀ v h, done v h → post v (idle h)) {p : Program Reply' α} :
    ∀ {h : H}, Uses may next done p h →
      Simulates exec ready exec' Inv post (p.interp code) p (idle h) := by
  induction p with
  | ret v =>
    intro h hp
    exact ⟨rfl, hdone v h hp⟩
  | op o k ih =>
    intro h hp
    refine (hcode o h hp.1).simulates fun v sh hsh => ?_
    rw [hsh]
    exact ih v (hp.2 v)

/-- **The code of a program** comes to what the program comes to, when it is not interrupted and
each operation is carried out by its code. -/
theorem Runs.interp {R : S → T → Prop} {code : (o : Op') → Program Reply (Reply' o)}
    (hcode : ∀ s t o v t', R s t → exec' t o v t' → ∃ s', Runs exec s (code o) v s' ∧ R s' t')
    {p : Program Reply' α} : ∀ {s : S} {t t' : T} {v : α}, R s t → Runs exec' t p v t' →
      ∃ s', Runs exec s (p.interp code) v s' ∧ R s' t' := by
  induction p with
  | ret a =>
    rintro s t _ _ hR ⟨rfl, rfl⟩
    exact ⟨s, ⟨rfl, rfl⟩, hR⟩
  | op o k ih =>
    rintro s t t' v hR ⟨r, t₁, ho, hr⟩
    obtain ⟨s₁, h₁, hR₁⟩ := hcode s t o r t₁ hR ho
    obtain ⟨s', h₂, hR'⟩ := ih r hR₁ hr
    exact ⟨s', runs_bind_iff.mpr ⟨r, s₁, h₁, h₂⟩, hR'⟩

/-! ### All calls -/

/-- A call in progress: what is left of its code and of its abstract program, and its share. -/
structure Pair (X Share α : Type) {Op Op' : Type} (Reply : Op → Type) (Reply' : Op' → Type) where
  tag : X
  code : Program Reply α
  spec : Program Reply' α
  share : Share

namespace Pair

/-- The call as the code has it. -/
def call (d : Pair X Share α Reply Reply') : X × Program Reply α := (d.tag, d.code)

/-- The call of the abstract program. -/
def abstractCall (d : Pair X Share α Reply Reply') : X × Program Reply' α := (d.tag, d.spec)

end Pair

section

variable (exec : Exec S Reply) (ready : S → Share → Op → Prop) (exec' : Exec T Reply')
  (Inv : S → T → Multiset Share → Prop) (post : X → α → Share → Prop)

/-- The rest of a call simulates what is left of its abstract program. -/
def Pair.Good (d : Pair X Share α Reply Reply') : Prop :=
  Simulates exec ready exec' Inv (post d.tag) d.code d.spec d.share

/-- A configuration of the code, and one of the abstract program, call by call. -/
def Simulated (a : System.Config S (X × Program Reply α))
    (b : System.Config T (X × Program Reply' α)) : Prop :=
  ∃ bag : Multiset (Pair X Share α Reply Reply'), a.calls = bag.map Pair.call ∧
    b.calls = bag.map Pair.abstractCall ∧ Inv a.shared b.shared (bag.map Pair.share) ∧
      ∀ d ∈ bag, d.Good exec ready exec' Inv post

end

namespace Simulated

variable {post : X → α → Share → Prop} {finish : X → α → S → S} {finish' : X → α → T → T}
  {start : S → Multiset (X × Program Reply α) → S → X × Program Reply α → Prop}
  {start' : T → Multiset (X × Program Reply' α) → T → X × Program Reply' α → Prop}

theorem empty {s : S} {t : T} (h : Inv s t 0) :
    Simulated exec ready exec' Inv post (⟨s, 0⟩ : System.Config S (X × Program Reply α))
      (⟨t, 0⟩ : System.Config T (X × Program Reply' α)) :=
  ⟨0, by simp, by simp, by simpa using h, by simp⟩

theorem of_cons {s : S} {c : X × Program Reply α} {cs : Multiset (X × Program Reply α)}
    {b : System.Config T (X × Program Reply' α)}
    (h : Simulated exec ready exec' Inv post ⟨s, c ::ₘ cs⟩ b) :
    ∃ (d : Pair X Share α Reply Reply') (bag : Multiset (Pair X Share α Reply Reply')),
      d.call = c ∧ cs = bag.map Pair.call ∧
      b.calls = d.abstractCall ::ₘ bag.map Pair.abstractCall ∧
      Inv s b.shared (d.share ::ₘ bag.map Pair.share) ∧ d.Good exec ready exec' Inv post ∧
      ∀ e ∈ bag, e.Good exec ready exec' Inv post := by
  obtain ⟨bag, hcs, hbs, hinv, hgood⟩ := h
  have hmem : c ∈ bag.map Pair.call := hcs ▸ Multiset.mem_cons_self c cs
  obtain ⟨d, hd, rfl⟩ := Multiset.mem_map.mp hmem
  obtain ⟨rest, rfl⟩ := Multiset.exists_cons_of_mem hd
  simp only [Multiset.map_cons] at hcs hbs hinv
  exact ⟨d, rest, rfl, (Multiset.cons_inj_right _).mp hcs, hbs, hinv,
    hgood d (Multiset.mem_cons_self _ _), fun e he => hgood e (Multiset.mem_cons_of_mem he)⟩

theorem cons {s : S} {t : T} (d : Pair X Share α Reply Reply')
    {bag : Multiset (Pair X Share α Reply Reply')}
    (hinv : Inv s t (d.share ::ₘ bag.map Pair.share)) (hd : d.Good exec ready exec' Inv post)
    (hgood : ∀ e ∈ bag, e.Good exec ready exec' Inv post) :
    Simulated exec ready exec' Inv post ⟨s, d.call ::ₘ bag.map Pair.call⟩
      ⟨t, d.abstractCall ::ₘ bag.map Pair.abstractCall⟩ := by
  refine ⟨d ::ₘ bag, by simp, by simp, by simpa using hinv, fun e he => ?_⟩
  rcases Multiset.mem_cons.mp he with rfl | he
  · exact hd
  · exact hgood e he

/-- **Every run of the code is an abstract run.** Entering a call enters its abstract program, with
a share that is right for both, and a return finds a share that can be given up. -/
theorem run
    (hstart : ∀ {s t cs cs' s' x c shares}, Inv s t shares → start s cs s' (x, c) →
      ∃ t' p sh, start' t cs' t' (x, p) ∧ Inv s' t' (sh ::ₘ shares) ∧
        Simulates exec ready exec' Inv (post x) c p sh)
    (hfinish : ∀ {s t x v sh others}, Inv s t (sh ::ₘ others) → post x v sh →
      Inv (finish x v s) (finish' x v t) others)
    {a₀ a : System.Config S (X × Program Reply α)} {b₀ : System.Config T (X × Program Reply' α)}
    (hrun : (system exec finish start).Run System.anyStep a₀ a)
    (h₀ : Simulated exec ready exec' Inv post a₀ b₀) :
    ∃ b, (system exec' finish' start').Run System.anyStep b₀ b ∧
      Simulated exec ready exec' Inv post a b := by
  induction hrun with
  | refl => exact ⟨b₀, .refl, h₀⟩
  | tail _ hstep ih =>
    obtain ⟨⟨t, bs⟩, hrun, hsim⟩ := ih
    cases hstep with
    | @start s s' cs c hs =>
      obtain ⟨x, c⟩ := c
      obtain ⟨bag, rfl, rfl, hinv, hgood⟩ := hsim
      obtain ⟨t', p, sh, hs', hinv', hc⟩ := hstart hinv hs
      exact ⟨_, hrun.start hs', cons ⟨x, c, p, sh⟩ hinv' hc hgood⟩
    | next hs _ =>
      obtain ⟨⟨x, c, p, sh⟩, bag, rfl, rfl, rfl, hinv, hd, hgood⟩ := of_cons hsim
      cases hs with
      | op ho =>
        rcases (hd _ _ _ hinv).2 _ _ ho with
          ⟨sh', hinv', hk⟩ | ⟨o', k', v, t', sh', rfl, ho', hinv', hk⟩
        · exact ⟨_, hrun, cons ⟨x, _, p, sh'⟩ hinv' hk hgood⟩
        · exact ⟨_, hrun.next (.op ho') trivial, cons ⟨x, _, k' v, sh'⟩ hinv' hk hgood⟩
    | ret hs _ =>
      obtain ⟨⟨x, c, p, sh⟩, bag, rfl, rfl, rfl, hinv, hd, hgood⟩ := of_cons hsim
      cases hs with
      | ret =>
        obtain ⟨rfl, hpost⟩ := hd
        exact ⟨_, hrun.ret .ret trivial, bag, rfl, rfl, hfinish hinv hpost, hgood⟩

/-- **A call whose next operation is ready** can go on, and so can one that is about to return. -/
theorem exists_step {s : S} {t : T} {d : Pair X Share α Reply Reply'} {others : Multiset Share}
    (hinv : Inv s t (d.share ::ₘ others)) (hd : d.Good exec ready exec' Inv post)
    (hready : ∀ o k, d.code = op o k → ready s d.share o) :
    ∃ s' c', CallStep exec finish s d.call s' c' := by
  obtain ⟨x, c, p, sh⟩ := d
  cases c with
  | ret v => exact ⟨_, none, .ret⟩
  | op o k =>
    obtain ⟨r, s', ho⟩ := (hd s t others hinv).1 (hready o k rfl)
    exact ⟨s', _, .op ho⟩

end Simulated

end Program
