import Milu.Lib.Program
import Mathlib.Data.Multiset.MapFold

/-!
# Interleaved calls and their shares

An invariant of a system of interleaved calls often says of each call what part of the shared state
is in its charge: what it has taken and not yet given back, what it has done and not yet written
down. Such a part is called a share here. The invariant relates the shared state to the bag of all
shares; a step of a call trades the share of that call for another and leaves the rest of the bag
alone.

A program is then checked by itself, from its first operation to its last, without a word about the
other calls: at each operation, the invariant for any bag that has the present share in it leads to
the invariant for the same bag with the next share in its place.

## Main definitions

* `Program.Safe` — a program that can be run from a given share
* `Program.Kept` — a configuration whose calls have shares that satisfy the invariant

## Main results

* `Program.Safe.bind` — one program after the other
* `Program.Kept.run` — safe programs keep the invariant, however they are interleaved
-/

namespace Program

variable {S Op X Share α : Type} {Reply : Op → Type}

section

variable (exec : Exec S Reply) (ok : S → Program Reply α → Prop) (Inv : S → Multiset Share → Prop)

/-- The program can be run from the share `sh`: whatever the shared state and the other shares, an
operation that meets the condition `ok` leads to a share from which the rest can be run, and a
return leaves a share that is right for the value. -/
def Safe (post : α → Share → Prop) : Program Reply α → Share → Prop
  | ret a, sh => post a sh
  | op o k, sh => ∀ s others r s', Inv s (sh ::ₘ others) → ok s (op o k) → exec s o r s' →
      ∃ sh', Inv s' (sh' ::ₘ others) ∧ Safe post (k r) sh'

/-- Each call in progress has a share from which the rest of it can be run, and the shares satisfy
the invariant. -/
def Kept (post : X → α → Share → Prop) (s : S) (cs : Multiset (X × Program Reply α)) : Prop :=
  ∃ shares : Multiset ((X × Program Reply α) × Share), cs = shares.map Prod.fst ∧
    Inv s (shares.map Prod.snd) ∧ ∀ c ∈ shares, Safe exec ok Inv (post c.1.1) c.1.2 c.2

end

variable {exec : Exec S Reply} {ok : S → Program Reply α → Prop} {Inv : S → Multiset Share → Prop}
  {post : X → α → Share → Prop} {finish : X → α → S → S}
  {start : S → Multiset (X × Program Reply α) → S → X × Program Reply α → Prop}

theorem Safe.mono {post post' : α → Share → Prop} (himp : ∀ v sh, post v sh → post' v sh)
    {p : Program Reply α} : ∀ {sh : Share},
      Safe exec ok Inv post p sh → Safe exec ok Inv post' p sh := by
  induction p with
  | ret v =>
    intro sh hp
    exact himp v sh hp
  | op o k ih =>
    intro sh hp s others r s' hinv hs ho
    obtain ⟨sh', hinv', hk⟩ := hp s others r s' hinv hs ho
    exact ⟨sh', hinv', ih r hk⟩

/-- A program that can be run from a share, and another that can be run from any share it leaves. -/
theorem Safe.bind {β : Type} {ok' : S → Program Reply β → Prop} {mid : β → Share → Prop}
    {last : α → Share → Prop} {f : β → Program Reply α} {p : Program Reply β}
    (hok : ∀ s o k, ok s (op o k >>= f) → ok' s (op o k))
    (hf : ∀ v sh, mid v sh → Safe exec ok Inv last (f v) sh) : ∀ {sh : Share},
      Safe exec ok' Inv mid p sh → Safe exec ok Inv last (p >>= f) sh := by
  induction p with
  | ret v =>
    intro sh hp
    exact hf v sh hp
  | op o k ih =>
    intro sh hp s others r s' hinv hs ho
    obtain ⟨sh', hinv', hk⟩ := hp s others r s' hinv (hok s o k hs) ho
    exact ⟨sh', hinv', ih r hk⟩

namespace Kept

theorem empty {s : S} (h : Inv s 0) : Kept exec ok Inv post s 0 := ⟨0, rfl, h, by simp⟩

theorem inv {s : S} (h : Kept exec ok Inv post s 0) : Inv s 0 := by
  obtain ⟨shares, hcs, hinv, -⟩ := h
  rw [Multiset.map_eq_zero.mp hcs.symm] at hinv
  exact hinv

theorem of_cons {s : S} {c : X × Program Reply α} {cs : Multiset (X × Program Reply α)}
    (h : Kept exec ok Inv post s (c ::ₘ cs)) :
    ∃ sh shares, cs = Multiset.map Prod.fst shares ∧ Inv s (sh ::ₘ shares.map Prod.snd) ∧
      Safe exec ok Inv (post c.1) c.2 sh ∧
      ∀ d ∈ shares, Safe exec ok Inv (post d.1.1) d.1.2 d.2 := by
  obtain ⟨shares, hcs, hinv, hsafe⟩ := h
  have hmem : c ∈ shares.map Prod.fst := hcs ▸ Multiset.mem_cons_self c cs
  obtain ⟨⟨c', sh⟩, hd, rfl⟩ := Multiset.mem_map.mp hmem
  obtain ⟨rest, rfl⟩ := Multiset.exists_cons_of_mem hd
  rw [Multiset.map_cons, Multiset.cons_inj_right] at hcs
  rw [Multiset.map_cons] at hinv
  exact ⟨sh, rest, hcs, hinv, hsafe _ (Multiset.mem_cons_self _ _),
    fun d hd => hsafe d (Multiset.mem_cons_of_mem hd)⟩

theorem cons {s : S} {c : X × Program Reply α} {sh : Share}
    {shares : Multiset ((X × Program Reply α) × Share)}
    (hinv : Inv s (sh ::ₘ shares.map Prod.snd)) (hc : Safe exec ok Inv (post c.1) c.2 sh)
    (hsafe : ∀ d ∈ shares, Safe exec ok Inv (post d.1.1) d.1.2 d.2) :
    Kept exec ok Inv post s (c ::ₘ shares.map Prod.fst) := by
  refine ⟨(c, sh) ::ₘ shares, by rw [Multiset.map_cons], by rwa [Multiset.map_cons], ?_⟩
  intro d hd
  rcases Multiset.mem_cons.mp hd with rfl | hd
  · exact hc
  · exact hsafe d hd

/-- **Safe programs keep the invariant.** Entering a call must make a share from which the call can
be run, and a return must find a share that can be given up. -/
theorem run
    (hstart : ∀ {s cs s' c shares}, Inv s shares → start s cs s' c →
      ∃ sh, Inv s' (sh ::ₘ shares) ∧ Safe exec ok Inv (post c.1) c.2 sh)
    (hfinish : ∀ {s x a sh others}, Inv s (sh ::ₘ others) → post x a sh →
      Inv (finish x a s) others)
    {a b : System.Config S (X × Program Reply α)}
    (hrun : (system exec finish start).Run (fun s _ c _ => ok s c.2) a b)
    (ha : Kept exec ok Inv post a.shared a.calls) : Kept exec ok Inv post b.shared b.calls := by
  refine System.Run.invariant (I := Kept exec ok Inv post) ?_ ?_ ?_ hrun ha
  · rintro s cs s' c ⟨shares, rfl, hinv, hsafe⟩ hs
    obtain ⟨sh, hinv', hc⟩ := hstart hinv hs
    exact cons hinv' hc hsafe
  · intro s c cs s' c' hkept hs hok
    obtain ⟨sh, shares, rfl, hinv, hc, hsafe⟩ := of_cons hkept
    cases hs with
    | op hexec =>
      obtain ⟨sh', hinv', hc'⟩ := hc _ _ _ _ hinv hok hexec
      exact cons hinv' hc' hsafe
  · intro s c cs s' hkept hs _
    obtain ⟨sh, shares, rfl, hinv, hc, hsafe⟩ := of_cons hkept
    cases hs with
    | ret => exact ⟨shares, rfl, hfinish hinv hc, hsafe⟩

end Kept

end Program
