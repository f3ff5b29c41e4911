import Mathlib.Data.List.Nodup
import Mathlib.Data.Set.Insert
import Mathlib.Logic.Function.Basic

/-!
# Doubly linked loops

Nodes with a link to the next and one to the previous node, in a memory of links that other nodes
live in too. A loop starts at its head, visits a list of nodes and comes back to the head; every
link forward is undone by the link back. An insertion writes four links and a removal two. When the
loop is short some of these are links of the head itself, and no case is left out.

Several loops share the memory. A write into one of them is not seen by the others, since no node is
on two.

## Main definitions

* `Links`, `Links.insert`, `Links.remove` — the memory, and the writes of an insertion and a removal
* `Links.Path`, `Links.Loop` — what the links spell out
* `Links.SameOn` — nothing was written there
* `Links.Loops` — several loops with no node in common

## Main results

* `Links.Path.insert_last`, `Links.Path.remove_first` — behind the last node, and the first node
* `Links.Path.append_iff` — a path through a node is two paths
* `Links.Loop.rotate` — a loop looks the same from each of its nodes
* `Links.Loop.inverse` — the two links of a node of a loop are inverse to each other
* `Links.Loops.insert_last`, `Links.Loops.remove_first`, `Links.Loops.add`,
  `Links.Loops.insert_first`, `Links.Loops.remove` — a loop is changed or added, and the others are
  not
-/

/-- The links of every node. -/
structure Links (α : Type) where
  next : α → α
  prev : α → α

namespace Links

section

variable {α : Type} {m m' m'' : Links α} {a b h x : α} {l : List α} {hs : Set α} {σ : α → List α}

/-- Nothing was written into the links of these nodes. -/
def SameOn (m m' : Links α) (l : List α) : Prop :=
    ∀ x ∈ l, m'.next x = m.next x ∧ m'.prev x = m.prev x

theorem SameOn.refl (m : Links α) (l : List α) : m.SameOn m l := fun _ _ => ⟨rfl, rfl⟩

theorem SameOn.trans (h : m.SameOn m' l) (h' : m'.SameOn m'' l) : m.SameOn m'' l :=
  fun x hx => ⟨(h' x hx).1.trans (h x hx).1, (h' x hx).2.trans (h x hx).2⟩

/-! ### Paths -/

/-- From `a` the links lead over `l` to `b`, and back. -/
def Path (m : Links α) : α → List α → α → Prop
  | a, [], b => m.next a = b ∧ m.prev b = a
  | a, x :: l, b => (m.next a = x ∧ m.prev x = a) ∧ Path m x l b

namespace Path

/-- Only the links on the way matter. -/
theorem congr : ∀ {l : List α} {a : α}, m.Path a l b → (∀ x ∈ a :: l, m'.next x = m.next x) →
    (∀ x ∈ b :: l, m'.prev x = m.prev x) → m'.Path a l b
  | [], a, h, hnext, hprev =>
    ⟨(hnext a List.mem_cons_self).trans h.1, (hprev b List.mem_cons_self).trans h.2⟩
  | x :: l, a, h, hnext, hprev => by
    have hx : x ∈ b :: x :: l := List.mem_cons_of_mem _ List.mem_cons_self
    refine ⟨⟨(hnext a List.mem_cons_self).trans h.1.1, (hprev x hx).trans h.1.2⟩, ?_⟩
    refine h.2.congr (fun y hy => hnext y (List.mem_cons_of_mem _ hy)) fun y hy => hprev y ?_
    rcases List.mem_cons.mp hy with rfl | hy
    · exact List.mem_cons_self
    · exact List.mem_cons_of_mem _ (List.mem_cons_of_mem _ hy)

/-- **A path through a node** is two paths. -/
theorem append_iff {l₂ : List α} : ∀ {l₁ : List α} {a : α},
    m.Path a (l₁ ++ x :: l₂) b ↔ m.Path a l₁ x ∧ m.Path x l₂ b
  | [], _ => Iff.rfl
  | _ :: _, _ => (and_congr_right' append_iff).trans and_assoc.symm

theorem prev_mem : ∀ {l : List α} {a : α}, m.Path a l b → m.prev b ∈ a :: l
  | [], _, h => List.mem_singleton.mpr h.2
  | _ :: _, _, h => List.mem_cons_of_mem _ h.2.prev_mem

theorem next_mem (h : m.Path a l b) : m.next a ∈ b :: l := by
  cases l with
  | nil => exact List.mem_singleton.mpr h.1
  | cons x l =>
    rw [h.1.1]
    exact List.mem_cons_of_mem _ List.mem_cons_self

theorem prev_next : ∀ {l : List α} {a : α}, m.Path a l b → ∀ x ∈ a :: l, m.prev (m.next x) = x
  | [], a, h, x, hx => by
    obtain rfl := List.mem_singleton.mp hx
    rw [h.1, h.2]
  | y :: l, a, h, x, hx => by
    rcases List.mem_cons.mp hx with rfl | hx
    · rw [h.1.1, h.1.2]
    · exact h.2.prev_next x hx

theorem next_prev : ∀ {l : List α} {a : α}, m.Path a l b → ∀ x ∈ b :: l, m.next (m.prev x) = x
  | [], a, h, x, hx => by
    obtain rfl := List.mem_singleton.mp hx
    rw [h.2, h.1]
  | y :: l, a, h, x, hx => by
    by_cases hxy : x = y
    · rw [hxy, h.1.2, h.1.1]
    · refine h.2.next_prev x ?_
      rcases List.mem_cons.mp hx with rfl | hx
      · exact List.mem_cons_self
      · exact List.mem_cons_of_mem _ ((List.mem_cons.mp hx).resolve_left hxy)

end Path

/-! ### Loops -/

/-- From the head the links lead over `l` back to the head, and no node is visited twice. -/
structure Loop (m : Links α) (h : α) (l : List α) : Prop where
  nodup : (h :: l).Nodup
  path : m.Path h l h

namespace Loop

theorem congr (hl : m.Loop h l) (hsame : m.SameOn m' (h :: l)) : m'.Loop h l :=
  ⟨hl.nodup, hl.path.congr (fun x hx => (hsame x hx).1) fun x hx => (hsame x hx).2⟩

theorem prev_mem (hl : m.Loop h l) : m.prev h ∈ h :: l := hl.path.prev_mem

theorem next_mem (hl : m.Loop h l) : m.next h ∈ h :: l := hl.path.next_mem

/-- **A loop looks the same from each of its nodes.** -/
theorem rotate {l₁ l₂ : List α} : m.Loop h (l₁ ++ x :: l₂) → m.Loop x (l₂ ++ h :: l₁) := by
  intro hl
  refine ⟨?_, Path.append_iff.mpr (Path.append_iff.mp hl.path).symm⟩
  have hperm : (x :: (l₂ ++ h :: l₁)).Perm (h :: (l₁ ++ x :: l₂)) := by
    refine (List.perm_middle.cons x).trans ((List.Perm.swap h x _).trans ?_)
    exact ((List.perm_append_comm.cons x).trans List.perm_middle.symm).cons h
  exact hperm.nodup_iff.mpr hl.nodup

theorem links_mem (hl : m.Loop h l) (hx : x ∈ h :: l) : m.next x ∈ h :: l ∧ m.prev x ∈ h :: l := by
  rcases List.mem_cons.mp hx with rfl | hx
  · exact ⟨hl.next_mem, hl.prev_mem⟩
  · obtain ⟨l₁, l₂, rfl⟩ := List.append_of_mem hx
    have hsame : ∀ {y}, y ∈ x :: (l₂ ++ h :: l₁) → y ∈ h :: (l₁ ++ x :: l₂) := by
      intro y hy
      simp only [List.mem_cons, List.mem_append] at hy ⊢
      tauto
    exact ⟨hsame hl.rotate.next_mem, hsame hl.rotate.prev_mem⟩

/-- **The links of a loop are inverse to each other.** -/
theorem inverse (hl : m.Loop h l) (hx : x ∈ h :: l) :
    m.prev (m.next x) = x ∧ m.next (m.prev x) = x :=
  ⟨hl.path.prev_next x hx, hl.path.next_prev x hx⟩

theorem next_eq_iff (hl : m.Loop h l) : m.next h = h ↔ l = [] := by
  cases l with
  | nil => exact iff_of_true hl.path.1 rfl
  | cons x l =>
    rw [hl.path.1.1]
    exact iff_of_false (List.ne_of_not_mem_cons (List.nodup_cons.mp hl.nodup).1).symm
      (List.cons_ne_nil _ _)

end Loop

/-! ### Several loops -/

/-- The lists that `σ` names are loops through the heads `hs`, and no two of these meet. -/
structure Loops (m : Links α) (hs : Set α) (σ : α → List α) : Prop where
  loop : ∀ h ∈ hs, m.Loop h (σ h)
  apart : ∀ h ∈ hs, ∀ h' ∈ hs, h ≠ h' → (h :: σ h).Disjoint (h' :: σ h')

/-- Is the node on one of the loops? The heads are. -/
def OnLoop (hs : Set α) (σ : α → List α) (x : α) : Prop := ∃ h ∈ hs, x ∈ h :: σ h

theorem Loops.congr (hm : m.Loops hs σ) (hsame : ∀ h ∈ hs, m.SameOn m' (h :: σ h)) :
    m'.Loops hs σ :=
  ⟨fun h hh => (hm.loop h hh).congr (hsame h hh), hm.apart⟩

end

/-! ### Writes -/

variable {α : Type} [DecidableEq α] {m m' : Links α} {a b e h p n : α} {l : List α} {hs : Set α}
  {σ : α → List α}

def setNext (m : Links α) (a b : α) : Links α := { m with next := Function.update m.next a b }

def setPrev (m : Links α) (a b : α) : Links α := { m with prev := Function.update m.prev a b }

/-- The node `e` comes between `p` and `n`. -/
def insert (m : Links α) (e p n : α) : Links α :=
  (((m.setPrev n e).setNext e n).setPrev e p).setNext p e

/-- What is between `p` and `n` is left out. -/
def remove (m : Links α) (p n : α) : Links α := (m.setPrev n p).setNext p n

theorem insert_next :
    (m.insert e p n).next = Function.update (Function.update m.next e n) p e := rfl

theorem insert_prev :
    (m.insert e p n).prev = Function.update (Function.update m.prev n e) e p := rfl

theorem remove_next : (m.remove p n).next = Function.update m.next p n := rfl

theorem remove_prev : (m.remove p n).prev = Function.update m.prev n p := rfl

namespace SameOn

theorem setNext (ha : a ∉ l) : m.SameOn (m.setNext a b) l := fun _ hx =>
  ⟨Function.update_of_ne (ne_of_mem_of_not_mem hx ha) _ _, rfl⟩

theorem setPrev (ha : a ∉ l) : m.SameOn (m.setPrev a b) l := fun _ hx =>
  ⟨rfl, Function.update_of_ne (ne_of_mem_of_not_mem hx ha) _ _⟩

theorem insert (he : e ∉ l) (hp : p ∉ l) (hn : n ∉ l) : m.SameOn (m.insert e p n) l :=
  (((setPrev hn).trans (setNext he)).trans (setPrev he)).trans (setNext hp)

theorem remove (hp : p ∉ l) (hn : n ∉ l) : m.SameOn (m.remove p n) l :=
  (setPrev hn).trans (setNext hp)

end SameOn

namespace Path

/-- **A new last node** comes in before the end. -/
theorem insert_last (he : e ≠ b) : ∀ {l : List α} {a : α}, m.Path a l b → (a :: l).Nodup → b ∉ l →
    e ∉ a :: l → (m.insert e (m.prev b) b).Path a (l ++ [e]) b
  | [], a, h, _, _, hea => by
    have hea : e ≠ a := List.ne_of_not_mem_cons hea
    rw [h.2]
    refine ⟨⟨?_, ?_⟩, ?_, ?_⟩
    · rw [insert_next, Function.update_self]
    · rw [insert_prev, Function.update_self]
    · rw [insert_next, Function.update_of_ne hea, Function.update_self]
    · rw [insert_prev, Function.update_of_ne he.symm, Function.update_self]
  | x :: l, a, h, hnodup, hb, hea => by
    obtain ⟨ha, hnodup⟩ := List.nodup_cons.mp hnodup
    obtain ⟨hbx, hbl⟩ := not_or.mp (mt List.mem_cons.mpr hb)
    obtain ⟨hae, hel⟩ := not_or.mp (mt List.mem_cons.mpr hea)
    have hp : a ≠ m.prev b := fun hc => ha (hc ▸ h.2.prev_mem)
    refine ⟨⟨?_, ?_⟩, h.2.insert_last he hnodup hbl hel⟩
    · rw [insert_next, Function.update_of_ne hp, Function.update_of_ne (Ne.symm hae)]
      exact h.1.1
    · have hxe : x ≠ e := (List.ne_of_not_mem_cons hel).symm
      rw [insert_prev, Function.update_of_ne hxe, Function.update_of_ne (Ne.symm hbx)]
      exact h.1.2

/-- **The first node** is left out. -/
theorem remove_first (h : m.Path a (e :: l) b) (hnodup : (a :: l).Nodup) (hb : b ∉ l) :
    (m.remove a (m.next e)).Path a l b := by
  cases l with
  | nil =>
    rw [h.2.1]
    exact ⟨by rw [remove_next, Function.update_self], by rw [remove_prev, Function.update_self]⟩
  | cons x l =>
    obtain ⟨ha, hnodup⟩ := List.nodup_cons.mp hnodup
    rw [h.2.1.1]
    refine ⟨⟨by rw [remove_next, Function.update_self], by rw [remove_prev, Function.update_self]⟩,
      h.2.2.congr (fun y hy => ?_) fun y hy => ?_⟩
    · rw [remove_next, Function.update_of_ne (ne_of_mem_of_not_mem hy ha)]
    · have hyx : y ≠ x := by
        rcases List.mem_cons.mp hy with rfl | hy
        · exact List.ne_of_not_mem_cons hb
        · exact ne_of_mem_of_not_mem hy (List.nodup_cons.mp hnodup).1
      rw [remove_prev, Function.update_of_ne hyx]

end Path

/-! ### Writes into one loop of several -/

namespace Loop

theorem single : ((m.setNext h h).setPrev h h).Loop h [] :=
  ⟨List.nodup_singleton h, Function.update_self .., Function.update_self ..⟩

theorem insert_last (hl : m.Loop h l) (he : e ∉ h :: l) :
    (m.insert e (m.prev h) h).Loop h (l ++ [e]) := by
  constructor
  · have := hl.nodup.concat he
    rwa [List.concat_eq_append] at this
  · exact hl.path.insert_last (List.ne_of_not_mem_cons he) hl.nodup
      (List.nodup_cons.mp hl.nodup).1 he

theorem remove_first (hl : m.Loop h (e :: l)) : (m.remove h (m.next e)).Loop h l := by
  have hnodup : (h :: l).Nodup := hl.nodup.sublist ((List.sublist_cons_self e l).cons_cons h)
  exact ⟨hnodup, hl.path.remove_first hnodup (List.nodup_cons.mp hnodup).1⟩

/-- A new first node is the last one as seen from the node it is put in front of. -/
theorem insert_first (hl : m.Loop h l) (he : e ∉ h :: l) :
    (m.insert e h (m.next h)).Loop h (e :: l) := by
  cases l with
  | nil =>
    have hlast := hl.insert_last he
    rw [hl.path.2] at hlast
    rw [hl.path.1]
    exact hlast
  | cons x l =>
    obtain ⟨⟨hnext, hprev⟩, -⟩ := hl.path
    have hturned : m.Loop h ([] ++ x :: l) := hl
    have hfrom : m.Loop x (l ++ [h]) := hturned.rotate
    have hlast := hfrom.insert_last (e := e) fun hc => he <| by
      simp only [List.mem_cons, List.mem_append] at hc ⊢
      tauto
    rw [hprev, List.append_assoc, List.singleton_append] at hlast
    rw [hnext]
    exact hlast.rotate

/-- A node that is left out is the first one as seen from the node before it. -/
theorem remove {l₁ l₂ : List α} (hl : m.Loop h (l₁ ++ e :: l₂)) :
    (m.remove (m.prev e) (m.next e)).Loop h (l₁ ++ l₂) := by
  rcases l₁.eq_nil_or_concat with rfl | ⟨l₁, p, rfl⟩
  · rw [hl.path.1.2]
    exact remove_first hl
  · rw [List.concat_eq_append, List.append_assoc] at hl ⊢
    have hfrom : m.Loop p (e :: (l₂ ++ h :: l₁)) := rotate hl
    rw [hfrom.path.1.2]
    exact rotate hfrom.remove_first

end Loop

namespace Loops

/-- One loop is changed or added. Its nodes are on none of the others, and these are not written
to. -/
theorem update (hm : m.Loops hs σ) (hl : m'.Loop h l)
    (hfree : ∀ h' ∈ hs, h' ≠ h → (h :: l).Disjoint (h' :: σ h'))
    (hsame : ∀ h' ∈ hs, h' ≠ h → m.SameOn m' (h' :: σ h')) :
    m'.Loops (Insert.insert h hs) (Function.update σ h l) := by
  constructor
  · intro h' hh'
    by_cases heq : h' = h
    · rw [heq, Function.update_self]
      exact hl
    · rw [Function.update_of_ne heq]
      have hmem := hh'.resolve_left heq
      exact (hm.loop h' hmem).congr (hsame h' hmem heq)
  · intro h₁ hh₁ h₂ hh₂ hne
    by_cases heq₁ : h₁ = h
    · have heq₂ : h₂ ≠ h := fun hc => hne (heq₁.trans hc.symm)
      rw [heq₁, Function.update_self, Function.update_of_ne heq₂]
      exact hfree h₂ (hh₂.resolve_left heq₂) heq₂
    · rw [Function.update_of_ne heq₁]
      have hmem₁ := hh₁.resolve_left heq₁
      by_cases heq₂ : h₂ = h
      · rw [heq₂, Function.update_self]
        exact List.disjoint_symm (hfree h₁ hmem₁ heq₁)
      · rw [Function.update_of_ne heq₂]
        exact hm.apart h₁ hmem₁ h₂ (hh₂.resolve_left heq₂) hne

/-- **A new loop** with nothing on it but its head. -/
theorem add (hm : m.Loops hs σ) (hh : ¬ OnLoop hs σ h) :
    ((m.setNext h h).setPrev h h).Loops (Insert.insert h hs) (Function.update σ h []) ∧
      ∀ h' ∈ hs, m.SameOn ((m.setNext h h).setPrev h h) (h' :: σ h') := by
  have hoff : ∀ h' ∈ hs, h ∉ h' :: σ h' := fun h' hh' hc => hh ⟨h', hh', hc⟩
  have hsame : ∀ h' ∈ hs, m.SameOn ((m.setNext h h).setPrev h h) (h' :: σ h') := fun h' hh' =>
    (SameOn.setNext (hoff h' hh')).trans (SameOn.setPrev (hoff h' hh'))
  refine ⟨hm.update .single (fun h' hh' _ => ?_) fun h' hh' _ => hsame h' hh', hsame⟩
  exact List.disjoint_cons_left.mpr ⟨hoff h' hh', List.disjoint_nil_left _⟩

/-- **A node joins a loop** as its last node. -/
theorem insert_last (hm : m.Loops hs σ) (hh : h ∈ hs) (he : ¬ OnLoop hs σ e) :
    (m.insert e (m.prev h) h).Loops hs (Function.update σ h (σ h ++ [e])) ∧
      ∀ h' ∈ hs, h' ≠ h → m.SameOn (m.insert e (m.prev h) h) (h' :: σ h') := by
  have hoff : ∀ h' ∈ hs, e ∉ h' :: σ h' := fun h' hh' hc => he ⟨h', hh', hc⟩
  have hsame : ∀ h' ∈ hs, h' ≠ h → m.SameOn (m.insert e (m.prev h) h) (h' :: σ h') := by
    intro h' hh' hne
    have hapart := hm.apart h hh h' hh' hne.symm
    exact .insert (hoff h' hh') (hapart (hm.loop h hh).prev_mem) (hapart List.mem_cons_self)
  refine ⟨?_, hsame⟩
  have hnew := hm.update ((hm.loop h hh).insert_last (hoff h hh)) (fun h' hh' hne => ?_) hsame
  · rwa [Set.insert_eq_of_mem hh] at hnew
  · rw [← List.cons_append, List.disjoint_append_left]
    exact ⟨hm.apart h hh h' hh' hne.symm, List.singleton_disjoint.mpr (hoff h' hh')⟩

/-- **A node joins a loop** as its first node. -/
theorem insert_first (hm : m.Loops hs σ) (hh : h ∈ hs) (he : ¬ OnLoop hs σ e) :
    (m.insert e h (m.next h)).Loops hs (Function.update σ h (e :: σ h)) ∧
      ∀ h' ∈ hs, h' ≠ h → m.SameOn (m.insert e h (m.next h)) (h' :: σ h') := by
  have hoff : ∀ h' ∈ hs, e ∉ h' :: σ h' := fun h' hh' hc => he ⟨h', hh', hc⟩
  have hsame : ∀ h' ∈ hs, h' ≠ h → m.SameOn (m.insert e h (m.next h)) (h' :: σ h') := by
    intro h' hh' hne
    have hapart := hm.apart h hh h' hh' hne.symm
    exact .insert (hoff h' hh') (hapart List.mem_cons_self) (hapart (hm.loop h hh).next_mem)
  refine ⟨?_, hsame⟩
  have hnew := hm.update ((hm.loop h hh).insert_first (hoff h hh)) (fun h' hh' hne => ?_) hsame
  · rwa [Set.insert_eq_of_mem hh] at hnew
  · have hperm : (h :: e :: σ h).Perm (e :: h :: σ h) := List.Perm.swap _ _ _
    rw [hperm.disjoint_left, List.disjoint_cons_left]
    exact ⟨hoff h' hh', hm.apart h hh h' hh' hne.symm⟩

/-- **A node leaves a loop**, wherever it is, and is on none then. -/
theorem remove {l₁ l₂ : List α} (hm : m.Loops hs σ) (hh : h ∈ hs) (hσ : σ h = l₁ ++ e :: l₂) :
    (m.remove (m.prev e) (m.next e)).Loops hs (Function.update σ h (l₁ ++ l₂)) ∧
      (∀ h' ∈ hs, h' ≠ h → m.SameOn (m.remove (m.prev e) (m.next e)) (h' :: σ h')) ∧
      ¬ OnLoop hs (Function.update σ h (l₁ ++ l₂)) e := by
  have hloop := hm.loop h hh
  have hapart : ∀ h' ∈ hs, h' ≠ h → (h :: (l₁ ++ e :: l₂)).Disjoint (h' :: σ h') :=
    fun h' hh' hne => hσ ▸ hm.apart h hh h' hh' hne.symm
  rw [hσ] at hloop
  have he : e ∈ h :: (l₁ ++ e :: l₂) :=
    List.mem_cons_of_mem _ (List.mem_append_right _ List.mem_cons_self)
  obtain ⟨hnext, hprev⟩ := hloop.links_mem he
  have hsame : ∀ h' ∈ hs, h' ≠ h → m.SameOn (m.remove (m.prev e) (m.next e)) (h' :: σ h') :=
    fun h' hh' hne => .remove (hapart h' hh' hne hprev) (hapart h' hh' hne hnext)
  have hless : (h :: (l₁ ++ l₂)).Sublist (h :: (l₁ ++ e :: l₂)) :=
    ((List.sublist_cons_self e l₂).append_left l₁).cons_cons h
  refine ⟨?_, hsame, ?_⟩
  · have hnew := hm.update hloop.remove (fun h' hh' hne => ?_) hsame
    · rwa [Set.insert_eq_of_mem hh] at hnew
    · exact List.disjoint_of_subset_left hless.subset (hapart h' hh' hne)
  · rintro ⟨h', hh', hmem⟩
    by_cases hne : h' = h
    · rw [hne, Function.update_self] at hmem
      have hperm : (h :: (l₁ ++ e :: l₂)).Perm (e :: h :: (l₁ ++ l₂)) :=
        (List.perm_middle.cons h).trans (List.Perm.swap e h _)
      exact (List.nodup_cons.mp (hperm.nodup_iff.mp hloop.nodup)).1 hmem
    · rw [Function.update_of_ne hne] at hmem
      exact hapart h' hh' hne he hmem

/-- **The first node leaves a loop**, and is on none then. -/
theorem remove_first (hm : m.Loops hs σ) (hh : h ∈ hs) (hσ : σ h = e :: l) :
    (m.remove h (m.next e)).Loops hs (Function.update σ h l) ∧
      (∀ h' ∈ hs, h' ≠ h → m.SameOn (m.remove h (m.next e)) (h' :: σ h')) ∧
      ¬ OnLoop hs (Function.update σ h l) e := by
  have hloop := hm.loop h hh
  have hapart : ∀ h' ∈ hs, h' ≠ h → (h :: e :: l).Disjoint (h' :: σ h') := fun h' hh' hne =>
    hσ ▸ hm.apart h hh h' hh' hne.symm
  rw [hσ] at hloop
  have hsame : ∀ h' ∈ hs, h' ≠ h → m.SameOn (m.remove h (m.next e)) (h' :: σ h') := by
    intro h' hh' hne
    have hnext : m.next e ∈ h :: e :: l := by
      rcases List.mem_cons.mp hloop.path.2.next_mem with hn | hn
      · exact hn ▸ List.mem_cons_self
      · exact List.mem_cons_of_mem _ (List.mem_cons_of_mem _ hn)
    exact .remove (hapart h' hh' hne List.mem_cons_self) (hapart h' hh' hne hnext)
  refine ⟨?_, hsame, ?_⟩
  · have hnew := hm.update hloop.remove_first (fun h' hh' hne => ?_) hsame
    · rwa [Set.insert_eq_of_mem hh] at hnew
    · exact List.disjoint_of_subset_left
        ((List.sublist_cons_self e l).cons_cons h).subset (hapart h' hh' hne)
  · rintro ⟨h', hh', hmem⟩
    by_cases hne : h' = h
    · rw [hne, Function.update_self] at hmem
      have hnodup := List.nodup_cons.mp hloop.nodup
      rcases List.mem_cons.mp hmem with rfl | hl
      · exact hnodup.1 List.mem_cons_self
      · exact (List.nodup_cons.mp hnodup.2).1 hl
    · rw [Function.update_of_ne hne] at hmem
      exact hapart h' hh' hne (List.mem_cons_of_mem _ List.mem_cons_self) hmem

end Loops

end Links
