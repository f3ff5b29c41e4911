import Milu.Pool.SharedQueues
import Mathlib.Algebra.Order.BigOperators.Group.Finset
import Mathlib.Tactic.Abel

/-!
# Calls on a queue happen all at once

While a node is inserted or removed its queue is no loop. But only the thread that has the mutex can
see that: it owns the queue, the nodes that were on it when the mutex was locked, and the nodes it
holds already, and nobody else writes there or reads there. On what it owns it goes on as if it were
alone. The call happens at the unlock, where the links are a loop again.

## Main definitions

* `Shared.Share`, `Shared.Inv` — what is in whose charge, and the memory while calls are in progress
* `Shared.Matches` — what the code has in common with a run of calls that happen all at once
* `Shared.Quiet`, `Shared.soundExec` — between two calls, when no call is interrupted

## Main results

* `Shared.Inv.write`, `Shared.Inv.lock`, `Shared.Inv.unlock` — one step
* `Shared.performs_getFifo`, `Shared.performs_putFifo` — one call
* `Shared.queues_atomic` — whatever the threads do, each call happens all at once
* `Shared.Quiet.run` — threads that do not interrupt one another's calls
-/

namespace Milu

namespace Shared

variable {D W X α β : Type} {DReply : D → Type}

/-! ### What is in whose charge -/

/-- A thread between lock and unlock: the queue, its nodes when the mutex was locked, and what the
thread makes of the links. -/
structure Section where
  queue : ℕ
  content : List ℕ
  links : Links ℕ

/-- What a call in progress has: nodes, and perhaps a mutex. -/
structure Share where
  hand : Multiset ℕ
  inside : Option Section

namespace Share

/-- The queue whose mutex it has. -/
def locks (sh : Share) : Multiset ℕ := sh.inside.elim 0 fun c => {c.queue}

/-- The nodes that no other call may touch. -/
def owned (sh : Share) : Multiset ℕ :=
  sh.hand + sh.inside.elim 0 fun c => ↑(c.queue :: c.content)

/-- Between two calls. -/
def idle (hand : Multiset ℕ) : Share := ⟨hand, none⟩

/-- Between lock and unlock. -/
def working (hand : Multiset ℕ) (q : ℕ) (l : List ℕ) (links : Links ℕ) : Share :=
  ⟨hand, some ⟨q, l, links⟩⟩

variable (hand : Multiset ℕ) (q : ℕ) (l : List ℕ) (links : Links ℕ)

@[simp] theorem hand_idle : (idle hand).hand = hand := rfl

@[simp] theorem hand_working : (working hand q l links).hand = hand := rfl

@[simp] theorem locks_idle : (idle hand).locks = 0 := rfl

@[simp] theorem locks_working : (working hand q l links).locks = {q} := rfl

@[simp] theorem owned_idle : (idle hand).owned = hand := Multiset.add_zero hand

@[simp] theorem owned_working : (working hand q l links).owned = hand + ↑(q :: l) := rfl

end Share

/-- The queues and their nodes. -/
def queueNodes (qs : Finset ℕ) (σ : ℕ → List ℕ) : Multiset ℕ :=
  ∑ q ∈ qs, (↑(q :: σ q) : Multiset ℕ)

/-- **The memory while calls are in progress.** `N` is all the nodes and queues there are, and `m₀`
is the memory at the start. -/
structure Inv (qs : Finset ℕ) (N : Multiset ℕ) (m₀ : Queue.Memory) (s : State Queue.Memory W)
    (t : State (ℕ → List ℕ) W) (shares : Multiset Share) : Prop where
  data : s.data = t.data
  spare : s.spare = t.spare
  nodes : queueNodes qs t.lists + (shares.map Share.hand).sum + t.spare = N
  locks : (shares.map Share.locks).sum.Nodup
  locks_mem : ∀ q ∈ (shares.map Share.locks).sum, q ∈ qs
  mutex : ∀ q ∈ qs, s.lists.mutex q = true ↔ q ∈ (shares.map Share.locks).sum
  loop : ∀ q ∈ qs, s.lists.mutex q = false → s.lists.links.Loop q (t.lists q)
  content : ∀ sh ∈ shares, ∀ c, sh.inside = some c → t.lists c.queue = c.content
  sees : ∀ sh ∈ shares, ∀ c, sh.inside = some c → ∀ x ∈ sh.owned,
    s.lists.links.next x = c.links.next x ∧ s.lists.links.prev x = c.links.prev x
  outside : ∀ x ∉ N, m₀.links.SameOn s.lists.links [x]
  mutexes : ∀ q ∉ qs, s.lists.mutex q = m₀.mutex q

/-- An operation that is no lock is ready, and so is a lock of a free mutex. A thread that has a
mutex is not to wait for another. -/
def Ready (qs : Finset ℕ) (s : State Queue.Memory W) (sh : Share) : LinkOp D → Prop
  | .lock q => q ∈ qs → sh.inside = none → s.lists.mutex q = false
  | _ => True

theorem mem_queueNodes {qs : Finset ℕ} {σ : ℕ → List ℕ} {x : ℕ} :
    x ∈ queueNodes qs σ ↔ ∃ q ∈ qs, x ∈ q :: σ q := by
  simp only [queueNodes, Multiset.mem_sum, Multiset.mem_coe]

theorem queueNodes_erase {qs : Finset ℕ} {q : ℕ} (hq : q ∈ qs) (σ : ℕ → List ℕ) :
    queueNodes qs σ = ↑(q :: σ q) + queueNodes (qs.erase q) σ :=
  (Finset.add_sum_erase qs (fun q => (↑(q :: σ q) : Multiset ℕ)) hq).symm

theorem queueNodes_update {qs : Finset ℕ} {q : ℕ} (hq : q ∈ qs) (σ : ℕ → List ℕ) (l : List ℕ) :
    queueNodes qs (Function.update σ q l) = ↑(q :: l) + queueNodes (qs.erase q) σ := by
  rw [queueNodes_erase hq, Function.update_self]
  congr 1
  refine Finset.sum_congr rfl fun q' hq' => ?_
  rw [Function.update_of_ne (Finset.ne_of_mem_erase hq')]

theorem mem_sum_map {f : Share → Multiset ℕ} {shares : Multiset Share} {sh : Share} {x : ℕ}
    (hsh : sh ∈ shares) (hx : x ∈ f sh) : x ∈ (shares.map f).sum := by
  obtain ⟨rest, rfl⟩ := Multiset.exists_cons_of_mem hsh
  simp [hx]

namespace Inv

variable {qs : Finset ℕ} {N hand : Multiset ℕ} {m₀ : Queue.Memory} {s : State Queue.Memory W}
  {t : State (ℕ → List ℕ) W} {others : Multiset Share} {q a x : ℕ} {l : List ℕ} {L : Links ℕ}

/-- What is not a thread's while it works on a queue. -/
def rest (qs : Finset ℕ) (t : State (ℕ → List ℕ) W) (others : Multiset Share) (q : ℕ) :
    Multiset ℕ :=
  queueNodes (qs.erase q) t.lists + (others.map Share.hand).sum + t.spare

theorem mem_rest_of_queue {q' : ℕ} (hq' : q' ∈ qs) (hne : q' ≠ q) (hx : x ∈ q' :: t.lists q') :
    x ∈ rest qs t others q := by
  have : x ∈ queueNodes (qs.erase q) t.lists := mem_queueNodes.mpr ⟨q', by simp [hne, hq'], hx⟩
  simp [rest, this]

section

variable (h : Inv qs N m₀ s t (.working hand q l L ::ₘ others))

include h

theorem queue_mem : q ∈ qs := h.locks_mem q (by simp)

theorem lists_eq : t.lists q = l := h.content _ (Multiset.mem_cons_self _ _) _ rfl

theorem mutex_eq : s.lists.mutex q = true := (h.mutex q h.queue_mem).mpr (by simp)

/-- **What is a thread's, and what is not.** -/
theorem split : (hand + ↑(q :: l)) + rest qs t others q = N := by
  have hnodes := h.nodes
  rw [queueNodes_erase h.queue_mem, h.lists_eq] at hnodes
  rw [← hnodes]
  simp only [rest, Multiset.map_cons, Multiset.sum_cons, Share.hand_working]
  abel

theorem owned_nodup (hN : N.Nodup) : (hand + ↑(q :: l)).Nodup :=
  (Multiset.nodup_add.mp (h.split ▸ hN)).1

theorem owned_mem (hx : x ∈ hand + ↑(q :: l)) : x ∈ N := by
  rw [← h.split]
  exact Multiset.mem_add.mpr (.inl hx)

theorem not_mem_rest (hN : N.Nodup) (hx : x ∈ hand + ↑(q :: l)) : x ∉ rest qs t others q := by
  have hdisjoint := (Multiset.nodup_add.mp (h.split ▸ hN)).2.2
  exact fun hc => Multiset.disjoint_left.mp hdisjoint hx hc

theorem locks_others : q ∉ (others.map Share.locks).sum := by
  have hlocks := h.locks
  rw [Multiset.map_cons, Multiset.sum_cons, Share.locks_working, Multiset.singleton_add,
    Multiset.nodup_cons] at hlocks
  exact hlocks.1

theorem mem_rest_of_owned {sh : Share} (hsh : sh ∈ others) (hx : x ∈ sh.owned) :
    x ∈ rest qs t others q := by
  obtain ⟨hand', inside⟩ := sh
  rcases Multiset.mem_add.mp hx with hx | hx
  · have := mem_sum_map (f := Share.hand) hsh hx
    simp [rest, this]
  · cases inside with
    | none => simp at hx
    | some c =>
      have hlocked : c.queue ∈ (others.map Share.locks).sum :=
        mem_sum_map hsh (by simp [Share.locks])
      have hne : c.queue ≠ q := fun hc => h.locks_others (hc ▸ hlocked)
      have hmem : c.queue ∈ qs := h.locks_mem _ (by simp [hlocked])
      have hcontent := h.content _ (Multiset.mem_cons_of_mem hsh) c rfl
      have : x ∈ queueNodes (qs.erase q) t.lists :=
        mem_queueNodes.mpr ⟨c.queue, by simp [hne, hmem], by simpa [hcontent] using hx⟩
      simp [rest, this]

/-- **A thread writes into a node that is its own.** -/
theorem write (hN : N.Nodup) (ha : a ∈ hand + ↑(q :: l)) {links L' : Links ℕ}
    (hoff : ∀ x, x ≠ a → links.next x = s.lists.links.next x ∧ links.prev x = s.lists.links.prev x)
    (hsees : ∀ x ∈ hand + ↑(q :: l), links.next x = L'.next x ∧ links.prev x = L'.prev x) :
    Inv qs N m₀ (s.withLists ⟨links, s.lists.mutex⟩) t
      (.working hand q l L' ::ₘ others) where
  data := h.data
  spare := h.spare
  nodes := by simpa using h.nodes
  locks := by simpa using h.locks
  locks_mem := by simpa using h.locks_mem
  mutex := by simpa using h.mutex
  loop q' hq' hfree := by
    have hne : q' ≠ q := by
      rintro rfl
      exact Bool.false_ne_true (hfree.symm.trans h.mutex_eq)
    refine (h.loop q' hq' hfree).congr fun x hx => hoff x ?_
    rintro rfl
    exact h.not_mem_rest hN ha (mem_rest_of_queue hq' hne hx)
  content sh hsh c hc := by
    rcases Multiset.mem_cons.mp hsh with rfl | hsh
    · obtain rfl := Option.some.inj hc
      exact h.lists_eq
    · exact h.content sh (Multiset.mem_cons_of_mem hsh) c hc
  sees sh hsh c hc x hx := by
    rcases Multiset.mem_cons.mp hsh with rfl | hsh
    · obtain rfl := Option.some.inj hc
      exact hsees x hx
    · have hne : x ≠ a := by
        rintro rfl
        exact h.not_mem_rest hN ha (h.mem_rest_of_owned hsh hx)
      obtain ⟨hnext, hprev⟩ := h.sees sh (Multiset.mem_cons_of_mem hsh) c hc x hx
      exact ⟨(hoff x hne).1.trans hnext, (hoff x hne).2.trans hprev⟩
  outside x hx y hy := by
    obtain rfl := List.mem_singleton.mp hy
    have hne : y ≠ a := by
      rintro rfl
      exact hx (h.owned_mem ha)
    obtain ⟨hnext, hprev⟩ := h.outside y hx y (List.mem_singleton_self y)
    exact ⟨(hoff y hne).1.trans hnext, (hoff y hne).2.trans hprev⟩
  mutexes := h.mutexes

end

/-- **A thread locks a mutex.** -/
theorem lock (h : Inv qs N m₀ s t (.idle hand ::ₘ others)) (hq : q ∈ qs)
    (hfree : s.lists.mutex q = false) :
    Inv qs N m₀ (s.withLists (s.lists.locked q)) t
      (.working hand q (t.lists q) s.lists.links ::ₘ others) := by
  have hlocks : q ∉ (others.map Share.locks).sum := by
    have := (h.mutex q hq).not.mp (by simp [hfree])
    simpa using this
  refine ⟨h.data, h.spare, by simpa using h.nodes, ?_, fun q' hq' => ?_, fun q' hq' => ?_,
    fun q' hq' hfree' => ?_, fun sh hsh c hc => ?_, fun sh hsh c hc x hx => ?_, h.outside,
    fun q' hq' => ?_⟩
  · have := h.locks
    simp only [Multiset.map_cons, Multiset.sum_cons, Share.locks_idle, Multiset.zero_add] at this
    simp only [Multiset.map_cons, Multiset.sum_cons, Share.locks_working, Multiset.singleton_add,
      Multiset.nodup_cons]
    exact ⟨hlocks, this⟩
  · simp only [Multiset.map_cons, Multiset.sum_cons, Share.locks_working, Multiset.singleton_add,
      Multiset.mem_cons] at hq'
    rcases hq' with rfl | hq'
    · exact hq
    · exact h.locks_mem q' (by simpa using hq')
  · have := h.mutex q' hq'
    by_cases hne : q' = q
    · simp [Queue.Memory.locked, hne]
    · simpa [Queue.Memory.locked, hne] using this
  · by_cases hne : q' = q
    · simp [Queue.Memory.locked, hne] at hfree'
    · exact h.loop q' hq' (by simpa [Queue.Memory.locked, hne] using hfree')
  · rcases Multiset.mem_cons.mp hsh with rfl | hsh
    · obtain rfl := Option.some.inj hc
      rfl
    · exact h.content sh (Multiset.mem_cons_of_mem hsh) c hc
  · rcases Multiset.mem_cons.mp hsh with rfl | hsh
    · obtain rfl := Option.some.inj hc
      exact ⟨rfl, rfl⟩
    · exact h.sees sh (Multiset.mem_cons_of_mem hsh) c hc x hx
  · have hne : q' ≠ q := fun hc => hq' (hc ▸ hq)
    simpa [Queue.Memory.locked, hne] using h.mutexes q' hq'

/-- **A thread unlocks it** when the links are a loop again. -/
theorem unlock (h : Inv qs N m₀ s t (.working hand q l L ::ₘ others)) {hand' : Multiset ℕ}
    {l' : List ℕ} (hsame : hand' + ↑(q :: l') = hand + ↑(q :: l)) (hloop : L.Loop q l') :
    Inv qs N m₀ (s.withLists ⟨s.lists.links, Function.update s.lists.mutex q false⟩)
      (t.withLists (Function.update t.lists q l')) (.idle hand' ::ₘ others) := by
  have hq := h.queue_mem
  have hother : ∀ sh ∈ others, ∀ c, sh.inside = some c → c.queue ≠ q := by
    rintro ⟨hand, inside⟩ hsh c rfl rfl
    exact h.locks_others (mem_sum_map hsh (by simp [Share.locks]))
  refine ⟨h.data, h.spare, ?_, ?_, fun q' hq' => ?_, fun q' hq' => ?_,
    fun q' hq' hfree => ?_, fun sh hsh c hc => ?_, fun sh hsh c hc x hx => ?_, h.outside,
    fun q' hq' => ?_⟩
  · rw [← h.split, ← hsame, lists_withLists, queueNodes_update hq, spare_withLists]
    simp only [rest, Multiset.map_cons, Multiset.sum_cons, Share.hand_idle]
    abel
  · have := h.locks
    rw [Multiset.map_cons, Multiset.sum_cons, Share.locks_working, Multiset.singleton_add,
      Multiset.nodup_cons] at this
    simpa using this.2
  · refine h.locks_mem q' ?_
    simp only [Multiset.map_cons, Multiset.sum_cons, Share.locks_idle, Multiset.zero_add] at hq'
    simp [hq']
  · have := h.mutex q' hq'
    by_cases hne : q' = q
    · simp [hne, h.locks_others]
    · simpa [hne] using this
  · by_cases hne : q' = q
    · subst hne
      rw [lists_withLists, lists_withLists, Function.update_self]
      refine hloop.congr fun x hx => h.sees _ (Multiset.mem_cons_self _ _) _ rfl x ?_
      rw [Share.owned_working, ← hsame]
      exact Multiset.mem_add.mpr (.inr hx)
    · rw [lists_withLists, lists_withLists, Function.update_of_ne hne]
      exact h.loop q' hq' (by simpa [hne] using hfree)
  · rcases Multiset.mem_cons.mp hsh with rfl | hsh
    · cases hc
    · rw [lists_withLists, Function.update_of_ne (hother sh hsh c hc)]
      exact h.content sh (Multiset.mem_cons_of_mem hsh) c hc
  · rcases Multiset.mem_cons.mp hsh with rfl | hsh
    · cases hc
    · exact h.sees sh (Multiset.mem_cons_of_mem hsh) c hc x hx
  · have hne : q' ≠ q := fun hc => hq' (hc ▸ hq)
    simpa [hne] using h.mutexes q' hq'

end Inv

/-! ### One call -/

theorem onLists_iff {x : Queue.QueueM α} {s s' : State Queue.Memory W} {r r' : α}
    {lists : Queue.Memory} (hx : x s.lists = .ok (r, lists)) :
    onLists x s r' s' ↔ r' = r ∧ s' = s.withLists lists := by
  constructor
  · rintro ⟨lists', hx', rfl⟩
    obtain ⟨rfl, rfl⟩ := ok_unique hx' hx
    exact ⟨rfl, rfl⟩
  · rintro ⟨rfl, rfl⟩
    exact ⟨lists, hx, rfl⟩

section

variable (exec : Program.Exec W DReply) (qs : Finset ℕ) (N : Multiset ℕ) (m₀ : Queue.Memory)

/-- The code of a call, from a share. -/
abbrev Performs (o : QueueOp D) (post : o.Reply DReply → Share → Prop) :
    LinkProgram DReply (o.Reply DReply) → Share → Prop :=
  Program.Performs (linkExec exec) (Ready qs) (atomicExec exec) (Inv qs N m₀) o post

end

section

variable {exec : Program.Exec W DReply} {qs : Finset ℕ} {N : Multiset ℕ} {m₀ : Queue.Memory}
  {o : QueueOp D} {post : o.Reply DReply → Share → Prop} {hand : Multiset ℕ} {q a b : ℕ}
  {l : List ℕ} {L : Links ℕ}

/-- A lock. What follows may rely on the links of the queue. -/
theorem performs_lock {f : Unit → LinkProgram DReply (o.Reply DReply)} (hN : N.Nodup) (h0 : 0 ∉ N)
    (hq : q ∈ qs) (hf : ∀ l L, L.Loop q l → (hand + ↑(q :: l)).Nodup → 0 ∉ hand + ↑(q :: l) →
      Performs exec qs N m₀ o post (f ()) (.working hand q l L)) :
    Performs exec qs N m₀ o post (lock q >>= f) (.idle hand) := by
  intro s t others hinv
  constructor
  · intro hready
    exact ⟨(), _, (onLists_iff (Queue.lock_apply (hready hq rfl))).mpr ⟨rfl, rfl⟩⟩
  · rintro ⟨⟩ s' ⟨lists, hcall, rfl⟩
    have hfree : s.lists.mutex q = false := by
      rw [Queue.lock] at hcall
      by_contra hlocked
      rw [if_pos (by simpa using hlocked)] at hcall
      cases hcall
    obtain ⟨-, rfl⟩ := ok_unique hcall (Queue.lock_apply hfree)
    have hinv' := hinv.lock hq hfree
    exact .inl ⟨_, hinv', hf _ _ (hinv.loop q hq hfree) (hinv'.owned_nodup hN)
      fun hc => h0 (hinv'.owned_mem hc)⟩

theorem performs_next {f : ℕ → LinkProgram DReply (o.Reply DReply)} (h0 : 0 ∉ N)
    (ha : a ∈ hand + ↑(q :: l))
    (hf : Performs exec qs N m₀ o post (f (L.next a)) (.working hand q l L)) :
    Performs exec qs N m₀ o post (next a >>= f) (.working hand q l L) := by
  refine .step (fun s t others hinv => ⟨s, ?_⟩) hf
  have ha0 : a ≠ 0 := ne_of_mem_of_not_mem (hinv.owned_mem ha) h0
  have hcall (r s') : onLists (Queue.next a) s r s' ↔ _ :=
    onLists_iff (Queue.next_apply ha0 s.lists)
  obtain ⟨hsees, -⟩ := hinv.sees _ (Multiset.mem_cons_self _ _) _ rfl a ha
  rw [hsees] at hcall
  exact ⟨(hcall _ _).mpr ⟨rfl, rfl⟩, fun r₁ s₁ => (hcall r₁ s₁).mp, hinv⟩

theorem performs_prev {f : ℕ → LinkProgram DReply (o.Reply DReply)} (h0 : 0 ∉ N)
    (ha : a ∈ hand + ↑(q :: l))
    (hf : Performs exec qs N m₀ o post (f (L.prev a)) (.working hand q l L)) :
    Performs exec qs N m₀ o post (prev a >>= f) (.working hand q l L) := by
  refine .step (fun s t others hinv => ⟨s, ?_⟩) hf
  have ha0 : a ≠ 0 := ne_of_mem_of_not_mem (hinv.owned_mem ha) h0
  have hcall (r s') : onLists (Queue.prev a) s r s' ↔ _ :=
    onLists_iff (Queue.prev_apply ha0 s.lists)
  obtain ⟨-, hsees⟩ := hinv.sees _ (Multiset.mem_cons_self _ _) _ rfl a ha
  rw [hsees] at hcall
  exact ⟨(hcall _ _).mpr ⟨rfl, rfl⟩, fun r₁ s₁ => (hcall r₁ s₁).mp, hinv⟩

theorem performs_setNext {f : Unit → LinkProgram DReply (o.Reply DReply)} (hN : N.Nodup)
    (h0 : 0 ∉ N) (ha : a ∈ hand + ↑(q :: l))
    (hf : Performs exec qs N m₀ o post (f ()) (.working hand q l (L.setNext a b))) :
    Performs exec qs N m₀ o post (setNext a b >>= f) (.working hand q l L) := by
  refine .step (fun s t others hinv => ?_) hf
  have ha0 : a ≠ 0 := ne_of_mem_of_not_mem (hinv.owned_mem ha) h0
  have hcall (r s') : onLists (Queue.setNext a b) s r s' ↔ _ :=
    onLists_iff (Queue.setNext_apply ha0 b s.lists)
  refine ⟨_, (hcall _ _).mpr ⟨rfl, rfl⟩, fun r₁ s₁ => (hcall r₁ s₁).mp,
    hinv.write hN ha (fun x hx => ⟨Function.update_of_ne hx _ _, rfl⟩) fun x hx => ?_⟩
  obtain ⟨hnext, hprev⟩ := hinv.sees _ (Multiset.mem_cons_self _ _) _ rfl x hx
  refine ⟨?_, hprev⟩
  by_cases hxa : x = a <;> simp [Links.setNext, hxa, hnext]

theorem performs_setPrev {f : Unit → LinkProgram DReply (o.Reply DReply)} (hN : N.Nodup)
    (h0 : 0 ∉ N) (ha : a ∈ hand + ↑(q :: l))
    (hf : Performs exec qs N m₀ o post (f ()) (.working hand q l (L.setPrev a b))) :
    Performs exec qs N m₀ o post (setPrev a b >>= f) (.working hand q l L) := by
  refine .step (fun s t others hinv => ?_) hf
  have ha0 : a ≠ 0 := ne_of_mem_of_not_mem (hinv.owned_mem ha) h0
  have hcall (r s') : onLists (Queue.setPrev a b) s r s' ↔ _ :=
    onLists_iff (Queue.setPrev_apply ha0 b s.lists)
  refine ⟨_, (hcall _ _).mpr ⟨rfl, rfl⟩, fun r₁ s₁ => (hcall r₁ s₁).mp,
    hinv.write hN ha (fun x hx => ⟨rfl, Function.update_of_ne hx _ _⟩) fun x hx => ?_⟩
  obtain ⟨hnext, hprev⟩ := hinv.sees _ (Multiset.mem_cons_self _ _) _ rfl x hx
  refine ⟨hnext, ?_⟩
  by_cases hxa : x = a <;> simp [Links.setPrev, hxa, hprev]

/-- **The unlock**, at which the call happens. -/
theorem performs_unlock (v : o.Reply DReply) (hand' : Multiset ℕ) {l' : List ℕ}
    (hloop : L.Loop q l') (hsame : hand' + ↑(q :: l') = hand + ↑(q :: l))
    (hcall : ∀ t, t.lists q = l →
      atomicExec exec t o v (t.withLists (Function.update t.lists q l')))
    (hpost : post v (.idle hand')) :
    Performs exec qs N m₀ o post (unlock q >>= fun _ => pure v) (.working hand q l L) := by
  intro s t others hinv
  have hunlock : Queue.unlock q s.lists =
      .ok ((), ⟨s.lists.links, Function.update s.lists.mutex q false⟩) := if_pos hinv.mutex_eq
  refine ⟨fun _ => ⟨(), _, (onLists_iff hunlock).mpr ⟨rfl, rfl⟩⟩, ?_⟩
  rintro ⟨⟩ s' ho
  obtain ⟨-, rfl⟩ := (onLists_iff hunlock).mp ho
  exact .inr ⟨v, _, .idle hand', hcall t hinv.lists_eq, hinv.unlock hsame hloop, rfl, hpost⟩

/-- **A put among other calls.** -/
theorem performs_putFifo {e : ℕ} (hN : N.Nodup) (h0 : 0 ∉ N) (hq : q ∈ qs) (he : e ∈ hand) :
    Performs exec qs N m₀ (.put q e) (fun _ sh => sh = .idle (hand.erase e)) (putFifo q e)
      (.idle hand) := by
  refine performs_lock hN h0 hq fun l L hloop hnodup hnull => ?_
  have hown : ∀ {x}, x ∈ q :: l → x ∈ hand + ↑(q :: l) := fun hx => Multiset.mem_add.mpr (.inr hx)
  have he' : e ∈ hand + ↑(q :: l) := Multiset.mem_add.mpr (.inl he)
  have hnew : e ∉ q :: l := fun hc =>
    Multiset.disjoint_left.mp (Multiset.nodup_add.mp hnodup).2.2 he hc
  refine performs_prev h0 (hown List.mem_cons_self) ?_
  refine performs_setPrev hN h0 (hown List.mem_cons_self) ?_
  refine performs_setNext hN h0 he' ?_
  refine performs_setPrev hN h0 he' ?_
  refine performs_setNext hN h0 (hown hloop.prev_mem) ?_
  have hlast := hloop.insert_last hnew
  refine performs_unlock (o := .put q e) () (hand.erase e) hlast ?_ (fun t ht => ?_) rfl
  · have hput : (↑(q :: (l ++ [e])) : Multiset ℕ) = e ::ₘ ↑(q :: l) := by
      rw [← List.cons_append, ← Multiset.coe_add, Multiset.coe_singleton, add_comm,
        Multiset.singleton_add]
    rw [hput, Multiset.add_cons, ← Multiset.cons_add, Multiset.cons_erase he]
  · rw [atomicExec, ht, Milu.putFifo]

/-- The links of a node that was removed are not looked at. -/
theorem loop_delLinks {e : ℕ} (hloop : L.Loop q (e :: l)) :
    (Queue.delLinks L e q (L.next e)).Loop q l := by
  have hnew : e ∉ q :: l := by
    have := hloop.nodup
    simp only [List.nodup_cons, List.mem_cons, not_or] at this ⊢
    exact ⟨fun hc => this.1.1 hc.symm, this.2.1⟩
  exact hloop.remove_first.congr ((Links.SameOn.setNext hnew).trans (.setPrev hnew))

/-- **A get among other calls.** -/
theorem performs_getFifo (hN : N.Nodup) (h0 : 0 ∉ N) (hq : q ∈ qs) :
    Performs exec qs N m₀ (.get q)
      (fun e sh => sh = .idle (if e = 0 then hand else e ::ₘ hand)) (getFifo q) (.idle hand) := by
  refine performs_lock hN h0 hq fun l L hloop hnodup hnull => ?_
  have hown : ∀ {x}, x ∈ q :: l → x ∈ hand + ↑(q :: l) := fun hx => Multiset.mem_add.mpr (.inr hx)
  refine performs_next h0 (hown List.mem_cons_self) ?_
  have hempty := hloop.next_eq_iff
  cases l with
  | nil =>
    have hnext : L.next q == q := by simpa using hempty
    show Performs _ _ _ _ _ _ (if (L.next q == q) = true then _ else _) _
    rw [if_pos hnext]
    refine performs_unlock (o := .get q) 0 hand hloop rfl (fun t ht => .inl ⟨?_, rfl, ?_⟩) rfl
    · rw [ht, Milu.getFifo]
    · rw [← ht, Function.update_eq_self]
      rfl
  | cons e l =>
    have hnext : ¬ L.next q == q := by simpa using hempty
    show Performs _ _ _ _ _ _ (if (L.next q == q) = true then _ else _) _
    rw [if_neg hnext]
    obtain ⟨⟨hfirst, hback⟩, hpath⟩ := hloop.path
    have he : e ∈ q :: e :: l := by simp
    refine performs_next h0 (hown List.mem_cons_self) ?_
    rw [hfirst]
    refine performs_prev h0 (hown he) ?_
    refine performs_next h0 (hown he) ?_
    rw [hback]
    refine performs_setPrev hN h0 (hown (hloop.links_mem he).1) ?_
    refine performs_setNext hN h0 (hown List.mem_cons_self) ?_
    refine performs_setNext hN h0 (hown he) ?_
    refine performs_setPrev hN h0 (hown he) ?_
    have hne : e ≠ 0 := ne_of_mem_of_not_mem (hown he) hnull
    refine performs_unlock (o := .get q) e (e ::ₘ hand) (loop_delLinks hloop) ?_
      (fun t ht => .inr ⟨l, ?_, rfl⟩) (by rw [if_neg hne])
    · have hget : (↑(q :: e :: l) : Multiset ℕ) = e ::ₘ ↑(q :: l) := Multiset.cons_swap q e ↑l
      rw [hget, Multiset.cons_add, Multiset.add_cons]
    · rw [ht, Milu.getFifo]

/-- **The code of a call** that a program may make. -/
theorem performs_code (hN : N.Nodup) (h0 : 0 ∉ N) (htotal : ∀ w d, ∃ r w', exec w d r w')
    (o : QueueOp D) (hand : Multiset ℕ) (hmay : o.May qs hand) :
    Performs exec qs N m₀ o (fun v sh => sh = .idle (o.hand v hand)) o.code (.idle hand) := by
  cases o with
  | get q => exact performs_getFifo hN h0 hmay
  | put q e => exact performs_putFifo hN h0 hmay.1 hmay.2
  | data d =>
    intro s t others hinv
    constructor
    · intro _
      obtain ⟨r, w, hd⟩ := htotal s.data d
      exact ⟨r, _, w, hd, rfl⟩
    · rintro r s' ⟨w, hd, rfl⟩
      refine .inr ⟨r, _, .idle hand, ⟨w, hinv.data ▸ hd, rfl⟩, ?_, rfl, rfl⟩
      exact ⟨rfl, hinv.spare, hinv.nodes, hinv.locks, hinv.locks_mem, hinv.mutex, hinv.loop,
        hinv.content, hinv.sees, hinv.outside, hinv.mutexes⟩

end

/-! ### All calls -/

section

variable {C : Clients X DReply W α} {qs : Finset ℕ} {m : Queue.Memory} {σ : ℕ → List ℕ}
  {spare : Multiset ℕ} {w : W}

/-- What the code has in common with a run of calls that happen all at once: the data, the tags of
the calls in progress, and the lists of the queues that nobody is at work on. Nobody waits for
ever, and nothing else is written. -/
structure Matches (C : Clients X DReply W α) (qs : Finset ℕ) (m : Queue.Memory) (N : Multiset ℕ)
    (a : System.Config (State Queue.Memory W) (X × LinkProgram DReply α))
    (b : System.Config (State (ℕ → List ℕ) W) (X × Program (QueueOp.Reply DReply) α)) : Prop where
  data : a.shared.data = b.shared.data
  spare : a.shared.spare = b.shared.spare
  tags : a.calls.map Prod.fst = b.calls.map Prod.fst
  loop : ∀ q ∈ qs, a.shared.lists.mutex q = false → a.shared.lists.links.Loop q (b.shared.lists q)
  moves : a.calls ≠ 0 → ∃ c cs s' c', a.calls = c ::ₘ cs ∧ C.linkSystem.step a.shared c s' c'
  chains : a.calls = 0 → Queue.Chains a.shared.lists qs b.shared.lists
  outside : ∀ x ∉ N, m.links.SameOn a.shared.lists.links [x]
  mutexes : ∀ q ∉ qs, a.shared.lists.mutex q = m.mutex q

/-- All the queues and nodes at the start. -/
def allNodes (qs : Finset ℕ) (σ : ℕ → List ℕ) (spare : Multiset ℕ) : Multiset ℕ :=
  queueNodes qs σ + spare

theorem queueNodes_nodup {hs : Set ℕ} (hloops : m.links.Loops hs σ) :
    ↑qs ⊆ hs → (queueNodes qs σ).Nodup := by
  induction qs using Finset.induction_on with
  | empty => exact fun _ => Multiset.nodup_zero
  | insert q qs hq ih =>
    intro hsub
    rw [Finset.coe_insert, Set.insert_subset_iff] at hsub
    rw [queueNodes, Finset.sum_insert hq, Multiset.nodup_add]
    refine ⟨(hloops.loop q hsub.1).nodup, ih hsub.2, Multiset.disjoint_left.mpr fun hx hx' => ?_⟩
    obtain ⟨q', hq', hmem⟩ := mem_queueNodes.mp hx'
    exact hloops.apart q hsub.1 q' (hsub.2 hq') (fun hc => hq (hc ▸ hq')) hx hmem

theorem allNodes_nodup (hm : Queue.Chains m qs σ) (hspare : spare.Nodup)
    (hoff : ∀ e ∈ spare, ¬ Links.OnLoop qs σ e) : (allNodes qs σ spare).Nodup := by
  refine Multiset.nodup_add.mpr ⟨queueNodes_nodup hm.loops subset_rfl, hspare,
    Multiset.disjoint_left.mpr fun hx hx' => ?_⟩
  exact hoff _ hx' (mem_queueNodes.mp hx)

theorem zero_notMem_allNodes (hm : Queue.Chains m qs σ) (h0 : 0 ∉ spare) :
    0 ∉ allNodes qs σ spare := by
  rw [allNodes, Multiset.mem_add, mem_queueNodes]
  rintro (⟨q, hq, hc⟩ | hc)
  · exact hm.ne_null q hq hc
  · exact h0 hc

namespace Inv

variable {N : Multiset ℕ} {s : State Queue.Memory W} {t : State (ℕ → List ℕ) W}
  {shares : Multiset Share}

theorem start (hm : Queue.Chains m qs σ) :
    Inv qs (allNodes qs σ spare) m ⟨m, w, spare⟩ ⟨σ, w, spare⟩ 0 where
  data := rfl
  spare := rfl
  nodes := by simp [allNodes]
  locks := by simp
  locks_mem := by simp
  mutex q hq := by simp [hm.free q hq]
  loop q hq _ := hm.loops.loop q hq
  content := by simp
  sees := by simp
  outside x _ := .refl _ _
  mutexes q _ := rfl

theorem enter (h : Inv qs N m s t shares) {es : Multiset ℕ} (hes : es ≤ t.spare) (w : W) :
    Inv qs N m ⟨s.lists, w, s.spare - es⟩ ⟨t.lists, w, t.spare - es⟩ (.idle es ::ₘ shares) where
  data := rfl
  spare := by rw [h.spare]
  nodes := by
    obtain ⟨r, hr⟩ := Multiset.le_iff_exists_add.mp hes
    rw [← h.nodes, Multiset.map_cons, Multiset.sum_cons, Share.hand_idle]
    simp only [hr, add_tsub_cancel_left]
    abel
  locks := by simpa using h.locks
  locks_mem := by simpa using h.locks_mem
  mutex := by simpa using h.mutex
  loop := h.loop
  content sh hsh c hc := by
    rcases Multiset.mem_cons.mp hsh with rfl | hsh
    · cases hc
    · exact h.content sh hsh c hc
  sees sh hsh c hc x hx := by
    rcases Multiset.mem_cons.mp hsh with rfl | hsh
    · cases hc
    · exact h.sees sh hsh c hc x hx
  outside := h.outside
  mutexes := h.mutexes

theorem leave {es : Multiset ℕ} (h : Inv qs N m s t (.idle es ::ₘ shares)) (f : W → W) :
    Inv qs N m ⟨s.lists, f s.data, s.spare + es⟩ ⟨t.lists, f t.data, t.spare + es⟩ shares where
  data := by rw [h.data]
  spare := by rw [h.spare]
  nodes := by
    rw [← h.nodes, Multiset.map_cons, Multiset.sum_cons, Share.hand_idle]
    show _ + _ + (t.spare + es) = _ + (es + _) + t.spare
    abel
  locks := by simpa using h.locks
  locks_mem := by simpa using h.locks_mem
  mutex := by simpa using h.mutex
  loop := h.loop
  content sh hsh := h.content sh (Multiset.mem_cons_of_mem hsh)
  sees sh hsh := h.sees sh (Multiset.mem_cons_of_mem hsh)
  outside := h.outside
  mutexes := h.mutexes

/-- When no call is in progress, the links spell out all the lists. -/
theorem chains (h : Inv qs N m s t 0) (hN : N.Nodup) (h0 : 0 ∉ N) :
    Queue.Chains s.lists qs t.lists := by
  have hfree : ∀ q ∈ qs, s.lists.mutex q = false := by
    intro q hq
    simpa using (h.mutex q hq).not.mpr (by simp)
  have hnodes := h.nodes
  simp only [Multiset.map_zero, Multiset.sum_zero, Multiset.add_zero] at hnodes
  refine ⟨⟨fun q hq => h.loop q hq (hfree q hq), fun q hq q' hq' hne x hx hx' => ?_⟩,
    fun q hq hc => h0 ?_, hfree⟩
  · rw [← hnodes, Multiset.nodup_add, queueNodes_erase hq, Multiset.nodup_add] at hN
    exact Multiset.disjoint_left.mp hN.1.2.2 hx
      (mem_queueNodes.mpr ⟨q', by simp [hne.symm, Finset.mem_coe.mp hq'], hx'⟩)
  · rw [← hnodes]
    exact Multiset.mem_add.mpr (.inl (mem_queueNodes.mpr ⟨q, hq, hc⟩))

end Inv

/-- A call that has a mutex can go on. When no call has one, every call can. -/
theorem exists_moves {N : Multiset ℕ} {post : X → α → Share → Prop} {s : State Queue.Memory W}
    {t : State (ℕ → List ℕ) W}
    {bag : Multiset (Program.Pair X Share α (LinkOp.Reply DReply) (QueueOp.Reply DReply))}
    (hbag : bag ≠ 0) (hinv : Inv qs N m s t (bag.map Program.Pair.share))
    (hgood : ∀ d ∈ bag, d.Good (linkExec C.exec) (Ready qs) (atomicExec C.exec) (Inv qs N m) post) :
    ∃ d ∈ bag, ∃ s' c', C.linkSystem.step s d.call s' c' := by
  have hstep : ∀ d ∈ bag, (∀ q k, d.code = .op (.lock q) k → q ∈ qs → d.share.inside = none →
      s.lists.mutex q = false) → ∃ s' c', C.linkSystem.step s d.call s' c' := by
    intro d hd hlock
    have hd' := hgood d hd
    obtain ⟨rest, rfl⟩ := Multiset.exists_cons_of_mem hd
    rw [Multiset.map_cons] at hinv
    refine Program.Simulated.exists_step hinv hd' fun o k hcode => ?_
    cases o with
    | lock q => exact hlock q k hcode
    | _ => trivial
  by_cases hworking : ∃ d ∈ bag, d.share.inside ≠ none
  · obtain ⟨d, hd, hinside⟩ := hworking
    exact ⟨d, hd, hstep d hd fun q k _ _ hnone => absurd hnone hinside⟩
  · obtain ⟨d, hd⟩ := Multiset.exists_mem_of_ne_zero hbag
    refine ⟨d, hd, hstep d hd fun q k _ hq _ => ?_⟩
    by_contra hlocked
    have hmem := (hinv.mutex q hq).mp (by simpa using hlocked)
    rw [Multiset.map_map] at hmem
    obtain ⟨d', hd', hlocks⟩ := Multiset.mem_bind.mp hmem
    refine hworking ⟨d', hd', fun hnone => ?_⟩
    simp [Share.locks, hnone] at hlocks

/-- **Whatever the threads do**, the calls might as well happen one after the other and each all at
once. -/
theorem queues_atomic (hC : C.Careful qs) (hm : Queue.Chains m qs σ) (hspare : spare.Nodup)
    (h0 : 0 ∉ spare) (hoff : ∀ e ∈ spare, ¬ Links.OnLoop qs σ e)
    {a : System.Config (State Queue.Memory W) (X × LinkProgram DReply α)}
    (hrun : C.linkSystem.Run System.anyStep ⟨⟨m, w, spare⟩, 0⟩ a) :
    ∃ b, C.atomicSystem.Run System.anyStep ⟨⟨σ, w, spare⟩, 0⟩ b ∧
      Matches C qs m (allNodes qs σ spare) a b := by
  have hN := allNodes_nodup hm hspare hoff
  have hN0 := zero_notMem_allNodes hm h0
  have hstart : Program.Simulated (linkExec C.exec) (Ready qs) (atomicExec C.exec)
      (Inv qs (allNodes qs σ spare) m) (fun x v sh => sh = .idle (C.left x v))
      ⟨⟨m, w, spare⟩, 0⟩ ⟨⟨σ, w, spare⟩, 0⟩ := .empty (.start hm)
  have hresult : ∃ b, C.atomicSystem.Run System.anyStep ⟨⟨σ, w, spare⟩, 0⟩ b ∧
      Program.Simulated (linkExec C.exec) (Ready qs) (atomicExec C.exec)
        (Inv qs (allNodes qs σ spare) m) (fun x v sh => sh = .idle (C.left x v)) a b := by
    refine Program.Simulated.run ?_ ?_ hrun hstart
    · rintro s t cs cs' s' x c shares hinv ⟨henter, hes⟩
      rename_i es p data
      rw [hinv.data] at henter
      rw [hinv.spare] at hes
      refine ⟨_, p, .idle es, .enter henter hes, hinv.enter hes data, ?_⟩
      exact (hC.uses henter).simulates (performs_code hN hN0 hC.total) fun v hand hv => by rw [hv]
    · rintro s t x v sh others hinv rfl
      exact hinv.leave (C.leave x v)
  obtain ⟨⟨t, bs⟩, hrun', bag, hcs, rfl, hinv, hgood⟩ := hresult
  refine ⟨_, hrun', hinv.data, hinv.spare, ?_, hinv.loop, fun hne => ?_, fun hnil => ?_,
    hinv.outside, hinv.mutexes⟩
  · rw [hcs, Multiset.map_map, Multiset.map_map]
    rfl
  · rw [hcs] at hne
    obtain ⟨d, hd, s', c', hstep⟩ := exists_moves (mt Multiset.map_eq_zero.mpr hne) hinv hgood
    obtain ⟨rest, rfl⟩ := Multiset.exists_cons_of_mem hd
    exact ⟨d.call, rest.map Program.Pair.call, s', c', by rw [hcs, Multiset.map_cons], hstep⟩
  · rw [hcs] at hnil
    rw [Multiset.map_eq_zero.mp hnil] at hinv
    exact hinv.chains hN hN0

end

/-! ### Calls that are not interrupted -/

/-- No thread is between lock and unlock, and the links spell out the lists. -/
structure Quiet (qs : Finset ℕ) (s : State Queue.Memory W) (t : State (ℕ → List ℕ) W) : Prop where
  data : s.data = t.data
  spare : s.spare = t.spare
  chains : Queue.Chains s.lists qs t.lists

/-- A call on the lists `σ` that does not disturb them: a node to be put is on none of them. -/
def QueueOp.Sound (qs : Finset ℕ) (σ : ℕ → List ℕ) : QueueOp D → Prop
  | get q => q ∈ qs
  | put q e => q ∈ qs ∧ e ≠ 0 ∧ ¬ Links.OnLoop qs σ e
  | data _ => True

/-- Sound calls, all at once. -/
def soundExec (exec : Program.Exec W DReply) (qs : Finset ℕ) :
    Program.Exec (State (ℕ → List ℕ) W) (QueueOp.Reply DReply) :=
  fun t o r t' => atomicExec exec t o r t' ∧ o.Sound qs t.lists

section

variable {C : Clients X DReply W α} {qs : Finset ℕ} {s : State Queue.Memory W}
  {t t' : State (ℕ → List ℕ) W}

/-- **A call that is not interrupted** does what it does all at once. -/
theorem Quiet.runs_code {exec : Program.Exec W DReply} (h : Quiet qs s t) {o : QueueOp D}
    {v : o.Reply DReply} (ho : soundExec exec qs t o v t') :
    ∃ s', Program.Runs (linkExec exec) s o.code v s' ∧ Quiet qs s' t' := by
  obtain ⟨ho, hsound⟩ := ho
  cases o with
  | get q =>
    rcases h.chains.get hsound with ⟨hnil, hrun⟩ | ⟨e, l, m', hcons, hrun, -, hchains, -, -⟩
    · rcases ho with ⟨-, rfl, rfl⟩ | ⟨l, hcons, -⟩
      · exact ⟨_, runs_getFifo hrun, h.data, h.spare, h.chains⟩
      · rw [hnil] at hcons
        cases hcons
    · rcases ho with ⟨hnil, -⟩ | ⟨l', hcons', rfl⟩
      · rw [hnil] at hcons
        cases hcons
      · obtain ⟨rfl, rfl⟩ := Prod.mk.inj (Option.some.inj (hcons.symm.trans hcons'))
        exact ⟨_, runs_getFifo hrun, h.data, h.spare, hchains⟩
  | put q e =>
    obtain ⟨hq, he, hoff⟩ := hsound
    obtain ⟨m', hrun, hchains, -⟩ := h.chains.put hq he hoff
    obtain rfl : t' = _ := ho
    exact ⟨_, runs_putFifo hrun, h.data, h.spare, hchains⟩
  | data d =>
    obtain ⟨data, hd, rfl⟩ := ho
    exact ⟨_, ⟨v, _, ⟨data, h.data ▸ hd, rfl⟩, rfl, rfl⟩, rfl, h.spare, h.chains⟩

theorem Quiet.finish (h : Quiet qs s t) (x : X) (v : α) :
    Quiet qs (C.finish x v s) (C.finish x v t) :=
  ⟨congrArg (C.leave x v) h.data, congrArg (· + C.left x v) h.spare, h.chains⟩

/-- **Part of a thread's program** that is not interrupted. -/
theorem Quiet.run {a : System.Config (State Queue.Memory W) (X × LinkProgram DReply α)}
    {cs : Multiset (X × LinkProgram DReply α)} {x : X} {v : β}
    {f : β → Program (QueueOp.Reply DReply) α} {p : Program (QueueOp.Reply DReply) β}
    (h : Quiet qs s t) (hp : Program.Runs (soundExec C.exec qs) t p v t')
    (hrun : C.linkSystem.Run System.anyStep a ⟨s, (x, (p >>= f).interp QueueOp.code) ::ₘ cs⟩) :
    ∃ s', C.linkSystem.Run System.anyStep a ⟨s', (x, (f v).interp QueueOp.code) ::ₘ cs⟩ ∧
      Quiet qs s' t' := by
  have hcode : ∀ s t (o : QueueOp D) v t', Quiet qs s t → soundExec C.exec qs t o v t' →
      ∃ s', Program.Runs (linkExec C.exec) s o.code v s' ∧ Quiet qs s' t' :=
    fun _ _ _ _ _ h ho => h.runs_code ho
  obtain ⟨s', hruns, hquiet⟩ := Program.Runs.interp hcode h hp
  rw [Program.interp_bind] at hrun
  exact ⟨s', Program.run_part (f := fun v => (f v).interp QueueOp.code) id (fun _ => trivial)
    hruns hrun, hquiet⟩

end

/-- A node goes from `q` to `q'`. -/
def moveNode (q q' : ℕ) : Program (QueueOp.Reply fun _ : Empty => Unit) Unit :=
  .op (.get q) fun e => if e = 0 then .ret () else .op (.put q' e) fun _ => .ret ()

/-- Threads that do this. -/
def movers (q q' : ℕ) : Clients Unit (fun _ : Empty => Unit) Unit Unit where
  exec _ _ _ _ := True
  enter _ _ es p _ := es = 0 ∧ p = moveNode q q'
  leave _ _ w := w
  left _ _ := 0

theorem movers_careful {q q' : ℕ} {qs : Finset ℕ} (hq : q ∈ qs) (hq' : q' ∈ qs) :
    (movers q q').Careful qs where
  uses := by
    rintro w x _ _ w' ⟨rfl, rfl⟩
    refine ⟨hq, fun e => ?_⟩
    by_cases he : e = 0
    · simp [he, Program.Uses, QueueOp.hand, movers]
    · simp [he, Program.Uses, QueueOp.hand, QueueOp.May, movers, hq']
  total _ d := d.elim

/-- Two threads, each of which moves a node. The second enters when the first has locked the queue,
and overtakes it when it has unlocked the queue again. -/
theorem movers_overtake {m : Queue.Memory} {σ : ℕ → List ℕ}
    (h : Queue.Chains m (({64, 128} : Finset ℕ) : Set ℕ) σ) (hfull : σ 64 = [192, 224])
    (hempty : σ 128 = []) :
    ∃ s, (movers 64 128).linkSystem.Run System.anyStep ⟨⟨m, (), 0⟩, 0⟩ ⟨s, 0⟩ ∧
      s.lists.links.Loop 64 [] ∧ s.lists.links.Loop 128 [224, 192] := by
  -- the first locks the queue, the second enters, and the first takes its node
  let t₁ : State (ℕ → List ℕ) Unit := ⟨Function.update σ 64 [224], (), 0⟩
  have hget : soundExec (movers 64 128).exec {64, 128} ⟨σ, (), 0⟩ (.get 64) 192 t₁ :=
    ⟨.inr ⟨[224], congrArg Milu.getFifo hfull, rfl⟩, Finset.mem_insert_self _ _⟩
  have hquiet : Quiet {64, 128} ⟨m, (), 0⟩ ⟨σ, (), 0⟩ := ⟨rfl, rfl, h⟩
  obtain ⟨s₁, hruns, hquiet₁⟩ := hquiet.runs_code hget
  obtain ⟨⟨⟩, s', hlock, hrest⟩ := hruns
  have henter (s : State Queue.Memory Unit) (cs) : (movers 64 128).linkSystem.start s cs s
      ((), (moveNode 64 128).interp QueueOp.code) := (movers 64 128).start_bare ⟨rfl, rfl⟩ cs
  have hlocked : (movers 64 128).linkSystem.Run System.anyStep ⟨⟨m, (), 0⟩, 0⟩ ⟨s', _⟩ :=
    (System.Run.start .refl (henter _ 0)).next (.op hlock) trivial
  have hentered := hlocked.start (henter s' _)
  rw [Multiset.cons_swap] at hentered
  have htaken := Program.run_part id (fun _ => trivial) hrest hentered
  -- the second moves the other node
  let t₃ : State (ℕ → List ℕ) Unit :=
    ⟨Function.update (Function.update t₁.lists 64 []) 128 [224], (), 0⟩
  have hsecond : Program.Runs (soundExec (movers 64 128).exec {64, 128}) t₁
    (moveNode 64 128) () t₃ := by
    refine ⟨224, ⟨Function.update t₁.lists 64 [], (), 0⟩, ⟨.inr ⟨[], rfl, rfl⟩, ?_⟩, (), t₃,
      ⟨?_, ?_⟩, rfl, rfl⟩
    · simp [QueueOp.Sound]
    · simp [t₃, t₁, atomicExec, State.withLists, Milu.putFifo, hempty]
    · simp [t₁, QueueOp.Sound, Links.OnLoop, hempty]
  rw [Multiset.cons_swap, ← Program.bind_ret (moveNode 64 128)] at htaken
  obtain ⟨s₃, hmoved, hquiet₃⟩ := hquiet₁.run hsecond htaken
  have hreturned := hmoved.ret .ret trivial
  -- and the first comes after it
  let t₄ : State (ℕ → List ℕ) Unit := ⟨Function.update t₃.lists 128 [224, 192], (), 0⟩
  have hput : soundExec (movers 64 128).exec {64, 128} ((movers 64 128).finish () () t₃)
      (.put 128 192) () t₄ := by
    refine ⟨?_, ?_⟩
    · simp [t₄, t₃, atomicExec, State.withLists, Milu.putFifo, Clients.finish, movers]
    · simp [t₃, t₁, QueueOp.Sound, Links.OnLoop, Clients.finish]
  obtain ⟨s₄, hruns, hquiet₄⟩ := (hquiet₃.finish () ()).runs_code hput
  have hlast := (Program.run_part (f := Program.ret) id (fun _ => trivial) hruns hreturned).ret .ret
    trivial
  refine ⟨_, hlast, ?_, ?_⟩
  · exact hquiet₄.chains.loops.loop 64 (by simp)
  · exact hquiet₄.chains.loops.loop 128 (by simp)

theorem queues_atomic_movers : ∃ m s b,
    (movers 64 128).linkSystem.Run System.anyStep ⟨⟨m, (), 0⟩, 0⟩ ⟨s, 0⟩ ∧
      s.lists.links.Loop 64 [] ∧ s.lists.links.Loop 128 [224, 192] ∧
      (movers 64 128).atomicSystem.Run System.anyStep
        ⟨⟨queued [.init 64, .init 128, .put 64 192, .put 64 224], (), 0⟩, 0⟩ b ∧
      Matches (movers 64 128) {64, 128} m
        (allNodes {64, 128} (queued [.init 64, .init 128, .put 64 192, .put 64 224]) 0)
          ⟨s, 0⟩ b := by
  have h₁ := @QueueRun.init usedMemory [] _ 64 _ .start (by decide) (by decide) rfl
  have h₂ := h₁.init (by decide : 128 ≠ 0) (by decide) rfl
  have h₃ := h₂.put (by decide : 64 ∈ _) (by decide : 192 ≠ 0) (by decide) rfl
  have h₄ := h₃.put (by decide : 64 ∈ _) (by decide : 224 ≠ 0) (by decide) rfl
  have hchains := h₄.chains
  have hqs : {q | q ∈ setUp [.init 64, .init 128, .put 64 192, .put 64 224]} =
      (({64, 128} : Finset ℕ) : Set ℕ) := by
    ext q
    simp [setUp, QueueEvent.queue]
  simp only [List.nil_append, List.cons_append] at hchains
  rw [hqs] at hchains
  obtain ⟨s, hrun, hfirst, hsecond⟩ := movers_overtake hchains rfl rfl
  obtain ⟨b, hrun', hmatches⟩ := queues_atomic (movers_careful (by simp) (by simp)) hchains
    Multiset.nodup_zero (by simp) (by simp) hrun
  exact ⟨_, s, b, hrun, hfirst, hsecond, hrun', hmatches⟩

end Shared

end Milu
