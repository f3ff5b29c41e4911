import Mathlib.Data.List.Cycle
import Milu.Lib.Links

/-!
# Segments of doubly linked loops

A loop may be opened between any two of its nodes, which leaves a segment: nodes linked in order,
with nothing said about the link back from the first one and the link on from the last one. A pair
of writes puts one node behind another. It joins two segments, or closes one, and leaves every other
segment and every other loop as it was.

Whatever is done to loops comes down to this. They are opened where links are going to be written,
and the segments are put together in another order.

## Main definitions

* `Links.Linked`, `Links.join` — a node behind another, and the two writes that put it there
* `Links.Seg`, `Links.Ring` — nodes linked in order, and in a circle

## Main results

* `Links.Seg.keep`, `Links.Seg.join`, `Links.Seg.close` — what a pair of writes does to a segment
* `Links.ring_iff_loop` — a circle, seen from one of its nodes, is a loop
* `Links.Loop.replace`, `Links.Loop.cut`, `Links.Loop.splice_first`, `Links.Loop.splice_last`
* `Links.Loops.change` — some of several loops are replaced by others on the same nodes
-/

namespace Links

variable {α : Type} {m m' : Links α} {a b e f h n p x y : α} {k l l₁ l₂ : List α}

/-! ### Nodes in order -/

/-- The node `y` is behind `x`. -/
def Linked (m : Links α) (x y : α) : Prop := m.next x = y ∧ m.prev y = x

/-- Each node is behind the one before it. -/
def Seg (m : Links α) (l : List α) : Prop := l.IsChain m.Linked

/-- The nodes form a circle, and none is visited twice. -/
def Ring (m : Links α) (c : Cycle α) : Prop := c.Nodup ∧ c.Chain m.Linked

theorem path_iff_seg : m.Path a l b ↔ m.Seg (a :: (l ++ [b])) := by
  induction l generalizing a with
  | nil => simp [Path, Seg, Linked]
  | cons x l ih => simp [Path, Seg, Linked, ih]

/-- **A circle, seen from one of its nodes**, is a loop. -/
theorem ring_iff_loop : m.Ring ↑(h :: l) ↔ m.Loop h l := by
  constructor
  · rintro ⟨hnodup, hchain⟩
    exact ⟨hnodup, path_iff_seg.mpr hchain⟩
  · rintro ⟨hnodup, hpath⟩
    exact ⟨hnodup, path_iff_seg.mp hpath⟩

/-- A circle looks the same from everywhere. -/
theorem ring_append_comm : m.Ring ↑(l₁ ++ l₂) ↔ m.Ring ↑(l₂ ++ l₁) := by
  rw [Cycle.coe_eq_coe.mpr List.isRotated_append]

theorem seg_singleton (m : Links α) (x : α) : m.Seg [x] := List.isChain_singleton x

namespace Loop

theorem seg (hl : m.Loop h l) : m.Seg (h :: l) := by
  have hall : m.Seg ((h :: l) ++ [h]) := path_iff_seg.mp hl.path
  exact List.IsChain.left_of_append hall

theorem seg_concat (hl : m.Loop h l) : m.Seg (l ++ [h]) := by
  have hall : m.Seg ([h] ++ (l ++ [h])) := path_iff_seg.mp hl.path
  exact List.IsChain.right_of_append hall

theorem seg_tail (hl : m.Loop h l) : m.Seg l := List.IsChain.left_of_append hl.seg_concat

theorem next_head (hl : m.Loop h (x :: l)) : m.next h = x := hl.path.1.1

theorem prev_last (hl : m.Loop h (l ++ [x])) : m.prev h = x := (Path.append_iff.mp hl.path).2.2

theorem eq_concat_prev (hl : m.Loop h l) (hne : l ≠ []) : ∃ k, l = k ++ [m.prev h] := by
  obtain ⟨k, x, rfl⟩ := l.eq_nil_or_concat'.resolve_left hne
  exact ⟨k, by rw [hl.prev_last]⟩

theorem eq_cons_next (hl : m.Loop h l) (hne : l ≠ []) : ∃ k, l = m.next h :: k := by
  obtain ⟨x, k, rfl⟩ := List.exists_cons_of_ne_nil hne
  exact ⟨k, by rw [hl.next_head]⟩

theorem concat_eq_cons_next (hl : m.Loop h l) : ∃ k, l ++ [h] = m.next h :: k := by
  by_cases hne : l = []
  · subst hne
    exact ⟨[], by rw [hl.path.1]; rfl⟩
  · obtain ⟨k, hk⟩ := hl.eq_cons_next hne
    exact ⟨k ++ [h], by rw [← List.cons_append, ← hk]⟩

theorem cons_eq_concat_prev (hl : m.Loop h l) : ∃ k, h :: l = k ++ [m.prev h] := by
  by_cases hne : l = []
  · subst hne
    exact ⟨[], by rw [hl.path.2]; rfl⟩
  · obtain ⟨k, hk⟩ := hl.eq_concat_prev hne
    exact ⟨h :: k, by rw [List.cons_append, ← hk]⟩

end Loop

/-- What is closed under the links on, and has the first node of a path, has the others. -/
theorem Path.mem_of_next {S : Set α} (hS : ∀ x ∈ S, m.next x ∈ S) :
    ∀ {l : List α} {a : α}, m.Path a l b → a ∈ S → b ∈ S
  | [], a, hp, ha => hp.1 ▸ hS a ha
  | _ :: _, a, hp, ha => hp.2.mem_of_next hS (hp.1.1 ▸ hS a ha)

/-- **Two loops that meet** have the same nodes. -/
theorem Loop.head_mem (hl : m.Loop h l) (hk : m.Loop b k) (hx : x ∈ h :: l) (hx' : x ∈ b :: k) :
    b ∈ h :: l := by
  rcases List.mem_cons.mp hx' with rfl | hx'
  · exact hx
  · obtain ⟨k₁, k₂, rfl⟩ := List.append_of_mem hx'
    have hpath : m.Path x k₂ b := (Path.append_iff.mp hk.path).2
    exact hpath.mem_of_next (S := {y | y ∈ h :: l}) (fun y hy => (hl.links_mem hy).1) hx

/-! ### Several loops -/

namespace Loops

variable {hs hs' W : Set α} {σ σ' : α → List α}

/-- **Some loops are replaced by others on the same nodes.** Nothing is written outside `W`, and
each loop has its head and all its nodes in there or none. -/
theorem change (hm : m.Loops hs σ) (hout : ∀ h ∈ hs, h ∉ W → ∀ x ∈ σ h, x ∉ W)
    (hsame : ∀ x ∉ W, m.SameOn m' [x]) (hkeep : ∀ h ∈ hs', h ∉ W → h ∈ hs ∧ σ' h = σ h)
    (hloop : ∀ h ∈ hs', h ∈ W → m'.Loop h (σ' h)) (hin : ∀ h ∈ hs', h ∈ W → ∀ x ∈ σ' h, x ∈ W)
    (hheads : ∀ h ∈ hs', h ∈ W → ∀ h' ∈ hs', h' ∈ W → h' ∉ σ' h) : m'.Loops hs' σ' := by
  have hinside : ∀ h ∈ hs', h ∈ W → ∀ x ∈ h :: σ' h, x ∈ W := fun h hh hW =>
    List.forall_mem_cons.mpr ⟨hW, hin h hh hW⟩
  have houtside : ∀ h ∈ hs', h ∉ W → ∀ x ∈ h :: σ' h, x ∉ W := by
    intro h hh hW
    obtain ⟨hmem, heq⟩ := hkeep h hh hW
    rw [heq]
    exact List.forall_mem_cons.mpr ⟨hW, hout h hmem hW⟩
  constructor
  · intro h hh
    by_cases hW : h ∈ W
    · exact hloop h hh hW
    · obtain ⟨hmem, heq⟩ := hkeep h hh hW
      have hoff := houtside h hh hW
      rw [heq] at hoff ⊢
      exact (hm.loop h hmem).congr fun x hx => hsame x (hoff x hx) x (List.mem_singleton_self x)
  · intro h hh h' hh' hne
    by_cases hW : h ∈ W <;> by_cases hW' : h' ∈ W
    · intro x hx hx'
      rcases List.mem_cons.mp ((hloop h hh hW).head_mem (hloop h' hh' hW') hx hx') with heq | hmem
      · exact hne heq.symm
      · exact hheads h hh hW h' hh' hW' hmem
    · exact fun x hx hx' => houtside h' hh' hW' x hx' (hinside h hh hW x hx)
    · exact fun x hx hx' => houtside h hh hW x hx (hinside h' hh' hW' x hx')
    · obtain ⟨hmem, heq⟩ := hkeep h hh hW
      obtain ⟨hmem', heq'⟩ := hkeep h' hh' hW'
      rw [heq, heq']
      exact hm.apart h hmem h' hmem' hne

end Loops

/-! ### Writes -/

variable [DecidableEq α]

/-- The node `y` is put behind `x`. -/
def join (m : Links α) (x y : α) : Links α := (m.setPrev y x).setNext x y

theorem linked_join : (m.join x y).Linked x y := ⟨Function.update_self .., Function.update_self ..⟩

theorem SameOn.join (hx : x ∉ l) (hy : y ∉ l) : m.SameOn (m.join x y) l :=
  (SameOn.setPrev hy).trans (SameOn.setNext hx)

theorem SameOn.join_of_mem {z : α} (hx : x ∈ l) (hy : y ∈ l) (hz : z ∉ l) :
    m.SameOn (m.join x y) [z] :=
  .join (by simpa using ne_of_mem_of_not_mem hx hz) (by simpa using ne_of_mem_of_not_mem hy hz)

namespace Seg

/-- **A segment is kept**, unless a link inside it is written. -/
theorem keep (hs : m.Seg l) (hx : x ∉ l.dropLast) (hy : y ∉ l.tail) : (m.join x y).Seg l := by
  induction l with
  | nil => exact List.isChain_nil
  | cons a l ih =>
    cases l with
    | nil => exact seg_singleton _ a
    | cons b l =>
      obtain ⟨hab, hrest⟩ := List.isChain_cons_cons.mp hs
      rw [List.dropLast_cons_cons, List.mem_cons, not_or] at hx
      rw [List.tail_cons, List.mem_cons, not_or] at hy
      refine List.isChain_cons_cons.mpr ⟨⟨?_, ?_⟩, ih hrest hx.2 hy.2⟩
      · exact (Function.update_of_ne (Ne.symm hx.1) _ _).trans hab.1
      · exact (Function.update_of_ne (Ne.symm hy.1) _ _).trans hab.2

theorem keep_of_notMem (hs : m.Seg l) (hx : x ∉ l) (hy : y ∉ l) : (m.join x y).Seg l :=
  hs.keep (mt (l.dropLast_subset ·) hx) (mt (l.tail_subset ·) hy)

/-- **Two segments are joined.** -/
theorem join (h₁ : m.Seg (l₁ ++ [x])) (h₂ : m.Seg (y :: l₂)) (hnodup : (l₁ ++ x :: y :: l₂).Nodup) :
    (m.join x y).Seg (l₁ ++ x :: y :: l₂) := by
  have hperm : (l₁ ++ x :: y :: l₂).Perm (x :: y :: (l₁ ++ l₂)) :=
    List.perm_middle.trans ((List.perm_middle).cons x)
  have hall := hperm.nodup_iff.mp hnodup
  simp only [List.nodup_cons, List.mem_cons, List.mem_append, not_or] at hall
  obtain ⟨⟨hxy, hx₁, hx₂⟩, ⟨hy₁, hy₂⟩, -⟩ := hall
  refine List.isChain_append_cons_cons.mpr ⟨h₁.keep ?_ ?_, linked_join, h₂.keep ?_ ?_⟩
  · rwa [List.dropLast_concat]
  · refine mt (List.mem_of_mem_tail ·) ?_
    simp [hy₁, Ne.symm hxy]
  · refine mt (List.dropLast_subset _ ·) ?_
    simp [hx₂, hxy]
  · exact hy₂

theorem cons (hs : m.Seg (y :: l)) (hnodup : (x :: y :: l).Nodup) :
    (m.join x y).Seg (x :: y :: l) := by
  have hx : m.Seg ([] ++ [x]) := seg_singleton m x
  exact hx.join hs hnodup

/-- **A segment is closed.** -/
theorem close (hs : m.Seg (y :: l)) (hlast : y :: l = k ++ [x]) (hnodup : (y :: l).Nodup) :
    (m.join x y).Ring ↑(y :: l) := by
  refine ⟨hnodup, ?_⟩
  have hlist : y :: (l ++ [y]) = k ++ x :: y :: [] := by
    rw [← List.cons_append, hlast, List.append_assoc, List.singleton_append]
  have hk : x ∉ k := by
    rw [hlast] at hnodup
    exact List.disjoint_singleton.mp (List.disjoint_of_nodup_append hnodup)
  rw [Cycle.chain_coe_cons, hlist]
  refine List.isChain_append_cons_cons.mpr ⟨?_, linked_join, seg_singleton _ y⟩
  rw [← hlast]
  refine hs.keep ?_ (List.nodup_cons.mp hnodup).1
  rwa [hlast, List.dropLast_concat]

/-- **Two segments in one circle**, the second behind the first. -/
theorem unite (h₁ : m.Seg (k ++ [p])) (hfirst : k ++ [p] = n :: l) (h₂ : m.Seg (f :: l₁))
    (hlast : f :: l₁ = l₂ ++ [x]) (hnodup : (k ++ p :: f :: l₁).Nodup) :
    ((m.join p f).join x n).Ring ↑(k ++ p :: f :: l₁) := by
  have hall : k ++ p :: f :: l₁ = n :: (l ++ f :: l₁) := by
    rw [← List.cons_append, ← hfirst, List.append_assoc, List.singleton_append]
  have hjoined := h₁.join h₂ hnodup
  rw [hall] at hjoined hnodup ⊢
  refine hjoined.close (k := n :: (l ++ l₂)) ?_ hnodup
  rw [hlast, ← List.append_assoc, List.cons_append]

end Seg

theorem Loop.keep (hl : m.Loop h l) (hx : x ∉ h :: l) (hy : y ∉ h :: l) : (m.join x y).Loop h l :=
  hl.congr (.join hx hy)

/-! ### Loops -/

namespace Loop

/-- **A node takes the place of another.** -/
theorem replace (hl : m.Loop a l) (he : e ∉ a :: l) :
    ((m.join e (m.next a)).join ((m.join e (m.next a)).prev a) e).Loop e l := by
  by_cases hnil : l = []
  · subst hnil
    have hnext : m.next a = a := hl.path.1
    have hprev : (m.join e a).prev a = e := linked_join.2
    rw [hnext, hprev]
    exact ⟨List.nodup_singleton e, linked_join⟩
  · obtain ⟨k, hk⟩ := hl.eq_concat_prev hnil
    obtain ⟨k', hk'⟩ := hl.eq_cons_next hnil
    obtain ⟨ha, hnodup⟩ := List.nodup_cons.mp hl.nodup
    have hne : a ≠ m.next a := by
      rw [hk'] at ha
      exact List.ne_of_not_mem_cons ha
    have hprev : (m.join e (m.next a)).prev a = m.prev a := Function.update_of_ne hne _ _
    have hel : e ∉ l := List.not_mem_of_not_mem_cons he
    have hnodup' : (e :: l).Nodup := List.nodup_cons.mpr ⟨hel, hnodup⟩
    have hseg : m.Seg (m.next a :: k') := hk' ▸ hl.seg_tail
    have hjoined := hseg.cons (by rwa [← hk'])
    rw [← hk'] at hjoined
    rw [hprev]
    exact ring_iff_loop.mp (hjoined.close (k := e :: k) (by rw [hk, List.cons_append]) hnodup')

theorem replace_prev_mem (hl : m.Loop a l) :
    (m.join e (m.next a)).prev a ∈ e :: a :: l := by
  by_cases heq : a = m.next a
  · have hsame : (m.join e (m.next a)).prev (m.next a) = e := linked_join.2
    rw [← heq] at hsame ⊢
    rw [hsame]
    exact List.mem_cons_self
  · have hsame : (m.join e (m.next a)).prev a = m.prev a := Function.update_of_ne heq _ _
    rw [hsame]
    exact List.mem_cons_of_mem e hl.prev_mem

theorem replace_sameOn (hl : m.Loop a l) (hx : x ∉ e :: a :: l) :
    m.SameOn ((m.join e (m.next a)).join ((m.join e (m.next a)).prev a) e) [x] := by
  have he : e ∈ e :: a :: l := List.mem_cons_self
  exact (SameOn.join_of_mem he (List.mem_cons_of_mem e hl.next_mem) hx).trans
    (SameOn.join_of_mem hl.replace_prev_mem he hx)

/-- **A loop is divided** behind one of its nodes. Those up to there go to another head. -/
theorem cut (hl : m.Loop h (l₁ ++ e :: l₂)) (ha : a ∉ h :: (l₁ ++ e :: l₂)) :
    (((m.join a (m.next h)).join e a).join h (m.next e)).Loop a (l₁ ++ [e]) ∧
      (((m.join a (m.next h)).join e a).join h (m.next e)).Loop h l₂ := by
  obtain ⟨k₁, hk₁⟩ : ∃ k, l₁ ++ [e] = m.next h :: k := by
    cases l₁ with
    | nil => exact ⟨[], by rw [hl.next_head]; rfl⟩
    | cons x l₁ => exact ⟨l₁ ++ [e], by rw [hl.next_head]; rfl⟩
  obtain ⟨k₂, hk₂⟩ : ∃ k, l₂ ++ [h] = m.next e :: k := by
    have hturned := hl.rotate
    cases l₂ with
    | nil => exact ⟨[], by rw [hturned.next_head]; rfl⟩
    | cons x l₂ => exact ⟨l₂ ++ [h], by rw [hturned.next_head]; rfl⟩
  have hA : m.Seg (m.next h :: k₁) := hk₁ ▸ (List.isChain_split.mp hl.seg_tail).1
  have hB : m.Seg (m.next e :: k₂) := hk₂ ▸ (List.isChain_split.mp hl.rotate.seg_tail).1
  have hsplit : (l₁ ++ e :: l₂) ++ [h] = (l₁ ++ [e]) ++ (l₂ ++ [h]) := by simp
  have hnodup : ((l₁ ++ [e]) ++ (l₂ ++ [h])).Nodup :=
    hsplit ▸ (List.perm_append_singleton h _).nodup_iff.mpr hl.nodup
  obtain ⟨hnodupA, hnodupB, hdisjoint⟩ := List.nodup_append'.mp hnodup
  have haAB : a ∉ (l₁ ++ [e]) ++ (l₂ ++ [h]) :=
    hsplit ▸ mt (List.perm_append_singleton h _).mem_iff.mp ha
  rw [List.mem_append, not_or] at haAB
  obtain ⟨haA, haB⟩ := haAB
  have heA : e ∈ l₁ ++ [e] := List.mem_append_right _ (List.mem_singleton_self e)
  have hhB : h ∈ l₂ ++ [h] := List.mem_append_right _ (List.mem_singleton_self h)
  have hfirst : m.next h ∈ l₁ ++ [e] := hk₁ ▸ List.mem_cons_self
  have hrest : m.next e ∈ l₂ ++ [h] := hk₂ ▸ List.mem_cons_self
  have hnodupA' : (a :: (l₁ ++ [e])).Nodup := List.nodup_cons.mpr ⟨haA, hnodupA⟩
  -- those up to `e` come behind the new head
  have hA₁ := hA.cons (by rwa [← hk₁])
  rw [← hk₁] at hA₁
  have hA₂ := ring_iff_loop.mp (hA₁.close (k := a :: l₁) rfl hnodupA')
  -- and the others are closed without them
  rw [← hk₂] at hB
  have hB₂ := (hB.keep_of_notMem haB (hdisjoint hfirst)).keep_of_notMem (hdisjoint heA) haB
  have hoff : ∀ {x}, x ∈ l₂ ++ [h] → x ∉ a :: (l₁ ++ [e]) := by
    intro x hx hc
    rcases List.mem_cons.mp hc with rfl | hc
    · exact haB hx
    · exact hdisjoint hc hx
  refine ⟨hA₂.keep (hoff hhB) (hoff hrest), ?_⟩
  rw [hk₂] at hB₂ hnodupB
  have hring := hB₂.close hk₂.symm hnodupB
  rw [← hk₂, ring_append_comm] at hring
  exact ring_iff_loop.mp hring

/-- **The nodes of another loop come in** behind the head. -/
theorem splice_first (hl : m.Loop h l) (hb : m.Loop b k) (hne : k ≠ [])
    (hdisjoint : (h :: l).Disjoint k) :
    ((m.join h (m.next b)).join (m.prev b) (m.next h)).Loop h (k ++ l) := by
  obtain ⟨k₁, hk₁⟩ := hb.eq_cons_next hne
  obtain ⟨k₂, hk₂⟩ := hb.eq_concat_prev hne
  obtain ⟨l', hl'⟩ := hl.concat_eq_cons_next
  have hperm : (l ++ h :: k).Perm ((h :: l) ++ k) := List.perm_middle
  have hnodup : (l ++ h :: k).Nodup :=
    hperm.nodup_iff.mpr (hl.nodup.append (List.nodup_cons.mp hb.nodup).2 hdisjoint)
  have hk := hb.seg_tail
  rw [hk₁] at hk hnodup
  have hring := hl.seg_concat.unite hl' hk (hk₁ ▸ hk₂) hnodup
  rw [← hk₁, ring_append_comm] at hring
  exact ring_iff_loop.mp hring

/-- **They come in** before the head, as its last ones. -/
theorem splice_last (hl : m.Loop h l) (hb : m.Loop b k) (hne : k ≠ [])
    (hdisjoint : (h :: l).Disjoint k) :
    ((m.join (m.prev h) (m.next b)).join (m.prev b) h).Loop h (l ++ k) := by
  obtain ⟨k₁, hk₁⟩ := hb.eq_cons_next hne
  obtain ⟨k₂, hk₂⟩ := hb.eq_concat_prev hne
  obtain ⟨l', hl'⟩ := hl.cons_eq_concat_prev
  have hsplit : l' ++ m.prev h :: k = (h :: l) ++ k := by
    rw [hl', List.append_assoc, List.singleton_append]
  have hnodup : (l' ++ m.prev h :: k).Nodup :=
    hsplit ▸ hl.nodup.append (List.nodup_cons.mp hb.nodup).2 hdisjoint
  have hk := hb.seg_tail
  rw [hk₁] at hk hnodup
  have hseg : m.Seg (l' ++ [m.prev h]) := hl' ▸ hl.seg
  have hring := hseg.unite hl'.symm hk (hk₁ ▸ hk₂) hnodup
  rw [← hk₁, hsplit] at hring
  exact ring_iff_loop.mp hring

end Loop

end Links
