import Milu.Lib.Shares
import Milu.Pool.InMemoryRuns
import Milu.Pool.QueueAtomicity
import Milu.Pool.SharedBank

/-!
# No slot of a shared bank is lost or handed out twice

While calls are in progress some nodes are on no queue and some addresses are in no node and held by
no thread: they are in the hands of a call. With these counted in, each pool has all its nodes and
all its slots at every moment, each once.

A put finds a node on `avail_q`, then. Every address that is held, or about to be put, has left
behind a node there, and only the calls that have already taken theirs are without one.

## Main definitions

* `Shared.Token` — what a call has in its hands
* `Shared.Complete` — every pool has all its nodes and all its slots

## Main results

* `Shared.Complete.take`, `Shared.Complete.give`, `Shared.Complete.retake`, `Shared.Complete.write`,
  `Shared.Complete.putBack` — the steps of a get and of a put
* `Shared.Complete.avail_ne_nil` — a put finds a node
* `Shared.safe_poolGetPtr`, `Shared.safe_poolPutPtr` — a call on one pool
* `Shared.Complete.run` — whatever the threads do, every pool stays complete
-/

namespace Milu

/-- The nodes of a pool. -/
def Pool.nodes (P : Pool) : Multiset ℕ := ((List.range P.nobjs).map P.node : List ℕ)

theorem Pool.nodes_nodup (P : Pool) : P.nodes.Nodup := List.nodup_range.map P.node_injective

namespace Shared

open InMemory (PoolStruct BankStruct offsetofQE)

/-! ### In the hands of a call -/

/-- What a call has in its hands: nothing, an address, a node with an address in it, or a node and
an address that is not in it. -/
inductive Token
  | none
  | addr (x : ℕ)
  | full (e : ℕ)
  | empty (e x : ℕ)

namespace Token

/-- Its node. -/
def nodes : Token → Multiset ℕ
  | none | addr _ => 0
  | full e | empty e _ => {e}

/-- Its address. -/
def addrs (ptr : ℕ → ℕ) : Token → Multiset ℕ
  | none => 0
  | addr x | empty _ x => {x}
  | full e => {ptr (e - offsetofQE)}

/-- A node and an address belong to the same pool. -/
def Good (pools : List Pool) (ptr : ℕ → ℕ) : Token → Prop
  | none | addr _ => True
  | full e => ∀ P ∈ pools, e ∈ P.nodes ↔ P.owns (ptr (e - offsetofQE)) = true
  | empty e x => ∀ P ∈ pools, e ∈ P.nodes ↔ P.owns x = true

end Token

/-- The nodes in the hands of calls. -/
def nodesOf (toks : Multiset Token) : Multiset ℕ := (toks.map Token.nodes).sum

/-- The addresses in the hands of calls. -/
def addrsOf (ptr : ℕ → ℕ) (toks : Multiset Token) : Multiset ℕ := (toks.map (Token.addrs ptr)).sum

@[simp] theorem nodesOf_cons (tok : Token) (toks : Multiset Token) :
    nodesOf (tok ::ₘ toks) = tok.nodes + nodesOf toks := by simp [nodesOf]

@[simp] theorem addrsOf_cons (ptr : ℕ → ℕ) (tok : Token) (toks : Multiset Token) :
    addrsOf ptr (tok ::ₘ toks) = tok.addrs ptr + addrsOf ptr toks := by simp [addrsOf]

/-- The calls and accesses, on lists and fields. -/
abbrev BankState := State (ℕ → List ℕ) Fields

/-- Pools that have nothing in common, with their slots where they say. -/
structure Distinct (pools : List Pool) : Prop where
  nodes : ∀ P ∈ pools, ∀ Q ∈ pools, P ≠ Q → ∀ e ∈ P.nodes, e ∉ Q.nodes
  owns : ∀ P ∈ pools, ∀ Q ∈ pools, P ≠ Q → ∀ x, P.owns x = true → ¬ Q.owns x = true
  queues : ∀ P ∈ pools, ∀ Q ∈ pools, P ≠ Q → P.header.poolQ ≠ Q.header.poolQ ∧
    P.header.poolQ ≠ Q.header.availQ ∧ P.header.availQ ≠ Q.header.poolQ ∧
    P.header.availQ ≠ Q.header.availQ
  slots : ∀ P ∈ pools, ∀ x ∈ P.slots, P.owns x = true ∧ x ≠ 0
  outside : ∀ P ∈ pools, ∀ x, Outside x P.header ↔ ¬ P.owns x = true
  entry : ∀ P ∈ pools, ∀ e ∈ P.nodes, e - offsetofQE ≠ 0

theorem Distinct.good {pools : List Pool} (hd : Distinct pools) {P : Pool} (hP : P ∈ pools)
    {ptr : ℕ → ℕ} {tok : Token} (htok : ∀ e ∈ tok.nodes, e ∈ P.nodes)
    (haddr : ∀ x ∈ tok.addrs ptr, P.owns x = true) : tok.Good pools ptr := by
  have hsame : ∀ {e x}, e ∈ P.nodes → P.owns x = true →
      ∀ Q ∈ pools, e ∈ Q.nodes ↔ Q.owns x = true := by
    intro e x he hx Q hQ
    by_cases hQP : Q = P
    · rw [hQP]
      exact iff_of_true he hx
    · exact iff_of_false (hd.nodes P hP Q hQ (Ne.symm hQP) e he)
        (hd.owns P hP Q hQ (Ne.symm hQP) x hx)
  cases tok with
  | none | addr x => trivial
  | full e | empty e x =>
    exact hsame (htok _ (by simp [Token.nodes])) (haddr _ (by simp [Token.addrs]))

/-- What a put returns: zero, or what the last pool said if the address is in none of them. -/
def PutReturns (pools : List Pool) (last : ℤ) (x : ℕ) (ret : ℤ) : Prop :=
  (ret = 0 ∧ ∃ P ∈ pools, P.owns x = true) ∨
    (ret = (if pools.isEmpty then last else -1) ∧ ∀ P ∈ pools, ¬ P.owns x = true)

/-- A call that has returned has done right: a get has returned a slot or `NULL`, and a put was
accepted if the address is in a pool. -/
def Right (pools : List Pool) : BankCall × (ℕ ⊕ ℤ) → Prop
  | (.get, .inl x) => x = 0 ∨ ∃ P ∈ pools, x ∈ P.slots
  | (.put x, .inr ret) => PutReturns pools 0 x ret
  | _ => False

/-- **Every pool has all its nodes and all its slots**, each once, with those counted in that are in
the hands of a call or of a thread. -/
structure Complete (pools : List Pool) (t : BankState) (toks : Multiset Token) : Prop where
  good : ∀ tok ∈ toks, tok.Good pools t.data.ptr
  nodes : ∀ P ∈ pools, ↑(t.lists P.header.poolQ) + ↑(t.lists P.header.availQ) +
    (nodesOf toks).filter (· ∈ P.nodes) = P.nodes
  addrs : ∀ P ∈ pools, (↑(t.lists P.header.poolQ) : Multiset ℕ).map
      (fun e => t.data.ptr (e - offsetofQE)) +
    (addrsOf t.data.ptr toks + t.data.held).filter (P.owns · = true) = ↑P.slots
  held : ∀ x ∈ t.data.held, ∃ P ∈ pools, P.owns x = true
  returned : ∀ c ∈ t.data.returned, Right pools c
  null : t.data.null = false

namespace Complete

variable {pools : List Pool} {t t' : BankState} {tok tok' : Token} {others : Multiset Token}
  {P : Pool} {e x : ℕ} {l : List ℕ}

theorem mem_nodes (h : Complete pools t others) (hP : P ∈ pools)
    (he : e ∈ t.lists P.header.poolQ ++ t.lists P.header.availQ) : e ∈ P.nodes := by
  rw [← h.nodes P hP, Multiset.mem_add, Multiset.coe_add]
  exact .inl he

/-- **A step at one pool.** What it takes from the lists it has in its hands afterwards, and the
other way round. -/
theorem change (hd : Distinct pools) (h : Complete pools t (tok ::ₘ others)) (hP : P ∈ pools)
    (hlists : ∀ q, q ≠ P.header.poolQ → q ≠ P.header.availQ → t'.lists q = t.lists q)
    (hptr : ∀ e, e ∉ P.nodes ∨ e ∈ nodesOf others →
      t'.data.ptr (e - offsetofQE) = t.data.ptr (e - offsetofQE))
    (hheld : t'.data.held = t.data.held) (hreturned : t'.data.returned = t.data.returned)
    (hnull : t'.data.null = t.data.null)
    (htok : ∀ e ∈ tok.nodes + tok'.nodes, e ∈ P.nodes)
    (haddr : ∀ x ∈ tok.addrs t.data.ptr + tok'.addrs t'.data.ptr, P.owns x = true)
    (hnodes : (↑(t'.lists P.header.poolQ) + ↑(t'.lists P.header.availQ) + tok'.nodes : Multiset ℕ) =
      ↑(t.lists P.header.poolQ) + ↑(t.lists P.header.availQ) + tok.nodes)
    (haddrs : (↑(t'.lists P.header.poolQ) : Multiset ℕ).map
        (fun e => t'.data.ptr (e - offsetofQE)) + tok'.addrs t'.data.ptr =
      (↑(t.lists P.header.poolQ) : Multiset ℕ).map
        (fun e => t.data.ptr (e - offsetofQE)) + tok.addrs t.data.ptr) :
    Complete pools t' (tok' ::ₘ others) := by
  simp only [Multiset.mem_add, or_imp, forall_and] at htok haddr
  have hother : ∀ {e}, .full e ∈ others →
      t'.data.ptr (e - offsetofQE) = t.data.ptr (e - offsetofQE) := fun he =>
    hptr _ (.inr (Multiset.mem_bind.mpr ⟨_, he, Multiset.mem_singleton_self _⟩))
  have hall : addrsOf t'.data.ptr others = addrsOf t.data.ptr others := by
    refine congrArg Multiset.sum (Multiset.map_congr rfl fun u hu => ?_)
    cases u with
    | full e => rw [Token.addrs, Token.addrs, hother hu]
    | _ => rfl
  refine ⟨fun u hu => ?_, fun Q hQ => ?_, fun Q hQ => ?_, hheld ▸ h.held, hreturned ▸ h.returned,
    hnull.trans h.null⟩
  · rcases Multiset.mem_cons.mp hu with rfl | hu
    · exact hd.good hP htok.2 haddr.2
    · have hgood := h.good u (Multiset.mem_cons_of_mem hu)
      cases u with
      | full e =>
        intro Q hQ
        rw [hother hu]
        exact hgood Q hQ
      | _ => exact hgood
  · have hold := h.nodes Q hQ
    rw [nodesOf_cons, Multiset.filter_add] at hold ⊢
    by_cases hQP : Q = P
    · subst hQP
      rw [Multiset.filter_eq_self.mpr htok.1] at hold
      rw [Multiset.filter_eq_self.mpr htok.2, ← add_assoc, hnodes, add_assoc]
      exact hold
    · obtain ⟨h₁, h₂, h₃, h₄⟩ := hd.queues Q hQ P hP hQP
      have hnone : ∀ {e}, e ∈ P.nodes → e ∉ Q.nodes := fun he =>
        hd.nodes P hP Q hQ (Ne.symm hQP) _ he
      rw [Multiset.filter_eq_nil.mpr fun e he => hnone (htok.1 e he)] at hold
      rw [Multiset.filter_eq_nil.mpr fun e he => hnone (htok.2 e he), hlists _ h₁ h₂,
        hlists _ h₃ h₄]
      exact hold
  · have hold := h.addrs Q hQ
    rw [addrsOf_cons, add_assoc, Multiset.filter_add] at hold ⊢
    rw [hall, hheld]
    by_cases hQP : Q = P
    · subst hQP
      rw [Multiset.filter_eq_self.mpr haddr.1] at hold
      rw [Multiset.filter_eq_self.mpr haddr.2, ← add_assoc, haddrs, add_assoc]
      exact hold
    · obtain ⟨h₁, h₂, -⟩ := hd.queues Q hQ P hP hQP
      have hnone : ∀ {x}, P.owns x = true → ¬ Q.owns x = true :=
        fun hx => hd.owns P hP Q hQ (Ne.symm hQP) _ hx
      rw [Multiset.filter_eq_nil.mpr fun x hx => hnone (haddr.1 x hx)] at hold
      rw [Multiset.filter_eq_nil.mpr fun x hx => hnone (haddr.2 x hx), hlists _ h₁ h₂]
      rw [Multiset.map_congr rfl fun e he => hptr e (.inl ?_)]
      · exact hold
      · exact hd.nodes Q hQ P hP hQP e (h.mem_nodes hQ (List.mem_append_left _ he))

theorem slot_mem (h : Complete pools t others) (hP : P ∈ pools)
    (he : e ∈ t.lists P.header.poolQ) : t.data.ptr (e - offsetofQE) ∈ P.slots := by
  have hmem : t.data.ptr (e - offsetofQE) ∈ (P.slots : Multiset ℕ) := by
    rw [← h.addrs P hP]
    exact Multiset.mem_add.mpr (.inl (Multiset.mem_map_of_mem _ (Multiset.mem_coe.mpr he)))
  exact hmem

/-- **A get takes a node** from `pool_q`. -/
theorem take (hd : Distinct pools) (h : Complete pools t (.none ::ₘ others)) (hP : P ∈ pools)
    (hq : t.lists P.header.poolQ = e :: l) :
    Complete pools (t.withLists (Function.update t.lists P.header.poolQ l))
      (.full e ::ₘ others) := by
  have he : e ∈ t.lists P.header.poolQ := by simp [hq]
  have hx := (hd.slots P hP _ (h.slot_mem hP he)).1
  have hmem := h.mem_nodes hP (List.mem_append_left _ he)
  have hne := P.header.poolQ_ne_availQ
  refine h.change hd hP (fun q hq _ => Function.update_of_ne hq _ _) (fun _ _ => rfl) rfl rfl rfl
    (by simpa [Token.nodes] using hmem) (by simpa [Token.addrs] using hx) ?_ ?_
  · rw [lists_withLists, Function.update_self, Function.update_of_ne hne.symm, hq]
    simp only [Token.nodes, ← Multiset.cons_coe, ← Multiset.singleton_add]
    abel
  · rw [lists_withLists, Function.update_self, hq]
    simp only [Token.addrs, ← Multiset.cons_coe, ← Multiset.singleton_add, Multiset.map_add,
      Multiset.map_singleton, data_withLists]
    abel

/-- **It puts the node** on `avail_q`, and keeps the address. -/
theorem give (hd : Distinct pools) (h : Complete pools t (.empty e x ::ₘ others)) (hP : P ∈ pools)
    (he : e ∈ P.nodes) :
    Complete pools (t.withLists (Function.update t.lists P.header.availQ
      (Milu.putFifo (t.lists P.header.availQ) e))) (.addr x ::ₘ others) := by
  have hx := (h.good _ (Multiset.mem_cons_self _ _) P hP).mp he
  have hne := P.header.poolQ_ne_availQ
  refine h.change hd hP (fun q _ hq => Function.update_of_ne hq _ _) (fun _ _ => rfl) rfl rfl rfl
    (by simpa [Token.nodes] using he) (by simpa [Token.addrs] using hx) ?_ ?_
  · rw [lists_withLists, Function.update_self, Function.update_of_ne hne, Milu.putFifo]
    simp only [Token.nodes, ← Multiset.coe_add, Multiset.coe_singleton]
    abel
  · rw [lists_withLists, Function.update_of_ne hne]
    rfl

/-- **A put takes a node** from `avail_q`. -/
theorem retake (hd : Distinct pools) (h : Complete pools t (.addr x ::ₘ others)) (hP : P ∈ pools)
    (hx : P.owns x = true) (hq : t.lists P.header.availQ = e :: l) :
    Complete pools (t.withLists (Function.update t.lists P.header.availQ l))
      (.empty e x ::ₘ others) := by
  have he := h.mem_nodes (e := e) hP (List.mem_append_right _ (by simp [hq]))
  have hne := P.header.poolQ_ne_availQ
  refine h.change hd hP (fun q _ hq => Function.update_of_ne hq _ _) (fun _ _ => rfl) rfl rfl rfl
    (by simpa [Token.nodes] using he) (by simpa [Token.addrs] using hx) ?_ ?_
  · rw [lists_withLists, Function.update_self, Function.update_of_ne hne, hq]
    simp only [Token.nodes, ← Multiset.cons_coe, ← Multiset.singleton_add]
    abel
  · rw [lists_withLists, Function.update_of_ne hne]
    rfl

/-- **It puts the node** on `pool_q`, with the address in it. -/
theorem putBack (hd : Distinct pools) (h : Complete pools t (.full e ::ₘ others)) (hP : P ∈ pools)
    (he : e ∈ P.nodes) :
    Complete pools (t.withLists (Function.update t.lists P.header.poolQ
      (Milu.putFifo (t.lists P.header.poolQ) e))) (.none ::ₘ others) := by
  have hx := (h.good _ (Multiset.mem_cons_self _ _) P hP).mp he
  have hne := P.header.poolQ_ne_availQ
  refine h.change hd hP (fun q hq _ => Function.update_of_ne hq _ _) (fun _ _ => rfl) rfl rfl rfl
    (by simpa [Token.nodes] using he) (by simpa [Token.addrs] using hx) ?_ ?_
  · rw [lists_withLists, Function.update_self, Function.update_of_ne hne.symm, Milu.putFifo]
    simp only [Token.nodes, ← Multiset.coe_add, Multiset.coe_singleton]
    abel
  · rw [lists_withLists, Function.update_self, Milu.putFifo]
    simp only [Token.addrs, ← Multiset.coe_add, Multiset.coe_singleton, Multiset.map_add,
      Multiset.map_singleton, data_withLists]
    abel

/-- **A get reads the address** in its node. -/
theorem read (h : Complete pools t (.full e ::ₘ others)) :
    Complete pools t (.empty e (t.data.ptr (e - offsetofQE)) ::ₘ others) where
  good u hu := by
    rcases Multiset.mem_cons.mp hu with rfl | hu
    · exact h.good (.full e) (Multiset.mem_cons_self _ _)
    · exact h.good u (Multiset.mem_cons_of_mem hu)
  nodes P hP := by simpa [Token.nodes] using h.nodes P hP
  addrs P hP := by simpa [Token.addrs] using h.addrs P hP
  held := h.held
  returned := h.returned
  null := h.null

/-- A node in the hands of a call is in the hands of no other, and on no queue. -/
theorem alone (h : Complete pools t (tok ::ₘ others)) (hP : P ∈ pools) (htok : e ∈ tok.nodes)
    (he : e ∈ P.nodes) :
    e ∉ nodesOf others ∧ e ∉ t.lists P.header.poolQ := by
  have hnodup := P.nodes_nodup
  rw [← h.nodes P hP, nodesOf_cons, Multiset.filter_add, Multiset.nodup_add, Multiset.nodup_add,
    Multiset.nodup_add] at hnodup
  obtain ⟨-, ⟨-, -, hothers⟩, hqueues⟩ := hnodup
  have hmem : e ∈ tok.nodes.filter (· ∈ P.nodes) := Multiset.mem_filter.mpr ⟨htok, he⟩
  constructor
  · exact fun hc => Multiset.disjoint_left.mp hothers hmem (Multiset.mem_filter.mpr ⟨hc, he⟩)
  · refine fun hc => Multiset.disjoint_left.mp hqueues ?_ (Multiset.mem_add.mpr (.inl hmem))
    exact Multiset.mem_add.mpr (.inl hc)

/-- **A put writes the address** into its node. -/
theorem write (hd : Distinct pools) (h : Complete pools t (.empty e x ::ₘ others)) (hP : P ∈ pools)
    (he : e ∈ P.nodes) {w : Fields} (hptr : w.ptr = Function.update t.data.ptr (e - offsetofQE) x)
    (hheld : w.held = t.data.held) (hreturned : w.returned = t.data.returned)
    (hnull : w.null = t.data.null) :
    Complete pools ⟨t.lists, w, t.spare⟩ (.full e ::ₘ others) := by
  have hx := (h.good _ (Multiset.mem_cons_self _ _) P hP).mp he
  obtain ⟨hother, hqueue⟩ := h.alone (e := e) hP (by simp [Token.nodes]) he
  have hentry := hd.entry P hP e he
  have hsame : ∀ e', e' ≠ e → w.ptr (e' - offsetofQE) = t.data.ptr (e' - offsetofQE) := by
    intro e' hne
    rw [hptr]
    refine Function.update_of_ne (fun hc => hne ?_) _ _
    simp only [offsetofQE] at hc hentry
    omega
  refine h.change hd hP (fun q _ _ => rfl) (fun e' he' => hsame e' ?_) hheld hreturned hnull
    (by simpa [Token.nodes] using he) (by simpa [Token.addrs, hptr] using hx) rfl ?_
  · rintro rfl
    exact he'.elim (· he) hother
  · have hmap : (↑(t.lists P.header.poolQ) : Multiset ℕ).map (fun e => w.ptr (e - offsetofQE)) =
        (↑(t.lists P.header.poolQ) : Multiset ℕ).map (fun e => t.data.ptr (e - offsetofQE)) :=
      Multiset.map_congr rfl fun e' he' => hsame e' (ne_of_mem_of_not_mem he' hqueue)
    show _ + {w.ptr (e - offsetofQE)} = _ + {x}
    rw [hmap, hptr, Function.update_self]

theorem hand_slot {toks : Multiset Token} (h : Complete pools t toks) (hP : P ∈ pools)
    (hx : P.owns x = true) (hmem : x ∈ addrsOf t.data.ptr toks + t.data.held) : x ∈ P.slots := by
  have hslot : x ∈ (P.slots : Multiset ℕ) := by
    rw [← h.addrs P hP]
    exact Multiset.mem_add.mpr (.inr (Multiset.mem_filter.mpr ⟨hmem, hx⟩))
  exact hslot

/-- There are no more nodes in the hands of calls than addresses. -/
theorem card_nodes_le (hP : P ∈ pools) {ptr : ℕ → ℕ} (toks : Multiset Token) :
    (∀ tok ∈ toks, tok.Good pools ptr) →
      Multiset.card ((nodesOf toks).filter (· ∈ P.nodes)) ≤
        Multiset.card ((addrsOf ptr toks).filter (P.owns · = true)) := by
  induction toks using Multiset.induction_on with
  | empty => simp [nodesOf]
  | cons tok toks ih =>
    intro hgood
    have hrest := ih fun u hu => hgood u (Multiset.mem_cons_of_mem hu)
    have hone : Multiset.card (tok.nodes.filter (· ∈ P.nodes)) ≤
        Multiset.card ((tok.addrs ptr).filter (P.owns · = true)) := by
      have htok := hgood tok (Multiset.mem_cons_self _ _)
      cases tok with
      | none | addr x => simp [Token.nodes]
      | full e | empty e x =>
        simp only [Token.nodes, Token.addrs, Multiset.filter_singleton, htok P hP]
        split <;> simp
    simp only [nodesOf_cons, addrsOf_cons, Multiset.filter_add, Multiset.card_add]
    omega

/-- **A put finds a node** on `avail_q`. -/
theorem avail_ne_nil (h : Complete pools t (.addr x ::ₘ others)) (hP : P ∈ pools)
    (hx : P.owns x = true) : t.lists P.header.availQ ≠ [] := by
  have hnodes := congrArg Multiset.card (h.nodes P hP)
  have haddrs := congrArg Multiset.card (h.addrs P hP)
  have hless := card_nodes_le hP others fun u hu => h.good u (Multiset.mem_cons_of_mem hu)
  have hmine : Multiset.card (({x} : Multiset ℕ).filter (P.owns · = true)) = 1 := by
    simp [Multiset.filter_singleton, hx]
  have hcard : Multiset.card P.nodes = P.slots.length := by simp [Pool.nodes, Pool.length_slots]
  simp only [nodesOf_cons, addrsOf_cons, Token.nodes, Token.addrs, Multiset.zero_add,
    Multiset.filter_add, Multiset.card_add, Multiset.card_map, Multiset.coe_card] at hnodes haddrs
  intro hnil
  rw [hnil, List.length_nil] at hnodes
  omega

theorem pass {toks toks' : Multiset Token} (h : Complete pools t toks) {w : Fields}
    (spare : Multiset ℕ) (hptr : w.ptr = t.data.ptr)
    (hgood : ∀ tok ∈ toks', tok.Good pools t.data.ptr) (hnodes : nodesOf toks' = nodesOf toks)
    (haddrs : ∀ P ∈ pools, (addrsOf t.data.ptr toks' + w.held).filter (P.owns · = true) =
      (addrsOf t.data.ptr toks + t.data.held).filter (P.owns · = true))
    (hheld : ∀ x ∈ w.held, ∃ P ∈ pools, P.owns x = true)
    (hreturned : ∀ c ∈ w.returned, Right pools c) (hnull : w.null = false) :
    Complete pools ⟨t.lists, w, spare⟩ toks' where
  good tok htok := hptr ▸ hgood tok htok
  nodes P hP := hnodes ▸ h.nodes P hP
  addrs P hP := by
    rw [hptr, haddrs P hP]
    exact h.addrs P hP
  held := hheld
  returned := hreturned
  null := hnull

theorem count (h : Complete pools t others) (nQ : ℕ → ℕ) :
    Complete pools ⟨t.lists, { t.data with nQ := nQ }, t.spare⟩ others :=
  h.pass t.spare rfl h.good rfl (fun _ _ => rfl) h.held h.returned h.null

end Complete

/-! ### One call -/

section

variable {pools : List Pool} {P : Pool} {x : ℕ}

/-- A program that can be run from what it has in its hands. -/
abbrev Safe (pools : List Pool) {α : Type} (post : α → Token → Prop) :
    PoolProgram α → Token → Prop :=
  Program.Safe (atomicExec FieldOp.exec) (fun _ _ => True) (Complete pools) post

/-- A get has the address in its hands, unless that is `NULL`. -/
def Handed (pools : List Pool) (x : ℕ) (tok : Token) : Prop :=
  (x = 0 ∧ tok = .none) ∨ (x ≠ 0 ∧ tok = .addr x ∧ ∃ P ∈ pools, P.owns x = true)

/-- A put has nothing in its hands, unless the address is in no pool that was tried. -/
def Accepted (pools : List Pool) (last : ℤ) (x : ℕ) (ret : ℤ) (tok : Token) : Prop :=
  (ret = 0 ∧ tok = .none ∧ ∃ P ∈ pools, P.owns x = true) ∨
    (ret = (if pools.isEmpty then last else -1) ∧ tok = .addr x ∧ ∀ P ∈ pools, ¬ P.owns x = true)

theorem safe_count {α : Type} {post : α → Token → Prop} {tok : Token} {p : ℕ} {f : ℕ → ℕ}
    {q : PoolProgram α} (hq : Safe pools post q tok) :
    Safe pools post (nQ p >>= fun n => setNQ p (f n) >>= fun _ => q) tok := by
  rintro t others n _ hinv - ⟨_, ⟨rfl, rfl⟩, rfl⟩
  refine ⟨tok, hinv, ?_⟩
  rintro t others ⟨⟩ _ hinv - ⟨_, rfl, rfl⟩
  exact ⟨tok, hinv.count _, hq⟩

/-- **`pool_get_ptr` among other calls.** -/
theorem safe_poolGetPtr (hd : Distinct pools) (hP : P ∈ pools) :
    Safe pools (Handed pools) (poolGetPtr (some P.header)) .none := by
  rintro t others lh _ hinv - (⟨-, rfl, rfl⟩ | ⟨l, hfirst, rfl⟩)
  · exact ⟨.none, hinv, .inl ⟨rfl, rfl⟩⟩
  · have hq := getFifo_eq_some.mp hfirst
    have he : lh ∈ t.lists P.header.poolQ := by simp [hq]
    have hnode := hinv.mem_nodes hP (List.mem_append_left _ he)
    have hentry := hd.entry P hP lh hnode
    have hlh : lh ≠ 0 := by
      rintro rfl
      exact hentry rfl
    refine ⟨.full lh, hinv.take hd hP hq, ?_⟩
    show Safe pools (Handed pools) (if lh = 0 then _ else _) (.full lh)
    rw [if_neg hlh]
    rintro t others x _ hinv - ⟨_, ⟨rfl, rfl⟩, rfl⟩
    have howns := (hinv.good _ (Multiset.mem_cons_self _ _) P hP).mp hnode
    have hslot := hinv.hand_slot hP howns (by simp [Token.addrs])
    have hread : Complete pools ⟨t.lists, t.data.touch (lh - offsetofQE), t.spare⟩
        (.empty lh (t.data.ptr (lh - offsetofQE)) ::ₘ others) :=
      hinv.read.pass t.spare rfl hinv.read.good rfl (fun _ _ => rfl) hinv.held hinv.returned
        (by simp [Fields.touch, hinv.null, hentry])
    refine ⟨_, hread, ?_⟩
    have hx := (hd.slots P hP _ hslot).2
    generalize t.data.ptr (lh - offsetofQE) = x at howns hx
    rintro t others ⟨⟩ _ hinv - rfl
    exact ⟨.addr x, hinv.give hd hP hnode, safe_count (.inr ⟨hx, rfl, P, hP, howns⟩)⟩

/-- **`pool_put_ptr` among other calls.** -/
theorem safe_poolPutPtr (hd : Distinct pools) (hP : P ∈ pools) (last : ℤ) :
    Safe pools (Accepted [P] last x) (poolPutPtr (some P.header) x) (.addr x) := by
  rw [poolPutPtr]
  by_cases hout : x < P.header.startAddr ∨ x ≥ P.header.endAddr
  · rw [if_pos hout]
    exact .inr ⟨rfl, rfl, by simpa using (hd.outside P hP x).mp hout⟩
  · rw [if_neg hout]
    have hx : P.owns x = true := by
      by_contra hc
      exact hout ((hd.outside P hP x).mpr hc)
    rintro t others lh _ hinv - (⟨hnone, -⟩ | ⟨l, hfirst, rfl⟩)
    · exact absurd (getFifo_eq_none.mp hnone) (hinv.avail_ne_nil hP hx)
    · have hq := getFifo_eq_some.mp hfirst
      have hnode := hinv.mem_nodes (e := lh) hP (List.mem_append_right _ (by simp [hq]))
      have hentry := hd.entry P hP lh hnode
      have hlh : lh ≠ 0 := by
        rintro rfl
        exact hentry rfl
      refine ⟨.empty lh x, hinv.retake hd hP hx hq, ?_⟩
      show Safe pools (Accepted [P] last x) (if lh = 0 then _ else _) (.empty lh x)
      rw [if_neg hlh]
      rintro t others ⟨⟩ _ hinv - ⟨_, rfl, rfl⟩
      refine ⟨.full lh, hinv.write hd hP hnode rfl rfl rfl ?_, ?_⟩
      · simp [Fields.touch, hentry]
      rintro t others ⟨⟩ _ hinv - rfl
      exact ⟨.none, hinv.putBack hd hP hnode, safe_count (.inl ⟨rfl, rfl, P, by simp, hx⟩)⟩

/-- The pools of an array, none of which is `NULL`. -/
def structs (qs : List Pool) : List (Option PoolStruct) := qs.map fun P => some P.header

/-- **The loop of `bank_get_ptr`** stops at the first address. -/
theorem safe_bankGetLoop (hd : Distinct pools) : ∀ {qs : List Pool}, (∀ P ∈ qs, P ∈ pools) →
    Safe pools (Handed pools) (bankGetLoop (structs qs)) .none
  | [], _ => .inl ⟨rfl, rfl⟩
  | P :: qs, h => by
    refine (safe_poolGetPtr hd (h P List.mem_cons_self)).bind (fun _ _ _ _ => trivial) ?_
    rintro x tok (⟨rfl, rfl⟩ | ⟨hx, rfl, howned⟩)
    · rw [if_neg (not_not.mpr rfl)]
      exact safe_bankGetLoop hd fun Q hQ => h Q (List.mem_cons_of_mem _ hQ)
    · rw [if_pos hx]
      exact .inr ⟨hx, rfl, howned⟩

/-- **The loop of `bank_put_ptr`** stops at the pool that the address is in. -/
theorem safe_bankPutLoop (hd : Distinct pools) : ∀ {qs : List Pool} (last : ℤ),
    (∀ P ∈ qs, P ∈ pools) →
      Safe pools (Accepted qs last x) (bankPutLoop x last (structs qs)) (.addr x)
  | [], last, _ => .inr ⟨rfl, rfl, by simp⟩
  | P :: qs, last, h => by
    refine (safe_poolPutPtr hd (h P List.mem_cons_self) last).bind (fun _ _ _ _ => trivial) ?_
    rintro ret tok (⟨rfl, rfl, howned⟩ | ⟨rfl, rfl, hnone⟩)
    · rw [if_pos rfl]
      exact .inl ⟨rfl, rfl, P, List.mem_cons_self, by simpa using howned⟩
    · have hrest : Safe pools (Accepted qs (-1) x) (bankPutLoop x (-1) (structs qs)) (.addr x) :=
        safe_bankPutLoop hd (-1) fun Q hQ => h Q (List.mem_cons_of_mem _ hQ)
      refine hrest.mono ?_
      rintro ret tok (⟨rfl, rfl, Q, hQ, hx⟩ | ⟨rfl, rfl, hothers⟩)
      · exact .inl ⟨rfl, rfl, Q, List.mem_cons_of_mem _ hQ, hx⟩
      · refine .inr ⟨by simp, rfl, fun Q hQ => ?_⟩
        rcases List.mem_cons.mp hQ with rfl | hQ
        · exact hnone Q (List.mem_singleton_self Q)
        · exact hothers Q hQ

end

/-! ### All calls -/

section

variable {pools : List Pool} {b : BankStruct}

/-- What a call has in its hands when it returns. -/
def Leaves (pools : List Pool) : BankCall → ℕ ⊕ ℤ → Token → Prop
  | .get, .inl x, tok => Handed pools x tok
  | .put x, .inr ret, tok => Accepted pools 0 x ret tok
  | _, _, _ => False

theorem Complete.enter {t : BankState} {toks : Multiset Token} (hd : Distinct pools)
    (hb : b.bank = structs pools) (hall : b.allocdPools = pools.length)
    (h : Complete pools t toks) {c : BankCall} {es : Multiset ℕ} {p : PoolProgram (ℕ ⊕ ℤ)}
    {w : Fields} (henter : BankEnter b t.data c es p w) (spare : Multiset ℕ) :
    ∃ tok, Complete pools ⟨t.lists, w, spare⟩ (tok ::ₘ toks) ∧
      Safe pools (Leaves pools c) p tok := by
  have harray : b.bank.take b.allocdPools = structs pools := by
    rw [hb, List.take_of_length_le]
    simp [structs, hall]
  cases henter with
  | get =>
    refine ⟨.none, h.pass spare rfl ?_ ?_ ?_ h.held h.returned h.null, ?_⟩
    · intro tok htok
      rcases Multiset.mem_cons.mp htok with rfl | htok
      · trivial
      · exact h.good tok htok
    · simp [Token.nodes]
    · simp [Token.addrs]
    · have hloop := safe_bankGetLoop hd fun P (hP : P ∈ pools) => hP
      rw [← harray] at hloop
      exact hloop.bind (fun _ _ _ _ => trivial) fun x tok hx => hx
  | @put x hx =>
    refine ⟨.addr x, h.pass spare rfl ?_ ?_ ?_ ?_ h.returned h.null, ?_⟩
    · intro tok htok
      rcases Multiset.mem_cons.mp htok with rfl | htok
      · trivial
      · exact h.good tok htok
    · simp [Token.nodes]
    · intro P hP
      by_cases hmem : x ∈ t.data.held
      · have hsame : addrsOf t.data.ptr (.addr x ::ₘ toks) + t.data.held.erase x =
            addrsOf t.data.ptr toks + t.data.held := by
          obtain ⟨rest, hrest⟩ := Multiset.exists_cons_of_mem hmem
          rw [hrest, Multiset.erase_cons_head, addrsOf_cons, Token.addrs, ← Multiset.singleton_add]
          abel
        rw [hsame]
      · have hin : some P.header ∈ b.bank := hb ▸ List.mem_map.mpr ⟨P, hP, rfl⟩
        have hnot := (hd.outside P hP x).mp (hx.resolve_left hmem P.header hin)
        rw [Multiset.erase_of_notMem hmem, addrsOf_cons, add_assoc,
          Multiset.filter_add, Token.addrs,
          Multiset.filter_singleton, if_neg hnot]
        exact Multiset.zero_add _
    · exact fun y hy => h.held y (Multiset.mem_of_mem_erase hy)
    · have hloop := safe_bankPutLoop (x := x) hd 0 fun P (hP : P ∈ pools) => hP
      rw [← harray] at hloop
      exact hloop.bind (fun _ _ _ _ => trivial) fun ret tok hret => hret

theorem Complete.leave {t : BankState} {toks : Multiset Token} {tok : Token}
    (h : Complete pools t (tok ::ₘ toks)) {c : BankCall} {r : ℕ ⊕ ℤ}
    (hleaves : Leaves pools c r tok)
    (spare : Multiset ℕ) : Complete pools ⟨t.lists, bankLeave c r t.data, spare⟩ toks := by
  have hgood : ∀ u ∈ toks, u.Good pools t.data.ptr :=
    fun u hu => h.good u (Multiset.mem_cons_of_mem hu)
  have hreturned : ∀ d, Right pools d → ∀ e ∈ d :: t.data.returned, Right pools e := by
    intro d hd e he
    rcases List.mem_cons.mp he with rfl | he
    · exact hd
    · exact h.returned e he
  match c, r, hleaves with
  | .get, .inl x, .inl ⟨hx, htok⟩ =>
    subst hx htok
    exact h.pass spare rfl hgood (by simp [Token.nodes]) (by simp [bankLeave, Token.addrs]) h.held
      (hreturned _ (.inl rfl)) h.null
  | .get, .inl x, .inr ⟨hx, htok, P, hP, howns⟩ =>
    subst htok
    refine h.pass spare rfl hgood (by simp [Token.nodes]) (fun Q _ => ?_) ?_
      (hreturned _ (.inr ⟨P, hP, ?_⟩)) h.null
    · have hsame : addrsOf t.data.ptr toks + x ::ₘ t.data.held =
          addrsOf t.data.ptr (.addr x ::ₘ toks) + t.data.held := by
        rw [addrsOf_cons, Token.addrs, ← Multiset.singleton_add]
        abel
      simp [bankLeave, hx, hsame]
    · simp only [bankLeave, if_neg hx, Multiset.mem_cons, forall_eq_or_imp]
      exact ⟨⟨P, hP, howns⟩, h.held⟩
    · exact h.hand_slot hP howns (by simp [Token.addrs])
  | .put x, .inr ret, .inl ⟨hret, htok, howned⟩ =>
    subst htok
    exact h.pass spare rfl hgood (by simp [Token.nodes]) (by simp [bankLeave, Token.addrs]) h.held
      (hreturned _ (.inl ⟨hret, howned⟩)) h.null
  | .put x, .inr ret, .inr ⟨hret, htok, hnone⟩ =>
    subst htok
    refine h.pass spare rfl hgood (by simp [Token.nodes]) (fun P hP => ?_) h.held
      (hreturned _ (.inr ⟨hret, hnone⟩)) h.null
    have hgone : ((Token.addr x).addrs t.data.ptr).filter (P.owns · = true) = 0 := by
      simp [Token.addrs, Multiset.filter_singleton, hnone P hP]
    conv_rhs => rw [addrsOf_cons, add_assoc, Multiset.filter_add, hgone, Multiset.zero_add]
    rfl

/-- **Every pool stays complete**, whatever the threads do. -/
theorem Complete.run (hd : Distinct pools) (hb : b.bank = structs pools)
    (hall : b.allocdPools = pools.length) {t₀ : BankState} (h₀ : Complete pools t₀ 0)
    {c : System.Config BankState (BankCall × PoolProgram (ℕ ⊕ ℤ))}
    (hrun : (bankClients b).atomicSystem.Run System.anyStep ⟨t₀, 0⟩ c) :
    ∃ toks, Complete pools c.shared toks ∧ (c.calls = 0 → toks = 0) := by
  have hkept : Program.Kept (atomicExec FieldOp.exec) (fun _ _ => True) (Complete pools)
      (Leaves pools) c.shared c.calls := by
    refine Program.Kept.run ?_ ?_ hrun (.empty h₀)
    · rintro t cs t' ⟨x, p⟩ toks h ⟨henter, -⟩
      exact h.enter hd hb hall henter _
    · intro t x r tok toks h hleaves
      exact h.leave hleaves _
  obtain ⟨shares, hcs, hinv, -⟩ := hkept
  refine ⟨_, hinv, fun hnil => ?_⟩
  rw [hnil] at hcs
  rw [Multiset.map_eq_zero.mp hcs.symm, Multiset.map_zero]

end

end Shared

end Milu
