import Milu.Hashtbl.InMemoryResize
import Milu.Hashtbl.Traversal

/-!
# The table in memory does what the table on lists does

Any calls on a table in memory, one after the other, with resizes when the counter says so and when
the allocator allows it. They answer as the calls on the lists answer, with the address of the entry
found or `NULL`, and after each the links spell out the chains. Other lists that live in the same
memory, be they of another table or of the program, are not disturbed.

What a caller owes is what any user of an intrusive list owes: the struct to be inserted is linked
nowhere, and whatever is linked lies in memory that is still allocated.

## Main definitions

* `InMemory.Tracks` — the memory holds the table, and other lists beside it
* `InMemory.Owed` — what the caller of an operation owes
* `InMemory.calls` — calls one after the other
* `TableOp.answer` — what a call on the lists answers, as a pointer

## Main results

* `InMemory.resize_apply`, `InMemory.insertSafe_apply` — a resize, and an insert with one
* `InMemory.run_apply` — any call
* `InMemory.calls_apply` — any calls
-/

namespace Milu

variable {K : Type}

namespace InMemory

variable {m m' : Memory (Fields K)} {H H' : Heap} {hs : Set ℕ} {σ σ' : ℕ → List (HashEntry K)}
  {h h' aux : HashTable K} {e : HashEntry K} {fuel : ℕ} {C : Clib K}

/-! ### Resizing -/

/-- What a call leaves that may move the table to another array: links that spell out the chains of
`h'`, all lists but those of the table, and all structs that were kept somewhere. -/
structure Serves (H : Heap) (m : Memory (Fields K)) (hs : Set ℕ) (σ : ℕ → List (HashEntry K))
    (h : HashTable K) (m' : Memory (Fields K)) (hs' : Set ℕ) (σ' : ℕ → List (HashEntry K))
    (h' : HashTable K) : Prop where
  chains : Chains m' hs' σ'
  on : h'.On hs' σ'
  pos : 0 < h'.buckets
  others : ∀ q ∈ hs, (∀ i < h.buckets, h.head i ≠ q) →
    q ∈ hs' ∧ σ' q = σ q ∧ ∀ i < h'.buckets, h'.head i ≠ q
  heads : ∀ q ∈ hs', q ∈ hs ∨ ¬ Stored H q
  linked : ∀ t, OnList hs' σ' t → OnList hs σ t
  entries : ∀ a, Stored H (node a) → m'.entry a = m.entry a

theorem Serves.refl (hc : Chains m hs σ) (hon : h.On hs σ) (hpos : 0 < h.buckets) :
    Serves H m hs σ h m hs σ h :=
  ⟨hc, hon, hpos, fun _ hq hne => ⟨hq, rfl, hne⟩, fun _ hq => .inl hq, fun _ ht => ht,
    fun _ _ => rfl⟩

/-- A struct that is linked nowhere, in memory that is allocated, is linked nowhere after a resize
either. -/
theorem Serves.off (hs₁ : Serves H m hs σ h m' hs' σ' h') {x : ℕ} (hx : Stored H x)
    (hnew : ¬ Links.OnLoop hs (nodes σ) x) : ¬ Links.OnLoop hs' (nodes σ') x := by
  rw [onLoop_iff] at hnew ⊢
  rintro (hq | ⟨t, ht, rfl⟩)
  · exact hnew (.inl ((hs₁.heads x hq).resolve_right (not_not.mpr hx)))
  · exact hnew (.inr ⟨t, hs₁.linked t ht, rfl⟩)

theorem forEachSafe_mono {S : Type} {t : S → HashTable K} {body : Pos K → ℕ → StateT S Option ℕ}
    {r : Unit × S} : ∀ {fuel fuel' : ℕ} {w : Walk K S}, fuel ≤ fuel' →
      Milu.forEachSafe failure (t <$> get) body fuel w.hti w.cur w.state = some r →
        Milu.forEachSafe failure (t <$> get) body fuel' w.hti w.cur w.state = some r
  | 0, _, _, _, hrun => absurd hrun (Option.some_ne_none _).symm
  | fuel + 1, fuel' + 1, w, hle, hrun => by
    rw [forEachSafe_step] at hrun ⊢
    cases hw : w.step t body with
    | none => simp [hw] at hrun
    | some next =>
      rw [hw] at hrun
      cases next with
      | inl w' => exact forEachSafe_mono (w := w') (Nat.le_of_succ_le_succ hle) hrun
      | inr s => exact hrun

theorem length_lt_of_rounds (hfuel : h.rounds ≤ fuel) : ∀ i < h.buckets,
    (h.table i).length < fuel := by
  intro i hi
  have hsub : (h.table i).Sublist h.entries :=
    List.sublist_flatten_of_mem (List.mem_map.mpr ⟨i, List.mem_range.mpr hi, rfl⟩)
  have hle := hsub.length_le
  rw [HashTable.rounds] at hfuel
  omega

/-- The table takes over the array of the new one, and the heads of the old one are forgotten. -/
theorem Serves.of_migrates {old new : HashTable K} {m₁ : Memory (Fields K)}
    {σ₁ : ℕ → List (HashEntry K)}
    {news : Set ℕ} (hm : Migrates m₁ (news ∪ hs) σ₁ h aux m' σ' old new) (hpos : 0 < aux.buckets)
    (hnews : ∀ j < aux.buckets, aux.head j ∈ news)
    (hstored : ∀ q ∈ hs, Stored H q) (hnew : ∀ q ∈ news, σ₁ q = [] ∧ ¬ Stored H q)
    (hsame : ∀ q ∈ hs, σ₁ q = σ q) (hentry : ∀ a, Stored H (node a) → m₁.entry a = m.entry a) :
    Serves H m hs σ h m' ((news ∪ hs) \ {q | ∃ i < h.buckets, h.head i = q}) σ'
      (old.takeOver new) := by
  have hheads : ∀ j, new.head j = aux.head j := head_of_header hm.auxHeader
  have hbuckets : new.buckets = aux.buckets := buckets_of_header hm.auxHeader
  have hfar : ∀ q ∈ hs, ∀ j < aux.buckets, aux.head j ≠ q := fun q hq j hj hc =>
    (hnew _ (hnews j hj)).2 (hc ▸ hstored q hq)
  refine ⟨hm.chains.subset Set.sdiff_subset, fun j hj => ?_, hpos.trans_eq hbuckets.symm,
    fun q hq hne => ?_, fun q hq => ?_, fun t ht => ?_, fun a ha => ?_⟩
  · obtain ⟨hq, hσ⟩ := hm.new j hj
    refine ⟨⟨hq, ?_⟩, hσ⟩
    rintro ⟨i, hi, heq⟩
    refine hm.apart i (buckets_of_header hm.header ▸ hi) j hj ?_
    rw [head_of_header hm.header, heq]
    rfl
  · refine ⟨⟨.inr hq, fun ⟨i, hi, heq⟩ => hne i hi heq⟩, ?_, fun j hj => ?_⟩
    · rw [hm.others q hne (hfar q hq), hsame q hq]
    · exact (hheads j).trans_ne (hfar q hq j (hbuckets ▸ hj))
  · exact hq.1.elim (fun hq => .inr (hnew q hq).2) .inl
  · obtain ⟨q, hq, ht⟩ := ht
    obtain ⟨q₁, hq₁, ht₁⟩ := (hm.linked t).mp ⟨q, hq.1, ht⟩
    rcases hq₁ with hq₁ | hq₁
    · rw [(hnew q₁ hq₁).1] at ht₁
      exact absurd ht₁ List.not_mem_nil
    · exact ⟨q₁, hq₁, hsame q₁ hq₁ ▸ ht₁⟩
  · rw [← hentry a ha, Memory.entry, Memory.entry, hm.fields]

/-- **A resize** in memory. -/
theorem resize_apply (hc : Chains m hs σ) (hon : h.On hs σ) (hpos : 0 < h.buckets)
    (hstored : ∀ x, Links.OnLoop hs (nodes σ) x → Stored H x)
    (hsize : hashtblSz C (h.resizeThreshold * 2 % 2 ^ 32) ≤ 2 ^ 32) (hfuel : h.rounds ≤ fuel)
    {ret : ℤ} (hres : Milu.hashTableResize C h H = some ((ret, h'), H')) :
    ∃ m' hs' σ', hashTableResize C fuel h.header m H = some (((ret, h'.header), m'), H') ∧
      Serves H m hs σ h m' hs' σ' h' := by
  rw [Milu.hashTableResize] at hres
  obtain ⟨aux, H₁, hinit, hres⟩ := HeapM.of_bind hres
  cases aux with
  | none =>
    obtain ⟨hret, rfl⟩ := HeapM.pure_inj hres
    obtain ⟨rfl, rfl⟩ := Prod.mk.inj hret
    exact ⟨m, hs, σ, bind_apply (hashTableInit_refused hinit) _, .refl hc hon hpos⟩
  | some aux =>
    obtain ⟨⟨_, old, new⟩, H₂, hwalk, hres⟩ := HeapM.of_bind hres
    obtain ⟨hret, rfl⟩ := HeapM.pure_inj hres
    obtain ⟨rfl, rfl⟩ := Prod.mk.inj hret
    have hmod : h.resizeThreshold * 2 % 2 ^ 64 % 2 ^ 32 = h.resizeThreshold * 2 % 2 ^ 32 :=
      Nat.mod_mod_of_dvd _ (by decide)
    obtain ⟨m₁, σ₁, hmake, hchains, hnew, hsame, hentry⟩ :=
      hashTableInit_apply hc hstored (hmod ▸ hsize) hinit
    obtain ⟨tableMem, bucketLocks, rfl⟩ := eq_fresh_of_hashTableInit hinit
    set aux := HashTable.fresh C (h.resizeThreshold * 2 % 2 ^ 64 % 2 ^ 32)
      ((some h.keycmp).getD C.memcmp) h.myHashFn tableMem bucketLocks
    have hpos' : 0 < aux.buckets := hashtblSz_pos C _
    have hheads : ∀ j < aux.buckets, aux.head j ∈ headsTo aux.tableMem (aux.buckets - 1) :=
      fun j hj => (mem_heads_iff hpos').mpr ⟨j, hj, rfl⟩
    have hstored' : ∀ q ∈ hs, Stored H q := fun q hq => hstored q ⟨q, hq, List.mem_cons_self⟩
    have hboth : Both m₁ (headsTo aux.tableMem (aux.buckets - 1) ∪ hs) σ₁ h aux := by
      refine ⟨hchains, fun i hi => ⟨.inr (hon i hi).1, ?_⟩, fun j hj => ⟨.inl (hheads j hj), ?_⟩,
        fun i hi j hj heq => ?_⟩
      · rw [hsame _ (hon i hi).1, (hon i hi).2]
      · exact (hnew _ (hheads j hj)).1
      · exact (hnew _ (hheads j hj)).2 (heq ▸ hstored' _ (hon i hi).1)
    have hlift := HeapM.of_lift hwalk
    obtain rfl : H₂ = H₁ := by
      have hkeep := HeapM.lift_apply hlift H₁
      rw [hwalk, Option.some.injEq, Prod.mk.injEq] at hkeep
      exact hkeep.2
    have hloop := forEachSafe_mono (w := ⟨0, none, (h, aux)⟩) hfuel hlift
    obtain ⟨m₂, σ₂, hmove, hm⟩ := forEachSafe_apply H₂ fuel hboth hpos hpos'
      (length_lt_of_rounds hfuel) (fun _ _ hc => absurd hc.symm (Option.some_ne_none _)) hloop
    refine ⟨m₂, _, σ₂, ?_, .of_migrates hm hpos' hheads hstored' hnew hsame hentry⟩
    have hheader : (old.takeOver new).header = { h.header with
        bucketLocks := aux.header.bucketLocks
        table := aux.header.table
        buckets := aux.header.buckets
        usedBuckets := aux.header.usedBuckets
        resizeThreshold := aux.header.resizeThreshold } := by
      rw [← hm.header, ← hm.auxHeader]
      rfl
    refine (bind_apply hmake _).trans ((bind_apply hmove _).trans ?_)
    have hlocks : old.bucketLocks = h.bucketLocks := congrArg Table.bucketLocks hm.header
    show _ = some (((0, (old.takeOver new).header), m₂), _)
    rw [hheader, tableMem_of_header hm.header, hlocks]
    rfl

/-! ### Inserting -/

/-- **The end of an insert** that may have resized the table. -/
theorem insertAt_apply (hc : Chains m hs σ) (hon : h.On hs σ) {n : ℕ} (hn : n < h.buckets)
    (hnew : ¬ Links.OnLoop hs (nodes σ) e.node) (hentry : m.entry e.addr = e) (haddr : e.addr ≠ 0)
    (H : Heap) :
    ∃ m' σ', insertAt h.header n e.addr m H = some (((h.insertAt n e).header, m'), H) ∧
      Adds m hs σ h e m' σ' (h.listAdd n e) ∧ (h.insertAt n e).On hs σ' := by
  obtain ⟨hq, hσ⟩ := hon n hn
  obtain ⟨m', σ', hrun, hadds⟩ := listAdd_apply hc hon hn hnew hentry haddr H
  refine ⟨m', σ', ?_, hadds, fun i hi => ?_⟩
  · have hempty := Queue.listEmpty_apply (h.head_ne_zero n) m.lists
    refine (bind_apply (onLists_apply hempty H) _).trans ((bind_apply hrun _).trans ?_)
    have hiff : (m.lists.links.next (h.head n) == h.head n) = (h.table n).isEmpty := by
      rw [Bool.eq_iff_iff, beq_iff_eq, (hc.loops.loop _ hq).next_eq_iff, List.isEmpty_iff, ← hσ]
      exact List.map_eq_nil_iff
    rw [hiff, HashTable.insertAt]
    split_ifs <;> rfl
  · rw [HashTable.insertAt_buckets] at hi
    have hhead : (h.insertAt n e).head i = (h.listAdd n e).head i := by
      rw [HashTable.insertAt]
      split_ifs <;> rfl
    rw [hhead, HashTable.insertAt_table]
    exact hadds.on i hi

/-- What an insert leaves that may have resized the table before. -/
structure Inserts (hs : Set ℕ) (σ : ℕ → List (HashEntry K)) (h : HashTable K)
    (m' : Memory (Fields K))
    (hs' : Set ℕ) (σ' : ℕ → List (HashEntry K)) (h' : HashTable K) : Prop where
  chains : Chains m' hs' σ'
  on : h'.On hs' σ'
  pos : 0 < h'.buckets
  others : ∀ q ∈ hs, (∀ i < h.buckets, h.head i ≠ q) →
    q ∈ hs' ∧ σ' q = σ q ∧ ∀ i < h'.buckets, h'.head i ≠ q

/-- The end of an insert, after the table was resized or not. -/
theorem Serves.insertAt {m₁ : Memory (Fields K)} {hs₁ : Set ℕ} {σ₁ : ℕ → List (HashEntry K)}
    {h₁ : HashTable K} (hserves : Serves H m hs σ h m₁ hs₁ σ₁ h₁)
    (hnew : ¬ Links.OnLoop hs (nodes σ) e.node) (hentry : m.entry e.addr = e) (haddr : e.addr ≠ 0)
    (hkept : Stored H e.node) (H' : Heap) :
    ∃ m' σ', InMemory.insertAt h₁.header (h₁.home e) e.addr m₁ H' =
        some (((h₁.insertAt (h₁.home e) e).header, m'), H') ∧
      Inserts hs σ h m' hs₁ σ' (h₁.insertAt (h₁.home e) e) := by
  have hentry₁ : m₁.entry e.addr = e := (hserves.entries e.addr hkept).trans hentry
  obtain ⟨m', σ', hrun, hadds, hon⟩ := insertAt_apply hserves.chains hserves.on
    (HashTable.home_lt hserves.pos e) (hserves.off hkept hnew) hentry₁ haddr H'
  refine ⟨m', σ', hrun, hadds.chains, hon, ?_, fun q hq hne => ?_⟩
  · rw [HashTable.insertAt_buckets]
    exact hserves.pos
  · obtain ⟨hq₁, hsame, hapart⟩ := hserves.others q hq hne
    refine ⟨hq₁, (hadds.others q hapart).trans hsame, ?_⟩
    rw [HashTable.insertAt_buckets]
    intro i hi
    have hhead : (h₁.insertAt (h₁.home e) e).head i = h₁.head i := by
      rw [HashTable.insertAt]
      split_ifs <;> rfl
    rw [hhead]
    exact hapart i hi

/-- **A safe insert** in memory. -/
theorem insertSafe_apply (hc : Chains m hs σ) (hon : h.On hs σ) (hpos : 0 < h.buckets)
    (hstored : ∀ x, Links.OnLoop hs (nodes σ) x → Stored H x)
    (hsize : hashtblSz C (h.resizeThreshold * 2 % 2 ^ 32) ≤ 2 ^ 32) (hfuel : h.rounds ≤ fuel)
    (hnew : ¬ Links.OnLoop hs (nodes σ) e.node) (hentry : m.entry e.addr = e) (haddr : e.addr ≠ 0)
    (hkept : Stored H e.node) (hins : Milu.hashTableInsertSafe C h e H = some (h', H')) :
    ∃ m' hs' σ', hashTableInsertSafe C fuel h.header e.addr m H =
        some ((h'.header, m'), H') ∧ Inserts hs σ h m' hs' σ' h' := by
  have hlink : ∀ {h₁ : HashTable K} {n : ℕ} {H₁ : Heap},
      (do
        h₁.reach n
        return h₁.insertAt n e : HeapM (HashTable K)) H₁ = some (h', H') →
      h₁.insertAt n e = h' ∧ H₁ = H' := by
    intro h₁ n H₁ hrest
    obtain ⟨_, H₂, hreach, hlast⟩ := HeapM.of_bind hrest
    obtain ⟨-, rfl⟩ := Prod.mk.inj (HashTable.of_reach hreach).2
    exact HeapM.pure_inj hlast
  rw [hashTableInsertSafe, bind_apply (entry_apply haddr m H), hentry]
  rw [Milu.hashTableInsertSafe] at hins
  by_cases hused : h.usedBuckets ≥ h.resizeThreshold
  · have hused' : h.header.usedBuckets ≥ h.header.resizeThreshold := hused
    rw [if_pos hused] at hins
    rw [if_pos hused']
    obtain ⟨⟨ret, h₁⟩, H₁, hres, hins⟩ := HeapM.of_bind hins
    obtain ⟨hlast, rfl⟩ := hlink hins
    obtain ⟨m₁, hs₁, σ₁, hrun, hserves⟩ := resize_apply hc hon hpos hstored hsize hfuel hres
    obtain ⟨m', σ', hend, hinserts⟩ := hserves.insertAt hnew hentry haddr hkept H₁
    have hentry₁ : m₁.entry e.addr = e := (hserves.entries e.addr hkept).trans hentry
    rw [bind_apply hrun]
    dsimp only at hlast ⊢
    -- a resize that failed left the table, so the index from before it is the right one too
    rcases hashTableResize_inversion hres with ⟨rfl, rfl, -⟩ | ⟨rfl, -⟩
    · obtain rfl := hlast
      exact ⟨m', hs₁, σ', hend, hinserts⟩
    · obtain rfl := hlast
      rw [if_pos rfl]
      refine ⟨m', hs₁, σ', ?_, hinserts⟩
      refine (bind_apply (entry_apply haddr m₁ H₁) _).trans ?_
      rw [hentry₁]
      exact hend
  · have hused' : ¬ h.header.usedBuckets ≥ h.header.resizeThreshold := hused
    rw [if_neg hused] at hins
    rw [if_neg hused']
    obtain ⟨rfl, rfl⟩ := hlink hins
    obtain ⟨m', σ', hend, hinserts⟩ :=
      (Serves.refl hc hon hpos).insertAt hnew hentry haddr hkept H
    exact ⟨m', hs, σ', hend, hinserts⟩

/-! ### Any call -/

/-- The memory holds the table `h`, and beside it the lists that `τ` names for the heads `os`. -/
def Tracks (m : Memory (Fields K)) (os : Set ℕ) (τ : ℕ → List (HashEntry K))
    (h : HashTable K) : Prop :=
  ∃ hs σ, Chains m hs σ ∧ h.On hs σ ∧ ∀ q ∈ os, q ∈ hs ∧ σ q = τ q ∧ ∀ i < h.buckets, h.head i ≠ q

end InMemory

/-- The struct that a call inserts. -/
def TableOp.struct : TableOp K → Option (HashEntry K)
  | .insert e _ _ | .insertSafe e _ _ => some e
  | _ => none

namespace InMemory

/-- What the caller of an operation owes when other lists are in memory beside the table: whatever
is linked lies in memory that is allocated, a struct to be inserted does too and is linked nowhere,
and a table twice the size could be addressed. -/
structure Owed (C : Clib K) (os : Set ℕ) (τ : ℕ → List (HashEntry K)) (H : Heap) (h : HashTable K)
    (op : TableOp K) : Prop where
  heads : ∀ i < h.buckets, Stored H (h.head i)
  entries : ∀ t ∈ h.entries, Stored H t.node
  others : ∀ x, Links.OnLoop os (nodes τ) x → Stored H x
  size : hashtblSz C (h.resizeThreshold * 2 % 2 ^ 32) ≤ 2 ^ 32
  struct : ∀ e, op.struct = some e → e.addr ≠ 0 ∧ Stored H e.node ∧
    (∀ i < h.buckets, h.head i ≠ e.node) ∧ ¬ Links.OnLoop os (nodes τ) e.node

section

variable {os : Set ℕ} {τ : ℕ → List (HashEntry K)} {op : TableOp K} {r : Option (HashEntry K)}

/-- Nothing else need be known of the memory than the table and these lists. -/
theorem Tracks.exact (ht : Tracks m os τ h) : ∃ hs σ, Chains m hs σ ∧ h.On hs σ ∧
    (∀ q ∈ os, q ∈ hs ∧ σ q = τ q ∧ ∀ i < h.buckets, h.head i ≠ q) ∧
    ∀ x, Links.OnLoop hs (nodes σ) x →
      (∃ i < h.buckets, h.head i = x) ∨ (∃ t ∈ h.entries, t.node = x) ∨
        Links.OnLoop os (nodes τ) x := by
  obtain ⟨hs, σ, hc, hon, hos⟩ := ht
  have hsub : {q | (∃ i < h.buckets, h.head i = q) ∨ q ∈ os} ⊆ hs := by
    rintro q (⟨i, hi, rfl⟩ | hq)
    · exact (hon i hi).1
    · exact (hos q hq).1
  refine ⟨_, σ, hc.subset hsub, fun i hi => ⟨.inl ⟨i, hi, rfl⟩, (hon i hi).2⟩,
    fun q hq => ⟨.inr hq, (hos q hq).2⟩, ?_⟩
  rintro x ⟨q, ⟨i, hi, rfl⟩ | hq, hx⟩
  · rcases List.mem_cons.mp hx with rfl | hx
    · exact .inl ⟨i, hi, rfl⟩
    · obtain ⟨t, ht, rfl⟩ := List.mem_map.mp hx
      rw [(hon i hi).2] at ht
      exact .inr (.inl ⟨t, HashTable.mem_entries_iff.mpr ⟨i, hi, ht⟩, rfl⟩)
  · refine .inr (.inr ⟨q, hq, ?_⟩)
    rwa [nodes, Function.comp_apply, (hos q hq).2.1] at hx

theorem Tracks.of_leaves (hl : Leaves m hs σ h m' σ' h')
    (hos : ∀ q ∈ os, q ∈ hs ∧ σ q = τ q ∧ ∀ i < h.buckets, h.head i ≠ q) : Tracks m' os τ h' := by
  refine ⟨hs, σ', hl.chains, hl.on, fun q hq => ?_⟩
  obtain ⟨hmem, hsame, hapart⟩ := hos q hq
  refine ⟨hmem, (hl.others q hapart).trans hsame, fun i hi => ?_⟩
  rw [head_of_header hl.header]
  exact hapart i (buckets_of_header hl.header ▸ hi)

theorem Tracks.of_inserts {hs' : Set ℕ} (hi : Inserts hs σ h m' hs' σ' h')
    (hos : ∀ q ∈ os, q ∈ hs ∧ σ q = τ q ∧ ∀ i < h.buckets, h.head i ≠ q) : Tracks m' os τ h' := by
  refine ⟨hs', σ', hi.chains, hi.on, fun q hq => ?_⟩
  obtain ⟨hmem, hsame, hapart⟩ := hos q hq
  obtain ⟨hmem', hsame', hapart'⟩ := hi.others q hmem hapart
  exact ⟨hmem', hsame'.trans hsame, hapart'⟩

/-- A struct that the caller has written and `hash_entry_init` has set up. -/
theorem prepare_apply {key : KeyArg K} {len : ℕ} {ret : ℤ} {e' : HashEntry K} (hc : Chains m hs σ)
    (hnew : ¬ Links.OnLoop hs (nodes σ) e.node) (haddr : e.addr ≠ 0)
    {null : K} (hinit : Milu.hashEntryInit null Heap.malloc e key len H = some ((ret, e'), H'))
    (haddr' : e'.addr = e.addr) :
    ∃ m₁ m', setEntry e m H = some (((), m₁), H) ∧
      hashEntryInit null e.addr key len m₁ H = some ((ret, m'), H') ∧ Chains m' hs σ ∧
      m'.entry e'.addr = e' := by
  refine ⟨_, _, setEntry_apply haddr m H,
    hashEntryInit_apply haddr (entry_setEntry m e) hinit haddr', ?_, entry_setEntry _ e'⟩
  have hnode : e'.node = e.node := HashEntry.node_inj.mpr haddr'
  refine Chains.setEntry ?_ (hnode ▸ hnew)
  have hc' := hc.setEntry hnew
  refine ⟨hc'.loops.congr fun q hq => ?_, hc'.entry_eq, hc'.addr_ne, hc'.head_ne⟩
  have hoff := fun hx => hnew ⟨q, hq, hx⟩
  exact (Links.SameOn.setNext hoff).trans (Links.SameOn.setPrev hoff)

theorem live_subset_hashEntryInit {null : K} {key : KeyArg K} {len : ℕ} {ret : ℤ} {e' : HashEntry K}
    (hinit : Milu.hashEntryInit null Heap.malloc e key len H = some ((ret, e'), H')) :
    H.live ⊆ H'.live := by
  rw [Milu.hashEntryInit.eq_def] at hinit
  cases key with
  | int key =>
    dsimp only at hinit
    split_ifs at hinit
    · rw [(HeapM.pure_inj hinit).2]
      exact List.Subset.refl _
    · rw [(HeapM.pure_inj hinit).2]
      exact List.Subset.refl _
  | str key =>
    cases key with
    | none =>
      rw [(HeapM.pure_inj hinit).2]
      exact List.Subset.refl _
    | some key =>
      dsimp only at hinit
      rw [HeapM.bind_apply (Heap.malloc_apply len H)] at hinit
      cases hanswer : H.answer len <;>
      · rw [hanswer] at hinit
        rw [← (HeapM.pure_inj hinit).2]
        exact Heap.live_subset_afterMalloc H len

theorem run_insert_apply (hc : Chains m hs σ) (hon : h.On hs σ) (hpos : 0 < h.buckets)
    (hnew : ¬ Links.OnLoop hs (nodes σ) e.node) (haddr : e.addr ≠ 0)
    (hos : ∀ q ∈ os, q ∈ hs ∧ σ q = τ q ∧ ∀ i < h.buckets, h.head i ≠ q)
    {key : KeyArg K} {len : ℕ}
    (hrun : (TableOp.insert e key len).run C h H = some ((h', r), H')) :
    ∃ m', run C fuel h.header (.insert e key len) m H =
        some (((h'.header, r.elim 0 HashEntry.addr), m'), H') ∧ Tracks m' os τ h' := by
  obtain ⟨ret, e', hinit, haddr', -, rfl, rfl⟩ := TableOp.run_insert hrun
  obtain ⟨m₁, m₂, hwrite, hprepare, hc₁, hentry⟩ := prepare_apply hc hnew haddr hinit haddr'
  rw [← haddr'] at haddr
  rw [← HashEntry.node_inj.mpr haddr'] at hnew
  obtain ⟨m', σ', hins, hadds⟩ := insert_apply hc₁ hon hpos hnew hentry haddr H'
  refine ⟨m', ?_, .of_leaves hadds.toLeaves hos⟩
  rw [run]
  refine (bind_apply hwrite _).trans ?_
  rw [hadds.header]
  rw [haddr'] at hins
  cases key with
  | int key => exact bind_apply ((bind_apply hprepare _).trans hins) _
  | str key => exact bind_apply ((bind_apply hprepare _).trans hins) _

theorem run_insertSafe_apply (hc : Chains m hs σ) (hon : h.On hs σ) (hpos : 0 < h.buckets)
    (hstored : ∀ x, Links.OnLoop hs (nodes σ) x → Stored H x)
    (hsize : hashtblSz C (h.resizeThreshold * 2 % 2 ^ 32) ≤ 2 ^ 32) (hfuel : h.rounds ≤ fuel)
    (hnew : ¬ Links.OnLoop hs (nodes σ) e.node) (haddr : e.addr ≠ 0) (hkept : Stored H e.node)
    (hos : ∀ q ∈ os, q ∈ hs ∧ σ q = τ q ∧ ∀ i < h.buckets, h.head i ≠ q)
    {key : KeyArg K} {len : ℕ}
    (hrun : (TableOp.insertSafe e key len).run C h H = some ((h', r), H')) :
    ∃ m', run C fuel h.header (.insertSafe e key len) m H =
        some (((h'.header, r.elim 0 HashEntry.addr), m'), H') ∧ Tracks m' os τ h' := by
  obtain ⟨ret, e', H₁, hinit, haddr', hins, rfl⟩ := TableOp.run_insertSafe hrun
  obtain ⟨m₁, m₂, hwrite, hprepare, hc₁, hentry⟩ := prepare_apply hc hnew haddr hinit haddr'
  rw [← haddr'] at haddr
  rw [← HashEntry.node_inj.mpr haddr'] at hnew hkept
  -- the copy of a string key takes a block, it gives none back
  have hmono : ∀ {x}, Stored H x → Stored H₁ x := by
    rintro x ⟨b, hb, hx⟩
    exact ⟨b, live_subset_hashEntryInit hinit hb, hx⟩
  obtain ⟨m', hs', σ', hsafe, hinserts⟩ := insertSafe_apply hc₁ hon hpos
    (fun x hx => hmono (hstored x hx)) hsize hfuel hnew hentry haddr (hmono hkept) hins
  refine ⟨m', ?_, .of_inserts hinserts hos⟩
  rw [run]
  refine (bind_apply hwrite _).trans ?_
  rw [haddr'] at hsafe
  cases key with
  | int key => exact bind_apply ((bind_apply hprepare _).trans hsafe) _
  | str key => exact bind_apply ((bind_apply hprepare _).trans hsafe) _

theorem run_delKeySafe_apply (hc : Chains m hs σ) (hon : h.On hs σ) (hpos : 0 < h.buckets)
    (hfuel : ∀ i < h.buckets, (h.table i).length < fuel) {skey : Bool} {key : K} {len : ℕ}
    (hrun : (TableOp.delKeySafe skey key len).run C h H = some ((h', r), H')) :
    ∃ m' σ', run C fuel h.header (.delKeySafe skey key len) m H =
        some (((h'.header, r.elim 0 HashEntry.addr), m'), H') ∧ Leaves m hs σ h m' σ' h' := by
  have hdel : ∃ m' σ', (if skey then hashTableDelKeySafe fuel h.header key len
        else hashTableDelKeySafeI fuel h.header key len) m H =
        some (((if skey then Milu.hashTableDelKeySafeS h key len
          else Milu.hashTableDelKeySafeI h key len).1.elim 0 HashEntry.addr, m'), H) ∧
      Leaves m hs σ h m' σ' (if skey then Milu.hashTableDelKeySafeS h key len
          else Milu.hashTableDelKeySafeI h key len).2 := by
    obtain ⟨m', σ', hdel, hremoves⟩ := delKeySafe_apply hc hon hpos hfuel key len H
    rw [hashTableDelKeySafeI, Milu.hashTableDelKeySafeI, Milu.hashTableDelKeySafeS]
    split_ifs
    · exact ⟨m', σ', hdel, hremoves.toLeaves⟩
    · exact ⟨m, σ, rfl, (Removes.none hc hon).toLeaves⟩
    · exact ⟨m', σ', hdel, hremoves.toLeaves⟩
  rw [TableOp.run] at hrun
  replace hrun := (HashTable.of_search hrun).2
  generalize (if skey then Milu.hashTableDelKeySafeS h key len
    else Milu.hashTableDelKeySafeI h key len) = p at hdel hrun
  obtain ⟨e, h₁⟩ := p
  obtain ⟨hr, rfl⟩ := HeapM.pure_inj hrun
  obtain ⟨rfl, rfl⟩ := Prod.mk.inj hr
  obtain ⟨m', σ', hdel, hleaves⟩ := hdel
  refine ⟨m', σ', ?_, hleaves⟩
  rw [hleaves.header, run]
  split_ifs at hdel ⊢ <;> exact bind_apply hdel _

theorem run_delKey_eq (h : HashTable K) (skey : Bool) (key : K) (len : ℕ) :
    run C fuel h.header (.delKey skey key len) =
      run C fuel h.header (.delKeySafe skey key len) := by
  rw [run, run, hashTableDelKeyI, hashTableDelKeySafeI, delKey_eq]

/-- **Any call** answers in memory as it does on the lists. -/
theorem run_apply (ht : Tracks m os τ h) (hpos : 0 < h.buckets) (howed : Owed C os τ H h op)
    (hlegal : op.Legal h) (hfuel : h.rounds ≤ fuel) (hrun : op.run C h H = some ((h', r), H')) :
    ∃ m', run C fuel h.header op m H =
        some (((h'.header, r.elim 0 HashEntry.addr), m'), H') ∧ Tracks m' os τ h' := by
  obtain ⟨hs, σ, hc, hon, hos, hloops⟩ := ht.exact
  have hlength := length_lt_of_rounds hfuel
  have hstored : ∀ x, Links.OnLoop hs (nodes σ) x → Stored H x := by
    intro x hx
    rcases hloops x hx with ⟨i, hi, rfl⟩ | ⟨t, ht, rfl⟩ | hx
    · exact howed.heads i hi
    · exact howed.entries t ht
    · exact howed.others x hx
  have hfree : ∀ e, op.struct = some e → (∀ t ∈ h.entries, t.addr ≠ e.addr) →
      ¬ Links.OnLoop hs (nodes σ) e.node := by
    intro e he hlegal hx
    obtain ⟨-, -, hhead, hother⟩ := howed.struct e he
    rcases hloops e.node hx with ⟨i, hi, heq⟩ | ⟨t, ht, heq⟩ | hx
    · exact hhead i hi heq
    · exact hlegal t ht (HashEntry.node_inj.mp heq)
    · exact hother hx
  cases op with
  | insert e key len =>
    obtain ⟨haddr, -⟩ := howed.struct e rfl
    exact run_insert_apply hc hon hpos (hfree e rfl hlegal) haddr hos hrun
  | insertSafe e key len =>
    obtain ⟨haddr, hkept, -⟩ := howed.struct e rfl
    exact run_insertSafe_apply hc hon hpos hstored howed.size hfuel (hfree e rfl hlegal) haddr
      hkept hos hrun
  | delKey skey key len =>
    rw [← TableOp.run_delKeySafe] at hrun
    obtain ⟨m', σ', hdel, hleaves⟩ := run_delKeySafe_apply hc hon hpos hlength hrun
    refine ⟨m', ?_, .of_leaves hleaves hos⟩
    rw [run_delKey_eq]
    exact hdel
  | delKeySafe skey key len =>
    obtain ⟨m', σ', hdel, hleaves⟩ := run_delKeySafe_apply hc hon hpos hlength hrun
    exact ⟨m', hdel, .of_leaves hleaves hos⟩
  | lookupKey skey key len =>
    rw [TableOp.run] at hrun
    obtain ⟨hr, rfl⟩ := HeapM.pure_inj (HashTable.of_search hrun).2
    obtain ⟨rfl, rfl⟩ := Prod.mk.inj hr
    refine ⟨m, (bind_apply (lookupKey_apply hc hon hpos hlength key len H) _).trans ?_, ht⟩
    cases skey <;> rfl
  | lookupKeySafe skey key len =>
    rw [TableOp.run] at hrun
    obtain ⟨hr, rfl⟩ := HeapM.pure_inj (HashTable.of_search hrun).2
    obtain ⟨rfl, rfl⟩ := Prod.mk.inj hr
    have hfound := lookupKeySafe_apply hc hon hpos hlength key len H
    refine ⟨m, ?_, ht⟩
    rw [run, Milu.hashTableLookupKeySafeS, Milu.hashTableLookupKeySafeI, hashTableLookupKeySafeI]
    split_ifs
    · exact bind_apply hfound _
    · rfl
    · exact bind_apply hfound _

end

/-! ### Any calls -/

/-- Calls one after the other, the last one first, each with the allocator as the program left it:
what they returned, last first, and the struct and the memory in the end. -/
def calls (C : Clib K) (fuel : ℕ) (h₀ : Table K) (m₀ : Memory (Fields K)) :
    List (Heap × TableOp K) → Option (List ℕ × Table K × Memory (Fields K))
  | [] => some ([], h₀, m₀)
  | (H, op) :: ops => do
    let (rs, h, m) ← calls C fuel h₀ m₀ ops
    let (((h, r), m), _) ← run C fuel h op m H
    return (r :: rs, h, m)

end InMemory

/-- What a call on the lists answers, as a pointer. -/
def TableOp.answer (C : Clib K) (h : HashTable K) (H : Heap) (op : TableOp K) : ℕ :=
  ((op.run C h H).bind fun r => r.1.2).elim 0 HashEntry.addr

namespace InMemory

variable {os : Set ℕ} {τ : ℕ → List (HashEntry K)}

/-- **Any calls** in memory answer as they do on the lists. -/
theorem calls_apply {h₀ : HashTable K} {m₀ : Memory (Fields K)}
    {steps : List (HashTable K × Heap × TableOp K)} (hrun : TableRun C h₀ steps h)
    (hplaced : h₀.Placed) (ht : Tracks m₀ os τ h₀)
    (howed : ∀ s ∈ steps, Owed C os τ s.2.1 s.1 s.2.2) (hfuel : ∀ s ∈ steps, s.1.rounds ≤ fuel) :
    ∃ m, calls C fuel h₀.header m₀ (steps.map Prod.snd) =
        some (steps.map fun s => s.2.2.answer C s.1 s.2.1, h.header, m) ∧ Tracks m os τ h := by
  induction hrun with
  | start => exact ⟨m₀, rfl, ht⟩
  | @step steps h h' op r H H' hrun hlegal hop ih =>
    obtain ⟨m, hcalls, htracks⟩ := ih (fun s hs => howed s (List.mem_cons_of_mem _ hs))
      fun s hs => hfuel s (List.mem_cons_of_mem _ hs)
    obtain ⟨m', hlast, htracks'⟩ := run_apply htracks (hrun.placed hplaced).buckets_pos
      (howed _ List.mem_cons_self) hlegal (hfuel _ List.mem_cons_self) hop
    refine ⟨m', ?_, htracks'⟩
    have hanswer : op.answer C h H = r.elim 0 HashEntry.addr := by
      rw [TableOp.answer, hop, Option.bind_some]
    rw [List.map_cons, List.map_cons, calls, hcalls, hanswer]
    show ((run C fuel h.header op m H).bind _) = _
    rw [hlast]
    rfl

variable (fuel) in
/-- **A table in memory** that `hash_table_init` has made, in whatever was in memory before, answers
any calls as the table on lists does. -/
theorem table_in_memory {b : ℕ} {keycmp : Option (K → K → ℕ → ℤ)} {hashFn : K → ℕ → ℕ}
    {h₀ : HashTable K} {m₀ : Memory (Fields K)} {H₀ H₁ : Heap} (hc : Chains m₀ os τ)
    (hstored : ∀ x, Links.OnLoop os (nodes τ) x → Stored H₀ x)
    (hsize : hashtblSz C (b % 2 ^ 32) ≤ 2 ^ 32)
    (hinit : Milu.hashTableInit Heap.malloc C b keycmp (some hashFn) H₀ = some (some h₀, H₁))
    {steps : List (HashTable K × Heap × TableOp K)} (hrun : TableRun C h₀ steps h)
    (howed : ∀ s ∈ steps, Owed C os τ s.2.1 s.1 s.2.2) (hfuel : ∀ s ∈ steps, s.1.rounds ≤ fuel) :
    ∃ m₁ m, hashTableInit C b keycmp (some hashFn) m₀ H₀ = some ((some h₀.header, m₁), H₁) ∧
      calls C fuel h₀.header m₁ (steps.map Prod.snd) =
        some (steps.map fun s => s.2.2.answer C s.1 s.2.1, h.header, m) ∧ Tracks m os τ h := by
  obtain ⟨m₁, σ₁, hmake, hchains, hnew, hsame, -⟩ :=
    hashTableInit_apply hc hstored hsize hinit
  have hplaced := placed_of_hashTableInit hinit
  obtain ⟨tableMem, bucketLocks, rfl⟩ := eq_fresh_of_hashTableInit hinit
  set h₀ := HashTable.fresh C (b % 2 ^ 32) (keycmp.getD C.memcmp) hashFn tableMem bucketLocks
  have hheads : ∀ j < h₀.buckets, h₀.head j ∈ headsTo h₀.tableMem (h₀.buckets - 1) :=
    fun j hj => (mem_heads_iff hplaced.buckets_pos).mpr ⟨j, hj, rfl⟩
  have ht : Tracks m₁ os τ h₀ := by
    refine ⟨_, σ₁, hchains, fun j hj => ⟨.inl (hheads j hj), (hnew _ (hheads j hj)).1⟩,
      fun q hq => ⟨.inr hq, hsame q hq, fun j hj heq => ?_⟩⟩
    exact (hnew _ (hheads j hj)).2 (heq ▸ hstored q ⟨q, hq, List.mem_cons_self⟩)
  obtain ⟨m, hcalls, htracks⟩ := calls_apply hrun hplaced ht howed hfuel
  exact ⟨m₁, m, hmake, hcalls, htracks⟩

/-! ### Two structs, one bucket, and a resize -/

instance (h : HashTable K) (op : TableOp K) : Decidable (op.Legal h) := by
  cases op <;> unfold TableOp.Legal <;> infer_instance

/-- Two structs of the program, and room from megabyte to megabyte. -/
def structHeap : Heap where
  live := [⟨16384, 40⟩, ⟨20480, 40⟩]
  apart := by decide
  reply k := some (1048576 * (k + 1))
  asked := 0
  refused := 0
  freed := []

/-- `structHeap` with the two arrays of a table. -/
def arraysHeap : Heap := (structHeap.afterMalloc 3880).afterMalloc 3880

/-- The table for one entry that `hash_table_init` makes there. -/
def pageTable : HashTable ℕ :=
  HashTable.fresh Clib.nearest 1 (fun a b _ => a - b) (fun key _ => key) 1048576 2097152

/-- Two inserts into bucket 5, the second of which finds the table full; then a lookup and a
deletion of the first key, a lookup that misses it, and one of the second. -/
def pageOps : List (TableOp ℕ) :=
  [.lookupKey false 102 8, .lookupKeySafe false 5 8, .delKeySafe false 5 8,
    .lookupKeySafe false 5 8,
    .insertSafe ⟨20480, 0, 0, true⟩ (.int 102) 8, .insertSafe ⟨16384, 0, 0, true⟩ (.int 5) 8]

/-- What is owed in a step, when there is no other list. -/
def Paid (s : HashTable ℕ × Heap × TableOp ℕ) : Prop :=
  (∀ i < s.1.buckets, Stored s.2.1 (s.1.head i)) ∧ (∀ t ∈ s.1.entries, Stored s.2.1 t.node) ∧
    hashtblSz Clib.nearest (s.1.resizeThreshold * 2 % 2 ^ 32) ≤ 2 ^ 32 ∧
    (∀ e ∈ s.2.2.struct, e.addr ≠ 0 ∧ Stored s.2.1 e.node ∧
      ∀ i < s.1.buckets, s.1.head i ≠ e.node) ∧
    s.2.2.Legal s.1 ∧ s.1.rounds ≤ 200

instance (s : HashTable ℕ × Heap × TableOp ℕ) : Decidable (Paid s) := by
  unfold Paid Stored
  infer_instance

/-- They return, each is owed nothing more, and the second insert moves the table. -/
theorem pageOps_trace : ∃ steps h H,
    TableOp.trace Clib.nearest pageTable arraysHeap pageOps = some (steps, h, H) ∧
      (∀ s ∈ steps, Paid s) ∧ h.header.table = 3145728 ∧
      steps.map (fun s => s.2.2.answer Clib.nearest s.1 s.2.1) =
        [20480, 0, 16384, 16384, 0, 0] := by
  have hruns : (TableOp.trace Clib.nearest pageTable arraysHeap pageOps).any (fun p =>
      decide ((∀ s ∈ p.1, Paid s) ∧ p.2.1.header.table = 3145728 ∧
        p.1.map (fun s => s.2.2.answer Clib.nearest s.1 s.2.1) =
          [20480, 0, 16384, 16384, 0, 0])) = true := by decide +kernel
  obtain ⟨⟨steps, h, H⟩, htrace, hall⟩ := (Option.any_eq_true _ _).mp hruns
  exact ⟨steps, h, H, htrace, of_decide_eq_true hall⟩

/-- In memory they answer the same, and the struct has the address of the other array. -/
theorem table_in_memory_resized : ∃ steps h H m₁ m,
    TableOp.trace Clib.nearest pageTable arraysHeap pageOps = some (steps, h, H) ∧
    hashTableInit Clib.nearest 1 (some fun a b _ => a - b) (some fun key _ => key)
      ⟨usedMemory, fun a => ⟨a, 8, false⟩⟩ structHeap =
        some ((some pageTable.header, m₁), arraysHeap) ∧
    calls Clib.nearest 200 pageTable.header m₁ (steps.map Prod.snd) =
      some ([20480, 0, 16384, 16384, 0, 0], h.header, m) ∧ h.header.table = 3145728 := by
  obtain ⟨steps, h, H, htrace, hpaid, htable, hanswers⟩ := pageOps_trace
  have hinit : Milu.hashTableInit Heap.malloc Clib.nearest 1 (some fun a b _ => a - b)
      (some fun key _ => key) structHeap = some (some pageTable, arraysHeap) := rfl
  have hrun : TableRun Clib.nearest pageTable steps h :=
    .of_trace htrace fun s hs => (hpaid s hs).2.2.2.2.1
  have hnone : Chains (⟨usedMemory, fun a => ⟨a, 8, false⟩⟩ : Memory (Fields ℕ)) ∅ fun _ => [] :=
    ⟨⟨fun _ hq => hq.elim, fun _ hq => hq.elim⟩, fun _ hq => hq.elim, fun _ hq => hq.elim,
      fun _ hq => hq.elim⟩
  have hempty : ∀ x, ¬ Links.OnLoop ∅ (nodes fun _ => ([] : List (HashEntry ℕ))) x :=
    fun _ hx => hx.choose_spec.1.elim
  have howed : ∀ s ∈ steps, Owed Clib.nearest ∅ (fun _ => []) s.2.1 s.1 s.2.2 := by
    intro s hs
    obtain ⟨hheads, hentries, hsize, hstruct, -, -⟩ := hpaid s hs
    refine ⟨hheads, hentries, fun x hx => absurd hx (hempty x), hsize, fun e he => ?_⟩
    obtain ⟨hne, hstored, hapart⟩ := hstruct e he
    exact ⟨hne, hstored, hapart, hempty _⟩
  obtain ⟨m₁, m, hmake, hcalls, -⟩ := table_in_memory 200 hnone
    (fun x hx => absurd hx (hempty x)) (by decide) hinit hrun howed
    fun s hs => (hpaid s hs).2.2.2.2.2
  rw [hanswers] at hcalls
  exact ⟨steps, h, H, m₁, m, htrace, hmake, hcalls, htable⟩

end InMemory

end Milu
