import Milu.Hashtbl.InMemoryOps

/-!
# A resize in memory

The walk of a resize follows the links of the old table while the entries it comes by are moved to
the new one. The saved successor is read before the body of the loop runs and followed after it:
what counts is that it is still on a chain of the old table then. Whenever the walk on the lists
finds it there, the walk on the links does as well, and both go on.

The new array comes from the allocator, so it lies where no node of a list lies, as long as the
lists are kept in blocks that are still allocated.

## Main definitions

* `Pos.addr`, `InMemory.Cursor` — where a walk stands
* `InMemory.Both` — two tables in one memory
* `InMemory.Migrates` — what the walk leaves

## Main results

* `InMemory.migrate_apply`, `InMemory.forEachSafe_apply` — the body of the loop, and the walk
* `InMemory.initHeads_apply` — the heads of a new table
-/

namespace Milu

variable {K : Type}

/-- Where a walk stands, in the memory of a table with its array at `table`. -/
def Pos.addr (table : ℕ) : Pos K → ℕ
  | .head i => InMemory.bucketHead table i
  | .node e => e.node

theorem Pos.addr_ne_zero (table : ℕ) (pos : Pos K) : pos.addr table ≠ 0 := by
  cases pos <;> exact Nat.succ_ne_zero _

theorem chainNext_eq_some {i a : ℕ} {n : Pos K} : ∀ {c : List (HashEntry K)},
    chainNext i a c = some n →
      ∃ pre e post, c = pre ++ e :: post ∧ e.addr = a ∧ n = Pos.first i post
  | e :: c, h => by
    rw [chainNext] at h
    split_ifs at h with ha
    · exact ⟨[], e, c, rfl, ha, (Option.some.inj h).symm⟩
    · obtain ⟨pre, e', post, rfl, haddr, hn⟩ := chainNext_eq_some h
      exact ⟨e :: pre, e', post, rfl, haddr, hn⟩

namespace InMemory

open Milu (Pos)

variable {m m' : Memory (Fields K)} {H : Heap} {hs : Set ℕ} {σ σ' : ℕ → List (HashEntry K)}
  {h h' aux aux' : HashTable K} {e : HashEntry K} {fuel : ℕ} {pos n : Pos K}

/-! ### Cursors -/

/-- A walk stands on the head of a bucket or on an entry of some list. -/
def Cursor (h : HashTable K) (hs : Set ℕ) (σ : ℕ → List (HashEntry K)) : Pos K → Prop
  | .head i => i < h.buckets
  | .node e => OnList hs σ e

theorem first_addr (h : HashTable K) (i : ℕ) (c : List (HashEntry K)) :
    (Pos.first i c).addr h.tableMem = Chains.firstNode (h.head i) c := by
  cases c <;> rfl

theorem cursor_first (hon : h.On hs σ) {i : ℕ} (hi : i < h.buckets) {pre c : List (HashEntry K)}
    (hchain : h.table i = pre ++ c) : Cursor h hs σ (Pos.first i c) := by
  cases c with
  | nil => exact hi
  | cons e c =>
    refine ⟨h.head i, (hon i hi).1, ?_⟩
    rw [(hon i hi).2, hchain]
    exact List.mem_append_right _ List.mem_cons_self

/-- **The successor** of a cursor is the same in memory as on the lists. -/
theorem next_addr (hc : Chains m hs σ) (hon : h.On hs σ) (hcur : Cursor h hs σ pos)
    (hn : h.next pos = some n) :
    m.lists.links.next (pos.addr h.tableMem) = n.addr h.tableMem ∧ Cursor h hs σ n := by
  cases pos with
  | head i =>
    obtain ⟨hq, hσ⟩ := hon i hcur
    obtain ⟨-, rfl⟩ := HashTable.of_next_head hn
    refine ⟨?_, cursor_first hon hcur (List.nil_append _).symm⟩
    rw [first_addr, ← hσ]
    exact hc.next_head hq
  | node e =>
    obtain ⟨i, hi, hnext⟩ := List.exists_of_findSome?_eq_some hn
    have hi := List.mem_range.mp hi
    obtain ⟨hq, hσ⟩ := hon i hi
    obtain ⟨pre, e', post, hchain, haddr, rfl⟩ := chainNext_eq_some hnext
    have hsplit : h.table i = (pre ++ [e']) ++ post := by rw [hchain]; simp
    refine ⟨?_, cursor_first hon hi hsplit⟩
    have hnode : (Pos.node e).addr h.tableMem = e'.node := HashEntry.node_inj.mpr haddr.symm
    rw [first_addr, hnode]
    exact hc.next_node hq (hσ.trans hchain)

/-! ### Two tables -/

/-- Two tables in one memory, with arrays that do not overlap. -/
structure Both (m : Memory (Fields K)) (hs : Set ℕ) (σ : ℕ → List (HashEntry K))
    (h aux : HashTable K) :
    Prop where
  chains : Chains m hs σ
  old : h.On hs σ
  new : aux.On hs σ
  apart : ∀ i < h.buckets, ∀ j < aux.buckets, h.head i ≠ aux.head j

/-- What entries moving from one table to the other leave: no entry is on no list, and all lists but
those of the two tables are as they were. -/
structure Migrates (m : Memory (Fields K)) (hs : Set ℕ) (σ : ℕ → List (HashEntry K))
    (h aux : HashTable K)
    (m' : Memory (Fields K)) (σ' : ℕ → List (HashEntry K)) (h' aux' : HashTable K) : Prop
    extends Both m' hs σ' h' aux' where
  header : h'.header = h.header
  auxHeader : aux'.header = aux.header
  fields : m'.fields = m.fields
  shrinks : ∀ i, (h'.table i).length ≤ (h.table i).length
  linked : ∀ t, OnList hs σ' t ↔ OnList hs σ t
  others : ∀ q, (∀ i < h.buckets, h.head i ≠ q) → (∀ j < aux.buckets, aux.head j ≠ q) → σ' q = σ q

theorem buckets_of_header (hheader : h'.header = h.header) : h'.buckets = h.buckets :=
  congrArg Table.buckets hheader

theorem tableMem_of_header (hheader : h'.header = h.header) : h'.tableMem = h.tableMem :=
  congrArg Table.table hheader

theorem head_of_header (hheader : h'.header = h.header) (i : ℕ) : h'.head i = h.head i := by
  rw [HashTable.head, HashTable.head, tableMem_of_header hheader]

theorem Migrates.refl (hb : Both m hs σ h aux) : Migrates m hs σ h aux m σ h aux :=
  ⟨hb, rfl, rfl, rfl, fun _ => le_rfl, fun _ => Iff.rfl, fun _ _ _ => rfl⟩

theorem Migrates.trans {m₁ : Memory (Fields K)} {σ₁ : ℕ → List (HashEntry K)}
    {h₁ aux₁ : HashTable K}
    (hfst : Migrates m hs σ h aux m₁ σ₁ h₁ aux₁) (hsnd : Migrates m₁ hs σ₁ h₁ aux₁ m' σ' h' aux') :
    Migrates m hs σ h aux m' σ' h' aux' := by
  refine ⟨hsnd.toBoth, hsnd.header.trans hfst.header, hsnd.auxHeader.trans hfst.auxHeader,
    hsnd.fields.trans hfst.fields, fun i => (hsnd.shrinks i).trans (hfst.shrinks i),
    fun t => (hsnd.linked t).trans (hfst.linked t), fun q hold hnew => ?_⟩
  · refine (hsnd.others q ?_ ?_).trans (hfst.others q hold hnew)
    · rw [buckets_of_header hfst.header]
      intro i hi
      rw [head_of_header hfst.header]
      exact hold i hi
    · rw [buckets_of_header hfst.auxHeader]
      intro j hj
      rw [head_of_header hfst.auxHeader]
      exact hnew j hj

theorem Cursor.kept (hcur : Cursor h hs σ pos) (hm : Migrates m hs σ h aux m' σ' h' aux') :
    Cursor h' hs σ' pos := by
  cases pos with
  | head i =>
    show i < h'.buckets
    rwa [buckets_of_header hm.header]
  | node e => exact (hm.linked e).mpr hcur

theorem delHashEntrySafe_shrinks (h : HashTable K) (e : HashEntry K) (i : ℕ) :
    ((Milu.hashTableDelHashEntrySafe h e).2.table i).length ≤ (h.table i).length := by
  have hdel : ((Milu.hashTableDelKeySafe h e.key e.klen).2.table i).length ≤
      (h.table i).length := by
    rw [Milu.hashTableDelKeySafe]
    cases Milu.hashTableLookupKey h e.key e.klen with
    | none => exact le_rfl
    | some t =>
      rw [HashTable.listDelInit_table]
      by_cases hi : i = Milu.hashTableHashCode h e.key e.klen
      · rw [hi, Function.update_self]
        exact List.eraseP_sublist.length_le
      · rw [Function.update_of_ne hi]
  rw [Milu.hashTableDelHashEntrySafe, Milu.hashTableDelKeySafeS, Milu.hashTableDelKeySafeI]
  split_ifs
  · exact hdel
  · exact le_rfl
  · exact hdel

/-- **The body of the loop**, standing on an entry of some list. -/
theorem migrate_apply (hb : Both m hs σ h aux) (hpos : 0 < h.buckets) (hpos' : 0 < aux.buckets)
    (hfuel : ∀ i < h.buckets, (h.table i).length < fuel) (hcur : Cursor h hs σ (.node e))
    {hti hti' : ℕ}
    (hstep : Milu.migrateEntry (.node e) hti (h, aux) = some (hti', h', aux')) (H : Heap) :
    hti' = hti ∧ ∃ m' σ', migrateEntry fuel h.header aux.header e.addr m H = some (((), m'), H) ∧
      Migrates m hs σ h aux m' σ' h' aux' := by
  obtain ⟨q, hq, he⟩ := hcur
  obtain ⟨m₁, σ₁, hdel, hremoves⟩ := delHashEntrySafe_apply hb.chains hb.old hpos
    hfuel (hb.chains.entry_eq q hq e he) (hb.chains.addr_ne q hq e he) H
  have hshrinks := delHashEntrySafe_shrinks h e
  have hnew : aux.On hs σ₁ := fun j hj =>
    ⟨(hb.new j hj).1, (hremoves.others _ fun i hi => hb.apart i hi j hj).trans (hb.new j hj).2⟩
  rw [migrateEntry, bind_apply hdel]
  rw [Milu.migrateEntry] at hstep
  generalize Milu.hashTableDelHashEntrySafe h e = p at hremoves hshrinks hstep ⊢
  obtain ⟨r, h₁⟩ := p
  dsimp only at hremoves hshrinks hstep ⊢
  have hbuckets := buckets_of_header hremoves.header
  have hheads := head_of_header hremoves.header
  cases r with
  | none =>
    simp only [Option.some.injEq, Prod.mk.injEq] at hstep
    obtain ⟨rfl, rfl, rfl⟩ := hstep
    refine ⟨rfl, m₁, σ₁, rfl, ⟨⟨hremoves.chains, hremoves.on, hnew, ?_⟩, hremoves.header, rfl,
      hremoves.fields, hshrinks, fun t => ?_, fun q hold _ => hremoves.others q hold⟩⟩
    · intro i hi j hj
      rw [hheads]
      exact hb.apart i (hbuckets ▸ hi) j hj
    · exact ((hremoves.linked t).trans (or_iff_right (Option.some_ne_none t).symm)).symm
  | some t =>
    dsimp only at hstep
    split_ifs at hstep
    simp only [Option.some.injEq, Prod.mk.injEq] at hstep
    obtain ⟨rfl, rfl, rfl⟩ := hstep
    obtain ⟨hout, hentry, haddr⟩ := hremoves.out t rfl
    obtain ⟨m₂, σ₂, hins, hadds⟩ := insert_apply hremoves.chains hnew hpos' hout hentry haddr H
    have hold : h₁.On hs σ₂ := fun i hi => by
      refine ⟨(hremoves.on i hi).1, (hadds.others _ fun j hj => ?_).trans (hremoves.on i hi).2⟩
      rw [hheads]
      exact (hb.apart i (hbuckets ▸ hi) j hj).symm
    refine ⟨rfl, m₂, σ₂, ?_, ⟨⟨hadds.chains, hold, hadds.on, ?_⟩, hremoves.header, hadds.header,
      hadds.fields.trans hremoves.fields, hshrinks, fun u => ?_, fun q hold hnew => ?_⟩⟩
    · have hfound : (some t).elim 0 HashEntry.addr ≠ 0 := haddr
      rw [if_pos hfound]
      exact hins
    · intro i hi j hj
      rw [hheads]
      exact hb.apart i (hbuckets ▸ hi) j hj
    · rw [hadds.linked, hremoves.linked, Option.some.injEq, eq_comm]
    · exact (hadds.others q hnew).trans (hremoves.others q hold)

/-! ### The walk -/

section

variable {t : Table K} {body : ℕ → LinkM (Fields K) Unit} {hti p q : ℕ}

theorem forEachSafe_enter (hlt : hti < t.buckets)
    (hp : m.lists.links.next (bucketHead t.table hti) = p) (hne : p ≠ 0) :
    forEachSafe t body (fuel + 1) hti none m H =
      forEachSafe t body fuel hti (some (p, m.lists.links.next p)) m H := by
  have hhead : bucketHead t.table hti ≠ 0 := Nat.succ_ne_zero _
  rw [forEachSafe, if_pos hlt]
  refine (bind_apply (next_apply hhead m H) _).trans ?_
  rw [hp]
  exact bind_apply (next_apply hne m H) _

theorem forEachSafe_done (hlt : ¬ hti < t.buckets) :
    forEachSafe t body (fuel + 1) hti none m H = some (((), m), H) := by
  rw [forEachSafe, if_neg hlt]
  rfl

theorem forEachSafe_leave :
    forEachSafe t body (fuel + 1) hti (some (bucketHead t.table hti, q)) m H =
      forEachSafe t body fuel ((hti + 1) % 2 ^ 32) none m H := by
  rw [forEachSafe, if_neg fun hc => hc.1 rfl]

/-- A round of the inner loop, on the entry `e`. -/
theorem forEachSafe_round (hhead : e.node ≠ bucketHead t.table hti) (haddr : e.addr ≠ 0)
    (hbody : body e.addr m H = some (((), m'), H)) (hne : q ≠ 0) :
    forEachSafe t body (fuel + 1) hti (some (e.node, q)) m H =
      forEachSafe t body fuel hti (some (q, m'.lists.links.next q)) m' H := by
  rw [← e.node_sub] at haddr hbody
  rw [forEachSafe, if_pos ⟨hhead, haddr⟩]
  refine (bind_apply hbody _).trans ?_
  exact bind_apply (next_apply hne m' H) _

end

/-- **The walk** goes the same way in memory as on the lists, and ends when that one does. -/
theorem forEachSafe_apply (H : Heap) {F : ℕ} : ∀ (fuel : ℕ) {hti : ℕ}
    {cur : Option (Pos K × Pos K)} {m : Memory (Fields K)} {σ : ℕ → List (HashEntry K)}
    {h aux h' aux' : HashTable K}, Both m hs σ h aux → 0 < h.buckets → 0 < aux.buckets →
    (∀ i < h.buckets, (h.table i).length < F) →
    (∀ pos n, cur = some (pos, n) → hti < h.buckets ∧ Cursor h hs σ pos ∧ Cursor h hs σ n) →
    Milu.forEachSafe failure (Prod.fst <$> get) Milu.migrateEntry fuel hti cur (h, aux) =
      some ((), h', aux') →
    ∃ m' σ', forEachSafe h.header (migrateEntry F h.header aux.header) fuel hti
        (cur.map fun p => (p.1.addr h.tableMem, p.2.addr h.tableMem)) m H = some (((), m'), H) ∧
      Migrates m hs σ h aux m' σ' h' aux'
  | 0, _, _, _, _, _, _, _, _, _, _, _, _, _, hrun => absurd hrun (Option.some_ne_none _).symm
  | fuel + 1, hti, none, m, σ, h, aux, h', aux', hb, hpos, hpos', hF, _, hrun => by
    rw [forEachSafe_outer] at hrun
    by_cases hlt : hti < h.buckets
    · rw [if_pos hlt] at hrun
      dsimp only at hrun
      cases hp : h.next (.head hti) with
      | none => simp [hp] at hrun
      | some pos =>
        rw [hp, Option.elim_some] at hrun
        cases hn : h.next pos with
        | none => simp [hn] at hrun
        | some n =>
          rw [hn, Option.elim_some] at hrun
          have hcur₀ : Cursor h hs σ (.head hti) := hlt
          obtain ⟨hfst, hcur⟩ := next_addr hb.chains hb.old hcur₀ hp
          obtain ⟨hsnd, hcur'⟩ := next_addr hb.chains hb.old hcur hn
          have hcurs : ∀ pos' n', some (pos, n) = some (pos', n') →
              hti < h.buckets ∧ Cursor h hs σ pos' ∧ Cursor h hs σ n' := by
            rintro _ _ ⟨⟩
            exact ⟨hlt, hcur, hcur'⟩
          obtain ⟨m', σ', hloop, hm⟩ := forEachSafe_apply H fuel hb hpos hpos' hF hcurs hrun
          refine ⟨m', σ', ?_, hm⟩
          rw [Option.map_none, forEachSafe_enter hlt hfst (Pos.addr_ne_zero _ _), hsnd]
          exact hloop
    · rw [if_neg hlt] at hrun
      obtain ⟨rfl, rfl⟩ := Prod.mk.inj (Prod.mk.inj (Option.some.inj hrun)).2
      exact ⟨m, σ, forEachSafe_done hlt, .refl hb⟩
  | fuel + 1, hti, some (pos, n), m, σ, h, aux, h', aux', hb, hpos, hpos', hF, hcur, hrun => by
    obtain ⟨hlt, hcpos, hcn⟩ := hcur pos n rfl
    cases hhead : pos.isHead hti with
    | true =>
      rw [forEachSafe_head hhead] at hrun
      obtain ⟨m', σ', hloop, hm⟩ := forEachSafe_apply H fuel hb hpos hpos' hF
        (fun _ _ hc => absurd hc.symm (Option.some_ne_none _)) hrun
      refine ⟨m', σ', ?_, hm⟩
      cases pos with
      | node e => exact absurd hhead Bool.false_ne_true
      | head j =>
        obtain rfl : j = hti := beq_iff_eq.mp hhead
        exact forEachSafe_leave.trans hloop
    | false =>
      rw [forEachSafe_node hhead] at hrun
      cases pos with
      | head j => exact absurd hrun.symm (Option.some_ne_none _)
      | node e =>
        cases hstep : Milu.migrateEntry (.node e) hti (h, aux) with
        | none => simp [hstep] at hrun
        | some r =>
          obtain ⟨hti', h₁, aux₁⟩ := r
          rw [hstep, Option.elim_some] at hrun
          dsimp only at hrun
          cases hn : h₁.next n with
          | none => simp [hn] at hrun
          | some n' =>
            rw [hn, Option.elim_some] at hrun
            obtain ⟨rfl, m₁, σ₁, hbody, hm₁⟩ := migrate_apply hb hpos hpos' hF hcpos hstep H
            have hbuckets := buckets_of_header hm₁.header
            have htable := tableMem_of_header hm₁.header
            obtain ⟨hnext, hcur'⟩ := next_addr hm₁.chains hm₁.old (hcn.kept hm₁) hn
            have hcurs : ∀ pos' n'', some (n, n') = some (pos', n'') →
                hti' < h₁.buckets ∧ Cursor h₁ hs σ₁ pos' ∧ Cursor h₁ hs σ₁ n'' := by
              rintro _ _ ⟨⟩
              exact ⟨hbuckets ▸ hlt, hcn.kept hm₁, hcur'⟩
            obtain ⟨m', σ', hloop, hm⟩ := forEachSafe_apply H fuel hm₁.toBoth (hbuckets ▸ hpos)
              (buckets_of_header hm₁.auxHeader ▸ hpos')
              (fun i hi => Nat.lt_of_le_of_lt (hm₁.shrinks i) (hF i (hbuckets ▸ hi))) hcurs hrun
            refine ⟨m', σ', ?_, hm₁.trans hm⟩
            obtain ⟨q, hq, he⟩ := hcpos
            rw [hm₁.header, hm₁.auxHeader, htable] at hloop
            rw [htable] at hnext
            have hhead : e.node ≠ bucketHead h.header.table hti' :=
              hb.chains.node_ne_head hq he (hb.old hti' hlt).1
            refine (forEachSafe_round hhead (hb.chains.addr_ne q hq e he) hbody
              (Pos.addr_ne_zero h.tableMem n)).trans ?_
            rw [hnext]
            exact hloop

/-! ### A new table -/

/-- `hash_entry_init` clears the links of the struct and writes its fields. -/
theorem hashEntryInit_apply {null : K} {key : KeyArg K} {len : ℕ} {ret : ℤ}
    {e' : HashEntry K} {H' : Heap}
    (haddr : e.addr ≠ 0) (hentry : m.entry e.addr = e)
    (hinit : Milu.hashEntryInit null Heap.malloc e key len H = some ((ret, e'), H'))
    (haddr' : e'.addr = e.addr) :
    hashEntryInit null e.addr key len m H = some ((ret, (m.withLists (m.lists.withLinks
      ((m.lists.links.setNext e.node e.node).setPrev e.node e.node))).setEntry e'), H') := by
  refine (bind_apply (onLists_apply (Queue.initListHead_apply e.node_ne_zero m.lists) H) _).trans ?_
  refine (bind_apply (entry_apply haddr _ H) _).trans ?_
  rw [entry_withLists, hentry]
  refine (bind_apply (onHeap_apply hinit _) _).trans ?_
  exact bind_apply (setEntry_apply (haddr' ▸ haddr) _ H') _

/-- **One head** that is on no loop yet. -/
theorem initHead_apply (null : K) {a : ℕ} (hc : Chains m hs σ) (ha : a ≠ 0)
    (hnew : ¬ Links.OnLoop hs (nodes σ) (node a)) (H : Heap) :
    ∃ m', hashEntryInit null a (.int null) 0 m H = some ((0, m'), H) ∧
      Chains m' (insert (node a) hs) (Function.update σ (node a) []) ∧
      ∀ b, b ≠ a → m'.entry b = m.entry b := by
  have hinit : Milu.hashEntryInit null Heap.malloc (m.entry a) (.int null) 0 H =
      some ((0, (m.entry a).withKey null 0), H) := rfl
  have hself : m.entry (m.entry a).addr = m.entry a := rfl
  have hfields : ∀ b, b ≠ a → ((m.withLists (m.lists.withLinks ((m.lists.links.setNext (node a)
      (node a)).setPrev (node a) (node a)))).setEntry ((m.entry a).withKey null 0)).entry b =
        m.entry b := fun b hb => entry_setEntry_of_ne _ hb
  refine ⟨_, hashEntryInit_apply ha hself hinit rfl, ?_, hfields⟩
  obtain ⟨hloops, -⟩ := hc.loops.add hnew
  have hold : ∀ q ∈ insert (node a) hs, ∀ e ∈ Function.update σ (node a) [] q,
      q ∈ hs ∧ e ∈ σ q := by
    intro q hq e he
    by_cases hne : q = node a
    · rw [hne, Function.update_self] at he
      exact absurd he List.not_mem_nil
    · rw [Function.update_of_ne hne] at he
      exact ⟨hq.resolve_left hne, he⟩
  refine ⟨?_, fun q hq e he => ?_, fun q hq e he => ?_, fun q hq => ?_⟩
  · rw [nodes_update]
    exact hloops
  · obtain ⟨hq₀, he₀⟩ := hold q hq e he
    have hne : e.addr ≠ a := by
      rintro rfl
      exact hnew (Chains.on_loop hq₀ he₀)
    exact (hfields _ hne).trans (hc.entry_eq q hq₀ e he₀)
  · obtain ⟨hq₀, he₀⟩ := hold q hq e he
    exact hc.addr_ne q hq₀ e he₀
  · rcases hq with rfl | hq
    · exact Nat.succ_ne_zero _
    · exact hc.head_ne q hq

/-- The heads of the buckets up to `k`. -/
def headsTo (table k : ℕ) : Set ℕ := {q | ∃ i ≤ k, bucketHead table i = q}

theorem bucketHead_inj {table i j : ℕ} : bucketHead table i = bucketHead table j ↔ i = j := by
  simp only [bucketHead, node, offsetofList, sizeofHashEntry]
  omega

theorem mem_headsTo_succ {table k q : ℕ} :
    q ∈ headsTo table (k + 1) ↔ q = bucketHead table (k + 1) ∨ q ∈ headsTo table k := by
  constructor
  · rintro ⟨i, hi, rfl⟩
    rcases Nat.le_succ_iff.mp hi with hi | rfl
    · exact .inr ⟨i, hi, rfl⟩
    · exact .inl rfl
  · rintro (rfl | ⟨i, hi, rfl⟩)
    · exact ⟨k + 1, le_rfl, rfl⟩
    · exact ⟨i, Nat.le_succ_of_le hi, rfl⟩

/-- **The loop over the heads** makes each of them a list of its own, and leaves the other lists and
all other structs alone. -/
theorem initHeads_apply (null : K) {table : ℕ} (htable : table ≠ 0) (H : Heap) :
    ∀ (k : ℕ) {m : Memory (Fields K)} {hs : Set ℕ} {σ : ℕ → List (HashEntry K)}, Chains m hs σ →
      (∀ q ∈ headsTo table k, ¬ Links.OnLoop hs (nodes σ) q) →
      ∃ m' σ', initHeads null table k m H = some (((), m'), H) ∧
        Chains m' (headsTo table k ∪ hs) σ' ∧ (∀ q ∈ headsTo table k, σ' q = []) ∧
        (∀ q ∈ hs, σ' q = σ q) ∧
        ∀ b, node b ∉ headsTo table k → m'.entry b = m.entry b
  | 0, m, hs, σ, hc, hnew => by
    have hmem : node table ∈ headsTo table 0 := ⟨0, le_rfl, rfl⟩
    obtain ⟨m', hrun, hchains, hfields⟩ := initHead_apply null hc htable (hnew _ hmem) H
    have hheads : headsTo table 0 = {node table} := by
      refine Set.ext fun q => ⟨?_, fun hq => hq ▸ hmem⟩
      rintro ⟨i, hi, rfl⟩
      rw [Nat.le_zero.mp hi]
      rfl
    refine ⟨m', Function.update σ (node table) [], (bind_apply hrun _).trans rfl, ?_,
      fun q hq => ?_, fun q hq => ?_, fun b hb => hfields b ?_⟩
    · rw [hheads]
      exact hchains
    · rw [hheads] at hq
      rw [hq, Function.update_self]
    · refine Function.update_of_ne ?_ _ _
      rintro rfl
      exact hnew _ hmem ⟨_, hq, List.mem_cons_self⟩
    · rintro rfl
      exact hb hmem
  | k + 1, m, hs, σ, hc, hnew => by
    set a := table + sizeofHashEntry * (k + 1) with ha
    have hmem : node a ∈ headsTo table (k + 1) := ⟨k + 1, le_rfl, rfl⟩
    obtain ⟨m₁, hrun, hchains, hfields⟩ := initHead_apply null hc (by omega) (hnew _ hmem) H
    have hnew₁ : ∀ q ∈ headsTo table k,
        ¬ Links.OnLoop (insert (node a) hs) (nodes (Function.update σ (node a) [])) q := by
      rintro q ⟨i, hi, rfl⟩ ⟨q', hq', hx⟩
      have hne : bucketHead table i ≠ node a := by
        show bucketHead table i ≠ bucketHead table (k + 1)
        rw [Ne, bucketHead_inj]
        omega
      rw [nodes_update] at hx
      by_cases hq : q' = node a
      · rw [hq, Function.update_self] at hx
        exact hne (List.mem_singleton.mp hx)
      · rw [Function.update_of_ne hq] at hx
        exact hnew _ ⟨i, Nat.le_succ_of_le hi, rfl⟩ ⟨q', hq'.resolve_left hq, hx⟩
    obtain ⟨m', σ', hrest, hchains', hnil, hsame, hfields'⟩ :=
      initHeads_apply null htable H k hchains hnew₁
    have hset : headsTo table k ∪ insert (node a) hs = headsTo table (k + 1) ∪ hs := by
      refine Set.ext fun q => ?_
      rw [Set.mem_union, Set.mem_union, Set.mem_insert_iff, mem_headsTo_succ]
      exact ⟨by tauto, by tauto⟩
    refine ⟨m', σ', (bind_apply hrun _).trans hrest, hset ▸ hchains', fun q hq => ?_,
      fun q hq => ?_, fun b hb => ?_⟩
    · rcases mem_headsTo_succ.mp hq with rfl | hq
      · exact (hsame (node a) (Set.mem_insert _ _)).trans (Function.update_self ..)
      · exact hnil q hq
    · rw [hsame q (Set.mem_insert_of_mem _ hq), Function.update_of_ne]
      rintro rfl
      exact hnew _ hmem ⟨_, hq, List.mem_cons_self⟩
    · rw [hfields' b fun hc => hb (mem_headsTo_succ.mpr (.inr hc)), hfields b]
      rintro rfl
      exact hb hmem

theorem mem_heads_iff {q : ℕ} (hpos : 0 < h.buckets) :
    q ∈ headsTo h.tableMem (h.buckets - 1) ↔ ∃ i < h.buckets, h.head i = q :=
  exists_congr fun i => and_congr_left fun _ => by omega

/-- **A table that cannot be made** leaves the memory as it was. -/
theorem hashTableInit_refused {C : Clib K} {b : ℕ} {keycmp : Option (K → K → ℕ → ℤ)}
    {hashFn : K → ℕ → ℕ} {H' : Heap}
    (hinit : Milu.hashTableInit Heap.malloc C b keycmp (some hashFn) H = some (none, H')) :
    hashTableInit C b keycmp (some hashFn) m H = some ((none, m), H') := by
  rw [Milu.hashTableInit] at hinit
  rw [hashTableInit]
  dsimp only at hinit ⊢
  generalize hashtblSz C (b % 2 ^ 32) = n at hinit ⊢
  rw [HeapM.bind_apply (Heap.malloc_apply _ H)] at hinit
  rw [bind_apply (onHeap_apply (Heap.malloc_apply _ H) m)]
  set H₁ := H.afterMalloc (sizeofHashEntry * n % 2 ^ 64)
  cases htable : H.answer (sizeofHashEntry * n % 2 ^ 64) with
  | none =>
    rw [htable] at hinit
    rw [(HeapM.pure_inj hinit).2]
    rfl
  | some table =>
    rw [htable] at hinit
    dsimp only at hinit ⊢
    rw [HeapM.bind_apply (Heap.malloc_apply _ H₁)] at hinit
    rw [bind_apply (onHeap_apply (Heap.malloc_apply _ H₁) m)]
    cases hlocks : H₁.answer (sizeofMutex * n % 2 ^ 64) with
    | none =>
      rw [hlocks] at hinit
      rw [(HeapM.pure_inj hinit).2]
      rfl
    | some locks =>
      rw [hlocks] at hinit
      exact absurd (HeapM.pure_inj hinit).1 (Option.some_ne_none _)

/-- **A new table** lies where nothing is linked, and all its buckets are empty. -/
theorem hashTableInit_apply {C : Clib K} {b : ℕ} {keycmp : Option (K → K → ℕ → ℤ)}
    {hashFn : K → ℕ → ℕ} {H' : Heap} (hc : Chains m hs σ)
    (hstored : ∀ x, Links.OnLoop hs (nodes σ) x → Stored H x)
    (hsize : hashtblSz C (b % 2 ^ 32) ≤ 2 ^ 32)
    (hinit : Milu.hashTableInit Heap.malloc C b keycmp (some hashFn) H = some (some aux, H')) :
    ∃ m' σ', hashTableInit C b keycmp (some hashFn) m H = some ((some aux.header, m'), H') ∧
      Chains m' (headsTo aux.tableMem (aux.buckets - 1) ∪ hs) σ' ∧
      (∀ q ∈ headsTo aux.tableMem (aux.buckets - 1), σ' q = [] ∧ ¬ Stored H q) ∧
      (∀ q ∈ hs, σ' q = σ q) ∧ ∀ b, Stored H (node b) → m'.entry b = m.entry b := by
  rw [Milu.hashTableInit] at hinit
  rw [hashTableInit]
  dsimp only at hinit ⊢
  have hpos := hashtblSz_pos C (b % 2 ^ 32)
  rw [HeapM.bind_apply (Heap.malloc_apply _ H)] at hinit
  rw [bind_apply (onHeap_apply (Heap.malloc_apply _ H) m)]
  have hbytes : sizeofHashEntry * hashtblSz C (b % 2 ^ 32) % 2 ^ 64 =
      sizeofHashEntry * hashtblSz C (b % 2 ^ 32) := by
    refine Nat.mod_eq_of_lt ?_
    rw [sizeofHashEntry]
    omega
  rw [hbytes] at hinit ⊢
  set H₁ := H.afterMalloc (sizeofHashEntry * hashtblSz C (b % 2 ^ 32))
  cases hanswer : H.answer (sizeofHashEntry * hashtblSz C (b % 2 ^ 32)) with
  | none =>
    rw [hanswer] at hinit
    exact absurd (HeapM.pure_inj hinit).1.symm (Option.some_ne_none _)
  | some table =>
    rw [hanswer] at hinit
    dsimp only at hinit ⊢
    rw [HeapM.bind_apply (Heap.malloc_apply _ H₁)] at hinit
    rw [bind_apply (onHeap_apply (Heap.malloc_apply _ H₁) m)]
    cases hlocks : H₁.answer (sizeofMutex * hashtblSz C (b % 2 ^ 32) % 2 ^ 64) with
    | none =>
      rw [hlocks] at hinit
      exact absurd (HeapM.pure_inj hinit).1.symm (Option.some_ne_none _)
    | some locks =>
      rw [hlocks] at hinit
      obtain ⟨haux, rfl⟩ := HeapM.pure_inj hinit
      obtain rfl := Option.some.inj haux
      have hmod : (hashtblSz C (b % 2 ^ 32) - 1) % 2 ^ 32 = hashtblSz C (b % 2 ^ 32) - 1 :=
        Nat.mod_eq_of_lt (by omega)
      have hfar : ∀ q ∈ headsTo table (hashtblSz C (b % 2 ^ 32) - 1), ¬ Stored H q := by
        rintro q ⟨i, hi, rfl⟩
        refine not_stored_of_answer hanswer ?_ ?_ <;>
          simp only [bucketHead, node, offsetofList, sizeofHashEntry] <;> omega
      obtain ⟨m', σ', hrun, hchains, hnil, hsame, hentry⟩ := initHeads_apply C.null
        (Heap.answer_fresh hanswer).1 (H₁.afterMalloc _) _ hc
        fun q hq hon => hfar q hq (hstored q hon)
      refine ⟨m', σ', ?_, hchains, fun q hq => ⟨hnil q hq, hfar q hq⟩, hsame,
        fun a ha => hentry a fun hmem => hfar _ hmem ha⟩
      dsimp only
      rw [hmod]
      exact bind_apply hrun _

end InMemory

end Milu
