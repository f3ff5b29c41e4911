import Milu.Lib.Shares
import Milu.Tracker.World
import Mathlib.Data.Multiset.Bind
import Mathlib.Data.UInt
import Mathlib.Tactic.Abel

/-!
# Records follow the reuse of addresses

Threads that call `malloc`, `realloc` and `free` at the same time. An atomic step is one operation:
a call of the real allocator, an operation on the record table, an update of a statistic. The
allocator may hand out again any address that is not live.

`free` deletes the record of its block before it releases the block. `realloc` does it the other way
round: once `_realloc` has moved the block the old address can be handed out and recorded again, and
the record `realloc` then deletes, the most recent one of that address, is the new one. Where that
does not happen the records follow the blocks.

## Main definitions

* `Shared`, `reuseSystem` — the world, the blocks the program has, and calls in progress
* `Unambiguous` — the condition: a `realloc` that has moved its block finds one record to delete
* `Share`, `Books` — what a call answers for, and what the shares add up to

## Main results

* `Books.alloc`, `Books.resize`, `Books.insert`, `Books.delete`, `Books.deleteMoved`, `Books.free` —
  one operation
* `safe_malloc`, `safe_realloc`, `safe_free` — one call
* `records_follow` — one record for each live block whenever no call is in progress
* `record_lost` — without the condition a record goes astray
-/

namespace Milu

/-! ### The system -/

/-- The world, and the blocks the program has and has not handed to a call in progress. -/
structure Shared where
  world : World
  owned : Multiset (ℕ × UInt64)

/-- An operation changes the world. -/
def sharedExec : Program.Exec Shared MiluOp.Reply :=
  fun s o r s' => s.world.Exec o r s'.world ∧ s'.owned = s.owned

/-- The blocks a program has when a call returns that it did not have during the call, when it gave
the call a block of `old` bytes. -/
def Request.returned (old : UInt64) : Request → Option ℕ → Multiset (ℕ × UInt64)
  | .malloc size, r => r.elim 0 fun a => {(a, size)}
  | .calloc nmemb size, r => r.elim 0 fun a => {(a, size * nmemb)}
  | .realloc ptr size, r => r.elim {(ptr, old)} fun a => {(a, size)}
  | .free _, _ => 0

def finish (q : Request × UInt64) (r : Option ℕ) (s : Shared) : Shared :=
  ⟨s.world, s.owned + q.1.returned q.2 r⟩

/-- A thread enters a call: a `malloc`, a `realloc` of a block it has to a size other than zero, or
a `free` of a block it has. -/
inductive Enter : Shared → Multiset ((Request × UInt64) × Tracker (Option ℕ)) → Shared →
    (Request × UInt64) × Tracker (Option ℕ) → Prop
  | malloc {s cs} (calladdr : ℕ) (size : UInt64) :
      Enter s cs s ((.malloc size, 0), Tracker.malloc calladdr size)
  | realloc {w owned cs} (calladdr ptr : ℕ) (old size : UInt64) : size ≠ 0 →
      Enter ⟨w, (ptr, old) ::ₘ owned⟩ cs ⟨w, owned⟩
        ((.realloc ptr size, old), Tracker.realloc calladdr ptr size)
  | free {w owned cs} (calladdr ptr : ℕ) (old : UInt64) :
      Enter ⟨w, (ptr, old) ::ₘ owned⟩ cs ⟨w, owned⟩
        ((.free ptr, old), (Request.free ptr).program calladdr)

/-- Threads that call `malloc`, `realloc` and `free`. -/
def reuseSystem : System Shared ((Request × UInt64) × Tracker (Option ℕ)) :=
  Program.system sharedExec finish Enter

/-- Exactly one record for each live block, with its size, and the sum of the sizes booked. -/
structure RecordsFollow (w : World) : Prop where
  recorded : w.recorded.Perm w.live
  distinct : (Keyed.keys w.records).Nodup
  booked : w.stats.activeReserved.toNat = w.total

/-- A `realloc` that has moved its block away from `ptr`, and is about to delete the record under
`ptr`, finds no second record there. -/
def Unambiguous (w : World) (p : Tracker (Option ℕ)) : Prop :=
  ∀ ptr nptr calladdr size, nptr ≠ ptr →
    p = (Tracker.replaceRecord ptr nptr calladdr size >>= fun _ => pure (some nptr)) →
      (Keyed.keys w.records).count ptr ≤ 1

/-! ### Shares -/

/-- The block and the record a call answers for: nothing; a live block without a record; a live
block whose record, for `rsize` bytes, is the most recent one of its address; or a live block
without a record, and the record of the place it was moved from. -/
inductive Holding
  | nothing
  | unrecorded (a : ℕ) (size : UInt64)
  | recorded (a : ℕ) (size rsize : UInt64)
  | moved (p : ℕ) (old : UInt64) (a : ℕ) (size : UInt64)

/-- What a call answers for; `booked` is its part of `active_reserved`. -/
structure Share where
  holding : Holding
  booked : UInt64

namespace Share

def live (sh : Share) : Multiset (ℕ × UInt64) :=
  match sh.holding with
  | .nothing => 0
  | .unrecorded a size | .recorded a size _ | .moved _ _ a size => {(a, size)}

def recs (sh : Share) : Multiset (ℕ × UInt64) :=
  match sh.holding with
  | .nothing | .unrecorded _ _ => 0
  | .recorded a _ rsize => {(a, rsize)}
  | .moved p old _ _ => {(p, old)}

/-- A block the program has. -/
def client (b : ℕ × UInt64) : Share := ⟨.recorded b.1 b.2 b.2, b.2⟩

end Share

/-- The shares add up to the world. -/
structure Books (w : World) (shares : Multiset Share) : Prop where
  live : (w.live : Multiset (ℕ × UInt64)) = shares.bind Share.live
  recorded : (w.recorded : Multiset (ℕ × UInt64)) = shares.bind Share.recs
  booked : w.stats.activeReserved = (shares.map Share.booked).sum
  first : ∀ sh ∈ shares, ∀ a size rsize, sh.holding = .recorded a size rsize →
    ∃ mem, w.records.lookup a = some mem ∧ mem.size = rsize
  distinct : (Keyed.keys w.live).Nodup
  nonnull : 0 ∉ Keyed.keys w.live
  fits : w.total < 2 ^ 64

namespace Books

variable {w : World} {rest : Multiset Share} {h : Holding} {d : UInt64} {a p q : ℕ}
  {size old n : UInt64}

theorem live_cons {sh : Share} (hb : Books w (sh ::ₘ rest)) :
    (w.live : Multiset (ℕ × UInt64)) = sh.live + rest.bind Share.live := by
  rw [hb.live, Multiset.cons_bind]

theorem recorded_cons {sh : Share} (hb : Books w (sh ::ₘ rest)) :
    (w.recorded : Multiset (ℕ × UInt64)) = sh.recs + rest.bind Share.recs := by
  rw [hb.recorded, Multiset.cons_bind]

theorem booked_cons {sh : Share} (hb : Books w (sh ::ₘ rest)) :
    w.stats.activeReserved = sh.booked + (rest.map Share.booked).sum := by
  rw [hb.booked, Multiset.map_cons, Multiset.sum_cons]

theorem first_rest {sh : Share} (hb : Books w (sh ::ₘ rest)) : ∀ sh' ∈ rest, ∀ a size rsize,
    sh'.holding = .recorded a size rsize →
      ∃ mem, w.records.lookup a = some mem ∧ mem.size = rsize :=
  fun sh' hsh => hb.first sh' (Multiset.mem_cons_of_mem hsh)

theorem of_cons {sh : Share} (hlive : (w.live : Multiset _) = sh.live + rest.bind Share.live)
    (hrecorded : (w.recorded : Multiset _) = sh.recs + rest.bind Share.recs)
    (hbooked : w.stats.activeReserved = sh.booked + (rest.map Share.booked).sum)
    (hown : ∀ a size rsize, sh.holding = .recorded a size rsize →
      ∃ mem, w.records.lookup a = some mem ∧ mem.size = rsize)
    (hrest : ∀ sh' ∈ rest, ∀ a size rsize, sh'.holding = .recorded a size rsize →
      ∃ mem, w.records.lookup a = some mem ∧ mem.size = rsize)
    (hdistinct : (Keyed.keys w.live).Nodup) (hnonnull : 0 ∉ Keyed.keys w.live)
    (hfits : w.total < 2 ^ 64) : Books w (sh ::ₘ rest) where
  live := by rw [Multiset.cons_bind, hlive]
  recorded := by rw [Multiset.cons_bind, hrecorded]
  booked := by rw [Multiset.map_cons, Multiset.sum_cons, hbooked]
  first sh' hsh := by
    rcases Multiset.mem_cons.mp hsh with rfl | hsh
    · exact hown
    · exact hrest sh' hsh
  distinct := hdistinct
  nonnull := hnonnull
  fits := hfits

theorem lookup_live {sh : Share} (hb : Books w (sh ::ₘ rest)) (hsh : sh.live = {(a, size)}) :
    w.live.lookup a = some size := by
  refine Keyed.lookup_of_mem hb.distinct (Multiset.mem_coe.mp ?_)
  rw [hb.live_cons, hsh]
  exact Multiset.mem_add.mpr (.inl (Multiset.mem_singleton_self _))

theorem live_release {sh : Share} (hb : Books w (sh ::ₘ rest)) (hsh : sh.live = {(a, size)}) :
    ((w.release a).live : Multiset (ℕ × UInt64)) = rest.bind Share.live := by
  have hlive := hb.live_cons
  rw [hsh, Multiset.singleton_add,
    ← Multiset.coe_eq_coe.mpr (Keyed.cons_erase_perm (hb.lookup_live hsh)), ← Multiset.cons_coe,
    Multiset.cons_inj_right] at hlive
  exact hlive

theorem address_ne {sh sh' : Share} (hb : Books w (sh ::ₘ rest)) (hsh : sh.live = {(a, size)})
    (hmem : sh' ∈ rest) (hsh' : (p, n) ∈ sh'.live) : p ≠ a := by
  rintro rfl
  have hother : (p, n) ∈ ((w.release p).live : Multiset (ℕ × UInt64)) := by
    rw [hb.live_release hsh]
    exact Multiset.mem_bind.mpr ⟨sh', hmem, hsh'⟩
  have hperm := (Keyed.cons_erase_perm (hb.lookup_live hsh)).map Prod.fst
  have hnodup := hperm.nodup_iff.mpr hb.distinct
  rw [List.map_cons, List.nodup_cons] at hnodup
  exact hnodup.1 (List.mem_map.mpr ⟨_, Multiset.mem_coe.mp hother, rfl⟩)

theorem of_stats (hb : Books w (⟨h, d⟩ ::ₘ rest)) {st : Memstats} {e : UInt64}
    (hst : st.activeReserved = w.stats.activeReserved + e) :
    Books { w with stats := st } (⟨h, d + e⟩ ::ₘ rest) := by
  refine of_cons hb.live_cons hb.recorded_cons ?_ (hb.first ⟨h, d⟩ (Multiset.mem_cons_self _ _))
    hb.first_rest hb.distinct hb.nonnull hb.fits
  show st.activeReserved = d + e + (rest.map Share.booked).sum
  rw [hst, hb.booked_cons]
  show d + _ + e = _
  abel

theorem alloc (hb : Books w (⟨.nothing, d⟩ ::ₘ rest)) (hfresh : w.Fresh a size) :
    Books (w.occupy a size) (⟨.unrecorded a size, d⟩ ::ₘ rest) := by
  obtain ⟨hne, hnew, hfits⟩ := hfresh
  refine of_cons ?_ hb.recorded_cons hb.booked_cons (fun _ _ _ hr => Holding.noConfusion hr)
    hb.first_rest (List.nodup_cons.mpr ⟨hnew, hb.distinct⟩)
    (List.not_mem_cons_of_ne_of_not_mem hne.symm hb.nonnull) ?_
  · show ((a, size) ::ₘ (w.live : Multiset (ℕ × UInt64))) = {(a, size)} + _
    rw [hb.live_cons, Multiset.singleton_add]
    exact congrArg _ (zero_add _)
  · show size.toNat + w.total < 2 ^ 64
    omega

theorem free (hb : Books w (⟨.unrecorded a size, d⟩ ::ₘ rest)) :
    Books (w.release a) (⟨.nothing, d⟩ ::ₘ rest) := by
  have htotal := World.total_release (hb.lookup_live rfl)
  have hfits := hb.fits
  exact of_cons ((hb.live_release rfl).trans (zero_add _).symm) hb.recorded_cons hb.booked_cons
    (fun _ _ _ hr => Holding.noConfusion hr) hb.first_rest (World.distinct_release hb.distinct a)
    (World.nonnull_release hb.nonnull a) (by omega)

theorem resize (hb : Books w (⟨.recorded p old old, d⟩ ::ₘ rest))
    (hfresh : (w.release p).Fresh p n) :
    Books ((w.release p).occupy p n) (⟨.recorded p n old, d⟩ ::ₘ rest) := by
  obtain ⟨hne, hnew, hfits⟩ := hfresh
  refine of_cons ?_ hb.recorded_cons hb.booked_cons ?_ hb.first_rest
    (List.nodup_cons.mpr ⟨hnew, World.distinct_release hb.distinct p⟩)
    (List.not_mem_cons_of_ne_of_not_mem hne.symm (World.nonnull_release hb.nonnull p)) ?_
  · show ((p, n) ::ₘ ((w.release p).live : Multiset (ℕ × UInt64))) = {(p, n)} + _
    rw [hb.live_release rfl, Multiset.singleton_add]
  · intro a size rsize hr
    obtain ⟨rfl, rfl, rfl⟩ := Holding.recorded.inj hr
    exact hb.first _ (Multiset.mem_cons_self _ _) _ _ _ rfl
  · show n.toNat + (w.release p).total < 2 ^ 64
    omega

theorem move (hb : Books w (⟨.recorded p old old, d⟩ ::ₘ rest)) (hfresh : (w.release p).Fresh q n) :
    Books ((w.release p).occupy q n) (⟨.moved p old q n, d⟩ ::ₘ rest) := by
  obtain ⟨hne, hnew, hfits⟩ := hfresh
  refine of_cons ?_ hb.recorded_cons hb.booked_cons (fun _ _ _ hr => Holding.noConfusion hr)
    hb.first_rest (List.nodup_cons.mpr ⟨hnew, World.distinct_release hb.distinct p⟩)
    (List.not_mem_cons_of_ne_of_not_mem hne.symm (World.nonnull_release hb.nonnull p)) ?_
  · show ((q, n) ::ₘ ((w.release p).live : Multiset (ℕ × UInt64))) = {(q, n)} + _
    rw [hb.live_release rfl, Multiset.singleton_add]
  · show n.toNat + (w.release p).total < 2 ^ 64
    omega

/-- A record for a block that has none. -/
theorem insert (hb : Books w (⟨.unrecorded a size, d⟩ ::ₘ rest)) {mem : Memalloc}
    (hsize : mem.size = size) : Books { w with records := (a, mem) :: w.records }
      (⟨.recorded a size size, d⟩ ::ₘ rest) := by
  refine of_cons hb.live_cons ?_ hb.booked_cons ?_ ?_ hb.distinct hb.nonnull hb.fits
  · show ((a, mem.size) ::ₘ (w.recorded : Multiset (ℕ × UInt64))) = {(a, size)} + _
    rw [hb.recorded_cons, Multiset.singleton_add, hsize]
    exact congrArg _ (zero_add _)
  · intro a' size' rsize hr
    obtain ⟨rfl, rfl, rfl⟩ := Holding.recorded.inj hr
    exact ⟨mem, List.lookup_cons_self, hsize⟩
  · intro sh hsh a' size' rsize hr
    have hne : a' ≠ a := hb.address_ne rfl hsh (n := size') (by rw [Share.live, hr]; simp)
    obtain ⟨mem', hmem', hsize'⟩ := hb.first_rest sh hsh a' size' rsize hr
    exact ⟨mem', by rw [← hmem', Keyed.lookup_cons_of_ne hne], hsize'⟩

/-- The record of one share is deleted. The other shares must not miss it. -/
theorem erase {sh : Share} (hb : Books w (sh ::ₘ rest)) {mem : Memalloc}
    (hrecs : sh.recs = {(p, mem.size)}) (hlive : sh.live = {(a, size)})
    (hmem : w.records.lookup p = some mem)
    (hne : ∀ sh' ∈ rest, ∀ a' size' rsize, sh'.holding = .recorded a' size' rsize → a' ≠ p) :
    Books { w with records := Keyed.erase p w.records }
      (⟨.unrecorded a size, sh.booked⟩ ::ₘ rest) := by
  have hperm := (Keyed.cons_erase_perm hmem).map fun r : ℕ × Memalloc => (r.1, r.2.size)
  have hrec := hb.recorded_cons
  rw [hrecs, Multiset.singleton_add, World.recorded, ← Multiset.coe_eq_coe.mpr hperm,
    List.map_cons, ← Multiset.cons_coe, Multiset.cons_inj_right] at hrec
  refine of_cons (hb.live_cons.trans (by rw [hlive]; rfl))
    (hrec.trans (zero_add _).symm) hb.booked_cons
    (fun _ _ _ hr => Holding.noConfusion hr) ?_ hb.distinct hb.nonnull hb.fits
  intro sh' hsh a' size' rsize hr
  obtain ⟨mem', hmem', hsize'⟩ := hb.first_rest sh' hsh a' size' rsize hr
  exact ⟨mem', by rw [← hmem', Keyed.lookup_erase_of_ne (hne sh' hsh a' size' rsize hr)], hsize'⟩

/-- The record of a block is deleted, before the block is released or after it was resized. -/
theorem delete {rsize : UInt64} (hb : Books w (⟨.recorded a size rsize, d⟩ ::ₘ rest)) :
    ∃ mem, w.records.lookup a = some mem ∧ mem.size = rsize ∧
      Books { w with records := Keyed.erase a w.records } (⟨.unrecorded a size, d⟩ ::ₘ rest) := by
  obtain ⟨mem, hmem, rfl⟩ := hb.first _ (Multiset.mem_cons_self _ _) a size rsize rfl
  refine ⟨mem, hmem, rfl, hb.erase rfl rfl hmem fun sh hsh a' size' rsize hr => ?_⟩
  exact hb.address_ne rfl hsh (n := size') (by rw [Share.live, hr]; simp)

/-- The old record of a block that has moved is deleted, while its address has no other record. -/
theorem deleteMoved (hb : Books w (⟨.moved p old a size, d⟩ ::ₘ rest))
    (hone : (Keyed.keys w.records).count p ≤ 1) :
    ∃ mem, w.records.lookup p = some mem ∧ mem.size = old ∧
      Books { w with records := Keyed.erase p w.records } (⟨.unrecorded a size, d⟩ ::ₘ rest) := by
  have hrecs : (w.recorded : Multiset (ℕ × UInt64)) = (p, old) ::ₘ rest.bind Share.recs :=
    hb.recorded_cons.trans (Multiset.singleton_add _ _)
  have hkeys : (Keyed.keys w.records : Multiset ℕ) =
      ((p, old) ::ₘ rest.bind Share.recs).map Prod.fst := by
    rw [← hrecs, Multiset.map_coe, World.recorded, List.map_map]
    rfl
  -- the one record under `p` is that of this share
  have hnone : ∀ b ∈ rest.bind Share.recs, b.1 ≠ p := by
    intro b hother hbp
    have hpos : 0 < ((rest.bind Share.recs).map Prod.fst).count p :=
      Multiset.count_pos.mpr (Multiset.mem_map.mpr ⟨b, hother, hbp⟩)
    rw [← Multiset.coe_count, hkeys, Multiset.map_cons, Multiset.count_cons_self] at hone
    omega
  have hkey : p ∈ Keyed.keys w.records := by
    rw [← Multiset.mem_coe, hkeys, Multiset.map_cons]
    exact Multiset.mem_cons_self _ _
  obtain ⟨mem, hmem⟩ := Keyed.exists_lookup hkey
  have hin : (p, mem.size) ∈ (w.recorded : Multiset (ℕ × UInt64)) :=
    Multiset.mem_coe.mpr (List.mem_map.mpr ⟨_, Keyed.mem_of_lookup hmem, rfl⟩)
  have hsize : mem.size = old := by
    rw [hrecs] at hin
    rcases Multiset.mem_cons.mp hin with heq | hother
    · exact (Prod.ext_iff.mp heq).2
    · exact absurd rfl (hnone _ hother)
  subst hsize
  refine ⟨mem, hmem, rfl, hb.erase rfl rfl hmem fun sh hsh a' size' rsize hr => ?_⟩
  exact hnone (a', rsize) (Multiset.mem_bind.mpr ⟨sh, hsh, by rw [Share.recs, hr]; simp⟩)

end Books

/-! ### One call -/

/-- The shares of the calls in progress and of the blocks the program has add up to the world. -/
def SharesAdd (s : Shared) (shares : Multiset Share) : Prop :=
  Books s.world (s.owned.map Share.client + shares)

/-- A program that can be run from a share, to end with one that `post` allows. -/
abbrev SafeFrom (post : Option ℕ → Share → Prop) : Tracker (Option ℕ) → Share → Prop :=
  Program.Safe sharedExec (fun s p => Unambiguous s.world p) SharesAdd post

section

variable {post : Option ℕ → Share → Prop} {sh : Share} {d : UInt64} {ptr nptr calladdr : ℕ}
  {size old : UInt64}

/-- One operation, in a world of any other shares. -/
theorem safe_op {o : MiluOp} {k : o.Reply → Tracker (Option ℕ)}
    (h : ∀ {w rest r w'}, Books w (sh ::ₘ rest) → Unambiguous w (.op o k) → w.Exec o r w' →
      ∃ sh', Books w' (sh' ::ₘ rest) ∧ SafeFrom post (k r) sh') : SafeFrom post (.op o k) sh := by
  rintro ⟨w, owned⟩ others r ⟨w', _⟩ hb hok ⟨hexec, rfl⟩
  rw [SharesAdd, Multiset.add_cons] at hb
  obtain ⟨sh', hb', hrest⟩ := h hb hok hexec
  exact ⟨sh', by rwa [SharesAdd, Multiset.add_cons], hrest⟩

theorem safe_enabled {β : Type} {x y : Tracker β} {f : β → Tracker (Option ℕ)}
    (h : SafeFrom post (y >>= f) sh) : SafeFrom post
      ((Tracker.perform .enabled >>= fun enabled => if enabled = 0 then x else y) >>= f) sh := by
  refine safe_op fun {w rest r w'} hb _ hexec => ⟨sh, ?_, ?_⟩
  · rw [hexec.2]
    exact hb
  · show SafeFrom post ((if r = 0 then x else y) >>= f) sh
    rwa [if_neg hexec.1]

theorem safe_add {c : Counter} {n : UInt64} {k : Unit → Tracker (Option ℕ)}
    (h : SafeFrom post (k ()) ⟨sh.holding, sh.booked + if c = .activeReserved then n else 0⟩) :
    SafeFrom post (.op (.add c n) k) sh := by
  refine safe_op fun {w rest r w'} hb _ hexec => ⟨_, ?_, h⟩
  rw [hexec]
  refine hb.of_stats ?_
  cases c <;> simp [Memstats.add, Memstats.modify]

theorem safe_sub {c : Counter} {n : UInt64} {k : Unit → Tracker (Option ℕ)}
    (h : SafeFrom post (k ()) ⟨sh.holding, sh.booked - if c = .activeReserved then n else 0⟩) :
    SafeFrom post (.op (.sub c n) k) sh := by
  refine safe_op fun {w rest r w'} hb _ hexec => ⟨_, ?_, h⟩
  rw [hexec, sub_eq_add_neg]
  refine hb.of_stats ?_
  cases c <;> simp [Memstats.sub, Memstats.modify, sub_eq_add_neg]

theorem safe_newRecord {k : Memalloc → Tracker (Option ℕ)}
    (h : ∀ mem : Memalloc, mem.size = size → SafeFrom post (k mem) sh) :
    SafeFrom post (Tracker.newRecord ptr calladdr size >>= k) sh := by
  show SafeFrom post (.op .takeRecord _) sh
  refine safe_op fun {w rest r w'} hb _ hexec => ⟨sh, ?_, ?_⟩
  · rw [hexec.2]
    exact hb
  · cases r with
    | none => exact absurd rfl hexec.1
    | some addr =>
      show SafeFrom post (.op .backtrace _) sh
      refine safe_op fun {w rest r w'} hb _ hexec => ⟨sh, ?_, h _ rfl⟩
      rw [show w' = w from hexec]
      exact hb

theorem safe_insert {mem : Memalloc} (hsize : mem.size = size) {k : Unit → Tracker (Option ℕ)}
    (h : SafeFrom post (k ()) ⟨.recorded ptr size size, d⟩) :
    SafeFrom post (.op (.insert ptr mem) k) ⟨.unrecorded ptr size, d⟩ := by
  refine safe_op fun {w rest r w'} hb _ hexec => ⟨_, ?_, h⟩
  rw [show w' = _ from hexec]
  exact hb.insert hsize

theorem safe_freeRecord {mem : Memalloc} {k : Unit → Tracker (Option ℕ)}
    (h : SafeFrom post (k ()) sh) : SafeFrom post (.op (.freeRecord mem) k) sh := by
  refine safe_op fun {w rest r w'} hb _ hexec => ⟨sh, ?_, h⟩
  rw [show w' = w from hexec]
  exact hb

theorem safe_guardInit {f : Unit → Tracker (Option ℕ)} (h : SafeFrom post (f ()) sh) :
    SafeFrom post (Tracker.guardInit >>= f) sh := safe_enabled h

theorem safe_recordNew {f : Unit → Tracker (Option ℕ)}
    (h : SafeFrom post (f ()) ⟨.recorded ptr size size, d + size⟩) :
    SafeFrom post (Tracker.recordNew ptr calladdr size >>= f) ⟨.unrecorded ptr size, d⟩ := by
  refine safe_enabled ?_
  rw [bind_assoc]
  refine safe_newRecord fun mem hsize => ?_
  show SafeFrom post (.op (.insert ptr mem) _) _
  refine safe_insert hsize ?_
  show SafeFrom post (.op (.add .alloc 1) _) _
  refine safe_add ?_
  show SafeFrom post (.op (.add .activeAlloc 1) _) _
  refine safe_add ?_
  show SafeFrom post (.op (.add .reserved size) _) _
  refine safe_add ?_
  show SafeFrom post (.op (.add .activeReserved size) _) _
  refine safe_add ?_
  show SafeFrom post (f ()) _
  simpa using h

theorem safe_relink {mem : Memalloc} {f : Unit → Tracker (Option ℕ)}
    (h : SafeFrom post (f ()) ⟨.recorded nptr size size, d - mem.size + size⟩) :
    SafeFrom post (Tracker.relink (some mem) nptr calladdr size >>= f)
      ⟨.unrecorded nptr size, d⟩ := by
  rw [Tracker.relink, bind_assoc]
  refine safe_newRecord fun new hsize => ?_
  show SafeFrom post (.op (.insert nptr new) _) _
  refine safe_insert hsize ?_
  show SafeFrom post (.op (.sub .reserved mem.size) _) _
  refine safe_sub ?_
  show SafeFrom post (.op (.sub .activeReserved mem.size) _) _
  refine safe_sub ?_
  show SafeFrom post (.op (.freeRecord mem) _) _
  refine safe_freeRecord ?_
  show SafeFrom post (.op (.add .reserved size) _) _
  refine safe_add ?_
  show SafeFrom post (.op (.add .activeReserved size) _) _
  refine safe_add ?_
  show SafeFrom post (f ()) _
  simpa using h

theorem safe_replaceRecord {f : Unit → Tracker (Option ℕ)}
    (h : SafeFrom post (f ()) ⟨.recorded ptr size size, d - old + size⟩) :
    SafeFrom post (Tracker.replaceRecord ptr ptr calladdr size >>= f)
      ⟨.recorded ptr size old, d⟩ := by
  show SafeFrom post (.op (.delete ptr) _) _
  refine safe_op fun {w rest r w'} hb _ hexec => ?_
  obtain ⟨mem, hmem, rfl, hb'⟩ := hb.delete
  obtain ⟨rfl, rfl⟩ := hexec
  refine ⟨_, hb', ?_⟩
  rw [hmem]
  exact safe_relink h

theorem safe_replaceMoved (hne : nptr ≠ ptr)
    (h : post (some nptr) ⟨.recorded nptr size size, d - old + size⟩) :
    SafeFrom post (Tracker.replaceRecord ptr nptr calladdr size >>= fun _ => pure (some nptr))
      ⟨.moved ptr old nptr size, d⟩ := by
  have hret : SafeFrom post ((fun _ : Unit => pure (some nptr)) ())
      ⟨.recorded nptr size size, d - old + size⟩ := h
  show SafeFrom post (.op (.delete ptr) _) _
  refine safe_op fun {w rest r w'} hb hok hexec => ?_
  obtain ⟨mem, hmem, rfl, hb'⟩ := hb.deleteMoved (hok ptr nptr calladdr size hne rfl)
  obtain ⟨rfl, rfl⟩ := hexec
  refine ⟨_, hb', ?_⟩
  rw [hmem]
  exact safe_relink hret

theorem safe_forget {f : Unit → Tracker (Option ℕ)}
    (h : SafeFrom post (f ()) ⟨.unrecorded ptr size, d - old⟩) :
    SafeFrom post (Tracker.forget ptr >>= f) ⟨.recorded ptr size old, d⟩ := by
  refine safe_enabled ?_
  show SafeFrom post (.op (.delete ptr) _) _
  refine safe_op fun {w rest r w'} hb _ hexec => ?_
  obtain ⟨mem, hmem, rfl, hb'⟩ := hb.delete
  obtain ⟨rfl, rfl⟩ := hexec
  refine ⟨_, hb', ?_⟩
  rw [hmem]
  show SafeFrom post (.op (.sub .activeAlloc 1) _) _
  refine safe_sub ?_
  show SafeFrom post (.op (.sub .activeReserved mem.size) _) _
  refine safe_sub ?_
  show SafeFrom post (.op (.freeRecord mem) _) _
  refine safe_freeRecord ?_
  show SafeFrom post (f ()) _
  simpa using h

/-- The share a call of `q` may end with when it returns `r`. -/
def Settled (q : Request × UInt64) (r : Option ℕ) (sh : Share) : Prop :=
  q.1.returned q.2 r = 0 ∧ sh = ⟨.nothing, 0⟩ ∨
    ∃ b, q.1.returned q.2 r = {b} ∧ sh = Share.client b

theorem safe_malloc : SafeFrom (Settled (.malloc size, 0)) (Tracker.malloc calladdr size)
    ⟨.nothing, 0⟩ := by
  refine safe_guardInit ?_
  show SafeFrom _ (.op (.malloc size) _) _
  refine safe_op fun {w rest r w'} hb _ hexec => ?_
  rcases hexec with ⟨rfl, rfl⟩ | ⟨a, rfl, hfresh, rfl⟩
  · exact ⟨_, hb, .inl ⟨rfl, rfl⟩⟩
  · refine ⟨_, hb.alloc hfresh, ?_⟩
    show SafeFrom _ (Tracker.recordNew a calladdr size >>= fun _ => pure (some a)) _
    refine safe_recordNew (show Settled _ _ _ from .inr ⟨(a, size), rfl, ?_⟩)
    rw [zero_add]
    rfl

/-- By cases on where `_realloc` puts the block: nowhere, where it was, or elsewhere. -/
theorem safe_realloc (hsize : size ≠ 0) : SafeFrom (Settled (.realloc ptr size, old))
    (Tracker.realloc calladdr ptr size) (Share.client (ptr, old)) := by
  refine safe_guardInit ?_
  show SafeFrom _ (.op (.realloc ptr size) _) _
  refine safe_op fun {w rest r w'} hb _ hexec => ?_
  rw [World.Exec, World.Realloc, hb.lookup_live rfl] at hexec
  rcases hexec with ⟨rfl, rfl⟩ | ⟨hzero, -⟩ | ⟨nptr, rfl, hfresh, rfl⟩
  · exact ⟨_, hb, .inr ⟨(ptr, old), rfl, rfl⟩⟩
  · exact absurd hzero hsize
  · have hpost : Settled (.realloc ptr size, old) (some nptr)
        ⟨.recorded nptr size size, old - old + size⟩ := by
      refine .inr ⟨(nptr, size), rfl, ?_⟩
      rw [sub_self, zero_add]
      rfl
    rcases eq_or_ne nptr ptr with rfl | hne
    · refine ⟨_, hb.resize hfresh, ?_⟩
      show SafeFrom _ (Tracker.recordMoved nptr nptr calladdr size >>= fun _ =>
        pure (some nptr)) _
      exact safe_enabled (safe_replaceRecord hpost)
    · refine ⟨_, hb.move hfresh, ?_⟩
      show SafeFrom _ (Tracker.recordMoved ptr nptr calladdr size >>= fun _ =>
        pure (some nptr)) _
      exact safe_enabled (safe_replaceMoved hne hpost)

theorem safe_free (calladdr : ℕ) : SafeFrom (Settled (.free ptr, old))
    ((Request.free ptr).program calladdr)
    (Share.client (ptr, old)) := by
  show SafeFrom _ ((Tracker.guardInit >>= fun _ =>
    Tracker.forget ptr >>= fun _ => Tracker.perform (.free ptr)) >>= fun _ => pure none) _
  rw [bind_assoc]
  refine safe_guardInit ?_
  rw [bind_assoc]
  refine safe_forget ?_
  show SafeFrom _ (.op (.free ptr) _) _
  refine safe_op fun {w rest r w'} hb _ hexec =>
    ⟨⟨.nothing, 0⟩, ?_, show Settled _ _ _ from .inl ⟨rfl, rfl⟩⟩
  have hfree := hb.free
  rw [sub_self] at hfree
  rw [show w' = w.release ptr from hexec]
  exact hfree

end

/-! ### Every interleaving -/

section

variable {s : Shared} {shares : Multiset Share}

theorem Books.nothing_iff {w : World} : Books w (⟨.nothing, 0⟩ ::ₘ shares) ↔ Books w shares := by
  constructor
  · intro hb
    refine ⟨?_, ?_, ?_, hb.first_rest, hb.distinct, hb.nonnull, hb.fits⟩
    · exact hb.live_cons.trans (zero_add _)
    · exact hb.recorded_cons.trans (zero_add _)
    · exact hb.booked_cons.trans (zero_add _)
  · intro hb
    exact Books.of_cons (hb.live.trans (zero_add _).symm) (hb.recorded.trans (zero_add _).symm)
      (hb.booked.trans (zero_add _).symm) (fun _ _ _ hr => Holding.noConfusion hr) hb.first
      hb.distinct hb.nonnull hb.fits

theorem sharesAdd_owned {w : World} {owned : Multiset (ℕ × UInt64)} {b : ℕ × UInt64} :
    SharesAdd ⟨w, b ::ₘ owned⟩ shares ↔ SharesAdd ⟨w, owned⟩ (Share.client b ::ₘ shares) := by
  rw [SharesAdd, SharesAdd, Multiset.map_cons, Multiset.cons_add, Multiset.add_cons]

theorem sharesAdd_nothing : SharesAdd s (⟨.nothing, 0⟩ ::ₘ shares) ↔ SharesAdd s shares := by
  rw [SharesAdd, SharesAdd, Multiset.add_cons, Books.nothing_iff]

theorem sharesAdd_enter {cs : Multiset ((Request × UInt64) × Tracker (Option ℕ))} {s' : Shared}
    {c : (Request × UInt64) × Tracker (Option ℕ)} (hb : SharesAdd s shares)
    (hs : Enter s cs s' c) :
    ∃ sh, SharesAdd s' (sh ::ₘ shares) ∧ SafeFrom (Settled c.1) c.2 sh := by
  cases hs with
  | malloc calladdr size => exact ⟨_, sharesAdd_nothing.mpr hb, safe_malloc⟩
  | realloc calladdr ptr old size hsize =>
    exact ⟨_, sharesAdd_owned.mp hb, safe_realloc hsize⟩
  | free calladdr ptr old => exact ⟨_, sharesAdd_owned.mp hb, safe_free calladdr⟩

theorem sharesAdd_finish {q : Request × UInt64} {r : Option ℕ} {sh : Share}
    (hb : SharesAdd s (sh ::ₘ shares)) (hsh : Settled q r sh) : SharesAdd
      (finish q r s) shares := by
  rcases hsh with ⟨hq, rfl⟩ | ⟨b, hq, rfl⟩
  · rw [finish, hq, add_zero]
    exact sharesAdd_nothing.mp hb
  · rw [finish, hq, add_comm, Multiset.singleton_add]
    exact sharesAdd_owned.mpr hb

end

/-- The sum of the sizes, as `active_reserved` counts it. -/
theorem sum_booked (owned : Multiset (ℕ × UInt64)) :
    ((owned.map Share.client).map Share.booked).sum =
      UInt64.ofNat (owned.map fun b => b.2.toNat).sum := by
  induction owned using Multiset.induction with
  | empty => rfl
  | cons b owned ih =>
    rw [Multiset.map_cons, Multiset.map_cons, Multiset.sum_cons, ih, Multiset.map_cons,
      Multiset.sum_cons, UInt64.ofNat_add, UInt64.ofNat_toNat]
    rfl

theorem Books.quiet {w : World} {owned : Multiset (ℕ × UInt64)}
    (hb : Books w (owned.map Share.client)) : RecordsFollow w := by
  have hclient : ∀ f : Share → Multiset (ℕ × UInt64), (∀ b, f (Share.client b) = {b}) →
      (owned.map Share.client).bind f = owned := by
    intro f hf
    rw [Multiset.bind_map, funext hf, Multiset.bind_singleton, Multiset.map_id']
  have hlive := hb.live.trans (hclient Share.live fun _ => rfl)
  have hperm : w.recorded.Perm w.live :=
    Multiset.coe_eq_coe.mp (hb.recorded.trans ((hclient Share.recs fun _ => rfl).trans hlive.symm))
  refine ⟨hperm, ?_, ?_⟩
  · have hkeys := (hperm.map Prod.fst).nodup_iff.mpr hb.distinct
    rwa [World.recorded, List.map_map] at hkeys
  · have hsum : (owned.map fun b => b.2.toNat).sum = w.total := by
      rw [← hlive, Multiset.map_coe, Multiset.sum_coe]
      rfl
    rw [hb.booked, sum_booked, hsum, UInt64.toNat_ofNat_of_lt' hb.fits]

/-- **Records follow the blocks**, in every interleaving in which a `realloc` that has moved its
block finds no second record under the old address. -/
theorem records_follow {s : Shared}
    (h : reuseSystem.Run (fun s _ c _ => Unambiguous s.world c.2) ⟨⟨World.empty, 0⟩, 0⟩ ⟨s, 0⟩) :
    RecordsFollow s.world := by
  have hempty : SharesAdd ⟨World.empty, 0⟩ 0 :=
    ⟨rfl, rfl, rfl, by simp, List.nodup_nil, List.not_mem_nil, by decide⟩
  have hkept : Program.Kept sharedExec (fun s p => Unambiguous s.world p) SharesAdd
    Settled s 0 := by
    refine Program.Kept.run ?_ ?_ h (.empty hempty)
    · exact sharesAdd_enter
    · exact sharesAdd_finish
  have hb := hkept.inv
  rw [SharesAdd, add_zero] at hb
  exact hb.quiet

/-! ### Calls that overlap -/

section

variable {w : World} {owned : Multiset (ℕ × UInt64)} {addr a ptr nptr calladdr : ℕ}
  {old size : UInt64} {mem : Memalloc} {cs : Multiset ((Request × UInt64) × Tracker (Option ℕ))}
  {c : System.Config Shared ((Request × UInt64) × Tracker (Option ℕ))}

/-- A run in which no `realloc` finds a second record. -/
abbrev ReuseRun : System.Config Shared ((Request × UInt64) × Tracker (Option ℕ)) →
    System.Config Shared ((Request × UInt64) × Tracker (Option ℕ)) → Prop :=
  reuseSystem.Run fun s _ c _ => Unambiguous s.world c.2

/-- The world with a new block and its record. -/
def World.track (w : World) (addr a calladdr : ℕ) (size : UInt64) : World :=
  ⟨(a, size) :: w.live, (a, ⟨addr, a, calladdr, 0, 0, size⟩) :: w.records,
    ⟨w.stats.reserved + size, w.stats.activeReserved + size, w.stats.alloc + 1,
      w.stats.activeAlloc + 1⟩⟩

/-- The world without a block and its record. -/
def World.untrack (w : World) (a : ℕ) (mem : Memalloc) : World :=
  ⟨Keyed.erase a w.live, Keyed.erase a w.records,
    ⟨w.stats.reserved, w.stats.activeReserved - mem.size, w.stats.alloc, w.stats.activeAlloc - 1⟩⟩

/-- The world with a record for a block that was moved, in place of one that was deleted. -/
def World.retrack (w : World) (addr nptr calladdr : ℕ) (size : UInt64) (mem : Memalloc) : World :=
  ⟨w.live, (nptr, ⟨addr, nptr, calladdr, 0, 0, size⟩) :: w.records,
    ⟨w.stats.reserved - mem.size + size, w.stats.activeReserved - mem.size + size, w.stats.alloc,
      w.stats.activeAlloc⟩⟩

/-- An operation that deletes no record but the only one of its key. -/
def clearExec : Program.Exec Shared MiluOp.Reply :=
  fun s o r s' => sharedExec s o r s' ∧
    ∀ key, o = .delete key → (Keyed.keys s.world.records).count key ≤ 1

/-- Where a key has one record, none is mistaken for another. -/
theorem unambiguous_of_count {o : MiluOp} {k : o.Reply → Tracker (Option ℕ)}
    (h : ∀ key, o = .delete key → (Keyed.keys w.records).count key ≤ 1) : Unambiguous w (.op o k) :=
  fun ptr _ _ _ _ hp => h ptr (Program.op.inj hp).1

/-- Part of a call that is not interrupted. -/
theorem ReuseRun.part {q : Request × UInt64} {β : Type} {p : Tracker β}
    {f : β → Tracker (Option ℕ)} {b : β} {s s' : Shared}
    (h : ReuseRun c ⟨s, (q, p >>= f) ::ₘ cs⟩) (hp : Program.Runs clearExec s p b s') :
    ReuseRun c ⟨s', (q, f b) ::ₘ cs⟩ :=
  Program.run_part (fun h => h.1) (fun h => unambiguous_of_count h.2) hp h

/-- A `malloc` that is given the block at `a`, and is not interrupted. -/
theorem ReuseRun.malloc (h : ReuseRun c ⟨⟨w, owned⟩, cs⟩) (addr calladdr : ℕ)
    (hfresh : w.Fresh a size) :
    ReuseRun c ⟨⟨w.track addr a calladdr size, owned + {(a, size)}⟩, cs⟩ := by
  have hruns : Program.Runs clearExec ⟨w, owned⟩ (Tracker.malloc calladdr size) (some a)
      ⟨w.track addr a calladdr size, owned⟩ :=
    ⟨1, ⟨w, owned⟩, ⟨⟨⟨by decide, rfl⟩, rfl⟩, nofun⟩, some a, ⟨w.occupy a size, owned⟩,
      ⟨⟨.inr ⟨a, rfl, hfresh, rfl⟩, rfl⟩, nofun⟩, 1, ⟨_, _⟩, ⟨⟨⟨by decide, rfl⟩, rfl⟩, nofun⟩,
      some addr, ⟨_, _⟩, ⟨⟨⟨nofun, rfl⟩, rfl⟩, nofun⟩, (0, 0), ⟨_, _⟩, ⟨⟨rfl, rfl⟩, nofun⟩,
      (), ⟨_, _⟩, ⟨⟨rfl, rfl⟩, nofun⟩, (), ⟨_, _⟩, ⟨⟨rfl, rfl⟩, nofun⟩,
      (), ⟨_, _⟩, ⟨⟨rfl, rfl⟩, nofun⟩, (), ⟨_, _⟩, ⟨⟨rfl, rfl⟩, nofun⟩,
      (), ⟨_, _⟩, ⟨⟨rfl, rfl⟩, nofun⟩, rfl, rfl⟩
  have henter : ReuseRun c
      ⟨⟨w, owned⟩, ((.malloc size, 0), Tracker.malloc calladdr size) ::ₘ cs⟩ :=
    System.Run.start h (.malloc calladdr size)
  rw [← Program.bind_ret (Tracker.malloc calladdr size)] at henter
  exact (henter.part hruns).ret .ret nofun

theorem ReuseRun.free (h : ReuseRun c ⟨⟨w, (ptr, old) ::ₘ owned⟩, cs⟩) (calladdr : ℕ)
    (hmem : w.records.lookup ptr = some mem) (hone : (Keyed.keys w.records).count ptr ≤ 1) :
    ReuseRun c ⟨⟨w.untrack ptr mem, owned⟩, cs⟩ := by
  have hruns : Program.Runs clearExec ⟨w, owned⟩ ((Request.free ptr).program calladdr) none
      ⟨w.untrack ptr mem, owned⟩ :=
    ⟨1, ⟨w, owned⟩, ⟨⟨⟨by decide, rfl⟩, rfl⟩, nofun⟩, 1, ⟨w, owned⟩,
      ⟨⟨⟨by decide, rfl⟩, rfl⟩, nofun⟩, some mem,
        ⟨{ w with records := Keyed.erase ptr w.records }, _⟩,
      ⟨⟨⟨hmem.symm, rfl⟩, rfl⟩, fun key hkey => MiluOp.delete.inj hkey ▸ hone⟩,
      (), ⟨_, _⟩, ⟨⟨rfl, rfl⟩, nofun⟩, (), ⟨_, _⟩, ⟨⟨rfl, rfl⟩, nofun⟩, (), ⟨_, _⟩,
      ⟨⟨rfl, rfl⟩, nofun⟩, (), ⟨_, _⟩, ⟨⟨rfl, rfl⟩, nofun⟩, rfl, rfl⟩
  have henter : ReuseRun c
      ⟨⟨w, owned⟩, ((.free ptr, old), (Request.free ptr).program calladdr) ::ₘ cs⟩ :=
    System.Run.start h (.free calladdr ptr old)
  rw [← Program.bind_ret ((Request.free ptr).program calladdr)] at henter
  have hret := (henter.part hruns).ret .ret nofun
  rwa [show finish (.free ptr, old) none ⟨w.untrack ptr mem, owned⟩ =
    ⟨w.untrack ptr mem, owned⟩ from
    congrArg (Shared.mk _) (add_zero _)] at hret

/-- A `realloc`, up to where `_realloc` has moved its block. -/
theorem ReuseRun.move (h : ReuseRun c ⟨⟨w, (ptr, old) ::ₘ owned⟩, cs⟩) (calladdr : ℕ)
    (hsize : size ≠ 0) (hlive : w.live.lookup ptr = some old)
    (hfresh : (w.release ptr).Fresh nptr size) :
    ReuseRun c ⟨⟨(w.release ptr).occupy nptr size, owned⟩,
      ((.realloc ptr size, old), Tracker.trackMoved calladdr ptr size (some nptr)) ::ₘ cs⟩ := by
  have hruns : Program.Runs clearExec ⟨w, owned⟩
      (Tracker.guardInit >>= fun _ => Tracker.perform (.realloc ptr size)) (some nptr)
      ⟨(w.release ptr).occupy nptr size, owned⟩ := by
    refine ⟨1, ⟨w, owned⟩, ⟨⟨⟨by decide, rfl⟩, rfl⟩, nofun⟩, some nptr,
      ⟨(w.release ptr).occupy nptr size, owned⟩, ⟨⟨?_, rfl⟩, nofun⟩, rfl, rfl⟩
    rw [World.Exec, World.Realloc, hlive]
    exact .inr (.inr ⟨nptr, rfl, hfresh, rfl⟩)
  have henter : ReuseRun c
      ⟨⟨w, owned⟩, ((.realloc ptr size, old), Tracker.realloc calladdr ptr size) ::ₘ cs⟩ :=
    System.Run.start h (.realloc calladdr ptr old size hsize)
  rw [Tracker.realloc, ← bind_assoc] at henter
  exact henter.part hruns

theorem ReuseRun.unlink (h : ReuseRun c ⟨⟨w, owned⟩,
      ((.realloc ptr size, old), Tracker.trackMoved calladdr ptr size (some nptr)) ::ₘ cs⟩)
    (hmem : w.records.lookup ptr = some mem) (hone : (Keyed.keys w.records).count ptr ≤ 1) :
    ReuseRun c ⟨⟨{ w with records := Keyed.erase ptr w.records }, owned⟩,
      ((.realloc ptr size, old), Tracker.relink (some mem) nptr calladdr size >>= fun _ =>
        pure (some nptr)) ::ₘ cs⟩ := by
  have henabled : Program.Runs clearExec ⟨w, owned⟩ (Tracker.perform .enabled) 1 ⟨w, owned⟩ :=
    ⟨1, ⟨w, owned⟩, ⟨⟨⟨by decide, rfl⟩, rfl⟩, nofun⟩, rfl, rfl⟩
  have hdelete : Program.Runs clearExec ⟨w, owned⟩ (Tracker.perform (.delete ptr)) (some mem)
      ⟨{ w with records := Keyed.erase ptr w.records }, owned⟩ :=
    ⟨some mem, ⟨_, owned⟩, ⟨⟨⟨hmem.symm, rfl⟩, rfl⟩,
      fun key hkey => MiluOp.delete.inj hkey ▸ hone⟩, rfl, rfl⟩
  have htail : Tracker.trackMoved calladdr ptr size (some nptr) = Tracker.perform .enabled >>=
      fun enabled => (if enabled = 0 then pure () else
        Tracker.perform (.delete ptr) >>= fun mem => Tracker.relink mem nptr calladdr size) >>=
          fun _ => pure (some nptr) := rfl
  rw [htail] at h
  exact (h.part henabled).part
    (f := fun mem => Tracker.relink mem nptr calladdr size >>= fun _ => pure (some nptr)) hdelete

theorem ReuseRun.relink (h : ReuseRun c ⟨⟨w, owned⟩, ((.realloc ptr size, old),
      Tracker.relink (some mem) nptr calladdr size >>= fun _ => pure (some nptr)) ::ₘ cs⟩)
    (addr : ℕ) : ReuseRun c
      ⟨⟨w.retrack addr nptr calladdr size mem, owned + {(nptr, size)}⟩, cs⟩ := by
  have hruns : Program.Runs clearExec ⟨w, owned⟩ (Tracker.relink (some mem) nptr calladdr size) ()
      ⟨w.retrack addr nptr calladdr size mem, owned⟩ :=
    ⟨some addr, ⟨_, _⟩, ⟨⟨⟨nofun, rfl⟩, rfl⟩, nofun⟩, (0, 0), ⟨_, _⟩, ⟨⟨rfl, rfl⟩, nofun⟩,
      (), ⟨_, _⟩, ⟨⟨rfl, rfl⟩, nofun⟩, (), ⟨_, _⟩, ⟨⟨rfl, rfl⟩, nofun⟩,
      (), ⟨_, _⟩, ⟨⟨rfl, rfl⟩, nofun⟩, (), ⟨_, _⟩, ⟨⟨rfl, rfl⟩, nofun⟩,
      (), ⟨_, _⟩, ⟨⟨rfl, rfl⟩, nofun⟩, (), ⟨_, _⟩, ⟨⟨rfl, rfl⟩, nofun⟩, rfl, rfl⟩
  exact (h.part hruns).ret .ret nofun

end

/-- Two threads. While a `realloc` that has moved its block is in progress, the other thread is
given a block; once the old record is deleted it is given the old address too, and frees its first
block. -/
theorem records_follow_twoThreads : ∃ w : World,
    ReuseRun ⟨⟨World.empty, 0⟩, 0⟩ ⟨⟨w, {(4096, 32)} + {(8192, 16)}⟩, 0⟩ ∧ RecordsFollow w ∧
      w.live = [(4096, 32), (8192, 16)] ∧ w.stats.activeReserved = 48 := by
  -- one block, at 4096, and `_realloc` moves it to 8192
  let first := World.empty.track 65536 4096 1024 8
  let moved := (first.release 4096).occupy 8192 16
  have hfirst : ReuseRun ⟨⟨World.empty, 0⟩, 0⟩ ⟨⟨first, {(4096, 8)}⟩, 0⟩ :=
    ReuseRun.malloc .refl 65536 1024 ⟨by decide, by decide, by decide⟩
  have hmoved : ReuseRun _ ⟨⟨moved, 0⟩, _⟩ :=
    hfirst.move 1025 (by decide) rfl ⟨by decide, by decide, by decide⟩
  -- another thread is given a block at 12288
  let second := moved.track 65600 12288 1026 24
  have hsecond : ReuseRun _ ⟨⟨second, {(12288, 24)}⟩, _⟩ :=
    hmoved.malloc 65600 1026 ⟨by decide, by decide, by decide⟩
  -- the `realloc` deletes its record, and the address is handed out again
  let unlinked : World := { second with records := Keyed.erase 4096 second.records }
  have hunlinked : ReuseRun _ ⟨⟨unlinked, {(12288, 24)}⟩, _⟩ := hsecond.unlink rfl (by decide)
  let reused := unlinked.track 65664 4096 1027 32
  have hreused : ReuseRun _ ⟨⟨reused, {(12288, 24)} + {(4096, 32)}⟩, _⟩ :=
    hunlinked.malloc 65664 1027 ⟨by decide, by decide, by decide⟩
  let freed := reused.untrack 12288 ⟨65600, 12288, 1026, 0, 0, 24⟩
  have hfreed : ReuseRun _ ⟨⟨freed, {(4096, 32)}⟩, _⟩ := hreused.free 1028 rfl (by decide)
  -- the `realloc` comes to its end
  let last := freed.retrack 65728 8192 1025 16 ⟨65536, 4096, 1024, 0, 0, 8⟩
  have hlast : ReuseRun _ ⟨⟨last, {(4096, 32)} + {(8192, 16)}⟩, 0⟩ := hfreed.relink 65728
  exact ⟨last, hlast, records_follow hlast, rfl, by decide⟩

/-- **A record goes astray.** While the `realloc` that has moved the block at 4096 is on its way to
the record table, another thread is given the address and records it: `realloc` deletes the new
record, and leaves the old one. -/
theorem record_lost : ∃ s : Shared,
    reuseSystem.Run System.anyStep ⟨⟨World.empty, 0⟩, 0⟩ ⟨s, 0⟩ ∧ ¬ RecordsFollow s.world := by
  -- one block, at 4096, and `_realloc` moves it to 8192
  let first := World.empty.track 65536 4096 1024 8
  let moved := (first.release 4096).occupy 8192 16
  have hfirst : ReuseRun ⟨⟨World.empty, 0⟩, 0⟩ ⟨⟨first, {(4096, 8)}⟩, 0⟩ :=
    ReuseRun.malloc .refl 65536 1024 ⟨by decide, by decide, by decide⟩
  have hmoved : ReuseRun _ ⟨⟨moved, 0⟩, _⟩ :=
    hfirst.move 1025 (by decide) rfl ⟨by decide, by decide, by decide⟩
  -- another block is given its address
  let second := moved.track 65600 4096 1026 24
  have hsecond : ReuseRun _ ⟨⟨second, 0 + {(4096, 24)}⟩, _⟩ :=
    hmoved.malloc 65600 1026 ⟨by decide, by decide, by decide⟩
  -- the `realloc` goes on, and deletes the record of the other block
  let last : World := ⟨second.live,
    (8192, ⟨65664, 8192, 1025, 0, 0, 16⟩) :: Keyed.erase 4096 second.records,
    ⟨second.stats.reserved - 24 + 16, second.stats.activeReserved - 24 + 16, second.stats.alloc,
      second.stats.activeAlloc⟩⟩
  have hrest : Program.Runs sharedExec ⟨second, 0 + {(4096, 24)}⟩
      (Tracker.recordMoved 4096 8192 1025 16) () ⟨last, 0 + {(4096, 24)}⟩ :=
    ⟨1, ⟨_, _⟩, ⟨⟨by decide, rfl⟩, rfl⟩, some ⟨65600, 4096, 1026, 0, 0, 24⟩, ⟨_, _⟩,
      ⟨⟨rfl, rfl⟩, rfl⟩, some 65664, ⟨_, _⟩, ⟨⟨nofun, rfl⟩, rfl⟩, (0, 0), ⟨_, _⟩, ⟨rfl, rfl⟩,
      (), ⟨_, _⟩, ⟨rfl, rfl⟩, (), ⟨_, _⟩, ⟨rfl, rfl⟩, (), ⟨_, _⟩, ⟨rfl, rfl⟩, (),
        ⟨_, _⟩, ⟨rfl, rfl⟩,
      (), ⟨_, _⟩, ⟨rfl, rfl⟩, (), ⟨_, _⟩, ⟨rfl, rfl⟩, rfl, rfl⟩
  have hlast := Program.run_part id (fun _ => trivial) hrest hsecond.weaken
  refine ⟨_, hlast.ret .ret trivial, fun hf => ?_⟩
  exact absurd hf.booked (by decide)

end Milu
