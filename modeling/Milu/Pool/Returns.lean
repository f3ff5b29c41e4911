import Milu.Pool.Fifo

/-!
# What a pool takes back

A pool does not know which of its slots are out, only how many. A put is turned away when its
address is outside the range of the pool, or when nothing is out; any other address is taken, also
one in the middle of a slot or one that is back already. Later gets then hand out what was put.

Clients that put back only what they hold never notice: what they hold stays slots, each held once.

## Main definitions

* `heldAddrs` — the addresses that clients hold
* `AcceptsOnlyHeld` — a pool that knows what is out
* `Disciplined` — calls in which only held addresses were taken back

## Main results

* `PoolRun.ok` — after disciplined calls, what is held and what is available are the slots
* `pool_put_returns` — what a put looks at, and what disciplined clients may rely on
* `pool_accepts_interior` — an address in the middle of a slot is taken back
-/

namespace Milu

/-- What clients hold after one more call: a get that returned an address adds it, and an accepted
put takes its address away. -/
def heldAfter (h : List ℕ) : PoolEvent → List ℕ
  | .get x => if x = 0 then h else x :: h
  | .put x ret => if ret = 0 then h.erase x else h

/-- The addresses that clients hold after the calls. -/
def heldAddrs (es : List PoolEvent) : List ℕ := es.foldl heldAfter []

@[simp] theorem heldAddrs_append_singleton (es : List PoolEvent) (e : PoolEvent) :
    heldAddrs (es ++ [e]) = heldAfter (heldAddrs es) e := by
  rw [heldAddrs, List.foldl_append]
  rfl

/-- A pool that takes back exactly what clients hold, and changes nothing when it turns an address
away; so that no two clients ever hold slots of `oSz` bytes that overlap. -/
structure AcceptsOnlyHeld (P₀ : Pool) (oSz : ℕ) : Prop where
  accepts : ∀ es P, PoolRun P₀ es P → ∀ x, (poolPutPtr (some P) x).1 = 0 ↔ x ∈ heldAddrs es
  refuses : ∀ es P, PoolRun P₀ es P → ∀ x, (poolPutPtr (some P) x).1 ≠ 0 →
    (poolPutPtr (some P) x).2 = some P
  apart : ∀ es P, PoolRun P₀ es P → (heldAddrs es).Pairwise fun x y => x + oSz ≤ y ∨ y + oSz ≤ x

/-- Whatever was taken back was held at the time. -/
def Disciplined (es : List PoolEvent) : Prop :=
  ∀ pre x post, es = pre ++ .put x 0 :: post → x ∈ heldAddrs pre

theorem Disciplined.of_append {es fs : List PoolEvent} (h : Disciplined (es ++ fs)) :
    Disciplined es := by
  rintro pre x post rfl
  refine h pre x (post ++ fs) ?_
  rw [List.append_assoc, List.cons_append]

theorem Disciplined.mem_held {es : List PoolEvent} {x : ℕ}
    (h : Disciplined (es ++ [.put x 0])) : x ∈ heldAddrs es := h es x [] rfl

namespace PoolRun

variable {P₀ P : Pool} {es : List PoolEvent}

/-- **After disciplined calls** the addresses held and those available are the slots, each once. -/
theorem ok (hrun : PoolRun P₀ es P) (h₀ : P₀.Ok []) (ho : 0 < P₀.objSz) (hd : Disciplined es) :
    P.SameBlock P₀ ∧ P.Ok (heldAddrs es) := by
  induction hrun with
  | start => exact ⟨⟨rfl, rfl, rfl⟩, h₀⟩
  | @get es P x P' _ hget ih =>
    obtain ⟨hsame, hok⟩ := ih hd.of_append
    rw [heldAddrs_append_singleton]
    rcases poolGetPtr_spec hok with ⟨-, h⟩ | ⟨y, P₁, hy, -, h, hsame₁, hok₁⟩ <;>
      rw [hget, Prod.mk.injEq, Option.some.injEq] at h <;> obtain ⟨rfl, rfl⟩ := h
    · exact ⟨hsame, hok⟩
    · rw [heldAfter, if_neg hy]
      exact ⟨hsame₁.trans hsame, hok₁⟩
  | @put es P x ret P' _ hput ih =>
    obtain ⟨hsame, hok⟩ := ih hd.of_append
    rw [heldAddrs_append_singleton, heldAfter]
    rcases poolPutPtr_inversion hput with ⟨rfl, rfl⟩ | ⟨lh, q, -, -, rfl, rfl⟩
    · rw [if_neg (by decide)]
      exact ⟨hsame, hok⟩
    · have hx := hd.mem_held
      have hslot := hok.slots.subset (List.mem_append_right _ hx)
      have hown := Pool.slot_owned (hsame.objSz ▸ ho) hslot
      obtain ⟨P₁, hput₁, hsame₁, hok₁⟩ := poolPutPtr_spec hok hx hown
      rw [hput, Prod.mk.injEq, Option.some.injEq] at hput₁
      obtain ⟨-, rfl⟩ := hput₁
      rw [if_pos rfl]
      exact ⟨hsame₁.trans hsame, hok₁⟩

/-- As many nodes are on `avail_q` as gets returned an address, less the accepted puts. -/
theorem length_availQ (hrun : PoolRun P₀ es P) (h₀ : Linked P₀ P₀) (hstart : P₀.startAddr ≠ 0)
    (hnull : 0 ∉ P₀.available) (hall : P₀.availQ = []) :
    P.availQ.length + (accepted es).length = (got es).length := by
  obtain ⟨-, fs, hfifo, htaken, hadded⟩ := hrun.fifo h₀ hstart hnull
  have hconserved := congrArg List.length hfifo.conserved
  have hnodes := (hrun.linked h₀).nodes.length_eq
  have hnodes₀ := h₀.nodes.length_eq
  rw [htaken, hadded, List.length_append, List.length_append, Pool.available, Pool.available,
    List.length_map, List.length_map] at hconserved
  rw [List.length_append] at hnodes
  rw [hall, List.append_nil] at hnodes₀
  omega

end PoolRun

/-! ### What a put looks at -/

theorem Pool.Ok.held_apart {P : Pool} {held : List ℕ} (h : P.Ok held) (ho : 0 < P.objSz) :
    held.Pairwise fun x y => x + P.objSz ≤ y ∨ y + P.objSz ≤ x := by
  have hnodup : held.Nodup :=
    (List.nodup_append.mp (h.slots.nodup_iff.mpr (Pool.slots_nodup ho))).2.1
  refine hnodup.imp_of_mem fun {x y} hx hy hne => ?_
  exact Pool.slot_disjoint (h.slots.subset (List.mem_append_right _ hx))
    (h.slots.subset (List.mem_append_right _ hy)) hne

/-- **What a put looks at**: the range of the pool, and whether any slot is out. As long as the
slots are what they should be, as many are out as gets handed out, less the accepted puts; and
clients that put back only what they hold may put back all of it, and hold slots that do not
overlap. -/
theorem pool_put_returns {pSz oSz : ℕ} (hp : pSz < 2 ^ 16) (ho : oSz < 2 ^ 64) {H H' : Heap}
    {P₀ : Pool} (h : createPool Heap.malloc Heap.free pSz oSz H = some (some P₀, H'))
    {es : List PoolEvent} {P : Pool} (hrun : PoolRun P₀ es P) :
    (∀ x, (poolPutPtr (some P) x).1 = 0 ↔
        P₀.startAddr ≤ x ∧ x < P₀.endAddr ∧ 0 < P.availQ.length) ∧
      (∀ x, (poolPutPtr (some P) x).1 ≠ 0 → (poolPutPtr (some P) x).2 = some P) ∧
      (1 ≤ oSz → pSz * oSz < 2 ^ 64 →
        P.availQ.length + (accepted es).length = (got es).length ∧
        (Disciplined es →
          (∀ x ∈ heldAddrs es, (poolPutPtr (some P) x).1 = 0) ∧
          (heldAddrs es).Pairwise fun x y => x + oSz ≤ y ∨ y + oSz ≤ x)) := by
  have hcases := createPool_cases h
  rw [Nat.mod_eq_of_lt hp, Nat.mod_eq_of_lt ho] at hcases
  rcases hcases with ⟨hnone, -⟩ | ⟨addr, mem, entries, hfresh, ⟨hne, hend, -⟩, -⟩
  · simp at hnone
  rw [Option.some.injEq] at hfresh
  have hmem : mem < 2 ^ 64 := Nat.lt_of_le_of_lt (Nat.le_add_right _ _) hend
  have heq := Pool.fresh_eq addr pSz oSz entries hmem
  have h₀ : Linked P₀ P₀ := hfresh ▸ linked_fresh addr pSz oSz entries hmem
  have hlinked := hrun.linked h₀
  refine ⟨fun x => ?_, fun x => ?_, fun hpos hfits => ?_⟩
  · rw [← hlinked.startAddr, ← hlinked.endAddr, List.length_pos_iff_ne_nil]
    rcases poolPutPtr_cases P x with ⟨hnot, hput⟩ | ⟨lh, q, hlo, hhi, hq, hput⟩ <;> rw [hput]
    · exact iff_of_false (show (-1 : ℤ) ≠ 0 by decide) hnot
    · exact iff_of_true rfl ⟨hlo, hhi, by rw [hq]; exact List.cons_ne_nil _ _⟩
  · rcases poolPutPtr_cases P x with ⟨-, hput⟩ | ⟨lh, q, -, -, -, hput⟩ <;> rw [hput]
    · exact fun _ => rfl
    · exact fun hret => absurd rfl hret
  · rw [Nat.mod_eq_of_lt hfits] at hend
    have hspan : pSz * oSz ≤ (Block.mk mem (pSz * oSz)).span :=
      Block.size_le_span (Block.mk mem (pSz * oSz))
    have hlast : mem + pSz * oSz < 2 ^ 64 := Nat.lt_of_le_of_lt (Nat.add_le_add_left hspan _) hend
    have hok₀ : P₀.Ok [] := hfresh ▸ Pool.fresh_ok addr pSz oSz entries hne hlast
    have hobj : P₀.objSz = oSz := by rw [hfresh, heq]
    have hstart : P₀.startAddr ≠ 0 := hok₀.start_eq ▸ hok₀.base_ne
    have hnull : 0 ∉ P₀.available := fun hzero =>
      hok₀.base_ne (Nat.le_zero.mp (Pool.slot_inside (hok₀.available_subset hzero)).1)
    refine ⟨hrun.length_availQ h₀ hstart hnull (by rw [hfresh, heq]), fun hd => ?_⟩
    obtain ⟨hsame, hok⟩ := hrun.ok hok₀ (hobj ▸ hpos) hd
    have hsz : P.objSz = oSz := hsame.objSz.trans hobj
    refine ⟨fun x hx => ?_, hsz ▸ hok.held_apart (hsz ▸ hpos)⟩
    have hslot := hok.slots.subset (List.mem_append_right _ hx)
    obtain ⟨P', hput, -⟩ := poolPutPtr_spec hok hx (Pool.slot_owned (hsz ▸ hpos) hslot)
    rw [hput]

/-- One of two slots is handed out. -/
theorem pool_put_returns_page : ∃ P₀ H' P,
    createPool Heap.malloc Heap.free 2 16 pageHeap = some (some P₀, H') ∧
      poolGetPtr (some P₀) = (8192, some P) ∧ (poolPutPtr (some P) 8192).1 = 0 := by
  refine ⟨_, _, _, rfl, rfl, ?_⟩
  exact ((@pool_put_returns 2 16 (by decide) (by decide) pageHeap _ _ rfl _ _
    (.get .start rfl)).1 8192).mpr (by decide)

/-- **An address in the middle of a slot** is taken back, while the slot is out. -/
theorem pool_accepts_interior : ∃ P₀ H',
    createPool Heap.malloc Heap.free 2 16 pageHeap = some (some P₀, H') ∧
      ¬ AcceptsOnlyHeld P₀ 16 := by
  refine ⟨_, _, rfl, fun haccepts => ?_⟩
  have hmem := (haccepts.accepts _ _ (.get .start rfl) 8193).mp (by decide)
  exact absurd hmem (by decide)

end Milu
