import Milu.Lib.Heap
import Mathlib.Algebra.Order.BigOperators.Group.List
import Mathlib.Data.List.Pairwise

/-!
# Blocks and who holds them

The live blocks of an allocator, each with its holder. What a program relies on is that the
allocator hands out no address that is taken; who holds a block is a matter of book-keeping, and
lets one say whose blocks a release touches.

A release is asked for by address: `NULL`, or the address at which a block begins. What becomes of
any other release is not defined, and here it has no outcome.

## Main definitions

* `Holdings` — live blocks, each with its holder
* `Holdings.Valid` — an address that may be released
* `Holdings.Malloc`, `Holdings.Realloc`, `Holdings.free` — what the allocator may do
* `Holdings.At`, `Holdings.Keeps` — a holder has a block at an address; some holders lose nothing

## Main results

* `Holdings.eq_of_base_eq` — one block begins at an address
* `Holdings.not_valid_of_inside` — an address inside a block may not be released
* `Holdings.exists_fresh` — there is room for one block more
* `Holdings.Malloc.keeps`, `Holdings.Realloc.keeps`, `Holdings.keeps_release` — who loses nothing
-/

/-- Live blocks, each with its holder. No two share an address, and none is at `NULL`. -/
@[ext] structure Holdings (ι : Type) where
  blocks : List (ι × Block)
  apart : blocks.Pairwise fun x y => x.2.Apart y.2
  nonnull : ∀ x ∈ blocks, x.2.base ≠ 0

namespace Holdings

variable {ι : Type}

def empty : Holdings ι := ⟨[], .nil, List.forall_mem_nil _⟩

/-- A block the allocator may hand out. -/
def Fresh (H : Holdings ι) (b : Block) : Prop := b.base ≠ 0 ∧ ∀ x ∈ H.blocks, b.Apart x.2

instance (H : Holdings ι) (b : Block) : Decidable (H.Fresh b) :=
  inferInstanceAs (Decidable (b.base ≠ 0 ∧ ∀ x ∈ H.blocks, b.Apart x.2))

def give (H : Holdings ι) (i : ι) (b : Block) (h : H.Fresh b) : Holdings ι where
  blocks := (i, b) :: H.blocks
  apart := List.pairwise_cons.mpr ⟨h.2, H.apart⟩
  nonnull := List.forall_mem_cons.mpr ⟨h.1, H.nonnull⟩

/-- An address that may be passed to `free` and `realloc`: `NULL`, or where a block begins. -/
def Valid (H : Holdings ι) (a : ℕ) : Prop := a = 0 ∨ ∃ x ∈ H.blocks, x.2.base = a

instance (H : Holdings ι) (a : ℕ) : Decidable (H.Valid a) :=
  inferInstanceAs (Decidable (a = 0 ∨ ∃ x ∈ H.blocks, x.2.base = a))

def release (H : Holdings ι) (a : ℕ) : Holdings ι where
  blocks := H.blocks.filter fun x => x.2.base != a
  apart := H.apart.sublist List.filter_sublist
  nonnull x hx := H.nonnull x (List.mem_of_mem_filter hx)

/-- `free(a)`. -/
def free (H : Holdings ι) (a : ℕ) : Option (Holdings ι) :=
  if H.Valid a then some (H.release a) else none

/-- `malloc(n)`, called for `i`. -/
def Malloc (H : Holdings ι) (i : ι) (n : ℕ) (r : Option ℕ) (H' : Holdings ι) : Prop :=
  r = none ∧ H' = H ∨ ∃ a, ∃ h : H.Fresh ⟨a, n⟩, r = some a ∧ H' = H.give i ⟨a, n⟩ h

/-- `realloc(a, n)`, called for `i`. A request that is refused leaves the block where it is, or
releases it when it was for no bytes. -/
def Realloc (H : Holdings ι) (i : ι) (a n : ℕ) (r : Option ℕ) (H' : Holdings ι) : Prop :=
  H.Valid a ∧
    (r = none ∧ (H' = H ∨ n = 0 ∧ H' = H.release a) ∨ r ≠ none ∧ (H.release a).Malloc i n r H')

/-- The holder has a block at the address. -/
def At (H : Holdings ι) (i : ι) (a : ℕ) : Prop := ∃ x ∈ H.blocks, x.1 = i ∧ x.2.base = a

instance [DecidableEq ι] (H : Holdings ι) (i : ι) (a : ℕ) : Decidable (H.At i a) :=
  inferInstanceAs (Decidable (∃ x ∈ H.blocks, x.1 = i ∧ x.2.base = a))

/-- The holders that `p` picks out lose nothing. -/
def Keeps (p : ι → Prop) (H H' : Holdings ι) : Prop := ∀ x ∈ H.blocks, p x.1 → x ∈ H'.blocks

section

variable {H H' H₁ : Holdings ι} {i : ι} {a n : ℕ} {r : Option ℕ} {p q : ι → Prop} {x y : ι × Block}

@[simp] theorem mem_release_iff : x ∈ (H.release a).blocks ↔ x ∈ H.blocks ∧ x.2.base ≠ a := by
  rw [release, List.mem_filter, bne_iff_ne]

theorem apart_of_ne (hx : x ∈ H.blocks) (hy : y ∈ H.blocks) (hne : x ≠ y) : x.2.Apart y.2 := by
  have hsymm : Std.Symm fun x y : ι × Block => x.2.Apart y.2 := ⟨fun _ _ hxy => hxy.symm⟩
  exact H.apart.forall hx hy hne

/-- **One block begins at an address.** -/
theorem eq_of_base_eq (hx : x ∈ H.blocks) (hy : y ∈ H.blocks) (h : x.2.base = y.2.base) :
    x = y := by
  by_contra hne
  exact (apart_of_ne hx hy hne).base_ne h

theorem At.base_ne (h : H.At i a) (hx : x ∈ H.blocks) (hi : x.1 ≠ i) : x.2.base ≠ a := by
  obtain ⟨y, hy, rfl, rfl⟩ := h
  intro hbase
  exact hi (congrArg Prod.fst (eq_of_base_eq hx hy hbase))

/-- **An address inside a block** may not be released. -/
theorem not_valid_of_inside (hx : x ∈ H.blocks) (hlt : x.2.base < a)
    (hin : a < x.2.base + x.2.size) : ¬ H.Valid a := by
  rintro (rfl | ⟨y, hy, rfl⟩)
  · exact absurd hlt (Nat.not_lt_zero _)
  have hne : y ≠ x := by
    rintro rfl
    exact absurd hlt (Nat.lt_irrefl _)
  have hspan := x.2.size_le_span
  have hpos := y.2.span_pos
  rcases apart_of_ne hy hx hne with hbelow | habove <;> omega

theorem Valid.of_release {b : ℕ} (h : (H.release b).Valid a) : H.Valid a :=
  h.imp id fun ⟨x, hx, hbase⟩ => ⟨x, (mem_release_iff.mp hx).1, hbase⟩

theorem At.valid (h : H.At i a) : H.Valid a := by
  obtain ⟨x, hx, -, hbase⟩ := h
  exact .inr ⟨x, hx, hbase⟩

/-- **There is room for one block more**, whatever is allocated. -/
theorem exists_fresh (H : Holdings ι) (n : ℕ) : ∃ a, H.Fresh ⟨a, n⟩ := by
  let ends := H.blocks.map fun x => x.2.base + x.2.span
  refine ⟨ends.sum + 1, Nat.succ_ne_zero _, fun x hx => .inr ?_⟩
  have hle : x.2.base + x.2.span ≤ ends.sum :=
    List.single_le_sum (fun _ _ => Nat.zero_le _) _ (List.mem_map.mpr ⟨x, hx, rfl⟩)
  exact Nat.le_succ_of_le hle

/-! ### Who loses nothing -/

theorem Keeps.refl (p : ι → Prop) (H : Holdings ι) : Keeps p H H := fun _ hx _ => hx

theorem Keeps.trans (h : Keeps p H H₁) (h' : Keeps p H₁ H') : Keeps p H H' :=
  fun x hx hp => h' x (h x hx hp) hp

theorem Keeps.mono (h : Keeps p H H') (hq : ∀ j, q j → p j) : Keeps q H H' :=
  fun x hx hqx => h x hx (hq _ hqx)

theorem Keeps.at (h : Keeps p H H') (hi : p i) (ha : H.At i a) : H'.At i a := by
  obtain ⟨x, hx, rfl, rfl⟩ := ha
  exact ⟨x, h x hx hi, rfl, rfl⟩

/-- A release costs only the holder of the block at the address. -/
theorem keeps_release (h : ∀ x ∈ H.blocks, p x.1 → x.2.base ≠ a) : Keeps p H (H.release a) :=
  fun x hx hp => mem_release_iff.mpr ⟨hx, h x hx hp⟩

theorem Malloc.keeps (h : H.Malloc i n r H') : Keeps p H H' := by
  rcases h with ⟨-, rfl⟩ | ⟨b, hb, -, rfl⟩
  · exact .refl p _
  · exact fun x hx _ => List.mem_cons_of_mem _ hx

/-- A reallocation costs only the holder of the block that may be moved. -/
theorem Realloc.keeps (hr : H.Realloc i a n r H') (h : ∀ x ∈ H.blocks, p x.1 → x.2.base ≠ a) :
    Keeps p H H' := by
  rcases hr.2 with ⟨-, rfl | ⟨-, rfl⟩⟩ | ⟨-, hmalloc⟩
  · exact .refl p _
  · exact keeps_release h
  · exact (keeps_release h).trans hmalloc.keeps

theorem Malloc.new (h : H.Malloc i n (some a) H') :
    H'.At i a ∧ ∀ j b, H.At j b → b ≠ a := by
  rcases h with ⟨hnone, -⟩ | ⟨b, hb, hab, rfl⟩
  · exact absurd hnone (Option.some_ne_none a)
  · obtain rfl := Option.some.inj hab
    refine ⟨⟨_, List.mem_cons_self, rfl, rfl⟩, ?_⟩
    rintro j _ ⟨x, hx, -, rfl⟩ heq
    exact (hb.2 x hx).base_ne heq.symm

end

end Holdings
