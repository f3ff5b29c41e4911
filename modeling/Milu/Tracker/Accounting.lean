import Milu.Tracker.World

/-!
# The books balance

A program that calls the four functions one after the other. After every call the record table has
the live blocks for keys, with the sizes last asked for, and the statistics are their number and the
sum of their sizes.

Three calls upset this. A `realloc` of `NULL` is a new block, but is not counted as one. A
`realloc(p, 0)` that releases `p` returns before it deletes the record of `p`. And `_calloc` is the
real `realloc`: a count that happens to be the address of a live block has that block resized. Where
none of them happens, and the two counters that only grow have room, the books balance.

## Main definitions

* `Request.Allowed`, `Reached` — what a program may ask for, and the worlds it comes to
* `World.Sound` — the condition on the operations
* `Accounted` — the books

## Main results

* `Accounted.newBlock`, `Accounted.moveBlock`, `Accounted.dropBlock` — what a call does to the books
* `accounted_of_sound` — the books balance in every world reached
* `realloc_null_unaccounted` — a `realloc` of `NULL` that is not counted
-/

namespace Milu

open Program (Runs runs_perform_iff runs_bind_iff)

/-! ### Sequences of calls -/

/-- What a C program may ask for: a product that does not overflow, and pointers that are live, or
`NULL` where that is allowed. -/
def Request.Allowed (w : World) : Request → Prop
  | .malloc _ => True
  | .calloc nmemb size => nmemb.toNat * size.toNat < 2 ^ 64
  | .realloc ptr _ => ptr = 0 ∨ ptr ∈ Keyed.keys w.live
  | .free ptr => ptr ∈ Keyed.keys w.live

/-- The worlds reached by calls that run one after the other, over operations that do what `exec`
allows. -/
inductive Reached (exec : Program.Exec World MiluOp.Reply) : World → Prop
  | start : Reached exec World.empty
  | call {w w'} {q : Request} {r} (calladdr : ℕ) : Reached exec w → q.Allowed w →
      Runs exec w (q.program calladdr) r w' → Reached exec w'

/-- The condition on an operation: no `realloc` of `NULL` succeeds, no `realloc` releases a block
and returns `NULL`, a `calloc` whose count is the address of a live block fails and leaves the block
alone, and `alloc` and `reserved` do not pass `2 ^ 64`. -/
def World.Sound (w : World) : (o : MiluOp) → o.Reply → World → Prop
  | .realloc ptr _, r, w' => (ptr = 0 → r = none) ∧ (r = none → w' = w)
  | .calloc nmemb _, r, w' => nmemb.toNat ∈ Keyed.keys w.live → r = none ∧ w' = w
  | .add .alloc n, _, _ => w.stats.alloc.toNat + n.toNat < 2 ^ 64
  | .add .reserved n, _, _ => w.stats.reserved.toNat + n.toNat < 2 ^ 64
  | _, _, _ => True

/-- The operations that meet the condition. -/
def World.soundExec : Program.Exec World MiluOp.Reply :=
  fun w o r w' => w.Exec o r w' ∧ w.Sound o r w'

/-- **The books balance**: the records are those of the live blocks, with their sizes, and the
statistics are their number and the sum of their sizes, or more where they count what is gone. -/
structure Accounted (w : World) : Prop where
  distinct : (Keyed.keys w.live).Nodup
  nonnull : 0 ∉ Keyed.keys w.live
  recorded : w.recorded.Perm w.live
  activeAlloc_eq : w.stats.activeAlloc.toNat = w.live.length
  activeReserved_eq : w.stats.activeReserved.toNat = w.total
  alloc_ge : w.stats.activeAlloc ≤ w.stats.alloc
  reserved_ge : w.stats.activeReserved ≤ w.stats.reserved

/-! ### What the parts of a call do -/

section

variable {w w' : World} {u : Unit} {ptr nptr calladdr : ℕ} {size : UInt64}

theorem ne_zero_of_enabled (r : ℕ) (w₁ : World) (h : World.soundExec w .enabled r w₁) :
    r ≠ 0 ∧ w₁ = w := h.1

theorem runs_newRecord {mem : Memalloc}
    (h : Runs World.soundExec w (Tracker.newRecord ptr calladdr size) mem w') :
    mem.size = size ∧ w' = w := by
  obtain ⟨r, w₁, ⟨⟨hr, rfl⟩, -⟩, hrest⟩ := h
  cases r with
  | none => exact absurd rfl hr
  | some addr =>
    obtain ⟨-, w₂, ⟨rfl, -⟩, rfl, rfl⟩ := hrest
    exact ⟨rfl, rfl⟩

theorem runs_recordNew (h : Runs World.soundExec w (Tracker.recordNew ptr calladdr size) u w') :
    ∃ mem : Memalloc, mem.size = size ∧ w.stats.alloc.toNat + 1 < 2 ^ 64 ∧
      w.stats.reserved.toNat + size.toNat < 2 ^ 64 ∧
      w' = ⟨w.live, (ptr, mem) :: w.records, ⟨w.stats.reserved + size,
        w.stats.activeReserved + size, w.stats.alloc + 1, w.stats.activeAlloc + 1⟩⟩ := by
  have hrest := Tracker.runs_of_enabled ne_zero_of_enabled h
  obtain ⟨mem, w₂, hmem, hbooks⟩ := runs_bind_iff.mp hrest
  obtain ⟨hsize, rfl⟩ := runs_newRecord hmem
  obtain ⟨_, _, ⟨rfl, -⟩, _, _, ⟨rfl, halloc⟩, _, _, ⟨rfl, -⟩, _, _, ⟨rfl, hreserved⟩, _, _,
    ⟨rfl, -⟩, -, rfl⟩ := hbooks
  exact ⟨mem, hsize, halloc, hreserved, rfl⟩

theorem runs_recordMoved {old : Memalloc} (hold : w.records.lookup ptr = some old)
    (h : Runs World.soundExec w (Tracker.recordMoved ptr nptr calladdr size) u w') :
    ∃ mem : Memalloc, mem.size = size ∧
      (w.stats.reserved - old.size).toNat + size.toNat < 2 ^ 64 ∧
      w' = ⟨w.live, (nptr, mem) :: Keyed.erase ptr w.records, ⟨w.stats.reserved - old.size + size,
        w.stats.activeReserved - old.size + size, w.stats.alloc, w.stats.activeAlloc⟩⟩ := by
  have hrest := Tracker.runs_of_enabled ne_zero_of_enabled h
  obtain ⟨r, w₂, ⟨⟨rfl, rfl⟩, -⟩, hdeleted⟩ := runs_perform_iff.mp hrest
  obtain ⟨mem, w₃, hmem, hbooks⟩ := runs_bind_iff.mp hdeleted
  obtain ⟨hsize, rfl⟩ := runs_newRecord hmem
  rw [hold] at hbooks
  obtain ⟨_, _, ⟨rfl, -⟩, _, _, ⟨rfl, -⟩, _, _, ⟨rfl, -⟩, _, _, ⟨rfl, -⟩, _, _, ⟨rfl, hreserved⟩,
    _, _, ⟨rfl, -⟩, -, rfl⟩ := hbooks
  exact ⟨mem, hsize, hreserved, rfl⟩

theorem runs_forget {mem : Memalloc} (hmem : w.records.lookup ptr = some mem)
    (h : Runs World.soundExec w (Tracker.forget ptr) u w') :
    w' = ⟨w.live, Keyed.erase ptr w.records, ⟨w.stats.reserved, w.stats.activeReserved - mem.size,
      w.stats.alloc, w.stats.activeAlloc - 1⟩⟩ := by
  have hrest := Tracker.runs_of_enabled ne_zero_of_enabled h
  obtain ⟨r, w₂, ⟨⟨rfl, rfl⟩, -⟩, hdeleted⟩ := runs_perform_iff.mp hrest
  rw [hmem] at hdeleted
  obtain ⟨_, _, ⟨rfl, -⟩, _, _, ⟨rfl, -⟩, _, _, ⟨rfl, -⟩, -, rfl⟩ := hdeleted
  rfl

end

/-! ### What a call does to the books -/

section

variable {w : World} {ptr : ℕ} {size : UInt64}

namespace Accounted

theorem lookup_record (hi : Accounted w) (h : w.live.lookup ptr = some size) :
    ∃ mem, w.records.lookup ptr = some mem ∧ mem.size = size := by
  have hmem : (ptr, size) ∈ w.recorded := hi.recorded.mem_iff.mpr (Keyed.mem_of_lookup h)
  obtain ⟨r, hr, heq⟩ := List.mem_map.mp hmem
  have hkey : ptr ∈ Keyed.keys w.records := List.mem_map.mpr ⟨r, hr, (Prod.ext_iff.mp heq).1⟩
  obtain ⟨mem, hlookup⟩ := Keyed.exists_lookup hkey
  have hfound : (ptr, mem.size) ∈ w.live :=
    hi.recorded.mem_iff.mp (List.mem_map.mpr ⟨_, Keyed.mem_of_lookup hlookup, rfl⟩)
  exact ⟨mem, hlookup, Keyed.value_unique hi.distinct hfound (Keyed.mem_of_lookup h)⟩

theorem recorded_erase (hi : Accounted w) {mem : Memalloc}
    (hmem : w.records.lookup ptr = some mem) (h : w.live.lookup ptr = some mem.size) :
    ((Keyed.erase ptr w.records).map fun r => (r.1, r.2.size)).Perm (w.release ptr).live := by
  refine List.Perm.cons_inv (a := (ptr, mem.size)) ?_
  have hrecord := (Keyed.cons_erase_perm hmem).map fun r : ℕ × Memalloc => (r.1, r.2.size)
  exact hrecord.trans (hi.recorded.trans (Keyed.cons_erase_perm h).symm)

theorem newBlock (hi : Accounted w) (hfresh : w.Fresh ptr size) {mem : Memalloc}
    (hsize : mem.size = size) (halloc : w.stats.alloc.toNat + 1 < 2 ^ 64)
    (hreserved : w.stats.reserved.toNat + size.toNat < 2 ^ 64) :
    Accounted ⟨(ptr, size) :: w.live, (ptr, mem) :: w.records, ⟨w.stats.reserved + size,
      w.stats.activeReserved + size, w.stats.alloc + 1, w.stats.activeAlloc + 1⟩⟩ := by
  obtain ⟨hne, hnew, hfits⟩ := hfresh
  have ha := UInt64.le_iff_toNat_le.mp hi.alloc_ge
  have hr := UInt64.le_iff_toNat_le.mp hi.reserved_ge
  have hone : (1 : UInt64).toNat = 1 := rfl
  refine ⟨List.nodup_cons.mpr ⟨hnew, hi.distinct⟩, ?_, ?_, ?_, ?_, ?_, ?_⟩
  · exact List.not_mem_cons_of_ne_of_not_mem hne.symm hi.nonnull
  · show List.Perm ((ptr, mem.size) :: w.recorded) _
    rw [hsize]
    exact hi.recorded.cons _
  · show (w.stats.activeAlloc + 1).toNat = w.live.length + 1
    rw [UInt64.toNat_add, hi.activeAlloc_eq, hone]
    rw [hi.activeAlloc_eq] at ha
    omega
  · show (w.stats.activeReserved + size).toNat = size.toNat + w.total
    rw [UInt64.toNat_add, hi.activeReserved_eq]
    omega
  · show w.stats.activeAlloc + 1 ≤ w.stats.alloc + 1
    rw [UInt64.le_iff_toNat_le, UInt64.toNat_add, UInt64.toNat_add, hone]
    omega
  · show w.stats.activeReserved + size ≤ w.stats.reserved + size
    rw [UInt64.le_iff_toNat_le, UInt64.toNat_add, UInt64.toNat_add]
    omega

theorem dropBlock (hi : Accounted w) {mem : Memalloc} (hmem : w.records.lookup ptr = some mem)
    (h : w.live.lookup ptr = some mem.size) :
    Accounted ⟨(w.release ptr).live, Keyed.erase ptr w.records, ⟨w.stats.reserved,
      w.stats.activeReserved - mem.size, w.stats.alloc, w.stats.activeAlloc - 1⟩⟩ := by
  have ha := UInt64.le_iff_toNat_le.mp hi.alloc_ge
  have hr := UInt64.le_iff_toNat_le.mp hi.reserved_ge
  have hone : (1 : UInt64).toNat = 1 := rfl
  have htotal := World.total_release h
  have hlength := World.length_release h
  have hle : mem.size ≤ w.stats.activeReserved := by
    rw [UInt64.le_iff_toNat_le, hi.activeReserved_eq]
    omega
  have hle1 : 1 ≤ w.stats.activeAlloc := by
    rw [UInt64.le_iff_toNat_le, hi.activeAlloc_eq, hone]
    omega
  refine ⟨World.distinct_release hi.distinct ptr, World.nonnull_release hi.nonnull ptr,
    hi.recorded_erase hmem h, ?_, ?_, ?_, ?_⟩
  · show (w.stats.activeAlloc - 1).toNat = (w.release ptr).live.length
    rw [UInt64.toNat_sub_of_le _ _ hle1, hi.activeAlloc_eq, hone]
    omega
  · show (w.stats.activeReserved - mem.size).toNat = (w.release ptr).total
    rw [UInt64.toNat_sub_of_le _ _ hle, hi.activeReserved_eq]
    omega
  · show w.stats.activeAlloc - 1 ≤ w.stats.alloc
    rw [UInt64.le_iff_toNat_le, UInt64.toNat_sub_of_le _ _ hle1]
    omega
  · show w.stats.activeReserved - mem.size ≤ w.stats.reserved
    rw [UInt64.le_iff_toNat_le, UInt64.toNat_sub_of_le _ _ hle]
    omega

theorem moveBlock (hi : Accounted w) {old mem : Memalloc} {nptr : ℕ}
    (hold : w.records.lookup ptr = some old) (h : w.live.lookup ptr = some old.size)
    (hfresh : (w.release ptr).Fresh nptr size) (hsize : mem.size = size)
    (hreserved : (w.stats.reserved - old.size).toNat + size.toNat < 2 ^ 64) :
    Accounted ⟨(nptr, size) :: (w.release ptr).live, (nptr, mem) :: Keyed.erase ptr w.records,
      ⟨w.stats.reserved - old.size + size, w.stats.activeReserved - old.size + size,
        w.stats.alloc, w.stats.activeAlloc⟩⟩ := by
  obtain ⟨hne, hnew, hfits⟩ := hfresh
  have hr := UInt64.le_iff_toNat_le.mp hi.reserved_ge
  have htotal := World.total_release h
  have hlength := World.length_release h
  have hle : old.size ≤ w.stats.activeReserved := by
    rw [UInt64.le_iff_toNat_le, hi.activeReserved_eq]
    omega
  have hle' : old.size ≤ w.stats.reserved := UInt64.le_trans hle hi.reserved_ge
  rw [UInt64.toNat_sub_of_le _ _ hle'] at hreserved
  refine ⟨List.nodup_cons.mpr ⟨hnew, World.distinct_release hi.distinct ptr⟩, ?_, ?_, ?_, ?_,
    hi.alloc_ge, ?_⟩
  · exact List.not_mem_cons_of_ne_of_not_mem hne.symm (World.nonnull_release hi.nonnull ptr)
  · show List.Perm ((nptr, mem.size) :: _) _
    rw [hsize]
    exact (hi.recorded_erase hold h).cons _
  · show w.stats.activeAlloc.toNat = (w.release ptr).live.length + 1
    rw [hi.activeAlloc_eq, hlength]
  · show (w.stats.activeReserved - old.size + size).toNat = size.toNat + (w.release ptr).total
    rw [UInt64.toNat_add, UInt64.toNat_sub_of_le _ _ hle, hi.activeReserved_eq]
    omega
  · show w.stats.activeReserved - old.size + size ≤ w.stats.reserved - old.size + size
    rw [UInt64.le_iff_toNat_le, UInt64.toNat_add, UInt64.toNat_add,
      UInt64.toNat_sub_of_le _ _ hle, UInt64.toNat_sub_of_le _ _ hle']
    omega

end Accounted

end

/-! ### Every run -/

theorem accounted_empty : Accounted World.empty :=
  ⟨List.nodup_nil, List.not_mem_nil, List.Perm.nil, rfl, rfl, UInt64.le_refl _, UInt64.le_refl _⟩

section

variable {w w₁ w' : World} {calladdr ptr : ℕ} {size : UInt64} {a r : Option ℕ} {u : Unit}

/-- A new block and its record, as `malloc` and `calloc` make them. -/
theorem Accounted.trackNew (hi : Accounted w) (halloc : w.Malloc size a w₁)
    (h : Runs World.soundExec w₁ (Tracker.trackNew calladdr size a) r w') : Accounted w' := by
  rcases halloc with ⟨rfl, rfl⟩ | ⟨ptr, rfl, hfresh, rfl⟩
  · rwa [h.2]
  · obtain ⟨_, w₂, hnew, -, rfl⟩ := runs_bind_iff.mp h
    obtain ⟨mem, hsize, hroom, hroom', rfl⟩ := runs_recordNew hnew
    exact hi.newBlock hfresh hsize hroom hroom'

theorem Accounted.malloc (hi : Accounted w)
    (h : Runs World.soundExec w (Tracker.malloc calladdr size) r w') : Accounted w' := by
  have hbody := Tracker.runs_guarded ne_zero_of_enabled h
  obtain ⟨a, w₁, ⟨halloc, -⟩, htrack⟩ := runs_perform_iff.mp hbody
  exact hi.trackNew halloc htrack

/-- A `calloc` is a `malloc` of the product, unless its count is the address of a live block. -/
theorem Accounted.calloc (hi : Accounted w) {nmemb : UInt64}
    (h : Runs World.soundExec w (Tracker.calloc calladdr nmemb size) r w') : Accounted w' := by
  have hbody := Tracker.runs_guarded ne_zero_of_enabled h
  obtain ⟨a, w₁, ⟨halloc, hsound⟩, htrack⟩ := runs_perform_iff.mp hbody
  by_cases hlive : nmemb.toNat ∈ Keyed.keys w.live
  · obtain ⟨rfl, rfl⟩ := hsound hlive
    rwa [htrack.2]
  · rw [World.Exec, World.Realloc, Keyed.lookup_eq_none hlive] at halloc
    exact hi.trackNew halloc htrack

theorem Accounted.realloc (hi : Accounted w) (hptr : ptr = 0 ∨ ptr ∈ Keyed.keys w.live)
    (h : Runs World.soundExec w (Tracker.realloc calladdr ptr size) r w') : Accounted w' := by
  have hbody := Tracker.runs_guarded ne_zero_of_enabled h
  obtain ⟨a, w₁, ⟨halloc, hnull, hkept⟩, htrack⟩ := runs_perform_iff.mp hbody
  cases a with
  | none => rwa [htrack.2, hkept rfl]
  | some nptr =>
    have hlive : ptr ∈ Keyed.keys w.live :=
      hptr.resolve_left fun h0 => Option.some_ne_none _ (hnull h0)
    obtain ⟨old, hold⟩ := Keyed.exists_lookup hlive
    obtain ⟨mem, hmem, rfl⟩ := hi.lookup_record hold
    rw [World.Exec, World.Realloc, hold] at halloc
    rcases halloc with ⟨hc, -⟩ | ⟨-, hc, -⟩ | ⟨q, hq, hfresh, rfl⟩
    · exact absurd hc (Option.some_ne_none _)
    · exact absurd hc (Option.some_ne_none _)
    · rw [Option.some.injEq] at hq
      subst hq
      obtain ⟨_, w₂, hmoved, -, rfl⟩ := runs_bind_iff.mp htrack
      have hrecords : ((w.release ptr).occupy nptr size).records.lookup ptr = some mem := hmem
      obtain ⟨new, hsize, hroom, rfl⟩ := runs_recordMoved hrecords hmoved
      exact hi.moveBlock hmem hold hfresh hsize hroom

theorem Accounted.free (hi : Accounted w) (hptr : ptr ∈ Keyed.keys w.live)
    (h : Runs World.soundExec w (Tracker.free ptr) u w') : Accounted w' := by
  have hbody := Tracker.runs_guarded ne_zero_of_enabled h
  obtain ⟨_, w₁, hforget, _, _, ⟨rfl, -⟩, -, rfl⟩ := runs_bind_iff.mp hbody
  obtain ⟨size, hsize⟩ := Keyed.exists_lookup hptr
  obtain ⟨mem, hmem, rfl⟩ := hi.lookup_record hsize
  rw [runs_forget hmem hforget]
  exact hi.dropBlock hmem hsize

end

/-- **The books balance** in every world reached by calls whose operations meet the condition. By
induction on the sequence of calls. -/
theorem accounted_of_sound {w : World} (h : Reached World.soundExec w) : Accounted w := by
  induction h with
  | start => exact accounted_empty
  | @call w w' q r calladdr _ hq hrun hi =>
    cases q with
    | malloc size => exact hi.malloc hrun
    | calloc nmemb size => exact hi.calloc hrun
    | realloc ptr size => exact hi.realloc hq hrun
    | free ptr =>
      obtain ⟨_, w₁, hfree, -, rfl⟩ := runs_bind_iff.mp hrun
      exact hi.free hq hfree

/-- What a `malloc(8)` leaves behind that gets the address 4096. -/
def oneBlock : World :=
  ⟨[(4096, 8)], [(4096, ⟨65536, 4096, 1024, 0, 0, 8⟩)], ⟨8, 8, 1, 1⟩⟩

/-- What a `calloc(2, 8)` that gets the address 8192 makes of it. -/
def twoBlocks : World :=
  ⟨[(8192, 16), (4096, 8)],
    [(8192, ⟨65616, 8192, 1024, 0, 0, 16⟩), (4096, ⟨65536, 4096, 1024, 0, 0, 8⟩)], ⟨24, 24, 2, 2⟩⟩

/-- And what a `realloc` makes of that which moves the first block to 12288. -/
def movedBlock : World :=
  ⟨[(12288, 32), (8192, 16)],
    [(12288, ⟨65696, 12288, 1024, 0, 0, 32⟩), (8192, ⟨65616, 8192, 1024, 0, 0, 16⟩)],
    ⟨48, 48, 2, 2⟩⟩

/-- When the second block is freed the first is left, where it was moved to. -/
theorem accounted_of_sound_fourCalls : Accounted
    ⟨[(12288, 32)], [(12288, ⟨65696, 12288, 1024, 0, 0, 32⟩)], ⟨48, 32, 2, 1⟩⟩ := by
  have hmalloc : Runs World.soundExec .empty ((Request.malloc 8).program 1024) (some 4096)
      oneBlock :=
    ⟨1, _, ⟨⟨by decide, rfl⟩, trivial⟩, some 4096, _,
      ⟨.inr ⟨4096, rfl, ⟨by decide, by decide, by decide⟩, rfl⟩, trivial⟩, 1, _,
      ⟨⟨by decide, rfl⟩, trivial⟩, some 65536, _, ⟨⟨by decide, rfl⟩, trivial⟩, (0, 0), _,
      ⟨rfl, trivial⟩, (), _, ⟨rfl, trivial⟩, (), _, ⟨rfl, (by decide : 0 + 1 < 2 ^ 64)⟩, (), _,
      ⟨rfl, trivial⟩, (), _, ⟨rfl, (by decide : 0 + 8 < 2 ^ 64)⟩, (), _, ⟨rfl, trivial⟩, rfl, rfl⟩
  have hcalloc : Runs World.soundExec oneBlock ((Request.calloc 2 8).program 1024) (some 8192)
      twoBlocks :=
    ⟨1, _, ⟨⟨by decide, rfl⟩, trivial⟩, some 8192, _,
      ⟨.inr ⟨8192, rfl, ⟨by decide, by decide, by decide⟩, rfl⟩, fun h => absurd h (by decide)⟩,
      1, _, ⟨⟨by decide, rfl⟩, trivial⟩, some 65616, _, ⟨⟨by decide, rfl⟩, trivial⟩, (0, 0), _,
      ⟨rfl, trivial⟩, (), _, ⟨rfl, trivial⟩, (), _, ⟨rfl, (by decide : 1 + 1 < 2 ^ 64)⟩, (), _,
      ⟨rfl, trivial⟩, (), _, ⟨rfl, (by decide : 8 + 16 < 2 ^ 64)⟩, (), _, ⟨rfl, trivial⟩, rfl, rfl⟩
  have hrealloc : Runs World.soundExec twoBlocks ((Request.realloc 4096 32).program 1024)
      (some 12288) movedBlock :=
    ⟨1, _, ⟨⟨by decide, rfl⟩, trivial⟩, some 12288, _,
      ⟨.inr (.inr ⟨12288, rfl, ⟨by decide, by decide, by decide⟩, rfl⟩), nofun, nofun⟩, 1, _,
      ⟨⟨by decide, rfl⟩, trivial⟩, _, _, ⟨⟨rfl, rfl⟩, trivial⟩, some 65696, _,
      ⟨⟨by decide, rfl⟩, trivial⟩, (0, 0), _, ⟨rfl, trivial⟩, (), _, ⟨rfl, trivial⟩, (), _,
      ⟨rfl, trivial⟩, (), _, ⟨rfl, trivial⟩, (), _, ⟨rfl, trivial⟩, (), _,
      ⟨rfl, (by decide : 16 + 32 < 2 ^ 64)⟩, (), _, ⟨rfl, trivial⟩, rfl, rfl⟩
  have hfree : Runs World.soundExec movedBlock ((Request.free 8192).program 1024) none
      ⟨[(12288, 32)], [(12288, ⟨65696, 12288, 1024, 0, 0, 32⟩)], ⟨48, 32, 2, 1⟩⟩ :=
    ⟨1, _, ⟨⟨by decide, rfl⟩, trivial⟩, 1, _, ⟨⟨by decide, rfl⟩, trivial⟩, _, _,
      ⟨⟨rfl, rfl⟩, trivial⟩, (), _, ⟨rfl, trivial⟩, (), _, ⟨rfl, trivial⟩, (), _, ⟨rfl, trivial⟩,
      (), _, ⟨rfl, trivial⟩, rfl, rfl⟩
  have hnew : (Request.malloc 8).Allowed .empty := trivial
  have hsize : (Request.calloc 2 8).Allowed oneBlock := by
    rw [Request.Allowed]
    decide
  have hheld : (Request.realloc 4096 32).Allowed twoBlocks := by
    rw [Request.Allowed]
    decide
  have hheld' : (Request.free 8192).Allowed movedBlock := by
    rw [Request.Allowed]
    decide
  have hrun := Reached.call 1024 (.call 1024 .start hnew hmalloc) hsize hcalloc
  exact accounted_of_sound (.call 1024 (.call 1024 hrun hheld hrealloc) hheld' hfree)

/-- **A `realloc` of `NULL` is not counted**: the program has one live block, and `active_alloc` is
zero. -/
theorem realloc_null_unaccounted : ∃ w, Reached World.Exec w ∧ ¬ Accounted w := by
  refine ⟨⟨[(4096, 8)], [(4096, ⟨65536, 4096, 1024, 0, 0, 8⟩)], ⟨8, 8, 0, 0⟩⟩,
    .call (q := .realloc 0 8) (r := some 4096) 1024 .start (.inl rfl) ?_, ?_⟩
  · exact ⟨1, _, ⟨by decide, rfl⟩, some 4096, _,
      .inr ⟨4096, rfl, ⟨by decide, by decide, by decide⟩, rfl⟩, 1, _, ⟨by decide, rfl⟩, none, _,
      ⟨rfl, rfl⟩, some 65536, _, ⟨by decide, rfl⟩, (0, 0), _, rfl, (), _, rfl, (), _, rfl, (), _,
      rfl, rfl, rfl⟩
  · intro hi
    exact absurd hi.activeAlloc_eq (by decide)

end Milu
