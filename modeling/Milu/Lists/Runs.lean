import Milu.Lists.Calls

/-!
# Any calls on any lists

Every list function does to the links what it is for: the lists that the links spell out afterwards
are the ones that the call makes of those before. It returns what the lists say, goes through no
null pointer, and writes into the nodes it is given and those of the lists they are on.

## Main definitions

* `Lists.Spelled` — the links spell out the lists
* `Lists.Does` — what a call may do to the memory

## Main results

* `Lists.Spelled.change` — some lists are replaced by others on the same nodes
* `Lists.Spelled.call` — one call
* `lists_faithful` — any calls
-/

namespace Milu

namespace Lists

open Queue (Memory)

variable {L L' L'' : Lists} {m m' m'' : Memory} {a e h old x : ℕ} {l l₁ l₂ args args' : List ℕ}

/-! ### What the links spell out -/

/-- **The links spell out the lists**, and no node is `NULL`. -/
structure Spelled (L : Lists) (m : Memory) : Prop where
  loops : m.links.Loops ↑L.heads L.on
  ne_null : ∀ h ∈ L.heads, 0 ∉ h :: L.on h

/-- What a call may do: the lists become others, and nothing is written but the nodes it is given
and those on lists. -/
structure Does (L : Lists) (args : List ℕ) (m : Memory) (L' : Lists) (m' : Memory) : Prop where
  spelled : L'.Spelled m'
  mutex : m'.mutex = m.mutex
  frame : ∀ x, x ∉ args → L.Off x → m.links.SameOn m'.links [x] ∧ L'.Off x

theorem Does.refl (hs : L.Spelled m) : L.Does args m L m :=
  ⟨hs, rfl, fun _ _ hoff => ⟨.refl _ _, hoff⟩⟩

/-- **One call after another.** -/
theorem Does.trans (h : L.Does args m L' m') (h' : L'.Does args m' L'' m'') :
    L.Does args m L'' m'' := by
  refine ⟨h'.spelled, h'.mutex.trans h.mutex, fun x hx hoff => ?_⟩
  obtain ⟨hsame, hoff'⟩ := h.frame x hx hoff
  obtain ⟨hsame', hoff''⟩ := h'.frame x hx hoff'
  exact ⟨hsame.trans hsame', hoff''⟩

/-- Only the nodes that were not in use matter. -/
theorem Does.mono (h : L.Does args m L' m') (hargs : ∀ x ∈ args, L.Off x → x ∈ args') :
    L.Does args' m L' m' :=
  ⟨h.spelled, h.mutex, fun x hx hoff => h.frame x (fun hmem => hx (hargs x hmem hoff)) hoff⟩

/-- What a head that is none any more had on its list does not matter. -/
theorem Does.congr (h : L.Does args m L' m') (hheads : L'.heads = L''.heads)
    (hon : ∀ a ∈ L'.heads, L'.on a = L''.on a) : L.Does args m L'' m' := by
  have hoff : ∀ {x}, L'.Off x → L''.Off x := by
    rintro x ⟨hx, hall⟩
    rw [hheads] at hx hon hall
    exact ⟨hx, fun a ha => hon a ha ▸ hall a ha⟩
  refine ⟨⟨⟨fun a ha => ?_, fun a ha b hb => ?_⟩, fun a ha => ?_⟩, h.mutex, fun x hx hxoff =>
    ⟨(h.frame x hx hxoff).1, hoff (h.frame x hx hxoff).2⟩⟩
  · rw [← hheads] at ha
    rw [← hon a ha]
    exact h.spelled.loops.loop a ha
  · rw [← hheads] at ha hb
    rw [← hon a ha, ← hon b hb]
    exact h.spelled.loops.apart a ha b hb
  · rw [← hheads] at ha
    rw [← hon a ha]
    exact h.spelled.ne_null a ha

theorem off_iff : L.Off x ↔ ∀ h ∈ L.heads, x ∉ h :: L.on h := by
  simp only [Off, List.mem_cons, not_or]
  constructor
  · rintro ⟨hheads, hon⟩ h hh
    exact ⟨fun heq => hheads (heq ▸ hh), hon h hh⟩
  · intro hall
    exact ⟨fun hx => (hall x hx).1 rfl, fun h hh => (hall h hh).2⟩

@[simp] theorem mem_set_heads : x ∈ (L.set h l).heads ↔ x = h ∨ x ∈ L.heads := Finset.mem_insert

@[simp] theorem set_on_self (L : Lists) (h : ℕ) (l : List ℕ) : (L.set h l).on h = l :=
  Function.update_self ..

theorem set_on_of_ne (hne : x ≠ h) : (L.set h l).on x = L.on x := Function.update_of_ne hne ..

namespace Spelled

theorem ne_zero (hs : L.Spelled m) (hh : h ∈ L.heads) (hx : x ∈ h :: L.on h) : x ≠ 0 :=
  ne_of_mem_of_not_mem hx (hs.ne_null h hh)

theorem loop (hs : L.Spelled m) (hh : h ∈ L.heads) : m.links.Loop h (L.on h) := hs.loops.loop h hh

theorem apart (hs : L.Spelled m) (hh : h ∈ L.heads) (ha : a ∈ L.heads) (hne : h ≠ a)
    (hx : x ∈ h :: L.on h) : x ∉ a :: L.on a :=
  hs.loops.apart h hh a ha hne hx

theorem head_notMem (hs : L.Spelled m) (hh : h ∈ L.heads) (ha : a ∈ L.heads) : a ∉ L.on h := by
  intro hmem
  by_cases hne : h = a
  · subst hne
    exact (List.nodup_cons.mp (hs.loop hh).nodup).1 hmem
  · exact hs.apart hh ha hne (List.mem_cons_of_mem h hmem) List.mem_cons_self

/-- **Some lists are replaced by others on the same nodes**: those at `ws`, and nodes `es` that are
not in use, by those at `news`. -/
theorem change (hs : L.Spelled m) {links : Links ℕ} (ws es news : List ℕ)
    (hws : ∀ w ∈ ws, w ∈ L.heads) (hes : ∀ e ∈ es, e ≠ 0 ∧ L.Off e)
    (hkeep : ∀ h ∈ L'.heads, h ∈ news ∨ h ∈ L.heads ∧ h ∉ ws ∧ L'.on h = L.on h)
    (hnew : ∀ h ∈ news, links.Loop h (L'.on h))
    (hin : ∀ h ∈ news, ∀ x ∈ h :: L'.on h, x ∈ es ∨ ∃ w ∈ ws, x ∈ w :: L.on w)
    (hheads : ∀ h ∈ news, ∀ h' ∈ news, h' ∉ L'.on h)
    (hsame : ∀ x, x ∉ es → (∀ w ∈ ws, x ∉ w :: L.on w) → m.links.SameOn links [x]) :
    L.Does es m L' (m.withLinks links) := by
  set W : Set ℕ := {x | x ∈ es ∨ ∃ w ∈ ws, x ∈ w :: L.on w}
  have hoff : ∀ x ∈ es, ∀ h ∈ L.heads, x ∉ h :: L.on h := fun x hx => off_iff.mp (hes x hx).2
  -- a list that is not replaced has no node in `W`
  have hout : ∀ h ∈ L.heads, h ∉ ws → ∀ x ∈ h :: L.on h, x ∉ W := by
    rintro h hh hw x hx (he | ⟨w, hmem, hxw⟩)
    · exact hoff x he h hh hx
    · exact hs.apart hh (hws w hmem) (fun heq => hw (heq ▸ hmem)) hx hxw
  have hmem_news : ∀ h ∈ L'.heads, h ∈ W → h ∈ news := by
    intro h hh hW
    rcases hkeep h hh with hnews | ⟨hmem, hw, -⟩
    · exact hnews
    · exact absurd hW (hout h hmem hw h List.mem_cons_self)
  have hkept : ∀ h ∈ L'.heads, h ∉ W → h ∈ L.heads ∧ h ∉ ws ∧ L'.on h = L.on h := fun h hh hW =>
    (hkeep h hh).resolve_left fun hnews => hW (hin h hnews h List.mem_cons_self)
  have hloops : links.Loops ↑L'.heads L'.on := by
    refine hs.loops.change (W := W) (fun h hh hW x hx => ?_) (fun x hx => ?_) (fun h hh hW => ?_)
      (fun h hh hW => hnew h (hmem_news h hh hW)) (fun h hh hW x hx => ?_) fun h hh hW
        h' hh' hW' => ?_
    · have hw : h ∉ ws := fun hw => hW (.inr ⟨h, hw, List.mem_cons_self⟩)
      exact hout h hh hw x (List.mem_cons_of_mem h hx)
    · obtain ⟨hxe, hxw⟩ := not_or.mp hx
      exact hsame x hxe fun w hw hmem => hxw ⟨w, hw, hmem⟩
    · obtain ⟨hmem, -, heq⟩ := hkept h hh hW
      exact ⟨hmem, heq⟩
    · exact hin h (hmem_news h hh hW) x (List.mem_cons_of_mem h hx)
    · exact hheads h (hmem_news h hh hW) h' (hmem_news h' hh' hW')
  have hnodes : ∀ h ∈ L'.heads, ∀ x ∈ h :: L'.on h, x ∈ W ∨ ∃ h ∈ L.heads, x ∈ h :: L.on h := by
    intro h hh x hx
    rcases hkeep h hh with hnews | ⟨hmem, -, heq⟩
    · exact .inl (hin h hnews x hx)
    · exact .inr ⟨h, hmem, heq ▸ hx⟩
  have hnode : ∀ x ∈ W, x ∈ es ∨ ∃ h ∈ L.heads, x ∈ h :: L.on h := by
    rintro x (he | ⟨w, hw, hx⟩)
    · exact .inl he
    · exact .inr ⟨w, hws w hw, hx⟩
  refine ⟨⟨hloops, fun h hh h0 => ?_⟩, rfl, fun x hx hxoff => ⟨?_, off_iff.mpr fun h hh hmem => ?_⟩⟩
  · rcases hnodes h hh 0 h0 with hW | ⟨h, hh, h0⟩
    · rcases hnode 0 hW with he | ⟨h, hh, h0⟩
      · exact (hes 0 he).1 rfl
      · exact hs.ne_null h hh h0
    · exact hs.ne_null h hh h0
  · exact hsame x hx fun w hw => off_iff.mp hxoff w (hws w hw)
  · rcases hnodes h hh x hmem with hW | ⟨h, hh, hmem⟩
    · rcases hnode x hW with he | ⟨h, hh, hmem⟩
      · exact hx he
      · exact off_iff.mp hxoff h hh hmem
    · exact off_iff.mp hxoff h hh hmem

/-! ### One list -/

/-- One list gets other entries, some of which may be new. -/
theorem change_one (hs : L.Spelled m) {links : Links ℕ} (es : List ℕ) (hh : h ∈ L.heads)
    (hes : ∀ e ∈ es, e ≠ 0 ∧ L.Off e)
    (hkeep : ∀ a ∈ L'.heads, a ≠ h → a ∈ L.heads ∧ L'.on a = L.on a)
    (hnew : links.Loop h (L'.on h)) (hin : ∀ x ∈ L'.on h, x ∈ es ∨ x ∈ L.on h)
    (hsame : ∀ x, x ∉ es → x ∉ h :: L.on h → m.links.SameOn links [x]) :
    L.Does es m L' (m.withLinks links) := by
  refine hs.change [h] es [h] (by simpa using hh) hes (fun a ha => ?_) ?_ ?_ ?_ ?_
  · by_cases heq : a = h
    · simp [heq]
    · obtain ⟨hmem, hon⟩ := hkeep a ha heq
      exact .inr ⟨hmem, by simpa using heq, hon⟩
  · simpa using hnew
  · have hall : ∀ x ∈ L'.on h, x ∈ es ∨ x = h ∨ x ∈ L.on h := fun x hx =>
      (hin x hx).imp_right .inr
    simpa using hall
  · simpa using (List.nodup_cons.mp hnew.nodup).1
  · simpa using hsame

theorem set_keep : ∀ a ∈ (L.set h l).heads, a ≠ h → a ∈ L.heads ∧ (L.set h l).on a = L.on a :=
  fun _ ha hne => ⟨(mem_set_heads.mp ha).resolve_left hne, set_on_of_ne hne⟩

/-- **`INIT_LIST_HEAD`** of a node that is not in use. -/
theorem initListHead (hs : L.Spelled m) (hh : h ≠ 0) (hoff : L.Off h) :
    ∃ m', Queue.initListHead h m = .ok ((), m') ∧ L.Does [h] m (L.set h []) m' := by
  refine ⟨_, Queue.initListHead_apply hh m, hs.change [] [h] [h] (by simp) (by simp [hh, hoff])
    (fun h' hh' => ?_) ?_ ?_ ?_ fun x hx _ => ?_⟩
  · by_cases heq : h' = h
    · simp [heq]
    · exact .inr ⟨(mem_set_heads.mp hh').resolve_left heq, by simp, set_on_of_ne heq⟩
  · simpa using Links.Loop.single
  · simp
  · simp
  · rw [List.mem_singleton] at hx
    have hx' : h ∉ [x] := by simpa using Ne.symm hx
    exact (Links.SameOn.setNext hx').trans (Links.SameOn.setPrev hx')

/-- **`list_add`.** -/
theorem listAdd (hs : L.Spelled m) (hh : h ∈ L.heads) (he : e ≠ 0) (hoff : L.Off e) :
    ∃ m', Queue.listAdd e h m = .ok ((), m') ∧ L.Does [e] m (L.set h (e :: L.on h)) m' := by
  have hloop := hs.loop hh
  have hnext := hloop.next_mem
  have hh0 := hs.ne_zero hh List.mem_cons_self
  refine ⟨_, Queue.listAdd_apply he hh0 (hs.ne_zero hh hnext), hs.change_one [e] hh
    (by simp [he, hoff]) set_keep ?_ (by simp) fun x hx hxh => ?_⟩
  · simpa using hloop.insert_first (off_iff.mp hoff h hh)
  refine .insert ?_ ?_ ?_ <;> rw [List.mem_singleton] <;> rintro rfl
  · exact hx (List.mem_singleton_self _)
  · exact hxh List.mem_cons_self
  · exact hxh hnext

/-- **`list_add_tail`.** -/
theorem listAddTail (hs : L.Spelled m) (hh : h ∈ L.heads) (he : e ≠ 0) (hoff : L.Off e) :
    ∃ m', Queue.listAddTail e h m = .ok ((), m') ∧ L.Does [e] m (L.set h (L.on h ++ [e])) m' := by
  have hloop := hs.loop hh
  have hprev := hloop.prev_mem
  have hh0 := hs.ne_zero hh List.mem_cons_self
  refine ⟨_, Queue.listAddTail_apply he hh0 (hs.ne_zero hh hprev), hs.change_one [e] hh
    (by simp [he, hoff]) set_keep ?_ (by simp [or_comm]) fun x hx hxh => ?_⟩
  · simpa using hloop.insert_last (off_iff.mp hoff h hh)
  refine .insert ?_ ?_ ?_ <;> rw [List.mem_singleton] <;> rintro rfl
  · exact hx (List.mem_singleton_self _)
  · exact hxh hprev
  · exact hxh List.mem_cons_self

theorem exists_entry (he : L.Entry e) : ∃ h ∈ L.heads, ∃ l₁ l₂, L.on h = l₁ ++ e :: l₂ := by
  obtain ⟨h, hh, hmem⟩ := he
  obtain ⟨l₁, l₂, hl⟩ := List.append_of_mem hmem
  exact ⟨h, hh, l₁, l₂, hl⟩

theorem del_on_of_ne (hs : L.Spelled m) (hh : h ∈ L.heads) (he : e ∈ L.on h) (ha : a ∈ L.heads)
    (hne : a ≠ h) : (L.del e).on a = L.on a := by
  have hea : e ∉ a :: L.on a := hs.apart hh ha hne.symm (List.mem_cons_of_mem h he)
  exact List.erase_of_not_mem (List.not_mem_of_not_mem_cons hea)

theorem entry_ne_zero (hs : L.Spelled m) (he : L.Entry e) :
    e ≠ 0 ∧ m.links.prev e ≠ 0 ∧ m.links.next e ≠ 0 := by
  obtain ⟨h, hh, hmem⟩ := he
  have hmem' : e ∈ h :: L.on h := List.mem_cons_of_mem h hmem
  obtain ⟨hnext, hprev⟩ := (hs.loop hh).links_mem hmem'
  exact ⟨hs.ne_zero hh hmem', hs.ne_zero hh hprev, hs.ne_zero hh hnext⟩

/-- **An entry is left out**, and is on no list then. -/
theorem remove (hs : L.Spelled m) (he : L.Entry e) :
    L.Does [] m (L.del e)
      (m.withLinks (m.links.remove (m.links.prev e) (m.links.next e))) ∧ (L.del e).Off e := by
  obtain ⟨h, hh, l₁, l₂, hl⟩ := exists_entry he
  have hmem : e ∈ L.on h := by simp [hl]
  have hloop := hs.loop hh
  obtain ⟨hnext, hprev⟩ := hloop.links_mem (List.mem_cons_of_mem h hmem)
  have herase : (L.del e).on h = l₁ ++ l₂ := by
    have hnodup := (List.nodup_cons.mp hloop.nodup).2
    rw [hl] at hnodup
    have he₁ : e ∉ l₁ := (List.nodup_middle.mp hnodup).notMem ∘ List.mem_append_left _
    show (L.on h).erase e = l₁ ++ l₂
    rw [hl, List.erase_append_right _ he₁, List.erase_cons_head]
  have hwritten : ∀ x, x ∉ h :: L.on h →
      m.links.SameOn (m.links.remove (m.links.prev e) (m.links.next e)) [x] := by
    intro x hx
    refine .remove ?_ ?_ <;> rw [List.mem_singleton] <;> rintro rfl
    · exact hx hprev
    · exact hx hnext
  rw [hl] at hloop
  refine ⟨hs.change_one [] hh (by simp) (fun a ha hne => ⟨ha, hs.del_on_of_ne hh hmem ha hne⟩) ?_ ?_
    fun x _ => hwritten x, off_iff.mpr fun a ha => ?_⟩
  · rw [herase]
    exact hloop.remove
  · rw [herase, hl]
    simp +contextual [or_imp]
  · rw [List.mem_cons, not_or]
    refine ⟨?_, ((List.nodup_cons.mp (hs.loop ha).nodup).2).not_mem_erase⟩
    rintro rfl
    exact hs.head_notMem hh ha hmem

/-- **`__list_del_entry`.** -/
theorem _listDelEntry (hs : L.Spelled m) (he : L.Entry e) :
    ∃ m', Queue._listDelEntry e m = .ok ((), m') ∧ L.Does [] m (L.del e) m' := by
  obtain ⟨he0, hprev, hnext⟩ := hs.entry_ne_zero he
  exact ⟨_, Queue._listDelEntry_apply he0 hprev hnext, (hs.remove he).1⟩

theorem clear (hs : L.Spelled m) (he : e ≠ 0) (hoff : L.Off e) :
    L.Does [e] m L (m.withLinks ((m.links.setNext e 0).setPrev e 0)) := by
  refine hs.change [] [e] [] (by simp) (by simp [he, hoff]) (by simp) (by simp) (by simp) (by simp)
    fun x hx _ => ?_
  have hx' : e ∉ [x] := by simpa [eq_comm] using hx
  exact (Links.SameOn.setNext hx').trans (Links.SameOn.setPrev hx')

/-- **`list_del`.** -/
theorem listDel (hs : L.Spelled m) (he : L.Entry e) :
    ∃ m', Queue.listDel e m = .ok ((), m') ∧ L.Does [e] m (L.del e) m' := by
  obtain ⟨he0, hprev, hnext⟩ := hs.entry_ne_zero he
  obtain ⟨hdoes, hoff⟩ := hs.remove he
  exact ⟨_, Queue.listDel_apply he0 hprev hnext,
    (hdoes.mono (by simp)).trans (hdoes.spelled.clear he0 hoff)⟩

/-- **`list_del_init`.** -/
theorem listDelInit (hs : L.Spelled m) (he : L.Entry e) :
    ∃ m', Queue.listDelInit e m = .ok ((), m') ∧ L.Does [e] m ((L.del e).set e []) m' := by
  obtain ⟨m₁, hcall, hdoes⟩ := hs._listDelEntry he
  obtain ⟨m₂, hcall', hdoes'⟩ :=
    hdoes.spelled.initListHead (hs.entry_ne_zero he).1 (hs.remove he).2
  exact ⟨m₂, (bind_of_ok hcall _).trans hcall', (hdoes.mono (by simp)).trans hdoes'⟩

/-- **`list_move`.** -/
theorem listMove (hs : L.Spelled m) (he : L.Entry e) (hh : h ∈ L.heads) :
    ∃ m', Queue.listMove e h m = .ok ((), m') ∧
      L.Does [e] m ((L.del e).set h (e :: (L.on h).erase e)) m' := by
  obtain ⟨m₁, hcall, hdoes⟩ := hs._listDelEntry he
  obtain ⟨m₂, hcall', hdoes'⟩ :=
    hdoes.spelled.listAdd hh (hs.entry_ne_zero he).1 (hs.remove he).2
  exact ⟨m₂, (bind_of_ok hcall _).trans hcall', (hdoes.mono (by simp)).trans hdoes'⟩

/-- **`list_move_tail`.** -/
theorem listMoveTail (hs : L.Spelled m) (he : L.Entry e) (hh : h ∈ L.heads) :
    ∃ m', Queue.listMoveTail e h m = .ok ((), m') ∧
      L.Does [e] m ((L.del e).set h ((L.on h).erase e ++ [e])) m' := by
  obtain ⟨m₁, hcall, hdoes⟩ := hs._listDelEntry he
  obtain ⟨m₂, hcall', hdoes'⟩ :=
    hdoes.spelled.listAddTail hh (hs.entry_ne_zero he).1 (hs.remove he).2
  exact ⟨m₂, (bind_of_ok hcall _).trans hcall', (hdoes.mono (by simp)).trans hdoes'⟩

/-- **`list_empty`.** -/
theorem listEmpty (hs : L.Spelled m) (hh : h ∈ L.heads) :
    Queue.listEmpty h m = .ok ((L.on h).isEmpty, m) := by
  have hsame : (m.links.next h == h) = (L.on h).isEmpty := by
    rw [Bool.eq_iff_iff]
    simp [(hs.loop hh).next_eq_iff]
  rw [Queue.listEmpty_apply (hs.ne_zero hh List.mem_cons_self), hsame]

/-- **`list_rotate_left`.** -/
theorem listRotateLeft (hs : L.Spelled m) (hh : h ∈ L.heads) :
    ∃ m', Queue.listRotateLeft h m = .ok ((), m') ∧
      L.Does [] m (L.set h ((L.on h).rotate 1)) m' := by
  have hempty := hs.listEmpty hh
  have hloop := hs.loop hh
  cases hl : L.on h with
  | nil =>
    rw [hl] at hempty
    refine ⟨m, bind_of_ok hempty _, (Does.refl hs).congr ?_ fun a ha => ?_⟩
    · simp [Lists.set, hh]
    · by_cases hne : a = h
      · simp [hne, hl]
      · rw [set_on_of_ne hne]
  | cons f l =>
    have hf : f ∈ L.on h := by simp [hl]
    have hfirst : m.links.next h = f := by
      rw [hl] at hloop
      exact hloop.next_head
    obtain ⟨m', hcall, hdoes⟩ := hs.listMoveTail ⟨h, hh, hf⟩ hh
    rw [hl] at hempty
    refine ⟨m', (bind_of_ok hempty _).trans ?_, ?_⟩
    · refine (bind_of_ok (Queue.next_apply (hs.ne_zero hh List.mem_cons_self) m) _).trans ?_
      rwa [hfirst]
    · refine (hdoes.mono fun x hx hoff => ?_).congr ?_ fun a ha => ?_
      · rw [List.mem_singleton.mp hx] at hoff
        exact absurd hf (hoff.2 h hh)
      · rfl
      · by_cases hne : a = h
        · simp [hne, hl]
        · have hmem : a ∈ L.heads := (mem_set_heads.mp ha).resolve_left hne
          rw [set_on_of_ne hne, set_on_of_ne hne]
          exact hs.del_on_of_ne hh hf hmem hne

/-! ### One node for another -/

theorem map_swap {l : List ℕ} (hold : old ∉ l) (he : e ∉ l) : l.map (Equiv.swap old e) = l := by
  refine (List.map_congr_left fun x hx => ?_).trans l.map_id
  exact Equiv.swap_apply_of_ne_of_ne (ne_of_mem_of_not_mem hx hold) (ne_of_mem_of_not_mem hx he)

theorem replace_on (hoff : L.Off e) (ha : a ∈ L.heads) (hold : old ∉ a :: L.on a) :
    (L.replace old e).on a = L.on a := by
  have hea := off_iff.mp hoff a ha
  rw [List.mem_cons, not_or] at hold hea
  show (L.on (Equiv.swap old e a)).map (Equiv.swap old e) = L.on a
  rw [Equiv.swap_apply_of_ne_of_ne (Ne.symm hold.1) (Ne.symm hea.1), map_swap hold.2 hea.2]

theorem mem_replace_heads (hoff : L.Off e) (ha : a ∈ (L.replace old e).heads) :
    a = e ∧ old ∈ L.heads ∨ a ∈ L.heads ∧ a ≠ old := by
  obtain ⟨h, hh, rfl⟩ := Finset.mem_image.mp ha
  by_cases heq : h = old
  · rw [heq] at hh
    exact .inl ⟨by rw [heq, Equiv.swap_apply_left], hh⟩
  · have hne : h ≠ e := ne_of_mem_of_not_mem hh hoff.1
    rw [Equiv.swap_apply_of_ne_of_ne heq hne]
    exact .inr ⟨hh, heq⟩

theorem listReplace_of_loop {k : List ℕ} (hl : m.links.Loop old k) (h0 : 0 ∉ old :: k)
    (he : e ≠ 0) : Queue.listReplace old e m =
      .ok ((), m.withLinks ((m.links.join e (m.links.next old)).join
        ((m.links.join e (m.links.next old)).prev old) e)) := by
  have hprev : 0 ∉ e :: old :: k := List.not_mem_cons_of_ne_of_not_mem he.symm h0
  exact Queue.listReplace_apply (ne_of_mem_of_not_mem List.mem_cons_self h0) he
    (ne_of_mem_of_not_mem hl.next_mem h0) (ne_of_mem_of_not_mem hl.replace_prev_mem hprev)

/-- **`list_replace`** of a head, whose list goes to the new one. -/
theorem listReplace_head (hs : L.Spelled m) (hold : old ∈ L.heads) (he : e ≠ 0) (hoff : L.Off e) :
    ∃ m', Queue.listReplace old e m = .ok ((), m') ∧ L.Does [e] m (L.replace old e) m' := by
  have hloop := hs.loop hold
  have hnotMem := hs.head_notMem hold hold
  have heoff := off_iff.mp hoff old hold
  have hon : (L.replace old e).on e = L.on old := by
    show (L.on (Equiv.swap old e e)).map (Equiv.swap old e) = L.on old
    rw [Equiv.swap_apply_right, map_swap hnotMem (List.not_mem_of_not_mem_cons heoff)]
  refine ⟨_, listReplace_of_loop hloop (hs.ne_null old hold) he,
    hs.change [old] [e] [e] (by simpa using hold) (by simp [he, hoff]) (fun a ha => ?_) ?_ ?_ ?_
      fun x hx hxl => hloop.replace_sameOn ?_⟩
  · rcases mem_replace_heads hoff ha with ⟨rfl, -⟩ | ⟨hmem, hne⟩
    · exact .inl (List.mem_singleton_self _)
    · refine .inr ⟨hmem, by simpa using hne, replace_on hoff hmem ?_⟩
      exact List.not_mem_cons_of_ne_of_not_mem hne.symm (hs.head_notMem hmem hold)
  · simpa [hon] using hloop.replace heoff
  · simp +contextual [hon]
  · simpa [hon] using List.not_mem_of_not_mem_cons heoff
  · exact List.not_mem_cons_of_ne_of_not_mem (by simpa using hx) (by simpa using hxl)

/-- **`list_replace`** of an entry. -/
theorem listReplace_entry (hs : L.Spelled m) (hold : L.Entry old) (he : e ≠ 0) (hoff : L.Off e) :
    ∃ m', Queue.listReplace old e m = .ok ((), m') ∧ L.Does [e] m (L.replace old e) m' := by
  obtain ⟨h, hh, l₁, l₂, hl⟩ := exists_entry hold
  have hmem : old ∈ L.on h := by simp [hl]
  have hloop := hs.loop hh
  have heoff := off_iff.mp hoff h hh
  have hne : h ≠ old := fun heq => hs.head_notMem hh hh (heq ▸ hmem)
  have hon : (L.replace old e).on h = l₁ ++ e :: l₂ := by
    have hnodup := (List.nodup_cons.mp hloop.nodup).2
    rw [hl] at heoff hnodup
    have hold' := (List.nodup_middle.mp hnodup).notMem
    simp only [List.mem_cons, List.mem_append, not_or] at heoff hold'
    show (L.on (Equiv.swap old e h)).map (Equiv.swap old e) = _
    rw [Equiv.swap_apply_of_ne_of_ne hne (Ne.symm heoff.1), hl, List.map_append, List.map_cons,
      map_swap hold'.1 heoff.2.1, map_swap hold'.2 heoff.2.2.2, Equiv.swap_apply_left]
  rw [hl] at hloop
  have hsame : ∀ x, x ∈ old :: (l₂ ++ h :: l₁) ↔ x ∈ h :: L.on h := by
    intro x
    simp only [hl, List.mem_cons, List.mem_append]
    tauto
  have hturned := hloop.rotate
  refine ⟨_, listReplace_of_loop hturned (mt (hsame 0).mp (hs.ne_null h hh)) he,
    hs.change_one [e] hh (by simp [he, hoff]) (fun a ha hne => ?_) ?_ ?_ fun x hx hxl =>
      hturned.replace_sameOn ?_⟩
  · rcases mem_replace_heads hoff ha with ⟨-, hhead⟩ | ⟨hmem', -⟩
    · exact absurd hmem (hs.head_notMem hh hhead)
    · exact ⟨hmem', replace_on hoff hmem'
        (hs.apart hh hmem' hne.symm (List.mem_cons_of_mem h hmem))⟩
  · rw [hon]
    exact (hturned.replace (mt (hsame e).mp heoff)).rotate
  · rw [hon, hl]
    simp +contextual [or_imp]
  · exact List.not_mem_cons_of_ne_of_not_mem (by simpa using hx) (mt (hsame x).mp hxl)

/-- **`list_replace`.** -/
theorem listReplace (hs : L.Spelled m) (hold : old ∈ L.heads ∨ L.Entry old) (he : e ≠ 0)
    (hoff : L.Off e) :
    ∃ m', Queue.listReplace old e m = .ok ((), m') ∧ L.Does [e] m (L.replace old e) m' :=
  hold.elim (hs.listReplace_head · he hoff) (hs.listReplace_entry · he hoff)

theorem not_off (hold : old ∈ L.heads ∨ L.Entry old) : ¬ L.Off old := by
  rintro ⟨hhead, hon⟩
  rcases hold with hmem | ⟨h, hh, hmem⟩
  · exact hhead hmem
  · exact hon h hh hmem

theorem replace_off (hold : old ∈ L.heads ∨ L.Entry old) (hoff : L.Off e) :
    (L.replace old e).Off old := by
  have hne : old ≠ e := by
    rintro rfl
    exact not_off hold hoff
  constructor
  · intro hmem
    rcases mem_replace_heads hoff hmem with ⟨heq, -⟩ | ⟨-, hc⟩
    · exact hne heq
    · exact hc rfl
  · intro a ha hmem
    obtain ⟨h, hh, rfl⟩ := Finset.mem_image.mp ha
    obtain ⟨x, hx, hxold⟩ := List.mem_map.mp hmem
    have hxe : Equiv.swap old e (Equiv.swap old e x) = e := by rw [hxold, Equiv.swap_apply_left]
    rw [Equiv.swap_apply_self] at hx hxe
    rw [hxe] at hx
    exact hoff.2 h hh hx

theorem used_ne_zero (hs : L.Spelled m) (hold : old ∈ L.heads ∨ L.Entry old) : old ≠ 0 :=
  hold.elim (hs.ne_zero · List.mem_cons_self) fun he => (hs.entry_ne_zero he).1

/-- **`list_replace_init`.** -/
theorem listReplaceInit (hs : L.Spelled m) (hold : old ∈ L.heads ∨ L.Entry old) (he : e ≠ 0)
    (hoff : L.Off e) : ∃ m', Queue.listReplaceInit old e m = .ok ((), m') ∧
      L.Does [e] m ((L.replace old e).set old []) m' := by
  obtain ⟨m₁, hcall, hdoes⟩ := hs.listReplace hold he hoff
  obtain ⟨m₂, hcall', hdoes'⟩ :=
    hdoes.spelled.initListHead (hs.used_ne_zero hold) (replace_off hold hoff)
  have hboth : L.Does [old, e] m ((L.replace old e).set old []) m₂ :=
    (hdoes.mono (by simp)).trans (hdoes'.mono (by simp))
  refine ⟨m₂, (bind_of_ok hcall _).trans hcall', hboth.mono fun x hx hxoff => ?_⟩
  rcases List.mem_cons.mp hx with rfl | hx
  · exact absurd hxoff (not_off hold)
  · exact hx

/-! ### Several entries -/

theorem set_set_keep {b : ℕ} {k : List ℕ} : ∀ c ∈ ((L.set a k).set b l).heads,
    c ∈ [a, b] ∨ c ∈ L.heads ∧ c ∉ [a, b] ∧ ((L.set a k).set b l).on c = L.on c := by
  intro c hc
  by_cases hca : c = a
  · simp [hca]
  · by_cases hcb : c = b
    · simp [hcb]
    · simp only [mem_set_heads, hca, hcb, false_or] at hc
      refine .inr ⟨hc, by simp [hca, hcb], ?_⟩
      rw [set_on_of_ne hcb, set_on_of_ne hca]

theorem unless_empty (hs : L.Spelled m) (ha : a ∈ L.heads) {x : Queue.QueueM Unit}
    (hx : L.on a ≠ [] → ∃ m', x m = .ok ((), m') ∧ L.Does args m L' m') :
    ∃ m', (do if ← Queue.listEmpty a then return else x) m = .ok ((), m') ∧
      L.Does args m (if L.on a = [] then L else L') m' := by
  have hempty := hs.listEmpty ha
  by_cases hnil : L.on a = []
  · rw [if_pos hnil]
    rw [hnil] at hempty
    exact ⟨m, bind_of_ok hempty _, Does.refl hs⟩
  · rw [if_neg hnil]
    have hfalse : (L.on a).isEmpty = false := by simpa using hnil
    rw [hfalse] at hempty
    obtain ⟨m', hcall, hdoes⟩ := hx hnil
    exact ⟨m', (bind_of_ok hempty _).trans hcall, hdoes⟩

/-- **`list_is_singular`.** -/
theorem listIsSingular (hs : L.Spelled m) (hh : h ∈ L.heads) :
    Queue.listIsSingular h m = .ok ((L.on h).length == 1, m) := by
  have hh0 := hs.ne_zero hh List.mem_cons_self
  have hloop := hs.loop hh
  refine (bind_of_ok (hs.listEmpty hh) _).trans ?_
  cases hl : L.on h with
  | nil => rfl
  | cons f l =>
    rw [hl] at hloop
    have hends : (m.links.next h == m.links.prev h) = ((f :: l).length == 1) := by
      rw [hloop.next_head]
      rcases l.eq_nil_or_concat' with rfl | ⟨k, z, rfl⟩
      · have hlast : m.links.Loop h ([] ++ [f]) := hloop
        simp [hlast.prev_last]
      · have hf := (List.nodup_cons.mp (List.nodup_cons.mp hloop.nodup).2).1
        rw [← List.cons_append] at hloop
        have hne : f ≠ z := by
          rintro rfl
          simp at hf
        simp [hloop.prev_last, hne]
    refine (bind_of_ok (Queue.next_apply hh0 m) _).trans ?_
    refine (bind_of_ok (Queue.prev_apply hh0 m) _).trans ?_
    rw [← hends]
    rfl

/-- **`INIT_LIST_HEAD`** of a list, which loses its entries. -/
theorem initListHead_again (hs : L.Spelled m) (hh : h ∈ L.heads) :
    ∃ m', Queue.initListHead h m = .ok ((), m') ∧ L.Does [] m (L.set h []) m' := by
  refine ⟨_, Queue.initListHead_apply (hs.ne_zero hh List.mem_cons_self) m,
    hs.change_one [] hh (by simp) set_keep ?_ (by simp) fun x _ hx => ?_⟩
  · simpa using Links.Loop.single
  · have hx' : h ∉ [x] := by simpa using (List.ne_of_not_mem_cons hx).symm
    exact (Links.SameOn.setNext hx').trans (Links.SameOn.setPrev hx')

/-- **`__list_cut_position`.** -/
theorem _listCutPosition (hs : L.Spelled m) (ha : a ∈ L.heads) (hh : h ∈ L.heads) (hne : a ≠ h)
    (hl : L.on h = l₁ ++ e :: l₂) : ∃ m', Queue._listCutPosition a h e m = .ok ((), m') ∧
      L.Does [] m ((L.set a (l₁ ++ [e])).set h l₂) m' := by
  have hloop := hs.loop hh
  have he : e ∈ h :: L.on h := by simp [hl]
  have haoff : a ∉ h :: L.on h := hs.apart ha hh hne List.mem_cons_self
  have hnext := (hloop.links_mem he).1
  have hfirst := hloop.next_mem
  refine ⟨_, Queue._listCutPosition_apply (hs.ne_zero ha List.mem_cons_self)
    (hs.ne_zero hh List.mem_cons_self) (hs.ne_zero hh he) (hs.ne_zero hh hfirst)
    (hs.ne_zero hh hnext), hs.change [a, h] [] [a, h] (by simp [ha, hh]) (by simp) set_set_keep
      ?_ ?_ ?_ fun x _ hx => ?_⟩
  · rw [hl] at hloop haoff
    obtain ⟨hcut, hrest⟩ := hloop.cut haoff
    simpa [set_on_of_ne hne] using ⟨hcut, hrest⟩
  · simp +contextual [set_on_of_ne hne, hl, or_imp]
  · have hhead : h ∉ L.on h := hs.head_notMem hh hh
    have hother : a ∉ L.on h := hs.head_notMem hh ha
    rw [hl] at hhead hother
    simp only [List.mem_append, List.mem_cons, not_or] at hhead hother
    simp [set_on_of_ne hne, hhead, hother]
  · simp only [List.mem_cons, List.not_mem_nil, or_false, forall_eq_or_imp, forall_eq] at hx
    have hmem : ∀ {y}, y ∈ h :: L.on h → y ∈ a :: h :: L.on h := List.mem_cons_of_mem a
    have hx' : x ∉ a :: h :: L.on h := by
      simp only [List.mem_cons, not_or] at hx ⊢
      exact ⟨hx.1.1, hx.2⟩
    exact ((Links.SameOn.join_of_mem List.mem_cons_self (hmem hfirst) hx').trans
      (Links.SameOn.join_of_mem (hmem he) List.mem_cons_self hx')).trans
        (Links.SameOn.join_of_mem (hmem List.mem_cons_self) (hmem hnext) hx')

theorem cut_guard (hs : L.Spelled m) (hh : h ∈ L.heads) (hnil : L.on h ≠ [])
    (he : e ∈ h :: L.on h) :
    ((L.on h).length == 1 && (m.links.next h != e && h != e)) = false := by
  have hloop := hs.loop hh
  obtain ⟨f, l, hl⟩ := List.exists_cons_of_ne_nil hnil
  rw [hl] at he hloop
  rw [hl, hloop.next_head]
  cases l with
  | nil =>
    rcases List.mem_cons.mp he with rfl | he
    · simp
    · simp [List.mem_singleton.mp he]
  | cons g l => simp

/-- **`list_cut_position`.** -/
theorem listCutPosition (hs : L.Spelled m) (ha : a ∈ L.heads) (hh : h ∈ L.heads) (hne : a ≠ h)
    (he : e ∈ h :: L.on h) : ∃ m', Queue.listCutPosition a h e m = .ok ((), m') ∧
      L.Does [] m ((ListCall.cut a h e).next L) m' := by
  refine hs.unless_empty hh fun hnil => ?_
  have hguard := hs.cut_guard hh hnil he
  have hsteps : (do
      if (← Queue.listIsSingular h) && ((← Queue.next h) != e && h != e) then return
      else if e = h then Queue.initListHead a
      else Queue._listCutPosition a h e : Queue.QueueM Unit) m =
        (if e = h then Queue.initListHead a else Queue._listCutPosition a h e) m := by
    refine (bind_of_ok (hs.listIsSingular hh) _).trans ?_
    refine (bind_of_ok (Queue.next_apply (hs.ne_zero hh List.mem_cons_self) m) _).trans ?_
    rw [hguard]
    rfl
  rw [hsteps]
  by_cases heh : e = h
  · rw [if_pos heh, if_pos heh]
    exact hs.initListHead_again ha
  · rw [if_neg heh, if_neg heh]
    obtain ⟨l₁, l₂, hl⟩ := List.append_of_mem ((List.mem_cons.mp he).resolve_left heh)
    have hnodup := (List.nodup_cons.mp (hs.loop hh).nodup).2
    rw [hl] at hnodup
    have he₁ : e ∉ l₁ := (List.nodup_middle.mp hnodup).notMem ∘ List.mem_append_left _
    have hidx : (L.on h).idxOf e = l₁.length := by
      rw [hl, List.idxOf_append_of_notMem he₁, List.idxOf_cons_self, Nat.add_zero]
    have htake : (L.on h).take (l₁.length + 1) = l₁ ++ [e] := by simp [hl, List.take_append]
    have hdrop : (L.on h).drop (l₁.length + 1) = l₂ := by simp [hl, List.drop_append]
    rw [hidx, htake, hdrop]
    exact hs._listCutPosition ha hh hne hl

/-! ### Two lists -/

/-- Two lists become one. -/
theorem change_two (hs : L.Spelled m) {links : Links ℕ} (ha : a ∈ L.heads) (hh : h ∈ L.heads)
    (hnew : links.Loop h l) (hin : ∀ x ∈ l, x ∈ L.on a ∨ x ∈ L.on h)
    (hsame : ∀ x, x ∉ (a :: L.on a) ++ (h :: L.on h) → m.links.SameOn links [x]) :
    L.Does [] m ((L.set h l).drop a) (m.withLinks links) := by
  have hon : ((L.set h l).drop a).on h = l := set_on_self L h l
  refine hs.change [a, h] [] [h] (by simp [ha, hh]) (by simp)
    (fun b hb => ?_) ?_ ?_ ?_ fun x _ hx => ?_
  · obtain ⟨hba, hb⟩ := Finset.mem_erase.mp hb
    by_cases hbh : b = h
    · simp [hbh]
    · exact .inr ⟨(mem_set_heads.mp hb).resolve_left hbh, by simp [hba, hbh], set_on_of_ne hbh⟩
  · simpa [hon] using hnew
  · have hall : ∀ x ∈ l, (x = a ∨ x ∈ L.on a) ∨ x = h ∨ x ∈ L.on h := fun x hx =>
      (hin x hx).imp .inr .inr
    simpa [hon] using hall
  · simpa [hon] using (List.nodup_cons.mp hnew.nodup).1
  · simp only [List.mem_cons, List.not_mem_nil, or_false, forall_eq_or_imp, forall_eq] at hx
    refine hsame x ?_
    simp only [List.mem_append, List.mem_cons, not_or] at hx ⊢
    exact hx

/-- **`__list_splice`** at the front. -/
theorem _listSplice_first (hs : L.Spelled m) (ha : a ∈ L.heads) (hh : h ∈ L.heads) (hne : a ≠ h)
    (hnil : L.on a ≠ []) : ∃ m', Queue._listSplice a h (m.links.next h) m = .ok ((), m') ∧
      L.Does [] m ((L.set h (L.on a ++ L.on h)).drop a) m' := by
  have hloop := hs.loop hh
  have haloop := hs.loop ha
  have hdisjoint : (h :: L.on h).Disjoint (L.on a) := fun x hx hxa =>
    hs.apart hh ha hne.symm hx (List.mem_cons_of_mem a hxa)
  refine ⟨_, Queue._listSplice_apply (hs.ne_zero ha List.mem_cons_self)
    (hs.ne_zero hh List.mem_cons_self) (hs.ne_zero hh hloop.next_mem)
    (hs.ne_zero ha haloop.next_mem) (hs.ne_zero ha haloop.prev_mem),
    hs.change_two ha hh (hloop.splice_first haloop hnil hdisjoint)
      (fun x => List.mem_append.mp) fun x hx => ?_⟩
  have hleft : ∀ {y}, y ∈ a :: L.on a → y ∈ (a :: L.on a) ++ (h :: L.on h) := List.mem_append_left _
  have hright : ∀ {y}, y ∈ h :: L.on h → y ∈ (a :: L.on a) ++ (h :: L.on h) :=
    List.mem_append_right _
  exact (Links.SameOn.join_of_mem (hright List.mem_cons_self) (hleft haloop.next_mem) hx).trans
    (Links.SameOn.join_of_mem (hleft haloop.prev_mem) (hright hloop.next_mem) hx)

/-- **`__list_splice`** at the end. -/
theorem _listSplice_last (hs : L.Spelled m) (ha : a ∈ L.heads) (hh : h ∈ L.heads) (hne : a ≠ h)
    (hnil : L.on a ≠ []) : ∃ m', Queue._listSplice a (m.links.prev h) h m = .ok ((), m') ∧
      L.Does [] m ((L.set h (L.on h ++ L.on a)).drop a) m' := by
  have hloop := hs.loop hh
  have haloop := hs.loop ha
  have hdisjoint : (h :: L.on h).Disjoint (L.on a) := fun x hx hxa =>
    hs.apart hh ha hne.symm hx (List.mem_cons_of_mem a hxa)
  refine ⟨_, Queue._listSplice_apply (hs.ne_zero ha List.mem_cons_self)
    (hs.ne_zero hh hloop.prev_mem) (hs.ne_zero hh List.mem_cons_self)
    (hs.ne_zero ha haloop.next_mem) (hs.ne_zero ha haloop.prev_mem),
    hs.change_two ha hh (hloop.splice_last haloop hnil hdisjoint)
      (fun x hx => (List.mem_append.mp hx).symm) fun x hx => ?_⟩
  have hleft : ∀ {y}, y ∈ a :: L.on a → y ∈ (a :: L.on a) ++ (h :: L.on h) := List.mem_append_left _
  have hright : ∀ {y}, y ∈ h :: L.on h → y ∈ (a :: L.on a) ++ (h :: L.on h) :=
    List.mem_append_right _
  exact (Links.SameOn.join_of_mem (hright hloop.prev_mem) (hleft haloop.next_mem) hx).trans
    (Links.SameOn.join_of_mem (hleft haloop.prev_mem) (hright List.mem_cons_self) hx)

theorem drop_off (hs : L.Spelled m) (ha : a ∈ L.heads) (hh : h ∈ L.heads)
    (hin : ∀ x ∈ l, x ∈ L.on a ∨ x ∈ L.on h) : ((L.set h l).drop a).Off a := by
  refine ⟨Finset.notMem_erase a _, fun b hb hmem => ?_⟩
  have hb' := mem_set_heads.mp (Finset.mem_of_mem_erase hb)
  by_cases hbh : b = h
  · subst hbh
    have hon : ((L.set b l).drop a).on b = l := set_on_self L b l
    rw [hon] at hmem
    exact (hin a hmem).elim (hs.head_notMem ha ha) (hs.head_notMem hh ha)
  · have hon : ((L.set h l).drop a).on b = L.on b := set_on_of_ne hbh
    rw [hon] at hmem
    exact hs.head_notMem (hb'.resolve_left hbh) ha hmem

theorem drop_set (L : Lists) (a : ℕ) (l : List ℕ) : (L.drop a).set a l = L.set a l := by
  have hheads : insert a (L.heads.erase a) = insert a L.heads := by
    ext b
    by_cases hb : b = a <;> simp [hb]
  simp [Lists.set, Lists.drop, hheads]

theorem spliced_init (hs : L.Spelled m) (ha : a ∈ L.heads) (hh : h ∈ L.heads)
    (hin : ∀ x ∈ l, x ∈ L.on a ∨ x ∈ L.on h) (hdoes : L.Does [] m ((L.set h l).drop a) m') :
    ∃ m'', Queue.initListHead a m' = .ok ((), m'') ∧ L.Does [] m ((L.set h l).set a []) m'' := by
  obtain ⟨m'', hcall, hdoes'⟩ := hdoes.spelled.initListHead (hs.ne_zero ha List.mem_cons_self)
    (hs.drop_off ha hh hin)
  rw [drop_set] at hdoes'
  have hboth : L.Does [a] m ((L.set h l).set a []) m'' := (hdoes.mono (by simp)).trans hdoes'
  refine ⟨m'', hcall, hboth.mono fun x hx hoff => ?_⟩
  rw [List.mem_singleton.mp hx] at hoff
  exact absurd ha hoff.1

/-- **`list_splice`.** -/
theorem listSplice (hs : L.Spelled m) (ha : a ∈ L.heads) (hh : h ∈ L.heads) (hne : a ≠ h) :
    ∃ m', Queue.listSplice a h m = .ok ((), m') ∧
      L.Does [] m ((ListCall.splice a h).next L) m' := by
  refine hs.unless_empty ha fun hnil => ?_
  obtain ⟨m', hcall, hdoes⟩ := hs._listSplice_first ha hh hne hnil
  have hfirst := Queue.next_apply (hs.ne_zero hh List.mem_cons_self) m
  exact ⟨m', (bind_of_ok hfirst _).trans hcall, hdoes⟩

/-- **`list_splice_tail`.** -/
theorem listSpliceTail (hs : L.Spelled m) (ha : a ∈ L.heads) (hh : h ∈ L.heads) (hne : a ≠ h) :
    ∃ m', Queue.listSpliceTail a h m = .ok ((), m') ∧
      L.Does [] m ((ListCall.spliceTail a h).next L) m' := by
  refine hs.unless_empty ha fun hnil => ?_
  obtain ⟨m', hcall, hdoes⟩ := hs._listSplice_last ha hh hne hnil
  have hlast := Queue.prev_apply (hs.ne_zero hh List.mem_cons_self) m
  exact ⟨m', (bind_of_ok hlast _).trans hcall, hdoes⟩

/-- **`list_splice_init`.** -/
theorem listSpliceInit (hs : L.Spelled m) (ha : a ∈ L.heads) (hh : h ∈ L.heads) (hne : a ≠ h) :
    ∃ m', Queue.listSpliceInit a h m = .ok ((), m') ∧
      L.Does [] m ((ListCall.spliceInit a h).next L) m' := by
  refine hs.unless_empty ha fun hnil => ?_
  obtain ⟨m₁, hcall, hdoes⟩ := hs._listSplice_first ha hh hne hnil
  obtain ⟨m', hcall', hdoes'⟩ := hs.spliced_init ha hh (fun x => List.mem_append.mp) hdoes
  refine ⟨m', ?_, hdoes'⟩
  refine (bind_of_ok (Queue.next_apply (hs.ne_zero hh List.mem_cons_self) m) _).trans ?_
  exact (bind_of_ok hcall _).trans hcall'

/-- **`list_splice_tail_init`.** -/
theorem listSpliceTailInit (hs : L.Spelled m) (ha : a ∈ L.heads) (hh : h ∈ L.heads) (hne : a ≠ h) :
    ∃ m', Queue.listSpliceTailInit a h m = .ok ((), m') ∧
      L.Does [] m ((ListCall.spliceTailInit a h).next L) m' := by
  refine hs.unless_empty ha fun hnil => ?_
  obtain ⟨m₁, hcall, hdoes⟩ := hs._listSplice_last ha hh hne hnil
  obtain ⟨m', hcall', hdoes'⟩ :=
    hs.spliced_init ha hh (fun x hx => (List.mem_append.mp hx).symm) hdoes
  refine ⟨m', ?_, hdoes'⟩
  refine (bind_of_ok (Queue.prev_apply (hs.ne_zero hh List.mem_cons_self) m) _).trans ?_
  exact (bind_of_ok hcall _).trans hcall'

/-! ### Tests and loops -/

/-- **`list_is_last`.** -/
theorem listIsLast (hs : L.Spelled m) (hh : h ∈ L.heads) (he : e ∈ L.on h) :
    Queue.listIsLast e h m = .ok ((L.on h).getLast? == some e, m) := by
  have he0 := hs.ne_zero hh (List.mem_cons_of_mem h he)
  have hloop := hs.loop hh
  obtain ⟨l₁, l₂, hl⟩ := List.append_of_mem he
  rw [hl] at hloop
  have hsame : (m.links.next e == h) = ((L.on h).getLast? == some e) := by
    rw [hl, Bool.eq_iff_iff, beq_iff_eq, beq_iff_eq]
    have hturned := hloop.rotate
    have hhead : h ∉ L.on h := hs.head_notMem hh hh
    have hnodup := (List.nodup_cons.mp hloop.nodup).2
    cases l₂ with
    | nil => simp [hturned.next_head]
    | cons g l₂ =>
      refine iff_of_false (fun heq => hhead ?_) fun hlast => ?_
      · have hg : h = g := heq.symm.trans hturned.next_head
        simp [hl, ← hg]
      · rw [List.getLast?_append_of_ne_nil _ (List.cons_ne_nil e _), List.getLast?_cons_cons]
          at hlast
        have hmem : e ∈ l₁ ++ g :: l₂ := List.mem_append_right _ (List.mem_of_getLast? hlast)
        exact (List.nodup_middle.mp hnodup).notMem hmem
  refine (bind_of_ok (Queue.next_apply he0 m) _).trans ?_
  rw [← hsame]
  rfl

/-- **`list_empty_careful`.** -/
theorem listEmptyCareful (hs : L.Spelled m) (hh : h ∈ L.heads) :
    Queue.listEmptyCareful h m = .ok ((L.on h).isEmpty, m) := by
  have hh0 := hs.ne_zero hh List.mem_cons_self
  have hloop := hs.loop hh
  refine (bind_of_ok (Queue.next_apply hh0 m) _).trans ?_
  by_cases hnil : L.on h = []
  · rw [hnil] at hloop ⊢
    have hnext : (m.links.next h == h) = true := beq_iff_eq.mpr hloop.path.1
    have hprev : (m.links.next h == m.links.prev h) = true :=
      beq_iff_eq.mpr (hloop.path.1.trans hloop.path.2.symm)
    simp only [hnext, if_true]
    refine (bind_of_ok (Queue.prev_apply hh0 m) _).trans ?_
    rw [hprev]
    rfl
  · have hnext : (m.links.next h == h) = false := by
      simpa [hloop.next_eq_iff] using hnil
    have hfalse : (L.on h).isEmpty = false := by simpa using hnil
    simp only [hnext, hfalse]
    rfl

/-- The loop goes over what the link leads through, up to the head. -/
theorem forEachLoop_apply {link : ℕ → Queue.QueueM ℕ} {f : ℕ → ℕ} {m : Memory}
    (hlink : ∀ x, x ≠ 0 → link x m = .ok (f x, m)) (hh : h ≠ 0) : ∀ {l : List ℕ} {fuel pos : ℕ}
      {k : List ℕ}, l ++ [h] = pos :: k → (l ++ [h]).IsChain (fun x y => f x = y) → h ∉ l → 0 ∉ l →
      l.length < fuel → Queue.forEachLoop link h fuel pos m = .ok (l, m)
  | _, 0, _, _, _, _, _, _, hfuel => absurd hfuel (Nat.not_lt_zero _)
  | [], fuel + 1, pos, k, hpos, _, _, _, _ => by
    obtain ⟨rfl, -⟩ := List.cons.inj hpos
    refine (bind_of_ok (hlink h hh) _).trans ?_
    rw [if_pos rfl]
    rfl
  | x :: l, fuel + 1, pos, k, hpos, hchain, hhl, h0, hfuel => by
    obtain ⟨rfl, rfl⟩ := List.cons.inj hpos
    rw [List.mem_cons, not_or] at hhl h0
    have hx0 : x ≠ 0 := Ne.symm h0.1
    obtain ⟨y, k', hk⟩ : ∃ y k, l ++ [h] = y :: k := List.exists_cons_of_ne_nil (by simp)
    have hfx : f x = y := by
      rw [List.cons_append, hk] at hchain
      exact (List.isChain_cons_cons.mp hchain).1
    have hrest : Queue.forEachLoop link h fuel y m = .ok (l, m) :=
      forEachLoop_apply hlink hh hk hchain.tail hhl.2 h0.2 (by simpa using hfuel)
    refine (bind_of_ok (hlink x hx0) _).trans ?_
    rw [if_neg (Ne.symm hhl.1)]
    refine (bind_of_ok (hlink x hx0) _).trans ?_
    rw [hfx]
    exact bind_of_ok hrest _

/-- **`list_for_each`.** -/
theorem forEach (hs : L.Spelled m) (hh : h ∈ L.heads) {fuel : ℕ} (hfuel : (L.on h).length < fuel) :
    Queue.forEach fuel h m = .ok (L.on h, m) := by
  have hh0 := hs.ne_zero hh List.mem_cons_self
  have hloop := hs.loop hh
  obtain ⟨k, hk⟩ := hloop.concat_eq_cons_next
  refine (bind_of_ok (Queue.next_apply hh0 m) _).trans ?_
  exact forEachLoop_apply (fun x hx => Queue.next_apply hx m) hh0 hk
    (hloop.seg_concat.imp fun _ _ hlinked => hlinked.1) (hs.head_notMem hh hh)
    (List.not_mem_of_not_mem_cons (hs.ne_null h hh)) hfuel

/-- **`list_for_each_prev`.** -/
theorem forEachPrev (hs : L.Spelled m) (hh : h ∈ L.heads) {fuel : ℕ}
    (hfuel : (L.on h).length < fuel) :
    Queue.forEachPrev fuel h m = .ok ((L.on h).reverse, m) := by
  have hh0 := hs.ne_zero hh List.mem_cons_self
  have hloop := hs.loop hh
  obtain ⟨k, hk⟩ := hloop.cons_eq_concat_prev
  have hback : (L.on h).reverse ++ [h] = m.links.prev h :: k.reverse := by
    rw [← List.reverse_cons, hk, List.reverse_append]
    rfl
  have hchain : ((L.on h).reverse ++ [h]).IsChain (fun x y => m.links.prev x = y) := by
    rw [← List.reverse_cons, List.isChain_reverse]
    exact hloop.seg.imp fun _ _ hlinked => hlinked.2
  refine (bind_of_ok (Queue.prev_apply hh0 m) _).trans ?_
  exact forEachLoop_apply (fun x hx => Queue.prev_apply hx m) hh0 hback hchain
    (by simpa using hs.head_notMem hh hh)
    (by simpa using List.not_mem_of_not_mem_cons (hs.ne_null h hh)) (by simpa using hfuel)

/-! ### Any calls -/

theorem of_done {x : Queue.QueueM Unit} (hx : ∃ m', x m = .ok ((), m') ∧ L.Does args m L' m')
    (hargs : args ⊆ args') : ∃ m', (do x; return ListReply.done) m = .ok (.done, m') ∧
      L.Does args' m L' m' := by
  obtain ⟨m', hcall, hdoes⟩ := hx
  exact ⟨m', bind_of_ok hcall _, hdoes.mono fun y hy _ => hargs hy⟩

theorem of_reads {α : Type} (hs : L.Spelled m) {x : Queue.QueueM α} {r : α} (hx : x m = .ok (r, m))
    (f : α → ListReply) : ∃ m', (do return f (← x)) m = .ok (f r, m') ∧ L.Does args m L m' :=
  ⟨m, bind_of_ok hx _, Does.refl hs⟩

/-- **One call.** -/
theorem call (hs : L.Spelled m) {c : ListCall} (hc : c.Legal L) :
    ∃ m', c.run m = .ok (c.reply L, m') ∧ L.Does c.nodes m (c.next L) m' := by
  cases c with
  | init h => exact of_done (hs.initListHead hc.1 hc.2) (by simp [ListCall.nodes])
  | add e h => exact of_done (hs.listAdd hc.1 hc.2.1 hc.2.2) (by simp [ListCall.nodes])
  | addTail e h => exact of_done (hs.listAddTail hc.1 hc.2.1 hc.2.2) (by simp [ListCall.nodes])
  | del e => exact of_done (hs.listDel hc) (by simp [ListCall.nodes])
  | delInit e => exact of_done (hs.listDelInit hc) (by simp [ListCall.nodes])
  | replace old e => exact of_done (hs.listReplace hc.1 hc.2.1 hc.2.2) (by simp [ListCall.nodes])
  | replaceInit old e =>
    exact of_done (hs.listReplaceInit hc.1 hc.2.1 hc.2.2) (by simp [ListCall.nodes])
  | move e h => exact of_done (hs.listMove hc.1 hc.2) (by simp [ListCall.nodes])
  | moveTail e h => exact of_done (hs.listMoveTail hc.1 hc.2) (by simp [ListCall.nodes])
  | rotateLeft h => exact of_done (hs.listRotateLeft hc) (List.nil_subset _)
  | cut a h e =>
    exact of_done (hs.listCutPosition hc.1 hc.2.1 hc.2.2.1 hc.2.2.2) (List.nil_subset _)
  | splice a h => exact of_done (hs.listSplice hc.1 hc.2.1 hc.2.2) (List.nil_subset _)
  | spliceTail a h => exact of_done (hs.listSpliceTail hc.1 hc.2.1 hc.2.2) (List.nil_subset _)
  | spliceInit a h => exact of_done (hs.listSpliceInit hc.1 hc.2.1 hc.2.2) (List.nil_subset _)
  | spliceTailInit a h =>
    exact of_done (hs.listSpliceTailInit hc.1 hc.2.1 hc.2.2) (List.nil_subset _)
  | isLast e h => exact hs.of_reads (hs.listIsLast hc.1 hc.2) ListReply.bool
  | empty h => exact hs.of_reads (hs.listEmpty hc) ListReply.bool
  | emptyCareful h => exact hs.of_reads (hs.listEmptyCareful hc) ListReply.bool
  | isSingular h => exact hs.of_reads (hs.listIsSingular hc) ListReply.bool
  | forEach fuel h => exact hs.of_reads (hs.forEach hc.1 hc.2) ListReply.entries
  | forEachPrev fuel h => exact hs.of_reads (hs.forEachPrev hc.1 hc.2) ListReply.entries

/-- **Calls one after another**, by induction. -/
theorem calls {cs : List ListCall} (hs : L.Spelled m) (hcs : ListCall.LegalAll L cs) :
    ∃ m', ListCall.runAll cs m = .ok (ListCall.replies L cs, m') ∧
      L.Does (cs.flatMap ListCall.nodes) m (ListCall.after L cs) m' := by
  induction cs generalizing L m with
  | nil => exact ⟨m, rfl, Does.refl hs⟩
  | cons c cs ih =>
    obtain ⟨hc, hrest⟩ := hcs
    obtain ⟨m₁, hcall, hdoes⟩ := hs.call hc
    obtain ⟨m', hcalls, hdoes'⟩ := ih hdoes.spelled hrest
    have hfirst : L.Does ((c :: cs).flatMap ListCall.nodes) m (c.next L) m₁ :=
      hdoes.mono fun x hx _ => List.mem_append_left _ hx
    have hothers : (c.next L).Does ((c :: cs).flatMap ListCall.nodes) m₁
        (ListCall.after (c.next L) cs) m' :=
      hdoes'.mono fun x hx _ => List.mem_append_right _ hx
    exact ⟨m', (bind_of_ok hcall _).trans (bind_of_ok hcalls _), hfirst.trans hothers⟩

end Spelled

theorem spelled_none (m : Memory) : none.Spelled m :=
  ⟨⟨by simp [none], by simp [none]⟩, by simp [none]⟩

end Lists

/-- **The list functions do what they are for**, on any lists in any memory and in any order. No
call goes through a null pointer, each returns what the lists say, the links spell out the lists
that the calls make, and a node that no call is given is not written. -/
theorem lists_faithful {cs : List ListCall} (hcs : ListCall.LegalAll Lists.none cs)
    (m₀ : Queue.Memory) : ∃ m, ListCall.runAll cs m₀ = .ok (ListCall.replies Lists.none cs, m) ∧
      (ListCall.after Lists.none cs).Spelled m ∧ m.mutex = m₀.mutex ∧
      ∀ x, (∀ c ∈ cs, x ∉ c.nodes) → m₀.links.SameOn m.links [x] := by
  obtain ⟨m, hrun, hdoes⟩ := (Lists.spelled_none m₀).calls hcs
  refine ⟨m, hrun, hdoes.spelled, hdoes.mutex, fun x hx => (hdoes.frame x ?_ ?_).1⟩
  · simpa using hx
  · simp [Lists.Off, Lists.none]

/-- A list is cut, one part is put behind the other, and an entry is replaced. -/
theorem lists_faithful_cut : ∃ m, ListCall.runAll [.init 64, .init 128, .addTail 192 64,
      .addTail 224 64, .cut 128 64 192, .spliceTailInit 128 64, .replace 192 256, .forEachPrev 5 64,
      .empty 128] usedMemory =
    .ok ([.done, .done, .done, .done, .done, .done, .done, .entries [256, 224],
      .bool true], m) := by
  have hlegal : ListCall.LegalAll Lists.none [.init 64, .init 128, .addTail 192 64, .addTail 224 64,
      .cut 128 64 192, .spliceTailInit 128 64, .replace 192 256, .forEachPrev 5 64,
        .empty 128] := by
    decide +kernel
  obtain ⟨m, hrun, -⟩ := lists_faithful hlegal usedMemory
  exact ⟨m, hrun⟩

end Milu
