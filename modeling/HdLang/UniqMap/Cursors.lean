import HdLang.UniqMap.Operations

/-!
# Cursors

A cursor stands before the slots it has not passed. `Steps Before next` says what every cursor here
does: with the entries `l` before it, `next` gives the first of them, if any, and has the others before
it. So `count` calls give the first `count`, and nothing once they are over.
-/

namespace HdLang.UniqMap

open AssocList Ensures List Nat

variable {K V : Type} {E : Stop → Prop}

/-- What `next` gives is the first of the entries before the cursor. -/
def Steps (E : Stop → Prop) (Before : ℕ → List (K × V) → World K V → Prop)
    (next : ℕ → Code K V (Option (K × V) × ℕ)) : Prop :=
  ∀ index l world, Before index l world → Ensures E (next index)
    (fun r after => r.1 = l.head? ∧ Before r.2 l.tail after) world

variable {Before : ℕ → List (K × V) → World K V → Prop} {world : World K V} {l : List (K × V)}

theorem ensures_nexts {next : ℕ → Code K V (Option (K × V) × ℕ)} (hnext : Steps E Before next)
    {count index : ℕ} (h : Before index l world) :
    Ensures E (nexts next count index)
      (fun r after => r.1 = firsts count l ∧ Before r.2 (l.drop count) after) world := by
  induction count generalizing index l world with
  | zero => exact pure_iff.mpr ⟨rfl, h⟩
  | succ count ih =>
    rw [nexts, bind_iff]
    refine (hnext index l world h).mono fun r after ⟨hr, hbefore⟩ => ?_
    rw [bind_iff]
    refine (ih hbefore).mono fun r' after' ⟨hr', hbefore'⟩ => pure_iff.mpr ⟨?_, ?_⟩
    · rw [firsts, hr, hr']
    · rwa [drop_tail] at hbefore'

/-- A loop over slots is such a `next` when its body passes deleted slots and returns the entry of an
occupied one. -/
theorem steps_scan {bound : World K V → ℕ} {body : ℕ → Code K V (Option (K × V))} {n turns : ℕ}
    (hbound : ∀ i l world, Before i l world → bound world = n ∧ i ≤ n)
    (hbody : ∀ i l world, i < n → Before i l world → Ensures E (body i) (fun r after =>
      r = none ∧ Before (i + 1) l after ∨ r = l.head? ∧ l ≠ [] ∧ Before (i + 1) l.tail after) world)
    (hdone : ∀ l world, Before n l world → l = []) (hturns : n < turns) :
    Steps E Before (scan .diverges bound body turns) := by
  intro index l world h
  refine ensures_scan (fun i => Before i l) (fun i w hw => (hbound i l w hw).1)
    (fun i w hi hw => ?_) (fun w hw => ?_) (by omega) (hbound index l world h).2 h
  · refine (hbody i l w hi hw).mono fun r after hr => ?_
    rcases hr with ⟨rfl, hafter⟩ | ⟨rfl, hne, hafter⟩
    · exact ⟨fun _ hsome => (nomatch hsome), fun _ => hafter⟩
    · refine ⟨fun a ha => ⟨ha.symm, hafter⟩, fun hnone => ?_⟩
      exact absurd (List.head?_eq_none_iff.mp hnone) hne
  · obtain rfl := hdone l w hw
    exact ⟨rfl, hw⟩

section Walks

variable {t : List (UniqMapSlot K V)} {i : ℕ}

/-- The slot at `i` and what is live from there on. -/
theorem live_drop (hi : i < t.length) :
    ∃ slot, t[i]? = some slot ∧ live (t.drop i) = slot.entry.toList ++ live (t.drop (i + 1)) := by
  refine ⟨t[i], List.getElem?_eq_getElem hi, ?_⟩
  rw [drop_eq_getElem_cons hi]
  cases t[i] <;> rfl

variable [BEq K] {platform : Platform} {keys : Keys K}

/-- A `UniqMapIter` at `i` leaves the map as it is. -/
structure Borrows (start : World K V) (t : List (UniqMapSlot K V)) (i : ℕ) (l : List (K × V))
    (world : World K V) : Prop where
  same : world = start
  index : i ≤ t.length
  live : live (t.drop i) = l

theorem Holds.steps_iterNext (h : Holds platform keys world.map t) :
    Steps E (Borrows world t) iterNext := by
  intro index l after hafter
  have hused : after.map.used = t.length := hafter.same ▸ h.used
  rw [iterNext, overUsed, bind_iff, get_iff, hused]
  refine steps_scan (n := t.length) (fun i l w hw => ?_) (fun i l w hi hw => ?_) (fun l w hw => ?_)
    (lt_succ_self _) index l after hafter
  · exact ⟨hw.same ▸ h.used, hw.index⟩
  · obtain ⟨rfl, -, rfl⟩ := hw
    obtain ⟨slot, hslot, hlive⟩ := live_drop hi
    have hlt : i < w.map.entryCapacity := hi.trans_le h.room
    rw [bind_iff, ensures_asRef hlt (hlt.trans_le h.shape.slots_le) (h.slots i slot hslot), hlive]
    cases slot with
    | deleted => exact pure_iff.mpr (.inl ⟨rfl, rfl, hi, rfl⟩)
    | occupied hash key value =>
      exact pure_iff.mpr (.inr ⟨rfl, cons_ne_nil _ _, rfl, hi, rfl⟩)
  · have hlive := hw.live
    rw [drop_length] at hlive
    exact hlive.symm

/-- What a `UniqMapDrain` at `i` has not moved out yet. -/
structure Drains (start : World K V) (t : List (UniqMapSlot K V)) (i : ℕ) (l : List (K × V))
    (world : World K V) : Prop where
  rest : Rest world.map t i
  index : i ≤ t.length
  live : live (t.drop i) = l
  map : world.map = { start.map with slots := world.map.slots }
  dropped : world.dropped = start.dropped

omit [BEq K] in
theorem steps_drainNext {start : World K V} :
    Steps E (Drains start t) (drainNext t.length) := by
  refine steps_scan (n := t.length) (fun i l w hw => ⟨rfl, hw.index⟩) (fun i l w hi hw => ?_)
    (fun l w hw => ?_) (lt_succ_self _)
  · obtain ⟨hrest, -, rfl, hmap, hdropped⟩ := hw
    obtain ⟨slot, hslot, hlive⟩ := live_drop hi
    rw [bind_iff, hlive]
    refine hrest.read hslot fun after hrest' hdropped' hmap' => ?_
    have hmap'' : after.map = { start.map with slots := after.map.slots } := by rw [hmap', hmap]
    cases slot with
    | deleted =>
      exact pure_iff.mpr (.inl ⟨rfl, hrest', hi, rfl, hmap'', hdropped'.trans hdropped⟩)
    | occupied hash key value =>
      exact pure_iff.mpr (.inr ⟨rfl, cons_ne_nil _ _, hrest', hi, rfl, hmap'',
        hdropped'.trans hdropped⟩)
  · have hlive := hw.live
    rw [drop_length] at hlive
    exact hlive.symm

/-- A `UniqMapIntoIter` at `i` leaves deleted slots behind. -/
structure Consumes (platform : Platform) (keys : Keys K) (start : World K V) (n i : ℕ)
    (l : List (K × V)) (world : World K V) : Prop where
  table : ∃ passed rest, Holds platform keys world.map (passed ++ rest) ∧ passed.length = i ∧
    (passed ++ rest).length = n ∧ live passed = [] ∧ live rest = l
  dropped : world.dropped = start.dropped

theorem steps_intoIterNext {start : World K V} {n : ℕ} :
    Steps E (Consumes platform keys start n) (intoIterNext platform) := by
  intro index l world hworld
  obtain ⟨⟨passed, rest, hholds, -, hn, -, -⟩, -⟩ := id hworld
  rw [intoIterNext, overUsed, bind_iff, get_iff, hholds.used, hn]
  refine steps_scan (n := n) (fun i l w hw => ?_) (fun i l w hi hw => ?_) (fun l w hw => ?_)
    (lt_succ_self _) index l world hworld
  · obtain ⟨⟨passed, rest, hholds, rfl, rfl, -, -⟩, -⟩ := hw
    exact ⟨hholds.used, by rw [length_append]; exact le_add_right _ _⟩
  · obtain ⟨⟨passed, rest, hholds, rfl, rfl, hpassed, rfl⟩, hdropped⟩ := hw
    cases rest with
    | nil =>
      rw [append_nil] at hi
      exact absurd hi (lt_irrefl _)
    | cons slot rest =>
      have hnext : ∀ map : UniqMap K V, Holds platform keys map (passed ++ .deleted :: rest) →
          ∀ asked, Consumes platform keys start (passed ++ slot :: rest).length (passed.length + 1)
            (live rest) ⟨map, w.dropped, asked⟩ := by
        intro map hmap asked
        refine ⟨⟨passed ++ [.deleted], rest, ?_, length_append, ?_, ?_, rfl⟩, hdropped⟩
        · rw [append_assoc]
          exact hmap
        · simp only [length_append, length_cons, length_nil]
          omega
        · rw [live_append, hpassed]
          rfl
      rw [bind_iff, ensures_read hholds.lt_capacity hholds.lt_slotCount hholds.slot_eq]
      cases slot with
      | deleted =>
        rw [bind_iff]
        refine (ensures_write (by exact hholds.lt_capacity) (by exact hholds.lt_slotCount)).mpr ?_
        refine pure_iff.mpr (.inl ⟨rfl, hnext _ ?_ _⟩)
        simp only [Function.update_idem]
        exact hholds.set _ hholds.size (fun _ _ hhome => hhome) fun _ _ _ heq => by cases heq
      | occupied hash key value =>
        obtain ⟨hsize, hdelete⟩ := hholds.delete
        rw [bind_iff]
        refine (ensures_write (by exact hholds.lt_capacity) (by exact hholds.lt_slotCount)).mpr ?_
        rw [bind_iff, get_iff, minus_eq (by exact hsize), pure_bind, bind_iff, ensures_change]
        refine pure_iff.mpr (.inr ⟨rfl, cons_ne_nil _ _, hnext _ ?_ _⟩)
        simp only [Function.update_idem]
        exact hdelete
  · obtain ⟨⟨passed, rest, -, hlength, hall, -, rfl⟩, -⟩ := hw
    rw [length_append, hlength] at hall
    rw [eq_nil_of_length_eq_zero (by omega : rest.length = 0), live_nil]

end Walks

/-! ### The operations with cursors -/

variable [BEq K] {platform : Platform} {keys : Keys K} {dropped : List V}

namespace Stands

variable (h : Stands platform keys l dropped world)

include h

theorem iter {count : ℕ} : Ensures E (do return (← nexts iterNext count 0).1)
    (fun r after => r = firsts count l ∧ after = world) world := by
  obtain ⟨t, hholds, rfl⟩ := h.table
  rw [bind_iff]
  refine (ensures_nexts hholds.steps_iterNext ⟨rfl, zero_le _, rfl⟩).mono fun r after hr => ?_
  exact pure_iff.mpr ⟨hr.1, hr.2.same⟩

/-- A drained map is empty, and what the cursor did not give is dropped. -/
theorem drain {count : ℕ} : Ensures E (drain platform count) (fun r after => r = firsts count l ∧
    Stands platform keys [] (dropped ++ values (l.drop count)) after) world := by
  obtain ⟨t, hholds, rfl⟩ := h.table
  have hsmall := hholds.shape.small
  rw [UniqMap.drain, bind_iff, get_iff, hholds.used, bind_iff, ensures_change, bind_iff]
  refine (ensures_nexts steps_drainNext (l := live t) ⟨?_, zero_le _, rfl, rfl, rfl⟩).mono
    fun r after hr => ?_
  · exact ⟨hholds.room, hholds.shape.slots_le, fun j slot _ hslot => hholds.slots j slot hslot⟩
  obtain ⟨hr, hrest, hindex, hlive, hmap, hdropped⟩ := hr
  rw [bind_iff, drainDrop, bind_iff]
  refine (hrest.dropAll hindex fun _ _ => rfl).mono fun _ after' hafter' => ?_
  obtain ⟨hmap', hdropped'⟩ := hafter'
  have hall : after'.map = { world.map with slots := after'.map.slots, size := 0, used := 0 } := by
    rw [hmap', hmap]
  have hcap : after'.map.entryCapacity = world.map.entryCapacity := by rw [hall]
  have hcount : after'.map.slotCount = world.map.slotCount := by rw [hall]
  have hbytes : world.map.entryCapacity * 2 * WORD < USIZE := by
    unfold ROOM at hsmall
    unfold WORD USIZE
    omega
  rw [bind_iff, get_iff, hcap, times_capacity hholds.shape, pure_bind, times_eq hbytes, pure_bind]
  simp only [fillIndex, bind_iff, get_iff, hcap, hcount, hholds.shape.enough, if_true,
    ensures_change, pure_iff]
  refine ⟨hr, ⟨[], ⟨?_, ?_, zero_le _, ?_, fun _ _ hslot => (by cases hslot),
    fun _ _ _ hmem => (by cases hmem), ?_⟩, rfl⟩, ?_⟩
  · exact hholds.shape
  · rw [hall]
    rfl
  · rw [hall]
    rfl
  · refine (Probe.Index.empty fun i hi => ?_).forget fun _ _ hhome => by cases hhome
    exact if_pos (mul_lt_mul_of_pos_right hi (by decide))
  · rw [hdropped', hdropped, hlive]
    exact congrArg (· ++ _) h.dropped

end Stands

end HdLang.UniqMap
