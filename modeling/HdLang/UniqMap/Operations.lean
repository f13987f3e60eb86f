import HdLang.UniqMap.Growing
import HdLang.UniqMap.Spec

/-!
# The operations on entries

Each operation on a map that stands for an association list replies what the list's operation does,
and leaves the map standing for the list after it.
-/

namespace HdLang.UniqMap

open AssocList Function Ensures UniqMap Nat

variable {K V : Type} [BEq K] {platform : Platform} {keys : Keys K} {world : World K V}
  {E : Stop → Prop} {l : List (K × V)} {dropped : List V} {key : K} {value : V}

/-- The map is one of the entries `l`, and `dropped` are the values dropped so far. -/
structure Stands (platform : Platform) (keys : Keys K) (l : List (K × V)) (dropped : List V)
    (world : World K V) : Prop where
  table : ∃ t, Holds platform keys world.map t ∧ live t = l
  dropped : world.dropped = dropped

namespace Holds

variable {map : UniqMap K V} {t before after : List (UniqMapSlot K V)} {hash : ℕ} {k : K}
  {old : V}

theorem revalue (new : V) (h : Holds platform keys map (before ++ .occupied hash k old :: after)) :
    Holds platform keys { map with
      slots := Function.update map.slots before.length (some (.occupied hash k new)) }
      (before ++ .occupied hash k new :: after) := by
  refine h.set map.size ?_ (fun _ _ hhome => hhome) fun hash' k' value' heq => ?_
  · rw [h.size, live_append, live_append, List.length_append, List.length_append]
    rfl
  · obtain ⟨rfl, rfl, rfl⟩ := UniqMapSlot.occupied.inj heq
    exact h.hashes hash k old (List.mem_append_right _ List.mem_cons_self)

theorem delete (h : Holds platform keys map (before ++ .occupied hash k old :: after)) :
    0 < map.size ∧ Holds platform keys { map with
      slots := Function.update map.slots before.length (some .deleted)
      size := map.size - 1 } (before ++ .deleted :: after) := by
  have hsize : map.size = (live (before ++ .deleted :: after)).length + 1 := by
    rw [h.size, live_append, live_append, List.length_append, List.length_append,
      live_cons_occupied, live_cons_deleted, List.length_cons, add_assoc]
  exact ⟨by omega, h.set (map.size - 1) (by omega) (fun _ _ hhome => (nomatch hhome)) fun _ _ _ heq => nomatch heq⟩

theorem discard (h : Holds platform keys world.map (before ++ .occupied hash k old :: after)) :
    Ensures E (discard platform before.length) (fun _ world' =>
      Holds platform keys world'.map (before ++ .deleted :: after) ∧
        world'.dropped = world.dropped ++ [old]) world := by
  obtain ⟨hsize, hdelete⟩ := h.delete
  rw [UniqMap.discard, bind_iff, ensures_read h.lt_capacity h.lt_slotCount h.slot_eq, bind_iff]
  refine ensures_dropValue.mpr ?_
  rw [bind_iff]
  refine (ensures_write (by exact h.lt_capacity) (by exact h.lt_slotCount)).mpr ?_
  rw [bind_iff, get_iff, minus_eq (by exact hsize), pure_bind, ensures_change]
  simp only [update_idem]
  exact ⟨hdelete, trivial⟩

theorem insertEntry (h : Holds platform keys world.map t)
    (hroom : t.length < world.map.entryCapacity) :
    Ensures E (insertEntry platform keys key value) (fun r after => r = lookup key (live t) ∧
      Stands platform keys (AssocList.insert key value (live t)) world.dropped after) world := by
  have hsmall := h.shape.small
  have hpos : world.map.entryCapacity ≠ 0 := by omega
  have hlive : (live t).length ≤ t.length := List.length_filterMap_le _ _
  have hone : ∀ n ≤ t.length, n + 1 < USIZE := fun n hn => by
    unfold ROOM at hsmall
    unfold USIZE
    omega
  rw [UniqMap.insertEntry, bind_iff, get_iff, times_capacity h.shape, pure_bind]
  dsimp only
  rw [bind_iff, ensures_start h.shape hpos]
  refine h.probe hpos rfl (fun d hd hfree hpath hmiss => ?_) (fun before k old after ht hsplits => ?_)
  · -- a new entry, at the end of the table
    have hin := Probe.place_lt (hashOf keys key % (world.map.entryCapacity * 2)) d
      (zero_lt_of_lt hd)
    rw [bind_iff, get_iff, h.used, bind_iff, ensures_write hroom (hroom.trans_le h.shape.slots_le),
      plus_eq (hone _ (le_refl _)),
      pure_bind, bind_iff, ensures_change, bind_iff]
    refine (ensures_setIndex (by exact h.shape) (by exact hin) (hone _ (le_refl _))).mpr ?_
    rw [bind_iff, get_iff]
    simp only [h.size]
    rw [plus_eq (hone _ hlive), pure_bind, bind_iff, ensures_change, pure_iff, lookup_of_miss hmiss,
      insert_of_miss hmiss]
    exact ⟨rfl, ⟨_, h.push hroom rfl hd hfree hpath, live_append⟩, rfl⟩
  · -- an entry for the key gets the value
    subst ht
    rw [bind_iff, ensures_read h.lt_capacity h.lt_slotCount h.slot_eq, bind_iff]
    refine (ensures_write (by exact h.lt_capacity) (by exact h.lt_slotCount)).mpr ?_
    rw [pure_iff, hsplits.lookup_eq, hsplits.insert_eq]
    refine ⟨rfl, ⟨before ++ .occupied (hashOf keys key) k value :: after, ?_, ?_⟩, rfl⟩
    · simp only [update_idem]
      exact h.revalue _
    · rw [live_append, live_cons_occupied]

end Holds

namespace Stands

variable (h : Stands platform keys l dropped world)

include h

theorem findIndex : Ensures E (findIndex platform keys key)
    (fun r after => after = world ∧ r.isSome = (lookup key l).isSome) world := by
  obtain ⟨t, hholds, rfl⟩ := h.table
  refine hholds.findIndex.mono fun r after ⟨hafter, hfound⟩ => ⟨hafter, ?_⟩
  cases hfound with
  | none hmiss => rw [lookup_of_miss hmiss]; rfl
  | some _ hsplits => rw [hsplits.lookup_eq]; rfl

theorem containsKey : Ensures E (containsKey platform keys key)
    (fun r after => after = world ∧ r = (lookup key l).isSome) world := by
  rw [UniqMap.containsKey, bind_iff]
  exact h.findIndex.mono fun r after hr => pure_iff.mpr hr

theorem getRef : Ensures E (getRef platform keys key)
    (fun r after => after = world ∧ r = lookup key l) world := by
  obtain ⟨t, hholds, rfl⟩ := h.table
  rw [getRef, bind_iff]
  refine hholds.findIndex.mono fun r after ⟨hafter, hfound⟩ => ?_
  subst hafter
  cases hfound with
  | none hmiss => exact pure_iff.mpr ⟨rfl, (lookup_of_miss hmiss).symm⟩
  | some ht hsplits =>
    subst ht
    rw [bind_iff, hholds.asRef]
    exact pure_iff.mpr ⟨rfl, hsplits.lookup_eq.symm⟩

theorem getMut {f : V → V} : Ensures E (getMut platform keys key f)
    (fun r after => Reply.value r = ((Op.getMut key f).effect l).reply ∧
      Stands platform keys ((Op.getMut key f).effect l).entries dropped after) world := by
  obtain ⟨t, hholds, rfl⟩ := h.table
  rw [getMut, bind_iff]
  refine hholds.findIndex.mono fun r after ⟨hafter, hfound⟩ => ?_
  subst hafter
  cases hfound with
  | none hmiss =>
    simp only [Op.effect, lookup_of_miss hmiss]
    exact pure_iff.mpr ⟨rfl, h⟩
  | some ht hsplits =>
    subst ht
    simp only [Op.effect, hsplits.lookup_eq]
    rw [bind_iff, hholds.asRef, bind_iff, ensures_write hholds.lt_capacity hholds.lt_slotCount,
      pure_iff, hsplits.replace_eq]
    exact ⟨rfl, ⟨_, hholds.revalue _, live_append⟩, h.dropped⟩

theorem insert : Ensures Exhausted (insert platform keys key value)
    (fun r after => r = lookup key l ∧
      Stands platform keys (AssocList.insert key value l) dropped after) world := by
  obtain ⟨t, hholds, rfl⟩ := h.table
  have hroomy : ∀ world' : World K V, world'.dropped = world.dropped →
      (∃ t', Holds platform keys world'.map t' ∧ live t' = live t ∧
        t'.length < world'.map.entryCapacity) →
      Ensures Exhausted (insertEntry platform keys key value)
        (fun r after => r = lookup key (live t) ∧
          Stands platform keys (AssocList.insert key value (live t)) dropped after) world' := by
    rintro world' hdropped ⟨t', hholds', hlive, hroom⟩
    rw [← hlive, ← h.dropped, ← hdropped]
    exact hholds'.insertEntry hroom
  rw [insert, bind_iff, get_iff]
  simp only [ite_iff, bind_iff]
  refine ⟨fun hfull => ?_, fun hfull => ?_⟩
  · exact (hholds.grow hfull).mono fun _ after hafter => hroomy after hafter.1 hafter.2
  · refine hroomy world rfl ⟨t, hholds, rfl, ?_⟩
    exact lt_of_le_of_ne hholds.room (hholds.used ▸ hfull)

/-- `_ := self.insert(key, value)` drops the value that it replaces. -/
theorem put : Ensures Exhausted (put platform keys key value)
    (fun _ after => Stands platform keys (AssocList.insert key value l)
      (dropped ++ (lookup key l).toList) after) world := by
  rw [UniqMap.put, bind_iff]
  refine h.insert.mono fun r after ⟨hr, hafter⟩ => ?_
  subst hr
  cases lookup key l with
  | none =>
    rw [pure_iff, Option.toList_none, List.append_nil]
    exact hafter
  | some old =>
    rw [ensures_dropValue, Option.toList_some]
    exact ⟨hafter.table, congrArg (· ++ [old]) hafter.dropped⟩

theorem getOrInsert {default : V} {f : V → V} :
    Ensures Exhausted (getOrInsert platform keys key default f)
      (fun r after => Reply.value (some r) = ((Op.getOrInsert key default f).effect l).reply ∧
        Stands platform keys ((Op.getOrInsert key default f).effect l).entries
          (dropped ++ ((Op.getOrInsert key default f).effect l).dropped) after) world := by
  rw [UniqMap.getOrInsert, bind_iff]
  refine h.findIndex.mono ?_
  rintro index world' ⟨rfl, hfound⟩
  rcases hvalue : lookup key l with _ | old
  · rw [hvalue] at hfound
    have hnone : index.isNone = true := by
      cases index with
      | none => rfl
      | some _ => cases hfound
    have hmiss : ∀ entry ∈ l, matching key entry = false := by
      rcases splits_or key l with hmiss | ⟨before, k, old, after, hsplits⟩
      · exact hmiss
      · cases hvalue.symm.trans hsplits.lookup_eq
    -- the entry just put in is the first for its key
    have hnew : Splits key (l ++ [(key, default)]) l key default [] := ⟨rfl, keys.refl key, hmiss⟩
    simp only [Op.effect, hvalue]
    rw [if_pos hnone, bind_iff]
    refine h.put.mono fun _ after hafter => ?_
    rw [hvalue, Option.toList_none, List.append_nil, insert_of_miss hmiss] at hafter
    rw [bind_iff]
    refine hafter.getMut.mono fun r after' hr => ?_
    simp only [Op.effect, hnew.lookup_eq, hnew.replace_eq] at hr
    obtain ⟨hreply, hstands⟩ := hr
    obtain rfl := Reply.value.inj hreply
    rw [List.append_nil]
    exact pure_iff.mpr ⟨rfl, hstands⟩
  · rw [hvalue] at hfound
    have hsome : ¬index.isNone = true := by
      cases index with
      | none => cases hfound
      | some _ => exact Bool.false_ne_true
    simp only [Op.effect, hvalue]
    rw [if_neg hsome, bind_iff, ensures_dropValue, bind_iff]
    have hdefault : Stands platform keys l (dropped ++ [default])
        { world' with dropped := world'.dropped ++ [default] } :=
      ⟨h.table, congrArg (· ++ [default]) h.dropped⟩
    refine hdefault.getMut.mono fun r after' hr => ?_
    simp only [Op.effect, hvalue] at hr
    obtain ⟨hreply, hstands⟩ := hr
    obtain rfl := Reply.value.inj hreply
    exact pure_iff.mpr ⟨rfl, hstands⟩

theorem remove : Ensures E (remove platform keys key)
    (fun r after => r = lookup key l ∧ Stands platform keys (erase key l) dropped after) world := by
  obtain ⟨t, hholds, rfl⟩ := h.table
  rw [remove, bind_iff]
  refine hholds.findIndex.mono fun r after ⟨hafter, hfound⟩ => ?_
  subst hafter
  cases hfound with
  | none hmiss =>
    have herase : erase key (live t) = live t := List.eraseP_of_forall_not fun entry hentry => by
      rw [hmiss entry hentry]
      exact Bool.false_ne_true
    rw [herase, lookup_of_miss hmiss]
    exact pure_iff.mpr ⟨rfl, h⟩
  | @some before hash k old rest ht hsplits =>
    subst ht
    obtain ⟨hsize, hdelete⟩ := hholds.delete
    rw [bind_iff, ensures_read hholds.lt_capacity hholds.lt_slotCount hholds.slot_eq, bind_iff]
    refine (ensures_write (by exact hholds.lt_capacity) (by exact hholds.lt_slotCount)).mpr ?_
    rw [bind_iff, get_iff, minus_eq (by exact hsize), pure_bind, bind_iff, ensures_change, pure_iff,
      hsplits.lookup_eq, hsplits.erase_eq]
    refine ⟨rfl, ⟨before ++ .deleted :: rest, ?_, live_append⟩, h.dropped⟩
    simp only [update_idem]
    exact hdelete

theorem extend (other : List (K × V)) : Ensures Exhausted (extend platform keys other)
    (fun _ after => Stands platform keys (extended other l) (dropped ++ replaced other l) after)
    world := by
  induction other generalizing l dropped world with
  | nil =>
    rw [extend, pure_iff, extended, replaced, List.append_nil]
    exact h
  | cons entry other ih =>
    obtain ⟨key, value⟩ := entry
    rw [extend, bind_iff, extended, replaced, ← List.append_assoc]
    exact h.put.mono fun _ after hafter => ih hafter

/-- `reserve` changes where the entries are, and nothing else. -/
theorem reserve {additional : ℕ} : Ensures Exhausted (reserve platform additional)
    (fun _ after => Stands platform keys l dropped after) world := by
  obtain ⟨t, hholds, rfl⟩ := h.table
  have hused := hholds.used
  have hroom := hholds.room
  have hlive : (live t).length ≤ t.length := List.length_filterMap_le _ _
  simp only [reserve, capacitySum, bind_iff, get_iff, ite_iff, pure_iff, throw_iff]
  refine ⟨fun _ => ?_, fun _ => ⟨_, rfl⟩⟩
  rw [minus_eq (by omega), pure_iff]
  refine ⟨fun _ => h, fun _ => ?_⟩
  refine (ensures_withCapacity keys).mono fun next after hr => ?_
  obtain ⟨hnext, hcap, hmap, hdropped⟩ := hr
  have hfits : (live t).length ≤ next.entryCapacity := by
    refine le_trans ?_ hcap
    split <;> omega
  refine ((hmap ▸ hholds).rehash hnext hfits).mono fun _ after' hr => ?_
  obtain ⟨hdropped', -, t', hholds', hlive', -⟩ := hr
  exact ⟨⟨t', hholds', hlive'⟩, hdropped'.trans (hdropped.trans h.dropped)⟩

theorem clear : Ensures Exhausted (clear platform)
    (fun _ after => Stands platform keys [] (dropped ++ values l) after) world := by
  obtain ⟨t, hholds, rfl⟩ := h.table
  have hsmall : world.map.entryCapacity * 2 * WORD + platform.slotBytes < USIZE :=
    hholds.shape.allocatable.2
  rw [clear, bind_iff, get_iff, bind_iff]
  refine (ensures_allocate keys hholds.shape.power hsmall).mono fun next after hr => ?_
  obtain ⟨hnext, -, hmap, hdropped⟩ := hr
  have hrest : Rest after.map t 0 := by
    rw [hmap]
    exact hholds.rest 0
  refine (ensures_assign hrest (by rw [hmap]; exact hholds.used)).mono fun _ after' hr => ?_
  obtain ⟨hmap', hdropped'⟩ := hr
  refine ⟨⟨[], hmap' ▸ hnext, rfl⟩, ?_⟩
  rw [hdropped', hdropped, h.dropped]

end Stands

/-! ### Retaining -/

/-- The loop of `retain` leaves the slots before `done.length` as it made them. -/
theorem Holds.retainFrom {keep : ℕ → K → V → Bool × V} (calls : List (K × V))
    (done rest : List (UniqMapSlot K V)) {turns : ℕ} (h : Holds platform keys world.map (done ++ rest))
    (hturns : rest.length < turns) :
    Ensures E (retainFrom platform keep turns calls done.length) (fun r after =>
      r = calls ++ live rest ∧ Stands platform keys (live done ++ kept keep calls.length (live rest))
        (world.dropped ++ refused keep calls.length (live rest)) after) world := by
  induction rest generalizing turns done calls world with
  | nil =>
    obtain ⟨turns, rfl⟩ := exists_eq_succ_of_ne_zero (ne_of_gt hturns)
    rw [List.append_nil] at h
    rw [retainFrom, bind_iff, get_iff, h.used, if_neg (lt_irrefl _), pure_iff, live_nil, kept,
      refused, List.append_nil, List.append_nil, List.append_nil]
    exact ⟨rfl, ⟨done, h, rfl⟩, rfl⟩
  | cons slot rest ih =>
    obtain ⟨turns, rfl⟩ := exists_eq_succ_of_ne_zero (ne_of_gt (zero_lt_of_lt hturns))
    rw [List.length_cons] at hturns
    have hlt : done.length < world.map.used := by
      rw [h.used, List.length_append, List.length_cons]
      omega
    have hmove : ∀ {map : UniqMap K V} {slot' : UniqMapSlot K V},
        Holds platform keys map (done ++ slot' :: rest) →
          Holds platform keys map ((done ++ [slot']) ++ rest) := by
      intro map slot' hslot
      rw [List.append_assoc]
      exact hslot
    have hsucc : ∀ slot' : UniqMapSlot K V, done.length + 1 = (done ++ [slot']).length :=
      fun slot' => by rw [List.length_append]; rfl
    rw [retainFrom, bind_iff, get_iff, if_pos hlt, bind_iff, h.asRef]
    cases slot with
    | deleted =>
      refine Ensures.mono (hsucc .deleted ▸ ih _ _ (hmove h) (by omega)) fun r after hr => ?_
      rw [live_append, live_cons_deleted, live_nil, List.append_nil] at hr
      exact hr
    | occupied hash key value =>
      rw [live_cons_occupied, kept, refused]
      rcases hkeep : keep calls.length key value with ⟨accepted, value'⟩
      have hcalls : (calls ++ [(key, value)]).length = calls.length + 1 := List.length_append
      simp only [hkeep, bind_iff]
      rw [ensures_write h.lt_capacity h.lt_slotCount, ite_iff]
      have hvalue := h.revalue value'
      refine ⟨fun hrefuse => ?_, fun haccept => ?_⟩
      · obtain rfl : accepted = false := by simpa using hrefuse
        rw [bind_iff]
        refine Ensures.mono (Holds.discard (by exact hvalue)) fun _ after hr => ?_
        obtain ⟨hholds, hdropped⟩ := hr
        refine Ensures.mono (hsucc .deleted ▸ ih _ _ (hmove hholds) (by omega)) fun r after' hr => ?_
        rw [hcalls, live_append, live_cons_deleted, live_nil, List.append_nil, List.append_assoc,
          hdropped, List.append_assoc] at hr
        exact hr
      · obtain rfl : accepted = true := by simpa using haccept
        refine Ensures.mono (hsucc (.occupied hash key value') ▸ ih _ _ (hmove hvalue) (by omega))
          fun r after hr => ?_
        rw [hcalls, live_append, List.append_assoc] at hr
        rw [List.append_assoc] at hr
        exact hr

theorem Stands.retain {keep : ℕ → K → V → Bool × V} (h : Stands platform keys l dropped world) :
    Ensures E (retain platform keep) (fun r after => r = l ∧
      Stands platform keys (kept keep 0 l) (dropped ++ refused keep 0 l) after) world := by
  obtain ⟨t, hholds, rfl⟩ := h.table
  rw [retain, bind_iff, get_iff, hholds.used, ← h.dropped]
  exact Holds.retainFrom [] [] t hholds (lt_succ_self _)

end HdLang.UniqMap
