import HdLang.UniqMap.Probing
import Mathlib.Tactic.Ring

/-!
# Room for entries

Where a map gets its buffer and how it changes it. Every map that is allocated holds nothing and has
an index of free words; `rehash` carries the live entries, in order, to such a map and takes it, so
that a map that grew holds no deleted slot. These are the operations that may run out of memory, and
they stop for nothing else.
-/

namespace HdLang.UniqMap

open AssocList Ensures List Nat

variable {K V : Type} [BEq K] {platform : Platform} {keys : Keys K} {world : World K V}
  {t : List (UniqMapSlot K V)} {E : Stop → Prop}

/-- The run has no memory left. -/
def Exhausted (stop : Stop) : Prop := ∃ message, stop = heapExhausted message

/-! ### Entries into an index -/

variable {turns : ℕ}

section Indexing

variable {d entry start : ℕ}

omit [BEq K] in
/-- The loop of `index_entry` finds the first free word. -/
theorem indexFrom_from (hshape : Shape platform world.map.entryCapacity world.map.slotCount)
    (hpos : world.map.entryCapacity ≠ 0) {N : ℕ} (hN : world.map.entryCapacity * 2 = N)
    (hentry : entry < N) (hfree : ∃ z < N, world.map.words (Probe.place N start z) = 0)
    (hturns : turns + d = N) (hpath : ∀ k < d, world.map.words (Probe.place N start k) ≠ 0) :
    Ensures E (indexFrom platform entry N turns (Probe.place N start d))
      (fun _ after => ∃ z < N, world.map.words (Probe.place N start z) = 0 ∧
        (∀ k < z, world.map.words (Probe.place N start k) ≠ 0) ∧
        after = { world with map := { world.map with
          words := Function.update world.map.words (Probe.place N start z) (entry + 1) } })
      world := by
  have hsmall := hshape.small
  have hin : Probe.place N start d < world.map.entryCapacity * 2 := by
    rw [hN]
    exact Probe.place_lt _ _ (by omega)
  have husize : entry + 1 < USIZE := by
    unfold ROOM at hsmall
    unfold USIZE
    omega
  induction turns generalizing d with
  | zero =>
    obtain ⟨z, hz, hzero⟩ := hfree
    exact absurd hzero (hpath z (by omega))
  | succ turns ih =>
    rw [indexFrom, bind_iff, ensures_indexValue hshape hin, ite_iff]
    refine ⟨fun hzero => ?_, fun hword => ?_⟩
    · rw [plus_eq husize, pure_bind, ensures_setIndex hshape hin husize]
      exact ⟨d, by omega, hzero, hpath, rfl⟩
    · have hnext := next_eq hshape hin hpos
      rw [hN, ← Probe.place_succ] at hnext
      rw [hnext, pure_bind]
      refine ih (by omega) (fun k hk => ?_) (by rw [hN]; exact Probe.place_lt _ _ (by omega))
      rcases Nat.lt_succ_iff_lt_or_eq.mp hk with hk | rfl
      · exact hpath k hk
      · exact hword

namespace Holds

/-- `rehash` puts an entry at the end of the map it fills. -/
theorem carry {hash : ℕ} {key : K} {value : V} (h : Holds platform keys world.map t)
    (hroom : t.length < world.map.entryCapacity) (hhash : hash = hashOf keys key) :
    Ensures E (carry platform hash (.occupied hash key value))
      (fun _ after => after = { world with map := after.map } ∧
        after.map.entryCapacity = world.map.entryCapacity ∧
        Holds platform keys after.map (t ++ [.occupied hash key value])) world := by
  have hsmall := h.shape.small
  have hpos : world.map.entryCapacity ≠ 0 := by omega
  have hused := h.used
  have hlive : (live t).length ≤ t.length := length_filterMap_le _ _
  have hone : ∀ n ≤ t.length, n + 1 < USIZE := fun n hn => by
    unfold ROOM at hsmall
    unfold USIZE
    omega
  rw [UniqMap.carry, bind_iff, get_iff, hused, bind_iff,
    ensures_write hroom (hroom.trans_le h.shape.slots_le), plus_eq (hone _ (le_refl _)),
    pure_bind, bind_iff, ensures_change, bind_iff, indexEntry, bind_iff,
    get_iff, times_capacity h.shape, pure_bind, bind_iff]
  refine (ensures_start (by exact h.shape) (by exact hpos)).mpr ?_
  have hplace : hash % (world.map.entryCapacity * 2) =
      Probe.place (world.map.entryCapacity * 2) (hash % (world.map.entryCapacity * 2)) 0 :=
    (Probe.place_zero (mod_lt _ (by omega))).symm
  rw [hplace]
  refine Ensures.mono (indexFrom_from (by exact h.shape) (by exact hpos) (by exact rfl)
    (by show t.length < world.map.entryCapacity * 2; omega) ?_ (by exact rfl)
    fun _ hk => nomatch hk) ?_
  · exact h.index.exists_free (by omega) (mod_lt _ (by omega))
  · rintro - - ⟨z, hz, hzero, hpath, rfl⟩
    rw [bind_iff, get_iff]
    simp only [h.size]
    rw [plus_eq (hone _ hlive), pure_bind, ensures_change]
    exact ⟨rfl, rfl, h.push hroom hhash hz hzero hpath⟩

end Holds

end Indexing

/-! ### New maps -/

variable {capacity : ℕ}

/-- A map could be allocated again, and with twice the room. -/
theorem Shape.allocatable {slotCount : ℕ} (h : Shape platform capacity slotCount) :
    (capacity ≠ 0 → capacity * 2 * 2 * WORD + platform.slotBytes < USIZE) ∧
      capacity * 2 * WORD + platform.slotBytes < USIZE := by
  have hplatform := platform.fits
  have henough := h.enough
  have hfits := h.fits
  have htwice : capacity ≠ 0 → capacity * 2 * 2 * WORD + platform.slotBytes < USIZE := by
    intro hpos
    obtain ⟨c, rfl⟩ := exists_eq_succ_of_ne_zero hpos
    obtain ⟨s, hs⟩ := Nat.exists_eq_add_of_le platform.tagged
    rw [hs] at henough hfits ⊢
    have hexpand : (c + 1) * (8 + s) = c * s + c * 8 + s + 8 := by ring
    unfold WORD at henough ⊢
    unfold ROOM at hfits
    unfold USIZE
    rw [succ_eq_add_one] at *
    omega
  refine ⟨htwice, ?_⟩
  rcases Nat.eq_zero_or_pos capacity with rfl | hpos
  · unfold ROOM at hplatform
    unfold WORD USIZE
    omega
  · refine Nat.lt_of_le_of_lt ?_ (htwice (Nat.ne_of_gt hpos))
    unfold WORD
    omega

theorem le_indexSlots {bytes size : ℕ} (hsize : 0 < size) :
    bytes ≤ (bytes + size - 1) / size * size := by
  have hdiv := div_add_mod (bytes + size - 1) size
  have hmod := mod_lt (bytes + size - 1) hsize
  rw [mul_comm] at hdiv
  omega

omit [BEq K] in
theorem ensures_newBuffer {slots : ℕ} :
    Ensures Exhausted (newBuffer platform slots) (fun _ after =>
      slots * platform.slotBytes ≤ ROOM ∧ after.map = world.map ∧ after.dropped = world.dropped)
      world := by
  unfold newBuffer
  simp only [bind_iff, get_iff, modify_iff, ite_iff, throw_iff, pure_iff]
  refine ⟨fun hzero => ⟨hzero ▸ Nat.zero_le _, trivial, trivial⟩, fun _ =>
    ⟨fun _ => ⟨_, rfl⟩, fun hle => ?_⟩⟩
  exact ⟨fun _ => ⟨Nat.le_of_not_lt hle, trivial, trivial⟩, fun _ => ⟨_, rfl⟩⟩

variable (keys) in
/-- A new map holds nothing, and its index is free. -/
theorem ensures_allocate (hpower : capacity = 0 ∨ ∃ k, capacity = 2 ^ (k + 3))
    (hsmall : capacity * 2 * WORD + platform.slotBytes < USIZE) :
    Ensures Exhausted (allocate platform capacity) (fun map after =>
      Holds platform keys map [] ∧ map.entryCapacity = capacity ∧ after.map = world.map ∧
        after.dropped = world.dropped) world := by
  have htagged := platform.tagged
  have henough : capacity * 2 * WORD ≤
      (capacity * 2 * WORD + platform.slotBytes - 1) / platform.slotBytes * platform.slotBytes :=
    le_indexSlots (by omega)
  have hslots : (capacity * 2 * WORD + platform.slotBytes - 1) / platform.slotBytes ≤ capacity := by
    have hle : capacity * 2 * WORD ≤ capacity * platform.slotBytes := by
      rw [mul_assoc]
      exact mul_le_mul_left _ htagged
    refine le_of_lt_succ ((div_lt_iff_lt_mul (by omega)).mpr ?_)
    rw [succ_mul]
    omega
  unfold WORD USIZE at hsmall
  rw [allocate, times_eq (by unfold USIZE; omega), pure_bind,
    times_eq (by unfold WORD USIZE; omega), pure_bind, plus_eq (by unfold WORD USIZE; omega),
    pure_bind, minus_eq (by omega), pure_bind]
  dsimp only
  rw [plus_eq (by unfold USIZE; omega), pure_bind, bind_iff]
  refine ensures_newBuffer.mono fun words after hnew => ?_
  obtain ⟨hfits, hmap, hdropped⟩ := hnew
  have hroom : capacity * platform.slotBytes + capacity * 2 * WORD ≤
      (capacity + (capacity * 2 * WORD + platform.slotBytes - 1) / platform.slotBytes) *
        platform.slotBytes := by
    rw [add_mul]
    omega
  simp only [bind_iff, ensures_on, fillIndex, get_iff, hroom, if_true, ensures_change, pure_iff]
  refine ⟨⟨⟨hpower, hroom, hfits⟩, rfl, zero_le _, rfl, fun _ _ h => (by cases h),
    fun _ _ _ h => (by cases h), ?_⟩, trivial, hmap, hdropped⟩
  refine (Probe.Index.empty fun i hi => ?_).forget fun _ _ h => by cases h
  exact if_pos (mul_lt_mul_of_pos_right hi (by decide))

omit [BEq K] in
theorem ensures_roomFor {room k : ℕ} (hroom : room = 2 ^ (k + 3)) (hturns : turns + k = 32)
    (hlt : room < USIZE) :
    Ensures Exhausted (roomFor capacity turns room)
      (fun r after => after = world ∧ capacity ≤ r ∧ ∃ k, r = 2 ^ (k + 3)) world := by
  induction turns generalizing room k with
  | zero =>
    obtain rfl : k = 32 := by omega
    rw [hroom] at hlt
    exact absurd hlt (by decide)
  | succ turns ih =>
    simp only [roomFor, ite_iff, throw_iff, pure_iff]
    refine ⟨fun _ => ⟨fun hnext => ?_, fun _ => ⟨_, rfl⟩⟩, fun hge => ?_⟩
    · exact ih (k := k + 1) (by rw [hroom, ← Nat.pow_succ]) (by omega) hnext
    · exact ⟨trivial, Nat.le_of_not_lt hge, k, hroom⟩

variable (keys) in
/-- A map with room for at least `capacity` entries. -/
theorem ensures_withCapacity :
    Ensures Exhausted (withCapacity platform capacity) (fun map after =>
      Holds platform keys map [] ∧ capacity ≤ map.entryCapacity ∧ after.map = world.map ∧
        after.dropped = world.dropped) world := by
  have htagged := platform.tagged
  have hfits := platform.fits
  rw [withCapacity, bind_iff]
  have hroom : Ensures Exhausted (if capacity > 0 then roomFor capacity 32 8 else pure 0)
      (fun r after => after = world ∧ capacity ≤ r ∧ (r = 0 ∨ ∃ k, r = 2 ^ (k + 3))) world := by
    rw [ite_iff]
    refine ⟨fun _ => ?_, fun hzero => pure_iff.mpr ⟨rfl, by omega, .inl rfl⟩⟩
    refine (ensures_roomFor (k := 0) rfl rfl (by decide)).mono fun r after h => ?_
    exact ⟨h.1, h.2.1, .inr h.2.2⟩
  refine hroom.mono fun room after ⟨hafter, hle, hpower⟩ => ?_
  subst hafter
  simp only [bind_iff, ite_iff, throw_iff]
  refine ⟨fun _ => ⟨_, rfl⟩, fun hslots => ?_⟩
  have hsmall : room * 2 * WORD + platform.slotBytes < USIZE := by
    have henough : room * 2 * WORD ≤
        (room * 2 * WORD + platform.slotBytes - 1) / platform.slotBytes * platform.slotBytes :=
      le_indexSlots (by omega)
    have hbytes := Nat.le_of_not_lt hslots
    rw [Nat.add_mul] at hbytes
    unfold ROOM at hfits hbytes
    unfold USIZE
    rcases Nat.eq_zero_or_pos room with rfl | hpos
    · unfold WORD
      omega
    · have hone : 1 * platform.slotBytes ≤ room * platform.slotBytes := Nat.mul_le_mul_right _ hpos
      omega
  exact (ensures_allocate keys hpower hsmall).mono fun map after h => ⟨h.1, h.2.1 ▸ hle, h.2.2⟩

/-! ### Moving slots out -/

/-- The slots of `map` hold `t` from `i` on. -/
structure Rest (map : UniqMap K V) (t : List (UniqMapSlot K V)) (i : ℕ) : Prop where
  room : t.length ≤ map.entryCapacity
  count : map.entryCapacity ≤ map.slotCount
  slots : ∀ j slot, i ≤ j → t[j]? = some slot → map.slots j = some slot

namespace Rest

variable {i : ℕ} {slot : UniqMapSlot K V}

omit [BEq K] in
theorem read (h : Rest world.map t i) (hslot : t[i]? = some slot)
    {Q : UniqMapSlot K V → World K V → Prop}
    (hQ : ∀ after : World K V, Rest after.map t (i + 1) → after.dropped = world.dropped →
      after.map = { world.map with slots := after.map.slots } → Q slot after) :
    Ensures E (UniqMap.read i) Q world := by
  have hlt : i < world.map.entryCapacity := ((List.getElem?_eq_some_iff.mp hslot).1).trans_le h.room
  refine (ensures_read hlt (hlt.trans_le h.count) (h.slots i slot (le_refl i) hslot)).mpr ?_
  refine hQ _ ⟨h.room, h.count, fun j s hj hs => ?_⟩ rfl rfl
  exact (Function.update_of_ne (by omega) _ _).trans (h.slots j s (by omega) hs)

omit [BEq K] in
/-- A loop that moves the slots from `i` up to the last out and drops them. -/
theorem dropAll (h : Rest world.map t i) (hi : i ≤ t.length) {bound : World K V → ℕ}
    (hbound : ∀ after : World K V, after.map = { world.map with slots := after.map.slots } →
      bound after = t.length) :
    Ensures E (scan (α := Unit) .diverges bound
        (fun index => do dropSlot (← UniqMap.read index); return none) (t.length + 1) i)
      (fun _ after => after.map = { world.map with slots := after.map.slots } ∧
        after.dropped = world.dropped ++ values (live (t.drop i))) world := by
  refine ensures_scan (n := t.length) (fun j after => Rest after.map t j ∧ i ≤ j ∧
      after.map = { world.map with slots := after.map.slots } ∧
      after.dropped ++ values (live (t.drop j)) = world.dropped ++ values (live (t.drop i)))
    (fun j after hafter => hbound after hafter.2.2.1) (fun j after hj hafter => ?_)
    (fun after hafter => ?_) (by omega) hi ⟨h, le_refl _, rfl, rfl⟩
  · obtain ⟨hrest, hij, hmap, hdropped⟩ := hafter
    obtain ⟨slot, hslot⟩ : ∃ slot, t[j]? = some slot := ⟨_, List.getElem?_eq_getElem hj⟩
    have hdrop : t.drop j = slot :: t.drop (j + 1) := by
      rw [drop_eq_getElem_cons hj]
      exact congrArg (· :: _) (Option.some.inj ((List.getElem?_eq_getElem hj).symm.trans hslot))
    rw [bind_iff]
    refine hrest.read hslot fun after' hrest' hdropped' hmap' => ?_
    have hmap'' : after'.map = { world.map with slots := after'.map.slots } := by
      rw [hmap', hmap]
    rw [hdrop] at hdropped
    rw [bind_iff]
    cases slot with
    | deleted =>
      refine pure_iff.mpr (pure_iff.mpr ⟨fun _ h => (nomatch h), fun _ => ?_⟩)
      exact ⟨hrest', by omega, hmap'', by rw [hdropped', ← hdropped]; rfl⟩
    | occupied hash key value =>
      refine ensures_dropValue.mpr (pure_iff.mpr ⟨fun _ h => (nomatch h), fun _ => ?_⟩)
      refine ⟨hrest', by omega, hmap'', ?_⟩
      rw [← hdropped, hdropped', live_cons_occupied, append_assoc]
      rfl
  · obtain ⟨-, -, hmap, hdropped⟩ := hafter
    refine ⟨hmap, ?_⟩
    rw [drop_length, live_nil] at hdropped
    rw [← hdropped]
    exact (append_nil _).symm

end Rest

theorem Holds.rest (h : Holds platform keys world.map t) (i : ℕ) : Rest world.map t i :=
  ⟨h.room, h.shape.slots_le, fun j slot _ hslot => h.slots j slot hslot⟩

omit [BEq K] in
/-- Dropping a map drops the values in its slots in use. -/
theorem ensures_drop (h : Rest world.map t 0) (hused : world.map.used = t.length) :
    Ensures E drop (fun _ after => after.dropped = world.dropped ++ values (live t)) world := by
  rw [drop, bind_iff, overUsed, bind_iff, get_iff, hused]
  refine (h.dropAll (zero_le _) fun after hafter => ?_).mono fun _ after hafter => ?_
  · rw [hafter]
    exact hused
  · exact pure_iff.mpr hafter.2

omit [BEq K] in
/-- A map that takes the place of another drops the values in it. -/
theorem ensures_assign {next : UniqMap K V} (h : Rest world.map t 0)
    (hused : world.map.used = t.length) :
    Ensures E (assign next) (fun _ after => after.map = next ∧
      after.dropped = world.dropped ++ values (live t)) world := by
  rw [assign, bind_iff]
  exact (ensures_drop h hused).mono fun _ after hdropped => ensures_change.mpr ⟨rfl, hdropped⟩

/-! ### Rehashing -/

namespace Holds

/-- The loop of `rehash` carries the live entries to `next`, in order. -/
theorem rehashFrom {next : UniqMap K V} {filled : List (UniqMapSlot K V)}
    (done rest : List (UniqMapSlot K V)) (h : Holds platform keys world.map (done ++ rest))
    (hnext : Holds platform keys next filled)
    (hroom : filled.length + (live rest).length ≤ next.entryCapacity) {turns : ℕ}
    (hturns : rest.length < turns) :
    Ensures E (rehashFrom platform turns next done.length) (fun next' after => after = world ∧
      next'.entryCapacity = next.entryCapacity ∧ ∃ filled', Holds platform keys next' filled' ∧
        live filled' = live filled ++ live rest ∧
        filled'.length = filled.length + (live rest).length) world := by
  induction rest generalizing turns next done filled with
  | nil =>
    obtain ⟨turns, rfl⟩ := exists_eq_succ_of_ne_zero (ne_of_gt hturns)
    have hused := h.used
    rw [append_nil] at hused
    rw [UniqMap.rehashFrom, bind_iff, get_iff, hused, if_neg (lt_irrefl _), pure_iff]
    exact ⟨rfl, rfl, filled, hnext, (append_nil _).symm, rfl⟩
  | cons slot rest ih =>
    obtain ⟨turns, rfl⟩ := exists_eq_succ_of_ne_zero (ne_of_gt (zero_lt_of_lt hturns))
    rw [length_cons] at hturns
    have hlt : done.length < world.map.used := by
      rw [h.used, length_append, length_cons]
      omega
    have hsucc : (done ++ [slot]).length = done.length + 1 := length_append
    have hmoved : Holds platform keys world.map ((done ++ [slot]) ++ rest) := by
      rw [append_assoc]
      exact h
    rw [UniqMap.rehashFrom, bind_iff, get_iff, if_pos hlt, bind_iff, h.asRef]
    cases slot with
    | deleted =>
      rw [live_cons_deleted] at hroom ⊢
      rw [← hsucc]
      exact ih _ hmoved hnext hroom (by omega)
    | occupied hash key value =>
      rw [live_cons_occupied, length_cons] at hroom
      have hhash := h.hashes hash key value (mem_append_right _ mem_cons_self)
      rw [bind_iff, ensures_on]
      have hlt : filled.length < next.entryCapacity := by omega
      refine Ensures.mono (Holds.carry (by exact hnext) hlt hhash) fun _ after ⟨hafter, hcap, hfilled⟩ => ?_
      have hworld : { after with map := world.map } = world := by rw [hafter]
      rw [hworld, ← hsucc]
      have hlength : (filled ++ [UniqMapSlot.occupied hash key value]).length = filled.length + 1 :=
        length_append
      refine (ih _ hmoved hfilled ?_ (by omega)).mono fun next' after' hr => ?_
      · rw [hlength, hcap]
        show filled.length + 1 + (live rest).length ≤ next.entryCapacity
        omega
      · obtain ⟨hsame, hcap', filled', hholds, hlive, hcount⟩ := hr
        refine ⟨hsame, hcap'.trans hcap, filled', hholds, ?_, ?_⟩
        · rw [hlive, live_append, append_assoc]
          rfl
        · rw [hcount, hlength, live_cons_occupied, length_cons]
          omega

/-- The map holds the live entries alone, and nothing was dropped. -/
theorem rehash {next : UniqMap K V} (h : Holds platform keys world.map t)
    (hnext : Holds platform keys next []) (hroom : (live t).length ≤ next.entryCapacity) :
    Ensures E (rehash platform next) (fun _ after => after.dropped = world.dropped ∧
      after.map.entryCapacity = next.entryCapacity ∧ ∃ t', Holds platform keys after.map t' ∧
        live t' = live t ∧ t'.length = (live t).length) world := by
  have hfits : ([] : List (UniqMapSlot K V)).length + (live t).length ≤ next.entryCapacity := by
    rw [length_nil]
    omega
  rw [UniqMap.rehash, bind_iff, get_iff, h.used, bind_iff]
  refine Ensures.mono (Holds.rehashFrom [] t h hnext hfits (lt_succ_self _))
    fun next' after hr => ?_
  obtain ⟨rfl, hcap, t', hholds, hlive, hcount⟩ := hr
  rw [bind_iff, ensures_change]
  -- the old map is in use no more: its values are in the new one
  refine (ensures_assign (t := []) ?_ rfl).mono fun _ after' hafter => ?_
  · exact ⟨zero_le _, h.shape.slots_le, fun _ _ _ hs => nomatch hs⟩
  · obtain ⟨hmap, hdropped⟩ := hafter
    refine ⟨hdropped.trans (append_nil _), by rw [hmap, hcap], t', hmap ▸ hholds, hlive, ?_⟩
    rw [hcount, length_nil, zero_add]

/-- A full map has room for another entry once it grew. -/
theorem grow (h : Holds platform keys world.map t)
    (hfull : world.map.used = world.map.entryCapacity) :
    Ensures Exhausted (grow platform) (fun _ after => after.dropped = world.dropped ∧
      ∃ t', Holds platform keys after.map t' ∧ live t' = live t ∧
        t'.length < after.map.entryCapacity) world := by
  have htagged := platform.tagged
  have hsmall := h.shape.small
  have hused := h.used
  have hsize := h.size
  have hlive : (live t).length ≤ t.length := length_filterMap_le _ _
  have hcapacity : ∀ capacity, (capacity = 0 ∨ ∃ k, capacity = 2 ^ (k + 3)) →
      capacity * 2 * WORD + platform.slotBytes < USIZE → (live t).length < capacity →
      Ensures Exhausted (do UniqMap.rehash platform (← allocate platform capacity))
        (fun _ after => after.dropped = world.dropped ∧
          ∃ t', Holds platform keys after.map t' ∧ live t' = live t ∧
            t'.length < after.map.entryCapacity) world := by
    intro capacity hpower hbytes hlt
    rw [bind_iff]
    refine (ensures_allocate keys hpower hbytes).mono fun next after hr => ?_
    obtain ⟨hnext, hcap, hmap, hdropped⟩ := hr
    refine (Holds.rehash (hmap ▸ h) hnext (by omega)).mono fun _ after' hr => ?_
    obtain ⟨hdropped', hcap', t', hholds, hlive', hcount⟩ := hr
    exact ⟨hdropped'.trans hdropped, t', hholds, hlive', by omega⟩
  rw [UniqMap.grow, grownCapacity]
  by_cases hzero : world.map.entryCapacity = 0
  · simp only [bind_iff, get_iff, if_pos hzero, pure_iff]
    rw [← bind_iff]
    have hfits := platform.fits
    refine hcapacity 8 (.inr ⟨0, rfl⟩) ?_ (by omega)
    unfold ROOM at hfits
    unfold WORD USIZE
    omega
  · obtain ⟨hgrown, hsame⟩ := h.shape.allocatable
    have htwice : (times platform.build world.map.size 2 : Code K V ℕ) =
        pure ((live t).length * 2) := by
      rw [hsize]
      exact times_eq (by unfold ROOM at hsmall; unfold USIZE; omega)
    simp only [bind_iff, get_iff, htwice, times_capacity h.shape, ite_iff, pure_iff]
    simp only [← bind_iff]
    refine ⟨fun h0 => absurd h0 hzero, fun _ => ⟨fun hhalf => ?_, fun hhalf => ?_⟩⟩
    · exact hcapacity _ h.shape.power hsame (by omega)
    · obtain ⟨k, hk⟩ := h.shape.power.resolve_left hzero
      exact hcapacity _ (.inr ⟨k + 1, by rw [hk, ← pow_succ]⟩) (hgrown hzero) (by omega)

end Holds

end HdLang.UniqMap
