import HdLang.Lib.AssocList
import HdLang.Lib.Probe
import HdLang.UniqMap.Model

/-!
# What a map holds

`Holds platform keys map table` is the invariant of `UniqMap`: `table` is what the slots in use hold,
and the index finds every entry in it from its hash. The live entries of the table are the entries of
the map. A table changes in two ways: a slot gives way to another with no new hash (`Holds.set`), and
an entry is put at the end and into the index (`Holds.push`).
-/

namespace HdLang

open AssocList Function List

variable {K V : Type}

/-- The entry that a slot holds. -/
def UniqMapSlot.entry : UniqMapSlot K V → Option (K × V)
  | .deleted => none
  | .occupied _ key value => some (key, value)

/-- The word of an index of `words` words that a slot's entry is looked for from. -/
def UniqMapSlot.home (words : ℕ) : UniqMapSlot K V → Option ℕ
  | .deleted => none
  | .occupied hash _ _ => some (hash % words)

namespace UniqMap

/-- The entries of a table, in order. -/
def live (table : List (UniqMapSlot K V)) : List (K × V) := table.filterMap (·.entry)

def homes (words : ℕ) (table : List (UniqMapSlot K V)) (index : ℕ) : Option ℕ :=
  table[index]?.bind (·.home words)

section Tables

variable {words i : ℕ} {t before after : List (UniqMapSlot K V)} {slot new : UniqMapSlot K V}
  {hash : ℕ} {key : K} {value : V}

@[simp] theorem live_nil : live ([] : List (UniqMapSlot K V)) = [] := rfl

@[simp] theorem live_append : live (before ++ after) = live before ++ live after := filterMap_append

@[simp] theorem live_cons_deleted : live (.deleted :: after) = live after := rfl

@[simp] theorem live_cons_occupied :
    live (.occupied hash key value :: after) = (key, value) :: live after := rfl

theorem mem_live {entry : K × V} :
    entry ∈ live t ↔ ∃ hash, .occupied hash entry.1 entry.2 ∈ t := by
  unfold live
  rw [mem_filterMap]
  refine ⟨fun ⟨slot, hslot, heq⟩ => ?_, fun ⟨hash, h⟩ => ⟨_, h, rfl⟩⟩
  cases slot with
  | deleted => exact nomatch heq
  | occupied hash key value =>
    obtain rfl : (key, value) = entry := Option.some.inj heq
    exact ⟨hash, hslot⟩

theorem getElem?_middle : (before ++ slot :: after)[before.length]? = some slot := by
  rw [getElem?_append_right (Nat.le_refl _), Nat.sub_self, getElem?_cons_zero]

theorem getElem?_beside (hi : i ≠ before.length) :
    (before ++ new :: after)[i]? = (before ++ slot :: after)[i]? := by
  by_cases hlt : i < before.length
  · rw [getElem?_append_left hlt, getElem?_append_left hlt]
  · obtain ⟨k, hk⟩ : ∃ k, i - before.length = k + 1 := ⟨i - before.length - 1, by omega⟩
    rw [getElem?_append_right (by omega), getElem?_append_right (by omega), hk, getElem?_cons_succ,
      getElem?_cons_succ]

theorem exists_split (h : t[i]? = some slot) :
    ∃ before after, t = before ++ slot :: after ∧ before.length = i := by
  obtain ⟨hi, rfl⟩ := List.getElem?_eq_some_iff.mp h
  refine ⟨t.take i, t.drop (i + 1), ?_, length_take_of_le (Nat.le_of_lt hi)⟩
  rw [getElem_cons_drop, take_append_drop]

end Tables

/-- A buffer for `capacity` entries and their index. -/
structure Shape (platform : Platform) (capacity slotCount : ℕ) : Prop where
  power : capacity = 0 ∨ ∃ k, capacity = 2 ^ (k + 3)
  enough : capacity * platform.slotBytes + capacity * 2 * WORD ≤ slotCount * platform.slotBytes
  fits : slotCount * platform.slotBytes ≤ ROOM

/-- The slots in use of `map` hold `table`, and its index finds what is in it. -/
structure Holds [BEq K] (platform : Platform) (keys : Keys K) (map : UniqMap K V)
    (table : List (UniqMapSlot K V)) : Prop where
  shape : Shape platform map.entryCapacity map.slotCount
  used : map.used = table.length
  room : table.length ≤ map.entryCapacity
  size : map.size = (live table).length
  slots : ∀ i slot, table[i]? = some slot → map.slots i = some slot
  hashes : ∀ hash key value, .occupied hash key value ∈ table → hash = hashOf keys key
  index : Probe.Index (map.entryCapacity * 2) table.length map.words
    (homes (map.entryCapacity * 2) table)

/-! ### The shape of a buffer -/

namespace Shape

variable {platform : Platform} {capacity slotCount : ℕ} (h : Shape platform capacity slotCount)

include h

/-- No count of the map comes near the end of `usize`. -/
theorem small : capacity * 16 ≤ ROOM := by
  have hslots : capacity * 8 ≤ capacity * platform.slotBytes :=
    Nat.mul_le_mul_left _ platform.tagged
  have henough := h.enough
  have hfits := h.fits
  unfold WORD at henough
  omega

theorem slots_le : capacity ≤ slotCount := by
  have htagged := platform.tagged
  have henough := h.enough
  exact Nat.le_of_mul_le_mul_right (c := platform.slotBytes) (by omega) (by omega)

theorem mask (hpos : capacity ≠ 0) (n : ℕ) : n &&& (capacity * 2 - 1) = n % (capacity * 2) := by
  rcases h.power with h0 | ⟨k, hk⟩
  · exact absurd h0 hpos
  · rw [hk, ← Nat.pow_succ]
    exact Nat.and_two_pow_sub_one_eq_mod n _

end Shape

/-! ### The changes of a table -/

namespace Holds

variable [BEq K] {platform : Platform} {keys : Keys K} {map : UniqMap K V}
  {t before after : List (UniqMapSlot K V)} {slot new : UniqMapSlot K V}

theorem slot_eq (h : Holds platform keys map (before ++ slot :: after)) :
    map.slots before.length = some slot :=
  h.slots _ _ getElem?_middle

/-- A slot gives way to one that holds nothing or an entry of the same hash. -/
theorem set (size : ℕ) (h : Holds platform keys map (before ++ slot :: after))
    (hsize : size = (live (before ++ new :: after)).length)
    (hhome : ∀ words place, new.home words = some place → slot.home words = some place)
    (hhash : ∀ hash key value, new = .occupied hash key value → hash = hashOf keys key) :
    Holds platform keys { map with
      slots := Function.update map.slots before.length (some new), size := size }
      (before ++ new :: after) := by
  have hlength : (before ++ new :: after).length = (before ++ slot :: after).length := by
    rw [length_append, length_append, length_cons, length_cons]
  refine ⟨h.shape, h.used.trans hlength.symm, hlength ▸ h.room, hsize, fun i s hs => ?_,
    fun hash key value hmem => ?_, ?_⟩
  · by_cases hi : i = before.length
    · rw [hi, getElem?_middle] at hs
      rw [hi, ← hs]
      exact update_self _ _ _
    · rw [getElem?_beside hi] at hs
      exact (update_of_ne hi _ _).trans (h.slots i s hs)
  · rcases mem_append.mp hmem with hmem | hmem
    · exact h.hashes _ _ _ (mem_append_left _ hmem)
    · rcases mem_cons.mp hmem with heq | hmem
      · exact hhash _ _ _ heq.symm
      · exact h.hashes _ _ _ (mem_append_right _ (mem_cons_of_mem _ hmem))
  · rw [hlength]
    refine h.index.forget fun e place he => ?_
    unfold homes at he ⊢
    by_cases hi : e = before.length
    · rw [hi, getElem?_middle] at he ⊢
      exact hhome _ _ he
    · rwa [getElem?_beside hi] at he

/-- An entry goes to the end of the table and to the first free word from its home. -/
theorem push {hash d : ℕ} {key : K} {value : V} (h : Holds platform keys map t)
    (hroom : t.length < map.entryCapacity) (hhash : hash = hashOf keys key)
    (hd : d < map.entryCapacity * 2)
    (hfree : map.words (Probe.place (map.entryCapacity * 2) (hash % (map.entryCapacity * 2)) d) = 0)
    (hpath : ∀ k < d,
      map.words (Probe.place (map.entryCapacity * 2) (hash % (map.entryCapacity * 2)) k) ≠ 0) :
    Holds platform keys { map with
      slots := Function.update map.slots t.length (some (.occupied hash key value))
      used := t.length + 1
      words := Function.update map.words
        (Probe.place (map.entryCapacity * 2) (hash % (map.entryCapacity * 2)) d) (t.length + 1)
      size := (live t).length + 1 }
      (t ++ [.occupied hash key value]) := by
  have hlength : (t ++ [UniqMapSlot.occupied hash key value]).length = t.length + 1 := length_append
  refine ⟨h.shape, hlength.symm, hlength.trans_le hroom, ?_, fun i s hs => ?_, fun hash' key' value' hmem =>
    ?_, ?_⟩
  · rw [live_append, length_append]
    rfl
  · by_cases hi : i = t.length
    · rw [hi, getElem?_middle] at hs
      rw [hi, ← hs]
      exact update_self _ _ _
    · have hlt : i < t.length := by
        have := (List.getElem?_eq_some_iff.mp hs).1
        omega
      rw [List.getElem?_append_left hlt] at hs
      exact (update_of_ne hi _ _).trans (h.slots i s hs)
  · rcases mem_append.mp hmem with hmem | hmem
    · exact h.hashes _ _ _ hmem
    · obtain ⟨rfl, rfl, rfl⟩ := UniqMapSlot.occupied.inj (mem_singleton.mp hmem)
      exact hhash
  · rw [hlength]
    refine (h.index.insert hd hfree hpath).forget fun e place he => ?_
    unfold homes at he ⊢
    by_cases hi : e = t.length
    · rw [hi, getElem?_middle] at he
      rw [hi, update_self]
      exact he
    · rw [update_of_ne hi]
      have hlt : e < t.length := by
        by_contra hge
        rw [List.getElem?_eq_none (by omega)] at he
        exact nomatch he
      rwa [List.getElem?_append_left hlt] at he

end Holds

end UniqMap

end HdLang

/-!
## Places and probes

What the accesses to slots and index words do to a map that holds a table, and the two loops over the
index: the probe for a key ends at a free word when no entry is for the key, and at the first entry
for it otherwise; the probe for a free word finds the one that `Probe.Index.insert` needs.
-/

namespace HdLang.UniqMap

open AssocList Ensures Nat

variable {K V α : Type} {E : Stop → Prop} {Q : α → World K V → Prop} {world : World K V}

/-! ### Steps on a map -/

@[simp] theorem ensures_change {f : UniqMap K V → UniqMap K V} {Q : Unit → World K V → Prop} :
    Ensures E (change f) Q world ↔ Q () { world with map := f world.map } := modify_iff

@[simp] theorem ensures_store {i : ℕ} {held : Option (UniqMapSlot K V)}
    {Q : Unit → World K V → Prop} :
    Ensures E (store i held) Q world ↔ Q () { world with map := { world.map with
      slots := Function.update world.map.slots i held } } := ensures_change

@[simp] theorem ensures_dropValue {value : V} {Q : Unit → World K V → Prop} :
    Ensures E (dropValue value) Q world ↔
      Q () { world with dropped := world.dropped ++ [value] } := modify_iff

variable {map : UniqMap K V}

theorem ensures_on {code : Code K V α} {Q : α × UniqMap K V → World K V → Prop} :
    Ensures E (on map code) Q world ↔
      Ensures E code (fun r after => Q (r, after.map) { after with map := world.map })
        { world with map := map } := by
  have hrun : (on map code).run world = (code.run { world with map := map } >>= fun p =>
      .ok ((p.1, p.2.map), { p.2 with map := world.map })) := rfl
  unfold Ensures
  rw [hrun]
  cases code.run { world with map := map } <;> rfl

theorem ensures_place {i : ℕ} {Q : Unit → World K V → Prop} (hcap : i < world.map.entryCapacity)
    (hcount : i < world.map.slotCount) : Ensures E (place i) Q world ↔ Q () world := by
  simp only [place, bind_iff, get_iff, hcap, hcount, and_self, if_true, pure_iff]

theorem ensures_write {i : ℕ} {slot : UniqMapSlot K V} {Q : Unit → World K V → Prop}
    (hcap : i < world.map.entryCapacity) (hcount : i < world.map.slotCount) :
    Ensures E (write i slot) Q world ↔ Q () { world with map := { world.map with
      slots := Function.update world.map.slots i (some slot) } } := by
  rw [write, bind_iff, ensures_place hcap hcount, ensures_store]

theorem ensures_asRef {i : ℕ} {slot : UniqMapSlot K V} {Q : UniqMapSlot K V → World K V → Prop}
    (hcap : i < world.map.entryCapacity) (hcount : i < world.map.slotCount)
    (hslot : world.map.slots i = some slot) : Ensures E (asRef i) Q world ↔ Q slot world := by
  rw [asRef, bind_iff, ensures_place hcap hcount, bind_iff, get_iff, hslot, pure_iff]

theorem ensures_read {i : ℕ} {slot : UniqMapSlot K V} {Q : UniqMapSlot K V → World K V → Prop}
    (hcap : i < world.map.entryCapacity) (hcount : i < world.map.slotCount)
    (hslot : world.map.slots i = some slot) :
    Ensures E (read i) Q world ↔ Q slot { world with map := { world.map with
      slots := Function.update world.map.slots i none } } := by
  rw [read, bind_iff, ensures_asRef hcap hcount hslot, bind_iff, ensures_store, pure_iff]

section Index

variable {platform : Platform} {i : ℕ}
  (hshape : Shape platform world.map.entryCapacity world.map.slotCount)
  (hi : i < world.map.entryCapacity * 2)

include hshape hi

theorem ensures_indexAddress {Q : Unit → World K V → Prop} :
    Ensures E (indexAddress platform i) Q world ↔ Q () world := by
  have hin : world.map.entryCapacity * platform.slotBytes + i * WORD + WORD ≤
      world.map.slotCount * platform.slotBytes := by
    have henough := hshape.enough
    unfold WORD at henough ⊢
    omega
  simp only [indexAddress, bind_iff, get_iff, hin, if_true, pure_iff]

theorem ensures_indexValue {Q : ℕ → World K V → Prop} :
    Ensures E (indexValue platform i) Q world ↔ Q (world.map.words i) world := by
  rw [indexValue, bind_iff, ensures_indexAddress hshape hi, bind_iff, get_iff, pure_iff]

theorem ensures_setIndex {value : ℕ} {Q : Unit → World K V → Prop} (hvalue : value < USIZE) :
    Ensures E (setIndex platform i value) Q world ↔ Q () { world with map := { world.map with
      words := Function.update world.map.words i value } } := by
  rw [setIndex, bind_iff, ensures_indexAddress hshape hi, ensures_change, mod_eq_of_lt hvalue]

theorem next_eq (hpos : world.map.entryCapacity ≠ 0) :
    (next platform (world.map.entryCapacity * 2) i : Code K V ℕ) =
      pure ((i + 1) % (world.map.entryCapacity * 2)) := by
  have hsmall := hshape.small
  rw [next, plus_eq (by unfold ROOM at hsmall; unfold USIZE; omega), pure_bind, minus_eq (by omega),
    pure_bind, hshape.mask hpos]

omit hi

theorem times_capacity : (times platform.build world.map.entryCapacity 2 : Code K V ℕ) =
    pure (world.map.entryCapacity * 2) := by
  have hsmall := hshape.small
  exact times_eq (by unfold ROOM at hsmall; unfold USIZE; omega)

theorem ensures_start {hash : ℕ} {Q : ℕ → World K V → Prop} (hpos : world.map.entryCapacity ≠ 0) :
    Ensures E (start platform hash) Q world ↔ Q (hash % (world.map.entryCapacity * 2)) world := by
  rw [start, bind_iff, get_iff, times_capacity hshape, pure_bind, minus_eq (by omega), pure_bind,
    hshape.mask hpos, pure_iff]

end Index

/-! ### The probe for a key -/

variable [BEq K] {platform : Platform} {keys : Keys K} {t before after : List (UniqMapSlot K V)}
  {slot : UniqMapSlot K V} {key : K}

namespace Holds

theorem lt_capacity (h : Holds platform keys map (before ++ slot :: after)) :
    before.length < map.entryCapacity := by
  have hroom := h.room
  rw [List.length_append, List.length_cons] at hroom
  omega

theorem lt_slotCount (h : Holds platform keys map (before ++ slot :: after)) :
    before.length < map.slotCount := h.lt_capacity.trans_le h.shape.slots_le

theorem asRef (h : Holds platform keys world.map (before ++ slot :: after))
    {Q : UniqMapSlot K V → World K V → Prop} :
    Ensures E (asRef before.length) Q world ↔ Q slot world :=
  ensures_asRef h.lt_capacity h.lt_slotCount h.slot_eq

/-- An occupied slot is for `key` when its key equals it: the hash tells nothing more. -/
theorem isFor_iff (h : Holds platform keys world.map (before ++ slot :: after)) :
    isFor (hashOf keys key) key slot = true ↔
      ∃ k value, slot = .occupied (hashOf keys key) k value ∧ matching key (k, value) = true := by
  cases slot with
  | deleted => exact ⟨fun hfor => (nomatch hfor), fun ⟨_, _, heq, _⟩ => (nomatch heq)⟩
  | occupied hash k value =>
    simp only [isFor, Bool.and_eq_true, beq_iff_eq]
    constructor
    · intro hfor
      exact ⟨k, value, by rw [hfor.1], hfor.2⟩
    · rintro ⟨k', value', heq, hmatch⟩
      obtain ⟨rfl, rfl, rfl⟩ := UniqMapSlot.occupied.inj heq
      exact ⟨rfl, hmatch⟩

variable {e : ℕ} {k : K}

/-- An entry for `key` is looked for from where the probe for `key` starts. -/
theorem home_eq {hash : ℕ} (words : ℕ) {value : V} (h : Holds platform keys world.map t)
    (he : t[e]? = some (.occupied hash k value)) (hmatch : matching key (k, value) = true) :
    hash = hashOf keys key ∧ homes words t e = some (hashOf keys key % words) := by
  have hhash : hash = hashOf keys key := by
    rw [h.hashes hash k value (List.mem_of_getElem? he)]
    unfold hashOf
    rw [keys.consistent k key hmatch]
  refine ⟨hhash, ?_⟩
  rw [homes, he, ← hhash]
  rfl

/-- The words that a probe for `key` has passed: none is free, and none is of an entry for `key`. -/
def Passed (keys : Keys K) (key : K) (t : List (UniqMapSlot K V)) (word : ℕ) : Prop :=
  word ≠ 0 ∧ ∀ slot, t[word - 1]? = some slot → isFor (hashOf keys key) key slot = false

section Stops

variable {d : ℕ} {N start : ℕ} (h : Holds platform keys world.map t)
  (hN : world.map.entryCapacity * 2 = N) (hstart : hashOf keys key % N = start)
  (hpassed : ∀ k < d, Passed keys key t (world.map.words (Probe.place N start k)))

include h hN hstart hpassed

theorem not_passed {hash : ℕ} {value : V} (he : t[e]? = some (.occupied hash k value))
    (hmatch : matching key (k, value) = true) (hstop : world.map.words (Probe.place N start d) = 0 ∨
      e + 1 < world.map.words (Probe.place N start d)) : False := by
  have hindex := h.index
  rw [hN] at hindex
  obtain ⟨hhash, hhome⟩ := h.home_eq N he hmatch
  rw [hstart] at hhome
  obtain ⟨k', hk', hword⟩ := hindex.before hhome hstop
  have hfor := (hpassed k' hk').2 (.occupied hash k value) (by rw [hword]; exact he)
  obtain ⟨before, after, rfl, -⟩ := exists_split he
  rw [h.isFor_iff.mpr ⟨k, value, by rw [hhash], hmatch⟩] at hfor
  exact nomatch hfor

theorem miss_of_free (hfree : world.map.words (Probe.place N start d) = 0) :
    ∀ entry ∈ live t, matching key entry = false := by
  intro entry hentry
  by_contra hmatch
  obtain ⟨hash, hmem⟩ := mem_live.mp hentry
  obtain ⟨e, he⟩ := List.getElem?_of_mem hmem
  exact h.not_passed hN hstart hpassed he ((Bool.not_eq_false _).mp hmatch) (.inl hfree)

/-- The first entry for `key` that the probe meets is the first in the table. -/
theorem splits_of_found {slot : UniqMapSlot K V}
    (hword : world.map.words (Probe.place N start d) = e + 1) (he : t[e]? = some slot)
    (hfor : isFor (hashOf keys key) key slot = true) :
    ∃ before k value after, t = before ++ .occupied (hashOf keys key) k value :: after ∧
      before.length = e ∧ Splits key (live t) (live before) k value (live after) := by
  obtain ⟨before, after, rfl, hlength⟩ := exists_split he
  obtain ⟨k, value, rfl, hmatch⟩ := h.isFor_iff.mp hfor
  refine ⟨before, k, value, after, rfl, hlength, by rw [live_append, live_cons_occupied], hmatch,
    fun entry hentry => ?_⟩
  by_contra hearlier
  obtain ⟨hash, hmem⟩ := mem_live.mp hentry
  obtain ⟨j, hj⟩ := List.getElem?_of_mem hmem
  have hlt : j < before.length := (List.getElem?_eq_some_iff.mp hj).1
  rw [← List.getElem?_append_left hlt] at hj
  exact h.not_passed hN hstart hpassed hj ((Bool.not_eq_false _).mp hearlier) (.inr (by omega))

end Stops

variable {free found : ℕ → Code K V α}

/-- The loop of `find_index` and of `insert`, from `d` words after the home of the key. -/
theorem probe_from (h : Holds platform keys world.map t) (hpos : world.map.entryCapacity ≠ 0)
    {N start : ℕ} (hN : world.map.entryCapacity * 2 = N) (hstart : hashOf keys key % N = start)
    (hfree : ∀ d < N, world.map.words (Probe.place N start d) = 0 →
      (∀ k < d, world.map.words (Probe.place N start k) ≠ 0) →
      (∀ entry ∈ live t, matching key entry = false) →
      Ensures E (free (Probe.place N start d)) Q world)
    (hfound : ∀ before k value after, t = before ++ .occupied (hashOf keys key) k value :: after →
      Splits key (live t) (live before) k value (live after) →
      Ensures E (found before.length) Q world) (turns d : ℕ) (hturns : turns + d = N)
    (hpassed : ∀ k < d, Passed keys key t (world.map.words (Probe.place N start k))) :
    Ensures E (probe platform (hashOf keys key) key N free found turns (Probe.place N start d)) Q
      world := by
  have hindex := h.index
  have hroom := h.room
  have hsmall := h.shape.small
  rw [hN] at hindex
  have hin : Probe.place N start d < world.map.entryCapacity * 2 := by
    rw [hN]
    exact Probe.place_lt _ _ (by omega)
  induction turns generalizing d with
  | zero =>
    -- all the words have been passed, but one of them is free
    obtain ⟨z, hz, hzero⟩ := hindex.exists_free (by omega) (hstart ▸ mod_lt _ (by omega))
    exact absurd hzero (hpassed z (by omega)).1
  | succ turns ih =>
    rw [probe, bind_iff, ensures_indexValue h.shape hin, ite_iff]
    refine ⟨fun hzero => ?_, fun hword => ?_⟩
    · exact hfree d (by omega) hzero (fun k hk => (hpassed k hk).1)
        (h.miss_of_free hN hstart hpassed hzero)
    · obtain ⟨e, he⟩ := exists_eq_succ_of_ne_zero hword
      have hle := hindex.le _ (hN ▸ hin)
      have hlt : e < t.length := by omega
      obtain ⟨slot, hslot⟩ : ∃ slot, t[e]? = some slot := ⟨_, List.getElem?_eq_getElem hlt⟩
      obtain ⟨before, after, ht, rfl⟩ := exists_split hslot
      have hsplit : Holds platform keys world.map (before ++ slot :: after) := ht ▸ h
      rw [he, succ_eq_add_one, minus_eq (by omega), pure_bind, Nat.add_sub_cancel, bind_iff,
        hsplit.asRef, ite_iff]
      refine ⟨fun hfor => ?_, fun hfor => ?_⟩
      · obtain ⟨before', k, value, after', heq, hlength, hsplits⟩ :=
          h.splits_of_found hN hstart hpassed he hslot hfor
        rw [← hlength]
        exact hfound before' k value after' heq hsplits
      · have hnext := next_eq h.shape hin hpos
        rw [hN, ← Probe.place_succ] at hnext
        rw [hnext, pure_bind]
        refine ih (d + 1) (by omega) (fun k hk => ?_) (by rw [hN]; exact Probe.place_lt _ _ (by omega))
        rcases Nat.lt_succ_iff_lt_or_eq.mp hk with hk | rfl
        · exact hpassed k hk
        · refine ⟨hword, fun slot' hslot' => ?_⟩
          rw [he, succ_eq_add_one, Nat.add_sub_cancel, hslot] at hslot'
          obtain rfl := Option.some.inj hslot'
          exact (Bool.not_eq_true _).mp hfor

theorem probe (h : Holds platform keys world.map t) (hpos : world.map.entryCapacity ≠ 0) {N : ℕ}
    (hN : world.map.entryCapacity * 2 = N)
    (hfree : ∀ d < N, world.map.words (Probe.place N (hashOf keys key % N) d) = 0 →
      (∀ k < d, world.map.words (Probe.place N (hashOf keys key % N) k) ≠ 0) →
      (∀ entry ∈ live t, matching key entry = false) →
      Ensures E (free (Probe.place N (hashOf keys key % N) d)) Q world)
    (hfound : ∀ before k value after, t = before ++ .occupied (hashOf keys key) k value :: after →
      Splits key (live t) (live before) k value (live after) →
      Ensures E (found before.length) Q world) :
    Ensures E (UniqMap.probe platform (hashOf keys key) key N free found N (hashOf keys key % N)) Q
      world := by
  have hzero : Probe.place N (hashOf keys key % N) 0 = hashOf keys key % N :=
    Probe.place_zero (mod_lt _ (by omega))
  have hrun := h.probe_from hpos hN rfl hfree hfound N 0 rfl fun _ hk => nomatch hk
  rwa [hzero] at hrun

/-- The place of `key` in a table. -/
inductive Found (key : K) (t : List (UniqMapSlot K V)) : Option ℕ → Prop
  | none (h : ∀ entry ∈ live t, matching key entry = false) : Found key t none
  | some {before : List (UniqMapSlot K V)} {hash : ℕ} {k : K} {value : V}
    {after : List (UniqMapSlot K V)} (ht : t = before ++ .occupied hash k value :: after)
    (h : Splits key (live t) (live before) k value (live after)) : Found key t (some before.length)

theorem findIndex (h : Holds platform keys world.map t) :
    Ensures E (findIndex platform keys key) (fun r after => after = world ∧ Found key t r) world := by
  rw [UniqMap.findIndex, bind_iff, get_iff, ite_iff]
  refine ⟨fun hzero => ?_, fun hpos => ?_⟩
  · have hnil : t = [] := List.eq_nil_of_length_eq_zero (by have := h.room; omega)
    exact pure_iff.mpr ⟨rfl, .none (by rw [hnil]; exact fun _ hmem => nomatch hmem)⟩
  · rw [bind_iff, get_iff, times_capacity h.shape, pure_bind, bind_iff, ensures_start h.shape hpos]
    refine h.probe hpos rfl (fun d _ _ _ hmiss => ?_) (fun before k value after ht hsplits => ?_)
    · exact pure_iff.mpr ⟨rfl, .none hmiss⟩
    · exact pure_iff.mpr ⟨rfl, .some ht hsplits⟩

end Holds

end HdLang.UniqMap
