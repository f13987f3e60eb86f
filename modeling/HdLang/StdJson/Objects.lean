import HdLang.StdJson.Value

/-!
# Objects as ordered maps

The index of an object is empty or knows the place of every key, and no key has two members
(`JsonObject.Keeps`). Then no operation reads behind the end of the members, each does to the
members what it does to a map in order of insertion, and all keep it so.
-/

namespace HdLang.StdJson

open AssocList List Option JsonObject Nat

variable {J : Type} {fields other : JsonObject J} {key : Text} {value : J}

/-- The place of a key among entries. -/
def placeOf (key : Text) (entries : List (Text × J)) : Option ℕ :=
  entries.findIdx? fun entry => entry.1 == key

theorem placeOf_keys (key : Text) (entries : List (Text × J)) :
    placeOf key entries = (entries.map Prod.fst).findIdx? fun name => name == key := by
  rw [findIdx?_map]
  rfl

variable {entries : List (Text × J)}

theorem placeOf_of_miss (h : ∀ entry ∈ entries, matching key entry = false)
    : placeOf key entries = none :=
  findIdx?_eq_none_iff.mpr h

theorem placeOf_append (key : Text) (before after : List (Text × J)) :
    placeOf key (before ++ after) =
      (placeOf key before).or ((placeOf key after).map (before.length + ·)) := by
  unfold placeOf
  rw [findIdx?_append]
  refine congrArg (Option.or _) (congrArg (fun f => Option.map f _) ?_)
  funext place
  exact add_comm _ _

theorem placeOf_cons (key : Text) (entry : Text × J) (entries : List (Text × J)) :
    placeOf key (entry :: entries) =
      if entry.1 == key then some 0 else (placeOf key entries).map (· + 1) :=
  findIdx?_cons

variable {before after : List (Text × J)}

theorem placeOf_split {k : Text} (h : Splits key entries before k value after)
    : placeOf key entries = some before.length := by
  rw [h.eq, placeOf_append, placeOf_of_miss h.miss, none_or, placeOf_cons,
    if_pos (show (k == key) = true from h.hit), map_some, add_zero]

/-- The places once the member of `key` is gone: those behind it are new, the others as they were.
-/
theorem placeOf_without (h : Splits key entries before key value after)
    (hnodup : ((before ++ after).map Prod.fst).Nodup) (other : Text) :
    ((placeOf other after).map (before.length + ·)).or
        (if other == key then none else placeOf other entries) =
      placeOf other (before ++ after) := by
  rw [map_append] at hnodup
  rw [placeOf_append]
  by_cases hbefore : other ∈ before.map Prod.fst
  · have hafter : placeOf other after = none := placeOf_of_miss (miss_of_not_mem fun hmem =>
      (nodup_append.mp hnodup).2.2 other hbefore other hmem rfl)
    have hne : ¬(other == key) = true := fun heq => by
      obtain rfl := beq_iff_eq.mp heq
      obtain ⟨entry, hentry, rfl⟩ := mem_map.mp hbefore
      have hhit : matching entry.1 entry = true := matching_iff.mpr rfl
      exact Bool.false_ne_true ((h.miss entry hentry).symm.trans hhit)
    have hne' : ¬(key == other) = true := fun heq =>
      hne (beq_iff_eq.mpr (beq_iff_eq.mp heq).symm)
    rw [hafter, if_neg hne, h.eq, placeOf_append, placeOf_cons, if_neg hne', hafter]
    rfl
  · rw [placeOf_of_miss (miss_of_not_mem hbefore), none_or]
    cases hafter : placeOf other after with
    | some place => rfl
    | none =>
      split
      · rfl
      · next hne =>
        have hne' : ¬(key == other) = true := fun heq =>
          hne (beq_iff_eq.mpr (beq_iff_eq.mp heq).symm)
        rw [h.eq, placeOf_append, placeOf_cons, if_neg hne', hafter,
          placeOf_of_miss (miss_of_not_mem hbefore)]
        rfl

namespace JsonObject

/-- Every key has one member, and an index that is kept knows its place. -/
structure Keeps (fields : JsonObject J) : Prop where
  nodup : (fields.entries.map Prod.fst).Nodup
  index : fields.index.entries = [] ∨
    ∀ key, fields.index.get key = placeOf key fields.entries

/-- The members as a map in order of insertion. -/
def members (fields : JsonObject J) (h : fields.Keeps) : OrderedMap Text J :=
  ⟨fields.entries, h.nodup⟩

theorem keeps_new : (new : JsonObject J).Keeps := ⟨nodup_nil, .inl rfl⟩

namespace Keeps

theorem index_of_pos (h : fields.Keeps) (hlen : fields.index.len > 0) (key : Text) :
    fields.index.get key = placeOf key fields.entries := by
  refine h.index.resolve_left (fun hnil => ?_) key
  rw [OrderedMap.len, hnil] at hlen
  exact lt_irrefl _ hlen

theorem position (h : fields.Keeps) : fields.position key = placeOf key fields.entries := by
  unfold JsonObject.position
  split
  · next hlen => exact h.index_of_pos hlen key
  · rfl

/-- A key has no member, or one at the place that `position` gives. -/
theorem position_or (h : fields.Keeps) (key : Text) :
    (fields.position key = none ∧ ∀ entry ∈ fields.entries, matching key entry = false) ∨
      ∃ before value after, fields.position key = some before.length ∧
        Splits key fields.entries before key value after := by
  rw [h.position]
  rcases splits_or key fields.entries with hmiss | ⟨before, k, value, after, hsplit⟩
  · exact .inl ⟨placeOf_of_miss hmiss, hmiss⟩
  · obtain rfl : k = key := matching_iff.mp hsplit.hit
    exact .inr ⟨before, value, after, placeOf_split hsplit, hsplit⟩

end Keeps

theorem item_split {entry : Text × J} :
    item (before ++ entry :: after) before.length = .ok entry := by
  unfold item
  rw [getElem?_append_right (Nat.le_refl _), Nat.sub_self]
  rfl

/-- Filling an index adds the places of the entries. -/
theorem get_indexed (entries : List (Text × J)) (hnodup : (entries.map Prod.fst).Nodup) (place : ℕ)
    (index : OrderedMap Text ℕ) :
    (indexed entries place index).get key =
      ((placeOf key entries).map (place + ·)).or (index.get key) := by
  induction entries generalizing place index with
  | nil => rfl
  | cons entry entries ih =>
    rw [map_cons, nodup_cons] at hnodup
    rw [indexed, ih hnodup.2, OrderedMap.get_insert, placeOf_cons]
    by_cases hkey : key = entry.1
    · rw [placeOf_of_miss (miss_of_not_mem (hkey ▸ hnodup.1)), if_pos (beq_iff_eq.mpr hkey),
        if_pos (beq_iff_eq.mpr hkey.symm), map_none, none_or, map_some,
        some_or, add_zero]
    · rw [if_neg fun h => hkey (beq_iff_eq.mp h), if_neg fun h => hkey (beq_iff_eq.mp h).symm,
        Option.map_map]
      refine congrArg (fun o => Option.or o _) (congrArg (fun f => Option.map f _) ?_)
      funext i
      show place + 1 + i = place + (i + 1)
      rw [add_assoc, add_comm 1 i]

/-! ### Reading -/

namespace Keeps

theorem get_eq (h : fields.Keeps) (key : Text) :
    fields.get key = .ok ((fields.members h).get key) := by
  unfold get
  rcases h.position_or key with ⟨hplace, hmiss⟩ | ⟨before, value, after, hplace, hsplit⟩
  · rw [hplace]
    exact congrArg Except.ok (lookup_of_miss hmiss).symm
  · rw [hplace]
    dsimp only
    rw [hsplit.eq, item_split]
    exact congrArg Except.ok hsplit.lookup_eq.symm

theorem containsKey_eq (h : fields.Keeps) (key : Text) :
    fields.containsKey key = ((fields.members h).get key).isSome := by
  unfold containsKey
  rcases h.position_or key with ⟨hplace, hmiss⟩ | ⟨before, value, after, hplace, hsplit⟩
  · rw [hplace]
    exact congrArg Option.isSome (lookup_of_miss hmiss).symm
  · rw [hplace]
    exact congrArg Option.isSome hsplit.lookup_eq.symm

/-- The loop of `eq` asks whether each member is found in the other object. -/
theorem all_eq (same : J → J → Bool) (h : other.Keeps) (entries : List (Text × J)) :
    ∃ flag, JsonObject.eq.all same other entries = .ok flag ∧
      (flag = true ↔ ∀ entry ∈ entries, ∃ found,
        (other.members h).get entry.1 = some found ∧ same found entry.2 = true) := by
  induction entries with
  | nil => exact ⟨true, rfl, ⟨fun _ _ hmem => (by cases hmem), fun _ => rfl⟩⟩
  | cons entry entries ih =>
    obtain ⟨key, value⟩ := entry
    obtain ⟨flag, hflag, hiff⟩ := ih
    rw [eq.all, h.get_eq key]
    dsimp only [bind, Except.bind]
    rw [forall_mem_cons]
    cases hget : (other.members h).get key with
    | none =>
      refine ⟨false, rfl, ⟨fun hf => (by cases hf), fun hall => ?_⟩⟩
      obtain ⟨_, hnone, -⟩ := hall.1
      cases hnone
    | some found =>
      dsimp only
      split
      · next hsame =>
        exact ⟨flag, hflag, hiff.trans
          ⟨fun hall => ⟨⟨found, rfl, hsame⟩, hall⟩, fun hall => hall.2⟩⟩
      · next hdiffer =>
        refine ⟨false, rfl, ⟨fun hf => (by cases hf), fun hall => ?_⟩⟩
        obtain ⟨_, heq, hsame⟩ := hall.1
        exact absurd (some.inj heq ▸ hsame) hdiffer

/-- `==` says that the members are the same, in any order. -/
theorem eq_iff (same : J → J → Bool) (h : fields.Keeps) (h' : other.Keeps) :
    ∃ flag, fields.eq same other = .ok flag ∧ (flag = true ↔
      OrderedMap.Same (fun value found => same found value = true) (fields.members h)
        (other.members h')) := by
  rw [OrderedMap.same_iff]
  unfold eq len OrderedMap.keys
  rw [length_map, length_map]
  split
  · next hlen => exact ⟨false, rfl, ⟨fun hf => (nomatch hf), fun hall => absurd hall.1 hlen⟩⟩
  · next hlen =>
    obtain ⟨flag, hflag, hiff⟩ := h'.all_eq same fields.entries
    exact ⟨flag, hflag, hiff.trans ⟨fun hall => ⟨not_not.mp hlen, hall⟩, fun hall => hall.2⟩⟩

end Keeps

/-! ### Writing -/

/-- `fields` keeps its index, and its members are those of `m`. -/
def Holds (fields : JsonObject J) (m : OrderedMap Text J) : Prop :=
  fields.Keeps ∧ fields.entries = m.entries

theorem Keeps.set (h : fields.Keeps) (key : Text) (value : J) :
    ∃ after, fields.set key value = .ok after ∧
      after.Holds ((fields.members h).insert key value) := by
  have hnodup : ((AssocList.insert key value fields.entries).map Prod.fst).Nodup :=
    nodup_insert h.nodup
  unfold JsonObject.set
  rcases h.position_or key with ⟨hplace, hmiss⟩ | ⟨before, old, after, hplace, hsplit⟩
  · have hentries : ((fields.members h).insert key value).entries =
      fields.entries ++ [(key, value)] := insert_of_miss hmiss
    rw [insert_of_miss hmiss] at hnodup
    rw [hplace]
    dsimp only
    split
    · next hlen =>
      refine ⟨_, rfl, ⟨hnodup, .inr fun other => ?_⟩, hentries.symm⟩
      dsimp only
      rw [OrderedMap.get_insert, h.index_of_pos hlen, placeOf_append, placeOf_cons]
      split
      · next heq =>
        obtain rfl := beq_iff_eq.mp heq
        rw [placeOf_of_miss hmiss, if_pos (beq_iff_eq.mpr rfl), none_or, map_some, Nat.add_zero]
      · next hne =>
        rw [if_neg fun h => hne (beq_iff_eq.mpr (beq_iff_eq.mp h).symm)]
        exact (or_none).symm
    · next hempty =>
      have hnil : fields.index.entries = [] :=
        eq_nil_of_length_eq_zero (Nat.eq_zero_of_not_pos hempty)
      split
      · refine ⟨_, rfl, ⟨hnodup, .inr fun other => ?_⟩, hentries.symm⟩
        have hnone : fields.index.get other = none := by
          unfold OrderedMap.get
          rw [hnil]
          rfl
        rw [get_indexed _ hnodup, hnone, or_none]
        simp only [Nat.zero_add, Option.map_id']
      · exact ⟨_, rfl, ⟨hnodup, .inl hnil⟩, hentries.symm⟩
  · have hlt : before.length < fields.entries.length := by
      rw [hsplit.eq, length_append, length_cons]
      omega
    have hset : fields.entries.set before.length (key, value) =
        before ++ (key, value) :: after := by
      rw [hsplit.eq, set_append_right _ _ (Nat.le_refl _), Nat.sub_self, set_cons_zero]
    rw [hplace]
    dsimp only
    rw [if_pos hlt]
    rw [hsplit.insert_eq] at hnodup
    refine ⟨_, rfl, ⟨hset ▸ hnodup, h.index.imp id fun hindex other => ?_⟩,
      hset.trans hsplit.insert_eq.symm⟩
    show fields.index.get other = placeOf other (fields.entries.set before.length (key, value))
    rw [hindex other, hset, hsplit.eq, placeOf_keys, placeOf_keys, map_append, map_append]
    rfl

theorem Keeps.remove (h : fields.Keeps) (key : Text) :
    ∃ after, fields.remove key = .ok ((fields.members h).get key, after) ∧
      after.Holds ((fields.members h).erase key) := by
  unfold JsonObject.remove
  rcases h.position_or key with ⟨hplace, hmiss⟩ | ⟨before, value, after, hplace, hsplit⟩
  · have herase : ((fields.members h).erase key).entries = fields.entries :=
      eraseP_of_forall_not fun entry hentry hhit =>
        Bool.false_ne_true ((hmiss entry hentry).symm.trans hhit)
    have hget : (fields.members h).get key = none := lookup_of_miss hmiss
    rw [hplace, hget]
    exact ⟨fields, rfl, h, herase.symm⟩
  · have hget : (fields.members h).get key = some value := hsplit.lookup_eq
    have herase : ((fields.members h).erase key).entries = before ++ after := hsplit.erase_eq
    have hidx : fields.entries.eraseIdx before.length = before ++ after := by
      rw [hsplit.eq, eraseIdx_append_of_length_le (Nat.le_refl _), Nat.sub_self, eraseIdx_cons_zero]
    have hnodup : ((before ++ after).map Prod.fst).Nodup :=
      herase ▸ ((fields.members h).erase key).nodup
    have hafter : (after.map Prod.fst).Nodup := by
      rw [map_append] at hnodup
      exact (nodup_append.mp hnodup).2.1
    rw [hplace, hget]
    dsimp only
    rw [hidx, hsplit.eq, item_split]
    show ∃ later, (if fields.index.len > 0 then
        Except.ok (some value, (⟨before ++ after, indexed ((before ++ after).drop before.length)
          before.length (fields.index.erase key)⟩ : JsonObject J))
      else Except.ok (some value, ⟨before ++ after, fields.index⟩)) =
        Except.ok (some value, later) ∧ _
    split
    · next hlen =>
      refine ⟨_, rfl, ⟨hnodup, .inr fun other => ?_⟩, herase.symm⟩
      dsimp only
      rw [drop_left, get_indexed _ hafter, OrderedMap.get_erase, h.index_of_pos hlen]
      exact placeOf_without hsplit hnodup other
    · next hempty =>
      have hnil : fields.index.entries = [] :=
        eq_nil_of_length_eq_zero (Nat.eq_zero_of_not_pos hempty)
      exact ⟨_, rfl, ⟨hnodup, .inl hnil⟩, herase.symm⟩

end JsonObject

end HdLang.StdJson
