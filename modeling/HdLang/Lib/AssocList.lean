import Mathlib.Data.List.Perm.Basic

/-!
# Association lists in order of insertion

A list of keys with values; an operation on a key is about the first entry whose key equals it.
`Splits key l before k value after` says that this entry is `(k, value)` and stands between `before`
and `after`: every operation is read off such a split, and so is what it does to the values as a
multiset. Nothing is asked of `==`.
-/

namespace AssocList

open List Option Bool

variable {K V : Type} [BEq K] {key k : K} {value new : V} {l before after : List (K × V)}

/-- The entry's key equals `key`. -/
def matching (key : K) (entry : K × V) : Bool := entry.1 == key

/-- The value of the first entry for `key`. -/
def lookup (key : K) (l : List (K × V)) : Option V := (l.find? (matching key)).map Prod.snd

/-- The first entry for `key` gets `value`, and keeps its own key and its place. -/
def replace (key : K) (value : V) : List (K × V) → List (K × V)
  | [] => []
  | entry :: l =>
    if matching key entry then (entry.1, value) :: l else entry :: replace key value l

/-- The first entry for `key` goes. -/
def erase (key : K) (l : List (K × V)) : List (K × V) := l.eraseP (matching key)

/-- `value` for `key`, at the end when there is no entry for it yet. -/
def insert (key : K) (value : V) (l : List (K × V)) : List (K × V) :=
  if (lookup key l).isSome then replace key value l else l ++ [(key, value)]

/-- The values, in order. -/
def values (l : List (K × V)) : List V := l.map Prod.snd

/-- The first entry of `l` for `key` is `(k, value)`, between `before` and `after`. -/
structure Splits (key : K) (l before : List (K × V)) (k : K) (value : V) (after : List (K × V)) :
    Prop where
  eq : l = before ++ (k, value) :: after
  hit : matching key (k, value) = true
  miss : ∀ entry ∈ before, matching key entry = false

/-- No entry is for `key`, or there is a first one. -/
theorem splits_or (key : K) (l : List (K × V)) :
    (∀ entry ∈ l, matching key entry = false) ∨
      ∃ before k value after, Splits key l before k value after := by
  induction l with
  | nil => exact .inl fun _ h => nomatch h
  | cons entry l ih =>
    by_cases hhit : matching key entry = true
    · exact .inr ⟨[], entry.1, entry.2, l, rfl, hhit, fun _ h => nomatch h⟩
    · have hmiss := (not_eq_true _).mp hhit
      rcases ih with hnone | ⟨before, k, value, after, hsplit⟩
      · exact .inl fun x hx => (mem_cons.mp hx).elim (fun h => h ▸ hmiss) (hnone x)
      · refine .inr ⟨entry :: before, k, value, after, ?_, hsplit.hit, fun x hx => ?_⟩
        · rw [hsplit.eq, cons_append]
        · exact (mem_cons.mp hx).elim (fun h => h ▸ hmiss) (hsplit.miss x)

theorem lookup_of_miss (h : ∀ entry ∈ l, matching key entry = false) : lookup key l = none := by
  have hnone : l.find? (matching key) = none :=
    find?_eq_none.mpr fun entry hentry => by rw [h entry hentry]; exact false_ne_true
  rw [lookup, hnone, map_none]

theorem insert_of_miss (h : ∀ entry ∈ l, matching key entry = false) :
    insert key value l = l ++ [(key, value)] := by
  rw [insert, lookup_of_miss h]
  rfl

namespace Splits

variable (h : Splits key l before k value after)

include h

theorem lookup_eq : lookup key l = some value := by
  have hnone : before.find? (matching key) = none :=
    find?_eq_none.mpr fun entry hentry => by rw [h.miss entry hentry]; exact false_ne_true
  rw [lookup, h.eq, find?_append, hnone, none_or, find?_cons_of_pos h.hit, map_some]

theorem replace_eq : replace key new l = before ++ (k, new) :: after := by
  obtain ⟨rfl, hhit, hmiss⟩ := h
  induction before with
  | nil => rw [nil_append, nil_append, replace, if_pos hhit]
  | cons entry before ih =>
    have hentry : ¬matching key entry = true := by
      rw [hmiss entry mem_cons_self]
      exact false_ne_true
    rw [cons_append, replace, if_neg hentry, ih fun x hx => hmiss x (mem_cons_of_mem _ hx),
      cons_append]

theorem erase_eq : erase key l = before ++ after := by
  rw [erase, h.eq, eraseP_append_right _ fun entry hentry => by
    rw [h.miss entry hentry]; exact false_ne_true, eraseP_cons_of_pos h.hit]

theorem insert_eq : insert key new l = before ++ (k, new) :: after := by
  rw [insert, h.lookup_eq, isSome_some, if_pos rfl, h.replace_eq]

theorem values_eq : (values l).Perm (value :: values (before ++ after)) := by
  rw [h.eq]
  unfold values
  rw [map_append, map_append, map_cons]
  exact perm_middle

end Splits

/-- An entry after an insertion has the new value or was there. -/
theorem mem_insert {entry : K × V} (h : entry ∈ insert key value l) :
    entry.2 = value ∨ entry ∈ l := by
  rcases splits_or key l with hmiss | ⟨before, k, old, after, hsplit⟩
  · rw [insert_of_miss hmiss] at h
    refine (mem_append.mp h).symm.imp (fun hnew => ?_) id
    exact congrArg Prod.snd (mem_singleton.mp hnew)
  · rw [hsplit.insert_eq] at h
    rw [hsplit.eq]
    rcases mem_append.mp h with hbefore | hafter
    · exact .inr (mem_append_left _ hbefore)
    · rcases mem_cons.mp hafter with rfl | hmem
      · exact .inl rfl
      · exact .inr (mem_append_right _ (mem_cons_of_mem _ hmem))

/-! ### Keys with a lawful equality -/

section Lawful

variable [LawfulBEq K]

theorem matching_iff {entry : K × V} : matching key entry = true ↔ entry.1 = key := beq_iff_eq

theorem miss_of_not_mem (h : key ∉ l.map Prod.fst) : ∀ entry ∈ l, matching key entry = false := by
  intro entry hentry
  by_contra hhit
  have hkey := matching_iff.mp ((not_eq_false _).mp hhit)
  exact h (mem_map.mpr ⟨entry, hentry, hkey⟩)

/-- What a key has after `value` was inserted for `key`. -/
theorem lookup_insert (other : K) :
    lookup other (insert key value l) = if other == key then some value else lookup other l := by
  rcases splits_or key l with hmiss | ⟨before, k, old, after, hsplit⟩
  · rw [insert_of_miss hmiss, lookup, find?_append, map_or]
    split
    · next heq =>
      obtain rfl := beq_iff_eq.mp heq
      have hnone : (l.find? (matching other)).map Prod.snd = none := lookup_of_miss hmiss
      have hself : matching other (other, value) = true := matching_iff.mpr rfl
      rw [hnone, none_or, find?_cons_of_pos hself, map_some]
    · next hne =>
      have hother : ¬matching other (key, value) = true := fun h =>
        hne (beq_iff_eq.mpr (matching_iff.mp h).symm)
      rw [find?_cons_of_neg hother, find?_nil, map_none, or_none, lookup]
  · obtain rfl : k = key := matching_iff.mp hsplit.hit
    have hold : lookup other l = (before.find? (matching other) |>.map Prod.snd).or
          ((((k, old) :: after).find? (matching other)).map Prod.snd) := by
      rw [lookup, hsplit.eq, find?_append, map_or]
    rw [hsplit.insert_eq, hold, lookup, find?_append, map_or]
    split
    · next heq =>
      obtain rfl := beq_iff_eq.mp heq
      have hnone : (before.find? (matching other)).map Prod.snd = none := lookup_of_miss hsplit.miss
      have hself : ∀ v : V, matching other (other, v) = true := fun _ => matching_iff.mpr rfl
      rw [hnone, none_or, find?_cons_of_pos (hself _), map_some]
    · next hne =>
      have hother : ∀ v : V, ¬matching other (k, v) = true :=
        fun _ h => hne (beq_iff_eq.mpr (matching_iff.mp h).symm)
      rw [find?_cons_of_neg (hother _), find?_cons_of_neg (hother _)]

theorem nodup_insert (h : (l.map Prod.fst).Nodup) : ((insert key value l).map Prod.fst).Nodup := by
  rcases splits_or key l with hmiss | ⟨before, k, old, after, hsplit⟩
  · rw [insert_of_miss hmiss, map_append]
    refine nodup_append.mpr ⟨h, pairwise_singleton _ _, fun other hother new hnew heq => ?_⟩
    obtain ⟨entry, hentry, rfl⟩ := mem_map.mp hother
    have hhit : matching key entry = true := matching_iff.mpr (heq.trans (mem_singleton.mp hnew))
    exact absurd (hmiss entry hentry) (by rw [hhit]; exact Bool.noConfusion)
  · rw [hsplit.eq, map_append] at h
    rw [hsplit.insert_eq, map_append]
    exact h

end Lawful

/-! ### The values of an operation -/

/-- Replacing a value moves the new one in and the old one out. -/
theorem perm_replace (hvalue : lookup key l = some value) :
    (new :: values l).Perm (value :: values (replace key new l)) := by
  rcases splits_or key l with hmiss | ⟨before, k, old, after, hsplit⟩
  · rw [lookup_of_miss hmiss] at hvalue
    exact nomatch hvalue
  · obtain rfl : old = value := some.inj (hsplit.lookup_eq.symm.trans hvalue)
    have hnew : (values (replace key new l)).Perm (new :: values (before ++ after)) := by
      rw [hsplit.replace_eq]
      unfold values
      rw [map_append, map_append, map_cons]
      exact perm_middle
    exact ((hsplit.values_eq.cons new).trans (.swap _ _ _)).trans (hnew.symm.cons old)

theorem perm_erase (hvalue : lookup key l = some value) :
    (values l).Perm (value :: values (erase key l)) := by
  rcases splits_or key l with hmiss | ⟨before, k, old, after, hsplit⟩
  · rw [lookup_of_miss hmiss] at hvalue
    exact nomatch hvalue
  · obtain rfl : old = value := some.inj (hsplit.lookup_eq.symm.trans hvalue)
    rw [hsplit.erase_eq]
    exact hsplit.values_eq

/-- Inserting a value moves it in and the one it replaces out. -/
theorem perm_insert :
    (value :: values l).Perm ((lookup key l).toList ++ values (insert key value l)) := by
  rcases hvalue : lookup key l with _ | old
  · rw [insert, hvalue, isSome_none, if_neg Bool.false_ne_true]
    unfold values
    rw [map_append]
    exact (perm_append_singleton _ _).symm
  · rw [insert, hvalue, isSome_some, if_pos rfl]
    exact perm_replace hvalue

end AssocList
