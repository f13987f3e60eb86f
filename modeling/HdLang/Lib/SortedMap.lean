import Mathlib.Data.List.Destutter
import Mathlib.Data.List.Sort

/-!
# Sorted maps

A finite map as the list of its entries with ascending keys: what a search tree holds. The order is a
field, so that two maps with the same values are the same (`SortedMap.ext_get?`), and the entries
of a map are those its lookup gives (`mem_iff`).
-/

section

universe u v

structure SortedMap (κ : Type u) (ν : Type v) [LinearOrder κ] where
  entries : List (κ × ν)
  sorted : entries.Pairwise fun a b => a.1 < b.1

namespace SortedMap

variable {κ : Type u} {ν : Type v} [LinearOrder κ]

/-! ### Lookup -/

/-- The value of the first entry of a list with this key. -/
@[grind =] def find (k : κ) : List (κ × ν) → Option ν
  | [] => none
  | e :: es => if e.1 = k then some e.2 else find k es

theorem find_eq_none {k : κ} {es : List (κ × ν)} (h : ∀ e ∈ es, e.1 ≠ k) : find k es = none := by
  induction es with
  | nil => rfl
  | cons e es ih =>
    rw [find, if_neg (h e List.mem_cons_self)]
    exact ih fun e he => h e (List.mem_cons_of_mem _ he)

variable {k : κ} {v : ν} {es : List (κ × ν)}

theorem find_eq_some (hsorted : es.Pairwise fun a b => a.1 < b.1)
    : find k es = some v ↔ (k, v) ∈ es := by
  induction es with
  | nil => simp [find]
  | cons e es ih =>
    obtain ⟨hlt, hrest⟩ := List.pairwise_cons.mp hsorted
    rw [find, List.mem_cons]
    split
    · next hk =>
      subst hk
      constructor
      · intro h
        exact .inl (by rw [← Option.some.inj h])
      · rintro (h | h)
        · rw [← h]
        · exact absurd (hlt _ h) (lt_irrefl _)
    · next hk =>
      rw [ih hrest]
      constructor
      · exact .inr
      · rintro (h | h)
        · exact absurd (by rw [← h]) hk
        · exact h

def empty : SortedMap κ ν := ⟨[], List.Pairwise.nil⟩

variable (m : SortedMap κ ν)

def get? (k : κ) : Option ν := find k m.entries

def isEmpty : Bool := m.entries.isEmpty

def size : ℕ := m.entries.length

@[simp] theorem get?_empty (k : κ) : (empty : SortedMap κ ν).get? k = none := rfl

variable {m}

theorem mem_iff {k : κ} {v : ν} : (k, v) ∈ m.entries ↔ m.get? k = some v :=
  (find_eq_some m.sorted).symm

theorem isEmpty_iff : m.isEmpty = true ↔ ∀ k, m.get? k = none := by
  rw [isEmpty, List.isEmpty_iff]
  constructor
  · intro h k
    rw [get?, h, find]
  · intro h
    refine List.eq_nil_iff_forall_not_mem.mpr fun e he => ?_
    have hsome : m.get? e.1 = some e.2 := mem_iff.mp he
    rw [h] at hsome
    cases hsome

variable {m' : SortedMap κ ν}

/-- **Extensionality**: a map is its lookup. -/
theorem ext_get? (h : ∀ k, m.get? k = m'.get? k) : m = m' := by
  have hmem : ∀ e, e ∈ m.entries ↔ e ∈ m'.entries := fun e => by
    rw [show e = (e.1, e.2) from rfl, mem_iff, mem_iff, h]
  have hentries : m.entries = m'.entries := by
    refine @List.Perm.eq_of_pairwise _ (fun a b => a.1 < b.1) _ _ ?_ m.sorted m'.sorted ?_
    · intro a b _ _ hab hba
      exact absurd (hab.trans hba) (lt_irrefl _)
    · refine (List.perm_ext_iff_of_nodup ?_ ?_).mpr hmem
      · exact m.sorted.imp fun hlt heq => absurd (by rw [heq]) hlt.ne
      · exact m'.sorted.imp fun hlt heq => absurd (by rw [heq]) hlt.ne
  cases m
  cases m'
  congr

/-- A map is no larger than one that has its keys. -/
theorem size_le (h : ∀ k v, m.get? k = some v → m'.get? k ≠ none) :
    m.size ≤ m'.size := by
  have hnodup : (m.entries.map Prod.fst).Nodup :=
    List.Pairwise.map Prod.fst (fun a b hlt => hlt.ne) m.sorted
  have hsubset : m.entries.map Prod.fst ⊆ m'.entries.map Prod.fst := by
    intro k hk
    obtain ⟨e, he, rfl⟩ := List.mem_map.mp hk
    obtain ⟨v, hv⟩ := Option.ne_none_iff_exists'.mp (h e.1 e.2 (mem_iff.mp he))
    exact List.mem_map.mpr ⟨(e.1, v), mem_iff.mpr hv, rfl⟩
  have hlength := (List.subperm_of_subset hnodup hsubset).length_le
  rwa [List.length_map, List.length_map] at hlength

theorem eq_of_size (h : ∀ k v, m.get? k = some v → m'.get? k = some v) (hsize : m.size = m'.size)
    : m = m' := by
  have hnodup : ∀ m : SortedMap κ ν, m.entries.Nodup := fun m =>
    m.sorted.imp fun hlt heq => absurd (by rw [heq]) hlt.ne
  have hsubset : m.entries ⊆ m'.entries := fun e he =>
    mem_iff.mpr (h e.1 e.2 (mem_iff.mp he))
  have hperm : m.entries.Perm m'.entries :=
    (List.subperm_of_subset (hnodup m) hsubset).perm_of_length_le hsize.ge
  refine ext_get? fun k => Option.ext fun v => ?_
  rw [← mem_iff, ← mem_iff]
  exact hperm.mem_iff

/-! ### Changes -/

section Changes

/-- The entries with one more, or with the value of an entry replaced. -/
def insertEntry (k : κ) (v : ν) : List (κ × ν) → List (κ × ν)
  | [] => [(k, v)]
  | e :: es =>
    if k < e.1 then (k, v) :: e :: es
    else if k = e.1 then (k, v) :: es
    else e :: insertEntry k v es

theorem mem_insertEntry {e : κ × ν} (h : e ∈ insertEntry k v es) : e = (k, v) ∨ e ∈ es := by
  induction es with
  | nil => exact .inl (List.mem_singleton.mp h)
  | cons x es ih =>
    unfold insertEntry at h
    split at h
    · exact List.mem_cons.mp h
    · split at h
      · exact (List.mem_cons.mp h).imp_right (List.mem_cons_of_mem x)
      · obtain rfl | h := List.mem_cons.mp h
        · exact .inr List.mem_cons_self
        · exact (ih h).imp_right (List.mem_cons_of_mem x)

theorem pairwise_insertEntry (hsorted : es.Pairwise fun a b => a.1 < b.1) :
    (insertEntry k v es).Pairwise fun a b => a.1 < b.1 := by
  induction es with
  | nil => exact List.pairwise_singleton _ _
  | cons x es ih =>
    obtain ⟨hlt, hrest⟩ := List.pairwise_cons.mp hsorted
    unfold insertEntry
    split
    · next hk =>
      refine List.pairwise_cons.mpr ⟨fun e he => ?_, hsorted⟩
      obtain rfl | he := List.mem_cons.mp he
      · exact hk
      · exact hk.trans (hlt e he)
    · next hge =>
      split
      · next hk =>
        subst hk
        exact List.pairwise_cons.mpr ⟨hlt, hrest⟩
      · next hne =>
        refine List.pairwise_cons.mpr ⟨fun e he => ?_, ih hrest⟩
        obtain rfl | he := mem_insertEntry he
        · exact lt_of_le_of_ne (not_lt.mp hge) (Ne.symm hne)
        · exact hlt e he

theorem find_insertEntry (es : List (κ × ν)) (x : κ) :
    find x (insertEntry k v es) = if k = x then some v else find x es := by
  induction es with
  | nil => rfl
  | cons e es ih =>
    unfold insertEntry
    split
    · rfl
    · split
      · next hk =>
        subst hk
        by_cases hx : e.1 = x <;> simp [find, hx]
      · next hk =>
        rw [find, ih]
        by_cases hx : e.1 = x
        · rw [if_pos hx, if_neg (by rw [← hx]; exact hk), find, if_pos hx]
        · rw [if_neg hx, find, if_neg hx]

variable (m)

def insert (k : κ) (v : ν) : SortedMap κ ν :=
  ⟨insertEntry k v m.entries, pairwise_insertEntry m.sorted⟩

/-- The entries that `keep` keeps. -/
def filter (keep : κ → ν → Bool) : SortedMap κ ν :=
  ⟨m.entries.filter fun e => keep e.1 e.2, m.sorted.sublist List.filter_sublist⟩

def erase (k : κ) : SortedMap κ ν := m.filter fun x _ => x ≠ k

/-- The entries of `m'` over those of `m`. -/
def extend (m' : SortedMap κ ν) : SortedMap κ ν :=
  m'.entries.foldl (fun m e => m.insert e.1 e.2) m

theorem get?_insert (k : κ) (v : ν) (x : κ) :
    (m.insert k v).get? x = if k = x then some v else m.get? x :=
  find_insertEntry m.entries x

theorem get?_filter (keep : κ → ν → Bool) (k : κ) :
    (m.filter keep).get? k = (m.get? k).filter (keep k) := by
  refine Option.ext fun v => ?_
  rw [← mem_iff]
  simp [filter, mem_iff, Option.filter_eq_some_iff]

/-- A filter that keeps every entry keeps the map. -/
theorem filter_eq_self {keep : κ → ν → Bool} (h : ∀ k v, m.get? k = some v → keep k v = true) :
    m.filter keep = m :=
  ext_get? fun k => by
    rw [get?_filter]
    cases hget : m.get? k with
    | none => rfl
    | some v => exact Option.filter_some_pos (h k v hget)

theorem get?_erase (k x : κ) : (m.erase k).get? x = if x = k then none else m.get? x := by
  rw [erase, get?_filter]
  by_cases hx : x = k
  · cases h : m.get? x <;> simp [hx]
  · cases h : m.get? x <;> simp [hx]

theorem get?_extend (m' : SortedMap κ ν) (k : κ) :
    (m.extend m').get? k = (m'.get? k).or (m.get? k) := by
  have hfold : ∀ (es : List (κ × ν)), es.Pairwise (fun a b => a.1 < b.1) → ∀ m : SortedMap κ ν,
      (es.foldl (fun m e => m.insert e.1 e.2) m).get? k = (find k es).or (m.get? k) := by
    intro es hsorted
    induction es with
    | nil => intro m; rfl
    | cons e es ih =>
      intro m
      obtain ⟨hlt, hrest⟩ := List.pairwise_cons.mp hsorted
      rw [List.foldl_cons, ih hrest, get?_insert, find]
      by_cases hk : e.1 = k
      · rw [if_pos hk, if_pos hk, find_eq_none fun x hx => hk ▸ (hlt x hx).ne']
        rfl
      · rw [if_neg hk, if_neg hk]
  exact hfold m'.entries m'.sorted m

theorem length_insertEntry (k : κ) (v : ν) (es : List (κ × ν)) :
    (insertEntry k v es).length ≤ es.length + 1 := by
  induction es with
  | nil => rfl
  | cons e es ih =>
    unfold insertEntry
    split
    · rfl
    · split
      · exact Nat.le_succ _
      · exact Nat.succ_le_succ ih

theorem size_insert_le (k : κ) (v : ν) : (m.insert k v).size ≤ m.size + 1 :=
  length_insertEntry k v m.entries

end Changes

end SortedMap

end

/-!
## Sets as sorted lists

A list sorted by a linear order and cleared of neighbours that are equal. What it is depends on the
members of the list alone.
-/

namespace SortedSet

open List

variable {α : Type} [DecidableEq α] (r : α → α → Prop) [DecidableRel r]

/-- The members of a list, in order and once each. -/
def ofList (l : List α) : List α := (l.insertionSort r).destutter (· ≠ ·)

variable [Std.Total r] [IsTrans α r] [Std.Antisymm r] {l l' : List α}

theorem ofList_eq_dedup (l : List α) : ofList r l = (l.insertionSort r).dedup :=
  (pairwise_insertionSort r l).destutter_eq_dedup

@[simp] theorem mem_ofList {a : α} : a ∈ ofList r l ↔ a ∈ l := by
  rw [ofList_eq_dedup, List.mem_dedup, mem_insertionSort]

omit [Std.Antisymm r] in
theorem pairwise_ofList (l : List α) : (ofList r l).Pairwise r :=
  (pairwise_insertionSort r l).sublist (destutter_sublist _ _)

theorem nodup_ofList (l : List α) : (ofList r l).Nodup := by
  rw [ofList_eq_dedup]
  exact nodup_dedup _

/-- **Lists with the same members** give the same sorted list. -/
theorem ofList_congr (h : ∀ a, a ∈ l ↔ a ∈ l') : ofList r l = ofList r l' := by
  have hperm : (ofList r l).Perm (ofList r l') := by
    rw [perm_ext_iff_of_nodup (nodup_ofList r l) (nodup_ofList r l')]
    intro a
    rw [mem_ofList, mem_ofList, h]
  exact hperm.eq_of_pairwise (fun a b _ _ hab hba => Std.Antisymm.antisymm a b hab hba)
    (pairwise_ofList r l) (pairwise_ofList r l')

theorem ofList_ofList (l : List α) : ofList r (ofList r l) = ofList r l :=
  ofList_congr r fun _ => mem_ofList r

end SortedSet
