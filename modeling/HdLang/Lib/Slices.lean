import HdLang.Lib.SortedMap
import Mathlib.Data.List.TakeWhile

/-!
# Slices of sorted lists

A list sorted by a key has the entries with one key in a row. `bucket` finds them by two partition
points; `ranges` notes, in one pass over a list, where the entries of each group begin and end;
`sortSlice` sorts such a part and leaves the rest. Each is read as a filter: the entries with one
key are those between the two ends (`bucket_eq_filter`, `slice_eq_filter`).
-/

namespace Slices

open List

variable {α κ : Type}

/-- The entries at `s` and after, before `e`. -/
def slice (l : List α) (s e : ℕ) : List α := (l.take e).drop s

/-- The number of entries before the first that `p` does not hold of. -/
def partitionPoint (p : α → Bool) (l : List α) : ℕ := (l.takeWhile p).length

@[simp] theorem length_slice (l : List α) (s e : ℕ) :
    (slice l s e).length = min e l.length - s := by
  rw [slice, length_drop, length_take]

theorem getElem?_slice {l : List α} {s e i : ℕ} (hi : s + i < e) :
    (slice l s e)[i]? = l[s + i]? := by
  rw [slice, getElem?_drop, getElem?_take_of_lt hi]

theorem slice_append_slice {l : List α} {s e : ℕ} (hse : s ≤ e) :
    l.take s ++ (slice l s e ++ l.drop e) = l := by
  have htake : l.take s ++ slice l s e = l.take e := by
    have hcut := take_append_drop s (l.take e)
    rwa [take_take, min_eq_left hse] at hcut
  rw [← append_assoc, htake, take_append_drop]

theorem mem_slice {l : List α} {s e : ℕ} {a : α} :
    a ∈ slice l s e ↔ ∃ i, s ≤ i ∧ i < e ∧ l[i]? = some a := by
  constructor
  · intro ha
    obtain ⟨i, hi⟩ := mem_iff_getElem?.mp ha
    have hlt : i < (slice l s e).length := (List.getElem?_eq_some_iff.mp hi).1
    rw [length_slice] at hlt
    have hse : s + i < e := by omega
    rw [getElem?_slice hse] at hi
    exact ⟨s + i, Nat.le_add_right s i, hse, hi⟩
  · rintro ⟨i, hs, he, hi⟩
    refine mem_iff_getElem?.mpr ⟨i - s, ?_⟩
    rw [getElem?_slice (by omega), Nat.add_sub_cancel' hs, hi]

/-- The entries with a property are those of a slice when it holds at the places of the slice. -/
theorem slice_eq_filter {l : List α} {s e : ℕ} {p : α → Bool} (hse : s ≤ e)
    (h : ∀ i a, l[i]? = some a → (p a = true ↔ s ≤ i ∧ i < e)) :
    slice l s e = l.filter p := by
  have hnone : ∀ m : List α, (∀ a ∈ m, ∃ i, l[i]? = some a ∧ ¬(s ≤ i ∧ i < e)) →
      m.filter p = [] := by
    intro m hm
    refine filter_eq_nil_iff.mpr fun a ha hp => ?_
    obtain ⟨i, hi, hout⟩ := hm a ha
    exact hout ((h i a hi).mp hp)
  have hbefore : (l.take s).filter p = [] := by
    refine hnone _ fun a ha => ?_
    obtain ⟨i, hi⟩ := mem_iff_getElem?.mp ha
    obtain ⟨hlt, _⟩ := List.getElem?_eq_some_iff.mp hi
    have his : i < s := lt_of_lt_of_le hlt (by rw [length_take]; exact min_le_left _ _)
    rw [List.getElem?_take_of_lt his] at hi
    exact ⟨i, hi, by omega⟩
  have hafter : (l.drop e).filter p = [] := by
    refine hnone _ fun a ha => ?_
    obtain ⟨i, hi⟩ := mem_iff_getElem?.mp ha
    rw [List.getElem?_drop] at hi
    exact ⟨e + i, hi, by omega⟩
  have hmid : (slice l s e).filter p = slice l s e := by
    refine List.filter_eq_self.mpr fun a ha => ?_
    obtain ⟨i, hs, he, hi⟩ := mem_slice.mp ha
    exact (h i a hi).mpr ⟨hs, he⟩
  calc
    slice l s e = (l.take s).filter p ++ ((slice l s e).filter p ++ (l.drop e).filter p) := by
      rw [hbefore, hafter, hmid, nil_append, append_nil]
    _ = (l.take s ++ (slice l s e ++ l.drop e)).filter p := by
      rw [filter_append, filter_append]
    _ = l.filter p := by rw [slice_append_slice hse]

/-! ### Sorting a part -/

section SortSlice

variable (r : α → α → Prop) [DecidableRel r] {l : List α} {s e s' e' : ℕ}

/-- The entries between `s` and `e` sorted. -/
def sortSlice (l : List α) (s e : ℕ) : List α :=
  l.take s ++ ((slice l s e).insertionSort r ++ l.drop e)

@[simp] theorem length_sortSlice (hse : s ≤ e) : (sortSlice r l s e).length = l.length := by
  have hlen := congrArg length (slice_append_slice (l := l) hse)
  rw [length_append, length_append] at hlen
  rw [sortSlice, length_append, length_append, length_insertionSort, hlen]

theorem slice_sortSlice (hse : s ≤ e) (he : e ≤ l.length) :
    slice (sortSlice r l s e) s e = (slice l s e).insertionSort r := by
  have hs : (l.take s).length = s := length_take_of_le (hse.trans he)
  have hmid : ((slice l s e).insertionSort r).length = e - s := by
    rw [length_insertionSort, length_slice, min_eq_left he]
  have hboth : (l.take s ++ (slice l s e).insertionSort r).length = e := by
    rw [length_append, hs, hmid, Nat.add_sub_cancel' hse]
  rw [slice, sortSlice, ← append_assoc, take_left' hboth, drop_left' hs]

theorem slice_sortSlice_of_disjoint (hse : s ≤ e) (he : e ≤ l.length) (hle' : e' ≤ l.length)
    (h : ∀ i, s ≤ i → i < e → ¬(s' ≤ i ∧ i < e')) :
    slice (sortSlice r l s e) s' e' = slice l s' e' := by
  have hs : (l.take s).length = s := length_take_of_le (hse.trans he)
  have hmid : ((slice l s e).insertionSort r).length = e - s := by
    rw [length_insertionSort, length_slice, min_eq_left he]
  refine ext_getElem? fun i => ?_
  by_cases hi : s' + i < e'
  · rw [getElem?_slice hi, getElem?_slice hi, sortSlice]
    have hout : s' + i < s ∨ e ≤ s' + i := by
      by_contra hin
      exact h (s' + i) (by omega) (by omega) ⟨by omega, hi⟩
    rcases hout with hlt | hge
    · rw [getElem?_append_left (hs.symm ▸ hlt), getElem?_take_of_lt hlt]
    · rw [getElem?_append_right (by omega), getElem?_append_right (by omega), hs, hmid,
        getElem?_drop]
      congr 1
      omega
  · have hnone : ∀ m : List α, m.length = l.length → (slice m s' e')[i]? = none := by
      intro m hm
      refine getElem?_eq_none ?_
      rw [length_slice, hm]
      omega
    rw [hnone _ (length_sortSlice r hse), hnone _ rfl]

end SortSlice

/-! ### Buckets -/

section Bucket

variable [LinearOrder κ] (key : α → κ)

/-- The entries of a sorted list with one key. -/
def bucket (l : List α) (k : κ) : List α :=
  slice l (partitionPoint (fun a => key a < k) l) (partitionPoint (fun a => key a ≤ k) l)

/-- What holds of no entry after one it does not hold of, holds of the first entries. -/
theorem takeWhile_eq_filter {p : α → Bool} {l : List α}
    (h : l.Pairwise fun a b => p b = true → p a = true) : l.takeWhile p = l.filter p := by
  induction l with
  | nil => rfl
  | cons a l ih =>
    obtain ⟨ha, hl⟩ := pairwise_cons.mp h
    by_cases hp : p a = true
    · rw [takeWhile_cons_of_pos hp, filter_cons_of_pos hp, ih hl]
    · rw [takeWhile_cons_of_neg hp, filter_cons_of_neg hp, eq_comm, filter_eq_nil_iff]
      exact fun b hb hpb => hp (ha b hb hpb)

/-- **A bucket** holds the entries with its key. -/
theorem bucket_eq_filter {l : List α} (h : l.Pairwise fun a b => key a ≤ key b) (k : κ) :
    bucket key l k = l.filter fun a => key a = k := by
  have hlt : l.takeWhile (fun a => decide (key a < k)) = l.filter fun a => key a < k := by
    refine takeWhile_eq_filter (h.imp fun {a b} hab hb => ?_)
    rw [decide_eq_true_eq] at hb ⊢
    exact lt_of_le_of_lt hab hb
  have hle : l.takeWhile (fun a => decide (key a ≤ k)) = l.filter fun a => key a ≤ k := by
    refine takeWhile_eq_filter (h.imp fun {a b} hab hb => ?_)
    rw [decide_eq_true_eq] at hb ⊢
    exact le_trans hab hb
  -- the smaller keys stand before the key itself
  have hsplit : (l.filter fun a => key a ≤ k) =
      (l.filter fun a => key a < k) ++ l.filter fun a => key a = k := by
    clear hlt hle
    induction l with
    | nil => rfl
    | cons a l ih =>
      obtain ⟨ha, hl⟩ := pairwise_cons.mp h
      rcases lt_trichotomy (key a) k with hlt | heq | hgt
      · simp [hlt, hlt.le, hlt.ne, ih hl]
      · have hnone : (l.filter fun b => key b < k) = [] := by
          refine filter_eq_nil_iff.mpr fun b hb hlt => ?_
          rw [decide_eq_true_eq] at hlt
          exact absurd (ha b hb) (not_le.mpr (heq ▸ hlt))
        simp only [filter_cons, heq, le_refl, lt_irrefl, decide_true, decide_false, if_true,
          Bool.false_eq_true, if_false, ih hl, hnone, nil_append]
      · simp [not_le.mpr hgt, not_lt.mpr hgt.le, hgt.ne', ih hl]
  have htake : l.take (l.takeWhile fun a => decide (key a ≤ k)).length =
      l.takeWhile fun a => decide (key a ≤ k) :=
    (prefix_iff_eq_take.mp (List.takeWhile_prefix _)).symm
  unfold bucket partitionPoint slice
  rw [htake, hle, hlt, hsplit, drop_left]

end Bucket

/-! ### Groups -/

section Groups

variable [LinearOrder κ]

/-- Entry `i` is of group `k`: the group's range is widened to end after it, or begins there. -/
def note (m : SortedMap κ (ℕ × ℕ)) (i : ℕ) (k : κ) : SortedMap κ (ℕ × ℕ) :=
  match m.get? k with
  | some (s, _) => m.insert k (s, i + 1)
  | none => m.insert k (i, i + 1)

/-- The range of each group, of the entries from `i` on. -/
def rangesFrom : SortedMap κ (ℕ × ℕ) → ℕ → List κ → SortedMap κ (ℕ × ℕ)
  | m, _, [] => m
  | m, i, k :: ks => rangesFrom (note m i k) (i + 1) ks

/-- The range of each group. -/
def ranges (ks : List κ) : SortedMap κ (ℕ × ℕ) := rangesFrom SortedMap.empty 0 ks

/-- `m` has the range of each group of `ks`. -/
structure Ranged (ks : List κ) (m : SortedMap κ (ℕ × ℕ)) : Prop where
  le : ∀ {k s e}, m.get? k = some (s, e) → s < e ∧ e ≤ ks.length
  iff : ∀ {k s e}, m.get? k = some (s, e) → ∀ {i k'}, ks[i]? = some k' → (k' = k ↔ s ≤ i ∧ i < e)
  none : ∀ {k}, m.get? k = none → k ∉ ks

/-- The entries of each group are next to each other. -/
def Grouped (ks : List κ) : Prop :=
  ∀ {i j l : ℕ} {k : κ}, i ≤ j → j ≤ l → ks[i]? = some k → ks[l]? = some k → ks[j]? = some k

theorem Ranged.nil : Ranged ([] : List κ) SortedMap.empty where
  le h := nomatch h
  iff h := nomatch h
  none _ := not_mem_nil

theorem Ranged.note {ks : List κ} {k : κ} {m : SortedMap κ (ℕ × ℕ)} (h : Ranged ks m)
    (hg : Grouped (ks ++ [k])) : Ranged (ks ++ [k]) (note m ks.length k) := by
  have hlast : (ks ++ [k])[ks.length]? = some k := by simp
  -- where the range of the new entry's group begins
  obtain ⟨s, hnote, hs, hmem⟩ : ∃ s, Slices.note m ks.length k = m.insert k (s, ks.length + 1) ∧
      s ≤ ks.length ∧ ∀ {i k'}, ks[i]? = some k' → (k' = k ↔ s ≤ i) := by
    unfold Slices.note
    cases hget : m.get? k with
    | none =>
      refine ⟨ks.length, rfl, le_refl _, fun {i k'} hi => ?_⟩
      have hlt : i < ks.length := (List.getElem?_eq_some_iff.mp hi).1
      refine ⟨fun heq => absurd (mem_of_getElem? (heq ▸ hi)) (h.none hget), fun hle => ?_⟩
      exact absurd hlt (not_lt.mpr hle)
    | some r =>
      obtain ⟨s, e⟩ := r
      obtain ⟨hse, hle⟩ := h.le hget
      refine ⟨s, rfl, hse.le.trans hle, fun {i k'} hi => ?_⟩
      have hlt : i < ks.length := (List.getElem?_eq_some_iff.mp hi).1
      refine ⟨fun heq => ((h.iff hget hi).mp heq).1, fun hsi => ?_⟩
      have hat : ∀ {j k''}, ks[j]? = some k'' → (ks ++ [k])[j]? = some k'' := fun {j k''} hj => by
        rw [List.getElem?_append_left (List.getElem?_eq_some_iff.mp hj).1, hj]
      have hfirst : ks[s]? = some k := by
        have hs : s < ks.length := hse.trans_le hle
        rw [List.getElem?_eq_getElem hs]
        exact congrArg some ((h.iff hget (List.getElem?_eq_getElem hs)).mpr ⟨le_refl s, hse⟩)
      have hbetween := hg hsi hlt.le (hat hfirst) hlast
      rw [hat hi] at hbetween
      exact Option.some.inj hbetween
  rw [hnote]
  have hstep : ∀ {i k'}, (ks ++ [k])[i]? = some k' →
      ks[i]? = some k' ∧ i < ks.length ∨ i = ks.length ∧ k' = k := by
    intro i k' hi
    have hlt : i < (ks ++ [k]).length := (List.getElem?_eq_some_iff.mp hi).1
    rw [length_append, length_singleton] at hlt
    obtain hlt | rfl := Nat.lt_succ_iff_lt_or_eq.mp hlt
    · rw [List.getElem?_append_left hlt] at hi
      exact Or.inl ⟨hi, hlt⟩
    · rw [hlast] at hi
      exact Or.inr ⟨rfl, (Option.some.inj hi).symm⟩
  have hlen : (ks ++ [k]).length = ks.length + 1 := by simp
  constructor
  · intro k' s' e' hget
    rw [SortedMap.get?_insert] at hget
    split at hget
    · cases hget
      exact ⟨Nat.lt_succ_of_le hs, hlen.ge⟩
    · obtain ⟨hse, hle⟩ := h.le hget
      exact ⟨hse, by omega⟩
  · intro k' s' e' hget i k'' hi
    rw [SortedMap.get?_insert] at hget
    split at hget
    · next heq =>
      cases hget
      subst heq
      rcases hstep hi with ⟨hi, hlt⟩ | ⟨rfl, rfl⟩
      · rw [hmem hi]
        exact ⟨fun hle => ⟨hle, Nat.lt_succ_of_lt hlt⟩, And.left⟩
      · exact ⟨fun _ => ⟨hs, Nat.lt_succ_self _⟩, fun _ => rfl⟩
    · next hne =>
      rcases hstep hi with ⟨hi, hlt⟩ | ⟨rfl, rfl⟩
      · exact h.iff hget hi
      · have hle := (h.le hget).2
        refine ⟨fun heq => absurd heq hne, fun hlt => ?_⟩
        omega
  · intro k' hget
    rw [SortedMap.get?_insert] at hget
    split at hget
    · cases hget
    · next hne =>
      rw [mem_append, mem_singleton]
      exact fun hmem => hmem.elim (h.none hget) fun heq => hne heq.symm

theorem Ranged.from {ks ks' : List κ} {m : SortedMap κ (ℕ × ℕ)} (h : Ranged ks m)
    (hg : Grouped (ks ++ ks')) : Ranged (ks ++ ks') (rangesFrom m ks.length ks') := by
  induction ks' generalizing ks m with
  | nil =>
    rw [append_nil]
    exact h
  | cons k ks' ih =>
    have happ : ks ++ k :: ks' = (ks ++ [k]) ++ ks' := by simp
    rw [happ] at hg ⊢
    have hshort : Grouped (ks ++ [k]) := by
      intro i j l k' hij hjl hi hl
      have hat : ∀ {j : ℕ} {k''}, (ks ++ [k])[j]? = some k'' →
          (ks ++ [k] ++ ks')[j]? = some k'' := by
        intro j k'' hj
        rw [List.getElem?_append_left (List.getElem?_eq_some_iff.mp hj).1, hj]
      have hj := hg hij hjl (hat hi) (hat hl)
      have hlt : j < (ks ++ [k]).length := lt_of_le_of_lt hjl (List.getElem?_eq_some_iff.mp hl).1
      rwa [List.getElem?_append_left hlt] at hj
    have hlen : (ks ++ [k]).length = ks.length + 1 := by simp
    have hnext := ih (h.note hshort) hg
    rwa [hlen] at hnext

/-- **The ranges of a list** whose groups are together. -/
theorem ranged_ranges {ks : List κ} (hg : Grouped ks) : Ranged ks (ranges ks) := Ranged.nil.from hg

omit [LinearOrder κ] in
/-- A list sorted by a rank that tells its entries apart has its groups together. -/
theorem grouped_of_pairwise {ρ : Type} [LinearOrder ρ] {rank : κ → ρ} {ks : List κ}
    (hinj : ∀ k ∈ ks, ∀ k' ∈ ks, rank k = rank k' → k = k')
    (h : ks.Pairwise fun k k' => rank k ≤ rank k') : Grouped ks := by
  have hmono : ∀ {i j : ℕ} {k k'}, i ≤ j → ks[i]? = some k → ks[j]? = some k' →
      rank k ≤ rank k' := by
    intro i j k k' hij hi hj
    obtain ⟨hi', rfl⟩ := List.getElem?_eq_some_iff.mp hi
    obtain ⟨hj', rfl⟩ := List.getElem?_eq_some_iff.mp hj
    obtain rfl | hlt := hij.eq_or_lt
    · exact le_refl _
    · exact pairwise_iff_getElem.mp h i j hi' hj' hlt
  intro i j l k hij hjl hi hl
  have hlt : j < ks.length := lt_of_le_of_lt hjl (List.getElem?_eq_some_iff.mp hl).1
  have hj : ks[j]? = some ks[j] := List.getElem?_eq_getElem hlt
  have heq : rank ks[j] = rank k := le_antisymm (hmono hjl hj hl) (hmono hij hi hj)
  rw [hj, hinj _ (getElem_mem hlt) _ (mem_of_getElem? hi) heq]

end Groups

end Slices
