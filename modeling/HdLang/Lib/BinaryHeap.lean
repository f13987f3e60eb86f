import Mathlib.Data.List.Perm.Basic
import Mathlib.Algebra.Order.Group.Nat

/-!
# Binary heaps in a list

The children of the item at `i` are at `2 * i + 1` and `2 * i + 2`. `HeapFrom r lo l` says that every
item whose parent is at `lo` or after is at most its parent; with `lo = 0` the list is a heap.

A sift exchanges an item with its parent, or with a larger child, until it is in place. `UpReady` and
`DownReady` are what it needs of the order around the item: an exchange keeps them (`move`), and where
the item is in place the list is a heap (`finish`).
-/

universe u

namespace BinaryHeap

open List Option

variable {α : Type u}

/-- The place of the parent. -/
def parent (i : ℕ) : ℕ := (i - 1) / 2

theorem parent_lt {i : ℕ} (hi : 0 < i) : parent i < i := by
  unfold parent
  omega

theorem parent_eq_iff {c p : ℕ} (hc : 0 < c) : parent c = p ↔ c = 2 * p + 1 ∨ c = 2 * p + 2 := by
  unfold parent
  omega

/-- The items at two places exchanged. -/
def exchange (l : List α) (i j : ℕ) : List α :=
  match l[i]?, l[j]? with
  | some x, some y => (l.set i y).set j x
  | _, _ => l

section Exchange

variable {l : List α} {i j : ℕ} {x y : α}

theorem exchange_eq (hi : l[i]? = some x) (hj : l[j]? = some y) :
    exchange l i j = (l.set i y).set j x := by
  rw [exchange, hi, hj]

theorem exchange_perm (l : List α) (i j : ℕ) : (exchange l i j).Perm l := by
  unfold exchange
  split
  · next hx hy =>
    obtain ⟨hi, rfl⟩ := List.getElem?_eq_some_iff.mp hx
    obtain ⟨hj, rfl⟩ := List.getElem?_eq_some_iff.mp hy
    exact set_set_perm hi hj
  · exact List.Perm.refl l

theorem getElem?_exchange (hi : l[i]? = some x) (hj : l[j]? = some y) (k : ℕ) :
    (exchange l i j)[k]? = if k = j then some x else if k = i then some y else l[k]? := by
  have hi' : i < l.length := (List.getElem?_eq_some_iff.mp hi).1
  have hj' : j < l.length := (List.getElem?_eq_some_iff.mp hj).1
  rw [exchange_eq hi hj]
  by_cases hkj : k = j
  · subst hkj
    rw [if_pos rfl, List.getElem?_set_self (by rwa [length_set])]
  · rw [if_neg hkj, List.getElem?_set_ne (Ne.symm hkj)]
    by_cases hki : k = i
    · subst hki
      rw [if_pos rfl, List.getElem?_set_self hi']
    · rw [if_neg hki, List.getElem?_set_ne (Ne.symm hki)]

end Exchange

variable (r : α → α → Prop)

/-- The item at `c` is at most the one at `p`, if there are both. -/
def Below (l : List α) (c p : ℕ) : Prop := ∀ x y, l[c]? = some x → l[p]? = some y → r x y

/-- Every item whose parent is at `lo` or after is at most its parent. -/
def HeapFrom (lo : ℕ) (l : List α) : Prop := ∀ i, 0 < i → lo ≤ parent i → Below r l i (parent i)

/-- What a sift up of the item at `hole` needs: every other item is in order, and the children of the
hole with the hole's parent. -/
structure UpReady (l : List α) (hole : ℕ) : Prop where
  except : ∀ i, 0 < i → i ≠ hole → Below r l i (parent i)
  grand : 0 < hole → ∀ c, 0 < c → parent c = hole → Below r l c (parent hole)

/-- What a sift down of the item at `hole` needs: every item with another parent is in order, and the
children of the hole with the hole's parent. -/
structure DownReady (lo : ℕ) (l : List α) (hole : ℕ) : Prop where
  except : ∀ i, 0 < i → lo ≤ parent i → parent i ≠ hole → Below r l i (parent i)
  grand : 0 < hole → lo ≤ parent hole → ∀ c, 0 < c → parent c = hole → Below r l c (parent hole)

variable {r} {l : List α} {hole child lo : ℕ} {value x y : α}

/-! ### Up -/

namespace UpReady

theorem move [IsTrans α r] [Std.Refl r] (h : UpReady r l hole) (hpos : 0 < hole)
    (hhole : l[hole]? = some value) (hparent : l[parent hole]? = some x) (hlt : r x value) :
    UpReady r (exchange l hole (parent hole)) (parent hole) := by
  have hlt' := parent_lt hpos
  have hget := getElem?_exchange hhole hparent
  have hne : parent hole ≠ hole := hlt'.ne
  constructor
  · intro i hi hip a b ha hb
    rw [hget] at ha hb
    rw [if_neg hip] at ha
    by_cases hih : i = hole
    · subst hih
      rw [if_pos rfl] at ha hb
      rw [← some.inj ha, ← some.inj hb]
      exact hlt
    · rw [if_neg hih] at ha
      by_cases hpp : parent i = parent hole
      · rw [if_pos hpp] at hb
        obtain rfl := some.inj hb
        exact IsTrans.trans _ _ _ (h.except i hi hih a x ha (hpp ▸ hparent)) hlt
      · rw [if_neg hpp] at hb
        by_cases hph : parent i = hole
        · rw [if_pos hph] at hb
          obtain rfl := some.inj hb
          exact h.grand hpos i hi hph a x ha hparent
        · rw [if_neg hph] at hb
          exact h.except i hi hih a b ha hb
  · intro hpos' c hc hcp a b ha hb
    have hpp := parent_lt hpos'
    rw [hget] at ha hb
    rw [if_neg hpp.ne, if_neg (by omega)] at hb
    have hpx : r x b := h.except (parent hole) hpos' hne x b hparent hb
    have hcne : c ≠ parent hole := fun heq => by
      have := parent_lt hc
      omega
    rw [if_neg hcne] at ha
    by_cases hch : c = hole
    · rw [if_pos hch] at ha
      rwa [← some.inj ha]
    · rw [if_neg hch] at ha
      exact IsTrans.trans _ _ _ (h.except c hc hch a x ha (hcp ▸ hparent)) hpx

/-- The item is in place below a parent that is not smaller. -/
theorem finish (h : UpReady r l hole) (hstop : 0 < hole → Below r l hole (parent hole)) :
    HeapFrom r 0 l := by
  intro i hi _
  by_cases hih : i = hole
  · subst hih
    exact hstop hi
  · exact h.except i hi hih

end UpReady

/-! ### Down -/

namespace DownReady

theorem move [Std.Refl r] (h : DownReady r lo l hole) (hhole : l[hole]? = some value)
    (hchild : l[child]? = some x) (hpos : 0 < child) (hparent : parent child = hole)
    (hlo : lo ≤ hole) (hlt : r value x)
    (hlarger : ∀ c, 0 < c → parent c = hole → Below r l c child) :
    DownReady r lo (exchange l hole child) child := by
  have hgt : hole < child := hparent ▸ parent_lt hpos
  have hget := getElem?_exchange hhole hchild
  constructor
  · intro i hi hlei hpi a b ha hb
    rw [hget] at ha hb
    rw [if_neg hpi] at hb
    by_cases hic : i = child
    · subst hic
      rw [if_pos rfl] at ha
      rw [if_pos hparent] at hb
      rw [← some.inj ha, ← some.inj hb]
      exact hlt
    · rw [if_neg hic] at ha
      by_cases hph : parent i = hole
      · rw [if_pos hph] at hb
        have hih : i ≠ hole := by
          have := parent_lt hi
          omega
        rw [if_neg hih] at ha
        obtain rfl := some.inj hb
        exact hlarger i hi hph a x ha hchild
      · rw [if_neg hph] at hb
        by_cases hih : i = hole
        · subst hih
          rw [if_pos rfl] at ha
          obtain rfl := some.inj ha
          exact h.grand hi hlei child hpos hparent x b hchild hb
        · rw [if_neg hih] at ha
          exact h.except i hi hlei hph a b ha hb
  · intro _ _ c hc hcp a b ha hb
    have hcgt : child < c := hcp ▸ parent_lt hc
    rw [hget] at ha hb
    rw [hparent, if_neg hgt.ne, if_pos rfl] at hb
    rw [if_neg hcgt.ne', if_neg (hgt.trans hcgt).ne'] at ha
    obtain rfl := some.inj hb
    have hlec : lo ≤ parent c := by omega
    exact h.except c hc hlec (by omega) a x ha (hcp ▸ hchild)

/-- The item is in place above children that are not larger. -/
theorem finish (h : DownReady r lo l hole) (hstop : ∀ c, 0 < c → parent c = hole → Below r l c hole)
    : HeapFrom r lo l := by
  intro i hi hlei
  by_cases hph : parent i = hole
  · rw [hph]
    exact hstop i hi hph
  · exact h.except i hi hlei hph

theorem of_heapFrom (h : HeapFrom r (hole + 1) l) (l' : List α)
    (hl : ∀ i, i ≠ hole → l'[i]? = l[i]?) : DownReady r hole l' hole where
  except i hi hlei hph a b ha hb := by
    have hne : i ≠ hole := by
      have := parent_lt hi
      omega
    rw [hl i hne] at ha
    rw [hl _ hph] at hb
    exact h i hi (by omega) a b ha hb
  grand hpos hlei := absurd (parent_lt hpos) (not_lt.mpr hlei)

end DownReady

/-- **The root of a heap** is a largest item. -/
theorem root_largest [IsTrans α r] [Std.Refl r] (h : HeapFrom r 0 l) (hroot : l[0]? = some x) :
    ∀ a ∈ l, r a x := by
  have hall : ∀ (i : ℕ) (a : α), l[i]? = some a → r a x := by
    intro i
    induction i using Nat.strong_induction_on with
    | _ i ih =>
      intro a ha
      by_cases hi : i = 0
      · subst hi
        rw [hroot] at ha
        rw [some.inj ha]
        exact Std.Refl.refl a
      · have hpos : 0 < i := Nat.pos_of_ne_zero hi
        have hlt := parent_lt hpos
        have hlen : parent i < l.length := hlt.trans (List.getElem?_eq_some_iff.mp ha).1
        have hp := List.getElem?_eq_getElem hlen
        exact IsTrans.trans _ _ _ (h i hpos (Nat.zero_le _) a _ ha hp) (ih _ hlt _ hp)
  intro a ha
  obtain ⟨i, hi⟩ := mem_iff_getElem?.mp ha
  exact hall i a hi

theorem HeapFrom.prefix_ {m : List α} (h : HeapFrom r lo (l ++ m)) : HeapFrom r lo l := by
  intro i hi hlei a b ha hb
  have hat : ∀ {j c}, l[j]? = some c → (l ++ m)[j]? = some c := fun {j c} hj => by
    rw [List.getElem?_append_left (List.getElem?_eq_some_iff.mp hj).1, hj]
  exact h i hi hlei a b (hat ha) (hat hb)

theorem UpReady.of_append (h : HeapFrom r 0 l) (value : α) : UpReady r (l ++ [value]) l.length where
  except i hi hne a b ha hb := by
    have hlt : i < l.length := by
      have hlt := (List.getElem?_eq_some_iff.mp ha).1
      rw [length_append, length_singleton] at hlt
      omega
    have hlt' := (parent_lt hi).trans hlt
    rw [List.getElem?_append_left hlt] at ha
    rw [List.getElem?_append_left hlt'] at hb
    exact h i hi (Nat.zero_le _) a b ha hb
  grand _ c hc hcp a _ ha := by
    have hlt := (List.getElem?_eq_some_iff.mp ha).1
    have hgt : l.length < c := hcp ▸ parent_lt hc
    rw [length_append, length_singleton] at hlt
    omega

end BinaryHeap
