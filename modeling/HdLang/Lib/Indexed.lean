import Mathlib.Algebra.BigOperators.Group.List.Basic
import Mathlib.Algebra.GroupWithZero.Nat
import Mathlib.Data.List.Nodup

/-!
# Lists indexed by a key

A list that grows at its end with a map from the keys of its elements to their places. An element
may have no key; a key is pushed while it is not indexed, so it stands at one place.
-/

universe u v

namespace Indexed

open Function List Option

variable {α : Type u} {κ : Type v} {key : α → Option κ} {L : List α} {m : κ → Option ℕ} {x : α}
  {k : κ}

/-- A longer list has the same elements at the old places. -/
theorem getElem?_of_initial {L' : List α} {i : ℕ} (h : L <+: L') (hx : L[i]? = some x) :
    L'[i]? = some x := by
  obtain ⟨t, rfl⟩ := h
  rw [List.getElem?_append_left (List.getElem?_eq_some_iff.mp hx).1, hx]

/-- `m` has the place in `L` of each key. -/
def IndexOf (key : α → Option κ) (L : List α) (m : κ → Option ℕ) : Prop :=
  ∀ k i, m k = some i ↔ ∃ x, L[i]? = some x ∧ key x = some k

theorem IndexOf.nil : IndexOf key [] (fun _ : κ => none) := by simp [IndexOf]

theorem IndexOf.of_none (h : ∀ x ∈ L, key x = none) : IndexOf key L (fun _ : κ => none) := by
  intro k i
  simp only [reduceCtorEq, false_iff, not_exists, not_and]
  intro x hx hk
  rw [h x (mem_of_getElem? hx)] at hk
  cases hk

namespace IndexOf

variable (hL : IndexOf key L m)
include hL

theorem isSome_iff : (m k).isSome ↔ ∃ x ∈ L, key x = some k := by
  rw [isSome_iff_exists]
  constructor
  · rintro ⟨i, hi⟩
    obtain ⟨x, hx, hk⟩ := (hL k i).mp hi
    exact ⟨x, mem_of_getElem? hx, hk⟩
  · rintro ⟨x, hx, hk⟩
    obtain ⟨i, hi⟩ := mem_iff_getElem?.mp hx
    exact ⟨i, (hL k i).mpr ⟨x, hi, hk⟩⟩

theorem inj {i j : ℕ} {y : α} (hx : L[i]? = some x) (hy : L[j]? = some y) (hkx : key x = some k)
    (hky : key y = some k) : i = j := by
  have hi := (hL k i).mpr ⟨x, hx, hkx⟩
  rw [(hL k j).mpr ⟨y, hy, hky⟩] at hi
  exact (some.inj hi).symm

/-- **One more element**, whose key is new. -/
theorem push [DecidableEq κ] (hk : key x = some k) (hnew : m k = none) :
    IndexOf key (L ++ [x]) (Function.update m k (some L.length)) := by
  intro k' i
  have hlast : (L ++ [x])[i]? = if i < L.length then L[i]? else if i = L.length then some x
      else none := by
    rw [List.getElem?_append]
    split
    · rfl
    · rw [List.getElem?_singleton]
      congr 1
      exact propext ⟨by omega, by omega⟩
  rw [update_apply, hlast]
  split
  · next heq =>
    subst heq
    constructor
    · intro hi
      obtain rfl := some.inj hi
      exact ⟨x, by simp, hk⟩
    · rintro ⟨y, hy, hky⟩
      split at hy
      · rw [(hL k' i).mpr ⟨y, hy, hky⟩] at hnew
        cases hnew
      · split at hy
        · next hi => rw [hi]
        · cases hy
  · next hne =>
    rw [hL k' i]
    constructor
    · rintro ⟨y, hy, hky⟩
      exact ⟨y, by rw [if_pos (List.getElem?_eq_some_iff.mp hy).1, hy], hky⟩
    · rintro ⟨y, hy, hky⟩
      split at hy
      · exact ⟨y, hy, hky⟩
      · split at hy
        · obtain rfl := some.inj hy
          exact absurd (some.inj (hky.symm.trans hk)) hne
        · cases hy

omit hL in
theorem nodup_map {M : List α} {f : α → κ} (hL : IndexOf key (L ++ M) m)
    (hf : ∀ x ∈ M, key x = some (f x)) : (M.map f).Nodup := by
  have hat : ∀ i, (L ++ M)[L.length + i]? = M[i]? := fun i => by
    rw [getElem?_append_right (Nat.le_add_right ..), Nat.add_sub_cancel_left]
  rw [nodup_iff_getElem?_ne_getElem?]
  intro i j hij hj heq
  rw [length_map] at hj
  have hx := getElem?_eq_getElem (Nat.lt_trans hij hj)
  have hy := getElem?_eq_getElem hj
  rw [getElem?_map, getElem?_map, hx, hy] at heq
  have hkey : f M[i] = f M[j] := by simpa using heq
  have hkx := hf M[i] (getElem_mem _)
  rw [hkey] at hkx
  have hplace := hL.inj ((hat i).trans hx) ((hat j).trans hy) hkx (hf M[j] (getElem_mem _))
  omega

end IndexOf

section Updates

variable {β : Type u} {F : List α} {f : α → κ} {g : α → Option β} {m₀ : κ → Option β}
  [DecidableEq κ]

theorem foldl_update_of_notMem (hk : k ∉ F.map f) :
    F.foldl (fun m x => Function.update m (f x) (g x)) m₀ k = m₀ k := by
  induction F generalizing m₀ with
  | nil => rfl
  | cons x F ih =>
    rw [map_cons, mem_cons, not_or] at hk
    rw [foldl_cons, ih hk.2, update_of_ne hk.1]

/-- Updates at distinct keys do not undo each other. -/
theorem foldl_update_of_mem (hF : (F.map f).Nodup) (hx : x ∈ F) :
    F.foldl (fun m x => Function.update m (f x) (g x)) m₀ (f x) = g x := by
  induction F generalizing m₀ with
  | nil => cases hx
  | cons y F ih =>
    rw [map_cons, nodup_cons] at hF
    rw [foldl_cons]
    obtain rfl | hx := mem_cons.mp hx
    · rw [foldl_update_of_notMem hF.1, update_self]
    · exact ih hF.2 hx

end Updates

/-- A list of partial results that are all there has them at the old places. -/
theorem getElem?_filterMap {β : Type u} {L : List α} {f : α → Option β} (h : ∀ x ∈ L, (f x).isSome)
    (i : ℕ) : (L.filterMap f)[i]? = L[i]?.bind f := by
  induction L generalizing i with
  | nil => rfl
  | cons x L ih =>
    rw [forall_mem_cons] at h
    obtain ⟨y, hy⟩ := isSome_iff_exists.mp h.1
    rw [filterMap_cons_some hy]
    cases i with
    | zero => simp [hy]
    | succ i => simpa using ih h.2 i

/-- A sum over elements with distinct keys is bounded by a sum over elements that have the same
keys. -/
theorem sum_le_of_keys {β : Type u} {F : List α} {S : List β} {f : α → κ} {g : β → κ} {a : α → ℕ}
    {b : β → ℕ} (hF : (F.map f).Nodup) (h : ∀ x ∈ F, ∃ y ∈ S, g y = f x ∧ a x ≤ b y) :
    (F.map a).sum ≤ (S.map b).sum := by
  classical
  induction F generalizing S with
  | nil => simp
  | cons x F ih =>
    rw [map_cons, nodup_cons] at hF
    rw [forall_mem_cons] at h
    obtain ⟨⟨y, hy, hkey, hle⟩, hrest⟩ := h
    have hrest' : ∀ x' ∈ F, ∃ y' ∈ S.erase y, g y' = f x' ∧ a x' ≤ b y' := by
      intro x' hx'
      obtain ⟨y', hy', hkey', hle'⟩ := hrest x' hx'
      refine ⟨y', (mem_erase_of_ne ?_).mpr hy', hkey', hle'⟩
      rintro rfl
      exact hF.1 (mem_map.mpr ⟨x', hx', hkey'.symm.trans hkey⟩)
    have hsum : (S.map b).sum = b y + ((S.erase y).map b).sum := by
      rw [((perm_cons_erase hy).map b).sum_eq, map_cons, sum_cons]
    have := ih hF.2 hrest'
    rw [map_cons, sum_cons, hsum]
    omega

end Indexed
