import Mathlib.Data.List.Sort
import Mathlib.Algebra.BigOperators.Group.List.Basic

/-!
# Merging sorted lists

Several sorted lists are merged by taking the least of their first entries each time, of equal ones
the first list's. The result is sorted and has the entries of all lists.
-/

namespace Merging

open List Option

variable {α : Type} [LinearOrder α]

/-- The list with the least first entry, by its place, with that entry. -/
@[grind =] def best : List (List α) → Option (ℕ × α)
  | [] => none
  | [] :: ls => (best ls).map fun (i, x) => (i + 1, x)
  | (x :: _) :: ls =>
    match best ls with
    | some (i, y) => if y < x then some (i + 1, y) else some (0, x)
    | none => some (0, x)

/-- The entries in the order in which they are taken, `n` at most. -/
def take : ℕ → List (List α) → List α
  | 0, _ => []
  | n + 1, ls =>
    match best ls with
    | some (i, x) => x :: take n (ls.modify i List.tail)
    | none => []

/-- All entries, in the order in which they are taken. -/
def merge (ls : List (List α)) : List α := take ls.flatten.length ls

variable {ls : List (List α)} {i : ℕ} {x : α}

theorem best_eq_none : best ls = none ↔ ls.flatten = [] := by
  induction ls with
  | nil => simp [best]
  | cons l ls ih =>
    cases l with
    | nil => rw [best, map_eq_none_iff, ih, flatten_cons, nil_append]
    | cons y l =>
      rw [best, flatten_cons, cons_append]
      refine iff_of_false ?_ (cons_ne_nil _ _)
      split
      · split <;> exact some_ne_none _
      · exact some_ne_none _

/-- The entry taken is one of the lists' first entries, and what is left is the rest. -/
theorem flatten_modify (h : best ls = some (i, x)) :
    (x :: (ls.modify i List.tail).flatten).Perm ls.flatten := by
  induction ls generalizing i x with
  | nil => cases h
  | cons l ls ih =>
    cases l with
    | nil =>
      rw [best, map_eq_some_iff] at h
      obtain ⟨⟨j, y⟩, hbest, heq⟩ := h
      cases heq
      rw [modify_succ_cons, flatten_cons, flatten_cons, nil_append]
      exact ih hbest
    | cons y l =>
      rw [best] at h
      have hself : (y :: (((y :: l) :: ls).modify 0 List.tail).flatten).Perm
          ((y :: l) :: ls).flatten := by
        rw [modify_zero_cons, tail_cons, flatten_cons, flatten_cons, cons_append]
      split at h
      · next j z hbest =>
        split at h
        · cases h
          rw [modify_succ_cons, flatten_cons, flatten_cons]
          exact perm_middle.symm.trans ((ih hbest).append_left _)
        · cases h
          exact hself
      · cases h
        exact hself

/-- It is the least of all entries when the lists are sorted. -/
theorem best_le (hs : ∀ l ∈ ls, l.Pairwise (· ≤ ·)) (h : best ls = some (i, x)) :
    ∀ y ∈ ls.flatten, x ≤ y := by
  induction ls generalizing i x with
  | nil => cases h
  | cons l ls ih =>
    have hrest := fun l hl => hs l (mem_cons_of_mem _ hl)
    cases l with
    | nil =>
      rw [best, map_eq_some_iff] at h
      obtain ⟨⟨j, z⟩, hbest, heq⟩ := h
      cases heq
      rw [flatten_cons, nil_append]
      exact ih hrest hbest
    | cons z l =>
      have hz : ∀ y ∈ z :: l, z ≤ y := by
        have hsorted := pairwise_cons.mp (hs _ mem_cons_self)
        intro y hy
        obtain rfl | hy := mem_cons.mp hy
        · exact le_refl _
        · exact hsorted.1 y hy
      rw [best] at h
      intro y hy
      rw [flatten_cons, mem_append] at hy
      split at h
      · next j w hbest =>
        split at h
        · next hlt =>
          cases h
          exact hy.elim (fun hy => hlt.le.trans (hz y hy)) (ih hrest hbest y)
        · next hge =>
          cases h
          exact hy.elim (hz y) fun hy => (not_lt.mp hge).trans (ih hrest hbest y hy)
      · next hbest =>
        cases h
        refine hy.elim (hz y) fun hy => ?_
        rw [best_eq_none.mp hbest] at hy
        exact absurd hy not_mem_nil

theorem pairwise_modify (hs : ∀ l ∈ ls, l.Pairwise (· ≤ ·)) (i : ℕ) :
    ∀ l ∈ ls.modify i List.tail, l.Pairwise (· ≤ ·) := by
  intro l hl
  obtain ⟨j, hj⟩ := mem_iff_getElem?.mp hl
  rw [List.getElem?_modify, Option.map_eq_map, map_eq_some_iff] at hj
  obtain ⟨l', hl', rfl⟩ := hj
  have hsorted := hs l' (mem_of_getElem? hl')
  split
  · exact hsorted.sublist (tail_sublist l')
  · exact hsorted

theorem take_perm {n : ℕ} (hn : ls.flatten.length = n) : (take n ls).Perm ls.flatten := by
  induction n generalizing ls with
  | zero =>
    rw [length_eq_zero_iff.mp hn]
    exact List.Perm.refl _
  | succ n ih =>
    rw [take]
    split
    · next i x hbest =>
      have hperm := flatten_modify hbest
      have hlen := hperm.length_eq
      rw [length_cons, hn, Nat.add_right_cancel_iff] at hlen
      exact ((ih hlen).cons x).trans hperm
    · next hbest =>
      rw [best_eq_none.mp hbest] at hn
      cases hn

theorem pairwise_take {n : ℕ} (hn : ls.flatten.length = n) (hs : ∀ l ∈ ls, l.Pairwise (· ≤ ·))
    : (take n ls).Pairwise (· ≤ ·) := by
  induction n generalizing ls with
  | zero => exact List.Pairwise.nil
  | succ n ih =>
    rw [take]
    split
    · next i x hbest =>
      have hperm := flatten_modify hbest
      have hlen := hperm.length_eq
      rw [length_cons, hn, Nat.add_right_cancel_iff] at hlen
      refine pairwise_cons.mpr ⟨fun y hy => ?_, ih hlen (pairwise_modify hs i)⟩
      exact best_le hs hbest y (hperm.subset (mem_cons_of_mem _ ((take_perm hlen).subset hy)))
    · exact List.Pairwise.nil

/-- **The merge** has the entries of the lists. -/
theorem merge_perm (ls : List (List α)) : (merge ls).Perm ls.flatten := take_perm rfl

/-- **The merge of sorted lists** is sorted. -/
theorem pairwise_merge (hs : ∀ l ∈ ls, l.Pairwise (· ≤ ·)) : (merge ls).Pairwise (· ≤ ·) :=
  pairwise_take rfl hs

/-- It has no entry twice when the lists have none. -/
theorem pairwise_lt_merge (hs : ∀ l ∈ ls, l.Pairwise (· ≤ ·)) (hd : ls.flatten.Nodup) :
    (merge ls).Pairwise (· < ·) :=
  ((pairwise_merge hs).and ((merge_perm ls).nodup_iff.mpr hd)).imp fun h => lt_of_le_of_ne h.1 h.2

end Merging
