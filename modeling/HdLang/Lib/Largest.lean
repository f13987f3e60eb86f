import Mathlib.Data.List.Nodup
import Mathlib.Order.Lattice

/-!
# The largest value of each key

A list that holds one entry for each key, the largest seen so far: `keep` puts one more entry in.
What the list holds after a series of entries is read off its `Kept` invariant, which does not
depend on the order of the series.
-/

universe u v w

namespace Largest

open List

variable {α : Type u} {κ : Type v} {β : Type w} [DecidableEq κ] (key : α → κ)
  (larger : α → α → Bool)

/-- Puts `x` in the place of the entry with its key when it is larger, and at the end when there is
none. -/
@[grind =] def keep : List α → α → List α
  | [], x => [x]
  | b :: rest, x =>
    if key b = key x then (if larger x b then x :: rest else b :: rest) else b :: keep rest x

variable {key larger} {L : List α} {x y : α}

theorem mem_keep_cases (h : y ∈ keep key larger L x) : y = x ∨ y ∈ L := by
  induction L with
  | nil => simpa [keep] using h
  | cons b rest ih =>
    rw [keep] at h
    split at h
    · split at h
      · exact (mem_cons.mp h).imp id (mem_cons_of_mem b)
      · exact Or.inr h
    · obtain rfl | h := mem_cons.mp h
      · exact Or.inr (mem_cons_self ..)
      · exact (ih h).imp id (mem_cons_of_mem b)

theorem mem_map_keep {k : κ} :
    k ∈ (keep key larger L x).map key ↔ k = key x ∨ k ∈ L.map key := by
  induction L with
  | nil => simp [keep]
  | cons b rest ih =>
    rw [keep]
    split
    · next heq =>
      split
      · simp [heq]
      · simp only [map_cons, mem_cons, heq]
        tauto
    · simp only [map_cons, mem_cons, ih]
      tauto

theorem nodup_keep (h : (L.map key).Nodup) : ((keep key larger L x).map key).Nodup := by
  induction L with
  | nil => simp [keep]
  | cons b rest ih =>
    rw [map_cons, nodup_cons] at h
    rw [keep]
    split
    · next heq =>
      split
      · rw [map_cons, nodup_cons, ← heq]
        exact h
      · rw [map_cons, nodup_cons]
        exact h
    · next hne =>
      rw [map_cons, nodup_cons, mem_map_keep]
      exact ⟨fun hk => hk.elim hne h.1, ih h.2⟩

section Order

variable [LinearOrder β] {val : α → β}

theorem keep_le_self (hlarger : ∀ a b, larger a b = true ↔ val b < val a) :
    ∃ e ∈ keep key larger L x, key e = key x ∧ val x ≤ val e := by
  induction L with
  | nil => exact ⟨x, by simp [keep], rfl, le_rfl⟩
  | cons b rest ih =>
    rw [keep]
    split
    · next heq =>
      split
      · exact ⟨x, mem_cons_self .., rfl, le_rfl⟩
      · next hnot =>
        refine ⟨b, mem_cons_self .., heq, ?_⟩
        rw [hlarger, not_lt] at hnot
        exact hnot
    · obtain ⟨e, he, hk, hv⟩ := ih
      exact ⟨e, mem_cons_of_mem b he, hk, hv⟩

theorem keep_le_old (hlarger : ∀ a b, larger a b = true ↔ val b < val a) (hy : y ∈ L) :
    ∃ e ∈ keep key larger L x, key e = key y ∧ val y ≤ val e := by
  induction L with
  | nil => cases hy
  | cons b rest ih =>
    rw [keep]
    split
    · next heq =>
      obtain rfl | hy := mem_cons.mp hy
      · split
        · next hlt => exact ⟨x, mem_cons_self .., heq.symm, le_of_lt ((hlarger x y).mp hlt)⟩
        · exact ⟨y, mem_cons_self .., rfl, le_rfl⟩
      · split
        · exact ⟨y, mem_cons_of_mem x hy, rfl, le_rfl⟩
        · exact ⟨y, mem_cons_of_mem b hy, rfl, le_rfl⟩
    · obtain rfl | hy := mem_cons.mp hy
      · exact ⟨y, mem_cons_self .., rfl, le_rfl⟩
      · obtain ⟨e, he, hk, hv⟩ := ih hy
        exact ⟨e, mem_cons_of_mem b he, hk, hv⟩

/-- `L` holds the largest of the entries `seen`, one for each key. -/
structure Kept (key : α → κ) (val : α → β) (seen : α → Prop) (L : List α) : Prop where
  nodup : (L.map key).Nodup
  seen_of_mem : ∀ e ∈ L, seen e
  largest : ∀ y, seen y → ∃ e ∈ L, key e = key y ∧ val y ≤ val e

namespace Kept

variable {seen : α → Prop}

omit [DecidableEq κ] in
theorem nil : Kept key val (fun _ => False) ([] : List α) := ⟨by simp, by simp, fun _ h => h.elim⟩

/-- **One more entry.** -/
theorem insert (hlarger : ∀ a b, larger a b = true ↔ val b < val a) (hL : Kept key val seen L) :
    Kept key val (fun y => y = x ∨ seen y) (keep key larger L x) where
  nodup := nodup_keep hL.nodup
  seen_of_mem := fun e he => (mem_keep_cases he).imp id (hL.seen_of_mem e)
  largest := by
    have hself : ∃ e ∈ keep key larger L x, key e = key x ∧ val x ≤ val e := keep_le_self hlarger
    rintro y (rfl | hy)
    · exact hself
    · obtain ⟨e, he, hk, hv⟩ := hL.largest y hy
      have hold : ∃ e' ∈ keep key larger L x, key e' = key e ∧ val e ≤ val e' :=
        keep_le_old hlarger he
      obtain ⟨e', he', hk', hv'⟩ := hold
      exact ⟨e', he', hk'.trans hk, le_trans hv hv'⟩

omit [DecidableEq κ] in
theorem congr {seen' : α → Prop} (hL : Kept key val seen L) (h : ∀ y, seen y ↔ seen' y) :
    Kept key val seen' L where
  nodup := hL.nodup
  seen_of_mem := fun e he => (h e).mp (hL.seen_of_mem e he)
  largest := fun y hy => hL.largest y ((h y).mpr hy)

end Kept

end Order

end Largest
