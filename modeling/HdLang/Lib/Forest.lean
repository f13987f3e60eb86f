import Mathlib.Data.Nat.Log
import Mathlib.Order.Interval.Finset.Nat

/-!
# Union by rank

A forest on the numbers below `n`, by the parent of each: a root is its own parent. `Ranked` is what
union by rank keeps of the ranks, and bounds the length of every walk to a root by the logarithm of
`n` (`Ranked.climb`). It holds of single nodes (`Ranked.grow`) and is kept when one root is linked to
another of no smaller rank (`Ranked.link`).
-/

namespace Forest

open Function Finset

/-- The nodes below `n` that reach `r`. -/
noncomputable def members (n : ℕ) (up : ℕ → ℕ) (r : ℕ) : Finset ℕ :=
  open Classical in (Finset.range n).filter fun v => ∃ k, up^[k] v = r

/-- The forest of a union by rank. -/
structure Ranked (n : ℕ) (up rank : ℕ → ℕ) : Prop where
  inside : ∀ v < n, up v < n
  rises : ∀ v < n, up v ≠ v → rank v < rank (up v)
  full : ∀ r < n, up r = r → 2 ^ rank r ≤ (members n up r).card

variable {n : ℕ} {up rank : ℕ → ℕ}

theorem mem_members {r v : ℕ} : v ∈ members n up r ↔ v < n ∧ ∃ k, up^[k] v = r := by
  simp [members]

variable {v r k : ℕ}

theorem root_unique {s j : ℕ} (hr : up r = r) (hs : up s = s) (hj : up^[j] v = r)
    (hk : up^[k] v = s) : r = s := by
  have hlong : ∀ {a b i}, up a = a → up^[i] v = a → up^[b + i] v = a := fun ha hi => by
    rw [iterate_add_apply, hi, iterate_fixed ha]
  calc r = up^[k + j] v := (hlong hr hj).symm
    _ = up^[j + k] v := by rw [Nat.add_comm]
    _ = s := hlong hs hk

namespace Ranked

theorem of_empty : Ranked 0 up rank :=
  ⟨fun _ h => absurd h (Nat.not_lt_zero _), fun _ h => absurd h (Nat.not_lt_zero _),
    fun _ h => absurd h (Nat.not_lt_zero _)⟩

variable {up' rank' : ℕ → ℕ}

section

variable (h : Ranked n up rank)
include h

theorem congr (hup : ∀ v < n, up' v = up v) (hrank : ∀ v < n, rank' v = rank v)
    : Ranked n up' rank' := by
  have hiter : ∀ k, ∀ v < n, up'^[k] v = up^[k] v := by
    intro k
    induction k with
    | zero => exact fun _ _ => rfl
    | succ k ih =>
      intro v hv
      rw [iterate_succ_apply, iterate_succ_apply, hup v hv]
      exact ih _ (h.inside v hv)
  have hmembers : ∀ r, members n up' r = members n up r := by
    intro r
    ext v
    rw [mem_members, mem_members]
    apply and_congr_right
    intro hv
    exact exists_congr fun k => by rw [hiter k v hv]
  refine ⟨fun v hv => ?_, fun v hv hne => ?_, fun r hr hroot => ?_⟩
  · rw [hup v hv]
    exact h.inside v hv
  · rw [hup v hv] at hne ⊢
    rw [hrank v hv, hrank _ (h.inside v hv)]
    exact h.rises v hv hne
  · rw [hup r hr] at hroot
    rw [hrank r hr, hmembers]
    exact h.full r hr hroot

/-- The rank of a root is at most the logarithm of the number of nodes. -/
theorem rank_le (hr : r < n) (hroot : up r = r) :
    rank r ≤ Nat.log 2 n := by
  apply Nat.le_log_of_pow_le Nat.one_lt_two
  calc 2 ^ rank r ≤ (members n up r).card := h.full r hr hroot
    _ ≤ (range n).card := card_le_card fun v hv =>
      mem_range.mpr (mem_members.mp hv).1
    _ = n := card_range n

/-- **A walk to a root** takes no more steps than its rank. -/
theorem climb (hv : v < n) :
    ∃ k r, up^[k] v = r ∧ up r = r ∧ r < n ∧ rank v + k ≤ rank r := by
  -- ranks rise along the walk, so how far the rank is below the largest one decreases
  have hbound : ∀ u < n, rank u ≤ (range n).sup rank := fun u hu =>
    le_sup (f := rank) (mem_range.mpr hu)
  generalize hd : (range n).sup rank - rank v = d
  induction d using Nat.strong_induction_on generalizing v with
  | _ d ih =>
    by_cases hroot : up v = v
    · exact ⟨0, v, rfl, hroot, hv, Nat.le_refl _⟩
    · have hrise := h.rises v hv hroot
      have hin := h.inside v hv
      have htop := hbound _ hin
      obtain ⟨k, r, hk, hr, hrn, hle⟩ := ih ((range n).sup rank - rank (up v)) (by omega) hin rfl
      exact ⟨k + 1, r, by rw [iterate_succ_apply, hk], hr, hrn, by omega⟩

theorem grow (hup : ∀ v < n, up' v = up v) (hrank : ∀ v < n, rank' v = rank v) (hn : up' n = n)
    (hzero : rank' n = 0) :
    Ranked (n + 1) up' rank' := by
  have h' := h.congr hup hrank
  refine ⟨fun v hv => ?_, fun v hv hne => ?_, fun r hr hroot => ?_⟩
  · obtain hlt | rfl := Nat.lt_succ_iff_lt_or_eq.mp hv
    · exact Nat.lt_succ_of_lt (h'.inside v hlt)
    · rw [hn]
      exact hv
  · obtain hlt | rfl := Nat.lt_succ_iff_lt_or_eq.mp hv
    · exact h'.rises v hlt hne
    · exact absurd hn hne
  · obtain hlt | rfl := Nat.lt_succ_iff_lt_or_eq.mp hr
    · refine (h'.full r hlt hroot).trans (card_le_card fun v hv => ?_)
      have := mem_members.mp hv
      exact mem_members.mpr ⟨Nat.lt_succ_of_lt this.1, this.2⟩
    · rw [hzero, pow_zero, Nat.one_le_iff_ne_zero, card_ne_zero]
      exact ⟨r, mem_members.mpr ⟨hr, 0, rfl⟩⟩

end

section Link

variable {child root : ℕ}

/-- Linking `child` to `root` keeps the walks that end elsewhere, and those that end at `child` go on
to `root`. -/
theorem reaches_link (hne : child ≠ root) (hchild : up child = child) (hk : up^[k] v = r) :
    ∃ j, (Function.update up child root)^[j] v = if r = child then root else r := by
  induction k generalizing v with
  | zero =>
    obtain rfl : v = r := hk
    split
    · next h => exact ⟨1, by rw [iterate_one, h, update_self]⟩
    · exact ⟨0, rfl⟩
  | succ k ih =>
    by_cases hv : v = child
    · subst hv
      have hr : r = v := by rw [← hk, iterate_fixed hchild]
      rw [if_pos hr]
      exact ⟨1, by rw [iterate_one, update_self]⟩
    · obtain ⟨j, hj⟩ := ih (v := up v) (by rw [← iterate_succ_apply, hk])
      exact ⟨j + 1, by rw [iterate_succ_apply, update_of_ne hv, hj]⟩

/-- **Linking** a root to another of no smaller rank, which grows when the two are equal. -/
theorem link (h : Ranked n up rank) (hc : child < n) (hr : root < n) (hne : child ≠ root)
    (hchild : up child = child) (hroot : up root = root) (hle : rank child ≤ rank root) {grown : ℕ}
    (hgrown : grown = if rank child = rank root then rank root + 1 else rank root) :
    Ranked n (Function.update up child root) (Function.update rank root grown) := by
  have hlow : rank child < grown := by rw [hgrown]; split <;> omega
  have hup : rank root ≤ grown := by rw [hgrown]; split <;> omega
  refine ⟨fun v hv => ?_, fun v hv hmoves => ?_, fun r hrn hself => ?_⟩
  · by_cases hvc : v = child
    · rw [hvc, update_self]
      exact hr
    · rw [update_of_ne hvc]
      exact h.inside v hv
  · by_cases hvc : v = child
    · subst hvc
      rw [update_self, update_self, update_of_ne hne]
      exact hlow
    · rw [update_of_ne hvc] at hmoves ⊢
      have hvr : v ≠ root := fun hv => hmoves (hv ▸ hroot)
      rw [update_of_ne hvr]
      have hrise := h.rises v hv hmoves
      by_cases hto : up v = root
      · rw [hto, update_self]
        rw [hto] at hrise
        omega
      · rw [update_of_ne hto]
        exact hrise
  · have hrc : r ≠ child := by
      rintro rfl
      rw [update_self] at hself
      exact hne hself.symm
    rw [update_of_ne hrc] at hself
    -- what reached `r` still does
    have hkeep : members n up r ⊆ members n (Function.update up child root) r := fun v hv => by
      obtain ⟨hvn, k, hk⟩ := mem_members.mp hv
      obtain ⟨j, hj⟩ := reaches_link hne hchild hk
      exact mem_members.mpr ⟨hvn, j, by rw [hj, if_neg hrc]⟩
    by_cases hrr : r = root
    · subst hrr
      rw [update_self]
      have hgain : members n up child ⊆ members n (Function.update up child r) r := fun v hv => by
        obtain ⟨hvn, k, hk⟩ := mem_members.mp hv
        obtain ⟨j, hj⟩ := reaches_link hne hchild hk
        exact mem_members.mpr ⟨hvn, j, by rw [hj, if_pos rfl]⟩
      have hapart : Disjoint (members n up child) (members n up r) := by
        rw [disjoint_left]
        intro v hv hv'
        obtain ⟨-, k, hk⟩ := mem_members.mp hv
        obtain ⟨-, j, hj⟩ := mem_members.mp hv'
        exact hne (root_unique hchild hself hk hj)
      have hcard : (members n up child).card + (members n up r).card ≤
          (members n (Function.update up child r) r).card := by
        rw [← card_union_of_disjoint hapart]
        exact card_le_card (union_subset hgain hkeep)
      have hfullc := h.full child hc hchild
      have hfullr := h.full r hr hself
      rw [hgrown]
      split
      · next heq =>
        rw [heq] at hfullc
        rw [pow_succ]
        omega
      · omega
    · rw [update_of_ne hrr]
      exact (h.full r hrn hself).trans (card_le_card hkeep)

end Link

end Ranked
end Forest
