import Mathlib.Order.Interval.Finset.Nat

/-!
# Linear probing over a ring of words

An index over a ring of `N` words: a word is zero when it is free and one more than the number of an
entry otherwise. Entries are numbered as they come, and an entry goes to the first free word from its
home, so that on the way there stand earlier entries only (`Index.reach`). That is what makes probing
exact: up to the place where a probe stops, it has met every entry of the same home that it must know
of (`Index.before`). Words are never freed, so an index with fewer entries than words keeps a free
one, and every probe ends (`Index.exists_free`).
-/

namespace Probe

open Function Nat Finset

/-- The word `d` places after `start`. -/
def place (N start d : ℕ) : ℕ := (start + d) % N

variable {N bound start d : ℕ} {words : ℕ → ℕ} {home : ℕ → Option ℕ}

theorem place_lt (start d : ℕ) (hN : 0 < N) : place N start d < N := mod_lt _ hN

theorem place_succ : place N start (d + 1) = (place N start d + 1) % N := by
  unfold place
  rw [mod_add_mod, Nat.add_assoc]

theorem place_zero (h : start < N) : place N start 0 = start := mod_eq_of_lt h

theorem exists_place {i : ℕ} (hstart : start < N) (hi : i < N) : ∃ d < N, place N start d = i := by
  unfold place
  by_cases h : start ≤ i
  · refine ⟨i - start, by omega, ?_⟩
    rw [Nat.add_sub_cancel' h, mod_eq_of_lt hi]
  · refine ⟨N - start + i, by omega, ?_⟩
    rw [show start + (N - start + i) = i + N by omega, add_mod_right, mod_eq_of_lt hi]

/-- The ring `words` indexes the entries below `bound`: an entry with a home is found from it. -/
structure Index (N bound : ℕ) (words : ℕ → ℕ) (home : ℕ → Option ℕ) : Prop where
  le : ∀ i < N, words i ≤ bound
  inj : ∀ i < N, ∀ j < N, words i ≠ 0 → words i = words j → i = j
  reach : ∀ e start, home e = some start → ∃ d < N, words (place N start d) = e + 1 ∧
    ∀ k < d, words (place N start k) ≠ 0 ∧ words (place N start k) ≤ e

namespace Index

theorem empty (hwords : ∀ i < N, words i = 0) : Index N 0 words fun _ => none where
  le i hi := Nat.le_of_eq (hwords i hi)
  inj i hi _ _ hne _ := absurd (hwords i hi) hne
  reach _ _ h := nomatch h

section

variable (h : Index N bound words home)
include h

theorem forget {home' : ℕ → Option ℕ}
    (hhome : ∀ e start, home' e = some start → home e = some start) :
    Index N bound words home' where
  __ := h
  reach e start he := h.reach e start (hhome e start he)

theorem exists_free (hlt : bound < N) (hstart : start < N) :
    ∃ d < N, words (place N start d) = 0 := by
  have hfree : ∃ i < N, words i = 0 := by
    by_contra hnone
    have hne : ∀ i < N, words i ≠ 0 := fun i hi h0 => hnone ⟨i, hi, h0⟩
    have hmaps : ∀ i ∈ range N, words i ∈ Finset.Icc 1 bound := fun i hi =>
      have hi := mem_range.mp hi
      mem_Icc.mpr ⟨one_le_iff_ne_zero.mpr (hne i hi), h.le i hi⟩
    have hcard : (Finset.Icc 1 bound).card < (range N).card := by
      rw [Nat.card_Icc, card_range, Nat.add_sub_cancel]
      exact hlt
    -- two of the `N` words would hold the same entry
    obtain ⟨i, hi, j, hj, hij, heq⟩ := exists_ne_map_eq_of_card_lt_of_maps_to hcard hmaps
    have hi := mem_range.mp hi
    exact hij (h.inj i hi j (mem_range.mp hj) (hne i hi) heq)
  obtain ⟨i, hi, h0⟩ := hfree
  obtain ⟨d, hd, hplace⟩ := exists_place hstart hi
  exact ⟨d, hd, by rw [hplace, h0]⟩

/-- Before a probe meets a free word or a later entry it has met entry `e`. -/
theorem before {e : ℕ} (he : home e = some start)
    (hstop : words (place N start d) = 0 ∨ e + 1 < words (place N start d)) :
    ∃ k < d, words (place N start k) = e + 1 := by
  obtain ⟨de, -, hword, hpath⟩ := h.reach e start he
  by_contra hnone
  have hle : d ≤ de := by
    by_contra hlt
    exact hnone ⟨de, Nat.lt_of_not_le hlt, hword⟩
  cases Nat.eq_or_lt_of_le hle with
  | inl heq => rw [heq] at hstop; omega
  | inr hlt => have hd := hpath d hlt; omega

/-- The next entry goes to the first free word from its home. -/
theorem insert (hd : d < N) (hfree : words (place N start d) = 0)
    (hpath : ∀ k < d, words (place N start k) ≠ 0) :
    Index N (bound + 1) (Function.update words (place N start d) (bound + 1))
      (Function.update home bound (some start)) := by
  have hN : 0 < N := zero_lt_of_lt hd
  have hkeep : ∀ i, words i ≠ 0 →
      Function.update words (place N start d) (bound + 1) i = words i := fun i hi =>
    update_of_ne (fun heq => hi (by rw [heq, hfree])) _ _
  have hnew : Function.update words (place N start d) (bound + 1) (place N start d) = bound + 1 :=
    update_self _ _ _
  refine ⟨fun i hi => ?_, fun i hi j hj hne heq => ?_, fun e from_ he => ?_⟩
  · by_cases hplace : i = place N start d
    · rw [hplace, hnew]
    · rw [update_of_ne hplace]
      exact (h.le i hi).trans (le_succ _)
  · by_cases hi' : i = place N start d
    · by_cases hj' : j = place N start d
      · rw [hi', hj']
      · rw [hi', hnew, update_of_ne hj'] at heq
        have := h.le j hj
        omega
    · by_cases hj' : j = place N start d
      · rw [hj', hnew, update_of_ne hi'] at heq
        have := h.le i hi
        omega
      · rw [update_of_ne hi'] at hne heq
        rw [update_of_ne hj'] at heq
        exact h.inj i hi j hj hne heq
  · by_cases hbound : e = bound
    · rw [hbound, update_self] at he
      have hstart : start = from_ := Option.some.inj he
      subst hstart
      refine ⟨d, hd, by rw [hnew, hbound], fun k hk => ?_⟩
      rw [hkeep _ (hpath k hk), hbound]
      exact ⟨hpath k hk, h.le _ (place_lt _ _ hN)⟩
    · rw [update_of_ne hbound] at he
      obtain ⟨de, hde, hword, hbefore⟩ := h.reach e from_ he
      refine ⟨de, hde, ?_, fun k hk => ?_⟩
      · rw [hkeep _ (by omega), hword]
      · rw [hkeep _ (hbefore k hk).1]
        exact hbefore k hk

end

end Index

end Probe
